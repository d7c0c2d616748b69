/-
# Which nodes a verb acts on

The synchronous front half of the verbs: the seed of a control command, the
closures over dependents and dependencies, the pass of `activate` that lifts
collateral holds, the cascade of `apply_bind`, and the selections that
`stop_nodes` and `start_nodes` make before their waves begin.

Each pass of the source over the topological order is a `sweep` or a `spread`
here, with the per-slot value the source keeps in its arrays.
-/

import EmbassySupervisor.Wave.StopWave
import EmbassySupervisor.Wave.StartWave

namespace EmbassySupervisor

open DependencyOrder

variable {n : ℕ}

namespace Graph

variable (g : Graph n) (w : World n)

/-! ## Closures -/

/-- The target and, where it is a member of a pool, the members of that pool. -/
def seed (target j : Fin n) : Bool :=
  g.occupied j && (j == target ||
    (g.has .pools && g.pools.any fun members => members.contains target && members.contains j))

/-- Grow a set by the dependents of its members; a detached node neither joins
nor passes the set on. -/
def collectDependents (set : Fin n → Bool) : Fin n → Bool :=
  sweep (fun j set =>
    set j || (g.occupied j && !w.flag j .detached && (g.deps j).any set)) g.order set

/-- Grow a set by the dependencies of its members, dependents first; those of a
detached member are left out. -/
def collectDependencies (set : Fin n → Bool) : Fin n → Bool :=
  spread (fun j => !(g.occupied j && w.flag j .detached)) g.deps g.order.reverse set

/-! ## The latch passes of `activate` -/

/-- Clear the manual stop of the members that are not detached. -/
def enable (set : Fin n → Bool) : World n :=
  { w with
    node := fun j =>
      if set j && g.occupied j && !w.flag j .detached then (w.node j).setDisabled false
      else w.node j }

/-- What the second latch pass keeps for one slot: whether it is disabled or
depends on a disabled node, whether its collateral hold was lifted, its handle. -/
structure Release where
  held : Bool
  revive : Bool
  handle : TaskHandle

def releaseVisit (j : Fin n) (s : Fin n → Release) : Release :=
  let h := (s j).handle
  if !g.occupied j || h.flags .detached then s j
  else
    let blocked := (g.deps j).any fun d => (s d).held
    let free := !blocked && h.flags .collateral
    { held := blocked || h.flags .disabled
      revive := free && !h.flags .disabled
      handle := if free then h.flagPut .collateral false else h }

/-- Lift the collateral holds that no disabled node justifies any more. -/
def release : Fin n → Release :=
  sweep g.releaseVisit g.order fun j => { held := false, revive := false, handle := w.node j }

/-! ## The cascade of `apply_bind` -/

/-- Whether a slot stops, given the slots found to stop so far: a bound provider
does not serve or is among them. -/
def boundVisit (j : Fin n) (stopping : Fin n → Bool) : Bool :=
  match g.nodes j with
  | none => stopping j
  | some cfg =>
    if w.flag j .detached || !w.flag j .running then stopping j
    else
      cfg.boundDeps.any fun d =>
        !w.isServing d || (List.finRange n).any fun k => stopping k && g.occupied k && k == d

/-- The running nodes to stop because a bound provider does not serve or stops
with them. -/
def boundStopping : Fin n → Bool := sweep (g.boundVisit w) g.order fun _ => false

/-! ## Selections -/

/-- The selection of `stop_nodes`, dependents first: `select` says of each slot
whether it is chosen, and may latch something in its handle on the way. -/
def selectNodes (select : Fin n → TaskHandle → Bool × TaskHandle) : Fin n → Bool × TaskHandle :=
  sweep (fun j s => if g.occupied j then select j (s j).2 else s j) g.order.reverse
    fun j => (false, w.node j)

/-- `stop_nodes` up to the beginning of its wave. -/
def stopNodes (select : Fin n → TaskHandle → Bool × TaskHandle) (keepGoing : Bool) :
    StopWave n × World n :=
  let picked := g.selectNodes w select
  let w := { w with node := fun j => (picked j).2 }
  (StopWave.launch g w (fun j => (picked j).1) keepGoing, w)

/-- `start_nodes` up to the beginning of its wave. -/
def startNodes (select : Fin n → NodeCfg n → TaskHandle → Bool) (keepGoing : Bool) :
    StartWave n :=
  StartWave.launch g w (fun j => (g.nodes j).any fun cfg => select j cfg (w.node j)) keepGoing

/-- An `OnDemand` node of a graph that has any. -/
def deferred (cfg : NodeCfg n) : Bool := g.has .onDemand && cfg.mode == .onDemand

/-- The pass of `start` over the `enabled_if` predicates, given their answers. -/
def disableBy (enabled : Fin n → Bool) : World n :=
  { w with
    node := fun j =>
      if (g.nodes j).any (·.enabledIf) && !w.flag j .running && !w.flag j .detached &&
        !enabled j then (w.node j).setDisabled true
      else w.node j }

end Graph

/-! ## The predicates of the verbs -/

namespace World

variable (w : World n) (cfg : NodeCfg n) (j : Fin n)

/-- A parked instance that `resume_node` may resume. -/
def resumable : Bool :=
  cfg.mode == .pause && !w.flag j .disabled && !w.flag j .collateral &&
    !w.flag j .detached && w.hasAckedStop j

/-- The second phase of `apply_bind` may act on the slot: it is down on account
of a bound provider, not held, and its bound dependencies serve again. -/
def bindable : Bool :=
  w.flag j .boundStopped && !w.flag j .disabled && !w.flag j .collateral &&
    !w.flag j .detached && !w.flag j .running && cfg.boundDeps.all fun d => w.isServing d

end World

/-- Running and not detached: what `teardown` stops. -/
def TaskHandle.isStoppable (h : TaskHandle) : Bool := h.flags .running && !h.flags .detached

/-- Latch a deactivation in a handle and choose it if it runs. -/
def TaskHandle.latchDeactivated (h : TaskHandle) (seeded : Bool) : Bool × TaskHandle :=
  let h := if seeded then h.setDisabled true else h.flagPut .collateral true
  (h.flags .running, h)

/-- What `bindable` tests, one by one. -/
theorem World.bindable_iff {w : World n} {cfg : NodeCfg n} {j : Fin n} :
    w.bindable cfg j = true ↔ w.flag j .boundStopped = true ∧ w.flag j .disabled = false ∧
      w.flag j .collateral = false ∧ w.flag j .detached = false ∧
      w.flag j .running = false ∧ ∀ d ∈ cfg.boundDeps, w.isServing d = true := by
  simp [World.bindable, and_assoc]

/-! ## Selections slot by slot -/

variable {g : Graph n} {w : World n}

/-- A selection treats every slot by itself. -/
theorem selectNodes_apply (select : Fin n → TaskHandle → Bool × TaskHandle) (j : Fin n) :
    g.selectNodes w select j =
      if g.occupied j then select j (w.node j) else (false, w.node j) := by
  have hrev : TopologicalOrder (fun _ : Fin n => []) g.order.reverse :=
    ⟨List.nodup_reverse.mpr g.topological.nodup, by simp [g.mem_order],
      by simp [List.pairwise_iff_forall_sublist], by simp⟩
  unfold Graph.selectNodes
  rw [sweep_apply hrev]
  · simp
  · intro j s t _ hst
    simp [hst]

end EmbassySupervisor
