/-
# Starting and stopping one node

`start_node` waits for each gate of the node in turn, each within its own budget
and parked on the gate's own latch, then spawns the node once its previous
instance has let go. `stop_node` signals the node and waits for its
acknowledgement. Both are split at their awaits: an entry runs to the first one,
a step from one to the next.

A wait is polled latch first, deadline second, as the source's `select` and
`with_timeout` poll it. A gate is looked at again only when its latch fires, so
the deadline alone faults the node.
-/

import EmbassySupervisor.Wave.StopWave
import EmbassySupervisor.Wave.StartWave

namespace EmbassySupervisor

variable {n : ℕ}

/-- A gate `start_node` waits for: the executor slot, a resource slot, the
readiness of a dependency. -/
inductive Gate (n : ℕ)
  | exec (slot : ℕ)
  | resource (gate : ℕ)
  | ready (dep : Fin n)
  deriving DecidableEq, Repr

namespace Gate

def satisfied (w : World n) : Gate n → Bool
  | .exec s => (w.slot s).filled
  | .resource r => (w.gate r).filled
  | .ready d => w.flag d .ready

/-- The latch the wait is parked on has fired. -/
def latched (w : World n) : Gate n → Bool
  | .exec s => (w.slot s).filledWake
  | .resource r => (w.gate r).filledWake
  | .ready d => (w.node d).readyWake

def takeLatch (w : World n) : Gate n → World n
  | .exec s => { w with slot := Function.update w.slot s { w.slot s with filledWake := false } }
  | .resource r => { w with gate := Function.update w.gate r { w.gate r with filledWake := false } }
  | .ready d => w.onNode d fun h => { h with readyWake := false }

/-- The fault of a wait that ran out. -/
def fault : Gate n → FaultKind n
  | .exec _ => .executorSlotEmpty
  | .resource _ => .resourceMissing
  | .ready d => .readyDepTimeout d

end Gate

/-- Where a `start_node` waits: at a gate with the rest still to come, for the
resident shell to settle, or after a `Busy` spawn for a fence pass, for any gate
event, or for one yield. -/
inductive StartPhase (n : ℕ)
  | gate (cur : Gate n) (rest : List (Gate n)) (deadline : ℕ)
  | settle (deadline : ℕ)
  | pass (seen deadline : ℕ)
  | event (deadline : ℕ)
  | yield (deadline : ℕ)
  deriving DecidableEq, Repr

/-- What a stretch of `start_node` ends in: another wait, or the verb's result. -/
inductive StartEnd (n : ℕ)
  | wait (phase : StartPhase n)
  | done (r : Outcome n)
  deriving DecidableEq, Repr

/-- The gates of a node in the order of `await_gates`, the absent kinds left out. -/
def Graph.gatesOf (g : Graph n) (cfg : NodeCfg n) : List (Gate n) :=
  (if g.has .execSlots then cfg.spawnSlot.toList.map .exec else []) ++
    (if g.has .resources then cfg.resourceGates.map .resource else []) ++
    (if g.has .readyDeps then cfg.readyDeps.map .ready else [])

/-! ## `start_node` -/

namespace World

variable (w : World n) (cfg : NodeCfg n)

/-- A wait for a gate ran out: on a bound dependency the node is parked for it,
otherwise the fault is reported. -/
def gateFault (j : Fin n) (kind : FaultKind n) : StartEnd n × World n :=
  if kind.onBoundDep cfg then (.done none, w.boundPark j)
  else (.done (some { node := j, kind }), w.note j (.faulted kind))

def spawnFault (j : Fin n) : StartEnd n × World n :=
  (.done (some { node := j, kind := .spawn }), w.note j (.faulted .spawn))

/-- The loop body of `spawn_settled`: reset, spawn, and after a `Busy` wait for a
pass of the executor. -/
def spawnAttempt (sp : Spawn) (j : Fin n) (deadline : ℕ) : StartEnd n × World n :=
  let w := w.reset j
  match w.spawn cfg sp j with
  | some w => (.done none, w.started j)
  | none =>
    if deadline ≤ w.now then w.spawnFault j
    else
      match cfg.spawnSlot with
      | some s =>
        if (w.slot s).fenceUp then (.wait (.pass (w.slot s).passes deadline), w.requestPass s)
        else (.wait (.event deadline), w)
      | none => (.wait (.yield deadline), w)

/-- `wait_gate_until` on the settled shell, then the spawn. -/
def awaitSettled (sp : Spawn) (j : Fin n) (deadline : ℕ) : StartEnd n × World n :=
  if w.isSettled j then w.spawnAttempt cfg sp j deadline
  else if deadline ≤ w.now then w.spawnFault j
  else (.wait (.settle deadline), w)

/-- Go through the gates that hold and park at the first that does not, with a
budget of its own. -/
def awaitGates (sp : Spawn) (j : Fin n) (gates : List (Gate n)) : StartEnd n × World n :=
  match gates.dropWhile (Gate.satisfied w) with
  | [] => w.awaitSettled cfg sp j (w.now + cfg.slotTimeout)
  | c :: rest => (.wait (.gate c rest (w.now + cfg.slotTimeout)), c.takeLatch w)

/-- A waiting `start_node` is polled. -/
def startNodeStep (sp : Spawn) (j : Fin n) : StartPhase n → Option (StartEnd n × World n)
  | .gate c rest deadline =>
    if c.latched w then
      let w := c.takeLatch w
      if c.satisfied w then some (w.awaitGates cfg sp j rest)
      else if deadline ≤ w.now then some (w.gateFault cfg j c.fault)
      else some (.wait (.gate c rest deadline), w)
    else if deadline ≤ w.now then some (w.gateFault cfg j c.fault)
    else none
  | .settle deadline =>
    if w.gateEvt then some ({ w with gateEvt := false }.awaitSettled cfg sp j deadline)
    else if deadline ≤ w.now then some (w.awaitSettled cfg sp j deadline)
    else none
  | .pass seen deadline =>
    if w.gateEvt || deadline ≤ w.now then
      let w := { w with gateEvt := false }
      if cfg.spawnSlot.any (fun s => (w.slot s).passes != seen) || deadline ≤ w.now then
        some (w.spawnAttempt cfg sp j deadline)
      else some (.wait (.pass seen deadline), w)
    else none
  | .event deadline =>
    if w.gateEvt || deadline ≤ w.now then
      some ({ w with gateEvt := false }.spawnAttempt cfg sp j deadline)
    else none
  | .yield deadline => some (w.spawnAttempt cfg sp j deadline)

end World

/-- The entry of `start_node`, up to its first wait. -/
def Graph.startNode (g : Graph n) (w : World n) (j : Fin n) : StartEnd n × World n :=
  match g.nodes j with
  | none => (.done none, w)
  | some cfg =>
    let w := (w.putFlag j .collateral false).note j .spawning
    match cfg.spawn with
    | some sp => w.awaitGates cfg sp j (g.gatesOf cfg)
    | none => (.done none, (w.reset j).started j)

/-! ## `stop_node` -/

/-- The entry of `stop_node`: the deadline of the acknowledgement, if it has to
be waited for. -/
def World.stopNode (w : World n) (cfg : NodeCfg n) (j : Fin n) : Option ℕ × World n :=
  if !w.flag j .running || w.flag j .detached then (none, w)
  else
    let w := (w.signalShutdown j).note j .stopRequested
    if w.flag j .dropped then (none, w.takeAck j)
    else (some (w.now + cfg.ackTimeout), w)

/-- A waiting `stop_node` is polled. -/
def World.stopNodeStep (w : World n) (g : Graph n) (cfg : NodeCfg n) (j : Fin n)
    (deadline : ℕ) : Option (Outcome n × World n) :=
  if (w.node j).droppedWake then
    some (none, (w.onNode j fun h => { h with droppedWake := false }).takeAck j)
  else if deadline ≤ w.now then
    some (some { node := j, kind := .shutdownTimeout }, w.missAck g cfg j)
  else none

/-! ## What a stretch of `start_node` can do -/

theorem Gate.still_takeLatch (w : World n) (c : Gate n) : World.Still w (c.takeLatch w) := by
  cases c with
  | exec | resource =>
      exact ⟨fun _ _ => rfl, fun _ => rfl, fun _ => rfl, fun _ => rfl, rfl, rfl, rfl⟩
  | ready d =>
      apply World.still_onNode (f := fun h : TaskHandle => { h with readyWake := false }) <;> rfl

theorem Gate.satisfied_takeLatch (w : World n) (c : Gate n) :
    c.satisfied (c.takeLatch w) = c.satisfied w := by
  cases c with
  | exec s => simp [satisfied, takeLatch]
  | resource r => simp [satisfied, takeLatch]
  | ready d => exact (Gate.still_takeLatch w (.ready d)).flag d .ready

/-- The effects of one stretch, from one await to the next or to the end. -/
inductive StartEffect (cfg : NodeCfg n) (w : World n) (j : Fin n) : StartEnd n → World n → Prop
  | started {sp : Spawn} {w₁ : World n} (hspawn : cfg.spawn = some sp) (hw : w.Still w₁)
      (haccept : (w₁.reset j).spawnAccepted cfg sp j = true) :
      StartEffect cfg w j (.done none) (((w₁.reset j).launch sp j).started j)
  | parked {w₁ : World n} {dep : Fin n} (hw : w.Still w₁) (hbound : dep ∈ cfg.boundDeps) :
      StartEffect cfg w j (.done none) (w₁.boundPark j)
  | faulted {w₁ : World n} {kind : FaultKind n}
      (hw : w.Still w₁ ∨ (w.reset j).Still w₁) (hkind : kind ≠ .shutdownTimeout) :
      StartEffect cfg w j (.done (some { node := j, kind })) (w₁.note j (.faulted kind))
  | waits {phase : StartPhase n} {w' : World n} (hw : w.Still w' ∨ (w.reset j).Still w') :
      StartEffect cfg w j (.wait phase) w'

section Effects

variable {w w₁ : World n} {cfg : NodeCfg n} {sp : Spawn} {j : Fin n}

theorem StartEffect.of_still {e : StartEnd n} {w' : World n} (hstill : w.Still w₁)
    (h : StartEffect cfg w₁ j e w') : StartEffect cfg w j e w' := by
  cases h with
  | started hspawn hw haccept => exact .started hspawn (hstill.trans hw) haccept
  | parked hw hbound => exact .parked (hstill.trans hw) hbound
  | faulted hw hkind =>
      exact .faulted (hw.imp hstill.trans (hstill.reset j).trans) hkind
  | waits hw => exact .waits (hw.imp hstill.trans (hstill.reset j).trans)

theorem StartEffect.of_eq {x : StartEnd n × World n} {e : StartEnd n} {w' : World n}
    (heq : some x = some (e, w')) (h : StartEffect cfg w j x.1 x.2) :
    StartEffect cfg w j e w' := by
  rwa [Option.some.inj heq] at h

theorem gateFault_cases {kind : FaultKind n} (hkind : kind ≠ .shutdownTimeout) :
    StartEffect cfg w j (w.gateFault cfg j kind).1 (w.gateFault cfg j kind).2 := by
  unfold World.gateFault
  split
  case isTrue hbound =>
    cases kind with
    | readyDepTimeout dep =>
        exact .parked (.refl w) (by simpa [FaultKind.onBoundDep] using hbound)
    | resourceMissing | executorSlotEmpty | spawn | shutdownTimeout | restartStorm =>
        simp [FaultKind.onBoundDep] at hbound
  case isFalse => exact .faulted (Or.inl (.refl w)) hkind

theorem spawnAttempt_cases (hspawn : cfg.spawn = some sp) (deadline : ℕ) :
    StartEffect cfg w j (w.spawnAttempt cfg sp j deadline).1
      (w.spawnAttempt cfg sp j deadline).2 := by
  unfold World.spawnAttempt
  cases hlaunch : (w.reset j).spawn cfg sp j with
  | some w' =>
      simp only [hlaunch]
      obtain ⟨haccept, rfl⟩ := World.spawn_eq_some.mp hlaunch
      exact .started hspawn (.refl w) haccept
  | none =>
      simp only [hlaunch]
      split
      · exact .faulted (Or.inr (.refl _)) (by simp)
      · cases cfg.spawnSlot with
        | none => exact .waits (Or.inr (.refl _))
        | some s =>
            simp only
            split
            · exact .waits (Or.inr (World.still_requestPass _ s))
            · exact .waits (Or.inr (.refl _))

theorem awaitSettled_cases (hspawn : cfg.spawn = some sp) (deadline : ℕ) :
    StartEffect cfg w j (w.awaitSettled cfg sp j deadline).1
      (w.awaitSettled cfg sp j deadline).2 := by
  unfold World.awaitSettled
  split
  · exact spawnAttempt_cases hspawn deadline
  · split
    · exact .faulted (Or.inl (.refl w)) (by simp)
    · exact .waits (Or.inl (.refl w))

theorem boundStopped_of_spawnAttempt {deadline : ℕ} {i : Fin n}
    (h : (w.spawnAttempt cfg sp j deadline).2.flag i .boundStopped = true) :
    w.flag i .boundStopped = true := by
  unfold World.spawnAttempt at h
  cases hlaunch : (w.reset j).spawn cfg sp j with
  | some w' =>
      obtain ⟨_, rfl⟩ := World.spawn_eq_some.mp hlaunch
      simp only [hlaunch, World.flag_started] at h
      split at h
      · simp at h
      · simpa [World.flag_launch, Flag.stale] using h
  | none =>
      simp only [hlaunch] at h
      split at h
      · simpa [World.spawnFault, Flag.stale] using h
      · cases hslot : cfg.spawnSlot with
        | none => simpa [hslot, Flag.stale] using h
        | some s =>
            simp only [hslot] at h
            split at h <;> simpa [Flag.stale] using h

theorem boundStopped_of_awaitSettled {deadline : ℕ} {i : Fin n}
    (h : (w.awaitSettled cfg sp j deadline).2.flag i .boundStopped = true) :
    w.flag i .boundStopped = true := by
  unfold World.awaitSettled at h
  split at h
  · exact boundStopped_of_spawnAttempt h
  · split at h <;> simpa [World.spawnFault] using h

theorem awaitGates_cases (hspawn : cfg.spawn = some sp) (gates : List (Gate n)) :
    StartEffect cfg w j (w.awaitGates cfg sp j gates).1 (w.awaitGates cfg sp j gates).2 := by
  unfold World.awaitGates
  split
  · exact awaitSettled_cases hspawn _
  · exact .waits (Or.inl (Gate.still_takeLatch w _))

/-- **Inversion of a poll of `start_node`.** -/
theorem startNodeStep_cases (hspawn : cfg.spawn = some sp) {phase : StartPhase n}
    {e : StartEnd n} {w' : World n} (h : w.startNodeStep cfg sp j phase = some (e, w')) :
    StartEffect cfg w j e w' := by
  have hfault : ∀ c : Gate n, c.fault ≠ .shutdownTimeout := by
    intro c
    cases c <;> simp [Gate.fault]
  cases phase with
  | gate c rest deadline =>
      have hstill := Gate.still_takeLatch w c
      simp only [World.startNodeStep] at h
      split at h
      · split at h
        · exact .of_eq h ((awaitGates_cases hspawn rest).of_still hstill)
        · split at h
          · exact .of_eq h ((gateFault_cases (hfault c)).of_still hstill)
          · cases h
            exact .waits (Or.inl hstill)
      · split at h
        · exact .of_eq h (gateFault_cases (hfault c))
        · simp at h
  | settle deadline =>
      simp only [World.startNodeStep] at h
      split at h
      · exact .of_eq h ((awaitSettled_cases hspawn deadline).of_still (World.still_gateEvt w false))
      · split at h
        · exact .of_eq h (awaitSettled_cases hspawn deadline)
        · simp at h
  | pass seen deadline =>
      have hstill := World.still_gateEvt w false
      simp only [World.startNodeStep] at h
      split at h
      · split at h
        · exact .of_eq h ((spawnAttempt_cases hspawn deadline).of_still hstill)
        · cases h
          exact .waits (Or.inl hstill)
      · simp at h
  | event deadline =>
      simp only [World.startNodeStep] at h
      split at h
      · exact .of_eq h ((spawnAttempt_cases hspawn deadline).of_still (World.still_gateEvt w false))
      · simp at h
  | yield deadline =>
      exact .of_eq h (spawnAttempt_cases hspawn deadline)

end Effects

/-- A stretch of `start_node` writes the stale flags, the running bit, the mark of
a bound stop and the two flags of a resident shell. -/
theorem StartEffect.flag_eq {w w' : World n} {cfg : NodeCfg n} {j : Fin n} {e : StartEnd n}
    (h : StartEffect cfg w j e w') (i : Fin n) {k : Flag} (hstale : k.stale = false)
    (hrunning : k ≠ .running) (hbound : k ≠ .boundStopped) (hresident : k ≠ .resident)
    (hidle : k ≠ .idle) : w'.flag i k = w.flag i k := by
  cases h with
  | started _ hw _ =>
      simp [World.flag_launch _ _ _ hresident hidle, hstale, hrunning, hbound, hw.flag]
  | parked hw _ => simp [hbound, hw.flag]
  | faulted hw _ | waits hw =>
      rcases hw with hw | hw
      · simp [hw.flag]
      · simp [hw.flag, hstale]

theorem StartEffect.now_eq {w w' : World n} {cfg : NodeCfg n} {j : Fin n} {e : StartEnd n}
    (h : StartEffect cfg w j e w') : w'.now = w.now := by
  cases h with
  | started _ hw _ => simp [hw.now]
  | parked hw _ => simp [hw.now]
  | faulted hw _ | waits hw => rcases hw with hw | hw <;> simp [hw.now]

/-- What a stretch of `start_node` adds to the history is about its node. -/
theorem StartEffect.log_eq {w w' : World n} {cfg : NodeCfg n} {j : Fin n} {e : StartEnd n}
    (h : StartEffect cfg w j e w') :
    ∃ new, w'.log = new ++ w.log ∧ ∀ r ∈ new, r.2.node = j := by
  cases h with
  | @started sp w₁ _ hw _ =>
      refine ⟨[(w₁.now, .note j .started), (w₁.now, .spawned j)], by simp [hw.log], ?_⟩
      simp [Record.node]
  | @parked w₁ _ hw _ =>
      exact ⟨[(w₁.now, .boundPark j)], by simp [hw.log], by simp [Record.node]⟩
  | @faulted w₁ kind hw _ =>
      refine ⟨[(w₁.now, .note j (.faulted kind))], ?_, by simp [Record.node]⟩
      rcases hw with hw | hw <;> simp [hw.log]
  | waits hw =>
      refine ⟨[], ?_, by simp⟩
      rcases hw with hw | hw <;> simp [hw.log]

/-- Only a gate that is waited for is given up on: a stretch that begins elsewhere
puts no node off. -/
theorem boundStopped_of_awaitGates {w : World n} {cfg : NodeCfg n} {sp : Spawn} {j : Fin n}
    {gates : List (Gate n)} {i : Fin n}
    (h : (w.awaitGates cfg sp j gates).2.flag i .boundStopped = true) :
    w.flag i .boundStopped = true := by
  unfold World.awaitGates at h
  split at h
  · exact boundStopped_of_awaitSettled h
  · rwa [(Gate.still_takeLatch w _).flag] at h

/-- The effects of the entry of `start_node`: the collateral hold goes first,
then the first stretch begins, which puts no node off, or a node without a spawn is
only marked. -/
inductive StartEntry (g : Graph n) (w : World n) (j : Fin n) : StartEnd n → World n → Prop
  | absent (hcfg : g.nodes j = none) : StartEntry g w j (.done none) w
  | gated {cfg : NodeCfg n} {e : StartEnd n} {w' : World n} (hcfg : g.nodes j = some cfg)
      (h : StartEffect cfg ((w.putFlag j .collateral false).note j .spawning) j e w')
      (hput : ∀ i, w'.flag i .boundStopped = true → w.flag i .boundStopped = true) :
      StartEntry g w j e w'
  | marked {cfg : NodeCfg n} (hcfg : g.nodes j = some cfg) (hspawn : cfg.spawn = none) :
      StartEntry g w j (.done none)
        ((((w.putFlag j .collateral false).note j .spawning).reset j).started j)

theorem startNode_cases (g : Graph n) (w : World n) (j : Fin n) :
    StartEntry g w j (g.startNode w j).1 (g.startNode w j).2 := by
  unfold Graph.startNode
  cases hcfg : g.nodes j with
  | none => exact .absent hcfg
  | some cfg =>
      cases hspawn : cfg.spawn with
      | none =>
          simp only [hspawn]
          exact .marked hcfg hspawn
      | some sp =>
          simp only [hspawn]
          refine .gated hcfg (awaitGates_cases hspawn _) fun i hi => ?_
          simpa using boundStopped_of_awaitGates hi

/-- The entry writes no flag but those and the collateral hold. -/
theorem StartEntry.flag_eq {g : Graph n} {w w' : World n} {j : Fin n} {e : StartEnd n}
    (h : StartEntry g w j e w') (i : Fin n) {k : Flag} (hstale : k.stale = false)
    (hrunning : k ≠ .running) (hbound : k ≠ .boundStopped) (hresident : k ≠ .resident)
    (hidle : k ≠ .idle) (hcollateral : ¬ (i = j ∧ k = .collateral)) :
    w'.flag i k = w.flag i k := by
  cases h with
  | absent => rfl
  | gated _ h => simp [h.flag_eq i hstale hrunning hbound hresident hidle, hcollateral]
  | marked => simp [hstale, hrunning, hbound, hcollateral]

theorem StartEntry.now_eq {g : Graph n} {w w' : World n} {j : Fin n} {e : StartEnd n}
    (h : StartEntry g w j e w') : w'.now = w.now := by
  cases h with
  | absent => rfl
  | gated _ h => simp [h.now_eq]
  | marked => simp

theorem StartEntry.log_eq {g : Graph n} {w w' : World n} {j : Fin n} {e : StartEnd n}
    (h : StartEntry g w j e w') :
    ∃ new, w'.log = new ++ w.log ∧ ∀ r ∈ new, r.2.node = j := by
  cases h with
  | absent => exact ⟨[], rfl, by simp⟩
  | gated _ h =>
      obtain ⟨new, hnew, hnode⟩ := h.log_eq
      refine ⟨new ++ [(w.now, .note j .spawning)], by simp [hnew], fun r hr => ?_⟩
      cases List.mem_append.mp hr with
      | inl hr => exact hnode r hr
      | inr hr => simp [List.mem_singleton.mp hr, Record.node]
  | marked =>
      refine ⟨[(w.now, .note j .started), (w.now, .note j .spawning)], by simp, ?_⟩
      simp [Record.node]

end EmbassySupervisor
