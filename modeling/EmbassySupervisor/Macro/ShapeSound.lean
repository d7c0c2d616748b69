/-
# The shape bits change nothing

The supervisor the macro emits leaves out what no clause asks for: the code behind an unset bit,
and the sort of empty rows. `Declaration.graphAll` has every bit set and is sorted in any case,
over the same rows, and `shape_sound` follows the runs of either on the other, with a step put in
only where an `apply_bind` idles through its wave or the pool driver through its pass.
-/

import EmbassySupervisor.Macro.Shape
import EmbassySupervisor.Monitor.ShapeRun

namespace EmbassySupervisor

open LabelledRun

variable {n : ℕ}

/-! ## Two states that differ in idle work -/

/-- The same state to everyone: a scale request is read by the driver of the pools only, and an
`apply_bind` that has found nothing to do may still be on its way. -/
structure MonitorSys.SameTo (g : MonitoredGraph n) (s t : MonitorSys n) : Prop where
  world : s.pool.world.withReq t.pool.world.scaleReq = t.pool.world
  request : g.pools ≠ [] → t.pool.world.scaleReq = s.pool.world.scaleReq
  live : t.live = s.live
  pending : t.pool.pending = s.pool.pending
  calls : t.pool.sys.calls = s.pool.sys.calls ∨
    ∃ i k c, s.pool.sys.calls[i]? = some (.done none) ∧ Call.Idling g.toGraph (k + 1) c ∧
      t.pool.sys.calls = s.pool.sys.calls.set i c
  driver : t.pool.driver = s.pool.driver ∨ (g.pools = [] ∧ s.pool.driver = .never)

namespace MonitorSys

variable {g : MonitoredGraph n} {s t : MonitorSys n}

theorem Like.sameTo (h : s.Like g t) : s.SameTo g.full t where
  world := by
    rcases h.world with heq | ⟨-, req, heq⟩
    · rw [heq]
      rfl
    · rw [heq]
      rfl
  request hpools := by
    rcases h.world with heq | ⟨hbit, -⟩
    · rw [heq]
    · exact absurd (g.pools_sound hbit) hpools
  live := h.live
  pending := h.pool.pending
  calls := by
    rcases h.pool.sys with hlevel | ⟨i, k, hlag⟩
    · exact .inl hlevel.calls
    · obtain ⟨c, hc, hcalls⟩ := hlag.calls
      exact .inr ⟨i, k, c, hlag.own, hc, hcalls⟩
  driver := by
    rcases h.pool.driver.eq_or with hsame | ⟨hbit, hnever, -⟩
    · exact .inl hsame
    · exact .inr ⟨g.pools_sound hbit, hnever⟩

/-- The system before its first step: no verb is called and no node is down for a provider. -/
structure Booting (s : MonitorSys n) : Prop where
  calls : s.pool.sys.calls = []
  unmarked : s.pool.world.Unmarked
  driver : ∃ now, s.pool.driver = .pass 0 now none

theorem Booting.like (h : s.Booting) : s.Like g s := by
  obtain ⟨now, hdriver⟩ := h.driver
  have hlevel : s.pool.sys.Level g.toGraph s.pool.sys := ⟨.refl _, fun _ => h.unmarked, rfl⟩
  have hplain : s.pool.driver.plain := by
    rw [hdriver]
    rfl
  exact ⟨.of_same hlevel rfl rfl fun _ => hplain, rfl⟩

end MonitorSys

/-! ## The graph with every bit set -/

namespace ShapeBits

theorem has_all : (fun s : Shape => all.has s.mask) = fun _ => true := by
  funext s
  cases s <;> decide

end ShapeBits

namespace Declaration

variable (d : Declaration n)

/-- A flat graph is sorted as it stands. -/
theorem topology_eq_ordered : d.topology = d.ordered := by
  rw [topology]
  by_cases hflat : d.flat = true
  · have hrow (j : Fin n) : (d.slot j).row = [] := by
      have hdeps := List.all_eq_true.mp hflat (d.slot j) (List.get_mem _ _)
      simp [Slot.row, markedDeps, Gated.entries, List.isEmpty_iff.mp hdeps]
    have hdeps : (Topology.flat n).deps = d.ordered.deps := by
      funext j
      exact (hrow j).symm
    have horder : (Topology.flat n).order = d.ordered.order :=
      Option.some.inj ((topoSort_flat hrow).symm.trans d.sorted)
    rw [if_pos hflat]
    show Topology.mk _ _ _ = Topology.mk _ _ _
    congr
  · rw [if_neg hflat]

/-- The graph as the macro would emit it with `shape::ALL`, and sorted in any case. -/
def graphAll : MonitoredGraph n := { d.graph.full with toTopology := d.ordered }

theorem shape_graphAll : d.graphAll.shape = fun s => ShapeBits.all.has s.mask :=
  ShapeBits.has_all.symm

theorem graphAll_eq : d.graphAll = d.graph.full := by
  have hsame : d.graph.full = { d.graph.full with toTopology := d.topology } := rfl
  rw [hsame, graphAll, topology_eq_ordered]

variable {s : MonitorSys n}

/-- **The bits and the flat topology change nothing.** Whatever the verbs, the tasks, the pool
driver and the monitor can do on the graph as it is emitted, they can do with every bit set and
the rows sorted, and the other way around. The runs differ in idle steps only: those of an
`apply_bind` with nothing to do, and polls of the driver where there are no pools. -/
theorem shape_sound (hboot : s.Booting) :
    (∀ ls s', exec (MonitorSys.next d.graph) s ls = some s' →
      ∃ ks t', Padded (MonitorSys.next d.graphAll) (MonitorSys.Idles d.graphAll) s ls ks t' ∧
        exec (MonitorSys.next d.graphAll) s ks = some t' ∧ s'.SameTo d.graphAll t') ∧
    (∀ ks t', exec (MonitorSys.next d.graphAll) s ks = some t' →
      ∃ ls s', Padded (MonitorSys.next d.graphAll) (MonitorSys.Idles d.graphAll) s ls ks t' ∧
        exec (MonitorSys.next d.graph) s ls = some s' ∧ s'.SameTo d.graphAll t') := by
  rw [graphAll_eq]
  constructor
  · intro ls s' hrun
    obtain ⟨ks, t', hks, hfollow, hlike⟩ := MonitorSys.exec_full hboot.like hrun
    exact ⟨ks, t', hks, hfollow, hlike.sameTo⟩
  · intro ks t' hrun
    obtain ⟨ls, s', hls, hfollow, hlike⟩ := MonitorSys.exec_graph hboot.like hrun
    exact ⟨ls, s', hls, hfollow, hlike.sameTo⟩

/-- A client that waits for its link but is not bound to it. -/
def clientOfLink : Declaration 2 where
  items :=
    [.node { mode := .terminate, source := some .fn },
     .node { mode := .terminate, source := some .fn,
             deps := [{ value := { slot := 0, ready := true } }] }]
  slots_length := rfl
  order := [0, 1]
  sorted := by decide
  topological := ⟨by decide, by decide, by decide, by decide⟩

/-- The supervisor of the client and its link before anything is started. -/
def clientOfLinkDown : MonitorSys 2 where
  pool := { sys := { world := { node := fun _ => {} }, calls := [] }, driver := .pass 0 0 none }

theorem shape_sound_clientOfLink :
    (∀ ls s', exec (MonitorSys.next clientOfLink.graph) clientOfLinkDown ls = some s' →
      ∃ ks t', Padded (MonitorSys.next clientOfLink.graphAll)
          (MonitorSys.Idles clientOfLink.graphAll) clientOfLinkDown ls ks t' ∧
        exec (MonitorSys.next clientOfLink.graphAll) clientOfLinkDown ks = some t' ∧
        s'.SameTo clientOfLink.graphAll t') ∧
    (∀ ks t', exec (MonitorSys.next clientOfLink.graphAll) clientOfLinkDown ks = some t' →
      ∃ ls s', Padded (MonitorSys.next clientOfLink.graphAll)
          (MonitorSys.Idles clientOfLink.graphAll) clientOfLinkDown ls ks t' ∧
        exec (MonitorSys.next clientOfLink.graph) clientOfLinkDown ls = some s' ∧
        s'.SameTo clientOfLink.graphAll t') :=
  shape_sound clientOfLink ⟨rfl, fun _ => rfl, 0, rfl⟩

/-- On the graph as it is `apply_bind` has returned where it starts; the wave of the other takes
ten steps. -/
example : ((exec (MonitorSys.next clientOfLink.graph) clientOfLinkDown
      [.pool .drive, .pool (.sys (.begin .applyBind))]).map fun s => s.pool.sys.resting) =
        some true ∧
    ((exec (MonitorSys.next clientOfLink.graphAll) clientOfLinkDown
      ([.pool .drive, .pool (.sys (.begin .applyBind))] ++
        List.replicate 10 (.pool (.sys (.advance 0))))).map fun s => s.pool.sys.resting) =
        some true := by
  decide +kernel

end Declaration

end EmbassySupervisor
