/-
# What a deactivation latches and stops

`deactivate` latches a hold on everything it takes down: `disabled` on the
target and its pool, `collateral` on whatever depends on them. The two sets are
reachability relations cut at the detached nodes, whatever topological order the
passes run along.

The wave that follows signals nobody else, and a deactivation that succeeds has
signalled all of them but those that dropped by themselves while a dependent was
still stopping. One that gives up on a node leaves the nodes below it alone.
-/

import EmbassySupervisor.Verb.Closure
import EmbassySupervisor.Wave.StopOrder

namespace EmbassySupervisor

open DependencyOrder LabelledRun

variable {n : ℕ} {g : Graph n}

/-- The seed of a control command is reachable from the node, along paths whose
nodes but the last are not detached. -/
def ReachesTarget (g : Graph n) (w : World n) (target : Fin n) : Fin n → Prop :=
  Reaches (fun j => w.flag j .detached = false) g.deps (g.InSeed target)

theorem reachesSeed_iff (hocc : g.AllOccupied) (w : World n) (target j : Fin n) :
    ReachesSeed g w (g.seed target) j ↔ ReachesTarget g w target j := by
  rw [ReachesSeed, passes_of_allOccupied hocc, seed_of_allOccupied hocc]
  rfl

/-- The nodes a deactivation stops: of those it latches, the running ones. -/
def World.Stops (g : Graph n) (w : World n) (target j : Fin n) : Prop :=
  w.flag j .running = true ∧ w.flag j .detached = false ∧ ReachesTarget g w target j

/-! ## The selection -/

section Selection

variable {w : World n} {target : Fin n}

/-- What the selection of a deactivation does with one slot. -/
def Graph.deactivating (g : Graph n) (w : World n) (target j : Fin n) (h : TaskHandle) :
    Bool × TaskHandle :=
  if !g.collectDependents w (g.seed target) j || h.flags .detached then (false, h)
  else h.latchDeactivated (g.seed target j)

theorem begin_deactivate :
    g.begin w (.deactivate target) =
      (.stopping (g.stopNodes w (g.deactivating w target) false).1 .ret,
        (g.stopNodes w (g.deactivating w target) false).2) := rfl

/-- The selection latches the nodes that are not detached and reach the seed. -/
theorem deactivating_of_reaches {j : Fin n} (hloose : w.flag j .detached = false)
    (hreach : ReachesSeed g w (g.seed target) j) :
    g.deactivating w target j (w.node j) =
      (w.node j).latchDeactivated (g.seed target j) := by
  have hset := (collectDependents_iff (w := w) (g.seed target) j).mpr hreach
  have hloose' : (w.node j).flags .detached = false := hloose
  simp [Graph.deactivating, hset, hloose']

/-- It passes over every other node. -/
theorem deactivating_of_not {j : Fin n}
    (h : ¬ (w.flag j .detached = false ∧ ReachesSeed g w (g.seed target) j)) :
    g.deactivating w target j (w.node j) = (false, w.node j) := by
  apply if_pos
  by_cases hloose : (w.node j).flags .detached = true
  · simp [hloose]
  · have hreach : ¬ ReachesSeed g w (g.seed target) j := fun hr =>
      h ⟨by simpa [World.flag] using hloose, hr⟩
    rw [← collectDependents_iff] at hreach
    simp [hreach]

/-- **The holds a deactivation latches.** -/
theorem flag_deactivate (w : World n) (target j : Fin n) (k : Flag) :
    (g.begin w (.deactivate target)).2.flag j k = true ↔ w.flag j k = true ∨
      (World.Passes g w j ∧
        ((k = .disabled ∧ g.seed target j = true) ∨
          (k = .collateral ∧ g.seed target j = false ∧
            ReachesSeed g w (g.seed target) j))) := by
  have hold : w.flag j k = (w.node j).flags k := rfl
  rw [begin_deactivate, flag_stopNodes]
  by_cases hocc : g.occupied j = true
  case neg => simp [hocc, World.Passes]
  rw [if_pos hocc, hold]
  by_cases hset : w.flag j .detached = false ∧ ReachesSeed g w (g.seed target) j
  · rw [deactivating_of_reaches hset.1 hset.2]
    cases hseed : g.seed target j with
    | true =>
        by_cases hk : k = .disabled <;>
          simp [TaskHandle.latchDeactivated, World.Passes, hocc, hk, hset.1]
    | false =>
        by_cases hk : k = .collateral <;>
          simp [TaskHandle.latchDeactivated, World.Passes, hocc, hk, hset]
  · have hbase : g.seed target j = true → ReachesSeed g w (g.seed target) j := fun h =>
      .of_base h
    rw [deactivating_of_not hset]
    simp only [World.Passes, hocc, true_and]
    tauto

/-- The wave of a deactivation is over the running ones. -/
theorem chosen_deactivate (hocc : g.AllOccupied) (w : World n) (target j : Fin n) :
    (g.stopNodes w (g.deactivating w target) false).1.chosen j = true ↔
      w.Stops g target j := by
  rw [chosen_stopNodes, World.Stops, ← reachesSeed_iff hocc]
  by_cases hset : w.flag j .detached = false ∧ ReachesSeed g w (g.seed target) j
  · rw [deactivating_of_reaches hset.1 hset.2]
    cases g.seed target j <;>
      simp [TaskHandle.latchDeactivated, World.flag, hocc j, hset.2,
        show (w.node j).flags .detached = false from hset.1]
  · rw [deactivating_of_not hset]
    simp only [Bool.false_eq_true, and_false, false_iff]
    tauto

end Selection

/-! ## The wave -/

/-- What is signalled from `w₀` to `w`: chosen slots only and, if `all` holds,
each of them but what dropped by itself below a chosen dependent. -/
def Signals (g : Graph n) (w₀ : World n) (chosen : Fin n → Bool) (all : Prop)
    (w : World n) : Prop :=
  ∃ new, w.log = new ++ w₀.log ∧
    (∀ t j, (t, .note j .stopRequested) ∈ new → chosen j = true) ∧
    (all → ∀ j, chosen j = true → (∃ t, (t, .note j .stopRequested) ∈ new) ∨
      (w.IsDown j ∧ ∃ k, chosen k = true ∧ j ∈ g.deps k))

theorem World.IsDown.event {w w' : World n} {j : Fin n} (hj : w.IsDown j)
    (h : TaskEvent.Effect g w w') : w'.IsDown j := by
  refine ⟨h.dropped_of_dropped hj.1, ?_⟩
  by_contra hrun
  have := h.running_of_running (by simpa using hrun)
  simp [hj.2] at this

theorem Signals.event {w₀ w w' : World n} {chosen : Fin n → Bool} {all : Prop}
    (hs : Signals g w₀ chosen all w) (h : TaskEvent.Effect g w w') :
    Signals g w₀ chosen all w' := by
  obtain ⟨new, hnew, honly, hall⟩ := hs
  obtain ⟨later, hlater, hby⟩ := h.log_eq
  refine ⟨later ++ new, by simp [hlater, hnew], fun t j hmem => ?_, fun ha j hj => ?_⟩
  · cases List.mem_append.mp hmem with
    | inl hmem =>
        obtain ⟨i, hrecord⟩ := hby _ hmem
        simp at hrecord
    | inr hmem => exact honly t j hmem
  · cases hall ha j hj with
    | inl hsignal =>
        obtain ⟨t, ht⟩ := hsignal
        exact Or.inl ⟨t, List.mem_append_right later ht⟩
    | inr hdown => exact Or.inr ⟨hdown.1.event h, hdown.2⟩

/-- What a stop wave's own bookkeeping says about its signals. -/
theorem StopWave.Served.signals {w₀ w : World n} {s : StopWave n}
    (hserved : StopWave.Served g w₀ s w) (hsettled : StopWave.Settled s w) :
    Signals g w₀ s.chosen (s.pc = .done none) w := by
  obtain ⟨new, hnew, honly, hstamp⟩ := hserved.only
  refine ⟨new, hnew, honly, fun hdone j hj => ?_⟩
  by_cases hfresh : s.signaled j = unsignaled
  · refine Or.inr ⟨hsettled.isDown hdone hj, ?_⟩
    rcases hserved.fresh j hj hfresh with hheld | hpanic | ⟨_, todo, hpc, _⟩
    · exact hheld
    · simp [hdone] at hpanic
    · simp [hdone] at hpc
  · exact Or.inl (hstamp j hfresh)

/-- The states of a call that only stops the chosen slots: its wave, then
nothing. -/
inductive OnlyStops (g : Graph n) (w₀ : World n) (chosen : Fin n → Bool) :
    Call n → World n → Prop
  | wave {s : StopWave n} {w : World n} (hchosen : s.chosen = chosen)
      (hserved : StopWave.Served g w₀ s w) (hsettled : StopWave.Settled s w) :
      OnlyStops g w₀ chosen (.stopping s .ret) w
  | ended {c : Call n} {w : World n} (hend : ∀ u, c.step g u = none)
      (h : Signals g w₀ chosen (c = .done none) w) : OnlyStops g w₀ chosen c w

theorem OnlyStops.step {w₀ w w' : World n} {chosen : Fin n → Bool} {c c' : Call n}
    (hs : OnlyStops g w₀ chosen c w) (h : c.step g w = some (c', w')) :
    OnlyStops g w₀ chosen c' w' := by
  cases hs with
  | ended hend _ => simp [hend] at h
  | @wave s _ hchosen hserved hsettled =>
      subst hchosen
      have hsignals := hserved.signals hsettled
      cases Call.step_cases h with
      | stopWave h =>
          exact .wave h.static.1 (hserved.step h) (hsettled.step h)
      | stopFault hpc | stopPanic hpc =>
          refine .ended (fun _ => rfl) ?_
          obtain ⟨new, hnew, honly, _⟩ := hsignals
          exact ⟨new, hnew, honly, fun h => by simp at h⟩
      | stopDone hpc =>
          refine .ended (fun _ => rfl) ?_
          obtain ⟨new, hnew, honly, hall⟩ := hsignals
          exact ⟨new, hnew, honly, fun _ => hall hpc⟩

theorem OnlyStops.event {w₀ w w' : World n} {chosen : Fin n → Bool} {c : Call n}
    (hs : OnlyStops g w₀ chosen c w) (h : TaskEvent.Effect g w w') :
    OnlyStops g w₀ chosen c w' := by
  cases hs with
  | wave hchosen hserved hsettled =>
      exact .wave hchosen (hserved.event h) (hsettled.event h)
  | ended hend hsignals => exact .ended hend (hsignals.event h)

/-- Such a call leaves the marks of bound stops alone. -/
theorem OnlyStops.flag_boundStopped {w₀ w w' : World n} {chosen : Fin n → Bool}
    {c c' : Call n} (hs : OnlyStops g w₀ chosen c w) (h : c.step g w = some (c', w'))
    (j : Fin n) : w'.flag j .boundStopped = w.flag j .boundStopped := by
  cases hs with
  | ended hend _ => simp [hend] at h
  | wave =>
      cases Call.step_cases h with
      | stopWave h => exact h.flag_eq j (by decide) (by decide)
      | stopFault | stopPanic | stopDone => rfl

theorem OnlyStops.signals {w₀ w : World n} {chosen : Fin n → Bool} {c : Call n}
    (hs : OnlyStops g w₀ chosen c w) : Signals g w₀ chosen (c = .done none) w := by
  cases hs with
  | wave hchosen hserved hsettled =>
      obtain ⟨new, hnew, honly, _⟩ := hserved.signals hsettled
      exact ⟨new, hnew, hchosen ▸ honly, fun h => by simp at h⟩
  | ended _ hsignals => exact hsignals

/-- A single call among the tasks leaves the holds as its front half left them. -/
theorem flag_hold_of_soloCall {x : Call n × World n} {c : Call n} {w : World n}
    {moves : List (Move n)} (hrun : exec (soloCall g) x moves = some (c, w)) (j : Fin n)
    {k : Flag} (hk : k.hold = true) : w.flag j k = x.2.flag j k := by
  cases x with | mk c₀ w₀ =>
  refine among_invariant (I := fun _ u => u.flag j k = w₀.flag j k) ?_ ?_ rfl hrun
  · intro c u c' u' hu hstep
    exact ((Call.step_cases hstep).flag_hold j hk).trans hu
  · intro c u u' hu h
    exact (h.flag_hold j hk).trans hu

/-- **What a deactivation latches and stops.** From its selection on, in every run
of the call among the tasks, `disabled` has been added on the seed and
`collateral` on what depends on it, the detached nodes left out; the marks of
bound stops are as before, and the selection writes no flag but the two. Only
running nodes of these two sets are signalled; when the call returns without a
fault each of them was, or dropped by itself while it waited for a running
dependent of the sets. -/
theorem deactivate_latches_and_stops (g : Graph n) (hocc : g.AllOccupied) (w₀ : World n)
    (target : Fin n) {moves : List (Move n)} {c : Call n} {w : World n}
    (hrun : exec (soloCall g) (g.begin w₀ (.deactivate target)) moves = some (c, w)) :
    (∀ j k, k ≠ .disabled → k ≠ .collateral →
      (g.begin w₀ (.deactivate target)).2.flag j k = w₀.flag j k) ∧
    (∀ j, w.flag j .disabled = true ↔ w₀.flag j .disabled = true ∨
      (w₀.flag j .detached = false ∧ g.InSeed target j)) ∧
    (∀ j, w.flag j .collateral = true ↔ w₀.flag j .collateral = true ∨
      (w₀.flag j .detached = false ∧ ¬ g.InSeed target j ∧ ReachesTarget g w₀ target j)) ∧
    (∀ j, w.flag j .boundStopped = w₀.flag j .boundStopped) ∧
    ∃ new, w.log = new ++ w₀.log ∧
      (∀ t j, (t, .note j .stopRequested) ∈ new → w₀.Stops g target j) ∧
      (c = .done none → ∀ j, w₀.Stops g target j →
        (∃ t, (t, .note j .stopRequested) ∈ new) ∨
        (w.IsDown j ∧ ∃ k, w₀.Stops g target k ∧ j ∈ g.deps k)) := by
  have hfresh : ∀ j k, k ≠ .disabled → k ≠ .collateral →
      (g.begin w₀ (.deactivate target)).2.flag j k = w₀.flag j k := by
    intro j k hd hc
    rw [Bool.eq_iff_iff, flag_deactivate]
    simp [hd, hc]
  have hchosen := chosen_deactivate hocc w₀ target
  have hstart : OnlyStops g w₀ (g.stopNodes w₀ (g.deactivating w₀ target) false).1.chosen
      (g.begin w₀ (.deactivate target)).1 (g.begin w₀ (.deactivate target)).2 := by
    obtain ⟨honly, hheld⟩ := StopWave.served_launch (g := g)
      (g.begin w₀ (.deactivate target)).2
      (g.stopNodes w₀ (g.deactivating w₀ target) false).1.chosen false
    exact .wave rfl ⟨honly, hheld⟩ (StopWave.settled_launch _ _ _)
  obtain ⟨hends, hbound⟩ := among_invariant
    (I := fun c u => OnlyStops g w₀ _ c u ∧ ∀ j, u.flag j .boundStopped = w₀.flag j .boundStopped)
    (fun _ _ _ _ hs hstep =>
      ⟨hs.1.step hstep, fun j => (hs.1.flag_boundStopped hstep j).trans (hs.2 j)⟩)
    (fun _ _ _ hs he => ⟨hs.1.event he, fun j =>
      (he.flag_eq j rfl (by decide) (by decide) (by decide)).trans (hs.2 j)⟩)
    ⟨hstart, fun j => hfresh j _ (by decide) (by decide)⟩ hrun
  refine ⟨hfresh, fun j => ?_, fun j => ?_, hbound, ?_⟩
  · rw [flag_hold_of_soloCall hrun j rfl, flag_deactivate]
    simp [World.Passes, hocc j, seed_iff hocc]
  · rw [flag_hold_of_soloCall hrun j rfl, flag_deactivate]
    simp [World.Passes, hocc j, ← Bool.not_eq_true, seed_iff hocc, reachesSeed_iff hocc]
  · obtain ⟨new, hnew, honly, hall⟩ := hends.signals
    refine ⟨new, hnew, fun t j hmem => (hchosen j).mp (honly t j hmem), fun hdone j hj => ?_⟩
    rcases hall hdone j ((hchosen j).mpr hj) with hreq | ⟨hdown, k, hk, hdep⟩
    · exact Or.inl hreq
    · exact Or.inr ⟨hdown, k, (hchosen k).mp hk, hdep⟩

/-- The client acknowledges, then the link. -/
def linkDeactivated : Option (Call 2 × World 2) :=
  exec (soloCall clientAndLink) (clientAndLink.begin clientAndLinkUp (.deactivate 0))
    (List.replicate 9 .own ++ [.event (.ackDropped 1)] ++ List.replicate 16 .own ++
      [.event (.ackDropped 0)] ++ List.replicate 8 .own)

theorem deactivate_latches_and_stops_link :
    (linkDeactivated.get rfl).2.flag 0 .disabled = true ∧
      (linkDeactivated.get rfl).2.flag 1 .collateral = true := by
  have hrun : linkDeactivated.isSome = true := rfl
  have hseed : ∀ j : Fin 2, clientAndLink.InSeed 0 j ↔ j = 0 := by
    intro j
    simp [Graph.InSeed, clientAndLink]
  obtain ⟨_, hdisabled, hcollateral, _⟩ := deactivate_latches_and_stops clientAndLink
    (fun _ => rfl) clientAndLinkUp 0 (Option.some_get hrun).symm
  refine ⟨(hdisabled 0).mpr (Or.inr ⟨rfl, (hseed 0).mpr rfl⟩),
    (hcollateral 1).mpr (Or.inr ⟨rfl, fun h => by simpa using (hseed 1).mp h, ?_⟩)⟩
  exact .step rfl (show (0 : Fin 2) ∈ clientAndLink.deps 1 from by decide)
    (.of_base ((hseed 0).mpr rfl))

/-- The client never acknowledges. -/
def linkDeactivatedLate : Option (Call 2 × World 2) :=
  exec (soloCall clientAndLink) (clientAndLink.begin clientAndLinkUp (.deactivate 0))
    (List.replicate 9 .own ++ [.event (.elapse 2000000)] ++ List.replicate 9 .own)

/-- A deactivation that gives up on the client has not signalled the link, which
runs and is of the set. -/
theorem deactivate_unsignalled_link :
    (linkDeactivatedLate.get rfl).1 = .done (some { node := 1, kind := .shutdownTimeout }) ∧
      ¬ ∀ j, clientAndLinkUp.Stops clientAndLink 0 j →
        ∃ t, (t, .note j .stopRequested) ∈ (linkDeactivatedLate.get rfl).2.log := by
  refine ⟨rfl, fun h => ?_⟩
  obtain ⟨t, ht⟩ := h 0 ⟨rfl, rfl, .of_base (Or.inl rfl)⟩
  have hlog : (linkDeactivatedLate.get rfl).2.log =
      [(2000000, .note 1 (.faulted .shutdownTimeout)), (0, .note 1 .stopRequested)] := rfl
  rw [hlog] at ht
  simp at ht

end EmbassySupervisor
