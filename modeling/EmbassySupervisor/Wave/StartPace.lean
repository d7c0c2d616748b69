/-
# How long a start wave takes

The gate budget of a node starts once its pending dependencies have resolved, and the node
resolves when the budget is spent at the latest. So a start wave takes as long as the longest
chain of budgets along the dependencies, where it is woken at its deadlines and, while it yields,
polled before the next one.
-/

import EmbassySupervisor.Wave.StopPace

namespace EmbassySupervisor

open CriticalPath DependencyOrder

variable {n : ℕ}

namespace Graph

variable (g : Graph n) (chosen : Fin n → Bool)

/-- The chosen dependencies of a slot. -/
def startRow (j : Fin n) : List (Fin n) := (g.deps j).filter chosen

/-- The gate budget of a slot, on the clock of a wave. -/
def startSpan (j : Fin n) : ℕ := (g.nodes j).elim 0 fun cfg => g.asMillis cfg.slotTimeout

/-- What a start of the chosen slots takes at the longest, in ticks. -/
def startBound : ℕ :=
  makespan g.fromMillis (g.asMillis ∘ g.fromMillis) g.startSpan (g.startRow chosen) g.order
    ((List.finRange n).filter chosen)

end Graph

section Bound

variable {g : Graph n} {chosen : Fin n → Bool}

theorem Graph.startSpan_of_some {j : Fin n} {cfg : NodeCfg n} (hcfg : g.nodes j = some cfg) :
    g.startSpan j = g.asMillis cfg.slotTimeout := by
  rw [Graph.startSpan, hcfg]
  rfl

theorem Graph.mem_startRow {j d : Fin n} :
    d ∈ g.startRow chosen j ↔ d ∈ g.deps j ∧ chosen d = true := List.mem_filter

theorem Graph.topological_startRow : TopologicalOrder (g.startRow chosen) g.order :=
  g.topological.mono fun _ => List.filter_subset_self _

/-- **The longest chain of budgets**, each of a dependency of the next. -/
theorem Graph.isGreatest_startBound (hz : 1000 ≤ g.tickHz) :
    IsGreatest {ticks | ∃ path : List (Fin n), (∀ j ∈ path, chosen j = true) ∧
      path.IsChain (fun d j => d ∈ g.deps j ∧ chosen d = true) ∧
      ticks = g.fromMillis (path.map g.startSpan).sum}
      (g.startBound chosen) := by
  have hgreatest : IsGreatest _ (g.startBound chosen) :=
    isGreatest_makespan Graph.topological_startRow (Graph.galois_millis (by omega)).monotone_l
      (Graph.asMillis_fromMillis hz) fun j d hd => by simpa using (Graph.mem_startRow.mp hd).2
  simpa only [Graph.mem_startRow, List.mem_filter, List.mem_finRange, true_and] using hgreatest

end Bound

namespace StartWave

/-! ## The wave is in time -/

/-- What has become of the slots the wave was given is in time. -/
structure InTime (g : Graph n) (chosen : Fin n → Bool) (s : StartWave n) (now : ℕ) : Prop where
  epoch : s.epoch ≤ now
  among : ∀ j, s.pending j = true → chosen j = true
  slots : CriticalPath.InTime g.fromMillis g.asMillis g.startSpan (g.startRow chosen) g.order
    (fun j => s.pending j = true) (fun j => s.armed j ≠ unarmed) s.armed (now - s.epoch)
  bound : now - s.epoch ≤ g.startBound chosen

/-- Where the wave rests, every pending slot is armed or waits for a dependency, and a wave
that sleeps wakes at the first deadline. -/
def Rests (g : Graph n) (s : StartWave n) : StartPc n → Prop
  | .yield => (∃ j, s.pending j = true ∧ s.armed j ≠ unarmed) ∧ ∀ j, Reached g s j
  | .sleep d => ((∃ j, s.pending j = true ∧ s.armed j ≠ unarmed) ∧ ∀ j, Reached g s j) ∧
    (s.deadlineMs g).map (fun ms => s.epoch + g.fromMillis ms) = some d
  | .visit _ _ | .panic | .done _ => True

structure Paced (g : Graph n) (chosen : Fin n → Bool) (s : StartWave n) (now : ℕ) : Prop
    extends InTime g chosen s now where
  sound : Sound g s
  rests : Rests g s s.pc

variable {g : Graph n} {chosen : Fin n → Bool} {s s' : StartWave n} {w w' : World n} {now : ℕ}

theorem paced_launch (w : World n) (keepGoing : Bool)
    (hocc : ∀ j, chosen j = true → g.occupied j = true) :
    Paced g chosen (launch g w chosen keepGoing) w.now where
  epoch := le_rfl
  among _ hj := hj
  slots := by
    apply CriticalPath.InTime.start
    · intro ms
      exact (Nat.sub_self w.now).le.trans (Nat.zero_le _)
    · show g.asMillis (w.now - w.now) = 0
      rw [Nat.sub_self, Graph.asMillis, Nat.zero_mul, Nat.zero_div]
    · exact fun j hj => hj rfl
  bound := (Nat.sub_self w.now).le.trans (Nat.zero_le _)
  sound := sound_launch w keepGoing hocc
  rests := trivial

/-- A step leaves the wave in time: the budget of a slot starts when its row has resolved. -/
theorem InTime.step (hs : InTime g chosen s w.now) (h : Step g w s s' w') :
    InTime g chosen s' w'.now := by
  have hnow := h.now_eq
  have hepoch : s'.epoch = s.epoch := h.static.2
  have hslots : (∀ i, s'.pending i = true → s'.armed i = s.armed i) →
      InTime g chosen s' w'.now := by
    intro hsame
    refine ⟨?_, fun i hi => hs.among i (h.pending_of_pending hi), ?_, ?_⟩
    · rw [hepoch, hnow]
      exact hs.epoch
    · rw [hepoch, hnow]
      refine hs.slots.closes fun i hi => ⟨h.pending_of_pending hi, ?_, hsame i hi⟩
      rw [hsame i hi]
    · rw [hepoch, hnow]
      exact hs.bound
  cases h with
  | @arm j _ _ _ _ hfresh =>
      refine ⟨hnow ▸ hs.epoch, hs.among, ?_, hnow ▸ hs.bound⟩
      rw [hnow]
      apply hs.slots.opens (by simpa using hfresh) (min_le_left _ _)
      · intro i hij
        simp only [ne_eq, Function.update_of_ne hij]
      · simp only [ne_eq, Function.update_self, unarmed]
        omega
  | @resume j =>
      refine hslots fun i hi => ?_
      have hij : i ≠ j := by
        rintro rfl
        simp [resolve] at hi
      exact Function.update_of_ne hij _ _
  | mark | park | fault | spawn | abort | busy | finish | turn =>
      exact hslots fun _ _ => rfl

/-- A visit does not end in a rest. -/
theorem rests_visit {j : Fin n} {todo : List (Fin n)} {round : Round}
    (hpc : s.pc = .visit (j :: todo) round) :
    Rests g (visit g w s j todo round).1 (visit g w s j todo round).1.pc := by
  have hunsatisfied : ∀ (u : World n) (r : StartWave n) cfg kind round,
      Rests g (unsatisfied g u r cfg kind j todo round).1
        (unsatisfied g u r cfg kind j todo round).1.pc := by
    intro u r cfg kind round
    unfold unsatisfied
    split
    · simp only
      split
      · exact trivial
      · exact trivial
    · exact trivial
  have hattempt : ∀ cfg sp, Rests g (attempt g w s cfg sp j todo round).1
      (attempt g w s cfg sp j todo round).1.pc := by
    intro cfg sp
    unfold attempt
    simp only
    split
    · exact trivial
    · split
      · exact hunsatisfied _ _ _ _ _
      · split
        · exact trivial
        · exact trivial
  unfold visit
  split
  · exact trivial
  · split
    · exact trivial
    · next cfg _ =>
        split
        · exact trivial
        · split
          · simp only
            split
            · exact trivial
            · show Rests g _ s.pc
              rw [hpc]
              exact trivial
          · unfold bringUp
            split
            · exact trivial
            · split
              · exact hattempt _ _
              · split
                · exact trivial
                · exact hunsatisfied _ _ _ _ _

theorem rests_step (hs : Sound g s) (h : step g w s = some (s', w')) : Rests g s' s'.pc := by
  have hpassed := hs.passed
  unfold StartWave.step at h
  cases hpc : s.pc with
  | visit todo round =>
      rw [hpc] at hpassed
      cases todo with
      | cons j todo =>
          simp only [hpc] at h
          have hvisit : (visit g w s j todo round).1 = s' := congrArg Prod.fst (Option.some.inj h)
          rw [← hvisit]
          exact rests_visit hpc
      | nil =>
          simp only [hpc] at h
          split at h
          · cases h
            exact trivial
          · next hwaiting =>
              split at h
              · cases h
                exact trivial
              · next hprogress =>
                  have hno : round.progress = false := by simpa using hprogress
                  have harmed := exists_armed hpassed hno (by simpa using hwaiting)
                  have hreached := fun j => (hpassed hno).1 j List.not_mem_nil
                  split at h
                  · cases h
                    exact ⟨harmed, hreached⟩
                  · split at h
                    · cases h
                      exact trivial
                    · next ms hms =>
                        cases h
                        refine ⟨⟨harmed, hreached⟩, ?_⟩
                        show (s.deadlineMs g).map _ = _
                        rw [hms]
                        rfl
  | yield =>
      simp only [hpc] at h
      cases h
      exact trivial
  | sleep d =>
      simp only [hpc] at h
      split at h
      · cases h
        exact trivial
      · split at h
        · cases h
          exact trivial
        · cases h
  | panic | done => simp [hpc] at h

theorem Paced.step (hs : Paced g chosen s w.now) (h : step g w s = some (s', w')) :
    Paced g chosen s' w'.now where
  toInTime := hs.toInTime.step (step_cases h)
  sound := hs.sound.step (Option.map_eq_some_iff.mpr ⟨_, h, rfl⟩)
  rests := rests_step hs.sound h

/-- No budget is spent before the deadline of the wave. -/
theorem le_of_deadlineMs {ms : ℕ} (h : s.deadlineMs g = some ms) (hs : Sound g s) {j : Fin n}
    (hpend : s.pending j = true) (harmed : s.armed j ≠ unarmed) :
    ms ≤ s.armed j + g.startSpan j := by
  obtain ⟨cfg, hcfg⟩ := g.occupied_iff.mp (hs.occupied j hpend)
  rw [Graph.startSpan_of_some hcfg]
  exact (isLeast_deadlineMs h).2 ⟨j, cfg, hpend, harmed, hcfg, rfl⟩

/-- Until when the wave rests: until the first of its deadlines. -/
def wakes (g : Graph n) (s : StartWave n) : Option ℕ :=
  match s.pc with
  | .yield | .sleep _ => (s.deadlineMs g).map fun ms => s.epoch + g.fromMillis ms
  | .visit _ _ | .panic | .done _ => none

/-- At rest, the wave has a deadline, and its slots are armed or wait. -/
theorem Paced.rest (hs : Paced g chosen s now)
    (hpc : s.pc = .yield ∨ ∃ d, s.pc = .sleep d) : (∃ j, s.pending j = true) ∧
      (∀ j, Reached g s j) ∧ ∃ ms, s.deadlineMs g = some ms ∧
        s.wakes g = some (s.epoch + g.fromMillis ms) := by
  have hrests := hs.rests
  have hplace : ((∃ j, s.pending j = true ∧ s.armed j ≠ unarmed) ∧ ∀ j, Reached g s j) ∧
      s.wakes g = (s.deadlineMs g).map fun ms => s.epoch + g.fromMillis ms := by
    rcases hpc with hpc | ⟨d, hpc⟩
    · rw [hpc] at hrests
      exact ⟨hrests, by rw [wakes, hpc]⟩
    · rw [hpc] at hrests
      exact ⟨hrests.1, by rw [wakes, hpc]⟩
  obtain ⟨⟨harmed, hreached⟩, hwakes⟩ := hplace
  obtain ⟨ms, hms⟩ := Option.ne_none_iff_exists'.mp (deadlineMs_ne_none hs.sound.occupied harmed)
  rw [hms] at hwakes
  obtain ⟨j, hj, -⟩ := harmed
  exact ⟨⟨j, hj⟩, hreached, ms, hms, hwakes⟩

/-- **Time passes while the wave rests**, to its deadline at most. -/
theorem Paced.elapse (hz : 0 < g.tickHz) (hs : Paced g chosen s now) {now' : ℕ}
    (hpc : s.pc = .yield ∨ ∃ d, s.pc = .sleep d) (hle : now ≤ now')
    (hontime : ∀ d, s.wakes g = some d → now' ≤ d) : Paced g chosen s now' := by
  obtain ⟨⟨k, hk⟩, hreached, ms, hms, hwakes⟩ := hs.rest hpc
  have hdue := hontime _ hwakes
  have hopen : ∀ j, s.pending j = true → s.armed j ≠ unarmed ∧
      now' - s.epoch ≤ g.fromMillis (s.armed j + g.startSpan j) ∨
        ¬s.armed j ≠ unarmed ∧ ∃ d ∈ g.startRow chosen j, s.pending d = true := by
    intro j hj
    by_cases harmed : s.armed j = unarmed
    · obtain ⟨d, hd, hpend⟩ := (hreached j hj).resolve_left fun hne => hne harmed
      exact Or.inr ⟨fun hne => hne harmed, d, Graph.mem_startRow.mpr ⟨hd, hs.among d hpend⟩, hpend⟩
    · have hmono := (Graph.galois_millis hz).monotone_l (le_of_deadlineMs hms hs.sound hj harmed)
      exact Or.inl ⟨harmed, by omega⟩
  have hlater := hs.slots.elapse Graph.topological_startRow (Graph.galois_millis hz) hopen
  refine ⟨⟨hs.epoch.trans hle, hs.among, hlater, ?_⟩, hs.sound, hs.rests⟩
  apply (hlater.closing k hk).trans
  exact tick_latest_le_makespan (Graph.galois_millis hz).monotone_l (by simpa using hs.among k hk)

/-- The wave rests no longer than the start may take. -/
theorem Paced.wakes_le (hz : 0 < g.tickHz) (hs : Paced g chosen s now) {d : ℕ}
    (hd : s.wakes g = some d) : d ≤ s.epoch + g.startBound chosen := by
  have hpc : s.pc = .yield ∨ ∃ d, s.pc = .sleep d := by
    unfold wakes at hd
    cases hpc : s.pc with
    | yield => exact Or.inl rfl
    | sleep d => exact Or.inr ⟨d, rfl⟩
    | visit | panic | done =>
        rw [hpc] at hd
        cases hd
  obtain ⟨⟨k, hk⟩, hreached, ms, hms, hwakes⟩ := hs.rest hpc
  obtain ⟨j, hj, hfirst⟩ :=
    g.topological.exists_first (p := fun j => s.pending j = true) hk
  have harmed : s.armed j ≠ unarmed := (hreached j hj).resolve_right fun ⟨d, hdep, hpend⟩ =>
    hfirst d hdep hpend
  have hlatest := (le_of_deadlineMs hms hs.sound hj harmed).trans
    (hs.slots.stamp_le Graph.topological_startRow hj harmed)
  have hmono := (Graph.galois_millis hz).monotone_l
  have hbound := (hmono hlatest).trans
    (tick_latest_le_makespan hmono (show j ∈ (List.finRange n).filter chosen by
      simpa using hs.among j hj))
  cases hwakes.symm.trans hd
  exact Nat.add_le_add_left hbound _

end StartWave

end EmbassySupervisor
