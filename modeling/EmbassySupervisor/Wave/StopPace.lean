/-
# How long a stop wave takes

A chosen slot is signalled once its chosen dependents have resolved, and resolves when its window
closes at the latest. So the wave takes as long as the longest chain of windows along the
dependents, and not as their sum, where it is woken at its deadlines: `Paced` is what that keeps,
and `effort` bounds the steps it takes meanwhile.
-/

import EmbassySupervisor.Lib.CriticalPath
import EmbassySupervisor.Verb.NoPanic
import Mathlib.Data.Fintype.Card

namespace EmbassySupervisor

open CriticalPath DependencyOrder

variable {n : ℕ}

namespace Graph

variable (g : Graph n) (chosen : Fin n → Bool)

/-- The chosen dependents of a slot. -/
def stopRow (j : Fin n) : List (Fin n) := (dependents (List.finRange n) g.deps j).filter chosen

/-- The window of a slot, on the clock of a wave. -/
def stopSpan (j : Fin n) : ℕ := (g.nodes j).elim 0 fun cfg => g.asMillis cfg.ackTimeout

/-- What a stop of the chosen slots takes at the longest, in ticks. -/
def stopBound : ℕ :=
  makespan g.fromMillis (g.asMillis ∘ g.fromMillis) g.stopSpan (g.stopRow chosen)
    g.order.reverse ((List.finRange n).filter chosen)

end Graph

section Bound

variable {g : Graph n} {chosen : Fin n → Bool}

/-- The first tick of a millisecond. -/
theorem Graph.galois_millis (hz : 0 < g.tickHz) : GaloisConnection g.fromMillis g.asMillis := by
  intro ms ticks
  rw [Graph.fromMillis, Graph.asMillis, Nat.le_div_iff_mul_le hz]
  omega

/-- With a tick of a millisecond or less nothing is lost. -/
theorem Graph.asMillis_fromMillis (hz : 1000 ≤ g.tickHz) (ms : ℕ) :
    g.asMillis (g.fromMillis ms) = ms := by
  apply Nat.le_antisymm
  · rw [Graph.asMillis, Nat.div_le_iff_le_mul_add_pred (by omega), Graph.fromMillis]
    have hup : (ms * g.tickHz + 999) / 1000 * 1000 ≤ ms * g.tickHz + 999 := Nat.div_mul_le_self _ _
    rw [Nat.mul_comm g.tickHz ms]
    omega
  · exact (Graph.galois_millis (by omega)).le_u_l ms

theorem Graph.stopSpan_of_some {j : Fin n} {cfg : NodeCfg n} (hcfg : g.nodes j = some cfg) :
    g.stopSpan j = g.asMillis cfg.ackTimeout := by
  rw [Graph.stopSpan, hcfg]
  rfl

theorem Graph.mem_stopRow {j k : Fin n} :
    k ∈ g.stopRow chosen j ↔ chosen k = true ∧ j ∈ g.deps k := by
  simp [Graph.stopRow, mem_dependents, and_comm]

theorem Graph.topological_stopRow :
    TopologicalOrder (g.stopRow chosen) g.order.reverse :=
  (topological_dependents g.topological (List.finRange n)).mono fun _ =>
    List.filter_subset_self _

/-- **The longest chain of windows**, each of a dependent of the next. -/
theorem Graph.isGreatest_stopBound (hz : 1000 ≤ g.tickHz) :
    IsGreatest {ticks | ∃ path : List (Fin n), (∀ j ∈ path, chosen j = true) ∧
      path.IsChain (fun k j => chosen k = true ∧ j ∈ g.deps k) ∧
      ticks = g.fromMillis (path.map g.stopSpan).sum}
      (g.stopBound chosen) := by
  have hgreatest : IsGreatest _ (g.stopBound chosen) :=
    isGreatest_makespan Graph.topological_stopRow (Graph.galois_millis (by omega)).monotone_l
      (Graph.asMillis_fromMillis hz) fun j k hk => by simpa using (Graph.mem_stopRow.mp hk).1
  simpa only [Graph.mem_stopRow, List.mem_filter, List.mem_finRange, true_and] using hgreatest

end Bound

namespace StopWave

/-! ## The wave is in time -/

/-- What has become of the slots is in time, as far as the wave's clock is concerned. -/
structure InTime (g : Graph n) (s : StopWave n) (now : ℕ) : Prop where
  epoch : s.epoch ≤ now
  slots : CriticalPath.InTime g.fromMillis g.asMillis g.stopSpan (g.stopRow s.chosen)
    g.order.reverse (fun j => s.unresolved j = true) (fun j => s.signaled j ≠ unsignaled)
    s.signaled (now - s.epoch)
  bound : now - s.epoch ≤ g.stopBound s.chosen

/-- The wave wakes when the window of the slot closes, if it has been signalled. -/
def WakesFor (g : Graph n) (s : StopWave n) (deadline : ℕ) (j : Fin n) : Prop :=
  s.unresolved j = true → s.signaled j ≠ unsignaled →
    ∃ cfg, g.nodes j = some cfg ∧ deadline ≤ s.epoch + g.fromMillis (s.dueMs g cfg j)

/-- The deadline of a wave is the first of its windows to close. -/
def Deadline (g : Graph n) (s : StopWave n) (now : ℕ) : StopPc n → Prop
  | .expire todo nowMs deadline _ => nowMs = g.asMillis (now - s.epoch) ∧
    (∀ d, deadline = some d → now < d) ∧
    ∀ j ∉ todo, s.unresolved j = true → s.signaled j ≠ unsignaled →
      ∃ d, deadline = some d ∧ WakesFor g s d j
  | .sleep d => (∃ j, s.unresolved j = true) ∧ ∀ j, SeenTo g s j ∧ WakesFor g s d j
  | .signal _ | .collect _ _ | .panic | .done _ => True

structure Paced (g : Graph n) (s : StopWave n) (now : ℕ) : Prop extends InTime g s now where
  sound : Sound g s
  deadline : Deadline g s now s.pc

variable {g : Graph n} {s s' : StopWave n} {w w' : World n} {now : ℕ}

theorem mem_chosen {j : Fin n} (hj : s.unresolved j = true) :
    j ∈ (List.finRange n).filter s.chosen := by
  simpa using (Bool.and_eq_true_iff.mp hj).1

theorem paced_launch (w : World n) {chosen : Fin n → Bool} (keepGoing : Bool)
    (hocc : ∀ j, chosen j = true → g.occupied j = true) :
    Paced g (launch g w chosen keepGoing) w.now where
  epoch := le_rfl
  slots := by
    apply CriticalPath.InTime.start
    · intro ms
      exact (Nat.sub_self w.now).le.trans (Nat.zero_le _)
    · show g.asMillis (w.now - w.now) = 0
      rw [Nat.sub_self, Graph.asMillis, Nat.zero_mul, Nat.zero_div]
    · exact fun j hj => hj rfl
  bound := (Nat.sub_self w.now).le.trans (Nat.zero_le _)
  sound := sound_launch w keepGoing hocc
  deadline := trivial

/-- A step leaves the wave in time: a slot is signalled when its row has closed. -/
theorem InTime.step (hs : InTime g s w.now) (h : Step g w s s' w') : InTime g s' w'.now := by
  have hnow := h.now_eq
  have hkeep : s'.chosen = s.chosen → s'.epoch = s.epoch → s'.signaled = s.signaled →
      (∀ j, s'.resolved j = false → s.resolved j = false) → InTime g s' w'.now := by
    intro hchosen hepoch hsignaled hresolved
    refine ⟨?_, ?_, ?_⟩
    · rw [hepoch, hnow]
      exact hs.epoch
    · rw [hchosen, hepoch, hsignaled, hnow]
      refine hs.slots.closes fun j hj => ⟨?_, Iff.rfl, rfl⟩
      rw [unresolved, hchosen] at hj
      obtain ⟨hj, hopen⟩ := Bool.and_eq_true_iff.mp hj
      rw [unresolved, hj, hresolved j (by simpa using hopen)]
      rfl
    · rw [hchosen, hepoch, hnow]
      exact hs.bound
  cases h with
  | @signal j _ _ _ hopen hfresh _ _ =>
      refine ⟨hnow ▸ hs.epoch, ?_, hnow ▸ hs.bound⟩
      rw [hnow]
      apply hs.slots.opens (by simpa using hfresh) (min_le_left _ _)
      · intro i hij
        simp only [ne_eq, Function.update_of_ne hij]
      · simp only [ne_eq, Function.update_self, unsignaled]
        omega
  | @collect j | @giveUp j =>
      refine hkeep rfl rfl rfl fun i hi => ?_
      by_cases hij : i = j
      · subst hij
        simp at hi
      · simpa [hij] using hi
  | skip | passOver | abort | finish | examine | turn => exact hkeep rfl rfl rfl fun _ hi => hi

theorem WakesFor.mono {d d' : ℕ} {j : Fin n} (h : WakesFor g s d j) (hle : d' ≤ d) :
    WakesFor g s d' j := by
  intro hopen hsignaled
  obtain ⟨cfg, hcfg, hdue⟩ := h hopen hsignaled
  exact ⟨cfg, hcfg, hle.trans hdue⟩

/-- The visit of a slot in the expire pass accounts for its window. -/
theorem deadline_expireVisit (hz : 0 < g.tickHz) {j : Fin n} {todo : List (Fin n)} {nowMs : ℕ}
    {deadline : Option ℕ} {progress : Bool} (hs : Paced g s w.now)
    (hpc : s.pc = .expire (j :: todo) nowMs deadline progress) :
    Deadline g (expireVisit g w s j todo nowMs deadline progress).1 w.now
      (expireVisit g w s j todo nowMs deadline progress).1.pc := by
  have hbefore := hs.deadline
  rw [hpc] at hbefore
  obtain ⟨hnowMs, hfuture, hseen⟩ := hbefore
  unfold expireVisit
  split
  · next hopen =>
      simp only [Bool.and_eq_true] at hopen
      cases hcfg : g.nodes j with
      | none => exact trivial
      | some cfg =>
          simp only
          split
          · next hdue =>
              have hlate : w.now < s.epoch + g.fromMillis (s.dueMs g cfg j) := by
                have hticks : w.now - s.epoch < g.fromMillis (s.dueMs g cfg j) := by
                  apply (Graph.galois_millis hz).lt_iff_lt.mpr
                  rwa [← hnowMs]
                have := hs.epoch
                omega
              refine ⟨hnowMs, fun d hd => ?_, fun i hi hiopen hisignaled => ?_⟩
              · cases hd
                cases deadline with
                | none => exact hlate
                | some d => exact lt_min (hfuture d rfl) hlate
              · refine ⟨_, rfl, ?_⟩
                by_cases hij : i = j
                · subst hij
                  intro _ _
                  refine ⟨cfg, hcfg, ?_⟩
                  cases deadline with
                  | none => exact le_rfl
                  | some d => exact min_le_right _ _
                · obtain ⟨d, rfl, hwakes⟩ := hseen i (by simp [hij, hi]) hiopen hisignaled
                  exact hwakes.mono (min_le_left _ _)
          · split
            · refine ⟨hnowMs, hfuture, fun i hi hiopen hisignaled => ?_⟩
              have hij : i ≠ j := by
                rintro rfl
                simp [unresolved] at hiopen
              have hopen' : s.unresolved i = true := by
                simpa [unresolved, hij] using hiopen
              obtain ⟨d, hd, hwakes⟩ := hseen i (by simp [hij, hi]) hopen' hisignaled
              exact ⟨d, hd, fun _ => hwakes hopen'⟩
            · exact trivial
  · next hskip =>
      refine ⟨hnowMs, hfuture, fun i hi hiopen hisignaled => ?_⟩
      have hij : i ≠ j := by
        rintro rfl
        have hopen : s.unresolved i = true := hiopen
        have hsignaled : s.signaled i ≠ unsignaled := hisignaled
        simp [hopen, hsignaled] at hskip
      exact hseen i (by simp [hij, hi]) hiopen hisignaled

theorem deadline_step (hz : 0 < g.tickHz) (hs : Paced g s w.now)
    (h : step g w s = some (s', w')) : Deadline g s' w.now s'.pc := by
  have hdeadline := hs.deadline
  have hpassed := hs.sound.passed
  unfold StopWave.step at h
  cases hpc : s.pc with
  | signal todo =>
      cases todo with
      | cons j todo =>
          simp only [hpc] at h
          have hvisit : (signalVisit g w s j todo).1 = s' := congrArg Prod.fst (Option.some.inj h)
          rw [← hvisit]
          unfold signalVisit
          split
          · split
            · exact trivial
            · exact trivial
          · exact trivial
      | nil =>
          simp only [hpc] at h
          cases h
          exact trivial
  | collect todo progress =>
      cases todo with
      | cons j todo =>
          simp only [hpc] at h
          have hvisit : (collectVisit g w s j todo progress).1 = s' := congrArg Prod.fst (Option.some.inj h)
          rw [← hvisit]
          unfold collectVisit
          split
          · split
            · exact trivial
            · split
              · exact trivial
              · exact trivial
          · exact trivial
      | nil =>
          simp only [hpc] at h
          split at h
          · cases h
            exact trivial
          · split at h
            · cases h
              exact trivial
            · cases h
              exact ⟨rfl, nofun, fun j hj => absurd (List.mem_reverse.mpr (g.mem_order j)) hj⟩
  | expire todo nowMs deadline progress =>
      cases todo with
      | cons j todo =>
          simp only [hpc] at h
          have hvisit : (expireVisit g w s j todo nowMs deadline progress).1 = s' :=
            congrArg Prod.fst (Option.some.inj h)
          rw [← hvisit]
          exact deadline_expireVisit hz hs hpc
      | nil =>
          rw [hpc] at hdeadline hpassed
          simp only [hpc] at h
          split at h
          · cases h
            exact trivial
          · next hno =>
              obtain ⟨hseen, hsome, -⟩ := hpassed (by simpa using hno)
              cases deadline with
              | none =>
                  cases h
                  exact trivial
              | some d =>
                  cases h
                  refine ⟨hsome, fun j => ⟨hseen j, fun hopen hsignaled => ?_⟩⟩
                  obtain ⟨d', hd, hwakes⟩ :=
                    hdeadline.2.2 j List.not_mem_nil hopen hsignaled
                  cases hd
                  exact hwakes hopen hsignaled
  | sleep d =>
      simp only [hpc] at h
      split at h
      · cases h
        exact trivial
      · split at h
        · cases h
          exact trivial
        · cases h
  | panic | done => simp [hpc] at h

theorem Paced.step (hz : 0 < g.tickHz) (hs : Paced g s w.now)
    (h : step g w s = some (s', w')) : Paced g s' w'.now where
  toInTime := hs.toInTime.step (step_cases h)
  sound := hs.sound.step (Option.map_eq_some_iff.mpr ⟨_, h, rfl⟩)
  deadline := by
    rw [(step_cases h).now_eq]
    exact deadline_step hz hs h

/-- **Time passes while the wave sleeps**, to its deadline at most. -/
theorem Paced.elapse (hz : 0 < g.tickHz) (hs : Paced g s now) {d now' : ℕ}
    (hpc : s.pc = .sleep d) (hle : now ≤ now') (hontime : now' ≤ d) : Paced g s now' := by
  have hwaits := hs.deadline
  rw [hpc] at hwaits
  obtain ⟨⟨k, hk⟩, hslots⟩ := hwaits
  have hopen : ∀ j, s.unresolved j = true → s.signaled j ≠ unsignaled ∧
      now' - s.epoch ≤ g.fromMillis (s.signaled j + g.stopSpan j) ∨
        ¬s.signaled j ≠ unsignaled ∧ ∃ i ∈ g.stopRow s.chosen j, s.unresolved i = true := by
    intro j hj
    obtain ⟨hseen, hwakes⟩ := hslots j
    by_cases hsignaled : s.signaled j = unsignaled
    · have hheld : s.held g j = true := (hseen hj).resolve_left fun hne => hne hsignaled
      refine Or.inr ⟨fun hne => hne hsignaled, ?_⟩
      simp only [held, List.any_eq_true, Bool.and_eq_true, List.contains_iff_mem] at hheld
      obtain ⟨i, -, hi, hdep⟩ := hheld
      exact ⟨i, Graph.mem_stopRow.mpr ⟨(Bool.and_eq_true_iff.mp hi).1, hdep⟩, hi⟩
    · obtain ⟨cfg, hcfg, hdue⟩ := hwakes hj hsignaled
      have hwindow : d ≤ s.epoch + g.fromMillis (s.signaled j + g.asMillis cfg.ackTimeout) := hdue
      refine Or.inl ⟨hsignaled, ?_⟩
      rw [Graph.stopSpan_of_some hcfg]
      omega
  have hlater := hs.slots.elapse Graph.topological_stopRow (Graph.galois_millis hz) hopen
  refine ⟨⟨hs.epoch.trans hle, hlater, ?_⟩, hs.sound, ?_⟩
  · apply (hlater.closing k hk).trans
    exact tick_latest_le_makespan (Graph.galois_millis hz).monotone_l (mem_chosen hk)
  · rw [hpc]
    exact ⟨⟨k, hk⟩, hslots⟩

/-- The wave sleeps no longer than the stop may take. -/
theorem Paced.deadline_le (hz : 0 < g.tickHz) (hs : Paced g s now) {d : ℕ}
    (hpc : s.pc = .sleep d) : d ≤ s.epoch + g.stopBound s.chosen := by
  have hwaits := hs.deadline
  rw [hpc] at hwaits
  obtain ⟨⟨k, hk⟩, hslots⟩ := hwaits
  obtain ⟨j, hj, hlast⟩ := g.topological.exists_last hk
  obtain ⟨hseen, hwakes⟩ := hslots j
  have hfree : s.held g j = false := held_eq_false_iff.mpr hlast
  have hsignaled : s.signaled j ≠ unsignaled :=
    (hseen hj).resolve_right (by rw [hfree]; exact Bool.false_ne_true)
  obtain ⟨cfg, hcfg, hdue⟩ := hwakes hj hsignaled
  have hlatest : s.dueMs g cfg j ≤ latest (g.asMillis ∘ g.fromMillis) g.stopSpan
      (g.stopRow s.chosen) g.order.reverse j := by
    rw [dueMs, ← Graph.stopSpan_of_some hcfg]
    exact hs.slots.stamp_le Graph.topological_stopRow hj hsignaled
  have hmono := (Graph.galois_millis hz).monotone_l
  have hbound := (hmono hlatest).trans (tick_latest_le_makespan hmono (mem_chosen hj))
  exact hdue.trans (Nat.add_le_add_left hbound _)

/-! ## The steps of the wave -/

/-- The chosen slots that have not resolved. -/
def left (s : StopWave n) : ℕ := (Finset.univ.filter fun j => s.unresolved j = true).card

/-- The rounds ahead of the wave before it sleeps for good: there is another one only when a slot
has resolved or the wave is woken. -/
def rounds (s : StopWave n) (w : World n) : ℕ :=
  match s.pc with
  | .signal _ => s.left + w.stopEvt.toNat
  | .collect _ progress | .expire _ _ _ progress => s.left + w.stopEvt.toNat + progress.toNat
  | .sleep d => s.left + (w.stopEvt || decide (d ≤ w.now)).toNat
  | .panic | .done _ => 0

/-- The steps ahead of it in the round it is in, which has three passes over the slots. -/
def rest (g : Graph n) (s : StopWave n) : ℕ :=
  match s.pc with
  | .signal todo => todo.length + 2 * g.order.length + 4
  | .collect todo _ => todo.length + g.order.length + 3
  | .expire todo _ _ _ => todo.length + 2
  | .sleep _ => 1
  | .panic | .done _ => 0

/-- A bound on the steps of the wave before it sleeps for good. -/
def effort (g : Graph n) (s : StopWave n) (w : World n) : ℕ :=
  (3 * g.order.length + 4) * s.rounds w + s.rest g

theorem stopEvt_missAck (w : World n) (cfg : NodeCfg n) (j : Fin n) :
    (w.missAck g cfg j).stopEvt = w.stopEvt := by
  unfold World.missAck World.releaseClaims
  split
  · split
    · rfl
    · rfl
  · rfl

theorem left_resolve {j : Fin n} (hj : s.unresolved j = true) (s' : StopWave n)
    (hchosen : s'.chosen = s.chosen) (hresolved : s'.resolved = Function.update s.resolved j true) :
    s'.left < s.left := by
  apply Finset.card_lt_card
  rw [Finset.ssubset_iff_of_subset]
  · refine ⟨j, by simpa using hj, ?_⟩
    simp [unresolved, hresolved]
  · intro i hi
    simp only [Finset.mem_filter, Finset.mem_univ, true_and, unresolved, hchosen, hresolved,
      Bool.and_eq_true, Bool.not_eq_true'] at hi ⊢
    refine ⟨hi.1, ?_⟩
    by_cases hij : i = j
    · simp [hij] at hi
    · simpa [hij] using hi.2

/-- What a step uses up. -/
def Uses (g : Graph n) (s : StopWave n) (w : World n) (s' : StopWave n) (w' : World n) : Prop :=
  (s'.rounds w' ≤ s.rounds w ∧ s'.rest g < s.rest g) ∨
    (s'.rounds w' < s.rounds w ∧ s'.rest g ≤ 3 * g.order.length + 4)

section Visits

variable {j : Fin n} {todo : List (Fin n)}

theorem uses_signalVisit (hpc : s.pc = .signal (j :: todo)) :
    Uses g s w (signalVisit g w s j todo).1 (signalVisit g w s j todo).2 := by
  unfold signalVisit
  split
  · split
    · exact Or.inl ⟨Nat.zero_le _, by simp [rest, hpc]⟩
    · exact Or.inl ⟨by simp only [rounds, hpc]; exact le_rfl, by simp [rest, hpc]⟩
  · exact Or.inl ⟨by simp only [rounds, hpc]; exact le_rfl, by simp [rest, hpc]⟩

/-- An acknowledgement taken leaves one slot fewer. -/
theorem uses_collectVisit {progress : Bool} (hpc : s.pc = .collect (j :: todo) progress) :
    Uses g s w (collectVisit g w s j todo progress).1 (collectVisit g w s j todo progress).2 := by
  have passes : Uses g s w { s with pc := .collect todo progress } w :=
    Or.inl ⟨by simp only [rounds, hpc]; exact le_rfl, by simp [rest, hpc]⟩
  unfold collectVisit
  split
  · next hopen =>
      split
      · exact Or.inl ⟨Nat.zero_le _, by simp [rest, hpc]⟩
      · split
        · have hleft := left_resolve hopen
            { s with resolved := Function.update s.resolved j true
                     pc := .collect todo true } rfl rfl
          refine Or.inl ⟨?_, by simp [rest, hpc]⟩
          simp only [rounds, hpc, Bool.toNat_true]
          show _ + w.stopEvt.toNat + 1 ≤ _
          omega
        · exact passes
  · exact passes

/-- So does a window that has closed. -/
theorem uses_expireVisit {nowMs : ℕ} {deadline : Option ℕ} {progress : Bool}
    (hpc : s.pc = .expire (j :: todo) nowMs deadline progress) :
    Uses g s w (expireVisit g w s j todo nowMs deadline progress).1
      (expireVisit g w s j todo nowMs deadline progress).2 := by
  have passes : ∀ deadline', Uses g s w { s with pc := .expire todo nowMs deadline' progress } w :=
    fun _ => Or.inl ⟨by simp only [rounds, hpc]; exact le_rfl, by simp [rest, hpc]⟩
  unfold expireVisit
  split
  · next hopen =>
      split
      · exact Or.inl ⟨Nat.zero_le _, by simp [rest, hpc]⟩
      · split
        · exact passes _
        · simp only
          split
          · have hleft := left_resolve (Bool.and_eq_true_iff.mp hopen).1
              { s with firstErr := s.firstErr.or (some { node := j, kind := .shutdownTimeout })
                       resolved := Function.update s.resolved j true
                       pc := .expire todo nowMs deadline true } rfl rfl
            refine Or.inl ⟨?_, by simp [rest, hpc]⟩
            simp only [rounds, hpc, Bool.toNat_true]
            rw [stopEvt_missAck]
            omega
          · exact Or.inl ⟨Nat.zero_le _, by simp [rest, hpc]⟩
  · exact passes _

end Visits

theorem uses_step (hs : Paced g s w.now) (h : step g w s = some (s', w')) :
    Uses g s w s' w' := by
  have hdeadline := hs.deadline
  have hround : ∀ u : World n, s.rounds w ≥ s.left + u.stopEvt.toNat + 1 →
      Uses g s w { s with pc := .signal g.order.reverse } u := by
    intro u hless
    refine Or.inr ⟨hless, ?_⟩
    simp only [rest, List.length_reverse]
    omega
  unfold StopWave.step at h
  cases hpc : s.pc with
  | signal todo =>
      cases todo with
      | cons j todo =>
          simp only [hpc, Option.some.injEq] at h
          have huses := uses_signalVisit (g := g) (w := w) hpc
          rwa [h] at huses
      | nil =>
          simp only [hpc] at h
          cases h
          refine Or.inl ⟨?_, ?_⟩
          · simp only [rounds, hpc]
            exact le_rfl
          · simp only [rest, hpc, List.length_nil, List.length_reverse]
            omega
  | collect todo progress =>
      cases todo with
      | cons j todo =>
          simp only [hpc, Option.some.injEq] at h
          have huses := uses_collectVisit (g := g) (w := w) hpc
          rwa [h] at huses
      | nil =>
          simp only [hpc] at h
          split at h
          · cases h
            exact Or.inl ⟨Nat.zero_le _, by simp [rest, hpc]⟩
          · split at h
            · next hprogress =>
                cases h
                apply hround
                simp [rounds, hpc, hprogress]
            · next hno =>
                cases h
                refine Or.inl ⟨?_, ?_⟩
                · simp only [rounds, hpc, Bool.toNat_false]
                  exact Nat.le_add_right _ _
                · simp only [rest, hpc, List.length_nil, List.length_reverse]
                  omega
  | expire todo nowMs deadline progress =>
      cases todo with
      | cons j todo =>
          simp only [hpc, Option.some.injEq] at h
          have huses := uses_expireVisit (g := g) (w := w) hpc
          rwa [h] at huses
      | nil =>
          rw [hpc] at hdeadline
          simp only [hpc] at h
          split at h
          · next hprogress =>
              cases h
              apply hround
              simp [rounds, hpc, hprogress]
          · split at h
            · cases h
              exact Or.inl ⟨Nat.zero_le _, by simp [rest, hpc]⟩
            · next d =>
                cases h
                have hlate := hdeadline.2.1 d rfl
                refine Or.inl ⟨?_, by simp [rest, hpc]⟩
                simp only [rounds, hpc, decide_eq_false (not_le.mpr hlate), Bool.or_false]
                exact Nat.le_add_right _ _
  | sleep d =>
      simp only [hpc] at h
      split at h
      · next hevt =>
          cases h
          apply hround
          simp [rounds, hpc, hevt]
      · next hevt =>
          split at h
          · next hdue =>
              cases h
              apply hround
              simp [rounds, hpc, hevt, hdue]
          · cases h
  | panic | done => simp [hpc] at h

/-- **Every step counts.** -/
theorem effort_step (hs : Paced g s w.now) (h : step g w s = some (s', w')) :
    s'.effort g w' < s.effort g w := by
  rw [effort, effort]
  rcases uses_step hs h with ⟨hrounds, hrest⟩ | ⟨hrounds, hrest⟩
  · exact Nat.add_lt_add_of_le_of_lt (Nat.mul_le_mul_left _ hrounds) hrest
  · have hmul : (3 * g.order.length + 4) * (s'.rounds w' + 1) ≤
        (3 * g.order.length + 4) * s.rounds w := Nat.mul_le_mul_left _ hrounds
    rw [Nat.mul_succ] at hmul
    have hpos : 0 < s.rest g := by
      unfold StopWave.step at h
      cases hpc : s.pc with
      | signal | collect | expire | sleep => simp [rest, hpc]
      | panic | done => simp [hpc] at h
    omega

/-- While the wave sleeps, others may give it one more round. -/
theorem effort_sleep {d : ℕ} (hpc : s.pc = .sleep d) (w w' : World n) :
    s.effort g w' ≤ s.effort g w + (3 * g.order.length + 4) := by
  have hrounds : s.rounds w' ≤ s.rounds w + 1 := by
    have hflag := Bool.toNat_le (w'.stopEvt || decide (d ≤ w'.now))
    simp only [rounds, hpc]
    omega
  have hmul := Nat.mul_le_mul_left (3 * g.order.length + 4) hrounds
  rw [Nat.mul_succ] at hmul
  rw [effort, effort]
  omega

end StopWave

end EmbassySupervisor
