/-
# Calls among the tasks

The whole system: the shared state and every call of a verb made so far. All of
them run on one cooperative executor, so a call that has been resumed runs on
until its next await, and only when every call rests may another begin, a task
act, the application set a hold, or a call in flight be dropped.

Runs are lists of labels. `world_invariant` packages the induction for what the
shared state alone keeps, `sequential_invariant` the one for calls made one after
another.
-/

import EmbassySupervisor.Verb.Begin

namespace EmbassySupervisor

open LabelledRun

variable {n : ℕ} {g : Graph n}

/-- What happens next: a call begins, the call at an index is carried on, a task
acts, the application sets or lifts a manual stop, or a call is dropped. -/
inductive Label (n : ℕ)
  | begin (v : Verb n)
  | advance (i : ℕ)
  | task (e : TaskEvent n)
  | setDisabled (node : Fin n) (disabled : Bool)
  | cancel (i : ℕ)

/-- The shared state, and the calls in the order they began. -/
structure Sys (n : ℕ) where
  world : World n
  calls : List (Call n) := []

namespace Call

/-- Suspended at an await, or over. A panic takes the whole system down. -/
def atAwait : Call n → Bool
  | .stopping wave _ =>
    match wave.pc with
    | .sleep _ => true
    | .signal _ | .collect _ _ | .expire _ _ _ _ | .panic | .done _ => false
  | .starting wave _ =>
    match wave.pc with
    | .sleep _ | .yield => true
    | .visit _ _ | .panic | .done _ => false
  | .startNode _ _ _ | .stopNode _ _ | .done _ | .cancelled => true
  | .bindUp _ | .panic => false

/-- Returned, or dropped. -/
def finished : Call n → Bool
  | .done _ | .cancelled => true
  | .stopping _ _ | .starting _ _ | .startNode _ _ _ | .stopNode _ _ | .bindUp _
  | .panic => false

theorem step_of_finished {c : Call n} (hc : c.finished = true) (w : World n) :
    c.step g w = none := by
  cases c with
  | done | cancelled => rfl
  | stopping | starting | startNode | stopNode | bindUp | panic => simp [finished] at hc

end Call

namespace Sys

/-- Every call is suspended or over. -/
def resting (s : Sys n) : Bool := s.calls.all Call.atAwait

/-- Every call but the one at the index is suspended or over. -/
def restingBut (s : Sys n) (i : ℕ) : Bool :=
  (List.range s.calls.length).all fun k => k == i || (s.calls[k]?).all Call.atAwait

def next (g : Graph n) (s : Sys n) : Label n → Option (Sys n)
  | .begin v =>
    if s.resting then
      let (c, w) := g.begin s.world v
      some { world := w, calls := s.calls ++ [c] }
    else none
  | .advance i =>
    if s.restingBut i then do
      let c ← s.calls[i]?
      let (c, w) ← c.step g s.world
      some { world := w, calls := s.calls.set i c }
    else none
  | .task e =>
    if s.resting then (e.apply g s.world).map fun w => { s with world := w } else none
  | .setDisabled j disabled =>
    if s.resting && g.occupied j then
      some { s with world := s.world.onNode j fun h => h.setDisabled disabled }
    else none
  | .cancel i =>
    if s.resting then
      (s.calls[i]?).bind fun c =>
        if c.finished then none else some { s with calls := s.calls.set i .cancelled }
    else none

/-! ## What a step can do -/

/-- The steps of the system, label by label. -/
inductive Step (g : Graph n) (s : Sys n) : Label n → Sys n → Prop
  | begin {v : Verb n} {c : Call n} {w : World n}
      (hrest : ∀ d ∈ s.calls, d.atAwait = true) (hbegin : g.begin s.world v = (c, w)) :
      Step g s (.begin v) { world := w, calls := s.calls ++ [c] }
  | advance {i : ℕ} {c c' : Call n} {w : World n}
      (hrest : ∀ k d, k ≠ i → s.calls[k]? = some d → d.atAwait = true)
      (hcall : s.calls[i]? = some c) (hstep : c.step g s.world = some (c', w)) :
      Step g s (.advance i) { world := w, calls := s.calls.set i c' }
  | task {e : TaskEvent n} {w : World n} (hrest : ∀ d ∈ s.calls, d.atAwait = true)
      (happly : e.apply g s.world = some w) :
      Step g s (.task e) { world := w, calls := s.calls }
  | setDisabled {j : Fin n} {disabled : Bool} (hrest : ∀ d ∈ s.calls, d.atAwait = true)
      (hocc : g.occupied j = true) :
      Step g s (.setDisabled j disabled)
        { world := s.world.onNode j fun h => h.setDisabled disabled, calls := s.calls }
  | cancel {i : ℕ} {c : Call n} (hrest : ∀ d ∈ s.calls, d.atAwait = true)
      (hcall : s.calls[i]? = some c) (hlive : c.finished = false) :
      Step g s (.cancel i) { world := s.world, calls := s.calls.set i .cancelled }

theorem resting_iff {s : Sys n} : s.resting = true ↔ ∀ d ∈ s.calls, d.atAwait = true := by
  simp [resting]

private theorem of_restingBut {s : Sys n} {i : ℕ} (h : s.restingBut i = true) (k : ℕ)
    (d : Call n) (hk : k ≠ i) (hd : s.calls[k]? = some d) : d.atAwait = true := by
  obtain ⟨hlt, _⟩ := List.getElem?_eq_some_iff.mp hd
  have hall := List.all_eq_true.mp h k (List.mem_range.mpr hlt)
  simpa [hk, hd] using hall

/-- **Inversion of a step of the system.** -/
theorem next_cases {s s' : Sys n} {l : Label n} (h : next g s l = some s') :
    Step g s l s' := by
  cases l with
  | begin v =>
      simp only [next] at h
      by_cases hrest : s.resting = true
      · rw [if_pos hrest] at h
        cases h
        exact .begin (resting_iff.mp hrest) rfl
      · simp [hrest] at h
  | advance i =>
      simp only [next] at h
      by_cases hrest : s.restingBut i = true
      · rw [if_pos hrest] at h
        obtain ⟨c, hcall, h⟩ := Option.bind_eq_some_iff.mp h
        obtain ⟨⟨c', w⟩, hstep, h⟩ := Option.bind_eq_some_iff.mp h
        cases h
        exact .advance (of_restingBut hrest) hcall hstep
      · simp [hrest] at h
  | task e =>
      simp only [next] at h
      by_cases hrest : s.resting = true
      · rw [if_pos hrest] at h
        obtain ⟨w, happly, heq⟩ := Option.map_eq_some_iff.mp h
        cases heq
        exact .task (resting_iff.mp hrest) happly
      · simp [hrest] at h
  | setDisabled j disabled =>
      simp only [next] at h
      by_cases hrest : (s.resting && g.occupied j) = true
      · rw [if_pos hrest] at h
        cases h
        obtain ⟨hrest, hocc⟩ := Bool.and_eq_true_iff.mp hrest
        exact .setDisabled (resting_iff.mp hrest) hocc
      · simp [hrest] at h
  | cancel i =>
      simp only [next] at h
      by_cases hrest : s.resting = true
      · rw [if_pos hrest] at h
        obtain ⟨c, hcall, h⟩ := Option.bind_eq_some_iff.mp h
        by_cases hlive : c.finished = true
        · simp [hlive] at h
        · rw [if_neg hlive] at h
          cases h
          exact .cancel (resting_iff.mp hrest) hcall (by simpa using hlive)
      · simp [hrest] at h

/-! ## Invariants of the shared state -/

/-- **What every step keeps of the shared state holds at the end of every run.**
`P` restricts the steps of the run. -/
theorem world_invariant {I : World n → Prop} {P : Sys n → Label n → Prop}
    (hbegin : ∀ s v, P s (.begin v) → I s.world → I (g.begin s.world v).2)
    (hadvance : ∀ s i c c' w, P s (.advance i) → s.calls[i]? = some c → I s.world →
      c.step g s.world = some (c', w) → I w)
    (htask : ∀ s e w, P s (.task e) → I s.world → e.apply g s.world = some w → I w)
    (hdisabled : ∀ s j disabled, P s (.setDisabled j disabled) → g.occupied j = true →
      I s.world → I (s.world.onNode j fun h => h.setDisabled disabled))
    {s s' : Sys n} {labels : List (Label n)} (hs : I s.world)
    (halong : Along (next g) P s labels) (hrun : exec (next g) s labels = some s') :
    I s'.world := by
  refine exec_invariant_along (I := fun t : Sys n => I t.world) ?_ hs halong hrun
  intro t l u ht hl hstep
  cases next_cases hstep with
  | @begin v c w _ heq =>
      have hkept := hbegin t v hl ht
      rwa [heq] at hkept
  | advance _ hcall hcarry => exact hadvance t _ _ _ _ hl hcall ht hcarry
  | task _ happly => exact htask t _ _ hl ht happly
  | setDisabled _ hocc => exact hdisabled t _ _ hl hocc ht
  | cancel => exact ht

/-! ## Calls made one after another -/

/-- A call begins only when every earlier one has finished, and none is dropped. -/
def Sequential (s : Sys n) : Label n → Prop
  | .begin _ => ∀ c ∈ s.calls, c.finished = true
  | .cancel _ => False
  | .advance _ | .task _ | .setDisabled _ _ => True

instance (s : Sys n) : (l : Label n) → Decidable (s.Sequential l)
  | .begin _ => inferInstanceAs (Decidable (∀ c ∈ s.calls, c.finished = true))
  | .cancel _ => isFalse id
  | .advance _ | .task _ | .setDisabled _ _ => isTrue trivial

/-- The last call is the only one that may be in flight, and it and the shared
state are in `K`; before the first call, a call that has returned stands in. -/
def InFlight (K : Call n → World n → Prop) (s : Sys n) : Prop :=
  ∃ c, K c s.world ∧ ((s.calls = [] ∧ c = .done none) ∨
    ∃ old, s.calls = old ++ [c] ∧ ∀ d ∈ old, d.finished = true)

/-- Where every call has finished, the last one has. -/
theorem InFlight.finished {K : Call n → World n → Prop} {s : Sys n} (hs : s.InFlight K)
    (hfinished : ∀ c ∈ s.calls, c.finished = true) :
    ∃ c, K c s.world ∧ c.finished = true := by
  obtain ⟨c, hc, ⟨_, rfl⟩ | ⟨old, hcalls, _⟩⟩ := hs
  · exact ⟨_, hc, rfl⟩
  · exact ⟨c, hc, hfinished c (by simp [hcalls])⟩

/-- A call that can be carried on is the last. -/
theorem InFlight.last {K : Call n → World n → Prop} {s : Sys n} (hs : s.InFlight K) {i : ℕ}
    {c : Call n} (hcall : s.calls[i]? = some c) (hlive : c.finished = false) :
    K c s.world ∧ ∃ old, s.calls = old ++ [c] ∧ i = old.length ∧
      ∀ d ∈ old, d.finished = true := by
  obtain ⟨d, hd, ⟨hnil, _⟩ | ⟨old, hcalls, hold⟩⟩ := hs
  · simp [hnil] at hcall
  · rw [hcalls] at hcall
    by_cases hi : i < old.length
    · rw [List.getElem?_append_left hi] at hcall
      have := hold c (List.mem_of_getElem? hcall)
      simp [hlive] at this
    · rw [List.getElem?_append_right (not_lt.mp hi), List.getElem?_singleton] at hcall
      split at hcall
      case isTrue hzero =>
        cases hcall
        exact ⟨hd, old, hcalls, by omega, hold⟩
      case isFalse => simp at hcall

/-- **What a call keeps on its own, in turn, holds along every sequential run.** -/
theorem sequential_invariant {K : Call n → World n → Prop} {P : Sys n → Label n → Prop}
    (hseq : ∀ s l, P s l → Sequential s l)
    (hbegin : ∀ s c v, P s (.begin v) → c.finished = true → K c s.world →
      K (g.begin s.world v).1 (g.begin s.world v).2)
    (hadvance : ∀ s i c c' w, P s (.advance i) → s.calls[i]? = some c → K c s.world →
      c.step g s.world = some (c', w) → K c' w)
    (htask : ∀ s c e w, P s (.task e) → K c s.world → e.apply g s.world = some w → K c w)
    (hdisabled : ∀ s c j disabled, P s (.setDisabled j disabled) → K c s.world →
      K c (s.world.onNode j fun h => h.setDisabled disabled))
    {s s' : Sys n} {labels : List (Label n)} (hs : K (.done none) s.world)
    (hcalls : s.calls = []) (halong : Along (next g) P s labels)
    (hrun : exec (next g) s labels = some s') : s'.InFlight K := by
  refine exec_invariant_along (I := fun t : Sys n => t.InFlight K) ?_
    ⟨_, hs, Or.inl ⟨hcalls, rfl⟩⟩ halong hrun
  intro t l u ht hl hstep
  cases next_cases hstep with
  | @begin v c w _ heq =>
      have hfinished := hseq t _ hl
      obtain ⟨d, hd, hlast⟩ := ht.finished hfinished
      have hkept := hbegin t d v hl hlast hd
      rw [heq] at hkept
      exact ⟨c, hkept, Or.inr ⟨t.calls, rfl, hfinished⟩⟩
  | @advance i c c' w _ hcall hcarry =>
      have hlive : c.finished = false := by
        apply (Bool.not_eq_true _).mp
        intro hfinished
        simp [Call.step_of_finished hfinished] at hcarry
      obtain ⟨hc, old, hcalls, hi, hold⟩ := ht.last hcall hlive
      refine ⟨c', hadvance t i c c' w hl hcall hc hcarry, Or.inr ⟨old, ?_, hold⟩⟩
      simp [hcalls, hi]
  | task _ happly =>
      obtain ⟨c, hc, hcalls⟩ := ht
      exact ⟨c, htask t c _ _ hl hc happly, hcalls⟩
  | setDisabled =>
      obtain ⟨c, hc, hcalls⟩ := ht
      exact ⟨c, hdisabled t c _ _ hl hc, hcalls⟩
  | cancel => exact (hseq t _ hl).elim

end Sys

end EmbassySupervisor
