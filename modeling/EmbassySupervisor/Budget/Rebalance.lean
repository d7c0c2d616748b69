/-
# The allocator's rebalance

`rebalance` loads the capacity, the wants and the grants one by one, asks the policy
for a division, publishes it one swap at a time and then reads capacity and wants
once more. Operations of other parties land between any two of these accesses.

Until the allocator's wake is consumed again, an operation that changed something
since the rebalance began either is still running or has latched the wake: it ends by
signalling. So while nothing is owed (`Owed`), no value read has changed, and equality
of a re-read value is not what the argument rests on. `Agrees` is that invariant,
phase by phase.
-/

import EmbassySupervisor.Lib.LabelledRun
import EmbassySupervisor.Budget.Budget

namespace EmbassySupervisor

open LabelledRun Interleaving

variable {n : ℕ} {π : Type}

/-- What a rebalance has read. Slots not read yet hold zero. -/
structure Snapshot (n : ℕ) where
  now : ℕ
  capacity : UInt32
  wants : Fin n → UInt32 := fun _ => 0
  grants : Fin n → UInt32 := fun _ => 0

/-- The capacity and the wants of the slots below `i` are as they were read. -/
structure Snapshot.Current (seen : Snapshot n) (b : Budget n) (i : ℕ) : Prop where
  capacity : b.capacity = seen.capacity
  wants : ∀ j : Fin n, j < i → b.wants j = seen.wants j

/-- Reading one more want keeps the reads current. -/
theorem Snapshot.Current.loadWant {seen : Snapshot n} {b : Budget n} {i : ℕ} (hi : i < n)
    (h : seen.Current b i) :
    Snapshot.Current
      { seen with wants := Function.update seen.wants ⟨i, hi⟩ (b.wants ⟨i, hi⟩) } b (i + 1) where
  capacity := h.capacity
  wants j hj := by
    by_cases hji : j = ⟨i, hi⟩
    · subst hji
      simp
    · have hne : (j : ℕ) ≠ i := fun heq => hji (Fin.ext heq)
      simpa [hji] using h.wants j (by omega)

/-- A division the policy was asked for: on what, and in which state of the policy. -/
structure Division (n : ℕ) (π : Type) where
  seen : Snapshot n
  policy : π

/-- The grants a division publishes. -/
def Division.grants [BudgetPolicy π] (d : Division n π) : Fin n → UInt32 :=
  (BudgetPolicy.divide d.policy d.seen.capacity d.seen.wants d.seen.grants d.seen.now).grants

/-- Where the allocator is. `idle` keeps the division last published, `awake` has
consumed the wake and not begun. An index is the next slot to access. -/
inductive Phase (n : ℕ) (π : Type)
  | idle (last : Option (Division n π))
  | awake
  | loadCapacity (now : ℕ)
  | loadWants (seen : Snapshot n) (i : ℕ)
  | loadGrants (seen : Snapshot n) (i : ℕ)
  | divide (seen : Snapshot n)
  | swap (d : Division n π) (i : ℕ)
  | wake (d : Division n π) (i : Fin n)
  | recheckCapacity (d : Division n π)
  | recheckWants (d : Division n π) (i : ℕ)
  | rearm (d : Division n π)

/-- The budget, the policy, the operations in flight and the one allocator. -/
structure Allocation (n : ℕ) (π : Type) where
  budget : Budget n := {}
  policy : π
  inFlight : List (List (Budget.Atom n)) := []
  phase : Phase n π := .idle none

namespace Allocation

/-- What happens next: someone calls an operation, the operation at an index performs
an action, the policy's state is changed from outside, the allocator consumes its wake,
begins a rebalance or carries it on. -/
inductive Label (n : ℕ) (π : Type)
  | call (op : Budget.Op n)
  | act (k : ℕ)
  | setPolicy (policy : π)
  | waitChange
  | begin (now : ℕ)
  | rebalance

/-- One access of the rebalance under way. -/
def rebalanceStep [BudgetPolicy π] (s : Allocation n π) : Option (Allocation n π) :=
  match s.phase with
  | .idle _ | .awake => none
  | .loadCapacity now =>
    some { s with phase := .loadWants { now, capacity := s.budget.capacity } 0 }
  | .loadWants seen i =>
    if h : i < n then
      let wants := Function.update seen.wants ⟨i, h⟩ (s.budget.wants ⟨i, h⟩)
      some { s with phase := .loadWants { seen with wants } (i + 1) }
    else some { s with phase := .loadGrants seen 0 }
  | .loadGrants seen i =>
    if h : i < n then
      let grants := Function.update seen.grants ⟨i, h⟩ (s.budget.grants ⟨i, h⟩)
      some { s with phase := .loadGrants { seen with grants } (i + 1) }
    else some { s with phase := .divide seen }
  | .divide seen =>
    let divided := BudgetPolicy.divide s.policy seen.capacity seen.wants seen.grants seen.now
    some { s with policy := divided.policy, phase := .swap { seen, policy := s.policy } 0 }
  | .swap d i =>
    if h : i < n then
      let budget := s.budget.act (.storeGrant ⟨i, h⟩ (d.grants ⟨i, h⟩))
      if s.budget.grants ⟨i, h⟩ ≠ d.grants ⟨i, h⟩ then
        some { s with budget, phase := .wake d ⟨i, h⟩ }
      else some { s with budget, phase := .swap d (i + 1) }
    else some { s with phase := .recheckCapacity d }
  | .wake d i => some { s with budget := s.budget.act (.wake i), phase := .swap d (i + 1) }
  | .recheckCapacity d =>
    if s.budget.capacity ≠ d.seen.capacity then some { s with phase := .rearm d }
    else some { s with phase := .recheckWants d 0 }
  | .recheckWants d i =>
    if h : i < n then
      if s.budget.wants ⟨i, h⟩ ≠ d.seen.wants ⟨i, h⟩ then some { s with phase := .rearm d }
      else some { s with phase := .recheckWants d (i + 1) }
    else some { s with phase := .idle (some d) }
  | .rearm d => some { s with budget := s.budget.act .signalWatch, phase := .idle (some d) }

def next [BudgetPolicy π] (s : Allocation n π) : Label n π → Option (Allocation n π)
  | .call op => some { s with inFlight := s.inFlight ++ [op.atoms] }
  | .act k =>
    (take s.inFlight k).map fun (a, inFlight) => { s with budget := s.budget.act a, inFlight }
  | .setPolicy policy => some { s with policy }
  | .waitChange =>
    match s.phase, s.budget.watch with
    | .idle _, true => some { s with budget := { s.budget with watch := false }, phase := .awake }
    | _, _ => none
  | .begin now =>
    match s.phase with
    | .idle _ | .awake => some { s with phase := .loadCapacity now }
    | _ => none
  | .rebalance => s.rebalanceStep

/-! ## What is owed -/

/-- Another rebalance will run: the wake is latched, or an operation that will latch
it is under way. -/
def Owed (s : Allocation n π) : Prop := s.budget.watch = true ∨ ¬ Finished s.inFlight

/-- While nothing is owed, what the rebalance has read and published stands. -/
def Agrees [BudgetPolicy π] (s : Allocation n π) : Prop :=
  match s.phase with
  | .idle none | .awake | .loadCapacity _ => True
  | .loadWants seen i => seen.Current s.budget i
  | .loadGrants seen _ | .divide seen => seen.Current s.budget n
  | .swap d i => d.seen.Current s.budget n ∧ ∀ j : Fin n, j < i → s.budget.grants j = d.grants j
  | .wake d i => d.seen.Current s.budget n ∧ ∀ j : Fin n, j ≤ i → s.budget.grants j = d.grants j
  | .recheckCapacity d | .recheckWants d _ | .rearm d | .idle (some d) =>
    d.seen.Current s.budget n ∧ s.budget.grants = d.grants

/-- The operations in flight end by waking the allocator, and either that wake is
owed or nothing has moved under the rebalance. -/
structure Armed [BudgetPolicy π] (s : Allocation n π) : Prop where
  closing : ∀ c ∈ s.inFlight, Closing .signalWatch c
  agrees : s.Owed ∨ s.Agrees

variable {s s' : Allocation n π}

/-- Storing the slot's grant extends the part published. -/
theorem published_succ {grants published : Fin n → UInt32} {i : ℕ} (hi : i < n)
    (h : ∀ j : Fin n, j < i → grants j = published j) (j : Fin n) (hj : (j : ℕ) ≤ i) :
    Function.update grants ⟨i, hi⟩ (published ⟨i, hi⟩) j = published j := by
  by_cases hji : j = ⟨i, hi⟩
  · subst hji
    simp
  · have hne : (j : ℕ) ≠ i := fun heq => hji (Fin.ext heq)
    simpa [hji] using h j (by omega)

variable [BudgetPolicy π]

/-! ## The steps of the rebalance -/

/-- A rebalance begins no operation and takes no wake back. -/
theorem owed_rebalanceStep (h : s.rebalanceStep = some s') :
    s'.inFlight = s.inFlight ∧ (s.budget.watch = true → s'.budget.watch = true) := by
  obtain ⟨budget, policy, inFlight, phase⟩ := s
  cases phase with
  | idle | awake => cases h
  | loadCapacity | divide =>
      cases h
      exact ⟨rfl, id⟩
  | wake | rearm =>
      cases h
      exact ⟨rfl, fun hw => Budget.watch_act hw _⟩
  | loadWants | loadGrants | swap | recheckCapacity | recheckWants =>
      simp only [rebalanceStep] at h
      split_ifs at h
      all_goals
        cases h
        exact ⟨rfl, id⟩

/-- **What a rebalance has read and published stands after its own accesses**, save
that one which found a change wakes the allocator. -/
theorem agrees_rebalanceStep (h : s.rebalanceStep = some s') (hagrees : s.Agrees) :
    s'.Agrees := by
  obtain ⟨budget, policy, inFlight, phase⟩ := s
  cases phase with
  | idle | awake => simp [rebalanceStep] at h
  | loadCapacity now =>
      cases h
      exact ⟨rfl, fun j hj => absurd hj (Nat.not_lt_zero _)⟩
  | loadWants seen i =>
      simp only [rebalanceStep] at h
      split_ifs at h with hi
      · cases h
        exact hagrees.loadWant hi
      · cases h
        exact ⟨hagrees.capacity, fun j _ => hagrees.wants j (by omega)⟩
  | loadGrants seen i =>
      simp only [rebalanceStep] at h
      split_ifs at h with hi
      · cases h
        exact ⟨hagrees.capacity, hagrees.wants⟩
      · cases h
        exact hagrees
  | divide seen =>
      cases h
      exact ⟨hagrees, fun j hj => absurd hj (Nat.not_lt_zero _)⟩
  | swap d i =>
      obtain ⟨hcurrent, hpublished⟩ := hagrees
      simp only [rebalanceStep] at h
      split_ifs at h with hi
      · cases h
        exact ⟨⟨hcurrent.capacity, hcurrent.wants⟩, published_succ hi hpublished⟩
      · cases h
        exact ⟨⟨hcurrent.capacity, hcurrent.wants⟩,
          fun j hj => published_succ hi hpublished j (Nat.lt_succ_iff.mp hj)⟩
      · cases h
        exact ⟨hcurrent, funext fun j => hpublished j (by omega)⟩
  | wake d i =>
      cases h
      exact ⟨⟨hagrees.1.capacity, hagrees.1.wants⟩,
        fun j hj => hagrees.2 j (Nat.lt_succ_iff.mp hj)⟩
  | recheckCapacity d | recheckWants d i =>
      simp only [rebalanceStep] at h
      split_ifs at h
      all_goals
        cases h
        exact hagrees
  | rearm d =>
      cases h
      exact ⟨⟨hagrees.1.capacity, hagrees.1.wants⟩, hagrees.2⟩

/-! ## Every step -/

/-- **One step keeps the allocator armed.** -/
theorem armed_next {l : Label n π} (harmed : s.Armed) (h : s.next l = some s') : s'.Armed := by
  cases l with
  | call op =>
      cases h
      refine ⟨fun c hc => ?_, Or.inl (Or.inr fun hdone => ?_)⟩
      · rcases List.mem_append.mp hc with hc | hc
        · exact harmed.closing c hc
        · rw [List.mem_singleton.mp hc]
          exact op.closing
      · have hatoms := hdone op.atoms (List.mem_append_right _ (List.mem_singleton_self _))
        cases op <;> simp [Budget.Op.atoms] at hatoms
  | act k =>
      obtain ⟨⟨a, calls⟩, htake, rfl⟩ := Option.map_eq_some_iff.mp h
      obtain ⟨hclosing, hlast⟩ := take_closing harmed.closing htake
      refine ⟨hclosing, Or.inl ?_⟩
      rcases hlast with rfl | hrunning
      · exact Or.inl rfl
      · exact Or.inr hrunning
  | setPolicy policy =>
      cases h
      exact ⟨harmed.closing, harmed.agrees⟩
  | waitChange =>
      simp only [next] at h
      split at h
      · cases h
        exact ⟨harmed.closing, Or.inr trivial⟩
      · cases h
  | begin now =>
      simp only [next] at h
      split at h
      · cases h
        exact ⟨harmed.closing, Or.inr trivial⟩
      · cases h
        exact ⟨harmed.closing, Or.inr trivial⟩
      · cases h
  | rebalance =>
      obtain ⟨hinFlight, hwatch⟩ := owed_rebalanceStep h
      refine ⟨hinFlight ▸ harmed.closing, ?_⟩
      exact harmed.agrees.imp (Or.imp hwatch (hinFlight ▸ id)) (agrees_rebalanceStep h)

/-- **A rebalance over concurrent changes.** Whatever the operations do between its
accesses, once they are over and the allocator is idle, either its wake is latched or
the grants are the policy's division of the capacity and wants as they are now, from the
grants the last rebalance read. -/
theorem latched_or_current {s t : Allocation n π} {ls : List (Label n π)} {d : Division n π}
    (hinFlight : s.inFlight = []) (hphase : s.phase = .idle none)
    (hrun : exec next s ls = some t) (hdone : Finished t.inFlight)
    (hlast : t.phase = .idle (some d)) :
    t.budget.watch = true ∨
      t.budget.grants =
        (BudgetPolicy.divide d.policy t.budget.capacity t.budget.wants d.seen.grants
          d.seen.now).grants := by
  have hstart : s.Armed := by
    constructor
    · simp [hinFlight]
    · apply Or.inr
      simp [Agrees, hphase]
  have harmed : t.Armed :=
    exec_invariant (fun _ _ _ hu hstep => armed_next hu hstep) hstart hrun
  rcases harmed.agrees with (hwatch | hrunning) | hagrees
  · exact Or.inl hwatch
  · exact absurd hdone hrunning
  · apply Or.inr
    simp only [Agrees, hlast] at hagrees
    obtain ⟨hcurrent, hgrants⟩ := hagrees
    have hwants : t.budget.wants = d.seen.wants := funext fun j => hcurrent.wants j j.isLt
    rw [hgrants, hcurrent.capacity, hwants, Division.grants]

/-- Two holders want half each. One releases after the division and before its first
swap, so the grant it gave up is published again. -/
def releasedMidway : Option (Allocation 2 FairShare) :=
  exec next { policy := .mk } <|
    [.call (.provide 100), .act 0, .act 0, .act 0, .act 0,
      .call (.want 0 50), .act 1, .act 1, .call (.want 1 50), .act 2, .act 2,
      .waitChange, .begin 0] ++ List.replicate 8 .rebalance ++
    [.call (.release 1), .act 3, .act 3, .act 3] ++ List.replicate 9 .rebalance

theorem latched_or_current_releasedMidway :
    ∃ t d, releasedMidway = some t ∧ t.phase = .idle (some d) ∧ t.budget.grants 1 = 50 ∧
      (t.budget.watch = true ∨
        t.budget.grants =
          (BudgetPolicy.divide d.policy t.budget.capacity t.budget.wants d.seen.grants
            d.seen.now).grants) := by
  have hrun : releasedMidway = some (releasedMidway.get rfl) := (Option.some_get _).symm
  exact ⟨releasedMidway.get rfl, _, hrun, rfl, by decide +kernel,
    latched_or_current rfl rfl hrun (by unfold Finished; decide +kernel) rfl⟩

end Allocation

end EmbassySupervisor
