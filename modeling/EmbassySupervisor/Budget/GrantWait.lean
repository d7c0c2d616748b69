/-
# Waiting for a grant to change

A holder parks on its grant: `wait_grant_change` looks, registers and looks again, and a
rebalance that moves the grant wakes whoever is registered. `clear` does so too, after it
has emptied the grants. `release` empties its slot's grant and wakes nobody but the
allocator, and a later rebalance that publishes the same zero has nothing to wake for.

Operations, any number of rebalances and one waiter per slot run one access at a time.
`Watched` is what the waiters rely on, that one who parked and was not woken has seen the
grant or will be woken by something under way, and `grant_change_kept` says which steps of
a run break it: the stores of a grant that nothing follows up.
-/

import EmbassySupervisor.Budget.Rebalance

namespace EmbassySupervisor

open LabelledRun Interleaving

variable {n : ℕ} {π : Type}

/-- A `wait_grant_change` of a slot: at its first look, its registration, its second look,
or parked. Returned or dropped it is `idle`. -/
inductive Waiter
  | idle
  | check (seen : UInt32)
  | register (seen : UInt32)
  | recheck (seen : UInt32)
  | parked (seen : UInt32)
  deriving DecidableEq

/-- The rebalance is about to wake the slot's waiter. -/
def Phase.wakes (slot : Fin n) : Phase n π → Bool
  | .wake _ i => i == slot
  | .idle _ | .awake | .loadCapacity _ | .loadWants _ _ | .loadGrants _ _ | .divide _
  | .swap _ _ | .recheckCapacity _ | .recheckWants _ _ | .rearm _ => false

/-- A rebalance that has returned. -/
def Phase.returned : Phase n π → Bool
  | .idle _ => true
  | .awake | .loadCapacity _ | .loadWants _ _ | .loadGrants _ _ | .divide _ | .swap _ _
  | .wake _ _ | .recheckCapacity _ | .recheckWants _ _ | .rearm _ => false

namespace Allocation

/-- What an access of a rebalance does to grants and waiters: nothing; it moves the grant of
a slot and goes on to wake it; or it wakes one. -/
theorem rebalanceStep_cases [BudgetPolicy π] {a a' : Allocation n π}
    (h : a.rebalanceStep = some a') :
    ((∀ slot, a.phase.wakes slot = false) ∧ a'.budget.grants = a.budget.grants ∧
      a'.budget.claimants = a.budget.claimants) ∨
    (∃ i, (∀ slot, a.phase.wakes slot = false) ∧ a'.phase.wakes i = true ∧
      (∀ slot, slot ≠ i → a'.budget.grants slot = a.budget.grants slot) ∧
      a'.budget.claimants = a.budget.claimants) ∨
    ∃ i, (∀ slot, a.phase.wakes slot = true → slot = i) ∧ a'.budget.grants = a.budget.grants ∧
      a'.budget.claimants = Function.update a.budget.claimants i false := by
  obtain ⟨budget, policy, inFlight, phase⟩ := a
  cases phase with
  | idle | awake => cases h
  | loadCapacity | divide | rearm =>
      cases h
      exact .inl ⟨fun _ => rfl, rfl, rfl⟩
  | loadWants | loadGrants | recheckCapacity | recheckWants =>
      simp only [rebalanceStep] at h
      split_ifs at h
      all_goals
        cases h
        exact .inl ⟨fun _ => rfl, rfl, rfl⟩
  | swap d i =>
      simp only [rebalanceStep] at h
      split_ifs at h with hi hmoved
      · cases h
        refine .inr (.inl ⟨⟨i, hi⟩, fun _ => rfl, by simp [Phase.wakes], fun slot hslot => ?_, rfl⟩)
        simp [Budget.act, hslot]
      · cases h
        refine .inl ⟨fun _ => rfl, ?_, rfl⟩
        show Function.update budget.grants ⟨i, hi⟩ (d.grants ⟨i, hi⟩) = budget.grants
        rw [← not_ne_iff.mp hmoved]
        exact Function.update_eq_self _ _
      · cases h
        exact .inl ⟨fun _ => rfl, rfl, rfl⟩
  | wake d i =>
      cases h
      exact .inr (.inr ⟨i, fun slot hslot => (beq_iff_eq.mp hslot).symm, rfl, rfl⟩)

end Allocation

/-- The budget, the operations and rebalances in flight, and the waiter of each slot. -/
structure GrantSys (n : ℕ) (π : Type) where
  budget : Budget n := {}
  policy : π
  inFlight : List (List (Budget.Atom n)) := []
  rebalances : List (Phase n π) := []
  waiters : Fin n → Waiter := fun _ => .idle

namespace GrantSys

/-- An operation is called or performs an action, the policy's state changes, a rebalance
is called or makes an access, a waiter is called, polled on or dropped. -/
inductive Label (n : ℕ) (π : Type)
  | call (op : Budget.Op n)
  | act (k : ℕ)
  | setPolicy (policy : π)
  | rebalance (now : ℕ)
  | rebalanceStep (k : ℕ)
  | waitGrantChange (slot : Fin n) (seen : UInt32)
  | poll (slot : Fin n)
  | cancel (slot : Fin n)

/-- The rebalance at an index, on its own with the budget. -/
def allocation (s : GrantSys n π) (phase : Phase n π) : Allocation n π :=
  { budget := s.budget, policy := s.policy, phase }

def setWaiter (s : GrantSys n π) (slot : Fin n) (w : Waiter) : GrantSys n π :=
  { s with waiters := Function.update s.waiters slot w }

/-- One access of a waiter. A parked one may be polled again at any time. -/
def pollStep (s : GrantSys n π) (slot : Fin n) : Option (GrantSys n π) :=
  match s.waiters slot with
  | .idle => none
  | .check seen =>
    some (s.setWaiter slot (if s.budget.grants slot ≠ seen then .idle else .register seen))
  | .register seen =>
    let claimants := Function.update s.budget.claimants slot true
    some ({ s with budget := { s.budget with claimants } }.setWaiter slot (.recheck seen))
  | .recheck seen =>
    some (s.setWaiter slot (if s.budget.grants slot ≠ seen then .idle else .parked seen))
  | .parked seen => some (s.setWaiter slot (.check seen))

def next [BudgetPolicy π] (s : GrantSys n π) : Label n π → Option (GrantSys n π)
  | .call op => some { s with inFlight := s.inFlight ++ [op.atoms] }
  | .act k =>
    (take s.inFlight k).map fun (a, inFlight) => { s with budget := s.budget.act a, inFlight }
  | .setPolicy policy => some { s with policy }
  | .rebalance now => some { s with rebalances := s.rebalances ++ [.loadCapacity now] }
  | .rebalanceStep k => do
    let phase ← s.rebalances[k]?
    let a ← (s.allocation phase).rebalanceStep
    some { s with
      budget := a.budget, policy := a.policy, rebalances := s.rebalances.set k a.phase }
  | .waitGrantChange slot seen =>
    if s.waiters slot = .idle then some (s.setWaiter slot (.check seen)) else none
  | .poll slot => s.pollStep slot
  | .cancel slot => some (s.setWaiter slot .idle)

/-- A wake of the slot's waiter is under way, in a rebalance or in an operation. -/
def WakeDue (s : GrantSys n π) (slot : Fin n) : Prop :=
  (∃ p ∈ s.rebalances, p.wakes slot = true) ∨ ∃ c ∈ s.inFlight, .wake slot ∈ c

instance (s : GrantSys n π) (slot : Fin n) : Decidable (s.WakeDue slot) :=
  inferInstanceAs (Decidable (_ ∨ _))

/-- The slot's waiter is parked on `seen` and has not been woken since it registered. -/
def Waits (s : GrantSys n π) (slot : Fin n) (seen : UInt32) : Prop :=
  s.waiters slot = .parked seen ∧ s.budget.claimants slot = true

instance (s : GrantSys n π) (slot : Fin n) (seen : UInt32) : Decidable (s.Waits slot seen) :=
  inferInstanceAs (Decidable (_ ∧ _))

/-- Whoever waits has seen the grant, or will be woken. -/
def Watched (s : GrantSys n π) : Prop :=
  ∀ slot seen, s.Waits slot seen → s.budget.grants slot = seen ∨ s.WakeDue slot

/-- No operation and no rebalance is in progress. -/
def Quiet (s : GrantSys n π) : Prop :=
  Finished s.inFlight ∧ ∀ p ∈ s.rebalances, p.returned = true

/-- When nothing is in progress, whoever waits has seen the grant. -/
def Seen (s : GrantSys n π) : Prop :=
  s.Quiet → ∀ slot seen, s.Waits slot seen → s.budget.grants slot = seen

/-- If the step is an operation's store of a grant, then not under someone who waits on
another value and whom nothing will wake. -/
def Loud (s : GrantSys n π) (l : Label n π) : Prop :=
  ∀ k slot units rest, l = .act k → s.inFlight[k]? = some (.storeGrant slot units :: rest) →
    ∀ seen, s.Waits slot seen → units = seen ∨ s.WakeDue slot

/-! ## One access -/

variable {s t : GrantSys n π}

theorem WakeDue.mono {slot : Fin n} (h : s.WakeDue slot)
    (hrebalances : ∀ p ∈ s.rebalances, p.wakes slot = true → p ∈ t.rebalances)
    (hinFlight : ∀ c ∈ s.inFlight, .wake slot ∈ c → ∃ c' ∈ t.inFlight, .wake slot ∈ c') :
    t.WakeDue slot := by
  rcases h with ⟨p, hp, hwakes⟩ | ⟨c, hc, hmem⟩
  · exact .inl ⟨p, hrebalances p hp hwakes, hwakes⟩
  · exact .inr (hinFlight c hc hmem)

/-- When nothing is in progress no wake is due. -/
theorem seen_of_watched (h : s.Watched) : s.Seen := by
  intro hquiet slot seen hwaits
  rcases h slot seen hwaits with hgrant | ⟨p, hp, hwakes⟩ | ⟨c, hc, hmem⟩
  · exact hgrant
  · have hreturned := hquiet.2 p hp
    cases p with
    | wake => cases hreturned
    | idle | awake | loadCapacity | loadWants | loadGrants | divide | swap | recheckCapacity
    | recheckWants | rearm => cases hwakes
  · rw [hquiet.1 c hc] at hmem
    cases hmem

/-- The account after a step that left the budget alone, and may have moved one waiter. -/
theorem Watched.of_waiter (hs : s.Watched) {slot : Fin n} {w : Waiter}
    (hw : ∀ seen, w = .parked seen → s.budget.grants slot = seen) :
    (s.setWaiter slot w).Watched := by
  rintro slot' seen ⟨hparked, hclaimed⟩
  by_cases hslot : slot' = slot
  · subst hslot
    exact .inl (hw seen (by simpa [setWaiter] using hparked))
  · exact hs slot' seen ⟨by simpa [setWaiter, hslot] using hparked, hclaimed⟩

theorem watched_pollStep (hs : s.Watched) {slot : Fin n} (h : s.pollStep slot = some t) :
    t.Watched := by
  unfold pollStep at h
  split at h
  · cases h
  · cases h
    apply hs.of_waiter
    intro seen heq
    split at heq <;> cases heq
  · cases h
    intro slot' seen hwaits
    obtain ⟨hparked, hclaimed⟩ := hwaits
    by_cases hslot : slot' = slot
    · subst hslot
      simp [setWaiter] at hparked
    · exact hs slot' seen ⟨by simpa [setWaiter, hslot] using hparked,
        by simpa [setWaiter, hslot] using hclaimed⟩
  · cases h
    apply hs.of_waiter
    intro seen heq
    split at heq
    · cases heq
    · next hsame =>
        cases heq
        exact not_ne_iff.mp hsame
  · cases h
    exact hs.of_waiter nofun

/-- The head of an operation that is not a wake of the slot leaves its wake due. -/
theorem wakeDue_act {k : ℕ} {a : Budget.Atom n} {rest : List (Budget.Atom n)} {slot : Fin n}
    {b : Budget n} (hcall : s.inFlight[k]? = some (a :: rest)) (ha : a ≠ .wake slot)
    (h : s.WakeDue slot) :
    WakeDue { s with budget := b, inFlight := s.inFlight.set k rest } slot := by
  apply h.mono
  · exact fun p hp _ => hp
  · intro c hc hmem
    by_cases hsame : c = a :: rest
    · subst hsame
      have hlt := (List.getElem?_eq_some_iff.mp hcall).1
      exact ⟨rest, List.mem_set hlt _, List.mem_of_ne_of_mem ha.symm hmem⟩
    · exact ⟨c, mem_set_of_ne hcall hc hsame, hmem⟩

theorem wakeDue_of_act {k : ℕ} {a : Budget.Atom n} {rest : List (Budget.Atom n)} {slot : Fin n}
    {b : Budget n} (hcall : s.inFlight[k]? = some (a :: rest))
    (h : WakeDue { s with budget := b, inFlight := s.inFlight.set k rest } slot) :
    s.WakeDue slot := by
  apply h.mono
  · exact fun p hp _ => hp
  · intro c hc hmem
    rcases List.mem_or_eq_of_mem_set hc with hc | rfl
    · exact ⟨c, hc, hmem⟩
    · exact ⟨a :: c, List.mem_of_getElem? hcall, List.mem_cons_of_mem _ hmem⟩

/-- **One action of an operation** leaves the waiters watched exactly if it is loud. -/
theorem watched_act [BudgetPolicy π] (hs : s.Watched) {k : ℕ} {a : Budget.Atom n}
    {rest : List (Budget.Atom n)} (hcall : s.inFlight[k]? = some (a :: rest)) :
    Watched { s with budget := s.budget.act a, inFlight := s.inFlight.set k rest } ↔
      s.Loud (.act k) := by
  have hother : (∀ slot units, a ≠ .storeGrant slot units) → s.Loud (.act k) := by
    rintro hne k' slot units rest' heq hcall'
    cases heq
    cases hcall.symm.trans hcall'
    exact absurd rfl (hne slot units)
  cases a with
  | storeGrant i units =>
      constructor
      · rintro hwatched k' slot units' rest' heq hcall' seen hwaits
        cases heq
        cases hcall.symm.trans hcall'
        rcases hwatched i seen hwaits with hgrant | hdue
        · exact .inl (by simpa [Budget.act] using hgrant)
        · exact .inr (wakeDue_of_act hcall hdue)
      · intro hloud slot seen hwaits
        by_cases hslot : slot = i
        · subst hslot
          rcases hloud k slot units rest rfl hcall seen hwaits with rfl | hdue
          · exact .inl (Function.update_self ..)
          · exact .inr (wakeDue_act hcall nofun hdue)
        · rcases hs slot seen hwaits with hgrant | hdue
          · exact .inl (by simpa [Budget.act, hslot] using hgrant)
          · exact .inr (wakeDue_act hcall nofun hdue)
  | wake i =>
      refine iff_of_true ?_ (hother nofun)
      intro slot seen hwaits
      obtain ⟨hparked, hclaimed⟩ := hwaits
      have hslot : slot ≠ i := by
        rintro rfl
        simp [Budget.act] at hclaimed
      have hclaimed' : s.budget.claimants slot = true := by
        simpa [Budget.act, hslot] using hclaimed
      refine (hs slot seen ⟨hparked, hclaimed'⟩).imp id fun hdue => ?_
      exact wakeDue_act hcall (fun heq => hslot (Budget.Atom.wake.inj heq).symm) hdue
  | storeCapacity | storeWant | signalFilled | resetFilled | signalGate | signalWatch =>
      refine iff_of_true ?_ (hother nofun)
      intro slot seen hwaits
      exact (hs slot seen hwaits).imp id (wakeDue_act hcall nofun)

/-- **One access of a rebalance** leaves the waiters watched. -/
theorem watched_rebalanceStep [BudgetPolicy π] (hs : s.Watched) {k : ℕ} {phase : Phase n π}
    {a : Allocation n π} {p : π} (hcall : s.rebalances[k]? = some phase)
    (h : (s.allocation phase).rebalanceStep = some a) :
    Watched { s with
      budget := a.budget, policy := p, rebalances := s.rebalances.set k a.phase } := by
  have hdue : ∀ slot, phase.wakes slot = false → s.WakeDue slot →
      WakeDue { s with
        budget := a.budget, policy := p, rebalances := s.rebalances.set k a.phase } slot := by
    intro slot hnot hdue
    apply hdue.mono
    · intro q hq hwakes
      refine mem_set_of_ne hcall hq ?_
      rintro rfl
      rw [hnot] at hwakes
      cases hwakes
    · exact fun c hc hmem => ⟨c, hc, hmem⟩
  rintro slot seen ⟨hparked, hclaimed⟩
  rcases Allocation.rebalanceStep_cases h with ⟨hnot, hgrants, hclaimants⟩ |
    ⟨i, hnot, hwakes, hgrants, hclaimants⟩ | ⟨i, hwakes, hgrants, hclaimants⟩
  · rw [hclaimants] at hclaimed
    rw [hgrants]
    exact (hs slot seen ⟨hparked, hclaimed⟩).imp id (hdue slot (hnot slot))
  · rw [hclaimants] at hclaimed
    by_cases hslot : slot = i
    · subst hslot
      have hlt := (List.getElem?_eq_some_iff.mp hcall).1
      exact .inr (.inl ⟨a.phase, List.mem_set hlt _, hwakes⟩)
    · rw [hgrants slot hslot]
      exact (hs slot seen ⟨hparked, hclaimed⟩).imp id (hdue slot (hnot slot))
  · rw [hclaimants] at hclaimed
    have hslot : slot ≠ i := by
      rintro rfl
      simp at hclaimed
    have hnot : phase.wakes slot = false := by
      cases hw : phase.wakes slot with
      | false => rfl
      | true => exact absurd (hwakes slot hw) hslot
    have hclaimed' : s.budget.claimants slot = true := by
      simpa [allocation, hslot] using hclaimed
    rw [hgrants]
    exact (hs slot seen ⟨hparked, hclaimed'⟩).imp id (hdue slot hnot)

/-! ## Runs -/

variable [BudgetPolicy π]

/-- **One step** leaves the waiters watched exactly if it is loud. -/
theorem watched_next {l : Label n π} (hs : s.Watched) (h : next s l = some t) :
    t.Watched ↔ s.Loud l := by
  cases l with
  | act k =>
      obtain ⟨⟨a, calls⟩, htake, rfl⟩ := Option.map_eq_some_iff.mp h
      obtain ⟨rest, hcall, rfl⟩ := take_eq_some htake
      exact watched_act hs hcall
  | call op =>
      cases h
      refine iff_of_true (fun slot seen hwaits => ?_) nofun
      refine (hs slot seen hwaits).imp id fun hdue => hdue.mono (fun p hp _ => hp) ?_
      exact fun c hc hmem => ⟨c, List.mem_append_left _ hc, hmem⟩
  | setPolicy policy =>
      cases h
      exact iff_of_true hs nofun
  | rebalance now =>
      cases h
      refine iff_of_true (fun slot seen hwaits => ?_) nofun
      refine (hs slot seen hwaits).imp id fun hdue => hdue.mono ?_ ?_
      · exact fun p hp _ => List.mem_append_left _ hp
      · exact fun c hc hmem => ⟨c, hc, hmem⟩
  | rebalanceStep k =>
      obtain ⟨phase, hcall, h⟩ := Option.bind_eq_some_iff.mp h
      obtain ⟨a, hstep, h⟩ := Option.bind_eq_some_iff.mp h
      cases h
      exact iff_of_true (watched_rebalanceStep hs hcall hstep) nofun
  | waitGrantChange slot seen =>
      simp only [next] at h
      split at h
      · cases h
        exact iff_of_true (hs.of_waiter nofun) nofun
      · cases h
  | poll slot => exact iff_of_true (watched_pollStep hs h) nofun
  | cancel slot =>
      cases h
      exact iff_of_true (hs.of_waiter nofun) nofun

/-- **Grant changes along a run.** From a budget nobody waits on, whoever waits has at every
moment seen the grant or will be woken, exactly if every store of a grant is loud; and then
in every state in which nothing is in progress, whoever waits has seen the grant. -/
theorem grant_change_kept {b : Budget n} {p : π} {labels : List (Label n π)}
    (hrun : exec next { budget := b, policy := p } labels = some t) :
    (Along next (fun u _ => u.Watched) { budget := b, policy := p } labels ∧ t.Watched ↔
      Along next Loud { budget := b, policy := p } labels) ∧
    (Along next Loud { budget := b, policy := p } labels →
      Along next (fun u _ => u.Seen) { budget := b, policy := p } labels ∧ t.Seen) := by
  have hstart : Watched { budget := b, policy := p } := fun _ _ h => nomatch h.1
  have hiff := along_and_iff (I := Watched) (H := fun _ _ => True) (P := Loud)
    (Q := fun u _ => u.Watched) (fun _ _ => id)
    (fun _ _ _ hu _ hnext => (and_iff_right hu).trans (watched_next hu hnext)) hstart
    (along_of_forall (P := fun _ => True) (fun _ _ => trivial) _) hrun
  refine ⟨hiff, fun hloud => ?_⟩
  obtain ⟨hall, hend⟩ := hiff.mpr hloud
  exact ⟨hall.mono fun _ _ => seen_of_watched, seen_of_watched hend⟩

/-- One holder wants half of what is provided. -/
def halfWanted : Budget 1 := { capacity := 100, wants := fun _ => 50 }

/-- It waits from before the allocator first runs. -/
def parkedFirst : List (Label 1 FairShare) :=
  .waitGrantChange 0 0 :: List.replicate 3 (.poll 0) ++
    .rebalance 0 :: List.replicate 12 (.rebalanceStep 0)

def parkedFirstRun : Option (GrantSys 1 FairShare) :=
  exec next { budget := halfWanted, policy := .mk } parkedFirst

theorem grant_change_kept_parkedFirst : (parkedFirstRun.get rfl).Watched := by
  have hrun : exec next { budget := halfWanted, policy := .mk } parkedFirst =
      some (parkedFirstRun.get rfl) := (Option.some_get _).symm
  have hnone : ∀ l ∈ parkedFirst, ∀ k, l ≠ .act k := by
    simp [parkedFirst]
  have hloud : Along next Loud { budget := halfWanted, policy := .mk } parkedFirst := by
    apply (along_of_forall hnone _).mono
    exact fun _ _ hl k _ _ _ heq => absurd heq (hl k)
  exact ((grant_change_kept hrun).1.mpr hloud).2

/-- It waits on what it was granted and gives it up through another copy of its claim, and
the allocator runs again. -/
def releasedUnder : List (Label 1 FairShare) :=
  .rebalance 0 :: List.replicate 12 (.rebalanceStep 0) ++
    .waitGrantChange 0 50 :: List.replicate 3 (.poll 0) ++
    [.call (.release 0), .act 0, .act 0, .act 0, .rebalance 0] ++
      List.replicate 11 (.rebalanceStep 1)

def releasedUnderRun : Option (GrantSys 1 FairShare) :=
  exec next { budget := halfWanted, policy := .mk } releasedUnder

/-- The waiter has missed that its grant is gone. -/
theorem release_unseen : ¬ ∀ (n : ℕ) (π : Type) [BudgetPolicy π] (b : Budget n) (p : π)
    (labels : List (Label n π)) (t : GrantSys n π),
    exec next { budget := b, policy := p } labels = some t → t.Seen := by
  intro h
  have hrun : exec next { budget := halfWanted, policy := .mk } releasedUnder =
      some (releasedUnderRun.get rfl) := (Option.some_get _).symm
  have hquiet : (releasedUnderRun.get rfl).Quiet := by
    constructor
    · show ∀ c ∈ (releasedUnderRun.get rfl).inFlight, c = []
      decide +kernel
    · decide +kernel
  have hseen := h 1 FairShare halfWanted .mk releasedUnder _ hrun hquiet 0 50 (by decide +kernel)
  exact absurd hseen (by decide +kernel)

end GrantSys

end EmbassySupervisor
