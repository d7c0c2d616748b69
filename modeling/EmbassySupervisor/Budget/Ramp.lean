/-
# Shrinking fast, growing slow

`ShrinkFastGrowSlow` divides like `FairShare`, but only a cut lands at once: a grant below
its target is raised by at most `step`, and only once the instant stored in `next` has come.
That instant is one for all slots. A call that leaves a slot below its target stores the next
one, and a call that does not leaves none.

A visit reads and changes its own slot only (`ramped`), so a division is told slot by slot
(`grants_divide`), and it asks to be run again exactly while a slot is short
(`next_divide_isSome`). Run again at the instant it returns, it is always due, so every run
brings the slots a step closer: `exists_again_eq` counts the steps the last one needs.

Instants are `u64` ticks, and their addition is checked: a division that would store an instant
behind the end of the clock panics. `BudgetPolicy.divide` is what the others return.
-/

import EmbassySupervisor.Budget.FairShare
import Mathlib.Algebra.Order.BigOperators.Group.Finset

namespace EmbassySupervisor

variable {n : ℕ}

/-- At most `step` units more per `interval`. `next` is the earliest instant of the next
increase. -/
structure ShrinkFastGrowSlow where
  step : UInt32
  interval : ℕ
  next : Option ℕ := none
  deriving DecidableEq

def saturatingAdd (a b : UInt32) : UInt32 :=
  if a.toNat + b.toNat < 2 ^ 32 then a + b else 0xFFFFFFFF

namespace ShrinkFastGrowSlow

def due (p : ShrinkFastGrowSlow) (now : ℕ) : Bool := p.next.all (· ≤ now)

/-- What the division does to a slot it visits, and whether the slot is still short. -/
def visit (step : UInt32) (due : Bool) (i : Fin n) (t : UInt32)
    (out : (Fin n → UInt32) × Bool) : (Fin n → UInt32) × Bool :=
  let (grants, converging) := out
  let g := grants i
  if t < g then (Function.update grants i t, converging)
  else if g < t then
    let g := if due then min (saturatingAdd g step) t else g
    (Function.update grants i g, converging || decide (g < t))
  else (grants, converging)

/-- An instant of the clock, or the panic of `Instant + Duration`. -/
def later (now interval : ℕ) : Option ℕ :=
  if now + interval < 2 ^ 64 then some (now + interval) else none

/-- A division; `none` is a panic. -/
def divide (p : ShrinkFastGrowSlow) (capacity : UInt32) (wants grants : Fin n → UInt32)
    (now : ℕ) : Option (Divided n ShrinkFastGrowSlow) := do
  let due := p.due now
  let (grants, converging) :=
    FairShare.targets capacity wants (visit p.step due) (grants, false)
  let next ←
    if converging then
      if due then (later now p.interval).map some else some (some (p.next.getD now))
    else some none
  return { grants, next, policy := { p with next } }

instance : BudgetPolicy ShrinkFastGrowSlow where
  divide p capacity wants grants now :=
    let due := p.due now
    let (grants, converging) :=
      FairShare.targets capacity wants (visit p.step due) (grants, false)
    let next :=
      if converging then some (if due then now + p.interval else p.next.getD now) else none
    { grants, next, policy := { p with next } }

/-! ## One slot -/

/-- A slot after a visit. -/
def ramped (step : UInt32) (due : Bool) (t g : UInt32) : UInt32 :=
  if t < g then t else if due then min (saturatingAdd g step) t else g

variable {step : UInt32} {due : Bool} {t g : UInt32}

theorem toNat_saturatingAdd (a b : UInt32) :
    (saturatingAdd a b).toNat = min (a.toNat + b.toNat) (2 ^ 32 - 1) := by
  unfold saturatingAdd
  split
  · next hfits =>
      rw [UInt32.toNat_add, Nat.mod_eq_of_lt hfits]
      omega
  · next hfull =>
      have hmax : (0xFFFFFFFF : UInt32).toNat = 2 ^ 32 - 1 := rfl
      omega

theorem toNat_min (a b : UInt32) : (min a b).toNat = min a.toNat b.toNat := by
  change (if a ≤ b then a else b).toNat = _
  split
  · next hle => exact (Nat.min_eq_left (UInt32.le_iff_toNat_le.mp hle)).symm
  · next hle =>
      rw [UInt32.le_iff_toNat_le] at hle
      omega

/-- A slot that is due takes a step towards its target, one that is not stays below it. -/
theorem toNat_ramped :
    (ramped step due t g).toNat =
      if due then min (g.toNat + step.toNat) t.toNat else min g.toNat t.toNat := by
  have ht := t.toNat_lt
  unfold ramped
  split
  · next hcut =>
      rw [UInt32.lt_iff_toNat_lt] at hcut
      split <;> omega
  · next hcut =>
      rw [UInt32.lt_iff_toNat_lt] at hcut
      split
      · rw [toNat_min, toNat_saturatingAdd]
        omega
      · omega

theorem ramped_le : ramped step due t g ≤ t := by
  rw [UInt32.le_iff_toNat_le, toNat_ramped]
  split <;> omega

theorem ramped_of_lt (h : t < g) : ramped step due t g = t := if_pos h

theorem toNat_ramped_le : (ramped step due t g).toNat ≤ g.toNat + step.toNat := by
  rw [toNat_ramped]
  split <;> omega

theorem ramped_self : ramped step due t t = t := by
  apply UInt32.toNat_inj.mp
  rw [toNat_ramped]
  split <;> omega

/-- A visit changes its own slot only, and finds out whether that is still short. -/
theorem visit_eq (i : Fin n) (t : UInt32) (out : (Fin n → UInt32) × Bool) :
    visit step due i t out =
      (Function.update out.1 i (ramped step due t (out.1 i)),
        out.2 || decide (ramped step due t (out.1 i) < t)) := by
  obtain ⟨grants, converging⟩ := out
  have hirrefl : decide (t < t) = false := decide_eq_false (UInt32.lt_irrefl t)
  unfold visit
  simp only
  split
  · next hcut => rw [ramped_of_lt hcut, hirrefl, Bool.or_false]
  · next hcut =>
      split
      · rw [ramped, if_neg hcut]
      · next hraise =>
          have heq : grants i = t :=
            UInt32.le_antisymm (UInt32.not_lt.mp hcut) (UInt32.not_lt.mp hraise)
          have hgrants : Function.update grants i t = grants :=
            heq ▸ Function.update_eq_self i grants
          simp only [heq, ramped_self, hirrefl, hgrants, Bool.or_false]

/-! ## One division -/

variable (target grants : Fin n → UInt32)

theorem fst_foldl_visit (converging : Bool) (i : Fin n) :
    ((List.finRange n).foldl (fun out j => visit step due j (target j) out)
      (grants, converging)).1 i = ramped step due (target i) (grants i) := by
  have hvisit : ∀ (out : (Fin n → UInt32) × Bool) (j : Fin n),
      Function.update out.1 j (ramped step due (target j) (out.1 j)) =
        (visit step due j (target j) out).1 := by
    intro out j
    rw [visit_eq]
  have hgrants : ((List.finRange n).foldl (fun out j => visit step due j (target j) out)
      (grants, converging)).1 = (List.finRange n).foldl
        (fun g j => Function.update g j (ramped step due (target j) (g j))) grants :=
    (List.foldl_hom Prod.fst hvisit).symm
  rw [hgrants, FairShare.foldl_update (fun j => ramped step due (target j))
    (List.nodup_finRange n), if_pos (List.mem_finRange i)]

theorem snd_foldl_visit {slots : List (Fin n)} (hslots : slots.Nodup) (converging : Bool) :
    (slots.foldl (fun out j => visit step due j (target j) out) (grants, converging)).2 = true ↔
      converging = true ∨ ∃ i ∈ slots, ramped step due (target i) (grants i) < target i := by
  induction slots generalizing grants converging with
  | nil => simp
  | cons j slots ih =>
      obtain ⟨hj, hrest⟩ := List.nodup_cons.mp hslots
      have hkeep : ∀ i ∈ slots, ∀ g, Function.update grants j g i = grants i := by
        intro i hi g
        apply Function.update_of_ne
        rintro rfl
        exact hj hi
      have hback : (∃ i ∈ slots, ramped step due (target i)
            (Function.update grants j (ramped step due (target j) (grants j)) i) < target i) ↔
          ∃ i ∈ slots, ramped step due (target i) (grants i) < target i := by
        apply exists_congr
        intro i
        apply and_congr_right
        intro hi
        rw [hkeep i hi]
      rw [List.foldl_cons, visit_eq, ih _ hrest, hback]
      simp [or_assoc]

variable (p : ShrinkFastGrowSlow) (capacity : UInt32) (wants : Fin n → UInt32) (now : ℕ)

theorem grants_divide (i : Fin n) :
    (BudgetPolicy.divide p capacity wants grants now).grants i =
      ramped p.step (p.due now) (FairShare.target capacity wants i) (grants i) := by
  change (FairShare.targets capacity wants (visit p.step (p.due now)) (grants, false)).1 i = _
  rw [FairShare.targets_eq, fst_foldl_visit]

/-- A division asks to be run again exactly if it leaves a slot short. -/
theorem next_divide_isSome :
    (BudgetPolicy.divide p capacity wants grants now).next.isSome = true ↔
      ∃ i, (BudgetPolicy.divide p capacity wants grants now).grants i <
        FairShare.target capacity wants i := by
  have hshort := @snd_foldl_visit n p.step (p.due now) (FairShare.target capacity wants) grants _
    (List.nodup_finRange n) false
  rw [← FairShare.targets_eq] at hshort
  simp only [grants_divide]
  change (if (FairShare.targets capacity wants (visit p.step (p.due now)) (grants, false)).2
    then _ else _ : Option ℕ).isSome = true ↔ _
  split
  · next hconverging => simpa using hshort.mp hconverging
  · next hsettled =>
      simpa using fun i hi => hsettled (hshort.mpr (.inr ⟨i, List.mem_finRange i, hi⟩))

/-- The instant it asks for. -/
theorem next_divide {later : ℕ}
    (h : (BudgetPolicy.divide p capacity wants grants now).next = some later) :
    later = if p.due now then now + p.interval else p.next.getD now := by
  change (if (FairShare.targets capacity wants (visit p.step (p.due now)) (grants, false)).2
    then _ else _ : Option ℕ) = some later at h
  split at h
  · exact (Option.some.inj h).symm
  · cases h

theorem policy_divide :
    (BudgetPolicy.divide p capacity wants grants now).policy =
      { p with next := (BudgetPolicy.divide p capacity wants grants now).next } := rfl

/-- One that does not has reached the proportional division. -/
theorem grants_of_next_none
    (h : (BudgetPolicy.divide p capacity wants grants now).next = none) :
    (BudgetPolicy.divide p capacity wants grants now).grants = FairShare.target capacity wants := by
  funext i
  apply UInt32.le_antisymm
  · rw [grants_divide]
    exact ramped_le
  · apply UInt32.not_lt.mp
    intro hi
    have hsome := (next_divide_isSome grants p capacity wants now).mpr ⟨i, hi⟩
    rw [h] at hsome
    cases hsome

/-- One that leaves no slot short asks for nothing. -/
theorem next_divide_eq_none
    (h : ∀ i, (FairShare.target capacity wants i).toNat ≤
      ((BudgetPolicy.divide p capacity wants grants now).grants i).toNat) :
    (BudgetPolicy.divide p capacity wants grants now).next = none := by
  rw [← Option.not_isSome_iff_eq_none, next_divide_isSome]
  rintro ⟨i, hi⟩
  exact Nat.not_le.mpr (UInt32.lt_iff_toNat_lt.mp hi) (h i)

/-- A division that raises short of a target at the end of the clock panics, and no other. -/
theorem divide_eq :
    p.divide capacity wants grants now =
      if p.due now = true ∧ 2 ^ 64 ≤ now + p.interval ∧
          (BudgetPolicy.divide p capacity wants grants now).next.isSome = true then none
      else some (BudgetPolicy.divide p capacity wants grants now) := by
  simp only [divide, later, BudgetPolicy.divide]
  by_cases hshort : (FairShare.targets capacity wants (visit p.step (p.due now))
      (grants, false)).2 = true
  · simp only [if_pos hshort, Option.isSome_some, and_true]
    by_cases hdue : p.due now = true
    · by_cases hclock : now + p.interval < 2 ^ 64
      · have hnot : ¬ (p.due now = true ∧ 2 ^ 64 ≤ now + p.interval) := by omega
        simp only [if_pos hdue, if_pos hclock, if_neg hnot]
        rfl
      · have hend : p.due now = true ∧ 2 ^ 64 ≤ now + p.interval := ⟨hdue, by omega⟩
        simp only [if_pos hdue, if_neg hclock, if_pos hend]
        rfl
    · simp [hdue]
  · simp [hshort]

theorem eq_of_divide {d : Divided n ShrinkFastGrowSlow}
    (h : p.divide capacity wants grants now = some d) :
    BudgetPolicy.divide p capacity wants grants now = d := by
  rw [divide_eq] at h
  split at h
  · cases h
  · exact Option.some.inj h

/-- A slot that is due stays short where a step does not reach its target. -/
theorem ramped_lt_iff (hdue : due = true) :
    ramped step due t g < t ↔ g.toNat + step.toNat < t.toNat := by
  rw [UInt32.lt_iff_toNat_lt, toNat_ramped, if_pos hdue]
  omega

/-! ## Run again and again -/

variable {capacity wants}

variable (capacity wants) in
/-- Call the policy at the instant it returned. -/
def again (d : Divided n ShrinkFastGrowSlow) : Option (Divided n ShrinkFastGrowSlow) :=
  match d.next with
  | some now => d.policy.divide capacity wants d.grants now
  | none => some d

variable (capacity wants) in
/-- A number of such calls. -/
def againTimes : ℕ → Divided n ShrinkFastGrowSlow → Option (Divided n ShrinkFastGrowSlow)
  | 0, d => some d
  | k + 1, d => (again capacity wants d).bind (againTimes k)

theorem againTimes_of_next_none {d : Divided n ShrinkFastGrowSlow} (h : d.next = none) (k : ℕ) :
    againTimes capacity wants k d = some d := by
  induction k with
  | zero => rfl
  | succ k ih => rw [againTimes, again, h, Option.bind_some, ih]

/-- A target is within reach of some number of steps, and of no smaller one. -/
theorem exists_reach (hstep : 0 < step) :
    ∃ k ≤ 2 ^ 32, (∀ i, (target i).toNat ≤ (grants i).toNat + k * step.toNat) ∧
      ∀ j < k, ∃ i, (grants i).toNat + j * step.toNat < (target i).toNat := by
  have hpos : 1 ≤ step.toNat := UInt32.lt_iff_toNat_lt.mp hstep
  have hfar : ∀ i, (target i).toNat ≤ (grants i).toNat + 2 ^ 32 * step.toNat := by
    intro i
    have ht := (target i).toNat_lt
    omega
  have hex : ∃ k, ∀ i, (target i).toNat ≤ (grants i).toNat + k * step.toNat := ⟨_, hfar⟩
  refine ⟨Nat.find hex, Nat.find_min' hex hfar, Nat.find_spec hex, fun j hj => ?_⟩
  obtain ⟨i, hi⟩ := not_forall.mp (Nat.find_min hex hj)
  exact ⟨i, Nat.lt_of_not_le hi⟩

/-- **Calls at the instants returned come to rest** once every target is within reach, unless the
clock ends before: by induction on their number. -/
theorem exists_again_eq (k : ℕ)
    (hreach : ∀ i, (FairShare.target capacity wants i).toNat ≤
      ((BudgetPolicy.divide p capacity wants grants now).grants i).toNat + k * p.step.toNat)
    (hclock : ∀ first, (BudgetPolicy.divide p capacity wants grants now).next = some first →
      first + (k - 1) * p.interval < 2 ^ 64) :
    ∃ e, againTimes capacity wants k (BudgetPolicy.divide p capacity wants grants now) = some e ∧
      e.grants = FairShare.target capacity wants ∧ e.next = none := by
  induction k generalizing p grants now with
  | zero =>
      have hnext : (BudgetPolicy.divide p capacity wants grants now).next = none :=
        next_divide_eq_none grants p capacity wants now (by simpa using hreach)
      exact ⟨_, rfl, grants_of_next_none grants p capacity wants now hnext, hnext⟩
  | succ k ih =>
      cases hnext : (BudgetPolicy.divide p capacity wants grants now).next with
      | none =>
          exact ⟨_, againTimes_of_next_none hnext _,
            grants_of_next_none grants p capacity wants now hnext, hnext⟩
      | some first =>
          let q : ShrinkFastGrowSlow := { p with next := some first }
          have hpolicy : (BudgetPolicy.divide p capacity wants grants now).policy = q := by
            rw [policy_divide, hnext]
          have hdue : q.due first = true := by simp [q, due]
          have hcloser : ∀ i, (FairShare.target capacity wants i).toNat ≤
              ((BudgetPolicy.divide q capacity wants
                (BudgetPolicy.divide p capacity wants grants now).grants first).grants i).toNat +
                k * q.step.toNat := by
            intro i
            have hle := hreach i
            rw [Nat.succ_mul] at hle
            rw [grants_divide, toNat_ramped, if_pos hdue]
            change _ ≤ min (_ + p.step.toNat) _ + k * p.step.toNat
            omega
          have hlater : ∀ second, (BudgetPolicy.divide q capacity wants
              (BudgetPolicy.divide p capacity wants grants now).grants first).next =
                some second → second = first + p.interval := by
            intro second hsecond
            have heq := next_divide _ _ capacity wants first hsecond
            rwa [if_pos hdue] at heq
          -- the last raise leaves no slot short, and every other one has an instant to return
          have hmore : (BudgetPolicy.divide q capacity wants
              (BudgetPolicy.divide p capacity wants grants now).grants first).next.isSome = true →
                first + p.interval + (k - 1) * p.interval < 2 ^ 64 := by
            intro hsome
            have hfits := hclock first hnext
            cases k with
            | zero =>
                rw [next_divide_eq_none _ q capacity wants first (by simpa using hcloser)] at hsome
                cases hsome
            | succ k =>
                rw [Nat.add_sub_cancel, Nat.succ_mul] at hfits
                rw [Nat.add_sub_cancel]
                omega
          have hagain : again capacity wants (BudgetPolicy.divide p capacity wants grants now) =
              some (BudgetPolicy.divide q capacity wants
                (BudgetPolicy.divide p capacity wants grants now).grants first) := by
            rw [again, hnext, hpolicy]
            change q.divide _ _ _ _ = _
            rw [divide_eq, if_neg]
            rintro ⟨-, hend, hshort⟩
            have hfits := hmore hshort
            change _ ≤ first + p.interval at hend
            omega
          rw [againTimes, hagain]
          apply ih _ q first hcloser
          intro second hsecond
          rw [hlater second hsecond]
          exact hmore (Option.isSome_of_mem hsecond)

/-! ## The ramp -/

/-- **The ramp never grants more than the proportional division and ends in it.** A division
returns unless it leaves a slot short and has no instant for the next one. Then no grant is
above its target, what was above has been cut to it, nothing has risen by more than `step`, and
the policy asks to be run again exactly if a slot is still short. Run again at the instants it
returns, it reaches the targets and stops asking after as many calls as the slot furthest from
its target is short of steps, if the clock goes on to the last of these calls. -/
theorem ramp_converges (p : ShrinkFastGrowSlow) (capacity : UInt32) (wants grants : Fin n → UInt32)
    (now : ℕ) :
    let fair := (BudgetPolicy.divide FairShare.mk capacity wants grants now).grants
    (p.divide capacity wants grants now = none ↔ p.due now = true ∧ 2 ^ 64 ≤ now + p.interval ∧
      ∃ i, (grants i).toNat + p.step.toNat < (fair i).toNat) ∧
    ∀ d, p.divide capacity wants grants now = some d → (∀ i, d.grants i ≤ fair i) ∧
      (n ≤ 2 ^ 32 → ∑ i, (d.grants i).toNat ≤ capacity.toNat) ∧
      (∀ i, fair i < grants i → d.grants i = fair i) ∧
      (∀ i, (d.grants i).toNat ≤ (grants i).toNat + p.step.toNat) ∧
      (d.next.isSome = true ↔ ∃ i, d.grants i < fair i) ∧
      (0 < p.step → ∃ k ≤ 2 ^ 32,
        (∀ j < k, ∃ i, (d.grants i).toNat + j * p.step.toNat < (fair i).toNat) ∧
        ((∀ first, d.next = some first → first + (k - 1) * p.interval < 2 ^ 64) →
          ∃ e, againTimes capacity wants k d = some e ∧ e.grants = fair ∧ e.next = none)) := by
  intro fair
  have hfair : fair = FairShare.target capacity wants := FairShare.grants_divide grants now
  have hshort := next_divide_isSome grants p capacity wants now
  constructor
  · rw [divide_eq, ite_eq_left_iff, hshort, hfair]
    simp only [grants_divide, reduceCtorEq, imp_false, not_not]
    refine and_congr_right fun hdue => and_congr_right fun _ => exists_congr fun i => ?_
    exact ramped_lt_iff hdue
  intro d hd
  have hsame := eq_of_divide grants p capacity wants now hd
  have hgrants : ∀ i, d.grants i = ramped p.step (p.due now) (FairShare.target capacity wants i)
      (grants i) := by
    rw [← hsame]
    exact grants_divide grants p capacity wants now
  have hle : ∀ i, d.grants i ≤ fair i := by
    intro i
    rw [hgrants, hfair]
    exact ramped_le
  refine ⟨hle, fun hn => ?_, fun i hcut => ?_, fun i => ?_, ?_, fun hstep => ?_⟩
  · calc
      ∑ i, (d.grants i).toNat ≤ ∑ i, (fair i).toNat :=
        Finset.sum_le_sum fun i _ => UInt32.le_iff_toNat_le.mp (hle i)
      _ ≤ capacity.toNat := by
        simp only [hfair, FairShare.toNat_target hn]
        rw [Fin.sum_univ_def, Apportion.sum_share (List.nodup_finRange n)]
        exact Nat.min_le_left _ _
  · rw [hgrants, ← hfair]
    exact ramped_of_lt hcut
  · rw [hgrants]
    exact toNat_ramped_le
  · rw [hfair, ← hsame]
    exact hshort
  · rw [hfair, ← hsame]
    obtain ⟨k, hk, hreach, hleast⟩ := exists_reach (FairShare.target capacity wants)
      (BudgetPolicy.divide p capacity wants grants now).grants hstep
    exact ⟨k, hk, hleast, exists_again_eq grants p now k hreach⟩

def cutAndRaise : Option (Divided 2 ShrinkFastGrowSlow) :=
  ({ step := 10, interval := 100 } : ShrinkFastGrowSlow).divide 50 (fun _ => 25)
    (fun i => if i.val = 0 then 50 else 0) 7

/-- Of two slots one is cut and the other takes three calls to rise by 25. -/
theorem ramp_converges_cutAndRaise : ∃ d, cutAndRaise = some d ∧ d.next = some 107 ∧
    (List.finRange 2).map d.grants = [25, 10] ∧
    ∃ k ≤ 2, ∃ e, againTimes 50 (fun _ => 25) k d = some e ∧ e.next = none := by
  obtain ⟨d, hd⟩ := Option.isSome_iff_exists.mp (by decide +kernel : cutAndRaise.isSome = true)
  have hnext : cutAndRaise.map (·.next) = some (some 107) := by decide +kernel
  have hgrants : cutAndRaise.map (fun d => (List.finRange 2).map d.grants) = some [25, 10] := by
    decide +kernel
  rw [hd, Option.map_some, Option.some_inj] at hnext hgrants
  obtain ⟨-, -, -, -, -, hrest⟩ := (ramp_converges { step := 10, interval := 100 } 50 _ _ 7).2 d hd
  obtain ⟨k, -, hleast, hk⟩ := hrest (by decide)
  have htwo : k ≤ 2 := by
    apply Nat.le_of_not_lt
    intro hlt
    obtain ⟨i, hi⟩ := hleast 2 hlt
    have hreach : ∀ g ∈ (List.finRange 2).map d.grants, 5 ≤ g.toNat := by
      simp [hgrants]
    have hg := hreach _ (List.mem_map_of_mem (List.mem_finRange i))
    have hfair : ∀ i : Fin 2, ((BudgetPolicy.divide FairShare.mk 50 (fun _ => 25)
        (fun i : Fin 2 => if i.val = 0 then 50 else 0) 7).grants i).toNat = 25 := by
      decide +kernel
    rw [hfair] at hi
    change (d.grants i).toNat + 2 * 10 < 25 at hi
    omega
  obtain ⟨e, he, -, hdone⟩ := hk fun first hfirst => by
    rw [hnext, Option.some_inj] at hfirst
    subst hfirst
    change 107 + (k - 1) * 100 < 2 ^ 64
    omega
  exact ⟨d, hd, hnext, hgrants, k, htwo, e, he, hdone⟩

/-- At the last tick of the clock a slot is short, and there is no later instant. -/
theorem ramp_panics :
    ¬ ∀ (p : ShrinkFastGrowSlow) (capacity : UInt32) (wants grants : Fin 1 → UInt32) (now : ℕ),
      now < 2 ^ 64 → p.interval < 2 ^ 64 → ∃ d, p.divide capacity wants grants now = some d ∧
        (d.next.isSome = true ↔ ∃ i, d.grants i < FairShare.target capacity wants i) := by
  intro h
  obtain ⟨d, hd, -⟩ := h { step := 10, interval := 100 } 50 (fun _ => 25) (fun _ => 0) (2 ^ 64 - 1)
    (by decide) (by decide)
  have hnone : ({ step := 10, interval := 100 } : ShrinkFastGrowSlow).divide 50
      (fun _ : Fin 1 => 25) (fun _ => 0) (2 ^ 64 - 1) = none := by decide +kernel
  rw [hnone] at hd
  cases hd

end ShrinkFastGrowSlow

end EmbassySupervisor
