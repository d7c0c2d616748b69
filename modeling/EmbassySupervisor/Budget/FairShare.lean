/-
# The proportional division

`FairShare` computes in 64 bits what `Apportion.share` is: the want itself where the
capacity covers the sum, else the want's share of the capacity rounded down, and what the
floors leave over one unit each to the lowest slots that can use it. `target` is what it
visits a slot with, and `targets_eq` that it visits every slot once, in slot order.

No sum, product, difference or cast on the way leaves its word: `checkedTargets` is the
same function with every one of them checked, as a debug build does, and
`checkedTargets_eq` says that no check fails for as many slots as 32 bits can count.
-/

import EmbassySupervisor.Lib.Apportion
import EmbassySupervisor.Budget.Budget
import Mathlib.Algebra.BigOperators.Fin

namespace EmbassySupervisor

variable {n : ℕ} {α : Type}

namespace FairShare

variable (capacity : UInt32) (wants : Fin n → UInt32)

/-! ## What a slot is visited with -/

def total : UInt64 := (List.finRange n).foldl (fun sum i => sum + (wants i).toUInt64) 0

def floor (w : UInt32) : UInt32 := (capacity.toUInt64 * w.toUInt64 / total wants).toUInt32

def used : UInt64 :=
  (List.finRange n).foldl (fun sum i => sum + (floor capacity wants (wants i)).toUInt64) 0

/-- The slots that get a unit of the remainder. -/
def raised : List (Fin n) :=
  ((List.finRange n).filter fun i => decide (floor capacity wants (wants i) < wants i)).take
    (capacity.toUInt64 - used capacity wants).toNat

/-- The slot's target. -/
def target (i : Fin n) : UInt32 :=
  if total wants ≤ capacity.toUInt64 then wants i
  else if i ∈ raised capacity wants then floor capacity wants (wants i) + 1
  else floor capacity wants (wants i)

variable {capacity wants}

/-- **Every slot is visited once, in slot order, with its target.** -/
theorem targets_eq (visit : Fin n → UInt32 → α → α) (out : α) :
    targets capacity wants visit out =
      (List.finRange n).foldl (fun out i => visit i (target capacity wants i) out) out := by
  by_cases hcap : total wants ≤ capacity.toUInt64
  · have htarget : ∀ i, target capacity wants i = wants i := fun i => if_pos hcap
    simp only [htarget]
    exact if_pos hcap
  · have hspend : ∀ c : UInt64, 0 < c.toNat → (c - 1).toNat = c.toNat - 1 := by
      intro c hc
      apply UInt64.toNat_sub_of_le
      rw [UInt64.le_iff_toNat_le]
      exact hc
    have hloop := Apportion.foldl_handOut UInt64.toNat (· - 1) hspend
      (fun i => decide (floor capacity wants (wants i) < wants i))
      (fun i => visit i (floor capacity wants (wants i) + 1))
      (fun i => visit i (floor capacity wants (wants i)))
      (List.nodup_finRange n) out (capacity.toUInt64 - used capacity wants)
    have htarget : ∀ i out, visit i (target capacity wants i) out =
        if i ∈ raised capacity wants then visit i (floor capacity wants (wants i) + 1) out
        else visit i (floor capacity wants (wants i)) out := by
      intro i out
      rw [target, if_neg hcap, apply_ite (visit i · out)]
    simp only [htarget]
    refine Eq.trans ?_ hloop
    simp only [decide_eq_true_eq]
    exact if_neg hcap

/-! ## In numbers -/

variable (wants) in
/-- A slot's want as a number. -/
def weight (i : Fin n) : ℕ := (wants i).toNat

theorem toNat_add_toUInt64 {sum : UInt64} {w : UInt32} (hfits : sum.toNat + w.toNat < 2 ^ 64) :
    (sum + w.toUInt64).toNat = sum.toNat + w.toNat := by
  rw [UInt64.toNat_add, UInt32.toNat_toUInt64, Nat.mod_eq_of_lt hfits]

/-- A sum that stays within its word is the sum of the numbers. -/
theorem toNat_foldl_add (f : Fin n → UInt32) (slots : List (Fin n)) (sum : UInt64)
    (hfits : sum.toNat + (slots.map fun i => (f i).toNat).sum < 2 ^ 64) :
    (slots.foldl (fun sum i => sum + (f i).toUInt64) sum).toNat =
      sum.toNat + (slots.map fun i => (f i).toNat).sum := by
  induction slots generalizing sum with
  | nil => rfl
  | cons i slots ih =>
      simp only [List.map_cons, List.sum_cons] at hfits ⊢
      have hone : (sum + (f i).toUInt64).toNat = sum.toNat + (f i).toNat :=
        toNat_add_toUInt64 (by omega)
      rw [List.foldl_cons, ih _ (by omega), hone, Nat.add_assoc]

/-- As many wants as 32 bits can count add up within 64 bits. -/
theorem sum_lt (hn : n ≤ 2 ^ 32) (f : Fin n → UInt32) :
    ((List.finRange n).map fun i => (f i).toNat).sum < 2 ^ 64 := by
  have hle : ((List.finRange n).map fun i => (f i).toNat).sum ≤
      ((List.finRange n).map fun i => (f i).toNat).length • (2 ^ 32 - 1) := by
    apply List.sum_le_card_nsmul
    intro k hk
    obtain ⟨i, -, rfl⟩ := List.mem_map.mp hk
    exact Nat.le_sub_one_of_lt (f i).toNat_lt
  rw [List.length_map, List.length_finRange, smul_eq_mul] at hle
  have hmul : n * (2 ^ 32 - 1) ≤ 2 ^ 32 * (2 ^ 32 - 1) := Nat.mul_le_mul_right _ hn
  omega

theorem mul_lt (capacity w : UInt32) : capacity.toNat * w.toNat < 2 ^ 64 := by
  have hmul := Nat.mul_lt_mul'' capacity.toNat_lt w.toNat_lt
  omega

section Numbers

variable (hn : n ≤ 2 ^ 32)
include hn

theorem toNat_total :
    (total wants).toNat = Apportion.total (weight wants) (List.finRange n) := by
  have hfits := sum_lt hn wants
  rw [total, toNat_foldl_add wants _ 0 (by simpa using hfits)]
  exact Nat.zero_add _

theorem total_le_iff :
    total wants ≤ capacity.toUInt64 ↔
      Apportion.total (weight wants) (List.finRange n) ≤ capacity.toNat := by
  rw [UInt64.le_iff_toNat_le, toNat_total hn, UInt32.toNat_toUInt64]

/-- The quotient before its cast. -/
theorem toNat_quotient (i : Fin n) :
    (capacity.toUInt64 * (wants i).toUInt64 / total wants).toNat =
      Apportion.floor capacity.toNat (weight wants) (List.finRange n) i := by
  rw [UInt64.toNat_div, UInt64.toNat_mul, UInt32.toNat_toUInt64, UInt32.toNat_toUInt64,
    Nat.mod_eq_of_lt (mul_lt _ _), toNat_total hn]
  rfl

variable (hcap : capacity.toNat < Apportion.total (weight wants) (List.finRange n))
include hcap

omit hn in
theorem quotient_lt (i : Fin n) :
    Apportion.floor capacity.toNat (weight wants) (List.finRange n) i < 2 ^ 32 :=
  (Apportion.floor_le_weight hcap.le i).trans_lt (wants i).toNat_lt

theorem toNat_floor (i : Fin n) :
    (floor capacity wants (wants i)).toNat =
      Apportion.floor capacity.toNat (weight wants) (List.finRange n) i := by
  rw [floor, UInt64.toNat_toUInt32, toNat_quotient hn,
    Nat.mod_eq_of_lt (quotient_lt hcap i)]

theorem toNat_used :
    (used capacity wants).toNat =
      ((List.finRange n).map
        (Apportion.floor capacity.toNat (weight wants) (List.finRange n))).sum := by
  have hfits := sum_lt hn fun i => floor capacity wants (wants i)
  rw [used, toNat_foldl_add (fun i => floor capacity wants (wants i)) _ 0 (by simpa using hfits)]
  simp only [toNat_floor hn hcap]
  exact Nat.zero_add _

theorem used_le : used capacity wants ≤ capacity.toUInt64 := by
  rw [UInt64.le_iff_toNat_le, toNat_used hn hcap, UInt32.toNat_toUInt64]
  exact Apportion.sum_floor_le hcap

theorem raised_eq :
    raised capacity wants = Apportion.raised capacity.toNat (weight wants) (List.finRange n) := by
  have hshort : ∀ i, floor capacity wants (wants i) < wants i ↔
      Apportion.floor capacity.toNat (weight wants) (List.finRange n) i < weight wants i := by
    intro i
    rw [UInt32.lt_iff_toNat_lt, toNat_floor hn hcap]
    rfl
  simp only [raised, Apportion.raised, Apportion.short, hshort]
  rw [UInt64.toNat_sub_of_le _ _ (used_le hn hcap), toNat_used hn hcap, UInt32.toNat_toUInt64]
  rfl

end Numbers

/-- A slot that gets a unit of the remainder has room for it. -/
theorem floor_lt_of_raised {i : Fin n} (hi : i ∈ raised capacity wants) :
    floor capacity wants (wants i) < wants i := by
  have hshort := List.of_mem_filter (List.mem_of_mem_take hi)
  exact of_decide_eq_true hshort

theorem toNat_succ {t w : UInt32} (h : t < w) : (t + 1).toNat = t.toNat + 1 := by
  have hlt := UInt32.lt_iff_toNat_lt.mp h
  have hw := w.toNat_lt
  rw [UInt32.toNat_add, UInt32.toNat_one, Nat.mod_eq_of_lt (by omega)]

/-- **The division in 64 bits is the division.** -/
theorem toNat_target (hn : n ≤ 2 ^ 32) (i : Fin n) :
    (target capacity wants i).toNat =
      Apportion.share capacity.toNat (weight wants) (List.finRange n) i := by
  unfold target Apportion.share
  simp only [total_le_iff hn]
  split
  · rfl
  · next hcap =>
      have hlt := Nat.lt_of_not_le hcap
      rw [← raised_eq hn hlt]
      split
      · next hraised => rw [toNat_succ (floor_lt_of_raised hraised), toNat_floor hn hlt]
      · exact toNat_floor hn hlt i

/-- A loop in which every visit changes its own slot only. -/
theorem foldl_update (f : Fin n → α → α) {slots : List (Fin n)} (hslots : slots.Nodup)
    (out : Fin n → α) (i : Fin n) :
    slots.foldl (fun out j => Function.update out j (f j (out j))) out i =
      if i ∈ slots then f i (out i) else out i := by
  induction slots generalizing out with
  | nil => simp
  | cons j slots ih =>
      obtain ⟨hj, hrest⟩ := List.nodup_cons.mp hslots
      rw [List.foldl_cons, ih hrest]
      by_cases hij : i = j
      · subst hij
        simp [hj]
      · simp [hij]

/-- A division grants every slot its target, whatever it had. -/
theorem grants_divide (grants : Fin n → UInt32) (now : ℕ) :
    (BudgetPolicy.divide FairShare.mk capacity wants grants now).grants =
      target capacity wants := by
  change targets capacity wants (fun i t g => Function.update g i t) grants = _
  funext i
  rw [targets_eq, foldl_update (fun j _ => target capacity wants j) (List.nodup_finRange n),
    if_pos (List.mem_finRange i)]

/-! ## With every operation checked -/

def addChecked (a b : UInt64) : Option UInt64 :=
  if a.toNat + b.toNat < 2 ^ 64 then some (a + b) else none

def mulChecked (a b : UInt64) : Option UInt64 :=
  if a.toNat * b.toNat < 2 ^ 64 then some (a * b) else none

def subChecked (a b : UInt64) : Option UInt64 := if b ≤ a then some (a - b) else none

def divChecked (a b : UInt64) : Option UInt64 := if b = 0 then none else some (a / b)

def castChecked (a : UInt64) : Option UInt32 :=
  if a.toNat < 2 ^ 32 then some a.toUInt32 else none

def succChecked (t : UInt32) : Option UInt32 :=
  if t.toNat + 1 < 2 ^ 32 then some (t + 1) else none

def floorChecked (capacity : UInt32) (total : UInt64) (w : UInt32) : Option UInt32 := do
  castChecked (← divChecked (← mulChecked capacity.toUInt64 w.toUInt64) total)

/-- `targets`; `none` as soon as a sum, a product, a difference or a cast does not fit. -/
def checkedTargets (capacity : UInt32) (wants : Fin n → UInt32)
    (visit : Fin n → UInt32 → α → α) (out : α) : Option α := do
  let slots := List.finRange n
  let total ← slots.foldlM (fun sum i => addChecked sum (wants i).toUInt64) 0
  if total ≤ capacity.toUInt64 then some (slots.foldl (fun out i => visit i (wants i) out) out)
  else
    let floor := floorChecked capacity total
    let used ← slots.foldlM (fun sum i => do addChecked sum (← floor (wants i)).toUInt64) 0
    let left ← subChecked capacity.toUInt64 used
    let (out, _) ← slots.foldlM
      (fun ((out, left) : α × UInt64) i => do
        let t ← floor (wants i)
        if 0 < left ∧ t < wants i then
          some (visit i (← succChecked t) out, ← subChecked left 1)
        else some (visit i t out, left))
      (out, left)
    some out

/-- A sum that stays within its word passes its checks. -/
theorem foldlM_addChecked (f : Fin n → UInt32) (slots : List (Fin n)) (sum : UInt64)
    (hfits : sum.toNat + (slots.map fun i => (f i).toNat).sum < 2 ^ 64) :
    slots.foldlM (fun sum i => addChecked sum (f i).toUInt64) sum =
      some (slots.foldl (fun sum i => sum + (f i).toUInt64) sum) := by
  induction slots generalizing sum with
  | nil => rfl
  | cons i slots ih =>
      simp only [List.map_cons, List.sum_cons] at hfits
      have hone : (sum + (f i).toUInt64).toNat = sum.toNat + (f i).toNat :=
        toNat_add_toUInt64 (by omega)
      have hchecked : addChecked sum (f i).toUInt64 = some (sum + (f i).toUInt64) := by
        apply if_pos
        rw [UInt32.toNat_toUInt64]
        omega
      rw [List.foldlM_cons, hchecked, List.foldl_cons]
      exact ih _ (by omega)

theorem floorChecked_eq (hn : n ≤ 2 ^ 32)
    (hcap : capacity.toNat < Apportion.total (weight wants) (List.finRange n)) (i : Fin n) :
    floorChecked capacity (total wants) (wants i) = some (floor capacity wants (wants i)) := by
  have hmul : mulChecked capacity.toUInt64 (wants i).toUInt64 =
      some (capacity.toUInt64 * (wants i).toUInt64) := by
    apply if_pos
    rw [UInt32.toNat_toUInt64, UInt32.toNat_toUInt64]
    exact mul_lt _ _
  have hdiv : divChecked (capacity.toUInt64 * (wants i).toUInt64) (total wants) =
      some (capacity.toUInt64 * (wants i).toUInt64 / total wants) := by
    apply if_neg
    intro hzero
    have hnat : (total wants).toNat = _ := toNat_total hn
    rw [hzero] at hnat
    exact absurd hcap (hnat ▸ Nat.not_lt_zero _)
  have hcast : castChecked (capacity.toUInt64 * (wants i).toUInt64 / total wants) =
      some (floor capacity wants (wants i)) := by
    apply if_pos
    rw [toNat_quotient hn]
    exact quotient_lt hcap i
  simp only [floorChecked, hmul, hdiv, hcast, Option.bind_eq_bind, Option.bind_some]

/-- **No check fails.** -/
theorem checkedTargets_eq (hn : n ≤ 2 ^ 32) (visit : Fin n → UInt32 → α → α) (out : α) :
    checkedTargets capacity wants visit out = some (targets capacity wants visit out) := by
  have htotal : (List.finRange n).foldlM (fun sum i => addChecked sum (wants i).toUInt64) 0 =
      some (total wants) :=
    foldlM_addChecked wants (List.finRange n) 0 (by simpa using sum_lt hn wants)
  simp only [checkedTargets, htotal, Option.bind_eq_bind, Option.bind_some]
  by_cases hle : total wants ≤ capacity.toUInt64
  · rw [if_pos hle]
    exact congrArg some (if_pos hle).symm
  · have hcap := Nat.lt_of_not_le fun h => hle ((total_le_iff hn).mpr h)
    have hused : (List.finRange n).foldlM
        (fun sum i => addChecked sum (floor capacity wants (wants i)).toUInt64) 0 =
          some (used capacity wants) := by
      apply foldlM_addChecked fun i => floor capacity wants (wants i)
      simpa using sum_lt hn fun i => floor capacity wants (wants i)
    have hleft : subChecked capacity.toUInt64 (used capacity wants) =
        some (capacity.toUInt64 - used capacity wants) := if_pos (used_le hn hcap)
    rw [if_neg hle]
    simp only [floorChecked_eq hn hcap, Option.bind_some, hused, hleft]
    have hround : (fun (s : α × UInt64) (i : Fin n) =>
        if 0 < s.2 ∧ floor capacity wants (wants i) < wants i then
          (succChecked (floor capacity wants (wants i))).bind fun t =>
            (subChecked s.2 1).bind fun left => some (visit i t s.1, left)
        else some (visit i (floor capacity wants (wants i)) s.1, s.2)) =
        fun s i => pure
          (if 0 < s.2 ∧ floor capacity wants (wants i) < wants i then
            (visit i (floor capacity wants (wants i) + 1) s.1, s.2 - 1)
          else (visit i (floor capacity wants (wants i)) s.1, s.2)) := by
      funext s i
      by_cases hroom : 0 < s.2 ∧ floor capacity wants (wants i) < wants i
      · have hsucc : succChecked (floor capacity wants (wants i)) =
            some (floor capacity wants (wants i) + 1) := by
          apply if_pos
          have hlt := UInt32.lt_iff_toNat_lt.mp hroom.2
          have hw := (wants i).toNat_lt
          omega
        have hone : subChecked s.2 1 = some (s.2 - 1) := by
          apply if_pos
          rw [UInt64.le_iff_toNat_le]
          exact UInt64.lt_iff_toNat_lt.mp hroom.1
        rw [if_pos hroom, if_pos hroom, hsucc, hone]
        rfl
      · rw [if_neg hroom, if_neg hroom]
        rfl
    rw [hround, List.foldlM_pure]
    exact congrArg some (if_neg hle).symm

/-! ## The division -/

/-- **The capacity is divided exactly.** No slot is granted more than it wants and the grants
add up to all there is or all that is wanted. Where the wants exceed the capacity every slot
has its proportional share rounded down, and of those this leaves short the lowest get one
unit more. Nothing overflows on the way. -/
theorem fair_share_divides (hn : n ≤ 256) (capacity : UInt32) (wants grants : Fin n → UInt32)
    (now : ℕ) :
    let granted := (BudgetPolicy.divide FairShare.mk capacity wants grants now).grants
    let total := ∑ i, (wants i).toNat
    let floor := fun i => capacity.toNat * (wants i).toNat / total
    (∀ i, granted i ≤ wants i) ∧
      ∑ i, (granted i).toNat = min capacity.toNat total ∧
      (capacity.toNat < total → ∀ i, (granted i).toNat = floor i +
        if i ∈ ((List.finRange n).filter fun j => decide (floor j < (wants j).toNat)).take
            (capacity.toNat - ∑ j, floor j)
        then 1 else 0) ∧
      checkedTargets capacity wants (fun i t g => Function.update g i t) grants =
        some granted := by
  intro granted total floor
  have hbound : n ≤ 2 ^ 32 := by omega
  have hgranted : granted = target capacity wants := grants_divide grants now
  have htotal : total = Apportion.total (weight wants) (List.finRange n) :=
    Fin.sum_univ_def _
  have hfloor : floor = Apportion.floor capacity.toNat (weight wants) (List.finRange n) := by
    funext i
    rw [Apportion.floor, ← htotal]
    rfl
  have hshare (i : Fin n) : (target capacity wants i).toNat = _ := toNat_target hbound i
  refine ⟨fun i => ?_, ?_, fun hcap i => ?_, ?_⟩
  · rw [hgranted, UInt32.le_iff_toNat_le, hshare]
    exact Apportion.share_le_weight i
  · simp only [hgranted, hshare]
    rw [Fin.sum_univ_def, Apportion.sum_share (List.nodup_finRange n), htotal]
  · rw [hgranted, hshare, Apportion.share, if_neg (by omega), hfloor, Fin.sum_univ_def]
    rfl
  · rw [checkedTargets_eq hbound]
    rfl

/-- Two slots that want all 32 bits can count, and one that wants nothing between them. -/
def greedy (i : Fin 3) : UInt32 := if i = 1 then 0 else 4294967295

theorem fair_share_divides_greedy :
    let granted := (BudgetPolicy.divide FairShare.mk 5 greedy (fun _ => 0) 0).grants
    (List.finRange 3).map granted = [3, 0, 2] ∧
      checkedTargets 5 greedy (fun i t g => Function.update g i t) (fun _ => 0) = some granted :=
  ⟨by decide +kernel, (fair_share_divides (by decide) 5 greedy (fun _ => 0) 0).2.2.2⟩

end FairShare

end EmbassySupervisor
