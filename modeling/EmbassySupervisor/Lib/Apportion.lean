/-
# Dividing a capacity in proportion

A capacity smaller than the sum of the weights is divided by rounding every exact share
down and handing what is left, one unit each, to the first points that still lack some of
their weight. `left_le_short` is why that comes out even: the remainders of the floors add
up to the units left, times the total, and each of them is smaller than the total, so there
are at least as many points with a remainder as there are units left.

`foldl_handOut` is the same as a loop that counts the units down. Nothing here names what
is divided.
-/

import Mathlib.Algebra.BigOperators.Ring.List
import Mathlib.Algebra.Order.BigOperators.Group.List
import Mathlib.Algebra.Order.Group.Nat
import Mathlib.Algebra.Ring.Nat
import Mathlib.Data.List.Nodup

namespace Apportion

universe u v w

variable {α : Type u} {β : Type v}

section Division

variable (capacity : ℕ) (weight : α → ℕ) (slots : List α)

def total : ℕ := (slots.map weight).sum

/-- A point's exact share, rounded down. -/
def floor (i : α) : ℕ := capacity * weight i / total weight slots

/-- The units the floors leave over. -/
def left : ℕ := capacity - (slots.map (floor capacity weight slots)).sum

/-- The points the floors leave short of their weight. -/
def short : List α := slots.filter fun i => decide (floor capacity weight slots i < weight i)

variable {capacity weight slots}

theorem floor_le_weight (hcap : capacity ≤ total weight slots) (i : α) :
    floor capacity weight slots i ≤ weight i := by
  unfold floor
  rcases Nat.eq_zero_or_pos (total weight slots) with hzero | hpos
  · simp [hzero]
  · calc
      capacity * weight i / total weight slots
          ≤ total weight slots * weight i / total weight slots :=
        Nat.div_le_div_right (Nat.mul_le_mul_right _ hcap)
      _ = weight i := Nat.mul_div_cancel_left _ hpos

variable (capacity weight slots) in
/-- Over any points, the floors and their remainders make up the capacity's products. -/
theorem sum_floor_add_sum_mod (points : List α) :
    total weight slots * (points.map (floor capacity weight slots)).sum +
        (points.map fun i => capacity * weight i % total weight slots).sum =
      capacity * (points.map weight).sum := by
  rw [← List.sum_map_mul_left, ← List.sum_map_mul_left, ← List.sum_map_add]
  apply congrArg List.sum
  apply List.map_congr_left
  intro i _
  exact Nat.div_add_mod _ _

theorem sum_floor_le (hcap : capacity < total weight slots) :
    (slots.map (floor capacity weight slots)).sum ≤ capacity := by
  have hsum := sum_floor_add_sum_mod capacity weight slots slots
  have hpos : 0 < total weight slots := Nat.zero_lt_of_lt hcap
  apply Nat.le_of_mul_le_mul_left _ hpos
  rw [Nat.mul_comm (total weight slots) capacity]
  exact (Nat.le_add_right _ _).trans hsum.le

/-- A point with a remainder has been left short. -/
theorem floor_lt_weight_of_mod (hcap : capacity < total weight slots) {i : α}
    (hmod : 0 < capacity * weight i % total weight slots) :
    floor capacity weight slots i < weight i := by
  have hpos : 0 < total weight slots := Nat.zero_lt_of_lt hcap
  have hweight : 0 < weight i := by
    apply Nat.pos_of_ne_zero
    intro hzero
    simp [hzero] at hmod
  rw [floor, Nat.div_lt_iff_lt_mul hpos, Nat.mul_comm (weight i)]
  exact Nat.mul_lt_mul_of_pos_right hcap hweight

/-- The remainders of a list of points are bounded by the points left short. -/
theorem sum_mod_le (hcap : capacity < total weight slots) (points : List α) :
    (points.map fun i => capacity * weight i % total weight slots).sum ≤
      (points.filter fun i => decide (floor capacity weight slots i < weight i)).length *
        total weight slots := by
  induction points with
  | nil => simp
  | cons i points ih =>
      rw [List.map_cons, List.sum_cons]
      by_cases hshort : floor capacity weight slots i < weight i
      · have hmod := Nat.mod_lt (capacity * weight i) (Nat.zero_lt_of_lt hcap)
        rw [List.filter_cons_of_pos (by simpa using hshort), List.length_cons, Nat.add_mul]
        omega
      · have hmod : capacity * weight i % total weight slots = 0 := by
          by_contra hne
          exact hshort (floor_lt_weight_of_mod hcap (Nat.pos_of_ne_zero hne))
        rwa [List.filter_cons_of_neg (by simpa using hshort), hmod, Nat.zero_add]

/-- **There are enough points short of their weight for the units left over.** -/
theorem left_le_short (hcap : capacity < total weight slots) :
    left capacity weight slots ≤ (short capacity weight slots).length := by
  have hpos : 0 < total weight slots := Nat.zero_lt_of_lt hcap
  have hsum := sum_floor_add_sum_mod capacity weight slots slots
  have hmod := sum_mod_le hcap slots
  apply Nat.le_of_mul_le_mul_left _ hpos
  calc
    total weight slots * left capacity weight slots
        = capacity * total weight slots -
            total weight slots * (slots.map (floor capacity weight slots)).sum := by
      rw [left, Nat.mul_sub, Nat.mul_comm capacity]
    _ = (slots.map fun i => capacity * weight i % total weight slots).sum := by
      change _ + _ = capacity * total weight slots at hsum
      omega
    _ ≤ total weight slots * (short capacity weight slots).length := by
      rw [Nat.mul_comm (total weight slots)]
      exact hmod

end Division

/-! ## Handing out -/

section HandOut

variable {slots : List α}

/-- One unit more for each of some points. -/
theorem sum_map_add_ite (p : α → Prop) [DecidablePred p] (f : α → ℕ) :
    (slots.map fun i => f i + if p i then 1 else 0).sum =
      (slots.map f).sum + (slots.filter fun i => decide (p i)).length := by
  induction slots with
  | nil => rfl
  | cons i slots ih =>
      simp only [List.map_cons, List.sum_cons, ih, List.filter_cons]
      by_cases hi : p i
      · simp only [hi, if_true, decide_true, List.length_cons]
        omega
      · simp only [hi, if_false, decide_false, Bool.false_eq_true]
        omega

variable [DecidableEq α]

/-- Of points listed once, those in a sublist are that sublist. -/
theorem length_filter_mem {lucky : List α} (hslots : slots.Nodup) (hlucky : lucky.Sublist slots) :
    (slots.filter fun i => decide (i ∈ lucky)).length = lucky.length := by
  apply List.Perm.length_eq
  rw [List.perm_ext_iff_of_nodup (hslots.filter _) (hlucky.nodup hslots)]
  intro i
  simp only [List.mem_filter, decide_eq_true_eq, and_iff_right_iff_imp]
  exact fun hi => hlucky.subset hi

/-- What is handed out, unit by unit, adds up to what there was. -/
theorem sum_handOut (hslots : slots.Nodup) (p : α → Bool) (f : α → ℕ) {units : ℕ}
    (hunits : units ≤ (slots.filter p).length) :
    (slots.map fun i => f i + if i ∈ (slots.filter p).take units then 1 else 0).sum =
      (slots.map f).sum + units := by
  have hlucky : ((slots.filter p).take units).Sublist slots :=
    (List.take_sublist _ _).trans List.filter_sublist
  rw [sum_map_add_ite, length_filter_mem hslots hlucky, List.length_take, Nat.min_eq_left hunits]

/-- **A loop that counts the units down** gives one to the first points that qualify. The
counter is any value that stands for a number and can be brought down by one. -/
theorem foldl_handOut {γ : Type w} (units : γ → ℕ) (spend : γ → γ)
    (hspend : ∀ c, 0 < units c → units (spend c) = units c - 1) (p : α → Bool)
    (give keep : α → β → β) (hslots : slots.Nodup) (out : β) (c : γ) :
    (slots.foldl (fun (s : β × γ) i =>
        if 0 < units s.2 ∧ p i = true then (give i s.1, spend s.2) else (keep i s.1, s.2))
      (out, c)).1 =
    slots.foldl (fun out i =>
      if i ∈ (slots.filter p).take (units c) then give i out else keep i out) out := by
  induction slots generalizing out c with
  | nil => rfl
  | cons i slots ih =>
      obtain ⟨hi, hrest⟩ := List.nodup_cons.mp hslots
      have hnot : ∀ k, i ∉ (slots.filter p).take k := fun k hmem =>
        hi (List.mem_of_mem_filter (List.mem_of_mem_take hmem))
      simp only [List.foldl_cons]
      by_cases hgive : 0 < units c ∧ p i = true
      · have htake : ((i :: slots).filter p).take (units c) =
            i :: (slots.filter p).take (units (spend c)) := by
          rw [List.filter_cons_of_pos hgive.2, hspend c hgive.1]
          obtain ⟨k, hk⟩ := Nat.exists_eq_succ_of_ne_zero hgive.1.ne'
          simp [hk]
        rw [if_pos hgive, ih hrest, htake, if_pos List.mem_cons_self]
        apply List.foldl_ext
        intro out j hj
        have hne : j ≠ i := fun heq => hi (heq ▸ hj)
        simp [List.mem_cons, hne]
      · have htake : ((i :: slots).filter p).take (units c) = (slots.filter p).take (units c) := by
          by_cases hp : p i = true
          · have hzero : units c = 0 := by
              by_contra hne
              exact hgive ⟨Nat.pos_of_ne_zero hne, hp⟩
            simp [hzero]
          · rw [List.filter_cons_of_neg hp]
        rw [if_neg hgive, ih hrest, htake, if_neg (hnot _)]

end HandOut

/-! ## The division -/

section Share

variable [DecidableEq α] (capacity : ℕ) (weight : α → ℕ) (slots : List α)

/-- The points that get one unit on top of their floor. -/
def raised : List α := (short capacity weight slots).take (left capacity weight slots)

/-- The weight itself where there is enough for all, else the floor and what is left. -/
def share (i : α) : ℕ :=
  if total weight slots ≤ capacity then weight i
  else floor capacity weight slots i + if i ∈ raised capacity weight slots then 1 else 0

variable {capacity weight slots}

theorem share_le_weight (i : α) : share capacity weight slots i ≤ weight i := by
  unfold share
  split
  · exact le_rfl
  · next hcap =>
      split
      · next hraised =>
          have hshort := List.of_mem_filter (List.mem_of_mem_take hraised)
          exact of_decide_eq_true hshort
      · exact floor_le_weight (Nat.le_of_not_le hcap) i

/-- **Nothing is lost and nothing is granted twice.** -/
theorem sum_share (hslots : slots.Nodup) :
    (slots.map (share capacity weight slots)).sum = min capacity (total weight slots) := by
  by_cases hcap : total weight slots ≤ capacity
  · have hshare : share capacity weight slots = weight := by
      funext i
      rw [share, if_pos hcap]
    rw [hshare, Nat.min_eq_right hcap]
    rfl
  · have hlt := Nat.lt_of_not_le hcap
    have hshare : share capacity weight slots = fun i =>
        floor capacity weight slots i + if i ∈ raised capacity weight slots then 1 else 0 := by
      funext i
      rw [share, if_neg hcap]
    rw [hshare, raised, short, sum_handOut hslots _ _ (left_le_short hlt),
      Nat.min_eq_left hlt.le, left]
    exact Nat.add_sub_of_le (sum_floor_le hlt)

end Share

end Apportion
