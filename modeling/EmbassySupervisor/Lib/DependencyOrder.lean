/-
# One-pass algorithms along a topological order

A dependency table with a topological order of its points admits two kinds of
single-pass computation. A *sweep* visits the points in order and overwrites
each with a value read off its dependencies; since those are final by then, the
result solves the point-by-point equations (`sweep_apply`). A *spread* visits
the points in reverse and lets each marked one mark its dependencies; the result
is the set reachable from the initial marks (`spread_iff`).

Reachability cut at closed points is `Reaches`: every point of the path except
its last is open. `reaches_iff_of_equation` and `isLeast_of_equation` turn a
solution of the point-by-point equations into reachability and into a least
closed set. The points, tables and values are arbitrary.
-/

import Mathlib.Data.List.Nodup
import Mathlib.Logic.Relation
import Mathlib.Logic.Function.Basic
import Mathlib.Order.Bounds.Basic
import Mathlib.Order.WellFounded

namespace DependencyOrder

universe u v

variable {α : Type u} {β : Type v}

/-- `order` lists every point once, and no point before one of its
dependencies. -/
structure TopologicalOrder (deps : α → List α) (order : List α) : Prop where
  nodup : order.Nodup
  complete : ∀ j, j ∈ order
  sorted : order.Pairwise fun earlier later => later ∉ deps earlier
  irrefl : ∀ j, j ∉ deps j

namespace TopologicalOrder

variable {deps : α → List α} {order : List α}

/-- Where the order is cut before a point, all its dependencies are in the
front part. -/
theorem dep_mem_front (h : TopologicalOrder deps order) {front back : List α} {j d : α}
    (hcut : order = front ++ j :: back) (hd : d ∈ deps j) : d ∈ front := by
  have hmem : d ∈ front ++ j :: back := hcut ▸ h.complete d
  have hsorted := hcut ▸ h.sorted
  rcases List.mem_append.mp hmem with hfront | hback
  · exact hfront
  · rcases List.mem_cons.mp hback with rfl | hback
    · exact absurd hd (h.irrefl d)
    · have hpair := (List.pairwise_cons.mp (List.pairwise_append.mp hsorted).2.1).1
      exact absurd hd (hpair d hback)

private theorem acc_of_front (h : TopologicalOrder deps order) (back front : List α)
    (hcut : order = front ++ back)
    (hfront : ∀ j ∈ front, Acc (fun d j => d ∈ deps j) j) :
    ∀ j ∈ order, Acc (fun d j => d ∈ deps j) j := by
  induction back generalizing front with
  | nil =>
      intro j hj
      exact hfront j (by simpa [hcut] using hj)
  | cons k back ih =>
      refine ih (front ++ [k]) (by simpa using hcut) fun j hj => ?_
      rcases List.mem_append.mp hj with hj | hj
      · exact hfront j hj
      · obtain rfl := List.mem_singleton.mp hj
        exact Acc.intro _ fun d hd => hfront d (h.dep_mem_front hcut hd)

/-- A table with fewer dependencies keeps its order. -/
theorem mono {deps' : α → List α} (h : TopologicalOrder deps order)
    (hsub : ∀ j, deps' j ⊆ deps j) : TopologicalOrder deps' order where
  nodup := h.nodup
  complete := h.complete
  sorted := h.sorted.imp fun {earlier _} hlater hmem => hlater (hsub earlier hmem)
  irrefl j hj := h.irrefl j (hsub j hj)

/-- A table with a topological order has no infinite descent along it. -/
theorem wellFounded (h : TopologicalOrder deps order) :
    WellFounded fun d j => d ∈ deps j :=
  ⟨fun j => h.acc_of_front order [] rfl (by simp) j (h.complete j)⟩

/-- Some point of a nonempty set depends on no point of it. -/
theorem exists_first (h : TopologicalOrder deps order) {p : α → Prop} {j : α} (hj : p j) :
    ∃ j, p j ∧ ∀ d ∈ deps j, ¬ p d := by
  obtain ⟨j, hj, hmin⟩ := h.wellFounded.has_min {j | p j} ⟨j, hj⟩
  exact ⟨j, hj, fun d hd hp => hmin d hp hd⟩

/-- No point of a nonempty set depends on some point of it. -/
theorem exists_last (h : TopologicalOrder deps order) {p : α → Bool} {j : α}
    (hj : p j = true) : ∃ j, p j = true ∧ ∀ k, p k = true → j ∉ deps k := by
  have hmem : ∀ k, p k = true → k ∈ order.filter p :=
    fun k hk => List.mem_filter.mpr ⟨h.complete k, hk⟩
  have hsorted := h.sorted.filter p
  rcases List.eq_nil_or_concat (order.filter p) with hnil | ⟨front, last, hcut⟩
  · have hnone := hmem j hj
    rw [hnil] at hnone
    cases hnone
  · rw [List.concat_eq_append] at hcut
    have hlast : last ∈ order.filter p := by simp [hcut]
    refine ⟨last, (List.mem_filter.mp hlast).2, fun k hk => ?_⟩
    have hk := hmem k hk
    rw [hcut] at hk hsorted
    rcases List.mem_append.mp hk with hfront | hsame
    · exact (List.pairwise_append.mp hsorted).2.2 k hfront last (List.mem_singleton_self last)
    · obtain rfl := List.mem_singleton.mp hsame
      exact h.irrefl k

end TopologicalOrder

/-! ## Sweeps -/

section Sweep

variable [DecidableEq α]

/-- Visit the points in order, overwriting each with `f` of what has been
computed so far. -/
def sweep (f : α → (α → β) → β) : List α → (α → β) → α → β
  | [], s => s
  | j :: rest, s => sweep f rest (Function.update s j (f j s))

theorem sweep_append (f : α → (α → β) → β) (front back : List α) (s : α → β) :
    sweep f (front ++ back) s = sweep f back (sweep f front s) := by
  induction front generalizing s with
  | nil => rfl
  | cons j front ih => exact ih _

/-- A point that is not visited keeps its value. -/
theorem sweep_of_notMem (f : α → (α → β) → β) {order : List α} {j : α}
    (hj : j ∉ order) (s : α → β) : sweep f order s j = s j := by
  induction order generalizing s with
  | nil => rfl
  | cons k order ih =>
      obtain ⟨hne, hrest⟩ := not_or.mp (fun h => hj (List.mem_cons.mpr h))
      rw [sweep, ih hrest, Function.update_of_ne hne]

/-- A sweep that finds every value as it is leaves all as they are. -/
theorem sweep_of_fixed {f : α → (α → β) → β} {s : α → β} (h : ∀ j, f j s = s j)
    (order : List α) : sweep f order s = s := by
  induction order with
  | nil => rfl
  | cons j order ih => rw [sweep, h j, Function.update_eq_self, ih]

/-- What a sweep computes for a point is one visit of it. -/
theorem exists_sweep_eq (f : α → (α → β) → β) {order : List α} (hnodup : order.Nodup) {j : α}
    (hj : j ∈ order) (s : α → β) : ∃ t, sweep f order s j = f j t := by
  induction order generalizing s with
  | nil => cases hj
  | cons k order ih =>
      obtain ⟨hk, hrest⟩ := List.nodup_cons.mp hnodup
      by_cases hjk : j = k
      · subst hjk
        refine ⟨s, ?_⟩
        rw [sweep, sweep_of_notMem f hk, Function.update_self]
      · exact ih hrest ((List.mem_cons.mp hj).resolve_left hjk) _

/-- **A sweep solves its equations.** Where the right-hand side at `j` reads
only the dependencies of `j` and its own initial value, the value computed for
`j` is that right-hand side at the final values of its dependencies. -/
theorem sweep_apply {deps : α → List α} {order : List α}
    (h : TopologicalOrder deps order) {f : α → (α → β) → β}
    (hlocal : ∀ j s t, (∀ d ∈ deps j, s d = t d) → s j = t j → f j s = f j t)
    (s : α → β) (j : α) :
    sweep f order s j = f j (Function.update (sweep f order s) j (s j)) := by
  obtain ⟨front, back, hcut⟩ := List.append_of_mem (h.complete j)
  have hnodup := hcut ▸ h.nodup
  obtain ⟨-, htail, hdisjoint⟩ := List.nodup_append.mp hnodup
  have hback : j ∉ back := (List.nodup_cons.mp htail).1
  have hfront : j ∉ front := fun hj => hdisjoint j hj j List.mem_cons_self rfl
  have hvalue : sweep f order s j = f j (sweep f front s) := by
    rw [hcut, sweep_append, sweep, sweep_of_notMem f hback, Function.update_self]
  rw [hvalue]
  apply hlocal
  · intro d hd
    have hdfront := h.dep_mem_front hcut hd
    have hne : d ≠ j := fun hdj => hfront (hdj ▸ hdfront)
    have hdtail : d ∉ j :: back := fun hmem => hdisjoint d hdfront d hmem rfl
    rw [Function.update_of_ne hne, hcut, sweep_append, sweep_of_notMem f hdtail]
  · rw [Function.update_self, sweep_of_notMem f hfront]

end Sweep

/-! ## Reachability cut at closed points -/

/-- A point of `base` is reachable from `j` along dependencies, every point of
the path but its last being open. -/
def Reaches (opens : α → Prop) (deps : α → List α) (base : α → Prop) (j : α) : Prop :=
  ∃ b, base b ∧ Relation.ReflTransGen (fun a d => opens a ∧ d ∈ deps a) j b

section Reaches

variable {opens : α → Prop} {deps : α → List α} {base : α → Prop}

theorem Reaches.of_base {j : α} (hj : base j) : Reaches opens deps base j :=
  ⟨j, hj, .refl⟩

theorem Reaches.step {j d : α} (hopen : opens j) (hd : d ∈ deps j)
    (hreach : Reaches opens deps base d) : Reaches opens deps base j := by
  obtain ⟨b, hb, hpath⟩ := hreach
  exact ⟨b, hb, .head ⟨hopen, hd⟩ hpath⟩

/-- Reachability unfolds at its first point. -/
theorem reaches_iff {j : α} :
    Reaches opens deps base j ↔
      base j ∨ (opens j ∧ ∃ d ∈ deps j, Reaches opens deps base d) := by
  constructor
  · rintro ⟨b, hb, hpath⟩
    rcases Relation.ReflTransGen.cases_head hpath with rfl | ⟨d, ⟨hopen, hd⟩, hrest⟩
    · exact Or.inl hb
    · exact Or.inr ⟨hopen, d, hd, b, hb, hrest⟩
  · rintro (hb | ⟨hopen, d, hd, hreach⟩)
    · exact .of_base hb
    · exact hreach.step hopen hd

/-- On a well-founded table the equation determines its solution: it is
reachability. -/
theorem reaches_iff_of_equation (hwf : WellFounded fun d j => d ∈ deps j)
    {p : α → Prop}
    (heq : ∀ j, p j ↔ base j ∨ (opens j ∧ ∃ d ∈ deps j, p d)) (j : α) :
    p j ↔ Reaches opens deps base j := by
  induction j using hwf.induction with
  | _ j ih =>
      rw [heq, reaches_iff]
      refine or_congr Iff.rfl (and_congr Iff.rfl (exists_congr fun d => ?_))
      exact and_congr_right fun hd => ih d hd

/-- Reachability from fewer bases through fewer open points is rarer. -/
theorem Reaches.mono {opens' base' : α → Prop} (hopen : ∀ j, opens j → opens' j)
    (hbase : ∀ j, base j → base' j) {j : α} (h : Reaches opens deps base j) :
    Reaches opens' deps base' j := by
  obtain ⟨b, hb, hpath⟩ := h
  exact ⟨b, hbase b hb, hpath.lift id fun a _ had => ⟨hopen a had.1, had.2⟩⟩

/-- A path runs through open points and ends in a base, so only the dependencies
among those matter. -/
theorem reaches_congr {deps' : α → List α} {p : α → Prop}
    (hbase : ∀ j, base j → p j) (hopen : ∀ j, opens j → p j)
    (hdeps : ∀ j d, opens j → (d ∈ deps' j ↔ p d ∧ d ∈ deps j)) (j : α) :
    Reaches opens deps' base j ↔ Reaches opens deps base j := by
  constructor
  · rintro ⟨b, hb, hpath⟩
    refine ⟨b, hb, hpath.lift id fun a d had => ?_⟩
    exact ⟨had.1, ((hdeps a d had.1).mp had.2).2⟩
  · rintro ⟨b, hb, hpath⟩
    induction hpath using Relation.ReflTransGen.head_induction_on with
    | refl => exact .of_base hb
    | @head a d hedge _ ih =>
        have hp : p d := by
          rcases reaches_iff.mp ih with hd | ⟨hd, -⟩
          · exact hbase d hd
          · exact hopen d hd
        exact ih.step hedge.1 ((hdeps a d hedge.1).mpr ⟨hp, hedge.2⟩)

end Reaches

/-- A solution of `p j ↔ able j ∧ ∃ d ∈ reads j, bad d ∨ p d` on a well-founded
table is the least set closed under that rule. -/
theorem isLeast_of_equation {deps reads : α → List α} {able bad p : α → Prop}
    (hwf : WellFounded fun d j => d ∈ deps j)
    (hreads : ∀ j, ∀ d ∈ reads j, d ∈ deps j)
    (heq : ∀ j, p j ↔ able j ∧ ∃ d ∈ reads j, bad d ∨ p d) :
    IsLeast {T : Set α | ∀ j, able j → (∃ d ∈ reads j, bad d ∨ d ∈ T) → j ∈ T}
      {j | p j} := by
  constructor
  · intro j hable hex
    exact (heq j).mpr ⟨hable, hex⟩
  · intro T hclosed j hj
    induction j using hwf.induction with
    | _ j ih =>
        obtain ⟨hable, d, hd, hbad⟩ := (heq j).mp hj
        refine hclosed j hable ⟨d, hd, hbad.imp_right fun hpd => ?_⟩
        exact ih d (hreads j d hd) hpd

/-! ## Spreads -/

section Spread

variable [DecidableEq α]

/-- Visit the points in order; each one marked and open marks its targets. -/
def spread (opens : α → Bool) (targets : α → List α) :
    List α → (α → Bool) → α → Bool
  | [], s => s
  | j :: rest, s =>
      spread opens targets rest
        (if s j && opens j then fun k => s k || (targets j).contains k else s)

variable {opens : α → Bool} {targets : α → List α}

/-- Marks are never taken back. -/
theorem spread_of_marked {order : List α} {s : α → Bool} {k : α} (hk : s k = true) :
    spread opens targets order s k = true := by
  induction order generalizing s with
  | nil => exact hk
  | cons j order ih =>
      apply ih
      split
      · simp [hk]
      · exact hk

/-- What is marked in the end is reachable from an initial mark. -/
theorem exists_path_of_spread {order : List α} {s : α → Bool} {k : α}
    (hk : spread opens targets order s k = true) :
    ∃ a, s a = true ∧
      Relation.ReflTransGen (fun a d => opens a = true ∧ d ∈ targets a) a k := by
  induction order generalizing s with
  | nil => exact ⟨k, hk, .refl⟩
  | cons j order ih =>
      obtain ⟨a, ha, hpath⟩ := ih hk
      split at ha
      case isTrue hmarked =>
        obtain ⟨hj, hopen⟩ := Bool.and_eq_true_iff.mp hmarked
        rcases Bool.or_eq_true_iff.mp ha with ha | ha
        · exact ⟨a, ha, hpath⟩
        · have hmem : a ∈ targets j := by simpa using ha
          exact ⟨j, hj, .head ⟨hopen, hmem⟩ hpath⟩
      case isFalse => exact ⟨a, ha, hpath⟩

/-- A point none of the visited points targets keeps its mark as it was. -/
theorem spread_of_untargeted {order : List α} {k : α}
    (hk : ∀ j ∈ order, k ∉ targets j) (s : α → Bool) :
    spread opens targets order s k = s k := by
  induction order generalizing s with
  | nil => rfl
  | cons j order ih =>
      obtain ⟨hj, hrest⟩ := List.forall_mem_cons.mp hk
      rw [spread, ih hrest]
      split
      · simp [hj]
      · rfl

theorem spread_append (front back : List α) (s : α → Bool) :
    spread opens targets (front ++ back) s =
      spread opens targets back (spread opens targets front s) := by
  induction front generalizing s with
  | nil => rfl
  | cons j front ih => exact ih _

/-- **A spread against the order marks what is reachable.** Visited dependents
first, each point's mark is final when it is visited, so one pass closes the
marks under the dependencies of open points. -/
theorem spread_iff {deps : α → List α} {order : List α}
    (h : TopologicalOrder deps order) (opens s : α → Bool) (k : α) :
    spread opens deps order.reverse s k = true ↔
      ∃ a, s a = true ∧
        Relation.ReflTransGen (fun a d => opens a = true ∧ d ∈ deps a) a k := by
  refine ⟨exists_path_of_spread, ?_⟩
  rintro ⟨a, ha, hpath⟩
  induction hpath with
  | refl => exact spread_of_marked ha
  | @tail a d _ hedge ih =>
      obtain ⟨hopen, hd⟩ := hedge
      obtain ⟨front, back, hcut⟩ := List.append_of_mem (h.complete a)
      have hrev : order.reverse = back.reverse ++ (a :: front.reverse) := by
        simp [hcut]
      -- The points visited after `a` come before it in the order: none targets it.
      have hlate : ∀ j ∈ front.reverse, a ∉ deps j := by
        intro j hj
        have hsorted := List.pairwise_append.mp (hcut ▸ h.sorted)
        exact hsorted.2.2 j (List.mem_reverse.mp hj) a List.mem_cons_self
      rw [hrev, spread_append, spread, spread_of_untargeted hlate] at ih
      rw [hrev, spread_append, spread]
      apply spread_of_marked
      have hmarked : spread opens deps back.reverse s a = true := by
        split at ih
        case isTrue hboth => exact (Bool.and_eq_true_iff.mp hboth).1
        case isFalse => exact ih
      simp [hmarked, hopen, hd]

end Spread

end DependencyOrder
