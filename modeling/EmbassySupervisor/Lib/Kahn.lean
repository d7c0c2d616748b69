/-
# Kahn's algorithm

Every point starts with a count of what it waits for. A point whose count is down to nothing
is queued; producing a queued point counts down the points that wait for it. The count a
point starts with is a parameter of its own: where it is the number of points waited for, the
order produced is a topological one, and where it is more, the point is never produced.

`produce_eq` gives a round in closed form, `Sound` is what holds after each, and
`complete_iff` says when every point of a well-founded table is produced. The points and the
table are arbitrary.
-/

import EmbassySupervisor.Lib.DependencyOrder
import Mathlib.Data.Fintype.Card
import Mathlib.Data.List.Nodup
import Mathlib.Data.List.Perm.Subperm
import Mathlib.Logic.Function.Basic
import Mathlib.Order.WellFounded

namespace Kahn

open DependencyOrder

universe u

variable {α : Type u} [DecidableEq α]

/-- The points, the count each starts with, and who waits for whom. -/
structure Table (α : Type u) where
  points : List α
  nodup : points.Nodup
  complete : ∀ j, j ∈ points
  weight : α → ℕ
  waits : α → α → Bool

/-- The counts, the points queued so far, and those of them that have been produced. -/
structure State (α : Type u) where
  left : α → ℕ
  queue : List α
  order : List α := []

variable (t : Table α)

/-- The points that start with nothing left are queued. -/
def seed : State α where
  left := t.weight
  queue := t.points.filter fun j => t.weight j == 0

/-- Count down a point that waits for the one produced. -/
def relax (node : α) (s : State α) (j : α) : State α :=
  if s.left j != 0 && t.waits j node then
    { s with
      left := Function.update s.left j (s.left j - 1)
      queue := if s.left j - 1 == 0 then s.queue ++ [j] else s.queue }
  else s

def produce (s : State α) (node : α) : State α :=
  t.points.foldl (relax t node) { s with order := s.order ++ [node] }

/-- Produce points as long as the queue has any left. -/
def drain : ℕ → State α → State α
  | 0, s => s
  | fuel + 1, s =>
    match s.queue[s.order.length]? with
    | none => s
    | some node => drain fuel (produce t s node)

def run : State α := drain t t.points.length (seed t)

variable {t}

/-! ## A round -/

/-- The points counted down so far are the ones gone through. -/
theorem foldl_relax {node : α} {js : List α} (hnodup : js.Nodup) (s : State α) :
    js.foldl (relax t node) s =
      { left := fun j => if j ∈ js ∧ t.waits j node = true then s.left j - 1 else s.left j
        queue := s.queue ++ js.filter fun j => s.left j == 1 && t.waits j node
        order := s.order } := by
  induction js generalizing s with
  | nil => simp
  | cons i js ih =>
      obtain ⟨hnotMem, hrest⟩ := List.nodup_cons.mp hnodup
      have hne : ∀ j ∈ js, j ≠ i := by
        rintro j hj rfl
        exact hnotMem hj
      rw [List.foldl_cons, ih hrest]
      by_cases hdue : (s.left i != 0 && t.waits i node) = true
      · obtain ⟨hleft, hwaits⟩ := Bool.and_eq_true_iff.mp hdue
        have hfilter : (js.filter fun j =>
            Function.update s.left i (s.left i - 1) j == 1 && t.waits j node) =
              js.filter fun j => s.left j == 1 && t.waits j node := by
          apply List.filter_congr
          intro j hj
          rw [Function.update_of_ne (hne j hj)]
        simp only [relax, if_pos hdue, hfilter, State.mk.injEq, and_true]
        constructor
        · funext j
          by_cases hj : j = i
          · subst hj
            simp [hnotMem, hwaits]
          · simp [hj]
        · have hone : (s.left i - 1 == 0) = (s.left i == 1) := by
            have hpos : s.left i ≠ 0 := by simpa using hleft
            rw [Bool.eq_iff_iff, beq_iff_eq, beq_iff_eq]
            omega
          by_cases hlast : s.left i = 1
          · simp [hlast, hwaits]
          · simp [hone, hlast]
      · simp only [relax, if_neg hdue, State.mk.injEq, and_true]
        have hkept : t.waits i node = true → s.left i = 0 := by
          intro hwaits
          simpa [hwaits] using hdue
        constructor
        · funext j
          by_cases hj : j = i
          · subst hj
            by_cases hwaits : t.waits j node = true
            · simp [hnotMem, hkept hwaits]
            · simp [hwaits]
          · simp [hj]
        · have hskip : (s.left i == 1 && t.waits i node) = false := by
            by_cases hwaits : t.waits i node = true
            · simp [hkept hwaits]
            · simp [hwaits]
          simp [hskip]

/-- **A round in closed form.** -/
theorem produce_eq (s : State α) (node : α) :
    produce t s node =
      { left := fun j => if t.waits j node = true then s.left j - 1 else s.left j
        queue := s.queue ++ t.points.filter fun j => s.left j == 1 && t.waits j node
        order := s.order ++ [node] } := by
  rw [produce, foldl_relax t.nodup]
  simp [t.complete]

/-! ## What holds after every round -/

/-- A point is queued once and when its count is down to nothing, on the points produced by
then; the points produced are the first of the queue. -/
structure Sound (t : Table α) (s : State α) : Prop where
  nodup : s.queue.Nodup
  mem_queue : ∀ j, j ∈ s.queue ↔ s.left j = 0
  produced : s.order <+: s.queue
  left_eq : ∀ j, s.left j = t.weight j - s.order.countP (t.waits j)
  enough : ∀ front j back, s.queue = front ++ j :: back →
    t.weight j ≤ front.countP (t.waits j)

omit [DecidableEq α] in
theorem sound_seed : Sound t (seed t) where
  nodup := t.nodup.filter _
  mem_queue j := by simp [seed, t.complete]
  produced := List.nil_prefix
  left_eq j := by simp [seed]
  enough front j back h := by
    have hmem : j ∈ (seed t).queue := by simp [h]
    have hzero : t.weight j = 0 := by simpa [seed, t.complete] using hmem
    omega

/-- The next point of the queue is produced. -/
theorem Sound.produce {s : State α} (hs : Sound t s) {node : α}
    (hnode : s.queue[s.order.length]? = some node) : Sound t (produce t s node) := by
  rw [produce_eq]
  have hnext : s.order ++ [node] <+: s.queue := by
    have htake := List.prefix_iff_eq_take.mp hs.produced
    have hcut : s.queue.take (s.order.length + 1) = s.order ++ [node] := by
      rw [List.take_add_one, ← htake, hnode]
      rfl
    rw [← hcut]
    exact List.take_prefix _ _
  have hcount : ∀ j, (s.order ++ [node]).countP (t.waits j) =
      s.order.countP (t.waits j) + if t.waits j node then 1 else 0 := by
    intro j
    simp [List.countP_append, List.countP_singleton]
  have hleft : ∀ j, (if t.waits j node = true then s.left j - 1 else s.left j) =
      t.weight j - (s.order ++ [node]).countP (t.waits j) := by
    intro j
    rw [hcount j, hs.left_eq j]
    split <;> omega
  refine ⟨?_, fun j => ?_, hnext.trans (List.prefix_append _ _), hleft, ?_⟩
  · refine List.nodup_append'.mpr ⟨hs.nodup, t.nodup.filter _, ?_⟩
    intro j hqueued hfresh
    have hzero := (hs.mem_queue j).mp hqueued
    simp [hzero] at hfresh
  · simp only [List.mem_append, hs.mem_queue, List.mem_filter, t.complete, true_and,
      Bool.and_eq_true, beq_iff_eq]
    by_cases hwaits : t.waits j node = true
    · rw [if_pos hwaits]
      constructor
      · rintro (hzero | ⟨hone, -⟩) <;> omega
      · intro hzero
        by_cases h : s.left j = 0
        · exact Or.inl h
        · exact Or.inr ⟨by omega, hwaits⟩
    · simp [hwaits]
  · intro front j back hcut
    rcases List.append_eq_append_iff.mp hcut with ⟨fresh, rfl, hfresh⟩ | ⟨rest, hqueue, hrest⟩
    · -- the point was queued in this round, on everything produced by then
      have hmem : j ∈ t.points.filter fun j => s.left j == 1 && t.waits j node := by
        simp [hfresh]
      have hlast : s.left j = 1 ∧ t.waits j node = true := by
        simpa [t.complete] using hmem
      have hdone := hleft j
      rw [if_pos hlast.2, hlast.1] at hdone
      have hfront : (s.order ++ [node]).countP (t.waits j) ≤
          (s.queue ++ fresh).countP (t.waits j) :=
        (hnext.trans (List.prefix_append _ _)).sublist.countP_le
      omega
    · cases rest with
      | nil =>
          have hmem : j ∈ t.points.filter fun j => s.left j == 1 && t.waits j node := by
            rw [List.nil_append] at hrest
            simp [← hrest]
          have hlast : s.left j = 1 ∧ t.waits j node = true := by
            simpa [t.complete] using hmem
          have hdone := hleft j
          rw [if_pos hlast.2, hlast.1] at hdone
          rw [List.append_nil] at hqueue
          have hfront : (s.order ++ [node]).countP (t.waits j) ≤ front.countP (t.waits j) :=
            hqueue ▸ hnext.sublist.countP_le
          omega
      | cons i rest =>
          obtain ⟨rfl, -⟩ := List.cons_eq_cons.mp (by simpa using hrest)
          exact hs.enough front _ rest hqueue

/-! ## The run -/

omit [DecidableEq α] in
theorem length_queue_le {s : State α} (hs : Sound t s) : s.queue.length ≤ t.points.length :=
  (List.subperm_of_subset hs.nodup fun j _ => t.complete j).length_le

theorem sound_drain {s : State α} (hs : Sound t s) (fuel : ℕ) : Sound t (drain t fuel s) := by
  induction fuel generalizing s with
  | zero => exact hs
  | succ fuel ih =>
      unfold drain
      cases hnode : s.queue[s.order.length]? with
      | none => exact hs
      | some node => exact ih (hs.produce hnode)

/-- With a round for every point the whole queue is produced. -/
theorem order_drain {s : State α} (hs : Sound t s) {fuel : ℕ}
    (hfuel : t.points.length ≤ s.order.length + fuel) :
    (drain t fuel s).order = (drain t fuel s).queue := by
  have hall : ∀ {s : State α}, Sound t s → s.queue.length ≤ s.order.length →
      s.order = s.queue := fun hs hle => hs.produced.eq_of_length_le hle
  induction fuel generalizing s with
  | zero => exact hall hs ((length_queue_le hs).trans hfuel)
  | succ fuel ih =>
      unfold drain
      cases hnode : s.queue[s.order.length]? with
      | none => exact hall hs (List.getElem?_eq_none_iff.mp hnode)
      | some node =>
          apply ih (hs.produce hnode)
          rw [produce_eq]
          simp only [List.length_append, List.length_singleton]
          omega

variable (t) in
theorem sound_run : Sound t (run t) := sound_drain sound_seed _

variable (t) in
theorem order_run : (run t).order = (run t).queue :=
  order_drain sound_seed (by simp [seed])

variable (t) in
theorem nodup_order : (run t).order.Nodup := order_run t ▸ (sound_run t).nodup

/-- A point is produced after enough of the points it waits for. -/
theorem enough_run {front back : List α} {j : α} (hcut : (run t).order = front ++ j :: back) :
    t.weight j ≤ front.countP (t.waits j) :=
  (sound_run t).enough front j back (order_run t ▸ hcut)

omit [DecidableEq α] in
/-- A list without repetitions counts no more than one that has what it counts. -/
theorem countP_le_of_nodup {l l' : List α} {p : α → Bool} (hl : l.Nodup)
    (h : ∀ d ∈ l, p d = true → d ∈ l') : l.countP p ≤ l'.countP p := by
  rw [List.countP_eq_length_filter, List.countP_eq_length_filter]
  apply List.Subperm.length_le
  apply List.subperm_of_subset (hl.filter p)
  intro d hd
  obtain ⟨hmem, hp⟩ := List.mem_filter.mp hd
  exact List.mem_filter.mpr ⟨h d hmem hp, hp⟩

theorem nodup_front {front back : List α} {j : α} (hcut : (run t).order = front ++ j :: back) :
    front.Nodup := by
  have hnodup := nodup_order t
  rw [hcut] at hnodup
  exact (List.nodup_append'.mp hnodup).1

/-- **When every point is produced.** Where no point waits for itself in the end, it takes
that no count exceeds the number of points waited for. -/
theorem complete_iff (hwf : WellFounded fun d j => t.waits j d = true) :
    (∀ j, j ∈ (run t).order) ↔ ∀ j, t.weight j ≤ t.points.countP (t.waits j) := by
  constructor
  · intro hall j
    obtain ⟨front, back, hcut⟩ := List.append_of_mem (hall j)
    exact (enough_run hcut).trans
      (countP_le_of_nodup (nodup_front hcut) fun d _ _ => t.complete d)
  · intro hweight j
    induction j using hwf.induction with
    | _ j ih =>
      have hcount : t.points.countP (t.waits j) ≤ (run t).order.countP (t.waits j) :=
        countP_le_of_nodup t.nodup fun d _ hwaits => ih d hwaits
      have hle := hweight j
      rw [order_run t, (sound_run t).mem_queue, (sound_run t).left_eq j]
      omega

/-- Where no count is less than the number of points waited for, each of them is produced
before the point itself. -/
theorem before_of_waits (hweight : ∀ j, t.points.countP (t.waits j) ≤ t.weight j)
    {front back : List α} {j d : α} (hcut : (run t).order = front ++ j :: back)
    (hwaits : t.waits j d = true) : d ∈ front := by
  by_contra hout
  -- the front would have all of them but one
  have hless : (d :: front).countP (t.waits j) ≤ t.points.countP (t.waits j) :=
    countP_le_of_nodup (List.nodup_cons.mpr ⟨hout, nodup_front hcut⟩) fun i _ _ => t.complete i
  rw [List.countP_cons_of_pos hwaits] at hless
  have henough := enough_run hcut
  have hle := hweight j
  omega

omit [DecidableEq α] in
/-- On finitely many points well-founded says acyclic. -/
theorem wellFounded_iff_acyclic [Finite α] {r : α → α → Prop} :
    WellFounded r ↔ ∀ j, ¬ Relation.TransGen r j j := by
  constructor
  · intro hwf j hcycle
    exact hwf.transGen.irrefl.irrefl j hcycle
  · intro hacyclic
    have : IsTrans α (Relation.TransGen r) := ⟨fun _ _ _ => Relation.TransGen.trans⟩
    have : Std.Irrefl (Relation.TransGen r) := ⟨hacyclic⟩
    exact Subrelation.wf Relation.TransGen.single
      (Finite.wellFounded_of_trans_of_irrefl (Relation.TransGen r))

/-- **The order is a topological one** where every point is produced and no count is less than
the number of points waited for. -/
theorem topologicalOrder {deps : α → List α} (hwaits : ∀ j d, t.waits j d = true ↔ d ∈ deps j)
    (hweight : ∀ j, t.points.countP (t.waits j) ≤ t.weight j)
    (hall : ∀ j, j ∈ (run t).order) : TopologicalOrder deps (run t).order where
  nodup := nodup_order t
  complete := hall
  sorted := by
    rw [List.pairwise_iff_getElem]
    intro i k hi hk hik hdep
    have hcut : (run t).order =
        (run t).order.take i ++ (run t).order[i] :: (run t).order.drop (i + 1) := by
      rw [List.getElem_cons_drop, List.take_append_drop]
    obtain ⟨l, hl, hsame⟩ := List.mem_take_iff_getElem.mp
      (before_of_waits hweight hcut ((hwaits _ _).mpr hdep))
    have heq := (nodup_order t).getElem_inj_iff.mp hsame
    omega
  irrefl j hdep := by
    obtain ⟨front, back, hcut⟩ := List.append_of_mem (hall j)
    have hfront := before_of_waits hweight hcut ((hwaits j j).mpr hdep)
    have hnodup := nodup_order t
    rw [hcut] at hnodup
    exact (List.nodup_append'.mp hnodup).2.2 hfront (List.mem_cons_self ..)

end Kahn
