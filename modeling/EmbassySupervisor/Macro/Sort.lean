/-
# The sort over bytes

`topo_sort_const` as it is written: arrays of as many bytes as there are slots, a length cast
to a byte for each row, and a queue between two indices. Every index is checked, and so is
the one subtraction, so a run that leaves an array or a byte shows as `overflow`.

The arrays keep step with Kahn's algorithm on slots (`Tracks`), whose queue holds no slot
twice; that is why no check fails, on any rows (`topoSortConst_tracks`). What the sort makes of
rows that are in range and free of duplicates is `topo_sort_const_sorts`.
-/

import EmbassySupervisor.Lib.Kahn
import EmbassySupervisor.Macro.Topology
import Mathlib.Data.Finset.Card
import Mathlib.Data.Fintype.EquivFin

namespace EmbassySupervisor

open DependencyOrder Relation

variable {n : ℕ}

/-- How the sort fails: too many slots, slots left over in the end, or an index or a
counter that leaves its range. -/
inductive SortFault
  | tooMany
  | cycle
  | overflow
  deriving DecidableEq, Repr

structure SortArrays (n : ℕ) where
  inDegree : Fin n → UInt8
  queue : Fin n → UInt8 := fun _ => 0
  tail : ℕ := 0
  order : Fin n → UInt8 := fun _ => 0
  produced : ℕ := 0
  head : ℕ := 0

namespace SortArrays

variable (deps : Fin n → List UInt8)

def read (a : Fin n → UInt8) (i : ℕ) : Except SortFault UInt8 :=
  if h : i < n then .ok (a ⟨i, h⟩) else .error .overflow

def write (a : Fin n → UInt8) (i : ℕ) (x : UInt8) : Except SortFault (Fin n → UInt8) :=
  if h : i < n then .ok (Function.update a ⟨i, h⟩ x) else .error .overflow

def decrement (x : UInt8) : Except SortFault UInt8 :=
  if x = 0 then .error .overflow else .ok (x - 1)

/-- Queue a slot. -/
def push (s : SortArrays n) (j : Fin n) : Except SortFault (SortArrays n) := do
  let queue ← write s.queue s.tail (UInt8.ofNat j)
  return { s with queue, tail := s.tail + 1 }

/-- The queue is seeded with the slots whose byte is zero. -/
def seed : Except SortFault (SortArrays n) :=
  (List.finRange n).foldlM (fun s j => if s.inDegree j = 0 then s.push j else .ok s)
    { inDegree := fun j => UInt8.ofNat (deps j).length }

/-- Whether a row names a slot. -/
def depends (node : ℕ) (j : Fin n) : Bool := (deps j).any fun d => d.toNat == node

/-- Count down a slot that depends on the one just produced. -/
def relax (node : ℕ) (s : SortArrays n) (j : Fin n) : Except SortFault (SortArrays n) :=
  if s.inDegree j ≠ 0 ∧ depends deps node j = true then do
    let left ← decrement (s.inDegree j)
    let s := { s with inDegree := Function.update s.inDegree j left }
    if left = 0 then s.push j else return s
  else return s

/-- Produce the slot at the head of the queue. -/
def produce (s : SortArrays n) : Except SortFault (SortArrays n) := do
  let node ← read s.queue s.head
  let order ← write s.order s.produced node
  (List.finRange n).foldlM (relax deps node.toNat)
    { s with head := s.head + 1, order, produced := s.produced + 1 }

/-- Produce slots until the queue is empty; as many rounds as there are slots, and a queue
that is not empty then is a fault. -/
def drain : ℕ → SortArrays n → Except SortFault (SortArrays n)
  | 0, s => if s.head < s.tail then .error .overflow else .ok s
  | fuel + 1, s => if s.head < s.tail then (s.produce deps).bind (drain fuel) else .ok s

end SortArrays

/-- `topo_sort_const`. -/
def topoSortConst (deps : Fin n → List UInt8) : Except SortFault (Fin n → UInt8) :=
  if n ≤ 256 then do
    let s ← SortArrays.seed deps
    let s ← SortArrays.drain deps n s
    if s.produced ≠ n then .error .cycle else return s.order
  else .error .tooMany

namespace SortArrays

/-! ## The arrays keep step with the algorithm -/

/-- The table the sort works on: a byte for each row's length, and who names whom. -/
def table (deps : Fin n → List UInt8) : Kahn.Table (Fin n) where
  points := List.finRange n
  nodup := List.nodup_finRange n
  complete := List.mem_finRange
  weight j := (deps j).length % 2 ^ 8
  waits j d := depends deps d j

/-- The arrays hold a state of the algorithm. -/
structure Tracks (a : SortArrays n) (s : Kahn.State (Fin n)) : Prop where
  inDegree : ∀ j, (a.inDegree j).toNat = s.left j
  tail : a.tail = s.queue.length
  queue : ∀ (i : Fin n) j, s.queue[i.val]? = some j → (a.queue i).toNat = j
  head : a.head = s.order.length
  produced : a.produced = s.order.length
  order : ∀ (i : Fin n) j, s.order[i.val]? = some j → (a.order i).toNat = j

variable {deps : Fin n → List UInt8} {a : SortArrays n} {s : Kahn.State (Fin n)}

theorem length_queue_le (hs : Kahn.Sound (table deps) s) : s.queue.length ≤ n :=
  (Kahn.length_queue_le hs).trans_eq List.length_finRange

theorem toNat_ofNat_slot (hn : n ≤ 256) (j : Fin n) : (UInt8.ofNat j).toNat = j := by
  rw [UInt8.toNat_ofNat']
  exact Nat.mod_eq_of_lt (j.isLt.trans_le hn)

/-- An entry of an array that has just been extended. -/
theorem getElem?_update {list : List (Fin n)} {b : Fin n → UInt8} {x : UInt8} {j : Fin n}
    (hlist : ∀ (i : Fin n) k, list[i.val]? = some k → (b i).toNat = k) (hx : x.toNat = j)
    (hlt : list.length < n) (i k : Fin n) (h : (list ++ [j])[i.val]? = some k) :
    (Function.update b ⟨list.length, hlt⟩ x i).toNat = k := by
  by_cases hi : i = ⟨list.length, hlt⟩
  · subst hi
    rw [List.getElem?_concat_length] at h
    cases h
    rw [Function.update_self, hx]
  · rw [Function.update_of_ne hi]
    apply hlist
    have hne : i.val ≠ list.length := fun heq => hi (Fin.ext heq)
    rw [← h, List.getElem?_append]
    split
    · rfl
    · rw [List.getElem?_eq_none (by omega), List.getElem?_eq_none (by simp; omega)]

/-- There is room in the queue for a slot that is not in it. -/
theorem Tracks.push (hn : n ≤ 256) (ha : Tracks a s) (j : Fin n) (hroom : s.queue.length < n) :
    ∃ b, a.push j = .ok b ∧ Tracks b { s with queue := s.queue ++ [j] } := by
  have hwrite : write a.queue a.tail (UInt8.ofNat j) =
      .ok (Function.update a.queue ⟨s.queue.length, hroom⟩ (UInt8.ofNat j)) := by
    simp [write, ha.tail, hroom]
  refine ⟨{ a with
    queue := Function.update a.queue ⟨s.queue.length, hroom⟩ (UInt8.ofNat j)
    tail := a.tail + 1 }, ?_, ha.inDegree, ?_, ?_, ha.head, ha.produced, ha.order⟩
  · rw [SortArrays.push, hwrite]
    rfl
  · simp [ha.tail]
  · exact getElem?_update ha.queue (toNat_ofNat_slot hn j) hroom

theorem seed_tracks (hn : n ≤ 256) :
    ∃ b, seed deps = .ok b ∧ Tracks b (Kahn.seed (table deps)) := by
  have hfold : ∀ (js : List (Fin n)) (a : SortArrays n) (s : Kahn.State (Fin n)), Tracks a s →
      (s.queue ++ js.filter fun j => s.left j == 0).length ≤ n →
      ∃ b, js.foldlM (fun s j => if s.inDegree j = 0 then s.push j else .ok s) a = .ok b ∧
        Tracks b { s with queue := s.queue ++ js.filter fun j => s.left j == 0 } := by
    intro js
    induction js with
    | nil =>
        intro a s ha _
        exact ⟨a, rfl, by simpa using ha⟩
    | cons j js ih =>
        intro a s ha hroom
        have hbyte : a.inDegree j = 0 ↔ s.left j = 0 := by
          rw [← ha.inDegree j, ← UInt8.toNat_inj]
          rfl
        by_cases hzero : s.left j = 0
        · have hcut : s.queue ++ (j :: js).filter (fun j => s.left j == 0) =
              (s.queue ++ [j]) ++ js.filter fun j => s.left j == 0 := by
            simp [hzero]
          rw [hcut] at hroom ⊢
          obtain ⟨b, hpush, hb⟩ := ha.push hn j (by simp at hroom; omega)
          obtain ⟨c, hrest, hc⟩ := ih b _ hb hroom
          refine ⟨c, ?_, hc⟩
          rw [List.foldlM_cons, if_pos (hbyte.mpr hzero), hpush]
          exact hrest
        · have hcut : (j :: js).filter (fun j => s.left j == 0) =
              js.filter fun j => s.left j == 0 := by
            simp [hzero]
          rw [hcut] at hroom ⊢
          obtain ⟨c, hrest, hc⟩ := ih a s ha hroom
          refine ⟨c, ?_, hc⟩
          rw [List.foldlM_cons, if_neg fun h => hzero (hbyte.mp h)]
          exact hrest
  have hstart : Tracks { inDegree := fun j => UInt8.ofNat (deps j).length }
      { left := (table deps).weight, queue := [] } :=
    ⟨fun j => UInt8.toNat_ofNat', rfl, by simp, rfl, rfl, by simp⟩
  apply hfold _ _ _ hstart
  have hsound : Kahn.Sound (table deps) (Kahn.seed (table deps)) := Kahn.sound_seed
  exact length_queue_le hsound

theorem relax_tracks (hn : n ≤ 256) (ha : Tracks a s) {node j : Fin n}
    (hroom : (Kahn.relax (table deps) node s j).queue.length ≤ n) :
    ∃ b, relax deps node a j = .ok b ∧ Tracks b (Kahn.relax (table deps) node s j) := by
  have hbyte : a.inDegree j ≠ 0 ↔ (s.left j != 0) = true := by
    rw [bne_iff_ne, ← ha.inDegree j, Ne, ← UInt8.toNat_inj]
    rfl
  by_cases hdue : (s.left j != 0 && (table deps).waits j node) = true
  · obtain ⟨hleft, hwaits⟩ := Bool.and_eq_true_iff.mp hdue
    have hne := hbyte.mpr hleft
    have hdecrement : decrement (a.inDegree j) = .ok (a.inDegree j - 1) := if_neg hne
    have hpred : (a.inDegree j - 1).toNat = s.left j - 1 := by
      rw [← ha.inDegree j]
      apply UInt8.toNat_sub_of_le
      rw [UInt8.le_iff_toNat_le, ha.inDegree j]
      have hpos : s.left j ≠ 0 := by simpa using hleft
      exact Nat.one_le_iff_ne_zero.mpr hpos
    have hcounted : Tracks
        { a with inDegree := Function.update a.inDegree j (a.inDegree j - 1) }
        { s with left := Function.update s.left j (s.left j - 1) } := by
      refine ⟨fun i => ?_, ha.tail, ha.queue, ha.head, ha.produced, ha.order⟩
      by_cases hi : i = j
      · subst hi
        simpa using hpred
      · simpa [hi] using ha.inDegree i
    have hstep : relax deps node a j =
        if a.inDegree j - 1 = 0 then
          push { a with inDegree := Function.update a.inDegree j (a.inDegree j - 1) } j
        else .ok { a with inDegree := Function.update a.inDegree j (a.inDegree j - 1) } := by
      rw [relax, if_pos ⟨hne, hwaits⟩, hdecrement]
      rfl
    have hlast : a.inDegree j - 1 = 0 ↔ s.left j - 1 = 0 := by
      rw [← hpred, ← UInt8.toNat_inj]
      rfl
    rw [hstep]
    simp only [Kahn.relax, if_pos hdue] at hroom ⊢
    by_cases hdone : s.left j - 1 = 0
    · rw [if_pos (hlast.mpr hdone)]
      have hqueued : (if s.left j - 1 == 0 then s.queue ++ [j] else s.queue) = s.queue ++ [j] :=
        if_pos (beq_iff_eq.mpr hdone)
      rw [hqueued] at hroom ⊢
      rw [List.length_append, List.length_singleton] at hroom
      exact hcounted.push hn j hroom
    · rw [if_neg fun h => hdone (hlast.mp h)]
      have hmore : (s.left j - 1 == 0) = false := by simpa using hdone
      simp only [hmore]
      exact ⟨_, rfl, hcounted⟩
  · have hskip : ¬ (a.inDegree j ≠ 0 ∧ depends deps node j = true) := by
      rintro ⟨hne, hwaits⟩
      exact hdue (Bool.and_eq_true_iff.mpr ⟨hbyte.mp hne, hwaits⟩)
    refine ⟨a, by rw [relax, if_neg hskip]; rfl, ?_⟩
    rw [Kahn.relax, if_neg hdue]
    exact ha

theorem foldlM_tracks (hn : n ≤ 256) {node : Fin n} {js : List (Fin n)} (hjs : js.Nodup)
    (ha : Tracks a s) (hroom : (js.foldl (Kahn.relax (table deps) node) s).queue.length ≤ n) :
    ∃ b, js.foldlM (relax deps node) a = .ok b ∧
      Tracks b (js.foldl (Kahn.relax (table deps) node) s) := by
  induction js generalizing a s with
  | nil => exact ⟨a, rfl, ha⟩
  | cons j js ih =>
      rw [List.foldl_cons] at hroom ⊢
      have hrest := (List.nodup_cons.mp hjs).2
      have hfirst : (Kahn.relax (table deps) node s j).queue.length ≤ n := by
        rw [Kahn.foldl_relax hrest, List.length_append] at hroom
        omega
      obtain ⟨b, hstep, hb⟩ := relax_tracks hn ha hfirst
      obtain ⟨c, hfold, hc⟩ := ih hrest hb hroom
      refine ⟨c, ?_, hc⟩
      rw [List.foldlM_cons, hstep]
      exact hfold

/-- **A round keeps step.** -/
theorem produce_tracks (hn : n ≤ 256) (ha : Tracks a s) (hs : Kahn.Sound (table deps) s)
    {node : Fin n} (hnode : s.queue[s.order.length]? = some node) :
    ∃ b, a.produce deps = .ok b ∧ Tracks b (Kahn.produce (table deps) s node) := by
  have hlt : s.order.length < n :=
    (List.getElem?_eq_some_iff.mp hnode).1.trans_le (length_queue_le hs)
  have hread : read a.queue a.head = .ok (a.queue ⟨s.order.length, hlt⟩) := by
    simp [read, ha.head, hlt]
  have hslot : (a.queue ⟨s.order.length, hlt⟩).toNat = node := ha.queue _ _ hnode
  have hwrite : write a.order a.produced (a.queue ⟨s.order.length, hlt⟩) =
      .ok (Function.update a.order ⟨s.order.length, hlt⟩ (a.queue ⟨s.order.length, hlt⟩)) := by
    simp [write, ha.produced, hlt]
  have hstart : Tracks
      { a with
        head := a.head + 1
        order := Function.update a.order ⟨s.order.length, hlt⟩ (a.queue ⟨s.order.length, hlt⟩)
        produced := a.produced + 1 }
      { s with order := s.order ++ [node] } :=
    ⟨ha.inDegree, ha.tail, ha.queue, by simp [ha.head], by simp [ha.produced],
      getElem?_update ha.order hslot hlt⟩
  have hroom : (Kahn.produce (table deps) s node).queue.length ≤ n :=
    length_queue_le (hs.produce hnode)
  obtain ⟨b, hfold, hb⟩ := foldlM_tracks hn (List.nodup_finRange n) hstart hroom
  refine ⟨b, ?_, hb⟩
  rw [SortArrays.produce, hread]
  simp only [bind, Except.bind, hwrite, hslot]
  exact hfold

theorem drain_tracks (hn : n ≤ 256) (ha : Tracks a s) (hs : Kahn.Sound (table deps) s)
    {fuel : ℕ} (hfuel : n ≤ s.order.length + fuel) :
    ∃ b, drain deps fuel a = .ok b ∧ Tracks b (Kahn.drain (table deps) fuel s) := by
  induction fuel generalizing a s with
  | zero =>
      have hle := length_queue_le hs
      have hempty : ¬ a.head < a.tail := by
        rw [ha.head, ha.tail]
        omega
      exact ⟨a, if_neg hempty, ha⟩
  | succ fuel ih =>
      unfold drain Kahn.drain
      cases hnode : s.queue[s.order.length]? with
      | none =>
          have hempty : ¬ a.head < a.tail := by
            rw [ha.head, ha.tail]
            exact Nat.not_lt.mpr (List.getElem?_eq_none_iff.mp hnode)
          rw [if_neg hempty]
          exact ⟨a, rfl, ha⟩
      | some node =>
          have hmore : a.head < a.tail := by
            rw [ha.head, ha.tail]
            exact (List.getElem?_eq_some_iff.mp hnode).1
          rw [if_pos hmore]
          obtain ⟨b, hstep, hb⟩ := produce_tracks hn ha hs hnode
          rw [hstep]
          apply ih hb (hs.produce hnode)
          rw [Kahn.produce_eq]
          simp only [List.length_append, List.length_singleton]
          omega

/-- **No check fails**, on any rows: the sort ends with the arrays of the algorithm's run. -/
theorem topoSortConst_tracks (hn : n ≤ 256) (deps : Fin n → List UInt8) :
    ∃ a : SortArrays n, Tracks a (Kahn.run (table deps)) ∧
      topoSortConst deps = if a.produced ≠ n then .error .cycle else .ok a.order := by
  obtain ⟨b, hseed, hb⟩ : ∃ b, seed deps = .ok b ∧ Tracks b (Kahn.seed (table deps)) :=
    seed_tracks hn
  obtain ⟨a, hdrain, ha⟩ := drain_tracks hn hb Kahn.sound_seed (Nat.le_add_left n _)
  have hrun : Kahn.run (table deps) = Kahn.drain (table deps) n (Kahn.seed (table deps)) := by
    rw [Kahn.run]
    congr 1
    exact List.length_finRange
  refine ⟨a, hrun ▸ ha, ?_⟩
  rw [topoSortConst, if_pos hn, hseed]
  simp only [bind, Except.bind, hdrain]
  rfl

end SortArrays

/-! ## What the sort makes of the rows -/

/-- No slot depends on itself, directly or through others. -/
def Acyclic (deps : Fin n → List UInt8) : Prop :=
  ∀ j, ¬ TransGen (fun d j : Fin n => SortArrays.depends deps d j = true) j j

/-- Every slot stands in the order once, and after all of its dependencies. -/
structure Sorted (deps : Fin n → List UInt8) (order : Fin n → UInt8) : Prop where
  perm : (List.ofFn fun k => (order k).toNat).Perm (List.range n)
  before : ∀ i k j : Fin n, (order k).toNat = j → order i ∈ deps j → i < k

namespace SortArrays

variable {deps : Fin n → List UInt8}

theorem depends_iff {d j : Fin n} : depends deps d j = true ↔ ∃ x ∈ deps j, x.toNat = d := by
  simp [depends]

/-- How many slots a row names. -/
theorem countP_waits (hn : n ≤ 256) {j : Fin n} (hrange : ∀ d ∈ deps j, d.toNat < n) :
    (table deps).points.countP ((table deps).waits j) = (deps j).toFinset.card := by
  have hinj : Function.Injective fun d : Fin n => UInt8.ofNat d := by
    intro d e heq
    have hval := congrArg UInt8.toNat heq
    rw [toNat_ofNat_slot hn, toNat_ofNat_slot hn] at hval
    exact Fin.ext hval
  have hnodup : (((List.finRange n).filter ((table deps).waits j)).map
      fun d : Fin n => UInt8.ofNat d).Nodup :=
    ((List.nodup_finRange n).filter _).map hinj
  have hsame : (((List.finRange n).filter ((table deps).waits j)).map
      fun d : Fin n => UInt8.ofNat d).toFinset = (deps j).toFinset := by
    ext x
    simp only [List.mem_toFinset, List.mem_map, List.mem_filter, List.mem_finRange, true_and]
    constructor
    · rintro ⟨d, hd, rfl⟩
      obtain ⟨x, hx, hxd⟩ := depends_iff.mp hd
      rwa [← hxd, UInt8.ofNat_toNat]
    · intro hx
      exact ⟨⟨x.toNat, hrange x hx⟩, depends_iff.mpr ⟨x, hx, rfl⟩, UInt8.ofNat_toNat⟩
  rw [List.countP_eq_length_filter, ← hsame, List.toFinset_card_of_nodup hnodup,
    List.length_map]
  rfl

/-- Every slot is produced if as many are as there are. -/
theorem mem_order_iff : (∀ j, j ∈ (Kahn.run (table deps)).order) ↔
    (Kahn.run (table deps)).order.length = n := by
  have hnodup := Kahn.nodup_order (table deps)
  constructor
  · intro hall
    have hperm := (List.perm_ext_iff_of_nodup hnodup (List.nodup_finRange n)).mpr fun j =>
      ⟨fun _ => List.mem_finRange j, fun _ => hall j⟩
    rw [hperm.length_eq, List.length_finRange]
  · intro hlength j
    have hsub : (Kahn.run (table deps)).order.Subperm (List.finRange n) :=
      List.subperm_of_subset hnodup fun j _ => List.mem_finRange j
    have hperm := hsub.perm_of_length_le (by rw [hlength, List.length_finRange])
    exact hperm.mem_iff.mpr (List.mem_finRange j)

/-- **When the sort of acyclic rows succeeds**: no row may be longer, as a byte, than the
number of slots it names. -/
theorem isOk_iff (hn : n ≤ 256) (hacyclic : Acyclic deps) :
    (∃ order, topoSortConst deps = .ok order) ↔
      ∀ j, (deps j).length % 2 ^ 8 ≤
        (List.finRange n).countP fun d : Fin n => depends deps d j := by
  obtain ⟨a, ha, hsort⟩ := topoSortConst_tracks hn deps
  have hcomplete : (∀ j, (deps j).length % 2 ^ 8 ≤
      (List.finRange n).countP fun d : Fin n => depends deps d j) ↔
        (Kahn.run (table deps)).order.length = n :=
    (Kahn.complete_iff (t := table deps) (Kahn.wellFounded_iff_acyclic.mpr hacyclic)).symm.trans
      mem_order_iff
  rw [hsort, ha.produced, hcomplete]
  constructor
  · intro hok
    by_contra hleft
    rw [if_pos hleft] at hok
    obtain ⟨order, horder⟩ := hok
    cases horder
  · intro hlength
    exact ⟨a.order, if_neg (not_not.mpr hlength)⟩

/-- The sort of as many slots as bytes can tell apart succeeds or reports a cycle. -/
theorem ok_or_cycle (hn : n ≤ 256) (deps : Fin n → List UInt8) :
    (∃ order, topoSortConst deps = .ok order) ∨ topoSortConst deps = .error .cycle := by
  obtain ⟨a, -, hsort⟩ := topoSortConst_tracks hn deps
  rw [hsort]
  by_cases hleft : a.produced ≠ n
  · exact Or.inr (if_pos hleft)
  · exact Or.inl ⟨a.order, if_neg hleft⟩

section Exact

variable (hn : n ≤ 256) (hrange : ∀ j, ∀ d ∈ deps j, d.toNat < n)
  (hrows : ∀ j, (deps j).Nodup) (hbytes : ∀ j, (deps j).length ≤ 255)

include hn hrange hrows hbytes

theorem weight_eq (j : Fin n) :
    (table deps).points.countP ((table deps).waits j) = (table deps).weight j := by
  rw [countP_waits hn (hrange j), List.toFinset_card_of_nodup (hrows j)]
  exact (Nat.mod_eq_of_lt (Nat.lt_succ_of_le (hbytes j))).symm

theorem topologicalOrder_run (hall : ∀ j, j ∈ (Kahn.run (table deps)).order) :
    TopologicalOrder (fun j => (List.finRange n).filter ((table deps).waits j))
      (Kahn.run (table deps)).order := by
  apply Kahn.topologicalOrder _ (fun j => (weight_eq hn hrange hrows hbytes j).le) hall
  simp

theorem sorted_of_tracks {a : SortArrays n} (ha : Tracks a (Kahn.run (table deps)))
    (hall : ∀ j, j ∈ (Kahn.run (table deps)).order) : Sorted deps a.order := by
  have hlength := mem_order_iff.mp hall
  have hnodup := Kahn.nodup_order (table deps)
  have horder : ∀ (k : Fin n) (hk : k.val < (Kahn.run (table deps)).order.length),
      (a.order k).toNat = (Kahn.run (table deps)).order[k.val] :=
    fun k hk => ha.order k _ (List.getElem?_eq_getElem hk)
  constructor
  · have hofFn : (List.ofFn fun k => (a.order k).toNat) =
        (Kahn.run (table deps)).order.map Fin.val := by
      apply List.ext_getElem
      · simp [hlength]
      · intro k hk hk'
        rw [List.getElem_ofFn, List.getElem_map]
        exact horder ⟨k, by simpa using hk⟩ (by simpa using hk')
    have hperm := (List.perm_ext_iff_of_nodup hnodup (List.nodup_finRange n)).mpr fun j =>
      ⟨fun _ => List.mem_finRange j, fun _ => hall j⟩
    rw [hofFn, ← List.map_coe_finRange_eq_range]
    exact hperm.map _
  · intro i k j hk hdep
    have hi_lt : i.val < (Kahn.run (table deps)).order.length := hlength.symm ▸ i.isLt
    have hk_lt : k.val < (Kahn.run (table deps)).order.length := hlength.symm ▸ k.isLt
    have hj : (Kahn.run (table deps)).order[k.val] = j := by
      apply Fin.ext
      rw [← horder k hk_lt, hk]
    have hwaits : (table deps).waits j (Kahn.run (table deps)).order[i.val] = true :=
      depends_iff.mpr ⟨_, hdep, horder i hi_lt⟩
    have hcut : (Kahn.run (table deps)).order = (Kahn.run (table deps)).order.take k ++
        j :: (Kahn.run (table deps)).order.drop (k + 1) := by
      rw [← hj, List.getElem_cons_drop, List.take_append_drop]
    obtain ⟨l, hl, hsame⟩ := List.mem_take_iff_getElem.mp
      (Kahn.before_of_waits (fun j => (weight_eq hn hrange hrows hbytes j).le) hcut hwaits)
    have heq := hnodup.getElem_inj_iff.mp hsame
    have hlt : l < k.val := (lt_min_iff.mp hl).1
    exact Fin.lt_def.mpr (heq ▸ hlt)

end Exact

end SortArrays

/-- **The sort is correct.** On no rows does an index or a counter leave its range. Rows that
are in range, free of duplicates and as long as a byte can count sort into an order with every
dependency first if they are acyclic, and are refused otherwise. -/
theorem topo_sort_const_sorts (deps : Fin n → List UInt8) :
    topoSortConst deps ≠ .error .overflow ∧
    (n ≤ 256 → (∀ j, ∀ d ∈ deps j, d.toNat < n) → (∀ j, (deps j).Nodup) →
      (∀ j, (deps j).length ≤ 255) →
      (Acyclic deps → ∃ order, topoSortConst deps = .ok order ∧ Sorted deps order) ∧
      (¬ Acyclic deps → topoSortConst deps = .error .cycle)) := by
  constructor
  · by_cases hn : n ≤ 256
    · rcases SortArrays.ok_or_cycle hn deps with ⟨order, hok⟩ | hcycle
      · rw [hok]
        exact nofun
      · rw [hcycle]
        exact nofun
    · rw [topoSortConst, if_neg hn]
      exact nofun
  · intro hn hrange hrows hbytes
    obtain ⟨a, ha, hsort⟩ := SortArrays.topoSortConst_tracks hn deps
    have hexact := SortArrays.weight_eq hn hrange hrows hbytes
    constructor
    · intro hacyclic
      have hall := (Kahn.complete_iff (t := SortArrays.table deps)
        (Kahn.wellFounded_iff_acyclic.mpr hacyclic)).mpr fun j => (hexact j).ge
      refine ⟨a.order, ?_, SortArrays.sorted_of_tracks hn hrange hrows hbytes ha hall⟩
      rw [hsort, ha.produced, if_neg (not_not.mpr (SortArrays.mem_order_iff.mp hall))]
    · intro hcyclic
      have hleft : (Kahn.run (SortArrays.table deps)).order.length ≠ n := by
        intro hlength
        have horder := SortArrays.topologicalOrder_run hn hrange hrows hbytes
          (SortArrays.mem_order_iff.mpr hlength)
        apply hcyclic
        intro j
        apply Kahn.wellFounded_iff_acyclic.mp (Subrelation.wf _ horder.wellFounded)
        intro d j hdep
        exact List.mem_filter.mpr ⟨List.mem_finRange d, hdep⟩
      rw [hsort, ha.produced, if_pos hleft]

/-- Two slots that depend on a third, one of them on the other too. -/
def ladder (j : Fin 3) : List UInt8 := if j = 0 then [2, 1] else if j = 1 then [2] else []

theorem topo_sort_const_sorts_ladder :
    (∃ order, topoSortConst ladder = .ok order ∧ Sorted ladder order) ∧
      topoSortConst (fun _ : Fin 1 => [0]) = .error .cycle := by
  have hrange : ∀ j, ∀ d ∈ ladder j, d.toNat < 3 := by simp [ladder, Fin.forall_fin_succ]
  have hladder := (topo_sort_const_sorts ladder).2 (by decide) hrange (by decide) (by decide)
  have hself := (topo_sort_const_sorts fun _ : Fin 1 => [0]).2 (by decide) (by simp) (by decide)
    (by decide)
  constructor
  · apply hladder.1
    by_contra hcyclic
    have hok : (topoSortConst ladder).toBool = true := by decide
    rw [hladder.2 hcyclic] at hok
    cases hok
  · apply hself.2
    intro hacyclic
    exact hacyclic 0 (TransGen.single rfl)

/-! ## The sort on slots -/

namespace TopoSort

variable {deps : Fin n → List (Fin n)}

def toKahn (s : TopoSort n) : Kahn.State (Fin n) := ⟨s.inDegree, s.queue, s.order⟩

/-- The rows as the macro writes them. -/
def bytes (deps : Fin n → List (Fin n)) (j : Fin n) : List UInt8 :=
  (deps j).map fun d : Fin n => UInt8.ofNat d.val

theorem contains_eq_waits (hn : n ≤ 256) (j d : Fin n) :
    (deps j).contains d = (SortArrays.table (bytes deps)).waits j d := by
  rw [Bool.eq_iff_iff, List.contains_iff_mem]
  constructor
  · intro hd
    exact SortArrays.depends_iff.mpr
      ⟨UInt8.ofNat d, List.mem_map_of_mem hd, SortArrays.toNat_ofNat_slot hn d⟩
  · intro hwaits
    obtain ⟨x, hx, hval⟩ := SortArrays.depends_iff.mp hwaits
    obtain ⟨e, he, rfl⟩ := List.mem_map.mp hx
    rw [SortArrays.toNat_ofNat_slot hn] at hval
    exact Fin.ext hval ▸ he

theorem toKahn_produce (hn : n ≤ 256) (s : TopoSort n) (node : Fin n) :
    (s.produce deps node).toKahn =
      Kahn.produce (SortArrays.table (bytes deps)) s.toKahn node := by
  have hrelax : ∀ (s : TopoSort n) (j : Fin n), (relax deps node s j).toKahn =
      Kahn.relax (SortArrays.table (bytes deps)) node s.toKahn j := by
    intro s j
    unfold relax Kahn.relax
    rw [contains_eq_waits hn]
    by_cases hdue : (s.inDegree j != 0 && (SortArrays.table (bytes deps)).waits j node) = true
    · exact (congrArg toKahn (if_pos hdue)).trans (Eq.symm (if_pos hdue))
    · exact (congrArg toKahn (if_neg hdue)).trans (Eq.symm (if_neg hdue))
  have hfold : ∀ (js : List (Fin n)) (s : TopoSort n), (js.foldl (relax deps node) s).toKahn =
      js.foldl (Kahn.relax (SortArrays.table (bytes deps)) node) s.toKahn := by
    intro js
    induction js with
    | nil => exact fun _ => rfl
    | cons j js ih =>
        intro s
        rw [List.foldl_cons, List.foldl_cons, ih, hrelax]
  exact hfold _ _

theorem toKahn_drain (hn : n ≤ 256) (fuel : ℕ) (s : TopoSort n) :
    (drain deps fuel s).toKahn = Kahn.drain (SortArrays.table (bytes deps)) fuel s.toKahn := by
  induction fuel generalizing s with
  | zero => rfl
  | succ fuel ih =>
      have hsame : s.toKahn.queue[s.toKahn.order.length]? = s.queue[s.order.length]? := rfl
      unfold drain Kahn.drain
      rw [hsame]
      cases s.queue[s.order.length]? with
      | none => rfl
      | some node => rw [ih, toKahn_produce hn]

theorem toKahn_run (hn : n ≤ 256) :
    (drain deps n (seed deps)).toKahn = Kahn.run (SortArrays.table (bytes deps)) := by
  have hseed : (seed deps).toKahn = Kahn.seed (SortArrays.table (bytes deps)) := by
    simp [toKahn, seed, Kahn.seed, SortArrays.table, bytes]
  have hpoints : (SortArrays.table (bytes deps)).points.length = n := List.length_finRange
  rw [toKahn_drain hn, hseed, Kahn.run, hpoints]

end TopoSort

/-- **The sort on slots is the sort over bytes.** -/
theorem topoSort_eq (hn : n ≤ 256) (deps : Fin n → List (Fin n)) :
    (topoSort deps).map (fun order => order.map fun j : Fin n => UInt8.ofNat j.val) =
      (topoSortConst (TopoSort.bytes deps)).toOption.map List.ofFn := by
  obtain ⟨a, ha, hsort⟩ := SortArrays.topoSortConst_tracks hn (TopoSort.bytes deps)
  have horder : (TopoSort.drain deps n (TopoSort.seed deps)).order =
      (Kahn.run (SortArrays.table (TopoSort.bytes deps))).order :=
    congrArg Kahn.State.order (TopoSort.toKahn_run hn)
  rw [topoSort, horder, hsort, ha.produced]
  by_cases hlength : (Kahn.run (SortArrays.table (TopoSort.bytes deps))).order.length = n
  · rw [if_pos hlength, if_neg (not_not.mpr hlength)]
    simp only [Option.map_some, Except.toOption, Option.some.injEq]
    apply List.ext_getElem
    · simp [hlength]
    · intro k hk hk'
      rw [List.getElem_map, List.getElem_ofFn, ← UInt8.toNat_inj,
        SortArrays.toNat_ofNat_slot hn]
      exact (ha.order ⟨k, by simpa using hk'⟩ _ (List.getElem?_eq_getElem (by simpa using hk))).symm
  · rw [if_neg hlength, if_pos hlength]
    rfl

end EmbassySupervisor
