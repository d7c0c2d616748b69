/-
# Ordered and flat topologies

`topo_sort_const` sorts the dependency rows while the graph is compiled: Kahn's
algorithm over a queue of the slots whose dependencies are all resolved. Slots that
are never resolved make it panic, which is a compile error, so `topoSort` is `none`
there. A graph without any dependency takes the flat topology instead, whose order is
the order of declaration; `topoSort_flat` says that sorting empty rows gives the same.
-/

import EmbassySupervisor.Node.Graph
import Mathlib.Data.List.FinRange

namespace EmbassySupervisor

open DependencyOrder

variable {n : ℕ}

/-- The sort in flight: how many dependencies of each slot are left, every slot queued
so far, and those of them that have been produced. The head of the queue is the first
slot not produced. -/
structure TopoSort (n : ℕ) where
  inDegree : Fin n → ℕ
  queue : List (Fin n)
  order : List (Fin n) := []

namespace TopoSort

variable (deps : Fin n → List (Fin n))

/-- The queue is seeded with the dependency-free slots; row lengths are bytes. -/
def seed : TopoSort n :=
  let inDegree := fun j => (deps j).length % 2 ^ 8
  { inDegree, queue := (List.finRange n).filter fun j => inDegree j == 0 }

/-- Decrement one slot that depends on the node just produced, and queue it when
nothing of it is left. -/
def relax (node : Fin n) (s : TopoSort n) (j : Fin n) : TopoSort n :=
  if s.inDegree j != 0 && (deps j).contains node then
    let left := s.inDegree j - 1
    { s with
      inDegree := Function.update s.inDegree j left
      queue := if left == 0 then s.queue ++ [j] else s.queue }
  else s

/-- Produce a slot. -/
def produce (s : TopoSort n) (node : Fin n) : TopoSort n :=
  (List.finRange n).foldl (relax deps node) { s with order := s.order ++ [node] }

/-- Produce slots as long as the queue has any left; every slot is queued at most
once, so that many rounds are enough. -/
def drain : ℕ → TopoSort n → TopoSort n
  | 0, s => s
  | fuel + 1, s =>
    match s.queue[s.order.length]? with
    | none => s
    | some node => drain fuel (s.produce deps node)

end TopoSort

/-- `topo_sort_const`; `none` is its panic. -/
def topoSort (deps : Fin n → List (Fin n)) : Option (List (Fin n)) :=
  let order := (TopoSort.drain deps n (TopoSort.seed deps)).order
  if order.length = n then some order else none

namespace TopoSort

variable {deps : Fin n → List (Fin n)}

/-- A slot that waits for nothing is left alone. -/
theorem produce_of_resolved {s : TopoSort n} (h : ∀ j, s.inDegree j = 0) (node : Fin n) :
    s.produce deps node = { s with order := s.order ++ [node] } := by
  unfold produce
  induction List.finRange n with
  | nil => rfl
  | cons j js ih =>
      rw [List.foldl_cons]
      have hskip : relax deps node { s with order := s.order ++ [node] } j =
          { s with order := s.order ++ [node] } := by
        simp [relax, h j]
      rw [hskip, ih]

/-- With nothing to wait for, the queue is produced as it stands. -/
theorem order_drain_of_resolved {s : TopoSort n} (h : ∀ j, s.inDegree j = 0) {fuel : ℕ}
    (horder : s.order = s.queue.take s.order.length) :
    (drain deps fuel s).order = s.queue.take (s.order.length + fuel) := by
  induction fuel generalizing s with
  | zero => exact horder
  | succ fuel ih =>
      unfold drain
      cases hhead : s.queue[s.order.length]? with
      | none =>
          have hle : s.queue.length ≤ s.order.length := List.getElem?_eq_none_iff.mp hhead
          rw [List.take_of_length_le hle] at horder
          rw [List.take_of_length_le (by omega)]
          exact horder
      | some node =>
          have hnext : s.order ++ [node] = s.queue.take (s.order.length + 1) := by
            rw [List.take_add_one, ← horder, hhead]
            rfl
          simp only
          rw [produce_of_resolved h, ih (s := { s with order := s.order ++ [node] }) h]
          · simp only [List.length_append, List.length_singleton]
            congr 1
            omega
          · simpa using hnext

end TopoSort

/-- **Sorting empty rows gives the order of declaration.** -/
theorem topoSort_flat {deps : Fin n → List (Fin n)} (h : ∀ j, deps j = []) :
    topoSort deps = some (List.finRange n) := by
  have hzero : ∀ j, (TopoSort.seed deps).inDegree j = 0 := by
    intro j
    simp [TopoSort.seed, h j]
  have hqueue : (TopoSort.seed deps).queue = List.finRange n := by
    simp [TopoSort.seed, h]
  have horder : (TopoSort.drain deps n (TopoSort.seed deps)).order =
      (TopoSort.seed deps).queue.take ((TopoSort.seed deps).order.length + n) :=
    TopoSort.order_drain_of_resolved hzero rfl
  have hlist : (TopoSort.drain deps n (TopoSort.seed deps)).order = List.finRange n := by
    rw [horder, hqueue]
    apply List.take_of_length_le
    simp [TopoSort.seed]
  simp [topoSort, hlist]

/-- The topology of a graph without dependencies. -/
def Topology.flat (n : ℕ) : Topology n where
  deps _ := []
  order := List.finRange n
  topological :=
    ⟨List.nodup_finRange n, List.mem_finRange, by simp [List.pairwise_iff_getElem], by simp⟩

end EmbassySupervisor
