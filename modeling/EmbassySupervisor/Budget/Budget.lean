/-
# A divisible resource

A budget of units split among `n` claimant slots. Its capacity, wants and grants
are separate atomics, written and read without a lock, so an operation on it is the
list of its single stores and signals (`Op.atoms`), and others act between any two.

What every operation has in common is its end: the allocator's wake, `watch`, is
signalled after the last store. `Op.closing` says so, and it is all the allocator's
correctness takes from the operations.
-/

import EmbassySupervisor.Lib.Interleaving
import Mathlib.Logic.Function.Basic
import Mathlib.Data.List.FinRange

namespace EmbassySupervisor

open Interleaving

variable {n : ℕ}

/-- Slots are numbered in declaration order. A capacity of `0` is "not provided". -/
structure Budget (n : ℕ) where
  capacity : UInt32 := 0
  wants : Fin n → UInt32 := fun _ => 0
  grants : Fin n → UInt32 := fun _ => 0
  /-- The gate wake for the supervisor's wait before a spawn. -/
  filled : Bool := false
  /-- Holders parked on their grant, not woken since. -/
  claimants : Fin n → Bool := fun _ => false
  /-- The allocator's wake, latching. -/
  watch : Bool := false
  /-- The supervisor's gate event, one for all resources. -/
  gateEvent : Bool := false

namespace Budget

/-- One store or one signal on a budget. -/
inductive Atom (n : ℕ)
  | storeCapacity (units : UInt32)
  | storeWant (slot : Fin n) (units : UInt32)
  | storeGrant (slot : Fin n) (units : UInt32)
  | signalFilled
  | resetFilled
  | signalGate
  | wake (slot : Fin n)
  | signalWatch
  deriving DecidableEq

/-- What an action does to the budget. -/
def act (b : Budget n) : Atom n → Budget n
  | .storeCapacity units => { b with capacity := units }
  | .storeWant slot units => { b with wants := Function.update b.wants slot units }
  | .storeGrant slot units => { b with grants := Function.update b.grants slot units }
  | .signalFilled => { b with filled := true }
  | .resetFilled => { b with filled := false }
  | .signalGate => { b with gateEvent := true }
  | .wake slot => { b with claimants := Function.update b.claimants slot false }
  | .signalWatch => { b with watch := true }

/-- The operations of holders, providers and the supervisor. -/
inductive Op (n : ℕ)
  | provide (capacity : UInt32)
  | want (slot : Fin n) (units : UInt32)
  | release (slot : Fin n)
  | clear

/-- The operation, action by action. -/
def Op.atoms : Op n → List (Atom n)
  | .provide capacity =>
    .storeCapacity capacity ::
      (if 0 < capacity then [.signalFilled, .signalGate] else []) ++ [.signalWatch]
  | .want slot units => [.storeWant slot units, .signalWatch]
  | .release slot => [.storeWant slot 0, .storeGrant slot 0, .signalWatch]
  | .clear =>
    .storeCapacity 0 :: (List.finRange n).map (fun slot => .storeGrant slot 0) ++
      .resetFilled :: (List.finRange n).map (fun slot => .wake slot) ++ [.signalWatch]

/-- Every operation ends by waking the allocator. -/
theorem Op.closing (op : Op n) : Closing .signalWatch op.atoms := by
  cases op with
  | provide capacity => exact closing_append_singleton _ _
  | want slot units => exact closing_append_singleton [Atom.storeWant slot units] _
  | release slot => exact closing_append_singleton [Atom.storeWant slot 0, Atom.storeGrant slot 0] _
  | clear => exact closing_append_singleton _ _

/-- Only the allocator takes its wake back. -/
theorem watch_act {b : Budget n} (h : b.watch = true) (a : Atom n) : (b.act a).watch = true := by
  cases a with
  | signalWatch => rfl
  | storeCapacity | storeWant | storeGrant | signalFilled | resetFilled | signalGate
  | wake => exact h

end Budget

/-! ## Policies -/

/-- What a division returns: the new grants, when to run again, and the policy's own
state after it. -/
structure Divided (n : ℕ) (π : Type) where
  grants : Fin n → UInt32
  next : Option ℕ
  policy : π

/-- How a capacity is divided over the wants. A policy may keep state of its own. -/
class BudgetPolicy (π : Type) where
  divide {n : ℕ} (policy : π) (capacity : UInt32) (wants grants : Fin n → UInt32) (now : ℕ) :
    Divided n π

/-- In full when the capacity covers the sum, else in proportion. -/
inductive FairShare
  | mk

/-- Calls `visit` with each slot's target, in slot order. -/
def FairShare.targets {α : Type} (capacity : UInt32) (wants : Fin n → UInt32)
    (visit : Fin n → UInt32 → α → α) (out : α) : α :=
  let slots := List.finRange n
  let total := slots.foldl (fun sum i => sum + (wants i).toUInt64) 0
  if total ≤ capacity.toUInt64 then slots.foldl (fun out i => visit i (wants i) out) out
  else
    let floor (w : UInt32) : UInt32 := (capacity.toUInt64 * w.toUInt64 / total).toUInt32
    let used := slots.foldl (fun sum i => sum + (floor (wants i)).toUInt64) 0
    (slots.foldl
      (fun ((out, left) : α × UInt64) i =>
        let t := floor (wants i)
        if 0 < left ∧ t < wants i then (visit i (t + 1) out, left - 1) else (visit i t out, left))
      (out, capacity.toUInt64 - used)).1

instance : BudgetPolicy FairShare where
  divide policy capacity wants grants _ :=
    { grants := FairShare.targets capacity wants (fun i t g => Function.update g i t) grants
      next := none
      policy }

-- 40 units over 33 wants of 2: one each, and the remainder to the lowest slots.
example :
    let d := BudgetPolicy.divide FairShare.mk 40 (fun _ : Fin 33 => 2) (fun _ => 0) 0
    (List.finRange 33).map d.grants = List.replicate 7 2 ++ List.replicate 26 1 := by
  decide +kernel

end EmbassySupervisor
