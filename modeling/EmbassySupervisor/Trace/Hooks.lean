/-
# The tracing hooks

The executors call hooks where they begin and end a poll. The hooks keep counters, one slot
for each of up to four executors, and time for the nodes whose tasks are polled. With
`trace-nested` a stack of slot numbers for each core tells which executor a poll preempts.

A hook is one step here. Clock readings are arguments: `now_ticks` is the low half of the
clock.
-/

import Mathlib.Data.List.FinRange
import Mathlib.Logic.Function.Basic

namespace EmbassySupervisor.Trace

def maxExecutors : ℕ := 4

def maxCores : ℕ := 2

structure ExecutorSlot where
  id : UInt32 := 0
  currentTask : UInt32 := 0
  currentBegin : UInt32 := 0
  idle : Bool := false
  idleSince : UInt32 := 0
  idleTicks : UInt32 := 0
  execTicks : UInt32 := 0
  polls : UInt32 := 0
  passes : UInt32 := 0
  stolenTicks : UInt32 := 0

/-- What a node's handle holds of its task. -/
structure NodeTrace where
  taskId : UInt32 := 0
  execTicks : UInt32 := 0
  polls : UInt32 := 0
  maxPollTicks : UInt32 := 0

/-- A registered graph: its slots, and the hidden node of its supervisor. -/
structure Graph (ν : Type) where
  nodes : List (Option ν)
  selfNode : Option ν := none

/-- What the hooks find fixed: the core they run on, the feature `trace-self`, the graphs. -/
structure Setup (ν : Type) where
  core : Fin maxCores
  traceSelf : Bool
  graphs : List (Graph ν)

structure Tracer (ν : Type) where
  executors : Fin maxExecutors → ExecutorSlot := fun _ => {}
  lastSlot : ℕ := 0
  nestDepth : Fin maxCores → ℕ := fun _ => 0
  nestStack : Fin maxCores → Fin maxExecutors → ℕ := fun _ _ => 0
  handles : ν → NodeTrace := fun _ => {}

/-- A position in a table of as many entries as executors, where it is one. -/
def position (i : ℕ) : Option (Fin maxExecutors) :=
  if h : i < maxExecutors then some ⟨i, h⟩ else none

@[simp] theorem position_val (i : Fin maxExecutors) : position i.val = some i := by
  simp [position]

theorem position_eq_some {n : ℕ} {i : Fin maxExecutors} (h : position n = some i) : n = i.val := by
  unfold position at h
  split at h
  · cases h
    rfl
  · cases h

variable {ν : Type}

/-- An executor that runs a task is idle no more. -/
def ExecutorSlot.wake (slot : ExecutorSlot) (now : UInt32) : ExecutorSlot :=
  if slot.idle then
    { slot with idle := false, idleTicks := slot.idleTicks + (now - slot.idleSince) }
  else slot

@[simp] theorem ExecutorSlot.wake_id (slot : ExecutorSlot) (now : UInt32) :
    (slot.wake now).id = slot.id := by
  unfold wake
  split <;> rfl

@[simp] theorem ExecutorSlot.wake_stolenTicks (slot : ExecutorSlot) (now : UInt32) :
    (slot.wake now).stolenTicks = slot.stolenTicks := by
  unfold wake
  split <;> rfl

@[simp] theorem ExecutorSlot.wake_execTicks (slot : ExecutorSlot) (now : UInt32) :
    (slot.wake now).execTicks = slot.execTicks := by
  unfold wake
  split <;> rfl

namespace Tracer

def setSlot (tr : Tracer ν) (i : Fin maxExecutors) (slot : ExecutorSlot) : Tracer ν :=
  { tr with executors := Function.update tr.executors i slot }

def nodeFor (setup : Setup ν) (tr : Tracer ν) (taskId : UInt32) : Option ν :=
  if taskId = 0 then none
  else setup.graphs.findSome? fun g =>
    (g.nodes.filterMap id ++ if setup.traceSelf then g.selfNode.toList else []).find?
      fun n => (tr.handles n).taskId = taskId

/-- The slot of an executor that has none yet: a free one. -/
def claimSlot (tr : Tracer ν) (executorId : UInt32) : Option (Fin maxExecutors × Tracer ν) :=
  match (List.finRange maxExecutors).find? fun i =>
      (tr.executors i).id = 0 ∨ (tr.executors i).id = executorId with
  | some i =>
    some (i, { tr.setSlot i { tr.executors i with id := executorId } with lastSlot := i })
  | none => none

/-- The slot of an executor: the one of the last hook, the one with its id, or a free one. -/
def slotFor (tr : Tracer ν) (executorId : UInt32) : Option (Fin maxExecutors × Tracer ν) :=
  match (position tr.lastSlot).filter fun i => (tr.executors i).id = executorId with
  | some last => some (last, tr)
  | none =>
    match (List.finRange maxExecutors).find? fun i => (tr.executors i).id = executorId with
    | some i => some (i, { tr with lastSlot := i })
    | none => tr.claimSlot executorId

/-- Hook: an executor begins running a task. -/
def onTaskExecBegin (setup : Setup ν) (now : UInt32) (tr : Tracer ν)
    (executorId taskId : UInt32) : Tracer ν :=
  match tr.slotFor executorId with
  | none => tr
  | some (i, tr) =>
    let tr := tr.setSlot i
      { (tr.executors i).wake now with currentBegin := now, currentTask := taskId }
    let depth := tr.nestDepth setup.core
    { tr with
      nestDepth := Function.update tr.nestDepth setup.core (depth + 1)
      nestStack :=
        match position depth with
        | some frame => Function.update tr.nestStack setup.core
            (Function.update (tr.nestStack setup.core) frame i)
        | none => tr.nestStack }

/-- A poll that ends leaves the stack, and charges its time to the executor below. -/
def chargeParent (setup : Setup ν) (tr : Tracer ν) (raw : UInt32) : Tracer ν :=
  let cur := tr.nestDepth setup.core
  let depth := cur - 1
  let tr := if cur > 0 then
    { tr with nestDepth := Function.update tr.nestDepth setup.core depth } else tr
  if depth > 0 then
    match (position (depth - 1)).bind fun frame => position (tr.nestStack setup.core frame) with
    | some parent =>
      let slot := tr.executors parent
      tr.setSlot parent { slot with stolenTicks := slot.stolenTicks + raw }
    | none => tr
  else tr

def creditNode (setup : Setup ν) [DecidableEq ν] (tr : Tracer ν) (taskId elapsed : UInt32) :
    Tracer ν :=
  match tr.nodeFor setup taskId with
  | none => tr
  | some node =>
    let handle := tr.handles node
    { tr with
      handles := Function.update tr.handles node
        { handle with
          execTicks := handle.execTicks + elapsed
          polls := handle.polls + 1
          maxPollTicks := max handle.maxPollTicks elapsed } }

/-- `saturating_sub` -/
def saturatingSub (a b : UInt32) : UInt32 := if a < b then 0 else a - b

/-- Hook: an executor has finished running a task. -/
def onTaskExecEnd (setup : Setup ν) [DecidableEq ν] (now : UInt32) (tr : Tracer ν)
    (executorId taskId : UInt32) : Tracer ν :=
  match tr.slotFor executorId with
  | none => tr
  | some (i, tr) =>
    let slot := tr.executors i
    let raw := now - slot.currentBegin
    let elapsed := saturatingSub raw slot.stolenTicks
    let tr := (tr.setSlot i { slot with currentTask := 0, stolenTicks := 0 }).chargeParent setup raw
    let slot := tr.executors i
    let tr := tr.setSlot i
      { slot with execTicks := slot.execTicks + elapsed, polls := slot.polls + 1 }
    tr.creditNode setup taskId elapsed

/-- Hook: an executor starts a poll pass. -/
def onPollStart (tr : Tracer ν) (executorId : UInt32) : Tracer ν :=
  match tr.slotFor executorId with
  | none => tr
  | some (i, tr) =>
    let slot := tr.executors i
    tr.setSlot i { slot with passes := slot.passes + 1 }

/-- Hook: an executor becomes idle. -/
def onExecutorIdle (now : UInt32) (tr : Tracer ν) (executorId : UInt32) : Tracer ν :=
  match tr.slotFor executorId with
  | none => tr
  | some (i, tr) =>
    let slot := tr.executors i
    if slot.idle then tr else tr.setSlot i { slot with idle := true, idleSince := now }

end Tracer

/-! ## Runs and what is read off them -/

inductive Hook
  | pollStart (executorId : UInt32)
  | execBegin (executorId taskId : UInt32)
  | execEnd (executorId taskId : UInt32)
  | executorIdle (executorId : UInt32)

def Hook.executorId : Hook → UInt32
  | .pollStart executorId => executorId
  | .execBegin executorId _ => executorId
  | .execEnd executorId _ => executorId
  | .executorIdle executorId => executorId

/-- A hook call, at a reading of the clock. -/
structure HookCall where
  ticks : ℕ
  hook : Hook

/-- `Instant::now().as_ticks() as u32` -/
def HookCall.nowTicks (call : HookCall) : UInt32 := UInt32.ofNat call.ticks

def Tracer.call (setup : Setup ν) [DecidableEq ν] (tr : Tracer ν) (c : HookCall) : Tracer ν :=
  match c.hook with
  | .pollStart executorId => tr.onPollStart executorId
  | .execBegin executorId taskId => tr.onTaskExecBegin setup c.nowTicks executorId taskId
  | .execEnd executorId taskId => tr.onTaskExecEnd setup c.nowTicks executorId taskId
  | .executorIdle executorId => tr.onExecutorIdle c.nowTicks executorId

structure ExecutorStats where
  idleTicks : UInt32 := 0
  execTicks : UInt32 := 0
  polls : UInt32 := 0
  passes : UInt32 := 0

def Tracer.executorStats (now : UInt32) (tr : Tracer ν) (executorId : UInt32) :
    Option ExecutorStats :=
  ((List.finRange maxExecutors).find? fun i => (tr.executors i).id = executorId).map fun i =>
    let slot := tr.executors i
    { idleTicks := if slot.idle then slot.idleTicks + (now - slot.idleSince) else slot.idleTicks
      execTicks := slot.execTicks
      polls := slot.polls
      passes := slot.passes }

/-- The registered executor ids; zero is a free slot. -/
def Tracer.executorIds (tr : Tracer ν) : List UInt32 :=
  (List.finRange maxExecutors).map fun i => (tr.executors i).id

end EmbassySupervisor.Trace
