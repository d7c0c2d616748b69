/-
# The coordination state of one task

Every node of the graph is single-instance, so what the task and the supervisor
tell each other fits in one word of flags and a few latching signals. This
module is that state and the operations on it, in the source's own words.

`reset` is the operation the later arguments turn on: it clears the flags one
instance leaves behind and keeps the ones that span the node's whole absence
(`disabled`, `collateral`, `detached`, `boundStopped`), and with them `running`.
-/

import Mathlib.Algebra.GroupWithZero.Nat
import Mathlib.Data.Nat.Notation
import Mathlib.Logic.Function.Basic

namespace EmbassySupervisor

/-- Bit assignments of the handle's flag word. `shutdown` is the supervisor's
request and `dropped` the instance's acknowledgement of it, `completed` records
that the body returned, `running` that the supervisor has the node up. `disabled`
is a manual stop, `collateral` a stop as the dependent of a disabled node and
`boundStopped` one on account of a bound provider. A `detached` node manages
itself. `resident` marks a spawned shell and `idle` one parked between
activations. -/
inductive Flag
  | shutdown
  | dropped
  | running
  | busy
  | completed
  | disabled
  | detached
  | ready
  | boundStopped
  | collateral
  | resident
  | idle
  deriving DecidableEq, Repr

/-- The flags that belong to one instance, the mask `reset` clears. -/
def Flag.stale : Flag → Bool
  | .shutdown | .dropped | .busy | .completed | .ready => true
  | .running | .disabled | .detached | .boundStopped | .collateral | .resident
  | .idle => false

/-- The two flags that hold a node down. -/
def Flag.hold : Flag → Bool
  | .disabled | .collateral => true
  | .shutdown | .dropped | .running | .busy | .completed | .detached | .ready
  | .boundStopped | .resident | .idle => false

/-- A reset keeps the holds. -/
theorem Flag.stale_of_hold {k : Flag} (hk : k.hold = true) : k.stale = false := by
  cases k <;> first | rfl | simp [Flag.hold] at hk

theorem Flag.ne_of_hold {k f : Flag} (hk : k.hold = true) (hf : f.hold = false) : k ≠ f := by
  rintro rfl
  simp [hk] at hf

/-- The live half of a node: its flags, its latched signals, and the two
counters of its restart budget. The latch of the request also keeps the waker of
whoever was polled on it before it fired. -/
structure TaskHandle where
  flags : Flag → Bool := fun _ => false
  shutdownWake : Bool := false
  shutdownWaker : Bool := false
  droppedWake : Bool := false
  resumeWake : Bool := false
  readyWake : Bool := false
  restarts : ℕ := 0
  restartWindowStart : ℕ := 0

namespace TaskHandle

variable (h : TaskHandle)

/-- Write one flag: `flag_set`, `flag_clear` and `flag_put` on a single bit. -/
def flagPut (f : Flag) (on : Bool) : TaskHandle :=
  { h with flags := Function.update h.flags f on }

def signalShutdown : TaskHandle :=
  { h.flagPut .shutdown true with shutdownWake := true, shutdownWaker := false }

/-- Poll the latch of the request: take it, or leave a waker with it. -/
def pollShutdown : TaskHandle :=
  if h.shutdownWake then { h with shutdownWake := false } else { h with shutdownWaker := true }

def signalResume : TaskHandle := { h with resumeWake := true }

def setRunning (running : Bool) : TaskHandle := h.flagPut .running running

def setDisabled (disabled : Bool) : TaskHandle := h.flagPut .disabled disabled

/-- Forget what the previous instance left: its stale flags and latches, and a waker
with them. -/
def reset : TaskHandle :=
  { h with
    flags := fun f => if f.stale then false else h.flags f
    readyWake := false
    shutdownWake := false
    shutdownWaker := false
    droppedWake := false }

def settleDropped : TaskHandle :=
  { (h.flagPut .running false).flagPut .dropped true with droppedWake := true }

def setReady : TaskHandle := { h.flagPut .ready true with readyWake := true }

/-- Start the next activation of a parked resident shell. -/
def svStart : TaskHandle := { h.flagPut .idle false with resumeWake := true }

/-- An acknowledged stop with no recorded exit: for a `Pause` node, a parked
instance. -/
def hasAckedStop : Bool := h.flags .dropped && !h.flags .completed

/-- No resident shell is still finishing its last activation. -/
def isSettled : Bool := !h.flags .resident || h.flags .idle

@[simp]
theorem flags_flagPut (f g : Flag) (on : Bool) :
    (h.flagPut f on).flags g = if g = f then on else h.flags g := by
  simp [flagPut, Function.update_apply]

@[simp]
theorem flags_signalShutdown (g : Flag) :
    h.signalShutdown.flags g = if g = .shutdown then true else h.flags g := by
  simp [signalShutdown]

@[simp]
theorem flags_pollShutdown : h.pollShutdown.flags = h.flags := by
  unfold pollShutdown
  split <;> rfl

@[simp]
theorem droppedWake_pollShutdown : h.pollShutdown.droppedWake = h.droppedWake := by
  unfold pollShutdown
  split <;> rfl

@[simp]
theorem readyWake_pollShutdown : h.pollShutdown.readyWake = h.readyWake := by
  unfold pollShutdown
  split <;> rfl

@[simp]
theorem flags_signalResume : h.signalResume.flags = h.flags := rfl

@[simp]
theorem flags_setRunning (running : Bool) (g : Flag) :
    (h.setRunning running).flags g = if g = .running then running else h.flags g := by
  simp [setRunning]

@[simp]
theorem flags_setDisabled (disabled : Bool) (g : Flag) :
    (h.setDisabled disabled).flags g =
      if g = .disabled then disabled else h.flags g := by
  simp [setDisabled]

@[simp]
theorem flags_reset (g : Flag) :
    h.reset.flags g = if g.stale then false else h.flags g := rfl

@[simp]
theorem flags_settleDropped (g : Flag) :
    h.settleDropped.flags g =
      if g = .dropped then true else if g = .running then false else h.flags g := by
  simp [settleDropped]

@[simp]
theorem flags_setReady (g : Flag) :
    h.setReady.flags g = if g = .ready then true else h.flags g := by
  simp [setReady]

@[simp]
theorem flags_svStart (g : Flag) :
    h.svStart.flags g = if g = .idle then false else h.flags g := by
  simp [svStart]

/-- After a reset nothing reads as an acknowledged stop. -/
@[simp]
theorem hasAckedStop_reset : h.reset.hasAckedStop = false := by
  simp [hasAckedStop, Flag.stale]

end TaskHandle

end EmbassySupervisor
