/-
# The state the supervisor and its tasks share

`World` is everything more than one party writes: the clock, the handles of the
nodes, the executor and resource slots, and the crate-wide latching events. Two
components describe the tasks' side. `refused` is whether the executor would
turn down the next spawn of a node, and `inst` is what has become of the node's
instance; no supervisor code reads either directly.

`log` is the history the claims about runs are stated on. It takes one entry for
each lifecycle transition the source notes, and for the events it only logs or
leaves implicit: a spawn call that succeeded, an instance that dropped, a stop
or a deferral on account of a bound provider.
-/

import EmbassySupervisor.Node.Graph
import Mathlib.Tactic.Simps.Basic

namespace EmbassySupervisor

/-- What went wrong in a node fault. -/
inductive FaultKind (n : ℕ)
  | readyDepTimeout (dep : Fin n)
  | resourceMissing
  | executorSlotEmpty
  | spawn
  | shutdownTimeout
  | restartStorm
  deriving DecidableEq, Repr

/-- A node-scoped lifecycle failure: which node, and what went wrong. -/
structure NodeFault (n : ℕ) where
  node : Fin n
  kind : FaultKind n
  deriving DecidableEq, Repr

/-- What a verb returns: nothing, or the first fault. -/
abbrev Outcome (n : ℕ) := Option (NodeFault n)

/-- A lifecycle transition the supervisor notes for a node. -/
inductive Transition (n : ℕ)
  | spawning
  | started
  | resumed
  | stopRequested
  | stopped
  | exited
  | faulted (kind : FaultKind n)
  deriving DecidableEq, Repr

/-- An entry of the history. -/
inductive Record (n : ℕ)
  | note (node : Fin n) (t : Transition n)
  | spawned (node : Fin n)
  | dropped (node : Fin n)
  | boundStop (node : Fin n)
  | boundPark (node : Fin n)
  | claimsReleased (node : Fin n)
  deriving DecidableEq, Repr

/-- The node an entry is about. -/
def Record.node {n : ℕ} : Record n → Fin n
  | .note j _ | .spawned j | .dropped j | .boundStop j | .boundPark j | .claimsReleased j => j

/-- The entries that decide whether a node is down on account of a provider: it
was brought up, or it was stopped or put off for one. -/
def Record.decisive {n : ℕ} : Record n → Bool
  | .note _ .started | .note _ .resumed | .boundStop _ | .boundPark _ => true
  | .note _ .spawning | .note _ .stopRequested | .note _ .stopped | .note _ .exited
  | .note _ (.faulted _) | .spawned _ | .dropped _ | .claimsReleased _ => false

/-- What has become of a node's instance: nothing is there, it is up, it has
acknowledged a stop and its body is still returning, or it is a `Pause` instance
parked after its acknowledgement. It is `up` exactly when an instance has been
spawned, or a parked one resumed, since the last acknowledgement or exit. -/
inductive Inst
  | absent
  | up
  | leaving
  | parked
  deriving DecidableEq, Repr

/-- An executor slot: whether its spawner is registered, the latch of its
rendezvous, and the fence resident on that executor. -/
structure SpawnerSlot where
  filled : Bool := false
  filledWake : Bool := false
  fenceUp : Bool := false
  fenceReq : Bool := false
  passes : ℕ := 0

/-- A resource slot as the supervisor sees it: filled or not, and its latch. -/
structure ResourceGate where
  filled : Bool := false
  filledWake : Bool := false

/-- Everything more than one party writes. -/
structure World (n : ℕ) where
  now : ℕ := 0
  node : Fin n → TaskHandle
  slot : ℕ → SpawnerSlot := fun _ => {}
  gate : ℕ → ResourceGate := fun _ => {}
  stopEvt : Bool := false
  gateEvt : Bool := false
  bindReq : Bool := false
  scaleReq : Bool := false
  refused : Fin n → Bool := fun _ => false
  inst : Fin n → Inst := fun _ => .absent
  log : List (ℕ × Record n) := []

namespace World

variable {n : ℕ} (w : World n)

/-- One flag of one node. -/
def flag (j : Fin n) (f : Flag) : Bool := (w.node j).flags f

/-- Apply an operation to one node's handle. -/
@[simps]
def onNode (j : Fin n) (f : TaskHandle → TaskHandle) : World n :=
  { w with node := Function.update w.node j (f (w.node j)) }

/-- Say what has become of one node's instance. -/
@[simps]
def setInst (j : Fin n) (i : Inst) : World n :=
  { w with inst := Function.update w.inst j i }

/-- Append an entry to the history, at the current instant. -/
@[simps]
def record (r : Record n) : World n := { w with log := (w.now, r) :: w.log }

/-- Record a transition of a node. -/
def note (j : Fin n) (t : Transition n) : World n := w.record (.note j t)

@[simps]
def requestScale : World n := { w with scaleReq := true }

@[simps]
def notifyBind : World n := { w with bindReq := true }

@[simps]
def gateEvent : World n := { w with gateEvt := true }

/-! ## Operations on a node -/

/-- Write one flag of a node. -/
def putFlag (j : Fin n) (f : Flag) (on : Bool) : World n :=
  w.onNode j fun h => h.flagPut f on

def signalShutdown (j : Fin n) : World n := w.onNode j TaskHandle.signalShutdown

def setRunning (j : Fin n) (running : Bool) : World n :=
  w.onNode j fun h => h.setRunning running

def reset (j : Fin n) : World n := w.onNode j TaskHandle.reset

/-- Latch the resume signal. A parked instance is thereby resumed; with none
there, the signal latches and nothing else happens. -/
def signalResume (j : Fin n) : World n :=
  let w := w.onNode j TaskHandle.signalResume
  if w.inst j = .parked then w.setInst j .up else w

/-- The transition a collected acknowledgement is noted as. -/
def acked (j : Fin n) : Transition n :=
  if w.flag j .completed then .exited else .stopped

def hasDropped (j : Fin n) : Bool := w.flag j .dropped

def hasAckedStop (j : Fin n) : Bool := (w.node j).hasAckedStop

def isSettled (j : Fin n) : Bool := (w.node j).isSettled

/-- Running and ready: a bound provider that serves. -/
def isServing (j : Fin n) : Bool := w.flag j .running && w.flag j .ready

/-- Release the divisible shares a node holds. -/
def releaseClaims (cfg : NodeCfg n) (j : Fin n) : World n :=
  if cfg.claims then w.record (.claimsReleased j) else w

/-! ## Slots and gates -/

/-- The node's executor slot, if it names one, is filled. -/
def slotFilled (cfg : NodeCfg n) : Bool :=
  match cfg.spawnSlot with
  | none => true
  | some s => (w.slot s).filled

/-- Every resource slot the node takes from is filled. -/
def gatesFilled (cfg : NodeCfg n) : Bool :=
  cfg.resourceGates.all fun r => (w.gate r).filled

/-- Every ready dependency of the node has asserted readiness. -/
def depsReady (cfg : NodeCfg n) : Bool :=
  cfg.readyDeps.all fun d => w.flag d .ready

/-- Ask an executor's fence for one pass. -/
@[simps]
def requestPass (s : ℕ) : World n :=
  { w with
    slot :=
      if (w.slot s).fenceUp then
        Function.update w.slot s { w.slot s with fenceReq := true }
      else w.slot }

/-- Empty a resource slot and reset its latch. -/
@[simps]
def clearGate (r : ℕ) : World n :=
  { w with gate := Function.update w.gate r {} }

/-! ## The spawn call -/

/-- The generated glue gets through to the launch: the executor's spawner is
there, a resident shell is not mid-epilogue, every probed resource slot is
filled, and the executor takes the task. -/
def spawnAccepted (cfg : NodeCfg n) (sp : Spawn) (j : Fin n) : Bool :=
  w.slotFilled cfg && (sp == .fn || w.isSettled j) && w.gatesFilled cfg && !w.refused j

/-- The launch: a resident shell is restarted in place, otherwise the task is
spawned and, for a shell, marked resident. -/
def launch (sp : Spawn) (j : Fin n) : World n :=
  let w := match sp with
    | .fn => w
    | .task =>
      if w.flag j .resident then w.onNode j TaskHandle.svStart
      else w.putFlag j .resident true
  (w.setInst j .up).record (.spawned j)

/-- Call a node's spawn function; `none` is its `Busy` error, which changes
nothing. -/
def spawn (cfg : NodeCfg n) (sp : Spawn) (j : Fin n) : Option (World n) :=
  if w.spawnAccepted cfg sp j then some (w.launch sp j) else none

/-- Resume a parked instance in place. The reset comes first: it clears the
acknowledgement the caller has just read. -/
def resume (j : Fin n) : World n :=
  (((w.reset j).signalResume j).setRunning j true).note j .resumed

/-- Only mark a node running, for a task the application spawns itself. -/
def markStarted (j : Fin n) : World n :=
  ((w.reset j).setRunning j true).note j .started

/-- A spawn succeeded: the node runs, on no provider's account. -/
def started (j : Fin n) : World n :=
  ((w.setRunning j true).note j .started).putFlag j .boundStopped false

/-- Put a bring-up off until a bound provider is ready. -/
def boundPark (j : Fin n) : World n :=
  (w.putFlag j .boundStopped true).record (.boundPark j)

/-! ## What each operation does to the flags -/

variable {w}

theorem flag_onNode (j i : Fin n) (f : TaskHandle → TaskHandle) (k : Flag) :
    (w.onNode j f).flag i k = if i = j then (f (w.node j)).flags k else w.flag i k := by
  by_cases h : i = j
  · subst h
    simp [flag]
  · simp [flag, h]

@[simp]
theorem flag_setInst (j i : Fin n) (a : Inst) (k : Flag) :
    (w.setInst j a).flag i k = w.flag i k := rfl

@[simp]
theorem flag_record (r : Record n) (i : Fin n) (k : Flag) :
    (w.record r).flag i k = w.flag i k := rfl

@[simp]
theorem flag_note (j : Fin n) (t : Transition n) (i : Fin n) (k : Flag) :
    (w.note j t).flag i k = w.flag i k := rfl

@[simp]
theorem flag_requestScale (i : Fin n) (k : Flag) :
    w.requestScale.flag i k = w.flag i k := rfl

@[simp]
theorem flag_requestPass (s : ℕ) (i : Fin n) (k : Flag) :
    (w.requestPass s).flag i k = w.flag i k := rfl

@[simp]
theorem flag_clearGate (r : ℕ) (i : Fin n) (k : Flag) :
    (w.clearGate r).flag i k = w.flag i k := rfl

@[simp]
theorem flag_releaseClaims (cfg : NodeCfg n) (j i : Fin n) (k : Flag) :
    (w.releaseClaims cfg j).flag i k = w.flag i k := by
  unfold releaseClaims
  split <;> rfl

@[simp]
theorem flag_putFlag (j i : Fin n) (f k : Flag) (on : Bool) :
    (w.putFlag j f on).flag i k = if i = j ∧ k = f then on else w.flag i k := by
  by_cases h : i = j
  · subst h
    simp [putFlag, flag]
  · simp [putFlag, flag_onNode, h]

@[simp]
theorem flag_signalShutdown (j i : Fin n) (k : Flag) :
    (w.signalShutdown j).flag i k =
      if i = j ∧ k = .shutdown then true else w.flag i k := by
  by_cases h : i = j
  · subst h
    simp [signalShutdown, flag]
  · simp [signalShutdown, flag_onNode, h]

@[simp]
theorem flag_setRunning (j i : Fin n) (running : Bool) (k : Flag) :
    (w.setRunning j running).flag i k =
      if i = j ∧ k = .running then running else w.flag i k := by
  by_cases h : i = j
  · subst h
    simp [setRunning, flag]
  · simp [setRunning, flag_onNode, h]

@[simp]
theorem flag_reset (j i : Fin n) (k : Flag) :
    (w.reset j).flag i k = if i = j ∧ k.stale then false else w.flag i k := by
  by_cases h : i = j
  · subst h
    simp [reset, flag]
  · simp [reset, flag_onNode, h]

@[simp]
theorem flag_signalResume (j i : Fin n) (k : Flag) :
    (w.signalResume j).flag i k = w.flag i k := by
  have h : (w.onNode j TaskHandle.signalResume).flag i k = w.flag i k := by
    rw [flag_onNode]
    split
    case isTrue heq => rw [heq]; rfl
    case isFalse => rfl
  unfold signalResume
  simp only
  split
  · exact h
  · exact h

/-- A resume clears the stale flags of the node and sets it running. -/
@[simp]
theorem flag_resume (j i : Fin n) (k : Flag) :
    (w.resume j).flag i k =
      if i = j ∧ k = .running then true
      else if i = j ∧ k.stale then false else w.flag i k := by
  simp [resume]

@[simp]
theorem flag_markStarted (j i : Fin n) (k : Flag) :
    (w.markStarted j).flag i k =
      if i = j ∧ k = .running then true
      else if i = j ∧ k.stale then false else w.flag i k := by
  simp [markStarted]

@[simp]
theorem flag_started (j i : Fin n) (k : Flag) :
    (w.started j).flag i k =
      if i = j ∧ k = .boundStopped then false
      else if i = j ∧ k = .running then true else w.flag i k := by
  simp [started]

@[simp]
theorem flag_boundPark (j i : Fin n) (k : Flag) :
    (w.boundPark j).flag i k =
      if i = j ∧ k = .boundStopped then true else w.flag i k := by
  simp [boundPark]

/-- A launch touches no flag but the two of the resident shell. -/
theorem flag_launch (sp : Spawn) (j i : Fin n) {k : Flag}
    (hres : k ≠ .resident) (hidle : k ≠ .idle) :
    (w.launch sp j).flag i k = w.flag i k := by
  cases sp with
  | fn => rfl
  | task =>
      unfold launch
      simp only
      split
      · simp only [flag_record, flag_setInst, flag_onNode, TaskHandle.flags_svStart,
          if_neg hidle]
        split
        case isTrue heq => rw [heq]; rfl
        case isFalse => rfl
      · simp [hres]

/-! ## What each operation does to the instances -/

@[simp]
theorem inst_note (j : Fin n) (t : Transition n) : (w.note j t).inst = w.inst := rfl

@[simp]
theorem inst_putFlag (j : Fin n) (f : Flag) (on : Bool) :
    (w.putFlag j f on).inst = w.inst := rfl

@[simp]
theorem inst_signalShutdown (j : Fin n) : (w.signalShutdown j).inst = w.inst := rfl

@[simp]
theorem inst_setRunning (j : Fin n) (running : Bool) :
    (w.setRunning j running).inst = w.inst := rfl

@[simp]
theorem inst_reset (j : Fin n) : (w.reset j).inst = w.inst := rfl

@[simp]
theorem inst_releaseClaims (cfg : NodeCfg n) (j : Fin n) :
    (w.releaseClaims cfg j).inst = w.inst := by
  unfold releaseClaims
  split <;> rfl

@[simp]
theorem inst_markStarted (j : Fin n) : (w.markStarted j).inst = w.inst := rfl

@[simp]
theorem inst_started (j : Fin n) : (w.started j).inst = w.inst := rfl

@[simp]
theorem inst_boundPark (j : Fin n) : (w.boundPark j).inst = w.inst := rfl

/-- A resume brings a parked instance up and no other. -/
@[simp]
theorem inst_resume (j i : Fin n) :
    (w.resume j).inst i = if i = j ∧ w.inst j = .parked then .up else w.inst i := by
  by_cases h : w.inst j = .parked
  · simp [resume, signalResume, h, Function.update_apply]
  · simp [resume, signalResume, h]

@[simp]
theorem inst_launch (sp : Spawn) (j i : Fin n) :
    (w.launch sp j).inst i = if i = j then .up else w.inst i := by
  cases sp with
  | fn => simp [launch, Function.update_apply]
  | task =>
      unfold launch
      simp only
      split <;> simp [Function.update_apply]

/-! ## What each operation appends to the history -/

@[simp]
theorem log_note (j : Fin n) (t : Transition n) :
    (w.note j t).log = (w.now, .note j t) :: w.log := rfl

@[simp]
theorem log_putFlag (j : Fin n) (f : Flag) (on : Bool) :
    (w.putFlag j f on).log = w.log := rfl

@[simp]
theorem log_signalShutdown (j : Fin n) : (w.signalShutdown j).log = w.log := rfl

@[simp]
theorem log_setRunning (j : Fin n) (running : Bool) :
    (w.setRunning j running).log = w.log := rfl

@[simp]
theorem log_reset (j : Fin n) : (w.reset j).log = w.log := rfl

@[simp]
theorem log_markStarted (j : Fin n) :
    (w.markStarted j).log = (w.now, .note j .started) :: w.log := rfl

@[simp]
theorem log_started (j : Fin n) :
    (w.started j).log = (w.now, .note j .started) :: w.log := rfl

@[simp]
theorem log_boundPark (j : Fin n) :
    (w.boundPark j).log = (w.now, .boundPark j) :: w.log := rfl

@[simp]
theorem now_markStarted (j : Fin n) : (w.markStarted j).now = w.now := rfl

@[simp]
theorem now_started (j : Fin n) : (w.started j).now = w.now := rfl

@[simp]
theorem now_boundPark (j : Fin n) : (w.boundPark j).now = w.now := rfl

@[simp]
theorem now_note (j : Fin n) (t : Transition n) : (w.note j t).now = w.now := rfl

@[simp]
theorem now_putFlag (j : Fin n) (f : Flag) (on : Bool) :
    (w.putFlag j f on).now = w.now := rfl

@[simp]
theorem now_signalShutdown (j : Fin n) : (w.signalShutdown j).now = w.now := rfl

@[simp]
theorem now_setRunning (j : Fin n) (running : Bool) :
    (w.setRunning j running).now = w.now := rfl

@[simp]
theorem now_reset (j : Fin n) : (w.reset j).now = w.now := rfl

@[simp]
theorem now_releaseClaims (cfg : NodeCfg n) (j : Fin n) :
    (w.releaseClaims cfg j).now = w.now := by
  unfold releaseClaims
  split <;> rfl

@[simp]
theorem now_signalResume (j : Fin n) : (w.signalResume j).now = w.now := by
  unfold signalResume
  simp only
  split <;> rfl

@[simp]
theorem log_signalResume (j : Fin n) : (w.signalResume j).log = w.log := by
  unfold signalResume
  simp only
  split <;> rfl

@[simp]
theorem now_resume (j : Fin n) : (w.resume j).now = w.now := by
  simp [resume]

@[simp]
theorem log_resume (j : Fin n) :
    (w.resume j).log = (w.now, .note j .resumed) :: w.log := by
  simp [resume]

@[simp]
theorem now_launch (sp : Spawn) (j : Fin n) : (w.launch sp j).now = w.now := by
  cases sp with
  | fn => rfl
  | task =>
      unfold launch
      simp only
      split <;> rfl

@[simp]
theorem log_launch (sp : Spawn) (j : Fin n) :
    (w.launch sp j).log = (w.now, .spawned j) :: w.log := by
  cases sp with
  | fn => rfl
  | task =>
      unfold launch
      simp only
      split <;> rfl

/-- A spawn that succeeds is a launch the glue accepted. -/
theorem spawn_eq_some {cfg : NodeCfg n} {sp : Spawn} {j : Fin n} {w' : World n} :
    w.spawn cfg sp j = some w' ↔ w.spawnAccepted cfg sp j = true ∧ w.launch sp j = w' := by
  simp [spawn]

/-! ## Changes of slots, latches and requests only -/

/-- The flags, the instances, the history and the clock are as before, and so are the
latches between the supervisor and the instances. -/
structure Still (w w' : World n) : Prop where
  flag : ∀ j k, w'.flag j k = w.flag j k
  droppedWake : ∀ j, (w'.node j).droppedWake = (w.node j).droppedWake
  shutdownWake : ∀ j, (w'.node j).shutdownWake = (w.node j).shutdownWake
  shutdownWaker : ∀ j, (w'.node j).shutdownWaker = (w.node j).shutdownWaker
  inst : w'.inst = w.inst
  log : w'.log = w.log
  now : w'.now = w.now

theorem Still.refl (w : World n) : Still w w :=
  ⟨fun _ _ => rfl, fun _ => rfl, fun _ => rfl, fun _ => rfl, rfl, rfl, rfl⟩

theorem Still.trans {w₁ w₂ : World n} (h : Still w w₁) (h' : Still w₁ w₂) : Still w w₂ where
  flag j k := (h'.flag j k).trans (h.flag j k)
  droppedWake j := (h'.droppedWake j).trans (h.droppedWake j)
  shutdownWake j := (h'.shutdownWake j).trans (h.shutdownWake j)
  shutdownWaker j := (h'.shutdownWaker j).trans (h.shutdownWaker j)
  inst := h'.inst.trans h.inst
  log := h'.log.trans h.log
  now := h'.now.trans h.now

/-- Resets of states that differ in latches only do. -/
theorem Still.reset {w₁ : World n} (h : Still w w₁) (j : Fin n) :
    Still (w.reset j) (w₁.reset j) where
  flag i k := by simp [h.flag]
  droppedWake i := by
    by_cases hi : i = j
    · subst hi
      simp [World.reset, TaskHandle.reset]
    · simp [World.reset, hi, h.droppedWake]
  shutdownWake i := by
    by_cases hi : i = j
    · subst hi
      simp [World.reset, TaskHandle.reset]
    · simp [World.reset, hi, h.shutdownWake]
  shutdownWaker i := by
    by_cases hi : i = j
    · subst hi
      simp [World.reset, TaskHandle.reset]
    · simp [World.reset, hi, h.shutdownWaker]
  inst := h.inst
  log := h.log
  now := h.now

theorem still_gateEvt (w : World n) (b : Bool) : Still w { w with gateEvt := b } :=
  ⟨fun _ _ => rfl, fun _ => rfl, fun _ => rfl, fun _ => rfl, rfl, rfl, rfl⟩

/-- A handle may change in what is not a flag and no latch of those. -/
theorem still_onNode {w : World n} {j : Fin n} {f : TaskHandle → TaskHandle}
    (hflags : (f (w.node j)).flags = (w.node j).flags)
    (hdropped : (f (w.node j)).droppedWake = (w.node j).droppedWake)
    (hwake : (f (w.node j)).shutdownWake = (w.node j).shutdownWake)
    (hwaker : (f (w.node j)).shutdownWaker = (w.node j).shutdownWaker) :
    Still w (w.onNode j f) := by
  refine ⟨fun i k => ?_, fun i => ?_, fun i => ?_, fun i => ?_, rfl, rfl, rfl⟩ <;>
    by_cases hi : i = j
  · simp [World.flag, hi, hflags]
  · simp [World.flag_onNode, hi]
  · simp [hi, hdropped]
  · simp [hi]
  · simp [hi, hwake]
  · simp [hi]
  · simp [hi, hwaker]
  · simp [hi]

theorem still_requestScale (w : World n) : Still w w.requestScale :=
  ⟨fun _ _ => rfl, fun _ => rfl, fun _ => rfl, fun _ => rfl, rfl, rfl, rfl⟩

theorem still_requestPass (w : World n) (s : ℕ) : Still w (w.requestPass s) :=
  ⟨fun _ _ => rfl, fun _ => rfl, fun _ => rfl, fun _ => rfl, rfl, rfl, rfl⟩

end World

end EmbassySupervisor
