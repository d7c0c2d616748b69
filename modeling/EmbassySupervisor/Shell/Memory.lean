/-
# The shared memory, access by access

A task on a preempting executor or another core runs between any two accesses the
supervisor makes, so where that matters the operations on a handle or a resource slot
are lists of their single atomic accesses (`Atom`). A flag word is written by one
`fetch_or` or `fetch_and`, a slot's value is exchanged in one critical section, and a
signal is latched or reset on its own.

Performed without interruption the lists do to a handle what the operations of
`TaskHandle` do in one step (`node_acts_markExited`, `node_acts_reset`).

`acks` is an account that no code reads: how often a provider of a slot has
acknowledged or exited. A value carries the count at which it was provided.
-/

import EmbassySupervisor.Node.Graph

namespace EmbassySupervisor

variable {n : ℕ} {V : Type}

/-- A value, and how many acknowledgements of its slot's providers preceded it. -/
structure Stamped (V : Type) where
  value : V
  acks : ℕ
  deriving DecidableEq

/-- A one-value handoff cell and the latch its fills fire. -/
structure ResourceSlot (V : Type) where
  value : Option (Stamped V) := none
  filled : Bool := false

/-- What tasks and supervisor share. -/
structure Memory (n : ℕ) (V : Type) where
  node : Fin n → TaskHandle := fun _ => {}
  slot : ℕ → ResourceSlot V := fun _ => {}
  claimed : Fin n → Bool := fun _ => false
  gateEvt : Bool := false
  stopEvt : Bool := false
  bindReq : Bool := false
  acks : ℕ → ℕ := fun _ => 0

/-- The latching signals of a handle. -/
inductive Wake
  | shutdown
  | dropped
  | resume
  | ready
  deriving DecidableEq, Repr

/-- Latch or reset one signal; either takes the waker there is. -/
def TaskHandle.latch (h : TaskHandle) (on : Bool) : Wake → TaskHandle
  | .shutdown => { h with shutdownWake := on, shutdownWaker := false }
  | .dropped => { h with droppedWake := on }
  | .resume => { h with resumeWake := on }
  | .ready => { h with readyWake := on }

/-- Clear the stale flags, in one write of the flag word. -/
def TaskHandle.clearStale (h : TaskHandle) : TaskHandle :=
  { h with flags := fun f => if f.stale then false else h.flags f }

/-- One access. `drop` sets the acknowledgement of a node and adds it to the account of
the slots it provides. -/
inductive Atom (n : ℕ) (V : Type)
  | provide (r : ℕ) (v : V)
  | restore (r : ℕ) (v : Stamped V)
  | empty (r : ℕ)
  | signalFilled (r : ℕ)
  | resetFilled (r : ℕ)
  | releaseClaims (j : Fin n)
  | flagPut (j : Fin n) (f : Flag) (on : Bool)
  | clearStale (j : Fin n)
  | drop (j : Fin n) (provides : List ℕ)
  | latch (j : Fin n) (w : Wake) (on : Bool)
  | gateEvent
  | stopEvent
  | notifyBind
  deriving DecidableEq

namespace Memory

variable (m : Memory n V)

def setSlot (r : ℕ) (s : ResourceSlot V) : Memory n V :=
  { m with slot := Function.update m.slot r s }

def onNode (j : Fin n) (f : TaskHandle → TaskHandle) : Memory n V :=
  { m with node := Function.update m.node j (f (m.node j)) }

def act : Atom n V → Memory n V
  | .provide r v => m.setSlot r { m.slot r with value := some ⟨v, m.acks r⟩ }
  | .restore r v => m.setSlot r { m.slot r with value := some v }
  | .empty r => m.setSlot r { m.slot r with value := none }
  | .signalFilled r => m.setSlot r { m.slot r with filled := true }
  | .resetFilled r => m.setSlot r { m.slot r with filled := false }
  | .releaseClaims j => { m with claimed := Function.update m.claimed j false }
  | .flagPut j f on => m.onNode j fun h => h.flagPut f on
  | .clearStale j => m.onNode j TaskHandle.clearStale
  | .drop j provides =>
    { m.onNode j fun h => h.flagPut .dropped true with
      acks := fun r => if r ∈ provides then m.acks r + 1 else m.acks r }
  | .latch j w on => m.onNode j fun h => h.latch on w
  | .gateEvent => { m with gateEvt := true }
  | .stopEvent => { m with stopEvt := true }
  | .notifyBind => { m with bindReq := true }

/-- Perform a list of accesses without interruption. -/
def acts (l : List (Atom n V)) : Memory n V := l.foldl act m

/-- What is in a slot. -/
def value (r : ℕ) : Option (Stamped V) := (m.slot r).value

def flag (j : Fin n) (f : Flag) : Bool := (m.node j).flags f

end Memory

/-! ## The operations, access by access -/

namespace Atom

/-- Fill a slot and wake the supervisor's waits. -/
def fill (put : Atom n V) (r : ℕ) : List (Atom n V) := [put, .signalFilled r, .gateEvent]

/-- Empty a slot, then reset its latch. -/
def clear (r : ℕ) : List (Atom n V) := [.empty r, .resetFilled r]

/-- The slots a node's acknowledgement clears: a `Pause` instance keeps what it
published. -/
def clears (cfg : NodeCfg n) : List ℕ :=
  match cfg.mode with
  | .pause => []
  | .terminate | .onDemand => cfg.provides

def releaseProvided (cfg : NodeCfg n) (j : Fin n) : List (Atom n V) :=
  match cfg.mode with
  | .pause => []
  | .terminate | .onDemand =>
    cfg.provides.flatMap clear ++ if cfg.claims then [.releaseClaims j] else []

def settleDropped (cfg : NodeCfg n) (j : Fin n) : List (Atom n V) :=
  [.flagPut j .running false, .drop j (clears cfg), .latch j .dropped true, .stopEvent,
    .notifyBind]

def ackDropped (cfg : NodeCfg n) (j : Fin n) : List (Atom n V) :=
  releaseProvided cfg j ++ settleDropped cfg j

def markExited (cfg : NodeCfg n) (j : Fin n) : List (Atom n V) :=
  releaseProvided cfg j ++ .flagPut j .completed true :: settleDropped cfg j

def reset (j : Fin n) : List (Atom n V) :=
  [.clearStale j, .latch j .ready false, .latch j .shutdown false, .latch j .dropped false]

/-- The slot whose value an access exchanges. -/
def touches : Atom n V → Option ℕ
  | .provide r _ | .restore r _ | .empty r => some r
  | .signalFilled _ | .resetFilled _ | .releaseClaims _ | .flagPut _ _ _ | .clearStale _
  | .drop _ _ | .latch _ _ _ | .gateEvent | .stopEvent | .notifyBind => none

/-- An access that puts a value into a slot. -/
def puts : Atom n V → Bool
  | .provide _ _ | .restore _ _ => true
  | .empty _ | .signalFilled _ | .resetFilled _ | .releaseClaims _ | .flagPut _ _ _
  | .clearStale _ | .drop _ _ | .latch _ _ _ | .gateEvent | .stopEvent | .notifyBind => false

/-- The write of an acknowledgement. -/
def drops : Atom n V → Bool
  | .drop _ _ => true
  | .provide _ _ | .restore _ _ | .empty _ | .signalFilled _ | .resetFilled _
  | .releaseClaims _ | .flagPut _ _ _ | .clearStale _ | .latch _ _ _ | .gateEvent
  | .stopEvent | .notifyBind => false

/-- What an access writes into one flag of one node, if it writes it. -/
def put (j : Fin n) (f : Flag) : Atom n V → Option Bool
  | .flagPut k g on => if k = j ∧ g = f then some on else none
  | .clearStale k => if k = j ∧ f.stale = true then some false else none
  | .drop k _ => if k = j ∧ f = .dropped then some true else none
  | .provide _ _ | .restore _ _ | .empty _ | .signalFilled _ | .resetFilled _
  | .releaseClaims _ | .latch _ _ _ | .gateEvent | .stopEvent | .notifyBind => none

/-- The node whose handle an access writes. -/
def target : Atom n V → Option (Fin n)
  | .flagPut j _ _ | .clearStale j | .drop j _ | .latch j _ _ => some j
  | .provide _ _ | .restore _ _ | .empty _ | .signalFilled _ | .resetFilled _
  | .releaseClaims _ | .gateEvent | .stopEvent | .notifyBind => none

end Atom

namespace Memory

variable {m : Memory n V}

@[simp]
theorem value_setSlot (r r' : ℕ) (s : ResourceSlot V) :
    (m.setSlot r s).value r' = if r' = r then s.value else m.value r' := by
  by_cases h : r' = r <;> simp [setSlot, value, h]

/-- Only an access to its value changes what a slot holds. -/
theorem value_act {a : Atom n V} {r : ℕ} (h : a.touches ≠ some r) :
    (m.act a).value r = m.value r := by
  cases a with
  | provide k v | restore k v | empty k =>
      have hne : r ≠ k := fun heq => h (by rw [heq]; rfl)
      simp [act, hne]
  | signalFilled k | resetFilled k =>
      simp only [act, value_setSlot]
      split
      · next heq => rw [heq, value]
      · rfl
  | releaseClaims | flagPut | clearStale | drop | latch | gateEvent | stopEvent
  | notifyBind => rfl

@[simp]
theorem value_act_provide (r r' : ℕ) (v : V) :
    (m.act (.provide r v)).value r' = if r' = r then some ⟨v, m.acks r⟩ else m.value r' := by
  simp [act]

@[simp]
theorem value_act_restore (r r' : ℕ) (v : Stamped V) :
    (m.act (.restore r v)).value r' = if r' = r then some v else m.value r' := by
  simp [act]

@[simp]
theorem value_act_empty (r r' : ℕ) :
    (m.act (.empty r)).value r' = if r' = r then none else m.value r' := by
  simp [act]

/-- A flag is what the last access to it wrote. -/
theorem flag_act (a : Atom n V) (j : Fin n) (f : Flag) :
    (m.act a).flag j f = (a.put j f).getD (m.flag j f) := by
  cases a with
  | flagPut k g on =>
      by_cases hk : j = k
      · subst hk
        by_cases hg : f = g
        · simp [act, onNode, flag, Atom.put, hg]
        · simp [act, onNode, flag, Atom.put, hg, Ne.symm hg]
      · simp [act, onNode, flag, Atom.put, hk, Ne.symm hk]
  | clearStale k =>
      by_cases hk : j = k
      · subst hk
        by_cases hf : f.stale = true
        · simp [act, onNode, flag, Atom.put, TaskHandle.clearStale, hf]
        · simp [act, onNode, flag, Atom.put, TaskHandle.clearStale, hf]
      · simp [act, onNode, flag, Atom.put, hk, Ne.symm hk]
  | drop k provides =>
      by_cases hk : j = k
      · subst hk
        by_cases hf : f = .dropped
        · simp [act, onNode, flag, Atom.put, hf]
        · simp [act, onNode, flag, Atom.put, hf]
      · simp [act, onNode, flag, Atom.put, hk, Ne.symm hk]
  | latch k w on =>
      by_cases hk : j = k
      · subst hk
        cases w <;> simp [act, onNode, flag, Atom.put, TaskHandle.latch]
      · simp [act, onNode, flag, Atom.put, hk]
  | provide | restore | empty | signalFilled | resetFilled | releaseClaims | gateEvent
  | stopEvent | notifyBind => rfl

/-! ## Without interruption -/

theorem acts_append (l l' : List (Atom n V)) : m.acts (l ++ l') = (m.acts l).acts l' :=
  List.foldl_append

theorem acts_cons (a : Atom n V) (l : List (Atom n V)) : m.acts (a :: l) = (m.act a).acts l :=
  rfl

theorem node_act {a : Atom n V} (h : a.target = none) : (m.act a).node = m.node := by
  cases a with
  | flagPut | clearStale | drop | latch => simp [Atom.target] at h
  | provide | restore | empty | signalFilled | resetFilled | releaseClaims | gateEvent
  | stopEvent | notifyBind => rfl

theorem node_acts {l : List (Atom n V)} (h : ∀ a ∈ l, a.target = none) :
    (m.acts l).node = m.node := by
  induction l generalizing m with
  | nil => rfl
  | cons a l ih =>
      obtain ⟨hfirst, hrest⟩ := List.forall_mem_cons.mp h
      rw [acts_cons, ih hrest, node_act hfirst]

/-- What is released on the way down: slots cleared, claims given back. -/
theorem forall_releaseProvided {P : Atom n V → Prop} {cfg : NodeCfg n} {j : Fin n}
    (hempty : ∀ r, P (.empty r)) (hreset : ∀ r, P (.resetFilled r))
    (hclaims : P (.releaseClaims j)) : ∀ a ∈ Atom.releaseProvided cfg j, P a := by
  intro a ha
  unfold Atom.releaseProvided at ha
  cases hmode : cfg.mode with
  | pause => simp [hmode] at ha
  | terminate | onDemand =>
      simp only [hmode, List.mem_append, List.mem_flatMap] at ha
      rcases ha with ⟨r, _, har⟩ | har
      · simp only [Atom.clear, List.mem_cons, List.not_mem_nil, or_false] at har
        rcases har with rfl | rfl
        · exact hempty r
        · exact hreset r
      · split at har
        · rw [List.mem_singleton.mp har]
          exact hclaims
        · simp at har

/-- In one go, the accesses of `mark_exited` record the exit and settle the handle. -/
theorem node_acts_markExited (cfg : NodeCfg n) (j : Fin n) :
    (m.acts (Atom.markExited cfg j)).node j =
      ((m.node j).flagPut .completed true).settleDropped := by
  have hrelease : (m.acts (Atom.releaseProvided cfg j)).node = m.node :=
    node_acts (forall_releaseProvided (fun _ => rfl) (fun _ => rfl) rfl)
  rw [Atom.markExited, acts_append]
  generalize m.acts (Atom.releaseProvided cfg j) = released at hrelease
  simp [Atom.settleDropped, acts, act, onNode, hrelease, TaskHandle.settleDropped,
    TaskHandle.latch]

/-- An exit puts nothing into any slot. -/
theorem puts_markExited (cfg : NodeCfg n) (j : Fin n) :
    ∀ a ∈ (Atom.markExited cfg j : List (Atom n V)), a.puts = false := by
  intro a ha
  rcases List.mem_append.mp ha with ha | ha
  · exact forall_releaseProvided (P := fun a => a.puts = false) (fun _ => rfl) (fun _ => rfl)
      rfl a ha
  · simp only [Atom.settleDropped, List.mem_cons, List.not_mem_nil, or_false] at ha
    rcases ha with rfl | rfl | rfl | rfl | rfl | rfl <;> rfl

/-- In one go, the accesses of `reset` are the reset of the handle. -/
theorem node_acts_reset (j : Fin n) : (m.acts (Atom.reset j)).node j = (m.node j).reset := by
  simp [Atom.reset, acts, act, onNode, TaskHandle.clearStale, TaskHandle.latch, TaskHandle.reset]

end Memory

end EmbassySupervisor
