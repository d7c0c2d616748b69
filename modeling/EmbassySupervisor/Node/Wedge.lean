/-
# Acknowledgements held back by a wedge

A wedged node swallows the acknowledgement of its own stop: `ack_dropped` and `mark_exited`
leave a pending bit behind instead, and whoever replaces the fault replays it. Both sides
act on the same words without a lock, one atomic access at a time, so the swallowing side
looks at the fault again after it has left the bit and takes it back if the wedge is gone.

The run here is one acknowledgement of one instance among any number of injections, several
of which may be under way at once. What `ack_dropped` does to resource slots and budgets
before it comes to the wedge touches none of this and is left out. `wedged_ack_once` is the
law of the exchange: right to deliver is a token that the call, the pending bit or one
replay holds, and it is spent once.
-/

import EmbassySupervisor.Lib.Interleaving
import EmbassySupervisor.Lib.LabelledRun
import EmbassySupervisor.Node.TaskHandle

namespace EmbassySupervisor

open LabelledRun Interleaving

/-- An injected fault. The bound of a hog is in milliseconds. -/
inductive Fault
  | none
  | stall
  | wedge
  | crash
  | hog (ms : ℕ)
  deriving DecidableEq, Repr

namespace Fault

/-- A fault as the two words of the handle hold it. -/
def encode : Fault → ℕ × ℕ
  | .none => (0, 0)
  | .stall => (1, 0)
  | .wedge => (2, 0)
  | .crash => (3, 0)
  | .hog ms => (4, min ms 4294967295)

def decode (code ms : ℕ) : Fault :=
  match code with
  | 1 => .stall
  | 2 => .wedge
  | 3 => .crash
  | 4 => .hog ms
  | _ => .none

/-- The word of the hog's bound does not matter to what reads as a wedge. -/
@[simp]
theorem decode_eq_wedge {code ms : ℕ} : decode code ms = .wedge ↔ code = 2 := by
  unfold decode
  split <;> simp_all

@[simp]
theorem encode_code_eq_two {f : Fault} : f.encode.1 = 2 ↔ f = .wedge := by
  cases f <;> simp [encode]

end Fault

/-- What a delivery tells the rest of the system, and the wake of a faulted worker. -/
inductive Notice
  | stop
  | bind
  | serving
  | fault
  deriving DecidableEq, Repr

/-- A handle with the words of the fault injection. `delivered` counts how often the waiter
for the acknowledgement was signalled; no code reads it. -/
structure FaultyHandle extends TaskHandle where
  pendingAck : Bool := false
  pendingExit : Bool := false
  fault : ℕ := 0
  hogMs : ℕ := 0
  notices : Notice → Bool := fun _ => false
  delivered : ℕ := 0

namespace FaultyHandle

variable (h : FaultyHandle)

def flagPut (f : Flag) (on : Bool) : FaultyHandle :=
  { h with toTaskHandle := h.toTaskHandle.flagPut f on }

def signalDropped : FaultyHandle := { h with droppedWake := true, delivered := h.delivered + 1 }

/-- The node reads as wedged. -/
def Wedged : Prop := Fault.decode h.fault h.hogMs = .wedge

instance : Decidable h.Wedged := inferInstanceAs (Decidable (_ = _))

theorem wedged_iff : h.Wedged ↔ h.fault = 2 := Fault.decode_eq_wedge

end FaultyHandle

/-- The writes of `settle_dropped` up to the signal, with the one of `mark_exited` before
them. -/
inductive Settle
  | completed
  | running
  | dropped
  | signal
  deriving DecidableEq, Repr

/-- Where a call stands, at one of its atomic accesses. The first six are
`wedge_swallows`: load the fault, load the bound, leave the pending bits, load both again,
take the bits back. The next three are `inject` and `clear_fault`, whose `drain` takes the
bits to replay them. A delivery goes through `settle` and ends in its notices. -/
inductive FaultCall
  | look
  | lookMs (code : ℕ)
  | mark
  | relook
  | relookMs (code : ℕ)
  | takeBack
  | storeMs (f : Fault)
  | storeCode (f : Fault)
  | drain
  | settle (stage : Settle) (tail : List Notice)
  | notify (rest : List Notice)
  deriving DecidableEq, Repr

namespace FaultCall

/-- The notices of `settle_dropped`. -/
def settled : List Notice := [.stop, .bind, .serving]

/-- `mark_exited` records the exit first, `ack_dropped` does not. -/
def deliver (exit : Bool) (tail : List Notice) : FaultCall :=
  .settle (if exit then .completed else .running) tail

/-- Replay what the drained bits stand for. -/
def replaySwallowed (ack exit : Bool) : FaultCall :=
  if ack then deliver exit (settled ++ [.fault]) else .notify [.fault]

/-- Inject a fault or, with none, clear it. All but a wedge need a shell. -/
def inject (shelled : Bool) (f : Fault) : FaultCall :=
  if f = .none then .storeCode .none
  else if f ≠ .wedge ∧ shelled = false then .notify []
  else .storeMs f

/-- One atomic access, of `mark_exited` for an `exit` and otherwise of `ack_dropped`, or of
an injection. -/
def step (exit : Bool) (h : FaultyHandle) : FaultCall → Option (FaultCall × FaultyHandle)
  | .look => some (.lookMs h.fault, h)
  | .lookMs code =>
    some (if Fault.decode code h.hogMs = .wedge then .mark else deliver exit settled, h)
  | .mark => some (.relook, { h with pendingAck := true, pendingExit := h.pendingExit || exit })
  | .relook => some (.relookMs h.fault, h)
  | .relookMs code =>
    some (if Fault.decode code h.hogMs = .wedge then .notify [] else .takeBack, h)
  | .takeBack =>
    some (if h.pendingAck then deliver exit settled else .notify [],
      { h with pendingAck := false, pendingExit := h.pendingExit && !exit })
  | .storeMs f => some (.storeCode f, { h with hogMs := f.encode.2 })
  | .storeCode f =>
    some (if f = .wedge then .notify [.fault] else .drain, { h with fault := f.encode.1 })
  | .drain =>
    some (replaySwallowed h.pendingAck h.pendingExit,
      { h with pendingAck := false, pendingExit := false })
  | .settle .completed tail => some (.settle .running tail, h.flagPut .completed true)
  | .settle .running tail => some (.settle .dropped tail, h.flagPut .running false)
  | .settle .dropped tail => some (.settle .signal tail, h.flagPut .dropped true)
  | .settle .signal tail => some (.notify tail, h.signalDropped)
  | .notify (e :: rest) =>
    some (.notify rest, { h with notices := Function.update h.notices e true })
  | .notify [] => none

def finished (c : FaultCall) : Prop := c = .notify []

/-- The call is the one that will deliver, or leave the pending bit. -/
def owes : FaultCall → Bool
  | .look | .lookMs _ | .mark | .settle _ _ => true
  | .relook | .relookMs _ | .takeBack | .storeMs _ | .storeCode _ | .drain | .notify _ => false

/-- The accesses of an injection. -/
def injecting : FaultCall → Bool
  | .storeMs _ | .storeCode _ | .drain | .settle _ _ | .notify _ => true
  | .look | .lookMs _ | .mark | .relook | .relookMs _ | .takeBack => false

/-- The call will take the pending bit up if it finds it. -/
def collects : FaultCall → Prop
  | .drain | .relook | .takeBack => True
  | .relookMs code => code ≠ 2
  | .look | .lookMs _ | .mark | .storeMs _ | .storeCode _ | .settle _ _ | .notify _ => False

end FaultCall

/-- The handle, the acknowledgement if it has begun, and the injections in the order they
began. -/
structure WedgeSys where
  handle : FaultyHandle
  ack : Option FaultCall := none
  injects : List FaultCall := []

namespace WedgeSys

/-- The acknowledgement begins or makes an access, an injection begins or makes one. -/
inductive Label
  | acknowledge
  | ackStep
  | inject (f : Fault)
  | injectStep (k : ℕ)

def next (shelled exit : Bool) (s : WedgeSys) : Label → Option WedgeSys
  | .acknowledge => if s.ack = none then some { s with ack := some .look } else none
  | .ackStep => do
    let c ← s.ack
    let (c, h) ← c.step exit s.handle
    some { s with handle := h, ack := some c }
  | .inject f => some { s with injects := s.injects ++ [FaultCall.inject shelled f] }
  | .injectStep k => do
    let c ← s.injects[k]?
    let (c, h) ← c.step exit s.handle
    some { s with handle := h, injects := s.injects.set k c }

/-- The steps of the system, label by label. -/
inductive Step (shelled exit : Bool) (s : WedgeSys) : Label → WedgeSys → Prop
  | acknowledge (hnone : s.ack = none) :
      Step shelled exit s .acknowledge { s with ack := some .look }
  | ackStep {c c' : FaultCall} {h : FaultyHandle} (hack : s.ack = some c)
      (hstep : c.step exit s.handle = some (c', h)) :
      Step shelled exit s .ackStep { s with handle := h, ack := some c' }
  | inject {f : Fault} :
      Step shelled exit s (.inject f) { s with injects := s.injects ++ [.inject shelled f] }
  | injectStep {k : ℕ} {c c' : FaultCall} {h : FaultyHandle} (hcall : s.injects[k]? = some c)
      (hstep : c.step exit s.handle = some (c', h)) :
      Step shelled exit s (.injectStep k) { s with handle := h, injects := s.injects.set k c' }

variable {shelled exit : Bool} {s t : WedgeSys} {l : Label}

/-- **Inversion of a step.** -/
theorem next_cases (h : next shelled exit s l = some t) : Step shelled exit s l t := by
  cases l with
  | acknowledge =>
      simp only [next] at h
      split at h
      · next hnone =>
          cases h
          exact .acknowledge hnone
      · cases h
  | ackStep =>
      obtain ⟨c, hack, h⟩ := Option.bind_eq_some_iff.mp h
      obtain ⟨⟨c', m⟩, hstep, h⟩ := Option.bind_eq_some_iff.mp h
      cases h
      exact .ackStep hack hstep
  | inject f =>
      cases h
      exact .inject
  | injectStep k =>
      obtain ⟨c, hcall, h⟩ := Option.bind_eq_some_iff.mp h
      obtain ⟨⟨c', m⟩, hstep, h⟩ := Option.bind_eq_some_iff.mp h
      cases h
      exact .injectStep hcall hstep

end WedgeSys

/-! ## One access -/

namespace FaultyHandle

/-- What a delivery has recorded by the time it reaches a stage. -/
def Reached (exit : Bool) (h : FaultyHandle) : Settle → Prop
  | .completed => True
  | .running => exit = true → h.flags .completed = true
  | .dropped => (exit = true → h.flags .completed = true) ∧ h.flags .running = false
  | .signal => (exit = true → h.flags .completed = true) ∧ h.flags .running = false ∧
      h.flags .dropped = true

/-- The stop is recorded and its waiter was signalled. -/
def Delivered (exit : Bool) (h : FaultyHandle) : Prop :=
  h.Reached exit .signal ∧ h.droppedWake = true

/-- No acknowledgement is pending and none was delivered. -/
structure Fresh (h : FaultyHandle) : Prop where
  pendingAck : h.pendingAck = false
  pendingExit : h.pendingExit = false
  delivered : h.delivered = 0

/-- What one handle has recorded of a stop, another has too. -/
structure Recorded (h h' : FaultyHandle) : Prop where
  completed : h.flags .completed = true → h'.flags .completed = true
  running : h.flags .running = false → h'.flags .running = false
  dropped : h.flags .dropped = true → h'.flags .dropped = true
  droppedWake : h.droppedWake = true → h'.droppedWake = true

variable {h h' : FaultyHandle} {exit : Bool}

theorem Recorded.reached (hle : Recorded h h') {stage : Settle} (hr : h.Reached exit stage) :
    h'.Reached exit stage := by
  cases stage with
  | completed => trivial
  | running => exact fun he => hle.completed (hr he)
  | dropped => exact ⟨fun he => hle.completed (hr.1 he), hle.running hr.2⟩
  | signal =>
      exact ⟨fun he => hle.completed (hr.1 he), hle.running hr.2.1, hle.dropped hr.2.2⟩

theorem Recorded.delivered (hle : Recorded h h') (hd : h.Delivered exit) : h'.Delivered exit :=
  ⟨hle.reached hd.1, hle.droppedWake hd.2⟩

end FaultyHandle

namespace FaultCall

open FaultyHandle

variable {h h' : FaultyHandle} {c c' : FaultCall} {exit : Bool}

/-- A call in the middle of a delivery has recorded what comes before. -/
def Honest (exit : Bool) (h : FaultyHandle) (c : FaultCall) : Prop :=
  ∀ stage tail, c = .settle stage tail → h.Reached exit stage

theorem honest_deliver (tail : List Notice) : Honest exit h (deliver exit tail) := by
  rintro stage tail' heq
  cases exit with
  | true =>
      cases heq
      trivial
  | false =>
      cases heq
      exact nofun

theorem Honest.mono (hle : Recorded h h') (hc : c.Honest exit h) : c.Honest exit h' :=
  fun stage tail heq => hle.reached (hc stage tail heq)

/-- A call that is in no delivery. -/
theorem honest_of_ne (hc : ∀ stage tail, c ≠ .settle stage tail) : c.Honest exit h :=
  fun stage tail heq => absurd heq (hc stage tail)

/-- No access undoes what a delivery has recorded. -/
theorem recorded_step (hstep : c.step exit h = some (c', h')) : Recorded h h' := by
  cases c with
  | look | lookMs | mark | relook | relookMs | takeBack | storeMs | storeCode | drain =>
      cases hstep
      exact ⟨id, id, id, id⟩
  | settle stage tail =>
      cases stage with
      | completed | running | dropped | signal =>
          cases hstep
          constructor <;> simp [flagPut, TaskHandle.flagPut, signalDropped]
  | notify rest =>
      cases rest with
      | nil => cases hstep
      | cons e rest =>
          cases hstep
          exact ⟨id, id, id, id⟩

/-- The pending exit goes with the pending acknowledgement. -/
theorem pendingExit_step (hstep : c.step exit h = some (c', h'))
    (hexit : h.pendingExit = (h.pendingAck && exit)) :
    h'.pendingExit = (h'.pendingAck && exit) := by
  cases c with
  | look | lookMs | relook | relookMs | storeMs | storeCode | drain =>
      cases hstep
      first | exact hexit | rfl
  | mark =>
      cases hstep
      simp [hexit]
  | takeBack =>
      cases hstep
      cases exit <;> simp [hexit]
  | settle stage tail =>
      cases stage with
      | completed | running | dropped | signal =>
          cases hstep
          exact hexit
  | notify rest =>
      cases rest with
      | nil => cases hstep
      | cons e rest =>
          cases hstep
          exact hexit

/-- **The token.** An access passes the right to deliver on or spends it. -/
theorem token_step (hstep : c.step exit h = some (c', h'))
    (hone : c.owes.toNat + h.pendingAck.toNat ≤ 1) :
    c'.owes.toNat + h'.pendingAck.toNat + h'.delivered =
      c.owes.toNat + h.pendingAck.toNat + h.delivered := by
  cases c with
  | look | relook | storeMs =>
      cases hstep
      rfl
  | lookMs code =>
      cases hstep
      by_cases hcode : code = 2 <;> simp [hcode, owes, deliver]
  | mark =>
      cases hstep
      have hclear : h.pendingAck = false := by
        cases hp : h.pendingAck with
        | false => rfl
        | true => simp [owes, hp] at hone
      simp [owes, hclear]
  | relookMs code =>
      cases hstep
      by_cases hcode : code = 2 <;> simp [hcode, owes]
  | takeBack =>
      cases hstep
      cases hack : h.pendingAck <;> simp [owes, deliver]
  | storeCode f =>
      cases hstep
      by_cases hf : f = .wedge <;> simp [hf, owes]
  | drain =>
      cases hstep
      cases hack : h.pendingAck <;> simp [owes, deliver, replaySwallowed]
  | settle stage tail =>
      cases stage with
      | completed | running | dropped =>
          cases hstep
          rfl
      | signal =>
          cases hstep
          simp [owes, signalDropped]
          omega
  | notify rest =>
      cases rest with
      | nil => cases hstep
      | cons e rest =>
          cases hstep
          rfl

/-- A delivery records each of its writes before it goes on. -/
theorem honest_step (hstep : c.step exit h = some (c', h')) (hc : c.Honest exit h)
    (hexit : h.pendingExit = (h.pendingAck && exit)) : c'.Honest exit h' := by
  cases c with
  | look | mark | relook | storeMs =>
      cases hstep
      exact honest_of_ne nofun
  | lookMs code =>
      cases hstep
      split
      · exact honest_of_ne nofun
      · exact honest_deliver _
  | relookMs code =>
      cases hstep
      split <;> exact honest_of_ne nofun
  | takeBack =>
      cases hstep
      split
      · exact honest_deliver _
      · exact honest_of_ne nofun
  | storeCode f =>
      cases hstep
      split <;> exact honest_of_ne nofun
  | drain =>
      cases hstep
      unfold replaySwallowed
      split
      · next hack =>
          rw [hexit, hack, Bool.true_and]
          exact honest_deliver _
      · exact honest_of_ne nofun
  | settle stage tail =>
      have hr := hc stage tail rfl
      cases stage with
      | completed | running | dropped =>
          cases hstep
          rintro stage' tail' heq
          cases heq
          simp_all [Reached, flagPut]
      | signal =>
          cases hstep
          exact honest_of_ne nofun
  | notify rest =>
      cases rest with
      | nil => cases hstep
      | cons e rest =>
          cases hstep
          exact honest_of_ne nofun

/-- The waiter is signalled only once all the rest is recorded. -/
theorem delivered_step (hstep : c.step exit h = some (c', h')) (hc : c.Honest exit h)
    (hold : 0 < h.delivered → h.Delivered exit) : 0 < h'.delivered → h'.Delivered exit := by
  intro hpos
  by_cases hsame : h'.delivered = h.delivered
  · exact (recorded_step hstep).delivered (hold (hsame ▸ hpos))
  · cases c with
    | look | lookMs | mark | relook | relookMs | takeBack | storeMs | storeCode | drain =>
        cases hstep
        exact absurd rfl hsame
    | settle stage tail =>
        cases stage with
        | completed | running | dropped =>
            cases hstep
            exact absurd rfl hsame
        | signal =>
            have hr := (recorded_step hstep).reached (hc .signal tail rfl)
            cases hstep
            exact ⟨hr, rfl⟩
    | notify rest =>
        cases rest with
        | nil => cases hstep
        | cons e rest =>
            cases hstep
            exact absurd rfl hsame

/-- An injection stays one. -/
theorem injecting_step (hstep : c.step exit h = some (c', h')) (hc : c.injecting = true) :
    c'.injecting = true := by
  cases c with
  | look | lookMs | mark | relook | relookMs | takeBack => cases hc
  | storeMs =>
      cases hstep
      rfl
  | storeCode f =>
      cases hstep
      split <;> rfl
  | drain =>
      cases hstep
      unfold replaySwallowed
      split <;> rfl
  | settle stage tail =>
      cases stage with
      | completed | running | dropped | signal =>
          cases hstep
          rfl
  | notify rest =>
      cases rest with
      | nil => cases hstep
      | cons e rest =>
          cases hstep
          rfl

theorem injecting_inject (shelled : Bool) (f : Fault) : (inject shelled f).injecting = true := by
  unfold inject
  split
  · rfl
  · split <;> rfl

theorem owes_inject (shelled : Bool) (f : Fault) : (inject shelled f).owes = false := by
  unfold inject
  split
  · rfl
  · split <;> rfl

/-- An access that leaves a bit pending and the node not wedged is followed by one that
takes it up, unless the bit was already there and the call was not the one to collect it. -/
theorem collects_step (hstep : c.step exit h = some (c', h')) (hpend : h'.pendingAck = true)
    (hcode : h'.fault ≠ 2) :
    c'.collects ∨ ¬ c.collects ∧ h.pendingAck = true ∧ h.fault ≠ 2 := by
  cases c with
  | look | lookMs | storeMs =>
      cases hstep
      exact .inr ⟨id, hpend, hcode⟩
  | mark =>
      cases hstep
      exact .inl trivial
  | relook =>
      cases hstep
      exact .inl hcode
  | relookMs code =>
      cases hstep
      split
      · next hwedge =>
          exact .inr ⟨fun h => h (Fault.decode_eq_wedge.mp hwedge), hpend, hcode⟩
      · exact .inl trivial
  | takeBack | drain =>
      cases hstep
      cases hpend
  | storeCode f =>
      cases hstep
      have hf : f ≠ .wedge := fun heq => hcode (Fault.encode_code_eq_two.mpr heq)
      rw [if_neg hf]
      exact .inl trivial
  | settle stage tail =>
      cases stage with
      | completed | running | dropped | signal =>
          cases hstep
          exact .inr ⟨id, hpend, hcode⟩
  | notify rest =>
      cases rest with
      | nil => cases hstep
      | cons e rest =>
          cases hstep
          exact .inr ⟨id, hpend, hcode⟩

/-- A call that has seen nothing but a wedge. -/
def swallows : FaultCall → Prop
  | .look | .mark | .relook => True
  | .lookMs code | .relookMs code => code = 2
  | .notify rest => rest = []
  | .takeBack | .storeMs _ | .storeCode _ | .drain | .settle _ _ => False

/-- As long as the node is wedged such a call remains one and records no stop. -/
theorem swallows_step (hstep : c.step exit h = some (c', h')) (hc : c.swallows)
    (hwedged : h.Wedged) : c'.swallows ∧ h'.flags = h.flags := by
  cases c with
  | look | relook =>
      cases hstep
      exact ⟨h.wedged_iff.mp hwedged, rfl⟩
  | lookMs code =>
      cases hstep
      rw [if_pos (Fault.decode_eq_wedge.mpr hc)]
      exact ⟨trivial, rfl⟩
  | mark =>
      cases hstep
      exact ⟨trivial, rfl⟩
  | relookMs code =>
      cases hstep
      rw [if_pos (Fault.decode_eq_wedge.mpr hc)]
      exact ⟨rfl, rfl⟩
  | notify rest =>
      cases hc
      cases hstep
  | takeBack | storeMs | storeCode | drain | settle => exact hc.elim

end FaultCall

/-! ## Runs -/

namespace WedgeSys

variable {shelled exit : Bool} {s t : WedgeSys} {l : Label} {h : FaultyHandle}
  {labels : List Label}

/-- What holds in every state of a run: the token is in one place, every delivery is honest
about what it has recorded, and a pending bit that no wedge protects has a collector. -/
structure Once (exit : Bool) (s : WedgeSys) : Prop where
  token : (s.ack.any FaultCall.owes).toNat + s.injects.countP FaultCall.owes +
    s.handle.pendingAck.toNat + s.handle.delivered = s.ack.isSome.toNat
  pendingExit : s.handle.pendingExit = (s.handle.pendingAck && exit)
  injecting : ∀ c ∈ s.injects, c.injecting = true
  honestAck : ∀ c, s.ack = some c → c.Honest exit s.handle
  honestInjects : ∀ c ∈ s.injects, c.Honest exit s.handle
  delivered : 0 < s.handle.delivered → s.handle.Delivered exit
  collected : s.handle.pendingAck = true → s.handle.fault ≠ 2 →
    (∃ c, s.ack = some c ∧ c.collects) ∨ ∃ c ∈ s.injects, c.collects

theorem once_fresh (hfresh : h.Fresh) : Once exit { handle := h } where
  token := by simp [hfresh.pendingAck, hfresh.delivered]
  pendingExit := by simp [hfresh.pendingAck, hfresh.pendingExit]
  injecting := nofun
  honestAck := nofun
  honestInjects := nofun
  delivered := by simp [hfresh.delivered]
  collected := by simp [hfresh.pendingAck]

theorem once_next (hs : Once exit s) (hnext : next shelled exit s l = some t) : Once exit t := by
  have htoken := hs.token
  cases next_cases hnext with
  | acknowledge hnone =>
      rw [hnone] at htoken
      have hclear : s.handle.pendingAck = false := by
        cases hp : s.handle.pendingAck with
        | false => rfl
        | true => simp [hp] at htoken
      refine ⟨?_, hs.pendingExit, hs.injecting, ?_, hs.honestInjects, hs.delivered, ?_⟩
      · simp only [Option.any_none, Bool.toNat_false, Option.isSome_none] at htoken
        simp only [Option.any_some, FaultCall.owes, Bool.toNat_true, Option.isSome_some]
        omega
      · rintro c heq
        cases heq
        exact FaultCall.honest_of_ne nofun
      · intro hpend
        simp [hclear] at hpend
  | @ackStep c c' m hack hstep =>
      simp only [hack, Option.any_some, Option.isSome_some, Bool.toNat_true] at htoken
      have hpass := FaultCall.token_step hstep (by omega)
      have hle := FaultCall.recorded_step hstep
      have hhonest := hs.honestAck c hack
      refine ⟨?_, FaultCall.pendingExit_step hstep hs.pendingExit, hs.injecting, ?_,
        fun d hd => (hs.honestInjects d hd).mono hle,
        FaultCall.delivered_step hstep hhonest hs.delivered, fun hpend hcode => ?_⟩
      · simp only [Option.any_some, Option.isSome_some, Bool.toNat_true]
        omega
      · rintro d heq
        cases heq
        exact FaultCall.honest_step hstep hhonest hs.pendingExit
      · rcases FaultCall.collects_step hstep hpend hcode with hc' | ⟨hc, hpend, hcode⟩
        · exact .inl ⟨c', rfl, hc'⟩
        · rcases hs.collected hpend hcode with ⟨d, hd, hcoll⟩ | hinj
          · cases hack.symm.trans hd
            exact absurd hcoll hc
          · exact .inr hinj
  | @inject f =>
      refine ⟨?_, hs.pendingExit, ?_, hs.honestAck, ?_, hs.delivered, fun hpend hcode => ?_⟩
      · simpa [FaultCall.owes_inject] using htoken
      · intro c hc
        rcases List.mem_append.mp hc with hc | hc
        · exact hs.injecting c hc
        · rw [List.mem_singleton.mp hc]
          exact FaultCall.injecting_inject shelled f
      · intro c hc
        rcases List.mem_append.mp hc with hc | hc
        · exact hs.honestInjects c hc
        · rw [List.mem_singleton.mp hc]
          rintro stage tail heq
          have howes := FaultCall.owes_inject shelled f
          rw [heq] at howes
          cases howes
      · rcases hs.collected hpend hcode with hack | ⟨c, hc, hcoll⟩
        · exact .inl hack
        · exact .inr ⟨c, List.mem_append_left _ hc, hcoll⟩
  | @injectStep k c c' m hcall hstep =>
      have hc := List.mem_of_getElem? hcall
      have hmove := countP_set_add FaultCall.owes c' hcall
      have hone : s.ack.isSome.toNat ≤ 1 := Bool.toNat_le _
      have hpos : c.owes.toNat ≤ s.injects.countP FaultCall.owes := by
        cases howes : c.owes with
        | false => exact Nat.zero_le _
        | true => exact List.countP_pos_iff.mpr ⟨c, hc, howes⟩
      have hpass := FaultCall.token_step hstep (by omega)
      have hle := FaultCall.recorded_step hstep
      have hhonest := hs.honestInjects c hc
      refine ⟨?_, FaultCall.pendingExit_step hstep hs.pendingExit,
        forall_mem_set hs.injecting (FaultCall.injecting_step hstep (hs.injecting c hc)),
        fun d hd => (hs.honestAck d hd).mono hle,
        forall_mem_set (fun d hd => (hs.honestInjects d hd).mono hle)
          (FaultCall.honest_step hstep hhonest hs.pendingExit),
        FaultCall.delivered_step hstep hhonest hs.delivered, fun hpend hcode => ?_⟩
      · show (s.ack.any FaultCall.owes).toNat + (s.injects.set k c').countP FaultCall.owes +
          m.pendingAck.toNat + m.delivered = s.ack.isSome.toNat
        omega
      · rcases FaultCall.collects_step hstep hpend hcode with hc' | ⟨hnot, hpend, hcode⟩
        · have hlt := (List.getElem?_eq_some_iff.mp hcall).1
          exact .inr ⟨c', List.mem_set hlt c', hc'⟩
        · rcases hs.collected hpend hcode with hack | ⟨d, hd, hcoll⟩
          · exact .inl hack
          · refine .inr ⟨d, mem_set_of_ne hcall hd ?_, hcoll⟩
            rintro rfl
            exact hnot hcoll

/-- Every call has returned. -/
def Finished (s : WedgeSys) : Prop :=
  (∀ c, s.ack = some c → c.finished) ∧ ∀ c ∈ s.injects, c.finished

/-- Once all calls have returned and no wedge is in force, an acknowledgement that was made
has been delivered, once. -/
theorem delivered_of_finished (hs : Once exit s) (hack : s.ack.isSome = true)
    (hfinished : s.Finished) (hfault : ¬ s.handle.Wedged) :
    s.handle.Delivered exit ∧ s.handle.pendingAck = false ∧ s.handle.pendingExit = false ∧
      s.handle.delivered = 1 := by
  have hcode : s.handle.fault ≠ 2 := fun heq => hfault (s.handle.wedged_iff.mpr heq)
  have hclear : s.handle.pendingAck = false := by
    cases hp : s.handle.pendingAck with
    | false => rfl
    | true =>
        rcases hs.collected hp hcode with ⟨c, hc, hcoll⟩ | ⟨c, hc, hcoll⟩
        · rw [hfinished.1 c hc] at hcoll
          exact hcoll.elim
        · rw [hfinished.2 c hc] at hcoll
          exact hcoll.elim
  have hnone : s.injects.countP FaultCall.owes = 0 := by
    apply List.countP_eq_zero.mpr
    intro c hc
    rw [hfinished.2 c hc]
    exact Bool.false_ne_true
  have hidle : s.ack.any FaultCall.owes = false := by
    obtain ⟨c, hc⟩ := Option.isSome_iff_exists.mp hack
    rw [hc, Option.any_some, hfinished.1 c hc]
    rfl
  have htoken := hs.token
  rw [hidle, hnone, hclear, hack] at htoken
  have hone : s.handle.delivered = 1 := by
    simpa using htoken
  refine ⟨hs.delivered (by omega), hclear, ?_, hone⟩
  rw [hs.pendingExit, hclear, Bool.false_and]

/-- A step of the acknowledgement leaves it unrecorded. -/
def Hidden (shelled exit : Bool) (s : WedgeSys) (l : Label) : Prop :=
  l = .ackStep → ∀ t, next shelled exit s l = some t →
    t.handle.flags .dropped = s.handle.flags .dropped ∧
      t.handle.flags .completed = s.handle.flags .completed

/-- While the node is wedged the acknowledgement is hidden. -/
theorem hidden_of_wedged (hack : s.ack = some .look)
    (hwedged : Along (next shelled exit) (fun u _ => u.handle.Wedged) s labels) :
    Along (next shelled exit) (Hidden shelled exit) s labels := by
  have hstep : ∀ u l v, (∃ c, u.ack = some c ∧ c.swallows) → u.handle.Wedged →
      next shelled exit u l = some v → ∃ c, v.ack = some c ∧ c.swallows := by
    rintro u l v ⟨c, hc, hswallows⟩ hw hnext
    cases next_cases hnext with
    | acknowledge hnone => exact absurd (hnone.symm.trans hc) nofun
    | ackStep hack hstep =>
        cases hack.symm.trans hc
        exact ⟨_, rfl, (FaultCall.swallows_step hstep hswallows hw).1⟩
    | inject | injectStep => exact ⟨c, hc, hswallows⟩
  have hall := Along.and_invariant hstep ⟨.look, hack, trivial⟩ hwedged
  apply hall.mono
  rintro u l ⟨⟨c, hc, hswallows⟩, hw⟩ rfl v hnext
  cases next_cases hnext with
  | ackStep hack hstep =>
      cases hack.symm.trans hc
      have hflags := (FaultCall.swallows_step hstep hswallows hw).2
      exact ⟨congrFun hflags _, congrFun hflags _⟩

/-- **A wedged acknowledgement is delivered once.** In every run of one `ack_dropped`, or
with an `exit` one `mark_exited`, among injections: as long as the node is wedged from the
call on, the call records nothing; and when all calls have returned and the node is not
wedged, the stop is recorded, nothing is pending and the waiter was signalled once. -/
theorem wedged_ack_once (hfresh : h.Fresh)
    (hrun : exec (next shelled exit) { handle := h } labels = some s) :
    (∀ front back v, labels = front ++ .acknowledge :: back →
      exec (next shelled exit) { handle := h } (front ++ [.acknowledge]) = some v →
      Along (next shelled exit) (fun u _ => u.handle.Wedged) v back →
      Along (next shelled exit) (Hidden shelled exit) v back) ∧
    (s.ack.isSome = true → s.Finished → ¬ s.handle.Wedged →
      s.handle.Delivered exit ∧ s.handle.pendingAck = false ∧ s.handle.pendingExit = false ∧
        s.handle.delivered = 1) := by
  constructor
  · intro front back v _ hv hwedged
    obtain ⟨u, v', -, hnext, heq⟩ := exec_append_cons.mp hv
    cases heq
    cases next_cases hnext with
    | acknowledge => exact hidden_of_wedged rfl hwedged
  · intro hack
    apply delivered_of_finished _ hack
    exact exec_invariant (fun u l v hu hnext => once_next hu hnext) (once_fresh hfresh) hrun

/-- A wedged node whose instance is up. -/
def wedgedUp : FaultyHandle := { flags := fun k => k == .running, fault := 2 }

/-- The instance exits into the wedge, then the fault is cleared. -/
def exitThenClear : List Label :=
  .acknowledge :: List.replicate 5 .ackStep ++ .inject .none :: List.replicate 10 (.injectStep 0)

def exitedRun : Option WedgeSys := exec (next true true) { handle := wedgedUp } exitThenClear

theorem wedged_ack_once_cleared :
    (exitedRun.get rfl).handle.Delivered true ∧ (exitedRun.get rfl).handle.delivered = 1 := by
  have hrun : exec (next true true) { handle := wedgedUp } exitThenClear =
      some (exitedRun.get rfl) := (Option.some_get _).symm
  have hfinished : (exitedRun.get rfl).Finished := by
    constructor
    · intro c hc
      exact (Option.some.inj hc).symm
    · intro c hc
      exact List.mem_singleton.mp hc
  obtain ⟨hdelivered, -, -, hone⟩ := (wedged_ack_once ⟨rfl, rfl, rfl⟩ hrun).2 rfl hfinished
    (by decide)
  exact ⟨hdelivered, hone⟩

end WedgeSys

end EmbassySupervisor
