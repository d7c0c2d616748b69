/-
# A worker raced against its stop

`RunCancellable` and `RunPausable` hold the worker, poll it, and poll the stop request after
it. On a request they drop the worker and, but for the plain variant, acknowledge; the
pausable one then waits for its resume within the same poll. A poll is taken access by access
here, with requests, resumes and resets in between; what the worker does when it is polled is
anything. A task awaits one future after another and none again that has returned.

The code keeps the protocol of the stages (`Staged`): the events of every run are accepted.
`race_protocol` draws the conclusions. An acknowledgement gives back what the instance provided
before it touches any of this; that is left out, and so is what a delivery tells the rest of
the system.
-/

import EmbassySupervisor.Node.TaskHandle
import EmbassySupervisor.Shell.RaceStage
import Mathlib.Data.List.Basic
import Mathlib.Order.Basic

namespace EmbassySupervisor

open LabelledRun

/-! ## The combinators -/

/-- Between two polls, at the next access of a poll, or returned. -/
inductive RacePhase
  | suspended
  | worker
  | completing
  | fault
  | flag
  | latch
  | drop
  | ack
  | leaving
  | park
  | returned (r : Returned)
  deriving DecidableEq, Repr

/-- The future comes to the phase before its acknowledgement. -/
def RacePhase.races : RacePhase → Bool
  | .worker | .completing | .fault | .flag | .latch | .drop | .ack => true
  | .suspended | .leaving | .park | .returned _ => false

/-- The request was found, and is not acknowledged yet. -/
def RacePhase.aborts : RacePhase → Bool
  | .drop | .ack => true
  | .suspended | .worker | .completing | .fault | .flag | .latch | .leaving | .park
  | .returned _ => false

/-- The node and the future its task awaits. `held` says that the worker is there,
`resumeWaiting` that a waker is registered with the resume latch and `woken` that one was
called. The code reads none of the last five: the events, how many requests and
acknowledgements there were, whether the last request is acknowledged, and how often the task
awaited its next future when it was and still stood. -/
structure RaceSys where
  handle : TaskHandle := {}
  wedged : Bool := false
  pendingAck : Bool := false
  held : Bool := true
  parked : Bool := false
  phase : RacePhase := .suspended
  resumeWaiting : Bool := false
  woken : Bool := false
  events : List RaceEvent := []
  requests : ℕ := 0
  acks : ℕ := 0
  answered : Bool := false
  again : ℕ := 0

namespace RaceSys

/-- The executor polls the future, which is at its worker or at another access; the task
awaits its next future. The supervisor requests a stop, resumes a parked node or, on a bound
one, without a look whether it is, and resets; a wedge comes and goes. -/
inductive Label
  | poll
  | worker (done : Bool)
  | step
  | renew
  | request
  | resume
  | bindResume
  | reset
  | wedge
  | unwedge
  deriving DecidableEq, Repr

/-- A request for a stop is there to be seen. -/
def standing (s : RaceSys) : Bool := s.handle.flags .shutdown || s.handle.shutdownWake

/-- A fresh future on a node: nobody has acknowledged, resumed or wedged yet. -/
def fresh (h : TaskHandle) : RaceSys :=
  { handle := h, requests := (h.flags .shutdown || h.shutdownWake).toNat }

/-- `reset`. -/
def clear (s : RaceSys) : RaceSys :=
  { s with handle := s.handle.reset, pendingAck := false, answered := false }

/-- `reset`, `signal_resume` and `set_running`. -/
def signalResume (s : RaceSys) : RaceSys :=
  { s.clear with
    handle := (s.handle.reset.signalResume).setRunning true
    resumeWaiting := false
    woken := s.woken || s.resumeWaiting }

/-- `ack_dropped`. -/
def ackDropped (s : RaceSys) : RaceSys :=
  if s.wedged then { s with pendingAck := true, events := s.events ++ [.swallowed] }
  else
    { s with
      handle := s.handle.settleDropped, acks := s.acks + 1, events := s.events ++ [.acked] }

/-- `replay_swallowed`. -/
def replaySwallowed (s : RaceSys) : RaceSys :=
  if s.pendingAck then
    { s with handle := s.handle.settleDropped, pendingAck := false, acks := s.acks + 1 }
  else s

def finish (s : RaceSys) (r : Returned) : RaceSys :=
  { s with phase := .returned r, events := s.events ++ [.returned r] }

/-- The next access of a poll, but for that of the worker. -/
def step (kind : RaceKind) (s : RaceSys) : Option RaceSys :=
  match s.phase with
  | .worker => if s.held then none else some { s with phase := .fault }
  | .completing => some (s.finish .completed)
  | .fault => some { s with phase := if s.wedged then .suspended else .flag }
  | .flag => some { s with phase := if s.handle.flags .shutdown then .drop else .latch }
  | .latch =>
    if s.handle.shutdownWake then
      some { s with handle := { s.handle with shutdownWake := false }, phase := .drop }
    else some { s with phase := .suspended }
  | .drop =>
    some { s with
      held := false
      phase := if kind.acks then .ack else .leaving
      events := s.events ++ [.dropped] }
  | .ack =>
    some { s.ackDropped with
      answered := true
      parked := decide (kind = .pausable)
      phase := if kind = .pausable then .park else .leaving }
  | .leaving => some (s.finish .aborted)
  | .park =>
    if s.handle.resumeWake then
      some ({ s with handle := { s.handle with resumeWake := false } }.finish .resumed)
    else some { s with resumeWaiting := true, phase := .suspended }
  | .suspended | .returned _ => none

/-- The next future of the task. -/
def renew (s : RaceSys) : RaceSys :=
  { s with
    held := true
    parked := false
    phase := .suspended
    events := s.events ++ [.created]
    again := if s.standing && s.answered then s.again + 1 else s.again
    answered := false }

def next (kind : RaceKind) (s : RaceSys) : Label → Option RaceSys
  | .poll =>
    if s.phase = .suspended then
      some { s with phase := if s.parked then .park else .worker, woken := false }
    else none
  | .worker done =>
    if s.phase = .worker ∧ s.held then
      some { s with
        phase := if done then .completing else .fault
        events := s.events ++ [.polled done] }
    else none
  | .step => s.step kind
  | .renew =>
    match s.phase with
    | .returned _ => some s.renew
    | .suspended | .worker | .completing | .fault | .flag | .latch | .drop | .ack | .leaving
    | .park => none
  | .request =>
    some { s with
      handle := s.handle.signalShutdown, requests := s.requests + 1, answered := false }
  | .resume => if s.handle.hasAckedStop then some s.signalResume else none
  | .bindResume => some s.signalResume
  | .reset => some s.clear
  | .wedge => some { s with wedged := true }
  | .unwedge => some { s.replaySwallowed with wedged := false }

/-- How far the code says the future has come. -/
def stage (kind : RaceKind) (s : RaceSys) : Stage :=
  match s.phase with
  | .suspended => if s.parked then .settled else .racing
  | .worker | .fault | .flag | .latch | .drop => .racing
  | .completing => .ready
  | .ack => .aborting
  | .leaving => if kind.acks then .settled else .aborting
  | .park => .settled
  | .returned r => .ended r

/-! ## One step -/

variable {kind : RaceKind} {s t : RaceSys} {l : Label} {labels : List Label} {h : TaskHandle}

/-- What `next` does, case by case. -/
inductive Next (kind : RaceKind) (s : RaceSys) : Label → RaceSys → Prop
  | poll (hphase : s.phase = .suspended) :
      Next kind s .poll
        { s with phase := if s.parked then .park else .worker, woken := false }
  | worker {done : Bool} (hphase : s.phase = .worker) :
      Next kind s (.worker done)
        { s with
          phase := if done then .completing else .fault
          events := s.events ++ [.polled done] }
  | missing (hphase : s.phase = .worker) : Next kind s .step { s with phase := .fault }
  | complete (hphase : s.phase = .completing) : Next kind s .step (s.finish .completed)
  | fault (hphase : s.phase = .fault) :
      Next kind s .step { s with phase := if s.wedged then .suspended else .flag }
  | flag (hphase : s.phase = .flag) :
      Next kind s .step { s with phase := if s.handle.flags .shutdown then .drop else .latch }
  | latch (hphase : s.phase = .latch) (hwake : s.handle.shutdownWake = true) :
      Next kind s .step
        { s with handle := { s.handle with shutdownWake := false }, phase := .drop }
  | pending (hphase : s.phase = .latch) : Next kind s .step { s with phase := .suspended }
  | drop (hphase : s.phase = .drop) :
      Next kind s .step
        { s with
          held := false
          phase := if kind.acks then .ack else .leaving
          events := s.events ++ [.dropped] }
  | ack (hphase : s.phase = .ack) :
      Next kind s .step
        { s.ackDropped with
          answered := true
          parked := decide (kind = .pausable)
          phase := if kind = .pausable then .park else .leaving }
  | leave (hphase : s.phase = .leaving) : Next kind s .step (s.finish .aborted)
  | resumed (hphase : s.phase = .park) (hwake : s.handle.resumeWake = true) :
      Next kind s .step
        ({ s with handle := { s.handle with resumeWake := false } }.finish .resumed)
  | park (hphase : s.phase = .park) (hwake : s.handle.resumeWake = false) :
      Next kind s .step { s with resumeWaiting := true, phase := .suspended }
  | renew {r : Returned} (hphase : s.phase = .returned r) : Next kind s .renew s.renew
  | request :
      Next kind s .request
        { s with
          handle := s.handle.signalShutdown, requests := s.requests + 1, answered := false }
  | resume (hack : s.handle.hasAckedStop = true) : Next kind s .resume s.signalResume
  | bindResume : Next kind s .bindResume s.signalResume
  | reset : Next kind s .reset s.clear
  | wedge : Next kind s .wedge { s with wedged := true }
  | unwedge : Next kind s .unwedge { s.replaySwallowed with wedged := false }

theorem step_cases (hstep : s.step kind = some t) : Next kind s .step t := by
  unfold step at hstep
  split at hstep
  · next hphase =>
      split at hstep
      · cases hstep
      · cases hstep
        exact .missing hphase
  · next hphase =>
      cases hstep
      exact .complete hphase
  · next hphase =>
      cases hstep
      exact .fault hphase
  · next hphase =>
      cases hstep
      exact .flag hphase
  · next hphase =>
      split at hstep
      · next hwake =>
          cases hstep
          exact .latch hphase hwake
      · cases hstep
        exact .pending hphase
  · next hphase =>
      cases hstep
      exact .drop hphase
  · next hphase =>
      cases hstep
      exact .ack hphase
  · next hphase =>
      cases hstep
      exact .leave hphase
  · next hphase =>
      split at hstep
      · next hwake =>
          cases hstep
          exact .resumed hphase hwake
      · next hwake =>
          cases hstep
          exact .park hphase ((Bool.not_eq_true _).mp hwake)
  · cases hstep
  · cases hstep

theorem next_cases (hnext : next kind s l = some t) : Next kind s l t := by
  cases l with
  | poll =>
      obtain ⟨hphase, heq⟩ := Option.ite_none_right_eq_some.mp hnext
      cases heq
      exact .poll hphase
  | worker done =>
      obtain ⟨⟨hphase, -⟩, heq⟩ := Option.ite_none_right_eq_some.mp hnext
      cases heq
      exact .worker hphase
  | step => exact step_cases hnext
  | renew =>
      simp only [next] at hnext
      split at hnext
      · next hphase =>
          cases hnext
          exact .renew hphase
      all_goals cases hnext
  | request =>
      cases hnext
      exact .request
  | resume =>
      obtain ⟨hack, heq⟩ := Option.ite_none_right_eq_some.mp hnext
      cases heq
      exact .resume hack
  | bindResume =>
      cases hnext
      exact .bindResume
  | reset =>
      cases hnext
      exact .reset
  | wedge =>
      cases hnext
      exact .wedge
  | unwedge =>
      cases hnext
      exact .unwedge

/-- What an acknowledgement may touch, and that it is in the history. -/
theorem ackDropped_frame (s : RaceSys) :
    ∃ (h : TaskHandle) (p : Bool) (a : ℕ) (e : RaceEvent),
      s.ackDropped =
        { s with handle := h, pendingAck := p, acks := a, events := s.events ++ [e] } ∧
      h.resumeWake = s.handle.resumeWake ∧ (e = .acked ∨ e = .swallowed) := by
  unfold ackDropped
  split
  · exact ⟨_, _, _, .swallowed, rfl, rfl, .inr rfl⟩
  · exact ⟨_, _, _, .acked, rfl, rfl, .inl rfl⟩

/-- What the acknowledgement a wedge has swallowed may touch. -/
theorem replaySwallowed_frame (s : RaceSys) :
    ∃ (h : TaskHandle) (p : Bool) (a : ℕ),
      s.replaySwallowed = { s with handle := h, pendingAck := p, acks := a } ∧
      h.resumeWake = s.handle.resumeWake := by
  unfold replaySwallowed
  split <;> exact ⟨_, _, _, rfl, rfl⟩

/-! ## The code keeps the protocol -/

/-- The events so far lead to the stage the code is at. -/
structure Staged (kind : RaceKind) (s : RaceSys) : Prop where
  run : exec (Stage.next kind) .racing s.events = some (s.stage kind)
  parked : s.parked = true → kind = .pausable
  races : s.phase.races = true → s.parked = false
  ack : s.phase = .ack → kind.acks = true
  leaving : s.phase = .leaving → kind ≠ .pausable
  park : s.phase = .park → s.parked = true

theorem staged_fresh : Staged kind (fresh h) where
  run := rfl
  parked := nofun
  races := nofun
  ack := nofun
  leaving := nofun
  park := nofun

/-- What leaves the future alone leaves it where it is. -/
theorem Staged.of_eq (hs : Staged kind s) (hphase : t.phase = s.phase)
    (hparked : t.parked = s.parked) (hevents : t.events = s.events) : Staged kind t := by
  have hstage : t.stage kind = s.stage kind := by
    simp only [stage, hphase, hparked]
  refine ⟨?_, ?_, ?_, ?_, ?_, ?_⟩
  · rw [hevents, hstage]
    exact hs.run
  · rw [hparked]
    exact hs.parked
  · rw [hphase, hparked]
    exact hs.races
  · rw [hphase]
    exact hs.ack
  · rw [hphase]
    exact hs.leaving
  · rw [hphase, hparked]
    exact hs.park

theorem staged_next (hs : Staged kind s) (hnext : next kind s l = some t) : Staged kind t := by
  have hrun := hs.run
  cases next_cases hnext with
  | poll hphase =>
      cases hparked : s.parked with
      | false =>
          simp only [stage, hphase, hparked, if_neg Bool.false_ne_true] at hrun
          exact ⟨hrun, nofun, fun _ => rfl, nofun, nofun, nofun⟩
      | true =>
          simp only [stage, hphase, hparked, if_true] at hrun
          exact ⟨hrun, fun _ => hs.parked hparked, nofun, nofun, nofun, fun _ => rfl⟩
  | @worker done hphase =>
      have hparked := hs.races (by rw [hphase]; rfl)
      simp only [stage, hphase] at hrun
      have hsnoc := exec_snoc (l := .polled done) hrun rfl
      cases done with
      | false => exact ⟨hsnoc, hs.parked, fun _ => hparked, nofun, nofun, nofun⟩
      | true => exact ⟨hsnoc, hs.parked, fun _ => hparked, nofun, nofun, nofun⟩
  | missing hphase =>
      have hparked := hs.races (by rw [hphase]; rfl)
      simp only [stage, hphase] at hrun
      exact ⟨hrun, hs.parked, fun _ => hparked, nofun, nofun, nofun⟩
  | complete hphase =>
      simp only [stage, hphase] at hrun
      exact ⟨exec_snoc hrun rfl, hs.parked, nofun, nofun, nofun, nofun⟩
  | fault hphase =>
      have hparked := hs.races (by rw [hphase]; rfl)
      simp only [stage, hphase] at hrun
      cases hwedged : s.wedged with
      | true =>
          refine ⟨?_, hs.parked, nofun, nofun, nofun, nofun⟩
          simpa [stage, hparked] using hrun
      | false => exact ⟨hrun, hs.parked, fun _ => hparked, nofun, nofun, nofun⟩
  | flag hphase =>
      have hparked := hs.races (by rw [hphase]; rfl)
      simp only [stage, hphase] at hrun
      cases hflag : s.handle.flags .shutdown with
      | true => exact ⟨hrun, hs.parked, fun _ => hparked, nofun, nofun, nofun⟩
      | false => exact ⟨hrun, hs.parked, fun _ => hparked, nofun, nofun, nofun⟩
  | latch hphase hwake =>
      have hparked := hs.races (by rw [hphase]; rfl)
      simp only [stage, hphase] at hrun
      exact ⟨hrun, hs.parked, fun _ => hparked, nofun, nofun, nofun⟩
  | pending hphase =>
      have hparked := hs.races (by rw [hphase]; rfl)
      simp only [stage, hphase] at hrun
      refine ⟨?_, hs.parked, nofun, nofun, nofun, nofun⟩
      simpa [stage, hparked] using hrun
  | drop hphase =>
      have hparked := hs.races (by rw [hphase]; rfl)
      simp only [stage, hphase] at hrun
      have hsnoc := exec_snoc (l := .dropped) hrun rfl
      cases hack : kind.acks with
      | true => exact ⟨hsnoc, hs.parked, fun _ => hparked, fun _ => hack, nofun, nofun⟩
      | false =>
          refine ⟨?_, hs.parked, nofun, nofun, fun _ heq => ?_, nofun⟩
          · simpa [stage, hack] using hsnoc
          · rw [heq] at hack
            cases hack
  | ack hphase =>
      have hack := hs.ack hphase
      simp only [stage, hphase] at hrun
      obtain ⟨h, p, a, e, hframe, -, he⟩ := s.ackDropped_frame
      rw [hframe]
      have hsnoc : exec (Stage.next kind) .racing (s.events ++ [e]) = some .settled := by
        apply exec_snoc hrun
        rcases he with rfl | rfl <;> exact if_pos hack
      by_cases hkind : kind = .pausable
      · refine ⟨?_, fun _ => hkind, ?_, ?_, ?_, fun _ => decide_eq_true hkind⟩
        · simpa [stage, hkind] using hkind ▸ hsnoc
        · simp [hkind, RacePhase.races]
        · simp [hkind]
        · simp [hkind]
      · refine ⟨?_, fun hparked => of_decide_eq_true hparked, ?_, ?_, fun _ => hkind, ?_⟩
        · simpa [stage, hkind, hack] using hsnoc
        · simp [hkind]
        · simp [hkind]
        · simp [hkind]
  | leave hphase =>
      have hkind := hs.leaving hphase
      simp only [stage, hphase] at hrun
      refine ⟨exec_snoc hrun ?_, hs.parked, nofun, nofun, nofun, nofun⟩
      cases kind with
      | cancellable ack => cases ack <;> rfl
      | pausable => exact absurd rfl hkind
  | resumed hphase hwake =>
      have hkind := hs.parked (hs.park hphase)
      simp only [stage, hphase] at hrun
      exact ⟨exec_snoc hrun (if_pos hkind), hs.parked, nofun, nofun, nofun, nofun⟩
  | park hphase hwake =>
      have hparked := hs.park hphase
      simp only [stage, hphase] at hrun
      refine ⟨?_, hs.parked, nofun, nofun, nofun, nofun⟩
      simpa [stage, hparked] using hrun
  | renew hphase =>
      simp only [stage, hphase] at hrun
      exact ⟨exec_snoc hrun rfl, nofun, nofun, nofun, nofun, nofun⟩
  | request | resume | bindResume | reset | wedge => exact hs.of_eq rfl rfl rfl
  | unwedge =>
      obtain ⟨h, p, a, hframe, -⟩ := s.replaySwallowed_frame
      rw [hframe]
      exact hs.of_eq rfl rfl rfl

/-! ## Acknowledgements are paid for -/

/-- The acknowledgements made, with one a wedge holds back. -/
def settled (s : RaceSys) : ℕ := s.acks + s.pendingAck.toNat

/-- The requests there were, with those that stood for another future. -/
def owed (s : RaceSys) : ℕ := s.requests + s.again

/-- A request that stands is one too many as long as it is not acknowledged, and so is the one
a future is about to acknowledge. -/
structure Paid (s : RaceSys) : Prop where
  settled : s.settled ≤ s.owed
  standing : s.standing = true → s.answered = false → s.settled < s.owed
  aborts : s.phase.aborts = true → s.settled < s.owed
  races : s.phase.races = true → s.answered = false
  suspended : s.phase = .suspended → s.parked = false → s.answered = false

theorem paid_fresh : Paid (fresh h) where
  settled := Nat.zero_le _
  standing hstanding _ := by
    show 0 < (h.flags .shutdown || h.shutdownWake).toNat + 0
    rw [show (h.flags .shutdown || h.shutdownWake) = true from hstanding]
    exact Nat.one_pos
  aborts := nofun
  races _ := rfl
  suspended _ _ := rfl

/-- A poll that goes on finding nothing. -/
theorem Paid.pass (hs : Paid s) (hsettled : t.settled = s.settled) (howed : t.owed = s.owed)
    (hstanding : t.standing = true → s.standing = true) (hanswered : t.answered = s.answered)
    (hfree : s.answered = true → t.phase.races = false ∧ (t.phase = .suspended → t.parked = true))
    (haborts : t.phase.aborts = true → s.settled < s.owed) : Paid t := by
  refine ⟨?_, ?_, ?_, ?_, ?_⟩
  · rw [hsettled, howed]
    exact hs.settled
  · rw [hsettled, howed, hanswered]
    exact fun h => hs.standing (hstanding h)
  · rw [hsettled, howed]
    exact haborts
  · intro hraces
    by_contra hans
    rw [hanswered, Bool.not_eq_false] at hans
    exact absurd hraces (by simp [(hfree hans).1])
  · intro hphase hparked
    by_contra hans
    rw [hanswered, Bool.not_eq_false] at hans
    exact absurd hparked (by simp [(hfree hans).2 hphase])

theorem settled_ackDropped_le (s : RaceSys) : s.ackDropped.settled ≤ s.settled + 1 := by
  unfold ackDropped settled
  split
  · simp
  · simp
    omega

theorem owed_ackDropped (s : RaceSys) : s.ackDropped.owed = s.owed := by
  obtain ⟨h, p, a, e, hframe, -⟩ := s.ackDropped_frame
  rw [hframe]
  rfl

theorem settled_replaySwallowed (s : RaceSys) : s.replaySwallowed.settled = s.settled := by
  unfold replaySwallowed settled
  split
  · next hpending => simp [hpending]
  · rfl

theorem standing_replaySwallowed (s : RaceSys) : s.replaySwallowed.standing = s.standing := by
  unfold replaySwallowed standing
  split
  · simp [TaskHandle.settleDropped, TaskHandle.flagPut]
  · rfl

theorem settled_clear_le (s : RaceSys) : s.clear.settled ≤ s.settled :=
  Nat.le_add_right _ _

/-- A reset takes away what stood. -/
theorem paid_of_clear (hs : Paid s) (hphase : t.phase = s.phase)
    (hsettled : t.settled = s.clear.settled) (howed : t.owed = s.owed)
    (hstanding : t.standing = false) (hanswered : t.answered = false) : Paid t := by
  have hle : t.settled ≤ s.settled := hsettled ▸ s.settled_clear_le
  refine ⟨?_, ?_, ?_, fun _ => hanswered, fun _ _ => hanswered⟩
  · rw [howed]
    exact Nat.le_trans hle hs.settled
  · rw [hstanding]
    exact nofun
  · rw [howed, hphase]
    exact fun haborts => Nat.lt_of_le_of_lt hle (hs.aborts haborts)

theorem standing_clear (s : RaceSys) : s.clear.standing = false := rfl

theorem standing_signalResume (s : RaceSys) : s.signalResume.standing = false := by
  simp [standing, signalResume, TaskHandle.setRunning, TaskHandle.flagPut,
    TaskHandle.signalResume, TaskHandle.reset, Flag.stale]

theorem paid_renew (hs : Paid s) : Paid s.renew := by
  have howed : s.owed ≤ s.renew.owed ∧
      (s.standing = true → s.answered = true → s.renew.owed = s.owed + 1) := by
    unfold renew owed
    by_cases h : s.standing && s.answered
    · simp only [h, if_true]
      omega
    · simp only [h]
      refine ⟨Nat.le_refl _, fun hstanding hanswered => ?_⟩
      simp [hstanding, hanswered] at h
  refine ⟨Nat.le_trans hs.settled howed.1, ?_, nofun, fun _ => rfl, fun _ _ => rfl⟩
  intro hstanding _
  have hsettled := hs.settled
  show s.settled < s.renew.owed
  cases hanswered : s.answered with
  | false => exact Nat.lt_of_lt_of_le (hs.standing hstanding hanswered) howed.1
  | true =>
      rw [howed.2 hstanding hanswered]
      omega

theorem paid_next (hstaged : Staged kind s) (hs : Paid s) (hnext : next kind s l = some t) :
    Paid t := by
  have hracing : s.phase.races = true → s.answered = true → False := by
    intro hraces hans
    rw [hs.races hraces] at hans
    cases hans
  cases next_cases hnext with
  | poll hphase =>
      refine hs.pass rfl rfl id rfl ?_ ?_
      · intro hans
        cases hparked : s.parked with
        | false =>
            rw [hs.suspended hphase hparked] at hans
            cases hans
        | true => exact ⟨rfl, nofun⟩
      · cases s.parked <;> exact nofun
  | @worker done hphase =>
      refine hs.pass rfl rfl id rfl ?_ ?_
      · exact fun hans => (hracing (by rw [hphase]; rfl) hans).elim
      · cases done <;> exact nofun
  | missing hphase =>
      exact hs.pass rfl rfl id rfl
        (fun hans => (hracing (by rw [hphase]; rfl) hans).elim) nofun
  | fault hphase =>
      refine hs.pass rfl rfl id rfl ?_ ?_
      · exact fun hans => (hracing (by rw [hphase]; rfl) hans).elim
      · cases s.wedged <;> exact nofun
  | flag hphase =>
      have hraces : s.phase.races = true := by rw [hphase]; rfl
      refine hs.pass rfl rfl id rfl (fun hans => (hracing hraces hans).elim) ?_
      cases hflag : s.handle.flags .shutdown with
      | true => exact fun _ => hs.standing (by simp [standing, hflag]) (hs.races hraces)
      | false => exact nofun
  | latch hphase hwake =>
      have hraces : s.phase.races = true := by rw [hphase]; rfl
      have hstanding : s.standing = true := by simp [standing, hwake]
      exact hs.pass rfl rfl (fun _ => hstanding) rfl (fun hans => (hracing hraces hans).elim)
        fun _ => hs.standing hstanding (hs.races hraces)
  | pending hphase =>
      exact hs.pass rfl rfl id rfl
        (fun hans => (hracing (by rw [hphase]; rfl) hans).elim) nofun
  | drop hphase =>
      refine hs.pass rfl rfl id rfl ?_ ?_
      · exact fun hans => (hracing (by rw [hphase]; rfl) hans).elim
      · exact fun _ => hs.aborts (by rw [hphase]; rfl)
  | ack hphase =>
      have hlt := hs.aborts (by rw [hphase]; rfl)
      have hle : s.ackDropped.settled ≤ s.ackDropped.owed := by
        rw [owed_ackDropped]
        exact Nat.le_trans s.settled_ackDropped_le hlt
      refine ⟨hle, nofun, ?_, ?_, ?_⟩
      all_goals
        by_cases hkind : kind = .pausable <;>
          simp [hkind, RacePhase.aborts, RacePhase.races]
  | complete | leave => exact hs.pass rfl rfl id rfl (fun _ => ⟨rfl, nofun⟩) nofun
  | resumed => exact hs.pass rfl rfl id rfl (fun _ => ⟨rfl, nofun⟩) nofun
  | park hphase hwake =>
      exact hs.pass rfl rfl id rfl (fun _ => ⟨rfl, fun _ => hstaged.park hphase⟩) nofun
  | renew => exact paid_renew hs
  | request =>
      have hlt : s.settled < s.requests + 1 + s.again := by
        have hsettled := hs.settled
        unfold owed at hsettled
        omega
      exact ⟨Nat.le_of_lt hlt, fun _ _ => hlt, fun _ => hlt, fun _ => rfl, fun _ _ => rfl⟩
  | resume | bindResume =>
      exact paid_of_clear hs rfl rfl rfl s.standing_signalResume rfl
  | reset => exact paid_of_clear hs rfl rfl rfl s.standing_clear rfl
  | wedge => exact ⟨hs.settled, hs.standing, hs.aborts, hs.races, hs.suspended⟩
  | unwedge =>
      have hsettled := s.settled_replaySwallowed
      have hstanding := s.standing_replaySwallowed
      obtain ⟨h, p, a, hframe, -⟩ := s.replaySwallowed_frame
      rw [hframe] at hsettled hstanding ⊢
      refine hs.pass hsettled rfl (fun hset => hstanding.symm.trans hset) rfl ?_ hs.aborts
      intro hans
      refine ⟨(Bool.not_eq_true _).mp fun hraces => hracing hraces hans, fun hsuspended => ?_⟩
      by_contra hnot
      rw [hs.suspended hsuspended ((Bool.not_eq_true _).mp hnot)] at hans
      cases hans

/-! ## Nobody acknowledges one request for two -/

/-- The future is parked, or about to look whether it is resumed. -/
def Waits (s : RaceSys) : Prop := s.parked = true ∧ (s.phase = .suspended ∨ s.phase = .park)

/-- A task that was aborted awaits no other future, and a node is resumed when it is parked. -/
def orderly (s : RaceSys) : Label → Bool
  | .renew => s.phase != .returned .aborted
  | .bindResume => false
  | .poll | .worker _ | .step | .request | .resume | .reset | .wedge | .unwedge => true

/-- An acknowledgement is on record, or held back. -/
def acknowledged (s : RaceSys) : Bool := s.handle.flags .dropped || s.pendingAck || s.answered

/-- The future was aborted. -/
def Left (s : RaceSys) : Prop := s.phase = .leaving ∨ s.phase = .returned .aborted

/-- A pausable future that has acknowledged waits, up to its resume; nothing is on record of
the acknowledgement then. -/
structure Answered (kind : RaceKind) (s : RaceSys) : Prop where
  wake : kind = .pausable → s.handle.resumeWake = true → s.Waits ∧ s.acknowledged = false
  record : kind = .pausable → s.acknowledged = true → s.Waits
  left : kind ≠ .pausable → s.answered = true → s.Left
  again : s.again = 0

theorem answered_fresh (hwake : h.resumeWake = false) (hdropped : h.flags .dropped = false) :
    Answered kind (fresh h) where
  wake _ hset := absurd (hwake.symm.trans hset) nofun
  record _ hset := by simp [acknowledged, fresh, hdropped] at hset
  left _ := nofun
  again := rfl

/-- A step that neither resumes nor acknowledges. -/
theorem Answered.mono (hs : Answered kind s) (hwaits : s.Waits → t.Waits)
    (hleft : s.Left → t.Left) (hwake : t.handle.resumeWake = s.handle.resumeWake)
    (hrecord : t.acknowledged = true → s.acknowledged = true)
    (hanswered : t.answered = true → s.answered = true) (hagain : t.again = s.again) :
    Answered kind t where
  wake hkind hset := by
    obtain ⟨hw, hnone⟩ := hs.wake hkind (hwake.symm.trans hset)
    refine ⟨hwaits hw, (Bool.not_eq_true _).mp fun hset => ?_⟩
    exact absurd (hnone.symm.trans (hrecord hset)) nofun
  record hkind hset := hwaits (hs.record hkind (hrecord hset))
  left hkind hset := hleft (hs.left hkind (hanswered hset))
  again := hagain.trans hs.again

theorem not_waits_of_races (hphase : s.phase.races = true) : ¬ s.Waits := by
  rintro ⟨-, heq | heq⟩ <;> rw [heq] at hphase <;> cases hphase

theorem not_left_of_races (hphase : s.phase.races = true) : ¬ s.Left := by
  rintro (heq | heq) <;> rw [heq] at hphase <;> cases hphase

/-- On its way to the acknowledgement a poll tells nobody anything. -/
theorem Answered.race (hs : Answered kind s) (hphase : s.phase.races = true)
    (hwake : t.handle.resumeWake = s.handle.resumeWake)
    (hrecord : t.acknowledged = s.acknowledged) (hanswered : t.answered = s.answered)
    (hagain : t.again = s.again) : Answered kind t :=
  hs.mono (fun hw => absurd hw (not_waits_of_races hphase))
    (fun hl => absurd hl (not_left_of_races hphase)) hwake (fun h => hrecord.symm.trans h)
    (fun h => hanswered.symm.trans h) hagain

theorem acknowledged_clear (s : RaceSys) : s.clear.acknowledged = false := rfl

theorem acknowledged_signalResume (s : RaceSys) : s.signalResume.acknowledged = false := by
  simp [acknowledged, signalResume, clear, TaskHandle.setRunning, TaskHandle.flagPut,
    TaskHandle.signalResume, TaskHandle.reset, Flag.stale]

theorem answered_ack (hs : Answered kind s) (hphase : s.phase = .ack) :
    Answered kind
      { s.ackDropped with
        answered := true
        parked := decide (kind = .pausable)
        phase := if kind = .pausable then .park else .leaving } where
  wake hkind hset := by
    obtain ⟨h, p, a, e, hframe, hsame, -⟩ := s.ackDropped_frame
    rw [hframe] at hset
    have hwaits := (hs.wake hkind (hsame.symm.trans hset)).1
    exact absurd hwaits (not_waits_of_races (by rw [hphase]; rfl))
  record hkind _ := ⟨decide_eq_true hkind, .inr (if_pos hkind)⟩
  left hkind _ := .inl (if_neg hkind)
  again := by
    obtain ⟨h, p, a, e, hframe, -⟩ := s.ackDropped_frame
    rw [hframe]
    exact hs.again

theorem answered_renew (hs : Answered kind s) {r : Returned} (hphase : s.phase = .returned r)
    (hr : s.phase ≠ .returned .aborted) : Answered kind s.renew := by
  have hwaits : ¬ s.Waits := by
    rintro ⟨-, heq | heq⟩ <;> cases hphase.symm.trans heq
  have hleft : ¬ s.Left := by
    rintro (heq | heq)
    · cases hphase.symm.trans heq
    · exact hr heq
  have hans : s.answered = false := by
    apply (Bool.not_eq_true _).mp
    intro hans
    by_cases hkind : kind = .pausable
    · exact hwaits (hs.record hkind (by simp [acknowledged, hans]))
    · exact hleft (hs.left hkind hans)
  refine ⟨fun hkind hwake => absurd (hs.wake hkind hwake).1 hwaits, fun hkind hset => ?_,
    fun _ => nofun, ?_⟩
  · have hold : s.acknowledged = true := by
      simpa [acknowledged, renew, hans] using hset
    exact absurd (hs.record hkind hold) hwaits
  · simpa [renew, hans] using hs.again

theorem answered_next (hs : Answered kind s) (hl : s.orderly l = true)
    (hnext : next kind s l = some t) : Answered kind t := by
  cases next_cases hnext with
  | poll hphase =>
      refine hs.mono ?_ ?_ rfl id id rfl
      · rintro ⟨hparked, -⟩
        exact ⟨hparked, .inr (if_pos hparked)⟩
      · rintro (heq | heq) <;> cases hphase.symm.trans heq
  | worker hphase | missing hphase | complete hphase | fault hphase | flag hphase
  | latch hphase | pending hphase | drop hphase =>
      exact hs.race (by rw [hphase]; rfl) rfl rfl rfl rfl
  | ack hphase => exact answered_ack hs hphase
  | leave hphase =>
      refine hs.mono ?_ (fun _ => .inr rfl) rfl id id rfl
      rintro ⟨-, heq | heq⟩ <;> cases hphase.symm.trans heq
  | resumed hphase hwake =>
      refine ⟨fun _ => nofun, fun hkind hset => ?_, fun hkind hans => ?_, hs.again⟩
      · exact absurd ((hs.wake hkind hwake).2.symm.trans hset) nofun
      · rcases hs.left hkind hans with heq | heq <;> cases hphase.symm.trans heq
  | park hphase =>
      refine hs.mono (fun hw => ⟨hw.1, .inl rfl⟩) ?_ rfl id id rfl
      rintro (heq | heq) <;> cases hphase.symm.trans heq
  | renew hphase =>
      refine answered_renew hs hphase fun heq => ?_
      simp [orderly, heq] at hl
  | request =>
      refine hs.mono id id rfl ?_ nofun rfl
      simp only [acknowledged, TaskHandle.flags_signalShutdown, Bool.or_eq_true]
      rintro ((hdropped | hpending) | hans)
      · exact .inl (.inl hdropped)
      · exact .inl (.inr hpending)
      · cases hans
  | resume hack =>
      have hdropped : s.acknowledged = true := by
        rw [TaskHandle.hasAckedStop, Bool.and_eq_true] at hack
        rw [acknowledged, hack.1, Bool.true_or, Bool.true_or]
      have hnone := s.acknowledged_signalResume
      refine ⟨fun hkind _ => ⟨hs.record hkind hdropped, hnone⟩, fun _ hset => ?_,
        fun _ hans => absurd hans Bool.false_ne_true, hs.again⟩
      exact absurd (hnone.symm.trans hset) nofun
  | bindResume => cases hl
  | reset =>
      exact hs.mono id id rfl (by simp [acknowledged_clear])
        (fun hans => absurd hans Bool.false_ne_true) rfl
  | wedge => exact hs.mono id id rfl id id rfl
  | unwedge =>
      have hrecord : s.replaySwallowed.acknowledged = true → s.acknowledged = true := by
        unfold replaySwallowed
        split
        · next hpending => exact fun _ => by simp [acknowledged, hpending]
        · exact id
      obtain ⟨h, p, a, hframe, hsame⟩ := s.replaySwallowed_frame
      rw [hframe] at hrecord ⊢
      exact hs.mono id id hsame hrecord id rfl

/-! ## A resume is not lost -/

/-- A parked future is registered with the resume latch, or its waker was called. -/
structure Registered (s : RaceSys) : Prop where
  empty : s.resumeWaiting = true → s.handle.resumeWake = false
  parked : s.phase = .suspended → s.parked = true → s.resumeWaiting = true ∨ s.woken = true

theorem registered_next (hstaged : Staged kind s) (hs : Registered s)
    (hnext : next kind s l = some t) : Registered t := by
  cases next_cases hnext with
  | poll hphase =>
      refine ⟨hs.empty, ?_⟩
      cases s.parked <;> exact nofun
  | @worker done hphase =>
      refine ⟨hs.empty, ?_⟩
      cases done <;> exact nofun
  | missing | complete | latch | leave | renew => exact ⟨hs.empty, nofun⟩
  | fault hphase | flag hphase | pending hphase =>
      have hparked := hstaged.races (by rw [hphase]; rfl)
      exact ⟨hs.empty, fun _ h => absurd (hparked.symm.trans h) nofun⟩
  | drop hphase =>
      refine ⟨hs.empty, ?_⟩
      cases kind.acks <;> exact nofun
  | ack hphase =>
      obtain ⟨h, p, a, e, hframe, hsame, -⟩ := s.ackDropped_frame
      rw [hframe]
      refine ⟨fun hset => hsame.trans (hs.empty hset), ?_⟩
      by_cases hkind : kind = .pausable <;> simp [hkind]
  | resumed => exact ⟨fun _ => rfl, nofun⟩
  | park hphase hwake => exact ⟨fun _ => hwake, fun _ _ => .inl rfl⟩
  | request => exact ⟨hs.empty, hs.parked⟩
  | resume | bindResume =>
      refine ⟨nofun, fun hphase hparked => .inr ?_⟩
      rcases hs.parked hphase hparked with h | h <;> simp [signalResume, clear, h]
  | reset => exact ⟨hs.empty, hs.parked⟩
  | wedge => exact ⟨hs.empty, hs.parked⟩
  | unwedge =>
      obtain ⟨h, p, a, hframe, hsame⟩ := s.replaySwallowed_frame
      rw [hframe]
      exact ⟨fun hset => hsame.trans (hs.empty hset), hs.parked⟩

/-- Until the poll looks, a latched resume stays. -/
theorem latched_of_run (hphase : s.phase = .park) (hwake : s.handle.resumeWake = true)
    (hstill : .step ∉ labels) (hrun : exec (next kind) s labels = some t) :
    t.phase = .park ∧ t.handle.resumeWake = true := by
  have hstep : ∀ u l v, u.phase = .park ∧ u.handle.resumeWake = true → l ≠ .step →
      next kind u l = some v → v.phase = .park ∧ v.handle.resumeWake = true := by
    rintro u l v ⟨hpark, hset⟩ hl hnext
    cases next_cases hnext with
    | poll hp | worker hp | renew hp => cases hpark.symm.trans hp
    | missing | complete | fault | flag | latch | pending | drop | ack | leave | resumed
    | park => exact absurd rfl hl
    | request | reset | wedge => exact ⟨hpark, hset⟩
    | resume | bindResume => exact ⟨hpark, rfl⟩
    | unwedge =>
        obtain ⟨h, p, a, hframe, hsame⟩ := u.replaySwallowed_frame
        rw [hframe]
        exact ⟨hpark, hsame.trans hset⟩
  have hothers : ∀ l ∈ labels, l ≠ .step := fun l hl heq => hstill (heq ▸ hl)
  have halong : Along (next kind) (fun _ l => l ≠ .step) s labels := along_of_forall hothers s
  exact exec_invariant_along hstep ⟨hphase, hwake⟩ halong hrun

theorem resumeWake_of_resume (hl : l = .resume ∨ l = .bindResume)
    (hnext : next kind s l = some t) : t.phase = s.phase ∧ t.handle.resumeWake = true := by
  cases next_cases hnext with
  | resume | bindResume => exact ⟨rfl, rfl⟩
  | _ => rcases hl with hl | hl <;> cases hl

theorem again_next (hs : s.again = 0) (hl : l ≠ .renew) (hnext : next kind s l = some t) :
    t.again = 0 := by
  cases next_cases hnext with
  | renew => exact absurd rfl hl
  | ack =>
      obtain ⟨h, p, a, e, hframe, -⟩ := s.ackDropped_frame
      rw [hframe]
      exact hs
  | unwedge =>
      obtain ⟨h, p, a, hframe, -⟩ := s.replaySwallowed_frame
      rw [hframe]
      exact hs
  | _ => exact hs

/-- **The combinators keep the protocol.** In every run the events are lawful, and what was
acknowledged was requested, once for each request, but for those that still stood, already
acknowledged, when the task awaited another future. There are none when a task that was
aborted awaits no other and a node is resumed when it is parked. A resume that comes between
the acknowledgement and the look at the latch is found by that look, and a parked future that
has a resume latched was woken. -/
theorem race_protocol (hrun : exec (next kind) (fresh h) labels = some s) :
    Lawful s.events ∧
      s.acks + s.pendingAck.toNat ≤ s.requests + s.again ∧
      (.renew ∉ labels → s.again = 0) ∧
      (h.resumeWake = false → h.flags .dropped = false →
        Along (next kind) (fun u l => u.orderly l = true) (fresh h) labels → s.again = 0) ∧
      (s.phase = .park → ∀ l t, l = .resume ∨ l = .bindResume → next kind s l = some t →
        ∀ later u, .step ∉ later → exec (next kind) t later = some u →
          ∃ v, next kind u .step = some v ∧ v.phase = .returned .resumed) ∧
      (s.phase = .suspended → s.parked = true → s.handle.resumeWake = true →
        s.woken = true) := by
  have hinv : Staged kind s ∧ Paid s ∧ Registered s := by
    refine exec_invariant (I := fun u => Staged kind u ∧ Paid u ∧ Registered u) ?_
      ⟨staged_fresh, paid_fresh, nofun, nofun⟩ hrun
    rintro u l v ⟨hstaged, hpaid, hreg⟩ hnext
    exact ⟨staged_next hstaged hnext, paid_next hstaged hpaid hnext,
      registered_next hstaged hreg hnext⟩
  obtain ⟨hstaged, hpaid, hreg⟩ := hinv
  refine ⟨Stage.lawful_of_exec hstaged.run, hpaid.settled, ?_, ?_, ?_, ?_⟩
  · intro hone
    have hothers : ∀ l ∈ labels, l ≠ .renew := fun l hl heq => hone (heq ▸ hl)
    have halong : Along (next kind) (fun _ l => l ≠ .renew) (fresh h) labels :=
      along_of_forall hothers (fresh h)
    exact exec_invariant_along (fun u l v hu hl hnext => again_next hu hl hnext) rfl halong hrun
  · intro hwake hdropped halong
    exact (exec_invariant_along (fun u l v hu hl hnext => answered_next hu hl hnext)
      (answered_fresh hwake hdropped) halong hrun).again
  · intro hpark l t hl hnext later u hstill hlater
    obtain ⟨hphase, hwake⟩ := resumeWake_of_resume hl hnext
    obtain ⟨hphase, hwake⟩ := latched_of_run (hphase.trans hpark) hwake hstill hlater
    refine ⟨({ u with handle := { u.handle with resumeWake := false } }).finish .resumed, ?_, rfl⟩
    simp only [next, step, hphase, hwake, if_true]
  · intro hphase hparked hwake
    rcases hreg.parked hphase hparked with hset | hset
    · exact absurd ((hreg.empty hset).symm.trans hwake) nofun
    · exact hset

/-- A paused worker that is resumed before the poll that acknowledged has looked, and its
successor that completes under the next request. -/
def pauseThenComplete : List Label :=
  [.poll, .worker false, .step, .step, .request, .step, .step, .step, .resume, .step, .renew,
    .poll, .request, .worker true, .step]

def pauseRun : Option RaceSys := exec (next .pausable) (fresh {}) pauseThenComplete

theorem race_protocol_pause :
    Lawful (pauseRun.get rfl).events ∧
      (pauseRun.get rfl).events =
        [.polled false, .dropped, .acked, .returned .resumed, .created, .polled true,
          .returned .completed] ∧
      (pauseRun.get rfl).acks + (pauseRun.get rfl).pendingAck.toNat ≤ 2 := by
  have hrun : exec (next .pausable) (fresh {}) pauseThenComplete = some (pauseRun.get rfl) :=
    (Option.some_get _).symm
  obtain ⟨hlawful, hpaid, -⟩ := race_protocol hrun
  exact ⟨hlawful, rfl, hpaid⟩

end RaceSys

end EmbassySupervisor
