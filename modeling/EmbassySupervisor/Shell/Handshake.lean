/-
# A resident shell and the supervisor

One node whose shell runs on a preempting executor or another core, its worker, and the
supervisor that stops, resumes and respawns it. Both sides move access by access. The
supervisor is one task: between two of its awaits it makes a `Stretch` of accesses that
no other of its verbs interleaves, only the shell does.

An attempt at a respawn resets the handle, reads `RESIDENT` and `IDLE`, hands the state
over and starts the shell, or is refused anywhere in between. `start_nodes` looks at the
shell before each attempt; `spawn_settled` does so once and then retries.

Two accounts are kept that no code reads: what the flag word held at each start and
whether the last activation wrote anything after the reset before it (`begun`), and for
each release of a parked worker whether a resume had been signalled since its
acknowledgement and whether `RUNNING` was set (`released`).
-/

import EmbassySupervisor.Lib.LabelledRun
import EmbassySupervisor.Shell.ExitRace

namespace EmbassySupervisor

open LabelledRun

variable {n : ℕ} {V : Type}

/-- A move of a worker: an access, or the wait of a parked one for its resume. -/
inductive WorkerMove (n : ℕ) (V : Type)
  | access (a : Atom n V)
  | awaitResume

/-- What the supervisor has left to do before its next await. `retries` marks an attempt
of `spawn_settled`, which another one follows. -/
inductive Stretch (n : ℕ) (V : Type)
  | idle
  | writes (rest : List (Atom n V))
  | resuming (rest : List (Atom n V))
  | resetting (rest : List (Atom n V)) (retries : Bool)
  | probing (retries : Bool)
  | launching (handoff : List (Atom n V)) (resident retries : Bool)
  | starting (rest : List (Atom n V))

/-- The accesses left. -/
def Stretch.rest : Stretch n V → List (Atom n V)
  | .idle | .probing _ => []
  | .writes rest | .resuming rest | .resetting rest _ | .launching rest _ _
  | .starting rest => rest

/-- The account of a start: the flags, whether the last activation has written since the
reset, and whether it has anything left to write. -/
structure StartRecord where
  flags : Flag → Bool
  late : Bool
  leftover : Bool

/-- The account of a release. -/
structure Release where
  signalled : Bool
  running : Bool
  deriving DecidableEq

/-- The shell is `none` until it is spawned. `retrying` counts the calls of
`spawn_settled` between two attempts; `acked` says that the worker has acknowledged a stop
and parks, `signalled` that a resume has been signalled since. -/
structure Handshake (n : ℕ) (V : Type) where
  mem : Memory n V := {}
  shell : Option (Activation n V) := none
  doing : List (WorkerMove n V) := []
  sup : Stretch n V := .idle
  retrying : ℕ := 0
  acked : Bool := false
  signalled : Bool := false
  late : Bool := false
  begun : List StartRecord := []
  released : List Release := []

/-- The access writes a handle or exchanges a slot's value. -/
def Atom.writes (a : Atom n V) : Bool := a.target.isSome || a.touches.isSome

/-- The one write of a reset to the flag word. -/
def Atom.isReset : Atom n V → Bool
  | .clearStale _ => true
  | .provide _ _ | .restore _ _ | .empty _ | .signalFilled _ | .resetFilled _
  | .releaseClaims _ | .flagPut _ _ _ | .drop _ _ | .latch _ _ _ | .gateEvent | .stopEvent
  | .notifyBind => false

/-- The access latches the resume signal of the node. -/
def Atom.signals (j : Fin n) : Atom n V → Bool
  | .latch k .resume true => decide (k = j)
  | .latch _ _ _ | .provide _ _ | .restore _ _ | .empty _ | .signalFilled _ | .resetFilled _
  | .releaseClaims _ | .flagPut _ _ _ | .clearStale _ | .drop _ _ | .gateEvent | .stopEvent
  | .notifyBind => false

/-- The next access of a shell is such a write. -/
def Activation.writes : Activation n V → Bool
  | .taking (.take _ _ :: _) _ => true
  | .leaving (a :: _) => a.writes
  | .taking _ _ | .working _ | .leaving [] | .checking | .waiting => false

/-- The shell has such a write left before its next start. -/
def Activation.leftover : Activation n V → Bool
  | .taking _ _ | .working _ => true
  | .leaving rest => rest.any Atom.writes
  | .checking | .waiting => false

/-- The move list ends in the wait of a parked worker. -/
def WorkerMove.pauses (doing : List (WorkerMove n V)) : Bool :=
  doing.any fun
    | .awaitResume => true
    | .access _ => false

namespace Handshake

/-- What the supervisor does to a node besides starting it. An acknowledgement is collected
when its flag is seen, or by `await_ack` when its latch wakes it; `markBound` is the hold of
a bound stop. -/
inductive SupOp
  | signalShutdown
  | collect
  | awaitAck
  | markBound
  | resumeNode
  | resumeInPlace
  | boundResume
  deriving DecidableEq

def SupOp.stretch (j : Fin n) : SupOp → Stretch n V
  | .signalShutdown => .writes [.flagPut j .shutdown true, .latch j .shutdown true]
  | .collect => .writes [.flagPut j .running false]
  | .awaitAck => .writes [.latch j .dropped false, .flagPut j .running false]
  | .markBound => .writes [.flagPut j .boundStopped true]
  | .resumeNode => .resuming (Atom.reset j ++ [.latch j .resume true, .flagPut j .running true])
  | .resumeInPlace | .boundResume =>
    .resuming (Atom.reset j ++
      [.latch j .resume true, .flagPut j .running true, .flagPut j .boundStopped false])

def SupOp.resumes : SupOp → Bool
  | .resumeNode | .resumeInPlace | .boundResume => true
  | .signalShutdown | .collect | .awaitAck | .markBound => false

/-- The shell or the worker moves, the worker begins an operation, pauses or ends; the
supervisor begins an operation or an attempt, goes on, or is refused. -/
inductive Label (V : Type)
  | shell
  | work (op : WorkerOp V)
  | pause
  | worker
  | finish (out : Option V)
  | op (o : SupOp)
  | startNodes
  | spawnSettled
  | retry
  | giveUp
  | sup
  | probe (state : V)
  | refuse

variable (c : ShellCfg n)

def flag (s : Handshake n V) (f : Flag) : Bool := s.mem.flag c.node f

/-- What the supervisor reads before an operation, in the same stretch. A bound resume does
not ask for an acknowledgement. -/
def allows (s : Handshake n V) : SupOp → Bool
  | .signalShutdown | .markBound => true
  | .collect => s.flag c .dropped
  | .awaitAck => (s.mem.node c.node).droppedWake
  | .resumeNode | .resumeInPlace => (s.mem.node c.node).hasAckedStop
  | .boundResume => s.flag c .boundStopped && !s.flag c .running

/-- No resident shell is still finishing its last activation. -/
def settled (s : Handshake n V) : Bool := !s.flag c .resident || s.flag c .idle

/-- Enter a start into the account. -/
def start (s : Handshake n V) : StartRecord where
  flags := s.flag c
  late := s.late
  leftover := s.shell.any Activation.leftover

/-- The move of a worker. The write of its acknowledgement begins a pause. -/
def workerStep (s : Handshake n V) : Option (Handshake n V) :=
  match s.doing with
  | [] => none
  | .access a :: doing =>
    let begins := a.drops && WorkerMove.pauses doing
    some { s with
      mem := s.mem.act a
      doing
      acked := s.acked || begins
      signalled := s.signalled && !begins
      late := s.late || a.writes }
  | .awaitResume :: doing =>
    if (s.mem.node c.node).resumeWake then
      some { s with
        mem := s.mem.act (.latch c.node .resume false)
        doing
        acked := false
        released := ⟨s.signalled, s.flag c .running⟩ :: s.released }
    else none

/-- The next access of the supervisor's stretch. -/
def supStep (s : Handshake n V) : Option (Handshake n V) :=
  match s.sup with
  | .idle | .probing _ => none
  | .writes [] | .resuming [] | .starting [] => some { s with sup := .idle }
  | .writes (a :: rest) => some { s with mem := s.mem.act a, sup := .writes rest }
  | .resuming (a :: rest) =>
    some { s with
      mem := s.mem.act a
      sup := .resuming rest
      signalled := s.signalled || a.signals c.node }
  | .starting (a :: rest) => some { s with mem := s.mem.act a, sup := .starting rest }
  | .resetting [] retries => some { s with sup := .probing retries }
  | .resetting (a :: rest) retries =>
    some { s with
      mem := s.mem.act a
      sup := .resetting rest retries
      late := s.late && !a.isReset }
  | .launching (a :: rest) resident retries =>
    some { s with mem := s.mem.act a, sup := .launching rest resident retries }
  | .launching [] true _ =>
    some { s with
      mem := s.mem.act (.flagPut c.node .idle false)
      sup := .starting [.latch c.node .resume true, .flagPut c.node .running true,
        .flagPut c.node .boundStopped false]
      begun := s.start c :: s.begun }
  | .launching [] false _ =>
    if s.shell.isNone then
      some { s with
        shell := some (.taking c.takes [])
        sup := .starting [.flagPut c.node .resident true, .flagPut c.node .running true,
          .flagPut c.node .boundStopped false]
        begun := s.start c :: s.begun }
    else none

def next (s : Handshake n V) : Label V → Option (Handshake n V)
  | .shell => do
    let shell ← s.shell
    let (after, mem) ← shell.step c s.mem
    some { s with shell := some after, mem, late := s.late || shell.writes }
  | .work op =>
    match s.shell, s.doing with
    | some (.working _), [] =>
      some { s with doing := (op.atoms c.cfg c.node).map .access }
    | _, _ => none
  | .pause =>
    match s.shell, s.doing with
    | some (.working _), [] =>
      some { s with doing := (Atom.ackDropped c.cfg c.node).map .access ++ [.awaitResume] }
    | _, _ => none
  | .worker => s.workerStep c
  | .finish out =>
    match s.shell, s.doing with
    | some (.working held), [] | some (.working held), [.awaitResume] =>
      some { s with shell := some (.leaving (c.epilogue held out)), doing := [], acked := false }
    | _, _ => none
  | .op o =>
    match s.sup, s.allows c o with
    | .idle, true => some { s with sup := o.stretch c.node }
    | _, _ => none
  | .startNodes =>
    match s.sup, s.settled c with
    | .idle, true => some { s with sup := .resetting (Atom.reset c.node) false }
    | _, _ => none
  | .spawnSettled =>
    match s.sup, s.settled c with
    | .idle, true => some { s with sup := .resetting (Atom.reset c.node) true }
    | _, _ => none
  | .retry =>
    match s.sup, s.retrying with
    | .idle, retrying + 1 =>
      some { s with retrying, sup := .resetting (Atom.reset c.node) true }
    | _, _ => none
  | .giveUp =>
    match s.sup, s.retrying with
    | .idle, retrying + 1 => some { s with retrying }
    | _, _ => none
  | .sup => s.supStep c
  | .probe state =>
    match s.sup with
    | .probing retries =>
      let handoff := match c.state with
        | none => []
        | some r => Atom.fill (.provide r state) r
      match s.flag c .resident, s.flag c .idle with
      | false, _ => some { s with sup := .launching handoff false retries }
      | true, true => some { s with sup := .launching handoff true retries }
      | true, false => some { s with sup := .idle, retrying := s.retrying + retries.toNat }
    | _ => none
  | .refuse =>
    match s.sup with
    | .launching _ _ retries =>
      some { s with sup := .idle, retrying := s.retrying + retries.toNat }
    | _ => none

/-! ## What a step can do -/

/-- The steps of the two sides. -/
inductive Step (s : Handshake n V) : Label V → Handshake n V → Prop
  | shell {shell after : Activation n V} {mem : Memory n V} (hshell : s.shell = some shell)
      (hstep : Activation.Step c s.mem shell after mem) :
      Step s .shell { s with shell := some after, mem, late := s.late || shell.writes }
  | work {op : WorkerOp V} {held : List (ℕ × Stamped V)}
      (hshell : s.shell = some (.working held)) (hdoing : s.doing = []) :
      Step s (.work op) { s with doing := (op.atoms c.cfg c.node).map .access }
  | pause {held : List (ℕ × Stamped V)} (hshell : s.shell = some (.working held))
      (hdoing : s.doing = []) :
      Step s .pause
        { s with doing := (Atom.ackDropped c.cfg c.node).map .access ++ [.awaitResume] }
  | access {a : Atom n V} {doing : List (WorkerMove n V)} (hdoing : s.doing = .access a :: doing) :
      Step s .worker
        { s with
          mem := s.mem.act a
          doing
          acked := s.acked || (a.drops && WorkerMove.pauses doing)
          signalled := s.signalled && !(a.drops && WorkerMove.pauses doing)
          late := s.late || a.writes }
  | release {doing : List (WorkerMove n V)} (hdoing : s.doing = .awaitResume :: doing)
      (hwake : (s.mem.node c.node).resumeWake = true) :
      Step s .worker
        { s with
          mem := s.mem.act (.latch c.node .resume false)
          doing
          acked := false
          released := ⟨s.signalled, s.flag c .running⟩ :: s.released }
  | finish {out : Option V} {held : List (ℕ × Stamped V)}
      (hshell : s.shell = some (.working held))
      (hdoing : s.doing = [] ∨ s.doing = [.awaitResume]) :
      Step s (.finish out)
        { s with shell := some (.leaving (c.epilogue held out)), doing := [], acked := false }
  | op {o : SupOp} (hsup : s.sup = .idle) (hallows : s.allows c o = true) :
      Step s (.op o) { s with sup := o.stretch c.node }
  | attempt {l : Label V} {retries : Bool} {retrying : ℕ} (hsup : s.sup = .idle)
      (hsettled : l = .retry ∨ s.settled c = true) :
      Step s l { s with retrying, sup := .resetting (Atom.reset c.node) retries }
  | giveUp {retrying : ℕ} (hsup : s.sup = .idle) : Step s .giveUp { s with retrying }
  | writes {a : Atom n V} {rest : List (Atom n V)} (hsup : s.sup = .writes (a :: rest)) :
      Step s .sup { s with mem := s.mem.act a, sup := .writes rest }
  | resume {a : Atom n V} {rest : List (Atom n V)} (hsup : s.sup = .resuming (a :: rest)) :
      Step s .sup
        { s with
          mem := s.mem.act a
          sup := .resuming rest
          signalled := s.signalled || a.signals c.node }
  | starting {a : Atom n V} {rest : List (Atom n V)} (hsup : s.sup = .starting (a :: rest)) :
      Step s .sup { s with mem := s.mem.act a, sup := .starting rest }
  | reset {a : Atom n V} {rest : List (Atom n V)} {retries : Bool}
      (hsup : s.sup = .resetting (a :: rest) retries) :
      Step s .sup
        { s with
          mem := s.mem.act a
          sup := .resetting rest retries
          late := s.late && !a.isReset }
  | handOver {a : Atom n V} {rest : List (Atom n V)} {resident retries : Bool}
      (hsup : s.sup = .launching (a :: rest) resident retries) :
      Step s .sup { s with mem := s.mem.act a, sup := .launching rest resident retries }
  | restart {retries : Bool} (hsup : s.sup = .launching [] true retries) :
      Step s .sup
        { s with
          mem := s.mem.act (.flagPut c.node .idle false)
          sup := .starting [.latch c.node .resume true, .flagPut c.node .running true,
            .flagPut c.node .boundStopped false]
          begun := s.start c :: s.begun }
  | spawn {retries : Bool} (hsup : s.sup = .launching [] false retries)
      (hshell : s.shell = none) :
      Step s .sup
        { s with
          shell := some (.taking c.takes [])
          sup := .starting [.flagPut c.node .resident true, .flagPut c.node .running true,
            .flagPut c.node .boundStopped false]
          begun := s.start c :: s.begun }
  | ended (hsup : s.sup = .writes [] ∨ s.sup = .resuming [] ∨ s.sup = .starting []) :
      Step s .sup { s with sup := .idle }
  | resetOver {retries : Bool} (hsup : s.sup = .resetting [] retries) :
      Step s .sup { s with sup := .probing retries }
  | probed {state : V} {handoff : List (Atom n V)} {retries : Bool}
      (hsup : s.sup = .probing retries)
      (hhandoff : ∀ a ∈ handoff, a.target = none)
      (hready : s.flag c .resident = true → s.flag c .idle = true) :
      Step s (.probe state) { s with sup := .launching handoff (s.flag c .resident) retries }
  | refused {l : Label V} {retrying : ℕ}
      (hsup : (∃ retries, s.sup = .probing retries) ∨
        ∃ handoff resident retries, s.sup = .launching handoff resident retries) :
      Step s l { s with sup := .idle, retrying }

variable {c} {s s' : Handshake n V} {l : Label V}

theorem step_worker (h : s.workerStep c = some s') : Step c s .worker s' := by
  unfold workerStep at h
  match hdoing : s.doing with
  | [] => simp [hdoing] at h
  | .access a :: doing =>
      simp only [hdoing, Option.some.injEq] at h
      subst h
      exact .access hdoing
  | .awaitResume :: doing =>
      simp only [hdoing] at h
      split at h
      · next hwake =>
          cases h
          exact .release hdoing hwake
      · cases h

theorem step_sup (h : s.supStep c = some s') : Step c s .sup s' := by
  unfold supStep at h
  match hsup : s.sup with
  | .idle | .probing _ => simp [hsup] at h
  | .writes [] =>
      simp only [hsup, Option.some.injEq] at h
      exact h ▸ .ended (Or.inl hsup)
  | .resuming [] =>
      simp only [hsup, Option.some.injEq] at h
      exact h ▸ .ended (Or.inr (Or.inl hsup))
  | .starting [] =>
      simp only [hsup, Option.some.injEq] at h
      exact h ▸ .ended (Or.inr (Or.inr hsup))
  | .writes (a :: rest) =>
      simp only [hsup, Option.some.injEq] at h
      exact h ▸ .writes hsup
  | .resuming (a :: rest) =>
      simp only [hsup, Option.some.injEq] at h
      exact h ▸ .resume hsup
  | .starting (a :: rest) =>
      simp only [hsup, Option.some.injEq] at h
      exact h ▸ .starting hsup
  | .resetting [] retries =>
      simp only [hsup, Option.some.injEq] at h
      exact h ▸ .resetOver hsup
  | .resetting (a :: rest) retries =>
      simp only [hsup, Option.some.injEq] at h
      exact h ▸ .reset hsup
  | .launching (a :: rest) resident retries =>
      simp only [hsup, Option.some.injEq] at h
      exact h ▸ .handOver hsup
  | .launching [] true retries =>
      simp only [hsup, Option.some.injEq] at h
      exact h ▸ .restart hsup
  | .launching [] false retries =>
      simp only [hsup] at h
      split at h
      · next hshell =>
          cases h
          exact .spawn hsup (by simpa using hshell)
      · cases h

theorem handoff_target (st : Option ℕ) (state : V) :
    ∀ a ∈ (match st with
      | none => []
      | some r => Atom.fill (.provide r state) r : List (Atom n V)), a.target = none := by
  intro a ha
  cases st with
  | none => simp at ha
  | some r =>
      simp only [Atom.fill, List.mem_cons, List.not_mem_nil, or_false] at ha
      rcases ha with rfl | rfl | rfl <;> rfl

theorem step_probe {state : V} (h : s.next c (.probe state) = some s') :
    Step c s (.probe state) s' := by
  simp only [next] at h
  match hsup : s.sup with
  | .idle | .writes _ | .resuming _ | .resetting _ _ | .launching _ _ _ | .starting _ =>
      simp [hsup] at h
  | .probing retries =>
      simp only [hsup] at h
      cases hresident : s.flag c .resident with
      | false =>
          simp only [hresident, Option.some.injEq] at h
          have hstep : Step c s (.probe state) { s with sup := .launching _ _ retries } :=
            .probed hsup (handoff_target c.state state) (fun h => absurd h (by simp [hresident]))
          rw [hresident, h] at hstep
          exact hstep
      | true =>
          cases hidle : s.flag c .idle with
          | true =>
              simp only [hresident, hidle, Option.some.injEq] at h
              have hstep : Step c s (.probe state) { s with sup := .launching _ _ retries } :=
                .probed hsup (handoff_target c.state state) (fun _ => hidle)
              rw [hresident, h] at hstep
              exact hstep
          | false =>
              simp only [hresident, hidle, Option.some.injEq] at h
              exact h ▸ .refused (Or.inl ⟨retries, hsup⟩)

/-- **Inversion of a step.** -/
theorem next_cases (h : s.next c l = some s') : Step c s l s' := by
  match l with
  | .shell =>
      simp only [next, Option.bind_eq_bind, Option.bind_eq_some_iff, Option.some.injEq] at h
      obtain ⟨shell, hshell, ⟨after, mem⟩, hstep, rfl⟩ := h
      exact .shell hshell (Activation.step_cases hstep)
  | .work op =>
      simp only [next] at h
      split at h
      · next held hshell hdoing =>
          cases h
          exact .work hshell hdoing
      · cases h
  | .pause =>
      simp only [next] at h
      split at h
      · next held hshell hdoing =>
          cases h
          exact .pause hshell hdoing
      · cases h
  | .worker => exact step_worker h
  | .finish out =>
      simp only [next] at h
      split at h
      · next held hshell hdoing =>
          cases h
          exact .finish hshell (Or.inl hdoing)
      · next held hshell hdoing =>
          cases h
          exact .finish hshell (Or.inr hdoing)
      · cases h
  | .op o =>
      simp only [next] at h
      split at h
      · next hsup hallows =>
          cases h
          exact .op hsup hallows
      · cases h
  | .startNodes | .spawnSettled =>
      simp only [next] at h
      split at h
      · next hsup hsettled =>
          cases h
          exact .attempt hsup (Or.inr hsettled)
      · cases h
  | .retry =>
      simp only [next] at h
      split at h
      · next hsup hretrying =>
          cases h
          exact .attempt hsup (Or.inl rfl)
      · cases h
  | .giveUp =>
      simp only [next] at h
      split at h
      · next hsup hretrying =>
          cases h
          exact .giveUp hsup
      · cases h
  | .sup => exact step_sup h
  | .probe state => exact step_probe h
  | .refuse =>
      simp only [next] at h
      split at h
      · next handoff resident retries hsup =>
          cases h
          exact .refused (Or.inr ⟨handoff, resident, retries, hsup⟩)
      · cases h

end Handshake

end EmbassySupervisor
