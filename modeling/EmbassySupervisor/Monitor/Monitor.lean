/-
# The liveness monitor

`monitor` sleeps until the first policed node could go stale, then sweeps all of them:
an observed write that has advanced counts as a beat and may assert readiness, a node
that has been silent for longer than its budget takes a strike, and the strike that
fills its window is reported, as is the beat that ends such a silence.

`MonitorSys` is the whole system: the calls among the tasks, the pool driver and the
monitor. A step that sets a node running stamps its beat, tasks beat and write at any
time, and the application takes reports out of the mailbox and asks which nodes are stale.
-/

import Mathlib.Data.UInt
import EmbassySupervisor.Pool.Driver

namespace EmbassySupervisor

variable {n : ℕ}

/-! ## What is declared -/

/-- A declared write of a signal, as the monitor reads it. -/
structure Coupling where
  signal : ℕ
  observed : Bool := false
  beats : Bool := false
  deriving DecidableEq, Repr

/-- The declared half of a node that only the monitor reads. Without a budget the node
is not policed. -/
structure LiveCfg where
  beatTimeout : Option ℕ := none
  beatWindow : ℕ := 1
  readyOnWrite : Bool := false
  writes : List Coupling := []

/-- A graph with what its monitor reads, and the two shape bits of it. -/
structure MonitoredGraph (n : ℕ) extends PoolGraph n where
  live : Fin n → LiveCfg
  hasBeats : Bool := true
  hasObserved : Bool := true
  beats_sound : hasBeats = false → ∀ j, (live j).beatTimeout = none
  observed_sound : hasObserved = false → ∀ j, ∀ c ∈ (live j).writes, c.observed = false

/-! ## What is kept -/

/-- What a handle keeps for the monitor. Stamps are instants truncated to 32 bits, and
the mark is the sum of the change counters the last sweep has seen. -/
structure Beat where
  lastBeat : UInt32 := 0
  pendingBeat : Bool := false
  staleStrikes : ℕ := 0
  writeMark : UInt32 := 0

namespace Beat

variable (b : Beat)

/-- How long the node has been silent; a beat since the last look is stamped now. -/
def ticksSinceBeat (now : ℕ) : ℕ × Beat :=
  let now := UInt32.ofNat now
  let b := if b.pendingBeat then { b with pendingBeat := false, lastBeat := now } else b
  ((now - b.lastBeat).toNat, b)

/-- The sum of the counters of the writes that feed the node's beat. -/
def mark (cfg : LiveCfg) (count : ℕ → UInt32) : UInt32 :=
  ((cfg.writes.filter fun c => c.beats && c.observed).map fun c => count c.signal).sum

/-- Whether a write that feeds the beat has advanced since the last look. -/
def pollObservedWrites (cfg : LiveCfg) (count : ℕ → UInt32) : Bool × Beat :=
  if cfg.writes.any fun c => c.beats && c.observed then
    (b.writeMark != mark cfg count, { b with writeMark := mark cfg count })
  else (false, b)

/-- The node has just been set running. -/
def stamp (cfg : LiveCfg) (count : ℕ → UInt32) (now : ℕ) : Beat :=
  { b with lastBeat := UInt32.ofNat now, pendingBeat := false, writeMark := mark cfg count }

end Beat

inductive HealthKind
  | stale (ticks : ℕ)
  | recovered
  deriving DecidableEq, Repr

structure HealthEvent (n : ℕ) where
  node : Fin n
  kind : HealthKind
  deriving DecidableEq, Repr

/-- Where the monitor is: not polled yet, idle for ever, or asleep until an instant. -/
inductive MonitorPc
  | start
  | idle
  | sleep (due : ℕ)
  deriving DecidableEq, Repr

/-- The monitor, what it keeps in the handles, the change counters of the observed
signals, and the mailbox of its reports. -/
structure Liveness (n : ℕ) where
  beat : Fin n → Beat := fun _ => {}
  count : ℕ → UInt32 := fun _ => 0
  health : List (HealthEvent n) := []
  pc : MonitorPc := .start

namespace Liveness

variable (l : Liveness n)

def put (j : Fin n) (b : Beat) : Liveness n :=
  { l with beat := Function.update l.beat j b }

/-- `emit_health`: the mailbox holds four reports and drops what does not fit. -/
def emit (e : HealthEvent n) : Liveness n :=
  if l.health.length < 4 then { l with health := l.health ++ [e] } else l

end Liveness

/-! ## The monitor -/

namespace MonitoredGraph

variable (g : MonitoredGraph n)

/-- Ticks until the node next needs looking at; `none` where it is not policed. -/
def ticksUntilCheck (w : World n) (j : Fin n) (b : Beat) : Option ℕ × Beat :=
  match (g.live j).beatTimeout with
  | none => (none, b)
  | some budget =>
    if w.flag j .detached || !w.flag j .running then (some budget, b)
    else if (g.live j).readyOnWrite && !w.flag j .ready then (some (max (budget / 8) 1), b)
    else
      let (ticks, b) := b.ticksSinceBeat w.now
      (some (if budget - ticks = 0 then max (budget / 2) 1 else budget - ticks), b)

/-- Go to sleep until the first policed node needs looking at. -/
def look (w : World n) (l : Liveness n) : Liveness n :=
  let (sleep, l) := (List.finRange n).foldl (fun (sleep, l) j =>
    if g.occupied j then
      let (ticks, b) := g.ticksUntilCheck w j (l.beat j)
      ((match sleep, ticks with
        | some s, some t => some (min s t)
        | some s, none => some s
        | none, t => t), l.put j b)
    else (sleep, l)) ((none : Option ℕ), l)
  { l with pc := .sleep (w.now + sleep.getD 1) }

/-- Count a stale verdict: the strike that fills the window is reported. -/
def strike (window ticks : ℕ) (j : Fin n) (b : Beat) (l : Liveness n) : Liveness n :=
  if b.staleStrikes < window then
    let l := l.put j { b with staleStrikes := b.staleStrikes + 1 }
    if b.staleStrikes + 1 = window then l.emit { node := j, kind := .stale ticks } else l
  else l.put j b

/-- A fresh verdict ends the strikes, and a reported silence is reported over. -/
def recover (window : ℕ) (j : Fin n) (b : Beat) (l : Liveness n) : Liveness n :=
  let l := l.put j { b with staleStrikes := 0 }
  if window ≤ b.staleStrikes then l.emit { node := j, kind := .recovered } else l

/-- What a sweep reads of a node that is up: whether an observed write has advanced since
the last sweep, which counts as a beat, and for how long the node has been silent. -/
def inspect (w : World n) (l : Liveness n) (j : Fin n) : Bool × ℕ × Beat :=
  let (wrote, b) :=
    if g.hasObserved then (l.beat j).pollObservedWrites (g.live j) l.count
    else (false, l.beat j)
  let b := if wrote then { b with pendingBeat := true } else b
  let (ticks, b) := b.ticksSinceBeat w.now
  (wrote, ticks, b)

/-- The sweep visits a slot. -/
def sweepVisit (j : Fin n) (w : World n) (l : Liveness n) : World n × Liveness n :=
  match g.nodes j, (g.live j).beatTimeout with
  | some _, some budget =>
    if w.flag j .detached || !w.flag j .running then
      (w, l.put j { l.beat j with staleStrikes := 0 })
    else
      let (wrote, ticks, b) := g.inspect w l j
      let w := if wrote && (g.live j).readyOnWrite && !w.flag j .ready then w.setReady j else w
      let window := max (g.live j).beatWindow 1
      (w, if budget < ticks then strike window ticks j b l else recover window j b l)
  | _, _ => (w, l)

def sweep (w : World n) (l : Liveness n) : World n × Liveness n :=
  (List.finRange n).foldl (fun (w, l) j => g.sweepVisit j w l) (w, l)

/-- The monitor is polled. -/
def monitor (w : World n) (l : Liveness n) : Option (World n × Liveness n) :=
  match l.pc with
  | .start =>
    if g.hasBeats && (List.finRange n).any fun j =>
        g.occupied j && (g.live j).beatTimeout.isSome then
      some (w, g.look w l)
    else some (w, { l with pc := .idle })
  | .idle => none
  | .sleep due =>
    if due ≤ w.now then
      let (w, l) := g.sweep w l
      some (w, g.look w l)
    else none

/-! ## The application's checks -/

/-- Whether the node is policed and has been silent for longer than its budget; a beat
since the last look is stamped now. -/
def isStale (w : World n) (j : Fin n) (l : Liveness n) : Bool × Liveness n :=
  match g.nodes j, (g.live j).beatTimeout with
  | some _, some budget =>
    if !w.flag j .detached && w.flag j .running then
      let (ticks, b) := (l.beat j).ticksSinceBeat w.now
      (decide (budget < ticks), l.put j b)
    else (false, l)
  | _, _ => (false, l)

/-- The slots among these that are stale. -/
def staleAmong (w : World n) : List (Fin n) → Liveness n → List (Fin n) × Liveness n
  | [], l => ([], l)
  | j :: js, l =>
    let (stale, l) := g.isStale w j l
    let (rest, l) := staleAmong w js l
    (if stale then j :: rest else rest, l)

def staleNodes (w : World n) (l : Liveness n) : List (Fin n) × Liveness n :=
  g.staleAmong w (List.finRange n) l

/-- Whether none of these slots is stale; the first that is ends the look. -/
def freshAmong (w : World n) : List (Fin n) → Liveness n → Bool × Liveness n
  | [], l => (true, l)
  | j :: js, l =>
    match g.isStale w j l with
    | (true, l) => (false, l)
    | (false, l) => freshAmong w js l

def allFresh (w : World n) (l : Liveness n) : Bool × Liveness n :=
  g.freshAmong w (List.finRange n) l

end MonitoredGraph

/-! ## The whole system -/

namespace PoolSys

/-- Every call and the driver are suspended or over. -/
def resting (s : PoolSys n) : Bool := s.sys.resting && s.driver.suspended

def withWorld (s : PoolSys n) (w : World n) : PoolSys n :=
  { s with sys := { s.sys with world := w } }

end PoolSys

structure MonitorSys (n : ℕ) where
  pool : PoolSys n
  live : Liveness n := {}

namespace MonitorSys

inductive Label (n : ℕ)
  | pool (l : PoolSys.Label n)
  | monitor
  | beat (j : Fin n)
  | write (signal : ℕ)
  | takeHealth
  | staleNodes
  | allFresh

/-- The nodes set running between two states of the system, newest first. -/
def startedBetween (w w' : World n) : List (Fin n) :=
  (w'.log.take (w'.log.length - w.log.length)).filterMap fun r =>
    match r.2 with
    | .note j .started | .note j .resumed => some j
    | .note _ .spawning | .note _ .stopRequested | .note _ .stopped | .note _ .exited
    | .note _ (.faulted _) | .spawned _ | .dropped _ | .boundStop _ | .boundPark _
    | .claimsReleased _ => none

variable (g : MonitoredGraph n)

/-- Stamp the beats of the nodes set running. -/
def stampStarts (w w' : World n) (l : Liveness n) : Liveness n :=
  (startedBetween w w').foldl
    (fun l j => l.put j ((l.beat j).stamp (g.live j) l.count w'.now)) l

def next (s : MonitorSys n) : Label n → Option (MonitorSys n)
  | .pool l => (s.pool.next g.toPoolGraph l).map fun t =>
    { pool := t, live := stampStarts g s.pool.world t.world s.live }
  | .monitor =>
    if s.pool.resting then
      (g.monitor s.pool.world s.live).map fun (w, l) =>
        { pool := s.pool.withWorld w, live := l }
    else none
  | .beat j =>
    if s.pool.resting then
      some { s with live := s.live.put j { s.live.beat j with pendingBeat := true } }
    else none
  | .write signal =>
    if s.pool.resting then
      some { s with
        live := { s.live with
          count := Function.update s.live.count signal (s.live.count signal + 1) } }
    else none
  | .takeHealth =>
    if s.pool.resting then
      match s.live.health with
      | [] => none
      | _ :: rest => some { s with live := { s.live with health := rest } }
    else none
  | .staleNodes =>
    if s.pool.resting then
      some { s with live := (g.staleNodes s.pool.world s.live).2 }
    else none
  | .allFresh =>
    if s.pool.resting then
      some { s with live := (g.allFresh s.pool.world s.live).2 }
    else none

end MonitorSys

end EmbassySupervisor
