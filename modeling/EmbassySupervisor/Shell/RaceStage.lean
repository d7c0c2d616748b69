/-
# The protocol of a raced worker

What a future that races its worker against a stop owes the rest: the stages it goes through,
as an acceptor of the events others can tell. A history is lawful when every acknowledgement
has the worker's drop right before it, no future acknowledges twice, no dropped worker is
polled, a worker that was ready is reported so and a pause ends with the resume of what was
acknowledged. `lawful_of_exec` is about the acceptor alone.
-/

import EmbassySupervisor.Lib.LabelledRun
import Mathlib.Order.Basic

namespace EmbassySupervisor

open LabelledRun

/-- `run_cancellable`, `run_cancellable_acked` and `run_pausable`. -/
inductive RaceKind
  | cancellable (ack : Bool)
  | pausable
  deriving DecidableEq, Repr

/-- The future acknowledges a stop. -/
def RaceKind.acks : RaceKind → Bool
  | .cancellable ack => ack
  | .pausable => true

inductive Returned
  | completed
  | aborted
  | resumed
  deriving DecidableEq, Repr

/-- What a future does that others can tell: a wedge swallows the acknowledgement. -/
inductive RaceEvent
  | created
  | polled (done : Bool)
  | dropped
  | acked
  | swallowed
  | returned (r : Returned)
  deriving DecidableEq, Repr

/-- The event is the future's call of `ack_dropped`. -/
def RaceEvent.isAck : RaceEvent → Bool
  | .acked | .swallowed => true
  | .created | .polled _ | .dropped | .returned _ => false

/-! ## The protocol -/

/-- The worker is racing, or was ready; it is dropped, or dropped and the stop acknowledged;
the future has returned. -/
inductive Stage
  | racing
  | ready
  | aborting
  | settled
  | ended (r : Returned)
  deriving DecidableEq, Repr

namespace Stage

def next (kind : RaceKind) : Stage → RaceEvent → Option Stage
  | .racing, .polled done => some (if done then .ready else .racing)
  | .ready, .returned .completed => some (.ended .completed)
  | .racing, .dropped => some .aborting
  | .aborting, .acked | .aborting, .swallowed => if kind.acks then some .settled else none
  | .aborting, .returned .aborted =>
    if kind = .cancellable false then some (.ended .aborted) else none
  | .settled, .returned .aborted =>
    if kind = .cancellable true then some (.ended .aborted) else none
  | .settled, .returned .resumed => if kind = .pausable then some (.ended .resumed) else none
  | .ended _, .created => some .racing
  | _, _ => none

/-- How far a future has come. -/
def rank : Stage → ℕ
  | .racing => 0
  | .ready => 1
  | .aborting => 2
  | .settled => 3
  | .ended _ => 4

/-- What `next` does, case by case. -/
inductive Next (kind : RaceKind) : Stage → RaceEvent → Stage → Prop
  | pending : Next kind .racing (.polled false) .racing
  | ready : Next kind .racing (.polled true) .ready
  | complete : Next kind .ready (.returned .completed) (.ended .completed)
  | drop : Next kind .racing .dropped .aborting
  | ack {e : RaceEvent} (hack : kind.acks = true) (he : e.isAck = true) :
      Next kind .aborting e .settled
  | abort (hkind : kind = .cancellable false) :
      Next kind .aborting (.returned .aborted) (.ended .aborted)
  | abortAcked (hkind : kind = .cancellable true) :
      Next kind .settled (.returned .aborted) (.ended .aborted)
  | resume (hkind : kind = .pausable) :
      Next kind .settled (.returned .resumed) (.ended .resumed)
  | create {r : Returned} : Next kind (.ended r) .created .racing

variable {kind : RaceKind} {s t : Stage} {e : RaceEvent} {events : List RaceEvent}

theorem next_cases (h : next kind s e = some t) : Next kind s e t := by
  unfold next at h
  split at h
  · next done =>
      cases done
      · cases h
        exact .pending
      · cases h
        exact .ready
  · cases h
    exact .complete
  · cases h
    exact .drop
  · next =>
      split at h
      · next hack =>
          cases h
          exact .ack hack rfl
      · cases h
  · next =>
      split at h
      · next hack =>
          cases h
          exact .ack hack rfl
      · cases h
  · split at h
    · next hkind =>
        cases h
        exact .abort hkind
    · cases h
  · split at h
    · next hkind =>
        cases h
        exact .abortAcked hkind
    · cases h
  · split at h
    · next hkind =>
        cases h
        exact .resume hkind
    · cases h
  · cases h
    exact .create
  · cases h

/-- A future does not go back. -/
theorem rank_le (h : Next kind s e t) (he : e ≠ .created) : s.rank ≤ t.rank := by
  cases h with
  | create => exact absurd rfl he
  | pending | ready | complete | drop | ack | abort | abortAcked | resume => simp [rank]

theorem rank_le_of_exec (h : exec (next kind) s events = some t) (hsame : .created ∉ events) :
    s.rank ≤ t.rank := by
  have hothers : ∀ e ∈ events, e ≠ .created := fun e he heq => hsame (heq ▸ he)
  have halong : Along (next kind) (fun _ e => e ≠ .created) s events :=
    along_of_forall hothers s
  apply exec_invariant_along (I := fun u => s.rank ≤ u.rank) _ (Nat.le_refl _) halong h
  intro u e v hle he hnext
  exact Nat.le_trans hle (rank_le (next_cases hnext) he)

theorem of_isAck (he : e.isAck = true) (h : Next kind s e t) : s = .aborting ∧ t = .settled := by
  cases h with
  | ack => exact ⟨rfl, rfl⟩
  | pending | ready | complete | drop | abort | abortAcked | resume | create => cases he

end Stage

/-- What a history of events shows of the futures' dealings. -/
structure Lawful (events : List RaceEvent) : Prop where
  /-- The worker is dropped right before the acknowledgement. -/
  ack : ∀ front e back, events = front ++ e :: back → e.isAck = true →
    ∃ front', front = front' ++ [.dropped]
  /-- A future acknowledges once. -/
  once : ∀ front e mid e' back, events = front ++ e :: (mid ++ e' :: back) → e.isAck = true →
    e'.isAck = true → .created ∈ mid
  /-- A dropped worker is not polled. -/
  polled : ∀ front mid done back, events = front ++ .dropped :: (mid ++ .polled done :: back) →
    .created ∈ mid
  /-- A worker that was ready has its completion reported. -/
  completed : ∀ front e back, events = front ++ .polled true :: e :: back →
    e = .returned .completed
  /-- A pause is over right after its acknowledgement. -/
  resumed : ∀ front back, events = front ++ .returned .resumed :: back →
    ∃ front' e, front = front' ++ [e] ∧ e.isAck = true

namespace Stage

variable {kind : RaceKind} {t : Stage} {events : List RaceEvent}

/-- What the acceptor accepts is lawful. -/
theorem lawful_of_exec (h : exec (next kind) .racing events = some t) : Lawful events where
  ack front e back heq he := by
    subst heq
    obtain ⟨u, v, hfront, hnext, -⟩ := exec_append_cons.mp h
    obtain ⟨rfl, -⟩ := of_isAck he (next_cases hnext)
    obtain ⟨front', d, w, rfl, hd⟩ := exec_enters (by decide) hfront
    cases next_cases hd
    exact ⟨front', rfl⟩
  once front e mid e' back heq he he' := by
    subst heq
    by_contra hsame
    obtain ⟨u, v, -, hnext, hback⟩ := exec_append_cons.mp h
    obtain ⟨w, x, hmid, hnext', -⟩ := exec_append_cons.mp hback
    obtain ⟨-, rfl⟩ := of_isAck he (next_cases hnext)
    obtain ⟨rfl, -⟩ := of_isAck he' (next_cases hnext')
    exact absurd (rank_le_of_exec hmid hsame) (by decide)
  polled front mid done back heq := by
    subst heq
    by_contra hsame
    obtain ⟨u, v, -, hnext, hback⟩ := exec_append_cons.mp h
    obtain ⟨w, x, hmid, hnext', -⟩ := exec_append_cons.mp hback
    have hrank := rank_le_of_exec hmid hsame
    cases next_cases hnext with
    | drop =>
        cases next_cases hnext' with
        | pending | ready => exact absurd hrank (by decide)
        | ack _ he => cases he
    | ack _ he => cases he
  completed front e back heq := by
    subst heq
    obtain ⟨u, v, -, hnext, hback⟩ := exec_append_cons.mp h
    obtain ⟨x, hlast, -⟩ := exec_cons.mp hback
    cases next_cases hnext with
    | ready =>
        cases next_cases hlast with
        | complete => rfl
    | ack _ he => cases he
  resumed front back heq := by
    subst heq
    obtain ⟨u, v, hfront, hnext, -⟩ := exec_append_cons.mp h
    cases next_cases hnext with
    | resume =>
        obtain ⟨front', e, w, rfl, he⟩ := exec_enters (by decide) hfront
        cases next_cases he with
        | ack _ hack => exact ⟨front', e, rfl, hack⟩
    | ack _ he => cases he

end Stage

end EmbassySupervisor
