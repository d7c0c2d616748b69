/-
# Draining leased values

`Leased` counts the live leases of a value in the low bits of a word whose top bit closes
it. `lease` is a compare-exchange loop on that word, `drain` closes it and waits for the
count to reach zero, and the drop that takes it there signals `idle`. `reopen` resets
`idle` and clears the top bit.

Any number of leases and reopenings run against one drain at a time, one atomic access each;
the waiter of a signal is registered with it, and a reset forgets the waiter together with
what was signalled. `leased_drain` is what holds in every run with fewer than `2 ^ 31` live
leases. That a waiting drain is woken asks for one premise more: `reopen` is for a value that
has been drained, and a reset while the drain still waits takes its wake away, as
`reopen_strands_drain` shows.
-/

import EmbassySupervisor.Lib.Interleaving
import EmbassySupervisor.Lib.LabelledRun

namespace EmbassySupervisor

open LabelledRun Interleaving

namespace Leased

/-! ## The word -/

/-- `CLOSED`, the top bit of a word of 32. -/
def closedBit : ℕ := 2147483648

/-- `word & COUNT`. -/
def count (word : ℕ) : ℕ := word % closedBit

/-- `word & CLOSED != 0`. -/
def isClosed (word : ℕ) : Bool := closedBit ≤ word

/-- `fetch_or(CLOSED)`. -/
def close (word : ℕ) : ℕ := if closedBit ≤ word then word else word + closedBit

/-- `fetch_sub(1)`, wrapping. -/
def pred (word : ℕ) : ℕ := (word + (2 * closedBit - 1)) % (2 * closedBit)

theorem count_close (word : ℕ) : count (close word) = count word := by
  unfold count close
  split
  · rfl
  · exact Nat.add_mod_right word closedBit

theorem isClosed_close (word : ℕ) : isClosed (close word) = true := by
  unfold isClosed close
  split
  · next h => exact decide_eq_true h
  · exact decide_eq_true (Nat.le_add_left _ _)

theorem count_count (word : ℕ) : count (count word) = count word := Nat.mod_mod word closedBit

theorem close_lt {word : ℕ} (h : word < 2 * closedBit) : close word < 2 * closedBit := by
  unfold close
  split <;> omega

theorem count_lt (word : ℕ) : count word < closedBit := Nat.mod_lt _ (by decide)

theorem count_succ {word : ℕ} (hopen : isClosed word = false)
    (hlt : count word + 1 < closedBit) : count (word + 1) = count word + 1 := by
  have hword : word < closedBit := by simpa [isClosed] using hopen
  unfold count at *
  rw [Nat.mod_eq_of_lt hword] at *
  exact Nat.mod_eq_of_lt hlt

theorem pred_eq {word : ℕ} (hword : word < 2 * closedBit) (hpos : 0 < count word) :
    pred word = word - 1 := by
  have hne : 0 < word := by
    rcases Nat.eq_zero_or_pos word with rfl | h
    · exact absurd hpos (by decide)
    · exact h
  unfold pred
  rw [show word + (2 * closedBit - 1) = (word - 1) + 2 * closedBit by omega, Nat.add_mod_right]
  exact Nat.mod_eq_of_lt (by omega)

theorem count_of_closed {word : ℕ} (hword : word < 2 * closedBit) (hclosed : closedBit ≤ word) :
    count word = word - closedBit := by
  unfold count
  rw [Nat.mod_eq_sub_mod hclosed]
  exact Nat.mod_eq_of_lt (by omega)

theorem count_pred {word : ℕ} (hword : word < 2 * closedBit) (hpos : 0 < count word) :
    count (pred word) = count word - 1 := by
  rw [pred_eq hword hpos]
  by_cases hclosed : closedBit ≤ word
  · rw [count_of_closed hword hclosed] at hpos ⊢
    rw [count_of_closed (by omega) (by omega)]
    omega
  · unfold count at *
    rw [Nat.mod_eq_of_lt (by omega : word < closedBit),
      Nat.mod_eq_of_lt (by omega : word - 1 < closedBit)]

theorem isClosed_pred {word : ℕ} (hword : word < 2 * closedBit) (hpos : 0 < count word) :
    isClosed (pred word) = isClosed word := by
  rw [pred_eq hword hpos]
  unfold isClosed
  unfold count at hpos
  by_cases h : closedBit ≤ word
  · have hne : word ≠ closedBit := by
      rintro rfl
      simp at hpos
    simp only [h, decide_true, decide_eq_true_eq]
    omega
  · simp only [h, decide_false, decide_eq_false_iff_not]
    omega

end Leased

/-- A signal: nothing is in it, a waiter is registered, or it was signalled. -/
inductive Signal
  | empty
  | waiting
  | signaled
  deriving DecidableEq, Repr

/-- A `lease` at its load or its compare-exchange, what it returned, and the drop of a lease
that has still to signal. -/
inductive LeaseCall
  | load
  | exchange (cur : ℕ)
  | live
  | refused
  | signal
  | dropped
  deriving DecidableEq, Repr

/-- A `drain` at its closing store, its look at the count, its first poll of `idle`, parked
there, or returned. -/
inductive DrainCall
  | close
  | check
  | poll
  | parked
  | returned
  deriving DecidableEq, Repr

/-- A `reopen` at its two accesses. -/
inductive ReopenCall
  | reset
  | openUp
  | returned
  deriving DecidableEq, Repr

/-- A leased value and the calls on it. `woken` says that the waker the drain registered has
been called. -/
structure LeasedSys where
  word : ℕ := 0
  idle : Signal := .empty
  woken : Bool := false
  leases : List LeaseCall := []
  drain : Option DrainCall := none
  reopens : List ReopenCall := []

namespace LeasedSys

open Leased

/-- A call begins or makes an access; a drain is dropped. The compare-exchange of a lease
may fail for no reason. -/
inductive Label
  | lease
  | leaseStep (k : ℕ) (spurious : Bool)
  | drain
  | drainStep
  | cancel
  | reopen
  | reopenStep (k : ℕ)

def signalIdle (s : LeasedSys) : LeasedSys :=
  { s with idle := .signaled, woken := s.woken || s.idle == .waiting }

/-- Poll `idle`: take what was signalled, or register. -/
def pollIdle (s : LeasedSys) : LeasedSys :=
  match s.idle with
  | .signaled => { s with idle := .empty, drain := some .check }
  | .empty | .waiting => { s with idle := .waiting, woken := false, drain := some .parked }

/-- One access of a `lease`, or of the drop of one. -/
def leaseStep (s : LeasedSys) (spurious : Bool) : LeaseCall → Option (LeaseCall × LeasedSys)
  | .load => some (if isClosed s.word then .refused else .exchange s.word, s)
  | .exchange cur =>
    if s.word = cur ∧ spurious = false then some (.live, { s with word := cur + 1 })
    else some (if isClosed s.word then .refused else .exchange s.word, s)
  | .live =>
    some (if count s.word = 1 then .signal else .dropped, { s with word := pred s.word })
  | .signal => some (.dropped, s.signalIdle)
  | .refused | .dropped => none

def drainStep (s : LeasedSys) : DrainCall → Option LeasedSys
  | .close => some { s with word := close s.word, drain := some .check }
  | .check =>
    some { s with drain := some (if count s.word = 0 then .returned else .poll) }
  | .poll | .parked => some s.pollIdle
  | .returned => none

def reopenStep (s : LeasedSys) : ReopenCall → Option (ReopenCall × LeasedSys)
  | .reset => some (.openUp, { s with idle := .empty })
  | .openUp => some (.returned, { s with word := count s.word })
  | .returned => none

def next (s : LeasedSys) : Label → Option LeasedSys
  | .lease => some { s with leases := s.leases ++ [.load] }
  | .leaseStep k spurious => do
    let c ← s.leases[k]?
    let (c, s) ← s.leaseStep spurious c
    some { s with leases := s.leases.set k c }
  | .drain =>
    if s.drain = none ∨ s.drain = some .returned then some { s with drain := some .close }
    else none
  | .drainStep => s.drain.bind s.drainStep
  | .cancel => if s.drain = none then none else some { s with drain := none }
  | .reopen => some { s with reopens := s.reopens ++ [.reset] }
  | .reopenStep k => do
    let c ← s.reopens[k]?
    let (c, s) ← s.reopenStep c
    some { s with reopens := s.reopens.set k c }

/-- How many leases are live. -/
def live (s : LeasedSys) : ℕ := s.leases.count .live

/-- The drain's task is to run again: what it waits for was signalled and its waker called, or
the drop that took the last lease away is about to do both. -/
def WakePending (s : LeasedSys) : Prop :=
  s.idle = .signaled ∧ s.woken = true ∨ LeaseCall.signal ∈ s.leases

/-- Fewer than `2 ^ 31` leases are live after the step. -/
def Bounded (s : LeasedSys) (l : Label) : Prop := ∀ t ∈ next s l, t.live < closedBit

instance (s : LeasedSys) (l : Label) : Decidable (s.Bounded l) :=
  inferInstanceAs (Decidable (∀ t ∈ next s l, t.live < closedBit))

/-- No reopening clears the top bit. -/
def KeepsClosed (s : LeasedSys) (l : Label) : Prop :=
  ∀ k, l = .reopenStep k → s.reopens[k]? ≠ some .openUp

/-- No reopening resets `idle` while the drain waits on it. -/
def Calm (s : LeasedSys) (l : Label) : Prop :=
  ∀ k, l = .reopenStep k → s.reopens[k]? = some .reset →
    s.drain ≠ some .poll ∧ s.drain ≠ some .parked

/-- No `lease` comes out with a lease. -/
def Refuses (s : LeasedSys) (l : Label) : Prop :=
  ∀ k spurious t, l = .leaseStep k spurious → s.leases[k]? ≠ some .live →
    next s l = some t → t.leases[k]? ≠ some .live

/-! ## What a step can do -/

/-- The steps of the system, label by label. -/
inductive Step (s : LeasedSys) : Label → LeasedSys → Prop
  | lease : Step s .lease { s with leases := s.leases ++ [.load] }
  | leaseStep {k : ℕ} {spurious : Bool} {c c' : LeaseCall} {u : LeasedSys}
      (hcall : s.leases[k]? = some c) (hstep : s.leaseStep spurious c = some (c', u)) :
      Step s (.leaseStep k spurious) { u with leases := s.leases.set k c' }
  | drain : Step s .drain { s with drain := some .close }
  | drainStep {c : DrainCall} {t : LeasedSys} (hcall : s.drain = some c)
      (hstep : s.drainStep c = some t) : Step s .drainStep t
  | cancel : Step s .cancel { s with drain := none }
  | reopen : Step s .reopen { s with reopens := s.reopens ++ [.reset] }
  | reopenStep {k : ℕ} {c c' : ReopenCall} {u : LeasedSys}
      (hcall : s.reopens[k]? = some c) (hstep : s.reopenStep c = some (c', u)) :
      Step s (.reopenStep k) { u with reopens := s.reopens.set k c' }

variable {s t u : LeasedSys} {l : Label} {c c' : LeaseCall} {spurious : Bool} {k : ℕ}
  {labels : List Label}

/-- The calls on a value are only moved by `next` itself. -/
theorem leases_leaseStep (h : s.leaseStep spurious c = some (c', u)) : u.leases = s.leases := by
  cases c with
  | load | live | signal =>
      cases h
      rfl
  | exchange cur =>
      simp only [leaseStep] at h
      split at h <;> (cases h; rfl)
  | refused | dropped => cases h

theorem reopens_reopenStep {d d' : ReopenCall} (h : s.reopenStep d = some (d', u)) :
    u.reopens = s.reopens := by
  cases d with
  | reset | openUp =>
      cases h
      rfl
  | returned => cases h

/-- **Inversion of a step.** -/
theorem next_cases (h : next s l = some t) : Step s l t := by
  cases l with
  | lease =>
      cases h
      exact .lease
  | leaseStep k spurious =>
      obtain ⟨c, hcall, h⟩ := Option.bind_eq_some_iff.mp h
      obtain ⟨⟨c', u⟩, hstep, h⟩ := Option.bind_eq_some_iff.mp h
      cases h
      simp only [leases_leaseStep hstep]
      exact .leaseStep hcall hstep
  | drain =>
      simp only [next] at h
      split at h
      · cases h
        exact .drain
      · cases h
  | drainStep =>
      obtain ⟨c, hcall, hstep⟩ := Option.bind_eq_some_iff.mp h
      exact .drainStep hcall hstep
  | cancel =>
      simp only [next] at h
      split at h
      · cases h
      · cases h
        exact .cancel
  | reopen =>
      cases h
      exact .reopen
  | reopenStep k =>
      obtain ⟨c, hcall, h⟩ := Option.bind_eq_some_iff.mp h
      obtain ⟨⟨c', u⟩, hstep, h⟩ := Option.bind_eq_some_iff.mp h
      cases h
      simp only [reopens_reopenStep hstep]
      exact .reopenStep hcall hstep

theorem live_set (c' : LeaseCall) (hcall : s.leases[k]? = some c) :
    (s.leases.set k c').count .live + (c == .live).toNat = s.live + (c' == .live).toNat :=
  countP_set_add (· == LeaseCall.live) c' hcall

theorem live_set_of_ne (hcall : s.leases[k]? = some c) (hc : c ≠ .live) (hc' : c' ≠ .live) :
    (s.leases.set k c').count .live = s.live := by
  have hset := live_set c' hcall
  rwa [beq_eq_false_iff_ne.mpr hc, beq_eq_false_iff_ne.mpr hc'] at hset

theorem live_set_live (hcall : s.leases[k]? = some c) (hc : c ≠ .live) :
    (s.leases.set k .live).count .live = s.live + 1 := by
  have hset := live_set .live hcall
  rwa [beq_eq_false_iff_ne.mpr hc] at hset

theorem live_set_drop (hcall : s.leases[k]? = some .live) (hc' : c' ≠ .live) :
    (s.leases.set k c').count .live + 1 = s.live := by
  have hset := live_set c' hcall
  rwa [beq_eq_false_iff_ne.mpr hc'] at hset

theorem live_pos (hcall : s.leases[k]? = some .live) : 0 < s.live :=
  List.count_pos_iff.mpr (List.mem_of_getElem? hcall)

/-- What an access of a lease did to the word: nothing, and no lease came or went; it took a
lease of an open value; or it gave one back. -/
theorem leaseStep_cases (h : s.leaseStep spurious c = some (c', u)) :
    (u.word = s.word ∧ c ≠ .live ∧ c' ≠ .live) ∨
    (c = .exchange s.word ∧ c' = .live ∧ u.word = s.word + 1) ∨
    (c = .live ∧ c' ≠ .live ∧ (count s.word = 1 → c' = .signal) ∧ u.word = pred s.word) := by
  cases c with
  | load =>
      cases h
      refine .inl ⟨rfl, nofun, ?_⟩
      split <;> nofun
  | exchange cur =>
      simp only [leaseStep] at h
      split at h
      · next heq =>
          cases h
          exact .inr (.inl ⟨by rw [heq.1], rfl, by rw [heq.1]⟩)
      · cases h
        refine .inl ⟨rfl, nofun, ?_⟩
        split <;> nofun
  | live =>
      cases h
      refine .inr (.inr ⟨rfl, ?_, fun hone => if_pos hone, rfl⟩)
      split <;> nofun
  | signal =>
      cases h
      exact .inl ⟨rfl, nofun, nofun⟩
  | refused | dropped => cases h

/-- A compare-exchange is only ever made on what was read open. -/
theorem leaseStep_exchange (h : s.leaseStep spurious c = some (c', u)) {cur : ℕ}
    (hc : c' = .exchange cur) : isClosed cur = false := by
  have of_read : (if isClosed s.word then LeaseCall.refused else .exchange s.word) =
      .exchange cur → isClosed cur = false := by
    split
    · nofun
    · next hopen =>
        rintro heq
        cases heq
        simpa using hopen
  cases c with
  | load =>
      cases h
      exact of_read hc
  | exchange cur' =>
      simp only [leaseStep] at h
      split at h
      · cases h
        cases hc
      · cases h
        exact of_read hc
  | live =>
      cases h
      split at hc <;> cases hc
  | signal =>
      cases h
      cases hc
  | refused | dropped => cases h

/-! ## The count -/

/-- The low bits count the live leases. -/
structure Counted (s : LeasedSys) : Prop where
  word_lt : s.word < 2 * closedBit
  count : count s.word = s.live
  exchange : ∀ c ∈ s.leases, ∀ cur, c = .exchange cur → isClosed cur = false

theorem counted_next (hs : Counted s) (hbound : s.Bounded l) (hnext : next s l = some t) :
    Counted t := by
  have hlt := hbound t hnext
  cases next_cases hnext with
  | lease =>
      refine ⟨hs.word_lt, ?_, fun c hc cur heq => ?_⟩
      · simpa [live] using hs.count
      · rcases List.mem_append.mp hc with hc | hc
        · exact hs.exchange c hc cur heq
        · cases (List.mem_singleton.mp hc).symm.trans heq
  | @leaseStep k spurious c c' u hcall hstep =>
      have hexchange := forall_mem_set (k := k) hs.exchange
        fun cur heq => leaseStep_exchange hstep heq
      rcases leaseStep_cases hstep with ⟨hword, hc, hc'⟩ | ⟨rfl, rfl, hword⟩ |
        ⟨rfl, hc', -, hword⟩
      · refine ⟨by rw [hword]; exact hs.word_lt, ?_, hexchange⟩
        show Leased.count u.word = (s.leases.set k c').count .live
        rw [hword, hs.count, live_set_of_ne hcall hc hc']
      · have hopen := hs.exchange _ (List.mem_of_getElem? hcall) _ rfl
        have hsucc := live_set_live hcall nofun
        have hlt' : (s.leases.set k .live).count .live < closedBit := hlt
        have hword' : s.word < closedBit := by simpa [isClosed] using hopen
        refine ⟨by rw [hword]; omega, ?_, hexchange⟩
        show Leased.count u.word = (s.leases.set k .live).count .live
        rw [hword, count_succ hopen (by rw [hs.count]; omega), hs.count, hsucc]
      · have hpos := live_pos hcall
        have hdrop := live_set_drop hcall hc'
        have hcount : 0 < Leased.count s.word := by
          rw [hs.count]
          exact hpos
        refine ⟨?_, ?_, hexchange⟩
        · show u.word < 2 * closedBit
          have hw := hs.word_lt
          rw [hword, pred_eq hs.word_lt hcount]
          omega
        · show Leased.count u.word = (s.leases.set k c').count .live
          rw [hword, count_pred hs.word_lt hcount, hs.count]
          exact (Nat.eq_sub_of_add_eq hdrop).symm
  | drain | cancel | reopen => exact ⟨hs.word_lt, hs.count, hs.exchange⟩
  | @drainStep c _ hcall hstep =>
      cases c with
      | close =>
          cases hstep
          exact ⟨close_lt hs.word_lt, (count_close _).trans hs.count, hs.exchange⟩
      | check =>
          cases hstep
          exact ⟨hs.word_lt, hs.count, hs.exchange⟩
      | poll | parked =>
          cases hstep
          unfold pollIdle
          split <;> exact ⟨hs.word_lt, hs.count, hs.exchange⟩
      | returned => cases hstep
  | @reopenStep k c c' u hcall hstep =>
      cases c with
      | reset =>
          cases hstep
          exact ⟨hs.word_lt, hs.count, hs.exchange⟩
      | openUp =>
          cases hstep
          have hsmall := count_lt s.word
          refine ⟨?_, (count_count _).trans hs.count, hs.exchange⟩
          show Leased.count s.word < _
          omega
      | returned => cases hstep

/-! ## A closed value -/

/-- A closed value stays closed until a reopening clears the bit, and takes no lease. -/
theorem closed_next (hs : Counted s) (hclosed : isClosed s.word = true)
    (hkeeps : s.KeepsClosed l) (hnext : next s l = some t) :
    isClosed t.word = true ∧ s.Refuses l := by
  cases next_cases hnext with
  | lease | drain | cancel | reopen => exact ⟨hclosed, nofun⟩
  | @leaseStep k spurious c c' u hcall hstep =>
      have hnew : (s.leases.set k c')[k]? = some c' :=
        List.getElem?_set_self (List.getElem?_eq_some_iff.mp hcall).1
      have refuses (hc' : c = .live ∨ c' ≠ .live) : s.Refuses (.leaseStep k spurious) := by
        rintro k' spurious' v heq hnot hv
        cases heq
        cases hnext.symm.trans hv
        rcases hc' with rfl | hc'
        · exact absurd hcall hnot
        · intro hlive
          exact hc' (Option.some.inj (hnew.symm.trans hlive))
      rcases leaseStep_cases hstep with ⟨hword, -, hc'⟩ | ⟨rfl, -, -⟩ | ⟨rfl, -, -, hword⟩
      · exact ⟨by rw [hword]; exact hclosed, refuses (.inr hc')⟩
      · have hopen := hs.exchange _ (List.mem_of_getElem? hcall) _ rfl
        rw [hclosed] at hopen
        cases hopen
      · refine ⟨?_, refuses (.inl rfl)⟩
        have hcount : 0 < Leased.count s.word := by
          rw [hs.count]
          exact live_pos hcall
        rw [hword, isClosed_pred hs.word_lt hcount, hclosed]
  | @drainStep c _ hcall hstep =>
      refine ⟨?_, nofun⟩
      cases c with
      | close =>
          cases hstep
          exact isClosed_close _
      | check =>
          cases hstep
          exact hclosed
      | poll | parked =>
          cases hstep
          unfold pollIdle
          split <;> exact hclosed
      | returned => cases hstep
  | @reopenStep k c c' u hcall hstep =>
      refine ⟨?_, nofun⟩
      cases c with
      | reset =>
          cases hstep
          exact hclosed
      | openUp => exact absurd hcall (hkeeps k rfl)
      | returned => cases hstep

/-! ## The waiting drain -/

/-- A drain that is about to poll finds the last drop's signal or its dropper still at work;
a parked one is registered as long as it has not been woken. -/
structure Awake (s : LeasedSys) : Prop where
  poll : s.drain = some .poll → s.live = 0 → s.idle = .signaled ∨ LeaseCall.signal ∈ s.leases
  parked : s.drain = some .parked → s.idle = .signaled ∧ s.woken = true ∨
    s.idle = .waiting ∧ (s.live = 0 → LeaseCall.signal ∈ s.leases)

theorem awake_of_not_waiting (hpoll : s.drain ≠ some .poll) (hparked : s.drain ≠ some .parked) :
    Awake s :=
  ⟨fun h => absurd h hpoll, fun h => absurd h hparked⟩

theorem Awake.wakePending (hs : Awake s) (hparked : s.drain = some .parked) (hnone : s.live = 0) :
    s.WakePending :=
  (hs.parked hparked).imp id fun h => h.2 hnone

/-- The account of the drain after an access that left `idle` alone. -/
theorem Awake.of_same_idle (hs : Awake s) (hdrain : t.drain = s.drain) (hidle : t.idle = s.idle)
    (hwoken : t.woken = s.woken)
    (hsignal : t.live = 0 → LeaseCall.signal ∈ t.leases ∨
      s.live = 0 ∧ (LeaseCall.signal ∈ s.leases → LeaseCall.signal ∈ t.leases)) : Awake t := by
  constructor
  · intro hpoll hnone
    rcases hsignal hnone with hmem | ⟨hold, hkeep⟩
    · exact .inr hmem
    · rw [hidle]
      exact (hs.poll (hdrain ▸ hpoll) hold).imp id hkeep
  · intro hparked
    rw [hidle, hwoken]
    rcases hs.parked (hdrain ▸ hparked) with hwoke | ⟨hwait, hmem⟩
    · exact .inl hwoke
    · refine .inr ⟨hwait, fun hnone => ?_⟩
      rcases hsignal hnone with hnew | ⟨hold, hkeep⟩
      · exact hnew
      · exact hkeep (hmem hold)

theorem awake_next (hcount : Counted s) (hs : Awake s) (hcalm : s.Calm l)
    (hnext : next s l = some t) : Awake t := by
  cases next_cases hnext with
  | lease =>
      refine hs.of_same_idle rfl rfl rfl fun hnone => ?_
      refine .inr ⟨?_, List.mem_append_left _⟩
      simpa [live] using hnone
  | @leaseStep k spurious c c' u hcall hstep =>
      by_cases hsig : c = .signal
      · subst hsig
        cases hstep
        refine ⟨fun _ _ => .inl rfl, fun hparked => .inl ⟨rfl, ?_⟩⟩
        rcases hs.parked hparked with ⟨-, hwoken⟩ | ⟨hwait, -⟩
        · simp [signalIdle, hwoken]
        · simp [signalIdle, hwait]
      · have hother : u.idle = s.idle ∧ u.woken = s.woken ∧ u.drain = s.drain := by
          cases c with
          | load | live =>
              cases hstep
              exact ⟨rfl, rfl, rfl⟩
          | exchange cur =>
              simp only [leaseStep] at hstep
              split at hstep <;> (cases hstep; exact ⟨rfl, rfl, rfl⟩)
          | signal => exact absurd rfl hsig
          | refused | dropped => cases hstep
        refine hs.of_same_idle hother.2.2 hother.1 hother.2.1 fun hnone => ?_
        have hkeep : LeaseCall.signal ∈ s.leases → LeaseCall.signal ∈ s.leases.set k c' :=
          fun hmem => mem_set_of_ne hcall hmem fun heq => hsig heq.symm
        rcases leaseStep_cases hstep with ⟨-, hc, hc'⟩ | ⟨rfl, rfl, -⟩ | ⟨rfl, hc', hlast, -⟩
        · exact .inr ⟨(live_set_of_ne hcall hc hc').symm.trans hnone, hkeep⟩
        · have hpos := live_set_live hcall nofun
          exact absurd (hpos.symm.trans hnone) (Nat.succ_ne_zero _)
        · have hdrop := live_set_drop hcall hc'
          have hzero : (s.leases.set k c').count .live = 0 := hnone
          have hone : Leased.count s.word = 1 := by
            rw [hcount.count]
            omega
          have hlt := (List.getElem?_eq_some_iff.mp hcall).1
          rw [hlast hone]
          exact .inl (List.mem_set hlt _)
  | drain | cancel => exact awake_of_not_waiting nofun nofun
  | @drainStep c _ hcall hstep =>
      have polled : ∀ v, s.drain = some .poll ∨ s.drain = some .parked → s.pollIdle = v →
          Awake v := by
        rintro v hwait rfl
        unfold pollIdle
        split
        · exact awake_of_not_waiting nofun nofun
        all_goals
          next hidle =>
            refine ⟨nofun, fun _ => .inr ⟨rfl, fun hnone => ?_⟩⟩
            rcases hwait with hpoll | hparked
            · rcases hs.poll hpoll hnone with hsig | hmem
              · rw [hidle] at hsig
                cases hsig
              · exact hmem
            · rcases hs.parked hparked with ⟨hsig, -⟩ | ⟨-, hmem⟩
              · rw [hidle] at hsig
                cases hsig
              · exact hmem hnone
      cases c with
      | close =>
          cases hstep
          exact awake_of_not_waiting nofun nofun
      | check =>
          cases hstep
          split
          · exact awake_of_not_waiting nofun nofun
          · next hne =>
              refine ⟨fun _ hnone => ?_, nofun⟩
              exact absurd (hcount.count.trans hnone) hne
      | poll =>
          cases hstep
          exact polled _ (.inl hcall) rfl
      | parked =>
          cases hstep
          exact polled _ (.inr hcall) rfl
      | returned => cases hstep
  | reopen => exact ⟨hs.poll, hs.parked⟩
  | @reopenStep k c c' u hcall hstep =>
      cases c with
      | reset =>
          cases hstep
          have hcalm := hcalm k rfl hcall
          exact awake_of_not_waiting hcalm.1 hcalm.2
      | openUp =>
          cases hstep
          exact ⟨hs.poll, hs.parked⟩
      | returned => cases hstep

/-! ## Runs -/

theorem counted_run (hbound : Along next Bounded s labels) (hs : Counted s)
    (hrun : exec next s labels = some t) : Counted t :=
  exec_invariant_along (fun _ _ _ hs hl hnext => counted_next hs hl hnext) hs hbound hrun

theorem counted_new : Counted {} := ⟨by decide, by decide, nofun⟩

/-- A drain that returns has seen the count at zero. -/
theorem drained (hs : Counted s) (hnext : next s .drainStep = some t)
    (hreturned : t.drain = some .returned) : t.live = 0 := by
  cases next_cases hnext with
  | @drainStep c _ hcall hstep =>
      cases c with
      | close =>
          cases hstep
          cases hreturned
      | check =>
          cases hstep
          by_cases hzero : Leased.count s.word = 0
          · exact hs.count.symm.trans hzero
          · simp only [if_neg hzero] at hreturned
            cases hreturned
      | poll | parked =>
          cases hstep
          unfold pollIdle at hreturned
          split at hreturned <;> cases hreturned
      | returned => cases hstep

/-- **Draining a leased value.** In every run with fewer than `2 ^ 31` live leases the low
bits of the word count them; from the closing store of a drain until a reopening clears the
top bit no `lease` comes out with one; a drain returns with none live; and unless a
reopening has reset `idle` under a waiting drain, a drain parked with none live has a wake
pending. -/
theorem leased_drain (hrun : exec next {} labels = some s)
    (hbound : Along next Bounded {} labels) :
    Leased.count s.word = s.live ∧
    (∀ front back u v, labels = front ++ .drainStep :: back → exec next {} front = some u →
      u.drain = some .close → next u .drainStep = some v → Along next KeepsClosed v back →
      Along next Refuses v back) ∧
    (∀ t, next s .drainStep = some t → t.drain = some .returned → t.live = 0) ∧
    (Along next Calm {} labels → s.drain = some .parked → s.live = 0 → s.WakePending) := by
  have hcounted := counted_run hbound counted_new hrun
  refine ⟨hcounted.count, ?_, fun t hnext => drained hcounted hnext, fun hcalm => ?_⟩
  · rintro front back u v rfl hfront hclose hstep hkeeps
    obtain ⟨hbefore, hafter⟩ := along_append.mp hbound
    obtain ⟨hone, hback⟩ := hafter u hfront
    have hu := counted_run hbefore counted_new hfront
    have hv := counted_next hu hone hstep
    have hclosed : isClosed v.word = true := by
      have hnext : u.drainStep .close = some v := by
        rw [← hstep]
        simp [next, hclose]
      cases hnext
      exact isClosed_close _
    have hall := ((hback v hstep).and hkeeps).and_invariant
      (I := fun w => Counted w ∧ isClosed w.word = true)
      (fun w l x hw hl hx =>
        ⟨counted_next hw.1 hl.1 hx, (closed_next hw.1 hw.2 hl.2 hx).1⟩) ⟨hv, hclosed⟩
    apply hall.mono
    rintro w l ⟨⟨hcount, hclosed⟩, -, hkeeps⟩ k spurious x rfl hnot hx
    exact (closed_next hcount hclosed hkeeps hx).2 k spurious x rfl hnot hx
  · have hboth := exec_invariant_along (I := fun w => Counted w ∧ Awake w)
      (fun w l x hw hl hx => ⟨counted_next hw.1 hl.1 hx, awake_next hw.1 hw.2 hl.2 hx⟩)
      ⟨counted_new, awake_of_not_waiting nofun nofun⟩ (hbound.and hcalm) hrun
    exact hboth.2.wakePending

/-- A lease is taken, a drain closes the value and parks, the lease is dropped. -/
def lastDrop : List Label :=
  .lease :: List.replicate 2 (.leaseStep 0 false) ++ .drain :: List.replicate 3 .drainStep ++
    List.replicate 2 (.leaseStep 0 false)

def lastDropRun : Option LeasedSys := exec next {} lastDrop

theorem leased_drain_lastDrop : (lastDropRun.get rfl).WakePending := by
  have hrun : exec next {} lastDrop = some (lastDropRun.get rfl) := (Option.some_get _).symm
  have hcalm : Along next Calm {} lastDrop := by
    apply (along_of_forall (P := fun l => ∀ k, l ≠ .reopenStep k) ?_ _).mono
    · exact fun _ _ h k heq => absurd heq (h k)
    · simp [lastDrop]
  exact (leased_drain hrun (by decide)).2.2.2 hcalm rfl rfl

/-- A reopening under a waiting drain takes the wake of the last drop away. -/
theorem reopen_strands_drain : ¬ ∀ (labels : List Label) (s : LeasedSys),
    exec next {} labels = some s → Along next Bounded {} labels → s.drain = some .parked →
      s.live = 0 → s.WakePending := by
  intro h
  have hwake := h (lastDrop ++ [.reopen, .reopenStep 0]) _ (Option.some_get rfl).symm (by decide)
    rfl rfl
  rcases hwake with ⟨hidle, -⟩ | hmem
  · cases hidle
  · exact absurd hmem (by decide)

end LeasedSys

end EmbassySupervisor
