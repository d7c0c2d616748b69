/-
# The veto gate

Contributors assert and release their bits of one word, each with a single access, and infer
from the word as it was whether they flipped the gate. Whoever did bumps the sequence and
signals after that, while others go on. A call returns in a step of its own.

`updates` keeps the accesses to the word and `returns` the calls that returned, newest first;
neither is read by the code. `veto_gate` orders everything by the accesses: the gate is what
they left, the calls that return `true` alternate in their order, the token has counted them
once nobody is on the way, and a parked waiter whose condition has come true is woken. Where
calls on one slot do not overlap, the accesses of a slot and the returns from it come in one
order; where they do, they need not (`overlap_released`).
-/

import EmbassySupervisor.Lib.Interleaving
import EmbassySupervisor.Lib.LabelledRun
import EmbassySupervisor.Node.Graph
import Mathlib.Data.Fin.Basic

namespace EmbassySupervisor

open LabelledRun Interleaving

variable {n : ℕ}

inductive VetoOp
  | assertSlot
  | releaseSlot
  deriving DecidableEq, Repr

namespace VetoOp

/-- The bit of a slot; a slot out of range panics before it comes to that. -/
def mask (slot : Fin n) : BitVec 32 := 1#32 <<< slot.val

/-- The word after a call's access. -/
def apply (bits : BitVec 32) (slot : Fin n) : VetoOp → BitVec 32
  | .assertSlot => bits ||| mask slot
  | .releaseSlot => bits &&& ~~~(mask slot)

/-- What the call infers from the word before. -/
def flips (before : BitVec 32) (slot : Fin n) : VetoOp → Bool
  | .assertSlot => before == 0#32
  | .releaseSlot => before == mask slot

end VetoOp

namespace VetoOp

/-! ## The word -/

variable (hn : n ≤ 32) {bits : BitVec 32} {slot : Fin n}

include hn

theorem getLsbD_mask (slot : Fin n) (i : ℕ) :
    (mask slot).getLsbD i = decide (i = slot.val) := by
  have hslot := slot.isLt
  rw [mask, ← BitVec.twoPow_eq, BitVec.getLsbD_twoPow]
  by_cases hi : i = slot.val
  · subst hi
    simp
    omega
  · simp [hi, Ne.symm hi]

theorem mask_ne_zero (slot : Fin n) : mask slot ≠ 0#32 := by
  intro hzero
  have hbit := getLsbD_mask hn slot slot.val
  rw [hzero] at hbit
  simp at hbit

/-- A release leaves nothing of a word that had the slot's bit alone, or nothing. -/
theorem release_eq_zero_iff :
    bits &&& ~~~(mask slot) = 0#32 ↔ bits = 0#32 ∨ bits = mask slot := by
  constructor
  · intro hzero
    have hothers : ∀ i, i < 32 → i ≠ slot.val → bits.getLsbD i = false := by
      intro i hi hne
      have hbit := congrArg (·.getLsbD i) hzero
      simpa only [BitVec.getLsbD_and, BitVec.getLsbD_not, getLsbD_mask hn, hi, hne,
        decide_true, decide_false, Bool.not_false, Bool.and_true, BitVec.getLsbD_zero] using hbit
    cases hheld : bits.getLsbD slot.val with
    | false =>
        apply Or.inl
        apply BitVec.eq_of_getLsbD_eq
        intro i hi
        rw [BitVec.getLsbD_zero]
        by_cases hi' : i = slot.val
        · rw [hi', hheld]
        · exact hothers i hi hi'
    | true =>
        apply Or.inr
        apply BitVec.eq_of_getLsbD_eq
        intro i hi
        rw [getLsbD_mask hn]
        by_cases hi' : i = slot.val
        · simp [hi', hheld]
        · simp [hi', hothers i hi hi']
  · rintro (rfl | rfl)
    · simp
    · exact BitVec.and_not_self _

/-- **The calls infer right**: an access flips the gate when the word was as the call checks. -/
theorem apply_bne_zero (op : VetoOp) :
    (op.apply bits slot != 0#32) = ((bits != 0#32) ^^ op.flips bits slot) := by
  have hmask := mask_ne_zero hn slot
  cases op with
  | assertSlot =>
      have hset : bits ||| mask slot ≠ 0#32 := by
        intro hzero
        exact hmask (BitVec.or_eq_zero_iff.mp hzero).2
      by_cases hbits : bits = 0#32
      · simp [apply, flips, hbits, hmask]
      · rw [apply, flips, bne_iff_ne.mpr hset, bne_iff_ne.mpr hbits, beq_eq_false_iff_ne.mpr hbits]
        rfl
  | releaseSlot =>
      have hleft : bits &&& ~~~(mask slot) = 0#32 ↔ _ := release_eq_zero_iff hn
      by_cases hbits : bits = 0#32
      · simp [apply, flips, hbits, Ne.symm hmask]
      · by_cases halone : bits = mask slot
        · simp [apply, flips, halone, hmask]
        · have hset : bits &&& ~~~(mask slot) ≠ 0#32 := fun hzero =>
            (hleft.mp hzero).elim hbits halone
          rw [apply, flips, bne_iff_ne.mpr hset, bne_iff_ne.mpr hbits,
            beq_eq_false_iff_ne.mpr halone]
          rfl

/-- An assert flips a released gate, a release an asserted one. -/
theorem of_flips {op : VetoOp} (h : op.flips bits slot = true) :
    (bits != 0#32) = (op == .releaseSlot) := by
  cases op with
  | assertSlot =>
      have hbits : bits = 0#32 := by simpa [flips] using h
      simp [hbits]
  | releaseSlot =>
      have hbits : bits = mask slot := by simpa [flips] using h
      simp [hbits, mask_ne_zero hn slot]

/-- An access sets or clears the slot's bit and no other. -/
theorem getLsbD_apply (op : VetoOp) {i : ℕ} (hi : i < 32) :
    (op.apply bits slot).getLsbD i =
      if i = slot.val then op == .assertSlot else bits.getLsbD i := by
  cases op with
  | assertSlot =>
      rw [apply, BitVec.getLsbD_or, getLsbD_mask hn]
      by_cases h : i = slot.val <;> simp [h]
  | releaseSlot =>
      rw [apply, BitVec.getLsbD_and, BitVec.getLsbD_not, getLsbD_mask hn]
      by_cases h : i = slot.val <;> simp [h, hi]

end VetoOp

/-- A call at its next access, about to return, or returned. -/
inductive VetoPhase
  | update
  | bump
  | signal
  | finish (flipped : Bool)
  | returned (flipped : Bool)
  deriving DecidableEq, Repr

structure VetoCall (n : ℕ) where
  op : VetoOp
  slot : Fin n
  phase : VetoPhase := .update
  deriving DecidableEq, Repr

namespace VetoPhase

def ended : VetoPhase → Bool
  | .returned _ => true
  | .update | .bump | .signal | .finish _ => false

/-- The call has accessed the word. -/
def updated : VetoPhase → Bool
  | .update => false
  | .bump | .signal | .finish _ | .returned _ => true

/-- It found that it flipped the gate. -/
def flipped : VetoPhase → Bool
  | .update => false
  | .bump | .signal => true
  | .finish b | .returned b => b

/-- It has not signalled the flip yet. -/
def signals : VetoPhase → Bool
  | .bump | .signal => true
  | .update | .finish _ | .returned _ => false

/-- It has not bumped the sequence for the flip yet. -/
def bumps : VetoPhase → Bool
  | .bump => true
  | .update | .signal | .finish _ | .returned _ => false

theorem not_ended_of_signals {p : VetoPhase} (h : p.signals = true) : p.ended = false := by
  cases p with
  | bump | signal => rfl
  | update | finish | returned => cases h

end VetoPhase

/-- An access to the word: by which call, and whether it flipped the gate. -/
structure VetoUpdate (n : ℕ) where
  call : ℕ
  op : VetoOp
  slot : Fin n
  flipped : Bool
  deriving DecidableEq, Repr

/-- The state of the `Signal`: nothing there, a waker registered, or signalled. -/
inductive SignalState
  | empty
  | waiting
  | signaled
  deriving DecidableEq, Repr

/-- `wait_asserted`, which wants the gate asserted, or `wait_released`, which does not: about
to check the gate, about to poll the signal, or parked in it. -/
inductive VetoWaiter
  | idle
  | checking (want : Bool)
  | polling (want : Bool)
  | parked (want woken : Bool)
  deriving DecidableEq, Repr

namespace VetoWaiter

/-- The condition the waiter found unmet. -/
def wants : VetoWaiter → Option Bool
  | .polling want | .parked want _ => some want
  | .idle | .checking _ => none

def wake : VetoWaiter → VetoWaiter
  | .parked want _ => .parked want true
  | w => w

@[simp]
theorem wants_wake (w : VetoWaiter) : w.wake.wants = w.wants := by
  cases w <;> rfl

end VetoWaiter

structure VetoSys (n : ℕ) where
  bits : BitVec 32 := 0#32
  seq : BitVec 32 := 0#32
  changed : SignalState := .empty
  waiter : VetoWaiter := .idle
  calls : List (VetoCall n) := []
  updates : List (VetoUpdate n) := []
  returns : List (VetoCall n) := []

namespace VetoSys

/-- A contributor calls, or a call makes its next access; the actuator begins to wait, checks
the gate, is polled, or drops its wait. -/
inductive Label (n : ℕ)
  | call (op : VetoOp) (slot : Fin n)
  | step (i : ℕ)
  | wait (want : Bool)
  | check
  | poll
  | drop

/-- `is_asserted`. -/
def asserted (s : VetoSys n) : Bool := s.bits != 0#32

/-- The next access of a call. -/
def stepCall (s : VetoSys n) (i : ℕ) (c : VetoCall n) : Option (VetoSys n) :=
  match c.phase with
  | .update =>
    let flipped := c.op.flips s.bits c.slot
    some { s with
      bits := c.op.apply s.bits c.slot
      calls := s.calls.set i { c with phase := if flipped then .bump else .finish false }
      updates := ⟨i, c.op, c.slot, flipped⟩ :: s.updates }
  | .bump =>
    some { s with seq := s.seq + 1#32, calls := s.calls.set i { c with phase := .signal } }
  | .signal =>
    some { s with
      changed := .signaled
      waiter := if s.changed = .waiting then s.waiter.wake else s.waiter
      calls := s.calls.set i { c with phase := .finish true } }
  | .finish flipped =>
    some { s with
      calls := s.calls.set i { c with phase := .returned flipped }
      returns := { c with phase := .returned flipped } :: s.returns }
  | .returned _ => none

/-- A poll of the signal. -/
def pollSignal (s : VetoSys n) (want : Bool) : VetoSys n :=
  if s.changed = .signaled then { s with changed := .empty, waiter := .checking want }
  else { s with changed := .waiting, waiter := .parked want false }

def next (s : VetoSys n) : Label n → Option (VetoSys n)
  | .call op slot => some { s with calls := s.calls ++ [{ op, slot }] }
  | .step i => do s.stepCall i (← s.calls[i]?)
  | .wait want => if s.waiter = .idle then some { s with waiter := .checking want } else none
  | .check =>
    match s.waiter with
    | .checking want =>
      some { s with waiter := if s.asserted = want then .idle else .polling want }
    | .idle | .polling _ | .parked _ _ => none
  | .poll =>
    match s.waiter with
    | .polling want | .parked want _ => some (s.pollSignal want)
    | .idle | .checking _ => none
  | .drop => some { s with waiter := .idle }

/-- No call is in progress. -/
def Quiescent (s : VetoSys n) : Prop := ∀ c ∈ s.calls, c.phase.ended = true

/-- A call comes when no other on its slot is in progress. -/
def Sequential (s : VetoSys n) : Label n → Prop
  | .call _ slot => ∀ c ∈ s.calls, c.slot = slot → c.phase.ended = true
  | .step _ | .wait _ | .check | .poll | .drop => True

instance (s : VetoSys n) : (l : Label n) → Decidable (s.Sequential l)
  | .call _ slot =>
    inferInstanceAs (Decidable (∀ c ∈ s.calls, c.slot = slot → c.phase.ended = true))
  | .step _ | .wait _ | .check | .poll | .drop => inferInstanceAs (Decidable True)

/-- The calls that flipped the gate, oldest first. -/
def flips (s : VetoSys n) : List VetoOp :=
  ((s.updates.filter (·.flipped)).map (·.op)).reverse

/-- What the last access to a slot's bit was for. -/
def lastUpdate (s : VetoSys n) (slot : Fin n) : Option VetoOp :=
  (s.updates.find? (·.slot == slot)).map (·.op)

/-- What the last call on a slot to return was for. -/
def lastReturn (s : VetoSys n) (slot : Fin n) : Option VetoOp :=
  (s.returns.find? (·.slot == slot)).map (·.op)

/-! ## What a step can do -/

variable {s t : VetoSys n} {l : Label n}

/-- The steps of the gate, access by access. -/
inductive Step (s : VetoSys n) : Label n → VetoSys n → Prop
  | call {op : VetoOp} {slot : Fin n} :
      Step s (.call op slot) { s with calls := s.calls ++ [{ op, slot }] }
  | update {i : ℕ} {c : VetoCall n} (hcall : s.calls[i]? = some c) (hphase : c.phase = .update) :
      Step s (.step i) { s with
        bits := c.op.apply s.bits c.slot
        calls := s.calls.set i
          { c with phase := if c.op.flips s.bits c.slot then .bump else .finish false }
        updates := ⟨i, c.op, c.slot, c.op.flips s.bits c.slot⟩ :: s.updates }
  | bump {i : ℕ} {c : VetoCall n} (hcall : s.calls[i]? = some c) (hphase : c.phase = .bump) :
      Step s (.step i) { s with
        seq := s.seq + 1#32
        calls := s.calls.set i { c with phase := .signal } }
  | signal {i : ℕ} {c : VetoCall n} (hcall : s.calls[i]? = some c) (hphase : c.phase = .signal) :
      Step s (.step i) { s with
        changed := .signaled
        waiter := if s.changed = .waiting then s.waiter.wake else s.waiter
        calls := s.calls.set i { c with phase := .finish true } }
  | finish {i : ℕ} {c : VetoCall n} {b : Bool} (hcall : s.calls[i]? = some c)
      (hphase : c.phase = .finish b) :
      Step s (.step i) { s with
        calls := s.calls.set i { c with phase := .returned b }
        returns := { c with phase := .returned b } :: s.returns }
  | wait {want : Bool} : Step s (.wait want) { s with waiter := .checking want }
  | met {want : Bool} (hwaiter : s.waiter = .checking want) (hmet : s.asserted = want) :
      Step s .check { s with waiter := .idle }
  | unmet {want : Bool} (hwaiter : s.waiter = .checking want) (hunmet : s.asserted ≠ want) :
      Step s .check { s with waiter := .polling want }
  | poll {want : Bool} (hwants : s.waiter.wants = some want) : Step s .poll (s.pollSignal want)
  | drop : Step s .drop { s with waiter := .idle }

/-- **Inversion of a step.** -/
theorem next_cases (h : s.next l = some t) : Step s l t := by
  cases l with
  | call op slot =>
      cases h
      exact .call
  | step i =>
      obtain ⟨c, hcall, h⟩ := Option.bind_eq_some_iff.mp h
      unfold stepCall at h
      cases hphase : c.phase with
      | update =>
          rw [hphase] at h
          cases h
          exact .update hcall hphase
      | bump =>
          rw [hphase] at h
          cases h
          exact .bump hcall hphase
      | signal =>
          rw [hphase] at h
          cases h
          exact .signal hcall hphase
      | finish b =>
          rw [hphase] at h
          cases h
          exact .finish hcall hphase
      | returned b =>
          rw [hphase] at h
          cases h
  | wait want =>
      simp only [next] at h
      split at h
      · cases h
        exact .wait
      · cases h
  | check =>
      cases hwaiter : s.waiter with
      | checking want =>
          simp only [next, hwaiter] at h
          split at h
          · next hmet =>
              cases h
              exact .met hwaiter hmet
          · next hunmet =>
              cases h
              exact .unmet hwaiter hunmet
      | idle | polling | parked => simp [next, hwaiter] at h
  | poll =>
      cases hwaiter : s.waiter with
      | polling want | parked want =>
          simp only [next, hwaiter] at h
          cases h
          exact .poll (by rw [hwaiter]; rfl)
      | idle | checking => simp [next, hwaiter] at h
  | drop =>
      cases h
      exact .drop

/-! ## The word is what the accesses left -/

/-- Every bit of the word is what the last access to it was for. -/
structure Held (s : VetoSys n) : Prop where
  slots : ∀ slot : Fin n, s.bits.getLsbD slot = (s.lastUpdate slot == some .assertSlot)
  rest : ∀ i, n ≤ i → s.bits.getLsbD i = false

theorem lastUpdate_cons {u : VetoUpdate n} (hupdates : t.updates = u :: s.updates)
    (slot : Fin n) :
    t.lastUpdate slot = if u.slot = slot then some u.op else s.lastUpdate slot := by
  unfold lastUpdate
  rw [hupdates, List.find?_cons]
  by_cases hslot : u.slot = slot
  · simp [hslot]
  · rw [beq_eq_false_iff_ne.mpr hslot, if_neg hslot]

theorem lastReturn_cons {c : VetoCall n} (hreturns : t.returns = c :: s.returns)
    (slot : Fin n) :
    t.lastReturn slot = if c.slot = slot then some c.op else s.lastReturn slot := by
  unfold lastReturn
  rw [hreturns, List.find?_cons]
  by_cases hslot : c.slot = slot
  · simp [hslot]
  · rw [beq_eq_false_iff_ne.mpr hslot, if_neg hslot]

theorem Held.next (hn : n ≤ 32) (hs : Held s) (h : s.next l = some t) : Held t := by
  have keep : ∀ {t : VetoSys n}, t.bits = s.bits → t.updates = s.updates → Held t := by
    intro t hbits hupdates
    refine ⟨fun slot => ?_, fun i hi => ?_⟩
    · rw [hbits, lastUpdate, hupdates]
      exact hs.slots slot
    · rw [hbits]
      exact hs.rest i hi
  cases next_cases h with
  | @update i c hcall hphase =>
      refine ⟨fun slot => ?_, fun i hi => ?_⟩
      · rw [lastUpdate_cons (s := s) rfl, VetoOp.getLsbD_apply hn _ (slot.isLt.trans_le hn)]
        by_cases hslot : c.slot = slot
        · simp [hslot]
        · have hval : slot.val ≠ c.slot.val := fun heq => hslot (Fin.ext heq.symm)
          simp only [if_neg hslot, if_neg hval]
          exact hs.slots slot
      · by_cases hi' : i < 32
        · have hval : i ≠ c.slot.val := by
            have := c.slot.isLt
            omega
          rw [VetoOp.getLsbD_apply hn _ hi', if_neg hval]
          exact hs.rest i hi
        · exact BitVec.getLsbD_of_ge _ _ (by omega)
  | poll =>
      unfold pollSignal
      split <;> exact keep rfl rfl
  | call | bump | signal | finish | wait | met | unmet | drop => exact keep rfl rfl

theorem Held.asserted_iff (hs : Held s) :
    s.asserted = true ↔ ∃ slot, s.lastUpdate slot = some .assertSlot := by
  rw [asserted, bne_iff_ne]
  constructor
  · intro hbits
    by_contra! hnone
    apply hbits
    apply BitVec.eq_of_getLsbD_eq
    intro i _
    by_cases hi : i < n
    · have hbit := hs.slots ⟨i, hi⟩
      rw [beq_eq_false_iff_ne.mpr (hnone ⟨i, hi⟩)] at hbit
      simpa using hbit
    · simpa using hs.rest i (Nat.le_of_not_lt hi)
  · rintro ⟨slot, hslot⟩ hzero
    have hbit := hs.slots slot
    rw [hslot, hzero] at hbit
    simp at hbit

/-! ## The flips alternate -/

/-- So many calls in turn, an assert first. -/
def alternation (m : ℕ) : List VetoOp :=
  (List.range m).map fun k => if k % 2 = 0 then .assertSlot else .releaseSlot

/-- The flips so far alternate, and leave the gate as they say. -/
structure Alternates (s : VetoSys n) : Prop where
  flips : s.flips = alternation s.flips.length
  asserted : s.asserted = decide (s.flips.length % 2 = 1)

theorem flips_cons {u : VetoUpdate n} (hupdates : t.updates = u :: s.updates) :
    t.flips = if u.flipped then s.flips ++ [u.op] else s.flips := by
  unfold VetoSys.flips
  rw [hupdates, List.filter_cons]
  cases u.flipped <;> simp

theorem Alternates.update (hn : n ≤ 32) (hs : Alternates s) {u : VetoUpdate n}
    (hbits : t.bits = u.op.apply s.bits u.slot) (hflipped : u.flipped = u.op.flips s.bits u.slot)
    (hupdates : t.updates = u :: s.updates) : Alternates t := by
  have hnext := flips_cons hupdates
  have hword : t.asserted = (s.asserted ^^ u.op.flips s.bits u.slot) := by
    rw [VetoSys.asserted, hbits]
    exact VetoOp.apply_bne_zero hn u.op
  rw [hflipped] at hnext
  cases hflips : u.op.flips s.bits u.slot with
  | false =>
      rw [hflips, if_neg Bool.false_ne_true] at hnext
      rw [hflips, Bool.xor_false] at hword
      exact ⟨hnext ▸ hs.flips, by rw [hword, hnext]; exact hs.asserted⟩
  | true =>
      rw [hflips, if_pos rfl] at hnext
      rw [hflips, Bool.xor_true] at hword
      have hop : decide (s.flips.length % 2 = 1) = (u.op == .releaseSlot) := by
        rw [← hs.asserted]
        exact VetoOp.of_flips hn hflips
      constructor
      · have hturn : u.op = if s.flips.length % 2 = 0 then .assertSlot else .releaseSlot := by
          by_cases heven : s.flips.length % 2 = 0
          · cases hu : u.op with
            | assertSlot => rw [if_pos heven]
            | releaseSlot => simp [hu, heven] at hop
          · cases hu : u.op with
            | assertSlot =>
                rw [hu] at hop
                have : s.flips.length % 2 ≠ 1 := of_decide_eq_false hop
                omega
            | releaseSlot => rw [if_neg heven]
        rw [hnext, List.length_append, List.length_singleton, alternation, List.range_succ,
          List.map_append, List.map_singleton, ← hturn]
        exact congrArg (· ++ [u.op]) hs.flips
      · rw [hword, hs.asserted, hnext, List.length_append, List.length_singleton]
        by_cases hodd : s.flips.length % 2 = 1
        · rw [decide_eq_true hodd, decide_eq_false (by omega)]
          rfl
        · rw [decide_eq_false hodd, decide_eq_true (by omega)]
          rfl

theorem Alternates.next (hn : n ≤ 32) (hs : Alternates s) (h : s.next l = some t) :
    Alternates t := by
  have keep : ∀ {t : VetoSys n}, t.bits = s.bits → t.updates = s.updates → Alternates t := by
    intro t hbits hupdates
    have hflips : t.flips = s.flips := by
      unfold VetoSys.flips
      rw [hupdates]
    refine ⟨hflips ▸ hs.flips, ?_⟩
    rw [VetoSys.asserted, hbits, hflips]
    exact hs.asserted
  cases next_cases h with
  | update => exact hs.update hn rfl rfl rfl
  | poll =>
      unfold pollSignal
      split <;> exact keep rfl rfl
  | call | bump | signal | finish | wait | met | unmet | drop => exact keep rfl rfl

/-! ## The calls and their accesses -/

/-- Every call that has accessed the word did so once, and has inferred what it returns. -/
structure Recorded (s : VetoSys n) : Prop where
  mem : ∀ i c, s.calls[i]? = some c → c.phase.updated = true →
    ⟨i, c.op, c.slot, c.phase.flipped⟩ ∈ s.updates
  updated : ∀ u ∈ s.updates, ∃ c, s.calls[u.call]? = some c ∧ c.phase.updated = true
  once : (s.updates.map (·.call)).Nodup

/-- A call that moves on after its access keeps what it has inferred. -/
theorem Recorded.move (hs : Recorded s) {i : ℕ} {c : VetoCall n} {p : VetoPhase}
    (hcall : s.calls[i]? = some c) (hbefore : c.phase.updated = true) (hafter : p.updated = true)
    (hflipped : p.flipped = c.phase.flipped)
    (hcalls : t.calls = s.calls.set i { c with phase := p }) (hupdates : t.updates = s.updates) :
    Recorded t := by
  have hlt := (List.getElem?_eq_some_iff.mp hcall).1
  refine ⟨fun j d hd hdone => ?_, fun u hu => ?_, hupdates ▸ hs.once⟩
  · rw [hcalls] at hd
    rw [hupdates]
    rcases getElem?_set_cases hd with ⟨rfl, rfl⟩ | hd
    · simp only [hflipped]
      exact hs.mem j c hcall hbefore
    · exact hs.mem j d hd hdone
  · rw [hupdates] at hu
    obtain ⟨d, hd, hdone⟩ := hs.updated u hu
    rw [hcalls]
    by_cases hij : i = u.call
    · subst hij
      exact ⟨_, List.getElem?_set_self hlt, hafter⟩
    · exact ⟨d, by rwa [List.getElem?_set_ne hij], hdone⟩

theorem Recorded.next (hs : Recorded s) (h : s.next l = some t) : Recorded t := by
  cases next_cases h with
  | @call op slot =>
      refine ⟨fun i c hc hdone => ?_, fun u hu => ?_, hs.once⟩
      · rcases getElem?_append_singleton hc with rfl | hold
        · cases hdone
        · exact hs.mem i c hold hdone
      · obtain ⟨c, hc, hdone⟩ := hs.updated u hu
        have hlt := (List.getElem?_eq_some_iff.mp hc).1
        exact ⟨c, by rwa [List.getElem?_append_left hlt], hdone⟩
  | @update i c hcall hphase =>
      have hlt := (List.getElem?_eq_some_iff.mp hcall).1
      refine ⟨fun j d hd hdone => ?_, fun u hu => ?_, ?_⟩
      · rcases getElem?_set_cases hd with ⟨rfl, rfl⟩ | hd
        · apply List.mem_cons.mpr
          apply Or.inl
          cases c.op.flips s.bits c.slot <;> rfl
        · exact List.mem_cons_of_mem _ (hs.mem j d hd hdone)
      · rcases List.mem_cons.mp hu with rfl | hu
        · refine ⟨_, List.getElem?_set_self hlt, ?_⟩
          cases c.op.flips s.bits c.slot <;> rfl
        · obtain ⟨d, hd, hdone⟩ := hs.updated u hu
          by_cases hij : i = u.call
          · subst hij
            rw [hcall] at hd
            cases hd
            simp [hphase, VetoPhase.updated] at hdone
          · exact ⟨d, by rwa [List.getElem?_set_ne hij], hdone⟩
      · rw [List.map_cons, List.nodup_cons]
        refine ⟨fun hmem => ?_, hs.once⟩
        obtain ⟨u, hu, hcall'⟩ := List.mem_map.mp hmem
        obtain ⟨d, hd, hdone⟩ := hs.updated u hu
        rw [hcall', hcall] at hd
        cases hd
        simp [hphase, VetoPhase.updated] at hdone
  | bump hcall hphase =>
      exact hs.move (p := .signal) hcall (by rw [hphase]; rfl) rfl (by rw [hphase]; rfl) rfl rfl
  | signal hcall hphase =>
      exact hs.move (p := .finish true) hcall (by rw [hphase]; rfl) rfl (by rw [hphase]; rfl) rfl
        rfl
  | @finish i c b hcall hphase =>
      exact hs.move (p := .returned b) hcall (by rw [hphase]; rfl) rfl (by rw [hphase]; rfl) rfl
        rfl
  | poll =>
      unfold pollSignal
      split <;> exact ⟨hs.mem, hs.updated, hs.once⟩
  | wait | met | unmet | drop => exact ⟨hs.mem, hs.updated, hs.once⟩

/-! ## The token -/

/-- The calls that have not bumped the sequence for their flip. -/
def bumping (s : VetoSys n) : ℕ := s.calls.countP (·.phase.bumps)

/-- The token is behind the flips by the calls that have yet to bump it. -/
def Counted (s : VetoSys n) : Prop :=
  (s.seq.toNat + s.bumping) % 2 ^ 32 = s.flips.length % 2 ^ 32

theorem Counted.of {a b : ℕ} (hs : Counted s) (hseq : t.seq.toNat = (s.seq.toNat + a) % 2 ^ 32)
    (hflips : t.flips.length = s.flips.length + b) (hbumping : t.bumping + a = s.bumping + b) :
    Counted t := by
  unfold Counted at hs ⊢
  omega

theorem Counted.next (hs : Counted s) (h : s.next l = some t) : Counted t := by
  have hseq : s.seq.toNat = (s.seq.toNat + 0) % 2 ^ 32 :=
    (Nat.mod_eq_of_lt s.seq.isLt).symm
  have hmove : ∀ {i : ℕ} {c : VetoCall n} {p : VetoPhase} (p' : VetoPhase),
      s.calls[i]? = some c → c.phase = p →
      (s.calls.set i { c with phase := p' }).countP (·.phase.bumps) + p.bumps.toNat =
        s.bumping + p'.bumps.toNat := by
    rintro i c p p' hcall rfl
    exact countP_set_add (fun c : VetoCall n => c.phase.bumps) { c with phase := p' } hcall
  cases next_cases h with
  | call => exact hs.of (a := 0) (b := 0) hseq rfl (by simp [bumping, VetoPhase.bumps])
  | @update i c hcall hphase =>
      have hflips := flips_cons (s := s) (u := ⟨i, c.op, c.slot, c.op.flips s.bits c.slot⟩)
        (t := { s with updates := ⟨i, c.op, c.slot, c.op.flips s.bits c.slot⟩ :: s.updates }) rfl
      cases hflipped : c.op.flips s.bits c.slot with
      | false =>
          rw [hflipped] at hflips
          refine hs.of (a := 0) (b := 0) hseq (congrArg List.length hflips) ?_
          exact hmove (.finish false) hcall hphase
      | true =>
          rw [hflipped] at hflips
          refine hs.of (a := 0) (b := 1) hseq ?_ ?_
          · exact (congrArg List.length hflips).trans (by simp)
          · exact hmove .bump hcall hphase
  | @bump i c hcall hphase =>
      refine hs.of (a := 1) (b := 0) (BitVec.toNat_add ..) rfl ?_
      exact hmove .signal hcall hphase
  | @signal i c hcall hphase =>
      refine hs.of (a := 0) (b := 0) hseq rfl ?_
      exact hmove (.finish true) hcall hphase
  | @finish i c b hcall hphase =>
      refine hs.of (a := 0) (b := 0) hseq rfl ?_
      exact hmove (.returned b) hcall hphase
  | poll =>
      unfold pollSignal
      split <;> exact hs
  | wait | met | unmet | drop => exact hs

/-! ## The waiter -/

/-- A waiter whose condition has come true finds the signal, or somebody is about to signal; a
parked one is woken as soon as the signal is there. -/
structure Attended (s : VetoSys n) : Prop where
  signaled : ∀ want, s.waiter.wants = some want → s.asserted = want →
    s.changed = .signaled ∨ ∃ c ∈ s.calls, c.phase.signals = true
  woken : ∀ want woken, s.waiter = .parked want woken → s.changed = .signaled → woken = true
  registered : ∀ want woken, s.waiter = .parked want woken → s.changed ≠ .empty

theorem Attended.next (hn : n ≤ 32) (hs : Attended s) (h : s.next l = some t) : Attended t := by
  cases next_cases h with
  | call =>
      refine ⟨fun want hwants hmet => ?_, hs.woken, hs.registered⟩
      rcases hs.signaled want hwants hmet with hsignaled | ⟨c, hc, hsignals⟩
      · exact Or.inl hsignaled
      · exact Or.inr ⟨c, List.mem_append_left _ hc, hsignals⟩
  | @update i c hcall hphase =>
      have hlt := (List.getElem?_eq_some_iff.mp hcall).1
      refine ⟨fun want hwants hmet => ?_, hs.woken, hs.registered⟩
      cases hflips : c.op.flips s.bits c.slot with
      | true => exact Or.inr ⟨_, List.mem_set hlt _, rfl⟩
      | false =>
          have hsame : (c.op.apply s.bits c.slot != 0#32) = s.asserted := by
            rw [VetoOp.apply_bne_zero hn, hflips, Bool.xor_false]
            rfl
          rcases hs.signaled want hwants (hsame.symm.trans hmet) with
            hsignaled | ⟨d, hd, hsignals⟩
          · exact Or.inl hsignaled
          · refine Or.inr ⟨d, mem_set_of_ne hcall hd ?_, hsignals⟩
            rintro rfl
            rw [hphase] at hsignals
            cases hsignals
  | @bump i c hcall hphase =>
      have hlt := (List.getElem?_eq_some_iff.mp hcall).1
      exact ⟨fun _ _ _ => Or.inr ⟨_, List.mem_set hlt _, rfl⟩, hs.woken, hs.registered⟩
  | @signal i c hcall hphase =>
      refine ⟨fun _ _ _ => Or.inl rfl, fun want woken hparked _ => ?_, fun _ _ _ => nofun⟩
      simp only at hparked
      split at hparked
      · cases hwaiter : s.waiter with
        | parked want' woken' =>
            rw [hwaiter] at hparked
            cases hparked
            rfl
        | idle | checking | polling =>
            rw [hwaiter] at hparked
            cases hparked
      · next hnot =>
          apply hs.woken want woken hparked
          cases hchanged : s.changed with
          | signaled => rfl
          | waiting => exact absurd hchanged hnot
          | empty => exact absurd hchanged (hs.registered want woken hparked)
  | @finish i c b hcall hphase =>
      refine ⟨fun want hwants hmet => ?_, hs.woken, hs.registered⟩
      rcases hs.signaled want hwants hmet with hsignaled | ⟨d, hd, hsignals⟩
      · exact Or.inl hsignaled
      · refine Or.inr ⟨d, mem_set_of_ne hcall hd ?_, hsignals⟩
        rintro rfl
        rw [hphase] at hsignals
        cases hsignals
  | unmet hwaiter hunmet =>
      refine ⟨fun want hwants hmet => ?_, nofun, nofun⟩
      cases hwants
      exact absurd hmet hunmet
  | @poll want hwants =>
      unfold pollSignal
      split
      · exact ⟨nofun, nofun, nofun⟩
      · next hnot =>
          refine ⟨fun want' hwants' hmet => ?_, nofun, nofun⟩
          cases hwants'
          exact Or.inr ((hs.signaled want hwants hmet).resolve_left hnot)
  | wait | met | drop => exact ⟨nofun, nofun, nofun⟩

/-! ## Calls that do not overlap on their slots -/

/-- A slot has one call in progress at most, and once it has none, what its last call to
return was for is what the last access to its bit was for. -/
structure InTurn (s : VetoSys n) : Prop where
  alone : ∀ (i j : ℕ) (c d : VetoCall n), s.calls[i]? = some c → s.calls[j]? = some d →
    c.slot = d.slot → c.phase.ended = false → d.phase.ended = false → i = j
  latest : ∀ (i : ℕ) (c : VetoCall n), s.calls[i]? = some c → c.phase.updated = true →
    c.phase.ended = false → s.lastUpdate c.slot = some c.op
  settled : ∀ slot, (∀ c ∈ s.calls, c.slot = slot → c.phase.updated = true →
    c.phase.ended = true) → s.lastUpdate slot = s.lastReturn slot

/-- A call that moves on while it is in progress leaves the others in turn. -/
theorem InTurn.alone_move (hs : InTurn s) {i : ℕ} {c : VetoCall n} {p : VetoPhase}
    (hcall : s.calls[i]? = some c) (hbefore : c.phase.ended = false) :
    ∀ (j k : ℕ) (d e : VetoCall n), (s.calls.set i { c with phase := p })[j]? = some d →
      (s.calls.set i { c with phase := p })[k]? = some e → d.slot = e.slot →
      d.phase.ended = false → e.phase.ended = false → j = k := by
  -- the call stands for its earlier self
  have hearlier : ∀ (j : ℕ) (d : VetoCall n), (s.calls.set i { c with phase := p })[j]? = some d →
      d.phase.ended = false → ∃ d', s.calls[j]? = some d' ∧ d'.slot = d.slot ∧
        d'.phase.ended = false := by
    intro j d hd hopen
    rcases getElem?_set_cases hd with ⟨rfl, rfl⟩ | hd
    · exact ⟨c, hcall, rfl, hbefore⟩
    · exact ⟨d, hd, rfl, hopen⟩
  intro j k d e hd he hslot hopen hopen'
  obtain ⟨d', hd', hdslot, hdopen⟩ := hearlier j d hd hopen
  obtain ⟨e', he', heslot, heopen⟩ := hearlier k e he hopen'
  exact hs.alone j k d' e' hd' he' (hdslot.trans (hslot.trans heslot.symm)) hdopen heopen

/-- A call on its way to its return keeps the order. -/
theorem InTurn.move (hs : InTurn s) {i : ℕ} {c : VetoCall n} {p : VetoPhase}
    (hcall : s.calls[i]? = some c) (hbefore : c.phase.ended = false)
    (hupdated : c.phase.updated = true) (hafter : p.ended = false) (hafter' : p.updated = true)
    (hcalls : t.calls = s.calls.set i { c with phase := p }) (hupdates : t.updates = s.updates)
    (hreturns : t.returns = s.returns) : InTurn t := by
  have hlt := (List.getElem?_eq_some_iff.mp hcall).1
  have hlast : ∀ slot, t.lastUpdate slot = s.lastUpdate slot := fun slot => by
    rw [lastUpdate, hupdates, lastUpdate]
  refine ⟨?_, fun j d hd hdone hopen => ?_, fun slot hall => ?_⟩
  · rw [hcalls]
    exact hs.alone_move hcall hbefore
  · rw [hlast]
    rw [hcalls] at hd
    rcases getElem?_set_cases hd with ⟨rfl, rfl⟩ | hd
    · exact hs.latest j c hcall hupdated hbefore
    · exact hs.latest j d hd hdone hopen
  · rw [hlast, lastReturn, hreturns]
    apply hs.settled
    intro d hd hslot hdone
    rw [hcalls] at hall
    by_cases hdc : d = c
    · subst hdc
      have hended := hall _ (List.mem_set hlt _) hslot hafter'
      rw [hafter] at hended
      cases hended
    · exact hall d (mem_set_of_ne hcall hd hdc) hslot hdone

theorem InTurn.next (hs : InTurn s) (hsequential : s.Sequential l) (h : s.next l = some t) :
    InTurn t := by
  cases next_cases h with
  | @call op slot =>
      have hnew : ∀ j d, (s.calls ++ [({ op, slot } : VetoCall n)])[j]? = some d →
          s.calls[j]? = some d ∨ j = s.calls.length ∧ d = { op, slot } := by
        intro j d hd
        rw [List.getElem?_append] at hd
        split at hd
        · exact Or.inl hd
        · next hge =>
            apply Or.inr
            have hj := (List.getElem?_eq_some_iff.mp hd).1
            rw [List.length_singleton] at hj
            exact ⟨by omega, List.mem_singleton.mp (List.mem_of_getElem? hd)⟩
      refine ⟨fun j k d e hd he hslot hopen hopen' => ?_, fun j d hd hdone hopen => ?_,
        fun slot' hall => ?_⟩
      · rcases hnew j d hd with hd | ⟨rfl, rfl⟩ <;> rcases hnew k e he with he | ⟨rfl, rfl⟩
        · exact hs.alone j k d e hd he hslot hopen hopen'
        · have hended := hsequential d (List.mem_of_getElem? hd) hslot
          rw [hopen] at hended
          cases hended
        · have hended := hsequential e (List.mem_of_getElem? he) hslot.symm
          rw [hopen'] at hended
          cases hended
        · rfl
      · rcases hnew j d hd with hd | ⟨-, rfl⟩
        · exact hs.latest j d hd hdone hopen
        · cases hdone
      · exact hs.settled slot' fun c hc => hall c (List.mem_append_left _ hc)
  | @update i c hcall hphase =>
      have hlt := (List.getElem?_eq_some_iff.mp hcall).1
      have hopen : c.phase.ended = false := by rw [hphase]; rfl
      have hlast := lastUpdate_cons (s := s) (u := ⟨i, c.op, c.slot, c.op.flips s.bits c.slot⟩)
        (t := { s with updates := ⟨i, c.op, c.slot, c.op.flips s.bits c.slot⟩ :: s.updates }) rfl
      refine ⟨hs.alone_move hcall hopen, fun j d hd hdone hopen' => ?_, fun slot hall => ?_⟩
      · refine (hlast d.slot).trans ?_
        by_cases hij : i = j
        · subst hij
          rw [List.getElem?_set_self hlt] at hd
          cases hd
          exact if_pos rfl
        · rw [List.getElem?_set_ne hij] at hd
          have hslot : c.slot ≠ d.slot := fun heq =>
            hij (hs.alone i j c d hcall hd heq hopen hopen')
          exact (if_neg hslot).trans (hs.latest j d hd hdone hopen')
      · have hslot : c.slot ≠ slot := by
          intro heq
          have hended := hall _ (List.mem_set hlt _) heq
            (by cases c.op.flips s.bits c.slot <;> rfl)
          cases hflips : c.op.flips s.bits c.slot <;> simp [hflips, VetoPhase.ended] at hended
        refine (hlast slot).trans ((if_neg hslot).trans ?_)
        apply hs.settled
        intro d hd hdslot hdone
        apply hall d (mem_set_of_ne hcall hd _) hdslot hdone
        rintro rfl
        exact hslot hdslot
  | @bump i c hcall hphase =>
      exact hs.move (p := .signal) hcall (by rw [hphase]; rfl) (by rw [hphase]; rfl) rfl rfl rfl
        rfl rfl
  | @signal i c hcall hphase =>
      exact hs.move (p := .finish true) hcall (by rw [hphase]; rfl) (by rw [hphase]; rfl) rfl rfl
        rfl rfl rfl
  | @finish i c b hcall hphase =>
      have hlt := (List.getElem?_eq_some_iff.mp hcall).1
      have hopen : c.phase.ended = false := by rw [hphase]; rfl
      have hlast := lastReturn_cons (s := s) (c := { c with phase := .returned b })
        (t := { s with returns := { c with phase := .returned b } :: s.returns }) rfl
      refine ⟨hs.alone_move hcall hopen, fun j d hd hdone hopen' => ?_, fun slot hall => ?_⟩
      · rcases getElem?_set_cases hd with ⟨-, rfl⟩ | hd
        · cases hopen'
        · exact hs.latest j d hd hdone hopen'
      · refine Eq.trans ?_ (hlast slot).symm
        by_cases hslot : c.slot = slot
        · rw [if_pos hslot, ← hslot]
          exact hs.latest i c hcall (by rw [hphase]; rfl) hopen
        · rw [if_neg hslot]
          apply hs.settled
          intro d hd hdslot hdone
          apply hall d (mem_set_of_ne hcall hd _) hdslot hdone
          rintro rfl
          exact hslot hdslot
  | poll =>
      unfold pollSignal
      split <;> exact ⟨hs.alone, hs.latest, hs.settled⟩
  | wait | met | unmet | drop => exact ⟨hs.alone, hs.latest, hs.settled⟩

/-! ## The law of the gate -/

/-- **The veto gate.** The gate reads asserted exactly when some slot's last access was an
assert's. The calls that return `true` are the ones whose access flipped it, they alternate in
the order of the accesses, an assert first, and the token has counted them when no call is in
progress. When calls on one slot do not overlap, and none is in progress, the gate reads
asserted exactly when some slot's last call to return was an assert. A waiter parked on a
condition that is true is then woken. -/
theorem veto_gate (hn : n ≤ 32) {labels : List (Label n)}
    (hrun : exec next ({} : VetoSys n) labels = some t) :
    (t.asserted = true ↔ ∃ slot, t.lastUpdate slot = some .assertSlot) ∧
    t.flips = alternation t.flips.length ∧
    (∀ i c b, t.calls[i]? = some c → c.phase = .returned b →
      ⟨i, c.op, c.slot, b⟩ ∈ t.updates) ∧
    (t.updates.map (·.call)).Nodup ∧
    (t.Quiescent → t.seq = BitVec.ofNat 32 t.flips.length) ∧
    (Along next Sequential ({} : VetoSys n) labels → t.Quiescent →
      (t.asserted = true ↔ ∃ slot, t.lastReturn slot = some .assertSlot)) ∧
    (t.Quiescent → ∀ want woken, t.waiter = .parked want woken → t.asserted = want →
      woken = true) := by
  have hheld : Held t := by
    have hstart : Held ({} : VetoSys n) := ⟨fun _ => by simp [lastUpdate], fun _ _ => by simp⟩
    exact exec_invariant (fun _ _ _ hs h => hs.next hn h) hstart hrun
  have halternates : Alternates t := by
    have hstart : Alternates ({} : VetoSys n) := ⟨rfl, rfl⟩
    exact exec_invariant (fun _ _ _ hs h => hs.next hn h) hstart hrun
  have hrecorded : Recorded t := by
    have hstart : Recorded ({} : VetoSys n) := ⟨by simp, by simp, List.nodup_nil⟩
    exact exec_invariant (fun _ _ _ hs h => hs.next h) hstart hrun
  have hcounted : Counted t := by
    have hstart : Counted ({} : VetoSys n) := rfl
    exact exec_invariant (fun _ _ _ hs h => hs.next h) hstart hrun
  have hattended : Attended t := by
    have hstart : Attended ({} : VetoSys n) := ⟨nofun, nofun, nofun⟩
    exact exec_invariant (fun _ _ _ hs h => hs.next hn h) hstart hrun
  refine ⟨hheld.asserted_iff, halternates.flips, fun i c b hc hreturned => ?_, hrecorded.once,
    fun hquiet => ?_, fun hsequential hquiet => ?_, fun hquiet want woken hparked hmet => ?_⟩
  · have hmem := hrecorded.mem i c hc (by rw [hreturned]; rfl)
    rwa [hreturned] at hmem
  · have hnone : t.bumping = 0 := by
      apply List.countP_eq_zero.mpr
      intro c hc hbumps
      have hended := hquiet c hc
      cases hphase : c.phase with
      | bump => simp [hphase, VetoPhase.ended] at hended
      | update | signal | finish | returned => simp [hphase, VetoPhase.bumps] at hbumps
    apply BitVec.eq_of_toNat_eq
    rw [Counted, hnone, Nat.add_zero] at hcounted
    rw [BitVec.toNat_ofNat, ← hcounted, Nat.mod_eq_of_lt t.seq.isLt]
  · have hinTurn : InTurn t := by
      have hstart : InTurn ({} : VetoSys n) := ⟨by simp, by simp, fun _ _ => rfl⟩
      exact exec_invariant_along (fun _ _ _ hs hl h => hs.next hl h) hstart hsequential hrun
    rw [hheld.asserted_iff]
    simp only [hinTurn.settled _ fun c hc _ _ => hquiet c hc]
  · apply hattended.woken want woken hparked
    apply (hattended.signaled want (by rw [hparked]; rfl) hmet).resolve_right
    rintro ⟨c, hc, hsignals⟩
    have hended := hquiet c hc
    rw [VetoPhase.not_ended_of_signals hsignals] at hended
    cases hended

/-- Two contributors that hold the gate in turn, with the actuator parked in between. -/
def handOver : List (Label 2) :=
  [.wait true, .check, .poll, .call .assertSlot 0, .call .assertSlot 1, .step 0, .step 1, .step 0,
    .step 0, .step 1, .step 0]

def handOverRun : Option (VetoSys 2) := exec next {} handOver

theorem veto_gate_handOver :
    (∃ slot, (handOverRun.get rfl).lastReturn slot = some .assertSlot) ∧
      (handOverRun.get rfl).seq = 1#32 ∧
      ∀ woken, (handOverRun.get rfl).waiter = .parked true woken → woken = true := by
  have hrun : exec next {} handOver = some (handOverRun.get rfl) := (Option.some_get _).symm
  have hquiet : (handOverRun.get rfl).Quiescent := by
    unfold Quiescent
    decide
  have hsequential : Along next Sequential ({} : VetoSys 2) handOver := by decide +kernel
  obtain ⟨-, -, -, -, htoken, hlast, hwoken⟩ := veto_gate (by decide) hrun
  exact ⟨(hlast hsequential hquiet).mp rfl, htoken hquiet, fun woken hparked =>
    hwoken hquiet true woken hparked rfl⟩

/-- An assert and a release of one slot: the release's access is the later one, and it is the
first to return. -/
def overlap : List (Label 1) :=
  [.call .assertSlot 0, .call .releaseSlot 0, .step 0, .step 1, .step 1, .step 1, .step 1,
    .step 0, .step 0, .step 0]

def overlapRun : Option (VetoSys 1) := exec next {} overlap

theorem overlap_released :
    ¬ ∀ (t : VetoSys 1) (labels : List (Label 1)), exec next {} labels = some t →
      t.Quiescent → (t.asserted = true ↔ ∃ slot, t.lastReturn slot = some .assertSlot) := by
  intro h
  have hrun : exec next {} overlap = some (overlapRun.get rfl) := (Option.some_get _).symm
  have hquiet : (overlapRun.get rfl).Quiescent := by
    unfold Quiescent
    decide
  have hasserted := (h _ _ hrun hquiet).mpr ⟨0, rfl⟩
  cases hasserted

end VetoSys

end EmbassySupervisor
