/-
# Retiring a backed producer

`open` admits its reader, which counts it, before it looks whether the producer is serving;
`retire` withdraws the producer's readiness before it looks whether anyone is counted, and
takes it back if someone is. Between any two of these accesses the others act.

The producer is the one writer of the value in the readers' graph, and readiness is its own
to set and clear: an activation does so before it retires, and `retire` does. What the
supervisor does to it comes from outside, as writes of `RUNNING` and as later activations,
each beginning with a reset. `gen` numbers the activations and `asserted` keeps the one that
last set readiness; neither is read by the code. The wait for the producer may end at any
time, by its event or its timer.

`retire_handshake` is the law of the two sides. Its first half counts in 32 bits and so asks
for fewer than `2 ^ 32` readers at once (`openers_wrap`). Its second half is about the
withdrawal that `retire` does not take back: a reader admitted after an earlier one opens in
the same activation (`readmitted_opens`).
-/

import EmbassySupervisor.Lib.Interleaving
import EmbassySupervisor.Lib.LabelledRun
import EmbassySupervisor.Node.Graph

namespace EmbassySupervisor

open LabelledRun Interleaving

/-- An `open` at its next access, the guard it returned, or the drop of one. `running` and
`ready` are the two loads of `serving`, `idle`, `swap` and `request` ask for the producer,
and `wait` ends in the loads `rerunning` and `reready` of `wait_serving`. -/
inductive OpenCall
  | admitReader
  | announce
  | running
  | ready
  | finish
  | holds
  | idle
  | swap
  | request
  | wait
  | rerunning
  | reready
  | forget
  | release
  | farewell
  | gone
  deriving DecidableEq, Repr

/-- The reader is counted: admitted, and not yet taken off again. -/
def OpenCall.counted : OpenCall → Bool
  | .admitReader | .farewell | .gone => false
  | .announce | .running | .ready | .finish | .holds | .idle | .swap | .request | .wait
  | .rerunning | .reready | .forget | .release => true

/-- The reader has seen the producer serving, or its `open` has returned. -/
def OpenCall.served : OpenCall → Bool
  | .finish | .holds => true
  | .admitReader | .announce | .running | .ready | .idle | .swap | .request | .wait | .rerunning
  | .reready | .forget | .release | .farewell | .gone => false

theorem OpenCall.counted_of_served {c : OpenCall} (h : c.served = true) : c.counted = true := by
  cases c with
  | finish | holds => rfl
  | admitReader | announce | running | ready | idle | swap | request | wait | rerunning | reready
  | forget | release | farewell | gone => cases h

/-- A `retire` at its next access. The first five are `unwatched`. -/
inductive RetireCall
  | look
  | await
  | reset
  | cool (deadline : ℕ)
  | confirm
  | clear
  | check
  | restore
  | request
  deriving DecidableEq, Repr

/-- The producer's activation is at work, retires, or has asked to be stopped. -/
inductive Producer
  | body
  | retiring (cooldown : ℕ) (c : RetireCall)
  | retired
  deriving DecidableEq, Repr

/-- The retiring side has withdrawn readiness and not set it again. -/
def Producer.withdrawn : Producer → Bool
  | .retiring _ .check | .retiring _ .restore | .retiring _ .request | .retired => true
  | .body | .retiring _ .look | .retiring _ .await | .retiring _ .reset
  | .retiring _ (.cool _) | .retiring _ .confirm | .retiring _ .clear => false

/-- It has found nobody counted since. -/
def Producer.ending : Producer → Bool
  | .retiring _ .request | .retired => true
  | .body | .retiring _ .look | .retiring _ .await | .retiring _ .reset
  | .retiring _ (.cool _) | .retiring _ .confirm | .retiring _ .clear | .retiring _ .check
  | .retiring _ .restore => false

theorem Producer.withdrawn_of_ending {p : Producer} (h : p.ending = true) :
    p.withdrawn = true := by
  cases p with
  | body => cases h
  | retired => rfl
  | retiring cooldown c =>
      cases c with
      | request => rfl
      | look | await | reset | cool | confirm | clear | check | restore => cases h

/-- The backed value, its producer and its readers in the order they came. -/
structure BackedSys where
  now : ℕ := 0
  running : Bool := false
  ready : Bool := false
  gen : ℕ := 0
  asserted : ℕ := 0
  producer : Producer := .body
  openers : UInt32 := 0
  watch : Bool := false
  requested : Bool := false
  requests : List ControlOp := []
  readers : List OpenCall := []

namespace BackedSys

/-- A reader comes, makes an access or is dropped at an await; time passes; the supervisor
writes `RUNNING` or activates the producer again; the producer sets or clears its readiness,
begins to retire, or carries that on. -/
inductive Label
  | openCall
  | openStep (k : ℕ)
  | cancel (k : ℕ)
  | elapse (d : ℕ)
  | setRunning (running : Bool)
  | activate
  | setReady
  | clearReady
  | retire (cooldown : ℕ)
  | retireStep

def setReady (s : BackedSys) : BackedSys := { s with ready := true, asserted := s.gen }

/-- One access of an `open`, or of the drop of its guard. -/
def openStep (s : BackedSys) : OpenCall → Option (OpenCall × BackedSys)
  | .admitReader =>
    some (if s.openers = 0 then .announce else .running, { s with openers := s.openers + 1 })
  | .announce => some (.running, { s with watch := true })
  | .running => some (if s.running then .ready else .idle, s)
  | .ready => some (if s.ready then .finish else .idle, s)
  | .finish => some (.holds, { s with requested := false })
  | .idle => some (if s.running then .wait else .swap, s)
  | .swap => some (if s.requested then .wait else .request, { s with requested := true })
  | .request => some (.wait, { s with requests := s.requests ++ [.activate] })
  | .wait => some (.rerunning, s)
  | .rerunning => some (if s.running then .reready else .forget, s)
  | .reready => some (if s.ready then .running else .forget, s)
  | .forget => some (.running, { s with requested := false })
  | .holds | .release =>
    some (if s.openers = 1 then .farewell else .gone, { s with openers := s.openers - 1 })
  | .farewell => some (.gone, { s with watch := true })
  | .gone => none

/-- One access of a `retire`. -/
def retireStep (s : BackedSys) (cooldown : ℕ) : RetireCall → Option BackedSys
  | .look =>
    some { s with producer := .retiring cooldown (if s.openers = 0 then .reset else .await) }
  | .await =>
    if s.watch then some { s with watch := false, producer := .retiring cooldown .look }
    else none
  | .reset =>
    some { s with watch := false, producer := .retiring cooldown (.cool (s.now + cooldown)) }
  | .cool deadline =>
    if deadline ≤ s.now then some { s with producer := .retiring cooldown .confirm }
    else if s.watch then some { s with watch := false, producer := .retiring cooldown .look }
    else none
  | .confirm =>
    some { s with producer := .retiring cooldown (if s.openers = 0 then .clear else .look) }
  | .clear => some { s with ready := false, producer := .retiring cooldown .check }
  | .check =>
    some { s with producer := .retiring cooldown (if s.openers = 0 then .request else .restore) }
  | .restore => some { s.setReady with producer := .retiring cooldown .look }
  | .request => some { s with requests := s.requests ++ [.deactivate], producer := .retired }

def next (s : BackedSys) : Label → Option BackedSys
  | .openCall => some { s with readers := s.readers ++ [.admitReader] }
  | .openStep k => do
    let c ← s.readers[k]?
    let (c, s) ← s.openStep c
    some { s with readers := s.readers.set k c }
  | .cancel k =>
    if s.readers[k]? = some .request ∨ s.readers[k]? = some .wait then
      some { s with readers := s.readers.set k .release }
    else none
  | .elapse d => some { s with now := s.now + d }
  | .setRunning running => some { s with running }
  | .activate => some { s with gen := s.gen + 1, ready := false, producer := .body }
  | .setReady => if s.producer = .body then some s.setReady else none
  | .clearReady => if s.producer = .body then some { s with ready := false } else none
  | .retire cooldown =>
    if s.producer = .body then some { s with producer := .retiring cooldown .look } else none
  | .retireStep =>
    match s.producer with
    | .retiring cooldown c => s.retireStep cooldown c
    | .body | .retired => none

/-- How many readers are counted. -/
def count (s : BackedSys) : ℕ := s.readers.countP OpenCall.counted

/-! ## What a step can do -/

variable {s t u v : BackedSys} {l : Label} {c c' : OpenCall} {k : ℕ} {labels : List Label}

/-- What no access of a reader changes. -/
structure Aside (s t : BackedSys) : Prop where
  now : t.now = s.now
  ready : t.ready = s.ready
  gen : t.gen = s.gen
  asserted : t.asserted = s.asserted
  producer : t.producer = s.producer
  readers : t.readers = s.readers

theorem aside_openStep (h : s.openStep c = some (c', t)) : Aside s t := by
  cases c with
  | gone => cases h
  | admitReader | announce | running | ready | finish | holds | idle | swap | request | wait
  | rerunning | reready | forget | release | farewell =>
      cases h
      exact ⟨rfl, rfl, rfl, rfl, rfl, rfl⟩

/-- Only a load of set readiness serves a reader. -/
theorem served_openStep (h : s.openStep c = some (c', t)) (hc' : c'.served = true) :
    c.served = true ∨ c = .ready ∧ s.ready = true := by
  cases c with
  | gone => cases h
  | ready =>
      cases h
      split at hc'
      · next hready => exact .inr ⟨rfl, hready⟩
      · cases hc'
  | finish | holds => exact .inl rfl
  | announce | request | wait | forget | farewell =>
      cases h
      cases hc'
  | admitReader | running | idle | swap | rerunning | reready | release =>
      cases h
      split at hc' <;> cases hc'

/-- The count of the word moves with the readers. -/
theorem openers_openStep (h : s.openStep c = some (c', t)) :
    t.openers + UInt32.ofNat c.counted.toNat = s.openers + UInt32.ofNat c'.counted.toNat := by
  cases c with
  | gone => cases h
  | admitReader =>
      cases h
      by_cases hzero : s.openers = 0 <;> simp [hzero, OpenCall.counted]
  | announce | finish | request | wait | forget | farewell =>
      cases h
      rfl
  | running | ready | idle | swap | rerunning | reready =>
      cases h
      rw [apply_ite OpenCall.counted]
      simp [OpenCall.counted]
  | holds | release =>
      cases h
      by_cases hone : s.openers = 1 <;> simp [hone, OpenCall.counted]

/-- What an access of a `retire` does, case by case. -/
inductive Retires (s : BackedSys) (cooldown : ℕ) : RetireCall → BackedSys → Prop
  | look :
      Retires s cooldown .look
        { s with producer := .retiring cooldown (if s.openers = 0 then .reset else .await) }
  | await (hwatch : s.watch = true) :
      Retires s cooldown .await { s with watch := false, producer := .retiring cooldown .look }
  | reset :
      Retires s cooldown .reset
        { s with watch := false, producer := .retiring cooldown (.cool (s.now + cooldown)) }
  | expire {deadline : ℕ} (hover : deadline ≤ s.now) :
      Retires s cooldown (.cool deadline) { s with producer := .retiring cooldown .confirm }
  | wake {deadline : ℕ} (hwatch : s.watch = true) :
      Retires s cooldown (.cool deadline)
        { s with watch := false, producer := .retiring cooldown .look }
  | confirm :
      Retires s cooldown .confirm
        { s with producer := .retiring cooldown (if s.openers = 0 then .clear else .look) }
  | clear :
      Retires s cooldown .clear { s with ready := false, producer := .retiring cooldown .check }
  | check :
      Retires s cooldown .check
        { s with producer := .retiring cooldown (if s.openers = 0 then .request else .restore) }
  | restore : Retires s cooldown .restore { s.setReady with producer := .retiring cooldown .look }
  | request :
      Retires s cooldown .request
        { s with requests := s.requests ++ [.deactivate], producer := .retired }

theorem retireStep_cases {cooldown : ℕ} {c : RetireCall} (h : s.retireStep cooldown c = some t) :
    Retires s cooldown c t := by
  cases c with
  | look =>
      cases h
      exact .look
  | await =>
      obtain ⟨hwatch, heq⟩ := Option.ite_none_right_eq_some.mp h
      cases heq
      exact .await hwatch
  | reset =>
      cases h
      exact .reset
  | cool deadline =>
      simp only [retireStep] at h
      split at h
      · next hover =>
          cases h
          exact .expire hover
      · obtain ⟨hwatch, heq⟩ := Option.ite_none_right_eq_some.mp h
        cases heq
        exact .wake hwatch
  | confirm =>
      cases h
      exact .confirm
  | clear =>
      cases h
      exact .clear
  | check =>
      cases h
      exact .check
  | restore =>
      cases h
      exact .restore
  | request =>
      cases h
      exact .request

/-- The steps of the system, label by label. -/
inductive Step (s : BackedSys) : Label → BackedSys → Prop
  | openCall : Step s .openCall { s with readers := s.readers ++ [.admitReader] }
  | openStep {k : ℕ} {c c' : OpenCall} {u : BackedSys} (hcall : s.readers[k]? = some c)
      (hstep : s.openStep c = some (c', u)) :
      Step s (.openStep k) { u with readers := s.readers.set k c' }
  | cancel {k : ℕ} {c : OpenCall} (hcall : s.readers[k]? = some c) (hcounted : c.counted = true) :
      Step s (.cancel k) { s with readers := s.readers.set k .release }
  | elapse {d : ℕ} : Step s (.elapse d) { s with now := s.now + d }
  | setRunning {running : Bool} : Step s (.setRunning running) { s with running }
  | activate : Step s .activate { s with gen := s.gen + 1, ready := false, producer := .body }
  | setReady (hbody : s.producer = .body) : Step s .setReady s.setReady
  | clearReady (hbody : s.producer = .body) : Step s .clearReady { s with ready := false }
  | retire {cooldown : ℕ} (hbody : s.producer = .body) :
      Step s (.retire cooldown) { s with producer := .retiring cooldown .look }
  | retireStep {cooldown : ℕ} {c : RetireCall} {t : BackedSys}
      (hretiring : s.producer = .retiring cooldown c)
      (hstep : s.retireStep cooldown c = some t) : Step s .retireStep t

/-- **Inversion of a step.** -/
theorem next_cases (h : next s l = some t) : Step s l t := by
  cases l with
  | openCall =>
      cases h
      exact .openCall
  | openStep k =>
      obtain ⟨c, hcall, h⟩ := Option.bind_eq_some_iff.mp h
      obtain ⟨⟨c', u⟩, hstep, h⟩ := Option.bind_eq_some_iff.mp h
      cases h
      simp only [(aside_openStep hstep).readers]
      exact .openStep hcall hstep
  | cancel k =>
      simp only [next] at h
      split at h
      · next hawait =>
          cases h
          rcases hawait with hcall | hcall
          · exact .cancel hcall rfl
          · exact .cancel hcall rfl
      · cases h
  | elapse d =>
      cases h
      exact .elapse
  | setRunning running =>
      cases h
      exact .setRunning
  | activate =>
      cases h
      exact .activate
  | setReady =>
      simp only [next] at h
      split at h
      · next hbody =>
          cases h
          exact .setReady hbody
      · cases h
  | clearReady =>
      simp only [next] at h
      split at h
      · next hbody =>
          cases h
          exact .clearReady hbody
      · cases h
  | retire cooldown =>
      simp only [next] at h
      split at h
      · next hbody =>
          cases h
          exact .retire hbody
      · cases h
  | retireStep =>
      simp only [next] at h
      split at h
      · next hretiring => exact .retireStep hretiring h
      · cases h
      · cases h

/-! ## Nobody is let in behind the check -/

/-- What holds in every state: the word counts the readers, readiness stays withdrawn until
it is taken back, and once nobody was found counted no reader is served. -/
structure Shut (s : BackedSys) : Prop where
  openers : s.openers = UInt32.ofNat s.count
  withdrawn : s.producer.withdrawn = true → s.ready = false
  ending : s.producer.ending = true → ∀ c ∈ s.readers, c.served = false

/-- The word counts the readers. -/
theorem openers_next (hs : s.openers = UInt32.ofNat s.count) (hnext : next s l = some t) :
    t.openers = UInt32.ofNat t.count := by
  cases next_cases hnext with
  | openCall => simpa [count, OpenCall.counted] using hs
  | @openStep k c c' u hcall hstep =>
      have hmove := countP_set_add OpenCall.counted c' hcall
      show u.openers = UInt32.ofNat ((s.readers.set k c').countP OpenCall.counted)
      have hword := openers_openStep hstep
      have hnat := congrArg UInt32.ofNat hmove
      rw [UInt32.ofNat_add, UInt32.ofNat_add] at hnat
      rw [hs] at hword
      exact (UInt32.add_left_inj _).mp (hword.trans hnat.symm)
  | @cancel k c hcall hcounted =>
      have hmove := countP_set_add OpenCall.counted .release hcall
      rw [hcounted] at hmove
      rw [hs]
      exact congrArg UInt32.ofNat (Nat.add_right_cancel hmove).symm
  | elapse | setRunning | activate | retire | setReady | clearReady => exact hs
  | retireStep hretiring hstep =>
      cases retireStep_cases hstep with
      | look | await | reset | expire | wake | confirm | clear | check | restore | request =>
          exact hs

theorem shut_of_not_withdrawn (hopeners : s.openers = UInt32.ofNat s.count)
    (hnot : s.producer.withdrawn = false) : Shut s := by
  refine ⟨hopeners, fun hw => ?_, fun hend => ?_⟩
  · rw [hnot] at hw
    cases hw
  · rw [Producer.withdrawn_of_ending hend] at hnot
    cases hnot

/-- A word at zero counts nobody. -/
theorem count_eq_zero (hopeners : s.openers = UInt32.ofNat s.count)
    (hbound : s.count < UInt32.size) (hzero : s.openers = 0) : s.count = 0 := by
  have hnat := congrArg UInt32.toNat (hopeners.symm.trans hzero)
  rwa [UInt32.toNat_ofNat_of_lt' hbound] at hnat

/-- A check that finds the word at zero has found no reader served. -/
theorem Shut.nobody (hs : Shut s) (hbound : s.count < UInt32.size) (hzero : s.openers = 0) :
    ∀ c ∈ s.readers, c.served = false := by
  have hcount := count_eq_zero hs.openers hbound hzero
  intro c hc
  cases hserved : c.served with
  | false => rfl
  | true =>
      have hnot := List.countP_eq_zero.mp hcount c hc
      exact absurd (OpenCall.counted_of_served hserved) hnot

theorem shut_next (hs : Shut s) (hbound : s.count < UInt32.size) (hnext : next s l = some t) :
    Shut t := by
  have hopeners := openers_next hs.openers hnext
  cases next_cases hnext with
  | openCall =>
      refine ⟨hopeners, hs.withdrawn, fun hend c hc => ?_⟩
      rcases List.mem_append.mp hc with hc | hc
      · exact hs.ending hend c hc
      · rw [List.mem_singleton.mp hc]
        rfl
  | @openStep k c c' u hcall hstep =>
      have haside := aside_openStep hstep
      refine ⟨hopeners, fun hw => ?_, fun hend => ?_⟩
      · show u.ready = false
        rw [haside.ready]
        exact hs.withdrawn (haside.producer ▸ hw)
      · have hend' : s.producer.ending = true := haside.producer ▸ hend
        have hready := hs.withdrawn (Producer.withdrawn_of_ending hend')
        apply forall_mem_set (hs.ending hend')
        cases hserved : c'.served with
        | false => rfl
        | true =>
            rcases served_openStep hstep hserved with hold | ⟨-, hset⟩
            · rw [hs.ending hend' c (List.mem_of_getElem? hcall)] at hold
              cases hold
            · rw [hready] at hset
              cases hset
  | cancel =>
      exact ⟨hopeners, hs.withdrawn, fun hend => forall_mem_set (hs.ending hend) rfl⟩
  | elapse | setRunning => exact ⟨hopeners, hs.withdrawn, hs.ending⟩
  | activate | retire => exact shut_of_not_withdrawn hopeners rfl
  | setReady hbody | clearReady hbody =>
      exact shut_of_not_withdrawn hopeners (congrArg Producer.withdrawn hbody)
  | retireStep hretiring hstep =>
      cases retireStep_cases hstep with
      | look | confirm =>
          refine shut_of_not_withdrawn hopeners ?_
          by_cases hzero : s.openers = 0 <;> simp [hzero, Producer.withdrawn]
      | await | reset | expire | wake | restore => exact shut_of_not_withdrawn hopeners rfl
      | clear => exact ⟨hopeners, fun _ => rfl, nofun⟩
      | check =>
          have hready : s.ready = false := by
            apply hs.withdrawn
            rw [hretiring]
            rfl
          refine ⟨hopeners, fun _ => hready, fun hend => ?_⟩
          by_cases hzero : s.openers = 0
          · exact hs.nobody hbound hzero
          · simp [hzero, Producer.ending] at hend
      | request =>
          have hwas : s.producer.ending = true := by
            rw [hretiring]
            rfl
          refine ⟨hopeners, fun _ => ?_, fun _ => hs.ending hwas⟩
          exact hs.withdrawn (Producer.withdrawn_of_ending hwas)

/-! ## Who comes after the withdrawal -/

/-- The reader at the index has not been admitted. -/
def Unadmitted (s : BackedSys) (k : ℕ) : Prop :=
  s.readers[k]? = none ∨ s.readers[k]? = some .admitReader

/-- Since an activation `gen` withdrew its readiness for good, a later one has set it again;
or it is clear, and of those who had not been admitted then nobody is served. -/
def Late (v s : BackedSys) : Prop :=
  v.gen < s.asserted ∨
    s.ready = false ∧ v.gen ≤ s.gen ∧ (s.gen = v.gen → s.producer.withdrawn = true) ∧
      ∀ k c, v.Unadmitted k → s.readers[k]? = some c → c.served = false

/-- The step is not the activation taking its withdrawal back. -/
def KeepsWithdrawn (v s : BackedSys) (l : Label) : Prop :=
  l = .retireStep → s.gen = v.gen → ∀ cooldown, s.producer ≠ .retiring cooldown .restore

/-- If an `open` returns to a reader who had not been admitted, a later activation has
asserted its readiness. -/
def OpensLate (v s : BackedSys) (l : Label) : Prop :=
  ∀ k t, next s l = some t → v.Unadmitted k → t.readers[k]? = some .holds →
    s.readers[k]? ≠ some .holds → v.gen < t.asserted

theorem late_clear {cooldown : ℕ} (hclear : u.producer = .retiring cooldown .clear)
    (hnext : next u .retireStep = some v) : Late v v := by
  have hstep : u.retireStep cooldown .clear = some v := by
    rw [← hnext]
    simp [next, hclear]
  cases hstep
  refine .inr ⟨rfl, le_rfl, fun _ => rfl, fun k c hnew hc => ?_⟩
  rcases hnew with hnone | hcounts
  · cases hnone.symm.trans hc
  · cases hcounts.symm.trans hc
    rfl

theorem Late.of_gen_lt (hready : t.ready = false) (hlt : v.gen < t.gen)
    (hreaders : ∀ k c, v.Unadmitted k → t.readers[k]? = some c → c.served = false) : Late v t :=
  .inr ⟨hready, hlt.le, fun heq => absurd heq hlt.ne', hreaders⟩

/-- An assertion is never taken back, only made again by the same or a later activation. -/
theorem asserted_next (hs : s.asserted ≤ s.gen) (hnext : next s l = some t) :
    s.asserted ≤ t.asserted ∧ t.asserted ≤ t.gen := by
  cases next_cases hnext with
  | openCall | cancel | elapse | setRunning | clearReady | retire => exact ⟨le_rfl, hs⟩
  | openStep hcall hstep =>
      have haside := aside_openStep hstep
      show s.asserted ≤ _ ∧ _ ≤ _
      simp only [haside.asserted, haside.gen]
      exact ⟨le_rfl, hs⟩
  | activate => exact ⟨le_rfl, Nat.le_succ_of_le hs⟩
  | setReady => exact ⟨hs, le_rfl⟩
  | retireStep hretiring hstep =>
      cases retireStep_cases hstep with
      | look | await | reset | expire | wake | confirm | clear | check | request =>
          exact ⟨le_rfl, hs⟩
      | restore => exact ⟨hs, le_rfl⟩

theorem late_next (hasserted : s.asserted ≤ s.gen) (hs : Late v s)
    (hkeeps : v.KeepsWithdrawn s l) (hnext : next s l = some t) : Late v t := by
  rcases hs with hlater | ⟨hready, hle, hwithdrawn, hreaders⟩
  · exact .inl (hlater.trans_le (asserted_next hasserted hnext).1)
  · have hlt (hnot : s.producer.withdrawn = false) : v.gen < s.gen := by
      refine lt_of_le_of_ne hle fun heq => ?_
      rw [hwithdrawn heq.symm] at hnot
      cases hnot
    cases next_cases hnext with
    | openCall =>
        refine .inr ⟨hready, hle, hwithdrawn, fun i d hnew hd => ?_⟩
        rcases getElem?_append_singleton hd with rfl | hd
        · rfl
        · exact hreaders i d hnew hd
    | @openStep k c c' u hcall hstep =>
        have haside := aside_openStep hstep
        refine .inr ⟨haside.ready.trans hready, ?_, ?_, fun i d hnew hd => ?_⟩
        · show v.gen ≤ u.gen
          rw [haside.gen]
          exact hle
        · show u.gen = v.gen → u.producer.withdrawn = true
          rw [haside.gen, haside.producer]
          exact hwithdrawn
        · rcases getElem?_set_cases hd with ⟨rfl, rfl⟩ | hd
          · cases hserved : d.served with
            | false => rfl
            | true =>
                rcases served_openStep hstep hserved with hold | ⟨-, hset⟩
                · rw [hreaders i c hnew hcall] at hold
                  cases hold
                · rw [hready] at hset
                  cases hset
          · exact hreaders i d hnew hd
    | @cancel k c hcall hcounted =>
        refine .inr ⟨hready, hle, hwithdrawn, fun i d hnew hd => ?_⟩
        rcases getElem?_set_cases hd with ⟨-, rfl⟩ | hd
        · rfl
        · exact hreaders i d hnew hd
    | elapse | setRunning => exact .inr ⟨hready, hle, hwithdrawn, hreaders⟩
    | activate => exact .of_gen_lt rfl (Nat.lt_succ_of_le hle) hreaders
    | setReady hb => exact .inl (hlt (congrArg Producer.withdrawn hb))
    | clearReady hb => exact .of_gen_lt rfl (hlt (congrArg Producer.withdrawn hb)) hreaders
    | retire hb => exact .of_gen_lt hready (hlt (congrArg Producer.withdrawn hb)) hreaders
    | @retireStep cooldown d _ hretiring hstep =>
        have hnot : (Producer.retiring cooldown d).withdrawn = false → v.gen < s.gen := by
          intro hw
          exact hlt (by rw [hretiring, hw])
        cases retireStep_cases hstep with
        | look | await | reset | expire | wake | confirm =>
            exact .of_gen_lt hready (hnot rfl) hreaders
        | clear => exact .of_gen_lt rfl (hnot rfl) hreaders
        | check =>
            refine .inr ⟨hready, hle, fun _ => ?_, hreaders⟩
            by_cases hzero : s.openers = 0 <;> simp [hzero, Producer.withdrawn]
        | restore =>
            have hne : s.gen ≠ v.gen := fun heq => hkeeps rfl heq cooldown hretiring
            exact .inl (lt_of_le_of_ne hle hne.symm)
        | request => exact .inr ⟨hready, hle, fun _ => rfl, hreaders⟩

/-! ## Runs -/

/-- Fewer than `2 ^ 32` readers are counted before the step. -/
def Bounded (s : BackedSys) (_ : Label) : Prop := s.count < UInt32.size

instance (s : BackedSys) (l : Label) : Decidable (s.Bounded l) :=
  inferInstanceAs (Decidable (s.count < UInt32.size))

/-- An activation at work, with its flags as they may be, and no reader yet. -/
def boot (running ready : Bool) : BackedSys := { running, ready }

/-- **Retiring a backed producer.** In every run with fewer than `2 ^ 32` readers at once,
no reader holds a guard when `retire` requests the deactivation. And from a withdrawal of
readiness that its activation does not take back, `open` returns to no reader admitted since
before a later activation has asserted its readiness. -/
theorem retire_handshake {running ready : Bool}
    (hrun : exec next (boot running ready) labels = some s) :
    (Along next Bounded (boot running ready) labels →
      ∀ cooldown, s.producer = .retiring cooldown .request → ∀ c ∈ s.readers, c ≠ .holds) ∧
    (∀ front back u v cooldown, labels = front ++ .retireStep :: back →
      exec next (boot running ready) front = some u →
      u.producer = .retiring cooldown .clear → next u .retireStep = some v →
      Along next v.KeepsWithdrawn v back → Along next v.OpensLate v back) := by
  constructor
  · intro hbound cooldown hrequest c hc hholds
    have hshut : Shut s := exec_invariant_along (fun _ _ _ hu hl hnext => shut_next hu hl hnext)
      (shut_of_not_withdrawn rfl rfl) hbound hrun
    have hnot := hshut.ending (by rw [hrequest]; rfl) c hc
    rw [hholds] at hnot
    cases hnot
  · rintro front back u v cooldown rfl hfront hclear hstep hkeeps
    have hasserted : v.asserted ≤ v.gen :=
      exec_invariant (I := fun w : BackedSys => w.asserted ≤ w.gen)
        (fun _ _ _ hw hnext => (asserted_next hw hnext).2) (le_refl 0) (exec_snoc hfront hstep)
    have hall := hkeeps.and_invariant (I := fun w => w.asserted ≤ w.gen ∧ Late v w)
      (fun w l x hw hl hx => ⟨(asserted_next hw.1 hx).2, late_next hw.1 hw.2 hl hx⟩)
      ⟨hasserted, late_clear hclear hstep⟩
    apply hall.mono
    rintro w l ⟨⟨hw, hlate⟩, hl⟩ k x hx hnew hholds -
    rcases late_next hw hlate hl hx with hlater | ⟨-, -, -, hreaders⟩
    · exact hlater
    · cases hreaders k _ hnew hholds

/-- A reader opens and leaves while the producer waits for it. -/
def lastLeaves : List Label :=
  .openCall :: List.replicate 5 (.openStep 0) ++ [.retire 0, .retireStep] ++
    List.replicate 2 (.openStep 0) ++ List.replicate 7 .retireStep

def lastLeavesRun : Option BackedSys := exec next (boot true true) lastLeaves

theorem retire_handshake_lastLeaves : .holds ∉ (lastLeavesRun.get rfl).readers := by
  have hrun : exec next (boot true true) lastLeaves = some (lastLeavesRun.get rfl) :=
    (Option.some_get _).symm
  have hbound : Along next Bounded (boot true true) lastLeaves := by
    decide
  intro hholds
  exact (retire_handshake hrun).1 hbound 0 rfl .holds hholds rfl

/-! ## Where the handshake gives -/

/-- The producer retires up to its first withdrawal. -/
def withdrawal : List Label := .retire 0 :: List.replicate 5 .retireStep

/-- A reader is admitted before the check, is found counted and opens. -/
def readmission : List Label :=
  [.openCall, .openStep 0, .retireStep, .retireStep] ++ List.replicate 3 (.openStep 0)

/-- A reader admitted after a withdrawal that is taken back opens in the same activation. -/
theorem readmitted_opens : ¬ ∀ (labels : List Label) (s : BackedSys),
    exec next (boot true true) labels = some s →
      ∀ front back u v cooldown, labels = front ++ .retireStep :: back →
        exec next (boot true true) front = some u → u.producer = .retiring cooldown .clear →
        next u .retireStep = some v → Along next v.OpensLate v back := by
  intro h
  have hall := h (withdrawal ++ readmission ++ [.openStep 0]) _ (Option.some_get rfl).symm
    (.retire 0 :: List.replicate 4 .retireStep) (readmission ++ [.openStep 0]) _ _ 0 rfl rfl rfl
    rfl
  have hlast := ((along_append.mp hall).2 _ rfl).1
  exact absurd (hlast 0 _ rfl (.inl rfl) rfl (by decide)) (by decide)

/-- The reader that came last makes an access. -/
theorem next_last {front : List OpenCall} (hlast : s.readers = front ++ [c])
    (hstep : s.openStep c = some (c', t)) :
    next s (.openStep front.length) = some { t with readers := front ++ [c'] } := by
  have hcall : s.readers[front.length]? = some c := by
    simp [hlast]
  simp only [next, hcall, Option.bind_eq_bind, Option.bind_some, hstep]
  simp [(aside_openStep hstep).readers, hlast]

/-- Everyone who came holds a guard. -/
structure Crowd (m : ℕ) (s : BackedSys) : Prop where
  producer : s.producer = .body
  running : s.running = true
  ready : s.ready = true
  openers : s.openers = UInt32.ofNat m
  readers : s.readers = List.replicate m .holds

/-- A reader that has announced itself finds the producer serving. -/
theorem opens_last {front : List OpenCall} (hrunning : s.running = true) (hready : s.ready = true)
    (hlast : s.readers = front ++ [.running]) :
    exec next s (List.replicate 3 (.openStep front.length)) =
      some { s with requested := false, readers := front ++ [.holds] } := by
  have hfirst : next s (.openStep front.length) =
      some { s with readers := front ++ [.ready] } := by
    apply next_last hlast
    simp [openStep, hrunning]
  have hsecond : next { s with readers := front ++ [.ready] } (.openStep front.length) =
      some { s with readers := front ++ [.finish] } := by
    refine next_last (t := { s with readers := front ++ [.ready] }) rfl ?_
    simp [openStep, hready]
  have hthird : next { s with readers := front ++ [.finish] } (.openStep front.length) =
      some { s with requested := false, readers := front ++ [.holds] } :=
    next_last (t := { s with requested := false, readers := front ++ [.finish] }) rfl rfl
  exact exec_cons.mpr ⟨_, hfirst, exec_cons.mpr ⟨_, hsecond, exec_cons.mpr ⟨_, hthird, rfl⟩⟩⟩

/-- A reader that comes is counted, and announces itself if it is the first. -/
theorem admits_last : ∃ labels watch, exec next s labels = some { s with
    openers := s.openers + 1, watch, readers := s.readers ++ [.running] } := by
  have hcome : next s .openCall = some { s with readers := s.readers ++ [.admitReader] } := rfl
  by_cases hzero : s.openers = 0
  · have hcounts :
        next { s with readers := s.readers ++ [.admitReader] } (.openStep s.readers.length) =
          some { s with openers := s.openers + 1, readers := s.readers ++ [.announce] } := by
      refine next_last
        (t := { s with openers := s.openers + 1, readers := s.readers ++ [.admitReader] }) rfl ?_
      simp [openStep, hzero]
    have hannounce : next { s with
          openers := s.openers + 1, readers := s.readers ++ [.announce] }
        (.openStep s.readers.length) = some { s with
          openers := s.openers + 1, watch := true, readers := s.readers ++ [.running] } :=
      next_last (t := { s with
        openers := s.openers + 1, watch := true, readers := s.readers ++ [.announce] }) rfl rfl
    exact ⟨[.openCall, .openStep s.readers.length, .openStep s.readers.length], true,
      exec_cons.mpr ⟨_, hcome, exec_cons.mpr ⟨_, hcounts, exec_cons.mpr ⟨_, hannounce, rfl⟩⟩⟩⟩
  · have hcounts :
        next { s with readers := s.readers ++ [.admitReader] } (.openStep s.readers.length) =
          some { s with openers := s.openers + 1, readers := s.readers ++ [.running] } := by
      refine next_last
        (t := { s with openers := s.openers + 1, readers := s.readers ++ [.admitReader] }) rfl ?_
      simp [openStep, hzero]
    exact ⟨[.openCall, .openStep s.readers.length], s.watch,
      exec_cons.mpr ⟨_, hcome, exec_cons.mpr ⟨_, hcounts, rfl⟩⟩⟩

/-- Any number of readers may come and open. -/
theorem crowd (m : ℕ) :
    ∃ labels s, exec next (boot true true) labels = some s ∧ Crowd m s := by
  induction m with
  | zero => exact ⟨[], _, rfl, rfl, rfl, rfl, rfl, rfl⟩
  | succ m ih =>
      obtain ⟨labels, s, hrun, hs⟩ := ih
      obtain ⟨come, watch, hcome⟩ := admits_last (s := s)
      have hopen := opens_last (s := { s with
        openers := s.openers + 1, watch, readers := s.readers ++ [.running] })
        hs.running hs.ready rfl
      refine ⟨labels ++ (come ++ _), _,
        exec_append.mpr ⟨s, hrun, exec_append.mpr ⟨_, hcome, hopen⟩⟩, ?_⟩
      refine ⟨hs.producer, hs.running, hs.ready, ?_, ?_⟩
      · show s.openers + 1 = UInt32.ofNat (m + 1)
        rw [hs.openers]
        exact (UInt32.ofNat_add m 1).symm
      · show s.readers ++ [.holds] = List.replicate (m + 1) .holds
        rw [hs.readers]
        exact List.replicate_succ'.symm

/-- With `2 ^ 32` readers the count reads zero, and the producer retires under all of them. -/
theorem openers_wrap : ¬ ∀ (labels : List Label) (s : BackedSys),
    exec next (boot true true) labels = some s →
      ∀ cooldown, s.producer = .retiring cooldown .request → ∀ c ∈ s.readers, c ≠ .holds := by
  intro h
  obtain ⟨labels, s, hrun, hs⟩ := crowd UInt32.size
  have hzero : s.openers = 0 := hs.openers.trans (by decide)
  have hretire : ∃ t, exec next s (.retire 0 :: List.replicate 6 .retireStep) = some t ∧
      t.producer = .retiring 0 .request ∧ t.readers = s.readers := by
    simp [exec, next, retireStep, hs.producer, hzero, List.replicate]
  obtain ⟨t, ht, hrequest, hreaders⟩ := hretire
  have hnone := h _ t (exec_append.mpr ⟨s, hrun, ht⟩) 0 hrequest .holds
  rw [hreaders, hs.readers] at hnone
  exact hnone (List.mem_replicate.mpr ⟨by decide, rfl⟩) rfl

/-- Neither half of the handshake holds without its premise. -/
theorem handshake_gives : (¬ ∀ (labels : List Label) (s : BackedSys),
      exec next (boot true true) labels = some s →
        ∀ cooldown, s.producer = .retiring cooldown .request → ∀ c ∈ s.readers, c ≠ .holds) ∧
    ¬ ∀ (labels : List Label) (s : BackedSys), exec next (boot true true) labels = some s →
      ∀ front back u v cooldown, labels = front ++ .retireStep :: back →
        exec next (boot true true) front = some u → u.producer = .retiring cooldown .clear →
        next u .retireStep = some v → Along next v.OpensLate v back :=
  ⟨openers_wrap, readmitted_opens⟩

end BackedSys

end EmbassySupervisor
