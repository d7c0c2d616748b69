/-
# Continuously unwatched

`unwatched` sees a count of zero, resets the latch and sets its timer; when the timer ends the
wait it looks at the count once more. In between it relies on the latch, which every reader
that takes the count off zero or back to it signals, but `select` polls the timer first: a
wait that is polled late returns with the signal in the latch, and so does one whose reader
has moved the count and not signalled yet.

`unwatched_rests` is about the waits that return with no signal unseen (`heeds`): nobody was
counted since the timer was set. In `watched_briefly` a reader opens and leaves before the
timer expires, the wait is polled after, and it returns.
-/

import EmbassySupervisor.DataDeps.Backed

namespace EmbassySupervisor

open LabelledRun Interleaving

/-- The reader has moved the count and has still to signal it. -/
def OpenCall.owes : OpenCall → Bool
  | .announce | .farewell => true
  | .admitReader | .running | .ready | .finish | .holds | .idle | .swap | .request | .wait
  | .rerunning | .reready | .forget | .release | .gone => false

namespace BackedSys

/-- There is a signal in the latch, or on its way. -/
def stirred (s : BackedSys) : Bool := s.watch || s.readers.any OpenCall.owes

/-- If `unwatched` returns, no signal is unseen, and the count has not wrapped. -/
def heeds (s : BackedSys) : Label → Bool
  | .retireStep =>
    match s.producer with
    | .retiring _ .confirm =>
      s.openers != 0 || (!s.stirred && decide (s.count < UInt32.size))
    | .body | .retiring _ _ | .retired => true
  | .openCall | .openStep _ | .cancel _ | .elapse _ | .setRunning _ | .activate | .setReady
  | .clearReady | .retire _ => true

/-- The wait is in its cooldown, or its timer has ended it. -/
def Cooling (cooldown deadline : ℕ) (s : BackedSys) : Prop :=
  s.producer = .retiring cooldown (.cool deadline) ∨ s.producer = .retiring cooldown .confirm

instance (cooldown deadline : ℕ) (s : BackedSys) : Decidable (s.Cooling cooldown deadline) :=
  inferInstanceAs (Decidable (s.producer = .retiring cooldown (.cool deadline) ∨
    s.producer = .retiring cooldown .confirm))

/-- A timer of the cooldown was set, and has ended the wait; while it ran nobody was
counted. -/
def Rested (s₀ : BackedSys) (past : List Label) (cooldown : ℕ) (w : BackedSys) : Prop :=
  ∃ front mid u v, past = front ++ .retireStep :: mid ∧ exec next s₀ front = some u ∧
    u.producer = .retiring cooldown .reset ∧ next u .retireStep = some v ∧
    exec next v mid = some w ∧ v.now + cooldown ≤ w.now ∧
    Along next (fun x _ => x.Cooling cooldown (v.now + cooldown) ∧
      (x.now ≤ v.now + cooldown → x.count = 0)) v mid ∧
    (w.now ≤ v.now + cooldown → w.count = 0)

/-! ## What the latch keeps -/

variable {s t : BackedSys} {l : Label} {labels past : List Label} {cooldown deadline : ℕ}

/-- Somebody is counted, or the latch tells or will tell that somebody was. -/
def Disturbed (s : BackedSys) : Prop := s.count ≠ 0 ∨ s.stirred = true

theorem count_ne_zero {c : OpenCall} (hc : c ∈ s.readers) (hcounted : c.counted = true) :
    s.count ≠ 0 :=
  Nat.pos_iff_ne_zero.mp (List.countP_pos_iff.mpr ⟨c, hc, hcounted⟩)

theorem stirred_of_owes {c : OpenCall} (hc : c ∈ s.readers) (howes : c.owes = true) :
    s.stirred = true := by
  simp only [stirred, Bool.or_eq_true, List.any_eq_true]
  exact .inr ⟨c, hc, howes⟩

/-- The reader whose drop leaves others does not leave the count at zero. -/
theorem disturbed_of_gone {k : ℕ} {c : OpenCall} (hcall : s.readers[k]? = some c)
    (hcounted : c.counted = true) (hopeners : s.openers = UInt32.ofNat s.count)
    (hothers : s.openers ≠ 1) :
    (s.readers.set k .gone).countP OpenCall.counted ≠ 0 := by
  have hmove := countP_set_add OpenCall.counted .gone hcall
  have hne : s.count ≠ 1 := by
    intro hone
    rw [hopeners, hone] at hothers
    exact hothers rfl
  have hpos := count_ne_zero (List.mem_of_getElem? hcall) hcounted
  rw [hcounted] at hmove
  simp only [OpenCall.counted, Bool.toNat_false, Bool.toNat_true] at hmove
  unfold count at hne hpos
  omega

/-- An access of a reader leaves a trace. -/
theorem disturbed_openStep {k : ℕ} {c c' : OpenCall} {u : BackedSys}
    (hcall : s.readers[k]? = some c) (hstep : s.openStep c = some (c', u))
    (hopeners : s.openers = UInt32.ofNat s.count) :
    Disturbed { u with readers := s.readers.set k c' } := by
  have hlt := (List.getElem?_eq_some_iff.mp hcall).1
  have hmem : c' ∈ s.readers.set k c' := List.mem_set hlt c'
  have hcounts : c'.counted = true → Disturbed { u with readers := s.readers.set k c' } :=
    fun hc => .inl (count_ne_zero (s := { u with readers := s.readers.set k c' }) hmem hc)
  have howes : c'.owes = true → Disturbed { u with readers := s.readers.set k c' } :=
    fun hc => .inr (stirred_of_owes (s := { u with readers := s.readers.set k c' }) hmem hc)
  cases c with
  | gone => cases hstep
  | announce | farewell =>
      cases hstep
      exact .inr rfl
  | admitReader | running | ready | idle | swap | rerunning | reready =>
      apply hcounts
      cases hstep
      split <;> rfl
  | finish | request | wait | forget =>
      apply hcounts
      cases hstep
      rfl
  | holds | release =>
      by_cases hone : s.openers = 1
      · apply howes
        cases hstep
        rw [if_pos hone]
        rfl
      · cases hstep
        rw [if_neg hone]
        exact .inl (disturbed_of_gone hcall rfl hopeners hone)

/-- While a wait cools down nothing that happened is forgotten. -/
theorem disturbed_next (hopeners : s.openers = UInt32.ofNat s.count)
    (hs : s.Cooling cooldown deadline) (ht : t.Cooling cooldown deadline)
    (hdisturbed : s.Disturbed) (hnext : next s l = some t) : t.Disturbed := by
  cases next_cases hnext with
  | openCall => simpa [Disturbed, stirred, count, OpenCall.counted, OpenCall.owes] using hdisturbed
  | openStep hcall hstep => exact disturbed_openStep hcall hstep hopeners
  | @cancel k c hcall hcounted =>
      have hlt := (List.getElem?_eq_some_iff.mp hcall).1
      exact .inl (count_ne_zero (s := { s with readers := s.readers.set k .release })
        (List.mem_set hlt _) rfl)
  | elapse | setRunning => exact hdisturbed
  | activate => rcases ht with ht | ht <;> cases ht
  | setReady hbody | clearReady hbody | retire hbody =>
      rcases hs with hs | hs <;> cases hbody.symm.trans hs
  | retireStep hretiring hstep =>
      cases retireStep_cases hstep with
      | expire => exact hdisturbed
      | look | await | reset | clear | check | restore | request =>
          rcases hs with hs | hs <;> cases hretiring.symm.trans hs
      | wake => rcases ht with ht | ht <;> cases ht
      | confirm => by_cases hzero : s.openers = 0 <;> simp [Cooling, hzero] at ht

/-! ## One round of the wait -/

/-- The wait cools down since a timer was set, and nobody was counted since, or it can
tell. -/
def Round (s₀ : BackedSys) (past : List Label) (cooldown deadline : ℕ) (s : BackedSys) : Prop :=
  ∃ front mid u v, past = front ++ .retireStep :: mid ∧ exec next s₀ front = some u ∧
    u.producer = .retiring cooldown .reset ∧ next u .retireStep = some v ∧
    exec next v mid = some s ∧ v.now + cooldown = deadline ∧
    Along next (fun x _ => x.Cooling cooldown deadline) v mid ∧
    (Along next (fun x _ => x.count = 0) v mid ∨ s.Disturbed)

/-- A step that leaves the wait where it is, or ends it by its timer. -/
theorem Round.snoc {s₀ : BackedSys} (h : Round s₀ past cooldown deadline s)
    (hopeners : s.openers = UInt32.ofNat s.count) (hs : s.Cooling cooldown deadline)
    (ht : t.Cooling cooldown deadline) (hnext : next s l = some t) :
    Round s₀ (past ++ [l]) cooldown deadline t := by
  obtain ⟨front, mid, u, v, rfl, hfront, hreset, hset, hmid, hdeadline, hcooling, hquiet⟩ := h
  refine ⟨front, mid ++ [l], u, v, by simp, hfront, hreset, hset, exec_snoc hmid hnext, hdeadline,
    along_snoc hmid hs hcooling, ?_⟩
  have hkept : s.Disturbed → t.Disturbed := fun h => disturbed_next hopeners hs ht h hnext
  rcases hquiet with hquiet | hdisturbed
  · by_cases hzero : s.count = 0
    · exact .inl (along_snoc hmid hzero hquiet)
    · exact .inr (hkept (.inl hzero))
  · exact .inr (hkept hdisturbed)

/-- How a wait comes to cool down. -/
theorem cool_next (hnext : next s l = some t)
    (ht : t.producer = .retiring cooldown (.cool deadline)) :
    s.producer = .retiring cooldown (.cool deadline) ∨
      l = .retireStep ∧ s.producer = .retiring cooldown .reset ∧ t.now + cooldown = deadline := by
  cases next_cases hnext with
  | openCall | cancel | elapse | setRunning | setReady | clearReady => exact .inl ht
  | openStep hcall hstep => exact .inl ((aside_openStep hstep).producer.symm.trans ht)
  | activate | retire => cases ht
  | retireStep hretiring hstep =>
      cases retireStep_cases hstep with
      | reset =>
          cases ht
          exact .inr ⟨rfl, hretiring, rfl⟩
      | look | confirm | check => by_cases hzero : s.openers = 0 <;> simp [hzero] at ht
      | await | expire | wake | clear | restore | request => cases ht

/-- How its timer comes to have ended it. -/
theorem confirm_next (hnext : next s l = some t) (ht : t.producer = .retiring cooldown .confirm) :
    s.producer = .retiring cooldown .confirm ∨
      ∃ deadline, s.producer = .retiring cooldown (.cool deadline) ∧ deadline ≤ s.now := by
  cases next_cases hnext with
  | openCall | cancel | elapse | setRunning | setReady | clearReady => exact .inl ht
  | openStep hcall hstep => exact .inl ((aside_openStep hstep).producer.symm.trans ht)
  | activate | retire => cases ht
  | retireStep hretiring hstep =>
      cases retireStep_cases hstep with
      | expire hover =>
          cases ht
          exact .inr ⟨_, hretiring, hover⟩
      | look | confirm | check => by_cases hzero : s.openers = 0 <;> simp [hzero] at ht
      | await | reset | wake | clear | restore | request => cases ht

theorem now_le_next (hnext : next s l = some t) : s.now ≤ t.now := by
  cases next_cases hnext with
  | openCall | cancel | setRunning | activate | setReady | clearReady | retire =>
      exact Nat.le_refl _
  | elapse => exact Nat.le_add_right _ _
  | openStep hcall hstep => exact Nat.le_of_eq (aside_openStep hstep).now.symm
  | retireStep hretiring hstep =>
      cases retireStep_cases hstep with
      | look | await | reset | expire | wake | confirm | clear | check | restore | request =>
          exact Nat.le_refl _

/-- Where the wait is, and since when. -/
structure Waiting (s₀ : BackedSys) (past : List Label) (s : BackedSys) : Prop where
  openers : s.openers = UInt32.ofNat s.count
  cool : ∀ cooldown deadline, s.producer = .retiring cooldown (.cool deadline) →
    Round s₀ past cooldown deadline s
  confirm : ∀ cooldown, s.producer = .retiring cooldown .confirm →
    ∃ deadline ≤ s.now, Round s₀ past cooldown deadline s

theorem waiting_next {s₀ : BackedSys} (hpast : exec next s₀ past = some s)
    (hs : Waiting s₀ past s) (hnext : next s l = some t) : Waiting s₀ (past ++ [l]) t := by
  refine ⟨openers_next hs.openers hnext, fun cooldown deadline ht => ?_, fun cooldown ht => ?_⟩
  · rcases cool_next hnext ht with hcool | ⟨rfl, hreset, hdeadline⟩
    · exact (hs.cool _ _ hcool).snoc hs.openers (.inl hcool) (.inl ht) hnext
    · exact ⟨past, [], s, t, rfl, hpast, hreset, hnext, rfl, hdeadline, trivial, .inl trivial⟩
  · have hlater := now_le_next hnext
    rcases confirm_next hnext ht with hconfirm | ⟨deadline, hcool, hover⟩
    · obtain ⟨deadline, hover, hround⟩ := hs.confirm _ hconfirm
      exact ⟨deadline, hover.trans hlater,
        hround.snoc hs.openers (.inr hconfirm) (.inr ht) hnext⟩
    · exact ⟨deadline, hover.trans hlater,
        (hs.cool _ _ hcool).snoc hs.openers (.inl hcool) (.inr ht) hnext⟩

/-- A wait with no signal unseen had nobody counted while its timer ran. -/
theorem Round.rested {s₀ : BackedSys} (h : Round s₀ past cooldown deadline s)
    (hover : deadline ≤ s.now) (hzero : s.count = 0) (hstirred : s.stirred = false) :
    Rested s₀ past cooldown s := by
  obtain ⟨front, mid, u, v, hpast, hfront, hreset, hset, hmid, rfl, hcooling, hquiet⟩ := h
  have hnobody : Along next (fun x _ => x.count = 0) v mid := by
    rcases hquiet with hquiet | hcount | hset
    · exact hquiet
    · exact absurd hzero hcount
    · exact absurd (hstirred.symm.trans hset) nofun
  refine ⟨front, mid, u, v, hpast, hfront, hreset, hset, hmid, hover, ?_, fun _ => hzero⟩
  exact (hcooling.and hnobody).mono fun x l hx => ⟨hx.1, fun _ => hx.2⟩

/-- **Continuously unwatched.** In a run in which `unwatched` returns with no signal unseen
and a count that has not wrapped, whenever it returns nobody was counted while the timer ran
that ended it. -/
theorem unwatched_rests {running ready : Bool}
    (hheeds : Along next (fun s l => s.heeds l = true) (boot running ready) labels)
    (hrun : exec next (boot running ready) labels = some s) :
    ∀ past back w cooldown, labels = past ++ .retireStep :: back →
      exec next (boot running ready) past = some w → w.producer = .retiring cooldown .confirm →
      w.openers = 0 → Rested (boot running ready) past cooldown w := by
  rintro past back w cooldown rfl hpast hconfirm hzero
  have hw : Waiting (boot running ready) past w := by
    refine exec_invariant_history ⟨rfl, fun _ _ h => ?_, fun _ h => ?_⟩ ?_ hpast
    · cases h
    · cases h
    intro front u l v hfront hu hnext
    exact waiting_next hfront hu hnext
  have hseen := ((along_append.mp hheeds).2 w hpast).1
  simp only [heeds, hconfirm, hzero, bne_self_eq_false, Bool.false_or, Bool.and_eq_true,
    Bool.not_eq_true', decide_eq_true_eq] at hseen
  obtain ⟨deadline, hover, hround⟩ := hw.confirm cooldown hconfirm
  exact hround.rested hover (count_eq_zero hw.openers hseen.2 hzero) hseen.1

/-- A reader opens and leaves while the producer is at work, which then retires. -/
def leftBefore : List Label :=
  .openCall :: List.replicate 7 (.openStep 0) ++
    [.retire 10, .retireStep, .retireStep, .elapse 10, .retireStep, .retireStep]

def leftBeforeRun : Option BackedSys := exec next (boot true true) leftBefore

theorem unwatched_rests_leftBefore :
    ∃ w, Rested (boot true true) (leftBefore.take 13) 10 w ∧ w.now = 10 := by
  have hheeds : Along next (fun s l => s.heeds l = true) (boot true true) leftBefore := by
    decide
  have hrun : exec next (boot true true) leftBefore = some (leftBeforeRun.get rfl) :=
    (Option.some_get _).symm
  exact ⟨_, unwatched_rests hheeds hrun (leftBefore.take 13) [] _ 10 rfl rfl rfl rfl, rfl⟩

/-- Nine ticks into the cooldown a reader opens and leaves; the wait is polled a tick
later. -/
def brief : List Label :=
  [.retire 10, .retireStep, .retireStep, .elapse 9, .openCall] ++
    List.replicate 7 (.openStep 0) ++ [.elapse 1, .retireStep]

theorem watched_briefly : ¬ ∀ (labels : List Label) (s : BackedSys),
    exec next (boot true true) labels = some s →
      ∀ past back w cooldown, labels = past ++ .retireStep :: back →
        exec next (boot true true) past = some w → w.producer = .retiring cooldown .confirm →
        w.openers = 0 → Rested (boot true true) past cooldown w := by
  intro h
  have hrested := h (brief ++ [.retireStep]) _ (Option.some_get rfl).symm brief [] _ 10 rfl
    (Option.some_get rfl).symm rfl rfl
  obtain ⟨front, mid, u, v, hpast, hfront, hreset, hset, -, -, halong, -⟩ := hrested
  -- The only timer of the run is set at its third step.
  have htake : front = brief.take front.length := by
    rw [hpast, List.take_left]
  have honly : ∀ i < brief.length,
      (exec next (boot true true) (brief.take i)).any
        (fun x => x.producer == .retiring 10 .reset) = true → i = 2 := by
    decide
  have hlength : front.length < brief.length := by
    rw [hpast]
    simp
  have htwo : front.length = 2 := by
    apply honly _ hlength
    rw [← htake, hfront]
    simp [hreset]
  rw [htwo] at htake
  subst htake
  cases hpast
  cases hfront
  cases hset
  exact absurd halong (by decide)

end BackedSys

end EmbassySupervisor
