/-
# Dependents stop first

A stop wave keeps two promises. It signals a node only when every chosen
dependent has resolved, and what resolved means is settled here by two
invariants: a resolved slot has acknowledged and is down, or its window has
closed and the wave keeps going; and a closed window was opened by a signal of
this wave, recorded in the history.

The order and timing of what the tasks do is arbitrary: any event may fall
between any two visits. A window is kept on the wave's own clock, in whole milliseconds since
the wave began: in `signalled_early` it closes before its `ackTimeout` has passed.
-/

import EmbassySupervisor.Wave.StopWave

namespace EmbassySupervisor

open LabelledRun

variable {n : ℕ} {g : Graph n}

/-- Acknowledged, and taken down by it. -/
def World.IsDown (w : World n) (j : Fin n) : Prop :=
  w.flag j .dropped = true ∧ w.flag j .running = false

/-- The node's own acknowledgement window has closed: it was signalled by the
wave that began in `w₀`, and on that wave's clock its `ackTimeout` has passed
since. The wave stamps signals in whole milliseconds, in a counter that stops
short of the value for an unsignalled slot. -/
def PastWindow (g : Graph n) (w₀ w : World n) (j : Fin n) : Prop :=
  ∃ cfg t new, g.nodes j = some cfg ∧ w.log = new ++ w₀.log ∧
    (t, .note j .stopRequested) ∈ new ∧ w₀.now ≤ t ∧
    min (g.asMillis (t - w₀.now)) (unsignaled - 1) + g.asMillis cfg.ackTimeout ≤
      g.asMillis (w.now - w₀.now)

/-- The `ackTimeout` of a node that has been signalled has passed since. -/
def WindowPassed (g : Graph n) (w : World n) (j : Fin n) : Prop :=
  ∃ cfg t, g.nodes j = some cfg ∧ (t, .note j .stopRequested) ∈ w.log ∧ t + cfg.ackTimeout ≤ w.now

theorem Graph.asMillis_mono {a b : ℕ} (h : a ≤ b) : g.asMillis a ≤ g.asMillis b :=
  Nat.div_le_div_right (Nat.mul_le_mul_right 1000 h)

/-- A window stays closed. -/
theorem PastWindow.mono {w₀ w w' : World n} {j : Fin n} (h : PastWindow g w₀ w j)
    (hnow : w.now ≤ w'.now) (hlog : ∃ new, w'.log = new ++ w.log) : PastWindow g w₀ w' j := by
  obtain ⟨cfg, t, new, hcfg, hnew, hmem, ht, hdue⟩ := h
  obtain ⟨later, hlater⟩ := hlog
  refine ⟨cfg, t, later ++ new, hcfg, by simp [hlater, hnew], ?_, ht, ?_⟩
  · exact List.mem_append_right later hmem
  · exact hdue.trans (Graph.asMillis_mono (Nat.sub_le_sub_right hnow _))

namespace StopWave

/-! ## A resolved slot is down, or the wave has a fault to report -/

/-- What a wave's own bookkeeping says about the world, as long as nothing but
the wave and the tasks acts. -/
structure Settled (s : StopWave n) (w : World n) : Prop where
  resolved : ∀ j, s.resolved j = true →
    w.IsDown j ∨ (s.keepGoing = true ∧ s.firstErr ≠ none)
  finished : s.pc = .done none → s.allResolved = true ∧ s.firstErr = none

theorem settled_launch (w : World n) (chosen : Fin n → Bool) (keepGoing : Bool) :
    Settled (launch g w chosen keepGoing) w where
  resolved _ h := by simp [launch] at h
  finished h := by simp [launch] at h

private theorem IsDown.step {w w' : World n} {s s' : StopWave n} (h : Step g w s s' w')
    {j : Fin n} (hj : w.IsDown j) : w'.IsDown j := by
  refine ⟨?_, ?_⟩
  · rw [h.flag_eq j (by decide) (by decide)]
    exact hj.1
  · by_contra hrun
    have := h.running_of_running (by simpa using hrun)
    simp [hj.2] at this

theorem Settled.step {w w' : World n} {s s' : StopWave n} (hs : Settled s w)
    (h : Step g w s s' w') : Settled s' w' := by
  have hdown : ∀ j, w.IsDown j → w'.IsDown j := fun j => IsDown.step h
  -- The steps that leave `resolved` and `firstErr` as they are.
  have keep : s'.resolved = s.resolved → s'.firstErr = s.firstErr →
      s'.keepGoing = s.keepGoing → ∀ j, s'.resolved j = true →
        w'.IsDown j ∨ (s'.keepGoing = true ∧ s'.firstErr ≠ none) := by
    intro hres herr hkeep j hj
    rw [hres] at hj
    rw [herr, hkeep]
    exact (hs.resolved j hj).imp_left (hdown j)
  cases h with
  | signal => exact ⟨keep rfl rfl rfl, fun h => by simp at h⟩
  | @collect j _ _ _ _ _ _ hdrop =>
      refine ⟨fun i hi => ?_, fun h => by simp at h⟩
      by_cases hij : i = j
      · subst hij
        exact Or.inl ⟨by simpa using hdrop, by simp⟩
      · simp only [Function.update_of_ne hij] at hi
        exact (hs.resolved i hi).imp_left (hdown i)
  | skip | passOver => exact ⟨keep rfl rfl rfl, fun h => by simp at h⟩
  | giveUp _ _ _ _ _ hkeep =>
      refine ⟨fun i _ => Or.inr ⟨hkeep, ?_⟩, fun h => by simp at h⟩
      cases s.firstErr <;> simp
  | abort => exact ⟨keep rfl rfl rfl, fun h => by simp at h⟩
  | finish _ hall =>
      exact ⟨keep rfl rfl rfl, fun h => ⟨hall, by simpa using h⟩⟩
  | examine => exact ⟨keep rfl rfl rfl, fun h => by simp at h⟩
  | turn hpc hturn _ =>
      refine ⟨keep rfl rfl rfl, fun h => ?_⟩
      cases hturn <;> simp at h

theorem Settled.event {w w' : World n} {s : StopWave n} (hs : Settled s w)
    (h : TaskEvent.Effect g w w') : Settled s w' where
  resolved j hj := by
    refine (hs.resolved j hj).imp_left fun hdown => ⟨h.dropped_of_dropped hdown.1, ?_⟩
    by_contra hrun
    have := h.running_of_running (by simpa using hrun)
    simp [hdown.2] at this
  finished := hs.finished

/-- When a wave ends without a fault, every chosen slot is down. -/
theorem Settled.isDown {w : World n} {s : StopWave n} (hs : Settled s w)
    (hdone : s.pc = .done none) {j : Fin n} (hj : s.chosen j = true) : w.IsDown j := by
  obtain ⟨hall, herr⟩ := hs.finished hdone
  rcases hs.resolved j (allResolved_iff.mp hall j hj) with hdown | ⟨_, hfault⟩
  · exact hdown
  · exact absurd herr hfault

/-! ## A closed window was opened by a signal -/

/-- The stamps of a wave that began in `w₀` are instants of recorded signals, its
clock never runs ahead, and it gives up only on windows that have closed. -/
structure Timed (g : Graph n) (w₀ : World n) (s : StopWave n) (w : World n) : Prop where
  epoch : s.epoch = w₀.now
  now : w₀.now ≤ w.now
  stamped : ∃ new, w.log = new ++ w₀.log ∧ ∀ j, s.signaled j ≠ unsignaled →
    ∃ t, (t, .note j .stopRequested) ∈ new ∧ w₀.now ≤ t ∧
      s.signaled j = min (g.asMillis (t - w₀.now)) (unsignaled - 1)
  clocked : ∀ todo nowMs deadline progress,
    s.pc = .expire todo nowMs deadline progress → nowMs ≤ g.asMillis (w.now - w₀.now)
  resolved : ∀ j, s.resolved j = true →
    w.flag j .dropped = true ∨ (s.keepGoing = true ∧ PastWindow g w₀ w j)

theorem timed_launch (w₀ : World n) (chosen : Fin n → Bool) (keepGoing : Bool) :
    Timed g w₀ (launch g w₀ chosen keepGoing) w₀ where
  epoch := rfl
  now := le_rfl
  stamped := ⟨[], rfl, fun _ h => absurd rfl h⟩
  clocked _ _ _ _ h := by simp [launch] at h
  resolved _ h := by simp [launch] at h

/-- The part of `Timed` that time passing and a longer history keep. -/
private theorem Timed.later {w₀ w w' : World n} {s : StopWave n} (hs : Timed g w₀ s w)
    (hnow : w.now ≤ w'.now) (hlog : ∃ new, w'.log = new ++ w.log)
    (hdrop : ∀ j, w.flag j .dropped = true → w'.flag j .dropped = true) :
    Timed g w₀ s w' where
  epoch := hs.epoch
  now := hs.now.trans hnow
  stamped := by
    obtain ⟨new, hnew, hstamp⟩ := hs.stamped
    obtain ⟨later, hlater⟩ := hlog
    refine ⟨later ++ new, by simp [hlater, hnew], fun j hj => ?_⟩
    obtain ⟨t, hmem, ht, heq⟩ := hstamp j hj
    exact ⟨t, List.mem_append_right later hmem, ht, heq⟩
  clocked todo nowMs deadline progress hpc :=
    (hs.clocked todo nowMs deadline progress hpc).trans
      (Graph.asMillis_mono (Nat.sub_le_sub_right hnow _))
  resolved j hj := by
    rcases hs.resolved j hj with hdown | ⟨hkeep, hpast⟩
    · exact Or.inl (hdrop j hdown)
    · exact Or.inr ⟨hkeep, hpast.mono hnow hlog⟩

/-- A slot whose window the wave finds closed is past it. -/
private theorem Timed.pastWindow {w₀ w : World n} {s : StopWave n} (hs : Timed g w₀ s w)
    {j : Fin n} {cfg : NodeCfg n} {nowMs : ℕ} (hsignaled : s.signaled j ≠ unsignaled)
    (hcfg : g.nodes j = some cfg) (hdue : s.dueMs g cfg j ≤ nowMs)
    (hnow : nowMs ≤ g.asMillis (w.now - w₀.now)) : PastWindow g w₀ w j := by
  obtain ⟨new, hnew, hstamp⟩ := hs.stamped
  obtain ⟨t, hmem, ht, heq⟩ := hstamp j hsignaled
  refine ⟨cfg, t, new, hcfg, hnew, hmem, ht, ?_⟩
  rw [← heq]
  exact hdue.trans hnow

theorem Timed.step {w₀ w w' : World n} {s s' : StopWave n} (hs : Timed g w₀ s w)
    (h : Step g w s s' w') : Timed g w₀ s' w' := by
  obtain ⟨new, hnew, _⟩ := h.log_eq
  have hlater : Timed g w₀ s w' := by
    refine hs.later h.now_eq.ge ⟨new, hnew⟩ fun j hj => ?_
    rwa [h.flag_eq j (by decide) (by decide)]
  have hnow := h.now_eq
  cases h with
  | @signal j _ _ _ _ _ _ _ =>
      refine ⟨hs.epoch, hlater.now, ?_, fun _ _ _ _ h => by simp at h, hlater.resolved⟩
      obtain ⟨old, hold, hstamp⟩ := hs.stamped
      refine ⟨(w.now, .note j .stopRequested) :: old, by simp [hold], fun i hi => ?_⟩
      by_cases hij : i = j
      · subst hij
        refine ⟨w.now, List.mem_cons_self, hs.now, ?_⟩
        simp [clock, hs.epoch]
      · simp only [Function.update_of_ne hij] at hi ⊢
        obtain ⟨t, hmem, ht, heq⟩ := hstamp i hi
        exact ⟨t, List.mem_cons_of_mem _ hmem, ht, heq⟩
  | @collect j _ _ _ _ _ _ hdrop =>
      refine ⟨hs.epoch, hlater.now, hlater.stamped, fun _ _ _ _ h => by simp at h, ?_⟩
      intro i hi
      by_cases hij : i = j
      · subst hij
        exact Or.inl (by simpa using hdrop)
      · simp only [Function.update_of_ne hij] at hi
        exact hlater.resolved i hi
  | skip | passOver =>
      exact ⟨hs.epoch, hlater.now, hlater.stamped, fun _ _ _ _ h => by simp at h,
        hlater.resolved⟩
  | @giveUp j todo nowMs deadline progress cfg hpc _ hsignaled hcfg hdue hkeep =>
      refine ⟨hs.epoch, hlater.now, hlater.stamped, ?_, ?_⟩
      · intro todo' nowMs' deadline' progress' h
        cases h
        exact hlater.clocked _ _ _ _ hpc
      · intro i hi
        by_cases hij : i = j
        · subst hij
          exact Or.inr ⟨hkeep,
            hlater.pastWindow hsignaled hcfg hdue (hlater.clocked _ _ _ _ hpc)⟩
        · simp only [Function.update_of_ne hij] at hi
          exact hlater.resolved i hi
  | abort =>
      exact ⟨hs.epoch, hlater.now, hlater.stamped, fun _ _ _ _ h => by simp at h,
        hlater.resolved⟩
  | finish =>
      exact ⟨hs.epoch, hlater.now, hlater.stamped, fun _ _ _ _ h => by simp at h,
        hlater.resolved⟩
  | examine =>
      refine ⟨hs.epoch, hs.now, hs.stamped, ?_, hs.resolved⟩
      intro todo nowMs deadline progress h
      cases h
      rw [clock, hs.epoch]
  | turn hpc hturn _ =>
      refine ⟨hs.epoch, hlater.now, hlater.stamped, ?_, hlater.resolved⟩
      intro todo nowMs deadline progress h
      cases hturn with
      | skipExpire =>
          cases h
          exact hlater.clocked _ _ _ _ hpc
      | startCollect | again | rest | panic => simp at h

theorem Timed.event {w₀ w w' : World n} {s : StopWave n} (hs : Timed g w₀ s w)
    (h : TaskEvent.Effect g w w') : Timed g w₀ s w' := by
  obtain ⟨new, hnew, _⟩ := h.log_eq
  exact hs.later h.now_le ⟨new, hnew⟩ fun j => h.dropped_of_dropped

/-! ## Signals -/

/-- A step that records the stop request of a slot signals it, and signals only
a slot that waits for no chosen dependent. -/
theorem Step.of_signal {w w' : World n} {s s' : StopWave n} (h : Step g w s s' w')
    {j : Fin n} (hlog : w'.log = (w.now, .note j .stopRequested) :: w.log) :
    s.chosen j = true ∧ s.held g j = false := by
  have longer : w.log ≠ (w.now, .note j .stopRequested) :: w.log := fun hself => by
    simpa using congrArg List.length hself
  cases h with
  | signal _ hopen _ hfree _ =>
      simp only [World.log_note, World.now_signalShutdown, World.log_signalShutdown,
        List.cons.injEq, Prod.mk.injEq, Record.note.injEq, and_true, true_and] at hlog
      subst hlog
      exact ⟨(Bool.and_eq_true_iff.mp hopen).1, hfree⟩
  | @collect i =>
      simp only [World.log_takeAck, World.acked] at hlog
      split at hlog <;> simp at hlog
  | giveUp | abort =>
      obtain ⟨released, hmiss, _⟩ := w.log_missAck g _ _
      rw [hmiss] at hlog
      simp at hlog
  | skip | passOver | finish | examine => exact absurd hlog longer
  | turn _ _ hw => rcases hw with rfl | rfl <;> exact absurd hlog longer

/-- Who gets signalled: only chosen slots, and every chosen slot but those that
chosen dependents held until they had resolved by themselves. -/
structure Served (g : Graph n) (w₀ : World n) (s : StopWave n) (w : World n) : Prop where
  only : ∃ new, w.log = new ++ w₀.log ∧
    (∀ t j, (t, .note j .stopRequested) ∈ new → s.chosen j = true) ∧
    ∀ j, s.signaled j ≠ unsignaled → ∃ t, (t, .note j .stopRequested) ∈ new
  fresh : ∀ j, s.chosen j = true → s.signaled j = unsignaled →
    (∃ k, s.chosen k = true ∧ j ∈ g.deps k) ∨ s.pc = .panic ∨
      (s.resolved j = false ∧ ∃ todo, s.pc = .signal todo ∧ j ∈ todo)

theorem served_launch (w₀ : World n) (chosen : Fin n → Bool) (keepGoing : Bool) :
    Served g w₀ (launch g w₀ chosen keepGoing) w₀ where
  only := ⟨[], rfl, by simp, fun _ h => absurd rfl h⟩
  fresh j _ _ := Or.inr (Or.inr ⟨rfl, g.order.reverse, rfl, List.mem_reverse.mpr (g.mem_order j)⟩)

/-- Entries that are no stop requests keep the history part. -/
private theorem Served.only_append {w₀ w w' : World n} {s s' : StopWave n}
    (hs : Served g w₀ s w) {later : List (ℕ × Record n)} (hlog : w'.log = later ++ w.log)
    (hother : ∀ t j, (t, .note j .stopRequested) ∉ later)
    (hchosen : s'.chosen = s.chosen) (hsignaled : s'.signaled = s.signaled) :
    ∃ new, w'.log = new ++ w₀.log ∧
      (∀ t j, (t, .note j .stopRequested) ∈ new → s'.chosen j = true) ∧
      ∀ j, s'.signaled j ≠ unsignaled → ∃ t, (t, .note j .stopRequested) ∈ new := by
  obtain ⟨new, hnew, honly, hstamp⟩ := hs.only
  refine ⟨later ++ new, by simp [hlog, hnew], fun t j hmem => ?_, fun j hj => ?_⟩
  · rw [hchosen]
    exact honly t j ((List.mem_append.mp hmem).resolve_left (hother t j))
  · obtain ⟨t, ht⟩ := hstamp j (hsignaled ▸ hj)
    exact ⟨t, List.mem_append_right later ht⟩

/-- Outside the signal pass every fresh slot is held. -/
private theorem Served.fresh_of_pc {w₀ w : World n} {s s' : StopWave n} (hs : Served g w₀ s w)
    (hpc : ∀ todo, s.pc ≠ .signal todo) (hpanic : s.pc ≠ .panic)
    (hchosen : s'.chosen = s.chosen) (hsignaled : s'.signaled = s.signaled) (j : Fin n)
    (hj : s'.chosen j = true) (hfresh : s'.signaled j = unsignaled) :
    ∃ k, s'.chosen k = true ∧ j ∈ g.deps k := by
  rw [hchosen] at hj ⊢
  rw [hsignaled] at hfresh
  rcases hs.fresh j hj hfresh with hheld | h | ⟨_, todo, h, _⟩
  · exact hheld
  · exact absurd h hpanic
  · exact absurd h (hpc todo)

theorem Served.step {w₀ w w' : World n} {s s' : StopWave n} (hs : Served g w₀ s w)
    (h : Step g w s s' w') : Served g w₀ s' w' := by
  have of_missAck : ∀ cfg j, ∃ later, (w.missAck g cfg j).log = later ++ w.log ∧
      ∀ t i, (t, .note i .stopRequested) ∉ later := by
    intro cfg j
    obtain ⟨released, hlog, hreleased⟩ := w.log_missAck g cfg j
    refine ⟨(w.now, .note j (.faulted .shutdownTimeout)) :: released, by simp [hlog], ?_⟩
    intro t i hmem
    rcases List.mem_cons.mp hmem with heq | hmem
    · simp at heq
    · simpa using hreleased _ hmem
  cases h with
  | @signal j todo _ hpc hopen _ _ _ =>
      obtain ⟨new, hnew, honly, hstamp⟩ := hs.only
      refine ⟨⟨(w.now, .note j .stopRequested) :: new, by simp [hnew], ?_, ?_⟩, ?_⟩
      · intro t i hmem
        rcases List.mem_cons.mp hmem with heq | hmem
        · cases heq
          exact (Bool.and_eq_true_iff.mp hopen).1
        · exact honly t i hmem
      · intro i hi
        by_cases hij : i = j
        · subst hij
          exact ⟨w.now, List.mem_cons_self⟩
        · simp only [Function.update_of_ne hij] at hi
          obtain ⟨t, ht⟩ := hstamp i hi
          exact ⟨t, List.mem_cons_of_mem _ ht⟩
      · intro i hi hfresh
        by_cases hij : i = j
        · subst hij
          simp [unsignaled] at hfresh
          omega
        · simp only [Function.update_of_ne hij] at hfresh
          rcases hs.fresh i hi hfresh with hheld | h | ⟨hopen, todo', hpc', hmem⟩
          · exact Or.inl hheld
          · simp [hpc] at h
          · obtain rfl := StopPc.signal.inj (hpc.symm.trans hpc')
            exact Or.inr (Or.inr ⟨hopen, todo, rfl, (List.mem_cons.mp hmem).resolve_left hij⟩)
  | @skip j todo hpc hskip =>
      refine ⟨hs.only_append (List.nil_append _).symm (by simp) rfl rfl, fun i hi hfresh => ?_⟩
      rcases hs.fresh i hi hfresh with hheld | h | ⟨hopen, todo', hpc', hmem⟩
      · exact Or.inl hheld
      · simp [hpc] at h
      · obtain rfl := StopPc.signal.inj (hpc.symm.trans hpc')
        by_cases hij : i = j
        · subst hij
          have hchosen : s.chosen i = true := hi
          have hheld := hskip (by simp [unresolved, hchosen, hopen]) hfresh
          simp only [held, List.any_eq_true, Bool.and_eq_true, List.contains_iff_mem] at hheld
          obtain ⟨k, _, hk, hdep⟩ := hheld
          exact Or.inl ⟨k, (Bool.and_eq_true_iff.mp hk).1, hdep⟩
        · exact Or.inr (Or.inr ⟨hopen, todo, rfl, (List.mem_cons.mp hmem).resolve_left hij⟩)
  | @collect j _ _ _ hpc =>
      have hlog : (w.takeAck j).log =
          [(w.now, .note j ((w.setRunning j false).acked j))] ++ w.log := rfl
      refine ⟨hs.only_append hlog ?_ rfl rfl, fun i hi hfresh =>
        Or.inl (hs.fresh_of_pc (by simp [hpc]) (by simp [hpc]) rfl rfl i hi hfresh)⟩
      intro t i hmem
      have := List.mem_singleton.mp hmem
      simp only [World.acked, Prod.mk.injEq, Record.note.injEq] at this
      split at this <;> simp at this
  | passOver hpc | examine hpc | finish hpc =>
      exact ⟨hs.only_append (List.nil_append _).symm (by simp) rfl rfl, fun i hi hfresh =>
        Or.inl (hs.fresh_of_pc (by simp [hpc]) (by simp [hpc]) rfl rfl i hi hfresh)⟩
  | giveUp hpc | abort hpc =>
      obtain ⟨later, hlater, hother⟩ := of_missAck _ _
      exact ⟨hs.only_append hlater hother rfl rfl, fun i hi hfresh =>
        Or.inl (hs.fresh_of_pc (by simp [hpc]) (by simp [hpc]) rfl rfl i hi hfresh)⟩
  | turn hpc hturn hw =>
      have hlog : w'.log = [] ++ w.log := by rcases hw with rfl | rfl <;> rfl
      refine ⟨hs.only_append hlog (by simp) rfl rfl, fun i hi hfresh => ?_⟩
      rcases hs.fresh i hi hfresh with hheld | hpanic | ⟨hopen, todo, hpc', hmem⟩
      · exact Or.inl hheld
      · cases hturn with
        | again _ hne => exact absurd (hpc.symm.trans hpanic) hne
        | panic => exact Or.inr (Or.inl rfl)
        | startCollect | skipExpire | rest => simp [hpc] at hpanic
      · rw [hpc] at hpc'
        cases hturn with
        | again hne _ => exact absurd hpc' (hne todo)
        | panic => exact Or.inr (Or.inl rfl)
        | startCollect =>
            obtain rfl := StopPc.signal.inj hpc'
            simp at hmem
        | skipExpire | rest => simp at hpc'

theorem Served.event {w₀ w w' : World n} {s : StopWave n} (hs : Served g w₀ s w)
    (h : TaskEvent.Effect g w w') : Served g w₀ s w' := by
  obtain ⟨later, hlater, hby⟩ := h.log_eq
  refine ⟨hs.only_append hlater (fun t j hmem => ?_) rfl rfl, hs.fresh⟩
  obtain ⟨i, hrecord⟩ := hby _ hmem
  simp at hrecord

/-- A wave's selection and policy are those it began with. -/
theorem static_of_exec {w₀ w : World n} {s₀ s : StopWave n} {moves : List (Move n)}
    (hrun : exec (among g (step g)) (s₀, w₀) moves = some (s, w)) :
    s.chosen = s₀.chosen ∧ s.keepGoing = s₀.keepGoing := by
  have hstep : ∀ t u t' u', t.chosen = s₀.chosen ∧ t.keepGoing = s₀.keepGoing →
      step g u t = some (t', u') → t'.chosen = s₀.chosen ∧ t'.keepGoing = s₀.keepGoing := by
    intro t u t' u' ht hstep
    obtain ⟨hchosen, hkeep, _⟩ := (step_cases hstep).static
    exact ⟨hchosen.trans ht.1, hkeep.trans ht.2⟩
  exact among_invariant (fun t u t' u' => hstep t u t' u') (fun _ _ _ h _ => h) ⟨rfl, rfl⟩ hrun

end StopWave

open StopWave in
/-- **Dependents stop first.** In every run of a stop wave among the tasks, a
chosen node is signalled only when every chosen node that lists it in its `deps`
has acknowledged or, under `keepGoing`, is past its own window. A wave that
ends without a fault leaves every chosen node acknowledged and not running. -/
theorem stopWave_dependents_first (g : Graph n) (w₀ : World n) (chosen : Fin n → Bool)
    (keepGoing : Bool) {moves : List (Move n)} {s : StopWave n} {w : World n}
    (hrun : exec (among g (step g)) (launch g w₀ chosen keepGoing, w₀) moves = some (s, w)) :
    (∀ s' w' j, step g w s = some (s', w') →
      w'.log = (w.now, .note j .stopRequested) :: w.log →
        chosen j = true ∧ ∀ k, chosen k = true → j ∈ g.deps k →
          w.flag k .dropped = true ∨ (keepGoing = true ∧ PastWindow g w₀ w k)) ∧
    (s.pc = .done none → ∀ k, chosen k = true →
      w.flag k .dropped = true ∧ w.flag k .running = false) := by
  obtain ⟨hchosen, hkeep⟩ := static_of_exec hrun
  have htimed : Timed g w₀ s w := among_invariant
    (fun _ _ _ _ hs hstep => hs.step (step_cases hstep)) (fun _ _ _ hs he => hs.event he)
    (timed_launch w₀ chosen keepGoing) hrun
  have hsettled : Settled s w := among_invariant
    (fun _ _ _ _ hs hstep => hs.step (step_cases hstep)) (fun _ _ _ hs he => hs.event he)
    (settled_launch w₀ chosen keepGoing) hrun
  simp only [launch] at hchosen hkeep
  refine ⟨fun s' w' j hstep hlog => ?_, fun hdone k hk => ?_⟩
  · obtain ⟨hj, hfree⟩ := (step_cases hstep).of_signal hlog
    refine ⟨hchosen ▸ hj, fun k hk hdep => ?_⟩
    have hresolved : s.resolved k = true := by
      cases hopen : s.resolved k with
      | true => rfl
      | false =>
          have hunresolved : s.unresolved k = true := by simp [unresolved, hchosen, hk, hopen]
          exact absurd hdep (held_eq_false_iff.mp hfree k hunresolved)
    rw [← hkeep]
    exact htimed.resolved k hresolved
  · exact hsettled.isDown hdone (hchosen ▸ hk)

/-- Both nodes up. -/
def clientAndLinkUp : World 2 where
  node _ := { flags := fun k => k == .running }
  inst _ := .up

/-- The client acknowledges while the wave sleeps, the link once it is signalled. -/
def clientAndLinkRun : Option (StopWave 2 × World 2) :=
  exec (among clientAndLink (StopWave.step clientAndLink))
    (StopWave.launch clientAndLink clientAndLinkUp (fun _ => true) false, clientAndLinkUp)
    (List.replicate 9 .own ++ [.event (.ackDropped 1)] ++ List.replicate 16 .own ++
      [.event (.ackDropped 0)] ++ List.replicate 7 .own)

theorem stopWave_dependents_first_clientAndLink :
    (clientAndLinkRun.get rfl).2.flag 0 .dropped = true ∧
      (clientAndLinkRun.get rfl).2.flag 0 .running = false := by
  have hrun : clientAndLinkRun.isSome = true := rfl
  exact (stopWave_dependents_first clientAndLink clientAndLinkUp (fun _ => true) false
    (Option.some_get hrun).symm).2 rfl 0 rfl

/-- The client is signalled within the wave's first millisecond, and the wave gives up on it. -/
def unansweredRun : Option (StopWave 2 × World 2) :=
  exec (among clientAndLink (StopWave.step clientAndLink))
    (StopWave.launch clientAndLink clientAndLinkUp (fun _ => true) true, clientAndLinkUp)
    ([.event (.elapse 999)] ++ List.replicate 9 .own ++ [.event (.elapse 1999001)] ++
      List.replicate 11 .own)

/-- The link is signalled up to a millisecond before the window of the client has passed. -/
theorem signalled_early : ¬ ∀ (moves : List (Move 2)) (s s' : StopWave 2) (w w' : World 2),
    exec (among clientAndLink (StopWave.step clientAndLink))
        (StopWave.launch clientAndLink clientAndLinkUp (fun _ => true) true, clientAndLinkUp)
        moves = some (s, w) →
      StopWave.step clientAndLink w s = some (s', w') →
        w'.log = (w.now, .note 0 .stopRequested) :: w.log →
          w.flag 1 .dropped = true ∨ WindowPassed clientAndLink w 1 := by
  intro h
  have hrun : unansweredRun = some (unansweredRun.get rfl) := (Option.some_get _).symm
  have hnext : StopWave.step clientAndLink (unansweredRun.get rfl).2 (unansweredRun.get rfl).1 =
      some ((StopWave.step clientAndLink (unansweredRun.get rfl).2
        (unansweredRun.get rfl).1).get rfl) := (Option.some_get _).symm
  rcases h _ _ _ _ _ hrun hnext rfl with hdropped | ⟨cfg, t, hcfg, hmem, hpassed⟩
  · exact absurd hdropped (by decide)
  · have hmem : (t, .note 1 .stopRequested) ∈
        [(2000000, Record.note (1 : Fin 2) (.faulted .shutdownTimeout)),
          (999, .note 1 .stopRequested)] := hmem
    cases hcfg
    have hpassed : t + 2000000 ≤ 2000000 := hpassed
    simp only [List.mem_cons, Prod.mk.injEq, List.not_mem_nil, Record.note.injEq, reduceCtorEq,
      and_false, and_true, or_false, false_or] at hmem
    omega

end EmbassySupervisor
