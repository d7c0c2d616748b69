/-
# Marked and running

`boundStopped` marks a node that is down on account of a bound provider, so once a
verb has returned no node should be both marked and running, and what `apply_bind`
brings back should be down for no other reason. Two of the paths that bring a node
up forget the mark, `resume_node` with `resume_pausable` and a start wave at a node
the application spawns, and a `start_node` of a running node may set it. `clashes`
is the state before such a step; every other step keeps the law.

`Kept` is the invariant of one call after the other. The mark is explained by the
run: `DownForProvider` names the step that set it.
-/

import EmbassySupervisor.Verb.Instances

namespace EmbassySupervisor

open LabelledRun

variable {n : ℕ} {g : Graph n}

/-! ## The history only grows -/

/-- The entry reports a missed acknowledgement. -/
def Record.missedAck : Record n → Bool
  | .note _ (.faulted .shutdownTimeout) => true
  | .note _ _ | .spawned _ | .dropped _ | .boundStop _ | .boundPark _ | .claimsReleased _ =>
    false

/-- Some acknowledgement has been missed. -/
def World.timedOut (w : World n) : Bool := w.log.any fun r => r.2.missedAck

theorem World.timedOut_of_suffix {w w' : World n} (h : w.log <:+ w'.log)
    (hno : w'.timedOut = false) : w.timedOut = false := by
  obtain ⟨new, hnew⟩ := h
  simp only [timedOut, ← hnew, List.any_append, Bool.or_eq_false_iff] at hno ⊢
  exact hno.2

theorem World.timedOut_missAck (w : World n) (cfg : NodeCfg n) (j : Fin n) :
    (w.missAck g cfg j).timedOut = true := by
  obtain ⟨released, hlog, _⟩ := w.log_missAck g cfg j
  simp [timedOut, hlog, Record.missedAck]

section Suffix

variable {w w' : World n}

theorem StopWave.Step.log_suffix {s s' : StopWave n} (h : s.Step g w s' w') :
    w.log <:+ w'.log := by
  obtain ⟨new, hnew, _⟩ := h.log_eq
  exact ⟨new, hnew.symm⟩

theorem StartWave.Step.log_suffix {s s' : StartWave n} (h : s.Step g w s' w') :
    w.log <:+ w'.log := by
  cases h with
  | arm | resume | mark | park => simp
  | spawn =>
      rw [World.log_started, World.log_launch, World.log_reset]
      exact (List.suffix_cons _ _).trans (List.suffix_cons _ _)
  | fault _ hw | abort _ hw => rcases hw with rfl | rfl <;> simp
  | busy _ _ hw => rcases hw with rfl | ⟨slot, rfl⟩ <;> exact List.suffix_rfl
  | finish => exact List.suffix_rfl
  | turn _ hw => rcases hw with rfl | rfl <;> exact List.suffix_rfl

theorem StartEntry.log_suffix {j : Fin n} {e : StartEnd n} (h : StartEntry g w j e w') :
    w.log <:+ w'.log := by
  obtain ⟨new, hnew, _⟩ := h.log_eq
  exact ⟨new, hnew.symm⟩

theorem Call.Step.log_suffix {c c' : Call n} (h : c.Step g w c' w') : w.log <:+ w'.log := by
  cases h with
  | stopWave h => exact h.log_suffix
  | startWave h => exact h.log_suffix
  | startDone _ hw => simp [hw.log]
  | startNode _ h =>
      obtain ⟨new, hnew, _⟩ := h.log_eq
      exact ⟨new, hnew.symm⟩
  | ackNode => exact List.suffix_cons _ _
  | @missNode j _ cfg _ _ =>
      obtain ⟨new, hnew, _⟩ := w.grows_missAck g cfg j
      exact ⟨new, hnew.symm⟩
  | bindStart _ _ _ h => exact h.log_suffix
  | bindResume => simp
  | bindUnmark _ _ _ hw => simp [hw.log]
  | stopFault | stopDone | restartUp | bindPhase | stopPanic | startPanic | bindEnd
  | bindSkip => exact List.suffix_rfl

theorem suffix_resumeAll (w : World n) (js : List (Fin n)) :
    w.log <:+ (g.resumeAll w js).log := by
  induction js generalizing w with
  | nil => exact List.suffix_rfl
  | cons j js ih =>
      refine List.IsSuffix.trans ?_ (ih _)
      simp only
      split <;> simp

theorem Begun.log_suffix {v : Verb n} {c : Call n} (h : Begun g w v c w') :
    w.log <:+ w'.log := by
  cases h with
  | idle h | startWave h | stopWave h => simp [h.log]
  | bindWave _ hmark => exact ⟨_, hmark.log.symm⟩
  | startNode h | grow _ _ _ h => exact h.log_suffix
  | stopNow => exact (List.suffix_cons _ _).trans (List.suffix_cons _ _)
  | stopWait => exact List.suffix_cons _ _
  | resumes => exact suffix_resumeAll w _

theorem TaskEvent.Effect.log_suffix (h : TaskEvent.Effect g w w') : w.log <:+ w'.log := by
  obtain ⟨new, hnew, _⟩ := h.log_eq
  exact ⟨new, hnew.symm⟩

/-- No step of the system rewrites the history. -/
theorem Sys.log_suffix {s s' : Sys n} {l : Label n} (h : Sys.next g s l = some s') :
    s.world.log <:+ s'.world.log := by
  cases Sys.next_cases h with
  | @begin v c w _ heq =>
      have hbegun := begin_cases g s.world v
      rw [heq] at hbegun
      exact hbegun.log_suffix
  | advance _ _ hstep => exact (Call.step_cases hstep).log_suffix
  | task _ happly => exact (TaskEvent.apply_cases happly).log_suffix
  | setDisabled | cancel => exact List.suffix_rfl

end Suffix

/-! ## The steps that break the law -/

namespace StartPhase

/-- The wait for a gate runs out, and the gate is a dependency the node is bound to. -/
def givesUp (w : World n) (cfg : NodeCfg n) : StartPhase n → Bool
  | .gate c _ deadline =>
    decide (deadline ≤ w.now) && !(c.latched w && c.satisfied w) && c.fault.onBoundDep cfg
  | .settle _ | .pass _ _ | .event _ | .yield _ => false

end StartPhase

/-- The wave is about to mark a node running that the application spawns and that is
marked as down for a provider. -/
def StartWave.marksBound (g : Graph n) (w : World n) (s : StartWave n) : Bool :=
  match s.pc with
  | .visit (j :: _) _ =>
    s.pending j && (g.nodes j).any (·.spawn.isNone) && !(g.deps j).any s.pending &&
      s.armed j != unarmed && w.flag j .boundStopped
  | .visit [] _ | .yield | .sleep _ | .panic | .done _ => false

/-- The call is about to bring up a node that keeps its mark, or to put off a node
that runs. -/
def Call.clashes (g : Graph n) (w : World n) : Call n → Bool
  | .starting s _ => s.marksBound g w
  | .startNode j phase _ => w.flag j .running && (g.nodes j).any (phase.givesUp w)
  | .stopping _ _ | .stopNode _ _ | .bindUp _ | .done _ | .panic | .cancelled => false

/-- The node would be resumed and is marked. -/
def World.resumesMarked (g : Graph n) (w : World n) (j : Fin n) : Bool :=
  (g.nodes j).any (w.resumable · j) && w.flag j .boundStopped

/-- The verb resumes a node that keeps its mark. -/
def Verb.clashes (g : Graph n) (w : World n) : Verb n → Bool
  | .resumeNode j => g.has .pause && w.resumesMarked g j
  | .resumePausable => g.has .pause && (List.finRange n).any (w.resumesMarked g)
  | .start _ | .startNode _ | .stopNode _ | .teardown | .teardownContinue | .respawnTerminate
  | .deactivate _ | .activate _ | .restart _ | .applyBind | .scale _ _ => false

/-- The step leaves a node both marked and running. -/
def Sys.clashes (g : Graph n) (s : Sys n) : Label n → Bool
  | .begin v => v.clashes g s.world
  | .advance i => (s.calls[i]?).any (·.clashes g s.world)
  | .task _ | .setDisabled _ _ | .cancel _ => false

/-! ## What a step does to the marks -/

/-- Marked and running. -/
def World.clash (w : World n) (j : Fin n) : Bool := w.flag j .running && w.flag j .boundStopped

/-- No marked node is brought up, and a node is marked only when its bring-up is put
off while it is down. -/
structure World.Marking (w w' : World n) : Prop where
  raised : ∀ j, w'.flag j .boundStopped = true → w'.flag j .running = true →
    w.flag j .running = true
  marked : ∀ j, w'.flag j .boundStopped = true → w.flag j .boundStopped = true ∨
    (w.flag j .running = false ∧ w'.log = (w.now, .boundPark j) :: w.log)

namespace World.Marking

variable {w w' : World n}

theorem clash (h : w.Marking w') {j : Fin n} (hj : w'.clash j = true) : w.clash j = true := by
  obtain ⟨hrun, hbound⟩ := Bool.and_eq_true_iff.mp hj
  have hrun' := h.raised j hbound hrun
  rcases h.marked j hbound with hmarked | ⟨hdown, _⟩
  · exact Bool.and_eq_true_iff.mpr ⟨hrun', hmarked⟩
  · simp [hrun'] at hdown

/-- Taking nodes down and lifting marks is harmless. -/
theorem of_lower (hrunning : ∀ j, w'.flag j .running = true → w.flag j .running = true)
    (hbound : ∀ j, w'.flag j .boundStopped = true → w.flag j .boundStopped = true) :
    w.Marking w' :=
  ⟨fun j _ => hrunning j, fun j hj => Or.inl (hbound j hj)⟩

theorem of_flags (hflag : ∀ j k, k = .running ∨ k = .boundStopped → w'.flag j k = w.flag j k) :
    w.Marking w' := by
  apply of_lower
  · intro j hj
    rwa [hflag j .running (by simp)] at hj
  · intro j hj
    rwa [hflag j .boundStopped (by simp)] at hj

theorem of_still (h : w.Still w') : w.Marking w' := of_flags fun j k _ => h.flag j k

theorem of_relatched (h : w.Relatched w') : w.Marking w' := by
  apply of_flags
  rintro j k (rfl | rfl) <;> exact h.flag j _ rfl

/-- So is bringing a node up and lifting its mark. -/
theorem of_up {j : Fin n} (hbound : w'.flag j .boundStopped = false)
    (hother : ∀ i k, i ≠ j → k = .running ∨ k = .boundStopped → w'.flag i k = w.flag i k) :
    w.Marking w' := by
  have hne : ∀ i, w'.flag i .boundStopped = true → i ≠ j := by
    rintro i hi rfl
    simp [hbound] at hi
  refine ⟨fun i hi hrun => ?_, fun i hi => Or.inl ?_⟩
  · rwa [hother i .running (hne i hi) (by simp)] at hrun
  · rwa [hother i .boundStopped (hne i hi) (by simp)] at hi

end World.Marking

section Steps

variable {w w' : World n}

theorem StopWave.Step.marking {s s' : StopWave n} (h : s.Step g w s' w') : w.Marking w' := by
  apply World.Marking.of_lower
  · exact fun j => h.running_of_running
  · intro j hj
    rwa [h.flag_eq j (by decide) (by decide)] at hj

theorem StartWave.Step.marking {s s' : StartWave n} (h : s.Step g w s' w')
    (hdown : ∀ j, s.pending j = true → w.flag j .running = false)
    (hclash : s.marksBound g w = false) : w.Marking w' := by
  cases h with
  | arm => exact .of_flags fun _ _ _ => rfl
  | @resume j => exact .of_up (j := j) (by simp) (by simp +contextual)
  | @mark j todo round cfg h hspawn harmed =>
      have hfree : w.flag j .boundStopped = false := by
        have hdeps : (g.deps j).any s.pending = false := by simpa using h.deps
        simpa [marksBound, h.pc, h.pending, h.cfg, hspawn, harmed, hdeps] using hclash
      exact .of_up (j := j) (by simp [hfree, Flag.stale])
        (by rintro i k hij (rfl | rfl) <;> simp [hij, Flag.stale])
  | @park j _ _ _ _ h =>
      refine ⟨fun i _ hrun => by simpa using hrun, fun i hi => ?_⟩
      by_cases hij : i = j
      · subst hij
        exact Or.inr ⟨hdown i h.pending, by simp⟩
      · exact Or.inl (by simpa [hij] using hi)
  | fault _ hw | abort _ hw =>
      rcases hw with rfl | rfl
      · exact .of_flags fun _ _ _ => rfl
      · exact .of_flags (by rintro i k (rfl | rfl) <;> simp [Flag.stale])
  | @spawn j =>
      refine .of_up (j := j) (by simp) ?_
      rintro i k hij (rfl | rfl) <;> simp [hij, World.flag_launch, Flag.stale]
  | busy _ _ hw =>
      rcases hw with rfl | ⟨slot, rfl⟩ <;>
        exact .of_flags (by rintro i k (rfl | rfl) <;> simp [Flag.stale])
  | finish => exact .of_flags fun _ _ _ => rfl
  | turn _ hw => rcases hw with rfl | rfl <;> exact .of_flags fun _ _ _ => rfl

theorem StartEffect.marking {cfg : NodeCfg n} {j : Fin n} {e : StartEnd n}
    (h : StartEffect cfg w j e w')
    (hput : w.flag j .running = true → ∀ i, w'.flag i .boundStopped = true →
      w.flag i .boundStopped = true) : w.Marking w' := by
  cases h with
  | started _ hw _ =>
      refine .of_up (j := j) (by simp) ?_
      rintro i k hij (rfl | rfl) <;> simp [hij, World.flag_launch, Flag.stale, hw.flag]
  | @parked w₁ _ hw _ =>
      refine ⟨fun i _ hrun => by simpa [hw.flag] using hrun, fun i hi => ?_⟩
      by_cases hij : i = j
      · subst hij
        cases hrun : w.flag i .running with
        | true => exact Or.inl (hput hrun i hi)
        | false => exact Or.inr ⟨rfl, by simp [hw.log, hw.now]⟩
      · exact Or.inl (by simpa [hij, hw.flag] using hi)
  | faulted hw | waits hw =>
      rcases hw with hw | hw
      · exact .of_flags fun i k _ => by simp [hw.flag]
      · exact .of_flags (by rintro i k (rfl | rfl) <;> simp [hw.flag, Flag.stale])

theorem StartEntry.marking {j : Fin n} {e : StartEnd n} (h : StartEntry g w j e w') :
    w.Marking w' := by
  cases h with
  | absent => exact .of_flags fun _ _ _ => rfl
  | gated _ h hput =>
      have hmarking := h.marking fun _ i hi => by simpa using hput i hi
      exact ⟨fun i hi hrun => by simpa using hmarking.raised i hi hrun,
        fun i hi => Or.inl (hput i hi)⟩
  | marked =>
      refine .of_up (j := j) (by simp) ?_
      rintro i k hij (rfl | rfl) <;> simp [hij, Flag.stale]

/-- A poll puts off only the node whose wait runs out on a bound dependency. -/
theorem boundStopped_of_startNodeStep {cfg : NodeCfg n} {sp : Spawn} {j i : Fin n}
    {phase : StartPhase n} {e : StartEnd n} (h : w.startNodeStep cfg sp j phase = some (e, w'))
    (hi : w'.flag i .boundStopped = true) :
    w.flag i .boundStopped = true ∨ phase.givesUp w cfg = true := by
  -- The world of a poll that settles on `x`, after a change of latches at most.
  have past : ∀ {w₁ : World n} {x : StartEnd n × World n}, w.Still w₁ → some x = some (e, w') →
      (x.2.flag i .boundStopped = true → w₁.flag i .boundStopped = true) →
      w.flag i .boundStopped = true := by
    intro w₁ x hstill heq hkept
    rw [Option.some.inj heq] at hkept
    rw [← hstill.flag]
    exact hkept hi
  cases phase with
  | gate c rest deadline =>
      have hstill := Gate.still_takeLatch w c
      have fault : ∀ {w₁ : World n}, w.Still w₁ → some (w₁.gateFault cfg j c.fault) = some (e, w') →
          w.flag i .boundStopped = true ∨ c.fault.onBoundDep cfg = true := by
        intro w₁ hw heq
        by_cases hbound : c.fault.onBoundDep cfg = true
        · exact Or.inr hbound
        · refine Or.inl (past hw heq fun hkept => ?_)
          simpa [World.gateFault, hbound] using hkept
      simp only [World.startNodeStep, Gate.satisfied_takeLatch, hstill.now] at h
      by_cases hlatch : c.latched w = true
      · rw [if_pos hlatch] at h
        by_cases hsat : c.satisfied w = true
        · rw [if_pos hsat] at h
          exact Or.inl (past hstill h boundStopped_of_awaitGates)
        · rw [if_neg hsat] at h
          by_cases hdue : deadline ≤ w.now
          · rw [if_pos hdue] at h
            exact (fault hstill h).imp_right fun hbound => by
              simp [StartPhase.givesUp, hdue, hsat, hbound]
          · rw [if_neg hdue] at h
            cases h
            exact Or.inl (by rwa [hstill.flag] at hi)
      · rw [if_neg hlatch] at h
        by_cases hdue : deadline ≤ w.now
        · rw [if_pos hdue] at h
          exact (fault (.refl w) h).imp_right fun hbound => by
            simp [StartPhase.givesUp, hdue, hlatch, hbound]
        · simp [hdue] at h
  | settle deadline =>
      simp only [World.startNodeStep] at h
      split at h
      · exact Or.inl (past (World.still_gateEvt w false) h boundStopped_of_awaitSettled)
      · split at h
        · exact Or.inl (past (.refl w) h boundStopped_of_awaitSettled)
        · simp at h
  | pass seen deadline =>
      have hstill := World.still_gateEvt w false
      simp only [World.startNodeStep] at h
      split at h
      · split at h
        · exact Or.inl (past hstill h boundStopped_of_spawnAttempt)
        · cases h
          exact Or.inl hi
      · simp at h
  | event deadline =>
      simp only [World.startNodeStep] at h
      split at h
      · exact Or.inl (past (World.still_gateEvt w false) h boundStopped_of_spawnAttempt)
      · simp at h
  | yield deadline => exact Or.inl (past (.refl w) h boundStopped_of_spawnAttempt)

/-- Whoever runs after the parked instances have been resumed ran before or is one of
them. -/
theorem running_of_resumeAll (js : List (Fin n)) {i : Fin n}
    (h : (g.resumeAll w js).flag i .running = true) :
    w.flag i .running = true ∨ (i ∈ js ∧ (g.nodes i).any (w.resumable · i) = true) := by
  induction js generalizing w with
  | nil => exact Or.inl h
  | cons j js ih =>
      replace h : (g.resumeAll (if (g.nodes j).any fun cfg => w.resumable cfg j then w.resume j
        else w) js).flag i .running = true := h
      split at h
      case isTrue hpick =>
        by_cases hij : i = j
        · subst hij
          exact Or.inr ⟨List.mem_cons_self, hpick⟩
        · have hsame : ∀ k, (w.resume j).flag i k = w.flag i k := fun k => by simp [hij]
          have hacked : (w.resume j).hasAckedStop i = w.hasAckedStop i := by
            rw [Bool.eq_iff_iff, World.hasAckedStop_iff, World.hasAckedStop_iff, hsame, hsame]
          have hlater := ih h
          simp only [World.resumable, hsame, hacked] at hlater
          exact hlater.imp_right (And.imp_left (List.mem_cons_of_mem j))
      case isFalse => exact (ih h).imp_right (And.imp_left (List.mem_cons_of_mem j))

theorem marking_resumeAll (js : List (Fin n))
    (hfree : ∀ j ∈ js, w.resumesMarked g j = false) : w.Marking (g.resumeAll w js) := by
  have hbound : ∀ i, (g.resumeAll w js).flag i .boundStopped = w.flag i .boundStopped :=
    fun i => flag_resumeAll js i rfl (by decide)
  refine ⟨fun i hi hrun => ?_, fun i hi => Or.inl (by rwa [hbound] at hi)⟩
  rw [hbound] at hi
  rcases running_of_resumeAll js hrun with hran | ⟨hmem, hpick⟩
  · exact hran
  · have := hfree i hmem
    simp [World.resumesMarked, hpick, hi] at this

end Steps

/-! ## One call after the other -/

/-- The wave has not met a missed acknowledgement, and is done only when all it chose
has resolved. -/
structure StopWave.Faultless (s : StopWave n) : Prop where
  firstErr : s.firstErr = none
  done : ∀ r, s.pc = .done r → r = none ∧ s.allResolved = true

namespace StopWave.Step

variable {w w' : World n} {s s' : StopWave n}

theorem faultless (h : s.Step g w s' w') (hs : s.Faultless) (hno : w'.timedOut = false) :
    s'.Faultless := by
  cases h with
  | signal | skip | collect | passOver | examine => exact ⟨hs.firstErr, fun r hr => by simp at hr⟩
  | giveUp | abort => simp [World.timedOut_missAck] at hno
  | finish _ hall =>
      refine ⟨hs.firstErr, fun r hr => ⟨?_, hall⟩⟩
      cases hr
      exact hs.firstErr
  | turn _ hturn _ =>
      refine ⟨hs.firstErr, fun r hr => ?_⟩
      cases hturn <;> simp at hr

/-- A slot resolves by going down, unless its acknowledgement is missed. -/
theorem unresolved_of_running (h : s.Step g w s' w') (hno : w'.timedOut = false) {j : Fin n}
    (hrun : w'.flag j .running = true) (hj : s.unresolved j = true) :
    s'.unresolved j = true := by
  cases h with
  | @collect i =>
      by_cases hji : j = i
      · simp [hji] at hrun
      · simpa [unresolved, Function.update_of_ne hji] using hj
  | giveUp | abort => simp [World.timedOut_missAck] at hno
  | signal | skip | passOver | finish | examine | turn => exact hj

end StopWave.Step

/-- What a start wave has yet to start is down. -/
theorem StartWave.Step.pending_down {w w' : World n} {s s' : StartWave n}
    (h : s.Step g w s' w') (hdown : ∀ j, s.pending j = true → w.flag j .running = false) :
    ∀ j, s'.pending j = true → w'.flag j .running = false := by
  intro i hi
  have hbefore := hdown i (h.pending_of_pending hi)
  cases h with
  | @resume j | @mark j | @park j | @spawn j =>
      have hij : i ≠ j := by
        rintro rfl
        simp [resolve] at hi
      simp [hij, hbefore, World.flag_launch, Flag.stale]
  | fault _ hw | abort _ hw => rcases hw with rfl | rfl <;> simp [hbefore, Flag.stale]
  | busy _ _ hw => rcases hw with rfl | ⟨slot, rfl⟩ <;> simp [hbefore, Flag.stale]
  | arm | finish => exact hbefore
  | turn _ hw => rcases hw with rfl | rfl <;> exact hbefore

namespace Call

/-- A bound stop of the slot is under way. After a panic anything may be left. -/
def stopsBound : Call n → Fin n → Bool
  | .stopping s .bind, j => s.unresolved j
  | .panic, _ => true
  | .stopping _ .ret, _ | .stopping _ (.restart _), _ | .starting _ _, _ | .startNode _ _ _, _
  | .stopNode _ _, _ | .bindUp _, _ | .done _, _ | .cancelled, _ => false

/-- The call has yet to start the slot. -/
def starts : Call n → Fin n → Bool
  | .starting s _, j => s.pending j
  | .stopping _ _, _ | .startNode _ _ _, _ | .stopNode _ _, _ | .bindUp _, _ | .done _, _
  | .panic, _ | .cancelled, _ => false

theorem stopsBound_of_finished {c : Call n} (hc : c.finished = true) (j : Fin n) :
    c.stopsBound j = false := by
  cases c with
  | done | cancelled => rfl
  | stopping | starting | startNode | stopNode | bindUp | panic => simp [finished] at hc

theorem proceed_frame (next : AfterStart n) (i : Fin n) (e : StartEnd n) (j : Fin n) :
    (next.proceed i e).stopsBound j = false ∧ (next.proceed i e).starts j = false := by
  cases e with
  | wait => exact ⟨rfl, rfl⟩
  | done r => cases next <;> exact ⟨rfl, rfl⟩

end Call

/-- The law, as one call after the other keeps it while no acknowledgement is missed:
only what a bound stop in flight has yet to take down is marked and running. -/
structure Kept (c : Call n) (w : World n) : Prop where
  apart : ∀ j, w.clash j = true → c.stopsBound j = true
  down : ∀ j, c.starts j = true → w.flag j .running = false
  faultless : ∀ s, c = .stopping s .bind → s.Faultless

section Law

variable {w w' : World n} {c c' : Call n}

theorem Begun.marking {v : Verb n} (h : Begun g w v c w') (hclash : v.clashes g w = false) :
    w.Marking w' ∨ ∃ s, v = .applyBind ∧ c = .stopping s .bind ∧ StopSelected g w s w' ∧
      BoundMarked g w s w' ∧ ∀ j, s.chosen j = g.boundStopping w j := by
  cases h with
  | idle h | startWave h | stopWave h => exact Or.inl (.of_relatched h)
  | bindWave hsel hmark hchosen => exact Or.inr ⟨_, rfl, rfl, hsel, hmark, hchosen⟩
  | startNode h | grow _ _ _ h => exact Or.inl h.marking
  | @stopNow _ j _ _ =>
      refine Or.inl (.of_lower (fun i hi => ?_) fun i hi => by simpa using hi)
      by_cases hij : i = j <;> simp_all
  | stopWait => exact Or.inl (.of_flags (by rintro i k (rfl | rfl) <;> simp))
  | resumes hpause hjs =>
      refine Or.inl (marking_resumeAll _ fun j hj => ?_)
      rcases hjs j hj with rfl | rfl
      · simpa [Verb.clashes, hpause] using hclash
      · simp only [Verb.clashes, hpause, Bool.true_and, List.any_eq_false] at hclash
        simpa using hclash j (List.mem_finRange j)

/-- A verb that begins where nothing is both marked and running. -/
theorem Begun.kept {v : Verb n} (h : Begun g w v c w') (hclean : ∀ j, w.clash j = false)
    (hclash : v.clashes g w = false) : Kept c w' := by
  have hapart : ∀ j, w'.clash j = true → c.stopsBound j = true := by
    intro j hj
    rcases h.marking hclash with hmarking | ⟨s, _, rfl, hsel, hmark, _⟩
    · have := hmarking.clash hj
      simp [hclean j] at this
    · obtain ⟨hrun, hbound⟩ := Bool.and_eq_true_iff.mp hj
      rw [hmark.flag j .running (by decide)] at hrun
      rw [hmark.bound j] at hbound
      have hfree : w.flag j .boundStopped = false := by
        simpa [World.clash, hrun] using hclean j
      have hchosen : s.chosen j = true := by simpa [hfree] using hbound
      have hopen : s.resolved j = false := by
        rw [hsel.launch]
        rfl
      simp [Call.stopsBound, StopWave.unresolved, hchosen, hopen]
  refine ⟨hapart, fun j hj => ?_, fun s hs => ?_⟩
  · cases h with
    | startWave _ hsel => exact (hsel.pending j hj).2.1
    | startNode | grow => simp [(Call.proceed_frame _ _ _ j).2] at hj
    | idle | stopWave | bindWave | stopNow | stopWait | resumes => simp [Call.starts] at hj
  · cases h with
    | stopWave _ _ hnext => rcases hnext with rfl | ⟨set, rfl⟩ <;> simp at hs
    | bindWave hsel =>
        cases hs
        rw [hsel.launch]
        exact ⟨rfl, fun r hr => by simp [StopWave.launch] at hr⟩
    | startNode | grow => exact absurd hs (Call.proceed_ne_stopping _ _ _ _ _)
    | idle | startWave | stopNow | stopWait | resumes => simp at hs

theorem Call.Step.marking (h : c.Step g w c' w') (hk : Kept c w)
    (hclash : c.clashes g w = false) : w.Marking w' := by
  cases h with
  | stopWave h => exact h.marking
  | startWave h => exact h.marking hk.down hclash
  | startDone _ hw => exact .of_still hw
  | @startNode j phase _ cfg _ _ hcfg h hpoll =>
      refine h.marking fun hrun i hi => ?_
      obtain ⟨sp, hpoll⟩ := hpoll
      refine (boundStopped_of_startNodeStep hpoll hi).resolve_right fun hgives => ?_
      simp [clashes, hrun, hcfg, hgives] at hclash
  | @ackNode j =>
      have hsame : ∀ i k, (w.onNode j fun h => { h with droppedWake := false }).flag i k =
          w.flag i k := by
        intro i k
        rw [World.flag_onNode]
        split
        case isTrue heq => rw [heq]; rfl
        case isFalse => rfl
      refine .of_lower (fun i hi => ?_) fun i hi => by simpa [hsame] using hi
      by_cases hij : i = j
      · simp [hij] at hi
      · simpa [hij, hsame] using hi
  | missNode => exact .of_flags fun _ _ _ => by simp
  | bindStart _ _ _ h => exact h.marking
  | @bindResume j =>
      refine .of_up (j := j) (by simp) ?_
      rintro i k hij (rfl | rfl) <;> simp [hij]
  | @bindUnmark j _ _ _ _ _ _ hw =>
      refine .of_lower (fun i hi => by simpa [hw.flag] using hi) fun i hi => ?_
      by_cases hij : i = j
      · simp [hw.flag, hij] at hi
      · simpa [hw.flag, hij] using hi
  | stopFault | stopDone | restartUp | bindPhase | stopPanic | startPanic | bindEnd
  | bindSkip => exact .of_flags fun _ _ _ => rfl

theorem Call.Step.kept (h : c.Step g w c' w') (hk : Kept c w)
    (hclash : c.clashes g w = false) (hno : w'.timedOut = false) : Kept c' w' := by
  have hbefore : ∀ j, w'.clash j = true → c.stopsBound j = true :=
    fun j hj => hk.apart j ((h.marking hk hclash).clash hj)
  refine ⟨fun j hj => ?_, fun j hj => ?_, fun t ht => ?_⟩
  · have hstops := hbefore j hj
    cases h with
    | @stopWave s s' next _ h =>
        cases next with
        | bind =>
            have hrun := (Bool.and_eq_true_iff.mp hj).1
            exact h.unresolved_of_running hno hrun hstops
        | ret | restart => simp [stopsBound] at hstops
    | @stopFault s next f hpc =>
        cases next with
        | bind => exact absurd ((hk.faultless s rfl).done _ hpc).1 (by simp)
        | ret | restart => simp [stopsBound] at hstops
    | @bindPhase s hpc =>
        have hall := ((hk.faultless s rfl).done _ hpc).2
        obtain ⟨hchosen, hopen⟩ := Bool.and_eq_true_iff.mp hstops
        simp [StopWave.allResolved_iff.mp hall j hchosen] at hopen
    | stopPanic | startPanic => rfl
    | stopDone | restartUp | startWave | startDone | startNode | ackNode | missNode | bindEnd
    | bindSkip | bindStart | bindResume | bindUnmark => simp [stopsBound] at hstops
  · cases h with
    | startWave h => exact h.pending_down hk.down j hj
    | @restartUp s set hpc =>
        obtain ⟨cfg, _, hpick⟩ : ∃ cfg, g.nodes j = some cfg ∧ (set j && !w.flag j .detached &&
            !w.flag j .disabled && !w.flag j .collateral && !w.flag j .running &&
            !g.deferred cfg) = true := by
          simpa [starts, Graph.restartUp, Graph.startNodes, StartWave.launch,
            Option.any_eq_true, World.flag] using hj
        simp only [Bool.and_eq_true, Bool.not_eq_true'] at hpick
        exact hpick.1.2
    | startNode | bindStart => simp [(proceed_frame _ _ _ j).2] at hj
    | stopWave | stopFault | stopDone | bindPhase | stopPanic | startPanic | startDone | ackNode
    | missNode | bindEnd | bindSkip | bindResume | bindUnmark => simp [starts] at hj
  · cases h with
    | stopWave h =>
        cases ht
        exact h.faultless (hk.faultless _ rfl) hno
    | startNode | bindStart => exact absurd ht (proceed_ne_stopping _ _ _ _ _)
    | startWave | restartUp | stopFault | stopDone | bindPhase | stopPanic | startPanic
    | startDone | ackNode | missNode | bindEnd | bindSkip | bindResume | bindUnmark => simp at ht

theorem TaskEvent.Effect.marking (h : TaskEvent.Effect g w w') : w.Marking w' := by
  apply World.Marking.of_lower
  · exact fun j => h.running_of_running
  · intro j hj
    rwa [h.flag_eq j rfl (by decide) (by decide) (by decide)] at hj

theorem Kept.event (hk : Kept c w) (h : TaskEvent.Effect g w w') : Kept c w' := by
  refine ⟨fun j hj => hk.apart j (h.marking.clash hj), fun j hj => ?_, hk.faultless⟩
  apply (Bool.not_eq_true _).mp
  intro hrun
  have := h.running_of_running hrun
  simp [hk.down j hj] at this

theorem flag_setDisabled (w : World n) (i : Fin n) (disabled : Bool) (j : Fin n) {k : Flag}
    (hk : k ≠ .disabled) :
    (w.onNode i fun h => h.setDisabled disabled).flag j k = w.flag j k := by
  rw [World.flag_onNode]
  split
  case isTrue heq => simp [heq, hk, World.flag]
  case isFalse => rfl

end Law

/-- The side condition of a run: one call after the other, and no step that leaves a
node both marked and running. -/
def Sys.Lawful (g : Graph n) (s : Sys n) (l : Label n) : Prop :=
  s.Sequential l ∧ s.clashes g l = false

instance (s : Sys n) (l : Label n) : Decidable (s.Lawful g l) :=
  inferInstanceAs (Decidable (_ ∧ _))

/-- **The law along a run.** -/
theorem kept_of_exec {s s' : Sys n} {labels : List (Label n)} (hcalls : s.calls = [])
    (hfree : ∀ j, s.world.flag j .boundStopped = false)
    (halong : Along (Sys.next g) (Sys.Lawful g) s labels)
    (hrun : exec (Sys.next g) s labels = some s') :
    s'.InFlight fun c w => w.timedOut = false → Kept c w := by
  refine Sys.sequential_invariant (P := Sys.Lawful g) (fun _ _ h => h.1) ?_ ?_ ?_ ?_ ?_ hcalls
    halong hrun
  · intro t c v hl hfinished hk hno
    have hbegun := begin_cases g t.world v
    have hkept := hk (World.timedOut_of_suffix hbegun.log_suffix hno)
    refine hbegun.kept (fun j => ?_) hl.2
    apply (Bool.not_eq_true _).mp
    intro hj
    have := hkept.apart j hj
    simp [Call.stopsBound_of_finished hfinished] at this
  · intro t i c c' w hl hcall hk hstep hno
    have hstep := Call.step_cases hstep
    have hclash : c.clashes g t.world = false := by
      simpa [Sys.clashes, hcall] using hl.2
    exact hstep.kept (hk (World.timedOut_of_suffix hstep.log_suffix hno)) hclash hno
  · intro t c e w _ hk happly hno
    have hevent := TaskEvent.apply_cases happly
    exact (hk (World.timedOut_of_suffix hevent.log_suffix hno)).event hevent
  · intro t c j disabled _ hk hno
    have hkept := hk hno
    refine ⟨fun i hi => hkept.apart i ?_, fun i hi => ?_, hkept.faultless⟩
    · simpa [World.clash, flag_setDisabled] using hi
    · simpa [flag_setDisabled] using hkept.down i hi
  · intro _
    exact ⟨fun j hj => by simp [World.clash, hfree j] at hj,
      fun j hj => by simp [Call.starts] at hj, fun s hs => by simp at hs⟩

/-! ## Why a node is marked -/

/-- The step does not bring the node up. -/
def Sys.KeepsDown (g : Graph n) (j : Fin n) (s : Sys n) (l : Label n) : Prop :=
  ∀ t, Sys.next g s l = some t → t.world.flag j .running = true →
    s.world.flag j .running = true

/-- The step from `s` to `t` takes the node down, or puts its bring-up off, on account
of a bound provider: an `apply_bind` begins whose cascade stops it, or the bring-up of
the node, which is down, runs out of time on a bound dependency. -/
def Sys.Marks (g : Graph n) (j : Fin n) (s : Sys n) (l : Label n) (t : Sys n) : Prop :=
  (l = .begin .applyBind ∧ g.boundStopping s.world j = true) ∨
    (s.world.flag j .running = false ∧
      t.world.log = (s.world.now, .boundPark j) :: s.world.log)

/-- At some moment of the run the node was taken down, or put off, on account of a bound
provider, and it was not brought up since. -/
def DownForProvider (g : Graph n) (s : Sys n) (labels : List (Label n)) (j : Fin n) : Prop :=
  ∃ front l back t u, labels = front ++ l :: back ∧ exec (Sys.next g) s front = some t ∧
    Sys.next g t l = some u ∧ Sys.Marks g j t l u ∧
    Along (Sys.next g) (Sys.KeepsDown g j) u back

/-- A lawful step brings up no node that is marked after it, and marks a node on account
of a provider only. -/
theorem Sys.marks_of_next {s t : Sys n} {l : Label n}
    (hkept : s.InFlight fun c w => w.timedOut = false → Kept c w) (hl : s.Lawful g l)
    (hno : t.world.timedOut = false) (hstep : Sys.next g s l = some t) {j : Fin n}
    (hj : t.world.flag j .boundStopped = true) :
    (t.world.flag j .running = true → s.world.flag j .running = true) ∧
      (s.world.flag j .boundStopped = true ∨ Sys.Marks g j s l t) := by
  have hno' := World.timedOut_of_suffix (Sys.log_suffix hstep) hno
  have of_marking : s.world.Marking t.world →
      (t.world.flag j .running = true → s.world.flag j .running = true) ∧
        (s.world.flag j .boundStopped = true ∨ Sys.Marks g j s l t) :=
    fun h => ⟨h.raised j hj, (h.marked j hj).imp_right Or.inr⟩
  cases Sys.next_cases hstep with
  | @begin v c w _ heq =>
      have hbegun := begin_cases g s.world v
      rw [heq] at hbegun
      rcases hbegun.marking hl.2 with hmarking | ⟨wave, rfl, _, _, hmark, hchosen⟩
      · exact of_marking hmarking
      · refine ⟨fun hrun => ?_, ?_⟩
        · rwa [hmark.flag j .running (by decide)] at hrun
        · rw [hmark.bound j, Bool.or_eq_true, hchosen j] at hj
          exact hj.symm.imp_right fun hstops => Or.inl ⟨rfl, hstops⟩
  | @advance i c c' w _ hcall hcarry =>
      have hlive : c.finished = false := by
        apply (Bool.not_eq_true _).mp
        intro hfinished
        simp [Call.step_of_finished hfinished] at hcarry
      have hclash : c.clashes g s.world = false := by
        simpa [Sys.clashes, hcall] using hl.2
      exact of_marking ((Call.step_cases hcarry).marking ((hkept.last hcall hlive).1 hno') hclash)
  | task _ happly => exact of_marking (TaskEvent.apply_cases happly).marking
  | setDisabled =>
      exact of_marking (.of_flags (by rintro i k (rfl | rfl) <;> simp [flag_setDisabled]))
  | cancel => exact hl.1.elim

/-- **Every mark has its cause in the run.** -/
theorem downForProvider_of_exec {s s' : Sys n} {labels : List (Label n)}
    (hcalls : s.calls = []) (hfree : ∀ j, s.world.flag j .boundStopped = false)
    (halong : Along (Sys.next g) (Sys.Lawful g) s labels)
    (hrun : exec (Sys.next g) s labels = some s') (hno : s'.world.timedOut = false) {j : Fin n}
    (hj : s'.world.flag j .boundStopped = true) : DownForProvider g s labels j := by
  refine exec_invariant_history (I := fun front t => Along (Sys.next g) (Sys.Lawful g) s front →
    t.world.timedOut = false → t.world.flag j .boundStopped = true →
      DownForProvider g s front j) ?_ ?_ hrun halong hno hj
  · intro _ _ hmarked
    simp [hfree j] at hmarked
  · intro front t l u hfront ih hstep halong hno hmarked
    obtain ⟨hbefore, hlast⟩ := along_append.mp halong
    have hkept := kept_of_exec hcalls hfree hbefore hfront
    obtain ⟨hraised, hcause⟩ :=
      Sys.marks_of_next hkept (hlast t hfront).1 hno hstep hmarked
    rcases hcause with hold | hmarks
    · obtain ⟨first, m, back, v, x, hcut, hexec, hmark, hmarks, hdown⟩ :=
        ih hbefore (World.timedOut_of_suffix (Sys.log_suffix hstep) hno) hold
      refine ⟨first, m, back ++ [l], v, x, by simp [hcut], hexec, hmark, hmarks, ?_⟩
      refine along_append.mpr ⟨hdown, fun y hy => ⟨fun z hz hrun => ?_, fun _ _ => trivial⟩⟩
      -- The run from the marking step ends in `t`, where `l` is taken.
      obtain rfl : y = t := by
        rw [hcut] at hfront
        obtain ⟨v', x', hv', hx', hback⟩ := exec_append_cons.mp hfront
        obtain rfl : v' = v := Option.some.inj (hv'.symm.trans hexec)
        obtain rfl : x' = x := Option.some.inj (hx'.symm.trans hmark)
        exact Option.some.inj (hy.symm.trans hback)
      obtain rfl : z = u := Option.some.inj (hz.symm.trans hstep)
      exact hraised hrun
    · exact ⟨front, l, [], t, u, rfl, hfront, hstep, hmarks, trivial⟩

/-! ## The condition is sharp -/

theorem running_resumeAll {w : World n} {js : List (Fin n)} {j : Fin n}
    (h : (j ∈ js ∧ (g.nodes j).any (w.resumable · j) = true) ∨ w.flag j .running = true) :
    (g.resumeAll w js).flag j .running = true := by
  induction js generalizing w with
  | nil => simpa [Graph.resumeAll] using h
  | cons i js ih =>
      show (g.resumeAll (if (g.nodes i).any fun cfg => w.resumable cfg i then w.resume i
        else w) js).flag j .running = true
      apply ih
      by_cases hji : j = i
      · subst hji
        refine Or.inr ?_
        split
        case isTrue => simp
        case isFalse hpick => exact h.resolve_left fun hsel => hpick hsel.2
      · have hmem : j ∈ i :: js → j ∈ js := fun hj => (List.mem_cons.mp hj).resolve_left hji
        split
        case isTrue =>
          have hsame : ∀ k, (w.resume i).flag j k = w.flag j k := fun k => by simp [hji]
          have hacked : (w.resume i).hasAckedStop j = w.hasAckedStop j := by
            rw [Bool.eq_iff_iff, World.hasAckedStop_iff, World.hasAckedStop_iff, hsame, hsame]
          simp only [World.resumable, hsame, hacked]
          exact h.imp_left (And.imp_left hmem)
        case isFalse => exact h.imp_left (And.imp_left hmem)

/-- A call about to clash does. -/
theorem Call.clash_of_clashes {w w' : World n} {c c' : Call n} (hclash : c.clashes g w = true)
    (hstep : c.step g w = some (c', w')) : ∃ j, w'.clash j = true := by
  cases c with
  | starting s poke =>
      simp only [clashes, StartWave.marksBound] at hclash
      split at hclash
      case h_1 j todo round hpc =>
        simp only [Bool.and_eq_true, Bool.not_eq_true', bne_iff_ne, ne_eq, Option.any_eq_true]
          at hclash
        obtain ⟨⟨⟨⟨hpending, cfg, hcfg, hspawn⟩, hdeps⟩, harmed⟩, hbound⟩ := hclash
        have hspawn : cfg.spawn = none := Option.isNone_iff_eq_none.mp hspawn
        have hmark : w.markStarted j = w' := by
          simp only [step, hpc, StartWave.step, StartWave.visit, hpending, hcfg, hdeps, harmed,
            StartWave.bringUp, hspawn, Bool.not_true, Bool.false_eq_true, if_false, beq_iff_eq,
            Option.map_some, Option.some.injEq, Prod.mk.injEq] at hstep
          exact hstep.2
        exact ⟨j, by simp [World.clash, ← hmark, hbound, Flag.stale]⟩
      case h_2 | h_3 | h_4 | h_5 | h_6 => simp at hclash
  | startNode j phase next =>
      simp only [clashes, Bool.and_eq_true, Option.any_eq_true] at hclash
      obtain ⟨hrun, cfg, hcfg, hgives⟩ := hclash
      obtain ⟨cfg', hcfg', hstep⟩ := Option.bind_eq_some_iff.mp hstep
      obtain rfl : cfg' = cfg := Option.some.inj (hcfg'.symm.trans hcfg)
      obtain ⟨sp, _, hstep⟩ := Option.bind_eq_some_iff.mp hstep
      obtain ⟨⟨e, u⟩, hpoll, hstep⟩ := Option.bind_eq_some_iff.mp hstep
      cases hstep
      cases phase with
      | gate c rest deadline =>
          simp only [StartPhase.givesUp, Bool.and_eq_true, decide_eq_true_eq,
            Bool.not_eq_true'] at hgives
          obtain ⟨⟨hdue, hunsat⟩, hbound⟩ := hgives
          have hstill := Gate.still_takeLatch w c
          have hput : ∀ {w₁ : World n}, w.Still w₁ →
              some (w₁.gateFault cfg' j c.fault) = some (e, w') → w'.clash j = true := by
            intro w₁ hw heq
            simp only [World.gateFault, hbound, if_true, Option.some.injEq, Prod.mk.injEq] at heq
            simp [World.clash, ← heq.2, hw.flag, hrun]
          refine ⟨j, ?_⟩
          simp only [World.startNodeStep, Gate.satisfied_takeLatch, hstill.now, hdue,
            if_true] at hpoll
          by_cases hlatch : c.latched w = true
          · have hsat : c.satisfied w = false := by simpa [hlatch] using hunsat
            simp only [hlatch, hsat, if_true, Bool.false_eq_true, if_false] at hpoll
            exact hput hstill hpoll
          · rw [if_neg hlatch] at hpoll
            exact hput (.refl w) hpoll
      | settle | pass | event | yield => simp [StartPhase.givesUp] at hgives
  | stopping | stopNode | bindUp | done | panic | cancelled => simp [clashes] at hclash

theorem Sys.clash_of_clashes {s t : Sys n} {l : Label n} (hclash : s.clashes g l = true)
    (hstep : Sys.next g s l = some t) : ∃ j, t.world.clash j = true := by
  have hbound : ∀ (w : World n) (js : List (Fin n)) (j : Fin n),
      (g.resumeAll w js).flag j .boundStopped = w.flag j .boundStopped :=
    fun w js j => flag_resumeAll js j rfl (by decide)
  cases Sys.next_cases hstep with
  | @begin v c w _ heq =>
      cases v with
      | resumeNode j =>
          simp only [clashes, Verb.clashes, World.resumesMarked, Bool.and_eq_true] at hclash
          obtain ⟨hpause, hpick, hmarked⟩ := hclash
          have hresume : s.world.resume j = w := by
            simp only [Graph.begin, hpause, hpick, Bool.and_self, if_true, Prod.mk.injEq] at heq
            exact heq.2
          exact ⟨j, by simp [World.clash, ← hresume, hmarked, Flag.stale]⟩
      | resumePausable =>
          simp only [clashes, Verb.clashes, World.resumesMarked, Bool.and_eq_true,
            List.any_eq_true] at hclash
          obtain ⟨hpause, j, _, hpick, hmarked⟩ := hclash
          have hresume : g.resumeAll s.world g.order = w := by
            simp only [Graph.begin, hpause, if_true, Prod.mk.injEq] at heq
            exact heq.2
          refine ⟨j, Bool.and_eq_true_iff.mpr ⟨?_, ?_⟩⟩
          · rw [← hresume]
            exact running_resumeAll (Or.inl ⟨g.mem_order j, hpick⟩)
          · rw [← hresume]
            exact (hbound _ _ _).trans hmarked
      | start | startNode | stopNode | teardown | teardownContinue | respawnTerminate
      | deactivate | activate | restart | applyBind | scale =>
          simp [clashes, Verb.clashes] at hclash
  | @advance i c c' w _ hcall hcarry =>
      simp only [clashes, hcall, Option.any_some] at hclash
      exact Call.clash_of_clashes hclash hcarry
  | task | setDisabled | cancel => simp [clashes] at hclash

/-- **The law of the bound stop.** Where nothing is marked to begin with, calls are made
one after the other, no step clashes and no acknowledgement is missed: once the calls
have returned, no node is both marked and running; and whatever the second phase of
`apply_bind` is about to bring back was taken down, or put off, on account of a bound
provider and not brought up since. A step that clashes breaks the law. -/
theorem bound_stop_law (g : Graph n) {s s' : Sys n} {labels : List (Label n)}
    (hcalls : s.calls = []) (hfree : ∀ j, s.world.flag j .boundStopped = false)
    (halong : Along (Sys.next g) (Sys.Lawful g) s labels)
    (hrun : exec (Sys.next g) s labels = some s') (hno : s'.world.timedOut = false) :
    ((∀ c ∈ s'.calls, c.finished = true) →
      ∀ j, ¬ (s'.world.flag j .running = true ∧ s'.world.flag j .boundStopped = true)) ∧
    (∀ (i : ℕ) (j : Fin n) (todo : List (Fin n)) (cfg : NodeCfg n),
      s'.calls[i]? = some (.bindUp (j :: todo)) → g.nodes j = some cfg →
      s'.world.bindable cfg j = true → DownForProvider g s labels j) ∧
    ∀ l t, s'.clashes g l = true → Sys.next g s' l = some t → ∃ j, t.world.clash j = true := by
  refine ⟨fun hfinished j hj => ?_, fun _ j _ _ _ _ hbind => ?_,
    fun l t hclash hstep => Sys.clash_of_clashes hclash hstep⟩
  · obtain ⟨c, hkept, hlast⟩ := (kept_of_exec hcalls hfree halong hrun).finished hfinished
    have := (hkept hno).apart j (Bool.and_eq_true_iff.mpr hj)
    simp [Call.stopsBound_of_finished hlast] at this
  · exact downForProvider_of_exec hcalls hfree halong hrun hno (World.bindable_iff.mp hbind).1

/-- Boot, a link that becomes ready and withdraws, and the client parked for it. -/
def clientParkedForLink : List (Label 2) :=
  pausingClientBoot ++ [.task (.setReady 0)] ++ List.replicate 5 (.advance 0) ++
    [.task (.clearReady 0), .begin .applyBind] ++ List.replicate 9 (.advance 1) ++
    [.task (.ackDropped 1)] ++ List.replicate 11 (.advance 1)

/-- The end of that run. -/
def clientParked : Option (Sys 2) :=
  exec (Sys.next pausingClient) pausingClientDown clientParkedForLink

theorem bound_stop_law_pausingClient :
    (clientParked.get rfl).world.flag 1 .boundStopped = true ∧
      (clientParked.get rfl).world.flag 1 .running = false := by
  have hrun : exec (Sys.next pausingClient) pausingClientDown clientParkedForLink =
      some (clientParked.get rfl) := (Option.some_get _).symm
  have hlaw := (bound_stop_law pausingClient rfl (fun _ => rfl) (by decide) hrun rfl).1
    (by decide)
  refine ⟨rfl, (Bool.not_eq_true _).mp fun hup => ?_⟩
  exact hlaw 1 ⟨hup, rfl⟩

/-- The application resumes the parked client by hand. -/
def clientResumedByHand : Option (Sys 2) :=
  exec (Sys.next pausingClient) pausingClientDown (clientParkedForLink ++ [.begin (.resumeNode 1)])

/-- After `resume_node` the client runs and is still marked. -/
theorem clash_of_resume_node :
    ¬ ∀ (labels : List (Label 2)) (s : Sys 2),
      Along (Sys.next pausingClient) Sys.Sequential pausingClientDown labels →
      exec (Sys.next pausingClient) pausingClientDown labels = some s →
      (∀ c ∈ s.calls, c.finished = true) → s.world.timedOut = false →
      ∀ j, ¬ (s.world.flag j .running = true ∧ s.world.flag j .boundStopped = true) := by
  intro h
  exact h _ (clientResumedByHand.get rfl) (by decide) (Option.some_get _).symm (by decide) rfl
    1 ⟨rfl, rfl⟩

end EmbassySupervisor
