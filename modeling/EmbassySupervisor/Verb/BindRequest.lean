/-
# The bind request stays until it is taken

`BIND_REQ` is one latch that the tasks post and only `run_binds` takes. No verb touches it,
neither its front half (`bindReq_begin`) nor a step of it (`Call.bindReq_of_step`), and no
task event takes it (`TaskEvent.bindReq_of_apply`).
-/

import EmbassySupervisor.Verb.System

namespace EmbassySupervisor

variable {n : ℕ} {g : Graph n} {w w' : World n}

/-! ## The waves -/

@[simp]
theorem World.bindReq_launch (sp : Spawn) (j : Fin n) :
    (w.launch sp j).bindReq = w.bindReq := by
  cases sp with
  | fn => rfl
  | task =>
      unfold launch
      simp only
      split <;> rfl

@[simp]
theorem World.bindReq_resume (j : Fin n) : (w.resume j).bindReq = w.bindReq := by
  unfold resume signalResume
  simp only
  split <;> rfl

@[simp]
theorem World.bindReq_missAck (cfg : NodeCfg n) (j : Fin n) :
    (w.missAck g cfg j).bindReq = w.bindReq := by
  unfold missAck releaseClaims
  split
  · split <;> rfl
  · rfl

theorem bindReq_takeLatch (c : Gate n) : (c.takeLatch w).bindReq = w.bindReq := by
  cases c <;> rfl

theorem StopWave.Step.bindReq_eq {s s' : StopWave n} (h : s.Step g w s' w') :
    w'.bindReq = w.bindReq := by
  cases h with
  | giveUp | abort => simp
  | turn _ _ hw => rcases hw with rfl | rfl <;> rfl
  | signal | skip | collect | passOver | finish | examine => rfl

theorem StartWave.Step.bindReq_eq {s s' : StartWave n} (h : s.Step g w s' w') :
    w'.bindReq = w.bindReq := by
  cases h with
  | resume => exact World.bindReq_resume _
  | fault _ hw | abort _ hw => rcases hw with rfl | rfl <;> rfl
  | spawn => exact World.bindReq_launch _ _
  | busy _ _ hw => rcases hw with rfl | ⟨slot, rfl⟩ <;> rfl
  | turn _ hw => rcases hw with rfl | rfl <;> rfl
  | arm | mark | park | finish => rfl

/-! ## One node -/

section OneNode

variable {cfg : NodeCfg n} {sp : Spawn} {j : Fin n}

theorem bindReq_spawnAttempt (deadline : ℕ) :
    (w.spawnAttempt cfg sp j deadline).2.bindReq = w.bindReq := by
  unfold World.spawnAttempt
  cases hlaunch : (w.reset j).spawn cfg sp j with
  | some u =>
      simp only [hlaunch]
      obtain ⟨-, rfl⟩ := World.spawn_eq_some.mp hlaunch
      exact World.bindReq_launch sp j
  | none =>
      simp only [hlaunch]
      split
      · rfl
      · split
        · split <;> rfl
        · rfl

theorem bindReq_awaitSettled (deadline : ℕ) :
    (w.awaitSettled cfg sp j deadline).2.bindReq = w.bindReq := by
  unfold World.awaitSettled
  split
  · exact bindReq_spawnAttempt deadline
  · split <;> rfl

theorem bindReq_awaitGates (gates : List (Gate n)) :
    (w.awaitGates cfg sp j gates).2.bindReq = w.bindReq := by
  unfold World.awaitGates
  split
  · exact bindReq_awaitSettled _
  · exact bindReq_takeLatch _

theorem bindReq_gateFault (kind : FaultKind n) :
    (w.gateFault cfg j kind).2.bindReq = w.bindReq := by
  unfold World.gateFault
  split <;> rfl

theorem bindReq_startNodeStep {phase : StartPhase n} {e : StartEnd n}
    (h : w.startNodeStep cfg sp j phase = some (e, w')) : w'.bindReq = w.bindReq := by
  have of_eq : ∀ {x : StartEnd n × World n}, some x = some (e, w') → x.2.bindReq = w.bindReq →
      w'.bindReq = w.bindReq := by
    intro x heq hx
    rwa [Option.some.inj heq] at hx
  cases phase with
  | gate c rest deadline =>
      have hlatch : (c.takeLatch w).bindReq = w.bindReq := bindReq_takeLatch c
      simp only [World.startNodeStep] at h
      split at h
      · split at h
        · exact of_eq h ((bindReq_awaitGates rest).trans hlatch)
        · split at h
          · exact of_eq h ((bindReq_gateFault _).trans hlatch)
          · exact of_eq h hlatch
      · split at h
        · exact of_eq h (bindReq_gateFault _)
        · cases h
  | settle deadline =>
      simp only [World.startNodeStep] at h
      split at h
      · exact of_eq h (bindReq_awaitSettled deadline)
      · split at h
        · exact of_eq h (bindReq_awaitSettled deadline)
        · cases h
  | pass seen deadline =>
      simp only [World.startNodeStep] at h
      split at h
      · split at h
        · exact of_eq h (bindReq_spawnAttempt deadline)
        · exact of_eq h rfl
      · cases h
  | event deadline =>
      simp only [World.startNodeStep] at h
      split at h
      · exact of_eq h (bindReq_spawnAttempt deadline)
      · cases h
  | yield deadline => exact of_eq h (bindReq_spawnAttempt deadline)

end OneNode

theorem bindReq_startNode (g : Graph n) (w : World n) (j : Fin n) :
    (g.startNode w j).2.bindReq = w.bindReq := by
  unfold Graph.startNode
  split
  · rfl
  · simp only
    split
    · exact bindReq_awaitGates _
    · rfl

theorem bindReq_stopNode (w : World n) (cfg : NodeCfg n) (j : Fin n) :
    (w.stopNode cfg j).2.bindReq = w.bindReq := by
  unfold World.stopNode
  split
  · rfl
  · simp only
    split <;> rfl

/-! ## The verbs -/

theorem bindReq_resumeAll (js : List (Fin n)) : (g.resumeAll w js).bindReq = w.bindReq := by
  induction js generalizing w with
  | nil => rfl
  | cons j js ih =>
      refine (ih (w := if (g.nodes j).any (w.resumable · j) then w.resume j else w)).trans ?_
      split
      · exact World.bindReq_resume j
      · rfl

theorem bindReq_recordBoundStops (chosen : Fin n → Bool) (js : List (Fin n)) :
    (w.recordBoundStops chosen js).bindReq = w.bindReq := by
  unfold World.recordBoundStops
  induction js.filter chosen generalizing w with
  | nil => rfl
  | cons j js ih => exact ih (w := w.record (.boundStop j))

theorem bindReq_countRestart (g : Graph n) (w : World n) (j : Fin n) :
    (g.countRestart w j).2.bindReq = w.bindReq := by
  unfold Graph.countRestart
  split
  · rfl
  · simp only
    split
    · rfl
    · split <;> rfl

/-- **The front half of a verb does not touch the request.** -/
theorem bindReq_begin (g : Graph n) (w : World n) (v : Verb n) :
    (g.begin w v).2.bindReq = w.bindReq := by
  cases v with
  | start | teardown | teardownContinue | respawnTerminate | deactivate | activate => rfl
  | startNode j => exact bindReq_startNode g w j
  | stopNode j =>
      simp only [Graph.begin]
      split
      · rfl
      · next cfg _ =>
          have hstop := bindReq_stopNode w cfg j
          split
          · next u heq => rwa [heq] at hstop
          · next d u heq => rwa [heq] at hstop
  | resumeNode j =>
      simp only [Graph.begin]
      split
      · exact World.bindReq_resume j
      · rfl
  | resumePausable =>
      simp only [Graph.begin]
      split
      · exact bindReq_resumeAll _
      · rfl
  | restart target =>
      simp only [Graph.begin]
      have hcount := bindReq_countRestart g w target
      split
      · next u heq => rwa [heq] at hcount
      · next u heq =>
          rw [heq] at hcount
          exact hcount
  | applyBind =>
      simp only [Graph.begin]
      split
      · exact bindReq_recordBoundStops _ _
      · rfl
  | scale pool action =>
      simp only [Graph.begin]
      split
      · rfl
      · cases action with
        | none => rfl
        | grow =>
            simp only
            split
            · rfl
            · split
              · exact bindReq_startNode g w _
              · rfl
        | shrink =>
            simp only
            split
            · rfl
            · next j _ =>
                split
                · rfl
                · next cfg _ =>
                    have hstop := bindReq_stopNode w cfg j
                    split
                    · next u heq => rwa [heq] at hstop
                    · next d u heq => rwa [heq] at hstop

theorem bindReq_bindVisit (g : Graph n) (w : World n) (j : Fin n) (todo : List (Fin n)) :
    (g.bindVisit w j todo).2.bindReq = w.bindReq := by
  unfold Graph.bindVisit
  split
  · rfl
  · split
    · split
      · exact bindReq_startNode g w j
      · split
        · exact World.bindReq_resume j
        · rfl
      · simp only
        split <;> rfl
    · rfl

/-- **No step of a verb touches the request.** -/
theorem Call.bindReq_of_step {c c' : Call n} (h : c.step g w = some (c', w')) :
    w'.bindReq = w.bindReq := by
  have of_eq : ∀ {x : Call n × World n}, some x = some (c', w') → x.2.bindReq = w.bindReq →
      w'.bindReq = w.bindReq := by
    intro x heq hx
    rwa [Option.some.inj heq] at hx
  cases Call.step_cases h with
  | stopWave h => exact h.bindReq_eq
  | startWave h => exact h.bindReq_eq
  | @startDone s poke _ _ hpc =>
      simp only [Call.step, hpc] at h
      refine of_eq h ?_
      show (if poke && g.has .pools then w.requestScale else w).bindReq = w.bindReq
      split <;> rfl
  | startNode _ _ hpoll =>
      obtain ⟨sp, hpoll⟩ := hpoll
      exact bindReq_startNodeStep hpoll
  | ackNode => rfl
  | missNode => simp
  | @bindStart j todo | @bindUnmark j todo => exact of_eq h (bindReq_bindVisit g w j todo)
  | bindResume => exact World.bindReq_resume _
  | stopFault | stopDone | restartUp | bindPhase | stopPanic | startPanic | bindEnd
  | bindSkip => rfl

/-- **No task event takes the request.** -/
theorem TaskEvent.bindReq_of_apply {e : TaskEvent n} (h : e.apply g w = some w')
    (hreq : w.bindReq = true) : w'.bindReq = true := by
  have of_eq : ∀ {u : World n}, some u = some w' → u.bindReq = true → w'.bindReq = true := by
    intro u heq hu
    rwa [Option.some.inj heq] at hu
  cases e with
  | ackDropped j | markExited j =>
      obtain ⟨cfg, -, h⟩ := Option.bind_eq_some_iff.mp h
      split at h
      · cases h
      · exact of_eq h rfl
  | appSpawn j =>
      obtain ⟨cfg, -, h⟩ := Option.bind_eq_some_iff.mp h
      split at h
      · exact of_eq h hreq
      · cases h
  | park j | fencePass s =>
      simp only [apply] at h
      split at h
      · exact of_eq h hreq
      · cases h
  | setReady j | clearReady j => exact of_eq h rfl
  | markBusy j | markIdle j =>
      refine of_eq h ?_
      simp only [World.putBusy]
      split <;> exact hreq
  | elapse | setDetached | pollShutdown | takeResume | provide | take | clear | fillSlot
  | setRefused => exact of_eq h hreq

/-- **No step of the system takes the request.** -/
theorem Sys.bindReq_of_next {s t : Sys n} {l : Label n} (h : Sys.next g s l = some t)
    (hreq : s.world.bindReq = true) : t.world.bindReq = true := by
  cases Sys.next_cases h with
  | @begin v c w _ heq =>
      have hkept := bindReq_begin g s.world v
      rw [heq] at hkept
      exact hkept.trans hreq
  | advance _ _ hstep => exact (Call.bindReq_of_step hstep).trans hreq
  | task _ happly => exact TaskEvent.bindReq_of_apply happly hreq
  | setDisabled | cancel => exact hreq

end EmbassySupervisor
