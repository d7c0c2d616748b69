/-
# Nobody but the driver reads the scale request

The scale request is posted by many and read by the pool driver alone. A wave, a call or a
task event does the same with the request pending as without, and leaves states that
differ in the request at most: `begin_shift`, `step_shift` and `apply_withReq`.

What a graph without pools makes of the requests is the business of its driver.
-/

import EmbassySupervisor.Verb.Call

namespace EmbassySupervisor

variable {n : ℕ}

/-- A function of either branch, where the two conditions say the same. -/
theorem ite_eq_apply {α β : Type} (f : α → β) {p q : Prop} [Decidable p] [Decidable q] {a b : α}
    {a' b' : β} (h : p ↔ q) (ha : a' = f a) (hb : b' = f b) :
    (if p then a' else b') = f (if q then a else b) := by
  by_cases hq : q
  · rw [if_pos hq, if_pos (h.mpr hq), ha]
  · rw [if_neg hq, if_neg (h.not.mpr hq), hb]

/-! ## Single operations -/

namespace World

/-- The state with the scale request pending, or not. -/
def withReq (req : Bool) (w : World n) : World n := { w with scaleReq := req }

/-- The same next to a result. -/
def shift {α : Type} (req : Bool) (p : α × World n) : α × World n := (p.1, p.2.withReq req)

variable (req : Bool) (w : World n) (j : Fin n)

theorem releaseClaims_withReq (cfg : NodeCfg n) :
    (w.withReq req).releaseClaims cfg j = (w.releaseClaims cfg j).withReq req :=
  ite_eq_apply (withReq req) Iff.rfl rfl rfl

theorem missAck_withReq (g : Graph n) (cfg : NodeCfg n) :
    (w.withReq req).missAck g cfg j = (w.missAck g cfg j).withReq req := by
  have hclaims : (if g.has .claims then (w.withReq req).releaseClaims cfg j else w.withReq req) =
      (if g.has .claims then w.releaseClaims cfg j else w).withReq req :=
    ite_eq_apply (withReq req) Iff.rfl (releaseClaims_withReq req w j cfg) rfl
  rw [missAck, hclaims]
  rfl

theorem signalResume_withReq :
    (w.withReq req).signalResume j = (w.signalResume j).withReq req :=
  ite_eq_apply (withReq req) Iff.rfl rfl rfl

theorem resume_withReq : (w.withReq req).resume j = (w.resume j).withReq req := by
  have hsignal := signalResume_withReq req (w.reset j) j
  exact congrArg (fun u => (u.setRunning j true).note j .resumed) hsignal

theorem launch_withReq (sp : Spawn) :
    (w.withReq req).launch sp j = (w.launch sp j).withReq req := by
  cases sp with
  | fn => rfl
  | task =>
      have hshell : (if (w.withReq req).flag j .resident then
            (w.withReq req).onNode j TaskHandle.svStart
          else (w.withReq req).putFlag j .resident true) =
          (if w.flag j .resident then w.onNode j TaskHandle.svStart
            else w.putFlag j .resident true).withReq req :=
        ite_eq_apply (withReq req) Iff.rfl rfl rfl
      exact congrArg (fun u => (u.setInst j .up).record (.spawned j)) hshell

theorem spawn_withReq (cfg : NodeCfg n) (sp : Spawn) :
    (w.withReq req).spawn cfg sp j = (w.spawn cfg sp j).map (withReq req) :=
  ite_eq_apply (Option.map (withReq req)) Iff.rfl (congrArg some (launch_withReq req w j sp)) rfl

theorem releaseProvided_withReq (cfg : NodeCfg n) :
    (w.withReq req).releaseProvided cfg j = (w.releaseProvided cfg j).withReq req := by
  have hclear (gates : List ℕ) (u : World n) :
      gates.foldl clearGate (u.withReq req) = (gates.foldl clearGate u).withReq req := by
    induction gates generalizing u with
    | nil => rfl
    | cons r gates ih => exact ih (u.clearGate r)
  rw [releaseProvided, releaseProvided]
  cases cfg.mode with
  | pause => rfl
  | terminate | onDemand =>
      show (cfg.provides.foldl clearGate (w.withReq req)).releaseClaims cfg j = _
      rw [hclear, releaseClaims_withReq]

theorem ackDropped_withReq (cfg : NodeCfg n) :
    (w.withReq req).ackDropped cfg j = (w.ackDropped cfg j).withReq req := by
  rw [ackDropped, releaseProvided_withReq]
  rfl

theorem markExited_withReq (cfg : NodeCfg n) :
    (w.withReq req).markExited cfg j = (w.markExited cfg j).withReq req := by
  rw [markExited, releaseProvided_withReq]
  rfl

theorem recordBoundStops_withReq (chosen : Fin n → Bool) (js : List (Fin n)) :
    (w.withReq req).recordBoundStops chosen js = (w.recordBoundStops chosen js).withReq req := by
  rw [recordBoundStops, recordBoundStops]
  induction js.filter chosen generalizing w with
  | nil => rfl
  | cons j js ih => exact ih (w.record (.boundStop j))

end World

/-! ## Waves -/

section Waves

variable (g : Graph n) (req : Bool) (w : World n) (j : Fin n)

theorem StopWave.step_shift (s : StopWave n) :
    s.step g (w.withReq req) = (s.step g w).map (World.shift req) := by
  rw [StopWave.step, StopWave.step]
  cases s.pc with
  | signal todo =>
      cases todo with
      | nil => rfl
      | cons j todo =>
          refine congrArg some ?_
          refine ite_eq_apply (World.shift req) Iff.rfl ?_ rfl
          cases g.nodes j <;> rfl
  | collect todo progress =>
      cases todo with
      | nil =>
          refine ite_eq_apply (Option.map (World.shift req)) Iff.rfl rfl ?_
          exact ite_eq_apply (Option.map (World.shift req)) Iff.rfl rfl rfl
      | cons j todo =>
          refine congrArg some ?_
          refine ite_eq_apply (World.shift req) Iff.rfl ?_ rfl
          cases g.nodes j with
          | none => rfl
          | some cfg => exact ite_eq_apply (World.shift req) Iff.rfl rfl rfl
  | expire todo nowMs deadline progress =>
      cases todo with
      | nil =>
          refine ite_eq_apply (Option.map (World.shift req)) Iff.rfl rfl ?_
          cases deadline <;> rfl
      | cons j todo =>
          refine congrArg some ?_
          refine ite_eq_apply (World.shift req) Iff.rfl ?_ rfl
          cases g.nodes j with
          | none => rfl
          | some cfg =>
              refine ite_eq_apply (World.shift req) Iff.rfl rfl ?_
              refine ite_eq_apply (World.shift req) Iff.rfl ?_ ?_
              · exact Prod.ext rfl (World.missAck_withReq req w j g cfg)
              · exact Prod.ext rfl (World.missAck_withReq req w j g cfg)
  | sleep d =>
      refine ite_eq_apply (Option.map (World.shift req)) Iff.rfl rfl ?_
      exact ite_eq_apply (Option.map (World.shift req)) Iff.rfl rfl rfl
  | panic | done => rfl

variable (s : StartWave n) (cfg : NodeCfg n) (todo : List (Fin n)) (round : Round)

theorem StartWave.unsatisfied_shift (kind : FaultKind n) :
    s.unsatisfied g (w.withReq req) cfg kind j todo round =
      World.shift req (s.unsatisfied g w cfg kind j todo round) := by
  refine ite_eq_apply (World.shift req) Iff.rfl ?_ rfl
  exact ite_eq_apply (World.shift req) Iff.rfl rfl rfl

theorem StartWave.attempt_shift (sp : Spawn) :
    s.attempt g (w.withReq req) cfg sp j todo round =
      World.shift req (s.attempt g w cfg sp j todo round) := by
  have hreset : (w.withReq req).reset j = (w.reset j).withReq req := rfl
  have hspawn := World.spawn_withReq req (w.reset j) j cfg sp
  simp only [StartWave.attempt, hreset, hspawn]
  cases (w.reset j).spawn cfg sp j with
  | some u => rfl
  | none =>
      refine ite_eq_apply (World.shift req) Iff.rfl ?_ ?_
      · exact StartWave.unsatisfied_shift g req (w.reset j) j s cfg todo round .spawn
      · cases cfg.spawnSlot <;> rfl

theorem StartWave.bringUp_shift :
    s.bringUp g (w.withReq req) cfg j todo round =
      World.shift req (s.bringUp g w cfg j todo round) := by
  have hblocked : g.blockedBy (w.withReq req) cfg j = g.blockedBy w cfg j := rfl
  rw [StartWave.bringUp, StartWave.bringUp, hblocked]
  cases cfg.spawn with
  | none => rfl
  | some sp =>
      cases g.blockedBy w cfg j with
      | none => exact StartWave.attempt_shift g req w j s cfg todo round sp
      | some kind =>
          refine ite_eq_apply (World.shift req) Iff.rfl rfl ?_
          exact StartWave.unsatisfied_shift g req w j s cfg todo round kind

theorem StartWave.visit_shift :
    s.visit g (w.withReq req) j todo round = World.shift req (s.visit g w j todo round) := by
  refine ite_eq_apply (World.shift req) Iff.rfl rfl ?_
  cases g.nodes j with
  | none => rfl
  | some cfg =>
      refine ite_eq_apply (World.shift req) Iff.rfl rfl ?_
      refine ite_eq_apply (World.shift req) Iff.rfl ?_ ?_
      · refine ite_eq_apply (World.shift req) Iff.rfl ?_ rfl
        refine Prod.ext rfl ?_
        exact congrArg (·.putFlag j .boundStopped false) (World.resume_withReq req w j)
      · exact StartWave.bringUp_shift g req w j s cfg todo round

theorem StartWave.step_shift :
    s.step g (w.withReq req) = (s.step g w).map (World.shift req) := by
  rw [StartWave.step, StartWave.step]
  cases s.pc with
  | visit todo round =>
      cases todo with
      | cons j todo => exact congrArg some (StartWave.visit_shift g req w j s todo round)
      | nil =>
          refine ite_eq_apply (Option.map (World.shift req)) Iff.rfl rfl ?_
          refine ite_eq_apply (Option.map (World.shift req)) Iff.rfl rfl ?_
          refine ite_eq_apply (Option.map (World.shift req)) Iff.rfl rfl ?_
          cases s.deadlineMs g <;> rfl
  | yield => rfl
  | sleep d =>
      refine ite_eq_apply (Option.map (World.shift req)) Iff.rfl rfl ?_
      exact ite_eq_apply (Option.map (World.shift req)) Iff.rfl rfl rfl
  | panic | done => rfl

end Waves

/-! ## Single nodes -/

section One

variable (g : Graph n) (req : Bool) (w : World n) (cfg : NodeCfg n) (sp : Spawn) (j : Fin n)

theorem World.gateFault_shift (kind : FaultKind n) :
    (w.withReq req).gateFault cfg j kind = World.shift req (w.gateFault cfg j kind) :=
  ite_eq_apply (World.shift req) Iff.rfl rfl rfl

theorem World.spawnAttempt_shift (deadline : ℕ) :
    (w.withReq req).spawnAttempt cfg sp j deadline =
      World.shift req (w.spawnAttempt cfg sp j deadline) := by
  have hreset : (w.withReq req).reset j = (w.reset j).withReq req := rfl
  have hspawn := World.spawn_withReq req (w.reset j) j cfg sp
  simp only [World.spawnAttempt, hreset, hspawn]
  cases (w.reset j).spawn cfg sp j with
  | some u => rfl
  | none =>
      refine ite_eq_apply (World.shift req) Iff.rfl rfl ?_
      cases cfg.spawnSlot with
      | none => rfl
      | some slot => exact ite_eq_apply (World.shift req) Iff.rfl rfl rfl

theorem World.awaitSettled_shift (deadline : ℕ) :
    (w.withReq req).awaitSettled cfg sp j deadline =
      World.shift req (w.awaitSettled cfg sp j deadline) := by
  refine ite_eq_apply (World.shift req) Iff.rfl (spawnAttempt_shift req w cfg sp j deadline) ?_
  exact ite_eq_apply (World.shift req) Iff.rfl rfl rfl

theorem Gate.takeLatch_withReq (c : Gate n) :
    c.takeLatch (w.withReq req) = (c.takeLatch w).withReq req := by
  cases c <;> rfl

theorem Gate.satisfied_withReq (c : Gate n) : c.satisfied (w.withReq req) = c.satisfied w := by
  cases c <;> rfl

theorem Gate.latched_withReq (c : Gate n) : c.latched (w.withReq req) = c.latched w := by
  cases c <;> rfl

theorem World.awaitGates_shift (gates : List (Gate n)) :
    (w.withReq req).awaitGates cfg sp j gates = World.shift req (w.awaitGates cfg sp j gates) := by
  have hsat : Gate.satisfied (w.withReq req) = Gate.satisfied w :=
    funext (Gate.satisfied_withReq req w)
  rw [World.awaitGates, World.awaitGates, hsat]
  cases gates.dropWhile (Gate.satisfied w) with
  | nil => exact awaitSettled_shift req w cfg sp j _
  | cons c rest => exact Prod.ext rfl (Gate.takeLatch_withReq req w c)

theorem World.startNodeStep_shift (phase : StartPhase n) :
    (w.withReq req).startNodeStep cfg sp j phase =
      (w.startNodeStep cfg sp j phase).map (World.shift req) := by
  cases phase with
  | gate c rest deadline =>
      have hlatched := Gate.latched_withReq req w c
      have hsat : c.satisfied (c.takeLatch (w.withReq req)) = c.satisfied (c.takeLatch w) := by
        rw [Gate.takeLatch_withReq, Gate.satisfied_withReq]
      have htake := Gate.takeLatch_withReq req w c
      have hnow : (c.takeLatch (w.withReq req)).now = (c.takeLatch w).now := by
        rw [htake]
        rfl
      refine ite_eq_apply (Option.map (World.shift req)) (by rw [hlatched]) ?_ ?_
      · refine ite_eq_apply (Option.map (World.shift req)) (by rw [hsat]) ?_ ?_
        · rw [htake, awaitGates_shift]
          rfl
        · refine ite_eq_apply (Option.map (World.shift req)) (by rw [hnow]) ?_ ?_
          · rw [htake, gateFault_shift]
            rfl
          · rw [htake]
            rfl
      · refine ite_eq_apply (Option.map (World.shift req)) Iff.rfl ?_ rfl
        rw [gateFault_shift]
        rfl
  | settle deadline =>
      refine ite_eq_apply (Option.map (World.shift req)) Iff.rfl ?_ ?_
      · exact congrArg some (awaitSettled_shift req { w with gateEvt := false } cfg sp j deadline)
      · refine ite_eq_apply (Option.map (World.shift req)) Iff.rfl ?_ rfl
        exact congrArg some (awaitSettled_shift req w cfg sp j deadline)
  | pass seen deadline =>
      refine ite_eq_apply (Option.map (World.shift req)) Iff.rfl ?_ rfl
      refine ite_eq_apply (Option.map (World.shift req)) Iff.rfl ?_ rfl
      exact congrArg some (spawnAttempt_shift req { w with gateEvt := false } cfg sp j deadline)
  | event deadline =>
      refine ite_eq_apply (Option.map (World.shift req)) Iff.rfl ?_ rfl
      exact congrArg some (spawnAttempt_shift req { w with gateEvt := false } cfg sp j deadline)
  | yield deadline => exact congrArg some (spawnAttempt_shift req w cfg sp j deadline)

theorem Graph.startNode_shift :
    g.startNode (w.withReq req) j = World.shift req (g.startNode w j) := by
  rw [Graph.startNode, Graph.startNode]
  cases g.nodes j with
  | none => rfl
  | some cfg =>
      cases hspawn : cfg.spawn with
      | none => simp only [hspawn]; rfl
      | some sp =>
          simp only [hspawn]
          exact World.awaitGates_shift req ((w.putFlag j .collateral false).note j .spawning) cfg
            sp j (g.gatesOf cfg)

theorem World.stopNode_shift :
    (w.withReq req).stopNode cfg j = World.shift req (w.stopNode cfg j) := by
  refine ite_eq_apply (World.shift req) Iff.rfl rfl ?_
  exact ite_eq_apply (World.shift req) Iff.rfl rfl rfl

theorem World.stopNodeStep_shift (deadline : ℕ) :
    (w.withReq req).stopNodeStep g cfg j deadline =
      (w.stopNodeStep g cfg j deadline).map (World.shift req) := by
  refine ite_eq_apply (Option.map (World.shift req)) Iff.rfl rfl ?_
  refine ite_eq_apply (Option.map (World.shift req)) Iff.rfl ?_ rfl
  exact congrArg some (Prod.ext rfl (World.missAck_withReq req w j g cfg))

end One

/-! ## Front halves -/

section Front

variable (g : Graph n) (req : Bool) (w : World n)

theorem Graph.resumeAll_withReq (js : List (Fin n)) :
    g.resumeAll (w.withReq req) js = (g.resumeAll w js).withReq req := by
  rw [Graph.resumeAll, Graph.resumeAll]
  induction js generalizing w with
  | nil => rfl
  | cons j js ih =>
      have hhead : (if (g.nodes j).any fun cfg => (w.withReq req).resumable cfg j then
            (w.withReq req).resume j else w.withReq req) =
          (if (g.nodes j).any fun cfg => w.resumable cfg j then w.resume j else w).withReq req :=
        ite_eq_apply (World.withReq req) Iff.rfl (World.resume_withReq req w j) rfl
      rw [List.foldl_cons, List.foldl_cons, hhead, ih]

theorem Graph.countRestart_shift (j : Fin n) :
    g.countRestart (w.withReq req) j = World.shift req (g.countRestart w j) := by
  rw [Graph.countRestart, Graph.countRestart]
  cases (g.nodes j).bind (·.restartBudget) with
  | none => rfl
  | some budget =>
      refine ite_eq_apply (World.shift req) Iff.rfl rfl ?_
      exact ite_eq_apply (World.shift req) Iff.rfl rfl rfl

theorem Graph.begin_stopNode_shift (j : Fin n) : g.begin (w.withReq req) (.stopNode j) =
    World.shift req (g.begin w (.stopNode j)) := by
  rw [Graph.begin, Graph.begin]
  cases g.nodes j with
  | none => rfl
  | some cfg =>
      simp only [World.stopNode_shift]
      obtain ⟨deadline, u⟩ := w.stopNode cfg j
      cases deadline <;> rfl

/-- **The front half of a verb does not look at the request.** -/
theorem Graph.begin_shift (v : Verb n) :
    g.begin (w.withReq req) v = World.shift req (g.begin w v) := by
  cases v with
  | start | teardown | teardownContinue | respawnTerminate | deactivate | activate => rfl
  | stopNode j => exact g.begin_stopNode_shift req w j
  | startNode j =>
      rw [Graph.begin, Graph.startNode_shift]
      rfl
  | resumeNode j =>
      refine ite_eq_apply (World.shift req) Iff.rfl ?_ rfl
      exact Prod.ext rfl (World.resume_withReq req w j)
  | resumePausable =>
      refine ite_eq_apply (World.shift req) Iff.rfl ?_ rfl
      exact Prod.ext rfl (g.resumeAll_withReq req w g.order)
  | restart target =>
      rw [Graph.begin, Graph.begin, Graph.countRestart_shift]
      obtain ⟨counted, u⟩ := g.countRestart w target
      cases counted <;> rfl
  | applyBind =>
      refine ite_eq_apply (World.shift req) Iff.rfl ?_ rfl
      exact Prod.ext rfl (World.recordBoundStops_withReq req (g.stopNodes w (fun j h =>
        if g.boundStopping w j then (true, h.flagPut .boundStopped true) else (false, h))
          false).2 _ g.order.reverse)
  | scale pool action =>
      rw [Graph.begin, Graph.begin]
      cases g.pools[pool]? with
      | none => rfl
      | some members =>
          cases action with
          | none => rfl
          | grow =>
              have hsame : (g.poolMember members fun j => !(w.withReq req).flag j .running &&
                  !(w.withReq req).flag j .disabled && !(w.withReq req).flag j .collateral) =
                    g.poolMember members fun j =>
                      !w.flag j .running && !w.flag j .disabled && !w.flag j .collateral := rfl
              simp only [hsame]
              cases g.poolMember members fun j =>
                  !w.flag j .running && !w.flag j .disabled && !w.flag j .collateral with
              | none => rfl
              | some j =>
                  refine ite_eq_apply (World.shift req) Iff.rfl ?_ rfl
                  rw [Graph.startNode_shift]
                  rfl
          | shrink =>
              have hsame : (g.poolMember members fun j =>
                  (w.withReq req).flag j .running && !(w.withReq req).flag j .busy) =
                    g.poolMember members fun j => w.flag j .running && !w.flag j .busy := rfl
              simp only [hsame]
              cases g.poolMember members fun j => w.flag j .running && !w.flag j .busy with
              | none => rfl
              | some j => exact g.begin_stopNode_shift req w j

end Front

/-! ## Calls -/

/-- A result next to a state, and the same result next to a state that differs in the request
at most. -/
def SameCall (p q : Call n × World n) : Prop := q.1 = p.1 ∧ ∃ req, q.2 = p.2.withReq req

section Calls

variable {g : Graph n} {w : World n} {req : Bool}

theorem SameCall.of_shift (p : Call n × World n) : SameCall p (World.shift req p) :=
  ⟨rfl, req, rfl⟩

theorem sameCall_map {α : Type} {x y : Option (α × World n)} (f : α → Call n)
    (h : y = x.map (World.shift req)) :
    Option.Rel SameCall (x.map fun p => (f p.1, p.2)) (y.map fun p => (f p.1, p.2)) := by
  subst h
  cases x with
  | none => exact .none
  | some p => exact .some (SameCall.of_shift _)

theorem Graph.bindVisit_withReq (j : Fin n) (todo : List (Fin n)) :
    SameCall (g.bindVisit w j todo) (g.bindVisit (w.withReq req) j todo) := by
  rw [Graph.bindVisit, Graph.bindVisit]
  cases g.nodes j with
  | none => exact ⟨rfl, req, rfl⟩
  | some cfg =>
      show SameCall (if w.bindable cfg j then _ else _) (if w.bindable cfg j then _ else _)
      split
      · cases cfg.mode with
        | terminate =>
            simp only [Graph.startNode_shift]
            exact ⟨rfl, req, rfl⟩
        | pause =>
            simp only [World.resume_withReq]
            split
            · exact ⟨rfl, req, rfl⟩
            · exact ⟨rfl, req, rfl⟩
        | onDemand =>
            simp only
            split
            · exact ⟨rfl, true, rfl⟩
            · exact ⟨rfl, req, rfl⟩
      · exact ⟨rfl, req, rfl⟩

/-- **No step of a call looks at the request.** -/
theorem Call.step_withReq (c : Call n) :
    Option.Rel SameCall (c.step g w) (c.step g (w.withReq req)) := by
  cases c with
  | stopping wave next =>
      cases hpc : wave.pc with
      | done r =>
          simp only [Call.step, hpc]
          cases r with
          | some f => exact .some ⟨rfl, req, rfl⟩
          | none => cases next <;> exact .some ⟨rfl, req, rfl⟩
      | panic =>
          simp only [Call.step, hpc]
          exact .some ⟨rfl, req, rfl⟩
      | signal | collect | expire | sleep =>
          simp only [Call.step, hpc]
          exact sameCall_map (.stopping · next) (StopWave.step_shift g req w wave)
  | starting wave poke =>
      cases hpc : wave.pc with
      | done r =>
          simp only [Call.step, hpc]
          split
          · exact .some ⟨rfl, true, rfl⟩
          · exact .some ⟨rfl, req, rfl⟩
      | panic =>
          simp only [Call.step, hpc]
          exact .some ⟨rfl, req, rfl⟩
      | visit | yield | sleep =>
          simp only [Call.step, hpc]
          exact sameCall_map (.starting · poke) (StartWave.step_shift g req w wave)
  | startNode j phase next =>
      simp only [Call.step]
      cases g.nodes j with
      | none => exact .none
      | some cfg =>
          cases hspawn : cfg.spawn with
          | none =>
              simp only [hspawn, Option.bind_eq_bind, Option.bind_some, Option.bind_none]
              exact .none
          | some sp =>
              simp only [hspawn, Option.bind_eq_bind, Option.bind_some,
                World.startNodeStep_shift req w cfg sp j phase]
              cases w.startNodeStep cfg sp j phase with
              | none => exact .none
              | some p => exact .some ⟨rfl, req, rfl⟩
  | stopNode j deadline =>
      simp only [Call.step]
      cases g.nodes j with
      | none => exact .none
      | some cfg =>
          simp only [Option.bind_eq_bind, Option.bind_some,
            World.stopNodeStep_shift g req w cfg j deadline]
          cases w.stopNodeStep g cfg j deadline with
          | none => exact .none
          | some p => exact .some ⟨rfl, req, rfl⟩
  | bindUp todo =>
      cases todo with
      | nil => exact .some ⟨rfl, req, rfl⟩
      | cons j todo => exact .some (Graph.bindVisit_withReq j todo)
  | done | panic | cancelled => exact .none

end Calls

/-! ## Task events -/

/-- **No task event looks at the request.** -/
theorem TaskEvent.apply_withReq (g : Graph n) (w : World n) (req : Bool) (e : TaskEvent n) :
    Option.Rel (fun u v : World n => ∃ req', v = u.withReq req') (e.apply g w)
      (e.apply g (w.withReq req)) := by
  have same (u : World n) : Option.Rel (fun u v : World n => ∃ req', v = u.withReq req') (some u)
      (some (u.withReq req)) := .some ⟨req, rfl⟩
  have busy (j : Fin n) (b : Bool) : ∃ req', (w.withReq req).putBusy j b =
      (w.putBusy j b).withReq req' := by
    by_cases h : (w.flag j .busy != b) = true
    · refine ⟨true, ?_⟩
      rw [World.putBusy, World.putBusy, if_pos h]
      exact if_pos h
    · refine ⟨req, ?_⟩
      rw [World.putBusy, World.putBusy, if_neg h]
      exact if_neg h
  cases e with
  | ackDropped j =>
      rw [TaskEvent.apply, TaskEvent.apply]
      cases g.nodes j with
      | none => exact .none
      | some cfg =>
          simp only [Option.bind_eq_bind, Option.bind_some, World.ackDropped_withReq]
          show Option.Rel _ (if w.inst j = .absent then none else _)
            (if w.inst j = .absent then none else _)
          split
          · exact .none
          · exact same _
  | markExited j =>
      rw [TaskEvent.apply, TaskEvent.apply]
      cases g.nodes j with
      | none => exact .none
      | some cfg =>
          simp only [Option.bind_eq_bind, Option.bind_some, World.markExited_withReq]
          show Option.Rel _ (if w.inst j = .absent then none else _)
            (if w.inst j = .absent then none else _)
          split
          · exact .none
          · exact same _
  | appSpawn j =>
      rw [TaskEvent.apply, TaskEvent.apply]
      cases g.nodes j with
      | none => exact .none
      | some cfg =>
          simp only [Option.bind_eq_bind, Option.bind_some]
          split
          · exact same _
          · exact .none
  | park j =>
      show Option.Rel _ (if (w.flag j .resident && w.inst j == .absent) = true then _ else _)
        (if (w.flag j .resident && w.inst j == .absent) = true then _ else _)
      split
      · exact same _
      · exact .none
  | fencePass s =>
      show Option.Rel _ (if (w.slot s).fenceReq = true then _ else _)
        (if (w.slot s).fenceReq = true then _ else _)
      split
      · exact same _
      · exact .none
  | setReady j => exact .some ⟨true, rfl⟩
  | markBusy j => exact .some (busy j true)
  | markIdle j => exact .some (busy j false)
  | elapse | clearReady | setDetached | pollShutdown | takeResume | provide | take | clear
  | fillSlot | setRefused => exact same _

end EmbassySupervisor
