/-
# What the verbs leave alone

A verb writes flags, latches, slots, instances and the history. A part of the shared
state that depends on none of these is a `Frame`, and no front half of a verb and no step
of a call changes it: `begin_eq` and `step_eq`. Two exceptions stand in their statements.
`restart` counts itself in the handle of its target, and a verb may post the scale
request.

The scale request and the budget counters are the two frames used later.
-/

import EmbassySupervisor.Verb.Begin

namespace EmbassySupervisor

variable {n : ℕ}

/-- The counters of a handle's restart budget. -/
def TaskHandle.budget (h : TaskHandle) : ℕ × ℕ := (h.restarts, h.restartWindowStart)

namespace World

/-- A part of the shared state that no flag, latch, slot, instance or entry of the history
bears on. -/
structure Frame {α : Type} (φ : World n → α) : Prop where
  node : ∀ (w : World n) (f : Fin n → TaskHandle),
    (∀ j, (f j).budget = (w.node j).budget) → φ { w with node := f } = φ w
  inst : ∀ (w : World n) (f : Fin n → Inst), φ { w with inst := f } = φ w
  log : ∀ (w : World n) (log : List (ℕ × Record n)), φ { w with log } = φ w
  slot : ∀ (w : World n) (slot : ℕ → SpawnerSlot), φ { w with slot } = φ w
  gate : ∀ (w : World n) (gate : ℕ → ResourceGate), φ { w with gate } = φ w
  bindReq : ∀ (w : World n) (bindReq : Bool), φ { w with bindReq } = φ w
  stopEvt : ∀ (w : World n) (stopEvt : Bool), φ { w with stopEvt } = φ w
  gateEvt : ∀ (w : World n) (gateEvt : Bool), φ { w with gateEvt } = φ w

namespace Frame

variable {α : Type} {φ : World n → α} (hφ : Frame φ) (w : World n) (j : Fin n)

include hφ

/-! ## Single operations -/

theorem onNode {f : TaskHandle → TaskHandle} (hf : ∀ h, (f h).budget = h.budget) :
    φ (w.onNode j f) = φ w := by
  apply hφ.node
  intro i
  by_cases hi : i = j
  · subst hi
    rw [Function.update_self]
    exact hf _
  · rw [Function.update_of_ne hi]

theorem record (r : Record n) : φ (w.record r) = φ w := hφ.log w _

theorem note (t : Transition n) : φ (w.note j t) = φ w := hφ.record w _

theorem putFlag (k : Flag) (on : Bool) : φ (w.putFlag j k on) = φ w :=
  hφ.onNode w j fun _ => rfl

theorem signalShutdown : φ (w.signalShutdown j) = φ w := hφ.onNode w j fun _ => rfl

theorem setRunning (running : Bool) : φ (w.setRunning j running) = φ w :=
  hφ.onNode w j fun _ => rfl

theorem reset : φ (w.reset j) = φ w := hφ.onNode w j fun _ => rfl

theorem signalResume : φ (w.signalResume j) = φ w := by
  have hlatch : φ (w.onNode j TaskHandle.signalResume) = φ w := hφ.onNode w j fun _ => rfl
  unfold World.signalResume
  simp only
  split
  · exact (hφ.inst _ _).trans hlatch
  · exact hlatch

theorem resume : φ (w.resume j) = φ w := by
  unfold World.resume
  rw [hφ.note, hφ.setRunning, hφ.signalResume, hφ.reset]

theorem markStarted : φ (w.markStarted j) = φ w := by
  unfold World.markStarted
  rw [hφ.note, hφ.setRunning, hφ.reset]

theorem started : φ (w.started j) = φ w := by
  unfold World.started
  rw [hφ.putFlag, hφ.note, hφ.setRunning]

theorem boundPark : φ (w.boundPark j) = φ w := by
  unfold World.boundPark
  rw [hφ.record, hφ.putFlag]

theorem takeAck : φ (w.takeAck j) = φ w := by
  unfold World.takeAck
  simp only
  rw [hφ.note, hφ.setRunning]

theorem releaseClaims (cfg : NodeCfg n) : φ (w.releaseClaims cfg j) = φ w := by
  unfold World.releaseClaims
  split
  · exact hφ.record w _
  · rfl

theorem releaseProvided (cfg : NodeCfg n) : φ (w.releaseProvided cfg j) = φ w := by
  have hclear : ∀ (gates : List ℕ) (u : World n), φ (gates.foldl World.clearGate u) = φ u := by
    intro gates
    induction gates with
    | nil =>
        intro u
        rfl
    | cons r gates ih =>
        intro u
        exact (ih _).trans (hφ.gate u _)
  unfold World.releaseProvided
  cases cfg.mode with
  | pause => rfl
  | terminate | onDemand => exact (hφ.releaseClaims _ j cfg).trans (hclear cfg.provides w)

theorem settleDropped (next : Inst) : φ (w.settleDropped j next) = φ w := by
  unfold World.settleDropped
  simp only
  rw [hφ.record, World.setInst, hφ.inst, World.notifyBind, hφ.bindReq, hφ.stopEvt]
  exact hφ.onNode w j fun _ => rfl

theorem missAck (g : Graph n) (cfg : NodeCfg n) : φ (w.missAck g cfg j) = φ w := by
  unfold World.missAck
  simp only
  rw [hφ.note]
  split
  · exact hφ.releaseClaims w j cfg
  · rfl

theorem launch (sp : Spawn) : φ (w.launch sp j) = φ w := by
  unfold World.launch
  simp only
  rw [hφ.record, World.setInst, hφ.inst]
  cases sp with
  | fn => rfl
  | task =>
      simp only
      split
      · exact hφ.onNode w j fun _ => rfl
      · exact hφ.putFlag w j _ _

theorem requestPass (s : ℕ) : φ (w.requestPass s) = φ w := hφ.slot w _

theorem takeLatch (c : Gate n) : φ (c.takeLatch w) = φ w := by
  cases c with
  | exec => exact hφ.slot w _
  | resource => exact hφ.gate w _
  | ready d => exact hφ.onNode (f := fun h => { h with readyWake := false }) w d fun _ => rfl

theorem recordBoundStops (chosen : Fin n → Bool) (js : List (Fin n)) :
    φ (w.recordBoundStops chosen js) = φ w := by
  unfold World.recordBoundStops
  generalize js.filter chosen = stopped
  induction stopped generalizing w with
  | nil => rfl
  | cons i stopped ih => exact (ih _).trans (hφ.record w _)

/-! ## One node -/

theorem gateFault (cfg : NodeCfg n) (kind : FaultKind n) :
    φ (w.gateFault cfg j kind).2 = φ w := by
  unfold World.gateFault
  split
  · exact hφ.boundPark w j
  · exact hφ.note w j _

theorem spawnAttempt (cfg : NodeCfg n) (sp : Spawn) (deadline : ℕ) :
    φ (w.spawnAttempt cfg sp j deadline).2 = φ w := by
  have hreset := hφ.reset w j
  unfold World.spawnAttempt
  cases hlaunch : (w.reset j).spawn cfg sp j with
  | some w' =>
      obtain ⟨-, rfl⟩ := spawn_eq_some.mp hlaunch
      simp only [hlaunch]
      rw [hφ.started, hφ.launch, hreset]
  | none =>
      simp only [hlaunch]
      split
      · exact (hφ.note _ j _).trans hreset
      · cases cfg.spawnSlot with
        | none => exact hreset
        | some s =>
            simp only
            split
            · exact (hφ.requestPass _ s).trans hreset
            · exact hreset

theorem awaitSettled (cfg : NodeCfg n) (sp : Spawn) (deadline : ℕ) :
    φ (w.awaitSettled cfg sp j deadline).2 = φ w := by
  unfold World.awaitSettled
  split
  · exact hφ.spawnAttempt w j cfg sp deadline
  · split
    · exact hφ.note w j _
    · rfl

theorem awaitGates (cfg : NodeCfg n) (sp : Spawn) (gates : List (Gate n)) :
    φ (w.awaitGates cfg sp j gates).2 = φ w := by
  unfold World.awaitGates
  split
  · exact hφ.awaitSettled w j cfg sp _
  · exact hφ.takeLatch w _

theorem startNodeStep {cfg : NodeCfg n} {sp : Spawn} {phase : StartPhase n} {e : StartEnd n}
    {w' : World n} (h : w.startNodeStep cfg sp j phase = some (e, w')) : φ w' = φ w := by
  have of_eq : ∀ {x : StartEnd n × World n}, some x = some (e, w') → φ x.2 = φ w →
      φ w' = φ w := by
    intro x heq hx
    rwa [Option.some.inj heq] at hx
  cases phase with
  | gate c rest deadline =>
      have hlatch := hφ.takeLatch w c
      simp only [World.startNodeStep] at h
      split at h
      · split at h
        · exact of_eq h ((hφ.awaitGates _ j cfg sp rest).trans hlatch)
        · split at h
          · exact of_eq h ((hφ.gateFault _ j cfg _).trans hlatch)
          · exact of_eq h hlatch
      · split at h
        · exact of_eq h (hφ.gateFault w j cfg _)
        · cases h
  | settle deadline =>
      simp only [World.startNodeStep] at h
      split at h
      · exact of_eq h ((hφ.awaitSettled _ j cfg sp deadline).trans (hφ.gateEvt w false))
      · split at h
        · exact of_eq h (hφ.awaitSettled w j cfg sp deadline)
        · cases h
  | pass seen deadline =>
      simp only [World.startNodeStep] at h
      split at h
      · split at h
        · exact of_eq h ((hφ.spawnAttempt _ j cfg sp deadline).trans (hφ.gateEvt w false))
        · exact of_eq h (hφ.gateEvt w false)
      · cases h
  | event deadline =>
      simp only [World.startNodeStep] at h
      split at h
      · exact of_eq h ((hφ.spawnAttempt _ j cfg sp deadline).trans (hφ.gateEvt w false))
      · cases h
  | yield deadline => exact of_eq h (hφ.spawnAttempt w j cfg sp deadline)

theorem startNode (g : Graph n) : φ (g.startNode w j).2 = φ w := by
  unfold Graph.startNode
  cases g.nodes j with
  | none => rfl
  | some cfg =>
      have hnote : φ ((w.putFlag j .collateral false).note j .spawning) = φ w := by
        rw [hφ.note, hφ.putFlag]
      cases hspawn : cfg.spawn with
      | none =>
          simp only [hspawn]
          rw [hφ.started, hφ.reset]
          exact hnote
      | some sp =>
          simp only [hspawn]
          rw [hφ.awaitGates]
          exact hnote

theorem stopNode (cfg : NodeCfg n) : φ (w.stopNode cfg j).2 = φ w := by
  have hsignal : φ ((w.signalShutdown j).note j .stopRequested) = φ w := by
    rw [hφ.note, hφ.signalShutdown]
  unfold World.stopNode
  split
  · rfl
  · simp only
    split
    · exact (hφ.takeAck _ j).trans hsignal
    · exact hsignal

/-! ## Waves and calls -/

variable {w}

theorem stopWave_step {g : Graph n} {w' : World n} {s s' : StopWave n}
    (h : s.Step g w s' w') : φ w' = φ w := by
  cases h with
  | signal => rw [hφ.note, hφ.signalShutdown]
  | collect => exact hφ.takeAck w _
  | giveUp | abort => exact hφ.missAck w _ g _
  | skip | passOver | finish | examine => rfl
  | turn _ _ hw =>
      rcases hw with rfl | rfl
      · rfl
      · exact hφ.stopEvt w false

theorem startWave_step {g : Graph n} {w' : World n} {s s' : StartWave n}
    (h : s.Step g w s' w') : φ w' = φ w := by
  cases h with
  | arm => exact hφ.note w _ _
  | resume => rw [hφ.putFlag, hφ.resume]
  | mark => exact hφ.markStarted w _
  | park => exact hφ.boundPark w _
  | spawn => rw [hφ.started, hφ.launch, hφ.reset]
  | fault _ hw | abort _ hw =>
      rcases hw with rfl | rfl
      · rw [hφ.note]
      · rw [hφ.note, hφ.reset]
  | busy _ _ hw =>
      rcases hw with rfl | ⟨slot, rfl⟩
      · rw [hφ.reset]
      · rw [hφ.requestPass, hφ.reset]
  | finish => rfl
  | turn _ hw =>
      rcases hw with rfl | rfl
      · rfl
      · exact hφ.gateEvt w false

/-- **A step of a call changes no frame**, though it may post the scale request. -/
theorem step_eq {g : Graph n} {w' : World n} {c c' : Call n}
    (h : c.step g w = some (c', w')) : φ w' = φ w ∨ φ w' = φ w.requestScale := by
  cases c with
  | stopping wave next =>
      apply Or.inl
      simp only [Call.step] at h
      split at h
      · cases h
        rfl
      · cases next <;> cases h <;> rfl
      · cases h
        rfl
      all_goals
        obtain ⟨⟨s', u⟩, hstep, heq⟩ := Option.map_eq_some_iff.mp h
        cases heq
        exact hφ.stopWave_step (StopWave.step_cases hstep)
  | starting wave poke =>
      simp only [Call.step] at h
      split at h
      · cases h
        split
        · exact Or.inr rfl
        · exact Or.inl rfl
      · cases h
        exact Or.inl rfl
      all_goals
        obtain ⟨⟨s', u⟩, hstep, heq⟩ := Option.map_eq_some_iff.mp h
        cases heq
        exact Or.inl (hφ.startWave_step (StartWave.step_cases hstep))
  | startNode j phase next =>
      obtain ⟨cfg, hcfg, h⟩ := Option.bind_eq_some_iff.mp h
      obtain ⟨sp, hspawn, h⟩ := Option.bind_eq_some_iff.mp h
      obtain ⟨⟨e, u⟩, hpoll, heq⟩ := Option.bind_eq_some_iff.mp h
      cases heq
      exact Or.inl (hφ.startNodeStep w j hpoll)
  | stopNode j deadline =>
      obtain ⟨cfg, hcfg, h⟩ := Option.bind_eq_some_iff.mp h
      obtain ⟨⟨r, u⟩, hpoll, heq⟩ := Option.bind_eq_some_iff.mp h
      cases heq
      apply Or.inl
      unfold World.stopNodeStep at hpoll
      split at hpoll
      · cases hpoll
        rw [hφ.takeAck]
        exact hφ.onNode w j fun _ => rfl
      · split at hpoll
        · cases hpoll
          exact hφ.missAck w j g cfg
        · cases hpoll
  | bindUp todo =>
      cases todo with
      | nil =>
          cases h
          exact Or.inl rfl
      | cons j todo =>
          have hvisit : (g.bindVisit w j todo).2 = w' := congrArg Prod.snd (Option.some.inj h)
          have hclear := hφ.putFlag w j .boundStopped false
          rw [← hvisit]
          unfold Graph.bindVisit
          split
          · exact Or.inl rfl
          · split
            · split
              · exact Or.inl (hφ.startNode w j g)
              · split
                · apply Or.inl
                  simp only
                  rw [hφ.putFlag, hφ.resume]
                · exact Or.inl rfl
              · split
                · exact Or.inr (hφ.putFlag w.requestScale j .boundStopped false)
                · exact Or.inl hclear
            · exact Or.inl rfl
  | done | panic | cancelled => simp [Call.step] at h

/-! ## Front halves -/

theorem selectNodes {g : Graph n} {select : Fin n → TaskHandle → Bool × TaskHandle}
    (hselect : ∀ j h, (select j h).2.budget = h.budget) :
    φ { w with node := fun j => (g.selectNodes w select j).2 } = φ w := by
  apply hφ.node
  intro j
  rw [selectNodes_apply]
  split
  · exact hselect j _
  · rfl

theorem resumeAll (g : Graph n) (js : List (Fin n)) : φ (g.resumeAll w js) = φ w := by
  unfold Graph.resumeAll
  induction js generalizing w with
  | nil => rfl
  | cons j js ih =>
      rw [List.foldl_cons, ih]
      split
      · exact hφ.resume w j
      · rfl

/-- **The front half of a verb changes no frame**, but that `restart` counts itself. -/
theorem begin_eq (g : Graph n) (w : World n) (v : Verb n) :
    φ (g.begin w v).2 = φ w ∨
      ∃ target, v = .restart target ∧ φ (g.begin w v).2 = φ (g.countRestart w target).2 := by
  have hstop : ∀ j, φ (g.begin w (.stopNode j)).2 = φ w := by
    intro j
    simp only [Graph.begin]
    cases g.nodes j with
    | none => rfl
    | some cfg =>
        have hkept := hφ.stopNode w j cfg
        cases hentry : w.stopNode cfg j with
        | mk d w' =>
            rw [hentry] at hkept
            cases d <;> simpa [hentry] using hkept
  cases v with
  | restart target =>
      refine Or.inr ⟨target, rfl, ?_⟩
      simp only [Graph.begin]
      cases hcount : g.countRestart w target with
      | mk counted w' =>
          cases counted with
          | false => rfl
          | true => exact hφ.selectNodes fun _ _ => rfl
  | start enabled =>
      apply Or.inl
      apply hφ.node
      intro j
      split <;> rfl
  | startNode j => exact Or.inl (hφ.startNode w j g)
  | stopNode j => exact Or.inl (hstop j)
  | teardown | teardownContinue => exact Or.inl (hφ.selectNodes fun _ _ => rfl)
  | respawnTerminate => exact Or.inl rfl
  | deactivate target =>
      apply Or.inl
      apply hφ.selectNodes
      intro j h
      split
      · rfl
      · unfold TaskHandle.latchDeactivated
        split <;> rfl
  | activate target =>
      apply Or.inl
      simp only [Graph.begin]
      rw [hφ.node]
      · apply hφ.node
        intro j
        split <;> rfl
      · intro j
        rcases release_handle (g := g) (g.enable w (g.collectDependencies w (g.seed target))) j
          with h | h
        · rw [h]
        · rw [h]
          rfl
  | resumeNode j =>
      apply Or.inl
      simp only [Graph.begin]
      split
      · exact hφ.resume w j
      · rfl
  | resumePausable =>
      apply Or.inl
      simp only [Graph.begin]
      split
      · exact hφ.resumeAll g g.order
      · rfl
  | applyBind =>
      apply Or.inl
      simp only [Graph.begin]
      split
      · rw [hφ.recordBoundStops]
        apply hφ.selectNodes
        intro j h
        split <;> rfl
      · rfl
  | scale pool action =>
      apply Or.inl
      simp only [Graph.begin]
      cases g.pools[pool]? with
      | none => rfl
      | some members =>
          cases action with
          | none => rfl
          | grow =>
              simp only
              split
              · rfl
              · split
                · exact hφ.startNode w _ g
                · rfl
          | shrink =>
              simp only
              split
              · rfl
              · exact hstop _

end Frame

end World

end EmbassySupervisor
