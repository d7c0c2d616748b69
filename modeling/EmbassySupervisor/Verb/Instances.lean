/-
# The running bit and the instances

`is_running` is meant to say that an instance is up. The bit is set after a spawn
that succeeded, after the resume of a parked instance, and by the second phase of
`apply_bind`, which resumes a `Pause` node on the strength of its bound stop alone.
A bring-up that was put off for a bound provider leaves the same mark and no
instance, so that resume may find nobody there.

`InstancesUp` is the invariant every other step keeps, and `resumesNobody` the one
kind of step that breaks it.
-/

import EmbassySupervisor.Verb.System

namespace EmbassySupervisor

open LabelledRun

variable {n : ℕ} {g : Graph n}

/-- A `Pause` node that the supervisor spawns itself. -/
def Graph.pausing (g : Graph n) (j : Fin n) : Bool :=
  (g.nodes j).any fun cfg => cfg.mode == .pause && cfg.spawn.isSome

theorem Graph.hasSpawn_of_pausing {j : Fin n} (h : g.pausing j = true) :
    g.hasSpawn j = true := by
  simp only [Graph.pausing, Option.any_eq_true, Bool.and_eq_true] at h
  obtain ⟨cfg, hcfg, _, hspawn⟩ := h
  simp [Graph.hasSpawn, hcfg, hspawn]

theorem Graph.hasSpawn_eq_false {cfg : NodeCfg n} {j : Fin n} (hcfg : g.nodes j = some cfg)
    (hspawn : cfg.spawn = none) : g.hasSpawn j = false := by
  simp [Graph.hasSpawn, hcfg, hspawn]

theorem World.hasAckedStop_iff {w : World n} {j : Fin n} :
    w.hasAckedStop j = true ↔ w.flag j .dropped = true ∧ w.flag j .completed = false := by
  simp [World.hasAckedStop, TaskHandle.hasAckedStop, World.flag]

/-- What the flags say about the instances the supervisor spawned is so: a running
node has one up, an acknowledged stop of a `Pause` node has left one parked, and a
`Pause` instance never leaves by acknowledging. -/
structure World.InstancesUp (g : Graph n) (w : World n) : Prop where
  up : ∀ j, g.hasSpawn j = true → w.flag j .running = true → w.inst j = .up
  parked : ∀ j, g.pausing j = true → w.hasAckedStop j = true → w.inst j = .parked
  staying : ∀ j, g.pausing j = true → w.inst j ≠ .leaving

namespace World.InstancesUp

variable {w w' : World n}

/-- Taking nodes down and forgetting acknowledgements keeps it. -/
theorem of_weaker (h : w.InstancesUp g)
    (hrunning : ∀ j, w'.flag j .running = true → w.flag j .running = true)
    (hacked : ∀ j, w'.hasAckedStop j = true → w.hasAckedStop j = true)
    (hinst : w'.inst = w.inst) : w'.InstancesUp g where
  up j hj hrun := by
    rw [hinst]
    exact h.up j hj (hrunning j hrun)
  parked j hj hack := by
    rw [hinst]
    exact h.parked j hj (hacked j hack)
  staying j hj := by
    rw [hinst]
    exact h.staying j hj

/-- So does anything that leaves the three flags and the instances alone. -/
theorem of_flags (h : w.InstancesUp g)
    (hflag : ∀ j k, k = .running ∨ k = .dropped ∨ k = .completed → w'.flag j k = w.flag j k)
    (hinst : w'.inst = w.inst) : w'.InstancesUp g := by
  apply h.of_weaker
  · intro j hrun
    rwa [hflag j .running (by simp)] at hrun
  · intro j hack
    rwa [hasAckedStop_iff, hflag j .dropped (by simp), hflag j .completed (by simp),
      ← hasAckedStop_iff] at hack
  · exact hinst

theorem of_still (h : w.InstancesUp g) (hw : w.Still w') : w'.InstancesUp g :=
  h.of_flags (fun j k _ => hw.flag j k) hw.inst

theorem of_relatched (h : w.InstancesUp g) (hw : w.Relatched w') : w'.InstancesUp g := by
  apply h.of_flags
  · rintro j k (rfl | rfl | rfl) <;> exact hw.flag j _ rfl
  · exact hw.inst

theorem note (h : w.InstancesUp g) (j : Fin n) (t : Transition n) :
    (w.note j t).InstancesUp g :=
  h.of_flags (fun _ _ _ => rfl) rfl

theorem putFlag (h : w.InstancesUp g) (j : Fin n) {k : Flag} (on : Bool)
    (hk : ¬ (k = .running ∨ k = .dropped ∨ k = .completed)) :
    (w.putFlag j k on).InstancesUp g := by
  apply h.of_flags
  · intro i k' hk'
    have hne : k' ≠ k := fun heq => hk (heq ▸ hk')
    simp [hne]
  · rfl

theorem boundPark (h : w.InstancesUp g) (j : Fin n) : (w.boundPark j).InstancesUp g := by
  apply h.of_flags
  · rintro i k (rfl | rfl | rfl) <;> simp
  · rfl

theorem signalShutdown (h : w.InstancesUp g) (j : Fin n) :
    (w.signalShutdown j).InstancesUp g := by
  apply h.of_flags
  · rintro i k (rfl | rfl | rfl) <;> simp
  · rfl

theorem takeAck (h : w.InstancesUp g) (j : Fin n) : (w.takeAck j).InstancesUp g := by
  apply h.of_weaker
  · intro i hrun
    by_cases hi : i = j <;> simp_all
  · intro i hack
    simpa [hasAckedStop_iff] using hack
  · rfl

theorem missAck (h : w.InstancesUp g) (cfg : NodeCfg n) (j : Fin n) :
    (w.missAck g cfg j).InstancesUp g := by
  apply h.of_flags
  · intro i k _
    simp
  · simp

theorem reset (h : w.InstancesUp g) (j : Fin n) : (w.reset j).InstancesUp g := by
  apply h.of_weaker
  · intro i hrun
    simpa [Flag.stale] using hrun
  · intro i hack
    rw [hasAckedStop_iff] at hack ⊢
    by_cases hi : i = j
    · simp [hi, Flag.stale] at hack
    · simpa [hi] using hack
  · rfl

/-- A spawn brings an instance up before the bit is set. -/
theorem launched (h : w.InstancesUp g) (sp : Spawn) (j : Fin n) :
    (((w.reset j).launch sp j).started j).InstancesUp g := by
  have hflag : ∀ i k, k = .dropped ∨ k = .completed →
      (((w.reset j).launch sp j).started j).flag i k = (w.reset j).flag i k := by
    rintro i k (rfl | rfl) <;> simp [World.flag_launch]
  refine ⟨fun i hi hrun => ?_, fun i hi hack => ?_, fun i hi => ?_⟩
  · by_cases hij : i = j
    · simp [hij]
    · simp only [inst_started, inst_launch, inst_reset, if_neg hij]
      apply h.up i hi
      simpa [hij, World.flag_launch] using hrun
  · rw [hasAckedStop_iff, hflag i _ (by simp), hflag i _ (by simp), ← hasAckedStop_iff] at hack
    by_cases hij : i = j
    · simp [hasAckedStop_iff, hij, Flag.stale] at hack
    · simp only [inst_started, inst_launch, inst_reset, if_neg hij]
      simpa using (h.reset j).parked i hi hack
  · by_cases hij : i = j
    · simp [hij]
    · simpa [hij] using h.staying i hi

/-- Resuming a `Pause` node keeps it where an instance is there. -/
theorem resume (h : w.InstancesUp g) {cfg : NodeCfg n} {j : Fin n}
    (hcfg : g.nodes j = some cfg) (hmode : cfg.mode = .pause)
    (hinst : cfg.spawn.isSome = true → w.inst j ≠ .absent) : (w.resume j).InstancesUp g := by
  have hup : g.hasSpawn j = true → (w.resume j).inst j = .up := by
    intro hspawn
    have hsome : cfg.spawn.isSome = true := by simpa [Graph.hasSpawn, hcfg] using hspawn
    have hstays := h.staying j (by simp [Graph.pausing, hcfg, hmode, hsome])
    have hpresent := hinst hsome
    rw [inst_resume]
    cases hj : w.inst j with
    | absent => exact absurd hj hpresent
    | leaving => exact absurd hj hstays
    | up | parked => simp
  refine ⟨fun i hi hrun => ?_, fun i hi hack => ?_, fun i hi => ?_⟩
  · by_cases hij : i = j
    · subst hij
      exact hup hi
    · rw [inst_resume, if_neg (fun h => hij h.1)]
      exact h.up i hi (by simpa [hij] using hrun)
  · by_cases hij : i = j
    · simp [hasAckedStop_iff, hij, Flag.stale] at hack
    · rw [inst_resume, if_neg (fun h => hij h.1)]
      exact h.parked i hi (by simpa [hasAckedStop_iff, hij] using hack)
  · by_cases hij : i = j
    · subst hij
      rw [hup (Graph.hasSpawn_of_pausing hi)]
      decide
    · rw [inst_resume, if_neg (fun h => hij h.1)]
      exact h.staying i hi

/-- An acknowledged stop is as good as an instance. -/
theorem resume_acked (h : w.InstancesUp g) {cfg : NodeCfg n} {j : Fin n}
    (hcfg : g.nodes j = some cfg) (hmode : cfg.mode = .pause)
    (hacked : w.hasAckedStop j = true) : (w.resume j).InstancesUp g := by
  refine h.resume hcfg hmode fun hspawn => ?_
  rw [h.parked j (by simp [Graph.pausing, hcfg, hmode, hspawn]) hacked]
  decide

/-- Only marking a node running keeps it where the application spawns the node. -/
theorem marked (h : w.InstancesUp g) {j : Fin n} (hspawn : g.hasSpawn j = false)
    (hrunning : ∀ i, i ≠ j → w'.flag i .running = true → w.flag i .running = true)
    (hacked : ∀ i, w'.hasAckedStop i = true → w.hasAckedStop i = true)
    (hinst : w'.inst = w.inst) : w'.InstancesUp g where
  up i hi hrun := by
    have hij : i ≠ j := fun heq => by simp [heq, hspawn] at hi
    rw [hinst]
    exact h.up i hi (hrunning i hij hrun)
  parked i hi hack := by
    rw [hinst]
    exact h.parked i hi (hacked i hack)
  staying i hi := by
    rw [hinst]
    exact h.staying i hi

/-- **No task breaks it**: whoever drops takes the running bit down with it. -/
theorem event (h : w.InstancesUp g) (hevent : TaskEvent.Effect g w w') :
    w'.InstancesUp g := by
  -- A node other than the one that drops is as before.
  have other : ∀ {j i : Fin n}, Drops w j w' → i ≠ j →
      (w'.flag i .running = w.flag i .running ∧ w'.hasAckedStop i = w.hasAckedStop i) ∧
        w'.inst i = w.inst i := by
    intro j i hdrops hij
    have hdropped : w'.flag i .dropped = w.flag i .dropped := by
      simp [hdrops.flag i .dropped, hij]
    refine ⟨⟨by simp [hdrops.flag i .running, hij], ?_⟩, hdrops.inst i hij⟩
    rw [Bool.eq_iff_iff, hasAckedStop_iff, hasAckedStop_iff, hdropped, hdrops.completed i hij]
  have of_drops : ∀ {j : Fin n}, Drops w j w' →
      (g.pausing j = true → w'.hasAckedStop j = true → w'.inst j = .parked) →
      (g.pausing j = true → w'.inst j ≠ .leaving) → w'.InstancesUp g := by
    intro j hdrops hparked hstaying
    refine ⟨fun i hi hrun => ?_, fun i hi hack => ?_, fun i hi => ?_⟩
    · have hij : i ≠ j := fun heq => by simp [hdrops.flag, heq] at hrun
      rw [(other hdrops hij).1.1] at hrun
      exact (other hdrops hij).2.trans (h.up i hi hrun)
    · by_cases hij : i = j
      · subst hij
        exact hparked hi hack
      · rw [(other hdrops hij).1.2] at hack
        exact (other hdrops hij).2.trans (h.parked i hi hack)
    · by_cases hij : i = j
      · subst hij
        exact hstaying hi
      · rw [(other hdrops hij).2]
        exact h.staying i hi
  cases hevent with
  | @acked j cfg hcfg _ =>
      have hafter : g.pausing j = true → (w.ackDropped cfg j).inst j = .parked := by
        intro hj
        have hmode : cfg.mode = .pause := by
          simp only [Graph.pausing, hcfg, Option.any_some, Bool.and_eq_true, beq_iff_eq] at hj
          exact hj.1
        rw [inst_ackDropped, afterAck, hmode]
      apply of_drops (drops_ackDropped w cfg j)
      · exact fun hj _ => hafter hj
      · intro hj
        rw [hafter hj]
        decide
  | @exited j cfg _ _ =>
      apply of_drops (drops_markExited w cfg j)
      · intro _ hack
        simp [hasAckedStop_iff, flag_completed_markExited] at hack
      · intro _
        rw [inst_markExited]
        decide
  | @appSpawned j cfg hcfg hspawn =>
      have hother : ∀ i, g.hasSpawn i = true → (w.setInst j .up).inst i = w.inst i := by
        intro i hi
        have hij : i ≠ j := fun heq => by simp [heq, Graph.hasSpawn, hcfg, hspawn] at hi
        simp [hij]
      refine ⟨fun i hi hrun => ?_, fun i hi hack => ?_, fun i hi => ?_⟩
      · exact (hother i hi).trans (h.up i hi hrun)
      · exact (hother i (Graph.hasSpawn_of_pausing hi)).trans (h.parked i hi hack)
      · rw [hother i (Graph.hasSpawn_of_pausing hi)]
        exact h.staying i hi
  | quiet hquiet =>
      apply h.of_flags
      · rintro i k (rfl | rfl | rfl) <;> exact hquiet.flag i _ rfl
      · exact hquiet.inst

end World.InstancesUp

/-! ## The supervisor's steps -/

section Steps

variable {w w' : World n}

theorem StopWave.Step.instancesUp {s s' : StopWave n} (h : s.Step g w s' w')
    (hw : w.InstancesUp g) : w'.InstancesUp g := by
  apply hw.of_weaker
  · exact fun j => h.running_of_running
  · intro j hack
    rwa [World.hasAckedStop_iff, h.flag_eq j (by decide) (by decide),
      h.flag_eq j (by decide) (by decide), ← World.hasAckedStop_iff] at hack
  · exact h.inst_eq

theorem StartWave.Step.instancesUp {s s' : StartWave n} (h : s.Step g w s' w')
    (hw : w.InstancesUp g) : w'.InstancesUp g := by
  cases h with
  | arm => exact hw.note _ _
  | resume h hmode hacked =>
      exact (hw.resume_acked h.cfg hmode hacked).putFlag _ false (by decide)
  | @mark j _ _ cfg h hspawn =>
      apply hw.marked (Graph.hasSpawn_eq_false h.cfg hspawn)
      · intro i hij hrun
        simpa [hij, Flag.stale] using hrun
      · intro i hack
        by_cases hij : i = j
        · simp [World.hasAckedStop_iff, hij, Flag.stale] at hack
        · simpa [World.hasAckedStop_iff, hij] using hack
      · rfl
  | park => exact hw.boundPark _
  | fault _ hw₁ | abort _ hw₁ =>
      rcases hw₁ with rfl | rfl
      · exact hw.note _ _
      · exact (hw.reset _).note _ _
  | spawn => exact hw.launched _ _
  | busy _ _ hw₁ =>
      rcases hw₁ with rfl | ⟨slot, rfl⟩
      · exact hw.reset _
      · exact (hw.reset _).of_still (World.still_requestPass _ slot)
  | finish => exact hw
  | turn _ hw₁ =>
      rcases hw₁ with rfl | rfl
      · exact hw
      · exact hw.of_still (World.still_gateEvt w false)

theorem StartEffect.instancesUp {cfg : NodeCfg n} {j : Fin n} {e : StartEnd n}
    (h : StartEffect cfg w j e w') (hw : w.InstancesUp g) : w'.InstancesUp g := by
  cases h with
  | started _ hstill _ => exact (hw.of_still hstill).launched _ j
  | parked hstill _ => exact (hw.of_still hstill).boundPark j
  | faulted hstill _ =>
      rcases hstill with hstill | hstill
      · exact (hw.of_still hstill).note j _
      · exact ((hw.reset j).of_still hstill).note j _
  | waits hstill =>
      rcases hstill with hstill | hstill
      · exact hw.of_still hstill
      · exact (hw.reset j).of_still hstill

theorem StartEntry.instancesUp {j : Fin n} {e : StartEnd n} (h : StartEntry g w j e w')
    (hw : w.InstancesUp g) : w'.InstancesUp g := by
  cases h with
  | absent => exact hw
  | gated _ h => exact h.instancesUp ((hw.putFlag j false (by decide)).note j .spawning)
  | marked hcfg hspawn =>
      apply hw.marked (Graph.hasSpawn_eq_false hcfg hspawn)
      · intro i hij hrun
        simpa [hij, Flag.stale] using hrun
      · intro i hack
        by_cases hij : i = j
        · simp [World.hasAckedStop_iff, hij, Flag.stale] at hack
        · simpa [World.hasAckedStop_iff, hij] using hack
      · rfl

theorem instancesUp_resumeAll (hw : w.InstancesUp g) (js : List (Fin n)) :
    (g.resumeAll w js).InstancesUp g := by
  induction js generalizing w with
  | nil => exact hw
  | cons j js ih =>
      apply ih
      simp only
      split
      case isTrue hpick =>
        obtain ⟨cfg, hcfg, hresumable⟩ := Option.any_eq_true _ _ |>.mp hpick
        simp only [World.resumable, Bool.and_eq_true, beq_iff_eq] at hresumable
        exact hw.resume_acked hcfg hresumable.1.1.1.1 hresumable.2
      case isFalse => exact hw

theorem Begun.instancesUp {v : Verb n} {c : Call n} (h : Begun g w v c w')
    (hw : w.InstancesUp g) : w'.InstancesUp g := by
  cases h with
  | idle h | startWave h | stopWave h => exact hw.of_relatched h
  | bindWave _ hmark =>
      apply hw.of_flags
      · rintro j k (rfl | rfl | rfl) <;> exact hmark.flag j _ (by decide)
      · exact hmark.inst
  | startNode h | grow _ _ _ h => exact h.instancesUp hw
  | stopNow => exact ((hw.signalShutdown _).note _ _).takeAck _
  | stopWait => exact (hw.signalShutdown _).note _ _
  | resumes => exact instancesUp_resumeAll hw _

end Steps

/-- The second phase of `apply_bind` is about to resume a node that the supervisor
spawns itself, and no instance of it is there. -/
def Call.resumesNobody (g : Graph n) (w : World n) : Call n → Bool
  | .bindUp (j :: _) =>
    g.pausing j && (g.nodes j).any (w.bindable · j) && w.inst j == .absent
  | .bindUp [] | .stopping _ _ | .starting _ _ | .startNode _ _ _ | .stopNode _ _ | .done _
  | .panic | .cancelled => false

theorem Call.Step.instancesUp {w w' : World n} {c c' : Call n} (h : c.Step g w c' w')
    (hfound : c.resumesNobody g w = false) (hw : w.InstancesUp g) : w'.InstancesUp g := by
  cases h with
  | stopWave h => exact h.instancesUp hw
  | startWave h => exact h.instancesUp hw
  | startDone _ hstill => exact hw.of_still hstill
  | startNode _ h => exact h.instancesUp hw
  | @ackNode j =>
      apply World.InstancesUp.takeAck
      apply hw.of_flags
      · intro i k _
        rw [World.flag_onNode]
        split
        case isTrue heq => rw [heq]; rfl
        case isFalse => rfl
      · rfl
  | missNode => exact hw.missAck _ _
  | bindStart _ _ _ h => exact h.instancesUp hw
  | @bindResume j todo cfg hcfg hbind hmode =>
      refine (hw.resume hcfg hmode fun hspawn habsent => ?_).putFlag j false (by decide)
      simp [Call.resumesNobody, Graph.pausing, hcfg, hmode, hspawn, hbind, habsent] at hfound
  | bindUnmark _ _ _ hstill => exact (hw.putFlag _ false (by decide)).of_still hstill
  | stopFault | stopDone | restartUp | bindPhase | stopPanic | startPanic | bindEnd
  | bindSkip => exact hw

/-- The step carries on a call that is about to resume nobody. -/
def Sys.resumesNobody (g : Graph n) (s : Sys n) : Label n → Bool
  | .advance i => (s.calls[i]?).any (·.resumesNobody g s.world)
  | .begin _ | .task _ | .setDisabled _ _ | .cancel _ => false

/-- **The invariant along every run that resumes nobody.** -/
theorem instancesUp_of_exec {s s' : Sys n} {labels : List (Label n)}
    (hs : s.world.InstancesUp g)
    (halong : Along (Sys.next g) (fun t l => t.resumesNobody g l = false) s labels)
    (hrun : exec (Sys.next g) s labels = some s') : s'.world.InstancesUp g := by
  refine Sys.world_invariant (I := fun w => w.InstancesUp g) ?_ ?_ ?_ ?_ hs halong hrun
  · intro t v _ ht
    exact (begin_cases g t.world v).instancesUp ht
  · intro t i c c' w hfound hcall ht hstep
    simp only [Sys.resumesNobody, hcall, Option.any_some] at hfound
    exact (Call.step_cases hstep).instancesUp hfound ht
  · intro t e w _ ht happly
    exact ht.event (TaskEvent.apply_cases happly)
  · intro t j disabled _ _ ht
    apply ht.of_flags
    · rintro i k (rfl | rfl | rfl) <;>
        · rw [World.flag_onNode]
          split
          case isTrue heq => simp [heq, World.flag]
          case isFalse => rfl
    · rfl

/-- A resume of nobody leaves a node running without an instance. -/
theorem Sys.running_of_resumesNobody {s s' : Sys n} {l : Label n}
    (h : s.resumesNobody g l = true)
    (hstep : Sys.next g s l = some s') :
    ∃ j, g.hasSpawn j = true ∧ s'.world.flag j .detached = false ∧
      s'.world.flag j .running = true ∧ s'.world.inst j = .absent := by
  cases Sys.next_cases hstep with
  | begin | task | setDisabled | cancel => simp [resumesNobody] at h
  | @advance i c c' w _ hcall hcarry =>
      simp only [resumesNobody, hcall, Option.any_some] at h
      unfold Call.resumesNobody at h
      split at h
      case h_2 | h_3 | h_4 | h_5 | h_6 | h_7 | h_8 | h_9 => simp at h
      rename_i j todo
      obtain ⟨⟨hpausing, hbindable⟩, habsent⟩ : (g.pausing j = true ∧
          (g.nodes j).any (s.world.bindable · j) = true) ∧ s.world.inst j = .absent := by
        simpa using h
      obtain ⟨cfg, hcfg, hbind⟩ := Option.any_eq_true _ _ |>.mp hbindable
      have hspawn := Graph.hasSpawn_of_pausing hpausing
      have hmode : cfg.mode = .pause := by
        simp only [Graph.pausing, hcfg, Option.any_some, Bool.and_eq_true, beq_iff_eq] at hpausing
        exact hpausing.1
      have hpause : g.has .pause = true := by
        apply (Bool.not_eq_false _).mp
        exact fun hnone => (g.shape_sound j cfg hcfg).pause hnone hmode
      have hvisit : (s.world.resume j).putFlag j .boundStopped false = w := by
        simp only [Call.step, Graph.bindVisit, hcfg, hbind, hmode, hpause, if_true,
          Option.some.injEq, Prod.mk.injEq] at hcarry
        exact hcarry.2
      have hdetached := (World.bindable_iff.mp hbind).2.2.2.1
      refine ⟨j, ?_, ?_, ?_, ?_⟩
      · exact hspawn
      · simp [← hvisit, hdetached, Flag.stale]
      · simp [← hvisit]
      · simp [← hvisit, habsent]

/-- **A running node has an instance up.** Where no instance is there to begin with,
along every run in which the second phase of `apply_bind` resumes nobody, every
running node that the supervisor spawns has had an instance spawned, or a parked one
resumed, since its last acknowledgement or exit; and a resume of nobody leaves a
running node that has none. -/
theorem running_instance_up (g : Graph n) {s s' : Sys n} {labels : List (Label n)}
    (hdown : ∀ j, s.world.flag j .running = false)
    (hfresh : ∀ j, s.world.flag j .dropped = false)
    (habsent : ∀ j, s.world.inst j = .absent)
    (halong : Along (Sys.next g) (fun t l => t.resumesNobody g l = false) s labels)
    (hrun : exec (Sys.next g) s labels = some s') :
    (∀ j, g.hasSpawn j = true → s'.world.flag j .running = true → s'.world.inst j = .up) ∧
    ∀ l t, s'.resumesNobody g l = true → Sys.next g s' l = some t →
      ∃ j, g.hasSpawn j = true ∧ t.world.flag j .detached = false ∧
        t.world.flag j .running = true ∧ t.world.inst j = .absent := by
  have hstart : s.world.InstancesUp g := by
    refine ⟨fun j _ hj => ?_, fun j _ hj => ?_, fun j _ => ?_⟩
    · simp [hdown j] at hj
    · simp [World.hasAckedStop_iff, hfresh j] at hj
    · simp [habsent j]
  refine ⟨(instancesUp_of_exec hstart halong hrun).up, ?_⟩
  exact fun l t hnobody hstep => Sys.running_of_resumesNobody hnobody hstep

/-- Two slots as in `clientAndLink`, the client in `Pause` mode. -/
def pausingClient : Graph 2 where
  deps j := if j = 1 then [0] else []
  order := [0, 1]
  topological := topological_two
  nodes j := some { mode := if j = 1 then .pause else .terminate, spawn := some .fn,
                    readyDeps := if j = 1 then [0] else [],
                    boundDeps := if j = 1 then [0] else [],
                    slotTimeout := 5000000, ackTimeout := 2000000 }
  shape_sound _ cfg _ := cfg.fitsShape_all
  pools_sound := pools_sound_two

/-- Nothing runs, nothing is there. -/
def pausingClientDown : Sys 2 := { world := { node := fun _ => {} } }

/-- Boot: the link comes up at once, the client waits for its readiness. -/
def pausingClientBoot : List (Label 2) :=
  .begin (.start fun _ => true) :: List.replicate 8 (.advance 0)

theorem running_instance_up_pausingClient :
    ∃ s, exec (Sys.next pausingClient) pausingClientDown pausingClientBoot = some s ∧
      s.world.flag 0 .running = true ∧ s.world.inst 0 = .up := by
  have hboot : (exec (Sys.next pausingClient) pausingClientDown pausingClientBoot).isSome =
      true := rfl
  refine ⟨_, (Option.some_get hboot).symm, rfl, ?_⟩
  exact (running_instance_up pausingClient (fun _ => rfl) (fun _ => rfl) (fun _ => rfl)
    (by decide) (Option.some_get hboot).symm).1 0 rfl rfl

/-- The client's budget runs out, and the link becomes ready only then. -/
def resumeOfNobody : List (Label 2) :=
  pausingClientBoot ++ [.task (.elapse 5000000)] ++ List.replicate 5 (.advance 0) ++
    [.task (.setReady 0), .begin .applyBind] ++ List.replicate 10 (.advance 1)

/-- The end of that run. -/
def clientResumed : Option (Sys 2) :=
  exec (Sys.next pausingClient) pausingClientDown resumeOfNobody

/-- Boot puts the client off, and `apply_bind` resumes it although it was never
spawned: both calls have returned, and it runs without an instance. -/
theorem resumes_client_never_spawned :
    ¬ ∀ (labels : List (Label 2)) (s : Sys 2),
      Along (Sys.next pausingClient) Sys.Sequential pausingClientDown labels →
      exec (Sys.next pausingClient) pausingClientDown labels = some s →
      (∀ c ∈ s.calls, c.finished = true) →
      ∀ j, s.world.flag j .detached = false → pausingClient.hasSpawn j = true →
        s.world.flag j .running = true → s.world.inst j = .up := by
  intro h
  have hup := h resumeOfNobody (clientResumed.get rfl) (by decide) (Option.some_get _).symm
    (by decide) 1 rfl rfl rfl
  exact absurd hup (by decide)

end EmbassySupervisor
