/-
# When a stop reports a missed acknowledgement

A stop wave and a `stop_node` both wait for the acknowledgement of what they have
signalled, the wave by looking at the flag between two sleeps and `stop_node` on the latch
beside it. Either reports `ShutdownTimeout` when the node's window has passed without it.
Another call may act in between, and a bring-up resets the flag and the latch.

`timeout_missed` says that a report is right: the call had signalled the node, and no
instance of it dropped before its window had passed. It needs that nobody else takes an
acknowledgement away from a stop that still waits for it, and that no node answers in the
last millisecond of its window, which the clock of a wave may already take for too late. In
`timeout_of_restarted` an `apply_bind` and a `restart` stop the same node, the restart
brings it up again, and `apply_bind` reports a node that acknowledged at once.
-/

import EmbassySupervisor.Verb.BoundLaw
import EmbassySupervisor.Verb.System
import EmbassySupervisor.Wave.StopOrder

namespace EmbassySupervisor

open LabelledRun

variable {n : ℕ}

/-! ## Drops in the history -/

/-- The drops of a node's instances, as the history has them. -/
def World.drops (w : World n) (j : Fin n) : List (ℕ × Record n) :=
  w.log.filter fun r => decide (r.2 = .dropped j)

section Drops

variable {g : Graph n} {w w' : World n} {j : Fin n}

theorem drops_of_log {l : List (ℕ × Record n)} (h : w'.log = l ++ w.log)
    (hnew : ∀ r ∈ l, r.2 ≠ .dropped j) : w'.drops j = w.drops j := by
  unfold World.drops
  rw [h, List.filter_append]
  simpa using hnew

/-- A drop is the newest entry of the node's. -/
theorem Drops.drops_eq {i : Fin n} (h : Drops w i w') :
    w'.drops j = if j = i then (w.now, .dropped j) :: w.drops j else w.drops j := by
  obtain ⟨released, hlog, hreleased⟩ := h.log
  have hnone : released.filter (fun r => decide (r.2 = .dropped j)) = [] := by
    rw [List.filter_eq_nil_iff]
    intro r hr
    simp [hreleased r hr]
  unfold World.drops
  rw [hlog, List.filter_cons, List.filter_append, hnone, List.nil_append]
  by_cases hij : j = i
  · simp [hij]
  · simp [hij, Ne.symm hij]

theorem drops_of_log_eq (h : w'.log = w.log) : w'.drops j = w.drops j :=
  drops_of_log (by rw [h, List.nil_append]) (by simp)

theorem drops_note (i : Fin n) (t : Transition n) : (w.note i t).drops j = w.drops j :=
  drops_of_log (l := [(w.now, .note i t)]) rfl (by simp)

theorem drops_takeAck (i : Fin n) : (w.takeAck i).drops j = w.drops j :=
  drops_note (w := w.setRunning i false) i _

theorem drops_missAck (cfg : NodeCfg n) (i : Fin n) :
    (w.missAck g cfg i).drops j = w.drops j := by
  obtain ⟨released, hlog, hreleased⟩ := w.log_missAck g cfg i
  apply drops_of_log (l := (w.now, .note i (.faulted .shutdownTimeout)) :: released) hlog
  intro r hr
  rcases List.mem_cons.mp hr with rfl | hr
  · simp
  · simp [hreleased r hr]

theorem StopWave.drops_eq {s s' : StopWave n} (h : s.Step g w s' w') :
    w'.drops j = w.drops j := by
  cases h with
  | signal => exact drops_note (w := w.signalShutdown _) _ _
  | collect => exact drops_takeAck _
  | giveUp | abort => exact drops_missAck _ _
  | skip | passOver | finish | examine => rfl
  | turn _ _ hw => rcases hw with rfl | rfl <;> rfl

theorem StartWave.drops_eq {s s' : StartWave n} (h : s.Step g w s' w') :
    w'.drops j = w.drops j := by
  cases h with
  | arm | resume | mark | park | spawn => simp [World.drops]
  | fault _ hw | abort _ hw => rcases hw with rfl | rfl <;> simp [World.drops]
  | busy _ _ hw => rcases hw with rfl | ⟨slot, rfl⟩ <;> rfl
  | finish => rfl
  | turn _ hw => rcases hw with rfl | rfl <;> rfl

theorem StartEffect.drops_eq {cfg : NodeCfg n} {i : Fin n} {e : StartEnd n}
    (h : StartEffect cfg w i e w') : w'.drops j = w.drops j := by
  cases h with
  | started _ hw _ | parked hw _ => simp [World.drops, hw.log]
  | faulted hw _ | waits hw => rcases hw with hw | hw <;> simp [World.drops, hw.log]

theorem StartEntry.drops_eq {i : Fin n} {e : StartEnd n} (h : StartEntry g w i e w') :
    w'.drops j = w.drops j := by
  cases h with
  | absent => rfl
  | gated _ h => rw [h.drops_eq, drops_note, drops_of_log_eq (World.log_putFlag _ _ _)]
  | marked => simp [World.drops]

theorem Call.drops_eq {c c' : Call n} (h : c.Step g w c' w') : w'.drops j = w.drops j := by
  cases h with
  | stopWave h => exact StopWave.drops_eq h
  | startWave h => exact StartWave.drops_eq h
  | startDone _ hw => exact drops_of_log_eq hw.log
  | startNode _ h => exact h.drops_eq
  | ackNode => exact drops_takeAck _
  | missNode => exact drops_missAck _ _
  | bindStart _ _ _ h => exact h.drops_eq
  | bindResume => simp [World.drops]
  | bindUnmark _ _ _ hw => exact drops_of_log_eq hw.log
  | stopFault | stopDone | restartUp | bindPhase | stopPanic | startPanic | bindEnd
  | bindSkip => rfl

theorem drops_resumeAll (js : List (Fin n)) : (g.resumeAll w js).drops j = w.drops j := by
  unfold Graph.resumeAll
  induction js generalizing w with
  | nil => rfl
  | cons i js ih =>
      rw [List.foldl_cons, ih]
      split
      · simp [World.drops]
      · rfl

theorem Begun.drops_eq {v : Verb n} {c : Call n} (h : Begun g w v c w') :
    w'.drops j = w.drops j := by
  cases h with
  | idle hw | startWave hw | stopWave hw => exact drops_of_log_eq hw.log
  | bindWave _ hmark =>
      apply drops_of_log hmark.log
      intro r hr
      obtain ⟨i, -, rfl⟩ := List.mem_map.mp hr
      simp
  | startNode h | grow _ _ _ h => exact h.drops_eq
  | stopNow => rw [drops_takeAck, drops_note, drops_of_log_eq (World.log_signalShutdown _)]
  | stopWait => rw [drops_note, drops_of_log_eq (World.log_signalShutdown _)]
  | resumes => exact drops_resumeAll _

/-! ## The clock stands still while calls act -/

theorem Call.Step.now_eq {c c' : Call n} (h : c.Step g w c' w') : w'.now = w.now := by
  cases h with
  | stopWave h => exact h.now_eq
  | startWave h => exact h.now_eq
  | startDone _ hw => exact hw.now
  | startNode _ h => exact h.now_eq
  | ackNode => rfl
  | missNode => simp
  | bindStart _ _ _ h => exact h.now_eq
  | bindResume => simp
  | bindUnmark _ _ _ hw => exact hw.now
  | stopFault | stopDone | restartUp | bindPhase | stopPanic | startPanic | bindEnd
  | bindSkip => rfl

theorem now_resumeAll (js : List (Fin n)) : (g.resumeAll w js).now = w.now := by
  unfold Graph.resumeAll
  induction js generalizing w with
  | nil => rfl
  | cons i js ih =>
      rw [List.foldl_cons, ih]
      split
      · simp
      · rfl

theorem Begun.now_eq {v : Verb n} {c : Call n} (h : Begun g w v c w') : w'.now = w.now := by
  cases h with
  | idle hw | startWave hw | stopWave hw => exact hw.now
  | bindWave _ hmark => exact hmark.now
  | startNode h | grow _ _ _ h => exact h.now_eq
  | stopNow | stopWait => simp
  | resumes => exact now_resumeAll _

end Drops

/-! ## Stops in flight -/

theorem World.stopNode_eq_some {w w' : World n} {cfg : NodeCfg n} {j : Fin n} {deadline : ℕ}
    (h : w.stopNode cfg j = (some deadline, w')) :
    w' = (w.signalShutdown j).note j .stopRequested ∧ deadline = w.now + cfg.ackTimeout := by
  unfold World.stopNode at h
  split at h
  · cases h
  · simp only at h
    split at h
    · cases h
    · cases h
      exact ⟨rfl, rfl⟩

/-- No stretch of `start_node` reports a missed acknowledgement. -/
theorem StartEffect.kind_ne {cfg : NodeCfg n} {w w' : World n} {j : Fin n} {f : NodeFault n}
    (h : StartEffect cfg w j (.done (some f)) w') : f.kind ≠ .shutdownTimeout := by
  cases h with
  | faulted _ hkind => exact hkind

theorem StartEntry.kind_ne {g : Graph n} {w w' : World n} {j : Fin n} {f : NodeFault n}
    (h : StartEntry g w j (.done (some f)) w') : f.kind ≠ .shutdownTimeout := by
  cases h with
  | gated _ h => exact h.kind_ne

namespace Call

/-- The call has signalled the node and waits for its acknowledgement. -/
def awaits (j : Fin n) : Call n → Bool
  | .stopping wave _ =>
    match wave.pc with
    | .panic | .done _ => false
    | .signal _ | .collect _ _ | .expire _ _ _ _ | .sleep _ =>
      wave.unresolved j && wave.signaled j != unsignaled
  | .stopNode i _ => decide (i = j)
  | .starting _ _ | .startNode _ _ _ | .bindUp _ | .done _ | .panic | .cancelled => false

/-- The acknowledgement is there to be found: a wave looks at the flag, a `stop_node` at
the latch. -/
def answered (w : World n) (j : Fin n) : Call n → Bool
  | .stopNode _ _ => (w.node j).droppedWake
  | .stopping _ _ | .starting _ _ | .startNode _ _ _ | .bindUp _ | .done _ | .panic
  | .cancelled => w.flag j .dropped

/-- What the call keeps of the instant at which it signalled the node. -/
def AskedAt (g : Graph n) (j : Fin n) (t : ℕ) : Call n → Prop
  | .stopping wave _ => wave.epoch ≤ t ∧ wave.signaled j = g.asMillis (t - wave.epoch)
  | .stopNode _ deadline => ∃ cfg, g.nodes j = some cfg ∧ deadline = t + cfg.ackTimeout
  | .starting _ _ | .startNode _ _ _ | .bindUp _ | .done _ | .panic | .cancelled => False

/-- The call has returned the fault, or is going to. -/
def Reports (f : NodeFault n) : Call n → Prop
  | .stopping wave _ => wave.firstErr = some f ∨ wave.pc = .done (some f)
  | .starting wave _ => wave.firstErr = some f ∨ wave.pc = .done (some f)
  | .done r => r = some f
  | .startNode _ _ _ | .stopNode _ _ | .bindUp _ | .panic | .cancelled => False

/-- A verb begins with a wave that has signalled nobody. -/
theorem launched_of_begin {g : Graph n} {w w' : World n} {v : Verb n} {wave : StopWave n}
    {after : AfterStop n} (h : g.begin w v = (.stopping wave after, w')) :
    ∃ chosen keepGoing, wave = StopWave.launch g w' chosen keepGoing := by
  have hbegun := begin_cases g w v
  rw [h] at hbegun
  generalize heq : (Call.stopping wave after, w').1 = c at hbegun
  cases hbegun with
  | stopWave _ hsel | bindWave hsel =>
      cases heq
      exact ⟨_, _, hsel.launch⟩
  | startNode | grow => exact absurd heq.symm (proceed_ne_stopping _ _ _ _ _)
  | idle | startWave | stopNow | stopWait | resumes => cases heq

/-- A `stop_node` begins with a signal, and its deadline is the node's own. -/
theorem stopNode_of_begin {g : Graph n} {w w' : World n} {v : Verb n} {j : Fin n}
    {deadline : ℕ} (h : g.begin w v = (.stopNode j deadline, w')) :
    w'.log = (w.now, .note j .stopRequested) :: w.log ∧
      ∃ cfg, g.nodes j = some cfg ∧ deadline = w.now + cfg.ackTimeout := by
  have entry : ∀ {cfg : NodeCfg n}, g.nodes j = some cfg →
      w.stopNode cfg j = (some deadline, w') →
      w'.log = (w.now, .note j .stopRequested) :: w.log ∧
        ∃ cfg, g.nodes j = some cfg ∧ deadline = w.now + cfg.ackTimeout := by
    intro cfg hcfg hstop
    obtain ⟨rfl, rfl⟩ := World.stopNode_eq_some hstop
    exact ⟨rfl, cfg, hcfg, rfl⟩
  cases v with
  | stopNode i =>
      simp only [Graph.begin] at h
      split at h
      · cases h
      · next cfg hcfg =>
          split at h
          · cases h
          · next d u hstop =>
              cases h
              exact entry hcfg hstop
  | scale pool action =>
      simp only [Graph.begin] at h
      split at h
      · cases h
      · cases action with
        | none => cases h
        | grow =>
            simp only at h
            split at h
            · cases h
            · split at h
              · exact absurd (congrArg Prod.fst h) (proceed_ne_stopNode _ _ _ _ _)
              · cases h
        | shrink =>
            simp only at h
            split at h
            · cases h
            · split at h
              · cases h
              · next cfg hcfg =>
                  split at h
                  · cases h
                  · next d u hstop =>
                      cases h
                      exact entry hcfg hstop
  | startNode i => exact absurd (congrArg Prod.fst h) (proceed_ne_stopNode _ _ _ _ _)
  | start | teardown | teardownContinue | respawnTerminate | deactivate | activate => cases h
  | resumeNode | resumePausable | applyBind =>
      simp only [Graph.begin] at h
      split at h <;> cases h
  | restart target =>
      simp only [Graph.begin] at h
      split at h <;> cases h
/-- A fault that a stretch of `start_node` hands on is its own. -/
theorem of_reports_proceed {next : AfterStart n} {j : Fin n} {e : StartEnd n} {f : NodeFault n}
    (h : (next.proceed j e).Reports f) : e = .done (some f) := by
  cases e with
  | wait phase => cases h
  | done r =>
      cases next with
      | ret => exact congrArg StartEnd.done h
      | ignore => cases h
      | bind todo => cases h

/-- No front half reports a missed acknowledgement. -/
theorem kind_of_begin {g : Graph n} {w w' : World n} {v : Verb n} {c : Call n}
    (h : g.begin w v = (c, w')) {f : NodeFault n} (hf : c.Reports f) :
    f.kind ≠ .shutdownTimeout := by
  have entry : ∀ {next : AfterStart n} {j : Fin n},
      c = next.proceed j (g.startNode w j).1 → f.kind ≠ .shutdownTimeout := by
    rintro next j rfl
    have hentry := startNode_cases g w j
    rw [of_reports_proceed hf] at hentry
    exact hentry.kind_ne
  have idle : c ≠ .done none := by
    rintro rfl
    cases hf
  have waits : ∀ j deadline, c ≠ .stopNode j deadline := by
    rintro j deadline rfl
    exact hf
  have launched : ∀ chosen keepGoing after u,
      c ≠ .stopping (StopWave.launch g u chosen keepGoing) after := by
    rintro chosen keepGoing after u rfl
    rcases hf with hf | hf <;> cases hf
  have raised : ∀ pending keepGoing poke u,
      c ≠ .starting (StartWave.launch g u pending keepGoing) poke := by
    rintro pending keepGoing poke u rfl
    rcases hf with hf | hf <;> cases hf
  have hc : (g.begin w v).1 = c := congrArg Prod.fst h
  cases v with
  | start | respawnTerminate | activate => exact absurd hc.symm (raised _ _ _ _)
  | teardown | teardownContinue | deactivate => exact absurd hc.symm (launched _ _ _ _)
  | startNode j => exact entry hc.symm
  | stopNode j =>
      simp only [Graph.begin] at h
      split at h
      · cases h
        exact absurd rfl idle
      · split at h
        · cases h
          exact absurd rfl idle
        · cases h
          exact absurd rfl (waits _ _)
  | resumeNode | resumePausable =>
      simp only [Graph.begin] at h
      split at h <;> (cases h; exact absurd rfl idle)
  | restart target =>
      simp only [Graph.begin] at h
      split at h
      · cases h
        cases hf
        simp
      · cases h
        exact absurd rfl (launched _ _ _ _)
  | applyBind =>
      simp only [Graph.begin] at h
      split at h
      · cases h
        exact absurd rfl (launched _ _ _ _)
      · cases h
        exact absurd rfl idle
  | scale pool action =>
      simp only [Graph.begin] at h
      split at h
      · cases h
        exact absurd rfl idle
      · cases action with
        | none =>
            cases h
            exact absurd rfl idle
        | grow =>
            simp only at h
            split at h
            · cases h
              exact absurd rfl idle
            · split at h
              · exact entry (congrArg Prod.fst h).symm
              · cases h
                exact absurd rfl idle
        | shrink =>
            simp only at h
            split at h
            · cases h
              exact absurd rfl idle
            · split at h
              · cases h
                exact absurd rfl idle
              · split at h
                · cases h
                  exact absurd rfl idle
                · cases h
                  exact absurd rfl (waits _ _)

/-- Only a stop wave goes on as one, and only one that is not over. -/
theorem stopping_of_step {g : Graph n} {w w' : World n} {c : Call n} {wave' : StopWave n}
    {next : AfterStop n} (h : c.step g w = some (.stopping wave' next, w')) :
    ∃ wave, c = .stopping wave next ∧ wave.Step g w wave' w' ∧ ∀ r, wave.pc ≠ .done r := by
  have hlive : ∀ wave after, c = .stopping wave after → ∀ r, wave.pc ≠ .done r := by
    rintro wave after rfl r hpc
    cases r with
    | some f => simp [step, hpc] at h
    | none => cases after <;> simp [step, hpc] at h
  have hstep := step_cases h
  generalize heq : Call.stopping wave' next = c' at hstep
  cases hstep with
  | stopWave hwave =>
      cases heq
      exact ⟨_, rfl, hwave, hlive _ _ rfl⟩
  | startNode | bindStart => exact absurd heq.symm (proceed_ne_stopping _ _ _ _ _)
  | startWave | stopFault | stopDone | restartUp | bindPhase | stopPanic | startPanic
  | startDone | ackNode | missNode | bindEnd | bindSkip | bindResume | bindUnmark => cases heq

/-- A `stop_node` that waits is not carried on, but ends. -/
theorem step_ne_stopNode {g : Graph n} {w w' : World n} {c : Call n} {j : Fin n}
    {deadline : ℕ} : c.step g w ≠ some (.stopNode j deadline, w') := by
  intro h
  have hstep := step_cases h
  generalize heq : Call.stopNode j deadline = c' at hstep
  cases hstep with
  | startNode | bindStart => exact absurd heq.symm (proceed_ne_stopNode _ _ _ _ _)
  | stopWave | startWave | stopFault | stopDone | restartUp | bindPhase | stopPanic
  | startPanic | startDone | ackNode | missNode | bindEnd | bindSkip | bindResume
  | bindUnmark => cases heq

/-- A wave's step that signals nobody leaves its stamps and its answers alone. -/
theorem awaits_of_wave {g : Graph n} {w w' : World n} {wave wave' : StopWave n}
    {after : AfterStop n} {j : Fin n} (h : wave.Step g w wave' w')
    (hlive : ∀ r, wave.pc ≠ .done r)
    (hawaits : (Call.stopping wave' after).awaits j = true) :
    ((Call.stopping wave after).awaits j = true ∧ wave'.signaled j = wave.signaled j) ∨
      (w'.log = (w.now, .note j .stopRequested) :: w.log ∧
        ∃ todo, wave.pc = .signal (j :: todo) ∧
          wave'.signaled j = min (wave.clock g w) (unsignaled - 1)) := by
  have hopen : wave'.unresolved j = true ∧ wave'.signaled j ≠ unsignaled := by
    simp only [awaits] at hawaits
    split at hawaits <;> simp_all
  have of_pc : wave.pc ≠ .panic → wave.unresolved j = true → wave.signaled j ≠ unsignaled →
      (Call.stopping wave after).awaits j = true := by
    intro hpanic hunresolved hsignaled
    simp only [awaits]
    split
    · next hpc => exact absurd hpc hpanic
    · next hpc => exact absurd hpc (hlive _)
    all_goals simp [hunresolved, hsignaled]
  cases h with
  | @signal i todo cfg hpc _ hfresh =>
      by_cases hij : j = i
      · subst hij
        exact Or.inr ⟨rfl, todo, hpc, by simp⟩
      · have hsame : (Function.update wave.signaled i
            (min (wave.clock g w) (unsignaled - 1))) j = wave.signaled j :=
          Function.update_of_ne hij _ _
        have hsignaled := hopen.2
        simp only [hsame] at hsignaled
        exact Or.inl ⟨of_pc (by simp [hpc]) hopen.1 hsignaled, hsame⟩
  | @collect i todo progress cfg hpc | @giveUp i todo nowMs deadline progress cfg hpc =>
      have hij : j ≠ i := by
        rintro rfl
        simp [StopWave.unresolved] at hopen
      have hunresolved : wave.unresolved j = true := by
        simpa [StopWave.unresolved, Function.update_of_ne hij] using hopen.1
      exact Or.inl ⟨of_pc (by simp [hpc]) hunresolved hopen.2, rfl⟩
  | skip hpc | passOver hpc | examine hpc =>
      exact Or.inl ⟨of_pc (by simp [hpc]) hopen.1 hopen.2, rfl⟩
  | abort | finish => simp [awaits] at hawaits
  | turn hpc hturn =>
      cases hturn with
      | startCollect | skipExpire | rest =>
          exact Or.inl ⟨of_pc (by simp [hpc]) hopen.1 hopen.2, rfl⟩
      | again _ hpanic =>
          rw [← hpc] at hpanic
          exact Or.inl ⟨of_pc hpanic hopen.1 hopen.2, rfl⟩
      | panic => simp [awaits] at hawaits

/-- What a stop waits for after a step of its own it waited for before, or has just
signalled. -/
theorem awaits_of_step {g : Graph n} {w w' : World n} {c c' : Call n} {j : Fin n}
    (h : c.step g w = some (c', w')) (hawaits : c'.awaits j = true) :
    (c.awaits j = true ∧ (∀ t, c.AskedAt g j t → c'.AskedAt g j t) ∧
      (c.answered w j = true → c'.answered w' j = true)) ∨
      (w'.log = (w.now, .note j .stopRequested) :: w.log ∧ ∃ wave after todo,
        c = .stopping wave after ∧ wave.pc = .signal (j :: todo) ∧
        (wave.epoch ≤ w.now → wave.clock g w < unsignaled → c'.AskedAt g j w.now)) := by
  cases c' with
  | stopping wave' after =>
      obtain ⟨wave, rfl, hwave, hlive⟩ := stopping_of_step h
      have hepoch := hwave.static.2.2
      rcases awaits_of_wave hwave hlive hawaits with ⟨hbefore, hsame⟩ | ⟨hlog, todo, hpc, hstamp⟩
      · refine Or.inl ⟨hbefore, fun t hat => ?_, fun hanswered => ?_⟩
        · obtain ⟨hle, hstamp⟩ := hat
          exact ⟨hepoch ▸ hle, by rw [hsame, hepoch, hstamp]⟩
        · have hflag := hwave.flag_eq j (k := .dropped) (by decide) (by decide)
          exact hflag.trans hanswered
      · refine Or.inr ⟨hlog, wave, after, todo, rfl, hpc, fun hle hclock => ?_⟩
        refine ⟨hepoch ▸ hle, ?_⟩
        rw [hstamp, hepoch]
        exact min_eq_left (Nat.le_sub_one_of_lt hclock)
  | stopNode i deadline => exact absurd h step_ne_stopNode
  | starting | startNode | bindUp | done | panic | cancelled => simp [awaits] at hawaits

/-- The call is about to give up on the node. -/
def GivesUp (g : Graph n) (w : World n) (j : Fin n) : Call n → Prop
  | .stopping wave _ => ∃ todo nowMs deadline progress cfg,
    wave.pc = .expire (j :: todo) nowMs deadline progress ∧ g.nodes j = some cfg ∧
      wave.dueMs g cfg j ≤ nowMs
  | .stopNode _ deadline => (w.node j).droppedWake = false ∧ deadline ≤ w.now
  | .starting _ _ | .startNode _ _ _ | .bindUp _ | .done _ | .panic | .cancelled => False

theorem reports_of_wave {g : Graph n} {w w' : World n} {wave wave' : StopWave n}
    {after : AfterStop n} {f : NodeFault n} (h : wave.Step g w wave' w')
    (hf : (Call.stopping wave' after).Reports f) :
    (Call.stopping wave after).Reports f ∨ ((Call.stopping wave after).awaits f.node = true ∧
      (Call.stopping wave after).GivesUp g w f.node) := by
  cases h with
  | @giveUp j todo nowMs deadline progress cfg hpc hopen hsignaled hcfg hdue =>
      rcases hf with hf | hf
      · cases herr : wave.firstErr with
        | some e =>
            simp only [herr, Option.some_or] at hf
            exact Or.inl (Or.inl (herr.trans hf))
        | none =>
            simp only [herr, Option.none_or, Option.some.injEq] at hf
            subst hf
            exact Or.inr ⟨by simp [awaits, hpc, hopen, hsignaled], todo, nowMs, deadline, progress,
              cfg, hpc, hcfg, hdue⟩
      · cases hf
  | @abort j todo nowMs deadline progress cfg hpc hopen hsignaled hcfg hdue =>
      rcases hf with hf | hf
      · exact Or.inl (Or.inl hf)
      · cases hf
        exact Or.inr ⟨by simp [awaits, hpc, hopen, hsignaled], todo, nowMs, deadline, progress,
          cfg, hpc, hcfg, hdue⟩
  | finish =>
      rcases hf with hf | hf
      · exact Or.inl (Or.inl hf)
      · exact Or.inl (Or.inl (StopPc.done.inj hf))
  | signal | skip | collect | passOver | examine =>
      rcases hf with hf | hf
      · exact Or.inl (Or.inl hf)
      · cases hf
  | turn hpc hturn =>
      rcases hf with hf | hf
      · exact Or.inl (Or.inl hf)
      · cases hturn <;> cases hf

theorem reports_of_startWave {g : Graph n} {w w' : World n} {wave wave' : StartWave n}
    {poke : Bool} {f : NodeFault n} (h : wave.Step g w wave' w')
    (hf : (Call.starting wave' poke).Reports f) (hkind : f.kind = .shutdownTimeout) :
    (Call.starting wave poke).Reports f := by
  cases h with
  | @fault j _ _ _ kind _ _ _ hne =>
      rcases hf with hf | hf
      · cases herr : wave.firstErr with
        | some e =>
            simp only [herr, Option.some_or] at hf
            exact Or.inl (herr.trans hf)
        | none =>
            simp only [herr, Option.none_or, Option.some.injEq] at hf
            subst hf
            exact absurd hkind hne
      · cases hf
  | abort _ _ hne =>
      rcases hf with hf | hf
      · exact Or.inl hf
      · cases hf
        exact absurd hkind hne
  | finish =>
      rcases hf with hf | hf
      · exact Or.inl hf
      · exact Or.inl (StartPc.done.inj hf)
  | arm h =>
      rcases hf with hf | hf
      · exact Or.inl hf
      · exact Or.inr hf
  | resume | mark | park | spawn | busy =>
      rcases hf with hf | hf
      · exact Or.inl hf
      · cases hf
  | turn hturn =>
      rcases hf with hf | hf
      · exact Or.inl hf
      · cases hturn <;> cases hf

/-- A missed acknowledgement that a call reports after a step it reported before, or it has
just given up on the node. -/
theorem reports_of_step {g : Graph n} {w w' : World n} {c c' : Call n} {f : NodeFault n}
    (h : c.step g w = some (c', w')) (hf : c'.Reports f) (hkind : f.kind = .shutdownTimeout) :
    c.Reports f ∨ (c.awaits f.node = true ∧ c.GivesUp g w f.node) := by
  cases step_cases h with
  | stopWave hwave => exact reports_of_wave hwave hf
  | startWave hwave => exact Or.inl (reports_of_startWave hwave hf hkind)
  | stopFault hpc =>
      cases hf
      exact Or.inl (Or.inr hpc)
  | startDone hpc =>
      cases hf
      exact Or.inl (Or.inr hpc)
  | restartUp =>
      rcases hf with hf | hf <;> cases hf
  | startNode _ hstart =>
      rw [of_reports_proceed hf] at hstart
      exact absurd hkind hstart.kind_ne
  | bindStart _ _ _ hstart =>
      rw [of_reports_proceed hf] at hstart
      exact absurd hkind hstart.kind_ne
  | missNode hwake hdue =>
      cases hf
      exact Or.inr ⟨by simp [awaits], hwake, hdue⟩
  | stopDone | bindPhase | stopPanic | startPanic | ackNode | bindEnd | bindSkip | bindResume
  | bindUnmark => cases hf

end Call

namespace Sys

/-- The call a step begins or carries on. -/
def caller (s : Sys n) : Label n → Option ℕ
  | .begin _ => some s.calls.length
  | .advance i => some i
  | .task _ | .setDisabled _ _ | .cancel _ => none

/-- The acknowledgements that are there for the stops of other calls stay there. -/
def keepsAnswers (g : Graph n) (s : Sys n) (l : Label n) : Bool :=
  (s.next g l).all fun t => (List.range s.calls.length).all fun i =>
    (s.calls[i]?).all fun c => (List.finRange n).all fun j =>
      s.caller l == some i || !(c.awaits j && c.answered s.world j) || c.answered t.world j

/-- No wave signals a node when its clock has run out of stamps. -/
def stampable (g : Graph n) (s : Sys n) : Label n → Bool
  | .advance i =>
    match s.calls[i]? with
    | some (.stopping wave _) =>
      match wave.pc with
      | .signal (_ :: _) => decide (wave.clock g s.world < unsignaled)
      | _ => true
    | _ => true
  | .begin _ | .task _ | .setDisabled _ _ | .cancel _ => true

/-- No stop that the node has not answered yet is in the last millisecond of its window. -/
def offEdge (g : Graph n) (w : World n) (j : Fin n) : Bool :=
  (w.log.takeWhile fun r => decide (r.2 ≠ .dropped j)).all fun r =>
    !decide (r.2 = .note j .stopRequested) || (g.nodes j).all fun cfg =>
      decide (cfg.ackTimeout ≤ w.now - r.1) ||
        decide (g.asMillis (w.now - r.1) + 1 < g.asMillis cfg.ackTimeout)

/-- Nothing drops in the last millisecond of a window it is to answer in. -/
def dropsOffEdge (g : Graph n) (s : Sys n) (l : Label n) : Bool :=
  (s.next g l).all fun t => (List.finRange n).all fun j =>
    decide (t.world.drops j = s.world.drops j) || offEdge g s.world j

variable (g : Graph n) (s₀ : Sys n)

/-- In a run that ends in `s`, the call at an index signals the node in the step from `u` to
`v`. -/
structure Asked (labels : List (Label n)) (s : Sys n) (i : ℕ) (j : Fin n) (u v : Sys n) :
    Prop where
  step : ∃ front l back, labels = front ++ l :: back ∧ exec (next g) s₀ front = some u ∧
    next g u l = some v ∧ exec (next g) v back = some s ∧ u.caller l = some i
  log : v.world.log = (u.world.now, .note j .stopRequested) :: u.world.log

/-- The call at the index signalled the node, and what has dropped of the node since then did
so after the window. -/
def MissedAck (labels : List (Label n)) (s : Sys n) (i : ℕ) (j : Fin n) : Prop :=
  ∃ u v cfg new, Asked g s₀ labels s i j u v ∧ g.nodes j = some cfg ∧
    s.world.drops j = new ++ v.world.drops j ∧ ∀ r ∈ new, u.world.now + cfg.ackTimeout ≤ r.1

/-- At some point of the run the node had not dropped since the call at the index signalled
it, although its window had passed on a clock that counts whole milliseconds. -/
def MissedOnClock (labels : List (Label n)) (i : ℕ) (j : Fin n) : Prop :=
  ∃ front back s u v cfg epoch, labels = front ++ back ∧ Asked g s₀ front s i j u v ∧
    s.world.drops j = v.world.drops j ∧ g.nodes j = some cfg ∧ epoch ≤ u.world.now ∧
    g.asMillis (u.world.now - epoch) + g.asMillis cfg.ackTimeout ≤
      g.asMillis (s.world.now - epoch)

variable {g s₀} {labels : List (Label n)} {s t u v : Sys n} {l : Label n} {i : ℕ} {j : Fin n}

theorem Asked.start (hrun : exec (next g) s₀ labels = some s) (hnext : next g s l = some t)
    (hcaller : s.caller l = some i)
    (hlog : t.world.log = (s.world.now, .note j .stopRequested) :: s.world.log) :
    Asked g s₀ (labels ++ [l]) t i j s t :=
  ⟨⟨labels, l, [], rfl, hrun, hnext, rfl, hcaller⟩, hlog⟩

theorem Asked.snoc (h : Asked g s₀ labels s i j u v) (hnext : next g s l = some t) :
    Asked g s₀ (labels ++ [l]) t i j u v := by
  obtain ⟨⟨front, k, back, rfl, hfront, hstep, hback, hcaller⟩, hlog⟩ := h
  exact ⟨⟨front, k, back ++ [l], by simp, hfront, hstep, exec_snoc hback hnext, hcaller⟩, hlog⟩

theorem MissedOnClock.snoc (h : MissedOnClock g s₀ labels i j) (l : Label n) :
    MissedOnClock g s₀ (labels ++ [l]) i j := by
  obtain ⟨front, back, s, u, v, cfg, epoch, rfl, hrest⟩ := h
  exact ⟨front, back ++ [l], s, u, v, cfg, epoch, by simp, hrest⟩

/-! ## What a step makes of a call -/

/-- What has become of the call at an index. -/
inductive Becomes (g : Graph n) (s : Sys n) (l : Label n) (t : Sys n) (i : ℕ) : Call n → Prop
  | kept {c : Call n} (hold : s.calls[i]? = some c) (hcaller : s.caller l ≠ some i)
      (hrest : c.atAwait = true) : Becomes g s l t i c
  | begun {v : Verb n} {c : Call n} (hl : l = .begin v) (hi : i = s.calls.length)
      (hbegin : g.begin s.world v = (c, t.world)) : Becomes g s l t i c
  | advanced {c c' : Call n} (hl : l = .advance i) (hold : s.calls[i]? = some c)
      (hstep : c.step g s.world = some (c', t.world)) : Becomes g s l t i c'
  | cancelled : Becomes g s l t i .cancelled

theorem becomes_of_next (h : s.next g l = some t) {c : Call n} (hcall : t.calls[i]? = some c) :
    Becomes g s l t i c := by
  cases next_cases h with
  | @begin v d w hrest hbegin =>
      rcases lt_or_ge i s.calls.length with hlt | hge
      · rw [List.getElem?_append_left hlt] at hcall
        refine .kept hcall ?_ (hrest c (List.mem_of_getElem? hcall))
        simp [caller, hlt.ne']
      · rw [List.getElem?_append_right hge, List.getElem?_singleton] at hcall
        split at hcall
        · cases hcall
          exact .begun rfl (by omega) hbegin
        · cases hcall
  | @advance k d d' w hrest hold hstep =>
      by_cases hik : i = k
      · subst hik
        rw [List.getElem?_set_self (List.getElem?_eq_some_iff.mp hold).1] at hcall
        cases hcall
        exact .advanced rfl hold hstep
      · rw [List.getElem?_set_ne (Ne.symm hik)] at hcall
        refine .kept hcall ?_ (hrest i c hik hcall)
        simp [caller, Ne.symm hik]
  | task hrest =>
      exact .kept hcall (by simp [caller]) (hrest c (List.mem_of_getElem? hcall))
  | setDisabled hrest =>
      exact .kept hcall (by simp [caller]) (hrest c (List.mem_of_getElem? hcall))
  | @cancel k d hrest hold =>
      by_cases hik : i = k
      · subst hik
        rw [List.getElem?_set_self (List.getElem?_eq_some_iff.mp hold).1] at hcall
        cases hcall
        exact .cancelled
      · rw [List.getElem?_set_ne (Ne.symm hik)] at hcall
        exact .kept hcall (by simp [caller]) (hrest c (List.mem_of_getElem? hcall))

/-! ## A wave looks before it gives up -/

/-- A wave that is giving up has looked at every acknowledgement it waits for, and its
clock does not run ahead. -/
structure Looked (g : Graph n) (s : StopWave n) (w : World n) : Prop where
  epoch : s.epoch ≤ w.now
  collected : ∀ todo progress j, s.pc = .collect todo progress → j ∉ todo →
    s.unresolved j = true → w.flag j .dropped = false
  expiring : ∀ todo nowMs deadline progress, s.pc = .expire todo nowMs deadline progress →
    (∀ j, s.unresolved j = true → w.flag j .dropped = false) ∧
      nowMs ≤ g.asMillis (w.now - s.epoch)

theorem looked_of_atAwait {wave : StopWave n} {after : AfterStop n} {w : World n}
    (h : (Call.stopping wave after).atAwait = true) (hepoch : wave.epoch ≤ w.now) :
    Looked g wave w where
  epoch := hepoch
  collected todo progress j hpc := by simp [Call.atAwait, hpc] at h
  expiring todo nowMs deadline progress hpc := by simp [Call.atAwait, hpc] at h

theorem looked_launch (w : World n) (chosen : Fin n → Bool) (keepGoing : Bool) :
    Looked g (StopWave.launch g w chosen keepGoing) w where
  epoch := le_rfl
  collected todo progress j hpc := by cases hpc
  expiring todo nowMs deadline progress hpc := by cases hpc

theorem Looked.step {wave wave' : StopWave n} {w w' : World n} (hs : Looked g wave w)
    (h : wave.Step g w wave' w') : Looked g wave' w' := by
  have hdropped : ∀ j, w'.flag j .dropped = w.flag j .dropped :=
    fun j => h.flag_eq j (by decide) (by decide)
  have hnow := h.now_eq
  have hepoch : wave'.epoch ≤ w'.now := by
    rw [h.static.2.2, hnow]
    exact hs.epoch
  cases h with
  | signal | skip | abort | finish =>
      exact ⟨hepoch, fun _ _ _ hpc => by simp at hpc, fun _ _ _ _ hpc => by simp at hpc⟩
  | @collect j todo progress _ hpc =>
      refine ⟨hepoch, fun todo' progress' i hpc' hi hopen => ?_,
        fun _ _ _ _ hpc' => by simp at hpc'⟩
      cases hpc'
      rw [hdropped]
      have hne : i ≠ j := by
        rintro rfl
        simp [StopWave.unresolved] at hopen
      apply hs.collected _ _ i hpc
      · simp [hne, hi]
      · simpa [StopWave.unresolved, Function.update_of_ne hne] using hopen
  | @passOver j todo progress hpc hdrop =>
      refine ⟨hepoch, fun todo' progress' i hpc' hi hopen => ?_,
        fun _ _ _ _ hpc' => by simp at hpc'⟩
      cases hpc'
      by_cases hij : i = j
      · rw [hij] at hopen ⊢
        exact hdrop hopen
      · exact hs.collected _ _ i hpc (by simp [hij, hi]) hopen
  | @giveUp j todo nowMs deadline progress cfg hpc =>
      refine ⟨hepoch, fun _ _ _ hpc' => by simp at hpc',
        fun todo' nowMs' deadline' progress' hpc' => ?_⟩
      cases hpc'
      obtain ⟨hunseen, hclock⟩ := hs.expiring _ _ _ _ hpc
      rw [hnow]
      refine ⟨fun i hopen => ?_, hclock⟩
      rw [hdropped]
      apply hunseen
      by_cases hij : i = j
      · simp [StopWave.unresolved, hij] at hopen
      · simpa [StopWave.unresolved, Function.update_of_ne hij] using hopen
  | examine hpc hall =>
      refine ⟨hepoch, fun _ _ _ hpc' => by simp at hpc',
        fun todo nowMs deadline progress hpc' => ?_⟩
      cases hpc'
      exact ⟨fun i hopen => hs.collected _ _ i hpc List.not_mem_nil hopen, le_rfl⟩
  | turn hpc hturn hw =>
      refine ⟨hepoch, fun todo progress i hpc' hi hopen => ?_,
        fun todo nowMs deadline progress hpc' => ?_⟩
      · cases hturn with
        | startCollect =>
            cases hpc'
            exact absurd (List.mem_reverse.mpr (g.mem_order i)) hi
        | again | skipExpire | rest | panic => simp at hpc'
      · cases hturn with
        | skipExpire =>
            cases hpc'
            obtain ⟨hunseen, hclock⟩ := hs.expiring _ _ _ _ hpc
            rw [hnow]
            refine ⟨fun i hopen => ?_, hclock⟩
            rw [hdropped]
            exact hunseen i hopen
        | startCollect | again | rest | panic => simp at hpc'

theorem now_le_of_next (h : s.next g l = some t) : s.world.now ≤ t.world.now := by
  cases next_cases h with
  | @begin v c w _ hbegin =>
      have hbegun := begin_cases g s.world v
      rw [hbegin] at hbegun
      exact hbegun.now_eq.ge
  | advance _ _ hstep => exact (Call.step_cases hstep).now_eq.ge
  | task _ happly => exact (TaskEvent.apply_cases happly).now_le
  | setDisabled | cancel => exact le_rfl

/-- Every wave in flight has looked. -/
def LookedAll (g : Graph n) (s : Sys n) : Prop :=
  ∀ (i : ℕ) wave after, s.calls[i]? = some (.stopping wave after) → Looked g wave s.world

theorem LookedAll.next (hs : s.LookedAll g) (h : s.next g l = some t) : t.LookedAll g := by
  intro i wave after hcall
  have hbecomes := becomes_of_next h hcall
  generalize heq : Call.stopping wave after = c at hbecomes
  cases hbecomes with
  | kept hold hcaller hrest =>
      subst heq
      exact looked_of_atAwait hrest ((hs i _ _ hold).epoch.trans (now_le_of_next h))
  | begun hl hi hbegin =>
      subst heq
      obtain ⟨chosen, keepGoing, rfl⟩ := Call.launched_of_begin hbegin
      exact looked_launch t.world chosen keepGoing
  | advanced hl hold hstep =>
      subst heq
      obtain ⟨wave', rfl, hwave, -⟩ := Call.stopping_of_step hstep
      exact (hs i _ _ hold).step hwave
  | cancelled => cases heq

/-! ## Every report is of an acknowledgement that was missed -/

/-- What a call in flight waits for it has asked for in this run, and either nothing has
dropped since or it will find the acknowledgement; what has been reported was missed. -/
structure Tracked (g : Graph n) (s₀ : Sys n) (labels : List (Label n)) (s : Sys n) : Prop where
  waiting : ∀ (i : ℕ) c j, s.calls[i]? = some c → c.awaits j = true →
    ∃ u v, Asked g s₀ labels s i j u v ∧ c.AskedAt g j u.world.now ∧
      (s.world.drops j = v.world.drops j ∨ c.answered s.world j = true)
  reported : ∀ (i : ℕ) c (f : NodeFault n), s.calls[i]? = some c → c.Reports f →
    f.kind = .shutdownTimeout → MissedOnClock g s₀ labels i f.node

theorem of_keepsAnswers (hkeeps : s.keepsAnswers g l = true) (h : s.next g l = some t)
    {c : Call n} (hcall : s.calls[i]? = some c) (hcaller : s.caller l ≠ some i)
    (hawaits : c.awaits j = true) (hanswered : c.answered s.world j = true) :
    c.answered t.world j = true := by
  rw [keepsAnswers, h, Option.all_some, List.all_eq_true] at hkeeps
  have hi := hkeeps i (List.mem_range.mpr (List.getElem?_eq_some_iff.mp hcall).1)
  rw [hcall, Option.all_some, List.all_eq_true] at hi
  simpa [hcaller, hawaits, hanswered] using hi j (List.mem_finRange j)

/-- A step drops an instance of the node or none. -/
theorem drops_of_next (h : s.next g l = some t) (j : Fin n) :
    t.world.drops j = s.world.drops j ∨ Drops s.world j t.world := by
  have of_drop : ∀ {i : Fin n} {w : World n}, Drops s.world i w →
      w.drops j = s.world.drops j ∨ Drops s.world j w := by
    intro i w hdrop
    by_cases hij : j = i
    · exact Or.inr (hij ▸ hdrop)
    · exact Or.inl (by rw [hdrop.drops_eq, if_neg hij])
  cases next_cases h with
  | @begin v c w _ hbegin =>
      have hbegun := begin_cases g s.world v
      rw [hbegin] at hbegun
      exact Or.inl hbegun.drops_eq
  | advance _ _ hstep => exact Or.inl (Call.drops_eq (Call.step_cases hstep))
  | task _ happly =>
      cases TaskEvent.apply_cases happly with
      | acked => exact of_drop (drops_ackDropped _ _ _)
      | exited => exact of_drop (drops_markExited _ _ _)
      | appSpawned => exact Or.inl rfl
      | quiet h => exact Or.inl (drops_of_log_eq h.log)
  | setDisabled | cancel => exact Or.inl rfl

/-- A drop answers every call that waits for it. -/
theorem drops_or_answered (h : s.next g l = some t) (j : Fin n) :
    t.world.drops j = s.world.drops j ∨ ∀ c : Call n, c.answered t.world j = true := by
  refine (drops_of_next h j).imp_right fun hdrop c => ?_
  have hflag : t.world.flag j .dropped = true := by
    rw [hdrop.flag j .dropped (by decide)]
    simp
  have hwake : (t.world.node j).droppedWake = true := by
    rw [hdrop.droppedWake]
    simp
  cases c <;> first | exact hflag | exact hwake

/-- A call that gives up on a node it waits for has missed its acknowledgement. -/
theorem Tracked.missed (hs : Tracked g s₀ labels s) (hlooked : s.LookedAll g) {c : Call n}
    (hcall : s.calls[i]? = some c) (hawaits : c.awaits j = true)
    (hgives : c.GivesUp g s.world j) : MissedOnClock g s₀ labels i j := by
  obtain ⟨u, v, hasked, hat, hanswer⟩ := hs.waiting i c j hcall hawaits
  cases c with
  | stopping wave after =>
      obtain ⟨todo, nowMs, deadline, progress, cfg, hpc, hcfg, hdue⟩ := hgives
      obtain ⟨hunseen, hclock⟩ := (hlooked i wave after hcall).expiring _ _ _ _ hpc
      have hopen : wave.unresolved j = true := by
        simp only [Call.awaits, hpc, Bool.and_eq_true] at hawaits
        exact hawaits.1
      have hunanswered : ¬ (Call.stopping wave after).answered s.world j = true := by
        simp [Call.answered, hunseen j hopen]
      obtain ⟨hepoch, hstamp⟩ := hat
      refine ⟨labels, [], s, u, v, cfg, wave.epoch, by simp, hasked,
        hanswer.resolve_right hunanswered, hcfg, hepoch, ?_⟩
      rw [← hstamp]
      exact hdue.trans hclock
  | stopNode k deadline =>
      obtain ⟨hwake, hdue⟩ := hgives
      have hunanswered : ¬ (Call.stopNode k deadline).answered s.world j = true := by
        simp [Call.answered, hwake]
      obtain ⟨cfg, hcfg, rfl⟩ := hat
      refine ⟨labels, [], s, u, v, cfg, u.world.now, by simp, hasked,
        hanswer.resolve_right hunanswered, hcfg, le_rfl, ?_⟩
      have hzero : g.asMillis (u.world.now - u.world.now) = 0 := by simp [Graph.asMillis]
      rw [hzero, Nat.zero_add]
      exact Graph.asMillis_mono (by omega)
  | starting | startNode | bindUp | done | panic | cancelled => exact hgives.elim

theorem Tracked.next (hs : Tracked g s₀ labels s) (hlooked : s.LookedAll g)
    (hrun : exec (next g) s₀ labels = some s) (hkeeps : s.keepsAnswers g l = true)
    (hstampable : s.stampable g l = true) (h : s.next g l = some t) :
    Tracked g s₀ (labels ++ [l]) t where
  waiting i c j hcall hawaits := by
    -- whoever waited before is still owed its answer, or has it
    have later : ∀ {c' : Call n} {u v : Sys n}, Asked g s₀ labels s i j u v →
        (s.world.drops j = v.world.drops j ∨ c'.answered t.world j = true) →
        Asked g s₀ (labels ++ [l]) t i j u v ∧
          (t.world.drops j = v.world.drops j ∨ c'.answered t.world j = true) := by
      intro c' u v hasked hanswer
      refine ⟨hasked.snoc h, ?_⟩
      rcases hanswer with hnone | hanswered
      · rcases drops_or_answered h j with hsame | hanswered
        · exact Or.inl (hsame.trans hnone)
        · exact Or.inr (hanswered c')
      · exact Or.inr hanswered
    cases becomes_of_next h hcall with
    | kept hold hcaller hrest =>
        obtain ⟨u, v, hasked, hat, hanswer⟩ := hs.waiting i c j hold hawaits
        have hstill := hanswer.imp_right (of_keepsAnswers hkeeps h hold hcaller hawaits)
        obtain ⟨hasked', hanswer'⟩ := later hasked hstill
        exact ⟨u, v, hasked', hat, hanswer'⟩
    | @begun v c hl hi hbegin =>
        cases c with
        | stopNode k deadline =>
            have hk : k = j := by simpa [Call.awaits] using hawaits
            subst hk
            obtain ⟨hlog, hdeadline⟩ := Call.stopNode_of_begin hbegin
            have hcaller : s.caller l = some i := by rw [hl, hi]; rfl
            exact ⟨s, t, .start hrun h hcaller hlog, hdeadline, Or.inl rfl⟩
        | stopping wave after =>
            obtain ⟨chosen, keepGoing, rfl⟩ := Call.launched_of_begin hbegin
            simp [Call.awaits, StopWave.launch] at hawaits
        | starting | startNode | bindUp | done | panic | cancelled =>
            simp [Call.awaits] at hawaits
    | @advanced c c' hl hold hstep =>
        rcases Call.awaits_of_step hstep hawaits with
          ⟨hbefore, hat', hanswered'⟩ | ⟨hlog, wave, after, todo, rfl, hpc, hstamp⟩
        · obtain ⟨u, v, hasked, hat, hanswer⟩ := hs.waiting i c j hold hbefore
          obtain ⟨hasked', hanswer⟩ := later hasked (hanswer.imp_right hanswered')
          exact ⟨u, v, hasked', hat' _ hat, hanswer⟩
        · have hcaller : s.caller l = some i := by rw [hl]; rfl
          have hclock : wave.clock g s.world < unsignaled := by
            simpa [stampable, hl, hold, hpc] using hstampable
          exact ⟨s, t, .start hrun h hcaller hlog,
            hstamp (hlooked i wave after hold).epoch hclock, Or.inl rfl⟩
    | cancelled => simp [Call.awaits] at hawaits
  reported i c f hcall hf hkind := by
    cases becomes_of_next h hcall with
    | kept hold => exact (hs.reported i c f hold hf hkind).snoc l
    | begun _ _ hbegin => exact absurd hkind (Call.kind_of_begin hbegin hf)
    | @advanced c c' hl hold hstep =>
        rcases Call.reports_of_step hstep hf hkind with hbefore | ⟨hawaits, hgives⟩
        · exact (hs.reported i c f hold hbefore hkind).snoc l
        · exact (hs.missed hlooked hold hawaits hgives).snoc l
    | cancelled => exact hf.elim

/-- A call that has returned a missed acknowledgement missed it on its clock. -/
theorem missedOnClock_of_timeout (g : Graph n) {s₀ s : Sys n} {labels : List (Label n)}
    (hcalls : s₀.calls = [])
    (halong : Along (next g)
      (fun s l => s.keepsAnswers g l = true ∧ s.stampable g l = true) s₀ labels)
    (hrun : exec (next g) s₀ labels = some s) {i : ℕ} {j : Fin n}
    (hreturned : s.calls[i]? = some (.done (some { node := j, kind := .shutdownTimeout }))) :
    MissedOnClock g s₀ labels i j := by
  have hlooked : ∀ {labels : List (Label n)} {u : Sys n},
      exec (next g) s₀ labels = some u → u.LookedAll g := by
    intro labels u hu
    apply exec_invariant (I := LookedAll g) (fun a l b ha hb => ha.next hb) _ hu
    intro i wave after hcall
    simp [hcalls] at hcall
  have htracked : Along (next g)
      (fun s l => s.keepsAnswers g l = true ∧ s.stampable g l = true) s₀ labels →
      Tracked g s₀ labels s := by
    apply exec_invariant_history (I := fun front u => Along (next g)
      (fun s l => s.keepsAnswers g l = true ∧ s.stampable g l = true) s₀ front →
        Tracked g s₀ front u) _ _ hrun
    · intro _
      constructor
      · intro i c j hcall
        simp [hcalls] at hcall
      · intro i c f hcall
        simp [hcalls] at hcall
    · intro front u l v hfront hu hnext halong
      obtain ⟨hbefore, hlast⟩ := along_append.mp halong
      obtain ⟨hkeeps, hstampable⟩ := (hlast u hfront).1
      exact (hu hbefore).next (hlooked hfront) hfront hkeeps hstampable hnext
  exact (htracked halong).reported i _ _ hreturned rfl rfl

/-! ## The last millisecond of a window -/

theorem asMillis_add_le (a b : ℕ) :
    g.asMillis (a + b) ≤ g.asMillis a + g.asMillis b + 1 := by
  unfold Graph.asMillis
  rw [Nat.add_mul]
  rcases Nat.eq_zero_or_pos g.tickHz with hzero | hpos
  · simp [hzero]
  · rw [Nat.add_div hpos]
    split <;> omega

/-- Since the node was signalled at `asked`, it has not dropped or dropped after the window
only. -/
structure LateOnly (w₀ : World n) (asked window : ℕ) (j : Fin n) (w : World n) : Prop where
  drops : ∃ new, w.drops j = new ++ w₀.drops j ∧ ∀ r ∈ new, asked + window ≤ r.1
  waits : asked + window ≤ w.now ∨
    (asked, .note j .stopRequested) ∈ w.log.takeWhile fun r => decide (r.2 ≠ .dropped j)

/-- The window is over on the clock of a wave that began at `epoch`. -/
def OverOnClock (g : Graph n) (epoch asked window : ℕ) (w : World n) : Prop :=
  epoch ≤ asked ∧ g.asMillis (asked - epoch) + g.asMillis window ≤ g.asMillis (w.now - epoch)

theorem OverOnClock.edge {epoch asked window : ℕ} {w : World n}
    (h : OverOnClock g epoch asked window w) :
    g.asMillis window ≤ g.asMillis (w.now - asked) + 1 := by
  obtain ⟨hepoch, hdue⟩ := h
  have hmono : g.asMillis (w.now - epoch) ≤
      g.asMillis ((asked - epoch) + (w.now - asked)) :=
    Graph.asMillis_mono (by omega)
  have hadd := asMillis_add_le (g := g) (asked - epoch) (w.now - asked)
  omega

theorem OverOnClock.mono {epoch asked window : ℕ} {w w' : World n}
    (h : OverOnClock g epoch asked window w) (hnow : w.now ≤ w'.now) :
    OverOnClock g epoch asked window w' :=
  ⟨h.1, h.2.trans (Graph.asMillis_mono (by omega))⟩

/-- A drop that is off the edge of a window that is over on the clock comes after it. -/
theorem OverOnClock.passed {epoch asked : ℕ} {w : World n} {cfg : NodeCfg n}
    (h : OverOnClock g epoch asked cfg.ackTimeout w) (hcfg : g.nodes j = some cfg)
    (hentry : (asked, .note j .stopRequested) ∈
      w.log.takeWhile fun r => decide (r.2 ≠ .dropped j))
    (hasked : asked ≤ w.now) (hoff : offEdge g w j = true) :
    asked + cfg.ackTimeout ≤ w.now := by
  have hwindow := List.all_eq_true.mp hoff _ hentry
  have hedge := h.edge
  simp only [hcfg, decide_true, Bool.not_true, Bool.false_or, Option.all_some,
    Bool.or_eq_true, decide_eq_true_eq] at hwindow
  omega

/-- What stands in front of the node's drops stays there until the next one. -/
theorem mem_takeWhile_of_drops {w w' : World n} {r : ℕ × Record n} (hlog : w.log <:+ w'.log)
    (hdrops : w'.drops j = w.drops j)
    (hr : r ∈ w.log.takeWhile fun r => decide (r.2 ≠ .dropped j)) :
    r ∈ w'.log.takeWhile fun r => decide (r.2 ≠ .dropped j) := by
  obtain ⟨new, hnew⟩ := hlog
  have hnone : new.filter (fun r => decide (r.2 = .dropped j)) = [] := by
    unfold World.drops at hdrops
    rw [← hnew, List.filter_append] at hdrops
    exact List.append_left_eq_self.mp hdrops
  have hkept : ∀ r ∈ new, decide (r.2 ≠ .dropped j) = true := by
    intro r hr
    simpa using List.filter_eq_nil_iff.mp hnone r hr
  rw [← hnew, List.takeWhile_append_of_pos hkept]
  exact List.mem_append_right new hr

theorem LateOnly.next {w₀ : World n} {epoch asked : ℕ} {cfg : NodeCfg n}
    (hs : LateOnly w₀ asked cfg.ackTimeout j s.world)
    (hover : OverOnClock g epoch asked cfg.ackTimeout s.world) (hcfg : g.nodes j = some cfg)
    (hasked : asked ≤ s.world.now) (hoff : s.dropsOffEdge g l = true)
    (h : s.next g l = some t) : LateOnly w₀ asked cfg.ackTimeout j t.world := by
  have hnow := now_le_of_next h
  rw [dropsOffEdge, h, Option.all_some, List.all_eq_true] at hoff
  have hedge := hoff j (List.mem_finRange j)
  rw [Bool.or_eq_true, decide_eq_true_eq] at hedge
  obtain ⟨⟨new, hdrops, hlate⟩, hwaits⟩ := hs
  rcases drops_of_next h j with hsame | hdrop
  · refine ⟨⟨new, hsame.trans hdrops, hlate⟩, ?_⟩
    rcases hwaits with hpassed | hentry
    · exact Or.inl (hpassed.trans hnow)
    · exact Or.inr (mem_takeWhile_of_drops (Sys.log_suffix h) hsame hentry)
  · have hfirst := hdrop.drops_eq (j := j)
    rw [if_pos rfl] at hfirst
    have hchanged : t.world.drops j ≠ s.world.drops j := by
      rw [hfirst]
      exact List.cons_ne_self _ _
    have hpassed : asked + cfg.ackTimeout ≤ s.world.now := by
      rcases hwaits with hpassed | hentry
      · exact hpassed
      · exact hover.passed hcfg hentry hasked (hedge.resolve_left hchanged)
    refine ⟨⟨(s.world.now, .dropped j) :: new, ?_, ?_⟩, Or.inl (hpassed.trans hnow)⟩
    · rw [hfirst, hdrops, List.cons_append]
    · intro r hr
      rcases List.mem_cons.mp hr with rfl | hr
      · exact hpassed
      · exact hlate r hr

theorem Asked.extend {back : List (Label n)} (h : Asked g s₀ labels s i j u v)
    (hback : exec (next g) s back = some t) : Asked g s₀ (labels ++ back) t i j u v := by
  obtain ⟨⟨front, k, mid, rfl, hfront, hstep, hmid, hcaller⟩, hlog⟩ := h
  exact ⟨⟨front, k, mid ++ back, by simp, hfront, hstep, exec_append.mpr ⟨s, hmid, hback⟩,
    hcaller⟩, hlog⟩

/-- If the node has not dropped since, the signal stands in front of its drops. -/
theorem Asked.mem_takeWhile (h : Asked g s₀ labels s i j u v)
    (hdrops : s.world.drops j = v.world.drops j) :
    (u.world.now, .note j .stopRequested) ∈
      s.world.log.takeWhile fun r => decide (r.2 ≠ .dropped j) := by
  obtain ⟨⟨front, k, back, -, -, -, hback, -⟩, hlog⟩ := h
  have hsuffix : v.world.log <:+ s.world.log := by
    apply exec_invariant (I := fun x => v.world.log <:+ x.world.log) _ List.suffix_rfl hback
    intro a k b ha hb
    exact ha.trans (Sys.log_suffix hb)
  apply mem_takeWhile_of_drops hsuffix hdrops
  rw [hlog, List.takeWhile_cons_of_pos (by simp)]
  exact List.mem_cons_self

theorem Asked.now_le (h : Asked g s₀ labels s i j u v) : u.world.now ≤ s.world.now := by
  obtain ⟨⟨front, k, back, -, -, hstep, hback, -⟩, -⟩ := h
  apply exec_invariant (I := fun x : Sys n => u.world.now ≤ x.world.now) _
    (now_le_of_next hstep) hback
  intro a k b ha hb
  exact ha.trans (now_le_of_next hb)

/-- **No false shutdown fault.** In a run in which nobody takes an acknowledgement from a
stop that still waits for it and no node answers in the last millisecond of its window, a
call returns `ShutdownTimeout` for a node only if it had signalled the node and no instance
of the node dropped within the window. -/
theorem timeout_missed (g : Graph n) {s₀ s : Sys n} {labels : List (Label n)}
    (hcalls : s₀.calls = [])
    (halong : Along (next g) (fun s l => s.keepsAnswers g l = true ∧
      s.stampable g l = true ∧ s.dropsOffEdge g l = true) s₀ labels)
    (hrun : exec (next g) s₀ labels = some s) {i : ℕ} {j : Fin n}
    (hreturned : s.calls[i]? = some (.done (some { node := j, kind := .shutdownTimeout }))) :
    MissedAck g s₀ labels s i j := by
  obtain ⟨front, back, s', u, v, cfg, epoch, rfl, hasked, hnone, hcfg, hepoch, hdue⟩ :=
    missedOnClock_of_timeout g hcalls (halong.mono fun _ _ h => ⟨h.1, h.2.1⟩) hrun hreturned
  obtain ⟨x, hfront, hback⟩ := exec_append.mp hrun
  have hx : x = s' := by
    obtain ⟨⟨before, k, after, rfl, hbefore, hstep, hafter, -⟩, -⟩ := hasked
    have hs' := exec_append_cons.mpr ⟨u, v, hbefore, hstep, hafter⟩
    exact Option.some.inj (hfront.symm.trans hs')
  subst hx
  have hover : OverOnClock g epoch u.world.now cfg.ackTimeout x.world := ⟨hepoch, hdue⟩
  have hlate : LateOnly v.world u.world.now cfg.ackTimeout j x.world :=
    ⟨⟨[], hnone, by simp⟩, Or.inr (hasked.mem_takeWhile hnone)⟩
  have hend : LateOnly v.world u.world.now cfg.ackTimeout j s.world ∧
      x.world.now ≤ s.world.now := by
    apply exec_invariant_along (I := fun y : Sys n =>
      LateOnly v.world u.world.now cfg.ackTimeout j y.world ∧ x.world.now ≤ y.world.now)
      _ ⟨hlate, le_rfl⟩ ((along_append.mp halong).2 x hfront) hback
    rintro a l b ⟨ha, hnow⟩ ⟨-, -, hoff⟩ hnext
    exact ⟨ha.next (hover.mono hnow) hcfg (hasked.now_le.trans hnow) hoff hnext,
      hnow.trans (now_le_of_next hnext)⟩
  obtain ⟨new, hdrops, hafter⟩ := hend.1.drops
  exact ⟨u, v, cfg, new, hasked.extend hback, hcfg, hdrops, hafter⟩

/-- The client acknowledges only after its window. -/
def unanswered : List (Label 2) :=
  [.begin (.stopNode 1), .task (.elapse 2000000), .advance 0, .task (.ackDropped 1)]

def unansweredRun : Option (Sys 2) :=
  exec (next clientAndLink) { world := clientAndLinkUp } unanswered

theorem timeout_missed_clientAndLink :
    MissedAck clientAndLink { world := clientAndLinkUp } unanswered (unansweredRun.get rfl)
      0 1 := by
  have halong : Along (next clientAndLink) (fun s l => s.keepsAnswers clientAndLink l = true ∧
      s.stampable clientAndLink l = true ∧ s.dropsOffEdge clientAndLink l = true)
      { world := clientAndLinkUp } unanswered := by decide +kernel
  have hrun : exec (next clientAndLink) { world := clientAndLinkUp } unanswered =
      some (unansweredRun.get rfl) := (Option.some_get _).symm
  exact timeout_missed clientAndLink rfl halong hrun rfl

/-! ## A stop that is reported although its node acknowledged -/

/-- A search for the signal after which a node has dropped only when its window was over. -/
def searchMissed (g : Graph n) (s₀ : Sys n) (labels : List (Label n)) (i : ℕ) (j : Fin n) :
    Bool :=
  (List.range labels.length).any fun k =>
    (exec (next g) s₀ (labels.take k)).any fun u => (labels[k]?).any fun l =>
      (next g u l).any fun v => (exec (next g) v (labels.drop (k + 1))).any fun s =>
        u.caller l == some i &&
        decide (v.world.log = (u.world.now, .note j .stopRequested) :: u.world.log) &&
        (g.nodes j).any fun cfg =>
          ((s.world.drops j).take
            ((s.world.drops j).length - (v.world.drops j).length)).all fun r =>
              decide (u.world.now + cfg.ackTimeout ≤ r.1)

theorem MissedAck.searched (h : MissedAck g s₀ labels s i j) :
    searchMissed g s₀ labels i j = true := by
  obtain ⟨u, v, cfg, new, ⟨⟨before, l, after, rfl, hbefore, hstep, hafter, hcaller⟩, hlog⟩,
    hcfg, hdrops, hlate⟩ := h
  simp only [searchMissed, List.any_eq_true, List.mem_range, Option.any_eq_true]
  refine ⟨before.length, by simp, u, by simpa using hbefore, l, by simp, v, hstep, s,
    by simpa using hafter, ?_⟩
  have hnew : (s.world.drops j).take
      ((s.world.drops j).length - (v.world.drops j).length) = new := by
    rw [hdrops, List.length_append, Nat.add_sub_cancel, List.take_left]
  rw [hcaller, hnew, hcfg]
  simpa [hlog] using hlate

/-- `apply_bind` and a restart both stop the client. It acknowledges, the restart takes the
acknowledgement and spawns the client again, and `apply_bind` goes on waiting. -/
def crossed : List (Label 2) :=
  .begin .applyBind :: List.replicate 9 (.advance 0) ++
    [.task (.setReady 0), .begin (.restart 1)] ++ List.replicate 9 (.advance 1) ++
    [.task (.ackDropped 1)] ++ List.replicate 13 (.advance 1) ++
    [.task (.elapse 2000000)] ++ List.replicate 9 (.advance 0)

def crossedRun : Option (Sys 2) :=
  exec (next clientAndLink) { world := clientAndLinkUp } crossed

theorem timeout_of_restarted :
    ¬ ∀ (g : Graph 2) (s₀ s : Sys 2) (labels : List (Label 2)) (i : ℕ) (j : Fin 2),
      s₀.calls = [] → exec (next g) s₀ labels = some s →
      s.calls[i]? = some (.done (some { node := j, kind := .shutdownTimeout })) →
      MissedAck g s₀ labels s i j := by
  intro h
  have hrun : exec (next clientAndLink) { world := clientAndLinkUp } crossed =
      some (crossedRun.get rfl) := (Option.some_get _).symm
  have hmissed := h clientAndLink _ _ crossed 0 1 rfl hrun rfl
  have hnone : searchMissed clientAndLink { world := clientAndLinkUp } crossed 0 1 = false := by
    decide +kernel
  have hfound := hmissed.searched
  rw [hnone] at hfound
  cases hfound

end Sys

end EmbassySupervisor
