/-
# The restart budget

A node may be restarted `max` times in a window, which opens at the first restart counted
in it. The window kept in the handle is the one the calls opened as long as no call comes
`2 ^ 32` ticks or more after the opening of a window and, truncated to 32 bits, still falls
into it: `budget_kept_iff` says so for every run of the calls among the tasks.
`budget_wraps` is the shortest run that breaks it, two calls with a budget of one.

A call that is not refused when it begins does not return `RestartStorm` at all: that is
what `Calm` carries from its front half through all of its phases.
-/

import EmbassySupervisor.Verb.Frame
import EmbassySupervisor.Verb.StopFault

namespace EmbassySupervisor

open LabelledRun

variable {n : ℕ}

/-! ## The budget, in time that does not wrap around -/

/-- The window a budget is counted in: when it was opened, and what was counted since. -/
structure BudgetWindow where
  opened : ℕ
  count : ℕ
  deriving DecidableEq, Repr

/-- At most `max` restarts in a window of `span` ticks. -/
structure RestartBudget where
  max : ℕ
  span : ℕ
  deriving DecidableEq, Repr

namespace RestartBudget

variable (b : RestartBudget)

/-- The window opened last by calls at these instants, newest first. -/
def window : List ℕ → Option BudgetWindow
  | [] => none
  | now :: earlier =>
    match window earlier with
    | none => some { opened := now, count := 1 }
    | some w =>
      if w.opened + b.span < now then some { opened := now, count := 1 }
      else if b.max ≤ w.count then some w
      else some { w with count := w.count + 1 }

/-- All of the budget has been counted in the window open at the instant. -/
def refuses (calls : List ℕ) (now : ℕ) : Bool :=
  (b.window calls).any fun w => decide (now ≤ w.opened + b.span) && decide (b.max ≤ w.count)

/-- Truncated to 32 bits the instant falls into a window that has long been closed. -/
def aliases (calls : List ℕ) (now : ℕ) : Bool :=
  (b.window calls).any fun w =>
    decide (w.opened + 2 ^ 32 ≤ now) && decide ((now - w.opened) % 2 ^ 32 ≤ b.span)

variable {b}

theorem opened_mem {calls : List ℕ} {w : BudgetWindow} (h : b.window calls = some w) :
    w.opened ∈ calls := by
  induction calls generalizing w with
  | nil => cases h
  | cons now earlier ih =>
      unfold window at h
      split at h
      · cases h
        exact List.mem_cons_self
      · next v hv =>
          split at h
          · cases h
            exact List.mem_cons_self
          · split at h
            · cases h
              exact List.mem_cons_of_mem now (ih hv)
            · cases h
              exact List.mem_cons_of_mem now (ih (w := v) hv)

/-- A node left alone for longer than the window is not refused. -/
theorem not_refuses_of_idle {calls : List ℕ} {now : ℕ}
    (hidle : ∀ t ∈ calls, t + b.span < now) : b.refuses calls now = false := by
  unfold refuses
  cases h : b.window calls with
  | none => rfl
  | some w =>
      have hlate := hidle w.opened (opened_mem h)
      simp only [Option.any_some, Bool.and_eq_false_iff, decide_eq_false_iff_not, not_le]
      exact Or.inl hlate

end RestartBudget

/-! ## The counters -/

/-- The counters of a handle are those of a window. -/
def TaskHandle.Counts (h : TaskHandle) : Option BudgetWindow → Prop
  | none => h.restarts = 0
  | some w => 1 ≤ w.count ∧ h.budget = (w.count, w.opened % 2 ^ 32)

theorem TaskHandle.counts_some {h : TaskHandle} {w : BudgetWindow} :
    h.Counts (some w) ↔
      1 ≤ w.count ∧ h.restarts = w.count ∧ h.restartWindowStart = w.opened % 2 ^ 32 := by
  simp [Counts, budget]

namespace Graph

variable {g : Graph n} {w : World n} {j : Fin n} {b : RestartBudget}

theorem node_countRestart_of_ne {i : Fin n} (hij : i ≠ j) :
    (g.countRestart w j).2.node i = w.node i := by
  unfold countRestart
  split
  · rfl
  · simp only
    split
    · simp [hij]
    · split
      · rfl
      · simp [hij]

/-- Two instants truncated to 32 bits are as far apart as the instants are, up to 32 bits. -/
theorem truncated_gap {opened now : ℕ} (h : opened ≤ now) :
    (now % 2 ^ 32 + 2 ^ 32 - opened % 2 ^ 32) % 2 ^ 32 = (now - opened) % 2 ^ 32 := by
  omega

/-- A call at an instant that reads `stamp`, when the window reads `age` ticks old. -/
theorem countRestart_eq (hcfg : (g.nodes j).bind (·.restartBudget) = some (b.max, b.span))
    (hspan : b.span ≤ (2 ^ 32 - 1) / 2) {stamp age : ℕ} (hstamp : w.now % 2 ^ 32 = stamp)
    (hage : (stamp + 2 ^ 32 - (w.node j).restartWindowStart) % 2 ^ 32 = age) :
    g.countRestart w j =
      if (w.node j).restarts = 0 ∨ b.span < age then
        (true, w.onNode j fun h => { h with restartWindowStart := stamp, restarts := 1 })
      else if b.max ≤ (w.node j).restarts then (false, w)
      else (true, w.onNode j fun h => { h with restarts := h.restarts + 1 }) := by
  have hwindow : min b.span ((2 ^ 32 - 1) / 2) = b.span := min_eq_left hspan
  unfold countRestart
  rw [hcfg]
  simp only [hwindow, hage, hstamp, Bool.or_eq_true, beq_iff_eq, decide_eq_true_eq, gt_iff_lt,
    ge_iff_le]

/-- The age of a window, truncated, decides as the age does, unless it aliases. -/
theorem truncated_age (hspan : b.span ≤ (2 ^ 32 - 1) / 2) {opened now age : ℕ}
    (h : opened ≤ now) (hage : (now - opened) % 2 ^ 32 = age) :
    opened + 2 ^ 32 ≤ now ∧ age ≤ b.span ∧ opened + b.span < now ∨
      ¬ (opened + 2 ^ 32 ≤ now ∧ age ≤ b.span) ∧
        (b.span < age ↔ opened + b.span < now) := by
  omega

/-- **One counted call.** What it decides and leaves in the handle is what the window
says, exactly if the call is not taken to fall into a window long closed. -/
theorem countRestart_iff (hcfg : (g.nodes j).bind (·.restartBudget) = some (b.max, b.span))
    (hspan : b.span ≤ (2 ^ 32 - 1) / 2) {calls : List ℕ}
    (hpast : ∀ t ∈ calls, t ≤ w.now) (hcount : (w.node j).Counts (b.window calls)) :
    ((g.countRestart w j).1 = !b.refuses calls w.now) ∧
        ((g.countRestart w j).2.node j).Counts (b.window (w.now :: calls)) ↔
      b.aliases calls w.now = false := by
  obtain ⟨stamp, hstamp⟩ : ∃ stamp, w.now % 2 ^ 32 = stamp := ⟨_, rfl⟩
  obtain ⟨age, hread⟩ : ∃ age,
    (stamp + 2 ^ 32 - (w.node j).restartWindowStart) % 2 ^ 32 = age := ⟨_, rfl⟩
  rw [countRestart_eq hcfg hspan hstamp hread]
  unfold RestartBudget.refuses RestartBudget.aliases
  rw [RestartBudget.window]
  cases hopen : b.window calls with
  | none =>
      rw [hopen] at hcount
      have hzero : (w.node j).restarts = 0 := hcount
      simpa [hzero, TaskHandle.counts_some] using hstamp.symm
  | some v =>
      rw [hopen] at hcount
      obtain ⟨hone, hrestarts, hstart⟩ := TaskHandle.counts_some.mp hcount
      have hopened : v.opened ≤ w.now := hpast _ (RestartBudget.opened_mem hopen)
      have hgap : (w.now - v.opened) % 2 ^ 32 = age := by
        rw [← hread, ← hstamp, hstart, truncated_gap hopened]
      have hcases := truncated_age hspan hopened hgap
      have hne : v.count ≠ 0 := Nat.one_le_iff_ne_zero.mp hone
      have halias : (decide (v.opened + 2 ^ 32 ≤ w.now) &&
          decide ((w.now - v.opened) % 2 ^ 32 ≤ b.span)) = false ↔
            ¬ (v.opened + 2 ^ 32 ≤ w.now ∧ age ≤ b.span) := by
        rw [hgap]
        simp
      rw [Option.any_some, Option.any_some, halias]
      rcases hcases with ⟨hlong, hfalls, hclosed⟩ | ⟨hno, hreads⟩
      · -- The code stays in the window that has long been closed.
        simp only [hlong, hfalls, and_self, not_true, iff_false]
        have hrefuse : ¬ w.now ≤ v.opened + b.span := not_le.mpr hclosed
        have hstay : ¬ ((w.node j).restarts = 0 ∨ b.span < age) := by
          rw [hrestarts]
          exact not_or.mpr ⟨hne, not_lt.mpr hfalls⟩
        rw [if_neg hstay, if_pos hclosed]
        rintro ⟨hgranted, hcounted⟩
        by_cases hfull : b.max ≤ (w.node j).restarts
        · rw [if_pos hfull] at hgranted
          simp [hrefuse] at hgranted
        · rw [if_neg hfull] at hcounted
          simp [TaskHandle.counts_some, hrestarts, hne] at hcounted
      · simp only [hno, not_false_iff, iff_true]
        by_cases hclosed : v.opened + b.span < w.now
        · rw [if_pos (Or.inr (hreads.mpr hclosed)), if_pos hclosed]
          simpa [TaskHandle.counts_some, not_le.mpr hclosed] using hstamp.symm
        · have hstay : ¬ ((w.node j).restarts = 0 ∨ b.span < age) := by
            rw [hrestarts]
            exact not_or.mpr ⟨hne, mt hreads.mp hclosed⟩
          rw [if_neg hstay, if_neg hclosed, hrestarts]
          by_cases hfull : b.max ≤ v.count
          · simp [hfull, not_lt.mp hclosed, TaskHandle.counts_some, hrestarts, hstart, hone]
          · simp [hfull, TaskHandle.counts_some, hrestarts, hstart]

end Graph

/-! ## Who touches the counters -/

theorem frame_budget (j : Fin n) : World.Frame fun w : World n => (w.node j).budget where
  node _ _ h := h j
  inst _ _ := rfl
  log _ _ := rfl
  slot _ _ := rfl
  gate _ _ := rfl
  bindReq _ _ := rfl
  stopEvt _ _ := rfl
  gateEvt _ _ := rfl

/-- No task event touches a budget. -/
theorem TaskEvent.budget_of_apply {g : Graph n} {w w' : World n} {e : TaskEvent n}
    (h : e.apply g w = some w') (j : Fin n) : (w'.node j).budget = (w.node j).budget := by
  have hφ := frame_budget (n := n) j
  have of_eq : ∀ {u : World n}, some u = some w' → (u.node j).budget = (w.node j).budget →
      (w'.node j).budget = (w.node j).budget := by
    intro u heq hu
    rwa [Option.some.inj heq] at hu
  cases e with
  | ackDropped i =>
      obtain ⟨cfg, -, h⟩ := Option.bind_eq_some_iff.mp h
      split at h
      · cases h
      · exact of_eq h ((hφ.settleDropped _ i _).trans (hφ.releaseProvided w i cfg))
  | markExited i =>
      obtain ⟨cfg, -, h⟩ := Option.bind_eq_some_iff.mp h
      split at h
      · cases h
      · exact of_eq h ((hφ.settleDropped _ i _).trans
          ((hφ.putFlag _ i _ _).trans (hφ.releaseProvided w i cfg)))
  | appSpawn i =>
      obtain ⟨cfg, -, h⟩ := Option.bind_eq_some_iff.mp h
      split at h
      · exact of_eq h rfl
      · cases h
  | park i =>
      simp only [apply] at h
      split at h
      · exact of_eq h (hφ.putFlag w i .idle true)
      · cases h
  | fencePass s =>
      simp only [apply] at h
      split at h
      · exact of_eq h rfl
      · cases h
  | setReady i => exact of_eq h (hφ.onNode w i fun _ => rfl)
  | clearReady i => exact of_eq h (hφ.putFlag w i .ready false)
  | markBusy i | markIdle i =>
      apply of_eq h
      unfold World.putBusy
      simp only
      split
      · exact hφ.putFlag w i .busy _
      · exact hφ.putFlag w i .busy _
  | setDetached i detached => exact of_eq h (hφ.putFlag w i .detached detached)
  | pollShutdown i =>
      refine of_eq h (hφ.onNode (f := TaskHandle.pollShutdown) w i fun h => ?_)
      unfold TaskHandle.pollShutdown
      split <;> rfl
  | takeResume i =>
      exact of_eq h (hφ.onNode (f := fun h => { h with resumeWake := false }) w i fun _ => rfl)
  | elapse | provide | take | clear | fillSlot | setRefused => exact of_eq h rfl

/-! ## Calls that were not refused -/

/-- The outcome is not a refusal. -/
def NoStorm (r : Outcome n) : Prop := ∀ f, r = some f → f.kind ≠ .restartStorm

theorem noStorm_none : NoStorm (n := n) none := nofun

theorem noStorm_some {j : Fin n} {kind : FaultKind n} (h : kind ≠ .restartStorm) :
    NoStorm (some { node := j, kind }) := by
  intro f hf
  cases hf
  exact h

theorem NoStorm.or {r r' : Outcome n} (h : NoStorm r) (h' : NoStorm r') :
    NoStorm (r.or r') := by
  cases r with
  | none => exact h'
  | some f => exact h

def StopWave.Calm (s : StopWave n) : Prop :=
  NoStorm s.firstErr ∧ ∀ r, s.pc = .done r → NoStorm r

def StartWave.Calm (s : StartWave n) : Prop :=
  NoStorm s.firstErr ∧ ∀ r, s.pc = .done r → NoStorm r

def StartEnd.Calm (e : StartEnd n) : Prop := ∀ r, e = .done r → NoStorm r

/-- The call does not carry a refusal. -/
def Call.Calm : Call n → Prop
  | .stopping s _ => s.Calm
  | .starting s _ => s.Calm
  | .done r => NoStorm r
  | .startNode _ _ _ | .stopNode _ _ | .bindUp _ | .panic | .cancelled => True

theorem StopWave.calm_launch (g : Graph n) (w : World n) (chosen : Fin n → Bool)
    (keepGoing : Bool) : (StopWave.launch g w chosen keepGoing).Calm := by
  refine ⟨noStorm_none, fun r hr => ?_⟩
  cases hr

theorem StartWave.calm_launch (g : Graph n) (w : World n) (pending : Fin n → Bool)
    (keepGoing : Bool) : (StartWave.launch g w pending keepGoing).Calm := by
  refine ⟨noStorm_none, fun r hr => ?_⟩
  cases hr

theorem StopWave.Calm.step {g : Graph n} {w w' : World n} {s s' : StopWave n} (hs : s.Calm)
    (h : s.Step g w s' w') : s'.Calm := by
  have hmiss : ∀ j : Fin n, NoStorm (some { node := j, kind := .shutdownTimeout }) :=
    fun j => noStorm_some nofun
  cases h with
  | signal | skip | collect | passOver | examine => exact ⟨hs.1, nofun⟩
  | giveUp => exact ⟨hs.1.or (hmiss _), nofun⟩
  | abort =>
      refine ⟨hs.1, fun r hr => ?_⟩
      cases hr
      exact hmiss _
  | finish =>
      refine ⟨hs.1, fun r hr => ?_⟩
      cases hr
      exact hs.1
  | turn _ hturn =>
      refine ⟨hs.1, fun r hr => ?_⟩
      cases hturn <;> cases hr

section StartWave

variable {g : Graph n} {w : World n} {s : StartWave n} {cfg : NodeCfg n} {j : Fin n}
  {todo : List (Fin n)} {round : Round}

theorem StartWave.Calm.visiting (hs : s.Calm) {pending : Fin n → Bool} {armed : Fin n → ℕ} :
    StartWave.Calm { s with pending, armed, pc := .visit todo round } := ⟨hs.1, nofun⟩

theorem StartWave.Calm.unsatisfied (hs : s.Calm) {kind : FaultKind n}
    (hkind : kind ≠ .restartStorm) : (s.unsatisfied g w cfg kind j todo round).1.Calm := by
  unfold StartWave.unsatisfied
  split
  · simp only
    split
    · exact ⟨hs.1.or (noStorm_some hkind), nofun⟩
    · refine ⟨hs.1, fun r hr => ?_⟩
      cases hr
      exact noStorm_some hkind
  · exact hs.visiting

theorem StartWave.Calm.attempt (hs : s.Calm) (sp : Spawn) :
    (s.attempt g w cfg sp j todo round).1.Calm := by
  unfold StartWave.attempt
  simp only
  split
  · exact hs.visiting
  · split
    · exact hs.unsatisfied nofun
    · split <;> exact hs.visiting

theorem blockedBy_ne_restartStorm {kind : FaultKind n}
    (h : g.blockedBy w cfg j = some kind) : kind ≠ .restartStorm := by
  rintro rfl
  unfold Graph.blockedBy at h
  split at h
  · cases h
  · split at h
    · cases h
    · generalize (if g.has .readyDeps then cfg.readyDeps.find? fun d => !w.flag d .ready
        else none) = unready at h
      cases unready with
      | some dep => cases h
      | none =>
          simp only at h
          split at h <;> cases h

theorem StartWave.Calm.visit (hs : s.Calm) : (StartWave.visit g w s j todo round).1.Calm := by
  unfold StartWave.visit
  split
  · exact hs.visiting
  · cases g.nodes j with
    | none => exact ⟨hs.1, nofun⟩
    | some cfg =>
        simp only
        split
        · exact hs.visiting
        · split
          · split
            · exact hs.visiting
            · exact ⟨hs.1, hs.2⟩
          · unfold StartWave.bringUp
            cases cfg.spawn with
            | none => exact hs.visiting
            | some sp =>
                simp only
                split
                · exact hs.attempt sp
                · next kind hblocked =>
                    split
                    · exact hs.visiting
                    · exact hs.unsatisfied (blockedBy_ne_restartStorm hblocked)

theorem StartWave.Calm.step {w' : World n} {s' : StartWave n} (hs : s.Calm)
    (h : s.step g w = some (s', w')) : s'.Calm := by
  have hmove : ∀ pc : StartPc n, (∀ r, pc ≠ .done r) → StartWave.Calm { s with pc } :=
    fun pc hpc => ⟨hs.1, fun r hr => absurd hr (hpc r)⟩
  unfold StartWave.step at h
  cases hpc : s.pc with
  | visit todo round =>
      cases todo with
      | cons j todo =>
          have hvisit : (StartWave.visit g w s j todo round).1.Calm := hs.visit
          simp only [hpc] at h
          rwa [Option.some.inj h] at hvisit
      | nil =>
          simp only [hpc] at h
          split at h
          · cases h
            refine ⟨hs.1, fun r hr => ?_⟩
            cases hr
            exact hs.1
          · split at h
            · cases h
              exact hmove _ nofun
            · split at h
              · cases h
                exact hmove _ nofun
              · split at h <;> cases h <;> exact hmove _ nofun
  | yield =>
      simp only [hpc] at h
      cases h
      exact hmove _ nofun
  | sleep d =>
      simp only [hpc] at h
      split at h
      · cases h
        exact hmove _ nofun
      · split at h
        · cases h
          exact hmove _ nofun
        · cases h
  | panic | done => simp [hpc] at h

end StartWave

section OneNode

variable {w : World n} {cfg : NodeCfg n} {sp : Spawn} {j : Fin n}

theorem startEnd_done {r : Outcome n} (h : NoStorm r) : StartEnd.Calm (.done r) := by
  intro r' hr
  cases hr
  exact h

theorem startEnd_wait (phase : StartPhase n) : StartEnd.Calm (.wait phase) := by
  intro r hr
  cases hr

theorem calm_gateFault {kind : FaultKind n} (h : kind ≠ .restartStorm) :
    (w.gateFault cfg j kind).1.Calm := by
  unfold World.gateFault
  split
  · exact startEnd_done noStorm_none
  · exact startEnd_done (noStorm_some h)

theorem calm_spawnAttempt (deadline : ℕ) : (w.spawnAttempt cfg sp j deadline).1.Calm := by
  unfold World.spawnAttempt
  simp only
  split
  · exact startEnd_done noStorm_none
  · split
    · exact startEnd_done (noStorm_some nofun)
    · split
      · split <;> exact startEnd_wait _
      · exact startEnd_wait _

theorem calm_awaitSettled (deadline : ℕ) : (w.awaitSettled cfg sp j deadline).1.Calm := by
  unfold World.awaitSettled
  split
  · exact calm_spawnAttempt deadline
  · split
    · exact startEnd_done (noStorm_some nofun)
    · exact startEnd_wait _

theorem calm_awaitGates (gates : List (Gate n)) : (w.awaitGates cfg sp j gates).1.Calm := by
  unfold World.awaitGates
  split
  · exact calm_awaitSettled _
  · exact startEnd_wait _

theorem calm_startNodeStep {phase : StartPhase n} {e : StartEnd n} {w' : World n}
    (h : w.startNodeStep cfg sp j phase = some (e, w')) : e.Calm := by
  have of_eq : ∀ {x : StartEnd n × World n}, some x = some (e, w') → x.1.Calm → e.Calm := by
    intro x heq hx
    rwa [Option.some.inj heq] at hx
  have hfault : ∀ c : Gate n, c.fault ≠ .restartStorm := by
    intro c
    cases c <;> simp [Gate.fault]
  cases phase with
  | gate c rest deadline =>
      simp only [World.startNodeStep] at h
      split at h
      · split at h
        · exact of_eq h (calm_awaitGates rest)
        · split at h
          · exact of_eq h (calm_gateFault (hfault c))
          · exact of_eq h (startEnd_wait _)
      · split at h
        · exact of_eq h (calm_gateFault (hfault c))
        · cases h
  | settle deadline =>
      simp only [World.startNodeStep] at h
      split at h
      · exact of_eq h (calm_awaitSettled deadline)
      · split at h
        · exact of_eq h (calm_awaitSettled deadline)
        · cases h
  | pass seen deadline =>
      simp only [World.startNodeStep] at h
      split at h
      · split at h
        · exact of_eq h (calm_spawnAttempt deadline)
        · exact of_eq h (startEnd_wait _)
      · cases h
  | event deadline =>
      simp only [World.startNodeStep] at h
      split at h
      · exact of_eq h (calm_spawnAttempt deadline)
      · cases h
  | yield deadline => exact of_eq h (calm_spawnAttempt deadline)

theorem calm_startNode (g : Graph n) : (g.startNode w j).1.Calm := by
  unfold Graph.startNode
  cases g.nodes j with
  | none => exact startEnd_done noStorm_none
  | some cfg =>
      cases hspawn : cfg.spawn with
      | none =>
          simp only [hspawn]
          exact startEnd_done noStorm_none
      | some sp =>
          simp only [hspawn]
          exact calm_awaitGates _

theorem calm_proceed (next : AfterStart n) {e : StartEnd n} (h : e.Calm) :
    (next.proceed j e).Calm := by
  cases e with
  | wait phase => trivial
  | done r =>
      cases next with
      | ret => exact h r rfl
      | ignore => exact noStorm_none
      | bind todo => trivial

end OneNode

/-- **A call that does not carry a refusal never comes to one.** -/
theorem Call.Calm.step {g : Graph n} {w w' : World n} {c c' : Call n} (hc : c.Calm)
    (h : c.step g w = some (c', w')) : c'.Calm := by
  cases c with
  | stopping wave next =>
      simp only [Call.step] at h
      split at h
      · next f hpc =>
          cases h
          exact hc.2 _ hpc
      · cases next <;> cases h
        · exact noStorm_none
        · exact StartWave.calm_launch _ _ _ _
        · trivial
      · cases h
        trivial
      all_goals
        obtain ⟨⟨s', u⟩, hstep, heq⟩ := Option.map_eq_some_iff.mp h
        cases heq
        exact StopWave.Calm.step hc (StopWave.step_cases hstep)
  | starting wave poke =>
      simp only [Call.step] at h
      split at h
      · next r hpc =>
          cases h
          exact hc.2 r hpc
      · cases h
        trivial
      all_goals
        obtain ⟨⟨s', u⟩, hstep, heq⟩ := Option.map_eq_some_iff.mp h
        cases heq
        exact StartWave.Calm.step hc hstep
  | startNode j phase next =>
      obtain ⟨cfg, -, h⟩ := Option.bind_eq_some_iff.mp h
      obtain ⟨sp, -, h⟩ := Option.bind_eq_some_iff.mp h
      obtain ⟨⟨e, u⟩, hpoll, heq⟩ := Option.bind_eq_some_iff.mp h
      cases heq
      exact calm_proceed next (calm_startNodeStep hpoll)
  | stopNode j deadline =>
      obtain ⟨cfg, -, h⟩ := Option.bind_eq_some_iff.mp h
      obtain ⟨⟨r, u⟩, hpoll, heq⟩ := Option.bind_eq_some_iff.mp h
      cases heq
      unfold World.stopNodeStep at hpoll
      split at hpoll
      · cases hpoll
        exact noStorm_none
      · split at hpoll
        · cases hpoll
          exact noStorm_some (by simp)
        · cases hpoll
  | bindUp todo =>
      cases todo with
      | nil =>
          cases h
          exact noStorm_none
      | cons j todo =>
          have hvisit : (g.bindVisit w j todo).1 = c' := congrArg Prod.fst (Option.some.inj h)
          rw [← hvisit]
          unfold Graph.bindVisit
          split
          · trivial
          · split
            · split
              · exact calm_proceed _ (calm_startNode g)
              · split <;> trivial
              · trivial
            · trivial
  | done | panic | cancelled => simp [Call.step] at h

/-- A front half comes to a refusal only by counting a restart. -/
theorem calm_begin (g : Graph n) (w : World n) (v : Verb n) :
    (g.begin w v).1.Calm ∨
      ∃ target, v = .restart target ∧ (g.countRestart w target).1 = false := by
  cases v with
  | restart target =>
      simp only [Graph.begin]
      cases hcount : g.countRestart w target with
      | mk counted w' =>
          cases counted with
          | false => exact Or.inr ⟨target, rfl, by rw [hcount]⟩
          | true => exact Or.inl (StopWave.calm_launch _ _ _ _)
  | start | respawnTerminate | activate => exact Or.inl (StartWave.calm_launch _ _ _ _)
  | teardown | teardownContinue | deactivate => exact Or.inl (StopWave.calm_launch _ _ _ _)
  | startNode j => exact Or.inl (calm_proceed _ (calm_startNode g))
  | stopNode j =>
      apply Or.inl
      simp only [Graph.begin]
      cases g.nodes j with
      | none => exact noStorm_none
      | some cfg =>
          simp only
          split
          · exact noStorm_none
          · trivial
  | resumeNode | resumePausable =>
      apply Or.inl
      simp only [Graph.begin]
      split <;> exact noStorm_none
  | applyBind =>
      apply Or.inl
      simp only [Graph.begin]
      split
      · exact StopWave.calm_launch _ _ _ _
      · exact noStorm_none
  | scale pool action =>
      apply Or.inl
      simp only [Graph.begin]
      cases g.pools[pool]? with
      | none => exact noStorm_none
      | some members =>
          cases action with
          | none => exact noStorm_none
          | grow =>
              simp only
              split
              · exact noStorm_none
              · split
                · exact calm_proceed _ (calm_startNode g)
                · exact noStorm_none
          | shrink =>
              simp only
              split
              · exact noStorm_none
              · split
                · exact noStorm_none
                · split
                  · exact noStorm_none
                  · trivial

/-! ## Runs -/

/-- The label is a restart of the node. -/
def Label.restarts (j : Fin n) : Label n → Bool
  | .begin (.restart target) => target == j
  | .begin _ | .advance _ | .task _ | .setDisabled _ _ | .cancel _ => false

/-- The calls among the tasks, and the instants of the restarts of one node, newest
first. -/
structure CountedSys (n : ℕ) where
  sys : Sys n
  restarts : List ℕ := []

namespace CountedSys

variable (g : Graph n) (b : RestartBudget) (j : Fin n)

def next (s : CountedSys n) (l : Label n) : Option (CountedSys n) :=
  (s.sys.next g l).map fun t =>
    { sys := t
      restarts := if l.restarts j then s.sys.world.now :: s.restarts else s.restarts }

/-- The counters are those of the window, and a call that carries a refusal has been
refused when it began. -/
structure Tracks (s : CountedSys n) : Prop where
  counts : (s.sys.world.node j).Counts (b.window s.restarts)
  past : ∀ t ∈ s.restarts, t ≤ s.sys.world.now
  calls : ∀ c ∈ s.sys.calls,
    c.Calm ∨ ∃ target, c = .done (some { node := target, kind := .restartStorm })

/-- A restart of the node is refused, with nothing stopped and nothing counted, if all of
the budget has been counted in the open window. Otherwise it does not come to a refusal
later, and no other step does. -/
def Obeys (s : CountedSys n) : Label n → Prop
  | .begin (.restart target) => target = j →
    (b.refuses s.restarts s.sys.world.now = true →
        g.begin s.sys.world (.restart j) =
          (.done (some { node := j, kind := .restartStorm }), s.sys.world)) ∧
      (b.refuses s.restarts s.sys.world.now = false →
        (g.begin s.sys.world (.restart j)).1.Calm) ∧
      ((∀ t ∈ s.restarts, t + b.span < s.sys.world.now) →
        (g.begin s.sys.world (.restart j)).1.Calm)
  | .advance i => ∀ c c' w, s.sys.calls[i]? = some c → c.step g s.sys.world = some (c', w) →
    c'.Calm
  | .begin _ | .task _ | .setDisabled _ _ | .cancel _ => True

/-- A restart of the node does not read as one in a window long closed. -/
def Unaliased (s : CountedSys n) (l : Label n) : Prop :=
  l.restarts j = true → b.aliases s.restarts s.sys.world.now = false

variable {g b j} {s t : CountedSys n} {l : Label n}

theorem budget_counts {h h' : TaskHandle} {v : Option BudgetWindow}
    (heq : h'.budget = h.budget) : h'.Counts v ↔ h.Counts v := by
  obtain ⟨hrestarts, hstart⟩ := Prod.mk.inj heq
  cases v with
  | none => simp [TaskHandle.Counts, hrestarts]
  | some w => simp [TaskHandle.counts_some, hrestarts, hstart]

/-- A front half of another verb leaves the budget of the node alone. -/
theorem budget_begin {v : Verb n} (hv : v ≠ .restart j) (w : World n) :
    ((g.begin w v).2.node j).budget = (w.node j).budget := by
  rcases (frame_budget j).begin_eq g w v with h | ⟨target, rfl, h⟩
  · exact h
  · have hne : j ≠ target := fun h => hv (h ▸ rfl)
    rw [h, Graph.node_countRestart_of_ne hne]

/-- Every other step leaves the budget of the node alone. -/
theorem budget_of_next {a c : Sys n} (hl : l ≠ .begin (.restart j))
    (h : a.next g l = some c) : (c.world.node j).budget = (a.world.node j).budget := by
  cases Sys.next_cases h with
  | @begin v c w _ hbegin =>
      have hkept := budget_begin (g := g) (v := v) (j := j) (fun h => hl (h ▸ rfl)) a.world
      rwa [hbegin] at hkept
  | advance _ _ hstep =>
      rcases (frame_budget j).step_eq hstep with h | h
      · exact h
      · exact h
  | task _ happly => exact TaskEvent.budget_of_apply happly j
  | @setDisabled i disabled =>
      exact (frame_budget j).onNode (f := fun h => h.setDisabled disabled) a.world i fun _ => rfl
  | cancel => rfl

/-- What calls there are after a step: the old ones, and one that began or was carried on. -/
theorem calls_of_next {a c : Sys n} (h : a.next g l = some c)
    (hcalls : ∀ d ∈ a.calls,
      d.Calm ∨ ∃ target, d = .done (some { node := target, kind := .restartStorm })) :
    (∀ d ∈ c.calls,
        d.Calm ∨ ∃ target, d = .done (some { node := target, kind := .restartStorm })) ∧
      ∀ i d d' w, l = .advance i → a.calls[i]? = some d → d.step g a.world = some (d', w) →
        d'.Calm := by
  have carried : ∀ {i : ℕ} {d d' : Call n} {w : World n}, a.calls[i]? = some d →
      d.step g a.world = some (d', w) → d'.Calm := by
    intro i d d' w hd hstep
    rcases hcalls d (List.mem_of_getElem? hd) with hcalm | ⟨target, rfl⟩
    · exact hcalm.step hstep
    · simp [Call.step] at hstep
  refine ⟨?_, fun i d d' w _ hd hstep => carried hd hstep⟩
  cases Sys.next_cases h with
  | @begin v d w _ hbegin =>
      intro d' hd'
      rcases List.mem_append.mp hd' with hold | hnew
      · exact hcalls d' hold
      · obtain rfl := List.mem_singleton.mp hnew
        rcases calm_begin g a.world v with hcalm | ⟨target, rfl, hcount⟩
        · rw [hbegin] at hcalm
          exact Or.inl hcalm
        · refine Or.inr ⟨target, ?_⟩
          simp only [Graph.begin] at hbegin
          generalize g.countRestart a.world target = counted at hcount hbegin
          obtain ⟨counted, u⟩ := counted
          obtain rfl : counted = false := hcount
          exact (Prod.mk.inj hbegin).1.symm
  | advance _ hd hstep =>
      intro d' hd'
      rcases List.mem_or_eq_of_mem_set hd' with hold | rfl
      · exact hcalls d' hold
      · exact Or.inl (carried hd hstep)
  | task | setDisabled => exact hcalls
  | cancel =>
      intro d' hd'
      rcases List.mem_or_eq_of_mem_set hd' with hold | rfl
      · exact hcalls d' hold
      · exact Or.inl trivial

/-- A restart that is not counted is refused on the spot, one that is counted goes on to its
stop wave. -/
theorem begin_restart (g : Graph n) (w : World n) (j : Fin n) :
    ((g.countRestart w j).1 = false →
        g.begin w (.restart j) = (.done (some { node := j, kind := .restartStorm }), w)) ∧
      ((g.countRestart w j).1 = true → (g.begin w (.restart j)).1.Calm) := by
  have hkept : (g.countRestart w j).1 = false → (g.countRestart w j).2 = w := by
    unfold Graph.countRestart
    split
    · exact fun _ => rfl
    · simp only
      split
      · intro hcount
        cases hcount
      · split
        · exact fun _ => rfl
        · intro hcount
          cases hcount
  simp only [Graph.begin]
  generalize g.countRestart w j = counted at hkept
  obtain ⟨counted, w'⟩ := counted
  cases counted with
  | false =>
      obtain rfl : w' = w := hkept rfl
      refine ⟨fun _ => rfl, fun hcount => ?_⟩
      cases hcount
  | true =>
      refine ⟨fun hcount => ?_, fun _ => StopWave.calm_launch _ _ _ _⟩
      cases hcount

/-- A restart leaves the counters as counting it leaves them. -/
theorem begin_restart_budget (g : Graph n) (w : World n) (j : Fin n) :
    ((g.begin w (.restart j)).2.node j).budget = ((g.countRestart w j).2.node j).budget := by
  simp only [Graph.begin]
  generalize g.countRestart w j = counted
  obtain ⟨counted, w'⟩ := counted
  cases counted with
  | false => rfl
  | true => exact (frame_budget j).selectNodes fun _ _ => rfl

theorem world_of_begin {a c : Sys n} {v : Verb n} (h : a.next g (.begin v) = some c) :
    c.world = (g.begin a.world v).2 := by
  cases Sys.next_cases h with
  | begin _ hbegin => rw [hbegin]

/-- **One step** obeys the budget, and leaves the counters of the window, exactly if it is
not a restart that reads as one in a window long closed. -/
theorem obeys_iff (hcfg : (g.nodes j).bind (·.restartBudget) = some (b.max, b.span))
    (hspan : b.span ≤ (2 ^ 32 - 1) / 2) (hs : Tracks b j s) (h : next g j s l = some t) :
    (Tracks b j s ∧ Obeys g b j s l) ∧ Tracks b j t ↔ Unaliased b j s l := by
  obtain ⟨c, hnext, rfl⟩ := Option.map_eq_some_iff.mp h
  have hnow := Sys.now_le_of_next hnext
  obtain ⟨hcalls, hcarried⟩ := calls_of_next hnext hs.calls
  by_cases hl : l = .begin (.restart j)
  · subst hl
    have hiff := Graph.countRestart_iff hcfg hspan hs.past hs.counts
    have hrestarts : Label.restarts j (.begin (.restart j)) = true := by simp [Label.restarts]
    have hbudget := begin_restart_budget g s.sys.world j
    obtain ⟨hrefused, hgranted⟩ := begin_restart g s.sys.world j
    have hworld := world_of_begin hnext
    have hpast : ∀ t ∈ s.sys.world.now :: s.restarts, t ≤ c.world.now := by
      intro t ht
      rcases List.mem_cons.mp ht with rfl | hold
      · exact hnow
      · exact (hs.past t hold).trans hnow
    simp only [Unaliased, hrestarts, true_imp_iff, ← hiff]
    constructor
    · rintro ⟨⟨-, hobeys⟩, ht⟩
      obtain ⟨hrefuse, hcalm, -⟩ := hobeys rfl
      have hcounts := ht.counts
      simp only [if_true, hworld] at hcounts
      refine ⟨?_, (budget_counts hbudget).mp hcounts⟩
      cases hdecide : b.refuses s.restarts s.sys.world.now with
      | true =>
          by_contra hcount
          have hcalm := hgranted (by simpa using hcount)
          rw [hrefuse hdecide] at hcalm
          exact hcalm _ rfl rfl
      | false =>
          by_contra hcount
          have hcalm := hcalm hdecide
          rw [hrefused (by simpa using hcount)] at hcalm
          exact hcalm _ rfl rfl
    · rintro ⟨hdecide, hcounts⟩
      have hcalm : b.refuses s.restarts s.sys.world.now = false →
          (g.begin s.sys.world (.restart j)).1.Calm := by
        intro h
        exact hgranted (by rw [hdecide, h]; rfl)
      refine ⟨⟨hs, fun _ => ⟨fun h => hrefused (by rw [hdecide, h]; rfl), hcalm, fun hidle =>
        hcalm (RestartBudget.not_refuses_of_idle hidle)⟩⟩, ?_, ?_, hcalls⟩
      · simp only [if_true, hworld]
        exact (budget_counts hbudget).mpr hcounts
      · simpa only [hrestarts, if_true] using hpast
  · have hother : l.restarts j = false := by
      cases l with
      | begin v =>
          cases v with
          | restart target =>
              have hne : target ≠ j := fun h => hl (h ▸ rfl)
              simpa [Label.restarts] using hne
          | _ => rfl
      | _ => rfl
    simp only [Unaliased, hother, Bool.false_eq_true, false_imp_iff, iff_true]
    refine ⟨⟨hs, ?_⟩, (budget_counts (budget_of_next hl hnext)).mpr hs.counts, ?_, hcalls⟩
    · cases l with
      | begin v =>
          cases v with
          | restart target => exact fun h => absurd (h ▸ rfl) hl
          | _ => trivial
      | advance i => exact fun d d' w hd hstep => hcarried i d d' w rfl hd hstep
      | task | setDisabled | cancel => trivial
    · exact fun t ht => (hs.past t ht).trans hnow

theorem begins (hrest : s.sys.resting = true) (v : Verb n) :
    ∃ t, next g j s (.begin v) = some t := by
  simp [next, Sys.next, hrest]

/-- **The restart budget.** Along a run that begins with nothing counted, every restart of
the node is refused or granted as the window of its earlier restarts says, and the counters
are those of the window, exactly if no restart reads as one in a window long closed. -/
theorem budget_kept_iff (hcfg : (g.nodes j).bind (·.restartBudget) = some (b.max, b.span))
    (hspan : b.span ≤ (2 ^ 32 - 1) / 2) {a : Sys n} {labels : List (Label n)}
    (hfresh : (a.world.node j).restarts = 0) (hcalls : a.calls = [])
    (hrun : exec (next g j) { sys := a } labels = some t) :
    Along (next g j) (fun s l => Tracks b j s ∧ Obeys g b j s l) { sys := a } labels ∧
        Tracks b j t ↔
      Along (next g j) (Unaliased b j) { sys := a } labels := by
  have hstart : Tracks b j { sys := a } := by
    refine ⟨hfresh, nofun, ?_⟩
    simp [hcalls]
  exact along_and_iff (fun _ _ h => h.1) (fun _ _ _ hs _ h => obeys_iff hcfg hspan hs h) hstart
    (along_of_forall (P := fun _ => True) (fun _ _ => trivial) _) hrun

end CountedSys

/-- A node that may be restarted once in ten ticks. -/
def onceInTen : Graph 1 where
  deps _ := []
  order := [0]
  topological := topological_one
  nodes _ := some { mode := .terminate, spawn := some .fn, slotTimeout := 5000000,
                    ackTimeout := 2000000, restartBudget := some (1, 10) }
  shape_sound _ cfg _ := cfg.fitsShape_all
  pools_sound := pools_sound_one

namespace CountedSys

def down : Sys 1 := { world := { node := fun _ => {} } }

/-- A restart of a node that is down, and what passes after it. -/
def once (ticks : ℕ) : List (Label 1) :=
  .begin (.restart 0) :: (List.replicate 9 (.advance 0) ++ [.task (.elapse ticks)])

def onceRun (ticks : ℕ) : Option (CountedSys 1) :=
  exec (next onceInTen 0) { sys := down } (once ticks)

def twice (ticks : ℕ) : List (Label 1) := once ticks ++ [.begin (.restart 0)]

/-- The state the second restart begins in. -/
def onceEnd (ticks : ℕ) : CountedSys 1 := (onceRun ticks).get rfl

theorem onceRun_eq (ticks : ℕ) : onceRun ticks = some (onceEnd ticks) :=
  (Option.some_get _).symm

theorem twice_runs (ticks : ℕ) :
    ∃ t, exec (next onceInTen 0) { sys := down } (twice ticks) = some t := by
  have hrest : (onceEnd ticks).sys.resting = true := rfl
  obtain ⟨t, ht⟩ := begins (g := onceInTen) (j := 0) hrest (.restart 0)
  exact ⟨t, exec_append.mpr ⟨_, onceRun_eq ticks, exec_cons.mpr ⟨t, ht, rfl⟩⟩⟩

theorem unaliased_once (ticks : ℕ) : Along (next onceInTen 0)
    (Unaliased { max := 1, span := 10 } 0) { sys := down } (once ticks) := by
  refine ⟨fun _ => rfl, fun _ _ => ?_⟩
  have hother : ∀ l ∈ List.replicate 9 (.advance 0) ++ [.task (.elapse ticks)],
      Label.restarts (0 : Fin 1) l = false := by
    simp [Label.restarts]
  apply (along_of_forall hother _).mono
  intro _ l hl hrestart
  rw [hl] at hrestart
  cases hrestart

/-- A restart after five ticks is refused. -/
theorem budget_kept_iff_twice :
    onceInTen.begin (onceEnd 5).sys.world (.restart 0) =
      (.done (some { node := 0, kind := .restartStorm }), (onceEnd 5).sys.world) := by
  obtain ⟨t, hrun⟩ := twice_runs 5
  have hnone : Along (next onceInTen 0) (Unaliased { max := 1, span := 10 } 0)
      { sys := down } (twice 5) := by
    apply along_append.mpr
    refine ⟨?_, fun u hu => ⟨?_, fun _ _ => trivial⟩⟩
    · exact unaliased_once 5
    · cases (onceRun_eq 5).symm.trans hu
      exact fun _ => by decide
  have hall := ((budget_kept_iff (b := { max := 1, span := 10 }) rfl (by decide) rfl rfl
    hrun).mpr hnone).1
  exact (((along_append.mp hall).2 _ (onceRun_eq 5)).1.2 rfl).1 (by decide)

/-- A restart `2 ^ 32` ticks after the one that opened the window is refused. -/
theorem budget_wraps : ¬ ∀ (labels : List (Label 1)) (t : CountedSys 1),
    exec (next onceInTen 0) { sys := down } labels = some t →
      Along (next onceInTen 0) (fun s l => Tracks { max := 1, span := 10 } 0 s ∧
        Obeys onceInTen { max := 1, span := 10 } 0 s l) { sys := down } labels := by
  intro h
  obtain ⟨t, hrun⟩ := twice_runs (2 ^ 32)
  have hall := h (twice (2 ^ 32)) t hrun
  obtain ⟨-, hcalm, -⟩ := ((along_append.mp hall).2 _ (onceRun_eq _)).1.2 rfl
  have hnow : (onceEnd (2 ^ 32)).sys.world.now = 2 ^ 32 := Nat.zero_add _
  have hcalls : (onceEnd (2 ^ 32)).restarts = [0] := rfl
  have hcount : (onceInTen.countRestart (onceEnd (2 ^ 32)).sys.world 0).1 = false := by
    have hstamp : (onceEnd (2 ^ 32)).sys.world.now % 2 ^ 32 = 0 :=
      (congrArg (· % 2 ^ 32) hnow).trans (Nat.mod_self _)
    have hage : (0 + 2 ^ 32 - ((onceEnd (2 ^ 32)).sys.world.node 0).restartWindowStart) %
        2 ^ 32 = 0 := rfl
    rw [Graph.countRestart_eq (b := { max := 1, span := 10 }) rfl (by decide) hstamp hage]
    rfl
  have hrefused := (begin_restart onceInTen (onceEnd (2 ^ 32)).sys.world 0).1 hcount
  rw [hnow, hcalls, hrefused] at hcalm
  exact hcalm (by decide) _ rfl rfl

end CountedSys

end EmbassySupervisor
