/-
# Holds over whole runs

A hold put on a node stays until a verb that lifts it begins: nothing an earlier
call still does, and no task, writes one. So a deactivation that overtakes a
start in flight wins, whichever way that start completes.

Collateral holds are never stranded. Where no node is detached, every node that
bears one depends on a disabled node, through a path the latch pass of `activate`
sees; once the disabled nodes are activated, in any order, no hold is left. And
no verb but `activate` and `start_node` picks a held node to start or resume.
-/

import EmbassySupervisor.Verb.Activate
import EmbassySupervisor.Verb.Bind
import EmbassySupervisor.Verb.Deactivate
import EmbassySupervisor.Verb.System

namespace EmbassySupervisor

open DependencyOrder LabelledRun

variable {n : ℕ} {g : Graph n} {w w' : World n}

/-! ## Who lifts a hold -/

/-- The verb may lift a hold of the node as it begins. -/
def Verb.Lifts (v : Verb n) (j : Fin n) : Prop :=
  (∃ target, v = .activate target) ∨ v = .startNode j

/-- Every other verb begins without lifting any. -/
theorem Begun.flag_hold {v : Verb n} {c : Call n} (h : Begun g w v c w') {j : Fin n} {k : Flag}
    (hk : k.hold = true) (hv : ¬ v.Lifts j) (hold : w.flag j k = true) :
    w'.flag j k = true := by
  have hstale := Flag.stale_of_hold hk
  have hne : ∀ {f : Flag}, f.hold = false → k ≠ f := Flag.ne_of_hold hk
  -- The entry of a `start_node` lifts the collateral hold of its own node.
  have entry : ∀ {i : Fin n} {e : StartEnd n}, StartEntry g w i e w' →
      ¬ (j = i ∧ k = .collateral) → w'.flag j k = true := by
    intro i e hentry hother
    rw [hentry.flag_eq j hstale (hne rfl) (hne rfl) (hne rfl) (hne rfl) hother]
    exact hold
  cases h with
  | idle _ hhold => exact (hhold j k).trans hold
  | startWave _ _ _ hhold =>
      exact (hhold.resolve_right fun hactivate => hv (Or.inl hactivate)).1 j k hk hold
  | stopWave _ _ _ hhold _ => exact hhold j k hk hold
  | bindWave _ hmark => exact (hmark.flag j k (hne rfl)).trans hold
  | startNode h =>
      apply entry h
      rintro ⟨rfl, _⟩
      exact hv (Or.inr rfl)
  | grow _ _ hcollateral h =>
      apply entry h
      rintro ⟨rfl, rfl⟩
      simp [hcollateral] at hold
  | stopNow => simp [hne (show Flag.hold .shutdown = false from rfl),
      hne (show Flag.hold .running = false from rfl), hold]
  | stopWait => simp [hne (show Flag.hold .shutdown = false from rfl), hold]
  | resumes => exact (flag_resumeAll _ j hstale (hne rfl)).trans hold

/-- The label may lift a hold of the node. -/
def Label.Lifts : Label n → Fin n → Prop
  | .begin v, j => v.Lifts j
  | .setDisabled i disabled, j => i = j ∧ disabled = false
  | .advance _, _ | .task _, _ | .cancel _, _ => False

/-- **A hold stays until something that lifts it begins.** -/
theorem hold_of_exec {s s' : Sys n} {labels : List (Label n)}
    (hrun : exec (Sys.next g) s labels = some s') {j : Fin n} {k : Flag} (hk : k.hold = true)
    (hlabels : ∀ l ∈ labels, ¬ l.Lifts j) (hold : s.world.flag j k = true) :
    s'.world.flag j k = true := by
  refine Sys.world_invariant (I := fun w => w.flag j k = true)
    (P := fun _ l => ¬ l.Lifts j) ?_ ?_ ?_ ?_ hold (along_of_forall hlabels s) hrun
  · intro t v hv ht
    exact (begin_cases g t.world v).flag_hold hk hv ht
  · intro t i c c' u _ _ ht hstep
    exact ((Call.step_cases hstep).flag_hold j hk).trans ht
  · intro t e u _ ht happly
    exact ((TaskEvent.apply_cases happly).flag_hold j hk).trans ht
  · intro t i disabled hl _ ht
    rw [World.flag_onNode]
    split
    case isTrue hij =>
      subst hij
      have hdisabled : disabled = true := by
        cases disabled with
        | true => rfl
        | false => exact absurd ⟨rfl, rfl⟩ hl
      rw [TaskHandle.flags_setDisabled, hdisabled]
      split
      · rfl
      · exact ht
    case isFalse => exact ht

/-- **A hold latched during an in-flight start survives it.** When a deactivation
begins among any calls in flight, every node of its set that is not detached
bears the hold it puts there, through everything those calls and the tasks then
do, until an activation, a `start_node` of that node or the application's own
release of it begins. -/
theorem deactivate_hold_survives (g : Graph n) {s s₁ s₂ : Sys n} (target j : Fin n)
    {labels : List (Label n)} (hpass : World.Passes g s.world j)
    (hreach : ReachesSeed g s.world (g.seed target) j)
    (hdeactivate : Sys.next g s (.begin (.deactivate target)) = some s₁)
    (hrun : exec (Sys.next g) s₁ labels = some s₂) (hlabels : ∀ l ∈ labels, ¬ l.Lifts j) :
    (g.seed target j = true →
      s₁.world.flag j .disabled = true ∧ s₂.world.flag j .disabled = true) ∧
    (g.seed target j = false →
      s₁.world.flag j .collateral = true ∧ s₂.world.flag j .collateral = true) := by
  cases Sys.next_cases hdeactivate with
  | @begin _ c u _ hbegin =>
      refine ⟨fun hseed => ?_, fun hseed => ?_⟩
      · have hlatched := (flag_deactivate s.world target j .disabled).mpr
          (Or.inr ⟨hpass, Or.inl ⟨rfl, hseed⟩⟩)
        rw [hbegin] at hlatched
        exact ⟨hlatched, hold_of_exec hrun rfl hlabels hlatched⟩
      · have hlatched := (flag_deactivate s.world target j .collateral).mpr
          (Or.inr ⟨hpass, Or.inr ⟨rfl, hseed, hreach⟩⟩)
        rw [hbegin] at hlatched
        exact ⟨hlatched, hold_of_exec hrun rfl hlabels hlatched⟩

/-- A `start_node` of the client waits for the link to be ready. -/
def clientStarting : Option (Sys 2) :=
  Sys.next clientAndLink { world := { node := fun _ => {} } } (.begin (.startNode 1))

/-- The link is deactivated meanwhile. -/
def clientOvertaken : Option (Sys 2) :=
  clientStarting.bind fun s => Sys.next clientAndLink s (.begin (.deactivate 0))

/-- The deactivation returns, the link asserts readiness, the client comes up. -/
def clientStartedHeld : List (Label 2) :=
  List.replicate 7 (.advance 1) ++ [.task (.setReady 0), .advance 0]

theorem deactivate_hold_survives_client :
    ((clientOvertaken.bind fun s =>
      exec (Sys.next clientAndLink) s clientStartedHeld).get rfl).world.flag 1 .collateral =
        true := by
  have hstarting : clientStarting.isSome = true := rfl
  have hovertaken : clientOvertaken.isSome = true := rfl
  have hstarted : (exec (Sys.next clientAndLink) (clientOvertaken.get hovertaken)
    clientStartedHeld).isSome = true := rfl
  have hreach : ReachesSeed clientAndLink (clientStarting.get hstarting).world
      (clientAndLink.seed 0) 1 :=
    .step ⟨rfl, rfl⟩ (show (0 : Fin 2) ∈ clientAndLink.deps 1 from by decide)
      (.of_base (by decide))
  refine ((deactivate_hold_survives clientAndLink 0 1 ⟨rfl, rfl⟩ hreach
    (Option.some_get hovertaken).symm (Option.some_get hstarted).symm ?_).2 (by decide)).2
  intro l hl
  rcases List.mem_append.mp hl with hl | hl
  · rw [List.eq_of_mem_replicate hl]
    exact id
  · rcases List.mem_cons.mp hl with rfl | hl
    · exact id
    · rw [List.mem_singleton.mp hl]
      exact id

/-! ## No collateral hold is stranded -/

/-- Every collateral hold is justified: no node is detached, and each that bears
one is blocked by a disabled node among its transitive dependencies. -/
structure LatchesJustified (g : Graph n) (w : World n) : Prop where
  loose : ∀ j, w.flag j .detached = false
  blocked : ∀ j, w.flag j .collateral = true → World.Passes g w j ∧ World.Blocked g w j

/-- The paths that block a node survive as long as no manual stop is lifted. -/
theorem World.Blocked.mono (hpass : ∀ j, World.Passes g w j → World.Passes g w' j)
    (hdisabled : ∀ j, w.flag j .disabled = true → w'.flag j .disabled = true) {j : Fin n}
    (h : World.Blocked g w j) : World.Blocked g w' j := by
  obtain ⟨d, hd, hreach⟩ := h
  exact ⟨d, hd, hreach.mono hpass fun i hi => ⟨hpass i hi.1, hdisabled i hi.2⟩⟩

/-- A step that lifts no manual stop and latches no collateral hold. -/
theorem LatchesJustified.keep (hs : LatchesJustified g w)
    (hloose : ∀ j, w.flag j .detached = false → w'.flag j .detached = false)
    (hdisabled : ∀ j, w.flag j .disabled = true → w'.flag j .disabled = true)
    (hcollateral : ∀ j, w'.flag j .collateral = true → w.flag j .collateral = true) :
    LatchesJustified g w' := by
  have hpass : ∀ j, World.Passes g w j → World.Passes g w' j := fun j h =>
    ⟨h.1, hloose j h.2⟩
  refine ⟨fun j => hloose j (hs.loose j), fun j hj => ?_⟩
  obtain ⟨hpassing, hblocked⟩ := hs.blocked j (hcollateral j hj)
  exact ⟨hpass j hpassing, hblocked.mono hpass hdisabled⟩

/-- The flags beginning a verb never writes. -/
theorem Begun.flag_detached {v : Verb n} {c : Call n} (h : Begun g w v c w') (j : Fin n) :
    w'.flag j .detached = w.flag j .detached := by
  cases h with
  | idle hw | startWave hw | stopWave hw => exact hw.flag j _ rfl
  | bindWave _ hmark => exact hmark.flag j _ (by decide)
  | startNode h | grow _ _ _ h =>
      exact h.flag_eq j rfl (by decide) (by decide) (by decide) (by decide) (by simp)
  | stopNow | stopWait => simp
  | resumes => exact flag_resumeAll _ j rfl (by decide)

/-- Only a deactivation latches a collateral hold. -/
theorem Begun.of_collateral {v : Verb n} {c : Call n} (h : Begun g w v c w')
    (hactivate : ∀ target, v ≠ .activate target)
    (hdeactivate : ∀ target, v ≠ .deactivate target) {j : Fin n}
    (hj : w'.flag j .collateral = true) : w.flag j .collateral = true := by
  have entry : ∀ {i : Fin n} {e : StartEnd n}, StartEntry g w i e w' →
      w.flag j .collateral = true := by
    intro i e h
    by_cases hij : j = i
    · subst hij
      have hlifted : w'.flag j .collateral = false ∨ w' = w := by
        cases h with
        | absent => exact Or.inr rfl
        | gated _ h =>
            have hkept : w'.flag j .collateral = _ :=
              h.flag_eq j rfl (by decide) (by decide) (by decide) (by decide)
            exact Or.inl (by simp [hkept])
        | marked => exact Or.inl (by simp [Flag.stale])
      rcases hlifted with hlifted | rfl
      · simp [hlifted] at hj
      · exact hj
    · rwa [h.flag_eq j rfl (by decide) (by decide) (by decide) (by decide)
        (fun h => hij h.1)] at hj
  cases h with
  | idle _ hhold => exact (hhold j _).symm.trans hj
  | startWave _ _ _ hhold =>
      have hsame := (hhold.resolve_right (not_exists.mpr hactivate)).2
      exact (hsame j).symm.trans hj
  | stopWave _ _ _ _ hsame =>
      have hsame := hsame.resolve_right (not_exists.mpr hdeactivate)
      exact (hsame j _).symm.trans hj
  | bindWave _ hmark => exact (hmark.flag j _ (by decide)).symm.trans hj
  | startNode h | grow _ _ _ h => exact entry h
  | stopNow | stopWait => simpa using hj
  | resumes => exact (flag_resumeAll _ j rfl (by decide)).symm.trans hj

/-- Beginning any verb keeps the collateral holds justified. -/
theorem LatchesJustified.begin (hs : LatchesJustified g w) (v : Verb n) :
    LatchesJustified g (g.begin w v).2 := by
  have hbegun := begin_cases g w v
  have hloose : ∀ j, w.flag j .detached = false → (g.begin w v).2.flag j .detached = false :=
    fun j hj => (hbegun.flag_detached j).trans hj
  by_cases hactivate : ∃ target, v = .activate target
  · obtain ⟨target, rfl⟩ := hactivate
    refine ⟨fun j => hloose j (hs.loose j), fun j hj => ?_⟩
    -- What is still held after the latch pass is what something blocks.
    obtain ⟨hold, hnot⟩ := (collateral_activate j).mp hj
    have hpass := (hs.blocked j hold).1
    refine ⟨(passes_activate j).mpr hpass, ?_⟩
    by_contra hfree
    exact hnot ⟨hpass, hfree⟩
  by_cases hdeactivate : ∃ target, v = .deactivate target
  · obtain ⟨target, rfl⟩ := hdeactivate
    have hpass : ∀ j, World.Passes g w j →
        World.Passes g (g.begin w (.deactivate target)).2 j := fun j h => ⟨h.1, hloose j h.2⟩
    have hdisabled : ∀ j, w.flag j .disabled = true →
        (g.begin w (.deactivate target)).2.flag j .disabled = true := fun j hj =>
      (flag_deactivate w target j _).mpr (Or.inl hj)
    refine ⟨fun j => hloose j (hs.loose j), fun j hj => ?_⟩
    rcases (flag_deactivate w target j _).mp hj with hold | ⟨hpassing, hnew⟩
    · obtain ⟨hpassing, hblocked⟩ := hs.blocked j hold
      exact ⟨hpass j hpassing, hblocked.mono hpass hdisabled⟩
    · obtain ⟨_, hseed, hreach⟩ := hnew.resolve_left (by simp)
      refine ⟨hpass j hpassing, ?_⟩
      -- The node is not of the seed, so its path to the seed has a first edge.
      rcases reaches_iff.mp hreach with hbase | ⟨_, d, hd, hreach⟩
      · simp [hseed] at hbase
      · refine ⟨d, hd, hreach.mono hpass fun i hi => ?_⟩
        have hi' : World.Passes g w i := ⟨occupied_of_seed hi, hs.loose i⟩
        exact ⟨hpass i hi', (flag_deactivate w target i _).mpr
          (Or.inr ⟨hi', Or.inl ⟨rfl, hi⟩⟩)⟩
  · have ha : ∀ target, v ≠ .activate target := fun target h => hactivate ⟨target, h⟩
    have hd : ∀ target, v ≠ .deactivate target := fun target h => hdeactivate ⟨target, h⟩
    apply hs.keep hloose
    · intro j hj
      by_cases hstart : v = .startNode j
      · subst hstart
        -- `start_node` lifts the collateral hold only.
        have hentry := startNode_cases g w j
        have hkept := hentry.flag_eq j (k := .disabled) rfl (by decide) (by decide) (by decide)
          (by decide) (by simp)
        exact hkept.trans hj
      · apply hbegun.flag_hold rfl _ hj
        rintro (⟨target, h⟩ | h)
        · exact ha target h
        · exact hstart h
    · intro j hj
      exact hbegun.of_collateral ha hd hj

/-- No node detaches itself, and the application lifts no manual stop. -/
def Label.KeepsLatches : Label n → Prop
  | .task (.setDetached _ detached) => detached = false
  | .setDisabled _ disabled => disabled = true
  | .begin _ | .advance _ | .task _ | .cancel _ => True

theorem latchesJustified_of_exec {s s' : Sys n} {labels : List (Label n)}
    (hs : LatchesJustified g s.world) (hlabels : ∀ l ∈ labels, l.KeepsLatches)
    (hrun : exec (Sys.next g) s labels = some s') : LatchesJustified g s'.world := by
  refine Sys.world_invariant (P := fun _ l => l.KeepsLatches) ?_ ?_ ?_ ?_ hs
    (along_of_forall hlabels s) hrun
  · intro t v _ ht
    exact ht.begin v
  · intro t i c c' u _ _ ht hstep
    have hstep := Call.step_cases hstep
    apply ht.keep
    · intro j hj
      exact (hstep.flag_eq j rfl (by decide) (by decide) (by decide) (by decide)).trans hj
    · intro j hj
      exact (hstep.flag_hold j rfl).trans hj
    · intro j hj
      exact (hstep.flag_hold j rfl).symm.trans hj
  · intro t e u hl ht happly
    have heffect := TaskEvent.apply_cases happly
    apply ht.keep
    · intro j hj
      cases hwrites : e.writes j .detached with
      | false => exact (TaskEvent.flag_eq_of_not_writes happly hwrites).trans hj
      | true =>
          cases e with
          | setDetached i detached =>
              have hdetached : detached = false := hl
              cases happly
              rw [World.flag_putFlag, hdetached]
              split
              · rfl
              · exact hj
          | ackDropped | markExited | park | setReady | clearReady | markBusy | markIdle
          | elapse | appSpawn | pollShutdown | takeResume | provide | take | clear | fillSlot
          | fencePass | setRefused => simp [TaskEvent.writes] at hwrites
    · intro j hj
      exact (heffect.flag_hold j rfl).trans hj
    · intro j hj
      exact (heffect.flag_hold j rfl).symm.trans hj
  · intro t i disabled hl _ ht
    have hdisabled : disabled = true := hl
    have hflag : ∀ j k, (t.world.onNode i fun h => h.setDisabled disabled).flag j k =
        if j = i ∧ k = .disabled then disabled else t.world.flag j k := by
      intro j k
      rw [World.flag_onNode, TaskHandle.flags_setDisabled]
      by_cases hj : j = i
      · simp [hj, World.flag]
      · simp [hj]
    apply ht.keep
    · intro j hj
      simpa [hflag] using hj
    · intro j hj
      rw [hflag, hdisabled, hj, ite_self]
    · intro j hj
      simpa [hflag] using hj

/-! ## Activating what is disabled releases everything -/

/-- The label may add a manual stop. -/
def Label.Disables : Label n → Prop
  | .begin (.start _) | .begin (.deactivate _) => True
  | .setDisabled _ disabled => disabled = true
  | .begin _ | .advance _ | .task _ | .cancel _ => False

/-- Beginning any other verb adds no manual stop. -/
theorem Begun.of_disabled {v : Verb n} {c : Call n} (h : Begun g w v c w')
    (hv : ¬ (Label.begin v).Disables) {j : Fin n} (hj : w'.flag j .disabled = true) :
    w.flag j .disabled = true := by
  cases h with
  | idle _ hhold => exact (hhold j _).symm.trans hj
  | startWave _ _ _ _ hadd =>
      refine hadd.resolve_right ?_ j hj
      rintro ⟨enabled, rfl⟩
      exact hv trivial
  | stopWave _ _ _ _ hsame =>
      refine (hsame.resolve_right ?_ j _).symm.trans hj
      rintro ⟨target, rfl⟩
      exact hv trivial
  | bindWave _ hmark => exact (hmark.flag j _ (by decide)).symm.trans hj
  | startNode h | grow _ _ _ h =>
      exact (h.flag_eq j rfl (by decide) (by decide) (by decide) (by decide) (by simp)).symm.trans
        hj
  | stopNow | stopWait => simpa using hj
  | resumes => exact (flag_resumeAll _ j rfl (by decide)).symm.trans hj

theorem of_disabled_of_exec {s s' : Sys n} {labels : List (Label n)}
    (hlabels : ∀ l ∈ labels, ¬ l.Disables) (hrun : exec (Sys.next g) s labels = some s')
    {j : Fin n} (hj : s'.world.flag j .disabled = true) : s.world.flag j .disabled = true := by
  by_contra hnot
  refine absurd hj (Sys.world_invariant (I := fun w => ¬ w.flag j .disabled = true)
    (P := fun _ l => ¬ l.Disables) ?_ ?_ ?_ ?_ hnot (along_of_forall hlabels s) hrun)
  · intro t v hl ht hnew
    exact ht ((begin_cases g t.world v).of_disabled hl hnew)
  · intro t i c c' u _ _ ht hstep hnew
    exact ht (((Call.step_cases hstep).flag_hold j rfl).symm.trans hnew)
  · intro t e u _ ht happly hnew
    exact ht (((TaskEvent.apply_cases happly).flag_hold j rfl).symm.trans hnew)
  · intro t i disabled hl _ ht hnew
    have hdisabled : disabled = false := (Bool.not_eq_true _).mp hl
    rw [World.flag_onNode, TaskHandle.flags_setDisabled, hdisabled] at hnew
    split at hnew
    · simp at hnew
    · exact ht hnew

/-- An activation lifts the manual stop of its target. -/
theorem disabled_activate_self {j : Fin n} (hpass : World.Passes g w j) :
    (g.begin w (.activate j)).2.flag j .disabled = false := by
  have hset : g.collectDependencies w (g.seed j) j = true := by
    apply spread_of_marked
    simp [Graph.seed, hpass.1]
  rw [begin_activate, flag_lifted _ _ (by decide), Graph.enabled, flag_enable,
    if_pos ⟨rfl, hset, hpass.1, hpass.2⟩]

/-- Once every node disabled at some moment has been activated, and no stop has been
added since, no hold is left. -/
theorem released_of_exec {s s' : Sys n} {labels : List (Label n)}
    (hs : LatchesJustified g s.world) (hkeep : ∀ l ∈ labels, l.KeepsLatches)
    (hadd : ∀ l ∈ labels, ¬ l.Disables)
    (hactivate : ∀ j, g.occupied j = true → s.world.flag j .disabled = true →
      .begin (.activate j) ∈ labels)
    (hrun : exec (Sys.next g) s labels = some s') (j : Fin n) (hocc : g.occupied j = true) :
    s'.world.flag j .disabled = false ∧ s'.world.flag j .collateral = false := by
  have hjustified := latchesJustified_of_exec hs hkeep hrun
  have hdisabled : ∀ i, g.occupied i = true → ¬ s'.world.flag i .disabled = true := by
    intro i hi hnow
    have hthen := of_disabled_of_exec hadd hrun hnow
    obtain ⟨front, back, rfl⟩ := List.append_of_mem (hactivate i hi hthen)
    obtain ⟨t, u, hfront, hbegin, hback⟩ := exec_append_cons.mp hrun
    have ht := latchesJustified_of_exec hs
      (fun l hl => hkeep l (List.mem_append_left _ hl)) hfront
    have hlater := of_disabled_of_exec
      (fun l hl => hadd l (List.mem_append_right _ (List.mem_cons_of_mem _ hl))) hback hnow
    cases Sys.next_cases hbegin with
    | begin _ heq =>
        have hlifted := disabled_activate_self (g := g) (w := t.world) ⟨hi, ht.loose i⟩
        rw [heq] at hlifted
        simp [hlifted] at hlater
  refine ⟨(Bool.not_eq_true _).mp (hdisabled j hocc), (Bool.not_eq_true _).mp fun hheld => ?_⟩
  obtain ⟨_, d, _, b, ⟨hpass, hstop⟩, _⟩ := hjustified.blocked j hheld
  exact hdisabled b hpass.1 hstop

/-! ## What a verb picks is not held -/

/-- The nodes a call is going to bring up. -/
def Call.Targets : Call n → Fin n → Prop
  | .starting wave _, j => wave.pending j = true
  | .startNode i _ _, j => i = j
  | .stopping _ _, _ | .stopNode _ _, _ | .bindUp _, _ | .done _, _ | .panic, _
  | .cancelled, _ => False

theorem targets_proceed {next : AfterStart n} {i j : Fin n} {e : StartEnd n}
    (h : (next.proceed i e).Targets j) : i = j := by
  cases e with
  | wait => exact h
  | done r => cases next <;> exact h.elim

/-- A record about one node brings up no other. -/
private theorem bringUps_about {later log : List (ℕ × Record n)} {i j : Fin n}
    (hnode : ∀ r ∈ later, r.2.node = i) (h : bringUps log j < bringUps (later ++ log) j) :
    i = j := by
  by_contra hij
  rw [bringUps_append_of_node fun r hr heq => hij ((hnode r hr).symm.trans heq)] at h
  exact absurd h (lt_irrefl _)

/-- A call picks up no held node on its way: what it did not target before the step
is not held as it does. -/
theorem Call.Step.picks_free {c c' : Call n} (h : Call.Step g w c c' w') {j : Fin n}
    (hbefore : ¬ c.Targets j)
    (hafter : c'.Targets j ∨ bringUps w.log j < bringUps w'.log j) :
    w.flag j .disabled = false ∧ w.flag j .collateral = false := by
  have idle : ∀ {d : Call n} {u : World n}, ¬ d.Targets j →
      (∃ new, u.log = new ++ w.log ∧ ∀ r ∈ new, r.2.decisive = false) →
      ¬ (d.Targets j ∨ bringUps w.log j < bringUps u.log j) := by
    rintro d u hd ⟨new, hnew, hdecisive⟩
    rw [hnew, bringUps_append_of_not_decisive hdecisive]
    simp [hd]
  have quiet : ∀ {d : Call n} {u : World n}, ¬ d.Targets j → u.log = w.log →
      ¬ (d.Targets j ∨ bringUps w.log j < bringUps u.log j) := fun hd hlog =>
    idle hd ⟨[], hlog, by simp⟩
  cases h with
  | stopWave h => exact absurd hafter (idle id h.log_eq)
  | startWave h =>
      refine absurd ?_ hbefore
      exact hafter.elim h.pending_of_pending h.of_bringUp
  | restartUp =>
      have hpending := hafter.resolve_right (lt_irrefl _)
      obtain ⟨cfg, _, hpick⟩ := (pending_startNodes j).mp hpending
      simp only [Bool.and_eq_true, Bool.not_eq_true'] at hpick
      exact ⟨hpick.1.1.1.2, hpick.1.1.2⟩
  | startNode _ h =>
      refine absurd ?_ hbefore
      obtain ⟨new, hnew, hnode⟩ := h.log_eq
      rw [hnew] at hafter
      exact hafter.elim targets_proceed (bringUps_about hnode)
  | @bindStart i todo cfg e _ _ hbind _ h =>
      obtain ⟨new, hnew, hnode⟩ := h.log_eq
      rw [hnew] at hafter
      obtain rfl := hafter.elim targets_proceed (bringUps_about hnode)
      exact ⟨(World.bindable_iff.mp hbind).2.1, (World.bindable_iff.mp hbind).2.2.1⟩
  | @bindResume i todo cfg _ hbind _ =>
      have hlog : ((w.resume i).putFlag i .boundStopped false).log =
          [(w.now, .note i .resumed)] ++ w.log := by simp
      rw [hlog] at hafter
      obtain rfl := bringUps_about (i := i) (by simp [Record.node])
        (hafter.resolve_left id)
      exact ⟨(World.bindable_iff.mp hbind).2.1, (World.bindable_iff.mp hbind).2.2.1⟩
  | ackNode => exact absurd hafter (idle id (World.grows_takeAck _ _))
  | missNode => exact absurd hafter (idle id (w.grows_missAck g _ _))
  | startDone _ hw | bindUnmark _ _ _ hw => exact absurd hafter (quiet id hw.log)
  | stopFault | stopDone | bindPhase | stopPanic | startPanic | bindEnd | bindSkip =>
      exact absurd hafter (quiet id rfl)

/-- Only parked instances that are not held are resumed. -/
theorem free_of_resumeAll (js : List (Fin n)) {j : Fin n}
    (h : bringUps w.log j < bringUps (g.resumeAll w js).log j) :
    w.flag j .disabled = false ∧ w.flag j .collateral = false := by
  unfold Graph.resumeAll at h
  induction js generalizing w with
  | nil => exact absurd h (lt_irrefl _)
  | cons i js ih =>
      rw [List.foldl_cons] at h
      split at h
      case isTrue hresumable =>
        by_cases hij : i = j
        · subst hij
          obtain ⟨cfg, _, hpick⟩ := (Option.any_eq_true _ _).mp hresumable
          simp only [World.resumable, Bool.and_eq_true, Bool.not_eq_true'] at hpick
          exact ⟨hpick.1.1.1.2, hpick.1.1.2⟩
        · have hlog : (w.resume i).log = [(w.now, .note i .resumed)] ++ w.log := by simp
          have hsame : bringUps (w.resume i).log j = bringUps w.log j := by
            rw [hlog]
            exact bringUps_append_of_node (by simp [Record.node, hij])
          rw [← hsame] at h
          have hfree := ih h
          simpa [Flag.stale] using hfree
      case isFalse => exact ih h

/-- **No held node is picked as a verb begins**, but by `activate` and `start_node`.
The predicates of `start` are asked before it picks, so what it picks is not
disabled after them either. -/
theorem Begun.picks_free {v : Verb n} {c : Call n} (h : Begun g w v c w')
    (hactivate : ∀ target, v ≠ .activate target) (hstart : ∀ i, v ≠ .startNode i) {j : Fin n}
    (hafter : c.Targets j ∨ bringUps w.log j < bringUps w'.log j) :
    w.flag j .disabled = false ∧ w.flag j .collateral = false ∧
      w'.flag j .disabled = false := by
  have idle : ∀ {d : Call n} {u : World n}, ¬ d.Targets j →
      (∃ new, u.log = new ++ w.log ∧
        ∀ r ∈ new, r.2 ≠ .note j .started ∧ r.2 ≠ .note j .resumed) →
      ¬ (d.Targets j ∨ bringUps w.log j < bringUps u.log j) := by
    rintro d u hd ⟨new, hnew, hother⟩
    rw [hnew, bringUps_append hother]
    simp [hd]
  have unlogged : ∀ {d : Call n} {u : World n}, ¬ d.Targets j → u.log = w.log →
      ¬ (d.Targets j ∨ bringUps w.log j < bringUps u.log j) := fun hd hlog =>
    idle hd ⟨[], hlog, by simp⟩
  cases h with
  | idle hw => exact absurd hafter (unlogged id hw.log)
  | @startWave _ s poke _ hw hsel hfree hhold _ =>
      rw [hw.log] at hafter
      have hpending : s.pending j = true := hafter.resolve_right (lt_irrefl _)
      obtain ⟨hkeeps, hcollateral⟩ := hhold.resolve_right fun ⟨target, h⟩ => hactivate target h
      have hdisabled := hfree.resolve_right (fun ⟨target, h⟩ => hactivate target h) j hpending
      refine ⟨?_, (hcollateral j).symm.trans (hsel.pending j hpending).2.2.2, hdisabled⟩
      apply (Bool.not_eq_true _).mp
      intro hheld
      have := hkeeps j .disabled rfl hheld
      simp [hdisabled] at this
  | stopWave hw => exact absurd hafter (unlogged id hw.log)
  | bindWave _ hmark =>
      refine absurd hafter (idle id ⟨_, hmark.log, fun r hr => ?_⟩)
      obtain ⟨i, _, rfl⟩ := List.mem_map.mp hr
      simp
  | startNode => exact absurd rfl (hstart _)
  | @grow pool i e _ hdown hdisabled hcollateral h =>
      obtain ⟨new, hnew, hnode⟩ := h.log_eq
      rw [hnew] at hafter
      obtain rfl := hafter.elim targets_proceed (bringUps_about hnode)
      refine ⟨hdisabled, hcollateral, ?_⟩
      exact (h.flag_eq i rfl (by decide) (by decide) (by decide) (by decide)
        (by simp)).trans hdisabled
  | @stopNow _ i _ _ =>
      refine absurd hafter (idle id ?_)
      obtain ⟨new, hnew, hdecisive⟩ := ((w.signalShutdown i).note i .stopRequested).grows_takeAck i
      refine ⟨new ++ [(w.now, .note i .stopRequested)], by simp [hnew], fun r hr => ?_⟩
      cases List.mem_append.mp hr with
      | inl hr => exact Record.ne_of_not_decisive (hdecisive r hr) j
      | inr hr => simp [List.mem_singleton.mp hr]
  | @stopWait _ i _ _ _ =>
      exact absurd hafter (idle id ⟨[(w.now, .note i .stopRequested)], by simp, by simp⟩)
  | resumes =>
      have hfree := free_of_resumeAll _ (hafter.resolve_left id)
      exact ⟨hfree.1, hfree.2, (flag_resumeAll _ j rfl (by decide)).trans hfree.1⟩

/-- A blocked node has a disabled one among its transitive dependencies. -/
theorem World.Blocked.exists_disabled {j : Fin n} (h : World.Blocked g w j) :
    ∃ d, Relation.TransGen (fun a d => d ∈ g.deps a) j d ∧ w.flag d .disabled = true := by
  obtain ⟨a, ha, d, ⟨_, hdisabled⟩, hpath⟩ := h
  refine ⟨d, ?_, hdisabled⟩
  exact Relation.TransGen.head' ha (Relation.ReflTransGen.mono (fun _ _ hedge => hedge.2) _ _ hpath)

/-- **Latches over whole runs.** Where no node is detached and no collateral hold is
set to begin with, after any run of calls of any verbs every node that bears a
collateral hold has a disabled node among its transitive dependencies; whenever
every node disabled by then has been activated, with no stop added since, all
holds are gone; and no verb but `activate` and `start_node` ever picks a held
node, neither as it begins nor on its way. -/
theorem latches_justified_and_respected (g : Graph n) {s₀ s : Sys n}
    {labels : List (Label n)} (hloose : ∀ j, s₀.world.flag j .detached = false)
    (hfree : ∀ j, s₀.world.flag j .collateral = false)
    (hlabels : ∀ l ∈ labels, l.KeepsLatches)
    (hrun : exec (Sys.next g) s₀ labels = some s) :
    (∀ j, s.world.flag j .collateral = true →
      ∃ d, Relation.TransGen (fun a d => d ∈ g.deps a) j d ∧ s.world.flag d .disabled = true) ∧
    (∀ (later : List (Label n)) (s' : Sys n), (∀ l ∈ later, l.KeepsLatches ∧ ¬ l.Disables) →
      (∀ j, g.occupied j = true → s.world.flag j .disabled = true →
        .begin (.activate j) ∈ later) →
      exec (Sys.next g) s later = some s' → ∀ j, g.occupied j = true →
        s'.world.flag j .disabled = false ∧ s'.world.flag j .collateral = false) ∧
    (∀ (v : Verb n) (c : Call n) (w : World n), g.begin s.world v = (c, w) →
      (∀ target, v ≠ .activate target) → (∀ i, v ≠ .startNode i) →
      ∀ j, c.Targets j ∨ bringUps s.world.log j < bringUps w.log j →
        s.world.flag j .disabled = false ∧ s.world.flag j .collateral = false ∧
          w.flag j .disabled = false) ∧
    (∀ (i : ℕ) (c c' : Call n) (w : World n), s.calls[i]? = some c →
      c.step g s.world = some (c', w) → ∀ j, ¬ c.Targets j →
        c'.Targets j ∨ bringUps s.world.log j < bringUps w.log j →
        s.world.flag j .disabled = false ∧ s.world.flag j .collateral = false) := by
  have hstart : LatchesJustified g s₀.world :=
    ⟨hloose, fun j hj => by simp [hfree j] at hj⟩
  have hjustified := latchesJustified_of_exec hstart hlabels hrun
  refine ⟨fun j hj => (hjustified.blocked j hj).2.exists_disabled, ?_, ?_, ?_⟩
  · intro later s' hlater hactivate hrest
    exact released_of_exec hjustified (fun l hl => (hlater l hl).1) (fun l hl => (hlater l hl).2)
      hactivate hrest
  · intro v c w hbegin hactivate hstartNode j hafter
    have hbegun := begin_cases g s.world v
    rw [hbegin] at hbegun
    exact hbegun.picks_free hactivate hstartNode hafter
  · intro i c c' w _ hstep j hbefore hafter
    exact (Call.step_cases hstep).picks_free hbefore hafter

/-- The link deactivated from the state with both nodes up. -/
def linkHeld : Option (Sys 2) :=
  exec (Sys.next clientAndLink) { world := clientAndLinkUp } [.begin (.deactivate 0)]

theorem latches_justified_and_respected_client :
    ∃ d, Relation.TransGen (fun a d => d ∈ clientAndLink.deps a) 1 d ∧
      (linkHeld.get rfl).world.flag d .disabled = true := by
  have hrun : linkHeld.isSome = true := rfl
  refine (latches_justified_and_respected clientAndLink (fun _ => rfl) (fun _ => rfl) ?_
    (Option.some_get hrun).symm).1 1 rfl
  intro l hl
  rw [List.mem_singleton.mp hl]
  trivial

end EmbassySupervisor
