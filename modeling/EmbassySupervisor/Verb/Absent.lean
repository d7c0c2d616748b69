/-
# Slots configured out of the build

A slot that is configured out keeps its row of dependencies and the edges other
rows have to it. `pruned` is the graph without either: the slot is left with its
number alone, and the order is still an order of what remains.

Every pass over the rows should read both graphs alike, and all but two do. The
dependency pass of `activate` expands through an absent slot, and growth takes an
absent dependency for one that is down. `pruned_run_iff` says when a run of the
whole system cannot tell: each activation and each growth in it, at the state it
begins in, meets `KeepsOffAbsent`.
-/

import EmbassySupervisor.Verb.Activate
import EmbassySupervisor.Verb.System

namespace EmbassySupervisor

open DependencyOrder LabelledRun

variable {n : ℕ} {g : Graph n}

namespace Graph

/-- The graph without the edges to or from absent slots. -/
def pruned (g : Graph n) : Graph n :=
  { g with
    deps := fun j => if g.occupied j then (g.deps j).filter g.occupied else []
    topological := g.topological.mono fun j => by
      split
      · exact List.filter_sublist.subset
      · exact List.nil_subset _ }

@[simp]
theorem mem_deps_pruned {j d : Fin n} :
    d ∈ g.pruned.deps j ↔ g.occupied j = true ∧ g.occupied d = true ∧ d ∈ g.deps j := by
  unfold pruned
  by_cases hj : g.occupied j = true
  · simp [hj, and_comm]
  · simp [hj]

@[simp]
theorem occupied_pruned (j : Fin n) : g.pruned.occupied j = g.occupied j := rfl

/-- A test that no absent dependency passes holds of the same rows. -/
theorem any_deps_pruned {j : Fin n} {p q : Fin n → Bool} (hj : g.occupied j = true)
    (hpq : ∀ d ∈ g.deps j, p d = q d) (hq : ∀ d ∈ g.deps j, q d = true → g.occupied d = true) :
    (g.pruned.deps j).any p = (g.deps j).any q := by
  apply Bool.eq_iff_iff.mpr
  simp only [List.any_eq_true, mem_deps_pruned]
  constructor
  · rintro ⟨d, ⟨_, _, hd⟩, hpd⟩
    exact ⟨d, hd, hpq d hd ▸ hpd⟩
  · rintro ⟨d, hd, hqd⟩
    exact ⟨d, ⟨hj, hq d hd hqd, hd⟩, (hpq d hd).trans hqd⟩

end Graph

/-! ## The waves -/

theorem StopWave.held_pruned {s : StopWave n} {j : Fin n}
    (hs : ∀ k, s.chosen k = true → g.occupied k = true) (hj : s.unresolved j = true) :
    s.held g.pruned j = s.held g j := by
  have hocc : ∀ k, s.unresolved k = true → g.occupied k = true := by
    intro k hk
    exact hs k (Bool.and_eq_true_iff.mp hk).1
  unfold held
  apply Bool.eq_iff_iff.mpr
  simp only [List.any_eq_true, List.mem_finRange, true_and, Bool.and_eq_true,
    List.contains_iff_mem, Graph.mem_deps_pruned]
  apply exists_congr
  intro k
  constructor
  · rintro ⟨hk, _, _, hmem⟩
    exact ⟨hk, hmem⟩
  · rintro ⟨hk, hmem⟩
    exact ⟨hk, hocc k hk, hocc j hj, hmem⟩

/-- A stop wave over occupied slots holds the same slots back. -/
theorem StopWave.step_pruned {w : World n} {s : StopWave n}
    (hs : ∀ k, s.chosen k = true → g.occupied k = true) :
    s.step g.pruned w = s.step g w := by
  have hvisit : ∀ j todo, signalVisit g.pruned w s j todo = signalVisit g w s j todo := by
    intro j todo
    unfold signalVisit
    by_cases hj : s.unresolved j = true
    · rw [StopWave.held_pruned hs hj]
      rfl
    · simp [hj]
  unfold step
  cases s.pc with
  | signal todo =>
      cases todo with
      | nil => rfl
      | cons j todo => simp [hvisit]
  | collect todo | expire todo => cases todo <;> rfl
  | sleep | panic | done => rfl

/-- A start wave over occupied slots defers the same slots. -/
theorem StartWave.step_pruned {w : World n} {s : StartWave n}
    (hs : ∀ k, s.pending k = true → g.occupied k = true) :
    s.step g.pruned w = s.step g w := by
  have hvisit : ∀ j todo round,
      visit g.pruned w s j todo round = visit g w s j todo round := by
    intro j todo round
    unfold visit
    by_cases hj : s.pending j = true
    · rw [Graph.any_deps_pruned (hs j hj) (fun _ _ => rfl) fun d _ => hs d]
      rfl
    · simp [hj]
  unfold step
  cases s.pc with
  | visit todo round =>
      cases todo with
      | nil => rfl
      | cons j todo => simp [hvisit]
  | yield | sleep | panic | done => rfl

/-! ## Calls in flight -/

/-- The call acts on occupied slots only. -/
def Call.Present (g : Graph n) : Call n → Prop
  | .stopping wave _ => ∀ j, wave.chosen j = true → g.occupied j = true
  | .starting wave _ => ∀ j, wave.pending j = true → g.occupied j = true
  | .startNode _ _ _ | .stopNode _ _ | .bindUp _ | .done _ | .panic | .cancelled => True

theorem Call.present_proceed (next : AfterStart n) (j : Fin n) (e : StartEnd n) :
    (next.proceed j e).Present g := by
  cases e with
  | wait => trivial
  | done r => cases next <;> trivial

theorem Call.present_begin (w : World n) (v : Verb n) : (g.begin w v).1.Present g := by
  have hbegun := begin_cases g w v
  generalize g.begin w v = x at hbegun
  obtain ⟨c, u⟩ := x
  cases hbegun with
  | startWave _ hsel => exact fun j hj => (hsel.pending j hj).1
  | stopWave _ hsel | bindWave hsel => exact fun j hj => (hsel.chosen j hj).1
  | startNode | grow => exact Call.present_proceed _ _ _
  | idle | stopNow | stopWait | resumes => trivial

theorem Call.present_step {w w' : World n} {c c' : Call n} (hc : c.Present g)
    (h : c.step g w = some (c', w')) : c'.Present g := by
  have hstep := Call.step_cases h
  generalize heq : c' = d at hstep
  cases hstep with
  | stopWave hwave =>
      rw [Call.Present, hwave.static.1]
      exact hc
  | startWave hwave => exact fun j hj => hc j (hwave.pending_of_pending hj)
  | restartUp =>
      intro j hj
      obtain ⟨cfg, hcfg, _⟩ := (Option.any_eq_true _ _).mp hj
      exact (Graph.occupied_iff g).mpr ⟨cfg, hcfg⟩
  | startNode | bindStart => exact Call.present_proceed _ _ _
  | stopFault | stopDone | bindPhase | stopPanic | startPanic | startDone | ackNode
  | missNode | bindEnd | bindSkip | bindResume | bindUnmark => trivial

/-- Once begun, a call goes on alike on both graphs. -/
theorem Call.step_pruned {w : World n} {c : Call n} (hc : c.Present g) :
    c.step g.pruned w = c.step g w := by
  cases c with
  | stopping wave next =>
      simp only [step, StopWave.step_pruned (w := w) hc]
      rfl
  | starting wave poke =>
      simp only [step, StartWave.step_pruned (w := w) hc]
      rfl
  | bindUp todo =>
      cases todo with
      | nil => rfl
      | cons j todo => rfl
  | startNode | stopNode | done | panic | cancelled => rfl

/-! ## The passes -/

/-- The closure over dependents cuts at absent slots. -/
theorem collectDependents_pruned {w : World n} {seed : Fin n → Bool}
    (hseed : ∀ j, seed j = true → g.occupied j = true) :
    g.pruned.collectDependents w seed = g.collectDependents w seed := by
  funext j
  apply Bool.eq_iff_iff.mpr
  rw [collectDependents_iff, collectDependents_iff]
  apply reaches_congr (p := fun j => g.occupied j = true) hseed
  · exact fun i hi => hi.1
  · intro i d hi
    have hocc : g.occupied i = true := hi.1
    simp [hocc]

/-- No absent slot is ever held. -/
theorem occupied_of_held {w : World n} {j : Fin n} (h : (g.release w j).held = true) :
    g.occupied j = true := by
  rcases reaches_iff.mp ((release_held_iff j).mp h) with hbase | hopen
  · exact hbase.1.1
  · exact hopen.1.1

/-- The second latch pass of `activate` skips absent slots. -/
theorem release_pruned (w : World n) : g.pruned.release w = g.release w := by
  funext j
  induction j using g.wellFounded_deps.induction with
  | _ j ih =>
      let start : Graph.Release := { held := false, revive := false, handle := w.node j }
      have hfinal : ∀ d ∈ g.deps j, ∀ final : Fin n → Graph.Release,
          Function.update final j start d = final d := by
        intro d hd final
        apply Function.update_of_ne
        rintro rfl
        exact g.topological.irrefl d hd
      have hany : g.occupied j = true →
          ((g.pruned.deps j).any fun d =>
            (Function.update (g.pruned.release w) j start d).held) =
          (g.deps j).any fun d => (Function.update (g.release w) j start d).held := by
        intro hj
        apply Graph.any_deps_pruned hj
        · intro d hd
          rw [hfinal d hd, hfinal d hd, ih d hd]
        · intro d hd hheld
          rw [hfinal d hd] at hheld
          exact occupied_of_held hheld
      rw [release_apply, release_apply]
      simp only [Graph.releaseVisit, Function.update_self]
      by_cases hj : g.occupied j = true
      · rw [hany hj]
        rfl
      · simp [hj]

/-- A dependency counts as running on the pruned graph when it is absent. -/
theorem depsRunning_pruned (w : World n) (j : Fin n) :
    g.pruned.depsRunning w j = true ↔
      g.occupied j = true ∧ ∀ d ∈ g.deps j, g.occupied d = true → w.flag d .running = true := by
  simp only [Graph.depsRunning, Graph.occupied_pruned, Bool.and_eq_true, List.all_eq_true,
    Graph.mem_deps_pruned]
  constructor
  · rintro ⟨hj, hall⟩
    exact ⟨hj, fun d hd hocc => (hall d ⟨hj, hocc, hd⟩).2⟩
  · rintro ⟨hj, hall⟩
    exact ⟨hj, fun d ⟨_, hocc, hd⟩ => ⟨hocc, hall d hd hocc⟩⟩

/-! ## Activation -/

/-- The dependency pass of `activate` collects the slot. -/
def World.Collects (g : Graph n) (w : World n) (target j : Fin n) : Prop :=
  ∃ a, g.seed target a = true ∧ Relation.ReflTransGen
    (fun a d => ¬ (g.occupied a = true ∧ w.flag a .detached = true) ∧ d ∈ g.deps a) a j

/-- It does so along a path of present slots. -/
def World.CollectsLive (g : Graph n) (w : World n) (target j : Fin n) : Prop :=
  ∃ a, g.seed target a = true ∧ Relation.ReflTransGen
    (fun a d => World.Passes g w a ∧ g.occupied d = true ∧ d ∈ g.deps a) a j

theorem collectsLive_iff {w : World n} {target j : Fin n} :
    g.pruned.collectDependencies w (g.pruned.seed target) j = true ↔
      w.CollectsLive g target j := by
  have hedge : (fun a d => ¬ (g.pruned.occupied a = true ∧ w.flag a .detached = true) ∧
        d ∈ g.pruned.deps a) =
      fun a d => World.Passes g w a ∧ g.occupied d = true ∧ d ∈ g.deps a := by
    funext a d
    simp only [Graph.occupied_pruned, Graph.mem_deps_pruned, World.Passes, eq_iff_iff,
      ← Bool.not_eq_true]
    tauto
  rw [collectDependencies_iff, hedge]
  rfl

theorem World.CollectsLive.collects {w : World n} {target j : Fin n}
    (h : w.CollectsLive g target j) : w.Collects g target j := by
  obtain ⟨a, ha, hpath⟩ := h
  refine ⟨a, ha, hpath.lift id fun b d hbd => ⟨fun hdet => ?_, hbd.2.2⟩⟩
  simp [hbd.1.2] at hdet

/-- The slot holds nothing an activation could clear or bring up: no manual stop, and
it runs, or is down for a dependency, or is left to its pool. -/
def World.Untouched (g : Graph n) (w : World n) (j : Fin n) (cfg : NodeCfg n) : Prop :=
  w.flag j .disabled = false ∧
    (w.flag j .running = true ∨ w.flag j .collateral = true ∨ g.deferred cfg = true)

/-- Every node `activate` collects only through an absent slot is one it would leave
as it is. -/
def World.KeepsCollected (g : Graph n) (w : World n) (target : Fin n) : Prop :=
  ∀ j cfg, g.nodes j = some cfg → w.flag j .detached = false → w.Collects g target j →
    ¬ w.CollectsLive g target j → w.Untouched g j cfg

theorem TaskHandle.setDisabled_self {h : TaskHandle} {disabled : Bool}
    (hd : h.flags .disabled = disabled) : h.setDisabled disabled = h := by
  subst hd
  simp [setDisabled, flagPut]

section Activation

variable {w : World n} {target : Fin n}

/-- The first latch pass then clears the same manual stops. -/
theorem enabled_pruned (h : w.KeepsCollected g target) :
    g.pruned.enabled w target = g.enabled w target := by
  have hnode : (g.pruned.enabled w target).node = (g.enabled w target).node := by
    funext j
    by_cases hlive : w.CollectsLive g target j
    · have hset := collectsLive_iff.mpr hlive
      have hset' := (collectDependencies_iff _ _).mpr hlive.collects
      simp [Graph.enabled, Graph.enable, hset, hset']
    · have hset := (Bool.not_eq_true _).mp (mt collectsLive_iff.mp hlive)
      have hkept : (g.pruned.enabled w target).node j = w.node j := by
        simp [Graph.enabled, Graph.enable, hset]
      rw [hkept]
      simp only [Graph.enabled, Graph.enable]
      split
      case isTrue hguard =>
        simp only [Bool.and_eq_true, Bool.not_eq_true'] at hguard
        obtain ⟨⟨hset', hocc⟩, hdet⟩ := hguard
        obtain ⟨cfg, hcfg⟩ := (Graph.occupied_iff g).mp hocc
        have hquiet := h j cfg hcfg hdet ((collectDependencies_iff _ _).mp hset') hlive
        exact (TaskHandle.setDisabled_self hquiet.1).symm
      case isFalse => rfl
  exact congrArg (fun node => { w with node := node }) hnode

theorem lifted_pruned (u : World n) : g.pruned.lifted u = g.lifted u := by
  unfold Graph.lifted
  rw [release_pruned]

/-- The start selection then picks the same nodes. -/
theorem activating_pruned (h : w.KeepsCollected g target) {j : Fin n} {cfg : NodeCfg n}
    (hcfg : g.nodes j = some cfg) :
    g.pruned.activating w target j cfg ((g.lifted (g.enabled w target)).node j) =
      g.activating w target j cfg ((g.lifted (g.enabled w target)).node j) := by
  have hflag : ∀ k, k ≠ .disabled → k ≠ .collateral →
      ((g.lifted (g.enabled w target)).node j).flags k = w.flag j k :=
    fun k hdisabled hcollateral => flag_activate (g := g) j hdisabled hcollateral
  simp only [Graph.activating, enabled_pruned h, release_pruned]
  by_cases hlive : w.CollectsLive g target j
  · rw [collectsLive_iff.mpr hlive, (collectDependencies_iff _ _).mpr hlive.collects]
    rfl
  by_cases hall : w.Collects g target j
  · rw [(Bool.not_eq_true _).mp (mt collectsLive_iff.mp hlive),
      (collectDependencies_iff _ _).mpr hall]
    by_cases hdet : w.flag j .detached = true
    · simp [hflag, hdet]
    · obtain ⟨hfree, hquiet⟩ := h j cfg hcfg (by simpa using hdet) hall hlive
      rcases hquiet with hrun | hcoll | hdefer
      · simp [hflag, hrun]
      · have hcollateral : (g.enabled w target).flag j .collateral = true := by
          simp [Graph.enabled, flag_enable, hcoll]
        obtain ⟨hkept, hrevive⟩ := release_slot (g := g) (w := g.enabled w target) j
        by_cases hblocked : World.Blocked g (g.enabled w target) j
        · have hstays := hkept.mpr ⟨hcollateral, fun _ => hblocked⟩
          simp [Graph.lifted, hstays]
        · have hpass : World.Passes g (g.enabled w target) j := by
            refine ⟨(Graph.occupied_iff g).mpr ⟨cfg, hcfg⟩, ?_⟩
            simpa [Graph.enabled, flag_enable] using hdet
          have hlifted := hrevive.mpr ⟨hpass, hblocked, hcollateral, by
            simp [Graph.enabled, flag_enable, hfree]⟩
          rw [hlifted]
          rfl
      · have hdefer' : g.pruned.deferred cfg = true := hdefer
        simp [hdefer, hdefer']
  · rw [(Bool.not_eq_true _).mp (mt collectsLive_iff.mp hlive),
      (Bool.not_eq_true _).mp (mt (collectDependencies_iff _ _).mp hall)]
    rfl

/-- An activation does the same on the pruned graph when what it collects through
absent slots alone is nothing to it. -/
theorem begin_activate_pruned (h : w.KeepsCollected g target) :
    g.pruned.begin w (.activate target) = g.begin w (.activate target) := by
  have hpick : (fun j => (g.nodes j).any fun cfg => g.pruned.activating w target j cfg
        ((g.lifted (g.enabled w target)).node j)) =
      fun j => (g.nodes j).any fun cfg => g.activating w target j cfg
        ((g.lifted (g.enabled w target)).node j) := by
    funext j
    cases hcfg : g.nodes j with
    | none => rfl
    | some cfg => exact activating_pruned h hcfg
  have hwave : g.pruned.startNodes (g.lifted (g.enabled w target))
        (g.pruned.activating w target) true =
      g.startNodes (g.lifted (g.enabled w target)) (g.activating w target) true :=
    congrArg (fun pending => StartWave.launch g (g.lifted (g.enabled w target)) pending true)
      hpick
  rw [begin_activate, begin_activate, enabled_pruned h, lifted_pruned, hwave]

/-- And only then: a manual stop it clears, or a node it brings up, makes the
difference. -/
theorem keepsCollected_of_begin
    (h : g.pruned.begin w (.activate target) = g.begin w (.activate target)) :
    w.KeepsCollected g target := by
  rw [begin_activate, begin_activate] at h
  intro j cfg hcfg hdet hall hlive
  have hset := (collectDependencies_iff _ _).mpr hall
  have hset' := (Bool.not_eq_true _).mp (mt collectsLive_iff.mp hlive)
  constructor
  · have hsame : (g.pruned.lifted (g.pruned.enabled w target)).flag j .disabled =
        (g.lifted (g.enabled w target)).flag j .disabled :=
      congrArg (fun x => x.2.flag j .disabled) h
    have hocc := (Graph.occupied_iff g).mpr ⟨cfg, hcfg⟩
    simpa [flag_lifted, Graph.enabled, flag_enable, hset, hset', hdet, hocc] using hsame
  · by_contra hquiet
    simp only [not_or, Bool.not_eq_true] at hquiet
    obtain ⟨hrun, hcoll, hdefer⟩ := hquiet
    have hwave := (Call.starting.inj (congrArg Prod.fst h)).1
    have hpending : (g.nodes j).any (fun cfg => g.pruned.activating w target j cfg
          ((g.pruned.lifted (g.pruned.enabled w target)).node j)) =
        (g.nodes j).any fun cfg => g.activating w target j cfg
          ((g.lifted (g.enabled w target)).node j) :=
      congrFun (congrArg StartWave.pending hwave) j
    have hdown : ¬ (g.pruned.release (g.pruned.enabled w target) j).revive = true := by
      intro hrevive
      have hheld := ((release_slot j).2.mp hrevive).2.2.1
      simp [Graph.enabled, flag_enable, hcoll] at hheld
    have hfree : ((g.lifted (g.enabled w target)).node j).flags .collateral = false := by
      apply (Bool.not_eq_true _).mp
      intro hheld
      have hkept := ((release_slot (g := g) (w := g.enabled w target) j).1.mp hheld).1
      simp [Graph.enabled, flag_enable, hcoll] at hkept
    have hflag : ∀ k, k ≠ .disabled → k ≠ .collateral →
        ((g.lifted (g.enabled w target)).node j).flags k = w.flag j k :=
      fun k hdisabled hcollateral => flag_activate (g := g) j hdisabled hcollateral
    simp [hcfg, Graph.activating, hset, hset', hdown, hfree, hflag, hdet, hrun, hdefer]
      at hpending

end Activation

/-! ## Growth -/

/-- The member growth would start: the first deferred one that is down and not held. -/
def Graph.nextMember (g : Graph n) (w : World n) (members : List (Fin n)) : Option (Fin n) :=
  g.poolMember members fun j => !w.flag j .running && !w.flag j .disabled && !w.flag j .collateral

/-- The member growth would start has no absent dependency, or something else keeps it
down. -/
def World.KeepsMember (g : Graph n) (w : World n) (pool : ℕ) : Prop :=
  ∀ members j, g.pools[pool]? = some members → g.nextMember w members = some j →
    (∃ d ∈ g.deps j, g.occupied d = false) →
      (∃ d ∈ g.deps j, g.occupied d = true ∧ w.flag d .running = false) ∨
        (g.nodes j).any (w.depsReady ·) = false

section Growth

variable {w : World n} {pool : ℕ} {members : List (Fin n)} {j : Fin n}

theorem begin_grow (hmem : g.pools[pool]? = some members)
    (hpick : g.nextMember w members = some j) :
    g.begin w (.scale pool .grow) =
      if g.depsRunning w j && (g.nodes j).any (w.depsReady ·) then
        (AfterStart.ignore.proceed j (g.startNode w j).1, (g.startNode w j).2)
      else (.done none, w) := by
  unfold Graph.nextMember at hpick
  simp [Graph.begin, hmem, hpick]

/-- Starting a node leaves a mark in the history. -/
theorem StartEntry.log_lt {e : StartEnd n} {w' : World n} (h : StartEntry g w j e w')
    (hocc : g.occupied j = true) : w.log.length < w'.log.length := by
  cases h with
  | absent hcfg => simp [Graph.occupied, hcfg] at hocc
  | gated _ h =>
      obtain ⟨new, hnew, _⟩ := h.log_eq
      simp only [hnew, World.log_note, World.log_putFlag, List.length_append, List.length_cons]
      omega
  | marked =>
      simp only [World.log_started, World.log_reset, World.log_note, World.log_putFlag,
        List.length_cons]
      omega

theorem startNode_ne (hocc : g.occupied j = true) : (g.startNode w j).2 ≠ w := by
  intro hsame
  have hgrown := (startNode_cases g w j).log_lt hocc
  rw [hsame] at hgrown
  exact lt_irrefl _ hgrown

theorem occupied_of_nextMember (hpick : g.nextMember w members = some j) :
    g.occupied j = true := by
  have hmember := List.find?_some hpick
  obtain ⟨hmode, -⟩ := Bool.and_eq_true_iff.mp hmember
  obtain ⟨cfg, hcfg, -⟩ := (Option.any_eq_true _ _).mp hmode
  simp [Graph.occupied, hcfg]

theorem begin_grow_idle (h : ∀ members j, g.pools[pool]? = some members →
    g.nextMember w members ≠ some j) : g.begin w (.scale pool .grow) = (.done none, w) := by
  cases hmem : g.pools[pool]? with
  | none => simp [Graph.begin, hmem]
  | some members =>
      cases hpick : g.nextMember w members with
      | none =>
          unfold Graph.nextMember at hpick
          simp [Graph.begin, hmem, hpick]
      | some j => exact absurd hpick (h members j hmem)

/-- Growth does the same on both graphs exactly when no absent dependency is all that
keeps its member down. -/
theorem begin_grow_pruned_iff :
    g.pruned.begin w (.scale pool .grow) = g.begin w (.scale pool .grow) ↔
      w.KeepsMember g pool := by
  by_cases hidle : ∀ members j, g.pools[pool]? = some members →
      g.nextMember w members ≠ some j
  · rw [begin_grow_idle hidle, begin_grow_idle (g := g.pruned) hidle]
    simp only [true_iff]
    intro members j hmem hpick
    exact absurd hpick (hidle members j hmem)
  simp only [not_forall, not_not] at hidle
  obtain ⟨members, j, hmem, hpick⟩ := hidle
  have hocc := occupied_of_nextMember hpick
  have hkeeps : w.KeepsMember g pool ↔ ((∃ d ∈ g.deps j, g.occupied d = false) →
      (∃ d ∈ g.deps j, g.occupied d = true ∧ w.flag d .running = false) ∨
        (g.nodes j).any (w.depsReady ·) = false) := by
    constructor
    · intro h
      exact h members j hmem hpick
    · intro h members' j' hmem' hpick'
      cases hmem.symm.trans hmem'
      cases hpick.symm.trans hpick'
      exact h
  rw [hkeeps, begin_grow hmem hpick, begin_grow (g := g.pruned) hmem hpick]
  have hsame : g.pruned.startNode w j = g.startNode w j := rfl
  have hready : (g.pruned.nodes j).any (w.depsReady ·) = (g.nodes j).any (w.depsReady ·) := rfl
  rw [hsame, hready]
  by_cases hnone : ∃ d ∈ g.deps j, g.occupied d = false
  · have hdown : g.depsRunning w j = false := by
      obtain ⟨d, hd, habsent⟩ := hnone
      apply (Bool.not_eq_true _).mp
      intro hall
      have hdep := List.all_eq_true.mp (Bool.and_eq_true_iff.mp hall).2 d hd
      simp [habsent] at hdep
    have hpruned : g.pruned.depsRunning w j = false ↔
        ∃ d ∈ g.deps j, g.occupied d = true ∧ w.flag d .running = false := by
      rw [← Bool.not_eq_true, depsRunning_pruned]
      simp [hocc]
    rw [hdown, Bool.false_and, if_neg Bool.false_ne_true, ← hpruned]
    constructor
    · intro hbegin _
      by_contra hstarts
      simp only [not_or, Bool.not_eq_false] at hstarts
      rw [hstarts.1, hstarts.2, Bool.and_self, if_pos rfl] at hbegin
      exact startNode_ne (w := w) hocc (congrArg Prod.snd hbegin)
    · intro hkept
      rcases hkept hnone with hfalse | hfalse
      · simp [hfalse]
      · simp [hfalse]
  · have hpruned : g.pruned.depsRunning w j = g.depsRunning w j := by
      rw [Bool.eq_iff_iff, depsRunning_pruned]
      simp only [Graph.depsRunning, Bool.and_eq_true, List.all_eq_true]
      refine and_congr_right fun _ => forall₂_congr fun d hd => ?_
      have hpresent : g.occupied d = true := by
        by_contra habsent
        exact hnone ⟨d, hd, by simpa using habsent⟩
      simp [hpresent]
    rw [hpruned]
    exact iff_of_true rfl fun habsent => absurd habsent hnone

end Growth

/-! ## Runs -/

/-- What an activation and a growth of a pool must find for absent slots not to matter
to them; they do not matter to any other verb. -/
def Verb.KeepsOffAbsent (g : Graph n) (w : World n) : Verb n → Prop
  | .activate target => w.KeepsCollected g target
  | .scale pool .grow => w.KeepsMember g pool
  | .scale _ .none | .scale _ .shrink | .start _ | .startNode _ | .stopNode _ | .teardown
  | .teardownContinue | .resumeNode _ | .resumePausable | .respawnTerminate | .deactivate _
  | .restart _ | .applyBind => True

/-- **A verb begins alike on both graphs exactly when it keeps off absent slots.** -/
theorem begin_pruned_iff (w : World n) (v : Verb n) :
    g.pruned.begin w v = g.begin w v ↔ v.KeepsOffAbsent g w := by
  have hcollect : ∀ (target : Fin n) (w : World n),
      g.pruned.collectDependents w (g.pruned.seed target) =
        g.collectDependents w (g.seed target) :=
    fun target w => collectDependents_pruned fun j hj => occupied_of_seed hj
  cases v with
  | activate target => exact ⟨keepsCollected_of_begin, begin_activate_pruned⟩
  | scale pool action =>
      cases action with
      | grow => exact begin_grow_pruned_iff
      | none | shrink => exact iff_of_true rfl trivial
  | deactivate target =>
      refine iff_of_true ?_ trivial
      simp only [Graph.begin, hcollect]
      rfl
  | restart target =>
      refine iff_of_true ?_ trivial
      have hcount : g.pruned.countRestart w target = g.countRestart w target := rfl
      simp only [Graph.begin, hcount]
      cases g.countRestart w target with
      | mk counted u =>
          cases counted with
          | false => rfl
          | true =>
              simp only [hcollect]
              rfl
  | start | startNode | stopNode | teardown | teardownContinue | resumeNode
  | resumePausable | respawnTerminate | applyBind => exact iff_of_true rfl trivial

namespace Sys

/-- The step begins no verb that absent slots matter to. -/
def KeepsOffAbsent (g : Graph n) (s : Sys n) : Label n → Prop
  | .begin v => s.resting = true → v.KeepsOffAbsent g s.world
  | .advance _ | .task _ | .setDisabled _ _ | .cancel _ => True

/-- Every call acts on occupied slots only. -/
def Present (g : Graph n) (s : Sys n) : Prop := ∀ c ∈ s.calls, c.Present g

theorem present_next {s s' : Sys n} {l : Label n} (hs : s.Present g)
    (h : next g s l = some s') : s'.Present g := by
  intro c hc
  cases next_cases h with
  | @begin v d w _ heq =>
      cases List.mem_append.mp hc with
      | inl hold => exact hs c hold
      | inr hnew =>
          have hbegun := Call.present_begin (g := g) s.world v
          rw [List.mem_singleton.mp hnew]
          rwa [heq] at hbegun
  | advance _ hcall hstep =>
      rcases List.mem_or_eq_of_mem_set hc with hold | rfl
      · exact hs c hold
      · exact Call.present_step (hs _ (List.mem_of_getElem? hcall)) hstep
  | task | setDisabled => exact hs c hc
  | cancel =>
      rcases List.mem_or_eq_of_mem_set hc with hold | rfl
      · exact hs c hold
      · trivial

/-- A step of the system is the same on both graphs exactly when it keeps off absent
slots. -/
theorem next_pruned_iff {s : Sys n} (hs : s.Present g) (l : Label n) :
    next g s l = next g.pruned s l ↔ s.KeepsOffAbsent g l := by
  cases l with
  | begin v =>
      simp only [next, KeepsOffAbsent, ← begin_pruned_iff]
      by_cases hrest : s.resting = true
      · simp only [hrest, if_true, true_imp_iff, Option.some.injEq, Sys.mk.injEq,
          List.append_cancel_left_eq, List.cons.injEq, and_true]
        constructor
        · rintro ⟨hworld, hcall⟩
          exact (Prod.ext hcall hworld).symm
        · intro hbegin
          rw [hbegin]
          exact ⟨rfl, rfl⟩
      · simp [hrest]
  | advance i =>
      refine iff_of_true ?_ trivial
      simp only [next]
      cases hcall : s.calls[i]? with
      | none => rfl
      | some c =>
          have hstep : c.step g.pruned s.world = c.step g s.world :=
            Call.step_pruned (hs c (List.mem_of_getElem? hcall))
          simp [hstep]
  | task e => exact iff_of_true (by cases e <;> rfl) trivial
  | setDisabled | cancel => exact iff_of_true rfl trivial

/-- **Absent slots and runs.** From any state of a system at rest, a run goes the same
way on the graph without the edges to and from absent slots, state by state, exactly when
every activation and every growth in it keeps off absent slots. -/
theorem pruned_run_iff (g : Graph n) (w : World n) (labels : List (Label n)) :
    (∀ front, front <+: labels →
        exec (next g) { world := w } front = exec (next g.pruned) { world := w } front) ↔
      Along (next g) (KeepsOffAbsent g) { world := w } labels := by
  apply exec_eq_iff_along (I := Present g)
  · intro s l t hs hstep
    exact present_next hs hstep
  · intro s l hs
    exact next_pruned_iff hs l
  · intro c hc
    simp at hc

/-! A base, a slot configured out that needs it, and a pool whose two members need the
slot. -/

def cutPool : Graph 4 where
  deps j := if j = 0 then [] else if j = 1 then [0] else [1]
  order := [0, 1, 2, 3]
  topological := ⟨by decide, by decide, by decide, by decide⟩
  nodes j :=
    if j = 1 then none
    else some { mode := if j = 3 then .onDemand else .terminate, spawn := some .fn,
                slotTimeout := 5000000, ackTimeout := 2000000 }
  pools := [[2, 3]]
  shape_sound _ cfg _ := cfg.fitsShape_all
  pools_sound h := by simp at h

/-- The base stopped by hand, the pool's floor running. -/
def floorUp : World 4 where
  node j := { flags := fun k => (j == 0 && k == .disabled) || (j == 2 && k == .running) }

/-- **Absent slots are seen.** Activating the floor clears the base's manual stop, which
only the absent slot connects them by; the pool does not grow, because a dependency of
its spare member is absent. On the pruned graph the stop stays and the member starts. -/
theorem absent_seen :
    (exec (next cutPool) { world := floorUp } [.begin (.activate 2)]).map
        (fun s => s.world.flag 0 .disabled) = some false ∧
      (exec (next cutPool.pruned) { world := floorUp } [.begin (.activate 2)]).map
        (fun s => s.world.flag 0 .disabled) = some true ∧
      (exec (next cutPool) { world := floorUp } [.begin (.scale 0 .grow)]).map
        (fun s => s.world.flag 3 .running) = some false ∧
      (exec (next cutPool.pruned) { world := floorUp } [.begin (.scale 0 .grow)]).map
        (fun s => s.world.flag 3 .running) = some true := by
  decide +kernel

end Sys

end EmbassySupervisor
