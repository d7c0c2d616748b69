/-
# What beginning a verb does

The front half of a verb is synchronous, so it is one step. Most front halves
only write holds, the flags that keep a node down on purpose, and begin a wave
over nodes in a given state; `apply_bind` marks what it stops, and the others
act on a single node. `begin_cases` says which, verb by verb.
-/

import EmbassySupervisor.Verb.Call

namespace EmbassySupervisor

variable {n : ℕ} {g : Graph n}

/-- Nothing changes but holds, counters and slots. -/
structure World.Relatched (w w' : World n) : Prop where
  flag : ∀ j k, k.hold = false → w'.flag j k = w.flag j k
  droppedWake : ∀ j, (w'.node j).droppedWake = (w.node j).droppedWake
  inst : w'.inst = w.inst
  now : w'.now = w.now
  log : w'.log = w.log

theorem World.Still.relatched {w w' : World n} (h : w.Still w') : w.Relatched w' :=
  ⟨fun j k _ => h.flag j k, h.droppedWake, h.inst, h.now, h.log⟩

theorem World.Relatched.trans {w w₁ w₂ : World n} (h : w.Relatched w₁)
    (h' : w₁.Relatched w₂) : w.Relatched w₂ :=
  ⟨fun j k hk => (h'.flag j k hk).trans (h.flag j k hk),
    fun j => (h'.droppedWake j).trans (h.droppedWake j), h'.inst.trans h.inst,
    h'.now.trans h.now, h'.log.trans h.log⟩

/-- No hold is lifted. -/
def World.KeepsHolds (w w' : World n) : Prop :=
  ∀ j k, k.hold = true → w.flag j k = true → w'.flag j k = true

/-- Rewriting handles without touching what `Relatched` keeps. -/
theorem relatched_of_node {w : World n} {f : Fin n → TaskHandle}
    (hflag : ∀ j k, k.hold = false → (f j).flags k = (w.node j).flags k)
    (hwake : ∀ j, (f j).droppedWake = (w.node j).droppedWake) :
    w.Relatched { w with node := f } :=
  ⟨fun j k hk => hflag j k hk, hwake, rfl, rfl, rfl⟩

/-! ## The latch passes -/

theorem relatched_enable (w : World n) (set : Fin n → Bool) :
    w.Relatched (g.enable w set) := by
  apply relatched_of_node
  · intro j k hk
    have hne : k ≠ .disabled := fun h => by simp [h, Flag.hold] at hk
    split
    · simp [hne]
    · rfl
  · intro j
    split <;> rfl

/-- The predicates of `start` only add manual stops. -/
theorem flag_disableBy (w : World n) (enabled : Fin n → Bool) (j : Fin n) (k : Flag) :
    (g.disableBy w enabled).flag j k = w.flag j k ∨
      (k = .disabled ∧ (g.disableBy w enabled).flag j k = true) := by
  have hnode : (g.disableBy w enabled).node j =
      if (g.nodes j).any (·.enabledIf) && !w.flag j .running && !w.flag j .detached &&
        !enabled j then (w.node j).setDisabled true
      else w.node j := rfl
  rw [World.flag, hnode]
  split
  · by_cases hk : k = .disabled
    · exact Or.inr ⟨hk, by simp [hk]⟩
    · exact Or.inl (by simp [hk, World.flag])
  · exact Or.inl rfl

theorem relatched_disableBy (w : World n) (enabled : Fin n → Bool) :
    w.Relatched (g.disableBy w enabled) := by
  apply relatched_of_node
  · intro j k hk
    have hne : k ≠ .disabled := fun h => by simp [h, Flag.hold] at hk
    split
    · simp [hne]
    · rfl
  · intro j
    split <;> rfl

/-- The second latch pass of `activate` computes, for each slot, its visit on the
final values of its dependencies. -/
theorem release_apply (w : World n) (j : Fin n) :
    g.release w j = g.releaseVisit j (Function.update (g.release w) j
      { held := false, revive := false, handle := w.node j }) := by
  unfold Graph.release
  rw [DependencyOrder.sweep_apply g.topological]
  intro j s t hdeps hj
  have hany : ((g.deps j).any fun d => (s d).held) = (g.deps j).any fun d => (t d).held := by
    rw [Bool.eq_iff_iff]
    simp only [List.any_eq_true]
    refine exists_congr fun d => and_congr_right fun hd => ?_
    rw [hdeps d hd]
  simp [Graph.releaseVisit, hj, hany]

/-- A handle comes out of the latch pass as it went in, but for its collateral
hold. -/
theorem release_handle (w : World n) (j : Fin n) :
    (g.release w j).handle = w.node j ∨
      (g.release w j).handle = (w.node j).flagPut .collateral false := by
  rw [release_apply]
  simp only [Graph.releaseVisit, Function.update_self]
  split
  · exact Or.inl rfl
  · simp only
    split
    · exact Or.inr rfl
    · exact Or.inl rfl

theorem relatched_release (w : World n) :
    w.Relatched { w with node := fun j => (g.release w j).handle } := by
  apply relatched_of_node
  · intro j k hk
    have hne : k ≠ .collateral := fun h => by simp [h, Flag.hold] at hk
    rcases release_handle (g := g) w j with h | h
    · rw [h]
    · simp [h, hne]
  · intro j
    rcases release_handle (g := g) w j with h | h
    · rw [h]
    · rw [h]
      rfl

/-- Neither latch pass adds a manual stop. -/
theorem of_disabled_enable (w : World n) (set : Fin n → Bool) {j : Fin n}
    (h : (g.enable w set).flag j .disabled = true) : w.flag j .disabled = true := by
  have hnode : (g.enable w set).node j =
      if set j && g.occupied j && !w.flag j .detached then (w.node j).setDisabled false
      else w.node j := rfl
  rw [World.flag, hnode] at h
  split at h
  · simp at h
  · exact h

theorem of_disabled_release (w : World n) {j : Fin n}
    (h : (g.release w j).handle.flags .disabled = true) : w.flag j .disabled = true := by
  rcases release_handle (g := g) w j with heq | heq
  · rwa [heq] at h
  · rw [heq] at h
    simpa [World.flag] using h

theorem relatched_latchDeactivated (h : TaskHandle) (seeded : Bool) {k : Flag}
    (hk : k.hold = false) : (h.latchDeactivated seeded).2.flags k = h.flags k := by
  have hdisabled : k ≠ .disabled := fun h => by simp [h, Flag.hold] at hk
  have hcollateral : k ≠ .collateral := fun h => by simp [h, Flag.hold] at hk
  cases seeded <;> simp [TaskHandle.latchDeactivated, hdisabled, hcollateral]

theorem keeps_latchDeactivated (h : TaskHandle) (seeded : Bool) {k : Flag}
    (hk : h.flags k = true) : (h.latchDeactivated seeded).2.flags k = true := by
  cases seeded <;> simp [TaskHandle.latchDeactivated, hk]

/-- Counting a restart touches the counters only. -/
theorem still_countRestart (w : World n) (j : Fin n) : w.Still (g.countRestart w j).2 := by
  unfold Graph.countRestart
  split
  · exact .refl w
  · simp only
    split
    · dsimp only
      apply World.still_onNode <;> rfl
    · split
      · exact .refl w
      · dsimp only
        apply World.still_onNode <;> rfl

/-! ## Stop selections -/

section StopNodes

variable {w : World n} {select : Fin n → TaskHandle → Bool × TaskHandle} {keepGoing : Bool}

theorem chosen_stopNodes (j : Fin n) :
    (g.stopNodes w select keepGoing).1.chosen j = true ↔
      g.occupied j = true ∧ (select j (w.node j)).1 = true := by
  simp only [Graph.stopNodes, StopWave.launch, selectNodes_apply]
  by_cases hj : g.occupied j = true <;> simp [hj]

theorem node_stopNodes (j : Fin n) :
    (g.stopNodes w select keepGoing).2.node j =
      if g.occupied j then (select j (w.node j)).2 else w.node j := by
  simp only [Graph.stopNodes, selectNodes_apply]
  by_cases hj : g.occupied j = true <;> simp [hj]

theorem flag_stopNodes (j : Fin n) (k : Flag) :
    (g.stopNodes w select keepGoing).2.flag j k =
      if g.occupied j then (select j (w.node j)).2.flags k else w.flag j k := by
  simp only [World.flag, node_stopNodes]
  split <;> rfl

theorem relatched_stopNodes
    (hflag : ∀ j h k, k.hold = false → (select j h).2.flags k = h.flags k)
    (hwake : ∀ j h, (select j h).2.droppedWake = h.droppedWake) :
    w.Relatched (g.stopNodes w select keepGoing).2 := by
  apply relatched_of_node
  · intro j k hk
    rw [selectNodes_apply]
    split
    · exact hflag j _ k hk
    · rfl
  · intro j
    rw [selectNodes_apply]
    split
    · exact hwake j _
    · rfl

end StopNodes

/-- A wave that begins over nodes that run and are not detached. -/
structure StopSelected (g : Graph n) (w : World n) (s : StopWave n) (w' : World n) : Prop where
  launch : s = StopWave.launch g w' s.chosen s.keepGoing
  chosen : ∀ j, s.chosen j = true →
    g.occupied j = true ∧ w.flag j .running = true ∧ w.flag j .detached = false

/-- A wave that begins over nodes that are down, not detached and not collateral. -/
structure StartSelected (g : Graph n) (s : StartWave n) (w : World n) : Prop where
  launch : s = StartWave.launch g w s.pending s.keepGoing
  pending : ∀ j, s.pending j = true → g.occupied j = true ∧ w.flag j .running = false ∧
    w.flag j .detached = false ∧ w.flag j .collateral = false

/-- The marks of a bound stop, on the chosen slots and in the history. -/
structure BoundMarked (g : Graph n) (w : World n) (s : StopWave n) (w' : World n) : Prop where
  flag : ∀ j k, k ≠ .boundStopped → w'.flag j k = w.flag j k
  bound : ∀ j, w'.flag j .boundStopped = (s.chosen j || w.flag j .boundStopped)
  droppedWake : ∀ j, (w'.node j).droppedWake = (w.node j).droppedWake
  inst : w'.inst = w.inst
  now : w'.now = w.now
  log : w'.log =
    (g.order.filter s.chosen).map (fun j => (w.now, .boundStop j)) ++ w.log

/-! ## Resuming what is parked -/

/-- Resuming parked instances writes the stale flags and the running bit. -/
theorem flag_resumeAll {w : World n} (js : List (Fin n)) (i : Fin n) {k : Flag}
    (hstale : k.stale = false) (hrunning : k ≠ .running) :
    (g.resumeAll w js).flag i k = w.flag i k := by
  unfold Graph.resumeAll
  induction js generalizing w with
  | nil => rfl
  | cons j js ih =>
      rw [List.foldl_cons, ih]
      split
      · simp [hstale, hrunning]
      · rfl

/-! ## Verb by verb -/

/-- The outcomes of a front half. -/
inductive Begun (g : Graph n) (w : World n) : Verb n → Call n → World n → Prop
  | idle {v : Verb n} {r : Outcome n} {w' : World n} (hw : w.Relatched w')
      (hhold : ∀ j k, w'.flag j k = w.flag j k) : Begun g w v (.done r) w'
  | startWave {v : Verb n} {s : StartWave n} {poke : Bool} {w' : World n}
      (hw : w.Relatched w') (hsel : StartSelected g s w')
      (hfree : (∀ j, s.pending j = true → w'.flag j .disabled = false) ∨
        ∃ target, v = .activate target)
      (hhold : (w.KeepsHolds w' ∧ ∀ j, w'.flag j .collateral = w.flag j .collateral) ∨
        ∃ target, v = .activate target)
      (hadd : (∀ j, w'.flag j .disabled = true → w.flag j .disabled = true) ∨
        ∃ enabled, v = .start enabled) : Begun g w v (.starting s poke) w'
  | stopWave {v : Verb n} {s : StopWave n} {next : AfterStop n} {w' : World n}
      (hw : w.Relatched w') (hsel : StopSelected g w s w')
      (hnext : next = .ret ∨ ∃ set, next = .restart set)
      (hhold : w.KeepsHolds w')
      (hsame : (∀ j k, w'.flag j k = w.flag j k) ∨ ∃ target, v = .deactivate target) :
      Begun g w v (.stopping s next) w'
  | bindWave {s : StopWave n} {w' : World n} (hsel : StopSelected g w s w')
      (hmark : BoundMarked g w s w') (hchosen : ∀ j, s.chosen j = g.boundStopping w j) :
      Begun g w .applyBind (.stopping s .bind) w'
  | startNode {j : Fin n} {e : StartEnd n} {w' : World n} (h : StartEntry g w j e w') :
      Begun g w (.startNode j) (AfterStart.ret.proceed j e) w'
  | grow {pool : ℕ} {j : Fin n} {e : StartEnd n} {w' : World n}
      (hdown : w.flag j .running = false) (hdisabled : w.flag j .disabled = false)
      (hcollateral : w.flag j .collateral = false) (h : StartEntry g w j e w') :
      Begun g w (.scale pool .grow) (AfterStart.ignore.proceed j e) w'
  | stopNow {v : Verb n} {j : Fin n} (hrun : w.flag j .running = true)
      (hdrop : w.flag j .dropped = true) :
      Begun g w v (.done none) (((w.signalShutdown j).note j .stopRequested).takeAck j)
  | stopWait {v : Verb n} {j : Fin n} {deadline : ℕ} (hrun : w.flag j .running = true)
      (hdrop : w.flag j .dropped = false) :
      Begun g w v (.stopNode j deadline) ((w.signalShutdown j).note j .stopRequested)
  | resumes {v : Verb n} {js : List (Fin n)} (hpause : g.has .pause = true)
      (hjs : ∀ j ∈ js, v = .resumeNode j ∨ v = .resumePausable) :
      Begun g w v (.done none) (g.resumeAll w js)

private theorem begun_idle {w : World n} {v : Verb n} {r : Outcome n} :
    Begun g w v (.done r) w :=
  .idle (World.Still.refl w).relatched fun _ _ => rfl

private theorem begun_stopNode {w : World n} {v : Verb n} {cfg : NodeCfg n} {j : Fin n} :
    Begun g w v
      (match w.stopNode cfg j with
        | (none, w) => (Call.done none, w)
        | (some deadline, w) => (Call.stopNode j deadline, w)).1
      (match w.stopNode cfg j with
        | (none, w) => (Call.done none, w)
        | (some deadline, w) => (Call.stopNode j deadline, w)).2 := by
  unfold World.stopNode
  by_cases hskip : (!w.flag j .running || w.flag j .detached) = true
  · simp only [if_pos hskip]
    exact begun_idle
  · have hrun : w.flag j .running = true := by
      simp only [Bool.or_eq_true, Bool.not_eq_true', not_or] at hskip
      simpa using hskip.1
    simp only [if_neg hskip]
    by_cases hdrop : w.flag j .dropped = true
    · have hdrop' : ((w.signalShutdown j).note j .stopRequested).flag j .dropped = true := by
        simpa using hdrop
      simp only [if_pos hdrop']
      exact .stopNow hrun hdrop
    · have hdrop' : ¬ ((w.signalShutdown j).note j .stopRequested).flag j .dropped = true := by
        simpa using hdrop
      simp only [if_neg hdrop']
      exact .stopWait hrun (by simpa using hdrop)

/-- A selection that latches nothing, after a change of counters at most. -/
private theorem begun_stopPlain {w u : World n} {v : Verb n} {next : AfterStop n}
    {p : Fin n → TaskHandle → Bool} {keepGoing : Bool} (hu : w.Still u)
    (hp : ∀ j h, p j h = true → h.isStoppable = true)
    (hnext : next = .ret ∨ ∃ set, next = .restart set) :
    Begun g w v (.stopping (g.stopNodes u (fun j h => (p j h, h)) keepGoing).1 next)
      (g.stopNodes u (fun j h => (p j h, h)) keepGoing).2 := by
  refine .stopWave (hu.relatched.trans (relatched_stopNodes (fun _ _ _ _ => rfl) fun _ _ => rfl))
    ⟨rfl, fun j hj => ?_⟩ hnext (fun j k _ hold => ?_) (Or.inl fun j k => ?_)
  · obtain ⟨hocc, hpick⟩ := (chosen_stopNodes j).mp hj
    have hstop := hp j _ hpick
    simp only [TaskHandle.isStoppable, Bool.and_eq_true, Bool.not_eq_true'] at hstop
    exact ⟨hocc, (hu.flag j .running).symm.trans hstop.1,
      (hu.flag j .detached).symm.trans hstop.2⟩
  · rw [flag_stopNodes]
    split <;> exact (hu.flag j k).trans hold
  · rw [flag_stopNodes]
    split <;> exact hu.flag j k

/-- A start selection that leaves the flags alone before it. -/
private theorem begun_startPlain {w w' : World n} {v : Verb n} {poke keepGoing : Bool}
    {p : Fin n → NodeCfg n → TaskHandle → Bool} (hw : w.Relatched w')
    (hp : ∀ j cfg h, p j cfg h = true → h.flags .running = false ∧
      h.flags .detached = false ∧ h.flags .collateral = false)
    (hfree : (∀ j cfg h, p j cfg h = true → h.flags .disabled = false) ∨
      ∃ target, v = .activate target)
    (hhold : (w.KeepsHolds w' ∧ ∀ j, w'.flag j .collateral = w.flag j .collateral) ∨
      ∃ target, v = .activate target)
    (hadd : (∀ j, w'.flag j .disabled = true → w.flag j .disabled = true) ∨
      ∃ enabled, v = .start enabled) :
    Begun g w v (.starting (g.startNodes w' p keepGoing) poke) w' := by
  have hpick : ∀ j, (g.startNodes w' p keepGoing).pending j = true →
      ∃ cfg, g.nodes j = some cfg ∧ p j cfg (w'.node j) = true := by
    intro j hj
    simpa [Graph.startNodes, StartWave.launch, Option.any_eq_true] using hj
  refine .startWave hw ⟨rfl, fun j hj => ?_⟩ (hfree.imp_left fun h j hj => ?_) hhold hadd
  · obtain ⟨cfg, hcfg, hpick⟩ := hpick j hj
    exact ⟨Graph.occupied_iff g |>.mpr ⟨cfg, hcfg⟩, hp j cfg _ hpick⟩
  · obtain ⟨cfg, _, hpick⟩ := hpick j hj
    exact h j cfg _ hpick

private theorem begun_deactivate {w : World n} {target : Fin n} {set seed : Fin n → Bool} :
    Begun g w (.deactivate target)
      (.stopping (g.stopNodes w (fun j h => if !set j || h.flags .detached then (false, h)
        else h.latchDeactivated (seed j)) false).1 .ret)
      (g.stopNodes w (fun j h => if !set j || h.flags .detached then (false, h)
        else h.latchDeactivated (seed j)) false).2 := by
  refine .stopWave (relatched_stopNodes ?_ ?_) ⟨rfl, ?_⟩ (Or.inl rfl) ?_
    (Or.inr ⟨target, rfl⟩)
  · intro j h k hk
    split
    · rfl
    · exact relatched_latchDeactivated h _ hk
  · intro j h
    split
    · rfl
    · cases seed j <;> rfl
  · intro j hj
    obtain ⟨hocc, hpick⟩ := (chosen_stopNodes j).mp hj
    by_cases hskip : (!set j || (w.node j).flags .detached) = true
    · simp [hskip] at hpick
    · simp only [if_neg hskip] at hpick
      have hrun : w.flag j .running = true := by
        cases hseed : seed j <;>
          simpa [TaskHandle.latchDeactivated, hseed, World.flag] using hpick
      refine ⟨hocc, hrun, ?_⟩
      simp only [Bool.or_eq_true, not_or] at hskip
      simpa [World.flag] using hskip.2
  · intro j k _ hold
    rw [flag_stopNodes]
    split
    · split
      · exact hold
      · exact keeps_latchDeactivated _ _ hold
    · exact hold

theorem log_recordBoundStops (w : World n) (chosen : Fin n → Bool) (js : List (Fin n)) :
    (w.recordBoundStops chosen js.reverse).log =
      (js.filter chosen).map (fun j => (w.now, .boundStop j)) ++ w.log := by
  have fold : ∀ (js : List (Fin n)) (u : World n),
      (js.foldl (fun u j => u.record (.boundStop j)) u).log =
        js.reverse.map (fun j => (u.now, .boundStop j)) ++ u.log := by
    intro js
    induction js with
    | nil => intro u; rfl
    | cons j js ih =>
        intro u
        rw [List.foldl_cons, ih]
        simp
  unfold World.recordBoundStops
  rw [fold, List.filter_reverse, List.reverse_reverse]

/-- Recording bound stops leaves everything but the history alone. -/
theorem recordBoundStops_frame (w : World n) (chosen : Fin n → Bool) (js : List (Fin n)) :
    (w.recordBoundStops chosen js).node = w.node ∧
      (w.recordBoundStops chosen js).inst = w.inst ∧
      (w.recordBoundStops chosen js).now = w.now := by
  unfold World.recordBoundStops
  generalize js.filter chosen = js
  induction js generalizing w with
  | nil => exact ⟨rfl, rfl, rfl⟩
  | cons j js ih => exact ih (w.record (.boundStop j))

/-- The visit of a slot that may not stop leaves it unmarked; any other slot runs
and is not detached. -/
private theorem of_boundVisit {w : World n} {j : Fin n} {stopping : Fin n → Bool}
    (hj : g.boundVisit w j stopping = true) : stopping j = true ∨
      (g.occupied j = true ∧ w.flag j .running = true ∧ w.flag j .detached = false) := by
  unfold Graph.boundVisit at hj
  cases hcfg : g.nodes j with
  | none =>
      simp only [hcfg] at hj
      exact Or.inl hj
  | some cfg =>
      by_cases hskip : (w.flag j .detached || !w.flag j .running) = true
      · simp only [hcfg, if_pos hskip] at hj
        exact Or.inl hj
      · simp only [Bool.or_eq_true, Bool.not_eq_true', not_or, Bool.not_eq_true,
          Bool.not_eq_false] at hskip
        exact Or.inr ⟨(Graph.occupied_iff g).mpr ⟨cfg, hcfg⟩, hskip.2, hskip.1⟩

/-- The cascade marks running nodes that are not detached. -/
theorem of_boundStopping {w : World n} {j : Fin n} (hj : g.boundStopping w j = true) :
    g.occupied j = true ∧ w.flag j .running = true ∧ w.flag j .detached = false := by
  have marked : ∀ (order : List (Fin n)) (s : Fin n → Bool),
      (∀ j, s j = true → g.occupied j = true ∧ w.flag j .running = true ∧
        w.flag j .detached = false) →
      ∀ j, DependencyOrder.sweep (g.boundVisit w) order s j = true →
        g.occupied j = true ∧ w.flag j .running = true ∧ w.flag j .detached = false := by
    intro order
    induction order with
    | nil =>
        intro s hs j hj
        exact hs j hj
    | cons i order ih =>
        intro s hs
        apply ih
        intro j hj
        by_cases hij : j = i
        · subst hij
          rw [Function.update_self] at hj
          exact (of_boundVisit hj).elim (hs j) id
        · rw [Function.update_of_ne hij] at hj
          exact hs j hj
  exact marked g.order (fun _ => false) (by simp) j hj

/-- `apply_bind` begins with a wave over the cascade, marked; on a graph without
bound dependencies it returns at once. -/
theorem begin_applyBind (w : World n) :
    (g.has .boundDeps = true ∧ ∃ s w', g.begin w .applyBind = (.stopping s .bind, w') ∧
      StopSelected g w s w' ∧ BoundMarked g w s w' ∧
      ∀ j, s.chosen j = g.boundStopping w j) ∨
    (g.has .boundDeps = false ∧ g.begin w .applyBind = (.done none, w)) := by
  by_cases hhas : g.has .boundDeps = true
  case neg => exact Or.inr ⟨by simpa using hhas, by simp [Graph.begin, hhas]⟩
  refine Or.inl ⟨hhas, ?_⟩
  let picked := g.stopNodes w (fun j h =>
    if g.boundStopping w j then (true, h.flagPut .boundStopped true) else (false, h)) false
  obtain ⟨hnode, hinst, hnow⟩ :=
    recordBoundStops_frame picked.2 picked.1.chosen g.order.reverse
  have hflag : ∀ j k, (picked.2.recordBoundStops picked.1.chosen g.order.reverse).flag j k =
      picked.2.flag j k := by
    intro j k
    simp only [World.flag, hnode]
  have hchosen : ∀ j, picked.1.chosen j = g.boundStopping w j := by
    intro j
    rw [Bool.eq_iff_iff, chosen_stopNodes]
    by_cases hj : g.boundStopping w j = true
    · simp [hj, (of_boundStopping hj).1]
    · simp [hj]
  refine ⟨picked.1, picked.2.recordBoundStops picked.1.chosen g.order.reverse,
    if_pos hhas, ⟨?_, fun j hj => of_boundStopping (hchosen j ▸ hj)⟩,
    ⟨fun j k hk => ?_, fun j => ?_, fun j => ?_, hinst, hnow, ?_⟩, hchosen⟩
  · rw [StopWave.launch, hnow]
    rfl
  · rw [hflag, flag_stopNodes]
    split
    · split
      · simp [hk, World.flag]
      · rfl
    · rfl
  · rw [hflag, flag_stopNodes, hchosen]
    by_cases hj : g.boundStopping w j = true
    · simp [hj, (of_boundStopping hj).1]
    · simp only [hj, Bool.false_or]
      split <;> rfl
  · rw [hnode, node_stopNodes]
    split
    · split <;> rfl
    · rfl
  · exact log_recordBoundStops picked.2 picked.1.chosen g.order

/-- **What a front half does, verb by verb.** -/
theorem begin_cases (g : Graph n) (w : World n) (v : Verb n) :
    Begun g w v (g.begin w v).1 (g.begin w v).2 := by
  cases v with
  | start enabled =>
      refine begun_startPlain (relatched_disableBy w enabled) (fun j cfg h hp => ?_)
        (Or.inl fun j cfg h hp => ?_) (Or.inl ⟨fun j k _ hold => ?_, fun j => ?_⟩)
        (Or.inr ⟨enabled, rfl⟩)
      · simp only [Bool.and_eq_true, Bool.not_eq_true'] at hp
        exact ⟨hp.1.2, hp.2, hp.1.1.2⟩
      · simp only [Bool.and_eq_true, Bool.not_eq_true'] at hp
        exact hp.1.1.1.2
      · rcases flag_disableBy (g := g) w enabled j k with hsame | ⟨_, hset⟩
        · rw [hsame, hold]
        · exact hset
      · exact (flag_disableBy w enabled j .collateral).resolve_right (by simp)
  | startNode j => exact .startNode (startNode_cases g w j)
  | stopNode j =>
      simp only [Graph.begin]
      cases hcfg : g.nodes j with
      | none => exact begun_idle
      | some cfg => exact begun_stopNode
  | teardown => exact begun_stopPlain (.refl w) (fun _ _ h => h) (Or.inl rfl)
  | teardownContinue => exact begun_stopPlain (.refl w) (fun _ _ h => h) (Or.inl rfl)
  | resumeNode j =>
      simp only [Graph.begin]
      split
      case isTrue hguard =>
        obtain ⟨hpause, hpick⟩ := Bool.and_eq_true_iff.mp hguard
        have hone : w.resume j = g.resumeAll w [j] := by
          simp [Graph.resumeAll, hpick]
        rw [hone]
        exact .resumes hpause fun i hi => Or.inl (by rw [List.mem_singleton.mp hi])
      case isFalse => exact begun_idle
  | resumePausable =>
      simp only [Graph.begin]
      split
      case isTrue hpause => exact .resumes hpause fun _ _ => Or.inr rfl
      case isFalse => exact begun_idle
  | respawnTerminate =>
      refine begun_startPlain (World.Still.refl w).relatched (fun j cfg h hp => ?_)
        (Or.inl fun j cfg h hp => ?_) (Or.inl ⟨fun _ _ _ hold => hold, fun _ => rfl⟩)
        (Or.inl fun _ hold => hold)
      · simp only [Bool.and_eq_true, Bool.not_eq_true'] at hp
        exact ⟨hp.2, hp.1.2, hp.1.1.2⟩
      · simp only [Bool.and_eq_true, Bool.not_eq_true'] at hp
        exact hp.1.1.1.2
  | deactivate target => exact begun_deactivate
  | activate target =>
      refine begun_startPlain ((relatched_enable w _).trans (relatched_release _))
        (fun j cfg h hp => ?_) (Or.inr ⟨target, rfl⟩) (Or.inr ⟨target, rfl⟩)
        (Or.inl fun j hold => ?_)
      · simp only [Bool.and_eq_true, Bool.not_eq_true'] at hp
        exact ⟨hp.1.1.2, hp.1.1.1.2, hp.1.2⟩
      · exact of_disabled_enable _ _ (of_disabled_release _ hold)
  | restart target =>
      simp only [Graph.begin]
      have hcount := still_countRestart (g := g) w target
      cases hcase : g.countRestart w target with
      | mk counted u =>
          rw [hcase] at hcount
          cases counted with
          | false => exact .idle hcount.relatched hcount.flag
          | true =>
              refine begun_stopPlain hcount (fun j h hp => ?_) (Or.inr ⟨_, rfl⟩)
              exact (Bool.and_eq_true_iff.mp hp).2
  | applyBind =>
      rcases begin_applyBind (g := g) w with ⟨_, s, w', hbegin, hsel, hmark, hchosen⟩ |
        ⟨_, hbegin⟩
      · rw [hbegin]
        exact .bindWave hsel hmark hchosen
      · rw [hbegin]
        exact begun_idle
  | scale pool action =>
      simp only [Graph.begin]
      cases g.pools[pool]? with
      | none => exact begun_idle
      | some members =>
          cases action with
          | none => exact begun_idle
          | grow =>
              simp only
              cases hpick : g.poolMember members fun j =>
                  !w.flag j .running && !w.flag j .disabled && !w.flag j .collateral with
              | none => exact begun_idle
              | some j =>
                  have hj := List.find?_some hpick
                  simp only [Bool.and_eq_true, Bool.not_eq_true'] at hj
                  simp only
                  split
                  · exact .grow hj.2.1.1 hj.2.1.2 hj.2.2 (startNode_cases g w j)
                  · exact begun_idle
          | shrink =>
              simp only
              cases g.poolMember members fun j => w.flag j .running && !w.flag j .busy with
              | none => exact begun_idle
              | some j =>
                  simp only
                  cases hcfg : g.nodes j with
                  | none => exact begun_idle
                  | some cfg => exact begun_stopNode

end EmbassySupervisor
