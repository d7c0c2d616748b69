/-
# What `apply_bind` stops and brings back

The stop phase of `apply_bind` computes its set in one pass along the order, with
the half-built set read back on the way. Where bound dependencies are
dependencies of the table, that pass is the least solution of the cascade: the
running nodes one of whose bound providers does not serve or stops with them.
After a stop phase that nothing else disturbed, nobody runs on a provider that
does not serve.

The second phase turns to one slot after the other; whatever it brings up was,
when it turned to it, down on account of a provider, not held, and served again.
-/

import EmbassySupervisor.Verb.Begin
import EmbassySupervisor.Wave.StartOrder
import EmbassySupervisor.Wave.StopOrder

namespace EmbassySupervisor

open DependencyOrder LabelledRun

variable {n : ℕ} {g : Graph n}

/-! ## The cascade is a least set -/

/-- The bound dependencies of a slot. -/
def Graph.boundDepsOf (g : Graph n) (j : Fin n) : List (Fin n) :=
  match g.nodes j with
  | none => []
  | some cfg => cfg.boundDeps

/-- Running and not detached: what `apply_bind` may stop. -/
def World.Stoppable (w : World n) (j : Fin n) : Prop :=
  w.flag j .running = true ∧ w.flag j .detached = false

theorem boundDepsOf_subset_deps (hbound : g.BoundDepsAreDeps) {j d : Fin n}
    (hd : d ∈ g.boundDepsOf j) : d ∈ g.deps j := by
  unfold Graph.boundDepsOf at hd
  cases hcfg : g.nodes j with
  | none => simp [hcfg] at hd
  | some cfg =>
      simp only [hcfg] at hd
      exact hbound j cfg hcfg d hd

/-- One visit of the cascade, in terms of the marks of the bound dependencies. -/
private theorem boundVisit_iff (w : World n) (j : Fin n) (s : Fin n → Bool)
    (hs : ∀ d, s d = true → g.occupied d = true) (hj : s j = false) :
    g.boundVisit w j s = true ↔ w.Stoppable j ∧
      ∃ d ∈ g.boundDepsOf j, w.isServing d = false ∨ s d = true := by
  unfold Graph.boundVisit Graph.boundDepsOf
  cases hcfg : g.nodes j with
  | none => simp [hj]
  | some cfg =>
      by_cases hskip : (w.flag j .detached || !w.flag j .running) = true
      · have hnot : ¬ w.Stoppable j := by
          rintro ⟨hrun, hloose⟩
          simp [hrun, hloose] at hskip
        simp [hskip, hnot, hj]
      · have hstop : w.Stoppable j := by
          simp only [Bool.or_eq_true, Bool.not_eq_true', not_or, Bool.not_eq_true,
            Bool.not_eq_false] at hskip
          exact ⟨hskip.2, hskip.1⟩
        simp only
        rw [if_neg hskip]
        simp only [hstop, true_and, List.any_eq_true, Bool.or_eq_true, Bool.not_eq_true',
          Bool.and_eq_true, beq_iff_eq, List.mem_finRange, exists_eq_right]
        refine exists_congr fun d => and_congr_right fun _ => or_congr_right ?_
        exact ⟨fun h => h.1, fun h => ⟨h, hs d h⟩⟩

/-- The cascade solves its equation. -/
theorem boundStopping_iff (hbound : g.BoundDepsAreDeps) (w : World n) (j : Fin n) :
    g.boundStopping w j = true ↔ w.Stoppable j ∧
      ∃ d ∈ g.boundDepsOf j, w.isServing d = false ∨ g.boundStopping w d = true := by
  have hself : g.boundStopping w j =
      g.boundVisit w j (Function.update (g.boundStopping w) j false) := by
    apply sweep_apply g.topological
    intro j s t hdeps hj
    unfold Graph.boundVisit
    cases hcfg : g.nodes j with
    | none => exact hj
    | some cfg =>
        simp only
        split
        · exact hj
        · rw [Bool.eq_iff_iff]
          simp only [List.any_eq_true, Bool.or_eq_true, Bool.and_eq_true, beq_iff_eq]
          refine exists_congr fun d => and_congr_right fun hd => or_congr_right ?_
          refine exists_congr fun k => and_congr_right fun _ => and_congr_left fun hkd => ?_
          rw [hkd, hdeps d (hbound j cfg hcfg d hd)]
  rw [hself, boundVisit_iff]
  · refine and_congr_right fun _ => exists_congr fun d => and_congr_right fun hd => ?_
    have hne : d ≠ j := by
      rintro rfl
      exact g.topological.irrefl d (boundDepsOf_subset_deps hbound hd)
    rw [Function.update_of_ne hne]
  · intro d hd
    by_cases hdj : d = j
    · simp [hdj] at hd
    · rw [Function.update_of_ne hdj] at hd
      exact (of_boundStopping hd).1
  · exact Function.update_self _ _ _

/-- The rule of the cascade: a running node that is not detached stops with a bound
provider that does not serve or stops. -/
def World.Cascade (g : Graph n) (w : World n) (T : Set (Fin n)) : Prop :=
  ∀ j, w.Stoppable j → (∃ d ∈ g.boundDepsOf j, w.isServing d = false ∨ d ∈ T) → j ∈ T

theorem isLeast_boundStopping (hbound : g.BoundDepsAreDeps) (w : World n) :
    IsLeast {T | w.Cascade g T} {j | g.boundStopping w j = true} :=
  isLeast_of_equation g.wellFounded_deps (fun _ _ => boundDepsOf_subset_deps hbound)
    (boundStopping_iff hbound w)

/-! ## The stop phase -/

/-- The wave the call is in has signalled the slot. -/
def Call.signaled : Call n → Fin n → Bool
  | .stopping wave _, j => wave.signaled j != unsignaled
  | .starting _ _, _ | .startNode _ _ _, _ | .stopNode _ _, _ | .bindUp _, _ | .done _, _
  | .panic, _ | .cancelled, _ => false

/-- No readiness changes, nobody detaches or exits, and only slots the call has
signalled acknowledge. -/
def Calm : Call n × World n → Move n → Prop
  | _, .own => True
  | (c, _), .event (.ackDropped j) => c.signaled j = true
  | _, .event (.setReady _) | _, .event (.clearReady _) | _, .event (.markExited _)
  | _, .event (.setDetached _ _) => False
  | _, .event _ => True

/-- The stop phase has ended without a fault: its wave has, or the graph has no
bound dependencies and there is none. -/
def StopPhaseOk (g : Graph n) : Call n → Prop
  | .stopping wave .bind => wave.pc = .done none
  | .done none => g.has .boundDeps = false
  | .stopping _ _ | .starting _ _ | .startNode _ _ _ | .stopNode _ _ | .bindUp _
  | .done _ | .panic | .cancelled => False

/-- What a calm event leaves of the flags the cascade reads. -/
theorem flag_of_calm {c : Call n} {w w' : World n} {e : TaskEvent n}
    (hcalm : Calm (c, w) (.event e)) (h : e.apply g w = some w') (j : Fin n) :
    w'.flag j .ready = w.flag j .ready ∧ w'.flag j .detached = w.flag j .detached ∧
      (w'.flag j .running = w.flag j .running ∨ c.signaled j = true) := by
  have kept := fun k (hk : e.writes j k = false) => TaskEvent.flag_eq_of_not_writes h hk
  cases e with
  | ackDropped i =>
      refine ⟨kept _ (by simp [TaskEvent.writes]), kept _ (by simp [TaskEvent.writes]), ?_⟩
      by_cases hij : j = i
      · exact Or.inr (hij ▸ hcalm)
      · exact Or.inl (kept _ (by simp [TaskEvent.writes, hij]))
  | setReady | clearReady | markExited | setDetached => exact hcalm.elim
  | elapse | appSpawn | park | markBusy | markIdle | pollShutdown | takeResume | provide | take
  | clear | fillSlot | fencePass | setRefused =>
      exact ⟨kept _ (by simp [TaskEvent.writes]), kept _ (by simp [TaskEvent.writes]),
        Or.inl (kept _ (by simp [TaskEvent.writes]))⟩

/-- The flags the cascade reads, as they were when it was computed, but for the
slots it stops. -/
structure Undisturbed (g : Graph n) (w₀ w : World n) : Prop where
  ready : ∀ j, w.flag j .ready = w₀.flag j .ready
  detached : ∀ j, w.flag j .detached = w₀.flag j .detached
  running : ∀ j, w.flag j .running = w₀.flag j .running ∨
    (w.flag j .running = false ∧ g.boundStopping w₀ j = true)

/-- The stop phase of `apply_bind` as calm moves find it, and what comes after. -/
inductive BindStops (g : Graph n) (w₀ : World n) : Call n → World n → Prop
  | wave {s : StopWave n} {w : World n} (hhas : g.has .boundDeps = true)
      (hchosen : ∀ j, s.chosen j = g.boundStopping w₀ j)
      (hsignaled : ∀ j, s.signaled j ≠ unsignaled → s.chosen j = true)
      (hsettled : StopWave.Settled s w) (hkept : Undisturbed g w₀ w) :
      BindStops g w₀ (.stopping s .bind) w
  | none {w : World n} (hhas : g.has .boundDeps = false) (hkept : Undisturbed g w₀ w) :
      BindStops g w₀ (.done none) w
  | past {c : Call n} {w : World n} (hhas : g.has .boundDeps = true)
      (hc : ∀ s next, c ≠ .stopping s next) : BindStops g w₀ c w

theorem Undisturbed.refl (w : World n) : Undisturbed g w w :=
  ⟨fun _ => rfl, fun _ => rfl, fun _ => Or.inl rfl⟩

/-- One more step that takes down nothing but slots of the cascade. -/
theorem Undisturbed.next {w₀ w w' : World n} (hs : Undisturbed g w₀ w)
    (hready : ∀ j, w'.flag j .ready = w.flag j .ready)
    (hdetached : ∀ j, w'.flag j .detached = w.flag j .detached)
    (hrunning : ∀ j, w'.flag j .running = w.flag j .running ∨
      (w'.flag j .running = false ∧ g.boundStopping w₀ j = true)) : Undisturbed g w₀ w' := by
  refine ⟨fun j => (hready j).trans (hs.ready j),
    fun j => (hdetached j).trans (hs.detached j), fun j => ?_⟩
  cases hrunning j with
  | inl hsame =>
      rw [hsame]
      exact hs.running j
  | inr hdown => exact Or.inr hdown

/-- A call that is past its stop phase does not come back to it. -/
theorem Call.Step.ne_stopping {w w' : World n} {c c' : Call n} (h : Call.Step g w c c' w')
    (hc : ∀ s next, c ≠ .stopping s next) (s : StopWave n) (next : AfterStop n) :
    c' ≠ .stopping s next := by
  have proceed : ∀ (after : AfterStart n) (j : Fin n) (e : StartEnd n),
      after.proceed j e ≠ .stopping s next := by
    intro after j e
    cases e with
    | wait => simp [AfterStart.proceed]
    | done r => cases after <;> simp [AfterStart.proceed, AfterStart.resume]
  cases h with
  | stopWave | stopFault | stopDone | restartUp | bindPhase | stopPanic => exact absurd rfl (hc _ _)
  | startNode | bindStart => exact proceed _ _ _
  | startWave | startPanic | startDone | ackNode | missNode | bindEnd | bindSkip | bindResume
  | bindUnmark => simp

theorem BindStops.step {w₀ w w' : World n} {c c' : Call n} (hs : BindStops g w₀ c w)
    (h : c.step g w = some (c', w')) : BindStops g w₀ c' w' := by
  have hstep := Call.step_cases h
  cases hs with
  | none => simp [Call.step] at h
  | past hhas hc => exact .past hhas (hstep.ne_stopping hc)
  | @wave s _ hhas hchosen hsignaled hsettled hkept =>
      cases hstep with
      | stopWave h =>
          refine .wave hhas (fun j => ?_) (fun j hj => ?_) (hsettled.step h) ?_
          · rw [h.static.1, hchosen]
          · rw [h.static.1]
            exact (h.signaled_cases hj).elim (hsignaled j) id
          · apply hkept.next
            · exact fun j => h.flag_eq j (by decide) (by decide)
            · exact fun j => h.flag_eq j (by decide) (by decide)
            · intro j
              rw [← hchosen]
              exact h.running_eq_or j
      | stopFault | stopPanic | bindPhase => exact .past hhas (by simp)

theorem BindStops.event {w₀ w w' : World n} {c : Call n} {e : TaskEvent n}
    (hs : BindStops g w₀ c w) (hcalm : Calm (c, w) (.event e))
    (h : e.apply g w = some w') : BindStops g w₀ c w' := by
  have hflag := flag_of_calm hcalm h
  have heffect := TaskEvent.apply_cases h
  -- Only a slot the call has signalled may have gone down.
  have hnext : ∀ {w₁ : World n}, Undisturbed g w₁ w →
      (∀ j, c.signaled j = true → g.boundStopping w₁ j = true) → Undisturbed g w₁ w' := by
    intro w₁ hkept hsignaled
    apply hkept.next
    · exact fun j => (hflag j).1
    · exact fun j => (hflag j).2.1
    · intro j
      cases (hflag j).2.2 with
      | inl hsame => exact Or.inl hsame
      | inr hj =>
          cases hrun : w'.flag j .running with
          | false => exact Or.inr ⟨rfl, hsignaled j hj⟩
          | true => exact Or.inl (heffect.running_of_running hrun).symm
  cases hs with
  | wave hhas hchosen hsignaled hsettled hkept =>
      refine .wave hhas hchosen hsignaled (hsettled.event heffect) (hnext hkept fun j hj => ?_)
      rw [← hchosen]
      exact hsignaled j (by simpa [Call.signaled] using hj)
  | none hhas hkept => exact .none hhas (hnext hkept fun j hj => by simp [Call.signaled] at hj)
  | past hhas hc => exact .past hhas hc

/-! ## The second phase -/

/-- The node is down on account of a provider, not held, and its bound providers
serve again. -/
structure World.ServedAgain (w : World n) (cfg : NodeCfg n) (j : Fin n) : Prop where
  marked : w.flag j .boundStopped = true
  enabled : w.flag j .disabled = false
  free : w.flag j .collateral = false
  loose : w.flag j .detached = false
  down : w.flag j .running = false
  serving : ∀ d ∈ cfg.boundDeps, w.flag d .running = true ∧ w.flag d .ready = true

theorem servedAgain_of_bindable {w : World n} {cfg : NodeCfg n} {j : Fin n}
    (h : w.bindable cfg j = true) : w.ServedAgain cfg j := by
  obtain ⟨hmarked, henabled, hfree, hloose, hdown, hserving⟩ := World.bindable_iff.mp h
  exact ⟨hmarked, henabled, hfree, hloose, hdown,
    fun d hd => Bool.and_eq_true_iff.mp (hserving d hd)⟩

/-- The call turned to slot `j` at some moment of the run, and found it served
again. -/
def TurnedTo (g : Graph n) (x : Call n × World n) (moves : List (Move n)) (j : Fin n) : Prop :=
  ∃ front back todo u cfg, moves = front ++ back ∧
    exec (soloCall g) x front = some (.bindUp (j :: todo), u) ∧
    g.nodes j = some cfg ∧ cfg.mode ≠ .onDemand ∧ u.ServedAgain cfg j

theorem TurnedTo.snoc {x : Call n × World n} {moves : List (Move n)} {j : Fin n}
    (h : TurnedTo g x moves j) (l : Move n) : TurnedTo g x (moves ++ [l]) j := by
  obtain ⟨front, back, todo, u, cfg, hcut, hrest⟩ := h
  exact ⟨front, back ++ [l], todo, u, cfg, by simp [hcut], hrest⟩

/-- The states of a call of `apply_bind`, with what its second phase is at. -/
inductive BindState (g : Graph n) (x : Call n × World n) (moves : List (Move n)) :
    Call n → Prop
  | stopping {s : StopWave n} : BindState g x moves (.stopping s .bind)
  | bindUp {todo : List (Fin n)} : BindState g x moves (.bindUp todo)
  | startNode {j : Fin n} {phase : StartPhase n} {todo : List (Fin n)}
      (h : TurnedTo g x moves j) : BindState g x moves (.startNode j phase (.bind todo))
  | done {r : Outcome n} : BindState g x moves (.done r)
  | panic : BindState g x moves .panic

theorem BindState.snoc {x : Call n × World n} {moves : List (Move n)} {c : Call n}
    (h : BindState g x moves c) (l : Move n) : BindState g x (moves ++ [l]) c := by
  cases h with
  | startNode h => exact .startNode (h.snoc l)
  | stopping => exact .stopping
  | bindUp => exact .bindUp
  | done => exact .done
  | panic => exact .panic

/-- A slot the second phase brings up is one it has turned to. -/
theorem BindState.step {x : Call n × World n} {moves : List (Move n)} {c c' : Call n}
    {w w' : World n} (hs : BindState g x moves c)
    (hrun : exec (soloCall g) x moves = some (c, w)) (h : Call.Step g w c c' w') :
    BindState g x moves c' ∧
      ∀ j, bringUps w.log j < bringUps w'.log j → TurnedTo g x moves j := by
  have proceed : ∀ (todo : List (Fin n)) (j : Fin n) (e : StartEnd n), TurnedTo g x moves j →
      BindState g x moves ((AfterStart.bind todo).proceed j e) := by
    intro todo j e hj
    cases e with
    | wait phase => exact .startNode hj
    | done r => exact .bindUp
  have about : ∀ {j : Fin n}, TurnedTo g x moves j →
      (∃ new, w'.log = new ++ w.log ∧ ∀ r ∈ new, r.2.node = j) →
      ∀ i, bringUps w.log i < bringUps w'.log i → TurnedTo g x moves i := by
    intro j hj hlog i hi
    obtain ⟨new, hnew, hnode⟩ := hlog
    by_cases hij : i = j
    · exact hij ▸ hj
    · rw [hnew, bringUps_append_of_node fun r hr heq => hij (heq.symm.trans (hnode r hr))] at hi
      exact absurd hi (lt_irrefl _)
  have same : w'.log = w.log → ∀ i, bringUps w.log i < bringUps w'.log i →
      TurnedTo g x moves i := by
    intro hlog i hi
    rw [hlog] at hi
    exact absurd hi (lt_irrefl _)
  cases hs with
  | stopping =>
      cases h with
      | stopWave h =>
          obtain ⟨new, hnew, hdecisive⟩ := h.log_eq
          refine ⟨.stopping, fun i hi => ?_⟩
          rw [hnew, bringUps_append_of_not_decisive hdecisive] at hi
          exact absurd hi (lt_irrefl _)
      | stopFault => exact ⟨.done, same rfl⟩
      | stopPanic => exact ⟨.panic, same rfl⟩
      | bindPhase => exact ⟨.bindUp, same rfl⟩
  | bindUp =>
      cases h with
      | bindEnd => exact ⟨.done, same rfl⟩
      | bindSkip => exact ⟨.bindUp, same rfl⟩
      | @bindStart j todo cfg e _ hcfg hbind hmode h =>
          have hj : TurnedTo g x moves j :=
            ⟨moves, [], todo, w, cfg, by simp, hrun, hcfg, by simp [hmode],
              servedAgain_of_bindable hbind⟩
          exact ⟨proceed todo j e hj, about hj h.log_eq⟩
      | @bindResume j todo cfg hcfg hbind hmode =>
          have hj : TurnedTo g x moves j :=
            ⟨moves, [], todo, w, cfg, by simp, hrun, hcfg, by simp [hmode],
              servedAgain_of_bindable hbind⟩
          exact ⟨.bindUp, about hj ⟨[(w.now, .note j .resumed)], by simp, by simp [Record.node]⟩⟩
      | bindUnmark _ _ _ hw => exact ⟨.bindUp, same hw.log⟩
  | startNode hj =>
      cases h with
      | startNode _ h => exact ⟨proceed _ _ _ hj, about hj h.log_eq⟩
  | done | panic => cases h

/-- Every state of a call of `apply_bind` among the tasks. -/
theorem bindState_of_exec {w₀ w : World n} {c : Call n} {moves : List (Move n)}
    (hrun : exec (soloCall g) (g.begin w₀ .applyBind) moves = some (c, w)) :
    BindState g (g.begin w₀ .applyBind) moves c := by
  refine exec_invariant_history (I := fun moves x => BindState g _ moves x.1) ?_ ?_ hrun
  · rcases begin_applyBind (g := g) w₀ with ⟨_, s, w', hbegin, _⟩ | ⟨_, hbegin⟩
    · rw [hbegin]
      exact .stopping
    · rw [hbegin]
      exact .done
  · rintro front ⟨c, w⟩ l ⟨c', w'⟩ hfront hs hstep
    apply BindState.snoc
    cases l with
    | own => exact (hs.step hfront (Call.step_cases hstep)).1
    | event e =>
        obtain ⟨u, _, heq⟩ := Option.map_eq_some_iff.mp hstep
        cases heq
        exact hs

theorem bindStops_of_exec {w₀ w : World n} {c : Call n} {moves : List (Move n)}
    (hrun : exec (soloCall g) (g.begin w₀ .applyBind) moves = some (c, w))
    (hcalm : Along (soloCall g) Calm (g.begin w₀ .applyBind) moves) :
    BindStops g w₀ c w := by
  have hstart : BindStops g w₀ (g.begin w₀ .applyBind).1 (g.begin w₀ .applyBind).2 := by
    rcases begin_applyBind (g := g) w₀ with ⟨hhas, s, w', hbegin, hsel, hmark, hchosen⟩ |
        ⟨hhas, hbegin⟩
    · rw [hbegin]
      have hlaunch := hsel.launch
      refine .wave hhas hchosen (fun j hj => ?_) ?_ ⟨fun j => ?_, fun j => ?_, fun j => ?_⟩
      · rw [hlaunch] at hj
        exact absurd rfl hj
      · rw [hlaunch]
        exact StopWave.settled_launch _ _ _
      · exact hmark.flag j _ (by decide)
      · exact hmark.flag j _ (by decide)
      · exact Or.inl (hmark.flag j _ (by decide))
    · rw [hbegin]
      exact .none hhas (.refl w₀)
  refine exec_invariant_along (I := fun x : Call n × World n => BindStops g w₀ x.1 x.2)
    ?_ hstart hcalm hrun
  rintro ⟨c, w⟩ l ⟨c', w'⟩ hs hl hstep
  cases l with
  | own => exact hs.step hstep
  | event e =>
      obtain ⟨u, hu, heq⟩ := Option.map_eq_some_iff.mp hstep
      cases heq
      exact hs.event hl hu

/-- At the end of a stop phase nothing disturbed, the slots of the cascade are down
and the flags it read are otherwise as they were. -/
theorem BindStops.settled (hbound : g.BoundDepsAreDeps) {w₀ w : World n} {c : Call n}
    (hs : BindStops g w₀ c w) (hok : StopPhaseOk g c) : Undisturbed g w₀ w ∧
      ∀ j, g.boundStopping w₀ j = true → w.flag j .running = false := by
  cases hs with
  | wave hhas hchosen _ hsettled hkept =>
      refine ⟨hkept, fun j hj => ?_⟩
      exact (hsettled.isDown hok ((hchosen j).trans hj)).2
  | none hhas hkept =>
      refine ⟨hkept, fun j hj => ?_⟩
      -- Without the shape bit no slot has a bound dependency.
      obtain ⟨_, d, hd, _⟩ := (boundStopping_iff hbound w₀ j).mp hj
      unfold Graph.boundDepsOf at hd
      cases hcfg : g.nodes j with
      | none => simp [hcfg] at hd
      | some cfg => simp [hcfg, (g.shape_sound j cfg hcfg).boundDeps hhas] at hd
  | past hhas hc =>
      cases c with
      | stopping s next => exact absurd rfl (hc s next)
      | done r =>
          cases r with
          | none =>
              rw [StopPhaseOk, hhas] at hok
              simp at hok
          | some f => exact hok.elim
      | starting | startNode | stopNode | bindUp | panic | cancelled => exact hok.elim

/-- **One pass completes the cascade.** Where bound dependencies are dependencies
and nothing disturbs the stop phase, what it takes down is the least set of the
cascade, and nobody it leaves running depends on a bound provider that does not
serve. Whatever happens around it, the second phase brings up only nodes that
were served again when it turned to them, and only unmarks `OnDemand` nodes. -/
theorem applyBind_completes_cascade (g : Graph n) (hbound : g.BoundDepsAreDeps)
    (w₀ : World n) {moves : List (Move n)} {c : Call n} {w : World n}
    (hrun : exec (soloCall g) (g.begin w₀ .applyBind) moves = some (c, w)) :
    (Along (soloCall g) Calm (g.begin w₀ .applyBind) moves → StopPhaseOk g c →
      IsLeast {T | w₀.Cascade g T}
        {j | w₀.flag j .running = true ∧ w.flag j .running = false} ∧
      ∀ j, w.Stoppable j → ∀ d ∈ g.boundDepsOf j, w.isServing d = true) ∧
    (∀ c' w' j, c.step g w = some (c', w') → bringUps w.log j < bringUps w'.log j →
      TurnedTo g (g.begin w₀ .applyBind) moves j) ∧
    (∀ j todo cfg c' w', c = .bindUp (j :: todo) → g.nodes j = some cfg →
      cfg.mode = .onDemand → c.step g w = some (c', w') →
        c' = .bindUp todo ∧ (w.Still w' ∨ (w.putFlag j .boundStopped false).Still w')) := by
  refine ⟨fun hcalm hok => ?_, fun c' w' j hstep hlog => ?_, ?_⟩
  · obtain ⟨hkept, hdown⟩ := (bindStops_of_exec hrun hcalm).settled hbound hok
    have hset : {j | w₀.flag j .running = true ∧ w.flag j .running = false} =
        {j | g.boundStopping w₀ j = true} := by
      ext j
      constructor
      · rintro ⟨hup, hnow⟩
        cases hkept.running j with
        | inl hsame => simp [hsame, hup] at hnow
        | inr hj => exact hj.2
      · intro hj
        exact ⟨(of_boundStopping hj).2.1, hdown j hj⟩
    rw [hset]
    refine ⟨isLeast_boundStopping hbound w₀, fun j hj d hd => ?_⟩
    -- A provider that does not serve would have taken `j` down with it.
    have hstays : g.boundStopping w₀ j = false := by
      apply (Bool.not_eq_true _).mp
      intro hstop
      exact absurd hj.1 (by simp [hdown j hstop])
    have hup : w₀.Stoppable j := by
      refine ⟨?_, (hkept.detached j).symm.trans hj.2⟩
      cases hkept.running j with
      | inl hsame => exact hsame.symm.trans hj.1
      | inr h => exact absurd h.2 (by simp [hstays])
    have hnone := mt (boundStopping_iff hbound w₀ j).mpr (by simp [hstays])
    have hserving : w₀.isServing d = true ∧ g.boundStopping w₀ d = false := by
      constructor
      · by_contra hnot
        exact hnone ⟨hup, d, hd, Or.inl (by simpa using hnot)⟩
      · by_contra hnot
        exact hnone ⟨hup, d, hd, Or.inr (by simpa using hnot)⟩
    obtain ⟨hrun, hready⟩ := Bool.and_eq_true_iff.mp hserving.1
    apply Bool.and_eq_true_iff.mpr
    refine ⟨?_, (hkept.ready d).trans hready⟩
    cases hkept.running d with
    | inl hsame => exact hsame.trans hrun
    | inr h => exact absurd h.2 (by simp [hserving.2])
  · exact ((bindState_of_exec hrun).step hrun (Call.step_cases hstep)).2 j hlog
  · rintro j todo cfg c' w' rfl hcfg hmode hstep
    cases Call.step_cases hstep with
    | bindSkip => exact ⟨rfl, Or.inl (.refl w)⟩
    | bindStart hcfg' _ hmode' _ | bindResume hcfg' _ hmode' =>
        rw [hcfg] at hcfg'
        cases hcfg'
        simp [hmode] at hmode'
    | bindUnmark _ _ _ hw => exact ⟨rfl, Or.inr hw⟩

/-- The link runs but is not ready: the client is signalled and acknowledges. -/
def clientUnbound : Option (Call 2 × World 2) :=
  exec (soloCall clientAndLink) (clientAndLink.begin clientAndLinkUp .applyBind)
    (List.replicate 9 .own ++ ([.event (.ackDropped 1)] ++ List.replicate 7 .own))

/-- Moves of the call's own are calm. -/
theorem along_own (x : Call n × World n) (k : ℕ) :
    Along (soloCall g) Calm x (List.replicate k .own) := by
  induction k generalizing x with
  | zero => trivial
  | succ k ih => exact ⟨trivial, fun t _ => ih t⟩

theorem applyBind_completes_cascade_client :
    IsLeast {T | clientAndLinkUp.Cascade clientAndLink T}
      {j | clientAndLinkUp.flag j .running = true ∧
        (clientUnbound.get rfl).2.flag j .running = false} := by
  have hrun : clientUnbound.isSome = true := rfl
  have hbound : clientAndLink.BoundDepsAreDeps := by
    intro j cfg hcfg d hd
    cases hcfg
    exact hd
  refine ((applyBind_completes_cascade clientAndLink hbound clientAndLinkUp
    (Option.some_get hrun).symm).1 ?_ rfl).1
  apply along_append.mpr
  refine ⟨along_own _ 9, fun t ht => ?_⟩
  apply along_append.mpr
  refine ⟨⟨?_, fun _ _ => trivial⟩, fun u _ => along_own u 7⟩
  have hfirst : (exec (soloCall clientAndLink) (clientAndLink.begin clientAndLinkUp .applyBind)
    (List.replicate 9 .own)).isSome = true := rfl
  rw [← Option.some_get hfirst] at ht
  cases ht
  rfl

end EmbassySupervisor
