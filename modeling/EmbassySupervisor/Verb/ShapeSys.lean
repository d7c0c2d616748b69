/-
# Runs with every shape bit set

The calls among the tasks, on a graph and on the graph with every bit set. `Sys.Like` relates
two states of them: the same, but for an `apply_bind` that has returned on the one and still
idles through its wave on the other, where no node has a bound dependency. Nothing else can
happen until it is through (`Lagging.only`).

That its wave is idle rests on `Unmarked`: no node is ever marked as stopped on account of a
provider, so that there is none to bring up.
-/

import EmbassySupervisor.Verb.ShapeFold
import EmbassySupervisor.Verb.System

namespace EmbassySupervisor

open LabelledRun

variable {n : ℕ} {g : Graph n}

/-! ## Without bound dependencies no node is marked -/

def World.Unmarked (w : World n) : Prop := ∀ j, w.flag j .boundStopped = false

section Unmarked

variable {w w' : World n}

theorem World.Unmarked.of_imp (hw : w.Unmarked)
    (h : ∀ j, w'.flag j .boundStopped = true → w.flag j .boundStopped = true) : w'.Unmarked := by
  intro j
  have hj := mt (h j)
  rw [hw j] at hj
  exact (Bool.not_eq_true _).mp (hj Bool.false_ne_true)

theorem no_boundDeps (hbit : g.has .boundDeps = false) {cfg : NodeCfg n} {j d : Fin n}
    (hcfg : g.nodes j = some cfg) : d ∉ cfg.boundDeps := by
  rw [(g.shape_sound j cfg hcfg).boundDeps hbit]
  exact List.not_mem_nil

theorem StartEffect.unmarked (hbit : g.has .boundDeps = false) {cfg : NodeCfg n} {j : Fin n}
    {e : StartEnd n} (hcfg : g.nodes j = some cfg) (h : StartEffect cfg w j e w')
    (hw : w.Unmarked) : w'.Unmarked := by
  cases h with
  | started _ hstill _ =>
      intro i
      have hi := hw i
      rw [← hstill.flag] at hi
      simp [World.flag_launch, Flag.stale, hi]
  | parked _ hbound => exact absurd hbound (no_boundDeps hbit hcfg)
  | faulted hstill | waits hstill =>
      intro i
      rcases hstill with hstill | hstill <;> simp [hstill.flag, hw i]

theorem StartEntry.unmarked {j : Fin n} {e : StartEnd n} (h : StartEntry g w j e w')
    (hw : w.Unmarked) : w'.Unmarked := by
  cases h with
  | absent => exact hw
  | gated _ _ hput => exact hw.of_imp hput
  | marked =>
      intro i
      simp [Flag.stale, hw i]

theorem StartWave.Step.unmarked (hbit : g.has .boundDeps = false) {s s' : StartWave n}
    (h : s.Step g w s' w') (hw : w.Unmarked) : w'.Unmarked := by
  cases h with
  | park hturn _ hbound => exact absurd hbound (no_boundDeps hbit hturn.cfg)
  | arm => exact hw
  | resume | mark =>
      intro i
      simp [Flag.stale, hw i]
  | spawn =>
      intro i
      simp [World.flag_launch, Flag.stale, hw i]
  | fault _ hstale | abort _ hstale =>
      intro i
      rcases hstale with rfl | rfl <;> simp [Flag.stale, hw i]
  | busy _ _ hstale =>
      intro i
      rcases hstale with rfl | ⟨slot, rfl⟩ <;> simp [Flag.stale, hw i]
  | finish => exact hw
  | turn _ hlatch =>
      intro i
      rcases hlatch with rfl | rfl
      · exact hw i
      · exact hw i

theorem Call.unmarked (hbit : g.has .boundDeps = false) {c c' : Call n}
    (h : c.step g w = some (c', w')) (hw : w.Unmarked) : w'.Unmarked := by
  cases Call.step_cases h with
  | stopWave h => exact fun i => (h.flag_eq i (by decide) (by decide)).trans (hw i)
  | startWave h => exact h.unmarked hbit hw
  | startDone _ hstill => exact fun i => (hstill.flag i _).trans (hw i)
  | startNode hcfg h => exact h.unmarked hbit hcfg hw
  | ackNode =>
      intro i
      have hi := hw i
      rw [World.flag_takeAck, World.flag_onNode]
      split
      · rfl
      · split
        · rename_i heq
          exact heq ▸ hi
        · exact hi
  | missNode => exact fun i => (World.flag_missAck ..).trans (hw i)
  | bindStart _ _ _ h => exact h.unmarked hw
  | bindResume =>
      intro i
      simp [Flag.stale, hw i]
  | bindUnmark _ _ _ hstill =>
      intro i
      simp [hstill.flag, hw i]
  | stopFault | stopDone | restartUp | bindPhase | stopPanic | startPanic | bindEnd
  | bindSkip => exact hw

theorem Graph.begin_applyBind_of_unset (hbit : g.has .boundDeps = false) (w : World n) :
    g.begin w .applyBind = (.done none, w) := by
  rw [Graph.begin, hbit]
  rfl

theorem Graph.begin_unmarked (hbit : g.has .boundDeps = false) (v : Verb n) (hw : w.Unmarked) :
    (g.begin w v).2.Unmarked := by
  by_cases hv : v = .applyBind
  · rw [hv, begin_applyBind_of_unset hbit]
    exact hw
  · have hbegun := begin_cases g w v
    revert hbegun
    generalize (g.begin w v).1 = c, (g.begin w v).2 = w'
    intro hbegun
    cases hbegun with
    | idle h | startWave h | stopWave h => exact fun i => (h.flag i _ rfl).trans (hw i)
    | bindWave => exact absurd rfl hv
    | startNode h => exact h.unmarked hw
    | grow _ _ _ h => exact h.unmarked hw
    | stopNow | stopWait =>
        intro i
        simp [hw i]
    | resumes => exact fun i => (flag_resumeAll _ i rfl (by decide)).trans (hw i)

theorem TaskEvent.unmarked {e : TaskEvent n} (h : e.apply g w = some w') (hw : w.Unmarked) :
    w'.Unmarked := by
  intro i
  have hkept := TaskEvent.flag_eq_of_not_writes (j := i) (k := .boundStopped) h (by
    cases e <;> simp [TaskEvent.writes])
  exact hkept.trans (hw i)

end Unmarked

/-! ## An idle `apply_bind` -/

/-- An `apply_bind` with nothing to do, this many steps before its end. -/
inductive Call.Idling (g : Graph n) : ℕ → Call n → Prop
  | done : Idling g 0 (.done none)
  | visit (todo : List (Fin n)) : Idling g (todo.length + 1) (.bindUp todo)
  | waved {s : StopWave n} (hpc : s.pc = .done none) :
      Idling g (g.order.length + 2) (.stopping s .bind)
  | collect {s : StopWave n} {todo : List (Fin n)} {progress : Bool}
      (hchosen : ∀ j, s.chosen j = false) (herr : s.firstErr = none)
      (hpc : s.pc = .collect todo progress) :
      Idling g (todo.length + g.order.length + 3) (.stopping s .bind)
  | signal {s : StopWave n} {todo : List (Fin n)} (hchosen : ∀ j, s.chosen j = false)
      (herr : s.firstErr = none) (hpc : s.pc = .signal todo) :
      Idling g (todo.length + 2 * g.order.length + 4) (.stopping s .bind)

/-- **Its steps change nothing.** -/
theorem Call.Idling.step {k : ℕ} {c : Call n} {w : World n} (h : Call.Idling g (k + 1) c)
    (hw : w.Unmarked) : ∃ c', c.step g w = some (c', w) ∧ Call.Idling g k c' := by
  generalize hm : k + 1 = m at h
  cases h with
  | done => cases hm
  | visit todo =>
      cases todo with
      | nil =>
          cases hm
          exact ⟨.done none, rfl, .done⟩
      | cons j todo =>
          cases hm
          refine ⟨.bindUp todo, ?_, .visit todo⟩
          rw [Call.step, Graph.bindVisit]
          cases g.nodes j with
          | none => rfl
          | some cfg =>
              have hbind : w.bindable cfg j = false := by simp [World.bindable, hw j]
              simp [hbind]
  | @waved s hpc =>
      cases hm
      exact ⟨.bindUp g.order, by simp only [Call.step, hpc], .visit g.order⟩
  | @collect s todo progress hchosen herr hpc =>
      cases todo with
      | nil =>
          have hall : s.allResolved = true := by simp [StopWave.allResolved, hchosen]
          have hk : k = g.order.length + 2 := by simpa using hm
          subst hk
          refine ⟨.stopping { s with pc := .done s.firstErr } .bind, ?_,
            .waved (congrArg StopPc.done herr)⟩
          simp only [Call.step, hpc, StopWave.step, hall, if_true, Option.map_some]
      | cons j todo =>
          have hk : k = todo.length + g.order.length + 3 := by
            simp only [List.length_cons] at hm
            omega
          subst hk
          refine ⟨.stopping { s with pc := .collect todo progress } .bind, ?_,
            .collect hchosen herr rfl⟩
          simp [Call.step, hpc, StopWave.step, StopWave.collectVisit, StopWave.unresolved, hchosen]
  | @signal s todo hchosen herr hpc =>
      cases todo with
      | nil =>
          have hk : k = g.order.reverse.length + g.order.length + 3 := by
            simp only [List.length_nil, List.length_reverse] at hm ⊢
            omega
          subst hk
          refine ⟨.stopping { s with pc := .collect g.order.reverse false } .bind, ?_,
            .collect hchosen herr rfl⟩
          simp only [Call.step, hpc, StopWave.step, Option.map_some]
      | cons j todo =>
          have hk : k = todo.length + 2 * g.order.length + 4 := by
            simp only [List.length_cons] at hm
            omega
          subst hk
          refine ⟨.stopping { s with pc := .signal todo } .bind, ?_, .signal hchosen herr rfl⟩
          simp [Call.step, hpc, StopWave.step, StopWave.signalVisit, StopWave.unresolved, hchosen]

theorem Call.Idling.eq_done {c : Call n} (h : Call.Idling g 0 c) : c = .done none := by
  cases h with
  | done => rfl

/-- It is at no await before it is through. -/
theorem Call.Idling.not_atAwait {k : ℕ} {c : Call n} (h : Call.Idling g (k + 1) c) :
    c.atAwait = false := by
  cases h with
  | visit => rfl
  | waved hpc => simp [Call.atAwait, hpc]
  | collect _ _ hpc => simp [Call.atAwait, hpc]
  | signal _ _ hpc => simp [Call.atAwait, hpc]

theorem Graph.boundStopping_of_unset (hbit : g.has .boundDeps = false) (w : World n) :
    g.boundStopping w = fun _ => false := by
  refine DependencyOrder.sweep_of_fixed (fun j => ?_) g.order
  rw [Graph.boundVisit]
  cases hcfg : g.nodes j with
  | none => rfl
  | some cfg =>
      have hnil := (g.shape_sound j cfg hcfg).boundDeps hbit
      simp [hnil]

/-- With nobody to stop, `apply_bind` begins an idle wave. -/
theorem Graph.begin_applyBind_full (hbit : g.has .boundDeps = false) (w : World n) :
    ∃ k c, g.full.begin w .applyBind = (c, w) ∧ Call.Idling g.full (k + 1) c := by
  have hnone : g.full.boundStopping w = fun _ => false := g.boundStopping_of_unset hbit w
  have hselect : g.full.selectNodes w (fun _ h => (false, h)) = fun j => (false, w.node j) := by
    funext j
    rw [selectNodes_apply, ite_self]
  have hwave : g.full.stopNodes w (fun j h =>
      if g.full.boundStopping w j then (true, h.flagPut .boundStopped true) else (false, h)) false =
        (StopWave.launch g.full w (fun _ => false) false, w) := by
    simp only [hnone, Bool.false_eq_true, if_false, Graph.stopNodes, hselect]
  have hrecord (js : List (Fin n)) : w.recordBoundStops (fun _ => false) js = w := by
    simp [World.recordBoundStops]
  refine ⟨_, _, ?_, .signal (s := StopWave.launch g.full w (fun _ => false) false)
    (fun _ => rfl) rfl rfl⟩
  simp only [Graph.begin, has_full, if_true, hwave]
  exact Prod.ext rfl (hrecord _)

/-! ## The calls among the tasks -/

theorem Graph.SameWorld.apply {w w' : World n} (h : g.SameWorld w w') (e : TaskEvent n) :
    Option.Rel g.SameWorld (e.apply g w) (e.apply g.full w') := by
  rcases h with rfl | ⟨hbit, req, rfl⟩
  · show Option.Rel g.SameWorld (e.apply g w') (e.apply g w')
    cases e.apply g w' with
    | none => exact .none
    | some u => exact .some (.refl u)
  · have hblind := TaskEvent.apply_withReq g w req e
    show Option.Rel g.SameWorld (e.apply g w) (e.apply g (w.withReq req))
    revert hblind
    generalize e.apply g w = x, e.apply g (w.withReq req) = y
    intro hblind
    cases hblind with
    | none => exact .none
    | some hu => exact .some (.inr ⟨hbit, hu⟩)

theorem Graph.SameWorld.flag {w w' : World n} (h : g.SameWorld w w') (j : Fin n) (k : Flag) :
    w'.flag j k = w.flag j k := by
  rcases h with rfl | ⟨-, req, rfl⟩
  · rfl
  · rfl

theorem Graph.SameWorld.now {w w' : World n} (h : g.SameWorld w w') : w'.now = w.now := by
  rcases h with rfl | ⟨-, req, rfl⟩
  · rfl
  · rfl

theorem Graph.SameWorld.log {w w' : World n} (h : g.SameWorld w w') : w'.log = w.log := by
  rcases h with rfl | ⟨-, req, rfl⟩
  · rfl
  · rfl

theorem Graph.SameWorld.onNode {w w' : World n} (h : g.SameWorld w w') (j : Fin n)
    (f : TaskHandle → TaskHandle) : g.SameWorld (w.onNode j f) (w'.onNode j f) := by
  rcases h with rfl | ⟨hbit, req, rfl⟩
  · exact .refl _
  · exact .inr ⟨hbit, req, rfl⟩

namespace Sys

/-- The same calls in the same state, on the graph and with every bit set. -/
structure Level (g : Graph n) (s t : Sys n) : Prop where
  world : g.SameWorld s.world t.world
  unmarked : g.has .boundDeps = false → s.world.Unmarked
  calls : t.calls = s.calls

/-- An `apply_bind` that has returned on the graph still idles through its wave, with more than
`k` steps to go. -/
structure Lagging (g : Graph n) (i k : ℕ) (s t : Sys n) : Prop where
  world : g.SameWorld s.world t.world
  unset : g.has .boundDeps = false
  unmarked : s.world.Unmarked
  rest : ∀ d ∈ s.calls, d.atAwait = true
  own : s.calls[i]? = some (.done none)
  calls : ∃ c, Call.Idling g.full (k + 1) c ∧ t.calls = s.calls.set i c

def Like (g : Graph n) (s t : Sys n) : Prop := s.Level g t ∨ ∃ i k, s.Lagging g i k t

/-- A step of an `apply_bind` with nothing to do, which changes nothing else. -/
inductive Idles (g : Graph n) (s : Sys n) : Label n → Sys n → Prop
  | advance {i k : ℕ} {c : Call n} (hcall : s.calls[i]? = some c)
      (hidle : Call.Idling g (k + 1) c) (c' : Call n) :
      Idles g s (.advance i) { s with calls := s.calls.set i c' }

variable {s t t' : Sys n} {i k : ℕ}

theorem Lagging.advance (h : s.Lagging g i k t) :
    ∃ t', t.next g.full (.advance i) = some t' ∧ t.Idles g.full (.advance i) t' ∧
      (k = 0 → s.Level g t') ∧ ∀ m, k = m + 1 → s.Lagging g i m t' := by
  obtain ⟨c, hc, hcalls⟩ := h.calls
  have hlt : i < s.calls.length := (List.getElem?_eq_some_iff.mp h.own).1
  have hown : t.calls[i]? = some c := by
    rw [hcalls, List.getElem?_set_self hlt]
  have hrest : t.restingBut i = true := by
    simp only [restingBut, List.all_eq_true, List.mem_range]
    intro m hm
    by_cases hmi : m = i
    · simp [hmi]
    · have hother : t.calls[m]? = s.calls[m]? := by
        rw [hcalls, List.getElem?_set_ne (Ne.symm hmi)]
      rw [hother]
      cases hd : s.calls[m]? with
      | none => simp
      | some d => simp [h.rest d (List.mem_of_getElem? hd)]
  have hmarks : t.world.Unmarked := fun j => (h.world.flag j _).trans (h.unmarked j)
  obtain ⟨c', hstep, hc'⟩ := hc.step hmarks
  have hset : t.calls.set i c' = s.calls.set i c' := by rw [hcalls, List.set_set]
  refine ⟨{ world := t.world, calls := s.calls.set i c' }, ?_, ?_, fun hk => ?_, fun m hm => ?_⟩
  · simp only [next, hrest, if_true, hown, Option.bind_eq_bind, Option.bind_some, hstep, hset]
  · rw [← hset]
    exact .advance hown hc c'
  · subst hk
    refine ⟨h.world, fun _ => h.unmarked, ?_⟩
    obtain ⟨_, hi⟩ := List.getElem?_eq_some_iff.mp h.own
    rw [hc'.eq_done, ← hi]
    exact List.set_getElem_self hlt
  · subst hm
    exact ⟨h.world, h.unset, h.unmarked, h.rest, h.own, c', hc', rfl⟩

theorem Lagging.not_resting (h : s.Lagging g i k t) : t.resting = false := by
  obtain ⟨c, hc, hcalls⟩ := h.calls
  have hlt : i < s.calls.length := (List.getElem?_eq_some_iff.mp h.own).1
  refine (Bool.not_eq_true _).mp fun hrest => ?_
  have hawait := resting_iff.mp hrest c (hcalls ▸ List.mem_set hlt c)
  rw [hc.not_atAwait] at hawait
  exact Bool.false_ne_true hawait

/-- **Nothing else can happen while the wave idles.** -/
theorem Lagging.only (h : s.Lagging g i k t) {l : Label n} (hstep : t.next g.full l = some t') :
    l = .advance i ∧ t.Idles g.full l t' ∧ s.Like g t' := by
  obtain ⟨c, hc, hcalls⟩ := h.calls
  have hlt : i < s.calls.length := (List.getElem?_eq_some_iff.mp h.own).1
  have hbusy (hrest : ∀ d ∈ t.calls, d.atAwait = true) : False := by
    have hresting := resting_iff.mpr hrest
    rw [h.not_resting] at hresting
    exact Bool.false_ne_true hresting
  cases next_cases hstep with
  | begin hrest | task hrest | setDisabled hrest | cancel hrest => exact (hbusy hrest).elim
  | @advance m d d' w hrest hcall hcarry =>
      have hmi : m = i := by
        by_contra hne
        have hown : t.calls[i]? = some c := by rw [hcalls, List.getElem?_set_self hlt]
        have hawait := hrest i c (Ne.symm hne) hown
        rw [hc.not_atAwait] at hawait
        exact Bool.false_ne_true hawait
      subst hmi
      obtain ⟨u, hu, hidle, hlevel, hlag⟩ := h.advance
      rw [hu] at hstep
      cases hstep
      refine ⟨rfl, hidle, ?_⟩
      cases k with
      | zero => exact .inl (hlevel rfl)
      | succ k => exact .inr ⟨m, k, hlag k rfl⟩

/-- The wave can go through. -/
theorem Lagging.catchUp (h : s.Lagging g i k t) :
    ∃ ks t', Padded (next g.full) (Idles g.full) t [] ks t' ∧ s.Level g t' := by
  induction k generalizing t with
  | zero =>
      obtain ⟨u, hu, hidle, hlevel, -⟩ := h.advance
      exact ⟨_, u, .idle hu hidle (.nil u), hlevel rfl⟩
  | succ k ih =>
      obtain ⟨u, hu, hidle, -, hlag⟩ := h.advance
      obtain ⟨ks, t', hrest, hlevel⟩ := ih (hlag k rfl)
      exact ⟨_, t', .idle hu hidle hrest, hlevel⟩

/-- **From the same state, the same steps lead to states that are alike.** -/
theorem Level.rel (h : s.Level g t) (l : Label n) :
    Option.Rel (Like g) (s.next g l) (t.next g.full l) := by
  have hresting : t.resting = s.resting := by rw [resting, resting, h.calls]
  cases l with
  | begin v =>
      simp only [Sys.next, hresting, h.calls]
      by_cases hrest : s.resting = true
      · rw [if_pos hrest, if_pos hrest]
        by_cases hidle : v = .applyBind ∧ g.has .boundDeps = false
        · obtain ⟨rfl, hbit⟩ := hidle
          obtain ⟨k, c, hbegin, hc⟩ := g.begin_applyBind_full hbit t.world
          rw [hbegin, Graph.begin_applyBind_of_unset hbit]
          refine .some (.inr ⟨s.calls.length, k, h.world, hbit, h.unmarked hbit, ?_, ?_, c, hc, ?_⟩)
          · intro d hd
            rcases List.mem_append.mp hd with hd | hd
            · exact resting_iff.mp hrest d hd
            · rw [List.mem_singleton.mp hd]
              rfl
          · simp
          · simp
        · have hbound : v = .applyBind → g.has .boundDeps = true := by
            intro hv
            by_contra hbit
            exact hidle ⟨hv, (Bool.not_eq_true _).mp hbit⟩
          obtain ⟨hcall, hworld⟩ := h.world.begin hbound
          refine .some (.inl ⟨hworld, fun hbit => ?_, ?_⟩)
          · exact Graph.begin_unmarked hbit v (h.unmarked hbit)
          · show s.calls ++ [(g.full.begin t.world v).1] = s.calls ++ [(g.begin s.world v).1]
            rw [hcall]
      · rw [if_neg hrest, if_neg hrest]
        exact .none
  | advance i =>
      have hbut : t.restingBut i = s.restingBut i := by rw [restingBut, restingBut, h.calls]
      simp only [Sys.next, hbut, h.calls]
      by_cases hrest : s.restingBut i = true
      · rw [if_pos hrest, if_pos hrest]
        cases hcall : s.calls[i]? with
        | none => exact .none
        | some c =>
            simp only [Option.bind_eq_bind, Option.bind_some]
            have hrel := h.world.step c
            cases hs : c.step g s.world with
            | none =>
                rw [hs] at hrel
                rw [rel_none hrel]
                exact .none
            | some p =>
                rw [hs] at hrel
                obtain ⟨q, hq, hcall, hworld⟩ := rel_some hrel
                rw [hq]
                refine .some (.inl ⟨hworld, fun hbit => ?_, ?_⟩)
                · exact Call.unmarked hbit hs (h.unmarked hbit)
                · show s.calls.set i q.1 = s.calls.set i p.1
                  rw [hcall]
      · rw [if_neg hrest, if_neg hrest]
        exact .none
  | task e =>
      simp only [Sys.next, hresting]
      by_cases hrest : s.resting = true
      · rw [if_pos hrest, if_pos hrest]
        have hrel := h.world.apply e
        cases hs : e.apply g s.world with
        | none =>
            rw [hs] at hrel
            rw [rel_none hrel]
            exact .none
        | some u =>
            rw [hs] at hrel
            obtain ⟨v, hv, hworld⟩ := rel_some hrel
            rw [hv]
            refine .some (.inl ⟨hworld, fun hbit => ?_, h.calls⟩)
            exact TaskEvent.unmarked hs (h.unmarked hbit)
      · rw [if_neg hrest, if_neg hrest]
        exact .none
  | setDisabled j disabled =>
      have hocc : g.full.occupied j = g.occupied j := rfl
      simp only [Sys.next, hresting, hocc]
      split
      · refine .some (.inl ⟨h.world.onNode j fun t => t.setDisabled disabled, fun hbit i => ?_, h.calls⟩)
        have hi := h.unmarked hbit i
        rw [World.flag_onNode]
        split
        · rename_i heq
          subst heq
          simpa [TaskHandle.setDisabled, World.flag] using hi
        · exact hi
      · exact .none
  | cancel i =>
      simp only [Sys.next, hresting, h.calls]
      split
      · cases s.calls[i]? with
        | none => exact .none
        | some c =>
            simp only [Option.bind_some]
            split
            · exact .none
            · exact .some (.inl ⟨h.world, h.unmarked, rfl⟩)
      · exact .none

end Sys

end EmbassySupervisor
