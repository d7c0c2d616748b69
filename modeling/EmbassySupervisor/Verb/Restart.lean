/-
# A restart cycles its set and nothing else

`restart` takes down what runs of the target, its pool and all that depends on them, and then
brings up what is down of the same set. The two halves do not overlap: a run of it passes
through a state in which all of the set is down that is to be taken down, nothing has been
brought up before and nobody is signalled after (`RestartTurn`).

What it brings up is not what it has taken down. A member that was down from the beginning
comes up with the others unless it is held; one that is set loose meanwhile, or belongs to a
pool, does not come back.
-/

import EmbassySupervisor.Verb.Activate
import EmbassySupervisor.Verb.Bind
import EmbassySupervisor.Verb.Deactivate

namespace EmbassySupervisor

open DependencyOrder LabelledRun

variable {n : ℕ} {g : Graph n}

/-! ## Who the entries are about -/

/-- The entry is the record of a task's own doing. -/
def Record.ofTask : Record n → Bool
  | .dropped _ | .claimsReleased _ => true
  | .note _ _ | .spawned _ | .boundStop _ | .boundPark _ => false

/-- The entries are about members of the set, or of the tasks' own doing. -/
def AboutOnly (p : Fin n → Prop) (log : List (ℕ × Record n)) : Prop :=
  ∀ r ∈ log, r.2.ofTask = true ∨ p r.2.node

theorem AboutOnly.append {p : Fin n → Prop} {later log : List (ℕ × Record n)}
    (hlater : AboutOnly p later) (hlog : AboutOnly p log) : AboutOnly p (later ++ log) := by
  intro r hr
  exact (List.mem_append.mp hr).elim (hlater r) (hlog r)

/-- No entry brings a node up or puts it off. -/
def NoOutcome (log : List (ℕ × Record n)) : Prop := ∀ r ∈ log, r.2.decisive = false

/-- A node no decisive entry is about has no outcome. -/
theorem outcomes_eq_zero {log : List (ℕ × Record n)} {j : Fin n}
    (h : ∀ e ∈ log, e.2.decisive = true → e.2.node ≠ j) : outcomes log j = 0 := by
  have htally : ∀ r : Record n, r.decisive = true → r.node = j → tally log r = 0 := by
    intro r hr hnode
    apply List.countP_eq_zero.mpr
    intro e he
    have hne : e.2 ≠ r := fun heq => h e he (heq ▸ hr) (heq ▸ hnode)
    simpa using hne
  rw [outcomes, htally (.note j .started) rfl rfl, htally (.note j .resumed) rfl rfl,
    htally (.boundPark j) rfl rfl]

theorem NoOutcome.outcomes_eq {log : List (ℕ × Record n)} (h : NoOutcome log) (j : Fin n) :
    outcomes log j = 0 :=
  outcomes_eq_zero fun e he hdecisive => by simp [h e he] at hdecisive

theorem outcomes_append (later log : List (ℕ × Record n)) (j : Fin n) :
    outcomes (later ++ log) j = outcomes later j + outcomes log j := by
  simp only [outcomes, tally, List.countP_append]
  omega

/-- What came before without an outcome does not count. -/
theorem NoOutcome.append {log : List (ℕ × Record n)} (h : NoOutcome log)
    (later : List (ℕ × Record n)) (j : Fin n) :
    outcomes (later ++ log) j = outcomes later j ∧
      tally (later ++ log) (.boundPark j) = tally later (.boundPark j) := by
  have hzero := h.outcomes_eq j
  have hparked : tally log (.boundPark j) = 0 := by
    simp only [outcomes] at hzero
    omega
  have hsum : tally (later ++ log) (.boundPark j) =
      tally later (.boundPark j) + tally log (.boundPark j) := List.countP_append
  rw [outcomes_append, hsum, hzero, hparked]
  exact ⟨rfl, rfl⟩

/-- No entry signals a node. -/
def NoSignal (log : List (ℕ × Record n)) : Prop :=
  ∀ t j, (t, .note j .stopRequested) ∉ log

/-- A node with an outcome is what some entry is about. -/
theorem AboutOnly.of_outcome {p : Fin n → Prop} {log : List (ℕ × Record n)}
    (h : AboutOnly p log) {j : Fin n} (hj : 0 < outcomes log j) : p j := by
  have hmem : ∃ e ∈ log, e.2.decisive = true ∧ e.2.node = j := by
    by_contra! hnone
    exact hj.ne' (outcomes_eq_zero hnone)
  obtain ⟨e, he, hdecisive, rfl⟩ := hmem
  apply (h e he).resolve_left
  intro htask
  cases hrecord : e.2 <;> simp [hrecord, Record.ofTask, Record.decisive] at htask hdecisive

/-- What the tasks add is their own. -/
theorem TaskEvent.Effect.added {w w' : World n} (h : TaskEvent.Effect g w w')
    (p : Fin n → Prop) :
    ∃ later, w'.log = later ++ w.log ∧ AboutOnly p later ∧ NoOutcome later ∧
      NoSignal later := by
  obtain ⟨later, hlater, hby⟩ := h.log_eq
  refine ⟨later, hlater, fun r hr => ?_, fun r hr => ?_, fun t j hmem => ?_⟩
  · obtain ⟨i, heq | heq⟩ := hby r hr
    · simp [heq, Record.ofTask]
    · simp [heq, Record.ofTask]
  · obtain ⟨i, heq | heq⟩ := hby r hr
    · simp [heq, Record.decisive]
    · simp [heq, Record.decisive]
  · obtain ⟨i, hrecord⟩ := hby _ hmem
    simp at hrecord

/-- What a step of a stop wave adds is about chosen nodes. -/
theorem StopWave.Step.about {w w' : World n} {s s' : StopWave n} (h : StopWave.Step g w s s' w') :
    ∃ new, w'.log = new ++ w.log ∧ AboutOnly (fun j => s.chosen j = true) new ∧
      NoOutcome new := by
  have chosen : ∀ {j : Fin n}, s.unresolved j = true → s.chosen j = true := fun hopen =>
    (Bool.and_eq_true_iff.mp hopen).1
  obtain ⟨new, hnew, hnone⟩ := h.log_eq
  refine ⟨new, hnew, ?_, hnone⟩
  have of_eq : ∀ {old : List (ℕ × Record n)}, w'.log = old ++ w.log → new = old := by
    intro old hold
    exact List.append_cancel_right (hnew.symm.trans hold)
  cases h with
  | @signal j _ _ _ hopen =>
      rw [@of_eq [(w.now, .note j .stopRequested)] (by simp)]
      intro r hr
      obtain rfl := List.mem_singleton.mp hr
      exact Or.inr (chosen hopen)
  | @collect j _ _ _ _ hopen =>
      rw [@of_eq [_] (w.log_takeAck j)]
      intro r hr
      obtain rfl := List.mem_singleton.mp hr
      exact Or.inr (chosen hopen)
  | @giveUp j _ _ _ _ cfg _ hopen | @abort j _ _ _ _ cfg _ hopen =>
      obtain ⟨released, hlog, hreleased⟩ := w.log_missAck g cfg j
      rw [@of_eq (_ :: released) hlog]
      intro r hr
      cases List.mem_cons.mp hr with
      | inl heq =>
          rw [heq]
          exact Or.inr (chosen hopen)
      | inr hmem => simp [hreleased r hmem, Record.ofTask]
  | skip | passOver | finish | examine =>
      rw [@of_eq [] rfl]
      exact nofun
  | turn _ _ hw =>
      have hnil : w'.log = [] ++ w.log := by rcases hw with rfl | rfl <;> rfl
      rw [@of_eq [] hnil]
      exact nofun

/-- What a step of a start wave adds is about a pending node, and signals nobody. -/
theorem StartWave.Step.about {w w' : World n} {s s' : StartWave n}
    (h : StartWave.Step g w s s' w') :
    ∃ new, w'.log = new ++ w.log ∧ AboutOnly (fun j => s.pending j = true) new ∧
      NoSignal new := by
  have one : ∀ {j : Fin n} (r : Record n), s.pending j = true → r.node = j →
      r ≠ .note j .stopRequested → w'.log = (w.now, r) :: w.log →
      ∃ new, w'.log = new ++ w.log ∧ AboutOnly (fun j => s.pending j = true) new ∧
        NoSignal new := by
    intro j r hj hnode hne hlog
    refine ⟨[(w.now, r)], hlog, fun e he => ?_, fun t i hmem => ?_⟩
    · obtain rfl := List.mem_singleton.mp he
      exact Or.inr (hnode ▸ hj)
    · obtain ⟨-, rfl⟩ := Prod.mk.inj (List.mem_singleton.mp hmem)
      exact hne (hnode ▸ rfl)
  have same : w'.log = w.log → ∃ new, w'.log = new ++ w.log ∧
      AboutOnly (fun j => s.pending j = true) new ∧ NoSignal new := fun heq =>
    ⟨[], heq, nofun, by simp [NoSignal]⟩
  cases h with
  | @arm j _ _ _ h => exact one (.note j .spawning) h.pending rfl (by simp) rfl
  | @resume j _ _ _ h => exact one (.note j .resumed) h.pending rfl (by simp) (by simp)
  | @mark j _ _ _ h => exact one (.note j .started) h.pending rfl (by simp) rfl
  | @park j _ _ _ _ h => exact one (.boundPark j) h.pending rfl (by simp) rfl
  | @fault j _ _ _ kind _ h hw | @abort j _ _ _ kind _ h hw =>
      apply one (.note j (.faulted kind)) h.pending rfl (by simp)
      rcases hw with rfl | rfl <;> simp
  | @spawn j _ _ _ _ h =>
      refine ⟨[(w.now, .note j .started), (w.now, .spawned j)], by simp, fun e he => ?_, ?_⟩
      · rcases List.mem_pair.mp he with rfl | rfl
        · exact Or.inr h.pending
        · exact Or.inr h.pending
      · simp [NoSignal]
  | busy _ _ hw =>
      apply same
      rcases hw with rfl | ⟨slot, rfl⟩ <;> simp
  | finish => exact same rfl
  | turn _ hw =>
      apply same
      rcases hw with rfl | rfl <;> rfl

/-! ## Who comes back -/

/-- What a restart that turns in `w` brings up: the nodes of its set that are down there,
neither detached nor held, and not left to a pool. -/
structure World.ComesBack (g : Graph n) (w w₀ : World n) (target j : Fin n) : Prop where
  member : ReachesTarget g w₀ target j
  down : w.flag j .running = false
  loose : w.flag j .detached = false
  enabled : w.flag j .disabled = false
  free : w.flag j .collateral = false
  mode : ∀ cfg, g.nodes j = some cfg → cfg.mode ≠ .onDemand

/-- The state a restart turns in, with what it has recorded by then and what it records
afterwards. Whatever it was to stop is down, signalled or by itself below one that was. -/
structure RestartTurn (g : Graph n) (w₀ : World n) (target : Fin n) (w₁ : World n)
    (down up : List (ℕ × Record n)) : Prop where
  history : w₁.log = down ++ w₀.log
  quiet : NoOutcome down
  isDown : ∀ j, w₀.Stops g target j → w₁.IsDown j
  signalled : ∀ j, w₀.Stops g target j → (∃ t, (t, .note j .stopRequested) ∈ down) ∨
    ∃ k, w₀.Stops g target k ∧ j ∈ g.deps k
  unsignalled : NoSignal up
  back : AboutOnly (w₁.ComesBack g w₀ target) up

/-- The start set of a restart. -/
theorem pending_restartUp (hocc : g.AllOccupied) {w₀ w : World n} {target : Fin n}
    {set : Fin n → Bool} (hset : ∀ j, set j = true ↔ ReachesTarget g w₀ target j) (j : Fin n) :
    (g.restartUp w set).pending j = true ↔ w.ComesBack g w₀ target j := by
  obtain ⟨cfg, hcfg⟩ := (Graph.occupied_iff g).mp (hocc j)
  have hmode : g.deferred cfg = false ↔
      ∀ cfg', g.nodes j = some cfg' → cfg'.mode ≠ .onDemand := by
    simp [← Bool.not_eq_true, deferred_iff hcfg, hcfg]
  rw [Graph.restartUp, pending_startNodes]
  simp only [hcfg, Option.some.injEq, exists_eq_left', Bool.and_eq_true, Bool.not_eq_true', hset]
  rw [hmode]
  constructor
  · rintro ⟨⟨⟨⟨⟨hmember, hloose⟩, henabled⟩, hfree⟩, hdown⟩, hmode⟩
    exact ⟨hmember, hdown, hloose, henabled, hfree, hmode⟩
  · intro h
    exact ⟨⟨⟨⟨⟨h.member, h.loose⟩, h.enabled⟩, h.free⟩, h.down⟩, h.mode⟩

/-- The two sets of a restart depend on no more of the world than its flags. -/
theorem reachesTarget_congr {w w' : World n} (h : ∀ j k, w'.flag j k = w.flag j k)
    (target : Fin n) : ReachesTarget g w' target = ReachesTarget g w target := by
  have hloose : (fun j => w'.flag j .detached = false) = fun j => w.flag j .detached = false := by
    funext j
    rw [h]
  rw [ReachesTarget, ReachesTarget, hloose]

/-- A restart is refused, or begins a wave over what runs of its set. -/
theorem begin_restart (hocc : g.AllOccupied) (w : World n) (target : Fin n) :
    ∃ u, w.Still u ∧
      (g.begin w (.restart target) =
          (.done (some { node := target, kind := .restartStorm }), u) ∨
        ∃ set chosen, (∀ j, set j = true ↔ ReachesTarget g w target j) ∧
          (∀ j, chosen j = true ↔ w.Stops g target j) ∧
          g.begin w (.restart target) =
            (.stopping (StopWave.launch g u chosen false) (.restart set), u)) := by
  have hcount := still_countRestart (g := g) w target
  simp only [Graph.begin]
  cases hcase : g.countRestart w target with
  | mk counted u =>
      rw [hcase] at hcount
      replace hcount : w.Still u := hcount
      cases counted with
      | false => exact ⟨u, hcount, Or.inl rfl⟩
      | true =>
          have hset : ∀ j, g.collectDependents u (g.seed target) j = true ↔
              ReachesTarget g w target j := by
            intro j
            rw [collectDependents_iff, reachesSeed_iff hocc, reachesTarget_congr hcount.flag]
          generalize hselect : (fun j h =>
            (g.collectDependents u (g.seed target) j && TaskHandle.isStoppable h, h)) = select
          have hnode : (g.stopNodes u select false).2 = u := by
            have hsame : ∀ j, (g.stopNodes u select false).2.node j = u.node j := by
              intro j
              rw [node_stopNodes, ← hselect]
              simp
            have hfun : (g.stopNodes u select false).2.node = u.node := funext hsame
            show { u with node := (g.stopNodes u select false).2.node } = u
            rw [hfun]
          refine ⟨u, hcount, Or.inr ⟨g.collectDependents u (g.seed target),
            (g.stopNodes u select false).1.chosen, hset, fun j => ?_, ?_⟩⟩
          · rw [chosen_stopNodes, ← hselect, World.Stops, ← hset, ← hcount.flag, ← hcount.flag]
            simp only [hocc j, TaskHandle.isStoppable, World.flag, Bool.and_eq_true,
              Bool.not_eq_true']
            tauto
          · have hwave : (g.stopNodes u select false).1 =
                StopWave.launch g (g.stopNodes u select false).2
                  (g.stopNodes u select false).1.chosen false := rfl
            rw [hnode] at hwave
            show (Call.stopping (g.stopNodes u _ false).1 _, (g.stopNodes u _ false).2) = _
            rw [hselect, hnode, ← hwave]

/-! ## The two halves -/

/-- The stop half of a restart, and what comes after. -/
inductive Lowers (g : Graph n) (w₀ : World n) (set chosen : Fin n → Bool) :
    Call n → World n → Prop
  | wave {s : StopWave n} {w : World n} (hchosen : s.chosen = chosen)
      (hserved : StopWave.Served g w₀ s w) (hsettled : StopWave.Settled s w)
      (hdown : ∃ down, w.log = down ++ w₀.log ∧ AboutOnly (fun j => chosen j = true) down ∧
        NoOutcome down) : Lowers g w₀ set chosen (.stopping s (.restart set)) w
  | past {c : Call n} {w : World n} (hc : ∀ s next, c ≠ .stopping s next) :
      Lowers g w₀ set chosen c w

theorem Lowers.step {w₀ w w' : World n} {set chosen : Fin n → Bool} {c c' : Call n}
    (hs : Lowers g w₀ set chosen c w) (h : c.step g w = some (c', w')) :
    Lowers g w₀ set chosen c' w' := by
  have hstep := Call.step_cases h
  cases hs with
  | past hc => exact .past (hstep.ne_stopping hc)
  | @wave s _ hchosen hserved hsettled hdown =>
      cases hstep with
      | stopWave h =>
          subst hchosen
          obtain ⟨down, hlog, habout, hnone⟩ := hdown
          obtain ⟨new, hnew, habout', hnone'⟩ := h.about
          refine .wave h.static.1 (hserved.step h) (hsettled.step h)
            ⟨new ++ down, by simp [hnew, hlog], habout'.append habout, fun r hr => ?_⟩
          exact (List.mem_append.mp hr).elim (hnone' r) (hnone r)
      | stopFault | stopPanic | restartUp => exact .past (by simp)

theorem Lowers.event {w₀ w w' : World n} {set chosen : Fin n → Bool} {c : Call n}
    (hs : Lowers g w₀ set chosen c w) (h : TaskEvent.Effect g w w') :
    Lowers g w₀ set chosen c w' := by
  cases hs with
  | past hc => exact .past hc
  | wave hchosen hserved hsettled hdown =>
      obtain ⟨down, hlog, habout, hnone⟩ := hdown
      obtain ⟨later, hlater, habout', hnone', _⟩ := h.added fun j => chosen j = true
      refine .wave hchosen (hserved.event h) (hsettled.event h)
        ⟨later ++ down, by simp [hlater, hlog], habout'.append habout, fun r hr => ?_⟩
      exact (List.mem_append.mp hr).elim (hnone' r) (hnone r)

/-- What has been added since `w₁` is about the nodes of `p`, and signals nobody. -/
def Adds (p : Fin n → Prop) (w₁ w : World n) : Prop :=
  ∃ up, w.log = up ++ w₁.log ∧ AboutOnly p up ∧ NoSignal up

theorem Adds.more {p : Fin n → Prop} {w₁ w w' : World n} (h : Adds p w₁ w)
    {new : List (ℕ × Record n)} (hnew : w'.log = new ++ w.log) (habout : AboutOnly p new)
    (hnone : NoSignal new) : Adds p w₁ w' := by
  obtain ⟨up, hup, habout', hnone'⟩ := h
  refine ⟨new ++ up, by simp [hnew, hup], habout.append habout', fun t j hmem => ?_⟩
  exact (List.mem_append.mp hmem).elim (hnone t j) (hnone' t j)

/-- The start half of a restart, and what comes after. -/
inductive Raises (g : Graph n) (p : Fin n → Prop) (w₁ : World n) : Call n → World n → Prop
  | wave {s : StartWave n} {poke : Bool} {w : World n} (hp : ∀ j, s.pending j = true → p j)
      (h : Adds p w₁ w) : Raises g p w₁ (.starting s poke) w
  | ended {c : Call n} {w : World n} (hend : ∀ u, c.step g u = none) (h : Adds p w₁ w) :
      Raises g p w₁ c w

theorem Raises.adds {p : Fin n → Prop} {w₁ w : World n} {c : Call n}
    (hs : Raises g p w₁ c w) : Adds p w₁ w := by
  cases hs with
  | wave _ h | ended _ h => exact h

theorem Raises.step {p : Fin n → Prop} {w₁ w w' : World n} {c c' : Call n}
    (hs : Raises g p w₁ c w) (h : c.step g w = some (c', w')) : Raises g p w₁ c' w' := by
  cases hs with
  | ended hend => simp [hend] at h
  | wave hp hadds =>
      cases Call.step_cases h with
      | startWave h =>
          obtain ⟨new, hnew, habout, hnone⟩ := h.about
          refine .wave (fun j hj => hp j (h.pending_of_pending hj)) (hadds.more hnew ?_ hnone)
          exact fun r hr => (habout r hr).imp id (hp _)
      | startPanic => exact .ended (fun _ => rfl) hadds
      | startDone _ hw =>
          exact .ended (fun _ => rfl) (hadds.more (hw.log.trans (List.nil_append _).symm) nofun
            (by simp [NoSignal]))

theorem Raises.event {p : Fin n → Prop} {w₁ w w' : World n} {c : Call n}
    (hs : Raises g p w₁ c w) (h : TaskEvent.Effect g w w') : Raises g p w₁ c w' := by
  obtain ⟨later, hlater, habout, _, hnone⟩ := h.added p
  cases hs with
  | wave hp hadds => exact .wave hp (hadds.more hlater habout hnone)
  | ended hend hadds => exact .ended hend (hadds.more hlater habout hnone)

/-! ## The restart as a whole -/

/-- In its stop half. -/
def Call.Cycling (c : Call n) : Prop := ∃ s set, c = .stopping s (.restart set)

/-- The stop half ends in a fault, or turns with all of the chosen nodes down. -/
theorem Lowers.leaves {w₁ w₂ : World n} {set chosen : Fin n → Bool} {c₁ c₂ : Call n}
    {w₀ : World n} (hs : Lowers g w₀ set chosen c₁ w₁) (hc₁ : c₁.Cycling)
    (hc₂ : ¬ c₂.Cycling) (h : c₁.step g w₁ = some (c₂, w₂)) :
    w₂ = w₁ ∧ (∃ down, w₁.log = down ++ w₀.log ∧ AboutOnly (fun j => chosen j = true) down ∧
        NoOutcome down) ∧
      (((∀ u, c₂.step g u = none) ∧ c₂ ≠ .done none) ∨
        c₂ = .starting (g.restartUp w₁ set) true ∧ Signals g w₀ chosen True w₁ ∧
          ∀ j, chosen j = true → w₁.IsDown j) := by
  obtain ⟨s, set', rfl⟩ := hc₁
  cases hs with
  | past hc => exact absurd rfl (hc _ _)
  | wave hchosen hserved hsettled hdown =>
      cases Call.step_cases h with
      | stopWave => exact absurd ⟨_, _, rfl⟩ hc₂
      | stopFault | stopPanic => exact ⟨rfl, hdown, Or.inl ⟨fun _ => rfl, by simp⟩⟩
      | restartUp hpc =>
          refine ⟨rfl, hdown, Or.inr ⟨rfl, ?_, fun j hj => ?_⟩⟩
          · have hsignals := hserved.signals hsettled
            rw [hchosen] at hsignals
            obtain ⟨new, hnew, honly, hall⟩ := hsignals
            exact ⟨new, hnew, honly, fun _ => hall hpc⟩
          · exact hsettled.isDown hpc (hchosen ▸ hj)

/-- The stop half that leaves all of the chosen nodes down has turned. -/
theorem restartTurn_of_leaves {w₀ u w₁ : World n} {target : Fin n} {chosen : Fin n → Bool}
    {down up : List (ℕ × Record n)} (hchosen : ∀ j, chosen j = true ↔ w₀.Stops g target j)
    (hstill : w₀.Still u) (hlog : w₁.log = down ++ w₀.log) (hnone : NoOutcome down)
    (hsignals : Signals g u chosen True w₁) (hisDown : ∀ j, chosen j = true → w₁.IsDown j)
    (hquiet : NoSignal up) (hback : AboutOnly (w₁.ComesBack g w₀ target) up) :
    RestartTurn g w₀ target w₁ down up := by
  refine ⟨hlog, hnone, fun j hj => hisDown j ((hchosen j).mpr hj), fun j hj => ?_, hquiet, hback⟩
  obtain ⟨new, hnew, _, hall⟩ := hsignals
  have hsame : new = down := by
    rw [hstill.log, hlog] at hnew
    exact (List.append_cancel_right hnew).symm
  rw [← hsame]
  rcases hall trivial j ((hchosen j).mpr hj) with hreq | ⟨_, k, hk, hdep⟩
  · exact Or.inl hreq
  · exact Or.inr ⟨k, (hchosen k).mp hk, hdep⟩

/-- A call that is over stays what it is among the tasks. -/
theorem ended_of_soloCall {c c' : Call n} {w w' : World n} {moves : List (Move n)}
    (hend : ∀ u, c.step g u = none) (hrun : exec (soloCall g) (c, w) moves = some (c', w')) :
    c' = c ∧ Adds (fun _ => False) w w' := by
  refine among_invariant (I := fun d u => d = c ∧ Adds (fun _ => False) w u) ?_ ?_
    ⟨rfl, [], rfl, nofun, by simp [NoSignal]⟩ hrun
  · rintro d u d' u' ⟨rfl, _⟩ hstep
    simp [hend] at hstep
  · rintro d u u' ⟨hd, hadds⟩ h
    obtain ⟨later, hlater, habout, _, hnone⟩ := h.added fun _ => False
    exact ⟨hd, hadds.more hlater habout hnone⟩

/-- What the wave over the nodes that come back adds, and what it leaves of each when it
reports no fault. -/
theorem raises_of_turn (hocc : g.AllOccupied) {w₀ w₁ w : World n} {target : Fin n}
    {set : Fin n → Bool} (hset : ∀ j, set j = true ↔ ReachesTarget g w₀ target j)
    {c : Call n} {moves : List (Move n)}
    (hrun : exec (soloCall g) (.starting (g.restartUp w₁ set) true, w₁) moves = some (c, w)) :
    Adds (w₁.ComesBack g w₀ target) w₁ w ∧
      (c = .done none → Resolves w₁ (g.restartUp w₁ set).pending w) := by
  have hpending := pending_restartUp (w := w₁) hocc hset
  have hraises : Raises g (w₁.ComesBack g w₀ target) w₁ c w := by
    refine among_invariant (I := Raises g (w₁.ComesBack g w₀ target) w₁)
      (fun _ _ _ _ hs hstep => hs.step hstep) (fun _ _ _ hs he => hs.event he) ?_ hrun
    exact .wave (fun j => (hpending j).mp) ⟨[], rfl, nofun, by simp [NoSignal]⟩
  have hstarts : OnlyStarts g w₁ (g.restartUp w₁ set).pending c w := by
    refine among_invariant (I := OnlyStarts g w₁ (g.restartUp w₁ set).pending)
      (fun _ _ _ _ hs hstep => hs.step hstep) (fun _ _ _ hs he => hs.event he) ?_ hrun
    exact .wave (StartWave.accounts_launch _ _ _) (StartWave.ordered_launch _ _ _)
  exact ⟨hraises.adds, hstarts.resolves⟩

theorem AboutOnly.mono {p q : Fin n → Prop} (h : ∀ j, p j → q j)
    {log : List (ℕ × Record n)} (hlog : AboutOnly p log) : AboutOnly q log :=
  fun r hr => (hlog r hr).imp id (h _)

/-- What is about stopped nodes only signals no other. -/
theorem AboutOnly.of_signal {p : Fin n → Prop} {log : List (ℕ × Record n)}
    (h : AboutOnly p log) {t : ℕ} {j : Fin n} (hmem : (t, .note j .stopRequested) ∈ log) : p j :=
  (h _ hmem).resolve_left (by simp [Record.ofTask])

/-- What a restart has recorded that has not turned, or never will: nothing but what the nodes
it stops go through. -/
structure Unturned (g : Graph n) (w₀ : World n) (target : Fin n) (c : Call n)
    (new : List (ℕ × Record n)) : Prop where
  about : AboutOnly (w₀.Stops g target) new
  outcomes_eq : ∀ j, outcomes new j = 0
  unfinished : c ≠ .done none

/-- A restart does not turn, or its run splits where it does, into the one of its stop half
and the one of the wave over what comes back. -/
theorem unturned_or_turns (hocc : g.AllOccupied) {w₀ w : World n} {target : Fin n} {c : Call n}
    {moves : List (Move n)}
    (hrun : exec (soloCall g) (g.begin w₀ (.restart target)) moves = some (c, w)) :
    (∃ new, w.log = new ++ w₀.log ∧ Unturned g w₀ target c new) ∨
      ∃ before after c₁ w₁ set down, moves = before ++ after ∧
        exec (soloCall g) (g.begin w₀ (.restart target)) before = some (c₁, w₁) ∧
        (∃ rest, exec (soloCall g) (.starting (g.restartUp w₁ set) true, w₁) rest =
          some (c, w)) ∧
        (∀ j, set j = true ↔ ReachesTarget g w₀ target j) ∧
        AboutOnly (w₀.Stops g target) down ∧
        ∀ up, NoSignal up → AboutOnly (w₁.ComesBack g w₀ target) up →
          RestartTurn g w₀ target w₁ down up := by
  obtain ⟨u, hstill, hbegin⟩ := begin_restart hocc w₀ target
  rcases hbegin with heq | ⟨set, chosen, hset, hchosen, heq⟩
  · -- The budget refuses it: what is recorded is the tasks' doing.
    rw [heq] at hrun
    obtain ⟨rfl, new, hnew, habout, _⟩ := ended_of_soloCall (fun _ => rfl) hrun
    refine Or.inl ⟨new, by rw [hnew, hstill.log], habout.mono fun _ h => h.elim, fun j => ?_,
      by simp⟩
    by_contra hj
    exact habout.of_outcome (Nat.pos_of_ne_zero hj)
  have hstops : ∀ j, chosen j = true → w₀.Stops g target j := fun j => (hchosen j).mp
  have hlowers : ∀ {ls : List (Move n)} {d : Call n} {v : World n},
      exec (soloCall g) (g.begin w₀ (.restart target)) ls = some (d, v) →
      Lowers g u set chosen d v := by
    intro ls d v hls
    rw [heq] at hls
    refine among_invariant (I := Lowers g u set chosen)
      (fun _ _ _ _ hs hstep => hs.step hstep) (fun _ _ _ hs he => hs.event he) ?_ hls
    exact .wave rfl (StopWave.served_launch _ _ _) (StopWave.settled_launch _ _ _)
      ⟨[], rfl, nofun, nofun⟩
  by_cases hleft : c.Cycling
  · obtain ⟨s, set', rfl⟩ := hleft
    cases hlowers hrun with
    | past hc => exact absurd rfl (hc _ _)
    | wave _ _ _ hdown =>
        obtain ⟨down, hlog, habout, hnone⟩ := hdown
        exact Or.inl ⟨down, by rw [hlog, hstill.log], habout.mono hstops, hnone.outcomes_eq,
          by simp⟩
  · have hcycling : (g.begin w₀ (.restart target)).1.Cycling := by
      rw [heq]
      exact ⟨_, _, rfl⟩
    obtain ⟨before, l, after, ⟨c₁, w₁⟩, ⟨c₂, w₂⟩, rfl, hbefore, hc₁, hstep, hc₂, hafter⟩ :=
      exec_crosses (P := fun x => x.1.Cycling) hcycling hleft hrun
    cases l with
    | event e =>
        obtain ⟨v, _, hv⟩ := Option.map_eq_some_iff.mp hstep
        cases hv
        exact absurd hc₁ hc₂
    | own =>
        obtain ⟨rfl, ⟨down, hlog, habout, hnone⟩, hcases⟩ :=
          (hlowers hbefore).leaves hc₁ hc₂ hstep
        have hmember : AboutOnly (w₀.Stops g target) down := habout.mono hstops
        rw [hstill.log] at hlog
        rcases hcases with ⟨hend, hne⟩ | ⟨rfl, hsignals, hisDown⟩
        · obtain ⟨rfl, up, hup, hnobody, _⟩ := ended_of_soloCall hend hafter
          refine Or.inl ⟨up ++ down, by rw [hup, hlog, List.append_assoc],
            (hnobody.mono fun _ h => h.elim).append hmember, fun j => ?_, hne⟩
          rw [outcomes_append, hnone.outcomes_eq j, Nat.add_zero]
          by_contra hj
          exact hnobody.of_outcome (Nat.pos_of_ne_zero hj)
        · exact Or.inr ⟨before, .own :: after, c₁, w₂, set, down, rfl, hbefore, ⟨after, hafter⟩,
            hset, hmember, fun up hquiet hback =>
              restartTurn_of_leaves hchosen hstill hlog hnone hsignals hisDown hquiet hback⟩

/-- **A restart cycles its set and nothing else.** In every run of one among the tasks the
holds stay as they are, and whatever it records is about the target, its pool and what
depends on them: it signals what of these runs and is not detached. If it brings up anything,
or returns without a fault, it has turned on the way, and it has brought up or put off what
comes back once each when it returns so. -/
theorem restart_cycles (g : Graph n) (hocc : g.AllOccupied) (w₀ : World n) (target : Fin n)
    {moves : List (Move n)} {c : Call n} {w : World n}
    (hrun : exec (soloCall g) (g.begin w₀ (.restart target)) moves = some (c, w)) :
    (∀ j k, k.hold = true → w.flag j k = w₀.flag j k) ∧
    ∃ new, w.log = new ++ w₀.log ∧ AboutOnly (ReachesTarget g w₀ target) new ∧
      (∀ t j, (t, .note j .stopRequested) ∈ new → w₀.Stops g target j) ∧
      (c = .done none ∨ (∃ j, 0 < outcomes new j) →
        ∃ before after c₁ w₁ down up, moves = before ++ after ∧
          exec (soloCall g) (g.begin w₀ (.restart target)) before = some (c₁, w₁) ∧
          new = up ++ down ∧ RestartTurn g w₀ target w₁ down up ∧
          (c = .done none → ∀ j, w₁.ComesBack g w₀ target j → outcomes new j = 1 ∧
            (0 < tally new (.boundPark j) → w.flag j .boundStopped = true))) := by
  constructor
  · intro j k hk
    obtain ⟨u, hstill, hbegin⟩ := begin_restart hocc w₀ target
    have hsecond : (g.begin w₀ (.restart target)).2 = u := by
      rcases hbegin with heq | ⟨_, _, _, _, heq⟩ <;> rw [heq]
    rw [flag_hold_of_soloCall hrun j hk, hsecond, hstill.flag]
  rcases unturned_or_turns hocc hrun with ⟨new, hlog, hunturned⟩ | hturns
  · refine ⟨new, hlog, hunturned.about.mono fun j h => h.2.2,
      fun t j hmem => hunturned.about.of_signal hmem, fun h => ?_⟩
    rcases h with hdone | ⟨j, hj⟩
    · exact absurd hdone hunturned.unfinished
    · exact absurd (hunturned.outcomes_eq j) hj.ne'
  · obtain ⟨before, after, c₁, w₁, set, down, hmoves, hbefore, ⟨rest, hrest⟩, hset, hmember,
      hturn⟩ := hturns
    obtain ⟨⟨up, hup, hback, hquiet⟩, hresolves⟩ := raises_of_turn hocc hset hrest
    have turn := hturn up hquiet hback
    have hall : AboutOnly (ReachesTarget g w₀ target) (up ++ down) :=
      (hback.mono fun j h => h.member).append (hmember.mono fun j h => h.2.2)
    refine ⟨up ++ down, by rw [hup, turn.history, List.append_assoc], hall, fun t j hmem => ?_,
      fun _ => ⟨before, after, c₁, w₁, down, up, hmoves, hbefore, rfl, turn, ?_⟩⟩
    · exact hmember.of_signal ((List.mem_append.mp hmem).resolve_left (hquiet t j))
    · intro hdone j hj
      obtain ⟨new, hnew, hone⟩ := hresolves hdone
      have hsame : new = up := List.append_cancel_right (hnew.symm.trans hup)
      obtain ⟨houtcome, hparked⟩ := hone j ((pending_restartUp hocc hset j).mpr hj)
      rw [hsame] at houtcome hparked
      obtain ⟨hcount, hpark⟩ := turn.quiet.append up j
      rw [hcount, hpark]
      exact ⟨houtcome, hparked⟩

/-- The client stops, then the link; the link starts, and the client once the link is
ready. -/
def linkRestarted : Option (Call 2 × World 2) :=
  exec (soloCall clientAndLink) (clientAndLink.begin clientAndLinkUp (.restart 0))
    (List.replicate 9 .own ++ [.event (.ackDropped 1)] ++ List.replicate 16 .own ++
      [.event (.ackDropped 0)] ++ List.replicate 16 .own ++ [.event (.setReady 0)] ++
      List.replicate 5 .own)

theorem restart_cycles_link : ∃ w₁ down up,
    (linkRestarted.get rfl).2.log = up ++ (down ++ []) ∧
      RestartTurn clientAndLink clientAndLinkUp 0 w₁ down up := by
  have hrun : linkRestarted.isSome = true := rfl
  obtain ⟨_, new, hnew, _, _, hturn⟩ := restart_cycles clientAndLink (fun _ => rfl)
    clientAndLinkUp 0 (Option.some_get hrun).symm
  obtain ⟨_, _, _, w₁, down, up, _, _, rfl, h, _⟩ := hturn (Or.inl rfl)
  exact ⟨w₁, down, up, hnew.trans (List.append_assoc _ _ _), h⟩

end EmbassySupervisor
