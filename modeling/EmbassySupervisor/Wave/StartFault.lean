/-
# The faults of a start wave

A start wave gives up on a node when its budget is spent and one of its gates does not
hold, and it has something to say about every node it was given exactly once. The budget is
kept on the wave's own clock: whole milliseconds since the wave began, in a counter that
stops one short of the value for a node that is not armed. So `startWave_faults` speaks of
that clock. `fault_early` is a run in which a node is given up on before its
`slotTimeout` has passed, because the two readings of the clock are rounded down.

The account of a wave is kept on what it adds to the history, as in `StartOrder`, here with
the faults, and with the part of the history that was there when each budget started.
-/

import EmbassySupervisor.Wave.StartOrder

namespace EmbassySupervisor

open LabelledRun

variable {n : ℕ} {g : Graph n}

/-! ## Verdicts in a history -/

/-- The entry says what has become of the node: it was brought up, put off or given up on. -/
def Record.settles (j : Fin n) : Record n → Bool
  | .note i .started | .note i .resumed | .note i (.faulted _) | .boundPark i => i == j
  | .note _ .spawning | .note _ .stopRequested | .note _ .stopped | .note _ .exited
  | .spawned _ | .dropped _ | .boundStop _ | .claimsReleased _ => false

/-- The fault an entry reports. -/
def Record.fault : Record n → Option (NodeFault n)
  | .note node (.faulted kind) => some { node, kind }
  | .note _ .started | .note _ .resumed | .note _ .spawning | .note _ .stopRequested
  | .note _ .stopped | .note _ .exited | .spawned _ | .dropped _ | .boundStop _
  | .boundPark _ | .claimsReleased _ => none

/-- How many verdicts a history has on the node. -/
def verdicts (log : List (ℕ × Record n)) (j : Fin n) : ℕ := log.countP fun r => r.2.settles j

/-- The first fault of a history. -/
def firstFault (log : List (ℕ × Record n)) : Outcome n :=
  (log.filterMap fun r => r.2.fault).getLast?

theorem verdicts_append (later earlier : List (ℕ × Record n)) (j : Fin n) :
    verdicts (later ++ earlier) j = verdicts later j + verdicts earlier j :=
  List.countP_append

theorem firstFault_append (later earlier : List (ℕ × Record n)) :
    firstFault (later ++ earlier) = (firstFault earlier).or (firstFault later) := by
  simp only [firstFault, List.filterMap_append]
  exact List.getLast?_append

/-- Entries that settle nothing. -/
def Idle (later : List (ℕ × Record n)) : Prop :=
  (∀ j, verdicts later j = 0) ∧ firstFault later = none

theorem idle_of_forall {later : List (ℕ × Record n)}
    (h : ∀ r ∈ later, (∀ j, r.2.settles j = false) ∧ r.2.fault = none) : Idle later := by
  constructor
  · intro j
    apply List.countP_eq_zero.mpr
    intro r hr
    simp [(h r hr).1 j]
  · have hnil : later.filterMap (fun r => r.2.fault) = [] := by
      apply List.filterMap_eq_nil_iff.mpr
      exact fun r hr => (h r hr).2
    simp [firstFault, hnil]

theorem idle_of_events {w w' : World n} (h : TaskEvent.Effect g w w') :
    ∃ later, w'.log = later ++ w.log ∧ Idle later := by
  obtain ⟨later, hlater, hby⟩ := h.log_eq
  refine ⟨later, hlater, idle_of_forall fun r hr => ?_⟩
  obtain ⟨i, heq | heq⟩ := hby r hr
  · rw [heq]
    exact ⟨fun _ => rfl, rfl⟩
  · rw [heq]
    exact ⟨fun _ => rfl, rfl⟩

namespace StartWave

/-! ## Which gate a fault names -/

/-- The gate a fault of the node names does not hold. -/
def Unsatisfied (w : World n) (cfg : NodeCfg n) (j : Fin n) : FaultKind n → Prop
  | .executorSlotEmpty => w.slotFilled cfg = false
  | .resourceMissing => w.gatesFilled cfg = false
  | .readyDepTimeout dep => dep ∈ cfg.readyDeps ∧ w.flag dep .ready = false
  | .spawn => w.isSettled j = false ∨
    ∃ sp, cfg.spawn = some sp ∧ (w.reset j).spawnAccepted cfg sp j = false
  | .shutdownTimeout | .restartStorm => False

theorem unsatisfied_of_blockedBy {w : World n} {cfg : NodeCfg n} {j : Fin n}
    {kind : FaultKind n} (h : g.blockedBy w cfg j = some kind) : Unsatisfied w cfg j kind := by
  unfold Graph.blockedBy at h
  split at h
  · next hslot =>
      cases h
      change w.slotFilled cfg = false
      simpa using (Bool.and_eq_true_iff.mp hslot).2
  · split at h
    · next hgates =>
        cases h
        change w.gatesFilled cfg = false
        simpa using (Bool.and_eq_true_iff.mp hgates).2
    · cases hready : (if g.has .readyDeps then cfg.readyDeps.find? fun d => !w.flag d .ready
        else none) with
      | some dep =>
          simp only [hready] at h
          cases h
          split at hready
          · exact ⟨List.mem_of_find?_eq_some hready, by simpa using List.find?_some hready⟩
          · cases hready
      | none =>
          simp only [hready] at h
          split at h
          · cases h
          · next hbusy =>
              cases h
              exact Or.inl (by simpa using hbusy)

variable {s s' : StartWave n} {w w' : World n} {j : Fin n} {todo : List (Fin n)}
  {round : Round} {cfg : NodeCfg n}

/-- A visit of an armed slot whose turn has come tries to bring it up. -/
theorem step_of_atTurn (h : AtTurn g s j todo round cfg) (harmed : s.armed j ≠ unarmed) :
    step g w s = some (s.bringUp g w cfg j todo round) := by
  have hdeps : (g.deps j).any s.pending = false := by simpa using h.deps
  simp [step, visit, h.pc, h.pending, h.cfg, hdeps, harmed]

/-- A slot that is not armed yet is not given up on. -/
theorem step_of_unarmed (h : AtTurn g s j todo round cfg) (harmed : s.armed j = unarmed)
    (hstep : step g w s = some (s', w')) :
    w'.log = (w.now, .note j .spawning) :: w.log ∨
      w'.log = (w.now, .note j .resumed) :: w.log := by
  have hdeps : (g.deps j).any s.pending = false := by simpa using h.deps
  simp only [step, visit, h.pc, h.pending, h.cfg, hdeps, harmed, Bool.not_true,
    Bool.false_eq_true, if_false, beq_self_eq_true, if_true, Option.some.injEq] at hstep
  split at hstep
  · cases hstep
    apply Or.inr
    simp
  · cases hstep
    exact Or.inl rfl

/-- A step that adds to the history visits a slot whose turn has come. -/
theorem atTurn_of_log {r : ℕ × Record n} (h : Step g w s s' w') (hlog : w'.log = r :: w.log) :
    ∃ j todo round cfg, AtTurn g s j todo round cfg := by
  have longer : w'.log ≠ w.log := by
    rw [hlog]
    exact List.cons_ne_self r w.log
  cases h with
  | arm h | resume h | mark h | park h | fault h | abort h | spawn h | busy h =>
      exact ⟨_, _, _, _, h⟩
  | finish => exact absurd rfl longer
  | turn _ hw => rcases hw with rfl | rfl <;> exact absurd rfl longer

/-- What a wave adds when a gate is not satisfied: nothing, or the fault of the spent
budget. -/
theorem log_unsatisfied (g : Graph n) (s : StartWave n) (u : World n) (cfg : NodeCfg n)
    (kind : FaultKind n) (j : Fin n) (todo : List (Fin n)) (round : Round) :
    (s.unsatisfied g u cfg kind j todo round).2.log = u.log ∨
      s.overdue g u cfg j = true ∧ (s.unsatisfied g u cfg kind j todo round).2.log =
        (u.now, .note j (.faulted kind)) :: u.log := by
  unfold unsatisfied
  split
  · next hdue =>
      apply Or.inr
      simp only
      split <;> exact ⟨hdue, rfl⟩
  · exact Or.inl rfl

/-- What a visit that tries to bring a slot up can add. -/
theorem log_bringUp (g : Graph n) (s : StartWave n) (w : World n) (cfg : NodeCfg n) (j : Fin n)
    (todo : List (Fin n)) (round : Round) :
    (s.bringUp g w cfg j todo round).2.log = w.log ∨
      (∃ t, (t = .started ∨ t = .resumed) ∧
        (s.bringUp g w cfg j todo round).2.log = (w.now, .note j t) :: w.log) ∨
      (s.bringUp g w cfg j todo round).2.log =
        (w.now, .note j .started) :: (w.now, .spawned j) :: w.log ∨
      s.overdue g w cfg j = true ∧
        ((∃ kind, Unsatisfied w cfg j kind ∧ (s.bringUp g w cfg j todo round).2.log =
            (w.now, .note j (.faulted kind)) :: w.log) ∨
          (∃ dep ∈ cfg.boundDeps, Unsatisfied w cfg j (.readyDepTimeout dep)) ∧
            (s.bringUp g w cfg j todo round).2.log = (w.now, .boundPark j) :: w.log) := by
  unfold bringUp
  cases hspawn : cfg.spawn with
  | none =>
      simp only
      exact Or.inr (Or.inl ⟨.started, Or.inl rfl, by simp⟩)
  | some sp =>
      simp only
      cases hblocked : g.blockedBy w cfg j with
      | none =>
          simp only
          unfold attempt
          simp only
          cases hlaunch : (w.reset j).spawn cfg sp j with
          | some u =>
              obtain ⟨-, rfl⟩ := World.spawn_eq_some.mp hlaunch
              simp only
              refine Or.inr (Or.inr (Or.inl ?_))
              simp
          | none =>
              have hrefused : (w.reset j).spawnAccepted cfg sp j = false := by
                simpa [World.spawn] using hlaunch
              simp only
              split
              · next hdue =>
                  rcases log_unsatisfied g s (w.reset j) cfg .spawn j todo round with h | ⟨-, h⟩
                  · exact Or.inl (by simpa using h)
                  · refine Or.inr (Or.inr (Or.inr ⟨hdue, Or.inl ⟨.spawn, ?_, ?_⟩⟩))
                    · exact Or.inr ⟨sp, hspawn, hrefused⟩
                    · simpa using h
              · apply Or.inl
                split <;> simp [World.requestPass]
      | some kind =>
          simp only
          have hgate := unsatisfied_of_blockedBy hblocked
          split
          · next hpark =>
              obtain ⟨hdue, hbound⟩ := Bool.and_eq_true_iff.mp hpark
              cases kind with
              | readyDepTimeout dep =>
                  refine Or.inr (Or.inr (Or.inr ⟨hdue, Or.inr ⟨⟨dep, ?_, hgate⟩, ?_⟩⟩))
                  · simpa [FaultKind.onBoundDep] using hbound
                  · simp
              | resourceMissing | executorSlotEmpty | spawn | shutdownTimeout | restartStorm =>
                  simp [FaultKind.onBoundDep] at hbound
          · rcases log_unsatisfied g s w cfg kind j todo round with h | ⟨hdue, h⟩
            · exact Or.inl h
            · exact Or.inr (Or.inr (Or.inr ⟨hdue, Or.inl ⟨kind, hgate, h⟩⟩))

/-! ## The account of a wave -/

/-- The budget of a node started where the history says so, when each selected dependency
of it had its verdict. -/
def BudgetStart (g : Graph n) (sel : Fin n → Bool) (w₀ : World n)
    (new : List (ℕ × Record n)) (j : Fin n) (stamp : ℕ) : Prop :=
  ∃ t later earlier, new = later ++ (t, .note j .spawning) :: earlier ∧
    (∀ d ∈ g.deps j, sel d = true → verdicts earlier d = 1) ∧ w₀.now ≤ t ∧
    stamp = min (g.asMillis (t - w₀.now)) (unarmed - 1)

theorem BudgetStart.later {sel : Fin n → Bool} {w₀ : World n} {new : List (ℕ × Record n)}
    {stamp : ℕ} (h : BudgetStart g sel w₀ new j stamp) (added : List (ℕ × Record n)) :
    BudgetStart g sel w₀ (added ++ new) j stamp := by
  obtain ⟨t, later, earlier, rfl, hrest⟩ := h
  exact ⟨t, added ++ later, earlier, by simp, hrest⟩

/-- A wave's own bookkeeping, against what was added to the history since it began. -/
structure Ledger (g : Graph n) (sel : Fin n → Bool) (w₀ : World n) (s : StartWave n)
    (w : World n) (new : List (ℕ × Record n)) : Prop where
  log : w.log = new ++ w₀.log
  epoch : s.epoch = w₀.now
  now : w₀.now ≤ w.now
  selected : ∀ j, s.pending j = true → sel j = true
  settled : ∀ j, verdicts new j = if sel j && !s.pending j then 1 else 0
  first : s.firstErr = firstFault new
  armed : ∀ j, s.pending j = true → s.armed j ≠ unarmed →
    BudgetStart g sel w₀ new j (s.armed j)
  waits : ∀ todo round, s.pc = .visit todo round → round.waiting = false →
    ∀ j ∉ todo, s.pending j = false
  finished : ∀ r, s.pc = .done r → r = s.firstErr ∧ ∀ j, s.pending j = false

/-- A fault has ended the wave. -/
def Aborted (s : StartWave n) : Prop := s.keepGoing = false ∧ ∃ f, s.pc = .done (some f)

/-- The account of a wave among the tasks. -/
def Kept (g : Graph n) (sel : Fin n → Bool) (w₀ : World n) (s : StartWave n) (w : World n) :
    Prop := Aborted s ∨ ∃ new, Ledger g sel w₀ s w new

theorem ledger_launch (w₀ : World n) (sel : Fin n → Bool) (keepGoing : Bool) :
    Ledger g sel w₀ (launch g w₀ sel keepGoing) w₀ [] where
  log := rfl
  epoch := rfl
  now := le_rfl
  selected _ h := h
  settled j := by
    cases h : sel j <;> simp [launch, verdicts, h]
  first := rfl
  armed j _ h := absurd rfl h
  waits todo round hpc _ j hj := by
    cases hpc
    exact absurd (g.mem_order j) hj
  finished r h := by cases h

section Ledger

variable {sel : Fin n → Bool} {w₀ : World n} {new : List (ℕ × Record n)}

/-- Idle entries and a move of the program point keep the account. -/
theorem Ledger.idle (hs : Ledger g sel w₀ s w new) {added : List (ℕ × Record n)}
    (hlog : w'.log = added ++ w.log) (hadded : Idle added) (hnow : w.now ≤ w'.now)
    {pc : StartPc n} {armed : Fin n → ℕ}
    (harmed : ∀ j, s.pending j = true → armed j ≠ unarmed →
      BudgetStart g sel w₀ (added ++ new) j (armed j))
    (hwaits : ∀ todo round, pc = .visit todo round → round.waiting = false →
      ∀ j ∉ todo, s.pending j = false)
    (hfinished : ∀ r, pc = .done r → r = s.firstErr ∧ ∀ j, s.pending j = false) :
    Ledger g sel w₀ { s with armed, pc } w' (added ++ new) where
  log := by rw [hlog, hs.log, List.append_assoc]
  epoch := hs.epoch
  now := hs.now.trans hnow
  selected := hs.selected
  settled j := by
    rw [verdicts_append, hadded.1 j, Nat.zero_add]
    exact hs.settled j
  first := by
    rw [firstFault_append, hadded.2, ← hs.first]
    cases s.firstErr <;> rfl
  armed := harmed
  waits := hwaits
  finished := hfinished

/-- The verdict on a slot settles it. -/
theorem Ledger.resolve (hs : Ledger g sel w₀ s w new) (h : AtTurn g s j todo round cfg)
    (added : List (ℕ × Record n)) (hlog : w'.log = added ++ w.log) (hnow : w'.now = w.now)
    (hverdict : ∀ i, verdicts added i = if i = j then 1 else 0) {armed : Fin n → ℕ}
    (harmed : ∀ i, i ≠ j → armed i = s.armed i) {firstErr : Outcome n}
    (hfirst : firstErr = s.firstErr.or (firstFault added)) :
    Ledger g sel w₀ { s.resolve j todo round with armed, firstErr } w' (added ++ new) where
  log := by rw [hlog, hs.log, List.append_assoc]
  epoch := hs.epoch
  now := hs.now.trans hnow.ge
  selected i hi := by
    by_cases hij : i = j
    · simp [StartWave.resolve, hij] at hi
    · exact hs.selected i (by simpa [StartWave.resolve, hij] using hi)
  settled i := by
    rw [verdicts_append, hverdict, hs.settled]
    by_cases hij : i = j
    · subst hij
      simp [StartWave.resolve, h.pending, hs.selected i h.pending]
    · simp [StartWave.resolve, hij]
  first := by rw [firstFault_append, ← hs.first, ← hfirst]
  armed i hi hiarmed := by
    by_cases hij : i = j
    · simp [StartWave.resolve, hij] at hi
    · have hsame := harmed i hij
      have hpend : s.pending i = true := by simpa [StartWave.resolve, hij] using hi
      have hstart := (hs.armed i hpend (by rwa [← hsame])).later added
      simpa only [hsame] using hstart
  waits todo' round' hpc hno i hi := by
    cases hpc
    by_cases hij : i = j
    · simp [StartWave.resolve, hij]
    · have hpend := hs.waits _ round h.pc hno i (by simp [hij, hi])
      simpa [StartWave.resolve, hij] using hpend
  finished r hr := by cases hr

/-- **A step of the wave keeps its account.** -/
theorem Kept.step (hs : Kept g sel w₀ s w) (hstep : step g w s = some (s', w')) :
    Kept g sel w₀ s' w' := by
  obtain ⟨-, f, hpc⟩ | ⟨new, hs⟩ := hs
  · simp [StartWave.step, hpc] at hstep
  have hone : ∀ (j : Fin n) (r : Record n), (∀ i, r.settles i = (j == i)) →
      ∀ i, verdicts [(w.now, r)] i = if i = j then 1 else 0 := by
    intro j r hr i
    by_cases hij : i = j
    · simp [verdicts, hr, hij]
    · simp [verdicts, hr, hij, Ne.symm hij]
  have hquiet : ∀ {added : List (ℕ × Record n)}, firstFault added = none →
      s.firstErr = s.firstErr.or (firstFault added) := by
    intro added h
    rw [h]
    exact Option.or_none.symm
  have hkeep : ∀ {added : List (ℕ × Record n)} (j : Fin n), s.pending j = true →
      s.armed j ≠ unarmed → BudgetStart g sel w₀ (added ++ new) j (s.armed j) :=
    fun j hj harmed => (hs.armed j hj harmed).later _
  have hidle : Idle (n := n) [] := ⟨fun _ => rfl, rfl⟩
  cases step_cases hstep with
  | @arm j todo round cfg h hfresh =>
      refine Or.inr ⟨[(w.now, .note j .spawning)] ++ new, ?_⟩
      have hlog : (w.note j .spawning).log = [(w.now, .note j .spawning)] ++ w.log := rfl
      refine hs.idle hlog (idle_of_forall ?_) le_rfl ?_ hs.waits hs.finished
      · simp [Record.settles, Record.fault]
      · intro i hi hiarmed
        by_cases hij : i = j
        · subst hij
          refine ⟨w.now, [], new, rfl, fun d hd hsel => ?_, hs.now, ?_⟩
          · rw [hs.settled, hsel, h.deps d hd]
            rfl
          · simp [clock, hs.epoch]
        · rw [Function.update_of_ne hij] at hiarmed ⊢
          exact hkeep i hi hiarmed
  | @resume j todo round cfg h =>
      refine Or.inr ⟨_, hs.resolve h [(w.now, .note j .resumed)] (by simp) (by simp)
        (hone j _ fun i => rfl) (fun i hi => Function.update_of_ne hi _ _) ?_⟩
      exact hquiet rfl
  | @mark j todo round cfg h =>
      refine Or.inr ⟨_, hs.resolve h [(w.now, .note j .started)] (by simp) (by simp)
        (hone j _ fun i => rfl) (fun i hi => rfl) ?_⟩
      exact hquiet rfl
  | @park j dep todo round cfg h =>
      refine Or.inr ⟨_, hs.resolve h [(w.now, .boundPark j)] (by simp) (by simp)
        (hone j _ fun i => rfl) (fun i hi => rfl) ?_⟩
      exact hquiet rfl
  | @spawn j todo round cfg sp h =>
      refine Or.inr ⟨_, hs.resolve h [(w.now, .note j .started), (w.now, .spawned j)] (by simp)
        (by simp) (fun i => ?_) (fun i hi => rfl) ?_⟩
      · have hstarted := hone j (.note j .started) (fun i => rfl) i
        have hspawned : verdicts [(w.now, .spawned j)] i = 0 := rfl
        rw [← hstarted, ← List.singleton_append, verdicts_append, hspawned]
        rfl
      · exact hquiet rfl
  | @fault j todo round cfg kind u h hw =>
      have hlog : u.log = w.log ∧ u.now = w.now := by rcases hw with rfl | rfl <;> simp
      refine Or.inr ⟨_, hs.resolve h [(w.now, .note j (.faulted kind))] ?_ ?_
        (hone j _ fun i => rfl) (fun i hi => rfl) ?_⟩
      · simp [hlog]
      · exact hlog.2
      · rfl
  | @abort j todo round cfg kind u h hw hkind hdue hkeep =>
      exact Or.inl ⟨hkeep, _, rfl⟩
  | @busy j todo round round' cfg u h hwait hw =>
      have hlog : w'.log = [] ++ w.log ∧ w'.now = w.now := by
        rcases hw with rfl | ⟨slot, rfl⟩ <;> simp
      refine Or.inr ⟨[] ++ new, hs.idle hlog.1 hidle hlog.2.ge hkeep ?_ nofun⟩
      intro todo' round'' hpc hno
      cases hpc
      rw [hwait] at hno
      cases hno
  | @finish round hpc hwait =>
      refine Or.inr ⟨[] ++ new, hs.idle (List.nil_append _).symm hidle le_rfl hkeep nofun ?_⟩
      intro r hr
      cases hr
      exact ⟨rfl, fun j => hs.waits [] round hpc hwait j List.not_mem_nil⟩
  | @turn pc u hturn hw =>
      have hlog : w'.log = [] ++ w.log ∧ w'.now = w.now := by rcases hw with rfl | rfl <;> simp
      refine Or.inr ⟨[] ++ new, hs.idle hlog.1 hidle hlog.2.ge hkeep ?_ ?_⟩
      · intro todo' round' hpc hno
        cases hturn with
        | @skip j todo round hpc' hpend =>
            cases hpc
            intro i hi
            by_cases hij : i = j
            · rw [hij]
              exact hpend
            · exact hs.waits _ _ hpc' hno i fun hmem => (List.mem_cons.mp hmem).elim hij hi
        | defer hwait =>
            cases hpc
            rw [hwait] at hno
            cases hno
        | again =>
            cases hpc
            exact fun i hi => absurd (g.mem_order i) hi
        | yield | sleep | panic => cases hpc
      · intro r hr
        cases hturn <;> cases hr

theorem Kept.event (hs : Kept g sel w₀ s w) (h : TaskEvent.Effect g w w') :
    Kept g sel w₀ s w' := by
  obtain haborted | ⟨new, hs⟩ := hs
  · exact Or.inl haborted
  · obtain ⟨later, hlater, hidle⟩ := idle_of_events h
    exact Or.inr ⟨later ++ new, hs.idle hlater hidle h.now_le
      (fun j hj harmed => (hs.armed j hj harmed).later later) hs.waits hs.finished⟩

end Ledger

/-- The budget of the node is spent, on the clock of the wave that began in `w₀`: it started
when the selected dependencies of the node had their verdicts, and `slotTimeout` of it has
passed. -/
def Spent (g : Graph n) (sel : Fin n → Bool) (w₀ w : World n) (cfg : NodeCfg n) (j : Fin n) :
    Prop :=
  ∃ new stamp, w.log = new ++ w₀.log ∧ BudgetStart g sel w₀ new j stamp ∧
    stamp + g.asMillis cfg.slotTimeout ≤ g.asMillis (w.now - w₀.now)

theorem Ledger.spent {sel : Fin n → Bool} {w₀ : World n} {new : List (ℕ × Record n)}
    (hs : Ledger g sel w₀ s w new) (h : AtTurn g s j todo round cfg)
    (harmed : s.armed j ≠ unarmed) (hdue : s.overdue g w cfg j = true) :
    Spent g sel w₀ w cfg j := by
  refine ⟨new, s.armed j, hs.log, hs.armed j h.pending harmed, ?_⟩
  simpa [overdue, clock, hs.epoch] using hdue

/-- **A verdict against a node is justified**: the budget of the node is spent, and the gate
that is named does not hold. -/
theorem Ledger.reported {sel : Fin n → Bool} {w₀ : World n} {new : List (ℕ × Record n)}
    (hs : Ledger g sel w₀ s w new) (hstep : step g w s = some (s', w')) {r : Record n}
    (hr : r.fault ≠ none ∨ ∃ i, r = .boundPark i) (hlog : w'.log = (w.now, r) :: w.log) :
    ∃ i cfg, g.nodes i = some cfg ∧ Spent g sel w₀ w cfg i ∧
      ((∃ kind, Unsatisfied w cfg i kind ∧ r = .note i (.faulted kind)) ∨
        (∃ dep ∈ cfg.boundDeps, Unsatisfied w cfg i (.readyDepTimeout dep)) ∧
          r = .boundPark i) := by
  obtain ⟨i, todo, round, cfg, hturn⟩ := atTurn_of_log (step_cases hstep) hlog
  have same : ∀ {r' : Record n} {rest : List (ℕ × Record n)},
      w'.log = (w.now, r') :: rest → r = r' := by
    intro r' rest h
    rw [hlog] at h
    exact (Prod.mk.inj (List.cons.inj h).1).2
  by_cases harmed : s.armed i = unarmed
  · rcases step_of_unarmed hturn harmed hstep with h | h
    all_goals
      obtain rfl := same h
      simp [Record.fault] at hr
  · have hbring := step_of_atTurn (w := w) hturn harmed
    rw [hstep] at hbring
    have hw' : w' = (s.bringUp g w cfg i todo round).2 :=
      congrArg Prod.snd (Option.some.inj hbring)
    have hcases := log_bringUp g s w cfg i todo round
    rw [← hw'] at hcases
    rcases hcases with h | ⟨t, ht, h⟩ | h | ⟨hdue, h⟩
    · exact absurd (hlog.symm.trans h) (List.cons_ne_self _ _)
    · obtain rfl := same h
      rcases ht with rfl | rfl <;> simp [Record.fault] at hr
    · obtain rfl := same h
      simp [Record.fault] at hr
    · refine ⟨i, cfg, hturn.cfg, hs.spent hturn harmed hdue, ?_⟩
      rcases h with ⟨kind, hgate, h⟩ | ⟨hgate, h⟩
      · exact Or.inl ⟨kind, hgate, same h⟩
      · exact Or.inr ⟨hgate, same h⟩

end StartWave

open StartWave in
/-- **The faults of a start wave.** In every run of a start wave among the tasks, a node is
given up on, or parked for a bound provider, only where its budget is spent on the wave's
clock and the gate that is named does not hold. A node whose gates hold and whose spawn is
accepted is spawned, whatever is left of its budget. A wave that keeps going has one verdict
on each selected node when it returns, none on any other, and returns the first fault. -/
theorem startWave_faults (g : Graph n) (w₀ : World n) (sel : Fin n → Bool) (keepGoing : Bool)
    {moves : List (Move n)} {s : StartWave n} {w : World n}
    (hrun : exec (among g (step g)) (launch g w₀ sel keepGoing, w₀) moves = some (s, w)) :
    (∀ s' w' j, step g w s = some (s', w') →
      (∀ kind, w'.log = (w.now, .note j (.faulted kind)) :: w.log → ∃ cfg,
        g.nodes j = some cfg ∧ Spent g sel w₀ w cfg j ∧
          Unsatisfied w cfg j kind) ∧
      (w'.log = (w.now, .boundPark j) :: w.log → ∃ cfg,
        g.nodes j = some cfg ∧ Spent g sel w₀ w cfg j ∧
          ∃ dep ∈ cfg.boundDeps, Unsatisfied w cfg j (.readyDepTimeout dep))) ∧
    (∀ j todo round cfg sp, AtTurn g s j todo round cfg → s.armed j ≠ unarmed →
      cfg.spawn = some sp → g.blockedBy w cfg j = none →
        (w.reset j).spawnAccepted cfg sp j = true →
          step g w s = some (s.resolve j todo round, ((w.reset j).launch sp j).started j)) ∧
    (keepGoing = true → ∀ r, s.pc = .done r → ∃ new, w.log = new ++ w₀.log ∧
      (∀ j, verdicts new j = if sel j then 1 else 0) ∧ r = firstFault new) := by
  have hkeep : s.keepGoing = keepGoing := among_invariant
    (I := fun (s : StartWave n) _ => s.keepGoing = keepGoing)
    (fun _ _ _ _ hs hstep => (step_cases hstep).static.1.trans hs) (fun _ _ _ hs _ => hs) rfl hrun
  have hkept : Kept g sel w₀ s w := among_invariant (fun _ _ _ _ hs hstep => hs.step hstep)
    (fun _ _ _ hs he => hs.event he) (Or.inr ⟨[], ledger_launch w₀ sel keepGoing⟩) hrun
  refine ⟨fun s' w' j hstep => ?_, fun j todo round cfg sp h harmed hspawn hgates haccept => ?_,
    fun hgo r hdone => ?_⟩
  · have hledger : ∀ r, w'.log = r :: w.log → ∃ new, Ledger g sel w₀ s w new := by
      intro r hlog
      obtain ⟨i, todo, round, cfg, hturn⟩ := atTurn_of_log (step_cases hstep) hlog
      obtain ⟨-, f, hpc⟩ | hledger := hkept
      · cases hturn.pc.symm.trans hpc
      · exact hledger
    constructor
    · intro kind hlog
      obtain ⟨new, hs⟩ := hledger _ hlog
      obtain ⟨i, cfg, hcfg, hspent, ⟨_, hgate, hr⟩ | ⟨-, hr⟩⟩ :=
        hs.reported hstep (Or.inl (by simp [Record.fault])) hlog
      · cases hr
        exact ⟨cfg, hcfg, hspent, hgate⟩
      · cases hr
    · intro hlog
      obtain ⟨new, hs⟩ := hledger _ hlog
      obtain ⟨i, cfg, hcfg, hspent, ⟨_, -, hr⟩ | ⟨hgate, hr⟩⟩ :=
        hs.reported hstep (Or.inr ⟨j, rfl⟩) hlog
      · cases hr
      · cases hr
        exact ⟨cfg, hcfg, hspent, hgate⟩
  · rw [step_of_atTurn h harmed]
    simp [bringUp, hspawn, hgates, attempt, World.spawn, haccept]
  · obtain ⟨haborted, -⟩ | ⟨new, hs⟩ := hkept
    · rw [hkeep, hgo] at haborted
      cases haborted
    · obtain ⟨rfl, hnone⟩ := hs.finished r hdone
      refine ⟨new, hs.log, fun j => ?_, hs.first⟩
      rw [hs.settled, hnone j]
      simp

/-- A node that takes a resource nobody has provided. -/
def starved : Graph 1 where
  deps _ := []
  order := [0]
  topological := topological_one
  nodes _ := some { mode := .terminate, spawn := some .fn, resourceGates := [0],
                    slotTimeout := 5000000, ackTimeout := 2000000 }
  shape_sound _ cfg _ := cfg.fitsShape_all
  pools_sound := pools_sound_one

/-- The wave visits the node after `lag` ticks and sleeps until its budget is spent. -/
def starvedMoves (lag : ℕ) : List (Move 1) :=
  [.event (.elapse lag)] ++ List.replicate 3 .own ++ [.event (.elapse (5000000 - lag))] ++
    [.own]

def starvedRun (lag : ℕ) (after : List (Move 1)) : Option (StartWave 1 × World 1) :=
  exec (among starved (StartWave.step starved))
    (StartWave.launch starved { node := fun _ => {} } (fun _ => true) true,
      { node := fun _ => {} }) (starvedMoves lag ++ after)

theorem startWave_faults_starved : ∃ new, verdicts new 0 = 1 ∧
    ((starvedRun 0 [.own, .own]).get rfl).2.log = new := by
  have hrun : starvedRun 0 [.own, .own] = some ((starvedRun 0 [.own, .own]).get rfl) :=
    (Option.some_get _).symm
  obtain ⟨new, hlog, hverdicts, -⟩ :=
    (startWave_faults starved { node := fun _ => {} } (fun _ => true) true hrun).2.2 rfl _ rfl
  exact ⟨new, hverdicts 0, hlog.trans (List.append_nil new)⟩

/-- A budget that starts within a millisecond is spent up to a millisecond early. -/
theorem fault_early : ¬ ∀ (moves : List (Move 1)) (s s' : StartWave 1) (w w' : World 1)
    (kind : FaultKind 1),
    exec (among starved (StartWave.step starved))
        (StartWave.launch starved { node := fun _ => {} } (fun _ => true) true,
          { node := fun _ => {} }) moves = some (s, w) →
      StartWave.step starved w s = some (s', w') →
        w'.log = (w.now, .note 0 (.faulted kind)) :: w.log →
          ∃ t, (t, .note 0 .spawning) ∈ w.log ∧ t + 5000000 ≤ w.now := by
  intro h
  have hrun : starvedRun 999 [] = some ((starvedRun 999 []).get rfl) := (Option.some_get _).symm
  have hnext : StartWave.step starved ((starvedRun 999 []).get rfl).2
      ((starvedRun 999 []).get rfl).1 =
        some ((StartWave.step starved ((starvedRun 999 []).get rfl).2
          ((starvedRun 999 []).get rfl).1).get rfl) := (Option.some_get _).symm
  obtain ⟨t, hmem, hpassed⟩ := h _ _ _ _ _ .resourceMissing hrun hnext rfl
  have hmem : (t, .note 0 .spawning) ∈ [(999, Record.note (0 : Fin 1) .spawning)] := hmem
  have hpassed : t + 5000000 ≤ 5000000 := hpassed
  simp only [List.mem_singleton, Prod.mk.injEq, and_true] at hmem
  omega

end EmbassySupervisor
