/-
# The up direction as a wave

`start_nodes` visits the pending nodes in dependency order, round after round: a
node whose dependencies have resolved starts its gate budget, and is then
resumed in place, only marked, deferred, parked for a bound provider, faulted or
spawned. Between rounds the wave parks on the gate event, or yields once for a
`Busy` spawn on its own executor.

As for the stop wave, a step is one visit; the visit that starts a node's budget
without resuming it is a step of its own. The gates of a node are tested in the
source's order by `blockedBy`, and `step_cases` says what a step can do.
-/

import EmbassySupervisor.Node.TaskEvent

namespace EmbassySupervisor

variable {n : ℕ}

/-- The stamp of a slot whose gate budget has not started, `u32::MAX`. -/
def unarmed : ℕ := 2 ^ 32 - 1

/-- The fault names a dependency the node is bound to. -/
def FaultKind.onBoundDep (kind : FaultKind n) (cfg : NodeCfg n) : Bool :=
  match kind with
  | .readyDepTimeout dep => cfg.boundDeps.contains dep
  | _ => false

/-- The first gate that keeps a node from being spawned, as the fault it would
be reported as: executor slot, resources, ready dependencies, resident shell. -/
def Graph.blockedBy (g : Graph n) (w : World n) (cfg : NodeCfg n) (j : Fin n) :
    Option (FaultKind n) :=
  if g.has .execSlots && !w.slotFilled cfg then some .executorSlotEmpty
  else if g.has .resources && !w.gatesFilled cfg then some .resourceMissing
  else
    let unready := if g.has .readyDeps then cfg.readyDeps.find? fun d => !w.flag d .ready
      else none
    match unready with
    | some dep => some (.readyDepTimeout dep)
    | none => if w.isSettled j then none else some .spawn

/-- What a round has seen so far: a node changed, a node waits, a `Busy` spawn on
the supervisor's own executor. -/
structure Round where
  progress : Bool := false
  waiting : Bool := false
  ownPass : Bool := false
  deriving DecidableEq, Repr

/-- Where a start wave is. -/
inductive StartPc (n : ℕ)
  | visit (todo : List (Fin n)) (round : Round)
  | yield
  | sleep (deadline : ℕ)
  | panic
  | done (r : Outcome n)
  deriving DecidableEq, Repr

/-- A start wave in flight. -/
structure StartWave (n : ℕ) where
  pending : Fin n → Bool
  keepGoing : Bool
  epoch : ℕ
  armed : Fin n → ℕ := fun _ => unarmed
  firstErr : Outcome n := none
  pc : StartPc n

namespace StartWave

/-- A wave over the selected slots, at the start of its first round. -/
def launch (g : Graph n) (w : World n) (pending : Fin n → Bool) (keepGoing : Bool) :
    StartWave n :=
  { pending, keepGoing, epoch := w.now, pc := .visit g.order {} }

variable (g : Graph n) (w : World n) (s : StartWave n)

/-- The wave's clock, in whole milliseconds since it began. -/
def clock : ℕ := g.asMillis (w.now - s.epoch)

/-- The node's gate budget is spent. -/
def overdue (cfg : NodeCfg n) (j : Fin n) : Bool :=
  s.armed j + g.asMillis cfg.slotTimeout ≤ s.clock g w

/-- The slot needs no further visit. -/
def resolve (j : Fin n) (todo : List (Fin n)) (round : Round) : StartWave n :=
  { s with
    pending := Function.update s.pending j false
    pc := .visit todo { round with progress := true } }

/-- The slot waits for the next round. -/
def defer (todo : List (Fin n)) (round : Round) : StartWave n :=
  { s with pc := .visit todo { round with waiting := true } }

/-- A gate is not satisfied: the slot is deferred, or faulted once its budget is
spent, which ends the wave unless it keeps going. -/
def unsatisfied (cfg : NodeCfg n) (kind : FaultKind n) (j : Fin n)
    (todo : List (Fin n)) (round : Round) : StartWave n × World n :=
  if s.overdue g w cfg j then
    let fault : NodeFault n := { node := j, kind }
    let w := w.note j (.faulted kind)
    if s.keepGoing then
      ({ s.resolve j todo round with firstErr := s.firstErr.or (some fault) }, w)
    else ({ s with pc := .done (some fault) }, w)
  else (s.defer todo round, w)

/-- Reset and spawn; a `Busy` executor is asked for a pass. -/
def attempt (cfg : NodeCfg n) (sp : Spawn) (j : Fin n) (todo : List (Fin n))
    (round : Round) : StartWave n × World n :=
  let w := w.reset j
  match w.spawn cfg sp j with
  | some w => (s.resolve j todo round, w.started j)
  | none =>
    if s.overdue g w cfg j then s.unsatisfied g w cfg .spawn j todo round
    else
      match cfg.spawnSlot with
      | some slot => (s.defer todo round, w.requestPass slot)
      | none => (s.defer todo { round with ownPass := true }, w)

/-- Bring an armed slot up if its gates allow. -/
def bringUp (cfg : NodeCfg n) (j : Fin n) (todo : List (Fin n)) (round : Round) :
    StartWave n × World n :=
  match cfg.spawn with
  | none => (s.resolve j todo round, w.markStarted j)
  | some sp =>
    match g.blockedBy w cfg j with
    | none => s.attempt g w cfg sp j todo round
    | some kind =>
      if s.overdue g w cfg j && kind.onBoundDep cfg then
        (s.resolve j todo round, w.boundPark j)
      else s.unsatisfied g w cfg kind j todo round

/-- Visit a slot: it may not be pending, or wait for a dependency; its budget
starts with its first visit after that, when a parked instance is resumed. -/
def visit (j : Fin n) (todo : List (Fin n)) (round : Round) : StartWave n × World n :=
  if !s.pending j then ({ s with pc := .visit todo round }, w)
  else
    match g.nodes j with
    | none => ({ s with pc := .panic }, w)
    | some cfg =>
      if (g.deps j).any s.pending then (s.defer todo round, w)
      else if s.armed j == unarmed then
        let s := { s with armed := Function.update s.armed j (min (s.clock g w) (unarmed - 1)) }
        if g.has .pause && cfg.mode == .pause && w.hasAckedStop j then
          (s.resolve j todo round, (w.resume j).putFlag j .boundStopped false)
        else (s, w.note j .spawning)
      else s.bringUp g w cfg j todo round

/-- The first instant, on the wave's clock, at which a pending slot's budget is
spent. -/
def deadlineMs : Option ℕ :=
  ((g.order.filter fun j => s.pending j && s.armed j != unarmed).mapM fun j =>
    (g.nodes j).map fun cfg => s.armed j + g.asMillis cfg.slotTimeout).bind List.min?

/-- One visit, the end of a round, or one wake-up. -/
def step (w : World n) (s : StartWave n) : Option (StartWave n × World n) :=
  match s.pc with
  | .visit (j :: todo) round => some (visit g w s j todo round)
  | .visit [] round =>
    if !round.waiting then some ({ s with pc := .done s.firstErr }, w)
    else if round.progress then some ({ s with pc := .visit g.order {} }, w)
    else if round.ownPass then some ({ s with pc := .yield }, w)
    else
      match s.deadlineMs g with
      | none => some ({ s with pc := .panic }, w)
      | some ms => some ({ s with pc := .sleep (s.epoch + g.fromMillis ms) }, w)
  | .yield => some ({ s with pc := .visit g.order {} }, w)
  | .sleep d =>
    if w.gateEvt then
      some ({ s with pc := .visit g.order {} }, { w with gateEvt := false })
    else if d ≤ w.now then some ({ s with pc := .visit g.order {} }, w)
    else none
  | .panic | .done _ => none

/-! ## What a step can do -/

/-- The wave visits a pending slot none of whose dependencies is pending. -/
structure AtTurn (g : Graph n) (s : StartWave n) (j : Fin n) (todo : List (Fin n))
    (round : Round) (cfg : NodeCfg n) : Prop where
  pc : s.pc = .visit (j :: todo) round
  pending : s.pending j = true
  cfg : g.nodes j = some cfg
  deps : ∀ d ∈ g.deps j, s.pending d = false

/-- The program points a step that settles nothing can lead to. -/
inductive Turn (g : Graph n) (s : StartWave n) : StartPc n → Prop
  | skip {j : Fin n} {todo : List (Fin n)} {round : Round}
      (hpc : s.pc = .visit (j :: todo) round) (hpend : s.pending j = false) :
      Turn g s (.visit todo round)
  | defer {todo : List (Fin n)} {round : Round} (hwait : round.waiting = true) :
      Turn g s (.visit todo round)
  | again : Turn g s (.visit g.order {})
  | yield : Turn g s .yield
  | sleep (d : ℕ) : Turn g s (.sleep d)
  | panic : Turn g s .panic

/-- The effects of one step, with the conditions under which each happens. -/
inductive Step (g : Graph n) (w : World n) (s : StartWave n) : StartWave n → World n → Prop
  | arm {j : Fin n} {todo : List (Fin n)} {round : Round} {cfg : NodeCfg n}
      (h : AtTurn g s j todo round cfg) (hfresh : s.armed j = unarmed) :
      Step g w s
        { s with armed := Function.update s.armed j (min (s.clock g w) (unarmed - 1)) }
        (w.note j .spawning)
  | resume {j : Fin n} {todo : List (Fin n)} {round : Round} {cfg : NodeCfg n}
      (h : AtTurn g s j todo round cfg) (hmode : cfg.mode = .pause)
      (hacked : w.hasAckedStop j = true) :
      Step g w s
        { s.resolve j todo round with
          armed := Function.update s.armed j (min (s.clock g w) (unarmed - 1)) }
        ((w.resume j).putFlag j .boundStopped false)
  | mark {j : Fin n} {todo : List (Fin n)} {round : Round} {cfg : NodeCfg n}
      (h : AtTurn g s j todo round cfg) (hspawn : cfg.spawn = none)
      (harmed : s.armed j ≠ unarmed) :
      Step g w s (s.resolve j todo round) (w.markStarted j)
  | park {j dep : Fin n} {todo : List (Fin n)} {round : Round} {cfg : NodeCfg n}
      (h : AtTurn g s j todo round cfg)
      (hblocked : g.blockedBy w cfg j = some (.readyDepTimeout dep))
      (hbound : dep ∈ cfg.boundDeps) (hdue : s.overdue g w cfg j = true) :
      Step g w s (s.resolve j todo round) (w.boundPark j)
  | fault {j : Fin n} {todo : List (Fin n)} {round : Round} {cfg : NodeCfg n}
      {kind : FaultKind n} {w₁ : World n} (h : AtTurn g s j todo round cfg)
      (hw : w₁ = w ∨ w₁ = w.reset j) (hkind : kind ≠ .shutdownTimeout)
      (hdue : s.overdue g w cfg j = true) (hkeep : s.keepGoing = true) :
      Step g w s
        { s.resolve j todo round with firstErr := s.firstErr.or (some { node := j, kind }) }
        (w₁.note j (.faulted kind))
  | abort {j : Fin n} {todo : List (Fin n)} {round : Round} {cfg : NodeCfg n}
      {kind : FaultKind n} {w₁ : World n} (h : AtTurn g s j todo round cfg)
      (hw : w₁ = w ∨ w₁ = w.reset j) (hkind : kind ≠ .shutdownTimeout)
      (hdue : s.overdue g w cfg j = true) (hkeep : s.keepGoing = false) :
      Step g w s { s with pc := .done (some { node := j, kind }) } (w₁.note j (.faulted kind))
  | spawn {j : Fin n} {todo : List (Fin n)} {round : Round} {cfg : NodeCfg n} {sp : Spawn}
      (h : AtTurn g s j todo round cfg) (hspawn : cfg.spawn = some sp)
      (hgates : g.blockedBy w cfg j = none)
      (haccept : (w.reset j).spawnAccepted cfg sp j = true) :
      Step g w s (s.resolve j todo round) (((w.reset j).launch sp j).started j)
  | busy {j : Fin n} {todo : List (Fin n)} {round round' : Round} {cfg : NodeCfg n}
      {w' : World n} (h : AtTurn g s j todo round cfg) (hwait : round'.waiting = true)
      (hw : w' = w.reset j ∨ ∃ slot, w' = (w.reset j).requestPass slot) :
      Step g w s { s with pc := .visit todo round' } w'
  | finish {round : Round} (hpc : s.pc = .visit [] round) (hwait : round.waiting = false) :
      Step g w s { s with pc := .done s.firstErr } w
  | turn {pc : StartPc n} {w' : World n} (hturn : Turn g s pc)
      (hw : w' = w ∨ w' = { w with gateEvt := false }) : Step g w s { s with pc := pc } w'

/-- No gate is reported as a missed acknowledgement. -/
private theorem ne_of_blockedBy {g : Graph n} {w : World n} {cfg : NodeCfg n} {j : Fin n}
    {kind : FaultKind n} (h : g.blockedBy w cfg j = some kind) : kind ≠ .shutdownTimeout := by
  intro hkind
  subst hkind
  unfold Graph.blockedBy at h
  by_cases hslot : (g.has .execSlots && !w.slotFilled cfg) = true
  · simp [hslot] at h
  by_cases hres : (g.has .resources && !w.gatesFilled cfg) = true
  · simp [hslot, hres] at h
  simp only [if_neg hslot, if_neg hres] at h
  generalize (if g.has .readyDeps then cfg.readyDeps.find? fun d => !w.flag d .ready
    else none) = unready at h
  cases unready with
  | some dep => simp at h
  | none => by_cases hsettled : w.isSettled j = true <;> simp [hsettled] at h

private theorem unsatisfied_cases {g : Graph n} {w w₁ : World n} {s : StartWave n}
    {cfg : NodeCfg n} {kind : FaultKind n} {j : Fin n} {todo : List (Fin n)} {round : Round}
    (h : AtTurn g s j todo round cfg) (hw : w₁ = w ∨ w₁ = w.reset j)
    (hkind : kind ≠ .shutdownTimeout) (hdue : s.overdue g w cfg j = true) :
    Step g w s (s.unsatisfied g w₁ cfg kind j todo round).1
      (s.unsatisfied g w₁ cfg kind j todo round).2 := by
  have hdue' : s.overdue g w₁ cfg j = true := by rcases hw with rfl | rfl <;> exact hdue
  unfold unsatisfied
  rw [if_pos hdue']
  by_cases hkeep : s.keepGoing = true
  · simp only [if_pos hkeep]
    exact .fault h hw hkind hdue hkeep
  · simp only [if_neg hkeep]
    exact .abort h hw hkind hdue (by simpa using hkeep)

private theorem attempt_cases {g : Graph n} {w : World n} {s : StartWave n}
    {cfg : NodeCfg n} {sp : Spawn} {j : Fin n} {todo : List (Fin n)} {round : Round}
    (h : AtTurn g s j todo round cfg) (hspawn : cfg.spawn = some sp)
    (hgates : g.blockedBy w cfg j = none) :
    Step g w s (s.attempt g w cfg sp j todo round).1 (s.attempt g w cfg sp j todo round).2 := by
  unfold attempt
  cases hlaunch : (w.reset j).spawn cfg sp j with
  | some w' =>
      simp only [hlaunch]
      obtain ⟨haccept, rfl⟩ := World.spawn_eq_some.mp hlaunch
      exact .spawn h hspawn hgates haccept
  | none =>
      simp only [hlaunch]
      by_cases hdue : s.overdue g w cfg j = true
      · have hdue' : s.overdue g (w.reset j) cfg j = true := hdue
        simp only [if_pos hdue']
        exact unsatisfied_cases h (Or.inr rfl) (by simp) hdue
      · have hdue' : ¬ s.overdue g (w.reset j) cfg j = true := hdue
        simp only [if_neg hdue']
        cases cfg.spawnSlot with
        | none =>
            refine .busy h ?_ (Or.inl rfl)
            rfl
        | some slot =>
            refine .busy h ?_ (Or.inr ⟨slot, rfl⟩)
            rfl

private theorem bringUp_cases {g : Graph n} {w : World n} {s : StartWave n}
    {cfg : NodeCfg n} {j : Fin n} {todo : List (Fin n)} {round : Round}
    (h : AtTurn g s j todo round cfg) (harmed : s.armed j ≠ unarmed) :
    Step g w s (s.bringUp g w cfg j todo round).1 (s.bringUp g w cfg j todo round).2 := by
  unfold bringUp
  cases hspawn : cfg.spawn with
  | none => exact .mark h hspawn harmed
  | some sp =>
      cases hblocked : g.blockedBy w cfg j with
      | none => exact attempt_cases h hspawn hblocked
      | some kind =>
          by_cases hpark : (s.overdue g w cfg j && kind.onBoundDep cfg) = true
          · simp only [if_pos hpark]
            obtain ⟨hdue, hbound⟩ := Bool.and_eq_true_iff.mp hpark
            cases kind with
            | readyDepTimeout dep =>
                exact .park h hblocked (by simpa [FaultKind.onBoundDep] using hbound) hdue
            | resourceMissing | executorSlotEmpty | spawn | shutdownTimeout | restartStorm =>
                simp [FaultKind.onBoundDep] at hbound
          · simp only [if_neg hpark]
            by_cases hdue : s.overdue g w cfg j = true
            · exact unsatisfied_cases h (Or.inl rfl) (ne_of_blockedBy hblocked) hdue
            · unfold unsatisfied
              rw [if_neg hdue]
              exact .turn (.defer rfl) (Or.inl rfl)

private theorem visit_cases {g : Graph n} {w : World n} {s : StartWave n} {j : Fin n}
    {todo : List (Fin n)} {round : Round} (hpc : s.pc = .visit (j :: todo) round) :
    Step g w s (visit g w s j todo round).1 (visit g w s j todo round).2 := by
  unfold visit
  by_cases hpend : s.pending j = true
  · rw [if_neg (by simp [hpend])]
    cases hcfg : g.nodes j with
    | none => exact .turn .panic (Or.inl rfl)
    | some cfg =>
        by_cases hdeps : (g.deps j).any s.pending = true
        · simp only [if_pos hdeps]
          exact .turn (.defer rfl) (Or.inl rfl)
        · have hturn : AtTurn g s j todo round cfg :=
            ⟨hpc, hpend, hcfg, by simpa using hdeps⟩
          simp only [if_neg hdeps]
          by_cases hfresh : (s.armed j == unarmed) = true
          · simp only [if_pos hfresh]
            split
            case isTrue hresume =>
              simp only [Bool.and_eq_true, beq_iff_eq] at hresume
              exact .resume hturn hresume.1.2 hresume.2
            case isFalse => exact .arm hturn (by simpa using hfresh)
          · simp only [if_neg hfresh]
            exact bringUp_cases hturn (by simpa using hfresh)
  · rw [if_pos (by simpa using hpend)]
    exact .turn (.skip hpc (by simpa using hpend)) (Or.inl rfl)

/-- **Inversion of a step of a start wave.** -/
theorem step_cases {g : Graph n} {w w' : World n} {s s' : StartWave n}
    (h : step g w s = some (s', w')) : Step g w s s' w' := by
  unfold step at h
  cases hpc : s.pc with
  | visit todo round =>
      rw [hpc] at h
      cases todo with
      | nil =>
          simp only at h
          by_cases hwait : (!round.waiting) = true
          · rw [if_pos hwait] at h
            cases h
            exact .finish hpc (by simpa using hwait)
          · rw [if_neg hwait] at h
            by_cases hprogress : round.progress = true
            · rw [if_pos hprogress] at h
              cases h
              exact .turn .again (Or.inl rfl)
            · rw [if_neg hprogress] at h
              by_cases hown : round.ownPass = true
              · rw [if_pos hown] at h
                cases h
                exact .turn .yield (Or.inl rfl)
              · rw [if_neg hown] at h
                cases hms : s.deadlineMs g with
                | none =>
                    rw [hms] at h
                    cases h
                    exact .turn .panic (Or.inl rfl)
                | some ms =>
                    rw [hms] at h
                    cases h
                    exact .turn (.sleep _) (Or.inl rfl)
      | cons j todo =>
          have hvisit := visit_cases (w := w) (g := g) hpc
          rwa [Option.some.inj h] at hvisit
  | yield =>
      rw [hpc] at h
      cases h
      exact .turn .again (Or.inl rfl)
  | sleep d =>
      rw [hpc] at h
      by_cases hevt : w.gateEvt = true
      · simp only [hevt, if_true] at h
        cases h
        exact .turn .again (Or.inr rfl)
      · by_cases hdue : d ≤ w.now
        · simp only [hevt, hdue, if_true] at h
          cases h
          exact .turn .again (Or.inl rfl)
        · simp [hevt, hdue] at h
  | panic =>
      rw [hpc] at h
      simp at h
  | done r =>
      rw [hpc] at h
      simp at h

/-! ## What a step leaves alone -/

namespace Step

variable {g : Graph n} {w w' : World n} {s s' : StartWave n}

theorem static (h : Step g w s s' w') : s'.keepGoing = s.keepGoing ∧ s'.epoch = s.epoch := by
  cases h <;> exact ⟨rfl, rfl⟩

/-- No slot becomes pending. -/
theorem pending_of_pending (h : Step g w s s' w') {i : Fin n}
    (hi : s'.pending i = true) : s.pending i = true := by
  cases h with
  | @resume j | @mark j | @park j | @fault j | @spawn j =>
      by_cases hij : i = j
      · simp [resolve, hij] at hi
      · simpa [resolve, Function.update_of_ne hij] using hi
  | arm | abort | busy | finish | turn => exact hi

theorem now_eq (h : Step g w s s' w') : w'.now = w.now := by
  cases h with
  | arm | resume | mark | park | spawn | finish => simp
  | fault _ hw | abort _ hw => rcases hw with rfl | rfl <;> simp
  | busy _ _ hw => rcases hw with rfl | ⟨slot, rfl⟩ <;> simp
  | turn _ hw => rcases hw with rfl | rfl <;> rfl

/-- A start wave writes the stale flags, the running bit, the mark of a bound
stop and the two flags of a resident shell; it writes no hold. -/
theorem flag_eq (h : Step g w s s' w') (i : Fin n) {k : Flag} (hstale : k.stale = false)
    (hrunning : k ≠ .running) (hbound : k ≠ .boundStopped) (hresident : k ≠ .resident)
    (hidle : k ≠ .idle) : w'.flag i k = w.flag i k := by
  cases h with
  | arm | resume | mark | park => simp [hstale, hrunning, hbound]
  | spawn => simp [World.flag_launch _ _ _ hresident hidle, hstale, hrunning, hbound]
  | fault _ hw | abort _ hw => rcases hw with rfl | rfl <;> simp [hstale]
  | busy _ _ hw => rcases hw with rfl | ⟨slot, rfl⟩ <;> simp [hstale]
  | finish => rfl
  | turn _ hw => rcases hw with rfl | rfl <;> rfl

end Step

end StartWave

end EmbassySupervisor
