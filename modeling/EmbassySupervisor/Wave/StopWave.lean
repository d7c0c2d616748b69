/-
# The down direction as a wave

`stop_wave` signals each chosen node the moment every chosen dependent of it has
resolved, collects acknowledgements, gives up on the nodes whose window has
passed, and parks on the ack event between rounds. Here it is a state machine
whose step is one visit of one slot, so that tasks can act between any two
visits.

The state holds the wave's own arrays under their names in the source. The three
passes over the order are program points that list the slots still to visit.
`step_cases` says once what a step can do.
-/

import EmbassySupervisor.Node.TaskEvent

namespace EmbassySupervisor

variable {n : ℕ}

/-- The stamp of a slot that has not been signalled, `u32::MAX`. -/
def unsignaled : ℕ := 2 ^ 32 - 1

namespace World

/-- Take the acknowledgement of a node that has dropped. -/
def takeAck (w : World n) (j : Fin n) : World n :=
  let w := w.setRunning j false
  w.note j (w.acked j)

/-- Give up waiting for the acknowledgement of a node. -/
def missAck (w : World n) (g : Graph n) (cfg : NodeCfg n) (j : Fin n) : World n :=
  let w := if g.has .claims then w.releaseClaims cfg j else w
  w.note j (.faulted .shutdownTimeout)

end World

@[simp]
theorem World.flag_takeAck (w : World n) (j i : Fin n) (k : Flag) :
    (w.takeAck j).flag i k = if i = j ∧ k = .running then false else w.flag i k := by
  simp [World.takeAck]

@[simp]
theorem World.flag_missAck (w : World n) (g : Graph n) (cfg : NodeCfg n) (j i : Fin n)
    (k : Flag) : (w.missAck g cfg j).flag i k = w.flag i k := by
  unfold World.missAck
  split <;> simp

@[simp]
theorem World.inst_takeAck (w : World n) (j : Fin n) : (w.takeAck j).inst = w.inst := rfl

@[simp]
theorem World.inst_missAck (w : World n) (g : Graph n) (cfg : NodeCfg n) (j : Fin n) :
    (w.missAck g cfg j).inst = w.inst := by
  unfold World.missAck
  split <;> simp

@[simp]
theorem World.now_takeAck (w : World n) (j : Fin n) : (w.takeAck j).now = w.now := rfl

@[simp]
theorem World.now_missAck (w : World n) (g : Graph n) (cfg : NodeCfg n) (j : Fin n) :
    (w.missAck g cfg j).now = w.now := by
  unfold World.missAck
  split <;> simp

theorem World.log_takeAck (w : World n) (j : Fin n) :
    (w.takeAck j).log = (w.now, .note j ((w.setRunning j false).acked j)) :: w.log := rfl

theorem World.decisive_acked (w : World n) (j i : Fin n) :
    (Record.note j (w.acked i)).decisive = false := by
  unfold World.acked
  split <;> rfl

/-- A missed acknowledgement is recorded, after the release of the claims. -/
theorem World.log_missAck (w : World n) (g : Graph n) (cfg : NodeCfg n) (j : Fin n) :
    ∃ released, (w.missAck g cfg j).log =
        (w.now, .note j (.faulted .shutdownTimeout)) :: (released ++ w.log) ∧
      ∀ r ∈ released, r.2 = .claimsReleased j := by
  unfold World.missAck World.releaseClaims
  split
  · split
    · exact ⟨[(w.now, .claimsReleased j)], rfl, by simp⟩
    · exact ⟨[], rfl, by simp⟩
  · exact ⟨[], rfl, by simp⟩

/-- Neither of the two brings anything up or puts it off. -/
theorem World.grows_takeAck (w : World n) (j : Fin n) :
    ∃ new, (w.takeAck j).log = new ++ w.log ∧ ∀ r ∈ new, r.2.decisive = false :=
  ⟨[(w.now, .note j ((w.setRunning j false).acked j))], rfl, by simp [World.decisive_acked]⟩

theorem World.grows_missAck (w : World n) (g : Graph n) (cfg : NodeCfg n) (j : Fin n) :
    ∃ new, (w.missAck g cfg j).log = new ++ w.log ∧ ∀ r ∈ new, r.2.decisive = false := by
  obtain ⟨released, hlog, hreleased⟩ := w.log_missAck g cfg j
  refine ⟨(w.now, .note j (.faulted .shutdownTimeout)) :: released, by simp [hlog], ?_⟩
  intro r hr
  cases List.mem_cons.mp hr with
  | inl heq => simp [heq, Record.decisive]
  | inr hmem => simp [hreleased r hmem, Record.decisive]

/-- Where a stop wave is: in one of its three passes, asleep until the ack event
or a deadline, or finished. `nowMs` is the wave's clock as it was read when the
last pass began; a failed `expect` ends in `panic`. -/
inductive StopPc (n : ℕ)
  | signal (todo : List (Fin n))
  | collect (todo : List (Fin n)) (progress : Bool)
  | expire (todo : List (Fin n)) (nowMs : ℕ) (deadline : Option ℕ) (progress : Bool)
  | sleep (deadline : ℕ)
  | panic
  | done (r : Outcome n)
  deriving DecidableEq, Repr

/-- A stop wave in flight. -/
structure StopWave (n : ℕ) where
  chosen : Fin n → Bool
  keepGoing : Bool
  epoch : ℕ
  resolved : Fin n → Bool := fun _ => false
  signaled : Fin n → ℕ := fun _ => unsignaled
  firstErr : Outcome n := none
  pc : StopPc n

namespace StopWave

/-- A wave over the chosen slots, at the start of its first round. -/
def launch (g : Graph n) (w : World n) (chosen : Fin n → Bool) (keepGoing : Bool) :
    StopWave n :=
  { chosen, keepGoing, epoch := w.now, pc := .signal g.order.reverse }

variable (g : Graph n) (w : World n) (s : StopWave n)

/-- Chosen and not resolved yet. -/
def unresolved (j : Fin n) : Bool := s.chosen j && !s.resolved j

def allResolved : Bool := (List.finRange n).all fun j => !s.chosen j || s.resolved j

/-- A chosen dependent of the slot has not resolved. -/
def held (j : Fin n) : Bool :=
  (List.finRange n).any fun k => s.unresolved k && (g.deps k).contains j

/-- The wave's clock, in whole milliseconds since it began. -/
def clock : ℕ := g.asMillis (w.now - s.epoch)

/-- The instant a slot's window closes, on the wave's clock. -/
def dueMs (cfg : NodeCfg n) (j : Fin n) : ℕ := s.signaled j + g.asMillis cfg.ackTimeout

/-- Signal the slot if it is ready for it. -/
def signalVisit (j : Fin n) (todo : List (Fin n)) : StopWave n × World n :=
  if s.unresolved j && s.signaled j == unsignaled && !s.held g j then
    match g.nodes j with
    | none => ({ s with pc := .panic }, w)
    | some _ =>
      ({ s with
          signaled := Function.update s.signaled j (min (s.clock g w) (unsignaled - 1))
          pc := .signal todo },
        (w.signalShutdown j).note j .stopRequested)
  else ({ s with pc := .signal todo }, w)

/-- Take the acknowledgement of the slot if it is there. -/
def collectVisit (j : Fin n) (todo : List (Fin n)) (progress : Bool) :
    StopWave n × World n :=
  if s.unresolved j then
    match g.nodes j with
    | none => ({ s with pc := .panic }, w)
    | some _ =>
      if w.hasDropped j then
        ({ s with
            resolved := Function.update s.resolved j true
            pc := .collect todo true },
          w.takeAck j)
      else ({ s with pc := .collect todo progress }, w)
  else ({ s with pc := .collect todo progress }, w)

/-- Give up on the slot if its window has closed; otherwise the wave has to wake
when it does. -/
def expireVisit (j : Fin n) (todo : List (Fin n)) (nowMs : ℕ) (deadline : Option ℕ)
    (progress : Bool) : StopWave n × World n :=
  if s.unresolved j && s.signaled j != unsignaled then
    match g.nodes j with
    | none => ({ s with pc := .panic }, w)
    | some cfg =>
      if nowMs < s.dueMs g cfg j then
        let due := s.epoch + g.fromMillis (s.dueMs g cfg j)
        let deadline := some (deadline.elim due fun d => min d due)
        ({ s with pc := .expire todo nowMs deadline progress }, w)
      else
        let fault : NodeFault n := { node := j, kind := .shutdownTimeout }
        if s.keepGoing then
          ({ s with
              firstErr := s.firstErr.or (some fault)
              resolved := Function.update s.resolved j true
              pc := .expire todo nowMs deadline true },
            w.missAck g cfg j)
        else ({ s with pc := .done (some fault) }, w.missAck g cfg j)
  else ({ s with pc := .expire todo nowMs deadline progress }, w)

/-- One visit, one turn from a pass to the next, or one wake-up. -/
def step (w : World n) (s : StopWave n) : Option (StopWave n × World n) :=
  match s.pc with
  | .signal (j :: todo) => some (signalVisit g w s j todo)
  | .signal [] => some ({ s with pc := .collect g.order.reverse false }, w)
  | .collect (j :: todo) progress => some (collectVisit g w s j todo progress)
  | .collect [] progress =>
    if s.allResolved then some ({ s with pc := .done s.firstErr }, w)
    else if progress then some ({ s with pc := .signal g.order.reverse }, w)
    else some ({ s with pc := .expire g.order.reverse (s.clock g w) none false }, w)
  | .expire (j :: todo) nowMs deadline progress =>
    some (expireVisit g w s j todo nowMs deadline progress)
  | .expire [] _ deadline progress =>
    if progress then some ({ s with pc := .signal g.order.reverse }, w)
    else
      match deadline with
      | none => some ({ s with pc := .panic }, w)
      | some d => some ({ s with pc := .sleep d }, w)
  | .sleep d =>
    if w.stopEvt then
      some ({ s with pc := .signal g.order.reverse }, { w with stopEvt := false })
    else if d ≤ w.now then some ({ s with pc := .signal g.order.reverse }, w)
    else none
  | .panic | .done _ => none

end StopWave

/-! ## What a step can do -/

/-- The steps that only move the program point. -/
inductive StopPc.Turns (g : Graph n) : StopPc n → StopPc n → Prop
  | startCollect : Turns g (.signal []) (.collect g.order.reverse false)
  | again {pc : StopPc n} (hsignal : ∀ todo, pc ≠ .signal todo) (hpanic : pc ≠ .panic) :
      Turns g pc (.signal g.order.reverse)
  | skipExpire (j : Fin n) (todo : List (Fin n)) (nowMs : ℕ)
      (deadline deadline' : Option ℕ) (progress : Bool) :
      Turns g (.expire (j :: todo) nowMs deadline progress)
        (.expire todo nowMs deadline' progress)
  | rest (nowMs d : ℕ) : Turns g (.expire [] nowMs (some d) false) (.sleep d)
  | panic (pc : StopPc n) : Turns g pc .panic

namespace StopWave

/-- The effects of one step, with the conditions under which each happens. -/
inductive Step (g : Graph n) (w : World n) (s : StopWave n) : StopWave n → World n → Prop
  | signal {j : Fin n} {todo : List (Fin n)} {cfg : NodeCfg n}
      (hpc : s.pc = .signal (j :: todo)) (hopen : s.unresolved j = true)
      (hfresh : s.signaled j = unsignaled) (hfree : s.held g j = false)
      (hcfg : g.nodes j = some cfg) :
      Step g w s
        { s with
          signaled := Function.update s.signaled j (min (s.clock g w) (unsignaled - 1))
          pc := .signal todo }
        ((w.signalShutdown j).note j .stopRequested)
  | skip {j : Fin n} {todo : List (Fin n)} (hpc : s.pc = .signal (j :: todo))
      (hskip : s.unresolved j = true → s.signaled j = unsignaled → s.held g j = true) :
      Step g w s { s with pc := .signal todo } w
  | collect {j : Fin n} {todo : List (Fin n)} {progress : Bool} {cfg : NodeCfg n}
      (hpc : s.pc = .collect (j :: todo) progress) (hopen : s.unresolved j = true)
      (hcfg : g.nodes j = some cfg) (hdrop : w.flag j .dropped = true) :
      Step g w s
        { s with resolved := Function.update s.resolved j true, pc := .collect todo true }
        (w.takeAck j)
  | passOver {j : Fin n} {todo : List (Fin n)} {progress : Bool}
      (hpc : s.pc = .collect (j :: todo) progress)
      (hdrop : s.unresolved j = true → w.flag j .dropped = false) :
      Step g w s { s with pc := .collect todo progress } w
  | giveUp {j : Fin n} {todo : List (Fin n)} {nowMs : ℕ} {deadline : Option ℕ}
      {progress : Bool} {cfg : NodeCfg n}
      (hpc : s.pc = .expire (j :: todo) nowMs deadline progress)
      (hopen : s.unresolved j = true) (hsignaled : s.signaled j ≠ unsignaled)
      (hcfg : g.nodes j = some cfg) (hdue : s.dueMs g cfg j ≤ nowMs)
      (hkeep : s.keepGoing = true) :
      Step g w s
        { s with
          firstErr := s.firstErr.or (some { node := j, kind := .shutdownTimeout })
          resolved := Function.update s.resolved j true
          pc := .expire todo nowMs deadline true }
        (w.missAck g cfg j)
  | abort {j : Fin n} {todo : List (Fin n)} {nowMs : ℕ} {deadline : Option ℕ}
      {progress : Bool} {cfg : NodeCfg n}
      (hpc : s.pc = .expire (j :: todo) nowMs deadline progress)
      (hopen : s.unresolved j = true) (hsignaled : s.signaled j ≠ unsignaled)
      (hcfg : g.nodes j = some cfg) (hdue : s.dueMs g cfg j ≤ nowMs)
      (hkeep : s.keepGoing = false) :
      Step g w s { s with pc := .done (some { node := j, kind := .shutdownTimeout }) }
        (w.missAck g cfg j)
  | finish {progress : Bool} (hpc : s.pc = .collect [] progress)
      (hall : s.allResolved = true) : Step g w s { s with pc := .done s.firstErr } w
  | examine (hpc : s.pc = .collect [] false) (hall : s.allResolved = false) :
      Step g w s
        { s with pc := .expire g.order.reverse (s.clock g w) none false } w
  | turn {pc pc' : StopPc n} {w' : World n} (hpc : s.pc = pc) (hturn : pc.Turns g pc')
      (hw : w' = w ∨ w' = { w with stopEvt := false }) : Step g w s { s with pc := pc' } w'

theorem allResolved_iff {s : StopWave n} :
    s.allResolved = true ↔ ∀ j, s.chosen j = true → s.resolved j = true := by
  simp only [allResolved, List.all_eq_true, List.mem_finRange, true_implies,
    Bool.or_eq_true, Bool.not_eq_true']
  refine forall_congr' fun j => ?_
  cases s.chosen j <;> simp

theorem held_eq_false_iff {g : Graph n} {s : StopWave n} {j : Fin n} :
    s.held g j = false ↔ ∀ k, s.unresolved k = true → j ∉ g.deps k := by
  simp [held]

private theorem signalVisit_cases {g : Graph n} {w : World n} {s : StopWave n} {j : Fin n}
    {todo : List (Fin n)} (hpc : s.pc = .signal (j :: todo)) :
    Step g w s (signalVisit g w s j todo).1 (signalVisit g w s j todo).2 := by
  unfold signalVisit
  split
  case isTrue hguard =>
    simp only [Bool.and_eq_true, Bool.not_eq_true', beq_iff_eq] at hguard
    obtain ⟨⟨hopen, hfresh⟩, hfree⟩ := hguard
    cases hcfg : g.nodes j with
    | none => exact .turn rfl (.panic _) (Or.inl rfl)
    | some cfg => exact .signal hpc hopen hfresh hfree hcfg
  case isFalse hguard =>
    refine .skip hpc fun hopen hfresh => ?_
    simpa [hopen, hfresh] using hguard

private theorem collectVisit_cases {g : Graph n} {w : World n} {s : StopWave n} {j : Fin n}
    {todo : List (Fin n)} {progress : Bool} (hpc : s.pc = .collect (j :: todo) progress) :
    Step g w s (collectVisit g w s j todo progress).1
      (collectVisit g w s j todo progress).2 := by
  unfold collectVisit
  by_cases hopen : s.unresolved j = true
  · rw [if_pos hopen]
    cases hcfg : g.nodes j with
    | none => exact .turn rfl (.panic _) (Or.inl rfl)
    | some cfg =>
        by_cases hdrop : w.flag j .dropped = true
        · simp only [World.hasDropped, hdrop, if_true]
          exact .collect hpc hopen hcfg hdrop
        · simp only [World.hasDropped, hdrop]
          exact .passOver hpc fun _ => by simpa using hdrop
  · rw [if_neg hopen]
    exact .passOver hpc fun h => absurd h hopen

private theorem expireVisit_cases {g : Graph n} {w : World n} {s : StopWave n} {j : Fin n}
    {todo : List (Fin n)} {nowMs : ℕ} {deadline : Option ℕ} {progress : Bool}
    (hpc : s.pc = .expire (j :: todo) nowMs deadline progress) :
    Step g w s (expireVisit g w s j todo nowMs deadline progress).1
      (expireVisit g w s j todo nowMs deadline progress).2 := by
  unfold expireVisit
  split
  case isTrue hguard =>
    simp only [Bool.and_eq_true, bne_iff_ne] at hguard
    obtain ⟨hopen, hsignaled⟩ := hguard
    cases hcfg : g.nodes j with
    | none => exact .turn rfl (.panic _) (Or.inl rfl)
    | some cfg =>
        by_cases hdue : nowMs < s.dueMs g cfg j
        · simp only [hdue, if_true]
          exact .turn hpc (.skipExpire j todo nowMs _ _ progress) (Or.inl rfl)
        · have hdue' := not_lt.mp hdue
          by_cases hkeep : s.keepGoing = true
          · simp only [if_neg hdue, if_pos hkeep]
            exact .giveUp hpc hopen hsignaled hcfg hdue' hkeep
          · simp only [if_neg hdue, if_neg hkeep]
            exact .abort hpc hopen hsignaled hcfg hdue' (by simpa using hkeep)
  case isFalse =>
    exact .turn hpc (.skipExpire j todo nowMs _ _ progress) (Or.inl rfl)

/-- **Inversion of a step of a stop wave.** -/
theorem step_cases {g : Graph n} {w w' : World n} {s s' : StopWave n}
    (h : step g w s = some (s', w')) : Step g w s s' w' := by
  unfold step at h
  cases hpc : s.pc with
  | signal todo =>
      rw [hpc] at h
      cases todo with
      | nil =>
          cases h
          exact .turn hpc .startCollect (Or.inl rfl)
      | cons j todo =>
          have hvisit := signalVisit_cases (w := w) (g := g) hpc
          rwa [Option.some.inj h] at hvisit
  | collect todo progress =>
      rw [hpc] at h
      cases todo with
      | nil =>
          by_cases hall : s.allResolved = true
          · simp only [hall, if_true] at h
            cases h
            exact .finish hpc hall
          · have hall' : s.allResolved = false := by simpa using hall
            cases progress with
            | true =>
                simp only [hall, if_true] at h
                cases h
                exact .turn hpc (.again (by simp) (by simp)) (Or.inl rfl)
            | false =>
                simp only [hall] at h
                cases h
                exact .examine hpc hall'
      | cons j todo =>
          have hvisit := collectVisit_cases (w := w) (g := g) hpc
          rwa [Option.some.inj h] at hvisit
  | expire todo nowMs deadline progress =>
      rw [hpc] at h
      cases todo with
      | nil =>
          cases progress with
          | true =>
              simp only [if_true] at h
              cases h
              exact .turn hpc (.again (by simp) (by simp)) (Or.inl rfl)
          | false =>
              cases deadline with
              | none =>
                  cases h
                  exact .turn rfl (.panic _) (Or.inl rfl)
              | some d =>
                  cases h
                  exact .turn hpc (.rest nowMs d) (Or.inl rfl)
      | cons j todo =>
          have hvisit := expireVisit_cases (w := w) (g := g) hpc
          rwa [Option.some.inj h] at hvisit
  | sleep d =>
      rw [hpc] at h
      by_cases hevt : w.stopEvt = true
      · simp only [hevt, if_true] at h
        cases h
        exact .turn hpc (.again (by simp) (by simp)) (Or.inr rfl)
      · by_cases hdue : d ≤ w.now
        · simp only [hevt, hdue, if_true] at h
          cases h
          exact .turn hpc (.again (by simp) (by simp)) (Or.inl rfl)
        · simp [hevt, hdue] at h
  | panic =>
      rw [hpc] at h
      simp at h
  | done r =>
      rw [hpc] at h
      simp at h

/-! ## What a step leaves alone -/

namespace Step

variable {g : Graph n} {w w' : World n} {s s' : StopWave n}

/-- A wave keeps its selection, its policy and its epoch. -/
theorem static (h : Step g w s s' w') :
    s'.chosen = s.chosen ∧ s'.keepGoing = s.keepGoing ∧ s'.epoch = s.epoch := by
  cases h <;> exact ⟨rfl, rfl, rfl⟩

/-- A wave writes no flag but the request and the running bit. -/
theorem flag_eq (h : Step g w s s' w') (i : Fin n) {k : Flag} (hshutdown : k ≠ .shutdown)
    (hrunning : k ≠ .running) : w'.flag i k = w.flag i k := by
  cases h with
  | signal => simp [hshutdown]
  | collect => simp [hrunning]
  | giveUp | abort => simp
  | skip | passOver | finish | examine => rfl
  | turn _ _ hw => rcases hw with rfl | rfl <;> rfl

/-- A wave never sets a node running. -/
theorem running_of_running (h : Step g w s s' w') {i : Fin n}
    (hrun : w'.flag i .running = true) : w.flag i .running = true := by
  cases h with
  | signal => simpa using hrun
  | @collect j _ _ _ _ _ _ _ =>
      by_cases hi : i = j
      · simp [hi] at hrun
      · simpa [hi] using hrun
  | giveUp | abort => simpa using hrun
  | skip | passOver | finish | examine => exact hrun
  | turn _ _ hw => rcases hw with rfl | rfl <;> exact hrun

/-- It takes down chosen slots only. -/
theorem running_eq_or (h : Step g w s s' w') (i : Fin n) :
    w'.flag i .running = w.flag i .running ∨
      (w'.flag i .running = false ∧ s.chosen i = true) := by
  cases h with
  | signal => exact Or.inl (by simp)
  | @collect j _ _ _ _ hopen _ _ =>
      by_cases hi : i = j
      · subst hi
        exact Or.inr ⟨by simp, (Bool.and_eq_true_iff.mp hopen).1⟩
      · exact Or.inl (by simp [hi])
  | giveUp | abort => exact Or.inl (by simp)
  | skip | passOver | finish | examine => exact Or.inl rfl
  | turn _ _ hw => rcases hw with rfl | rfl <;> exact Or.inl rfl

/-- It signals chosen slots only. -/
theorem signaled_cases (h : Step g w s s' w') {i : Fin n}
    (hi : s'.signaled i ≠ unsignaled) : s.signaled i ≠ unsignaled ∨ s.chosen i = true := by
  cases h with
  | @signal j _ _ _ hopen _ _ _ =>
      by_cases hij : i = j
      · subst hij
        exact Or.inr (Bool.and_eq_true_iff.mp hopen).1
      · simp only [Function.update_of_ne hij] at hi
        exact Or.inl hi
  | collect | skip | passOver | giveUp | abort | finish | examine | turn => exact Or.inl hi

theorem inst_eq (h : Step g w s s' w') : w'.inst = w.inst := by
  cases h with
  | signal | collect | skip | passOver | finish | examine => simp
  | giveUp | abort => simp
  | turn _ _ hw => rcases hw with rfl | rfl <;> rfl

/-- What a stop wave adds to the history brings nothing up. -/
theorem log_eq (h : Step g w s s' w') :
    ∃ new, w'.log = new ++ w.log ∧ ∀ r ∈ new, r.2.decisive = false := by
  cases h with
  | @signal j =>
      exact ⟨[(w.now, .note j .stopRequested)], by simp, by simp [Record.decisive]⟩
  | collect => exact w.grows_takeAck _
  | giveUp | abort => exact w.grows_missAck g _ _
  | skip | passOver | finish | examine => exact ⟨[], rfl, by simp⟩
  | turn _ _ hw => rcases hw with rfl | rfl <;> exact ⟨[], rfl, by simp⟩

theorem now_eq (h : Step g w s s' w') : w'.now = w.now := by
  cases h with
  | signal | collect | skip | passOver | finish | examine => simp
  | giveUp | abort => simp
  | turn _ _ hw => rcases hw with rfl | rfl <;> rfl

end Step

end StopWave

end EmbassySupervisor
