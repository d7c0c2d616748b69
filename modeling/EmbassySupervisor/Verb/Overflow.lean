/-
# The waves in the arithmetic of the clock

Instants and durations are counts of ticks in a `u64`, and both waves compute with them:
the clock of a wave is the difference of two instants in milliseconds, the end of a window
is a stamp plus a timeout, and a deadline is the epoch of the wave plus a number of
milliseconds. `StopWave.checked` and `StartWave.checked` are the waves of the code: a step
whose numbers do not fit panics.

`waves_no_panic` says that there is no other panic, and that there is none at all where the
longest deadlines fit. `window_overflows` is a wave that panics on account of one timeout.
-/

import EmbassySupervisor.Verb.NoPanic

namespace EmbassySupervisor

open LabelledRun

variable {n : ℕ}

/-! ## What fits -/

namespace Graph

variable (g : Graph n)

/-- What a second's milliseconds and its ticks have in common, which the conversions between
the two divide out. -/
def scale : ℕ := Nat.gcd 1000 g.tickHz

/-- `as_millis` of so many ticks fits. -/
def millisFit (ticks : ℕ) : Bool := decide (ticks * (1000 / g.scale) < 2 ^ 64)

/-- The instant so many milliseconds after another fits, and so does `from_millis`. -/
def instantFits (epoch ms : ℕ) : Bool :=
  decide (ms * (g.tickHz / g.scale) + (1000 / g.scale - 1) < 2 ^ 64) &&
    decide (epoch + g.fromMillis ms < 2 ^ 64)

/-- The end of a window that begins at a stamp fits. -/
def windowFits (stamp timeout : ℕ) : Bool :=
  g.millisFit timeout && decide (stamp + g.asMillis timeout < 2 ^ 64)

/-- The clock is not before the epoch, and the milliseconds since then fit. -/
def reads (epoch : ℕ) (w : World n) : Bool :=
  decide (epoch ≤ w.now) && g.millisFit (w.now - epoch)

/-- Every window of a wave that began at the epoch fits, even the one that begins last: the
stamps stop short of `u32::MAX`. -/
def TimesFit (epoch : ℕ) : Prop :=
  ∀ j cfg, g.nodes j = some cfg → ∀ timeout ∈ [cfg.ackTimeout, cfg.slotTimeout],
    g.windowFits (2 ^ 32 - 2) timeout = true ∧
      g.instantFits epoch (2 ^ 32 - 2 + g.asMillis timeout) = true

variable {g}

theorem fromMillis_mono {a b : ℕ} (h : a ≤ b) : g.fromMillis a ≤ g.fromMillis b := by
  have hticks := Nat.mul_le_mul_right g.tickHz h
  exact Nat.div_le_div_right (by omega)

theorem instantFits_of_le {epoch a b : ℕ} (hle : a ≤ b) (h : g.instantFits epoch b = true) :
    g.instantFits epoch a = true := by
  simp only [instantFits, Bool.and_eq_true, decide_eq_true_eq] at h ⊢
  have hticks := Nat.mul_le_mul_right (g.tickHz / g.scale) hle
  have hinstant := fromMillis_mono (g := g) hle
  omega

theorem windowFits_of_le {a b timeout : ℕ} (hle : a ≤ b)
    (h : g.windowFits b timeout = true) : g.windowFits a timeout = true := by
  simp only [windowFits, Bool.and_eq_true, decide_eq_true_eq] at h ⊢
  exact ⟨h.1, by omega⟩

end Graph

/-! ## The stop wave -/

namespace StopWave

/-- What the step computes with the clock fits. -/
def fits (g : Graph n) (s : StopWave n) (w : World n) : Bool :=
  match s.pc with
  | .signal (j :: _) =>
    !(s.unresolved j && s.signaled j == unsignaled && !s.held g j) || g.reads s.epoch w
  | .collect [] progress => s.allResolved || progress || g.reads s.epoch w
  | .expire (j :: _) nowMs _ _ =>
    !(s.unresolved j && s.signaled j != unsignaled) || (g.nodes j).all fun cfg =>
      g.windowFits (s.signaled j) cfg.ackTimeout &&
        (decide (s.dueMs g cfg j ≤ nowMs) || g.instantFits s.epoch (s.dueMs g cfg j))
  | .signal [] | .collect (_ :: _) _ | .expire [] _ _ _ | .sleep _ | .panic | .done _ => true

/-- The wave panics. -/
def trap (s : StopWave n) : StopWave n := { s with pc := .panic }

/-- A stop wave of the code whose every step finds some state. -/
def checked (g : Graph n) : StopWave n → World n → Option (StopWave n) :=
  guarded (anywhere g) (fits g) trap

variable {g : Graph n} {s t : StopWave n} {w : World n}

theorem stuck_trap (s : StopWave n) (w : World n) :
    fits g s.trap w = true ∧ anywhere g s.trap w = none := ⟨rfl, rfl⟩

/-- A slot is stamped short of `u32::MAX`, and the epoch stays. -/
structure Stamped (epoch : ℕ) (s : StopWave n) : Prop where
  epoch : s.epoch = epoch
  stamp : ∀ j, s.signaled j ≤ unsignaled

theorem Stamped.step {epoch : ℕ} (hs : Stamped epoch s) (h : anywhere g s w = some t) :
    Stamped epoch t := by
  obtain ⟨⟨t, w'⟩, hstep, rfl⟩ := Option.map_eq_some_iff.mp h
  have hcases := step_cases hstep
  refine ⟨hcases.static.2.2.trans hs.epoch, fun i => ?_⟩
  cases hcases with
  | @signal j =>
      by_cases hij : i = j
      · simp only [hij, Function.update_self]
        omega
      · simpa only [Function.update_of_ne hij] using hs.stamp i
  | skip | collect | passOver | giveUp | abort | finish | examine | turn => exact hs.stamp i

/-- Where every window fits, so does every step. -/
theorem Stamped.fits {epoch : ℕ} (hs : Stamped epoch s) (htimes : g.TimesFit epoch)
    (hreads : g.reads epoch w = true) : s.fits g w = true := by
  obtain ⟨hepoch, hstamp⟩ := hs
  subst hepoch
  unfold StopWave.fits
  cases hpc : s.pc with
  | signal todo => cases todo <;> simp [hreads]
  | collect todo progress => cases todo <;> simp [hreads]
  | sleep | panic | done => rfl
  | expire todo nowMs deadline progress =>
      cases todo with
      | nil => rfl
      | cons j todo =>
          simp only
          by_cases hopen : (s.unresolved j && s.signaled j != unsignaled) = true
          · have hlast : s.signaled j ≤ 2 ^ 32 - 2 := by
              have hne : s.signaled j ≠ unsignaled := by
                simpa using (Bool.and_eq_true_iff.mp hopen).2
              have hle := hstamp j
              unfold unsignaled at hne hle
              omega
            rw [hopen, Bool.not_true, Bool.false_or, Option.all_eq_true]
            intro cfg hcfg
            obtain ⟨hwindow, hinstant⟩ := htimes j cfg hcfg cfg.ackTimeout (by simp)
            have hdue : s.dueMs g cfg j ≤ 2 ^ 32 - 2 + g.asMillis cfg.ackTimeout := by
              unfold dueMs
              omega
            rw [Graph.windowFits_of_le hlast hwindow, Graph.instantFits_of_le hdue hinstant,
              Bool.or_true, Bool.and_true]
          · simp [hopen]

end StopWave

/-! ## The start wave -/

namespace StartWave

/-- What the step computes with the clock fits. -/
def fits (g : Graph n) (s : StartWave n) (w : World n) : Bool :=
  match s.pc with
  | .visit (j :: _) _ =>
    !s.pending j || (g.deps j).any s.pending || (g.nodes j).all fun cfg =>
      if s.armed j == unarmed then g.reads s.epoch w
      else cfg.spawn.isNone || (g.reads s.epoch w && g.windowFits (s.armed j) cfg.slotTimeout)
  | .visit [] round =>
    !round.waiting || round.progress || round.ownPass ||
      ((g.order.filter fun j => s.pending j && s.armed j != unarmed).all fun j =>
        (g.nodes j).all fun cfg => g.windowFits (s.armed j) cfg.slotTimeout) &&
      (s.deadlineMs g).all (g.instantFits s.epoch)
  | .yield | .sleep _ | .panic | .done _ => true

/-- The wave panics. -/
def trap (s : StartWave n) : StartWave n := { s with pc := .panic }

/-- A start wave of the code whose every step finds some state. -/
def checked (g : Graph n) : StartWave n → World n → Option (StartWave n) :=
  guarded (anywhere g) (fits g) trap

variable {g : Graph n} {s t : StartWave n} {w : World n}

theorem stuck_trap (s : StartWave n) (w : World n) :
    fits g s.trap w = true ∧ anywhere g s.trap w = none := ⟨rfl, rfl⟩

/-- A slot is armed short of `u32::MAX`, and the epoch stays. -/
structure Stamped (epoch : ℕ) (s : StartWave n) : Prop where
  epoch : s.epoch = epoch
  stamp : ∀ j, s.armed j ≤ unarmed

theorem Stamped.step {epoch : ℕ} (hs : Stamped epoch s) (h : anywhere g s w = some t) :
    Stamped epoch t := by
  obtain ⟨⟨t, w'⟩, hstep, rfl⟩ := Option.map_eq_some_iff.mp h
  have hcases := step_cases hstep
  have harm : ∀ j i, Function.update s.armed j (min (s.clock g w) (unarmed - 1)) i ≤ unarmed := by
    intro j i
    by_cases hij : i = j
    · simp only [hij, Function.update_self]
      omega
    · simpa only [Function.update_of_ne hij] using hs.stamp i
  refine ⟨hcases.static.2.trans hs.epoch, fun i => ?_⟩
  cases hcases with
  | arm | resume => exact harm _ i
  | mark | park | fault | abort | spawn | busy | finish | turn => exact hs.stamp i

theorem Stamped.le {epoch : ℕ} (hs : Stamped epoch s) {j : Fin n} (h : s.armed j ≠ unarmed) :
    s.armed j ≤ 2 ^ 32 - 2 := by
  have hle := hs.stamp j
  unfold unarmed at h hle
  omega

/-- Where every window fits, so does every step. -/
theorem Stamped.fits {epoch : ℕ} (hs : Stamped epoch s) (htimes : g.TimesFit epoch)
    (hreads : g.reads epoch w = true) : s.fits g w = true := by
  have hwindow : ∀ j cfg, s.armed j ≠ unarmed → g.nodes j = some cfg →
      g.windowFits (s.armed j) cfg.slotTimeout = true := by
    intro j cfg harmed hcfg
    obtain ⟨hfits, -⟩ := htimes j cfg hcfg cfg.slotTimeout (by simp)
    exact Graph.windowFits_of_le (hs.le harmed) hfits
  have hdeadline : (s.deadlineMs g).all (g.instantFits s.epoch) = true := by
    rw [Option.all_eq_true]
    intro ms hms
    obtain ⟨⟨j, cfg, -, harmed, hcfg, rfl⟩, -⟩ := isLeast_deadlineMs hms
    obtain ⟨-, hinstant⟩ := htimes j cfg hcfg cfg.slotTimeout (by simp)
    rw [hs.epoch]
    exact Graph.instantFits_of_le (Nat.add_le_add_right (hs.le harmed) _) hinstant
  rw [← hs.epoch] at hreads
  unfold StartWave.fits
  cases hpc : s.pc with
  | yield | sleep | panic | done => rfl
  | visit todo round =>
      cases todo with
      | nil =>
          have hall : ((g.order.filter fun j => s.pending j && s.armed j != unarmed).all fun j =>
              (g.nodes j).all fun cfg => g.windowFits (s.armed j) cfg.slotTimeout) = true := by
            rw [List.all_eq_true]
            intro j hj
            have harmed := (Bool.and_eq_true_iff.mp (List.mem_filter.mp hj).2).2
            rw [Option.all_eq_true]
            exact fun cfg hcfg => hwindow j cfg (by simpa using harmed) hcfg
          simp only [hall, hdeadline, Bool.and_true, Bool.or_true]
      | cons j todo =>
          have hvisit : ((g.nodes j).all fun cfg =>
              if s.armed j == unarmed then g.reads s.epoch w
              else cfg.spawn.isNone ||
                (g.reads s.epoch w && g.windowFits (s.armed j) cfg.slotTimeout)) = true := by
            rw [Option.all_eq_true]
            intro cfg hcfg
            split
            · exact hreads
            · next harmed =>
                rw [hreads, hwindow j cfg (by simpa using harmed) hcfg, Bool.and_true,
                  Bool.or_true]
          simp only [hvisit, Bool.or_true]

end StartWave

/-! ## Both waves -/

/-- **The waves do not panic** except where a number does not fit. Whatever states a wave
finds from step to step, it looks up occupied slots only and never comes to a failed
`expect`: where a stop wave computes its deadline some chosen slot is unresolved, signalled
and not yet due, and where a start wave goes to sleep some pending slot is armed. Where
every window of the graph fits, every number does as long as the clock can be read. -/
theorem waves_no_panic (g : Graph n) (w₀ : World n) (keepGoing : Bool)
    (states : List (World n)) :
    (∀ select s, exec (StopWave.checked g) (g.stopNodes w₀ select keepGoing).1 states = some s →
      (s.pc = .panic → ∃ front w u, states = front ++ [w] ∧
        exec (StopWave.checked g) (g.stopNodes w₀ select keepGoing).1 front = some u ∧
          u.fits g w = false) ∧
      (g.TimesFit w₀.now → (∀ w ∈ states, g.reads w₀.now w = true) → s.pc ≠ .panic) ∧
      (∀ j, s.unresolved j = true → g.occupied j = true) ∧
        ∀ nowMs deadline, s.pc = .expire [] nowMs deadline false →
          ∃ j cfg, s.unresolved j = true ∧ s.signaled j ≠ unsignaled ∧ deadline ≠ none ∧
            g.nodes j = some cfg ∧ nowMs < s.dueMs g cfg j) ∧
    (∀ select s, exec (StartWave.checked g) (g.startNodes w₀ select keepGoing) states = some s →
      (s.pc = .panic → ∃ front w u, states = front ++ [w] ∧
        exec (StartWave.checked g) (g.startNodes w₀ select keepGoing) front = some u ∧
          u.fits g w = false) ∧
      (g.TimesFit w₀.now → (∀ w ∈ states, g.reads w₀.now w = true) → s.pc ≠ .panic) ∧
      (∀ j, s.pending j = true → g.occupied j = true) ∧
        ∀ due, s.pc = .sleep due → ∃ j, s.pending j = true ∧ s.armed j ≠ unarmed) := by
  constructor
  · intro select s hrun
    have hfirst := sound_stopNodes (g := g) w₀ select keepGoing
    have hlaunch : StopWave.Stamped w₀.now (g.stopNodes w₀ select keepGoing).1 :=
      ⟨rfl, fun _ => le_rfl⟩
    rcases exec_guarded StopWave.stuck_trap hrun with
      hfree | ⟨front, w, u, rfl, hfront, hfree, hfails, rfl⟩
    · have hs : StopWave.Sound g s :=
        exec_invariant (fun _ _ _ hs h => hs.step h) hfirst hfree
      have hpanic : s.pc ≠ .panic := by
        intro hpc
        have hno := hs.passed
        rwa [hpc] at hno
      refine ⟨fun hpc => absurd hpc hpanic, fun _ _ => hpanic,
        fun _ => StopWave.occupied_of_unresolved hs, fun _ _ hpc => ?_⟩
      have hpassed := hs.passed
      rw [hpc] at hpassed
      exact StopWave.exists_awaited hpassed
    · have hu : StopWave.Sound g u :=
        exec_invariant (fun _ _ _ hs h => hs.step h) hfirst hfree
      have hstamped : StopWave.Stamped w₀.now u :=
        exec_invariant (fun _ _ _ hs h => hs.step h) hlaunch hfree
      refine ⟨fun _ => ⟨front, w, u, rfl, hfront, hfails⟩, fun htimes hreads => ?_,
        fun _ => StopWave.occupied_of_unresolved hu, nofun⟩
      rw [hstamped.fits htimes (hreads w (by simp))] at hfails
      cases hfails
  · intro select s hrun
    have hfirst := sound_startNodes (g := g) w₀ select keepGoing
    have hlaunch : StartWave.Stamped w₀.now (g.startNodes w₀ select keepGoing) :=
      ⟨rfl, fun _ => le_rfl⟩
    rcases exec_guarded StartWave.stuck_trap hrun with
      hfree | ⟨front, w, u, rfl, hfront, hfree, hfails, rfl⟩
    · have hs : StartWave.Sound g s :=
        exec_invariant (fun _ _ _ hs h => hs.step h) hfirst hfree
      have hpanic : s.pc ≠ .panic := by
        intro hpc
        have hno := hs.passed
        rwa [hpc] at hno
      refine ⟨fun hpc => absurd hpc hpanic, fun _ _ => hpanic, hs.occupied, fun _ hpc => ?_⟩
      have hpassed := hs.passed
      rwa [hpc] at hpassed
    · have hu : StartWave.Sound g u :=
        exec_invariant (fun _ _ _ hs h => hs.step h) hfirst hfree
      have hstamped : StartWave.Stamped w₀.now u :=
        exec_invariant (fun _ _ _ hs h => hs.step h) hlaunch hfree
      refine ⟨fun _ => ⟨front, w, u, rfl, hfront, hfails⟩, fun htimes hreads => ?_,
        hu.occupied, nofun⟩
      rw [hstamped.fits htimes (hreads w (by simp))] at hfails
      cases hfails

/-- Both nodes of `clientAndLink` run and are told to stop; the wave has come to its deadline. -/
def stoppingBoth : Option (StopWave 2) :=
  exec (StopWave.checked clientAndLink)
    (clientAndLink.stopNodes clientAndLinkUp (fun _ h => (h.isStoppable, h)) false).1
    (List.replicate 8 clientAndLinkUp)

theorem timesFit_clientAndLink : clientAndLink.TimesFit clientAndLinkUp.now := by
  intro j cfg hcfg
  cases hcfg
  have hfit : ∀ timeout ∈ [2000000, 5000000], clientAndLink.windowFits (2 ^ 32 - 2) timeout = true ∧
      clientAndLink.instantFits 0 (2 ^ 32 - 2 + clientAndLink.asMillis timeout) = true := by
    decide
  exact hfit

theorem waves_no_panic_stoppingBoth : (stoppingBoth.get rfl).pc ≠ .panic ∧
    ∃ j cfg, (stoppingBoth.get rfl).unresolved j = true ∧ clientAndLink.nodes j = some cfg ∧
      0 < (stoppingBoth.get rfl).dueMs clientAndLink cfg j := by
  have hrun : stoppingBoth = some (stoppingBoth.get rfl) := (Option.some_get _).symm
  obtain ⟨-, hno, -, hdue⟩ := (waves_no_panic clientAndLink clientAndLinkUp false
    (List.replicate 8 clientAndLinkUp)).1 _ _ hrun
  obtain ⟨j, cfg, hj, -, -, hcfg, hlt⟩ := hdue 0 _ rfl
  exact ⟨hno timesFit_clientAndLink (by decide), j, cfg, hj, hcfg, hlt⟩

/-! ## A timeout that does not fit -/

/-- A node whose window is as long as a duration can be. -/
def patient : Graph 1 where
  deps _ := []
  order := [0]
  topological := topological_one
  nodes _ := some { mode := .terminate, spawn := some .fn, slotTimeout := 5000000,
                    ackTimeout := 2 ^ 64 - 1 }
  shape_sound _ cfg _ := cfg.fitsShape_all
  pools_sound := pools_sound_one

/-- It has been running for a while. -/
def patientUp : World 1 where
  node _ := { flags := fun f => f == .running }
  now := 1000

/-- The end of the window comes after the last instant. -/
theorem window_overflows : ¬ ∀ (g : Graph 1) (w₀ : World 1) (states : List (World 1))
    (s : StopWave 1), (∀ w ∈ states, g.reads w₀.now w = true) →
      exec (StopWave.checked g) (g.stopNodes w₀ (fun _ h => (h.isStoppable, h)) false).1 states =
        some s → s.pc ≠ .panic := by
  intro h
  have hrun : exec (StopWave.checked patient)
      (patient.stopNodes patientUp (fun _ h => (h.isStoppable, h)) false).1
      (List.replicate 5 patientUp) = some ((exec (StopWave.checked patient)
        (patient.stopNodes patientUp (fun _ h => (h.isStoppable, h)) false).1
        (List.replicate 5 patientUp)).get rfl) := (Option.some_get _).symm
  exact h patient patientUp _ _ (by decide) hrun rfl

end EmbassySupervisor
