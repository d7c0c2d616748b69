/-
# Starting a node that is up

`start_node` is to start a node that is not running and not detached, but does not look.
It leaves an instance that is there alone up to the attempt to spawn another, and that
attempt begins with a reset. `start_node_spares_iff` says for every run which polls of a
`start_node` disturb what is there: those that come to the attempt with something to clear
or with an executor that takes the task, and for a node without a spawn source those that
are not already as the node is marked. A waker counts: an instance that waits for its
request is not woken any more once the latch has been reset. In the run of
`parked_pause_lost` a refused attempt clears the acknowledgement of a parked `Pause`
instance, which `resume` looks for.
-/

import EmbassySupervisor.Verb.System
import EmbassySupervisor.Wave.StartOrder
import Mathlib.Data.List.TakeWhile

namespace EmbassySupervisor

open LabelledRun

variable {n : ℕ} {g : Graph n}

namespace World

variable (w : World n)

/-- An instance of the node is up, or parked after it acknowledged a stop. -/
def Live (j : Fin n) : Prop := w.inst j = .up ∨ w.inst j = .parked

/-- What is at the latch of the request: the request, or the waker of who waits for it. -/
def request (j : Fin n) : Bool × Bool := ((w.node j).shutdownWake, (w.node j).shutdownWaker)

/-- What a node's handle says about its instance, whether that waits for its request, the
instance itself, and how often one was spawned are as before. -/
structure Spares (j : Fin n) (w w' : World n) : Prop where
  stale : ∀ k, k.stale = true → w'.flag j k = w.flag j k
  running : w'.flag j .running = w.flag j .running
  request : w'.request j = w.request j
  inst : w'.inst j = w.inst j
  spawned : tally w'.log (.spawned j) = tally w.log (.spawned j)

/-- A reset of the node would change no flag and drop no waker. -/
structure Clean (j : Fin n) : Prop where
  stale : ∀ k, k.stale = true → w.flag j k = false
  request : w.request j = (false, false)

/-- The gates of a `start_node` hold from here on and the last instance has settled. -/
def GatesOpen (j : Fin n) (gates : List (Gate n)) : Prop :=
  (∀ c ∈ gates, c.satisfied w = true) ∧ w.isSettled j = true

/-- The poll of a waiting `start_node` comes to its spawn attempt. -/
def Attempts (cfg : NodeCfg n) (j : Fin n) : StartPhase n → Prop
  | .gate c rest _ => c.latched w = true ∧ w.GatesOpen j (c :: rest)
  | .settle _ => w.isSettled j = true
  | .pass seen deadline =>
    cfg.spawnSlot.any (fun s => (w.slot s).passes != seen) = true ∨ deadline ≤ w.now
  | .event _ | .yield _ => True

/-- A spawn attempt would leave the instance alone: there is nothing to clear, and the
executor does not take another. -/
def AttemptSpares (cfg : NodeCfg n) (sp : Spawn) (j : Fin n) : Prop :=
  w.Clean j ∧ w.spawnAccepted cfg sp j = false

variable {w} {w' : World n} {cfg : NodeCfg n} {sp : Spawn} {j : Fin n}

/-! ## What disturbs an instance -/

theorem Spares.symm (h : w.Spares j w') : w'.Spares j w :=
  ⟨fun k hk => (h.stale k hk).symm, h.running.symm, h.request.symm, h.inst.symm,
    h.spawned.symm⟩

theorem Spares.trans {w₁ : World n} (h : w.Spares j w₁) (h' : w₁.Spares j w') :
    w.Spares j w' :=
  ⟨fun k hk => (h'.stale k hk).trans (h.stale k hk), h'.running.trans h.running,
    h'.request.trans h.request, h'.inst.trans h.inst, h'.spawned.trans h.spawned⟩

/-- What spares the instance may come first. -/
theorem Spares.congr {w₁ : World n} (h : w.Spares j w₁) : w₁.Spares j w' ↔ w.Spares j w' :=
  ⟨h.trans, h.symm.trans⟩

theorem request_of_still (h : w.Still w') : w'.request j = w.request j := by
  rw [request, request, h.shutdownWake, h.shutdownWaker]

theorem spares_of_still (h : w.Still w') : w.Spares j w' :=
  ⟨fun k _ => h.flag j k, h.flag j _, request_of_still h, by rw [h.inst], by rw [h.log]⟩

/-- A transition that is only noted disturbs nothing. -/
theorem spares_note {w₁ : World n} (t : Transition n) :
    w.Spares j (w₁.note j t) ↔ w.Spares j w₁ := by
  constructor
  · rintro ⟨hstale, hrunning, hrequest, hinst, hspawned⟩
    exact ⟨hstale, hrunning, hrequest, hinst, by simpa using hspawned⟩
  · rintro ⟨hstale, hrunning, hrequest, hinst, hspawned⟩
    exact ⟨hstale, hrunning, hrequest, hinst, by simpa using hspawned⟩

theorem clean_congr {w₁ : World n} (hstale : ∀ k, k.stale = true → w₁.flag j k = w.flag j k)
    (hrequest : w₁.request j = w.request j) : w₁.Clean j ↔ w.Clean j := by
  constructor
  · intro h
    exact ⟨fun k hk => (hstale k hk).symm.trans (h.stale k hk), hrequest.symm.trans h.request⟩
  · intro h
    exact ⟨fun k hk => (hstale k hk).trans (h.stale k hk), hrequest.trans h.request⟩

@[simp]
theorem request_reset (w : World n) (j : Fin n) : (w.reset j).request j = (false, false) := by
  simp [request, World.reset, TaskHandle.reset]

@[simp]
theorem request_putFlag (w : World n) (j : Fin n) (f : Flag) (on : Bool) :
    (w.putFlag j f on).request j = w.request j := by
  simp [request, putFlag, TaskHandle.flagPut]

@[simp]
theorem request_started (w : World n) (j : Fin n) : (w.started j).request j = w.request j := by
  simp [request, World.started, World.note, putFlag, setRunning, TaskHandle.setRunning,
    TaskHandle.flagPut]

theorem spares_boundPark (w : World n) (j : Fin n) : w.Spares j (w.boundPark j) := by
  refine ⟨fun k hk => ?_, by simp, request_putFlag w j .boundStopped true, rfl, by simp⟩
  have hne : k ≠ .boundStopped := by
    rintro rfl
    cases hk
  simp [hne]

/-- A reset disturbs an instance that has something to clear. -/
theorem spares_reset {w₁ : World n} (h : (w.reset j).Still w₁) :
    w.Spares j w₁ ↔ w.Clean j := by
  constructor
  · intro hs
    constructor
    · intro k hk
      have hkept := hs.stale k hk
      rw [h.flag] at hkept
      simpa [hk] using hkept.symm
    · rw [← hs.request, request_of_still h, request_reset]
  · intro hclean
    refine ⟨fun k hk => ?_, ?_, ?_, ?_, ?_⟩
    · rw [h.flag, hclean.stale k hk]
      simp [hk]
    · rw [h.flag]
      simp [Flag.stale]
    · rw [request_of_still h, request_reset, hclean.request]
    · rw [h.inst]
      rfl
    · rw [h.log]
      rfl

theorem spawnAccepted_reset : (w.reset j).spawnAccepted cfg sp j = w.spawnAccepted cfg sp j := by
  have hsettled : (w.reset j).isSettled j = w.isSettled j := by
    simp [World.isSettled, World.reset, TaskHandle.isSettled, Flag.stale]
  unfold spawnAccepted
  rw [hsettled]
  rfl

theorem spares_spawnAttempt (deadline : ℕ) :
    w.Spares j (w.spawnAttempt cfg sp j deadline).2 ↔ w.AttemptSpares cfg sp j := by
  unfold spawnAttempt AttemptSpares
  cases hlaunch : (w.reset j).spawn cfg sp j with
  | some u =>
      obtain ⟨haccept, rfl⟩ := spawn_eq_some.mp hlaunch
      rw [spawnAccepted_reset] at haccept
      simp only [hlaunch, haccept, Bool.true_eq_false, and_false, iff_false]
      intro hs
      have hspawned := hs.spawned
      simp at hspawned
  | none =>
      have hrefused : w.spawnAccepted cfg sp j = false := by
        rw [← spawnAccepted_reset]
        simpa [spawn] using hlaunch
      simp only [hlaunch, hrefused, and_true]
      split
      · exact (spares_note _).trans (spares_reset (.refl _))
      · cases cfg.spawnSlot with
        | none => exact spares_reset (.refl _)
        | some s =>
            simp only
            split
            · exact spares_reset (still_requestPass _ s)
            · exact spares_reset (.refl _)

theorem spares_awaitSettled (deadline : ℕ) :
    w.Spares j (w.awaitSettled cfg sp j deadline).2 ↔
      (w.isSettled j = true → w.AttemptSpares cfg sp j) := by
  unfold awaitSettled
  split
  · next hsettled =>
      rw [spares_spawnAttempt]
      simp [hsettled]
  · next hsettled =>
      refine iff_of_true ?_ fun h => absurd h hsettled
      split
      · exact (spares_note _).mpr (spares_of_still (.refl w))
      · exact spares_of_still (.refl w)

theorem spares_awaitGates (gates : List (Gate n)) :
    w.Spares j (w.awaitGates cfg sp j gates).2 ↔
      (w.GatesOpen j gates → w.AttemptSpares cfg sp j) := by
  unfold awaitGates GatesOpen
  cases hdrop : gates.dropWhile (Gate.satisfied w) with
  | nil =>
      have hall : ∀ c ∈ gates, c.satisfied w = true := List.dropWhile_eq_nil_iff.mp hdrop
      rw [spares_awaitSettled]
      exact ⟨fun h hopen => h hopen.2, fun h hsettled => h ⟨hall, hsettled⟩⟩
  | cons c rest =>
      have hclosed : ¬ ∀ c ∈ gates, c.satisfied w = true := by
        intro hall
        rw [List.dropWhile_eq_nil_iff.mpr hall] at hdrop
        cases hdrop
      refine iff_of_true (spares_of_still (Gate.still_takeLatch w c)) fun hopen => ?_
      exact absurd hopen.1 hclosed

/-- Two states in which the gates of the node, its flags and the executor are the same. -/
structure SameGates (j : Fin n) (w w₁ : World n) : Prop where
  satisfied : ∀ c : Gate n, c.satisfied w₁ = c.satisfied w
  settled : w₁.isSettled j = w.isSettled j
  clean : w₁.Clean j ↔ w.Clean j
  accepted : ∀ cfg sp, w₁.spawnAccepted cfg sp j = w.spawnAccepted cfg sp j

theorem SameGates.gatesOpen {w₁ : World n} (h : w.SameGates j w₁) (gates : List (Gate n)) :
    w₁.GatesOpen j gates ↔ w.GatesOpen j gates := by
  simp only [GatesOpen, h.satisfied, h.settled]

theorem SameGates.attemptSpares {w₁ : World n} (h : w.SameGates j w₁) :
    w₁.AttemptSpares cfg sp j ↔ w.AttemptSpares cfg sp j := by
  simp only [AttemptSpares, h.clean, h.accepted]

/-- Taking a latch leaves the gates as they are. -/
theorem sameGates_takeLatch (w : World n) (j : Fin n) (c : Gate n) :
    w.SameGates j (c.takeLatch w) := by
  have hstill := Gate.still_takeLatch w c
  have hflag : ∀ i k, ((c.takeLatch w).node i).flags k = (w.node i).flags k := hstill.flag
  have hsettled : (c.takeLatch w).isSettled j = w.isSettled j := by
    simp only [isSettled, TaskHandle.isSettled, hflag]
  have hslot : ∀ s, ((c.takeLatch w).slot s).filled = (w.slot s).filled := by
    intro s
    cases c with
    | exec s' => by_cases h : s = s' <;> simp [Gate.takeLatch, h]
    | resource | ready => rfl
  have hgate : ∀ r, ((c.takeLatch w).gate r).filled = (w.gate r).filled := by
    intro r
    cases c with
    | resource r' => by_cases h : r = r' <;> simp [Gate.takeLatch, h]
    | exec | ready => rfl
  have hrefused : (c.takeLatch w).refused = w.refused := by cases c <;> rfl
  refine ⟨fun c' => ?_, hsettled, ?_, fun cfg sp => ?_⟩
  · cases c' with
    | exec s => exact hslot s
    | resource r => exact hgate r
    | ready d => exact hflag d .ready
  · exact clean_congr (fun k _ => hstill.flag j k) (request_of_still hstill)
  · have hspawner : (c.takeLatch w).slotFilled cfg = w.slotFilled cfg := by
      unfold slotFilled
      cases cfg.spawnSlot with
      | none => rfl
      | some s => exact hslot s
    have hgates : (c.takeLatch w).gatesFilled cfg = w.gatesFilled cfg := by
      simp only [gatesFilled, hgate]
    simp only [spawnAccepted, hspawner, hsettled, hgates, hrefused]

theorem sameGates_gateEvt (w : World n) (j : Fin n) (b : Bool) :
    w.SameGates j { w with gateEvt := b } :=
  ⟨fun c => by cases c <;> rfl, rfl, clean_congr (fun _ _ => rfl) rfl, fun _ _ => rfl⟩

/-- **One poll of a waiting `start_node`** disturbs the instance exactly if it comes to a
spawn attempt that does. -/
theorem spares_startNodeStep {phase : StartPhase n} {e : StartEnd n}
    (h : w.startNodeStep cfg sp j phase = some (e, w')) :
    w.Spares j w' ↔ (w.Attempts cfg j phase → w.AttemptSpares cfg sp j) := by
  have of_eq : ∀ {x : StartEnd n × World n} {P : Prop}, some x = some (e, w') →
      (w.Spares j x.2 ↔ P) → (w.Spares j w' ↔ P) := by
    intro x P heq hx
    rwa [Option.some.inj heq] at hx
  have fault : ∀ (u : World n) (kind : FaultKind n), u.Spares j (u.gateFault cfg j kind).2 := by
    intro u kind
    unfold gateFault
    split
    · exact spares_boundPark u j
    · exact (spares_note _).mpr (spares_of_still (.refl u))
  cases phase with
  | gate c rest deadline =>
      have hlatch := spares_of_still (j := j) (Gate.still_takeLatch w c)
      have hsame := sameGates_takeLatch w j c
      simp only [startNodeStep] at h
      split at h
      · next hlatched =>
          split at h
          · next hsat =>
              refine of_eq h ?_
              rw [← hlatch.congr, spares_awaitGates, hsame.gatesOpen, hsame.attemptSpares]
              rw [hsame.satisfied] at hsat
              simp [Attempts, GatesOpen, hlatched, hsat]
          · next hsat =>
              rw [hsame.satisfied] at hsat
              have hno : ¬ w.Attempts cfg j (.gate c rest deadline) :=
                fun h => hsat (h.2.1 c List.mem_cons_self)
              split at h
              · refine of_eq h (iff_of_true ?_ fun h => absurd h hno)
                exact hlatch.trans (fault _ _)
              · exact of_eq h (iff_of_true hlatch fun h => absurd h hno)
      · next hlatched =>
          split at h
          · exact of_eq h (iff_of_true (fault w _) fun h => absurd h.1 hlatched)
          · cases h
  | settle deadline =>
      simp only [startNodeStep] at h
      split at h
      · refine of_eq h ?_
        rw [← (spares_of_still (still_gateEvt w false)).congr, spares_awaitSettled,
          (sameGates_gateEvt w j false).attemptSpares]
        rfl
      · split at h
        · refine of_eq h ?_
          rw [spares_awaitSettled]
          rfl
        · cases h
  | pass seen deadline =>
      simp only [startNodeStep] at h
      split at h
      · split at h
        · next hgo =>
            refine of_eq h ?_
            rw [← (spares_of_still (still_gateEvt w false)).congr, spares_spawnAttempt,
              (sameGates_gateEvt w j false).attemptSpares]
            have hattempt : w.Attempts cfg j (.pass seen deadline) := by
              simpa [Attempts] using hgo
            simp [hattempt]
        · next hwait =>
            refine of_eq h (iff_of_true (spares_of_still (still_gateEvt w false)) fun h => ?_)
            exact absurd (by simpa [Attempts] using h) hwait
      · cases h
  | event deadline =>
      simp only [startNodeStep] at h
      split at h
      · refine of_eq h ?_
        rw [← (spares_of_still (still_gateEvt w false)).congr, spares_spawnAttempt,
          (sameGates_gateEvt w j false).attemptSpares]
        simp [Attempts]
      · cases h
  | yield deadline =>
      refine of_eq h ?_
      rw [spares_spawnAttempt]
      simp [Attempts]

/-- The front half of a `start_node` leaves the instance of its node alone: its gates do not
hold that far, or the attempt does; a node without a spawn source is already as it would be
marked. -/
def EntrySpares (g : Graph n) (w : World n) (j : Fin n) : Prop :=
  ∀ cfg, g.nodes j = some cfg →
    match cfg.spawn with
    | none => w.Clean j ∧ w.flag j .running = true
    | some sp => w.GatesOpen j (g.gatesOf cfg) → w.AttemptSpares cfg sp j

/-- **The front half of a `start_node`** disturbs the instance exactly if it marks the node
as it was not, or comes to a spawn attempt that does. -/
theorem spares_startNode (g : Graph n) (w : World n) (j : Fin n) :
    w.Spares j (g.startNode w j).2 ↔ w.EntrySpares g j := by
  unfold Graph.startNode EntrySpares
  cases hcfg : g.nodes j with
  | none =>
      simp only
      exact iff_of_true (spares_of_still (.refl w)) nofun
  | some cfg =>
      have hstale : ∀ k, k.stale = true →
          ((w.putFlag j .collateral false).note j .spawning).flag j k = w.flag j k := by
        intro k hk
        have hne : k ≠ .collateral := by
          rintro rfl
          cases hk
        simp [hne]
      have hnote : w.Spares j ((w.putFlag j .collateral false).note j .spawning) :=
        ⟨hstale, by simp, request_putFlag w j .collateral false, rfl, by simp⟩
      have hsame : w.SameGates j ((w.putFlag j .collateral false).note j .spawning) := by
        have hsettled : ((w.putFlag j .collateral false).note j .spawning).isSettled j =
            w.isSettled j := by
          simp [isSettled, TaskHandle.isSettled, World.note, putFlag]
        refine ⟨fun c => ?_, hsettled, ?_, fun cfg sp => ?_⟩
        · cases c with
          | exec | resource => rfl
          | ready d => simp [Gate.satisfied]
        · exact clean_congr hstale hnote.request
        · simp only [spawnAccepted, hsettled]
          rfl
      simp only [Option.some.injEq, forall_eq']
      generalize (w.putFlag j .collateral false).note j .spawning = u at hnote hsame hstale
      cases hspawn : cfg.spawn with
      | none =>
          simp only
          constructor
          · intro hs
            refine ⟨⟨fun k hk => ?_, ?_⟩, ?_⟩
            · have hkept := hs.stale k hk
              have hbound : k ≠ .boundStopped := by
                rintro rfl
                cases hk
              have hrunning : k ≠ .running := by
                rintro rfl
                cases hk
              simpa [hk, hbound, hrunning] using hkept.symm
            · rw [← hs.request, request_started, request_reset]
            · simpa using hs.running.symm
          · rintro ⟨hclean, hrunning⟩
            apply hnote.trans
            have hclean' := hsame.clean.mpr hclean
            refine ⟨fun k hk => ?_, ?_, ?_, rfl, by simp⟩
            · have hbound : k ≠ .boundStopped := by
                rintro rfl
                cases hk
              have hrun : k ≠ .running := by
                rintro rfl
                cases hk
              simp [hk, hbound, hrun, hclean'.stale k hk]
            · rw [hnote.running, hrunning]
              simp
            · rw [request_started, request_reset, hclean'.request]
      | some sp =>
          simp only
          rw [← hnote.congr, spares_awaitGates, hsame.gatesOpen, hsame.attemptSpares]

end World

/-! ## Runs -/

namespace Sys

variable {s t : Sys n} {l : Label n} {j : Fin n}

/-- A step of a `start_node` of the node leaves an instance that is there alone. -/
def Spared (g : Graph n) (j : Fin n) (s : Sys n) (l : Label n) : Prop :=
  s.world.Live j → ∀ t, next g s l = some t →
    match l with
    | .begin (.startNode i) => i = j → s.world.Spares j t.world
    | .advance k => ∀ phase after, s.calls[k]? = some (.startNode j phase after) →
      s.world.Spares j t.world
    | .begin _ | .task _ | .setDisabled _ _ | .cancel _ => True

/-- The step does not come to a spawn attempt that would disturb the instance, or to marking
the node as it is not. -/
def Harmless (g : Graph n) (j : Fin n) (s : Sys n) (l : Label n) : Prop :=
  s.world.Live j →
    match l with
    | .begin (.startNode i) => i = j → s.world.EntrySpares g j
    | .advance k => ∀ phase after, s.calls[k]? = some (.startNode j phase after) →
      ∀ cfg sp, g.nodes j = some cfg → cfg.spawn = some sp → s.world.Attempts cfg j phase →
        s.world.AttemptSpares cfg sp j
    | .begin _ | .task _ | .setDisabled _ _ | .cancel _ => True

/-- **One step.** -/
theorem spared_iff (h : next g s l = some t) : Spared g j s l ↔ Harmless g j s l := by
  refine forall_congr' fun _ => ?_
  simp only [h, Option.some.injEq, forall_eq']
  cases Sys.next_cases h with
  | @begin v c w _ hbegin =>
      cases v with
      | startNode i =>
          refine forall_congr' fun hij => ?_
          subst hij
          have hworld : (g.startNode s.world i).2 = w := congrArg Prod.snd hbegin
          rw [← hworld]
          exact World.spares_startNode g s.world i
      | _ => exact Iff.rfl
  | @advance k c c' w _ hcall hstep =>
      refine forall_congr' fun phase => forall_congr' fun after => ?_
      refine forall_congr' fun hcall' => ?_
      obtain rfl : c = .startNode j phase after := Option.some.inj (hcall.symm.trans hcall')
      obtain ⟨cfg, hcfg, hstep⟩ := Option.bind_eq_some_iff.mp hstep
      obtain ⟨sp, hspawn, hstep⟩ := Option.bind_eq_some_iff.mp hstep
      obtain ⟨⟨e, u⟩, hpoll, heq⟩ := Option.bind_eq_some_iff.mp hstep
      cases heq
      refine (World.spares_startNodeStep hpoll).trans ⟨fun hspares cfg' sp' hcfg' hspawn' => ?_,
        fun hharmless => hharmless cfg sp hcfg hspawn⟩
      cases hcfg.symm.trans hcfg'
      cases hspawn.symm.trans hspawn'
      exact hspares
  | task | setDisabled | cancel => exact Iff.rfl

/-- **Starting a node that is up.** Along a run every `start_node` of the node leaves an
instance that is there alone, exactly if no step of one is harmful. -/
theorem start_node_spares_iff {labels : List (Label n)}
    (hrun : exec (next g) s labels = some t) :
    Along (next g) (Spared g j) s labels ↔ Along (next g) (Harmless g j) s labels := by
  have hiff := along_and_iff (I := fun _ : Sys n => True) (H := fun _ _ => True)
    (P := Harmless g j) (Q := Spared g j) (fun _ _ _ => trivial)
    (fun _ _ _ _ _ h => (and_iff_left trivial).trans (spared_iff h)) trivial
    (along_of_forall (P := fun _ => True) (fun _ _ => trivial) _) hrun
  exact (and_iff_left trivial).symm.trans hiff

/-- One `Pause` node with a task function of its own. -/
def pausable : Graph 1 where
  deps _ := []
  order := [0]
  topological := topological_one
  nodes _ := some { mode := .pause, spawn := some .fn, slotTimeout := 5, ackTimeout := 2 }
  shape_sound _ cfg _ := cfg.fitsShape_all
  pools_sound := pools_sound_one

/-- Its instance is up, and the executor holds no second one. -/
def pausableUp : World 1 where
  node _ := { flags := fun k => k == .running }
  inst _ := .up
  refused _ := true

/-- Its instance has parked after acknowledging a stop. -/
def pausableParked : World 1 where
  node _ := { flags := fun k => k == .shutdown || k == .dropped }
  inst _ := .parked
  refused _ := true

/-- A call comes to its attempt, is refused, and tries once more. -/
def tryTwice : List (Label 1) := [.begin (.startNode 0), .advance 0]

def refusedTwice : Option (Sys 1) := exec (next pausable) { world := pausableUp } tryTwice

/-- An instance that is running with nothing else set is left alone. -/
theorem start_node_spares_iff_refused :
    pausableUp.Spares 0 (pausable.startNode pausableUp 0).2 := by
  have hrun : exec (next pausable) { world := pausableUp } tryTwice =
      some (refusedTwice.get rfl) := (Option.some_get _).symm
  have hclean : pausableUp.Clean 0 := by
    refine ⟨fun k hk => ?_, rfl⟩
    cases k with
    | shutdown | dropped | busy | completed | ready => rfl
    | running | disabled | detached | boundStopped | collateral | resident | idle => cases hk
  have hfirst : Harmless pausable 0 { world := pausableUp } (.begin (.startNode 0)) := by
    intro _ _ cfg hcfg
    cases hcfg
    exact fun _ => ⟨hclean, rfl⟩
  have hsecond : ∀ u, next pausable { world := pausableUp } (.begin (.startNode 0)) = some u →
      Harmless pausable 0 u (.advance 0) := by
    intro u hu
    cases hu
    intro _ phase after _ cfg sp hcfg hspawn _
    cases hcfg
    cases hspawn
    refine ⟨⟨fun k hk => ?_, rfl⟩, rfl⟩
    cases k with
    | shutdown | dropped | busy | completed | ready => rfl
    | running | disabled | detached | boundStopped | collateral | resident | idle => cases hk
  have hall := (start_node_spares_iff (j := 0) hrun).mpr
    ⟨hfirst, fun u hu => ⟨hsecond u hu, fun _ _ => trivial⟩⟩
  exact hall.1 (Or.inl rfl) _ rfl rfl

/-- One that waits for its request loses its waker to the first attempt. -/
example : (exec (next pausable) { world := pausableUp } (.task (.pollShutdown 0) :: tryTwice)).map
    (fun s => s.world.request 0) = some (false, false) := rfl

/-- A parked instance has lost its acknowledgement once a `start_node` was refused. -/
theorem parked_pause_lost : ¬ ∀ (n : ℕ) (g : Graph n) (j : Fin n) (s t : Sys n)
    (labels : List (Label n)), exec (next g) s labels = some t →
      Along (next g) (Spared g j) s labels := by
  intro h
  have hrun := h 1 pausable 0 { world := pausableParked } _ tryTwice (Option.some_get rfl).symm
  have hspares := hrun.1 (Or.inr rfl) _ rfl rfl
  exact absurd (hspares.stale .dropped rfl) (by decide)

end Sys

end EmbassySupervisor
