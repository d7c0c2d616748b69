/-
# Waiting for a gate that others wait for

Every gate has one latch, and a wait that times out does not look at its gate again. So a
`start_node` that waits relies on this: if its gate holds, the latch is fired or its fire
is still to come (`Attended`). A fill keeps that up, and so does everything a single
`start_node` does. Three things break it. A second `start_node` at the same gate takes the
latch away; the reset of a `clear` falls behind a later fill; and a fill is seen before
its signal.

The parties that fill and empty gates run elsewhere, so they move access by access
(`GateAccess`); made in one go the accesses are the task events
(`accesses_provide` and its siblings). A stretch of `start_node` counts as one step: what
it reads of a gate it reads at once.
-/

import EmbassySupervisor.Verb.System

namespace EmbassySupervisor

open LabelledRun

variable {n : ℕ}

/-- One access of a party that fills or empties a gate. -/
inductive GateAccess (n : ℕ)
  | fill (c : Gate n)
  | signal (c : Gate n)
  | empty (c : Gate n)
  | reset (r : ℕ)
  | fence (s : ℕ) (up : Bool)
  | gateEvent
  | notifyBind
  | requestScale
  deriving DecidableEq

/-- The operations on gates. -/
inductive GateOp (n : ℕ)
  | provide (r : ℕ)
  | restore (r : ℕ)
  | take (r : ℕ)
  | clear (r : ℕ)
  | set (s : ℕ) (fence : Bool)
  | setReady (d : Fin n)
  | clearReady (d : Fin n)

def GateOp.accesses : GateOp n → List (GateAccess n)
  | .provide r | .restore r => [.fill (.resource r), .signal (.resource r), .gateEvent]
  | .take r => [.empty (.resource r)]
  | .clear r => [.empty (.resource r), .reset r]
  | .set s fence => [.fill (.exec s), .fence s fence, .signal (.exec s), .gateEvent]
  | .setReady d => [.fill (.ready d), .signal (.ready d), .gateEvent, .notifyBind, .requestScale]
  | .clearReady d => [.empty (.ready d), .notifyBind]

namespace World

variable (w : World n)

/-- An executor's spawner stays once it is set. -/
def access : GateAccess n → World n
  | .fill (.exec s) => { w with slot := Function.update w.slot s { w.slot s with filled := true } }
  | .fill (.resource r) =>
    { w with gate := Function.update w.gate r { w.gate r with filled := true } }
  | .fill (.ready d) => w.putFlag d .ready true
  | .signal (.exec s) =>
    { w with slot := Function.update w.slot s { w.slot s with filledWake := true } }
  | .signal (.resource r) =>
    { w with gate := Function.update w.gate r { w.gate r with filledWake := true } }
  | .signal (.ready d) => w.onNode d fun h => { h with readyWake := true }
  | .empty (.exec _) => w
  | .empty (.resource r) => w.takeGate r
  | .empty (.ready d) => w.putFlag d .ready false
  | .reset r => { w with gate := Function.update w.gate r { w.gate r with filledWake := false } }
  | .fence s up =>
    { w with
      slot := Function.update w.slot s { w.slot s with fenceUp := (w.slot s).fenceUp || up } }
  | .gateEvent => w.gateEvent
  | .notifyBind => w.notifyBind
  | .requestScale => w.requestScale

/-- Make the accesses of an operation in one go. -/
def perform (o : GateOp n) : World n := o.accesses.foldl access w

theorem now_access (a : GateAccess n) : (w.access a).now = w.now := by
  cases a with
  | fill c | signal c | empty c => cases c <;> rfl
  | reset | fence | gateEvent | notifyBind | requestScale => rfl

theorem perform_provide (r : ℕ) : w.perform (.provide r) = w.provide r := by
  simp [perform, GateOp.accesses, access, provide]

theorem perform_clear (r : ℕ) : w.perform (.clear r) = w.clearGate r := by
  simp [perform, GateOp.accesses, access, takeGate, clearGate]

theorem perform_set (s : ℕ) (fence : Bool) : w.perform (.set s fence) = w.fillSlot s fence := by
  simp [perform, GateOp.accesses, access, fillSlot]

theorem perform_setReady (d : Fin n) : w.perform (.setReady d) = w.setReady d := by
  simp [perform, GateOp.accesses, access, setReady, putFlag, onNode, TaskHandle.setReady]

theorem perform_clearReady (d : Fin n) : w.perform (.clearReady d) = w.clearReady d := by
  simp [perform, GateOp.accesses, access, clearReady]

end World

/-! ## What a step does to a gate -/

namespace Gate

variable {w w' w'' : World n} {c : Gate n}

/-- If the gate holds afterwards, then its latch is fired or everything was so before. -/
def Kept (c : Gate n) (w w' : World n) : Prop :=
  c.satisfied w' = true → c.latched w' = true ∨ c.satisfied w = true ∧ c.latched w = false

theorem Kept.refl (c : Gate n) (w : World n) : c.Kept w w := by
  intro h
  cases hlatch : c.latched w with
  | true => exact Or.inl rfl
  | false => exact Or.inr ⟨h, rfl⟩

theorem Kept.trans (h : c.Kept w w') (h' : c.Kept w' w'') : c.Kept w w'' := by
  intro hsatisfied
  rcases h' hsatisfied with hlatch | ⟨hbefore, hunlatched⟩
  · exact Or.inl hlatch
  · rcases h hbefore with hlatch | hboth
    · rw [hunlatched] at hlatch
      cases hlatch
    · exact Or.inr hboth

theorem kept_of_eq (hsatisfied : c.satisfied w' = c.satisfied w)
    (hlatched : c.latched w' = c.latched w) : c.Kept w w' := by
  rw [Kept, hsatisfied, hlatched]
  exact Kept.refl c w

/-- What `Kept` asks of the fill and the latch of one gate, before and after. -/
private theorem kept_same {filled wake : Bool} (h : filled = true) :
    wake = true ∨ filled = true ∧ wake = false := by
  cases wake with
  | true => exact Or.inl rfl
  | false => exact Or.inr ⟨h, rfl⟩

/-- A change of one handle concerns the readiness of its node. -/
theorem kept_onNode {j : Fin n} {f : TaskHandle → TaskHandle}
    (h : c = .ready j → (f (w.node j)).flags .ready = true → (f (w.node j)).readyWake = true ∨
      (w.node j).flags .ready = true ∧ (w.node j).readyWake = false) :
    c.Kept w (w.onNode j f) := by
  cases c with
  | exec | resource => exact kept_of_eq rfl rfl
  | ready d =>
      by_cases hd : d = j
      · subst hd
        intro hsatisfied
        have hafter : (f (w.node d)).flags .ready = true := by
          simpa [satisfied, World.flag] using hsatisfied
        simpa [satisfied, latched, World.flag] using h rfl hafter
      · apply kept_of_eq
        · simp [satisfied, World.flag, hd]
        · simp [latched, hd]

/-- A change of one executor slot. -/
theorem kept_slot {s : ℕ} {x : SpawnerSlot}
    (h : c = .exec s → x.filled = true →
      x.filledWake = true ∨ (w.slot s).filled = true ∧ (w.slot s).filledWake = false) :
    c.Kept w { w with slot := Function.update w.slot s x } := by
  cases c with
  | resource | ready => exact kept_of_eq rfl rfl
  | exec k =>
      by_cases hk : k = s
      · subst hk
        simpa [Kept, satisfied, latched] using h rfl
      · apply kept_of_eq <;> simp [satisfied, latched, hk]

/-- A change of one resource slot. -/
theorem kept_gate {r : ℕ} {x : ResourceGate}
    (h : c = .resource r → x.filled = true →
      x.filledWake = true ∨ (w.gate r).filled = true ∧ (w.gate r).filledWake = false) :
    c.Kept w { w with gate := Function.update w.gate r x } := by
  cases c with
  | exec | ready => exact kept_of_eq rfl rfl
  | resource k =>
      by_cases hk : k = r
      · subst hk
        simpa [Kept, satisfied, latched] using h rfl
      · apply kept_of_eq <;> simp [satisfied, latched, hk]

theorem kept_putFlag (j : Fin n) {f : Flag} (hf : f ≠ .ready) (on : Bool) :
    c.Kept w (w.putFlag j f on) := by
  refine kept_onNode fun _ hready => kept_same ?_
  simpa [hf.symm] using hready

theorem kept_reset (j : Fin n) : c.Kept w (w.reset j) := by
  refine kept_onNode fun _ hready => ?_
  cases hready

/-- A latch may be taken where the gate does not hold, and anywhere else. -/
theorem kept_takeLatch {d : Gate n} (h : c = d → d.satisfied w = false) :
    c.Kept w (d.takeLatch w) := by
  cases d with
  | exec s =>
      refine kept_slot fun hc hfilled => ?_
      rw [show (w.slot s).filled = false from h hc] at hfilled
      cases hfilled
  | resource r =>
      refine kept_gate fun hc hfilled => ?_
      rw [show (w.gate r).filled = false from h hc] at hfilled
      cases hfilled
  | ready e =>
      show c.Kept w (w.onNode e fun h => { h with readyWake := false })
      refine kept_onNode fun hc hready => ?_
      rw [show (w.node e).flags .ready = false from h hc] at hready
      cases hready

/-! ### A stretch of `start_node` -/

variable {cfg : NodeCfg n} {sp : Spawn} {j : Fin n}

theorem kept_launch (sp : Spawn) (j : Fin n) : c.Kept w (w.launch sp j) := by
  cases sp with
  | fn => exact kept_of_eq rfl rfl
  | task =>
      unfold World.launch
      simp only
      split
      · have hstart : c.Kept w (w.onNode j TaskHandle.svStart) :=
          kept_onNode fun _ hready => kept_same (by simpa using hready)
        exact hstart.trans (kept_of_eq rfl rfl)
      · exact (kept_putFlag j (by decide) true).trans (kept_of_eq rfl rfl)

theorem kept_started (j : Fin n) : c.Kept w (w.started j) := by
  have hrunning : c.Kept w (w.setRunning j true) := kept_putFlag j (by decide) true
  have hnoted : c.Kept w ((w.setRunning j true).note j .started) :=
    hrunning.trans (kept_of_eq rfl rfl)
  exact hnoted.trans (kept_putFlag j (by decide) false)

theorem kept_requestPass (s : ℕ) : c.Kept w (w.requestPass s) := by
  unfold World.requestPass
  split
  · exact kept_slot fun _ hfilled => kept_same hfilled
  · exact Kept.refl c w

theorem kept_spawnAttempt (deadline : ℕ) :
    c.Kept w (w.spawnAttempt cfg sp j deadline).2 := by
  have hreset : c.Kept w (w.reset j) := kept_reset j
  unfold World.spawnAttempt
  cases hspawn : (w.reset j).spawn cfg sp j with
  | some w' =>
      obtain ⟨_, rfl⟩ := World.spawn_eq_some.mp hspawn
      simp only [hspawn]
      exact (hreset.trans (kept_launch sp j)).trans (kept_started j)
  | none =>
      simp only [hspawn]
      split
      · exact hreset.trans (kept_of_eq rfl rfl)
      · cases cfg.spawnSlot with
        | none => exact hreset
        | some s =>
            simp only
            split
            · exact hreset.trans (kept_requestPass s)
            · exact hreset

theorem kept_awaitSettled (deadline : ℕ) :
    c.Kept w (w.awaitSettled cfg sp j deadline).2 := by
  unfold World.awaitSettled
  split
  · exact kept_spawnAttempt deadline
  · split
    · exact kept_of_eq rfl rfl
    · exact Kept.refl c w

/-- The gates that hold are passed; the first that does not is waited for. -/
theorem unsatisfied_of_dropWhile {gates rest : List (Gate n)} {d : Gate n}
    (h : gates.dropWhile (Gate.satisfied w) = d :: rest) : d.satisfied w = false := by
  have hhead := List.head_dropWhile_not (Gate.satisfied w) (l := gates) (by simp [h])
  simpa [h] using hhead

theorem kept_awaitGates (gates : List (Gate n)) :
    c.Kept w (w.awaitGates cfg sp j gates).2 := by
  unfold World.awaitGates
  split
  · exact kept_awaitSettled _
  · next d rest hrest => exact kept_takeLatch fun _ => unsatisfied_of_dropWhile hrest

theorem kept_gateFault (kind : FaultKind n) : c.Kept w (w.gateFault cfg j kind).2 := by
  unfold World.gateFault
  split
  · exact (kept_putFlag j (by decide) true).trans (kept_of_eq rfl rfl)
  · exact kept_of_eq rfl rfl

private theorem kept_of_some_eq {x : StartEnd n × World n} {e : StartEnd n}
    (heq : some x = some (e, w')) (h : c.Kept w x.2) : c.Kept w w' := by
  rwa [Option.some.inj heq] at h

/-- A poll keeps every gate but the one it waits at and finds open. -/
theorem kept_startNodeStep {phase : StartPhase n} {e : StartEnd n}
    (h : w.startNodeStep cfg sp j phase = some (e, w'))
    (hopen : ∀ rest deadline, phase = .gate c rest deadline → c.latched w = true →
      c.satisfied w = false) : c.Kept w w' := by
  have hevent : ∀ {u : World n}, c.Kept { w with gateEvt := false } u → c.Kept w u :=
    fun h => (kept_of_eq rfl rfl : c.Kept w { w with gateEvt := false }).trans h
  cases phase with
  | gate d rest deadline =>
      simp only [World.startNodeStep] at h
      split at h
      · next hlatched =>
          have htaken : c.Kept w (d.takeLatch w) := kept_takeLatch fun hcd => by
            subst hcd
            exact hopen rest deadline rfl hlatched
          split at h
          · exact kept_of_some_eq h (htaken.trans (kept_awaitGates rest))
          · split at h
            · exact kept_of_some_eq h (htaken.trans (kept_gateFault d.fault))
            · cases h
              exact htaken
      · split at h
        · exact kept_of_some_eq h (kept_gateFault d.fault)
        · cases h
  | settle deadline =>
      simp only [World.startNodeStep] at h
      split at h
      · exact kept_of_some_eq h (hevent (kept_awaitSettled deadline))
      · split at h
        · exact kept_of_some_eq h (kept_awaitSettled deadline)
        · cases h
  | pass seen deadline =>
      simp only [World.startNodeStep] at h
      split at h
      · split at h
        · exact kept_of_some_eq h (hevent (kept_spawnAttempt deadline))
        · cases h
          exact kept_of_eq rfl rfl
      · cases h
  | event deadline =>
      simp only [World.startNodeStep] at h
      split at h
      · exact kept_of_some_eq h (hevent (kept_spawnAttempt deadline))
      · cases h
  | yield deadline =>
      exact kept_of_some_eq h (kept_spawnAttempt deadline)

theorem kept_startNode (g : Graph n) (j : Fin n) : c.Kept w (g.startNode w j).2 := by
  unfold Graph.startNode
  cases g.nodes j with
  | none => exact Kept.refl c w
  | some cfg =>
      have hentry : c.Kept w ((w.putFlag j .collateral false).note j .spawning) :=
        (kept_putFlag j (by decide) false).trans (kept_of_eq rfl rfl)
      simp only
      cases cfg.spawn with
      | some sp => exact hentry.trans (kept_awaitGates _)
      | none => exact (hentry.trans (kept_reset j)).trans (kept_started j)

/-! ### The tasks -/

theorem kept_clearGate (r : ℕ) : c.Kept w (w.clearGate r) :=
  kept_gate fun _ hfilled => by cases hfilled

theorem kept_releaseProvided (cfg : NodeCfg n) (j : Fin n) :
    c.Kept w (w.releaseProvided cfg j) := by
  have hclear : ∀ (l : List ℕ) (u : World n), c.Kept w u →
      c.Kept w (l.foldl World.clearGate u) := by
    intro l
    induction l with
    | nil => exact fun u hu => hu
    | cons r l ih => exact fun u hu => ih _ (hu.trans (kept_clearGate r))
  have hclaims : ∀ u : World n, c.Kept u (u.releaseClaims cfg j) := by
    intro u
    unfold World.releaseClaims
    split <;> exact kept_of_eq rfl rfl
  unfold World.releaseProvided
  cases cfg.mode with
  | pause => exact Kept.refl c w
  | terminate | onDemand => exact (hclear _ w (Kept.refl c w)).trans (hclaims _)

theorem kept_settleDropped (j : Fin n) (i : Inst) : c.Kept w (w.settleDropped j i) := by
  have hhandle : c.Kept w (w.onNode j TaskHandle.settleDropped) :=
    kept_onNode fun _ hready => kept_same (by simpa using hready)
  exact hhandle.trans (kept_of_eq rfl rfl)

theorem kept_putBusy (j : Fin n) (busy : Bool) : c.Kept w (w.putBusy j busy) := by
  have hput : c.Kept w (w.putFlag j .busy busy) := kept_putFlag j (by decide) busy
  unfold World.putBusy
  simp only
  split
  · exact hput.trans (kept_of_eq rfl rfl)
  · exact hput

/-- One access keeps a gate, unless it fills it, or is the reset of an open one. -/
theorem kept_access {a : GateAccess n} (hfill : a ≠ .fill c)
    (hreset : ∀ r, a = .reset r → c = .resource r → c.satisfied w = false) :
    c.Kept w (w.access a) := by
  cases a with
  | fill d =>
      have hcd : c ≠ d := fun heq => hfill (by rw [heq])
      cases d with
      | exec s => exact kept_slot fun hc => absurd hc hcd
      | resource r => exact kept_gate fun hc => absurd hc hcd
      | ready d =>
          show c.Kept w (w.onNode d fun h => h.flagPut .ready true)
          exact kept_onNode fun hc => absurd hc hcd
  | signal d =>
      cases d with
      | exec s => exact kept_slot fun _ _ => Or.inl rfl
      | resource r => exact kept_gate fun _ _ => Or.inl rfl
      | ready d =>
          show c.Kept w (w.onNode d fun h => { h with readyWake := true })
          exact kept_onNode fun _ _ => Or.inl rfl
  | empty d =>
      cases d with
      | exec s => exact Kept.refl c w
      | resource r => exact kept_gate fun _ hfilled => by cases hfilled
      | ready d =>
          show c.Kept w (w.onNode d fun h => h.flagPut .ready false)
          exact kept_onNode fun _ hready => by simp at hready
  | reset r =>
      refine kept_gate fun hc hfilled => ?_
      have hshut : (w.gate r).filled = false := by
        have hsatisfied := hreset r rfl hc
        rwa [hc] at hsatisfied
      rw [show (w.gate r).filled = true from hfilled] at hshut
      cases hshut
  | fence s up => exact kept_slot fun _ hfilled => kept_same hfilled
  | gateEvent | notifyBind | requestScale => exact kept_of_eq rfl rfl

theorem latched_signal (w : World n) (c : Gate n) : c.latched (w.access (.signal c)) = true := by
  cases c <;> simp [latched, World.access]

/-- An event that fills a gate fires its latch. -/
theorem kept_apply {g : Graph n} {e : TaskEvent n} (h : e.apply g w = some w') : c.Kept w w' := by
  cases e with
  | elapse ticks | setRefused k refused =>
      cases h
      exact kept_of_eq rfl rfl
  | ackDropped k =>
      simp only [TaskEvent.apply, Option.bind_eq_bind, Option.bind_eq_some_iff] at h
      obtain ⟨cfg, -, h⟩ := h
      split at h
      · cases h
      · cases h
        exact (kept_releaseProvided cfg k).trans (kept_settleDropped k _)
  | markExited k =>
      simp only [TaskEvent.apply, Option.bind_eq_bind, Option.bind_eq_some_iff] at h
      obtain ⟨cfg, -, h⟩ := h
      split at h
      · cases h
      · cases h
        exact ((kept_releaseProvided cfg k).trans (kept_putFlag k (by decide) true)).trans
          (kept_settleDropped k _)
  | appSpawn k =>
      simp only [TaskEvent.apply, Option.bind_eq_bind, Option.bind_eq_some_iff] at h
      obtain ⟨cfg, -, h⟩ := h
      split at h
      · cases h
        exact kept_of_eq rfl rfl
      · cases h
  | park k =>
      simp only [TaskEvent.apply] at h
      split at h
      · cases h
        exact (kept_putFlag k (by decide) true).trans (kept_of_eq rfl rfl)
      · cases h
  | setReady k =>
      cases h
      have hput : c.Kept w (w.onNode k TaskHandle.setReady) := kept_onNode fun _ _ => Or.inl rfl
      exact hput.trans (kept_of_eq rfl rfl)
  | clearReady k =>
      cases h
      have hput : c.Kept w (w.putFlag k .ready false) :=
        kept_onNode fun _ hready => by simp at hready
      exact hput.trans (kept_of_eq rfl rfl)
  | markBusy k =>
      cases h
      exact kept_putBusy k true
  | markIdle k =>
      cases h
      exact kept_putBusy k false
  | setDetached k detached =>
      cases h
      exact kept_putFlag k (by decide) detached
  | pollShutdown k =>
      cases h
      apply kept_onNode
      intro _ hready
      rw [TaskHandle.flags_pollShutdown] at hready
      rw [TaskHandle.readyWake_pollShutdown]
      exact kept_same hready
  | takeResume k =>
      cases h
      exact kept_onNode fun _ hready => kept_same hready
  | provide r =>
      cases h
      have hfill : c.Kept w
          { w with gate := Function.update w.gate r { filled := true, filledWake := true } } :=
        kept_gate fun _ _ => Or.inl rfl
      exact hfill.trans (kept_of_eq rfl rfl)
  | take r =>
      cases h
      exact kept_access (a := .empty (.resource r)) (by simp) (by simp)
  | clear r =>
      cases h
      exact kept_clearGate r
  | fillSlot s fence =>
      cases h
      have hfill : c.Kept w
          { w with
            slot := Function.update w.slot s
              { w.slot s with
                filled := true
                filledWake := true
                fenceUp := (w.slot s).fenceUp || fence } } :=
        kept_slot fun _ _ => Or.inl rfl
      exact hfill.trans (kept_of_eq rfl rfl)
  | fencePass s =>
      simp only [TaskEvent.apply] at h
      split at h
      · cases h
        have hpass : c.Kept w
            { w with
              slot := Function.update w.slot s
                { w.slot s with
                  fenceReq := false
                  passes := ((w.slot s).passes + 1) % 2 ^ 16 } } :=
          kept_slot fun _ hfilled => kept_same hfilled
        exact hpass.trans (kept_of_eq rfl rfl)
      · cases h

/-! ### What a wait begins with -/

/-- A stretch that stops for no gate: it waits for none, reports none and has not put its
node off for one. -/
structure Gateless (j : Fin n) (e : StartEnd n) (w : World n) : Prop where
  wait : ∀ c rest deadline, e ≠ .wait (.gate c rest deadline)
  fault : ∀ f, e = .done (some f) → f.kind = .spawn
  parked : e = .done none → w.flag j .boundStopped = false

theorem gateless_spawnAttempt (deadline : ℕ) :
    Gateless j (w.spawnAttempt cfg sp j deadline).1 (w.spawnAttempt cfg sp j deadline).2 := by
  unfold World.spawnAttempt
  cases hspawn : (w.reset j).spawn cfg sp j with
  | some w' =>
      simp only [hspawn]
      exact ⟨fun _ _ _ => by simp, fun _ => by simp, fun _ => by simp⟩
  | none =>
      simp only [hspawn]
      split
      · refine ⟨fun _ _ _ => by simp [World.spawnFault], fun f hf => ?_, fun h => ?_⟩
        · cases hf
          rfl
        · cases h
      · cases cfg.spawnSlot with
        | none => exact ⟨fun _ _ _ => by simp, fun _ => by simp, fun h => by cases h⟩
        | some s =>
            simp only
            split <;> exact ⟨fun _ _ _ => by simp, fun _ => by simp, fun h => by cases h⟩

theorem gateless_awaitSettled (deadline : ℕ) :
    Gateless j (w.awaitSettled cfg sp j deadline).1 (w.awaitSettled cfg sp j deadline).2 := by
  unfold World.awaitSettled
  split
  · exact gateless_spawnAttempt deadline
  · split
    · refine ⟨fun _ _ _ => by simp [World.spawnFault], fun f hf => ?_, fun h => ?_⟩
      · cases hf
        rfl
      · cases h
    · exact ⟨fun _ _ _ => by simp, fun _ => by simp, fun h => by cases h⟩

/-- How a stretch that goes through gates ends: at one it has found shut, or for no gate. -/
inductive Passes (j : Fin n) : StartEnd n → World n → Prop
  | shut {w : World n} {c : Gate n} {rest : List (Gate n)} {deadline : ℕ}
      (hshut : c.satisfied w = false) : Passes j (.wait (.gate c rest deadline)) w
  | through {w : World n} {e : StartEnd n} (h : Gateless j e w) : Passes j e w

theorem passes_awaitGates (gates : List (Gate n)) :
    Passes j (w.awaitGates cfg sp j gates).1 (w.awaitGates cfg sp j gates).2 := by
  unfold World.awaitGates
  split
  · exact .through (gateless_awaitSettled _)
  · next d rest hrest =>
      apply Passes.shut
      rw [satisfied_takeLatch]
      exact unsatisfied_of_dropWhile hrest

/-- How a poll ends: as any stretch, or it gives up on the gate it waits at, which was shut
or had not fired its latch. -/
inductive Polls (cfg : NodeCfg n) (w : World n) (j : Fin n) (phase : StartPhase n) :
    StartEnd n → World n → Prop
  | passes {e : StartEnd n} {w' : World n} (h : Passes j e w') : Polls cfg w j phase e w'
  | gaveUp {c : Gate n} {rest : List (Gate n)} {deadline : ℕ} {e : StartEnd n} {w' : World n}
      (hphase : phase = .gate c rest deadline) (hdue : deadline ≤ w.now)
      (hshut : c.latched w = true → c.satisfied w = false)
      (hend : e = .done (some { node := j, kind := c.fault }) ∨ e = .done none) :
      Polls cfg w j phase e w'

private theorem end_gateFault (kind : FaultKind n) :
    (w.gateFault cfg j kind).1 = .done (some { node := j, kind }) ∨
      (w.gateFault cfg j kind).1 = .done none := by
  unfold World.gateFault
  split
  · exact Or.inr rfl
  · exact Or.inl rfl

private theorem polls_of_some_eq {phase : StartPhase n} {x : StartEnd n × World n}
    {e : StartEnd n} (heq : some x = some (e, w')) (h : Polls cfg w j phase x.1 x.2) :
    Polls cfg w j phase e w' := by
  rwa [Option.some.inj heq] at h

theorem polls_startNodeStep {phase : StartPhase n} {e : StartEnd n}
    (h : w.startNodeStep cfg sp j phase = some (e, w')) : Polls cfg w j phase e w' := by
  cases phase with
  | gate c rest deadline =>
      have hnow : (c.takeLatch w).now = w.now := (still_takeLatch w c).now
      simp only [World.startNodeStep, satisfied_takeLatch, hnow] at h
      split at h
      · split at h
        · exact polls_of_some_eq h (.passes (passes_awaitGates rest))
        · next hshut =>
            have hshut : c.satisfied w = false := by simpa using hshut
            split at h
            · next hdue =>
                exact polls_of_some_eq h (.gaveUp rfl hdue (fun _ => hshut) (end_gateFault _))
            · cases h
              apply Polls.passes
              apply Passes.shut
              rwa [satisfied_takeLatch]
      · next hlatched =>
          split at h
          · next hdue =>
              exact polls_of_some_eq h
                (.gaveUp rfl hdue (fun h => absurd h hlatched) (end_gateFault _))
          · cases h
  | settle deadline =>
      simp only [World.startNodeStep] at h
      split at h
      · exact polls_of_some_eq h (.passes (.through (gateless_awaitSettled deadline)))
      · split at h
        · exact polls_of_some_eq h (.passes (.through (gateless_awaitSettled deadline)))
        · cases h
  | pass seen deadline =>
      simp only [World.startNodeStep] at h
      split at h
      · split at h
        · exact polls_of_some_eq h (.passes (.through (gateless_spawnAttempt deadline)))
        · cases h
          exact .passes (.through ⟨fun _ _ _ => by simp, fun _ => by simp, fun h => by cases h⟩)
      · cases h
  | event deadline =>
      simp only [World.startNodeStep] at h
      split at h
      · exact polls_of_some_eq h (.passes (.through (gateless_spawnAttempt deadline)))
      · cases h
  | yield deadline =>
      exact polls_of_some_eq h (.passes (.through (gateless_spawnAttempt deadline)))

/-- Entering `start_node` gives up on nothing. -/
theorem passes_startNode (g : Graph n) (hcfg : g.occupied j = true) :
    Passes j (g.startNode w j).1 (g.startNode w j).2 := by
  obtain ⟨cfg, hcfg⟩ := g.occupied_iff.mp hcfg
  unfold Graph.startNode
  rw [hcfg]
  simp only
  cases cfg.spawn with
  | some sp => exact passes_awaitGates _
  | none => exact .through ⟨fun _ _ _ => by simp, fun _ => by simp, fun _ => by simp⟩

end Gate

end EmbassySupervisor
