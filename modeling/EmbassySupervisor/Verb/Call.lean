/-
# The verbs as calls

A call of a verb is an asynchronous function: `begin` runs its synchronous front
half up to the beginning of a wave or to the first await, and `step` carries it
on from there. The phases of a call are the continuations of the source's verbs:
a stop wave with what follows it, a start wave, a single node being started or
stopped, and the second phase of `apply_bind` over the slots still to visit.

`step_cases` is the inversion all later invariants use.
-/

import EmbassySupervisor.Verb.OneNode
import EmbassySupervisor.Verb.Selection

namespace EmbassySupervisor

variable {n : ℕ}

/-- Decision of an elastic scaling policy. -/
inductive ScaleAction
  | none
  | grow
  | shrink
  deriving DecidableEq, Repr

/-- The lifecycle verbs, and one evaluation of a pool under a policy's decision.
`start` carries the answers of the `enabled_if` predicates. -/
inductive Verb (n : ℕ)
  | start (enabled : Fin n → Bool)
  | startNode (node : Fin n)
  | stopNode (node : Fin n)
  | teardown
  | teardownContinue
  | resumeNode (node : Fin n)
  | resumePausable
  | respawnTerminate
  | deactivate (target : Fin n)
  | activate (target : Fin n)
  | restart (target : Fin n)
  | applyBind
  | scale (pool : ℕ) (action : ScaleAction)

/-- What follows a stop wave that ends without a fault: the verb returns,
`restart` brings its set up, or `apply_bind` goes on to its second phase. -/
inductive AfterStop (n : ℕ)
  | ret
  | restart (set : Fin n → Bool)
  | bind

/-- What follows a `start_node`: the verb returns its result, a pool drops it, or
`apply_bind` goes on with the slots still to visit. -/
inductive AfterStart (n : ℕ)
  | ret
  | ignore
  | bind (todo : List (Fin n))

/-- A call in flight. A start wave may ask for scaling when it ends. -/
inductive Call (n : ℕ)
  | stopping (wave : StopWave n) (next : AfterStop n)
  | starting (wave : StartWave n) (poke : Bool)
  | startNode (node : Fin n) (phase : StartPhase n) (next : AfterStart n)
  | stopNode (node : Fin n) (deadline : ℕ)
  | bindUp (todo : List (Fin n))
  | done (r : Outcome n)
  | panic
  | cancelled

namespace AfterStart

/-- The call a finished `start_node` leaves behind. -/
def resume (next : AfterStart n) (r : Outcome n) : Call n :=
  match next with
  | .ret => .done r
  | .ignore => .done none
  | .bind todo => .bindUp todo

/-- The call a stretch of `start_node` leaves behind. -/
def proceed (next : AfterStart n) (j : Fin n) : StartEnd n → Call n
  | .wait phase => .startNode j phase next
  | .done r => next.resume r

end AfterStart

/-! A stretch of `start_node` is no part of a stop. -/

theorem Call.proceed_ne_stopping (next : AfterStart n) (i : Fin n) (e : StartEnd n)
    (s : StopWave n) (after : AfterStop n) : next.proceed i e ≠ .stopping s after := by
  cases e with
  | wait => simp [AfterStart.proceed]
  | done r => cases next <;> simp [AfterStart.proceed, AfterStart.resume]

theorem Call.proceed_ne_stopNode (next : AfterStart n) (i j : Fin n) (e : StartEnd n)
    (deadline : ℕ) : next.proceed j e ≠ .stopNode i deadline := by
  cases e with
  | wait => simp [AfterStart.proceed]
  | done r => cases next <;> simp [AfterStart.proceed, AfterStart.resume]

/-- Record a stop on account of a bound provider for each chosen slot. -/
def World.recordBoundStops (w : World n) (chosen : Fin n → Bool) (js : List (Fin n)) :
    World n :=
  (js.filter chosen).foldl (fun w j => w.record (.boundStop j)) w

namespace Graph

variable (g : Graph n) (w : World n)

/-! ## The front halves -/

/-- Count a restart against the target's budget; `false` refuses it. Instants
and the window are truncated to 32 bits, as the counters are. -/
def countRestart (j : Fin n) : Bool × World n :=
  match (g.nodes j).bind (·.restartBudget) with
  | none => (true, w)
  | some (max, window) =>
    let h := w.node j
    let now := w.now % 2 ^ 32
    let windowTicks := min window ((2 ^ 32 - 1) / 2)
    if h.restarts == 0 ||
        (now + 2 ^ 32 - h.restartWindowStart) % 2 ^ 32 > windowTicks then
      (true, w.onNode j fun h => { h with restartWindowStart := now, restarts := 1 })
    else if h.restarts ≥ max then (false, w)
    else (true, w.onNode j fun h => { h with restarts := h.restarts + 1 })

/-- What `restart` brings up again: the members of its set that are down and not
held. -/
def restartUp (set : Fin n → Bool) : StartWave n :=
  g.startNodes w (fun j cfg h => set j && !h.flags .detached && !h.flags .disabled &&
    !h.flags .collateral && !h.flags .running && !g.deferred cfg) false

/-- Resume every parked instance that may be resumed, in order. -/
def resumeAll (js : List (Fin n)) : World n :=
  js.foldl (fun w j => if (g.nodes j).any fun cfg => w.resumable cfg j then w.resume j else w) w

/-- The member a pool evaluation picks. -/
def poolMember (members : List (Fin n)) (pick : Fin n → Bool) : Option (Fin n) :=
  members.find? fun j => (g.nodes j).any (fun cfg => cfg.mode == .onDemand) && pick j

/-- Every dependency of the node is in the graph and running. -/
def depsRunning (j : Fin n) : Bool :=
  g.occupied j && (g.deps j).all fun d => g.occupied d && w.flag d .running

/-- Run a verb up to its first await or the beginning of its wave. -/
def begin (w : World n) : Verb n → Call n × World n
  | .start enabled =>
    let w := g.disableBy w enabled
    (.starting (g.startNodes w (fun _ cfg h => !g.deferred cfg && !h.flags .disabled &&
      !h.flags .collateral && !h.flags .running && !h.flags .detached) false) false, w)
  | .startNode j =>
    let (e, w) := g.startNode w j
    (AfterStart.ret.proceed j e, w)
  | .stopNode j =>
    match g.nodes j with
    | none => (.done none, w)
    | some cfg =>
      match w.stopNode cfg j with
      | (none, w) => (.done none, w)
      | (some deadline, w) => (.stopNode j deadline, w)
  | .teardown =>
    let (wave, w) := g.stopNodes w (fun _ h => (h.isStoppable, h)) false
    (.stopping wave .ret, w)
  | .teardownContinue =>
    let (wave, w) := g.stopNodes w (fun _ h => (h.isStoppable, h)) true
    (.stopping wave .ret, w)
  | .resumeNode j =>
    if g.has .pause && (g.nodes j).any fun cfg => w.resumable cfg j then
      (.done none, w.resume j)
    else (.done none, w)
  | .resumePausable =>
    if g.has .pause then (.done none, g.resumeAll w g.order) else (.done none, w)
  | .respawnTerminate =>
    (.starting (g.startNodes w (fun _ cfg h => cfg.mode == .terminate && !h.flags .disabled &&
      !h.flags .collateral && !h.flags .detached && !h.flags .running) false) false, w)
  | .deactivate target =>
    let seed := g.seed target
    let set := g.collectDependents w seed
    let (wave, w) := g.stopNodes w (fun j h =>
      if !set j || h.flags .detached then (false, h) else h.latchDeactivated (seed j)) false
    (.stopping wave .ret, w)
  | .activate target =>
    let set := g.collectDependencies w (g.seed target)
    let w := g.enable w set
    let release := g.release w
    let w := { w with node := fun j => (release j).handle }
    (.starting (g.startNodes w (fun j cfg h => (set j || (release j).revive) &&
      !h.flags .detached && !h.flags .running && !h.flags .collateral &&
      !g.deferred cfg) true) true, w)
  | .restart target =>
    match g.countRestart w target with
    | (false, w) => (.done (some { node := target, kind := .restartStorm }), w)
    | (true, w) =>
      let set := g.collectDependents w (g.seed target)
      let (wave, w) := g.stopNodes w (fun j h => (set j && h.isStoppable, h)) false
      (.stopping wave (.restart set), w)
  | .applyBind =>
    if g.has .boundDeps then
      let stopping := g.boundStopping w
      let (wave, w) := g.stopNodes w (fun j h =>
        if stopping j then (true, h.flagPut .boundStopped true) else (false, h)) false
      (.stopping wave .bind, w.recordBoundStops wave.chosen g.order.reverse)
    else (.done none, w)
  | .scale pool action =>
    match g.pools[pool]? with
    | none => (.done none, w)
    | some members =>
      match action with
      | .none => (.done none, w)
      | .grow =>
        match g.poolMember members fun j =>
          !w.flag j .running && !w.flag j .disabled && !w.flag j .collateral with
        | none => (.done none, w)
        | some j =>
          if g.depsRunning w j && (g.nodes j).any (w.depsReady ·) then
            let (e, w) := g.startNode w j
            (AfterStart.ignore.proceed j e, w)
          else (.done none, w)
      | .shrink =>
        match g.poolMember members fun j => w.flag j .running && !w.flag j .busy with
        | none => (.done none, w)
        | some j =>
          match g.nodes j with
          | none => (.done none, w)
          | some cfg =>
            match w.stopNode cfg j with
            | (none, w) => (.done none, w)
            | (some deadline, w) => (.stopNode j deadline, w)

/-! ## Carrying a call on -/

/-- Visit a slot in the second phase of `apply_bind`. -/
def bindVisit (j : Fin n) (todo : List (Fin n)) : Call n × World n :=
  match g.nodes j with
  | none => (.bindUp todo, w)
  | some cfg =>
    if w.bindable cfg j then
      match cfg.mode with
      | .terminate =>
        let (e, w) := g.startNode w j
        ((AfterStart.bind todo).proceed j e, w)
      | .pause =>
        if g.has .pause then (.bindUp todo, (w.resume j).putFlag j .boundStopped false)
        else (.bindUp todo, w)
      | .onDemand =>
        let w := w.putFlag j .boundStopped false
        (.bindUp todo, if g.has .pools then w.requestScale else w)
    else (.bindUp todo, w)

end Graph

namespace Call

/-- Carry a call on: one visit of a wave, one stretch of a single-node verb, or
the turn from one phase to the next. -/
def step (g : Graph n) (w : World n) : Call n → Option (Call n × World n)
  | .stopping wave next =>
    match wave.pc with
    | .done (some f) => some (.done (some f), w)
    | .done none =>
      match next with
      | .ret => some (.done none, w)
      | .restart set => some (.starting (g.restartUp w set) true, w)
      | .bind => some (.bindUp g.order, w)
    | .panic => some (.panic, w)
    | .signal _ | .collect _ _ | .expire _ _ _ _ | .sleep _ =>
      (wave.step g w).map fun (wave, w) => (.stopping wave next, w)
  | .starting wave poke =>
    match wave.pc with
    | .done r => some (.done r, if poke && g.has .pools then w.requestScale else w)
    | .panic => some (.panic, w)
    | .visit _ _ | .yield | .sleep _ =>
      (wave.step g w).map fun (wave, w) => (.starting wave poke, w)
  | .startNode j phase next => do
    let cfg ← g.nodes j
    let sp ← cfg.spawn
    let (e, w) ← w.startNodeStep cfg sp j phase
    some (next.proceed j e, w)
  | .stopNode j deadline => do
    let cfg ← g.nodes j
    let (r, w) ← w.stopNodeStep g cfg j deadline
    some (.done r, w)
  | .bindUp [] => some (.done none, w)
  | .bindUp (j :: todo) => some (g.bindVisit w j todo)
  | .done _ | .panic | .cancelled => none

/-! ## What a step can do -/

/-- The effects of one step of a call, with the conditions under which each
happens. -/
inductive Step (g : Graph n) (w : World n) : Call n → Call n → World n → Prop
  | stopWave {s s' : StopWave n} {next : AfterStop n} {w' : World n}
      (h : s.Step g w s' w') : Step g w (.stopping s next) (.stopping s' next) w'
  | startWave {s s' : StartWave n} {poke : Bool} {w' : World n}
      (h : s.Step g w s' w') : Step g w (.starting s poke) (.starting s' poke) w'
  | stopFault {s : StopWave n} {next : AfterStop n} {f : NodeFault n}
      (hpc : s.pc = .done (some f)) : Step g w (.stopping s next) (.done (some f)) w
  | stopDone {s : StopWave n} (hpc : s.pc = .done none) :
      Step g w (.stopping s .ret) (.done none) w
  | restartUp {s : StopWave n} {set : Fin n → Bool} (hpc : s.pc = .done none) :
      Step g w (.stopping s (.restart set)) (.starting (g.restartUp w set) true) w
  | bindPhase {s : StopWave n} (hpc : s.pc = .done none) :
      Step g w (.stopping s .bind) (.bindUp g.order) w
  | stopPanic {s : StopWave n} {next : AfterStop n} (hpc : s.pc = .panic) :
      Step g w (.stopping s next) .panic w
  | startPanic {s : StartWave n} {poke : Bool} (hpc : s.pc = .panic) :
      Step g w (.starting s poke) .panic w
  | startDone {s : StartWave n} {poke : Bool} {r : Outcome n} {w' : World n}
      (hpc : s.pc = .done r) (hw : w.Still w') : Step g w (.starting s poke) (.done r) w'
  | startNode {j : Fin n} {phase : StartPhase n} {next : AfterStart n} {cfg : NodeCfg n}
      {e : StartEnd n} {w' : World n} (hcfg : g.nodes j = some cfg)
      (h : StartEffect cfg w j e w')
      (hpoll : ∃ sp, w.startNodeStep cfg sp j phase = some (e, w')) :
      Step g w (.startNode j phase next) (next.proceed j e) w'
  | ackNode {j : Fin n} {deadline : ℕ} (hwake : (w.node j).droppedWake = true) :
      Step g w (.stopNode j deadline) (.done none)
        ((w.onNode j fun h => { h with droppedWake := false }).takeAck j)
  | missNode {j : Fin n} {deadline : ℕ} {cfg : NodeCfg n}
      (hwake : (w.node j).droppedWake = false) (hdue : deadline ≤ w.now) :
      Step g w (.stopNode j deadline) (.done (some { node := j, kind := .shutdownTimeout }))
        (w.missAck g cfg j)
  | bindEnd : Step g w (.bindUp []) (.done none) w
  | bindSkip {j : Fin n} {todo : List (Fin n)} :
      Step g w (.bindUp (j :: todo)) (.bindUp todo) w
  | bindStart {j : Fin n} {todo : List (Fin n)} {cfg : NodeCfg n} {e : StartEnd n}
      {w' : World n} (hcfg : g.nodes j = some cfg) (hbind : w.bindable cfg j = true)
      (hmode : cfg.mode = .terminate) (h : StartEntry g w j e w') :
      Step g w (.bindUp (j :: todo)) ((AfterStart.bind todo).proceed j e) w'
  | bindResume {j : Fin n} {todo : List (Fin n)} {cfg : NodeCfg n}
      (hcfg : g.nodes j = some cfg) (hbind : w.bindable cfg j = true)
      (hmode : cfg.mode = .pause) :
      Step g w (.bindUp (j :: todo)) (.bindUp todo)
        ((w.resume j).putFlag j .boundStopped false)
  | bindUnmark {j : Fin n} {todo : List (Fin n)} {cfg : NodeCfg n} {w' : World n}
      (hcfg : g.nodes j = some cfg) (hbind : w.bindable cfg j = true)
      (hmode : cfg.mode = .onDemand) (hw : (w.putFlag j .boundStopped false).Still w')
      (hpost : g.has .pools = true → w'.scaleReq = true) :
      Step g w (.bindUp (j :: todo)) (.bindUp todo) w'

private theorem bindVisit_cases (g : Graph n) (w : World n) (j : Fin n)
    (todo : List (Fin n)) :
    Step g w (.bindUp (j :: todo)) (g.bindVisit w j todo).1 (g.bindVisit w j todo).2 := by
  unfold Graph.bindVisit
  cases hcfg : g.nodes j with
  | none => exact .bindSkip
  | some cfg =>
      by_cases hbind : w.bindable cfg j = true
      · simp only [if_pos hbind]
        cases hmode : cfg.mode with
        | terminate => exact .bindStart hcfg hbind hmode (startNode_cases g w j)
        | pause =>
            simp only
            split
            · exact .bindResume hcfg hbind hmode
            · exact .bindSkip
        | onDemand =>
            simp only
            split
            · exact .bindUnmark hcfg hbind hmode (World.still_requestScale _) fun _ => rfl
            · next hnone => exact .bindUnmark hcfg hbind hmode (.refl _) fun h => absurd h hnone
      · simp only [if_neg hbind]
        exact .bindSkip

/-- **Inversion of a step of a call.** -/
theorem step_cases {g : Graph n} {w w' : World n} {c c' : Call n}
    (h : c.step g w = some (c', w')) : Step g w c c' w' := by
  cases c with
  | stopping wave next =>
      have own : ∀ {s' u}, wave.step g w = some (s', u) →
          Step g w (.stopping wave next) (.stopping s' next) u :=
        fun hstep => .stopWave (StopWave.step_cases hstep)
      unfold step at h
      cases hpc : wave.pc with
      | done r =>
          cases r with
          | some f =>
              simp only [hpc] at h
              cases h
              exact .stopFault hpc
          | none =>
              simp only [hpc] at h
              cases next <;> cases h
              · exact .stopDone hpc
              · exact .restartUp hpc
              · exact .bindPhase hpc
      | panic =>
          simp only [hpc] at h
          cases h
          exact .stopPanic hpc
      | signal | collect | expire | sleep =>
          simp only [hpc, Option.map_eq_some_iff] at h
          obtain ⟨⟨s', u⟩, hstep, heq⟩ := h
          cases heq
          exact own hstep
  | starting wave poke =>
      have own : ∀ {s' u}, wave.step g w = some (s', u) →
          Step g w (.starting wave poke) (.starting s' poke) u :=
        fun hstep => .startWave (StartWave.step_cases hstep)
      unfold step at h
      cases hpc : wave.pc with
      | done r =>
          simp only [hpc] at h
          split at h
          · cases h
            exact .startDone hpc (World.still_requestScale w)
          · cases h
            exact .startDone hpc (.refl w)
      | panic =>
          simp only [hpc] at h
          cases h
          exact .startPanic hpc
      | visit | yield | sleep =>
          simp only [hpc, Option.map_eq_some_iff] at h
          obtain ⟨⟨s', u⟩, hstep, heq⟩ := h
          cases heq
          exact own hstep
  | startNode j phase next =>
      obtain ⟨cfg, hcfg, h⟩ := Option.bind_eq_some_iff.mp h
      obtain ⟨sp, hspawn, h⟩ := Option.bind_eq_some_iff.mp h
      obtain ⟨⟨e, u⟩, hstep, h⟩ := Option.bind_eq_some_iff.mp h
      cases h
      exact .startNode hcfg (startNodeStep_cases hspawn hstep) ⟨sp, hstep⟩
  | stopNode j deadline =>
      obtain ⟨cfg, _, h⟩ := Option.bind_eq_some_iff.mp h
      obtain ⟨⟨r, u⟩, hstep, h⟩ := Option.bind_eq_some_iff.mp h
      cases h
      unfold World.stopNodeStep at hstep
      by_cases hwake : (w.node j).droppedWake = true
      · rw [if_pos hwake] at hstep
        cases hstep
        exact .ackNode hwake
      · rw [if_neg hwake] at hstep
        by_cases hdue : deadline ≤ w.now
        · rw [if_pos hdue] at hstep
          cases hstep
          exact .missNode (by simpa using hwake) hdue
        · rw [if_neg hdue] at hstep
          simp at hstep
  | bindUp todo =>
      cases todo with
      | nil =>
          cases h
          exact .bindEnd
      | cons j todo =>
          have hvisit := bindVisit_cases g w j todo
          rwa [Option.some.inj h] at hvisit
  | done | panic | cancelled => simp [step] at h

/-- Once a verb has begun, no step of it writes a flag that is neither stale nor one
the bring-up and the stop of a node keep: the one entry of `start_node` inside a
call finds the collateral hold clear. -/
theorem Step.flag_eq {g : Graph n} {w w' : World n} {c c' : Call n}
    (h : Step g w c c' w') (i : Fin n) {k : Flag} (hstale : k.stale = false)
    (hrunning : k ≠ .running) (hbound : k ≠ .boundStopped) (hresident : k ≠ .resident)
    (hidle : k ≠ .idle) : w'.flag i k = w.flag i k := by
  have hshutdown : k ≠ .shutdown := fun h => by simp [h, Flag.stale] at hstale
  cases h with
  | stopWave h => exact h.flag_eq i hshutdown hrunning
  | startWave h => exact h.flag_eq i hstale hrunning hbound hresident hidle
  | startDone _ hw => exact hw.flag i k
  | startNode _ h => exact h.flag_eq i hstale hrunning hbound hresident hidle
  | ackNode =>
      rw [World.flag_takeAck, if_neg (fun h => hrunning h.2), World.flag_onNode]
      split
      case isTrue heq => rw [heq]; rfl
      case isFalse => rfl
  | missNode => simp
  | @bindStart j _ cfg _ _ _ hbind _ h =>
      by_cases hcollateral : i = j ∧ k = .collateral
      · obtain ⟨rfl, rfl⟩ := hcollateral
        have hfree := (World.bindable_iff.mp hbind).2.2.1
        cases h with
        | absent => rfl
        | gated _ h =>
            have hkept : w'.flag i .collateral = _ :=
              h.flag_eq i rfl (by decide) (by decide) (by decide) (by decide)
            simp [hkept, hfree]
        | marked => simp [Flag.stale, hfree]
      · exact h.flag_eq i hstale hrunning hbound hresident hidle hcollateral
  | bindResume => simp [hstale, hrunning, hbound]
  | bindUnmark _ _ _ hw => simp [hw.flag, hbound]
  | stopFault | stopDone | restartUp | bindPhase | stopPanic | startPanic | bindEnd
  | bindSkip => rfl

/-- **Holds are left alone.** -/
theorem Step.flag_hold {g : Graph n} {w w' : World n} {c c' : Call n}
    (h : Step g w c c' w') (i : Fin n) {k : Flag} (hk : k.hold = true) :
    w'.flag i k = w.flag i k := by
  apply h.flag_eq
  · exact Flag.stale_of_hold hk
  · exact Flag.ne_of_hold hk rfl
  · exact Flag.ne_of_hold hk rfl
  · exact Flag.ne_of_hold hk rfl
  · exact Flag.ne_of_hold hk rfl

end Call

/-- One call among the tasks. -/
def soloCall (g : Graph n) : Call n × World n → Move n → Option (Call n × World n) :=
  among g fun w c => c.step g w

end EmbassySupervisor
