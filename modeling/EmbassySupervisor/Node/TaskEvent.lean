/-
# What the tasks do

A `TaskEvent` is one atomic thing done by somebody other than the supervisor: a
task acknowledging a stop, exiting, asserting or withdrawing readiness, a shell
parking, a slot being filled, time passing, the executor becoming able or unable
to take a spawn. Runs interleave these with the supervisor's own steps.

An acknowledgement or an exit comes from an instance, so both ask for one to be
there; everything else may happen at any time. `apply_cases` says once what an
event can do: drop an instance, bring up one the application spawns, or leave
everything alone but the flags the tasks own. What later modules prove about
task events goes through it.
-/

import EmbassySupervisor.Lib.LabelledRun
import EmbassySupervisor.Node.World

namespace EmbassySupervisor

/-- One atomic action of a task, of the application or of an executor. -/
inductive TaskEvent (n : ℕ)
  | elapse (ticks : ℕ)
  | ackDropped (j : Fin n)
  | markExited (j : Fin n)
  | appSpawn (j : Fin n)
  | park (j : Fin n)
  | setReady (j : Fin n)
  | clearReady (j : Fin n)
  | markBusy (j : Fin n)
  | markIdle (j : Fin n)
  | setDetached (j : Fin n) (detached : Bool)
  | pollShutdown (j : Fin n)
  | takeResume (j : Fin n)
  | provide (gate : ℕ)
  | take (gate : ℕ)
  | clear (gate : ℕ)
  | fillSlot (slot : ℕ) (fence : Bool)
  | fencePass (slot : ℕ)
  | setRefused (j : Fin n) (refused : Bool)
  deriving DecidableEq, Repr

namespace World

variable {n : ℕ}

/-- Drop what an instance provided and release its claims; a `Pause` instance
keeps both. -/
def releaseProvided (w : World n) (cfg : NodeCfg n) (j : Fin n) : World n :=
  match cfg.mode with
  | .pause => w
  | .terminate | .onDemand => (cfg.provides.foldl clearGate w).releaseClaims cfg j

/-- Record that a node's instance dropped, wake whoever waits for it, and leave
`next` of the instance. -/
def settleDropped (w : World n) (j : Fin n) (next : Inst) : World n :=
  let w := w.onNode j TaskHandle.settleDropped
  let w := { w with stopEvt := true }.notifyBind
  (w.setInst j next).record (.dropped j)

/-- What is left of an instance by its acknowledgement: a `Pause` instance is
parked, any other is on its way out. -/
def afterAck (cfg : NodeCfg n) : Inst :=
  match cfg.mode with
  | .pause => .parked
  | .terminate | .onDemand => .leaving

def ackDropped (w : World n) (cfg : NodeCfg n) (j : Fin n) : World n :=
  (w.releaseProvided cfg j).settleDropped j (afterAck cfg)

def markExited (w : World n) (cfg : NodeCfg n) (j : Fin n) : World n :=
  ((w.releaseProvided cfg j).putFlag j .completed true).settleDropped j .absent

def setReady (w : World n) (j : Fin n) : World n :=
  (w.onNode j TaskHandle.setReady).gateEvent.notifyBind.requestScale

def clearReady (w : World n) (j : Fin n) : World n :=
  (w.putFlag j .ready false).notifyBind

/-- Write the busy flag and request scaling on a real transition. -/
def putBusy (w : World n) (j : Fin n) (busy : Bool) : World n :=
  let changed := w.flag j .busy != busy
  let w := w.putFlag j .busy busy
  if changed then w.requestScale else w

/-- A resident shell parks: its activation is over. -/
def park (w : World n) (j : Fin n) : World n := (w.putFlag j .idle true).gateEvent

/-- Fill a resource slot, waking the supervisor's waits. -/
def provide (w : World n) (r : ℕ) : World n :=
  { w with
    gate := Function.update w.gate r { filled := true, filledWake := true } }.gateEvent

/-- Take the value out of a resource slot; its latch stays as it is. -/
def takeGate (w : World n) (r : ℕ) : World n :=
  { w with gate := Function.update w.gate r { w.gate r with filled := false } }

/-- Fill an executor slot; its fence comes up unless it could not be spawned. -/
def fillSlot (w : World n) (s : ℕ) (fence : Bool) : World n :=
  { w with
    slot := Function.update w.slot s
      { w.slot s with
        filled := true
        filledWake := true
        fenceUp := (w.slot s).fenceUp || fence } }.gateEvent

/-- The fence serves a pending request. -/
def fencePass (w : World n) (s : ℕ) : World n :=
  { w with
    slot := Function.update w.slot s
      { w.slot s with fenceReq := false, passes := ((w.slot s).passes + 1) % 2 ^ 16 } }.gateEvent

end World

namespace TaskEvent

variable {n : ℕ} (g : Graph n)

/-- The state after an event, or `none` where it cannot happen. -/
def apply (w : World n) : TaskEvent n → Option (World n)
  | .elapse ticks => some { w with now := w.now + ticks }
  | .ackDropped j => do
    let cfg ← g.nodes j
    if w.inst j = .absent then none else some (w.ackDropped cfg j)
  | .markExited j => do
    let cfg ← g.nodes j
    if w.inst j = .absent then none else some (w.markExited cfg j)
  | .appSpawn j => do
    let cfg ← g.nodes j
    if cfg.spawn = none then some (w.setInst j .up) else none
  | .park j =>
    if w.flag j .resident && w.inst j == .absent then some (w.park j) else none
  | .setReady j => some (w.setReady j)
  | .clearReady j => some (w.clearReady j)
  | .markBusy j => some (w.putBusy j true)
  | .markIdle j => some (w.putBusy j false)
  | .setDetached j detached => some (w.putFlag j .detached detached)
  | .pollShutdown j => some (w.onNode j TaskHandle.pollShutdown)
  | .takeResume j => some (w.onNode j fun h => { h with resumeWake := false })
  | .provide r => some (w.provide r)
  | .take r => some (w.takeGate r)
  | .clear r => some (w.clearGate r)
  | .fillSlot s fence => some (w.fillSlot s fence)
  | .fencePass s => if (w.slot s).fenceReq then some (w.fencePass s) else none
  | .setRefused j refused =>
    some { w with refused := Function.update w.refused j refused }

end TaskEvent

/-- The flags an event may write, of which node. -/
def TaskEvent.writes {n : ℕ} : TaskEvent n → Fin n → Flag → Bool
  | .ackDropped i, j, k => j == i && (k == .dropped || k == .running)
  | .markExited i, j, k => j == i && (k == .dropped || k == .running || k == .completed)
  | .park i, j, k => j == i && k == .idle
  | .setReady i, j, k | .clearReady i, j, k => j == i && k == .ready
  | .markBusy i, j, k | .markIdle i, j, k => j == i && k == .busy
  | .setDetached i _, j, k => j == i && k == .detached
  | .elapse _, _, _ | .appSpawn _, _, _ | .pollShutdown _, _, _ | .takeResume _, _, _
  | .provide _, _, _ | .take _, _, _ | .clear _, _, _ | .fillSlot _ _, _, _
  | .fencePass _, _, _ | .setRefused _ _, _, _ => false

/-! ## What an event can do -/

/-- The flags somebody else than the supervisor may write at any time. -/
def Flag.taskOwned : Flag → Bool
  | .busy | .ready | .idle | .detached => true
  | .shutdown | .dropped | .running | .completed | .disabled | .boundStopped
  | .collateral | .resident => false

/-- Nothing changes but what the tasks own; time may pass. -/
structure Quiet {n : ℕ} (w w' : World n) : Prop where
  flag : ∀ j k, k.taskOwned = false → w'.flag j k = w.flag j k
  droppedWake : ∀ j, (w'.node j).droppedWake = (w.node j).droppedWake
  inst : w'.inst = w.inst
  log : w'.log = w.log
  now : w.now ≤ w'.now

/-- The instance of `j` drops: it is down and has acknowledged, and the history
says so. Whether it is recorded as an exit differs between the two ways to drop. -/
structure Drops {n : ℕ} (w : World n) (j : Fin n) (w' : World n) : Prop where
  flag : ∀ i k, k ≠ .completed → w'.flag i k =
    if i = j ∧ k = .dropped then true
    else if i = j ∧ k = .running then false else w.flag i k
  completed : ∀ i, i ≠ j → w'.flag i .completed = w.flag i .completed
  droppedWake : ∀ i, (w'.node i).droppedWake = (decide (i = j) || (w.node i).droppedWake)
  inst : ∀ i, i ≠ j → w'.inst i = w.inst i
  log : ∃ released, w'.log = (w.now, .dropped j) :: (released ++ w.log) ∧
    ∀ r ∈ released, r.2 = .claimsReleased j
  now : w'.now = w.now

/-- The four things an event can amount to. -/
inductive TaskEvent.Effect {n : ℕ} (g : Graph n) (w : World n) : World n → Prop
  | acked {j : Fin n} {cfg : NodeCfg n} (hcfg : g.nodes j = some cfg)
      (hinst : w.inst j ≠ .absent) : Effect g w (w.ackDropped cfg j)
  | exited {j : Fin n} {cfg : NodeCfg n} (hcfg : g.nodes j = some cfg)
      (hinst : w.inst j ≠ .absent) : Effect g w (w.markExited cfg j)
  | appSpawned {j : Fin n} {cfg : NodeCfg n} (hcfg : g.nodes j = some cfg)
      (hspawn : cfg.spawn = none) : Effect g w (w.setInst j .up)
  | quiet {w' : World n} (h : Quiet w w') : Effect g w w'

section Effects

variable {n : ℕ} {w : World n}

/-- A change of one handle that only writes flags the tasks own. -/
private theorem quiet_onNode {j : Fin n} {f : TaskHandle → TaskHandle}
    (hflag : ∀ k, k.taskOwned = false → (f (w.node j)).flags k = (w.node j).flags k)
    (hwake : (f (w.node j)).droppedWake = (w.node j).droppedWake) :
    Quiet w (w.onNode j f) where
  flag i k hk := by
    rw [World.flag_onNode]
    by_cases hi : i = j
    · subst hi
      simpa [World.flag] using hflag k hk
    · simp [hi]
  droppedWake i := by
    by_cases hi : i = j
    · subst hi
      simpa using hwake
    · simp [hi]
  inst := rfl
  log := rfl
  now := le_rfl

private theorem quiet_putFlag (j : Fin n) {f : Flag} (hf : f.taskOwned = true) (on : Bool) :
    Quiet w (w.putFlag j f on) := by
  apply quiet_onNode
  · intro k hk
    have hne : k ≠ f := fun h => by simp [h, hf] at hk
    simp [hne]
  · rfl

private theorem quiet_setReady (j : Fin n) : Quiet w (w.setReady j) := by
  have h : Quiet w (w.onNode j TaskHandle.setReady) := by
    apply quiet_onNode
    · intro k hk
      have hne : k ≠ .ready := fun h => by simp [h, Flag.taskOwned] at hk
      simp [hne]
    · rfl
  exact ⟨h.flag, h.droppedWake, h.inst, h.log, h.now⟩

private theorem quiet_putBusy (j : Fin n) (busy : Bool) : Quiet w (w.putBusy j busy) := by
  have h : Quiet w (w.putFlag j .busy busy) := quiet_putFlag j rfl busy
  unfold World.putBusy
  simp only
  split
  · exact ⟨h.flag, h.droppedWake, h.inst, h.log, h.now⟩
  · exact h

private theorem foldl_clearGate (gates : List ℕ) (u : World n) :
    (gates.foldl World.clearGate u).node = u.node ∧
      (gates.foldl World.clearGate u).inst = u.inst ∧
      (gates.foldl World.clearGate u).log = u.log ∧
      (gates.foldl World.clearGate u).now = u.now := by
  induction gates generalizing u with
  | nil => exact ⟨rfl, rfl, rfl, rfl⟩
  | cons r gates ih => exact ih (u.clearGate r)

private theorem releaseClaims_frame (u : World n) (cfg : NodeCfg n) (j : Fin n) :
    (u.releaseClaims cfg j).node = u.node ∧
      ∃ released, (u.releaseClaims cfg j).log = released ++ u.log ∧
        ∀ r ∈ released, r.2 = .claimsReleased j := by
  unfold World.releaseClaims
  split
  · exact ⟨rfl, [(u.now, .claimsReleased j)], rfl, by simp⟩
  · exact ⟨rfl, [], rfl, by simp⟩

/-- Releasing what an instance provided touches slots, and the history at most. -/
private theorem releaseProvided_frame (u : World n) (cfg : NodeCfg n) (j : Fin n) :
    (u.releaseProvided cfg j).node = u.node ∧
      (u.releaseProvided cfg j).inst = u.inst ∧
      (u.releaseProvided cfg j).now = u.now ∧
      ∃ released, (u.releaseProvided cfg j).log = released ++ u.log ∧
        ∀ r ∈ released, r.2 = .claimsReleased j := by
  obtain ⟨hnode, hinst, hlog, hnow⟩ := foldl_clearGate cfg.provides u
  obtain ⟨hclaims, hreleased⟩ :=
    releaseClaims_frame (cfg.provides.foldl World.clearGate u) cfg j
  unfold World.releaseProvided
  cases cfg.mode with
  | pause => exact ⟨rfl, rfl, rfl, [], rfl, by simp⟩
  | terminate | onDemand =>
      refine ⟨hclaims.trans hnode, ?_, ?_, ?_⟩
      · simpa using hinst
      · simpa using hnow
      · simpa [hlog] using hreleased

/-- Settling a drop of a state that differs from `w` in the recorded exit of `j`
at most, and in released claims. -/
private theorem drops_settleDropped {u : World n} {j : Fin n} (next : Inst)
    (hflag : ∀ i k, k ≠ .completed → u.flag i k = w.flag i k)
    (hcompleted : ∀ i, i ≠ j → u.flag i .completed = w.flag i .completed)
    (hwake : ∀ i, (u.node i).droppedWake = (w.node i).droppedWake)
    (hinst : u.inst = w.inst) (hnow : u.now = w.now)
    (hlog : ∃ released, u.log = released ++ w.log ∧
      ∀ r ∈ released, r.2 = .claimsReleased j) :
    Drops w j (u.settleDropped j next) where
  flag i k hk := by
    have hset : (u.settleDropped j next).flag i k =
        (u.onNode j TaskHandle.settleDropped).flag i k := rfl
    rw [hset, World.flag_onNode, ← hflag i k hk]
    by_cases hi : i = j
    · subst hi
      simp [World.flag]
    · simp [hi]
  completed i hi := by
    have hset : (u.settleDropped j next).flag i .completed =
        (u.onNode j TaskHandle.settleDropped).flag i .completed := rfl
    rw [hset, World.flag_onNode, if_neg hi, hcompleted i hi]
  droppedWake i := by
    have hset : (u.settleDropped j next).node =
        (u.onNode j TaskHandle.settleDropped).node := rfl
    by_cases hi : i = j
    · subst hi
      simp [hset, TaskHandle.settleDropped]
    · simp [hset, hi, hwake i]
  inst i hi := by
    have hset : (u.settleDropped j next).inst = Function.update u.inst j next := rfl
    rw [hset, Function.update_of_ne hi, hinst]
  log := by
    obtain ⟨released, hreleased, hall⟩ := hlog
    exact ⟨released, by simp [World.settleDropped, hreleased, hnow], hall⟩
  now := hnow

theorem drops_ackDropped (w : World n) (cfg : NodeCfg n) (j : Fin n) :
    Drops w j (w.ackDropped cfg j) := by
  obtain ⟨hnode, hinst, hnow, hlog⟩ := releaseProvided_frame w cfg j
  apply drops_settleDropped
  · intro i k _
    simp only [World.flag, hnode]
  · intro i _
    simp only [World.flag, hnode]
  · intro i
    rw [hnode]
  · exact hinst
  · exact hnow
  · exact hlog

theorem drops_markExited (w : World n) (cfg : NodeCfg n) (j : Fin n) :
    Drops w j (w.markExited cfg j) := by
  obtain ⟨hnode, hinst, hnow, hlog⟩ := releaseProvided_frame w cfg j
  have hflag : ∀ i k, (w.releaseProvided cfg j).flag i k = w.flag i k := by
    intro i k
    simp only [World.flag, hnode]
  apply drops_settleDropped
  · intro i k hk
    simp [hk, hflag]
  · intro i hi
    simp [hi, hflag]
  · intro i
    by_cases hi : i = j
    · subst hi
      simp [World.putFlag, TaskHandle.flagPut, hnode]
    · simp [World.putFlag, hi, hnode]
  · exact hinst
  · exact hnow
  · exact hlog

/-- An exit is recorded as one; an acknowledgement leaves that as it was. -/
theorem flag_completed_markExited (w : World n) (cfg : NodeCfg n) (j : Fin n) :
    (w.markExited cfg j).flag j .completed = true := by
  have hset : (w.markExited cfg j).flag j .completed =
      (((w.releaseProvided cfg j).putFlag j .completed true).onNode j
        TaskHandle.settleDropped).flag j .completed := rfl
  rw [hset, World.flag_onNode, if_pos rfl, TaskHandle.flags_settleDropped]
  simp [World.putFlag]

theorem inst_ackDropped (w : World n) (cfg : NodeCfg n) (j : Fin n) :
    (w.ackDropped cfg j).inst j = World.afterAck cfg := by
  simp [World.ackDropped, World.settleDropped]

theorem inst_markExited (w : World n) (cfg : NodeCfg n) (j : Fin n) :
    (w.markExited cfg j).inst j = .absent := by
  simp [World.markExited, World.settleDropped]

/-- What an event does to the state, read off its label. -/
theorem TaskEvent.apply_cases {g : Graph n} {e : TaskEvent n} {w' : World n}
    (h : e.apply g w = some w') : TaskEvent.Effect g w w' := by
  -- A change of nothing `Quiet` mentions: a slot, a gate, a latch, the executor.
  have quiet_rest : ∀ {u : World n}, u.node = w.node → u.inst = w.inst →
      u.log = w.log → w.now ≤ u.now → TaskEvent.Effect g w u := by
    intro u hnode hinst hlog hnow
    refine .quiet ⟨fun j k _ => ?_, fun j => ?_, hinst, hlog, hnow⟩
    · simp only [World.flag, hnode]
    · rw [hnode]
  cases e with
  | elapse ticks =>
      cases h
      exact quiet_rest rfl rfl rfl (Nat.le_add_right _ _)
  | ackDropped j =>
      obtain ⟨cfg, hcfg, h⟩ := Option.bind_eq_some_iff.mp h
      by_cases hinst : w.inst j = .absent
      · simp [hinst] at h
      · rw [if_neg hinst] at h
        cases h
        exact .acked hcfg hinst
  | markExited j =>
      obtain ⟨cfg, hcfg, h⟩ := Option.bind_eq_some_iff.mp h
      by_cases hinst : w.inst j = .absent
      · simp [hinst] at h
      · rw [if_neg hinst] at h
        cases h
        exact .exited hcfg hinst
  | appSpawn j =>
      obtain ⟨cfg, hcfg, h⟩ := Option.bind_eq_some_iff.mp h
      by_cases hspawn : cfg.spawn = none
      · rw [if_pos hspawn] at h
        cases h
        exact .appSpawned hcfg hspawn
      · simp [hspawn] at h
  | park j =>
      simp only [TaskEvent.apply] at h
      split at h
      · cases h
        have hidle : Quiet w (w.putFlag j .idle true) := quiet_putFlag j rfl true
        exact .quiet ⟨hidle.flag, hidle.droppedWake, hidle.inst, hidle.log, hidle.now⟩
      · simp at h
  | setReady j =>
      cases h
      exact .quiet (quiet_setReady j)
  | clearReady j =>
      cases h
      have hready : Quiet w (w.putFlag j .ready false) := quiet_putFlag j rfl false
      exact .quiet ⟨hready.flag, hready.droppedWake, hready.inst, hready.log, hready.now⟩
  | markBusy j =>
      cases h
      exact .quiet (quiet_putBusy j true)
  | markIdle j =>
      cases h
      exact .quiet (quiet_putBusy j false)
  | setDetached j detached =>
      cases h
      exact .quiet (quiet_putFlag j rfl detached)
  | pollShutdown j =>
      cases h
      exact .quiet (quiet_onNode (fun _ _ => by simp) (by simp))
  | takeResume j =>
      cases h
      exact .quiet (quiet_onNode (fun _ _ => rfl) rfl)
  | provide r =>
      cases h
      exact quiet_rest rfl rfl rfl le_rfl
  | take r =>
      cases h
      exact quiet_rest rfl rfl rfl le_rfl
  | clear r =>
      cases h
      exact quiet_rest rfl rfl rfl le_rfl
  | fillSlot s fence =>
      cases h
      exact quiet_rest rfl rfl rfl le_rfl
  | fencePass s =>
      simp only [TaskEvent.apply] at h
      split at h
      · cases h
        exact quiet_rest rfl rfl rfl le_rfl
      · simp at h
  | setRefused j refused =>
      cases h
      exact quiet_rest rfl rfl rfl le_rfl

/-- A flag the event does not write is as before. -/
theorem TaskEvent.flag_eq_of_not_writes {g : Graph n} {e : TaskEvent n} {w' : World n}
    (h : e.apply g w = some w') {j : Fin n} {k : Flag} (hk : e.writes j k = false) :
    w'.flag j k = w.flag j k := by
  cases e with
  | ackDropped i =>
      obtain ⟨cfg, _, h⟩ := Option.bind_eq_some_iff.mp h
      by_cases hinst : w.inst i = .absent
      · simp [hinst] at h
      · rw [if_neg hinst] at h
        cases h
        by_cases hcompleted : k = .completed
        · have hkept : (w.ackDropped cfg i).flag j .completed =
              ((w.releaseProvided cfg i).onNode i TaskHandle.settleDropped).flag j .completed :=
            rfl
          rw [hcompleted, hkept, World.flag_onNode, TaskHandle.flags_settleDropped]
          have hnode := (releaseProvided_frame w cfg i).1
          by_cases hj : j = i
          · simp [hj, World.flag, hnode]
          · simp [hj, World.flag, hnode]
        · rw [(drops_ackDropped w cfg i).flag j k hcompleted]
          simp only [writes, Bool.and_eq_false_iff, beq_eq_false_iff_ne, Bool.or_eq_false_iff] at hk
          rw [if_neg (by tauto), if_neg (by tauto)]
  | markExited i =>
      obtain ⟨cfg, _, h⟩ := Option.bind_eq_some_iff.mp h
      by_cases hinst : w.inst i = .absent
      · simp [hinst] at h
      · rw [if_neg hinst] at h
        cases h
        simp only [writes, Bool.and_eq_false_iff, beq_eq_false_iff_ne, Bool.or_eq_false_iff] at hk
        by_cases hcompleted : k = .completed
        · subst hcompleted
          exact (drops_markExited w cfg i).completed j (by tauto)
        · rw [(drops_markExited w cfg i).flag j k hcompleted, if_neg (by tauto),
            if_neg (by tauto)]
  | appSpawn i =>
      obtain ⟨cfg, _, h⟩ := Option.bind_eq_some_iff.mp h
      by_cases hspawn : cfg.spawn = none
      · rw [if_pos hspawn] at h
        cases h
        rfl
      · simp [hspawn] at h
  | park i =>
      simp only [TaskEvent.apply] at h
      split at h
      · cases h
        have hpark : (w.park i).flag j k = (w.putFlag i .idle true).flag j k := rfl
        rw [hpark, World.flag_putFlag, if_neg (by simpa [writes] using hk)]
      · simp at h
  | setReady i =>
      cases h
      have hready : (w.setReady i).flag j k = (w.onNode i TaskHandle.setReady).flag j k := rfl
      rw [hready, World.flag_onNode]
      split
      case isTrue hj =>
        subst hj
        have hne : k ≠ .ready := by simpa [writes] using hk
        simp [hne, World.flag]
      case isFalse => rfl
  | clearReady i =>
      cases h
      have hready : (w.clearReady i).flag j k = (w.putFlag i .ready false).flag j k := rfl
      rw [hready, World.flag_putFlag, if_neg (by simpa [writes] using hk)]
  | markBusy i | markIdle i =>
      cases h
      have hbusy : ∀ b, (w.putBusy i b).flag j k = (w.putFlag i .busy b).flag j k := by
        intro b
        unfold World.putBusy
        simp only
        split <;> rfl
      rw [hbusy, World.flag_putFlag, if_neg (by simpa [writes] using hk)]
  | setDetached i detached =>
      cases h
      rw [World.flag_putFlag, if_neg (by simpa [writes] using hk)]
  | pollShutdown i =>
      cases h
      rw [World.flag_onNode, TaskHandle.flags_pollShutdown]
      split
      case isTrue hj => rw [hj]; rfl
      case isFalse => rfl
  | takeResume i =>
      cases h
      rw [World.flag_onNode]
      split
      case isTrue hj => rw [hj]; rfl
      case isFalse => rfl
  | fencePass s =>
      simp only [TaskEvent.apply] at h
      split at h
      · cases h
        rfl
      · simp at h
  | elapse | provide | take | clear | fillSlot | setRefused =>
      cases h
      rfl

namespace TaskEvent.Effect

variable {g : Graph n} {w' : World n}

/-- Flags neither a task nor a drop writes are the supervisor's alone. -/
theorem flag_eq (h : TaskEvent.Effect g w w') (j : Fin n) {k : Flag}
    (howned : k.taskOwned = false) (hdropped : k ≠ .dropped) (hrunning : k ≠ .running)
    (hcompleted : k ≠ .completed) : w'.flag j k = w.flag j k := by
  cases h with
  | acked => simp [(drops_ackDropped w _ _).flag j k hcompleted, hdropped, hrunning]
  | exited => simp [(drops_markExited w _ _).flag j k hcompleted, hdropped, hrunning]
  | appSpawned => rfl
  | quiet h => exact h.flag j k howned

/-- No event writes a hold. -/
theorem flag_hold (h : TaskEvent.Effect g w w') (j : Fin n) {k : Flag} (hk : k.hold = true) :
    w'.flag j k = w.flag j k := by
  apply h.flag_eq
  · cases k <;> simp_all [Flag.hold, Flag.taskOwned]
  · exact Flag.ne_of_hold hk rfl
  · exact Flag.ne_of_hold hk rfl
  · exact Flag.ne_of_hold hk rfl

/-- No event sets a node running. -/
theorem running_of_running (h : TaskEvent.Effect g w w') {j : Fin n}
    (hrun : w'.flag j .running = true) : w.flag j .running = true := by
  cases h with
  | @acked i _ _ _ =>
      rw [(drops_ackDropped w _ i).flag j .running (by decide)] at hrun
      by_cases hj : j = i
      · simp [hj] at hrun
      · simpa [hj] using hrun
  | @exited i _ _ _ =>
      rw [(drops_markExited w _ i).flag j .running (by decide)] at hrun
      by_cases hj : j = i
      · simp [hj] at hrun
      · simpa [hj] using hrun
  | appSpawned => exact hrun
  | quiet h => rwa [h.flag j .running rfl] at hrun

/-- No event takes an acknowledgement back. -/
theorem dropped_of_dropped (h : TaskEvent.Effect g w w') {j : Fin n}
    (hdrop : w.flag j .dropped = true) : w'.flag j .dropped = true := by
  cases h with
  | acked => simp [(drops_ackDropped w _ _).flag j .dropped (by decide), hdrop]
  | exited => simp [(drops_markExited w _ _).flag j .dropped (by decide), hdrop]
  | appSpawned => exact hdrop
  | quiet h => rwa [h.flag j .dropped rfl]

theorem now_le (h : TaskEvent.Effect g w w') : w.now ≤ w'.now := by
  cases h with
  | acked => rw [(drops_ackDropped w _ _).now]
  | exited => rw [(drops_markExited w _ _).now]
  | appSpawned => exact le_rfl
  | quiet h => exact h.now

/-- What an event adds to the history is a drop or a release of claims. -/
theorem log_eq (h : TaskEvent.Effect g w w') :
    ∃ new, w'.log = new ++ w.log ∧
      ∀ r ∈ new, ∃ j, r.2 = .dropped j ∨ r.2 = .claimsReleased j := by
  have of_drops : ∀ {j : Fin n} {u : World n}, Drops w j u → ∃ new, u.log = new ++ w.log ∧
      ∀ r ∈ new, ∃ j, r.2 = .dropped j ∨ r.2 = .claimsReleased j := by
    intro j u hdrops
    obtain ⟨released, hlog, hreleased⟩ := hdrops.log
    refine ⟨(w.now, .dropped j) :: released, by simp [hlog], fun r hr => ⟨j, ?_⟩⟩
    cases List.mem_cons.mp hr with
    | inl heq => simp [heq]
    | inr hmem => exact Or.inr (hreleased r hmem)
  cases h with
  | acked => exact of_drops (drops_ackDropped w _ _)
  | exited => exact of_drops (drops_markExited w _ _)
  | appSpawned => exact ⟨[], rfl, by simp⟩
  | quiet h => exact ⟨[], by simp [h.log], by simp⟩

end TaskEvent.Effect

end Effects

/-! ## One activity among the tasks -/

/-- What happens next: the activity's own next step, or a task event. -/
inductive Move (n : ℕ)
  | own
  | event (e : TaskEvent n)
  deriving DecidableEq, Repr

/-- An activity of the supervisor, given by its step, among the tasks: any event
may fall between any two of its steps. -/
def among {n : ℕ} {σ : Type} (g : Graph n) (step : World n → σ → Option (σ × World n)) :
    σ × World n → Move n → Option (σ × World n)
  | (s, w), .own => step w s
  | (s, w), .event e => (e.apply g w).map fun w' => (s, w')

/-- What the activity's own steps and the effects of events preserve holds at
the end of every run. -/
theorem among_invariant {n : ℕ} {σ : Type} {g : Graph n}
    {step : World n → σ → Option (σ × World n)} {I : σ → World n → Prop}
    (hown : ∀ s w s' w', I s w → step w s = some (s', w') → I s' w')
    (hevent : ∀ s w w', I s w → TaskEvent.Effect g w w' → I s w')
    {s s' : σ} {w w' : World n} {moves : List (Move n)} (hs : I s w)
    (hrun : LabelledRun.exec (among g step) (s, w) moves = some (s', w')) : I s' w' := by
  refine LabelledRun.exec_invariant (I := fun t => I t.1 t.2) ?_ hs hrun
  rintro ⟨s, w⟩ l ⟨t, u⟩ hI hstep
  cases l with
  | own => exact hown s w t u hI hstep
  | event e =>
      obtain ⟨v, hv, heq⟩ := Option.map_eq_some_iff.mp hstep
      cases heq
      exact hevent s w u hI (TaskEvent.apply_cases hv)

end EmbassySupervisor
