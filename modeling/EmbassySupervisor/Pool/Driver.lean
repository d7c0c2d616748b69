/-
# The pool driver

`run_pools` evaluates every pool in turn and then parks until a scale request or the
deadline of a deferred shrink; a control command drops it wherever it is suspended, and it
starts over once the command has been applied. It runs beside everything else the system
does: the application's verbs, `apply_bind` among them, and the tasks.

A driver that parks should not be missing a growth. `parked_closed` says that it is not,
in every quiet run: one in which, while no request is there or sure to come, no member of a
pool the driver has passed goes down or has a hold changed, and nothing a member depends on
comes up, but where the pool has no use for another member or none is supplied. In
`parked_open` a pool's only member exits, and the driver stays parked.
-/

import EmbassySupervisor.Pool.Openings
import EmbassySupervisor.Verb.System

namespace EmbassySupervisor

open LabelledRun

variable {n : ℕ}

/-- A graph with the bounds and the policies of its pools. -/
structure PoolGraph (n : ℕ) extends Graph n where
  elastic : List (ElasticPool n)
  elastic_nodes : pools = elastic.map ElasticPool.nodes
  nodup : ∀ p ∈ elastic, p.nodes.Nodup

structure ControlCommand (n : ℕ) where
  op : ControlOp
  node : Fin n
  deriving DecidableEq, Repr

namespace ControlCommand

/-- The verb `apply_control` makes of a command. -/
def verb (cmd : ControlCommand n) : Verb n :=
  match cmd.op with
  | .deactivate => .deactivate cmd.node
  | .activate => .activate cmd.node
  | .restart => .restart cmd.node

/-- What `apply_control` makes of the verb's result: a node that did not come back after
its restart is only logged. -/
def result (cmd : ControlCommand n) (r : Outcome n) : Outcome n :=
  match cmd.op with
  | .deactivate | .activate => r
  | .restart => r.filter fun f => f.kind == .shutdownTimeout || f.kind == .restartStorm

end ControlCommand

/-- Where the driver is: about to evaluate a pool, with the instant its pass began and the
first deadline so far; suspended in the start or the stop of a member; parked; parked for
ever, on a graph without pools; applying the command whose verb is at an index of the
calls; returned. -/
inductive Driver (n : ℕ)
  | pass (k now : ℕ) (due : Option ℕ)
  | scaling (k now : ℕ) (due : Option ℕ) (c : Call n)
  | park (due : Option ℕ)
  | never
  | control (cmd : ControlCommand n) (i : ℕ)
  | ended (f : NodeFault n)

namespace Driver

def suspended : Driver n → Bool
  | .pass _ _ _ => false
  | .scaling _ _ _ _ | .park _ | .never | .control _ _ | .ended _ => true

/-- The driver is in `run_pools`, and waits there. -/
def interruptible : Driver n → Bool
  | .scaling _ _ _ _ | .park _ | .never => true
  | .pass _ _ _ | .control _ _ | .ended _ => false

/-- What a pool's start or stop of a member leaves of the pass. -/
def after (k now : ℕ) (due : Option ℕ) : Call n → Driver n
  | .done none => .pass (k + 1) now due
  | .done (some f) => .ended f
  | c => .scaling k now due c

/-- The pool has had its turn in the current pass. -/
def passed (k : ℕ) : Driver n → Bool
  | .pass i _ _ => decide (k < i)
  | .scaling i _ _ (.stopNode _ _) => decide (k ≤ i)
  | .scaling i _ _ _ => decide (k < i)
  | .park _ => true
  | .never | .control _ _ | .ended _ => false

end Driver

/-- The system with its pool driver, and the deadline each pool's policy keeps. -/
structure PoolSys (n : ℕ) where
  sys : Sys n
  pending : ℕ → Option ℕ := fun _ => none
  driver : Driver n

namespace PoolSys

inductive Label (n : ℕ)
  | sys (l : EmbassySupervisor.Label n)
  | drive
  | control (cmd : ControlCommand n)

variable (g : PoolGraph n)

def world (s : PoolSys n) : World n := s.sys.world

/-- Evaluate a pool, and start or stop the member it names. -/
def drivePool (s : PoolSys n) (p : ElasticPool n) (k now : ℕ) (due : Option ℕ) : PoolSys n :=
  let (action, pending) := (p.stats s.world).decide p.cooldown (s.pending k) now
  let (c, w) := g.toGraph.begin s.world (.scale k action)
  { sys := { s.sys with world := w }
    pending := Function.update s.pending k pending
    driver := Driver.after k now (pending.elim due fun d => some (due.elim d (min d))) c }

/-- The driver is polled. -/
def drive (s : PoolSys n) : Option (PoolSys n) :=
  match s.driver with
  | .pass k now due =>
    if g.has .pools then
      match g.elastic[k]? with
      | some p => some (s.drivePool g p k now due)
      | none => some { s with driver := .park due }
    else some { s with driver := .never }
  | .scaling k now due c =>
    (c.step g.toGraph s.world).map fun (c, w) =>
      { s with sys := { s.sys with world := w }, driver := Driver.after k now due c }
  | .park due =>
    if s.world.scaleReq || due.any (· ≤ s.world.now) then
      some { s with
        sys := { s.sys with world := { s.world with scaleReq := false } }
        driver := .pass 0 s.world.now none }
    else none
  | .control cmd i =>
    match s.sys.calls[i]? with
    | some (.done r) =>
      match cmd.result r with
      | none => some { s with driver := .pass 0 s.world.now none }
      | some f => some { s with driver := .ended f }
    | _ => none
  | .never | .ended _ => none

def next (s : PoolSys n) : Label n → Option (PoolSys n)
  | .sys l => if s.driver.suspended then (s.sys.next g.toGraph l).map fun sys => { s with sys }
    else none
  | .drive => if s.sys.resting then s.drive g else none
  | .control cmd =>
    if s.driver.interruptible then
      (s.sys.next g.toGraph (.begin cmd.verb)).map fun sys =>
        { s with sys, driver := .control cmd s.sys.calls.length }
    else none

/-! ## What a poll of the driver can do -/

/-- A poll of the driver evaluates a pool, carries on the start or the stop of a member,
begins a pass, or moves on with nothing else changed. -/
inductive Turn (g : PoolGraph n) (s : PoolSys n) : PoolSys n → Prop
  | evaluate {k now : ℕ} {due : Option ℕ} {p : ElasticPool n}
      (hdriver : s.driver = .pass k now due) (hpools : g.has .pools = true)
      (hp : g.elastic[k]? = some p) : Turn g s (s.drivePool g p k now due)
  | parks {k now : ℕ} {due : Option ℕ} (hdriver : s.driver = .pass k now due)
      (hover : g.elastic[k]? = none) : Turn g s { s with driver := .park due }
  | never {k now : ℕ} {due : Option ℕ} (hdriver : s.driver = .pass k now due) :
      Turn g s { s with driver := .never }
  | carries {k now : ℕ} {due : Option ℕ} {c c' : Call n} {w : World n}
      (hdriver : s.driver = .scaling k now due c)
      (hstep : c.step g.toGraph s.world = some (c', w)) :
      Turn g s { s with sys := { s.sys with world := w }, driver := Driver.after k now due c' }
  | wakes {due : Option ℕ} (hdriver : s.driver = .park due) :
      Turn g s { s with
        sys := { s.sys with world := { s.world with scaleReq := false } }
        driver := .pass 0 s.world.now none }
  | returns {cmd : ControlCommand n} {i : ℕ} (hdriver : s.driver = .control cmd i) :
      Turn g s { s with driver := .pass 0 s.world.now none }
  | ends {cmd : ControlCommand n} {i : ℕ} {f : NodeFault n}
      (hdriver : s.driver = .control cmd i) : Turn g s { s with driver := .ended f }

/-- A step is one of the others', a poll of the driver, or a command it takes up. -/
inductive Next (g : PoolGraph n) (s : PoolSys n) : Label n → PoolSys n → Prop
  | sys {l : EmbassySupervisor.Label n} {sys : Sys n} (hsuspended : s.driver.suspended = true)
      (hsys : s.sys.next g.toGraph l = some sys) : Next g s (.sys l) { s with sys }
  | drive {t : PoolSys n} (hresting : s.sys.resting = true) (hdrive : s.drive g = some t) :
      Next g s .drive t
  | control {cmd : ControlCommand n} {sys : Sys n} (hinterruptible : s.driver.interruptible = true)
      (hsys : s.sys.next g.toGraph (.begin cmd.verb) = some sys) :
      Next g s (.control cmd) { s with sys, driver := .control cmd s.sys.calls.length }

theorem next_cases {g : PoolGraph n} {s t : PoolSys n} {l : Label n} (h : s.next g l = some t) :
    Next g s l t := by
  cases l with
  | sys l =>
      obtain ⟨hsuspended, hmap⟩ := Option.ite_none_right_eq_some.mp h
      obtain ⟨sys, hsys, rfl⟩ := Option.map_eq_some_iff.mp hmap
      exact .sys hsuspended hsys
  | drive =>
      obtain ⟨hresting, hdrive⟩ := Option.ite_none_right_eq_some.mp h
      exact .drive hresting hdrive
  | control cmd =>
      obtain ⟨hinterruptible, hmap⟩ := Option.ite_none_right_eq_some.mp h
      obtain ⟨sys, hsys, rfl⟩ := Option.map_eq_some_iff.mp hmap
      exact .control hinterruptible hsys

theorem drive_of_next {g : PoolGraph n} {s t : PoolSys n} (h : s.next g .drive = some t) :
    s.drive g = some t := by
  cases next_cases h with
  | drive _ hdrive => exact hdrive

/-- **Inversion of a poll of the driver.** -/
theorem drive_cases {g : PoolGraph n} {s t : PoolSys n} (h : s.drive g = some t) :
    Turn g s t := by
  unfold drive at h
  split at h
  · next k now due hdriver =>
      split at h
      · next hpools =>
          split at h
          · next p hp =>
              cases h
              exact .evaluate hdriver hpools hp
          · next hover =>
              cases h
              exact .parks hdriver hover
      · cases h
        exact .never hdriver
  · next k now due c hdriver =>
      obtain ⟨⟨c', w⟩, hstep, heq⟩ := Option.map_eq_some_iff.mp h
      cases heq
      exact .carries hdriver hstep
  · next due hdriver =>
      split at h
      · cases h
        exact .wakes hdriver
      · cases h
  · next cmd i hdriver =>
      split at h
      · split at h
        · cases h
          exact .returns hdriver
        · cases h
          exact .ends hdriver
      · cases h
  · cases h
  · cases h

/-! ## The conditions on a run -/

/-- A call that is going to post a request some pool needs is not dropped, and a `restart`
does not end in its stop wave. -/
def completes (s : PoolSys n) : Label n → Bool
  | .sys (.cancel i) =>
    !(s.sys.calls[i]?).any fun c => g.elastic.any fun p => c.owes g.toGraph p s.world
  | .sys (.advance i) => !(s.sys.calls[i]?).any Call.failing
  | .sys (.begin _) | .sys (.task _) | .sys (.setDisabled _ _) | .drive | .control _ => true

/-- The member a poll of the driver starts or goes on starting. -/
def growing (s : PoolSys n) : Option (Fin n) :=
  match s.driver with
  | .pass k now _ =>
    (g.elastic[k]?).bind fun p =>
      match (p.evaluate g.toGraph s.world (s.pending k) now).1 with
      | .start j => if g.admits s.world j then some j else none
      | .stop _ | .none => none
  | .scaling _ _ _ (.startNode j _ _) => some j
  | .scaling _ _ _ _ | .park _ | .never | .control _ _ | .ended _ => none

/-- A growth that ends has started its member. -/
def grows (s t : PoolSys n) : Bool :=
  (s.growing g).all fun j =>
    t.driver.suspended || decide (t.world.log.head? = some (t.world.now, .note j .started))

/-- The verbs run to their ends and the growths succeed. -/
def regular (s : PoolSys n) (l : Label n) : Bool :=
  s.completes g l &&
    match l with
    | .drive => (s.next g .drive).all (s.grows g)
    | .sys _ | .control _ => true

def activates : Label n → Bool
  | .sys (.begin (.activate _)) => true
  | .sys _ | .drive | .control _ => false

/-- The step does not touch the pool, or leaves it with an idle member, full, or without a
supplied one. Where a call is to unmark a member, the step may touch the pool, but must not
strand the member. -/
def spares (s t : PoolSys n) (p : ElasticPool n) : Bool :=
  p.sated s.world t.world || !p.supplied g.toGraph s.world t.world ||
    if s.sys.calls.any fun c => c.unmarks g.toGraph p s.world then
      !p.strands g.toGraph s.world t.world
    else !p.touched g.toGraph s.world t.world

/-- A request is there or sure to come, or the step spares the pools the driver has passed. -/
def quiet (s : PoolSys n) (l : Label n) : Bool :=
  s.world.scaleReq || s.sys.calls.any Call.cycling || activates l ||
    (s.next g l).all fun t => (List.range g.elastic.length).all fun k =>
      (g.elastic[k]?).all fun p => !s.driver.passed k || s.spares g t p

/-! ## A pool after its turn -/

variable {g}

/-- A member that has just been started runs idle. -/
theorem StartEffect.idle_of_started {cfg : NodeCfg n} {w w' : World n} {j : Fin n}
    {r : Outcome n} (h : StartEffect cfg w j (.done r) w')
    (hlog : w'.log.head? = some (w'.now, .note j .started)) :
    w'.flag j .running = true ∧ w'.flag j .busy = false := by
  cases h with
  | started _ hw _ => simp [World.flag_launch, Flag.stale]
  | parked hw _ => simp at hlog
  | faulted hw _ => simp at hlog

theorem StartEntry.idle_of_started {w w' : World n} {j : Fin n} {r : Outcome n}
    (hocc : g.occupied j = true) (h : StartEntry g.toGraph w j (.done r) w')
    (hlog : w'.log.head? = some (w'.now, .note j .started)) :
    w'.flag j .running = true ∧ w'.flag j .busy = false := by
  cases h with
  | absent hcfg => simp [Graph.occupied, hcfg] at hocc
  | gated _ h => exact StartEffect.idle_of_started h hlog
  | marked => simp [Flag.stale]

/-- Of two idle members one is left when a member stops. -/
theorem wouldStart_of_stopped {p : ElasticPool n} {w w' : World n} {j : Fin n}
    (hnodup : p.nodes.Nodup) (hidle : 2 ≤ (p.stats w).idle)
    (hflag : ∀ i k, i ≠ j → w'.flag i k = w.flag i k) : p.wouldStart g.toGraph w' = false := by
  rw [ElasticPool.idle_stats, List.countP_eq_length_filter] at hidle
  have hother : ∃ i ∈ p.nodes.filter (fun i => w.flag i .running && !w.flag i .busy), i ≠ j := by
    by_contra! hall
    have hreplicate := List.eq_replicate_of_mem hall
    have hone := hnodup.filter fun i => w.flag i .running && !w.flag i .busy
    rw [hreplicate, List.nodup_replicate] at hone
    omega
  obtain ⟨i, hi, hne⟩ := hother
  obtain ⟨hmem, hrun⟩ := List.mem_filter.mp hi
  simp only [Bool.and_eq_true, Bool.not_eq_true'] at hrun
  apply ElasticPool.wouldStart_of_idle hmem
  · rw [hflag i .running hne]
    exact hrun.1
  · rw [hflag i .busy hne]
    exact hrun.2

theorem getElem?_pools {k : ℕ} {p : ElasticPool n} (hp : g.elastic[k]? = some p) :
    g.pools[k]? = some p.nodes := by
  rw [g.elastic_nodes, List.getElem?_map, hp]
  rfl

/-- A graph with an elastic pool says that it has some. -/
theorem has_pools {k : ℕ} {p : ElasticPool n} (hp : g.elastic[k]? = some p) :
    g.has .pools = true := by
  rw [← Bool.not_eq_false]
  intro hnone
  have hmem := List.mem_of_getElem? (getElem?_pools hp)
  rw [g.pools_sound hnone] at hmem
  cases hmem

section Turn

variable {s : PoolSys n} {p : ElasticPool n} {k now : ℕ} {due : Option ℕ}

/-- The front half of a growth. -/
theorem begin_grow (hp : g.elastic[k]? = some p) (w : World n) :
    g.toGraph.begin w (.scale k .grow) =
      match p.spare g.toGraph w with
      | none => (.done none, w)
      | some j =>
        if g.admits w j then
          (AfterStart.ignore.proceed j (g.startNode w j).1, (g.startNode w j).2)
        else (.done none, w) := by
  simp only [Graph.begin, getElem?_pools hp]
  rfl

theorem flag_stopNode {w : World n} {cfg : NodeCfg n} {i j : Fin n} (hne : i ≠ j) (k : Flag) :
    (w.stopNode cfg j).2.flag i k = w.flag i k := by
  unfold World.stopNode
  split
  · rfl
  · simp only
    split <;> simp [hne]

/-- The front half of a shrink leaves the pool with an idle member. -/
theorem shut_of_begin_shrink (hp : g.elastic[k]? = some p) {w : World n}
    (hidle : 2 ≤ (p.stats w).idle) :
    p.wouldStart g.toGraph (g.toGraph.begin w (.scale k .shrink)).2 = false := by
  have hnodup := g.nodup p (List.mem_of_getElem? hp)
  have hshut : ∀ {j : Fin n} {w' : World n}, (∀ i k, i ≠ j → w'.flag i k = w.flag i k) →
      p.wouldStart g.toGraph w' = false := wouldStart_of_stopped hnodup hidle
  simp only [Graph.begin, getElem?_pools hp]
  split
  · exact ElasticPool.wouldStart_of_idle_pos (Nat.two_pos.trans_le hidle)
  · next j hsurplus =>
      split
      · exact hshut (j := j) fun _ _ _ => rfl
      · next cfg hcfg =>
          have hflag : ∀ i k, i ≠ j → (w.stopNode cfg j).2.flag i k = w.flag i k :=
            fun i k hne => flag_stopNode hne k
          cases hentry : w.stopNode cfg j with
          | mk d w' =>
              rw [hentry] at hflag
              cases d <;> exact hshut hflag

/-- The calls a driver waits for: a member of the pool being started, or one being
stopped. -/
inductive Scaling (g : PoolGraph n) (k : ℕ) : Call n → Prop
  | done (r : Outcome n) : Scaling g k (.done r)
  | startNode {j : Fin n} {phase : StartPhase n}
      (hmem : ∀ p, g.elastic[k]? = some p → j ∈ p.nodes) :
      Scaling g k (.startNode j phase .ignore)
  | stopNode (j : Fin n) (deadline : ℕ) : Scaling g k (.stopNode j deadline)

theorem scaling_proceed {j : Fin n} (hmem : ∀ p, g.elastic[k]? = some p → j ∈ p.nodes)
    (e : StartEnd n) : Scaling g k (AfterStart.ignore.proceed j e) := by
  cases e with
  | wait phase => exact .startNode hmem
  | done r => exact .done none

theorem scaling_begin (hp : g.elastic[k]? = some p) (w : World n) (action : ScaleAction) :
    Scaling g k (g.toGraph.begin w (.scale k action)).1 := by
  cases action with
  | none =>
      simp only [Graph.begin, getElem?_pools hp]
      exact .done none
  | grow =>
      rw [begin_grow hp]
      cases hspare : p.spare g.toGraph w with
      | none => exact .done none
      | some j =>
          simp only
          split
          · apply scaling_proceed
            intro p' hp'
            cases hp.symm.trans hp'
            exact (ElasticPool.mem_of_spare hspare).1
          · exact .done none
  | shrink =>
      simp only [Graph.begin, getElem?_pools hp]
      split
      · exact .done none
      · next j hsurplus =>
          split
          · exact .done none
          · next cfg hcfg =>
              cases hentry : w.stopNode cfg j with
              | mk d w' =>
                  cases d with
                  | none => exact .done none
                  | some deadline => exact .stopNode j deadline

theorem scaling_step {w w' : World n} {c c' : Call n} (hc : Scaling g k c)
    (h : c.step g.toGraph w = some (c', w')) : Scaling g k c' := by
  cases hc with
  | done r => simp [Call.step] at h
  | startNode hmem =>
      cases Call.step_cases h with
      | startNode => exact scaling_proceed hmem _
  | stopNode j deadline =>
      cases Call.step_cases h with
      | ackNode => exact .done none
      | missNode => exact .done _

/-- What a turn of a pool leaves is what its policy's decision makes of it. -/
theorem drivePool_eq {action : ScaleAction}
    (haction : ((p.stats s.world).decide p.cooldown (s.pending k) now).1 = action) :
    (s.drivePool g p k now due).world = (g.toGraph.begin s.world (.scale k action)).2 ∧
      ∃ due', (s.drivePool g p k now due).driver =
        Driver.after k now due' (g.toGraph.begin s.world (.scale k action)).1 := by
  subst haction
  exact ⟨rfl, _, rfl⟩

theorem passed_startNode {due : Option ℕ} {j : Fin n} {phase : StartPhase n}
    {next : AfterStart n} :
    (Driver.after k now due (.startNode j phase next)).passed k = false := by
  simp [Driver.after, Driver.passed]

/-- **A pool is shut after its turn**, unless a member of it is being started. -/
theorem shut_of_drivePool (hp : g.elastic[k]? = some p) (hdriver : s.driver = .pass k now due)
    (hgrows : s.grows g (s.drivePool g p k now due) = true)
    (hpassed : (s.drivePool g p k now due).driver.passed k = true) :
    p.wouldStart g.toGraph (s.drivePool g p k now due).world = false := by
  cases haction : ((p.stats s.world).decide p.cooldown (s.pending k) now).1 with
  | none =>
      rw [(drivePool_eq haction).1]
      simp only [Graph.begin, getElem?_pools hp]
      apply ElasticPool.wouldStart_of_decide_ne_grow
      rw [haction]
      exact ScaleAction.noConfusion
  | shrink =>
      rw [(drivePool_eq haction).1]
      exact shut_of_begin_shrink hp (PoolStats.idle_of_decide_eq_shrink haction)
  | grow =>
      obtain ⟨hworld, due', hafter⟩ :
          (s.drivePool g p k now due).world = (g.toGraph.begin s.world (.scale k .grow)).2 ∧
            ∃ due', (s.drivePool g p k now due).driver =
              Driver.after k now due' (g.toGraph.begin s.world (.scale k .grow)).1 :=
        drivePool_eq haction
      rw [begin_grow hp] at hworld hafter
      cases hspare : p.spare g.toGraph s.world with
      | none =>
          simp only [hspare] at hworld
          simp [hworld, ElasticPool.wouldStart, hspare]
      | some j =>
          by_cases hadmit : g.admits s.world j = true
          · have hgrowing : s.growing g = some j := by
              simp [growing, hdriver, hp, ElasticPool.evaluate, haction, hspare, hadmit]
            simp only [hspare, if_pos hadmit] at hworld hafter
            obtain ⟨hmem, hocc⟩ := ElasticPool.mem_of_spare hspare
            have hentry := startNode_cases g.toGraph s.world j
            rw [grows, hgrowing, hworld, hafter] at hgrows
            rw [hafter] at hpassed
            rw [hworld]
            cases hend : (g.startNode s.world j).1 with
            | wait phase =>
                rw [hend] at hpassed
                simp only [AfterStart.proceed, passed_startNode] at hpassed
                cases hpassed
            | done r =>
                rw [hend] at hgrows hentry
                simp only [AfterStart.proceed, AfterStart.resume, Driver.after, Driver.suspended,
                  Option.all_some, Bool.false_or, decide_eq_true_eq] at hgrows
                obtain ⟨hrunning, hbusy⟩ := StartEntry.idle_of_started hocc hentry hgrows
                exact ElasticPool.wouldStart_of_idle hmem hrunning hbusy
          · simp only [hspare, if_neg hadmit] at hworld
            simp [hworld, ElasticPool.wouldStart, hspare, hadmit]

end Turn

/-! ## No growth is missed -/

def Scales (g : PoolGraph n) (s : PoolSys n) : Prop :=
  ∀ k now due c, s.driver = .scaling k now due c → Scaling g k c

/-- Every pool the driver has passed is shut, or a request is posted, or one is owed. -/
structure Watched (g : PoolGraph n) (s : PoolSys n) : Prop where
  shut : ∀ k p, g.elastic[k]? = some p → s.driver.passed k = true →
    p.wouldStart g.toGraph s.world = true →
    s.world.scaleReq = true ∨ ∃ c ∈ s.sys.calls, c.owes g.toGraph p s.world = true
  scales : s.Scales g

variable {s t : PoolSys n} {l : Label n}

theorem watched_of_pass {now : ℕ} {due : Option ℕ} (hs : s.driver = .pass 0 now due) :
    s.Watched g where
  shut k p _ hpassed := by
    rw [hs] at hpassed
    simp [Driver.passed] at hpassed
  scales k now due c h := by
    rw [hs] at h
    cases h

theorem scales_after {k now : ℕ} {due : Option ℕ} {c : Call n} (hc : Scaling g k c)
    (hs : s.driver = Driver.after k now due c) : s.Scales g := by
  intro k' now' due' c' h
  rw [hs] at h
  cases hc with
  | done r => cases r <;> cases h
  | startNode hmem =>
      cases h
      exact .startNode hmem
  | stopNode j deadline =>
      cases h
      exact .stopNode j deadline

theorem scales_drive (hs : s.Scales g) (h : s.drive g = some t) : t.Scales g := by
  cases drive_cases h with
  | evaluate _ _ hp =>
      obtain ⟨-, due', hafter⟩ := drivePool_eq (s := s) (g := g) rfl
      exact scales_after (scaling_begin hp _ _) hafter
  | carries hdriver hstep => exact scales_after (scaling_step (hs _ _ _ _ hdriver) hstep) rfl
  | parks | never | wakes | returns | ends =>
      intro k now due c hscaling
      cases hscaling

theorem passed_after {k k' now : ℕ} {due : Option ℕ} {c : Call n} (hc : Scaling g k c)
    (h : (Driver.after k now due c).passed k' = true) : k' ≤ k := by
  cases hc with
  | done r =>
      cases r with
      | none => exact Nat.lt_succ_iff.mp (of_decide_eq_true h)
      | some f => cases h
  | startNode => exact (of_decide_eq_true h).le
  | stopNode => exact of_decide_eq_true h

/-- The poll that ends a growth leaves the pool shut. -/
theorem shut_of_startNode {k now : ℕ} {due : Option ℕ} {j : Fin n} {phase : StartPhase n}
    {c : Call n} {w : World n} {p : ElasticPool n} (hmem : j ∈ p.nodes)
    (hdriver : s.driver = .scaling k now due (.startNode j phase .ignore))
    (hstep : Call.step g.toGraph s.world (.startNode j phase .ignore) = some (c, w))
    (hgrows : s.grows g
      { s with sys := { s.sys with world := w }, driver := Driver.after k now due c } = true)
    (hpassed : (Driver.after k now due c).passed k = true) :
    p.wouldStart g.toGraph w = false := by
  have hgrowing : s.growing g = some j := by simp [growing, hdriver]
  rw [grows, hgrowing] at hgrows
  cases Call.step_cases hstep with
  | @startNode _ _ _ cfg e _ hcfg h hpoll =>
      cases e with
      | wait phase =>
          rw [AfterStart.proceed, passed_startNode] at hpassed
          cases hpassed
      | done r =>
          have hhead := of_decide_eq_true hgrows
          obtain ⟨hrunning, hbusy⟩ := StartEffect.idle_of_started h hhead
          exact ElasticPool.wouldStart_of_idle hmem hrunning hbusy

/-- A pool the driver has passed after a poll it had passed before, or the poll was its turn
and leaves it shut. -/
theorem passed_or_shut (hs : s.Scales g) (h : s.drive g = some t)
    (hgrows : s.grows g t = true) {k : ℕ} {p : ElasticPool n} (hp : g.elastic[k]? = some p)
    (hpassed : t.driver.passed k = true) :
    s.driver.passed k = true ∨ p.wouldStart g.toGraph t.world = false := by
  have hlt : k < g.elastic.length := (List.getElem?_eq_some_iff.mp hp).1
  cases drive_cases h with
  | @evaluate i now due q hdriver _ hq =>
      obtain ⟨-, due', hafter⟩ := drivePool_eq (s := s) (p := q) (g := g) rfl
      have hle : k ≤ i := passed_after (scaling_begin hq _ _) (hafter ▸ hpassed)
      rcases hle.lt_or_eq with hbefore | rfl
      · apply Or.inl
        rw [hdriver]
        exact decide_eq_true hbefore
      · cases hp.symm.trans hq
        exact Or.inr (shut_of_drivePool hp hdriver hgrows hpassed)
  | parks hdriver hover =>
      apply Or.inl
      rw [hdriver]
      exact decide_eq_true (hlt.trans_le (List.getElem?_eq_none_iff.mp hover))
  | @carries i now due c c' w hdriver hstep =>
      have hscaling := hs i now due c hdriver
      have hle : k ≤ i := passed_after (scaling_step hscaling hstep) hpassed
      cases hscaling with
      | done r => simp [Call.step] at hstep
      | startNode hmem =>
          rcases hle.lt_or_eq with hbefore | rfl
          · apply Or.inl
            rw [hdriver]
            exact decide_eq_true hbefore
          · exact Or.inr (shut_of_startNode (hmem p hp) hdriver hstep hgrows hpassed)
      | stopNode j deadline =>
          apply Or.inl
          rw [hdriver]
          exact decide_eq_true hle
  | wakes | returns => simp [Driver.passed] at hpassed
  | never | ends => cases hpassed

/-- A poll of the driver takes the request only to begin a pass. -/
theorem scaleReq_drive (h : s.drive g = some t) {k : ℕ} (hpassed : t.driver.passed k = true)
    (hreq : s.world.scaleReq = true) : t.world.scaleReq = true := by
  cases drive_cases h with
  | evaluate =>
      obtain ⟨hworld, -⟩ := drivePool_eq (s := s) (g := g) rfl
      rwa [hworld, scaleReq_begin]
  | carries _ hstep => exact Call.scaleReq_of_step hstep hreq
  | parks | never | returns | ends => exact hreq
  | wakes => simp [Driver.passed] at hpassed

/-- The driver makes no calls of its own in the system. -/
theorem calls_drive (h : s.drive g = some t) : t.sys.calls = s.sys.calls := by
  cases drive_cases h with
  | evaluate | parks | never | carries | wakes | returns | ends => rfl

/-- The request outlives a step of the system. -/
theorem scaleReq_sys {a b : Sys n} {l : EmbassySupervisor.Label n}
    (h : a.next g.toGraph l = some b) (hreq : a.world.scaleReq = true) :
    b.world.scaleReq = true := by
  cases Sys.next_cases h with
  | @begin v c w _ hbegin =>
      have hkept := scaleReq_begin g.toGraph a.world v
      rw [hbegin] at hkept
      rwa [hkept]
  | advance _ _ hstep => exact Call.scaleReq_of_step hstep hreq
  | task _ happly => exact TaskEvent.scaleReq_of_apply happly hreq
  | setDisabled => exact hreq
  | cancel => exact hreq

/-- A call in flight is still there after a step, or posts the request. -/
theorem owed_sys {a b : Sys n} {l : EmbassySupervisor.Label n} {owes owes' : Call n → Bool}
    (h : a.next g.toGraph l = some b) (hkept : ∀ c, owes c = true → owes' c = true)
    (hstep : ∀ i c c', l = .advance i → a.calls[i]? = some c →
      c.step g.toGraph a.world = some (c', b.world) → owes c = true →
        owes' c' = true ∨ b.world.scaleReq = true)
    (hkeep : ∀ i, l = .cancel i → (a.calls[i]?).any owes = false)
    (howed : ∃ c ∈ a.calls, owes c = true) :
    b.world.scaleReq = true ∨ ∃ c ∈ b.calls, owes' c = true := by
  obtain ⟨c, hc, howes⟩ := howed
  cases Sys.next_cases h with
  | begin => exact Or.inr ⟨c, List.mem_append_left _ hc, hkept c howes⟩
  | @advance i d d' w _ hcall hcarry =>
      obtain ⟨k, hk⟩ := List.getElem?_of_mem hc
      by_cases hki : k = i
      · subst hki
        cases hcall.symm.trans hk
        rcases hstep k c d' rfl hk hcarry howes with hstill | hposted
        · exact Or.inr ⟨d', List.mem_set (List.getElem?_eq_some_iff.mp hk).1 _, hstill⟩
        · exact Or.inl hposted
      · refine Or.inr ⟨c, List.mem_of_getElem? (i := k) ?_, hkept c howes⟩
        rwa [List.getElem?_set_ne (Ne.symm hki)]
  | task | setDisabled => exact Or.inr ⟨c, hc, hkept c howes⟩
  | @cancel i d _ hcall _ =>
      obtain ⟨k, hk⟩ := List.getElem?_of_mem hc
      have hki : i ≠ k := by
        rintro rfl
        have hnone := hkeep i rfl
        rw [hk, Option.any_some, howes] at hnone
        cases hnone
      refine Or.inr ⟨c, List.mem_of_getElem? (i := k) ?_, hkept c howes⟩
      rwa [List.getElem?_set_ne hki]

/-- A poll of the driver is tame, or posts the request. -/
theorem tame_drive (hpools : g.has .pools = true) (h : s.drive g = some t) :
    t.world.scaleReq = true ∨ s.world.Tame t.world := by
  cases drive_cases h with
  | @evaluate k now due p =>
      have hworld : (s.drivePool g p k now due).world = _ := (drivePool_eq rfl).1
      rw [hworld]
      exact Or.inr (begin_cases g.toGraph s.world _).tame
  | carries _ hstep => exact (Call.step_cases hstep).tame hpools
  | parks | never | returns | ends | wakes => exact Or.inr (.of_flags fun _ _ _ => rfl)

/-- A step that spares a pool and leaves it open found it open, with nobody to unmark a member,
or leaves who is to be unmarked as it is. -/
theorem open_of_spares {p : ElasticPool n} (htame : s.world.Tame t.world)
    (hspares : s.spares g t p = true) (hopen : p.wouldStart g.toGraph t.world = true) :
    if s.sys.calls.any fun c => c.unmarks g.toGraph p s.world then
      ∀ j ∈ p.nodes, g.toGraph.due s.world j = true → g.toGraph.due t.world j = true
    else p.wouldStart g.toGraph s.world = true := by
  have hsated : p.sated s.world t.world = false := by
    by_contra hsated
    rw [ElasticPool.shut_of_sated htame ((Bool.not_eq_false _).mp hsated)] at hopen
    cases hopen
  rw [spares, hsated, ElasticPool.supplied_of_open htame hopen, Bool.not_true, Bool.false_or,
    Bool.false_or] at hspares
  split at hspares
  · next hunmarks =>
      rw [if_pos hunmarks]
      intro j hj hdue
      have hstrands := (Bool.not_eq_true' _).mp hspares
      rcases ElasticPool.due_of_tame htame hstrands hj hdue with hup | hstill
      · obtain ⟨cfg, -, hbind⟩ := (Option.any_eq_true _ _).mp hdue
        obtain ⟨-, -, -, -, hdown, -⟩ := World.bindable_iff.mp (Bool.and_eq_true_iff.mp hbind).2
        rw [ElasticPool.shut_of_up htame hj hdown hup] at hopen
        cases hopen
      · exact hstill
  · next hnone =>
      rw [if_neg hnone]
      exact ElasticPool.open_of_untouched htame ((Bool.not_eq_true' _).mp hspares) hopen

/-- **What a step keeps of a pool the driver has passed.** -/
theorem Watched.carry (hs : s.Watched g) {k : ℕ} {p : ElasticPool n} (hp : g.elastic[k]? = some p)
    (hpassed : s.driver.passed k = true) (htame : t.world.scaleReq = true ∨ s.world.Tame t.world)
    (hreq : s.world.scaleReq = true → t.world.scaleReq = true)
    (hcycling : (∃ c ∈ s.sys.calls, c.cycling = true) →
      t.world.scaleReq = true ∨ ∃ c ∈ t.sys.calls, c.cycling = true)
    (hunmarks : (∀ j ∈ p.nodes, g.toGraph.due s.world j = true → g.toGraph.due t.world j = true) →
      (∃ c ∈ s.sys.calls, c.unmarks g.toGraph p s.world = true) →
        t.world.scaleReq = true ∨ ∃ c ∈ t.sys.calls, c.unmarks g.toGraph p t.world = true)
    (hquiet : s.world.scaleReq = true ∨ (∃ c ∈ s.sys.calls, c.cycling = true) ∨
      s.spares g t p = true) (hopen : p.wouldStart g.toGraph t.world = true) :
    t.world.scaleReq = true ∨ ∃ c ∈ t.sys.calls, c.owes g.toGraph p t.world = true := by
  have hcycles : (∃ c ∈ s.sys.calls, c.cycling = true) →
      t.world.scaleReq = true ∨ ∃ c ∈ t.sys.calls, c.owes g.toGraph p t.world = true := by
    intro h
    refine (hcycling h).imp_right ?_
    rintro ⟨c, hc, hcycles⟩
    exact ⟨c, hc, by rw [Call.owes, hcycles, Bool.true_or]⟩
  rcases htame with hposted | htame
  · exact Or.inl hposted
  rcases hquiet with hposted | hcycle | hspares
  · exact Or.inl (hreq hposted)
  · exact hcycles hcycle
  · have hbefore := open_of_spares htame hspares hopen
    split at hbefore
    · next hany =>
        refine (hunmarks hbefore (List.any_eq_true.mp hany)).imp_right ?_
        rintro ⟨c, hc, hunmarks⟩
        exact ⟨c, hc, by rw [Call.owes, hunmarks, Bool.or_true]⟩
    · next hnone =>
        rcases hs.shut k p hp hpassed hbefore with hposted | ⟨c, hc, howes⟩
        · exact Or.inl (hreq hposted)
        · rcases Bool.or_eq_true_iff.mp howes with hcycle | hunmarks
          · exact hcycles ⟨c, hc, hcycle⟩
          · exact absurd (List.any_eq_true.mpr ⟨c, hc, hunmarks⟩) hnone

/-- What a quiet step says of a pool. -/
theorem spares_of_quiet (hquiet : s.quiet g l = true) (hactivates : activates l = false)
    (h : s.next g l = some t) {k : ℕ} {p : ElasticPool n} (hp : g.elastic[k]? = some p)
    (hpassed : s.driver.passed k = true) :
    s.world.scaleReq = true ∨ (∃ c ∈ s.sys.calls, c.cycling = true) ∨ s.spares g t p = true := by
  simp only [quiet, hactivates, h, Bool.or_false, Bool.or_eq_true, Option.all_some,
    List.any_eq_true, List.all_eq_true, List.mem_range, or_assoc] at hquiet
  refine hquiet.imp_right (Or.imp_right fun hall => ?_)
  have hk := hall k (List.getElem?_eq_some_iff.mp hp).1
  simpa [hp, hpassed] using hk

theorem Watched.sys (hs : s.Watched g) {sys : Sys n} {l : EmbassySupervisor.Label n}
    (hsys : s.sys.next g.toGraph l = some sys) (hnext : s.next g (.sys l) = some { s with sys })
    (hcompletes : s.completes g (.sys l) = true) (hquiet : s.quiet g (.sys l) = true) {k : ℕ}
    {p : ElasticPool n} (hp : g.elastic[k]? = some p) (hpassed : s.driver.passed k = true)
    (hopen : p.wouldStart g.toGraph sys.world = true) :
    sys.world.scaleReq = true ∨ ∃ c ∈ sys.calls, c.owes g.toGraph p sys.world = true := by
  have hpools := has_pools hp
  by_cases hactivates : activates (.sys l) = true
  · cases Sys.next_cases hsys with
    | @begin v c w _ hbegin =>
        cases v with
        | activate target =>
            cases hbegin
            exact Or.inr ⟨_, List.mem_append_right _ (List.mem_singleton_self _), rfl⟩
        | start | startNode | stopNode | teardown | teardownContinue | resumeNode
        | resumePausable | respawnTerminate | deactivate | restart | applyBind | scale =>
            cases hactivates
    | advance | task | setDisabled | cancel => cases hactivates
  have hactivates : activates (.sys l) = false := (Bool.not_eq_true _).mp hactivates
  have hfails : ∀ i c, l = .advance i → s.sys.calls[i]? = some c → c.failing = false := by
    rintro i c rfl hcall
    simpa [completes, hcall] using hcompletes
  have hkeeps : ∀ (owes : Call n → Bool), (∀ c, owes c = true →
      c.owes g.toGraph p s.world = true) → ∀ i, l = .cancel i → (s.sys.calls[i]?).any owes = false := by
    rintro owes howes i rfl
    cases hcall : s.sys.calls[i]? with
    | none => rfl
    | some c =>
        by_contra hany
        have howed := howes c ((Bool.not_eq_false _).mp hany)
        simp only [completes, hcall, Option.any_some, Bool.not_eq_true', List.any_eq_false]
          at hcompletes
        exact hcompletes p (List.mem_of_getElem? hp) howed
  refine hs.carry (t := { s with sys }) hp hpassed (tame_or_posted hpools hsys) (scaleReq_sys hsys)
    (fun howed => ?_) (fun hdue howed => ?_) (spares_of_quiet hquiet hactivates hnext hp hpassed) hopen
  · refine owed_sys hsys (fun _ => id) (fun i c c' hl hcall hstep => ?_) (hkeeps _ fun c hc => ?_) howed
    · exact Call.cycling_step hpools hstep (hfails i c hl hcall)
    · rw [Call.owes, hc, Bool.true_or]
  · refine owed_sys hsys (fun c => Call.unmarks_of_due hdue) (fun i c c' _ _ hstep => ?_)
      (hkeeps _ fun c hc => ?_) howed
    · exact Call.unmarks_step hpools hstep hdue
    · rw [Call.owes, hc, Bool.or_true]

theorem Watched.next (hs : s.Watched g) (hregular : s.regular g l = true)
    (hquiet : s.quiet g l = true) (h : s.next g l = some t) : t.Watched g := by
  obtain ⟨hcompletes, hgrows⟩ := Bool.and_eq_true_iff.mp hregular
  cases next_cases h with
  | sys _ hsys =>
      exact ⟨fun k p hp hpassed hopen => hs.sys hsys h hcompletes hquiet hp hpassed hopen, hs.scales⟩
  | drive _ hdrive =>
      have hgrown : s.grows g t = true := by simpa [h] using hgrows
      refine ⟨fun k p hp hpassed hopen => ?_, scales_drive hs.scales hdrive⟩
      rcases passed_or_shut hs.scales hdrive hgrown hp hpassed with hbefore | hshut
      · have hcalls := calls_drive hdrive
        refine hs.carry hp hbefore (tame_drive (has_pools hp) hdrive) (scaleReq_drive hdrive hpassed)
          (fun howed => ?_) (fun hdue howed => ?_) (spares_of_quiet hquiet rfl h hp hbefore) hopen
        · rw [hcalls]
          exact Or.inr howed
        · obtain ⟨c, hc, hunmarks⟩ := howed
          rw [hcalls]
          exact Or.inr ⟨c, hc, Call.unmarks_of_due hdue hunmarks⟩
      · rw [hshut] at hopen
        cases hopen
  | control =>
      refine ⟨fun k p hp hpassed _ => ?_, fun k now due c hdriver => ?_⟩
      · cases hpassed
      · cases hdriver

/-- **No missed scale-up.** In a run of quiet steps, a driver that is parked with no request
posted and none owed would start no member whose dependencies are running and ready, in any
pool. -/
theorem parked_closed {labels : List (Label n)} {now : ℕ} {due due' : Option ℕ}
    (hs : s.driver = .pass 0 now due)
    (hregular : Along (next g) (fun s l => s.regular g l = true) s labels)
    (hquiet : Along (next g) (fun s l => s.quiet g l = true) s labels)
    (hrun : exec (next g) s labels = some t) (hparked : t.driver = .park due')
    (hunposted : t.world.scaleReq = false) {k : ℕ} {p : ElasticPool n}
    (hp : g.elastic[k]? = some p)
    (hcomplete : ∀ c ∈ t.sys.calls, c.owes g.toGraph p t.world = false) (j : Fin n)
    (hstart : (p.evaluate g.toGraph t.world (t.pending k) t.world.now).1 = .start j) :
    g.admits t.world j = false := by
  have ht : t.Watched g := by
    apply exec_invariant_along (I := Watched g) _ (watched_of_pass hs) (hregular.and hquiet) hrun
    intro u l v hu hl hstep
    exact hu.next hl.1 hl.2 hstep
  rw [← Bool.not_eq_true]
  intro hadmit
  have hopen := ElasticPool.wouldStart_iff.mpr ⟨j, hstart, hadmit⟩
  rcases ht.shut k p hp (by rw [hparked]; rfl) hopen with hposted | ⟨c, hc, howes⟩
  · rw [hunposted] at hposted
    cases hposted
  · rw [hcomplete c hc] at howes
    cases howes

/-- A server and a pool of two workers that depend on it. -/
def workers : PoolGraph 3 where
  deps j := if j = 0 then [] else [0]
  order := [0, 1, 2]
  topological := ⟨by decide, by decide, by decide, by decide⟩
  nodes j := some { mode := if j = 0 then .terminate else .onDemand, spawn := some .fn,
                    slotTimeout := 5000000, ackTimeout := 2000000 }
  pools := [[1, 2]]
  shape_sound _ cfg _ := cfg.fitsShape_all
  pools_sound h := by simp at h
  elastic := [{ nodes := [1, 2], min := 0, max := 2, cooldown := 4000000 }]
  elastic_nodes := rfl
  nodup := by decide

def workersDown : PoolSys 3 where
  sys := { world := { node := fun _ => {} } }
  driver := .pass 0 0 none

/-- The server is activated, a worker is started, the server exits, the worker gets busy. -/
def bustle : List (Label 3) :=
  [.drive, .drive, .control { op := .activate, node := 0 }] ++
    List.replicate 6 (.sys (.advance 0)) ++
    [.drive, .drive, .drive, .sys (.task (.markExited 0)), .sys (.task (.markBusy 1)),
      .drive, .drive, .drive]

def bustleRun : Option (PoolSys 3) := exec (next workers) workersDown bustle

/-- A link, a server bound to it, and a pool of one worker bound to the link that depends on the
server too. -/
def served : PoolGraph 3 where
  deps j := if j = 0 then [] else if j = 1 then [0] else [0, 1]
  order := [0, 1, 2]
  topological := ⟨by decide, by decide, by decide, by decide⟩
  nodes j := some { mode := if j.val < 2 then .terminate else .onDemand, spawn := some .fn,
                    readyDeps := if j = 0 then [] else [0],
                    boundDeps := if j = 0 then [] else [0],
                    slotTimeout := 5000000, ackTimeout := 2000000 }
  pools := [[2]]
  shape_sound _ cfg _ := cfg.fitsShape_all
  pools_sound h := by simp at h
  elastic := [{ nodes := [2], min := 0, max := 1, cooldown := 4000000 }]
  elastic_nodes := rfl
  nodup := by decide

/-- The link is back, the others are down for it. -/
def linkBack : PoolSys 3 where
  sys := { world := { node := fun j =>
    { flags := fun k => if j = 0 then k == .running || k == .ready else k == .boundStopped } } }
  driver := .pass 0 0 none

/-- The driver parks, an `apply_bind` brings the server back and turns to the worker, which is
started. The server exits, then the worker. -/
def rebound : List (Label 3) :=
  [.drive, .drive, .sys (.begin .applyBind)] ++ List.replicate 13 (.sys (.advance 0)) ++
    [.drive, .drive, .drive, .sys (.task (.markExited 1)), .sys (.task (.markExited 2))]

def reboundRun : Option (PoolSys 3) := exec (next served) linkBack rebound

theorem parked_closed_workers : workers.admits (bustleRun.get rfl).world 2 = false ∧
    served.admits (reboundRun.get rfl).world 2 = false := by
  constructor
  · have hregular : Along (next workers) (fun s l => s.regular workers l = true) workersDown
        bustle := by decide +kernel
    have hquiet : Along (next workers) (fun s l => s.quiet workers l = true) workersDown
        bustle := by decide +kernel
    have hrun : exec (next workers) workersDown bustle = some (bustleRun.get rfl) :=
      (Option.some_get _).symm
    have hcomplete : ∀ c ∈ (bustleRun.get rfl).sys.calls, c.owes workers.toGraph
        { nodes := [1, 2], min := 0, max := 2, cooldown := 4000000 } (bustleRun.get rfl).world =
          false := by decide +kernel
    exact parked_closed (k := 0) rfl hregular hquiet hrun rfl rfl rfl hcomplete 2 rfl
  · have hregular : Along (next served) (fun s l => s.regular served l = true) linkBack
        rebound := by decide +kernel
    have hquiet : Along (next served) (fun s l => s.quiet served l = true) linkBack
        rebound := by decide +kernel
    have hrun : exec (next served) linkBack rebound = some (reboundRun.get rfl) :=
      (Option.some_get _).symm
    have hcomplete : ∀ c ∈ (reboundRun.get rfl).sys.calls, c.owes served.toGraph
        { nodes := [2], min := 0, max := 1, cooldown := 4000000 } (reboundRun.get rfl).world =
          false := by decide +kernel
    exact parked_closed (k := 0) rfl hregular hquiet hrun rfl rfl rfl hcomplete 2 rfl

/-- A pool of one. -/
def lone : PoolGraph 1 where
  deps _ := []
  order := [0]
  topological := topological_one
  nodes _ := some { mode := .onDemand, spawn := some .fn, slotTimeout := 5000000,
                    ackTimeout := 2000000 }
  pools := [[0]]
  shape_sound _ cfg _ := cfg.fitsShape_all
  pools_sound h := by simp at h
  elastic := [{ nodes := [0], min := 0, max := 1, cooldown := 4000000 }]
  elastic_nodes := rfl
  nodup := by decide

def loneDown : PoolSys 1 where
  sys := { world := { node := fun _ => {} } }
  driver := .pass 0 0 none

/-- The member is started, the driver parks, the member exits. -/
def deserted : List (Label 1) := [.drive, .drive, .sys (.task (.markExited 0))]

def desertedRun : Option (PoolSys 1) := exec (next lone) loneDown deserted

theorem parked_open :
    ¬ ∀ (g : PoolGraph 1) (s t : PoolSys 1) (labels : List (Label 1)) (now : ℕ)
      (due due' : Option ℕ) (k : ℕ) (p : ElasticPool 1) (j : Fin 1),
      s.driver = .pass 0 now due →
      Along (next g) (fun s l => s.regular g l = true) s labels →
      exec (next g) s labels = some t → t.driver = .park due' →
      (∀ d, due' = some d → t.world.now < d) → t.world.scaleReq = false →
      g.elastic[k]? = some p → (∀ c ∈ t.sys.calls, c.owes g.toGraph p t.world = false) →
      (p.evaluate g.toGraph t.world (t.pending k) t.world.now).1 = .start j →
      g.admits t.world j = false := by
  intro h
  have hregular : Along (next lone) (fun s l => s.regular lone l = true) loneDown deserted := by
    decide +kernel
  have hrun : exec (next lone) loneDown deserted = some (desertedRun.get rfl) :=
    (Option.some_get _).symm
  have hshut := h lone loneDown (desertedRun.get rfl) deserted 0 none none 0 _ 0 rfl hregular
    hrun rfl (by simp) rfl rfl (by decide +kernel) rfl
  cases hshut

end PoolSys

end EmbassySupervisor
