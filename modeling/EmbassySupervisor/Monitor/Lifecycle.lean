/-
# Lifecycle events and the breadcrumb

Every transition the supervisor drives is noted: as an event in a queue of eight that drops what
does not fit, and as a crumb, the node's own and one word for the whole binary. A restart that
its budget refuses posts its event and leaves no crumb.

`decodeCrumb_eq_some` says that the word and its decoding are inverse to each other, and
`observed_run` what the observers hold after any run of the system.
-/

import EmbassySupervisor.Lib.LossyQueue
import EmbassySupervisor.Monitor.Strikes
import EmbassySupervisor.Verb.BoundLaw
import Mathlib.Tactic.IntervalCases

namespace EmbassySupervisor

open LabelledRun

variable {n : ℕ}

/-! ## Events -/

inductive LifecycleKind (n : ℕ)
  | started
  | resumed
  | stopRequested
  | stopped
  | exited
  | faulted (kind : FaultKind n)
  deriving DecidableEq

structure LifecycleEvent (n : ℕ) where
  node : Fin n
  kind : LifecycleKind n
  deriving DecidableEq

/-- What a transition is evented as. -/
def Transition.kind : Transition n → Option (LifecycleKind n)
  | .spawning => none
  | .started => some .started
  | .resumed => some .resumed
  | .stopRequested => some .stopRequested
  | .stopped => some .stopped
  | .exited => some .exited
  | .faulted kind => some (.faulted kind)

/-! ## Crumbs -/

inductive CrumbPhase
  | idle
  | spawning
  | started
  | stopSignalled
  | stopped
  | faulted
  | resumed
  deriving DecidableEq, Repr

namespace CrumbPhase

def code : CrumbPhase → BitVec 8
  | idle => 0
  | spawning => 1
  | started => 2
  | stopSignalled => 3
  | stopped => 4
  | faulted => 5
  | resumed => 6

def fromU8 (v : BitVec 8) : Option CrumbPhase :=
  match v.toNat with
  | 0 => some idle
  | 1 => some spawning
  | 2 => some started
  | 3 => some stopSignalled
  | 4 => some stopped
  | 5 => some faulted
  | 6 => some resumed
  | _ => none

end CrumbPhase

def Transition.phase : Transition n → CrumbPhase
  | .spawning => .spawning
  | .started => .started
  | .resumed => .resumed
  | .stopRequested => .stopSignalled
  | .stopped | .exited => .stopped
  | .faulted _ => .faulted

/-- Bit 31 marks a crumb; the phase and the slot follow. -/
def crumbWord (phase : CrumbPhase) (slot : BitVec 16) : BitVec 32 :=
  0x80000000#32 ||| phase.code.setWidth 32 <<< 16 ||| slot.setWidth 32

def decodeCrumb (word : BitVec 32) : Option (CrumbPhase × BitVec 16) :=
  if word &&& 0x80000000#32 = 0 ∨ word &&& 0x7F000000#32 ≠ 0 then none
  else (CrumbPhase.fromU8 ((word >>> 16).setWidth 8)).map fun phase => (phase, word.setWidth 16)

theorem CrumbPhase.fromU8_eq_some {v : BitVec 8} {p : CrumbPhase} :
    fromU8 v = some p ↔ v = p.code := by
  constructor
  · intro h
    unfold fromU8 at h
    split at h
    all_goals cases h
    all_goals exact BitVec.eq_of_toNat_eq (by assumption)
  · intro h
    subst h
    cases p <;> rfl

section Word

variable (phase : CrumbPhase) (slot : BitVec 16)

theorem crumbWord_valid : crumbWord phase slot &&& 0x80000000#32 ≠ 0 := by
  intro h
  have htop := congrArg (·.getLsbD 31) h
  simp [crumbWord] at htop

theorem crumbWord_reserved : crumbWord phase slot &&& 0x7F000000#32 = 0 := by
  ext i hi
  rw [crumbWord]
  interval_cases i <;> simp

theorem phase_crumbWord : ((crumbWord phase slot) >>> 16).setWidth 8 = phase.code := by
  ext i hi
  rw [crumbWord]
  interval_cases i <;> simp

theorem slot_crumbWord : (crumbWord phase slot).setWidth 16 = slot := by
  ext i hi
  simp [crumbWord]

/-- A word that is marked and leaves the reserved bits alone is made of its fields. -/
theorem word_eq_fields {word : BitVec 32} (hvalid : word &&& 0x80000000#32 ≠ 0)
    (hreserved : word &&& 0x7F000000#32 = 0) : word = 0x80000000#32 |||
      ((word >>> 16).setWidth 8).setWidth 32 <<< 16 ||| (word.setWidth 16).setWidth 32 := by
  have htop : word.getLsbD 31 = true := by
    by_contra hno
    apply hvalid
    ext i hi
    interval_cases i <;> simp
    simpa using hno
  ext i hi
  have hbit := congrArg (·.getLsbD i) hreserved
  interval_cases i <;> simp at hbit ⊢ <;> simp_all

/-- **The words that decode are those that are written.** -/
theorem decodeCrumb_eq_some {word : BitVec 32} {phase : CrumbPhase} {slot : BitVec 16} :
    decodeCrumb word = some (phase, slot) ↔ word = crumbWord phase slot := by
  rw [decodeCrumb]
  constructor
  · intro h
    obtain ⟨hword, hdecode⟩ := Option.ite_none_left_eq_some.mp h
    obtain ⟨hvalid, hreserved⟩ := not_or.mp hword
    obtain ⟨p, hp, heq⟩ := Option.map_eq_some_iff.mp hdecode
    obtain ⟨rfl, rfl⟩ := Prod.mk.inj heq
    have hfields := word_eq_fields hvalid (not_not.mp hreserved)
    rw [CrumbPhase.fromU8_eq_some.mp hp] at hfields
    exact hfields
  · intro h
    subst h
    have hword : ¬(crumbWord phase slot &&& 0x80000000#32 = 0 ∨
        crumbWord phase slot &&& 0x7F000000#32 ≠ 0) :=
      not_or.mpr ⟨crumbWord_valid phase slot, not_not.mpr (crumbWord_reserved phase slot)⟩
    rw [if_neg hword, phase_crumbWord, slot_crumbWord, CrumbPhase.fromU8_eq_some.mpr rfl]
    rfl

end Word

/-! ## The observers -/

structure Observers (n : ℕ) where
  events : LossyQueue (LifecycleEvent n) 8 := {}
  crumb : Fin n → CrumbPhase := fun _ => .idle
  lastCrumb : BitVec 32 := 0

namespace Observers

def note (o : Observers n) (e : Fin n × Transition n) : Observers n :=
  { events := match e.2.kind with
      | some kind => o.events.post { node := e.1, kind }
      | none => o.events
    crumb := Function.update o.crumb e.1 e.2.phase
    lastCrumb := crumbWord e.2.phase (BitVec.ofNat 16 e.1) }

/-- An event of its own: a restart is refused. -/
def storm (o : Observers n) : Option (Fin n) → Observers n
  | some j => { o with events := o.events.post { node := j, kind := .faulted .restartStorm } }
  | none => o

end Observers

/-- The transitions noted between two states of the system, oldest first. -/
def notedBetween (w w' : World n) : List (Fin n × Transition n) :=
  ((w'.log.take (w'.log.length - w.log.length)).filterMap fun r =>
    match r.2 with
    | .note j t => some (j, t)
    | .spawned _ | .dropped _ | .boundStop _ | .boundPark _ | .claimsReleased _ => none).reverse

def eventOf (e : Fin n × Transition n) : Option (LifecycleEvent n) :=
  e.2.kind.map fun kind => { node := e.1, kind }

/-- The system with its observers. -/
structure ObservedSys (n : ℕ) where
  sys : MonitorSys n
  obs : Observers n := {}

namespace ObservedSys

inductive Label (n : ℕ)
  | sys (l : MonitorSys.Label n)
  | takeLifecycle

variable (g : MonitoredGraph n)

/-- The node whose restart a step refuses. -/
def stormed (s : MonitorSys n) : MonitorSys.Label n → Option (Fin n)
  | .pool (.sys (.begin (.restart j))) | .pool (.control ⟨.restart, j⟩) =>
    if (g.countRestart s.pool.world j).1 then none else some j
  | .pool (.sys _) | .pool .drive | .pool (.control _) | .monitor | .beat _ | .write _ | .takeHealth
  | .staleNodes | .allFresh => none

def next (s : ObservedSys n) : Label n → Option (ObservedSys n)
  | .sys l => (s.sys.next g l).map fun t =>
    { sys := t
      obs := ((notedBetween s.sys.pool.world t.pool.world).foldl Observers.note s.obs).storm
        (stormed g s.sys l) }
  | .takeLifecycle => s.obs.events.take.map fun (_, events) =>
    { s with obs := { s.obs with events } }

/-- The events a step posts, in order. -/
def posts (s : ObservedSys n) : Label n → List (LifecycleEvent n)
  | .sys l => ((s.sys.next g l).elim [] fun t =>
      (notedBetween s.sys.pool.world t.pool.world).filterMap eventOf) ++
        (stormed g s.sys l).toList.map fun j => { node := j, kind := .faulted .restartStorm }
  | .takeLifecycle => []

/-- Those of a run. -/
def postsAlong : ObservedSys n → List (Label n) → List (LifecycleEvent n)
  | _, [] => []
  | s, l :: ls => s.posts g l ++ (s.next g l).elim [] fun t => postsAlong t ls

end ObservedSys

/-! ## What is noted -/

section Noted

variable {g : MonitoredGraph n} {w u v : World n}

/-- The transitions among the entries of a history, oldest first. -/
def transitions (log : List (ℕ × Record n)) : List (Fin n × Transition n) :=
  (log.filterMap fun r =>
    match r.2 with
    | .note j t => some (j, t)
    | .spawned _ | .dropped _ | .boundStop _ | .boundPark _ | .claimsReleased _ => none).reverse

theorem notedBetween_of_append {new : List (ℕ × Record n)} (h : u.log = new ++ w.log) :
    notedBetween w u = transitions new := by
  have hnew : u.log.take (u.log.length - w.log.length) = new := by
    rw [h, List.length_append, Nat.add_sub_cancel, List.take_left]
  rw [notedBetween, hnew]
  rfl

theorem notedBetween_self (w : World n) : notedBetween w w = [] :=
  notedBetween_of_append (List.nil_append _).symm

theorem notedBetween_trans (h : w.log <:+ u.log) (h' : u.log <:+ v.log) :
    notedBetween w v = notedBetween w u ++ notedBetween u v := by
  obtain ⟨new, hnew⟩ := h
  obtain ⟨new', hnew'⟩ := h'
  have hboth : v.log = (new' ++ new) ++ w.log := by rw [← hnew', ← hnew, List.append_assoc]
  rw [notedBetween_of_append hnew.symm, notedBetween_of_append hnew'.symm,
    notedBetween_of_append hboth, transitions, List.filterMap_append, List.reverse_append]
  rfl

theorem PoolSys.log_suffix {g : PoolGraph n} {s t : PoolSys n} {l : PoolSys.Label n}
    (h : s.next g l = some t) : s.world.log <:+ t.world.log := by
  cases PoolSys.next_cases h with
  | sys _ hsys => exact Sys.log_suffix hsys
  | control _ hsys => exact Sys.log_suffix hsys
  | drive _ hdrive =>
      cases PoolSys.drive_cases hdrive with
      | @evaluate k now due p =>
          have hbegun := begin_cases g.toGraph s.world
            (.scale k ((p.stats s.world).decide p.cooldown (s.pending k) now).1)
          exact hbegun.log_suffix
      | carries _ hstep => exact (Call.step_cases hstep).log_suffix
      | parks | never | wakes | returns | ends => exact List.suffix_refl _

theorem MonitoredGraph.log_sweepVisit (j : Fin n) (w : World n) (l : Liveness n) :
    (g.sweepVisit j w l).1.log = w.log := by
  rw [sweepVisit]
  cases g.nodes j with
  | none => rfl
  | some cfg =>
      cases (g.live j).beatTimeout with
      | none => rfl
      | some budget =>
          simp only
          split
          · rfl
          · split
            · rfl
            · rfl

theorem MonitoredGraph.log_sweep (w : World n) (l : Liveness n) :
    (g.sweep w l).1.log = w.log := by
  rw [sweep]
  induction List.finRange n generalizing w l with
  | nil => rfl
  | cons j js ih => exact (ih _ _).trans (log_sweepVisit j w l)

theorem MonitoredGraph.log_monitor {l : Liveness n} {p : World n × Liveness n}
    (h : g.monitor w l = some p) : p.1.log = w.log := by
  rw [monitor] at h
  split at h
  · split at h
    · cases h
      rfl
    · cases h
      rfl
  · cases h
  · split at h
    · cases h
      exact log_sweep w l
    · cases h

/-- Nothing noted is ever taken back. -/
theorem MonitorSys.log_suffix {s t : MonitorSys n} {l : MonitorSys.Label n}
    (h : s.next g l = some t) : s.pool.world.log <:+ t.pool.world.log := by
  cases l with
  | pool l =>
      obtain ⟨p, hp, rfl⟩ := Option.map_eq_some_iff.mp h
      exact PoolSys.log_suffix hp
  | monitor =>
      obtain ⟨-, hmap⟩ := Option.ite_none_right_eq_some.mp h
      obtain ⟨p, hp, rfl⟩ := Option.map_eq_some_iff.mp hmap
      have hlog : p.1.log = s.pool.world.log := MonitoredGraph.log_monitor hp
      show s.pool.world.log <:+ p.1.log
      rw [hlog]
  | takeHealth =>
      obtain ⟨-, htake⟩ := Option.ite_none_right_eq_some.mp h
      split at htake
      · cases htake
      · cases htake
        exact List.suffix_refl _
  | beat | write | staleNodes | allFresh =>
      obtain ⟨-, heq⟩ := Option.ite_none_right_eq_some.mp h
      cases heq
      exact List.suffix_refl _

end Noted

/-! ## What the observers hold -/

namespace Observers

theorem events_note (o : Observers n) (e : Fin n × Transition n) :
    (o.note e).events = o.events.postAll (eventOf e).toList := by
  rw [note, eventOf]
  cases e.2.kind with
  | none => rfl
  | some kind => rfl

theorem events_foldl (o : Observers n) (es : List (Fin n × Transition n)) :
    (es.foldl note o).events = o.events.postAll (es.filterMap eventOf) := by
  induction es generalizing o with
  | nil => rfl
  | cons e es ih =>
      rw [List.foldl_cons, ih, events_note, List.filterMap_cons]
      cases eventOf e with
      | none => rfl
      | some event => rfl

theorem lastCrumb_foldl (o : Observers n) (es : List (Fin n × Transition n)) :
    (es.foldl note o).lastCrumb =
      es.getLast?.elim o.lastCrumb fun e => crumbWord e.2.phase (BitVec.ofNat 16 e.1) := by
  induction es using List.reverseRecOn with
  | nil => rfl
  | append_singleton es e _ =>
      rw [List.foldl_append, List.getLast?_concat]
      rfl

theorem crumb_foldl (o : Observers n) (es : List (Fin n × Transition n)) (j : Fin n) :
    (es.foldl note o).crumb j =
      (es.filter fun e => e.1 = j).getLast?.elim (o.crumb j) fun e => e.2.phase := by
  induction es using List.reverseRecOn with
  | nil => rfl
  | append_singleton es e ih =>
      rw [List.foldl_append, List.filter_append]
      show Function.update (es.foldl note o).crumb e.1 e.2.phase j = _
      by_cases hj : e.1 = j
      · subst hj
        simp
      · rw [Function.update_of_ne (Ne.symm hj), ih]
        simp [hj]

theorem crumb_storm (o : Observers n) (j : Option (Fin n)) :
    (o.storm j).crumb = o.crumb ∧ (o.storm j).lastCrumb = o.lastCrumb := by
  cases j with
  | none => exact ⟨rfl, rfl⟩
  | some j => exact ⟨rfl, rfl⟩

end Observers

namespace ObservedSys

variable {g : MonitoredGraph n} {s t : ObservedSys n}

/-- What the observers of one state hold, given those of an earlier one, what has been noted and
what has been posted since. -/
structure Observed (s : ObservedSys n) (posted : List (LifecycleEvent n)) (t : ObservedSys n) :
    Prop where
  log : s.sys.pool.world.log <:+ t.sys.pool.world.log
  events : s.obs.events.Extends posted t.obs.events
  lastCrumb : t.obs.lastCrumb =
    (notedBetween s.sys.pool.world t.sys.pool.world).getLast?.elim s.obs.lastCrumb
      fun e => crumbWord e.2.phase (BitVec.ofNat 16 e.1)
  crumb : ∀ j, t.obs.crumb j =
    ((notedBetween s.sys.pool.world t.sys.pool.world).filter fun e => e.1 = j).getLast?.elim
      (s.obs.crumb j) fun e => e.2.phase

theorem Observed.refl (s : ObservedSys n) : s.Observed [] s := by
  have hself := notedBetween_self s.sys.pool.world
  refine ⟨List.suffix_refl _, .refl _, ?_, fun j => ?_⟩
  · rw [hself]
    rfl
  · rw [hself]
    rfl

theorem Observed.trans {u : ObservedSys n} {posted posted' : List (LifecycleEvent n)}
    (h : s.Observed posted t) (h' : t.Observed posted' u) : s.Observed (posted ++ posted') u := by
  have hnoted := notedBetween_trans h.log h'.log
  refine ⟨h.log.trans h'.log, h.events.trans h'.events, ?_, fun j => ?_⟩
  · rw [hnoted, h'.lastCrumb, h.lastCrumb, List.getLast?_append]
    cases (notedBetween t.sys.pool.world u.sys.pool.world).getLast? with
    | none => rfl
    | some e => rfl
  · rw [hnoted, h'.crumb j, h.crumb j, List.filter_append, List.getLast?_append]
    cases ((notedBetween t.sys.pool.world u.sys.pool.world).filter fun e => e.1 = j).getLast? with
    | none => rfl
    | some e => rfl

/-- **One step.** -/
theorem observed_step {l : Label n} (h : s.next g l = some t) : s.Observed (s.posts g l) t := by
  cases l with
  | sys l =>
      obtain ⟨m, hm, rfl⟩ := Option.map_eq_some_iff.mp h
      let noted := notedBetween s.sys.pool.world m.pool.world
      let o := noted.foldl Observers.note s.obs
      have hfold : s.obs.events.Extends (noted.filterMap eventOf) o.events := by
        rw [Observers.events_foldl]
        exact LossyQueue.extends_postAll _ _
      have hstorm : o.events.Extends
          ((stormed g s.sys l).toList.map fun j => { node := j, kind := .faulted .restartStorm })
          (o.storm (stormed g s.sys l)).events := by
        cases stormed g s.sys l with
        | none => exact .refl _
        | some j => exact LossyQueue.extends_post _ _
      obtain ⟨hcrumb, hlast⟩ := o.crumb_storm (stormed g s.sys l)
      refine ⟨MonitorSys.log_suffix hm, ?_, ?_, fun j => ?_⟩
      · rw [posts, hm]
        exact hfold.trans hstorm
      · exact hlast.trans (Observers.lastCrumb_foldl _ _)
      · exact (congrFun hcrumb j).trans (Observers.crumb_foldl _ _ j)
  | takeLifecycle =>
      obtain ⟨p, hp, rfl⟩ := Option.map_eq_some_iff.mp h
      have hself := notedBetween_self s.sys.pool.world
      refine ⟨List.suffix_refl _, LossyQueue.extends_take hp, ?_, fun j => ?_⟩
      · rw [hself]
        rfl
      · rw [hself]
        rfl

/-- **A run is its steps one after the other.** -/
theorem observed_exec {ls : List (Label n)} (hrun : exec (next g) s ls = some t) :
    s.Observed (s.postsAlong g ls) t := by
  induction ls generalizing s with
  | nil =>
      cases hrun
      exact .refl _
  | cons l ls ih =>
      obtain ⟨u, hfirst, hrest⟩ := exec_cons.mp hrun
      rw [postsAlong, hfirst]
      exact (observed_step hfirst).trans (ih hrest)

/-- No restart is refused. -/
def Permits (g : MonitoredGraph n) (s : ObservedSys n) : Label n → Prop
  | .sys l => stormed g s.sys l = none
  | .takeLifecycle => True

/-- The events of a run are its transitions, but for the refused restarts. -/
theorem postsAlong_of_permits {ls : List (Label n)} (hrun : exec (next g) s ls = some t)
    (hpermits : Along (next g) (Permits g) s ls) :
    s.postsAlong g ls =
      (notedBetween s.sys.pool.world t.sys.pool.world).filterMap eventOf := by
  induction ls generalizing s with
  | nil =>
      cases hrun
      rw [notedBetween_self]
      rfl
  | cons l ls ih =>
      obtain ⟨u, hfirst, hrest⟩ := exec_cons.mp hrun
      have hback := ih hrest (hpermits.2 u hfirst)
      have hlog := (observed_step hfirst).log
      rw [postsAlong, hfirst, notedBetween_trans hlog (observed_exec hrest).log,
        List.filterMap_append, ← hback]
      show s.posts g l ++ u.postsAlong g ls = _
      congr 1
      cases l with
      | sys l =>
          obtain ⟨m, hm, rfl⟩ := Option.map_eq_some_iff.mp hfirst
          have hnone : stormed g s.sys l = none := hpermits.1
          rw [posts, hm, hnone]
          exact List.append_nil _
      | takeLifecycle =>
          obtain ⟨p, hp, rfl⟩ := Option.map_eq_some_iff.mp hfirst
          rw [notedBetween_self]
          rfl

/-- **What the observers hold after a run.** The consumer gets the events posted along the run in
order, less those dropped, and all of them if the counter of drops has not moved; these are the
transitions noted in the run where no restart is refused. The breadcrumb decodes to the last of
them, and the crumb of a node is the phase of its own last. -/
theorem observed_run (hn : n ≤ 256) {ls : List (Label n)} (hrun : exec (next g) s ls = some t) :
    (∃ kept, t.obs.events.received = s.obs.events.received ++ kept ∧
      kept.Sublist (s.postsAlong g ls) ∧
      (t.obs.events.dropped = s.obs.events.dropped → (s.postsAlong g ls).length < 2 ^ 32 →
        kept = s.postsAlong g ls)) ∧
    (Along (next g) (Permits g) s ls → s.postsAlong g ls =
      (notedBetween s.sys.pool.world t.sys.pool.world).filterMap eventOf) ∧
    (∀ e, (notedBetween s.sys.pool.world t.sys.pool.world).getLast? = some e →
      ∃ slot, decodeCrumb t.obs.lastCrumb = some (e.2.phase, slot) ∧ slot.toNat = e.1.val) ∧
    ∀ j e, ((notedBetween s.sys.pool.world t.sys.pool.world).filter fun e => e.1 = j).getLast? =
      some e → t.obs.crumb j = e.2.phase := by
  have h := observed_exec hrun
  refine ⟨?_, postsAlong_of_permits hrun, fun e he => ?_, fun j e he => ?_⟩
  · obtain ⟨kept, hkept, hsub, -⟩ := h.events.received
    refine ⟨kept, hkept, hsub, fun hsame hshort => ?_⟩
    have hall := h.events.received_eq hsame hshort
    exact List.append_cancel_left (hkept.symm.trans hall)
  · have hword := h.lastCrumb
    rw [he] at hword
    refine ⟨BitVec.ofNat 16 e.1, decodeCrumb_eq_some.mpr hword, ?_⟩
    have hlt := e.1.isLt
    rw [BitVec.toNat_ofNat, Nat.mod_eq_of_lt (by omega)]
  · have hcrumb := h.crumb j
    rw [he] at hcrumb
    exact hcrumb

def lonelyLive : ObservedSys 1 where
  sys := { MonitorSys.lonelyUp with
    pool := MonitorSys.lonelyUp.pool.withWorld
      { MonitorSys.lonelyUp.pool.world with inst := fun _ => .up } }

/-- The node is told to stop and exits, and the consumer takes an event. -/
def lonelyStopped : List (Label 1) :=
  [.sys (.pool (.sys (.begin (.stopNode 0)))), .sys (.pool (.sys (.task (.markExited 0)))),
    .sys (.pool (.sys (.advance 0))), .takeLifecycle]

def lonelyStoppedRun : Option (ObservedSys 1) :=
  exec (next MonitorSys.lonely) lonelyLive lonelyStopped

theorem observed_run_lonely :
    ∃ t, lonelyStoppedRun = some t ∧
      (∃ kept, t.obs.events.received = [] ++ kept ∧
        kept.Sublist (postsAlong MonitorSys.lonely lonelyLive lonelyStopped) ∧
        (t.obs.events.dropped = 0 →
          (postsAlong MonitorSys.lonely lonelyLive lonelyStopped).length < 2 ^ 32 →
            kept = postsAlong MonitorSys.lonely lonelyLive lonelyStopped)) := by
  have hrun : lonelyStoppedRun = some (lonelyStoppedRun.get (by decide)) :=
    (Option.some_get _).symm
  exact ⟨_, hrun, (observed_run (by decide) hrun).1⟩

example : lonelyStoppedRun.map (fun t => (t.obs.events.received, decodeCrumb t.obs.lastCrumb)) =
    some ([⟨0, .stopRequested⟩, ⟨0, .exited⟩], some (.stopped, 0)) := by
  decide

end ObservedSys

end EmbassySupervisor
