/-
# The whole system with every shape bit set

Beside the calls among the tasks run the pool driver and the monitor. On a graph without pools
the driver parks for ever; with the bit set it parks until a request, finds no pool and parks
again. On a graph without policed nodes, or without observed writes, the monitor looks for none.

`follow_full` and `follow_graph` let each of the two systems follow the other step by step.
-/

import EmbassySupervisor.Verb.ShapeSys
import EmbassySupervisor.Monitor.Monitor

namespace EmbassySupervisor

open LabelledRun

variable {n : ℕ}

/-! ## Graphs -/

def PoolGraph.full (g : PoolGraph n) : PoolGraph n := { g with toGraph := g.toGraph.full }

def MonitoredGraph.full (g : MonitoredGraph n) : MonitoredGraph n :=
  { g with
    toPoolGraph := g.toPoolGraph.full
    hasBeats := true
    hasObserved := true
    beats_sound := fun h => by cases h
    observed_sound := fun h => by cases h }

theorem PoolGraph.elastic_of_unset {g : PoolGraph n} (hbit : g.has .pools = false) :
    g.elastic = [] := by
  have hnone := g.elastic_nodes.symm.trans (g.pools_sound hbit)
  exact List.map_eq_nil_iff.mp hnone

theorem PoolGraph.full_elastic_of_unset {g : PoolGraph n} (hbit : g.has .pools = false) :
    g.full.elastic = [] := g.elastic_of_unset hbit

namespace Graph.SameWorld

variable {g : Graph n} {w w' : World n}

theorem eq (h : g.SameWorld w w') (hbit : g.has .pools = true) : w' = w := by
  rcases h with rfl | ⟨hunset, -⟩
  · rfl
  · rw [hbit] at hunset
    cases hunset

theorem withReq (h : g.SameWorld w w') (hbit : g.has .pools = false) (req : Bool) :
    g.SameWorld w (w'.withReq req) := by
  rcases h with rfl | ⟨-, req', rfl⟩
  · exact .inr ⟨hbit, req, rfl⟩
  · exact .inr ⟨hbit, req, rfl⟩

end Graph.SameWorld

/-! ## The pool driver -/

/-- A driver without pools: it has nothing to scale and no deadline to wait for. -/
def Driver.plain : Driver n → Prop
  | .pass _ _ due => due = none
  | .scaling _ _ _ _ | .park _ => False
  | .never | .control _ _ | .ended _ => True

/-- The same driver, or one that finds no pools over and over for one that parks for ever. -/
inductive Driver.Like (g : Graph n) : Driver n → Driver n → Prop
  | same (d : Driver n) (hplain : g.has .pools = false → d.plain) : Like g d d
  | parked (hbit : g.has .pools = false) : Like g .never (.park none)
  | passing (hbit : g.has .pools = false) (k now : ℕ) : Like g .never (.pass k now none)

theorem Driver.Like.eq_or {g : Graph n} {d d' : Driver n} (h : Like g d d') :
    d' = d ∨ (g.has .pools = false ∧ d = .never ∧
      (d' = .park none ∨ ∃ k now, d' = .pass k now none)) := by
  cases h with
  | same => exact .inl rfl
  | parked hbit => exact .inr ⟨hbit, rfl, .inl rfl⟩
  | passing hbit k now => exact .inr ⟨hbit, rfl, .inr ⟨k, now, rfl⟩⟩

namespace PoolSys

structure Like (g : PoolGraph n) (s t : PoolSys n) : Prop where
  sys : s.sys.Like g.toGraph t.sys
  pending : t.pending = s.pending
  driver : Driver.Like g.toGraph s.driver t.driver
  busy : t.driver.suspended = false → s.sys.Level g.toGraph t.sys
  idle : t.driver.suspended = false → s.driver.suspended = true → t.sys.resting = true

/-- Neither an idle wave nor an idle pass stands in the way. -/
structure Level (g : PoolGraph n) (s t : PoolSys n) : Prop where
  sys : s.sys.Level g.toGraph t.sys
  pending : t.pending = s.pending
  driver : Driver.Like g.toGraph s.driver t.driver
  suspended : t.driver.suspended = s.driver.suspended

variable {g : PoolGraph n} {s t t' : PoolSys n}

theorem Like.of_same (hsys : s.sys.Level g.toGraph t.sys) (hpending : t.pending = s.pending)
    (hsame : t.driver = s.driver) (hplain : g.has .pools = false → s.driver.plain) :
    s.Like g t where
  sys := .inl hsys
  pending := hpending
  driver := by
    rw [hsame]
    exact .same _ hplain
  busy _ := hsys
  idle hbusy hidle := by
    rw [hsame, hidle] at hbusy
    cases hbusy

theorem Level.interruptible (h : s.Level g t) : t.driver.interruptible = s.driver.interruptible := by
  have hdriver := h.driver
  have hsuspended := h.suspended
  revert hdriver hsuspended
  generalize s.driver = d, t.driver = d'
  intro hdriver hsuspended
  cases hdriver with
  | same => rfl
  | parked => rfl
  | passing => cases hsuspended

theorem set_of_unset {p : Prop} (hbit : g.has .pools = true) (hunset : g.has .pools = false) : p := by
  rw [hbit] at hunset
  cases hunset

theorem Level.drivePool (h : s.Level g t) (hbit : g.has .pools = true) (p : ElasticPool n)
    (k now : ℕ) (due : Option ℕ) :
    Like g (s.drivePool g p k now due) (t.drivePool g.full p k now due) := by
  have heq : t.world = s.world := Graph.SameWorld.eq h.sys.world hbit
  rw [PoolSys.drivePool, PoolSys.drivePool, heq, h.pending]
  obtain ⟨action, pending⟩ := (p.stats s.world).decide p.cooldown (s.pending k) now
  have hbegin : g.full.toGraph.begin s.world (.scale k action) =
      g.toGraph.begin s.world (.scale k action) := Graph.begin_full fun hv => by cases hv
  have hlevel : ({ s.sys with world := (g.toGraph.begin s.world (.scale k action)).2 } : Sys n).Level
      g.toGraph { t.sys with world := (g.toGraph.begin s.world (.scale k action)).2 } :=
    ⟨.refl _, fun hunset => Graph.begin_unmarked hunset _ (h.sys.unmarked hunset), h.sys.calls⟩
  simp only [hbegin]
  exact .of_same hlevel rfl rfl fun hunset => set_of_unset hbit hunset

/-- A poll of the same driver. -/
theorem Level.drive (h : s.Level g t) (hsame : t.driver = s.driver) :
    Option.Rel (Like g) (s.drive g) (t.drive g.full) := by
  have hworld : g.SameWorld s.world t.world := h.sys.world
  have hplain : g.has .pools = false → s.driver.plain := by
    have hdriver := h.driver
    rw [hsame] at hdriver
    revert hdriver
    generalize s.driver = d
    intro hdriver
    cases hdriver with
    | same _ hplain => exact hplain
  rw [PoolSys.drive, PoolSys.drive, hsame]
  cases hd : s.driver with
  | pass k now due =>
      rw [hd] at hplain
      have hfull : g.full.has .pools = true := rfl
      by_cases hbit : g.has .pools = true
      · have helastic : g.full.elastic = g.elastic := rfl
        simp only [if_pos hbit, if_pos hfull, helastic]
        cases g.elastic[k]? with
        | none =>
            exact .some (.of_same h.sys h.pending rfl fun hunset => set_of_unset hbit hunset)
        | some p => exact .some (h.drivePool hbit p k now due)
      · have hunset : g.has .pools = false := (Bool.not_eq_true _).mp hbit
        obtain rfl : due = none := hplain hunset
        have hover : g.full.elastic[k]? = none := by
          show g.elastic[k]? = none
          rw [g.elastic_of_unset hunset]
          rfl
        simp only [if_neg hbit, if_pos hfull, hover]
        exact .some ⟨.inl h.sys, h.pending, .parked hunset, fun _ => h.sys, fun hbusy => by cases hbusy⟩
  | scaling k now due c =>
      rw [hd] at hplain
      have hbit : g.has .pools = true := by
        by_contra hbit
        exact hplain ((Bool.not_eq_true _).mp hbit)
      have hrel := hworld.step c
      simp only
      cases hs : c.step g.toGraph s.world with
      | none =>
          rw [hs] at hrel
          have hnone : c.step g.full.toGraph t.world = none := rel_none hrel
          rw [hnone]
          exact .none
      | some p =>
          rw [hs] at hrel
          obtain ⟨q, hq, hcall, hnext⟩ := rel_some hrel
          have hsome : c.step g.full.toGraph t.world = some q := hq
          rw [hsome]
          have hlevel : ({ s.sys with world := p.2 } : Sys n).Level g.toGraph
              { t.sys with world := q.2 } :=
            ⟨hnext, fun hunset => Call.unmarked hunset hs (h.sys.unmarked hunset), h.sys.calls⟩
          refine .some (.of_same hlevel h.pending ?_ fun hunset => set_of_unset hbit hunset)
          show Driver.after k now due q.1 = Driver.after k now due p.1
          rw [hcall]
  | park due =>
      rw [hd] at hplain
      have hbit : g.has .pools = true := by
        by_contra hbit
        exact hplain ((Bool.not_eq_true _).mp hbit)
      have heq : t.world = s.world := hworld.eq hbit
      simp only [heq]
      split
      · have hlevel : ({ s.sys with world := { s.world with scaleReq := false } } : Sys n).Level
            g.toGraph { t.sys with world := { s.world with scaleReq := false } } :=
          ⟨.refl _, fun hunset => h.sys.unmarked hunset, h.sys.calls⟩
        exact .some (.of_same hlevel h.pending rfl fun hunset => set_of_unset hbit hunset)
      · exact .none
  | control cmd i =>
      have hnow : t.world.now = s.world.now := hworld.now
      simp only [h.sys.calls, hnow]
      split
      · split
        · exact .some (.of_same h.sys h.pending rfl fun _ => rfl)
        · exact .some (.of_same h.sys h.pending rfl fun _ => trivial)
      · exact .none
  | never | ended => exact .none

/-- **From the same state, the same steps lead to states that are alike**, a poll of a driver that
parks without a deadline apart. -/
theorem Level.rel (h : s.Level g t) {l : Label n} (hl : l = .drive → t.driver = s.driver) :
    Option.Rel (Like g) (s.next g l) (t.next g.full l) := by
  cases l with
  | sys l =>
      have hrel := h.sys.rel l
      simp only [PoolSys.next, h.suspended]
      by_cases hsuspended : s.driver.suspended = true
      · rw [if_pos hsuspended, if_pos hsuspended]
        cases hs : s.sys.next g.toGraph l with
        | none =>
            rw [hs] at hrel
            have hnone : t.sys.next g.full.toGraph l = none := rel_none hrel
            rw [hnone]
            exact .none
        | some u =>
            rw [hs] at hrel
            obtain ⟨v, hv, hlike⟩ := rel_some hrel
            have hsome : t.sys.next g.full.toGraph l = some v := hv
            rw [hsome]
            have hawake {p : Prop} (hbusy : t.driver.suspended = false) : p :=
              absurd (hbusy.symm.trans (h.suspended.trans hsuspended)) Bool.false_ne_true
            exact .some ⟨hlike, h.pending, h.driver, hawake, hawake⟩
      · rw [if_neg hsuspended, if_neg hsuspended]
        exact .none
  | drive =>
      have hresting : t.sys.resting = s.sys.resting := by
        rw [Sys.resting, Sys.resting, h.sys.calls]
      simp only [PoolSys.next, hresting]
      split
      · exact h.drive (hl rfl)
      · exact .none
  | control cmd =>
      have hrel := h.sys.rel (.begin cmd.verb)
      simp only [PoolSys.next, h.interruptible]
      split
      · cases hs : s.sys.next g.toGraph (.begin cmd.verb) with
        | none =>
            rw [hs] at hrel
            have hnone : t.sys.next g.full.toGraph (.begin cmd.verb) = none := rel_none hrel
            rw [hnone]
            exact .none
        | some u =>
            rw [hs] at hrel
            obtain ⟨v, hv, hlike⟩ := rel_some hrel
            have hsome : t.sys.next g.full.toGraph (.begin cmd.verb) = some v := hv
            rw [hsome]
            have hdriver : Driver.Like g.toGraph (.control cmd s.sys.calls.length)
                (.control cmd t.sys.calls.length) := by
              rw [h.sys.calls]
              exact .same _ fun _ => trivial
            have hawake {p : Prop} {i : ℕ} (hbusy : (Driver.control cmd i).suspended = false) : p :=
              absurd hbusy.symm Bool.false_ne_true
            exact .some ⟨hlike, h.pending, hdriver, hawake, hawake⟩
      · exact .none

/-- An idle pass finds no pool. -/
theorem drive_passing (hbit : g.has .pools = false) {k now : ℕ}
    (hd : t.driver = .pass k now none) : t.drive g.full = some { t with driver := .park none } := by
  have hfull : g.full.has .pools = true := rfl
  have hover : g.full.elastic[k]? = none := by
    show g.elastic[k]? = none
    rw [g.elastic_of_unset hbit]
    rfl
  rw [PoolSys.drive, hd]
  simp only [if_pos hfull, hover]

/-- A request that no pool waits for. -/
theorem drive_parked (hd : t.driver = .park none) (hstep : t.drive g.full = some t') :
    t' = { t with
      sys := { t.sys with world := t.world.withReq false }
      driver := .pass 0 t.world.now none } := by
  rw [PoolSys.drive, hd] at hstep
  obtain ⟨-, heq⟩ := Option.ite_none_right_eq_some.mp hstep
  exact (Option.some.inj heq).symm

/-- A step of an idle call, or a poll of a driver that has no pools, which takes a request at
most. -/
inductive Idles (g : PoolGraph n) (s : PoolSys n) : Label n → PoolSys n → Prop
  | sys {l : EmbassySupervisor.Label n} {u : Sys n} (hidle : s.sys.Idles g.toGraph l u) :
      Idles g s (.sys l) { s with sys := u }
  | drive (hpools : g.elastic = []) (driver : Driver n) (req : Bool) :
      Idles g s .drive { s with sys := { s.sys with world := s.world.withReq req }, driver }

/-- A step that is only taken with every bit set: it belongs to an idle wave or an idle pass. -/
theorem Like.stutter_or_level (h : s.Like g t) {l : Label n} (hstep : t.next g.full l = some t') :
    (t.Idles g.full l t' ∧ s.Like g t') ∨
      (s.Level g t ∧ (l = .drive → t.driver = s.driver)) := by
  have hstepped := next_cases hstep
  rcases h.sys with hlevel | ⟨i, k, hlag⟩
  · rcases h.driver.eq_or with hsame | ⟨hbit, hnever, hparked | ⟨k, now, hpassing⟩⟩
    · exact .inr ⟨⟨hlevel, h.pending, h.driver, congrArg Driver.suspended hsame⟩, fun _ => hsame⟩
    · by_cases hl : l = .drive
      · subst hl
        have hresting : t.sys.resting = true := by
          cases hstepped with
          | drive hresting => exact hresting
        have ht' := drive_parked hparked (drive_of_next hstep)
        have hnext : s.sys.Level g.toGraph { t.sys with world := t.world.withReq false } :=
          ⟨hlevel.world.withReq hbit false, hlevel.unmarked, hlevel.calls⟩
        rw [ht']
        refine .inl ⟨.drive (g.full_elastic_of_unset hbit) _ false, .inl hnext, h.pending, ?_,
          fun _ => hnext, fun _ _ => hresting⟩
        rw [hnever]
        exact .passing hbit 0 _
      · have hsuspended : t.driver.suspended = s.driver.suspended := by
          rw [hparked, hnever]
          rfl
        exact .inr ⟨⟨hlevel, h.pending, h.driver, hsuspended⟩, fun hdrive => absurd hdrive hl⟩
    · cases hstepped with
      | sys hsuspended =>
          rw [hpassing] at hsuspended
          cases hsuspended
      | control hinterruptible =>
          rw [hpassing] at hinterruptible
          cases hinterruptible
      | drive hresting hdrive =>
          rw [drive_passing hbit hpassing] at hdrive
          cases hdrive
          refine .inl ⟨.drive (g.full_elastic_of_unset hbit) _ t.world.scaleReq, .inl hlevel,
            h.pending, ?_, fun _ => hlevel, fun _ _ => hresting⟩
          rw [hnever]
          exact .parked hbit
  · cases hstepped with
    | sys hsuspended hsys =>
        obtain ⟨-, hidle, hlike⟩ := hlag.only hsys
        have hawake {p : Prop} (hbusy : t.driver.suspended = false) : p :=
          absurd (hbusy.symm.trans hsuspended) Bool.false_ne_true
        exact .inl ⟨.sys hidle, hlike, h.pending, h.driver, hawake, hawake⟩
    | drive hresting =>
        rw [hlag.not_resting] at hresting
        cases hresting
    | control _ hsys => cases (hlag.only hsys).1

theorem Level.like (h : s.Level g t) : s.Like g t where
  sys := .inl h.sys
  pending := h.pending
  driver := h.driver
  busy _ := h.sys
  idle hbusy hidle := by
    rw [h.suspended, hidle] at hbusy
    cases hbusy

theorem Level.resting (h : s.Level g t) : t.resting = s.resting := by
  rw [PoolSys.resting, PoolSys.resting, Sys.resting, Sys.resting, h.sys.calls, h.suspended]

/-- Nothing idles while everything is at rest. -/
theorem Like.level_of_resting (h : s.Like g t) (hrest : t.resting = true) : s.Level g t := by
  obtain ⟨hresting, hsuspended⟩ := Bool.and_eq_true_iff.mp hrest
  have hboth : t.driver.suspended = s.driver.suspended := by
    rcases h.driver.eq_or with hsame | ⟨-, hnever, -⟩
    · rw [hsame]
    · rw [hsuspended, hnever]
      rfl
  rcases h.sys with hlevel | ⟨i, k, hlag⟩
  · exact ⟨hlevel, h.pending, h.driver, hboth⟩
  · rw [hlag.not_resting] at hresting
    cases hresting

/-- The idle steps can be taken. -/
theorem Like.catchUp (h : s.Like g t) :
    ∃ ks t', Padded (next g.full) (Idles g.full) t [] ks t' ∧ s.Level g t' := by
  by_cases hsuspended : t.driver.suspended = true
  · have hboth : t.driver.suspended = s.driver.suspended := by
      rcases h.driver.eq_or with hsame | ⟨-, hnever, -⟩
      · rw [hsame]
      · rw [hsuspended, hnever]
        rfl
    rcases h.sys with hlevel | ⟨i, k, hlag⟩
    · exact ⟨[], t, .nil t, hlevel, h.pending, h.driver, hboth⟩
    · obtain ⟨ks, u, hrun, hlevel⟩ := hlag.catchUp
      have hlift : ∀ v l v', v.next g.full.toGraph l = some v' → v.Idles g.full.toGraph l v' →
          next g.full { t with sys := v } (.sys l) = some { t with sys := v' } ∧
            Idles g.full { t with sys := v } (.sys l) { t with sys := v' } := by
        intro v l v' hstep hidle
        refine ⟨?_, .sys hidle⟩
        rw [next, if_pos hsuspended, hstep]
        rfl
      exact ⟨_, { t with sys := u }, hrun.lift hlift, hlevel, h.pending, h.driver, hboth⟩
  · have hbusy : t.driver.suspended = false := (Bool.not_eq_true _).mp hsuspended
    have hlevel := h.busy hbusy
    rcases h.driver.eq_or with hsame | ⟨hbit, hnever, hparked | ⟨k, now, hpassing⟩⟩
    · exact ⟨[], t, .nil t, hlevel, h.pending, h.driver, congrArg Driver.suspended hsame⟩
    · rw [hparked] at hbusy
      cases hbusy
    · have hidle : s.driver.suspended = true := by
        rw [hnever]
        rfl
      have hone : t.next g.full .drive = some { t with driver := .park none } := by
        rw [next, if_pos (h.idle hbusy hidle), drive_passing hbit hpassing]
      have hdriver : Driver.Like g.toGraph s.driver (.park none) := by
        rw [hnever]
        exact .parked hbit
      exact ⟨[.drive], _, .idle hone (.drive (g.full_elastic_of_unset hbit) _ t.world.scaleReq)
        (.nil _), hlevel, h.pending, hdriver, hidle.symm⟩

end PoolSys

/-! ## The monitor -/

section Monitor

variable {g : MonitoredGraph n} {w w' : World n}

theorem Graph.SameWorld.setReady {g : Graph n} (h : g.SameWorld w w') (j : Fin n) :
    g.SameWorld (w.setReady j) (w'.setReady j) := by
  rcases h with rfl | ⟨-, req, rfl⟩
  · exact .refl _
  · exact .refl _

theorem World.Unmarked.setReady (hw : w.Unmarked) (j : Fin n) : (w.setReady j).Unmarked := by
  intro i
  have hi := hw i
  show (w.onNode j TaskHandle.setReady).flag i .boundStopped = false
  rw [World.flag_onNode]
  split
  · rename_i heq
    subst heq
    simpa [TaskHandle.setReady, World.flag] using hi
  · exact hi

namespace MonitoredGraph

theorem inspect_full (h : g.SameWorld w w') (l : Liveness n) (j : Fin n) :
    g.full.inspect w' l j = g.inspect w l j := by
  have hwrote : (if g.hasObserved then (l.beat j).pollObservedWrites (g.live j) l.count
      else (false, l.beat j)) = (l.beat j).pollObservedWrites (g.live j) l.count := by
    by_cases hbit : g.hasObserved = true
    · rw [if_pos hbit]
    · have hnone : ((g.live j).writes.any fun c => c.beats && c.observed) = false := by
        refine List.any_eq_false.mpr fun c hc => ?_
        simp [g.observed_sound ((Bool.not_eq_true _).mp hbit) j c hc]
      rw [if_neg hbit, Beat.pollObservedWrites, hnone]
      rfl
  have hfull : g.full.hasObserved = true := rfl
  have hlive : g.full.live = g.live := rfl
  rw [inspect, inspect, hlive, hwrote, if_pos hfull, h.now]

theorem look_full (h : g.SameWorld w w') (l : Liveness n) : g.full.look w' l = g.look w l := by
  rcases h with rfl | ⟨-, req, rfl⟩
  · rfl
  · rfl

/-- Both sweeps visit a slot alike. -/
theorem sweepVisit_full (h : g.SameWorld w w') (l : Liveness n) (j : Fin n) :
    g.SameWorld (g.sweepVisit j w l).1 (g.full.sweepVisit j w' l).1 ∧
      (g.full.sweepVisit j w' l).2 = (g.sweepVisit j w l).2 := by
  have hnodes : g.full.nodes = g.nodes := rfl
  have hlive : g.full.live = g.live := rfl
  rw [sweepVisit, sweepVisit, hnodes, hlive]
  cases g.nodes j with
  | none => exact ⟨h, rfl⟩
  | some cfg =>
      cases (g.live j).beatTimeout with
      | none => exact ⟨h, rfl⟩
      | some budget =>
          simp only [h.flag, inspect_full h]
          split
          · exact ⟨h, rfl⟩
          · refine ⟨?_, rfl⟩
            split
            · exact h.setReady j
            · exact h

theorem sweepVisit_unmarked (hw : w.Unmarked) (l : Liveness n) (j : Fin n) :
    (g.sweepVisit j w l).1.Unmarked := by
  rw [sweepVisit]
  cases g.nodes j with
  | none => exact hw
  | some cfg =>
      cases (g.live j).beatTimeout with
      | none => exact hw
      | some budget =>
          simp only
          split
          · exact hw
          · split
            · exact hw.setReady j
            · exact hw

theorem sweep_full (h : g.SameWorld w w') (l : Liveness n) :
    g.SameWorld (g.sweep w l).1 (g.full.sweep w' l).1 ∧
      (g.full.sweep w' l).2 = (g.sweep w l).2 := by
  rw [sweep, sweep]
  induction List.finRange n generalizing w w' l with
  | nil => exact ⟨h, rfl⟩
  | cons j js ih =>
      obtain ⟨hworld, hlive⟩ := sweepVisit_full h l j
      have hpair : g.full.sweepVisit j w' l =
          ((g.full.sweepVisit j w' l).1, (g.sweepVisit j w l).2) := Prod.ext rfl hlive
      simp only [List.foldl_cons]
      rw [hpair]
      exact ih hworld (g.sweepVisit j w l).2

theorem sweep_unmarked (hw : w.Unmarked) (l : Liveness n) : (g.sweep w l).1.Unmarked := by
  rw [sweep]
  induction List.finRange n generalizing w l with
  | nil => exact hw
  | cons j js ih => exact ih (sweepVisit_unmarked hw l j) _

/-- Both monitors do the same when they are polled. -/
theorem monitor_full (h : g.SameWorld w w') (l : Liveness n) :
    Option.Rel (fun p q => g.SameWorld p.1 q.1 ∧ q.2 = p.2) (g.monitor w l)
      (g.full.monitor w' l) := by
  rw [monitor, monitor]
  cases l.pc with
  | start =>
      have hpoliced : (g.full.hasBeats && (List.finRange n).any fun j =>
          g.full.occupied j && (g.full.live j).beatTimeout.isSome) =
            (g.hasBeats && (List.finRange n).any fun j =>
              g.occupied j && (g.live j).beatTimeout.isSome) := by
        by_cases hbit : g.hasBeats = true
        · rw [hbit]
          rfl
        · have hnone : ((List.finRange n).any fun j =>
              g.full.occupied j && (g.full.live j).beatTimeout.isSome) = false := by
            refine List.any_eq_false.mpr fun j _ => ?_
            have htimeout : (g.full.live j).beatTimeout = none :=
              g.beats_sound ((Bool.not_eq_true _).mp hbit) j
            simp [htimeout]
          rw [hnone, Bool.and_false, (Bool.not_eq_true _).mp hbit, Bool.false_and]
      simp only [hpoliced]
      split
      · exact .some ⟨h, look_full h l⟩
      · exact .some ⟨h, rfl⟩
  | idle => exact .none
  | sleep due =>
      simp only [h.now]
      split
      · obtain ⟨hworld, hlive⟩ := sweep_full h l
        refine .some ⟨hworld, ?_⟩
        show g.full.look (g.full.sweep w' l).1 (g.full.sweep w' l).2 =
          g.look (g.sweep w l).1 (g.sweep w l).2
        rw [hlive]
        exact look_full hworld _
      · exact .none

theorem monitor_unmarked {l : Liveness n} {p : World n × Liveness n} (hw : w.Unmarked)
    (h : g.monitor w l = some p) : p.1.Unmarked := by
  rw [monitor] at h
  cases hpc : l.pc with
  | start =>
      rw [hpc] at h
      simp only at h
      split at h
      · cases h
        exact hw
      · cases h
        exact hw
  | idle =>
      rw [hpc] at h
      cases h
  | sleep due =>
      rw [hpc] at h
      simp only at h
      split at h
      · cases h
        exact sweep_unmarked hw l
      · cases h

theorem isStale_full (h : g.SameWorld w w') (j : Fin n) (l : Liveness n) :
    g.full.isStale w' j l = g.isStale w j l := by
  rcases h with rfl | ⟨-, req, rfl⟩
  · rfl
  · rfl

theorem staleAmong_full (h : g.SameWorld w w') (js : List (Fin n)) (l : Liveness n) :
    g.full.staleAmong w' js l = g.staleAmong w js l := by
  induction js generalizing l with
  | nil => rfl
  | cons j js ih => simp only [staleAmong, isStale_full h, ih]

theorem freshAmong_full (h : g.SameWorld w w') (js : List (Fin n)) (l : Liveness n) :
    g.full.freshAmong w' js l = g.freshAmong w js l := by
  induction js generalizing l with
  | nil => rfl
  | cons j js ih => simp only [freshAmong, isStale_full h, ih]

end MonitoredGraph

namespace MonitorSys

structure Like (g : MonitoredGraph n) (s t : MonitorSys n) : Prop where
  pool : s.pool.Like g.toPoolGraph t.pool
  live : t.live = s.live

variable {s t s' t' : MonitorSys n}

/-- Nothing is stamped where nothing is noted. -/
theorem stampStarts_of_log (hlog : w'.log = w.log) (l : Liveness n) :
    stampStarts g w w' l = l := by
  rw [stampStarts, startedBetween, hlog, Nat.sub_self]
  rfl

theorem stampStarts_full {u u' : World n} (h : g.SameWorld w w') (h' : g.SameWorld u u')
    (l : Liveness n) : stampStarts g.full w' u' l = stampStarts g w u l := by
  have hlive : g.full.live = g.live := rfl
  simp only [stampStarts, startedBetween, h.log, h'.log, h'.now, hlive]

/-- An idle step of the pool driver or of a call. -/
inductive Idles (g : MonitoredGraph n) (s : MonitorSys n) : Label n → MonitorSys n → Prop
  | pool {l : PoolSys.Label n} {p : PoolSys n} (hidle : s.pool.Idles g.toPoolGraph l p) :
      Idles g s (.pool l) { s with pool := p }

/-- Nothing is noted in an idle step. -/
theorem log_of_idles {g : PoolGraph n} {p q : PoolSys n} {l : PoolSys.Label n}
    (h : p.Idles g l q) : q.world.log = p.world.log := by
  cases h with
  | sys hidle =>
      cases hidle
      rfl
  | drive => rfl

theorem Like.world (h : s.Like g t) : g.SameWorld s.pool.world t.pool.world := by
  rcases h.pool.sys with hlevel | ⟨i, k, hlag⟩
  · exact hlevel.world
  · exact hlag.world

/-- A verdict of the monitor, or a look at one, on both. -/
theorem like_of_level (h : s.pool.Level g.toPoolGraph t.pool)
    (hunmarked : g.has .boundDeps = false → w.Unmarked) (hworld : g.SameWorld w w')
    (l : Liveness n) :
    Like g { pool := s.pool.withWorld w, live := l } { pool := t.pool.withWorld w', live := l } := by
  have hlevel : (s.pool.withWorld w).Level g.toPoolGraph (t.pool.withWorld w') :=
    ⟨⟨hworld, hunmarked, h.sys.calls⟩, h.pending, h.driver, h.suspended⟩
  exact ⟨hlevel.like, rfl⟩

/-- **Each step on both.** -/
theorem rel_of_level (h : s.pool.Level g.toPoolGraph t.pool) (hlive : t.live = s.live)
    {l : Label n} (hl : l = .pool .drive → t.pool.driver = s.pool.driver) :
    Option.Rel (Like g) (next g s l) (next g.full t l) := by
  have hresting := h.resting
  have hworld : g.SameWorld s.pool.world t.pool.world := h.sys.world
  have hkept (l : Liveness n) : Like g { s with live := l } { t with live := l } := ⟨h.like, rfl⟩
  cases l with
  | pool l =>
      have hrel := h.rel (l := l) fun hdrive => hl (congrArg Label.pool hdrive)
      simp only [next]
      cases hs : s.pool.next g.toPoolGraph l with
      | none =>
          rw [hs] at hrel
          have hnone : t.pool.next g.full.toPoolGraph l = none := rel_none hrel
          rw [hnone]
          exact .none
      | some p =>
          rw [hs] at hrel
          obtain ⟨q, hq, hlike⟩ := rel_some hrel
          have hsome : t.pool.next g.full.toPoolGraph l = some q := hq
          rw [hsome]
          have hnext : Like g { pool := p, live := s.live } { pool := q, live := s.live } :=
            ⟨hlike, rfl⟩
          refine .some ⟨hlike, ?_⟩
          show stampStarts g.full t.pool.world q.world t.live = stampStarts g s.pool.world p.world s.live
          rw [hlive]
          exact stampStarts_full hworld hnext.world s.live
  | monitor =>
      have hrel := MonitoredGraph.monitor_full hworld s.live
      simp only [next, hresting, hlive]
      split
      · cases hs : g.monitor s.pool.world s.live with
        | none =>
            rw [hs] at hrel
            rw [rel_none hrel]
            exact .none
        | some p =>
            rw [hs] at hrel
            obtain ⟨q, hq, hsame, hkeep⟩ := rel_some hrel
            rw [hq]
            have hunmarked (hbit : g.has .boundDeps = false) : p.1.Unmarked :=
              MonitoredGraph.monitor_unmarked (h.sys.unmarked hbit) hs
            have hnext := like_of_level h hunmarked hsame p.2
            refine .some ?_
            show Like g _ { pool := t.pool.withWorld q.1, live := q.2 }
            rw [hkeep]
            exact hnext
      · exact .none
  | beat j | write signal =>
      simp only [next, hresting, hlive]
      split
      · exact .some (hkept _)
      · exact .none
  | takeHealth =>
      simp only [next, hresting, hlive]
      split
      · cases s.live.health with
        | nil => exact .none
        | cons e rest => exact .some (hkept _)
      · exact .none
  | staleNodes =>
      have hstale := MonitoredGraph.staleAmong_full hworld (List.finRange n) s.live
      simp only [next, hresting, hlive, MonitoredGraph.staleNodes, hstale]
      split
      · exact .some (hkept _)
      · exact .none
  | allFresh =>
      have hfresh := MonitoredGraph.freshAmong_full hworld (List.finRange n) s.live
      simp only [next, hresting, hlive, MonitoredGraph.allFresh, hfresh]
      split
      · exact .some (hkept _)
      · exact .none

/-- With every bit set the system can do what it does on the graph, after the idle steps. -/
theorem follow_full {l : Label n} (h : s.Like g t) (hstep : next g s l = some s') :
    ∃ ks t', Padded (next g.full) (Idles g.full) t [l] ks t' ∧ s'.Like g t' := by
  obtain ⟨ks, u, hrun, hlevel⟩ := h.pool.catchUp
  have hlift : ∀ p k q, p.next g.full.toPoolGraph k = some q → p.Idles g.full.toPoolGraph k q →
      next g.full { t with pool := p } (.pool k) = some { t with pool := q } ∧
        Idles g.full { t with pool := p } (.pool k) { t with pool := q } := by
    intro p k q hstep hidle
    refine ⟨?_, .pool hidle⟩
    rw [next, hstep, Option.map_some, stampStarts_of_log (log_of_idles hidle)]
  have hidle : Padded (next g.full) (Idles g.full) t [] (ks.map .pool) { t with pool := u } :=
    hrun.lift hlift
  have hdriver (hl : l = .pool .drive) : u.driver = s.pool.driver := by
    subst hl
    obtain ⟨p, hdrive, -⟩ := Option.map_eq_some_iff.mp hstep
    have hpoll := PoolSys.drive_of_next hdrive
    rcases hlevel.driver.eq_or with hsame | ⟨-, hnever, -⟩
    · exact hsame
    · rw [PoolSys.drive, hnever] at hpoll
      cases hpoll
  have hrel := rel_of_level (t := { t with pool := u }) hlevel h.live hdriver
  rw [hstep] at hrel
  obtain ⟨t', hnext, hlike⟩ := rel_some hrel
  exact ⟨_, t', hidle.append (.step hnext (.nil t')), hlike⟩

/-- What it does with every bit set it can do on the graph, but for the idle steps. -/
theorem follow_graph {l : Label n} (h : s.Like g t) (hstep : next g.full t l = some t') :
    ∃ ks s', Padded (next g.full) (Idles g.full) t ks [l] t' ∧ exec (next g) s ks = some s' ∧
      s'.Like g t' := by
  have hfollow (hlevel : s.pool.Level g.toPoolGraph t.pool)
      (hl : l = .pool .drive → t.pool.driver = s.pool.driver) :
      ∃ ks s', Padded (next g.full) (Idles g.full) t ks [l] t' ∧ exec (next g) s ks = some s' ∧
        s'.Like g t' := by
    have hrel := rel_of_level hlevel h.live hl
    rw [hstep] at hrel
    cases hs : next g s l with
    | none =>
        rw [hs] at hrel
        cases hrel
    | some s' =>
        rw [hs] at hrel
        obtain ⟨v, hv, hlike⟩ := rel_some hrel
        cases hv
        exact ⟨[l], s', .step hstep (.nil t'), exec_cons.mpr ⟨s', hs, rfl⟩, hlike⟩
  have hobserve (hrest : t.pool.resting = true) (hl : l ≠ .pool .drive) :
      ∃ ks s', Padded (next g.full) (Idles g.full) t ks [l] t' ∧ exec (next g) s ks = some s' ∧
        s'.Like g t' :=
    hfollow (h.pool.level_of_resting hrest) fun hdrive => absurd hdrive hl
  cases l with
  | pool l =>
      obtain ⟨p, hp, hp'⟩ := Option.map_eq_some_iff.mp hstep
      subst hp'
      rcases h.pool.stutter_or_level hp with ⟨hidle, hlike⟩ | ⟨hlevel, hdriver⟩
      · have hlive : stampStarts g.full t.pool.world p.world t.live = t.live :=
          stampStarts_of_log (log_of_idles hidle) t.live
        rw [hlive] at hstep ⊢
        exact ⟨[], s, .idle hstep (.pool hidle) (.nil _), rfl, hlike, h.live⟩
      · exact hfollow hlevel fun hdrive => hdriver (Label.pool.inj hdrive)
  | monitor | beat | write | takeHealth | staleNodes | allFresh =>
      exact hobserve (Option.ite_none_right_eq_some.mp hstep).1 (by nofun)

/-- **Every run on the graph is one with every bit set, with idle steps put in.** -/
theorem exec_full {ls : List (Label n)} (h : s.Like g t) (hrun : exec (next g) s ls = some s') :
    ∃ ks t', Padded (next g.full) (Idles g.full) t ls ks t' ∧
      exec (next g.full) t ks = some t' ∧ s'.Like g t' := by
  refine exec_simulates (Q := fun _ t ls ks _ t' => Padded (next g.full) (Idles g.full) t ls ks t')
    (fun _ t => .nil t) (fun h h' => h.append h') (fun _ _ _ _ h hstep => ?_) h hrun
  obtain ⟨ks, t', hpadded, hlike⟩ := follow_full h hstep
  exact ⟨ks, t', hpadded, hpadded.exec, hlike⟩

/-- **Every run with every bit set is one on the graph, but for its idle steps.** -/
theorem exec_graph {ks : List (Label n)} (h : s.Like g t)
    (hrun : exec (next g.full) t ks = some t') :
    ∃ ls s', Padded (next g.full) (Idles g.full) t ls ks t' ∧ exec (next g) s ls = some s' ∧
      s'.Like g t' :=
  exec_simulates (R := fun (t s : MonitorSys n) => s.Like g t)
    (Q := fun t _ ks ls t' _ => Padded (next g.full) (Idles g.full) t ls ks t')
    (fun t _ => .nil t) (fun h h' => h.append h')
    (fun _ _ _ _ h hstep => follow_graph h hstep) h hrun

end MonitorSys

end Monitor

end EmbassySupervisor
