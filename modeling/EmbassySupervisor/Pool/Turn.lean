/-
# A turn of the pool driver

What a poll of the driver does to the clock and to the members of a pool. Time passes with
the tasks only (`now_of_next`), so a pass that waits for a start or a stop is behind the
clock. A turn is about one member at most (`scale`): it moves the flags of no other
(`flag_drive`), and it goes on to the same member until the start or the stop is over
(`scale_drive`).
-/

import EmbassySupervisor.Pool.Driver
import EmbassySupervisor.Verb.StopFault

namespace EmbassySupervisor

open LabelledRun

variable {n : ℕ}

/-! ## Time -/

namespace TaskEvent

/-- The time an event takes. -/
def elapsed : TaskEvent n → ℕ
  | .elapse ticks => ticks
  | .ackDropped _ | .markExited _ | .appSpawn _ | .park _ | .setReady _ | .clearReady _
  | .markBusy _ | .markIdle _ | .setDetached _ _ | .pollShutdown _ | .takeResume _
  | .provide _ | .take _ | .clear _ | .fillSlot _ _ | .fencePass _ | .setRefused _ _ => 0

theorem now_of_apply {g : Graph n} {e : TaskEvent n} {w w' : World n}
    (h : e.apply g w = some w') : w'.now = w.now + e.elapsed := by
  cases e with
  | ackDropped j =>
      obtain ⟨cfg, -, h⟩ := Option.bind_eq_some_iff.mp h
      split at h
      · cases h
      · cases h
        exact (drops_ackDropped w cfg j).now
  | markExited j =>
      obtain ⟨cfg, -, h⟩ := Option.bind_eq_some_iff.mp h
      split at h
      · cases h
      · cases h
        exact (drops_markExited w cfg j).now
  | appSpawn j =>
      obtain ⟨cfg, -, h⟩ := Option.bind_eq_some_iff.mp h
      split at h
      · cases h
        rfl
      · cases h
  | park | fencePass =>
      simp only [apply] at h
      split at h
      · cases h
        rfl
      · cases h
  | markBusy j | markIdle j =>
      cases h
      unfold World.putBusy
      simp only
      split <;> rfl
  | elapse | setReady | clearReady | setDetached | pollShutdown | takeResume | provide | take
  | clear | fillSlot | setRefused =>
      cases h
      rfl

end TaskEvent

namespace PoolSys

/-- The time a step takes. -/
def Label.elapsed : Label n → ℕ
  | .sys (.task e) => e.elapsed
  | .sys (.begin _) | .sys (.advance _) | .sys (.setDisabled _ _) | .sys (.cancel _)
  | .drive | .control _ => 0

/-- **Time passes with the tasks only.** -/
theorem now_of_next {g : PoolGraph n} {s t : PoolSys n} {l : Label n}
    (h : s.next g l = some t) : t.world.now = s.world.now + l.elapsed := by
  have sys : ∀ {a b : Sys n} {l : EmbassySupervisor.Label n}, a.next g.toGraph l = some b →
      b.world.now = a.world.now + Label.elapsed (.sys l) := by
    intro a b l h
    cases Sys.next_cases h with
    | @begin v c w _ hbegin =>
        have hnow := (begin_cases g.toGraph a.world v).now_eq
        rwa [hbegin] at hnow
    | advance _ _ hstep => exact (Call.step_cases hstep).now_eq
    | task _ happly => exact TaskEvent.now_of_apply happly
    | setDisabled | cancel => rfl
  cases next_cases h with
  | sys _ hsys => exact sys hsys
  | drive _ hdrive =>
      cases drive_cases hdrive with
      | evaluate =>
          obtain ⟨hworld, -⟩ := drivePool_eq (s := s) (g := g) rfl
          rw [hworld]
          exact (begin_cases g.toGraph s.world _).now_eq
      | carries _ hstep => exact (Call.step_cases hstep).now_eq
      | parks | never | wakes | returns | ends => rfl
  | control _ hsys => exact sys hsys

end PoolSys

/-! ## The member a turn is about -/

theorem World.flag_launch_other {w : World n} {sp : Spawn} {i j : Fin n} (hne : i ≠ j) (k : Flag) :
    (w.launch sp j).flag i k = w.flag i k := by
  cases sp with
  | fn => rfl
  | task =>
      unfold World.launch
      simp only
      split <;> simp [World.flag_onNode, hne]

theorem StartEffect.flag_other {w w' : World n} {cfg : NodeCfg n} {i j : Fin n} {e : StartEnd n}
    (h : StartEffect cfg w j e w') (hne : i ≠ j) (k : Flag) : w'.flag i k = w.flag i k := by
  cases h with
  | started _ hw _ => simp [World.flag_launch_other hne, hne, hw.flag]
  | parked hw _ => simp [hne, hw.flag]
  | faulted hw _ | waits hw => rcases hw with hw | hw <;> simp [hne, hw.flag]

theorem StartEntry.flag_other {g : Graph n} {w w' : World n} {i j : Fin n} {e : StartEnd n}
    (h : StartEntry g w j e w') (hne : i ≠ j) (k : Flag) : w'.flag i k = w.flag i k := by
  cases h with
  | absent => rfl
  | gated _ h => simp [h.flag_other hne, hne]
  | marked => simp [hne]

/-- A member of a pool and whether it is to come up or to go down. -/
structure Scale (n : ℕ) where
  pool : ℕ
  member : Fin n
  up : Bool
  deriving DecidableEq, Repr

/-- What a call the driver waits for starts or stops. -/
def Call.scale (k : ℕ) : Call n → Option (Scale n)
  | .startNode j _ _ => some ⟨k, j, true⟩
  | .stopNode j _ => some ⟨k, j, false⟩
  | _ => none

/-- What an evaluation of a pool makes the driver start or stop. -/
def ElasticPool.scale (p : ElasticPool n) (g : Graph n) (k : ℕ) (w : World n)
    (pending : Option ℕ) (now : ℕ) : Option (Scale n) :=
  match (p.evaluate g w pending now).1 with
  | .start j => if g.admits w j then some ⟨k, j, true⟩ else none
  | .stop j => some ⟨k, j, false⟩
  | .none => none

namespace ElasticPool

variable {p : ElasticPool n} {g : Graph n} {k : ℕ} {w : World n} {pending : Option ℕ} {now : ℕ}

theorem scale_grow (haction : ((p.stats w).decide p.cooldown pending now).1 = .grow) :
    p.scale g k w pending now =
      (p.spare g w).bind fun j => if g.admits w j then some ⟨k, j, true⟩ else none := by
  simp only [scale, evaluate, haction]
  cases p.spare g w <;> rfl

theorem scale_shrink (haction : ((p.stats w).decide p.cooldown pending now).1 = .shrink) :
    p.scale g k w pending now = (p.surplus g w).map fun j => ⟨k, j, false⟩ := by
  simp only [scale, evaluate, haction]
  cases p.surplus g w <;> rfl

theorem scale_none (haction : ((p.stats w).decide p.cooldown pending now).1 = .none) :
    p.scale g k w pending now = none := by
  simp only [scale, evaluate, haction]

end ElasticPool

namespace PoolSys

/-- What a poll of the driver starts or stops, or goes on to. -/
def scale (g : PoolGraph n) (s : PoolSys n) : Option (Scale n) :=
  match s.driver with
  | .pass k now _ => (g.elastic[k]?).bind fun p => p.scale g.toGraph k s.world (s.pending k) now
  | .scaling k _ _ c => c.scale k
  | .park _ | .never | .control _ _ | .ended _ => none

variable {g : PoolGraph n} {s t : PoolSys n} {l : Label n}

section Evaluation

variable {k : ℕ} {p : ElasticPool n} {w : World n} {pending : Option ℕ} {now : ℕ}

/-- The front half of a pool's decision touches the member it names only. -/
theorem flag_begin_scale (hp : g.elastic[k]? = some p) {i : Fin n}
    (hi : ∀ m, p.scale g.toGraph k w pending now = some m → i ≠ m.member) (f : Flag) :
    (g.toGraph.begin w (.scale k ((p.stats w).decide p.cooldown pending now).1)).2.flag i f =
      w.flag i f := by
  cases haction : ((p.stats w).decide p.cooldown pending now).1 with
  | none => simp [Graph.begin, getElem?_pools hp]
  | grow =>
      rw [begin_grow hp]
      rw [ElasticPool.scale_grow haction] at hi
      cases hspare : p.spare g.toGraph w with
      | none => rfl
      | some j =>
          simp only
          split
          · next hadmit =>
              have hne : i ≠ j := hi ⟨k, j, true⟩ (by simp [hspare, hadmit])
              exact (startNode_cases g.toGraph w j).flag_other hne f
          · rfl
  | shrink =>
      rw [ElasticPool.scale_shrink haction] at hi
      simp only [Graph.begin, getElem?_pools hp]
      split
      · rfl
      · next j hsurplus =>
          have hne : i ≠ j := hi ⟨k, j, false⟩ (by simp [ElasticPool.surplus, hsurplus])
          split
          · rfl
          · next cfg hcfg =>
              have hflag : (w.stopNode cfg j).2.flag i f = w.flag i f := flag_stopNode hne f
              cases hentry : w.stopNode cfg j with
              | mk d w' =>
                  rw [hentry] at hflag
                  cases d <;> exact hflag

/-- What the driver waits for after an evaluation is what the evaluation named. -/
theorem scale_of_begin (hp : g.elastic[k]? = some p) {m : Scale n}
    (h : (g.toGraph.begin w (.scale k ((p.stats w).decide p.cooldown pending now).1)).1.scale k =
      some m) : p.scale g.toGraph k w pending now = some m := by
  cases haction : ((p.stats w).decide p.cooldown pending now).1 with
  | none => simp [haction, Graph.begin, getElem?_pools hp, Call.scale] at h
  | grow =>
      rw [haction, begin_grow hp] at h
      rw [ElasticPool.scale_grow haction]
      cases hspare : p.spare g.toGraph w with
      | none => simp [hspare, Call.scale] at h
      | some j =>
          simp only [hspare] at h
          split at h
          · next hadmit =>
              cases hend : (g.toGraph.startNode w j).1 with
              | done r => simp [hend, AfterStart.proceed, AfterStart.resume, Call.scale] at h
              | wait phase =>
                  simp only [hend, AfterStart.proceed, Call.scale] at h
                  rwa [Option.bind_some, if_pos hadmit]
          · simp [Call.scale] at h
  | shrink =>
      rw [haction] at h
      rw [ElasticPool.scale_shrink haction, ElasticPool.surplus]
      simp only [Graph.begin, getElem?_pools hp] at h
      split at h
      · simp [Call.scale] at h
      · next j hsurplus =>
          rw [hsurplus]
          split at h
          · simp [Call.scale] at h
          · next cfg hcfg =>
              cases hentry : w.stopNode cfg j with
              | mk d w' =>
                  cases d with
                  | none => simp [hentry, Call.scale] at h
                  | some deadline =>
                      simp only [hentry, Call.scale] at h
                      exact h

end Evaluation

/-- **A turn moves the member it is about only.** -/
theorem flag_drive (hscales : s.Scales g) (h : s.drive g = some t) {i : Fin n}
    (hi : ∀ m, s.scale g = some m → i ≠ m.member) (f : Flag) :
    t.world.flag i f = s.world.flag i f := by
  cases drive_cases h with
  | @evaluate k now due p hdriver _ hp =>
      have hworld : (s.drivePool g p k now due).world = _ := (drivePool_eq rfl).1
      rw [hworld]
      apply flag_begin_scale hp
      intro m hm
      exact hi m (by simp [scale, hdriver, hp, hm])
  | @carries k now due c c' w hdriver hstep =>
      cases hscales k now due c hdriver with
      | done r => simp [Call.step] at hstep
      | @startNode j phase hmem =>
          have hne : i ≠ j := hi ⟨k, j, true⟩ (by simp [scale, hdriver, Call.scale])
          cases Call.step_cases hstep with
          | startNode _ heffect => exact heffect.flag_other hne f
      | stopNode j deadline =>
          have hne : i ≠ j := hi ⟨k, j, false⟩ (by simp [scale, hdriver, Call.scale])
          cases Call.step_cases hstep with
          | ackNode => simp [world, World.flag_onNode, hne]
          | missNode => simp [world]
  | parks | never | wakes | returns | ends => rfl

/-- Nobody but the driver takes up a member of a pool. -/
theorem scales_next (hs : s.Scales g) (h : s.next g l = some t) : t.Scales g := by
  cases next_cases h with
  | sys => exact hs
  | drive _ hdrive => exact scales_drive hs hdrive
  | control =>
      intro k now due c hdriver
      cases hdriver

theorem scale_of_after {k k' now now' : ℕ} {due due' : Option ℕ} {c c' : Call n}
    (hc : Scaling g k c) (h : Driver.after k now due c = .scaling k' now' due' c') :
    c'.scale k' = c.scale k ∧ (c.scale k).isSome = true := by
  cases hc with
  | done r => cases r <;> cases h
  | startNode | stopNode =>
      cases h
      exact ⟨rfl, rfl⟩

/-- **What a turn has taken up is what the next one goes on to.** -/
theorem scale_drive (hs : s.Scales g) (h : s.drive g = some t) {k now : ℕ} {due : Option ℕ}
    {c : Call n} (hscaling : t.driver = .scaling k now due c) : t.scale g = s.scale g := by
  have ht : t.scale g = c.scale k := by simp [scale, hscaling]
  rw [ht]
  cases drive_cases h with
  | @evaluate i now due p hdriver _ hp =>
      obtain ⟨due', hafter⟩ : ∃ due', (s.drivePool g p i now due).driver = _ :=
        (drivePool_eq rfl).2
      obtain ⟨hscale, hsome⟩ := scale_of_after (scaling_begin hp _ _) (hafter ▸ hscaling)
      obtain ⟨m, hm⟩ := Option.isSome_iff_exists.mp hsome
      rw [hscale, hm]
      simp [scale, hdriver, hp, scale_of_begin hp hm]
  | @carries i now due c₀ c₁ w hdriver hstep =>
      have hc := hs i now due c₀ hdriver
      obtain ⟨hscale, hsome⟩ := scale_of_after (scaling_step hc hstep) hscaling
      have hs : s.scale g = c₀.scale i := by simp [scale, hdriver]
      rw [hscale, hs]
      cases hc with
      | done r => simp [Call.step] at hstep
      | startNode =>
          cases Call.step_cases hstep with
          | @startNode _ _ _ _ e =>
              cases e with
              | wait phase => rfl
              | done r => simp [AfterStart.proceed, AfterStart.resume, Call.scale] at hsome
      | stopNode j deadline =>
          cases Call.step_cases hstep with
          | ackNode | missNode => simp [Call.scale] at hsome
  | parks | never | wakes | returns | ends => cases hscaling

end PoolSys

end EmbassySupervisor
