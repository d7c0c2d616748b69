/-
# The cooldown of a shrink

`DeferredShrink` keeps the deadline of a shrink, computed from the instant it is handed.
`drive_pools` reads the clock once, as a pass begins, and then waits for each start and stop,
so a pool late in the pass is handed an instant that has passed. A deadline it sets from that
comes too early: in `deferral_shortened` a pool is shrunk at the very instant at which its
surplus was first seen.

`shrinks_deferred` says that this is all there is to it. In a run in which the deadlines are
set at the instant the pass began (`timely`), a pool decides to shrink a cooldown after an
evaluation that shrank it or first saw the surplus, and saw the surplus whenever it was
evaluated in between. The driver stops a member on such a decision only (`pool_bounds`).
-/

import EmbassySupervisor.Pool.Settle

namespace EmbassySupervisor

open LabelledRun

variable {n : ℕ}

/-! ## The policy -/

namespace PoolStats

/-- Two idle members, and more running than the pool keeps. -/
def Surplus (s : PoolStats) : Prop := 2 ≤ s.idle ∧ s.min < s.running

instance (s : PoolStats) : Decidable s.Surplus :=
  inferInstanceAs (Decidable (2 ≤ s.idle ∧ s.min < s.running))

/-- The policy sees a surplus it keeps no deadline for, or shrinks and leaves one. -/
def defers (s : PoolStats) (pending : Option ℕ) (now : ℕ) : Bool :=
  2 ≤ s.idle && s.min < s.running && pending.all fun d => d ≤ now && 3 ≤ s.idle

/-- What the policy decides, case by case, and the deadline it keeps. -/
inductive Decision (s : PoolStats) (cooldown : ℕ) (pending : Option ℕ) (now : ℕ) :
    ScaleAction → Option ℕ → Prop
  | grow (hidle : s.idle = 0) : Decision s cooldown pending now .grow none
  | defer (hsurplus : s.Surplus) (hpending : pending = none) :
      Decision s cooldown pending now .none (some (now + cooldown))
  | again {d : ℕ} (hsurplus : s.Surplus) (hpending : pending = some d) (hd : d ≤ now)
      (hidle : 3 ≤ s.idle) : Decision s cooldown pending now .shrink (some (now + cooldown))
  | shrink {d : ℕ} (hsurplus : s.Surplus) (hpending : pending = some d) (hd : d ≤ now) :
      Decision s cooldown pending now .shrink none
  | wait {d : ℕ} (hsurplus : s.Surplus) (hpending : pending = some d) :
      Decision s cooldown pending now .none (some d)
  | rest (hsurplus : ¬ s.Surplus) : Decision s cooldown pending now .none none

theorem decide_cases (s : PoolStats) (cooldown : ℕ) (pending : Option ℕ) (now : ℕ) :
    Decision s cooldown pending now (s.decide cooldown pending now).1
      (s.decide cooldown pending now).2 := by
  unfold decide
  split
  · next hgrow => exact .grow hgrow.1
  · split
    · next hsurplus =>
        cases pending with
        | none => exact .defer hsurplus rfl
        | some d =>
            simp only
            split
            · next hd =>
                split
                · next hidle => exact .again hsurplus rfl hd hidle
                · exact .shrink hsurplus rfl hd
            · exact .wait hsurplus rfl
    · next hsurplus => exact .rest hsurplus

end PoolStats

/-! ## Deferral -/

/-- The evaluations of one pool. -/
def pastOf (k : ℕ) (evaluations : List (Evaluation n)) : List (Evaluation n) :=
  evaluations.filter (·.pool == k)

/-- A cooldown before the instant lies an evaluation that shrank the pool or first saw the
surplus, and every one since saw it and let it be. -/
def Since (cooldown : ℕ) (past : List (Evaluation n)) (instant : ℕ) : Prop :=
  ∃ recent e older, past = recent ++ e :: older ∧ e.instant + cooldown ≤ instant ∧
    e.stats.Surplus ∧ (∀ f ∈ recent, f.stats.Surplus ∧ f.decision = .none) ∧
    (e.decision = .shrink ∨
      ∀ f, older.head? = some f → f.stats.Surplus → f.decision = .shrink)

theorem Since.mono {cooldown i j : ℕ} {past : List (Evaluation n)} (h : Since cooldown past i)
    (hle : i ≤ j) : Since cooldown past j := by
  obtain ⟨recent, e, older, hpast, hinstant, hrest⟩ := h
  exact ⟨recent, e, older, hpast, hinstant.trans hle, hrest⟩

/-- Another evaluation that sees the surplus and lets it be. -/
theorem Since.cons {cooldown i : ℕ} {past : List (Evaluation n)} {e : Evaluation n}
    (h : Since cooldown past i) (hsurplus : e.stats.Surplus) (hdecision : e.decision = .none) :
    Since cooldown (e :: past) i := by
  obtain ⟨recent, f, older, rfl, hinstant, hf, hrecent, horigin⟩ := h
  refine ⟨e :: recent, f, older, rfl, hinstant, hf, ?_, horigin⟩
  intro f' hf'
  rcases List.mem_cons.mp hf' with rfl | hf'
  · exact ⟨hsurplus, hdecision⟩
  · exact hrecent f' hf'

namespace PoolHistory

open PoolSys

/-- A pool shrinks, and stops a member, a cooldown after it shrank or first saw the surplus. -/
structure Deferred (g : PoolGraph n) (h : PoolHistory n) : Prop where
  shrinks : ∀ k p, g.elastic[k]? = some p → ∀ newer e older,
    pastOf k h.evaluations = newer ++ e :: older → e.decision = .shrink →
      Since p.cooldown older e.instant
  stops : ∀ e ∈ h.evaluations, ∀ m, e.scale = some m → m.up = false → e.decision = .shrink

end PoolHistory

/-- A deadline is set at the instant the pass began. -/
def PoolSys.timely (g : PoolGraph n) (s : PoolSys n) : PoolSys.Label n → Bool
  | .drive =>
    match s.driver with
    | .pass k now _ =>
      (g.elastic[k]?).all fun p =>
        !(p.stats s.world).defers (s.pending k) now || decide (now = s.world.now)
    | .scaling _ _ _ _ | .park _ | .never | .control _ _ | .ended _ => true
  | .sys _ | .control _ => true

/-- The instant the pass began. -/
def Driver.stamp : Driver n → Option ℕ
  | .pass _ now _ | .scaling _ now _ _ => some now
  | .park _ | .never | .control _ _ | .ended _ => none

namespace PoolHistory

open PoolSys

variable {g : PoolGraph n} {k : ℕ} {p : ElasticPool n} {h t : PoolHistory n}
  {l : PoolSys.Label n} {labels : List (PoolSys.Label n)}

/-- The deadline of a pool is a cooldown after the evaluation it was set at; without one, the
last evaluation saw no surplus or shrank. -/
structure Deferring (g : PoolGraph n) (k : ℕ) (p : ElasticPool n) (h : PoolHistory n) :
    Prop where
  stamp : ∀ now, h.sys.driver.stamp = some now → now ≤ h.sys.world.now
  armed : ∀ d, h.sys.pending k = some d → Since p.cooldown (pastOf k h.evaluations) d
  unarmed : h.sys.pending k = none → ∀ e, (pastOf k h.evaluations).head? = some e →
    e.stats.Surplus → e.decision = .shrink
  shrinks : ∀ newer e older, pastOf k h.evaluations = newer ++ e :: older →
    e.decision = .shrink → Since p.cooldown older e.instant

theorem pastOf_cons {e : Evaluation n} {past : List (Evaluation n)} :
    pastOf k (e :: past) = if e.pool = k then e :: pastOf k past else pastOf k past := by
  by_cases hpool : e.pool = k <;> simp [pastOf, hpool]

/-- A new evaluation of the pool that does not shrink. -/
theorem shrinks_cons {past : List (Evaluation n)} {f : Evaluation n} {cooldown : ℕ}
    (hold : ∀ newer e older, past = newer ++ e :: older → e.decision = .shrink →
      Since cooldown older e.instant)
    (hnew : f.decision = .shrink → Since cooldown past f.instant) :
    ∀ newer e older, f :: past = newer ++ e :: older → e.decision = .shrink →
      Since cooldown older e.instant := by
  intro newer e older heq hshrink
  cases newer with
  | nil =>
      cases heq
      exact hnew hshrink
  | cons f' newer =>
      cases heq
      exact hold newer e older rfl hshrink

theorem stamp_after {i now now' : ℕ} {due : Option ℕ} {c : Call n}
    (h : (Driver.after i now due c).stamp = some now') : now' = now := by
  unfold Driver.after at h
  split at h <;> cases h <;> rfl

/-- The instant the pass began is not later than the present. -/
theorem stamp_next {s u : PoolSys n} (hs : ∀ now, s.driver.stamp = some now → now ≤ s.world.now)
    (hnext : s.next g l = some u) : ∀ now, u.driver.stamp = some now → now ≤ u.world.now := by
  intro now hstamp
  have hle : s.world.now ≤ u.world.now := by
    rw [now_of_next hnext]
    exact Nat.le_add_right _ _
  cases PoolSys.next_cases hnext with
  | sys => exact (hs now hstamp).trans hle
  | drive _ hdrive =>
      cases drive_cases hdrive with
      | @evaluate i now' due q hdriver =>
          obtain rfl := stamp_after hstamp
          exact (hs now (by rw [hdriver]; rfl)).trans hle
      | @carries i now' due c c' w hdriver hstep =>
          obtain rfl := stamp_after hstamp
          exact (hs now (by rw [hdriver]; rfl)).trans hle
      | parks | never | ends => cases hstamp
      | wakes | returns =>
          cases hstamp
          exact Nat.le_refl _
  | control => cases hstamp

/-- A step that evaluates another pool, or none. -/
theorem Deferring.skip (hs : Deferring g k p h) (hstamp : ∀ now,
      t.sys.driver.stamp = some now → now ≤ t.sys.world.now)
    (hpending : t.sys.pending k = h.sys.pending k)
    (hpast : pastOf k t.evaluations = pastOf k h.evaluations) : Deferring g k p t := by
  refine ⟨hstamp, ?_, ?_, ?_⟩
  · rw [hpending, hpast]
    exact hs.armed
  · rw [hpending, hpast]
    exact hs.unarmed
  · rw [hpast]
    exact hs.shrinks

/-- A step that evaluates the pool, and sets a deadline at the instant its pass began only. -/
theorem Deferring.evaluate (hs : Deferring g k p h) (hstamp : ∀ now,
      t.sys.driver.stamp = some now → now ≤ t.sys.world.now) {now : ℕ} {e : Evaluation n}
    (hnow : now ≤ h.sys.world.now)
    (htimely : (p.stats h.sys.world).defers (h.sys.pending k) now = true → now = h.sys.world.now)
    (hinstant : e.instant = h.sys.world.now) (hstats : e.stats = p.stats h.sys.world)
    (hdecision : e.decision =
      ((p.stats h.sys.world).decide p.cooldown (h.sys.pending k) now).1)
    (hpending : t.sys.pending k =
      ((p.stats h.sys.world).decide p.cooldown (h.sys.pending k) now).2)
    (hpast : pastOf k t.evaluations = e :: pastOf k h.evaluations) : Deferring g k p t := by
  have hcases := (p.stats h.sys.world).decide_cases p.cooldown (h.sys.pending k) now
  rw [← hdecision, ← hpending, ← hstats] at hcases
  rw [← hstats] at htimely
  have hset : e.stats.defers (h.sys.pending k) now = true →
      e.instant + p.cooldown ≤ now + p.cooldown := by
    intro hdefers
    rw [hinstant, htimely hdefers]
  have hdue : ∀ d, h.sys.pending k = some d → d ≤ now →
      Since p.cooldown (pastOf k h.evaluations) e.instant := by
    intro d hd hle
    rw [hinstant]
    exact (hs.armed d hd).mono (hle.trans hnow)
  refine ⟨hstamp, ?_, ?_, ?_⟩ <;> rw [hpast]
  · intro d hd
    rw [hd] at hcases
    generalize hdec : e.decision = action at hcases
    cases hcases with
    | defer hsurplus hnone =>
        refine ⟨[], e, _, rfl, hset ?_, hsurplus, nofun, .inr (hs.unarmed hnone)⟩
        simpa [PoolStats.defers, PoolStats.Surplus, hnone] using hsurplus
    | again hsurplus hsome hle hidle =>
        refine ⟨[], e, _, rfl, hset ?_, hsurplus, nofun, .inl hdec⟩
        simpa [PoolStats.defers, PoolStats.Surplus, hsome, hle, hidle] using hsurplus
    | wait hsurplus hsome => exact (hs.armed d hsome).cons hsurplus hdec
  · intro hnone f hf hsurplus
    cases hf
    rw [hnone] at hcases
    generalize hdec : e.decision = action at hcases
    cases hcases with
    | grow hidle =>
        have htwo := hsurplus.1
        omega
    | shrink => rfl
    | rest hno => exact absurd hsurplus hno
  · apply shrinks_cons hs.shrinks
    intro hshrink
    rw [hshrink] at hcases
    generalize t.sys.pending k = pending at hcases
    cases hcases with
    | again _ hsome hle | shrink _ hsome hle => exact hdue _ hsome hle

/-- The deadlines change with an evaluation only. -/
theorem pending_of_record {s u : PoolSys n} (hrecord : s.record g l = none)
    (hnext : s.next g l = some u) : u.pending = s.pending := by
  cases PoolSys.next_cases hnext with
  | sys | control => rfl
  | drive _ hdrive =>
      cases drive_cases hdrive with
      | evaluate hdriver _ hp => simp [record, hdriver, hp] at hrecord
      | parks | never | carries | wakes | returns | ends => rfl

theorem pending_of_evaluation {s u : PoolSys n} {i now : ℕ} {due : Option ℕ} {q : ElasticPool n}
    (hdriver : s.driver = .pass i now due) (hq : g.elastic[i]? = some q)
    (hnext : s.next g .drive = some u) :
    u.pending = Function.update s.pending i
      ((q.stats s.world).decide q.cooldown (s.pending i) now).2 := by
  have hdrive := drive_of_next hnext
  simp only [drive, hdriver, has_pools hq, hq, if_true] at hdrive
  cases hdrive
  rfl

theorem deferring_next (hp : g.elastic[k]? = some p) (hs : Deferring g k p h)
    (htimely : h.sys.timely g l = true) (hnext : h.next g l = some t) : Deferring g k p t := by
  obtain ⟨u, hu, rfl⟩ := Option.map_eq_some_iff.mp hnext
  have hstamp := stamp_next hs.stamp hu
  cases hrecord : h.sys.record g l with
  | none => exact hs.skip hstamp (congrFun (pending_of_record hrecord hu) k) rfl
  | some e =>
      obtain ⟨rfl, now, due, q, hdriver, hq, hinstant, hstats, hdecision, -⟩ :=
        record_cases hrecord
      have hpending := congrFun (pending_of_evaluation hdriver hq hu) k
      by_cases hpool : e.pool = k
      · subst hpool
        cases hp.symm.trans hq
        rw [Function.update_self] at hpending
        refine hs.evaluate hstamp (hs.stamp now (by rw [hdriver]; rfl)) ?_ hinstant hstats
          hdecision hpending (pastOf_cons.trans (if_pos rfl))
        intro hdefers
        simpa [timely, hdriver, hq, hdefers] using htimely
      · rw [Function.update_of_ne (Ne.symm hpool)] at hpending
        exact hs.skip hstamp hpending (pastOf_cons.trans (if_neg hpool))

/-- An evaluation that names a member to stop decided to shrink. -/
theorem stops_next (hs : ∀ e ∈ h.evaluations, ∀ m, e.scale = some m → m.up = false →
      e.decision = .shrink) (hnext : h.next g l = some t) :
    ∀ e ∈ t.evaluations, ∀ m, e.scale = some m → m.up = false → e.decision = .shrink := by
  obtain ⟨u, -, rfl⟩ := Option.map_eq_some_iff.mp hnext
  intro e he m hm hdown
  rcases List.mem_append.mp he with he | he
  · obtain ⟨-, now, due, q, hdriver, hq, -, -, hdecision, hscale⟩ :=
      record_cases (Option.mem_toList.mp he)
    have hnames : q.scale g.toGraph e.pool h.sys.world (h.sys.pending e.pool) now = some m := by
      rw [← hm, hscale]
      simp [scale, hdriver, hq]
    rw [hdecision, decision_of_scale hnames, hdown]
    rfl
  · exact hs e he m hm hdown

/-- **Pools shrink after a cooldown, and settle.** In a run of `run_pools` from its first pass
in which every deadline is set at the instant its pass began, a pool decides to shrink, and
names a member to stop, a cooldown after an evaluation that shrank it or first saw the
surplus, with the surplus there at each evaluation since. A pool that is steady from some
moment on does not both grow and shrink after it, and moves its excess at most. -/
theorem shrinks_deferred {s : PoolSys n} (hpending : ∀ k, s.pending k = none)
    (hdriver : s.driver = .pass 0 s.world.now none)
    (htimely : Along (next g) (fun h l => h.sys.timely g l = true) { sys := s } labels)
    (hrun : exec (next g) { sys := s } labels = some t) :
    t.Deferred g ∧
      ∀ front back u v k p, labels = front ++ back →
        exec (next g) { sys := s } front = some u → g.elastic[k]? = some p →
        (∀ now due c, u.sys.driver ≠ .scaling k now due c) →
        Along (next g) (fun h l => h.Steady g k p l) { sys := u.sys } back →
        exec (next g) { sys := u.sys } back = some v →
          ¬ (Evaluated k .grow v.evaluations ∧ Evaluated k .shrink v.evaluations) ∧
            v.moves k + p.excess v.sys.world ≤ p.excess u.sys.world := by
  have hstart : ∀ k p, Deferring g k p { sys := s } := by
    intro k p
    refine ⟨fun now hstamp => ?_, fun d hd => ?_, fun _ => nofun, fun newer e older heq => ?_⟩
    · simp only [hdriver, Driver.stamp] at hstamp
      cases hstamp
      exact le_rfl
    · exact absurd ((hpending k).symm.trans hd) nofun
    · cases newer <;> cases heq
  refine ⟨⟨fun k p hp => ?_, ?_⟩, ?_⟩
  · exact (exec_invariant_along (fun u l v hu hl hnext => deferring_next hp hu hl hnext)
      (hstart k p) htimely hrun).shrinks
  · exact exec_invariant (fun u l v hu hnext => stops_next hu hnext)
      (fun e he => absurd he List.not_mem_nil) hrun
  · rintro front back u v k p - hfront hp hidle hsteady hback
    have hscales : u.sys.Scales g := by
      refine exec_invariant (I := fun h : PoolHistory n => h.sys.Scales g) ?_ ?_ hfront
      · intro a l b ha hnext
        obtain ⟨c, hc, rfl⟩ := Option.map_eq_some_iff.mp hnext
        exact scales_next ha hc
      · intro k now due c hscaling
        cases hdriver.symm.trans hscaling
    exact settles hp hscales hidle hsteady hback

/-- A pool of one whose member waits for a resource, and after it a pool of two. -/
def twoPools : PoolGraph 3 where
  deps _ := []
  order := [0, 1, 2]
  topological := ⟨by decide, by decide, by decide, by decide⟩
  nodes j := some { mode := .onDemand, spawn := some .fn,
                    resourceGates := if j = 0 then [7] else [], slotTimeout := 5000000,
                    ackTimeout := 2000000 }
  pools := [[0], [1, 2]]
  shape_sound _ cfg _ := cfg.fitsShape_all
  pools_sound h := by simp at h
  elastic := [{ nodes := [0], min := 0, max := 1, cooldown := 4000000 },
    { nodes := [1, 2], min := 0, max := 2, cooldown := 4000000 }]
  elastic_nodes := rfl
  nodup := by decide

/-- Both members of the second pool run idle. -/
def idlePair : PoolSys 3 where
  sys := { world := { node := fun j => { flags := fun k => k == .running && decide (j ≠ 0) } } }
  driver := .pass 0 0 none

/-- The first pool starts its member at once; a cooldown after its evaluation the second pool
is shrunk. -/
def promptStart : List (PoolSys.Label 3) :=
  [.drive, .sys (.task (.provide 7)), .drive, .drive, .drive, .sys (.task (.elapse 4000000)),
    .drive, .drive, .drive]

def promptRun : Option (PoolHistory 3) := exec (next twoPools) { sys := idlePair } promptStart

theorem shrinks_deferred_prompt :
    ∃ e older, pastOf 1 (promptRun.get rfl).evaluations = e :: older ∧ e.decision = .shrink ∧
      e.instant = 4000000 ∧ Since 4000000 older e.instant := by
  have htimely : Along (next twoPools) (fun h l => h.sys.timely twoPools l = true)
      { sys := idlePair } promptStart := by decide +kernel
  have hrun : exec (next twoPools) { sys := idlePair } promptStart = some (promptRun.get rfl) :=
    (Option.some_get _).symm
  have hdeferred := (shrinks_deferred (fun _ => rfl) rfl htimely hrun).1
  exact ⟨_, _, rfl, rfl, rfl, hdeferred.shrinks 1 _ rfl [] _ _ rfl rfl⟩

/-- The first pool's start takes four seconds and a half; then the second pool is evaluated,
and at the same instant shrunk. -/
def slowStart : List (PoolSys.Label 3) :=
  [.drive, .sys (.task (.elapse 4500000)), .sys (.task (.provide 7))] ++ List.replicate 6 .drive

def slowRun : Option (PoolHistory 3) := exec (next twoPools) { sys := idlePair } slowStart

theorem deferral_shortened :
    ¬ ∀ (g : PoolGraph 3) (s : PoolSys 3) (labels : List (PoolSys.Label 3)) (t : PoolHistory 3),
      (∀ k, s.pending k = none) → s.driver = .pass 0 s.world.now none →
      exec (next g) { sys := s } labels = some t → t.Deferred g := by
  intro h
  have hrun : exec (next twoPools) { sys := idlePair } slowStart = some (slowRun.get rfl) :=
    (Option.some_get _).symm
  have hdeferred := h twoPools idlePair slowStart _ (fun _ => rfl) rfl hrun
  obtain ⟨recent, e, older, hpast, hinstant, -⟩ := hdeferred.shrinks 1 _ rfl [] _ _ rfl rfl
  cases recent with
  | nil =>
      cases hpast
      exact absurd hinstant (by decide)
  | cons f recent => cases recent <;> cases hpast

end PoolHistory

end EmbassySupervisor
