/-
# The bounds of a pool

The policy decides on the counts of all members and a decision is carried out on an
`OnDemand` one, after any wait for the pools before it. `Decided` is what holds of the member
at the evaluation that names it. `pool_bounds` follows a run of the driver, whatever the
application, its control commands and the tasks do meanwhile: a member is started or stopped
on such an evaluation only, and nobody else is touched.

The counts are bytes. `checkedStats` counts with every sum checked, as a debug build does.
-/

import EmbassySupervisor.Pool.Turn

namespace EmbassySupervisor

open LabelledRun

variable {n : ℕ}

namespace ElasticPool

/-- The bounds of the pool fit its members, and the members fit a byte. -/
structure Sized (p : ElasticPool n) : Prop where
  min_le : p.min ≤ p.max
  max_le : p.max ≤ p.nodes.length
  length_le : p.nodes.length ≤ 255

/-! ## The counts -/

def addChecked (a b : UInt8) : Option UInt8 :=
  if a.toNat + b.toNat < 2 ^ 8 then some (a + b) else none

/-- One member is counted. -/
def tally (w : World n) (counts : UInt8 × UInt8) (j : Fin n) : Option (UInt8 × UInt8) :=
  if w.flag j .running then do
    some (← addChecked counts.1 1, ← addChecked counts.2 (w.flag j .busy).toUInt8)
  else some counts

/-- The running and the busy members; `none` as soon as a count does not fit its byte. -/
def checkedStats (p : ElasticPool n) (w : World n) : Option (UInt8 × UInt8) :=
  p.nodes.foldlM (tally w) (0, 0)

theorem addChecked_eq {a b : UInt8} (h : a.toNat + b.toNat < 2 ^ 8) :
    ∃ c, addChecked a b = some c ∧ c.toNat = a.toNat + b.toNat := by
  refine ⟨a + b, if_pos h, ?_⟩
  rw [UInt8.toNat_add]
  exact Nat.mod_eq_of_lt h

/-- A byte that has room for the members still to come counts them. -/
theorem foldlM_tally {w : World n} (nodes : List (Fin n)) {r b : UInt8}
    (hroom : r.toNat + nodes.length < 2 ^ 8) (hle : b.toNat ≤ r.toNat) :
    ∃ r' b', nodes.foldlM (tally w) (r, b) = some (r', b') ∧
      r'.toNat = r.toNat + nodes.countP (fun j => w.flag j .running) ∧
      b'.toNat = b.toNat + nodes.countP (fun j => w.flag j .running && w.flag j .busy) := by
  induction nodes generalizing r b with
  | nil => exact ⟨r, b, rfl, rfl, rfl⟩
  | cons j nodes ih =>
      rw [List.length_cons] at hroom
      rw [List.foldlM_cons]
      cases hrunning : w.flag j .running with
      | false =>
          have htally : tally w (r, b) j = some (r, b) := by simp [tally, hrunning]
          obtain ⟨r', b', hfold, hr, hb⟩ := ih (r := r) (b := b) (by omega) hle
          refine ⟨r', b', by rw [htally]; exact hfold, ?_, ?_⟩
          · simp [hrunning, hr]
          · simp [hrunning, hb]
      | true =>
          have hbusy : (w.flag j .busy).toUInt8.toNat = if w.flag j .busy then 1 else 0 := by
            cases w.flag j .busy <;> rfl
          have hone : (1 : UInt8).toNat = 1 := rfl
          have hbusy_le : (w.flag j .busy).toUInt8.toNat ≤ 1 := by
            rw [hbusy]
            split <;> omega
          obtain ⟨r₁, hr₁, hr₁_nat⟩ := addChecked_eq (a := r) (b := 1) (by omega)
          obtain ⟨b₁, hb₁, hb₁_nat⟩ :=
            addChecked_eq (a := b) (b := (w.flag j .busy).toUInt8) (by omega)
          have htally : tally w (r, b) j = some (r₁, b₁) := by
            simp [tally, hrunning, hr₁, hb₁]
          obtain ⟨r', b', hfold, hr, hb⟩ := ih (r := r₁) (b := b₁) (by omega) (by omega)
          refine ⟨r', b', by rw [htally]; exact hfold, ?_, ?_⟩
          · simp [hrunning, hr, hr₁_nat, hone]
            omega
          · rw [hb, hb₁_nat, hbusy]
            cases hb : w.flag j .busy <;> simp [hrunning, hb]
            omega

/-- **No count overflows.** -/
theorem checkedStats_eq {p : ElasticPool n} (hp : p.Sized) (w : World n) :
    ∃ r b, p.checkedStats w = some (r, b) ∧ r.toNat = (p.stats w).running ∧
      b.toNat = (p.stats w).busy := by
  have hlength := hp.length_le
  obtain ⟨r, b, hfold, hr, hb⟩ :=
    foldlM_tally (w := w) p.nodes (r := 0) (b := 0) (by simp; omega) le_rfl
  refine ⟨r, b, hfold, ?_, ?_⟩
  · rw [hr, UInt8.toNat_zero, Nat.zero_add]
    rfl
  · rw [hb, UInt8.toNat_zero, Nat.zero_add]
    rfl

end ElasticPool

namespace PoolSys

/-! ## The evaluation behind a start or a stop -/

/-- What the source asks of a member it starts or stops, and of its pool. -/
structure Fits (g : PoolGraph n) (p : ElasticPool n) (w : World n) (m : Scale n) : Prop where
  mem : m.member ∈ p.nodes
  onDemand : (g.nodes m.member).any (fun cfg => cfg.mode == .onDemand) = true
  start : m.up = true → w.flag m.member .running = false ∧ w.flag m.member .disabled = false ∧
    w.flag m.member .collateral = false ∧
    p.nodes.countP (fun j => w.flag j .running) < p.max
  stop : m.up = false → w.flag m.member .running = true ∧ w.flag m.member .busy = false ∧
    p.min < p.nodes.countP fun j => w.flag j .running

/-- An evaluation names the member. -/
structure Decided (g : PoolGraph n) (s : PoolSys n) (m : Scale n) : Prop where
  evaluates : ∃ now due, s.driver = .pass m.pool now due
  scale : s.scale g = some m
  fits : ∃ p, g.elastic[m.pool]? = some p ∧ Fits g p s.world m

variable {g : PoolGraph n} {s t : PoolSys n}

/-- An evaluation names a member that fits. -/
theorem fits_of_scale {k : ℕ} {p : ElasticPool n} {w : World n} {pending : Option ℕ} {now : ℕ}
    {m : Scale n} (h : p.scale g.toGraph k w pending now = some m) :
    m.pool = k ∧ Fits g p w m := by
  cases haction : ((p.stats w).decide p.cooldown pending now).1 with
  | none => simp [ElasticPool.scale_none haction] at h
  | grow =>
      rw [ElasticPool.scale_grow haction] at h
      obtain ⟨j, hspare, hj⟩ := Option.bind_eq_some_iff.mp h
      split at hj
      · cases hj
        have hpick := List.find?_some hspare
        simp only [Bool.and_eq_true, Bool.not_eq_true'] at hpick
        obtain ⟨hmode, ⟨hrunning, hdisabled⟩, hcollateral⟩ := hpick
        refine ⟨rfl, List.mem_of_find?_eq_some hspare, hmode, fun _ => ?_, nofun⟩
        exact ⟨hrunning, hdisabled, hcollateral, (PoolStats.decide_eq_grow.mp haction).2⟩
      · cases hj
  | shrink =>
      rw [ElasticPool.scale_shrink haction] at h
      obtain ⟨j, hsurplus, rfl⟩ := Option.map_eq_some_iff.mp h
      have hpick := List.find?_some hsurplus
      simp only [Bool.and_eq_true, Bool.not_eq_true'] at hpick
      obtain ⟨hmode, hrunning, hbusy⟩ := hpick
      refine ⟨rfl, List.mem_of_find?_eq_some hsurplus, hmode, nofun, fun _ => ?_⟩
      exact ⟨hrunning, hbusy, (PoolStats.surplus_of_decide_eq_shrink haction).2⟩

theorem decided_of_pass {k now : ℕ} {due : Option ℕ} {m : Scale n}
    (hdriver : s.driver = .pass k now due) (h : s.scale g = some m) : s.Decided g m := by
  have hscale := h
  rw [scale, hdriver] at hscale
  obtain ⟨p, hp, hm⟩ := Option.bind_eq_some_iff.mp hscale
  obtain ⟨rfl, hfits⟩ := fits_of_scale hm
  exact ⟨⟨now, due, hdriver⟩, h, p, hp, hfits⟩

/-- What the driver starts or stops was named by an evaluation of the run, and the driver has
been at it since. -/
def Traced (g : PoolGraph n) (s : PoolSys n) (labels : List (Label n)) (t : PoolSys n) : Prop :=
  ∀ m, t.scale g = some m → ∃ front back u, labels = front ++ back ∧
    exec (next g) s front = some u ∧ u.Decided g m ∧
    Along (next g) (fun v _ => v.scale g = some m) u back

theorem traced_next {labels : List (Label n)} {u : PoolSys n} {l : Label n}
    (hscales : u.Scales g) (hs : Traced g s labels u) (hrun : exec (next g) s labels = some u)
    (h : u.next g l = some t) : Traced g s (labels ++ [l]) t := by
  intro m hm
  cases hdriver : t.driver with
  | pass k now due =>
      exact ⟨labels ++ [l], [], t, (List.append_nil _).symm, exec_snoc hrun h,
        decided_of_pass hdriver hm, trivial⟩
  | scaling k now due c =>
      have hkept : u.scale g = some m := by
        rw [← hm]
        cases next_cases h with
        | sys =>
            simp only at hdriver
            simp [scale, hdriver]
        | drive _ hdrive => exact (scale_drive hscales hdrive hdriver).symm
        | control => cases hdriver
      obtain ⟨front, back, v, rfl, hfront, hdecided, halong⟩ := hs m hkept
      obtain ⟨v', hfront', hback⟩ := exec_append.mp hrun
      cases hfront.symm.trans hfront'
      exact ⟨front, back ++ [l], v, by simp, hfront, hdecided, along_snoc hback hkept halong⟩
  | park | never | control | ended => simp [scale, hdriver] at hm

/-! ## The bounds -/

/-- **A shrink that finds only other idle members than `OnDemand` ones stops nothing.** -/
theorem drive_of_no_surplus {k now : ℕ} {due : Option ℕ} {p : ElasticPool n}
    (hdriver : s.driver = .pass k now due) (hp : g.elastic[k]? = some p)
    (hshrink : ((p.stats s.world).decide p.cooldown (s.pending k) now).1 = .shrink)
    (hidle : ∀ j ∈ p.nodes, s.world.flag j .running = true → s.world.flag j .busy = false →
      (g.nodes j).any (fun cfg => cfg.mode == .onDemand) = false)
    (h : s.drive g = some t) : s.scale g = none ∧ t.world = s.world := by
  have hnone : p.surplus g.toGraph s.world = none := by
    apply List.find?_eq_none.mpr
    intro j hj hpick
    simp only [Bool.and_eq_true, Bool.not_eq_true'] at hpick
    rw [hidle j hj hpick.2.1 hpick.2.2] at hpick
    exact absurd hpick.1 Bool.false_ne_true
  refine ⟨by simp [scale, hdriver, hp, ElasticPool.scale_shrink hshrink, hnone], ?_⟩
  cases drive_cases h with
  | evaluate hdriver' _ hp' =>
      cases hdriver.symm.trans hdriver'
      cases hp.symm.trans hp'
      rw [(drivePool_eq hshrink).1]
      unfold ElasticPool.surplus at hnone
      simp [Graph.begin, getElem?_pools hp, hnone]
  | carries hdriver' | wakes hdriver' | returns hdriver' | ends hdriver' =>
      cases hdriver.symm.trans hdriver'
  | parks | never => rfl

/-- **The bounds of a pool.** At any moment of a run that begins with a pass of the driver, no
pool's counts overflow; what the driver starts or stops was named by an evaluation of the run
with the member and the pool's bounds as they have to be; the driver's poll touches no other
node; and a shrink that finds no idle `OnDemand` member leaves the system as it is. -/
theorem pool_bounds {labels : List (Label n)} {now : ℕ} {due : Option ℕ}
    (hsized : ∀ p ∈ g.elastic, p.Sized) (hs : s.driver = .pass 0 now due)
    (hrun : exec (next g) s labels = some t) :
    (∀ p ∈ g.elastic, ∃ r b, p.checkedStats t.world = some (r, b) ∧
      r.toNat = (p.stats t.world).running ∧ b.toNat = (p.stats t.world).busy) ∧
    Traced g s labels t ∧
    (∀ u, t.next g .drive = some u → ∀ i f, u.world.flag i f ≠ t.world.flag i f →
      ∃ m, t.scale g = some m ∧ m.member = i) ∧
    (∀ k now due p, t.driver = .pass k now due → g.elastic[k]? = some p →
      ((p.stats t.world).decide p.cooldown (t.pending k) now).1 = .shrink →
      (∀ j ∈ p.nodes, t.world.flag j .running = true → t.world.flag j .busy = false →
        (g.nodes j).any (fun cfg => cfg.mode == .onDemand) = false) →
      ∀ u, t.next g .drive = some u → t.scale g = none ∧ u.world = t.world) := by
  have hscales : s.Scales g := by
    intro k now due c h
    cases hs.symm.trans h
  have htraced : Traced g s labels t ∧ t.Scales g := by
    refine exec_invariant_history (I := fun labels t => Traced g s labels t ∧ t.Scales g)
      ⟨fun m hm => ⟨[], [], s, rfl, rfl, decided_of_pass hs hm, trivial⟩, hscales⟩ ?_ hrun
    intro front u l v hfront hu hstep
    exact ⟨traced_next hu.2 hu.1 hfront hstep, scales_next hu.2 hstep⟩
  refine ⟨fun p hp => ElasticPool.checkedStats_eq (hsized p hp) t.world, htraced.1, ?_, ?_⟩
  · intro u h i f hne
    by_contra! hother
    apply hne
    apply flag_drive htraced.2 (drive_of_next h)
    rintro m hm rfl
    exact hother m hm rfl
  · intro k now due p hdriver hp hshrink hidle u h
    exact drive_of_no_surplus hdriver hp hshrink hidle (drive_of_next h)

/-- The first poll after the server is up names a worker. -/
theorem pool_bounds_workers :
    ∃ front back u, bustle.take 10 = front ++ back ∧
      exec (next workers) workersDown front = some u ∧ u.Decided workers ⟨0, 1, true⟩ ∧
      Along (next workers) (fun v _ => v.scale workers = some ⟨0, 1, true⟩) u back := by
  have hsized : ∀ p ∈ workers.elastic, p.Sized := by
    intro p hp
    cases List.mem_singleton.mp hp
    exact ⟨by decide, by decide, by decide⟩
  have hrun : exec (next workers) workersDown (bustle.take 10) =
      some ((exec (next workers) workersDown (bustle.take 10)).get rfl) :=
    (Option.some_get _).symm
  exact (pool_bounds hsized rfl hrun).2.1 ⟨0, 1, true⟩ rfl

end PoolSys

end EmbassySupervisor
