/-
# A pool settles

The runs of the driver with a log of the evaluations, and how often members of each pool came
up or went down. `settles` says that a pool whose busy members stay the same, and whose other
members come and go by its own turns only, does not both grow and shrink: a growth leaves one
idle member and a shrink at least one. It moves `excess` members at most, however long it is
driven.

A stop the driver has asked for is often answered while it waits, or after a control command
has dropped it: the acknowledgement counts as the pool's own.
-/

import EmbassySupervisor.Pool.Bounds

namespace EmbassySupervisor

open LabelledRun

variable {n : ℕ}

/-- One evaluation of a pool: when, on which counts, and what came of it. -/
structure Evaluation (n : ℕ) where
  pool : ℕ
  instant : ℕ
  stats : PoolStats
  decision : ScaleAction
  scale : Option (Scale n)
  deriving DecidableEq, Repr

namespace ElasticPool

variable (p : ElasticPool n)

/-- How many members came up or went down. -/
def changes (w w' : World n) : ℕ :=
  p.nodes.countP fun i => w'.flag i .running != w.flag i .running

/-- How many members a pool has to bring up or down until it rests. -/
def excess (w : World n) : ℕ := if (p.stats w).idle = 0 then 1 else (p.stats w).idle - 1

end ElasticPool

/-- The evaluation a step makes. -/
def PoolSys.record (g : PoolGraph n) (s : PoolSys n) : PoolSys.Label n → Option (Evaluation n)
  | .drive =>
    match s.driver with
    | .pass k now _ =>
      (g.elastic[k]?).map fun p =>
        { pool := k
          instant := s.world.now
          stats := p.stats s.world
          decision := ((p.stats s.world).decide p.cooldown (s.pending k) now).1
          scale := s.scale g }
    | .scaling _ _ _ _ | .park _ | .never | .control _ _ | .ended _ => none
  | .sys _ | .control _ => none

/-- The system with its pool driver, the evaluations so far, newest first, and how many times
members of each pool came up or went down. -/
structure PoolHistory (n : ℕ) where
  sys : PoolSys n
  evaluations : List (Evaluation n) := []
  moves : ℕ → ℕ := fun _ => 0

namespace PoolHistory

open PoolSys

def next (g : PoolGraph n) (h : PoolHistory n) (l : PoolSys.Label n) : Option (PoolHistory n) :=
  (h.sys.next g l).map fun t =>
    { sys := t
      evaluations := (h.sys.record g l).toList ++ h.evaluations
      moves := fun k =>
        h.moves k + (g.elastic[k]?).elim 0 fun p => p.changes h.sys.world t.world }

end PoolHistory

/-- A pool decided so. -/
def Evaluated (k : ℕ) (action : ScaleAction) (past : List (Evaluation n)) : Prop :=
  ∃ e ∈ past, e.pool = k ∧ e.decision = action

/-- The member a pool named last. -/
def named (k : ℕ) (past : List (Evaluation n)) : Option (Scale n) :=
  past.findSome? fun e => if e.pool = k then e.scale else none

/-- The busy members of a pool stay the same; another member comes up or goes down in the
pool's own turn, or acknowledges the stop the pool asked it for last. -/
def PoolHistory.Steady (g : PoolGraph n) (k : ℕ) (p : ElasticPool n) (h : PoolHistory n)
    (l : PoolSys.Label n) : Prop :=
  ∀ t, h.next g l = some t → ∀ i ∈ p.nodes,
    (t.sys.world.flag i .running && t.sys.world.flag i .busy) =
        (h.sys.world.flag i .running && h.sys.world.flag i .busy) ∧
      (t.sys.world.flag i .running = h.sys.world.flag i .running ∨
        (l = .drive ∧ ∃ m, h.sys.scale g = some m ∧ m.pool = k) ∨
        named k h.evaluations = some ⟨k, i, false⟩ ∧ t.sys.world.flag i .running = false)

/-! ## Counting -/

section Counting

variable {α : Type} {p q : α → Bool} {l : List α} {a : α}

/-- One element more is counted. -/
theorem countP_eq_succ (hl : l.Nodup) (ha : a ∈ l) (hp : p a = false) (hq : q a = true)
    (hsame : ∀ b ∈ l, b ≠ a → q b = p b) : l.countP q = l.countP p + 1 := by
  obtain ⟨front, back, rfl⟩ := List.append_of_mem ha
  rw [List.nodup_middle] at hl
  have hout : a ∉ front ++ back := (List.nodup_cons.mp hl).1
  have hfront : front.countP q = front.countP p := by
    apply List.countP_congr
    intro b hb
    have hne : b ≠ a := fun heq => hout (heq ▸ List.mem_append_left _ hb)
    rw [hsame b (List.mem_append_left _ hb) hne]
  have hback : back.countP q = back.countP p := by
    apply List.countP_congr
    intro b hb
    have hne : b ≠ a := fun heq => hout (heq ▸ List.mem_append_right _ hb)
    rw [hsame b (List.mem_append_right _ (List.mem_cons_of_mem _ hb)) hne]
  rw [List.countP_append, List.countP_append, List.countP_cons_of_pos hq,
    List.countP_cons_of_neg (by simp [hp]), hfront, hback]
  omega

end Counting

namespace ElasticPool

variable {p : ElasticPool n} {w w' : World n} {j : Fin n}

theorem idle_congr (h : ∀ i ∈ p.nodes, (w'.flag i .running && w'.flag i .busy) =
      (w.flag i .running && w.flag i .busy))
    (hsame : ∀ i ∈ p.nodes, w'.flag i .running = w.flag i .running) :
    (p.stats w').idle = (p.stats w).idle := by
  rw [idle_stats, idle_stats]
  apply List.countP_congr
  intro i hi
  have hbusy := h i hi
  rw [hsame i hi] at hbusy ⊢
  cases hrunning : w.flag i .running <;> simp_all

/-- A member that is not among the busy ones comes up. -/
theorem idle_succ (hnodup : p.nodes.Nodup) (hj : j ∈ p.nodes)
    (h : ∀ i ∈ p.nodes, (w'.flag i .running && w'.flag i .busy) =
      (w.flag i .running && w.flag i .busy))
    (hdown : w.flag j .running = false) (hup : w'.flag j .running = true)
    (hsame : ∀ i ∈ p.nodes, i ≠ j → w'.flag i .running = w.flag i .running) :
    (p.stats w').idle = (p.stats w).idle + 1 ∧ p.changes w w' = 1 ∧ p.changes w' w = 1 := by
  refine ⟨?_, ?_, ?_⟩
  · rw [idle_stats, idle_stats]
    apply countP_eq_succ hnodup hj
    · simp [hdown]
    · have hbusy := h j hj
      rw [hdown, hup, Bool.true_and, Bool.false_and] at hbusy
      simp [hup, hbusy]
    · intro i hi hne
      have hbusy := h i hi
      rw [hsame i hi hne] at hbusy ⊢
      cases hrunning : w.flag i .running <;> simp_all
  · unfold changes
    rw [countP_eq_succ (p := fun _ => false) hnodup hj rfl (by simp [hdown, hup])
      fun i hi hne => by simp [hsame i hi hne]]
    simp
  · unfold changes
    rw [countP_eq_succ (p := fun _ => false) hnodup hj rfl (by simp [hdown, hup])
      fun i hi hne => by simp [hsame i hi hne]]
    simp

theorem changes_eq_zero (hsame : ∀ i ∈ p.nodes, w'.flag i .running = w.flag i .running) :
    p.changes w w' = 0 := by
  apply List.countP_eq_zero.mpr
  intro i hi
  simp [hsame i hi]

end ElasticPool

/-! ## One pool -/

/-- Where a pool stands after its evaluations: having grown it has one idle member at most and
has not shrunk, having shrunk it has one at least; the member it named last was needed, or is
not. -/
structure Settling (p : ElasticPool n) (k : ℕ) (past : List (Evaluation n)) (w : World n) :
    Prop where
  grown : Evaluated k .grow past → (p.stats w).idle ≤ 1 ∧ ¬ Evaluated k .shrink past
  shrunk : Evaluated k .shrink past → 1 ≤ (p.stats w).idle
  mem : ∀ m, named k past = some m → m.pool = k ∧ m.member ∈ p.nodes
  up : ∀ m, named k past = some m → m.up = true →
    Evaluated k .grow past ∧ (w.flag m.member .running = false → (p.stats w).idle = 0)
  down : ∀ m, named k past = some m → m.up = false →
    Evaluated k .shrink past ∧ (w.flag m.member .running = true → 2 ≤ (p.stats w).idle)

section Settling

variable {p : ElasticPool n} {k : ℕ} {past : List (Evaluation n)} {w w' : World n}

theorem settling_nil : Settling p k [] w := by
  refine ⟨?_, ?_, nofun, nofun, nofun⟩
  · rintro ⟨e, he, -⟩
    cases he
  · rintro ⟨e, he, -⟩
    cases he

/-- The member named last comes up, or goes down, as it should. -/
theorem Settling.move (h : Settling p k past w) (hnodup : p.nodes.Nodup)
    (hbusy : ∀ i ∈ p.nodes, (w'.flag i .running && w'.flag i .busy) =
      (w.flag i .running && w.flag i .busy))
    (hmoved : ∀ i ∈ p.nodes, w'.flag i .running = w.flag i .running ∨
      ∃ m, named k past = some m ∧ m.member = i ∧ w'.flag i .running = m.up) :
    Settling p k past w' ∧ p.changes w w' + p.excess w' ≤ p.excess w := by
  by_cases hsame : ∀ i ∈ p.nodes, w'.flag i .running = w.flag i .running
  · have hidle := ElasticPool.idle_congr hbusy hsame
    have hchanges := ElasticPool.changes_eq_zero hsame
    refine ⟨⟨?_, ?_, h.mem, ?_, ?_⟩, ?_⟩
    · rw [hidle]
      exact h.grown
    · rw [hidle]
      exact h.shrunk
    · intro m hm
      rw [hidle, hsame _ (h.mem m hm).2]
      exact h.up m hm
    · intro m hm
      rw [hidle, hsame _ (h.mem m hm).2]
      exact h.down m hm
    · rw [hchanges, ElasticPool.excess, ElasticPool.excess, hidle]
      omega
  · push Not at hsame
    obtain ⟨i, hi, hne⟩ := hsame
    obtain ⟨m, hm, rfl, hrunning⟩ := (hmoved i hi).resolve_left hne
    have hothers : ∀ j ∈ p.nodes, j ≠ m.member →
        w'.flag j .running = w.flag j .running := by
      intro j hj hother
      rcases hmoved j hj with hkept | ⟨m', hm', rfl, -⟩
      · exact hkept
      · cases hm.symm.trans hm'
        exact absurd rfl hother
    cases hup : m.up with
    | true =>
        rw [hup] at hrunning
        have hdown : w.flag m.member .running = false := by
          rw [hrunning] at hne
          exact (Bool.not_eq_true _).mp hne.symm
        obtain ⟨hgrown, hidle⟩ := h.up m hm hup
        obtain ⟨hsucc, hchanges, -⟩ :=
          ElasticPool.idle_succ hnodup hi hbusy hdown hrunning hothers
        rw [hidle hdown] at hsucc
        refine ⟨⟨fun hg => ⟨by omega, (h.grown hg).2⟩, fun _ => by omega, h.mem, ?_, ?_⟩, ?_⟩
        · intro m' hm' _
          cases hm.symm.trans hm'
          exact ⟨hgrown, fun hd => absurd (hd.symm.trans hrunning) nofun⟩
        · intro m' hm' hd
          cases hm.symm.trans hm'
          exact absurd (hd.symm.trans hup) nofun
        · rw [hchanges, ElasticPool.excess, ElasticPool.excess, hsucc, hidle hdown]
          simp
    | false =>
        rw [hup] at hrunning
        have hran : w.flag m.member .running = true := by
          rw [hrunning] at hne
          exact (Bool.not_eq_false _).mp hne.symm
        obtain ⟨hshrunk, hidle⟩ := h.down m hm hup
        have htwo := hidle hran
        obtain ⟨hsucc, -, hchanges⟩ :
            (p.stats w).idle = (p.stats w').idle + 1 ∧ p.changes w' w = 1 ∧
              p.changes w w' = 1 :=
          ElasticPool.idle_succ hnodup hi (fun j hj => (hbusy j hj).symm) hrunning hran
            fun j hj hother => (hothers j hj hother).symm
        refine ⟨⟨fun hg => absurd hshrunk (h.grown hg).2, fun _ => by omega, h.mem, ?_, ?_⟩, ?_⟩
        · intro m' hm' hu
          cases hm.symm.trans hm'
          exact absurd (hup.symm.trans hu) nofun
        · intro m' hm' _
          cases hm.symm.trans hm'
          exact ⟨hshrunk, fun hr => absurd (hrunning.symm.trans hr) nofun⟩
        · rw [hchanges, ElasticPool.excess, ElasticPool.excess]
          split <;> split <;> omega

theorem evaluated_cons {e : Evaluation n} {action : ScaleAction} :
    Evaluated k action (e :: past) ↔
      e.pool = k ∧ e.decision = action ∨ Evaluated k action past := by
  simp [Evaluated]

theorem named_cons {e : Evaluation n} :
    named k (e :: past) = if e.pool = k then e.scale.or (named k past) else named k past := by
  unfold named
  rw [List.findSome?_cons]
  by_cases hpool : e.pool = k
  · rw [if_pos hpool, if_pos hpool]
    cases e.scale <;> rfl
  · rw [if_neg hpool, if_neg hpool]

/-- An evaluation of another pool. -/
theorem Settling.skip (h : Settling p k past w) {e : Evaluation n} (hpool : e.pool ≠ k) :
    Settling p k (e :: past) w := by
  have hnamed : named k (e :: past) = named k past := named_cons.trans (if_neg hpool)
  have hev : ∀ action, Evaluated k action (e :: past) ↔ Evaluated k action past := by
    intro action
    simp [evaluated_cons, hpool]
  refine ⟨?_, ?_, ?_, ?_, ?_⟩
  · rw [hev, hev]
    exact h.grown
  · rw [hev]
    exact h.shrunk
  · rw [hnamed]
    exact h.mem
  · rw [hnamed, hev]
    exact h.up
  · rw [hnamed, hev]
    exact h.down

/-- An evaluation of the pool. -/
theorem Settling.record (h : Settling p k past w) {e : Evaluation n} (hpool : e.pool = k)
    (hgrow : e.decision = .grow → (p.stats w).idle = 0)
    (hshrink : e.decision = .shrink → 2 ≤ (p.stats w).idle)
    (hscale : ∀ m, e.scale = some m → m.pool = k ∧ m.member ∈ p.nodes ∧
      e.decision = if m.up then .grow else .shrink) :
    Settling p k (e :: past) w := by
  have hnamed : named k (e :: past) = e.scale.or (named k past) :=
    named_cons.trans (if_pos hpool)
  have hkept : ∀ {action}, Evaluated k action past → Evaluated k action (e :: past) :=
    fun hev => evaluated_cons.mpr (.inr hev)
  have hgrown : Evaluated k .grow (e :: past) → (p.stats w).idle = 0 ∨ Evaluated k .grow past :=
    fun hev => (evaluated_cons.mp hev).imp (fun hd => hgrow hd.2) id
  have hshrunk : Evaluated k .shrink (e :: past) →
      2 ≤ (p.stats w).idle ∨ Evaluated k .shrink past :=
    fun hev => (evaluated_cons.mp hev).imp (fun hd => hshrink hd.2) id
  have hle : Evaluated k .grow (e :: past) → (p.stats w).idle ≤ 1 := by
    intro hev
    rcases hgrown hev with hzero | hold
    · omega
    · exact (h.grown hold).1
  have hge : Evaluated k .shrink (e :: past) → 1 ≤ (p.stats w).idle := by
    intro hev
    rcases hshrunk hev with htwo | hold
    · omega
    · exact h.shrunk hold
  refine ⟨fun hg => ⟨hle hg, fun hs => ?_⟩, hge, fun m hm => ?_, fun m hm hup => ?_,
    fun m hm hdown => ?_⟩
  · have hone := hge hs
    have hone' := hle hg
    rcases hgrown hg with hzero | hold
    · omega
    · rcases hshrunk hs with htwo | hold'
      · omega
      · exact (h.grown hold).2 hold'
  · rw [hnamed] at hm
    rcases Option.or_eq_some_iff.mp hm with he | ⟨-, hm⟩
    · exact ⟨(hscale m he).1, (hscale m he).2.1⟩
    · exact h.mem m hm
  · rw [hnamed] at hm
    rcases Option.or_eq_some_iff.mp hm with he | ⟨-, hm⟩
    · have hdecision := (hscale m he).2.2
      rw [if_pos hup] at hdecision
      exact ⟨evaluated_cons.mpr (.inl ⟨hpool, hdecision⟩), fun _ => hgrow hdecision⟩
    · exact ⟨hkept (h.up m hm hup).1, (h.up m hm hup).2⟩
  · rw [hnamed] at hm
    rcases Option.or_eq_some_iff.mp hm with he | ⟨-, hm⟩
    · have hdecision := (hscale m he).2.2
      rw [hdown, if_neg Bool.false_ne_true] at hdecision
      exact ⟨evaluated_cons.mpr (.inl ⟨hpool, hdecision⟩), fun _ => hshrink hdecision⟩
    · exact ⟨hkept (h.down m hm hdown).1, (h.down m hm hdown).2⟩

end Settling

/-! ## The driver's turn -/

theorem StartEffect.flag_running {w w' : World n} {cfg : NodeCfg n} {j : Fin n} {e : StartEnd n}
    (h : StartEffect cfg w j e w') :
    w'.flag j .running = w.flag j .running ∨ w'.flag j .running = true := by
  cases h with
  | started => exact .inr (by simp)
  | parked hw _ => exact .inl (by simp [hw.flag])
  | faulted hw _ | waits hw =>
      apply Or.inl
      rcases hw with hw | hw <;> simp [hw.flag, Flag.stale]

theorem StartEntry.flag_running {g : Graph n} {w w' : World n} {j : Fin n} {e : StartEnd n}
    (h : StartEntry g w j e w') :
    w'.flag j .running = w.flag j .running ∨ w'.flag j .running = true := by
  cases h with
  | absent => exact .inl rfl
  | gated _ h => simpa using h.flag_running
  | marked => exact .inr (by simp)

theorem World.flag_running_stopNode (w : World n) (cfg : NodeCfg n) (j : Fin n) :
    (w.stopNode cfg j).2.flag j .running = w.flag j .running ∨
      (w.stopNode cfg j).2.flag j .running = false := by
  unfold World.stopNode
  split
  · exact .inl rfl
  · simp only
    split
    · exact .inr (by simp)
    · exact .inl (by simp)

namespace PoolSys

variable {g : PoolGraph n} {s t : PoolSys n}

/-- The member of a turn stays as it is, or goes where the turn wants it. -/
theorem flag_running_drive (hscales : s.Scales g) (h : s.drive g = some t) {m : Scale n}
    (hm : s.scale g = some m) :
    t.world.flag m.member .running = s.world.flag m.member .running ∨
      t.world.flag m.member .running = m.up := by
  cases drive_cases h with
  | @evaluate k now due p hdriver _ hp =>
      have hscale : p.scale g.toGraph k s.world (s.pending k) now = some m := by
        rw [← hm]
        simp [scale, hdriver, hp]
      have hworld : (s.drivePool g p k now due).world = _ := (drivePool_eq rfl).1
      rw [hworld]
      cases haction : ((p.stats s.world).decide p.cooldown (s.pending k) now).1 with
      | none =>
          rw [ElasticPool.scale_none haction] at hscale
          cases hscale
      | grow =>
          rw [ElasticPool.scale_grow haction] at hscale
          obtain ⟨j, hspare, hj⟩ := Option.bind_eq_some_iff.mp hscale
          obtain ⟨hlet, heq⟩ := Option.ite_none_right_eq_some.mp hj
          cases heq
          rw [begin_grow hp]
          simp only [hspare, if_pos hlet]
          exact (startNode_cases g.toGraph s.world j).flag_running
      | shrink =>
          rw [ElasticPool.scale_shrink haction] at hscale
          obtain ⟨j, hsurplus, rfl⟩ := Option.map_eq_some_iff.mp hscale
          unfold ElasticPool.surplus at hsurplus
          simp only [Graph.begin, getElem?_pools hp, hsurplus]
          split
          · exact .inl rfl
          · next cfg hcfg =>
              have hflag := s.world.flag_running_stopNode cfg j
              cases hentry : s.world.stopNode cfg j with
              | mk d w' =>
                  rw [hentry] at hflag
                  cases d <;> exact hflag
  | @carries k now due c c' w hdriver hstep =>
      have hscale : c.scale k = some m := by
        rw [← hm]
        simp [scale, hdriver]
      cases hscales k now due c hdriver with
      | done r => cases hscale
      | startNode =>
          cases hscale
          cases Call.step_cases hstep with
          | startNode _ heffect => exact heffect.flag_running
      | stopNode j deadline =>
          cases hscale
          cases Call.step_cases hstep with
          | ackNode => exact .inr (by simp [world])
          | missNode => exact .inl (by simp [world])
  | parks hdriver hover =>
      simp [scale, hdriver, hover] at hm
  | never | wakes | returns | ends => exact .inl rfl

theorem pool_of_scale {c : Call n} {k : ℕ} {m : Scale n} (h : c.scale k = some m) :
    m.pool = k := by
  unfold Call.scale at h
  split at h <;> cases h <;> rfl

/-- The evaluation a step makes is of the pool whose turn it is. -/
theorem record_cases {l : Label n} {e : Evaluation n} (h : s.record g l = some e) :
    l = .drive ∧ ∃ now due p, s.driver = .pass e.pool now due ∧ g.elastic[e.pool]? = some p ∧
      e.instant = s.world.now ∧ e.stats = p.stats s.world ∧
      e.decision = ((p.stats s.world).decide p.cooldown (s.pending e.pool) now).1 ∧
      e.scale = s.scale g := by
  cases l with
  | sys | control => cases h
  | drive =>
      simp only [record] at h
      split at h
      · next k now due hdriver =>
          obtain ⟨p, hp, rfl⟩ := Option.map_eq_some_iff.mp h
          exact ⟨rfl, now, due, p, hdriver, hp, rfl, rfl, rfl, rfl⟩
      all_goals cases h

/-- An evaluation that names a member decided to grow or to shrink. -/
theorem decision_of_scale {k : ℕ} {p : ElasticPool n} {w : World n} {pending : Option ℕ}
    {now : ℕ} {m : Scale n} (h : p.scale g.toGraph k w pending now = some m) :
    ((p.stats w).decide p.cooldown pending now).1 = if m.up then .grow else .shrink := by
  cases haction : ((p.stats w).decide p.cooldown pending now).1 with
  | none =>
      rw [ElasticPool.scale_none haction] at h
      cases h
  | grow =>
      rw [ElasticPool.scale_grow haction] at h
      obtain ⟨j, -, hj⟩ := Option.bind_eq_some_iff.mp h
      obtain ⟨-, heq⟩ := Option.ite_none_right_eq_some.mp hj
      cases heq
      rfl
  | shrink =>
      rw [ElasticPool.scale_shrink haction] at h
      obtain ⟨j, -, rfl⟩ := Option.map_eq_some_iff.mp h
      rfl

end PoolSys

namespace PoolHistory

open PoolSys

variable {g : PoolGraph n} {k bound : ℕ} {p : ElasticPool n} {h t : PoolHistory n}
  {l : PoolSys.Label n} {labels : List (PoolSys.Label n)}

/-- The invariant of a steady pool. -/
structure Settles (g : PoolGraph n) (k bound : ℕ) (p : ElasticPool n) (h : PoolHistory n) :
    Prop where
  scales : h.sys.Scales g
  settling : Settling p k h.evaluations h.sys.world
  moves : h.moves k + p.excess h.sys.world ≤ bound
  turn : ∀ now due c m, h.sys.driver = .scaling k now due c → h.sys.scale g = some m →
    named k h.evaluations = some m

/-- The turn is the pool's, and about a member. -/
def Own (g : PoolGraph n) (k : ℕ) (h : PoolHistory n) (l : PoolSys.Label n) (m : Scale n) : Prop :=
  l = .drive ∧ h.sys.scale g = some m ∧ m.pool = k

theorem settling_record (hp : g.elastic[k]? = some p)
    (hs : Settling p k h.evaluations h.sys.world) :
    Settling p k ((h.sys.record g l).toList ++ h.evaluations) h.sys.world := by
  cases hrecord : h.sys.record g l with
  | none => exact hs
  | some e =>
      obtain ⟨-, now, due, q, hdriver, hq, -, -, hdecision, hscale⟩ := record_cases hrecord
      by_cases hpool : e.pool = k
      · subst hpool
        cases hp.symm.trans hq
        refine hs.record rfl (fun hd => ?_) (fun hd => ?_) fun m hm => ?_
        · exact (PoolStats.decide_eq_grow.mp (hdecision.symm.trans hd)).1
        · exact PoolStats.idle_of_decide_eq_shrink (hdecision.symm.trans hd)
        · have hnames : p.scale g.toGraph e.pool h.sys.world (h.sys.pending e.pool) now =
              some m := by
            rw [← hm, hscale]
            simp [scale, hdriver, hq]
          obtain ⟨hpool, hfits⟩ := fits_of_scale hnames
          exact ⟨hpool, hfits.mem, hdecision.trans (decision_of_scale hnames)⟩
      · exact hs.skip hpool

/-- What the pool's own turn is about is what it has named last. -/
theorem named_of_own (hs : Settles g k bound p h) {m : Scale n} (hm : h.Own g k l m) :
    named k ((h.sys.record g l).toList ++ h.evaluations) = some m := by
  obtain ⟨rfl, hscale, rfl⟩ := hm
  cases hdriver : h.sys.driver with
  | pass i now due =>
      obtain ⟨q, hq, hnames⟩ :
          ∃ q, g.elastic[i]? = some q ∧
            q.scale g.toGraph i h.sys.world (h.sys.pending i) now = some m := by
        rw [scale, hdriver] at hscale
        exact Option.bind_eq_some_iff.mp hscale
      obtain ⟨rfl, -⟩ := fits_of_scale hnames
      have hrecord : ∃ e, h.sys.record g .drive = some e ∧ e.pool = m.pool ∧
          e.scale = some m := by
        simp [record, hdriver, hq, hscale]
      obtain ⟨e, hrecord, hpool, he⟩ := hrecord
      rw [hrecord, Option.toList_some, List.singleton_append, named_cons, if_pos hpool, he,
        Option.some_or]
  | scaling i now due c =>
      have hc : c.scale i = some m := by
        rw [← hscale]
        simp [scale, hdriver]
      obtain rfl := pool_of_scale hc
      have hrecord : h.sys.record g .drive = none := by simp [record, hdriver]
      rw [hrecord]
      exact hs.turn now due c m hdriver hscale
  | park | never | control | ended => simp [scale, hdriver] at hscale

/-- Otherwise the pool names nothing new. -/
theorem named_of_not_own (hnot : ¬ ∃ m, h.Own g k l m) :
    named k ((h.sys.record g l).toList ++ h.evaluations) = named k h.evaluations := by
  cases hrecord : h.sys.record g l with
  | none => rfl
  | some e =>
      obtain ⟨hl, now, due, q, hdriver, hq, -, -, -, hscale⟩ := record_cases hrecord
      rw [Option.toList_some, List.singleton_append, named_cons]
      split
      · next hpool =>
          cases he : e.scale with
          | none => rfl
          | some m =>
              rw [he] at hscale
              have hnames : q.scale g.toGraph e.pool h.sys.world (h.sys.pending e.pool) now =
                  some m := by
                rw [hscale]
                simp [scale, hdriver, hq]
              exact absurd ⟨m, hl, hscale.symm, (fits_of_scale hnames).1.trans hpool⟩ hnot
      · rfl

theorem settles_next (hp : g.elastic[k]? = some p) (hs : Settles g k bound p h)
    (hsteady : h.Steady g k p l) (hnext : h.next g l = some t) : Settles g k bound p t := by
  have hall := hsteady t hnext
  obtain ⟨u, hu, rfl⟩ := Option.map_eq_some_iff.mp hnext
  have hnodup := g.nodup p (List.mem_of_getElem? hp)
  have hmoved : ∀ i ∈ p.nodes, u.world.flag i .running = h.sys.world.flag i .running ∨
      ∃ m, named k ((h.sys.record g l).toList ++ h.evaluations) = some m ∧ m.member = i ∧
        u.world.flag i .running = m.up := by
    intro i hi
    by_cases hown : ∃ m, h.Own g k l m
    · obtain ⟨m, hm⟩ := hown
      have hnamed := named_of_own hs hm
      obtain ⟨rfl, hscale, -⟩ := hm
      have hdrive := drive_of_next hu
      by_cases hmember : m.member = i
      · subst hmember
        exact (flag_running_drive hs.scales hdrive hscale).imp id fun hup => ⟨m, hnamed, rfl, hup⟩
      · apply Or.inl
        apply flag_drive hs.scales hdrive
        intro m' hm'
        cases hscale.symm.trans hm'
        exact Ne.symm hmember
    · rcases (hall i hi).2 with hsame | ⟨hl, m, hscale, hk⟩ | ⟨hnamed, hdown⟩
      · exact .inl hsame
      · exact absurd ⟨m, hl, hscale, hk⟩ hown
      · exact .inr ⟨⟨k, i, false⟩, (named_of_not_own hown).trans hnamed, rfl, hdown⟩
  have hrecord := settling_record (l := l) hp hs.settling
  obtain ⟨hsettling, hchanges⟩ :
      Settling p k ((h.sys.record g l).toList ++ h.evaluations) u.world ∧
        p.changes h.sys.world u.world + p.excess u.world ≤ p.excess h.sys.world :=
    hrecord.move hnodup (fun i hi => (hall i hi).1) hmoved
  refine ⟨scales_next hs.scales hu, hsettling, ?_, ?_⟩
  · have hmoves := hs.moves
    simp only [hp, Option.elim_some]
    show h.moves k + p.changes h.sys.world u.world + p.excess u.world ≤ bound
    omega
  · intro now due c m hdriver hscale
    have hc : c.scale k = some m := by
      rw [← hscale]
      simp only at hdriver
      simp [scale, hdriver]
    cases PoolSys.next_cases hu with
    | drive _ hdrive =>
        have hkept := scale_drive hs.scales hdrive hdriver
        exact named_of_own hs ⟨rfl, hkept.symm.trans hscale, pool_of_scale hc⟩
    | sys =>
        refine hs.turn now due c m hdriver ?_
        rw [← hc]
        simp only at hdriver
        simp [scale, hdriver]
    | control => cases hdriver

/-- **A steady pool settles.** It does not both grow and shrink, and moves its excess at
most. -/
theorem settles {s : PoolSys n} (hp : g.elastic[k]? = some p) (hscales : s.Scales g)
    (hidle : ∀ now due c, s.driver ≠ .scaling k now due c)
    (hsteady : Along (next g) (fun h l => h.Steady g k p l) { sys := s } labels)
    (hrun : exec (next g) { sys := s } labels = some t) :
    ¬ (Evaluated k .grow t.evaluations ∧ Evaluated k .shrink t.evaluations) ∧
      t.moves k + p.excess t.sys.world ≤ p.excess s.world := by
  have hinv : Settles g k (p.excess s.world) p t := by
    refine exec_invariant_along (fun u l v hu hl hnext => settles_next hp hu hl hnext) ?_
      hsteady hrun
    exact ⟨hscales, settling_nil, by simp, fun now due c m h => absurd h (hidle now due c)⟩
  exact ⟨fun ⟨hg, hs⟩ => (hinv.settling.grown hg).2 hs, hinv.moves⟩

end PoolHistory

end EmbassySupervisor
