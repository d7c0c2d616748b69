/-
# Elastic pools and when they grow

An elastic pool counts its running members and the busy ones among them, and its policy
decides from the counts. `DeferredShrink` grows at once and shrinks after a cooldown, so
whether a pool grows does not depend on the time: `wouldStart` says that an evaluation
would start a member whose dependencies are running and ready.

A member that runs idle closes its pool (`wouldStart_of_idle`).
-/

import EmbassySupervisor.Verb.Call

namespace EmbassySupervisor

variable {n : ℕ}

/-- Snapshot of a pool's current load. -/
structure PoolStats where
  running : ℕ
  busy : ℕ
  min : ℕ
  max : ℕ
  deriving DecidableEq, Repr

namespace PoolStats

/-- Number of running members that are not busy. -/
def idle (s : PoolStats) : ℕ := s.running - s.busy

/-- The decision of `DeferredShrink`, and the deadline it keeps for a shrink. -/
def decide (s : PoolStats) (cooldown : ℕ) (pending : Option ℕ) (now : ℕ) :
    ScaleAction × Option ℕ :=
  if s.idle = 0 ∧ s.running < s.max then (.grow, none)
  else if 2 ≤ s.idle ∧ s.min < s.running then
    match pending with
    | none => (.none, some (now + cooldown))
    | some deadline =>
      if deadline ≤ now then (.shrink, if 3 ≤ s.idle then some (now + cooldown) else none)
      else (.none, pending)
  else (.none, none)

/-- The policy grows whenever no running member is idle and there is room for another. -/
theorem decide_eq_grow {s : PoolStats} {cooldown : ℕ} {pending : Option ℕ} {now : ℕ} :
    (s.decide cooldown pending now).1 = .grow ↔ s.idle = 0 ∧ s.running < s.max := by
  unfold decide
  by_cases hgrow : s.idle = 0 ∧ s.running < s.max
  · simp [hgrow]
  · rw [if_neg hgrow]
    refine ⟨fun h => ?_, fun h => absurd h hgrow⟩
    split at h
    · split at h
      · cases h
      · split at h <;> cases h
    · cases h

/-- It shrinks only while there are two idle members and more running than the pool keeps. -/
theorem surplus_of_decide_eq_shrink {s : PoolStats} {cooldown : ℕ} {pending : Option ℕ}
    {now : ℕ} (h : (s.decide cooldown pending now).1 = .shrink) :
    2 ≤ s.idle ∧ s.min < s.running := by
  unfold decide at h
  split at h
  · cases h
  · split at h
    · next hsurplus => exact hsurplus
    · cases h

theorem idle_of_decide_eq_shrink {s : PoolStats} {cooldown : ℕ} {pending : Option ℕ} {now : ℕ}
    (h : (s.decide cooldown pending now).1 = .shrink) : 2 ≤ s.idle :=
  (surplus_of_decide_eq_shrink h).1

end PoolStats

/-- Action the supervisor should take for a pool member. -/
inductive PoolAction (n : ℕ)
  | none
  | start (j : Fin n)
  | stop (j : Fin n)
  deriving DecidableEq, Repr

/-- An elastic pool under a `DeferredShrink` with the given cooldown. -/
structure ElasticPool (n : ℕ) where
  nodes : List (Fin n)
  min : ℕ
  max : ℕ
  cooldown : ℕ

namespace ElasticPool

variable (p : ElasticPool n) (g : Graph n) (w : World n)

def stats : PoolStats where
  running := p.nodes.countP fun j => w.flag j .running
  busy := p.nodes.countP fun j => w.flag j .running && w.flag j .busy
  min := p.min
  max := p.max

/-- The member a growth starts. -/
def spare : Option (Fin n) :=
  g.poolMember p.nodes fun j =>
    !w.flag j .running && !w.flag j .disabled && !w.flag j .collateral

/-- The member a shrink stops. -/
def surplus : Option (Fin n) :=
  g.poolMember p.nodes fun j => w.flag j .running && !w.flag j .busy

/-- Run the policy and report the action to apply, with the deadline the policy keeps. -/
def evaluate (pending : Option ℕ) (now : ℕ) : PoolAction n × Option ℕ :=
  let (action, pending) := (p.stats w).decide p.cooldown pending now
  match action with
  | .grow => ((p.spare g w).elim .none .start, pending)
  | .shrink => ((p.surplus g w).elim .none .stop, pending)
  | .none => (.none, pending)

end ElasticPool

/-- The two checks the pool driver makes before it starts a member. -/
def Graph.admits (g : Graph n) (w : World n) (j : Fin n) : Bool :=
  g.depsRunning w j && (g.nodes j).any (w.depsReady ·)

namespace ElasticPool

variable {p : ElasticPool n} {g : Graph n} {w : World n}

/-- An evaluation would start a member, and the driver would let it. -/
def wouldStart (p : ElasticPool n) (g : Graph n) (w : World n) : Bool :=
  (p.stats w).idle == 0 && decide ((p.stats w).running < p.max) &&
    (p.spare g w).any (g.admits w)

theorem mem_of_spare {j : Fin n} (h : p.spare g w = some j) :
    j ∈ p.nodes ∧ g.occupied j = true := by
  refine ⟨List.mem_of_find?_eq_some h, ?_⟩
  have hpick := List.find?_some h
  obtain ⟨hmode, -⟩ := Bool.and_eq_true_iff.mp hpick
  obtain ⟨cfg, hcfg, -⟩ := (Option.any_eq_true _ _).mp hmode
  simp [Graph.occupied, hcfg]

theorem wouldStart_iff {pending : Option ℕ} {now : ℕ} :
    p.wouldStart g w = true ↔
      ∃ j, (p.evaluate g w pending now).1 = .start j ∧ g.admits w j = true := by
  have hgrow := @PoolStats.decide_eq_grow (p.stats w) p.cooldown pending now
  unfold evaluate
  cases haction : ((p.stats w).decide p.cooldown pending now).1 with
  | grow =>
      have hroom := hgrow.mp haction
      simp only [haction]
      cases hspare : p.spare g w with
      | none => simp [wouldStart, hspare]
      | some j =>
          have hmax : (p.stats w).running < p.max := hroom.2
          simp [wouldStart, hspare, hroom.1, hmax]
  | shrink | none =>
      have hroom : ¬ ((p.stats w).idle = 0 ∧ (p.stats w).running < p.max) := fun h => by
        rw [hgrow.mpr h] at haction
        cases haction
      simp only [haction]
      cases p.surplus g w <;> simp_all [wouldStart]

/-- The running members are the busy and the idle ones. -/
theorem idle_stats :
    (p.stats w).idle = p.nodes.countP fun j => w.flag j .running && !w.flag j .busy := by
  have hsplit := List.countP_eq_countP_filter_add p.nodes (fun j => w.flag j .running)
    fun j => w.flag j .busy
  simp only [List.countP_filter] at hsplit
  simp only [stats, PoolStats.idle]
  omega

theorem wouldStart_of_idle_pos (hidle : 0 < (p.stats w).idle) : p.wouldStart g w = false := by
  have hne : ((p.stats w).idle == 0) = false := by
    rw [beq_eq_false_iff_ne]
    omega
  simp [wouldStart, hne]

/-- A pool with an idle running member does not grow. -/
theorem wouldStart_of_idle {j : Fin n} (hj : j ∈ p.nodes) (hrunning : w.flag j .running = true)
    (hbusy : w.flag j .busy = false) : p.wouldStart g w = false := by
  apply wouldStart_of_idle_pos
  rw [idle_stats, List.countP_pos_iff]
  exact ⟨j, hj, by simp [hrunning, hbusy]⟩

/-- Nor does one whose policy does not ask for it. -/
theorem wouldStart_of_decide_ne_grow {pending : Option ℕ} {now : ℕ}
    (h : ((p.stats w).decide p.cooldown pending now).1 ≠ .grow) :
    p.wouldStart g w = false := by
  rw [Ne, PoolStats.decide_eq_grow] at h
  by_contra hstart
  simp only [wouldStart, Bool.not_eq_false, Bool.and_eq_true, beq_iff_eq,
    decide_eq_true_eq] at hstart
  exact h hstart.1

end ElasticPool

end EmbassySupervisor
