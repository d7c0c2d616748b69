/-
# Windows along a dependency order

A point opens once all its dependencies have closed, and stays open for its span at the longest.
Then no point is open past `latest`, which is computed in one sweep; where stamps are exact it is
the longest chain of spans that ends in the point.

Time passes in ticks, and stamps and spans count units of a coarser clock: `tick` is the first
tick of a unit, `clock` the unit of a tick, and the two form a Galois connection.
-/

import EmbassySupervisor.Lib.DependencyOrder
import Mathlib.Algebra.GroupWithZero.Nat
import Mathlib.Order.Bounds.Basic
import Mathlib.Order.GaloisConnection.Basic
import Mathlib.Data.List.Chain

namespace CriticalPath

open DependencyOrder

universe u v

variable {α : Type u} {T : Type v} [DecidableEq α]

/-! ## The table read backwards -/

/-- The points that depend on a point. -/
def dependents (points : List α) (deps : α → List α) (j : α) : List α :=
  points.filter fun k => j ∈ deps k

theorem mem_dependents {points : List α} {deps : α → List α} {j k : α} :
    k ∈ dependents points deps j ↔ k ∈ points ∧ j ∈ deps k := by
  simp [dependents]

/-- An order read backwards is one of the dependents. -/
theorem topological_dependents {deps : α → List α} {order : List α}
    (h : TopologicalOrder deps order) (points : List α) :
    TopologicalOrder (dependents points deps) order.reverse where
  nodup := List.nodup_reverse.mpr h.nodup
  complete j := List.mem_reverse.mpr (h.complete j)
  sorted := List.pairwise_reverse.mpr
    (h.sorted.imp fun hlater hmem => hlater (mem_dependents.mp hmem).2)
  irrefl j hmem := h.irrefl j (mem_dependents.mp hmem).2

/-! ## The latest closing times -/

/-- When the last of the points has closed, if they close at `close`. -/
def lastClose (round : ℕ → ℕ) (close : α → ℕ) (ds : List α) : ℕ :=
  ds.foldr (fun d m => max (round (close d)) m) 0

/-- When the points have closed at the latest. -/
def latest (round : ℕ → ℕ) (span : α → ℕ) (deps : α → List α) (order : List α) : α → ℕ :=
  sweep (fun j close => lastClose round close (deps j) + span j) order fun _ => 0

section LastClose

variable {round : ℕ → ℕ} {close close' : α → ℕ} {ds : List α}

omit [DecidableEq α] in
theorem round_le_lastClose {d : α} (hd : d ∈ ds) : round (close d) ≤ lastClose round close ds := by
  induction ds with
  | nil => cases hd
  | cons e ds ih =>
      show round (close d) ≤ max (round (close e)) (lastClose round close ds)
      rcases List.mem_cons.mp hd with rfl | hd
      · exact le_max_left _ _
      · exact (ih hd).trans (le_max_right _ _)

omit [DecidableEq α] in
/-- It is one of them, if there is one. -/
theorem lastClose_cases (round : ℕ → ℕ) (close : α → ℕ) (ds : List α) :
    lastClose round close ds = 0 ∨ ∃ d ∈ ds, lastClose round close ds = round (close d) := by
  induction ds with
  | nil => exact Or.inl rfl
  | cons e ds ih =>
      have hcons : lastClose round close (e :: ds) =
          max (round (close e)) (lastClose round close ds) := rfl
      rw [hcons]
      rcases le_total (lastClose round close ds) (round (close e)) with hle | hle
      · rw [max_eq_left hle]
        exact Or.inr ⟨e, List.mem_cons_self, rfl⟩
      · rw [max_eq_right hle]
        rcases ih with hzero | ⟨d, hd, heq⟩
        · exact Or.inl hzero
        · exact Or.inr ⟨d, List.mem_cons_of_mem e hd, heq⟩

omit [DecidableEq α] in
theorem lastClose_congr (h : ∀ d ∈ ds, close d = close' d) :
    lastClose round close ds = lastClose round close' ds := by
  induction ds with
  | nil => rfl
  | cons e ds ih =>
      show max (round (close e)) (lastClose round close ds) =
        max (round (close' e)) (lastClose round close' ds)
      rw [h e List.mem_cons_self, ih fun d hd => h d (List.mem_cons_of_mem e hd)]

end LastClose

section Latest

variable {round : ℕ → ℕ} {span : α → ℕ} {deps : α → List α} {order : List α}

theorem latest_apply (h : TopologicalOrder deps order) (j : α) :
    latest round span deps order j =
      lastClose round (latest round span deps order) (deps j) + span j := by
  have hlocal : ∀ i (s t : α → ℕ), (∀ d ∈ deps i, s d = t d) → s i = t i →
      lastClose round s (deps i) + span i = lastClose round t (deps i) + span i :=
    fun i s t hdeps _ => congrArg (· + span i) (lastClose_congr hdeps)
  have hsolved := sweep_apply h hlocal (fun _ => 0) j
  rw [latest, hsolved]
  refine congrArg (· + span j) (lastClose_congr fun d hd => ?_)
  have hne : d ≠ j := by
    rintro rfl
    exact h.irrefl d hd
  rw [Function.update_of_ne hne]

/-- **No chain is longer.** The spans along a chain of dependencies add up to no more than the
time its last point has. -/
theorem sum_chain_le (h : TopologicalOrder deps order) (hround : ∀ m, m ≤ round m)
    (path : List α) (j : α) (hchain : (path ++ [j]).IsChain fun d j => d ∈ deps j) :
    ((path ++ [j]).map span).sum ≤ latest round span deps order j := by
  induction path using List.reverseRecOn generalizing j with
  | nil =>
      rw [latest_apply h]
      simp
  | append_singleton path d ih =>
      have hcut := List.isChain_append.mp hchain
      have hd : d ∈ deps j := hcut.2.2 d (by simp) j (by simp)
      have hbefore := ih d hcut.1
      have hlate := (hround (latest round span deps order d)).trans (round_le_lastClose hd)
      rw [latest_apply h]
      simp only [List.map_append, List.sum_append, List.map_cons, List.map_nil, List.sum_cons,
        List.sum_nil] at hbefore ⊢
      omega

variable (span) in
/-- **Some chain is as long**, where stamps are exact. -/
theorem exists_sum_chain (h : TopologicalOrder deps order) (hround : ∀ m, round m = m) (j : α) :
    ∃ path : List α, (path ++ [j]).IsChain (fun d j => d ∈ deps j) ∧
      ((path ++ [j]).map span).sum = latest round span deps order j := by
  induction j using h.wellFounded.induction with
  | h j ih =>
      rcases lastClose_cases round (latest round span deps order) (deps j) with
        hzero | ⟨d, hd, hopen⟩
      · refine ⟨[], List.isChain_singleton j, ?_⟩
        rw [latest_apply h, hzero]
        simp
      · obtain ⟨path, hchain, hsum⟩ := ih d hd
        refine ⟨path ++ [d], List.isChain_append.mpr ⟨hchain, List.isChain_singleton j, ?_⟩, ?_⟩
        · intro x hx y hy
          rw [List.getLast?_concat, Option.mem_some_iff] at hx
          rw [List.head?_cons, Option.mem_some_iff] at hy
          subst hx hy
          exact hd
        · rw [latest_apply h, hopen, hround, ← hsum]
          simp [Nat.add_assoc]

omit [DecidableEq α] in
/-- A chain stays among points that hold their dependencies. -/
theorem mem_of_isChain {points : List α} (hdeps : ∀ j, ∀ d ∈ deps j, d ∈ points)
    (path : List α) (j : α) (hchain : (path ++ [j]).IsChain fun d j => d ∈ deps j)
    {d : α} (hd : d ∈ path) : d ∈ points := by
  induction path using List.reverseRecOn generalizing j with
  | nil => cases hd
  | append_singleton path e ih =>
      have hcut := List.isChain_append.mp hchain
      rcases List.mem_append.mp hd with hd | hd
      · exact ih e hcut.1 hd
      · rw [List.mem_singleton.mp hd]
        exact hdeps j e (hcut.2.2 e (by simp) j (by simp))

end Latest

/-! ## The makespan -/

section Makespan

variable [Preorder T] {tick : ℕ → T} {round : ℕ → ℕ} {span : α → ℕ} {deps : α → List α}
  {order points : List α}

/-- When all of the points have closed at the latest. -/
def makespan (tick : ℕ → T) (round : ℕ → ℕ) (span : α → ℕ) (deps : α → List α)
    (order points : List α) : T :=
  tick (lastClose id (latest round span deps order) points)

theorem tick_latest_le_makespan (htick : Monotone tick) {j : α} (hj : j ∈ points) :
    tick (latest round span deps order j) ≤ makespan tick round span deps order points :=
  htick (show id (latest round span deps order j) ≤ _ from round_le_lastClose hj)

/-- **The makespan is the longest chain of spans**, where stamps are exact. -/
theorem isGreatest_makespan (h : TopologicalOrder deps order) (htick : Monotone tick)
    (hround : ∀ m, round m = m) (hdeps : ∀ j, ∀ d ∈ deps j, d ∈ points) :
    IsGreatest {t | ∃ path : List α, (∀ j ∈ path, j ∈ points) ∧
      path.IsChain (fun d j => d ∈ deps j) ∧ t = tick (path.map span).sum}
      (makespan tick round span deps order points) := by
  constructor
  · rcases lastClose_cases id (latest round span deps order) points with hzero | ⟨j, hj, hlast⟩
    · refine ⟨[], by simp, List.isChain_nil, ?_⟩
      rw [makespan, hzero]
      rfl
    · obtain ⟨path, hchain, hsum⟩ := exists_sum_chain span h hround j
      refine ⟨path ++ [j], fun d hd => ?_, hchain, ?_⟩
      · rcases List.mem_append.mp hd with hd | hd
        · exact mem_of_isChain hdeps path j hchain hd
        · rwa [List.mem_singleton.mp hd]
      · rw [makespan, hlast, hsum]
        rfl
  · rintro t ⟨path, hpoints, hchain, rfl⟩
    rcases List.eq_nil_or_concat path with rfl | ⟨path, j, rfl⟩
    · exact htick (Nat.zero_le _)
    · rw [List.concat_eq_append] at hpoints hchain ⊢
      exact (htick (sum_chain_le h (fun m => (hround m).ge) path j hchain)).trans
        (tick_latest_le_makespan htick (hpoints j (by simp)))

end Makespan

/-! ## Points that open and close -/

/-- Nothing is late: the stamps are in time, and no point is open past its latest closing. -/
structure InTime [Preorder T] (tick : ℕ → T) (clock : T → ℕ) (span : α → ℕ)
    (deps : α → List α) (order : List α) (isOpen opened : α → Prop) (stamp : α → ℕ) (now : T) :
    Prop where
  stamped : ∀ j, isOpen j → opened j → stamp j ≤
    lastClose (clock ∘ tick) (latest (clock ∘ tick) span deps order) (deps j)
  closing : ∀ j, isOpen j → now ≤ tick (latest (clock ∘ tick) span deps order j)
  waiting : ∀ j, isOpen j → ¬opened j → clock now ≤
    lastClose (clock ∘ tick) (latest (clock ∘ tick) span deps order) (deps j)

namespace InTime

variable [Preorder T] {tick : ℕ → T} {clock : T → ℕ} {span : α → ℕ} {deps : α → List α}
  {order : List α} {isOpen opened : α → Prop} {stamp : α → ℕ} {now : T}

theorem start (hnow : ∀ m, now ≤ tick m) (hclock : clock now = 0) (hnone : ∀ j, ¬opened j) :
    InTime tick clock span deps order isOpen opened stamp now where
  stamped j _ hj := absurd hj (hnone j)
  closing _ _ := hnow _
  waiting _ _ _ := hclock.le.trans (Nat.zero_le _)

/-- Points close, and what becomes of the stamp of a closed point does not matter. -/
theorem closes {isOpen' opened' : α → Prop} {stamp' : α → ℕ}
    (h : InTime tick clock span deps order isOpen opened stamp now)
    (hopen : ∀ j, isOpen' j → isOpen j ∧ (opened' j ↔ opened j) ∧ stamp' j = stamp j) :
    InTime tick clock span deps order isOpen' opened' stamp' now where
  stamped j hj hopened := by
    obtain ⟨hbefore, hsame, hstamp⟩ := hopen j hj
    rw [hstamp]
    exact h.stamped j hbefore (hsame.mp hopened)
  closing j hj := h.closing j (hopen j hj).1
  waiting j hj hno := h.waiting j (hopen j hj).1 (mt (hopen j hj).2.1.mpr hno)

/-- A point opens. -/
theorem opens (h : InTime tick clock span deps order isOpen opened stamp now) {j : α} {m : ℕ}
    {opened' : α → Prop} (hfresh : ¬opened j) (hm : m ≤ clock now)
    (hopened : ∀ i, i ≠ j → (opened' i ↔ opened i)) (hself : opened' j) :
    InTime tick clock span deps order isOpen opened' (Function.update stamp j m) now where
  stamped i hi hi' := by
    by_cases hij : i = j
    · subst hij
      rw [Function.update_self]
      exact hm.trans (h.waiting i hi hfresh)
    · rw [Function.update_of_ne hij]
      exact h.stamped i hi ((hopened i hij).mp hi')
  closing := h.closing
  waiting i hi hno := by
    by_cases hij : i = j
    · subst hij
      exact absurd hself hno
    · exact h.waiting i hi fun hopen => hno ((hopened i hij).mpr hopen)

/-- **Time passes** while every open point is within its span or waits for an open
dependency. -/
theorem elapse (h : InTime tick clock span deps order isOpen opened stamp now)
    (htopological : TopologicalOrder deps order) (hgalois : GaloisConnection tick clock)
    {now' : T} (hopen : ∀ j, isOpen j → opened j ∧ now' ≤ tick (stamp j + span j) ∨
      ¬opened j ∧ ∃ d ∈ deps j, isOpen d) :
    InTime tick clock span deps order isOpen opened stamp now' := by
  have hround : ∀ m, m ≤ clock (tick m) := hgalois.le_u_l
  let close := latest (clock ∘ tick) span deps order
  have hopening : ∀ j, ∀ d ∈ deps j, (clock ∘ tick) (close d) ≤
      lastClose (clock ∘ tick) close (deps j) := fun j d hd => round_le_lastClose hd
  have hclosing : ∀ j, isOpen j → now' ≤ tick (close j) := by
    intro j
    induction j using htopological.wellFounded.induction with
    | h j ih =>
        intro hj
        have happly : close j = lastClose (clock ∘ tick) close (deps j) + span j :=
          latest_apply htopological j
        rcases hopen j hj with ⟨hopened, hnow⟩ | ⟨-, d, hd, hdopen⟩
        · apply hnow.trans (hgalois.monotone_l _)
          rw [happly]
          exact Nat.add_le_add_right (h.stamped j hj hopened) _
        · apply (ih d hd hdopen).trans (hgalois.monotone_l _)
          rw [happly]
          exact (hround _).trans ((hopening j d hd).trans (Nat.le_add_right _ _))
  refine ⟨h.stamped, hclosing, fun j hj hfresh => ?_⟩
  rcases hopen j hj with ⟨hopened, -⟩ | ⟨-, d, hd, hdopen⟩
  · exact absurd hopened hfresh
  · exact (hgalois.monotone_u (hclosing d hdopen)).trans (hopening j d hd)

/-- A point that has opened has to close in time. -/
theorem stamp_le (h : InTime tick clock span deps order isOpen opened stamp now)
    (htopological : TopologicalOrder deps order) {j : α} (hj : isOpen j) (hopened : opened j) :
    stamp j + span j ≤ latest (clock ∘ tick) span deps order j := by
  rw [latest_apply htopological]
  exact Nat.add_le_add_right (h.stamped j hj hopened) _

end InTime

end CriticalPath
