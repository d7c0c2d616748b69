/-
# The passes compute reachability

What the one-pass closures of the control verbs come to, as relations on the
graph: the set `deactivate` and `restart` act on is what reaches the seed, the
set `activate` enables is what the seed reaches, and the slots its second pass
finds held are those that reach a disabled node. Paths run through occupied
slots that are not detached.
-/

import EmbassySupervisor.Verb.Begin

namespace EmbassySupervisor

open DependencyOrder

variable {n : ℕ} {g : Graph n} {w : World n}

/-- Control passes through the slot: it is occupied and not detached. -/
def World.Passes (g : Graph n) (w : World n) (j : Fin n) : Prop :=
  g.occupied j = true ∧ w.flag j .detached = false

/-- Some seed is reachable from the slot, through slots that control passes. -/
abbrev ReachesSeed (g : Graph n) (w : World n) (seed : Fin n → Bool) : Fin n → Prop :=
  Reaches (World.Passes g w) g.deps fun j => seed j = true

/-- The target, or a member of a pool the target is a member of. -/
def Graph.InSeed (g : Graph n) (target j : Fin n) : Prop :=
  j = target ∨ ∃ members ∈ g.pools, target ∈ members ∧ j ∈ members

theorem seed_iff (hocc : g.AllOccupied) (target j : Fin n) :
    g.seed target j = true ↔ g.InSeed target j := by
  simp only [Graph.InSeed, Graph.seed, hocc j, Bool.true_and, Bool.or_eq_true, beq_iff_eq,
    Bool.and_eq_true, List.any_eq_true, List.contains_iff_mem]
  refine or_congr Iff.rfl ⟨fun h => h.2, fun h => ⟨?_, h⟩⟩
  by_contra hnone
  obtain ⟨members, hmem, _⟩ := h
  rw [g.pools_sound (by simpa [Graph.has] using hnone)] at hmem
  simp at hmem

theorem occupied_of_seed {target j : Fin n} (h : g.seed target j = true) :
    g.occupied j = true := (Bool.and_eq_true_iff.mp h).1

/-- Where every slot is occupied, only the detached ones stop control. -/
theorem passes_of_allOccupied (hocc : g.AllOccupied) (w : World n) :
    World.Passes g w = fun j => w.flag j .detached = false := by
  funext j
  simp [World.Passes, hocc j]

theorem seed_of_allOccupied (hocc : g.AllOccupied) (target : Fin n) :
    (fun j => g.seed target j = true) = g.InSeed target := by
  funext j
  exact propext (seed_iff hocc target j)

/-- `collect_dependents` adds what reaches the set. -/
theorem collectDependents_iff (seed : Fin n → Bool) (j : Fin n) :
    g.collectDependents w seed j = true ↔ ReachesSeed g w seed j := by
  refine reaches_iff_of_equation (p := fun j => g.collectDependents w seed j = true)
    g.wellFounded_deps (fun j => ?_) j
  unfold Graph.collectDependents
  rw [sweep_apply g.topological]
  · simp only [Function.update_self, Bool.or_eq_true, Bool.and_eq_true, Bool.not_eq_true',
      List.any_eq_true]
    refine or_congr Iff.rfl (and_congr Iff.rfl (exists_congr fun d => ?_))
    refine and_congr_right fun hd => ?_
    have hne : d ≠ j := fun h => g.topological.irrefl j (h ▸ hd)
    rw [Function.update_of_ne hne]
  · intro j s t hdeps hj
    have hany : (g.deps j).any s = (g.deps j).any t := by
      rw [Bool.eq_iff_iff]
      simp only [List.any_eq_true]
      refine exists_congr fun d => and_congr_right fun hd => ?_
      rw [hdeps d hd]
    rw [hj, hany]

/-- The dependency pass of `activate` adds what the set reaches, through slots it
may expand. -/
theorem collectDependencies_iff (seed : Fin n → Bool) (j : Fin n) :
    g.collectDependencies w seed j = true ↔
      ∃ a, seed a = true ∧ Relation.ReflTransGen
        (fun a d => ¬ (g.occupied a = true ∧ w.flag a .detached = true) ∧ d ∈ g.deps a) a j := by
  unfold Graph.collectDependencies
  rw [spread_iff g.topological]
  simp only [Bool.not_eq_true', Bool.and_eq_false_iff, not_and_or, Bool.not_eq_true]

/-! ## The second latch pass of `activate` -/

/-- The slot is held: it is disabled, or depends on a held slot. -/
theorem release_held_iff (j : Fin n) :
    (g.release w j).held = true ↔
      Reaches (World.Passes g w) g.deps
        (fun d => World.Passes g w d ∧ w.flag d .disabled = true) j := by
  refine reaches_iff_of_equation (p := fun j => (g.release w j).held = true)
    g.wellFounded_deps (fun j => ?_) j
  rw [release_apply]
  simp only [Graph.releaseVisit, Function.update_self]
  by_cases hskip : (!g.occupied j || (w.node j).flags .detached) = true
  · rw [if_pos hskip]
    have hpass : ¬ World.Passes g w j := by
      rintro ⟨hocc, hdet⟩
      simp only [World.flag] at hdet
      simp [hocc, hdet] at hskip
    simp [hpass]
  · rw [if_neg hskip]
    have hpass : World.Passes g w j := by
      simp only [Bool.or_eq_true, not_or, Bool.not_eq_true'] at hskip
      exact ⟨by simpa using hskip.1, by simpa [World.flag] using hskip.2⟩
    simp only [hpass, true_and, Bool.or_eq_true, List.any_eq_true]
    rw [or_comm]
    refine or_congr Iff.rfl (exists_congr fun d => and_congr_right fun hd => ?_)
    have hne : d ≠ j := fun h => g.topological.irrefl j (h ▸ hd)
    rw [Function.update_of_ne hne]

/-- Some dependency of the slot is held. -/
def World.Blocked (g : Graph n) (w : World n) (j : Fin n) : Prop :=
  ∃ d ∈ g.deps j, Reaches (World.Passes g w) g.deps
    (fun d => World.Passes g w d ∧ w.flag d .disabled = true) d

/-- What the pass does to one slot, in terms of what it depends on. -/
theorem release_slot (j : Fin n) :
    ((g.release w j).handle.flags .collateral = true ↔
        w.flag j .collateral = true ∧ (World.Passes g w j → World.Blocked g w j)) ∧
      ((g.release w j).revive = true ↔
        World.Passes g w j ∧ ¬ World.Blocked g w j ∧ w.flag j .collateral = true ∧
          w.flag j .disabled = false) := by
  have hblocked : ((g.deps j).any fun d => (Function.update (g.release w) j
      { held := false, revive := false, handle := w.node j } d).held) = true ↔
      World.Blocked g w j := by
    simp only [List.any_eq_true, World.Blocked]
    refine exists_congr fun d => and_congr_right fun hd => ?_
    have hne : d ≠ j := fun h => g.topological.irrefl j (h ▸ hd)
    rw [Function.update_of_ne hne, release_held_iff]
  rw [release_apply]
  simp only [Graph.releaseVisit, Function.update_self]
  by_cases hskip : (!g.occupied j || (w.node j).flags .detached) = true
  · rw [if_pos hskip]
    have hpass : ¬ World.Passes g w j := by
      rintro ⟨hocc, hdet⟩
      simp only [World.flag] at hdet
      simp [hocc, hdet] at hskip
    simp [hpass, World.flag]
  · rw [if_neg hskip]
    have hpass : World.Passes g w j := by
      simp only [Bool.or_eq_true, not_or, Bool.not_eq_true'] at hskip
      exact ⟨by simpa using hskip.1, by simpa [World.flag] using hskip.2⟩
    by_cases hblock : World.Blocked g w j
    · have hany := hblocked.mpr hblock
      simp [hany, hpass, hblock, World.flag]
    · have hany := (Bool.not_eq_true _).mp (mt hblocked.mp hblock)
      by_cases hcollateral : (w.node j).flags .collateral = true
      · simp [hany, hpass, hblock, hcollateral, World.flag]
      · simp [hany, hpass, hblock, hcollateral, World.flag]

end EmbassySupervisor
