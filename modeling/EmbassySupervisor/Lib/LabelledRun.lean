/-
# Runs of a labelled transition function

A system whose nondeterminism is spelled out in its labels is a partial
function from a state and a label to the next state. A run is then a list of
labels, and what holds of every run is proved by induction on that list.

The induction is packaged once: `exec_invariant` for an invariant every step
preserves, `exec_invariant_along` for one that only the steps meeting a side
condition preserve, and `exec_invariant_history` for one that speaks of the run so far.
`exec_simulates` does the same for a relation between two systems, `Padded` is a run with idle
steps put in, and `exec_guarded` says what a check before each step changes.
Nothing here names a particular system.
-/

import Mathlib.Data.Option.Basic
import Mathlib.Data.List.Basic

namespace LabelledRun

universe u v

variable {σ : Type u} {ι : Type v} (next : σ → ι → Option σ)

/-- Follow the labels in order; `none` as soon as one of them is not enabled. -/
def exec : σ → List ι → Option σ
  | s, [] => some s
  | s, l :: ls => (next s l).bind fun t => exec t ls

/-- Every step of the run from `s` along the labels meets `P`, a condition on
the state before the step and its label. -/
def Along (P : σ → ι → Prop) : σ → List ι → Prop
  | _, [] => True
  | s, l :: ls => P s l ∧ ∀ t, next s l = some t → Along P t ls

variable {next}

@[simp]
theorem exec_nil (s : σ) : exec next s [] = some s := rfl

/-- A nonempty run is one enabled step and then the rest. -/
theorem exec_cons {s u : σ} {l : ι} {ls : List ι} :
    exec next s (l :: ls) = some u ↔
      ∃ t, next s l = some t ∧ exec next t ls = some u := by
  simp only [exec, Option.bind_eq_some_iff]

/-- Running two lists of labels in turn passes through one state between them. -/
theorem exec_append {s u : σ} {front back : List ι} :
    exec next s (front ++ back) = some u ↔
      ∃ t, exec next s front = some t ∧ exec next t back = some u := by
  induction front generalizing s with
  | nil => simp
  | cons l front ih =>
      rw [List.cons_append, exec_cons]
      constructor
      · rintro ⟨t, hstep, hrest⟩
        obtain ⟨mid, hfront, hback⟩ := ih.mp hrest
        exact ⟨mid, exec_cons.mpr ⟨t, hstep, hfront⟩, hback⟩
      · rintro ⟨mid, hfront, hback⟩
        obtain ⟨t, hstep, hfront⟩ := exec_cons.mp hfront
        exact ⟨t, hstep, ih.mpr ⟨mid, hfront, hback⟩⟩

/-- One more step at the end of a run. -/
theorem exec_snoc {s t u : σ} {ls : List ι} {l : ι}
    (hrun : exec next s ls = some t) (hstep : next t l = some u) :
    exec next s (ls ++ [l]) = some u :=
  exec_append.mpr ⟨t, hrun, exec_cons.mpr ⟨u, hstep, rfl⟩⟩

/-- The states before and after one label of a run. -/
theorem exec_append_cons {s u : σ} {front back : List ι} {l : ι} :
    exec next s (front ++ l :: back) = some u ↔
      ∃ t v, exec next s front = some t ∧ next t l = some v ∧ exec next v back = some u := by
  rw [exec_append]
  constructor
  · rintro ⟨t, hfront, hrest⟩
    obtain ⟨v, hstep, hback⟩ := exec_cons.mp hrest
    exact ⟨t, v, hfront, hstep, hback⟩
  · rintro ⟨t, v, hfront, hstep, hback⟩
    exact ⟨t, hfront, exec_cons.mpr ⟨v, hstep, hback⟩⟩

/-- A run to another state enters it by its last label. -/
theorem exec_enters {s u : σ} {ls : List ι} (hne : s ≠ u) (hrun : exec next s ls = some u) :
    ∃ front l t, ls = front ++ [l] ∧ next t l = some u := by
  rcases List.eq_nil_or_concat' ls with rfl | ⟨front, l, rfl⟩
  · cases hrun
    exact absurd rfl hne
  · obtain ⟨t, v, -, hstep, hlast⟩ := exec_append_cons.mp hrun
    cases hlast
    exact ⟨front, l, t, rfl, hstep⟩

/-- What holds initially and is preserved by every step holds at the end of
every run. -/
theorem exec_invariant {I : σ → Prop}
    (hstep : ∀ s l t, I s → next s l = some t → I t)
    {s t : σ} {ls : List ι} (hs : I s) (hrun : exec next s ls = some t) : I t := by
  induction ls generalizing s with
  | nil =>
      cases hrun
      exact hs
  | cons l ls ih =>
      obtain ⟨mid, hfirst, hrest⟩ := exec_cons.mp hrun
      exact ih (hstep s l mid hs hfirst) hrest

/-- The same for an invariant that speaks of the run so far. -/
theorem exec_invariant_history {I : List ι → σ → Prop} {s t : σ} {ls : List ι}
    (hs : I [] s)
    (hstep : ∀ front u l v, exec next s front = some u → I front u → next u l = some v →
      I (front ++ [l]) v)
    (hrun : exec next s ls = some t) : I ls t := by
  have extend : ∀ (back front : List ι) (u : σ), exec next s front = some u → I front u →
      exec next u back = some t → I (front ++ back) t := by
    intro back
    induction back with
    | nil =>
        intro front u _ hu hback
        cases hback
        rwa [List.append_nil]
    | cons l back ih =>
        intro front u hfront hu hback
        obtain ⟨v, hfirst, hrest⟩ := exec_cons.mp hback
        rw [List.append_cons]
        exact ih _ v (exec_snoc hfront hfirst) (hstep front u l v hfront hu hfirst) hrest
  exact extend ls [] s rfl hs hrun

/-- The same for an invariant that only the steps meeting `P` preserve, along a
run all of whose steps meet `P`. -/
theorem exec_invariant_along {I : σ → Prop} {P : σ → ι → Prop}
    (hstep : ∀ s l t, I s → P s l → next s l = some t → I t)
    {s t : σ} {ls : List ι} (hs : I s) (halong : Along next P s ls)
    (hrun : exec next s ls = some t) : I t := by
  induction ls generalizing s with
  | nil =>
      cases hrun
      exact hs
  | cons l ls ih =>
      obtain ⟨mid, hfirst, hrest⟩ := exec_cons.mp hrun
      exact ih (hstep s l mid hs halong.1 hfirst) (halong.2 mid hfirst) hrest

/-- A condition on a run is one on its two halves. -/
theorem along_append {P : σ → ι → Prop} {s : σ} {front back : List ι} :
    Along next P s (front ++ back) ↔
      Along next P s front ∧ ∀ t, exec next s front = some t → Along next P t back := by
  induction front generalizing s with
  | nil =>
      simp only [List.nil_append, Along, true_and, exec_nil, Option.some.injEq]
      constructor
      · rintro h t rfl
        exact h
      · intro h
        exact h s rfl
  | cons l front ih =>
      simp only [List.cons_append, Along]
      constructor
      · rintro ⟨hfirst, hrest⟩
        refine ⟨⟨hfirst, fun t ht => (ih.mp (hrest t ht)).1⟩, fun u hu => ?_⟩
        obtain ⟨t, ht, hback⟩ := exec_cons.mp hu
        exact (ih.mp (hrest t ht)).2 u hback
      · rintro ⟨⟨hfirst, hfront⟩, hback⟩
        refine ⟨hfirst, fun t ht => ih.mpr ⟨hfront t ht, fun u hu => ?_⟩⟩
        exact hback u (exec_cons.mpr ⟨t, ht, hu⟩)

/-- One more step that meets the condition. -/
theorem along_snoc {P : σ → ι → Prop} {s t : σ} {ls : List ι} {l : ι}
    (hrun : exec next s ls = some t) (hl : P t l) (h : Along next P s ls) :
    Along next P s (ls ++ [l]) := by
  refine along_append.mpr ⟨h, fun u hu => ?_⟩
  cases hrun.symm.trans hu
  exact ⟨hl, fun _ _ => trivial⟩

/-- A condition on the labels alone. -/
theorem along_of_forall {P : ι → Prop} {ls : List ι} (h : ∀ l ∈ ls, P l) (s : σ) :
    Along next (fun _ l => P l) s ls := by
  induction ls generalizing s with
  | nil => trivial
  | cons l ls ih =>
      obtain ⟨hfirst, hrest⟩ := List.forall_mem_cons.mp h
      exact ⟨hfirst, fun t _ => ih hrest t⟩

/-- A run meets a condition at every step, or there is a first step that breaks it. -/
theorem along_or_breach {P : σ → ι → Prop} {s t : σ} {ls : List ι}
    (hrun : exec next s ls = some t) :
    Along next P s ls ∨
      ∃ front l back u v, ls = front ++ l :: back ∧ exec next s front = some u ∧
        Along next P s front ∧ ¬ P u l ∧ next u l = some v ∧ exec next v back = some t := by
  induction ls generalizing s with
  | nil => exact Or.inl trivial
  | cons l ls ih =>
      obtain ⟨mid, hfirst, hrest⟩ := exec_cons.mp hrun
      by_cases hl : P s l
      · rcases ih hrest with halong | ⟨front, k, back, u, v, rfl, hfront, halong, hbreak, hback⟩
        · apply Or.inl
          refine ⟨hl, fun w hw => ?_⟩
          cases hfirst.symm.trans hw
          exact halong
        · refine Or.inr ⟨l :: front, k, back, u, v, rfl, exec_cons.mpr ⟨mid, hfirst, hfront⟩,
            ⟨hl, fun w hw => ?_⟩, hbreak, hback⟩
          cases hfirst.symm.trans hw
          exact halong
      · exact Or.inr ⟨[], l, ls, s, mid, rfl, rfl, trivial, hl, hfirst, hrest⟩

/-- **A run that leaves a phase crosses its end.** -/
theorem exec_crosses {P : σ → Prop} {s t : σ} {ls : List ι} (hs : P s) (ht : ¬ P t)
    (hrun : exec next s ls = some t) :
    ∃ front l back u v, ls = front ++ l :: back ∧ exec next s front = some u ∧ P u ∧
      next u l = some v ∧ ¬ P v ∧ exec next v back = some t := by
  have hkept : ∀ u l v, P u → (∀ v, next u l = some v → P v) → next u l = some v → P v :=
    fun _ _ v _ hall hstep => hall v hstep
  have hsplit := along_or_breach (P := fun u l => ∀ v, next u l = some v → P v) hrun
  cases hsplit with
  | inl halong => exact absurd (exec_invariant_along hkept hs halong hrun) ht
  | inr hbreach =>
      obtain ⟨front, l, back, u, v, rfl, hfront, halong, hleaves, hstep, hback⟩ := hbreach
      have hu : P u := exec_invariant_along hkept hs halong hfront
      refine ⟨front, l, back, u, v, rfl, hfront, hu, hstep, fun hv => hleaves ?_, hback⟩
      intro v' hv'
      cases hstep.symm.trans hv'
      exact hv

/-- A condition that can be decided can be decided along a run. -/
instance decidableAlong {P : σ → ι → Prop} [∀ s l, Decidable (P s l)] :
    (s : σ) → (ls : List ι) → Decidable (Along next P s ls)
  | _, [] => isTrue trivial
  | s, l :: ls =>
    match h : next s l with
    | none => decidable_of_iff (P s l) (by simp [Along, h])
    | some t =>
      have : Decidable (Along next P t ls) := decidableAlong t ls
      decidable_of_iff (P s l ∧ Along next P t ls) (by simp [Along, h])

/-- A weaker condition holds along every run a stronger one holds along. -/
theorem Along.mono {P Q : σ → ι → Prop} (himp : ∀ s l, P s l → Q s l)
    {s : σ} {ls : List ι} (h : Along next P s ls) : Along next Q s ls := by
  induction ls generalizing s with
  | nil => trivial
  | cons l ls ih => exact ⟨himp s l h.1, fun t ht => ih (h.2 t ht)⟩

/-- Two conditions along a run are one. -/
theorem Along.and {P Q : σ → ι → Prop} {s : σ} {ls : List ι} (hP : Along next P s ls)
    (hQ : Along next Q s ls) : Along next (fun s l => P s l ∧ Q s l) s ls := by
  induction ls generalizing s with
  | nil => trivial
  | cons l ls ih => exact ⟨⟨hP.1, hQ.1⟩, fun t ht => ih (hP.2 t ht) (hQ.2 t ht)⟩

/-- A side condition that the run's own states satisfy by an invariant may be
added to the conditions along it. -/
theorem Along.and_invariant {I : σ → Prop} {P : σ → ι → Prop}
    (hstep : ∀ s l t, I s → P s l → next s l = some t → I t)
    {s : σ} {ls : List ι} (hs : I s) (h : Along next P s ls) :
    Along next (fun s l => I s ∧ P s l) s ls := by
  induction ls generalizing s with
  | nil => trivial
  | cons l ls ih =>
      exact ⟨⟨hs, h.1⟩, fun t ht => ih (hstep s l t hs h.1 ht) (h.2 t ht)⟩

/-- **What every step shows, step by step.** `Q` is shown along a run and `I` holds at its
end exactly if every step meets `P`, when that is so of each step among those that meet
`H`. -/
theorem along_and_iff {I : σ → Prop} {H P Q : σ → ι → Prop} (hshown : ∀ s l, Q s l → I s)
    (hstep : ∀ s l t, I s → H s l → next s l = some t → (Q s l ∧ I t ↔ P s l))
    {s t : σ} {ls : List ι} (hs : I s) (halong : Along next H s ls)
    (hrun : exec next s ls = some t) :
    Along next Q s ls ∧ I t ↔ Along next P s ls := by
  induction ls generalizing s with
  | nil =>
      cases hrun
      simp [Along, hs]
  | cons l ls ih =>
      obtain ⟨u, hfirst, hrest⟩ := exec_cons.mp hrun
      have hone := hstep s l u hs halong.1 hfirst
      constructor
      · rintro ⟨⟨hl, hall⟩, ht⟩
        have hback := hall u hfirst
        have hu : I u := by
          cases ls with
          | nil =>
              cases hrest
              exact ht
          | cons k ls => exact hshown u k hback.1
        refine ⟨hone.mp ⟨hl, hu⟩, fun v hv => ?_⟩
        cases hfirst.symm.trans hv
        exact (ih hu (halong.2 u hfirst) hrest).mp ⟨hback, ht⟩
      · rintro ⟨hl, hall⟩
        obtain ⟨hshow, hu⟩ := hone.mpr hl
        obtain ⟨hback, ht⟩ := (ih hu (halong.2 u hfirst) hrest).mpr (hall u hfirst)
        refine ⟨⟨hshow, fun v hv => ?_⟩, ht⟩
        cases hfirst.symm.trans hv
        exact hback

/-- **Two systems run alike exactly as long as their steps agree.** They run alike
when every part of the run from its beginning leads both to the same state. -/
theorem exec_eq_iff_along {next' : σ → ι → Option σ} {I : σ → Prop} {P : σ → ι → Prop}
    (hinv : ∀ s l t, I s → next s l = some t → I t)
    (hagree : ∀ s l, I s → (next s l = next' s l ↔ P s l))
    {s : σ} {ls : List ι} (hs : I s) :
    (∀ front, front <+: ls → exec next s front = exec next' s front) ↔
      Along next P s ls := by
  induction ls generalizing s with
  | nil => simp [Along]
  | cons l ls ih =>
      constructor
      · intro hall
        have hfirst : next s l = next' s l := by
          have hone := hall [l] ⟨ls, rfl⟩
          simpa [exec] using hone
        refine ⟨(hagree s l hs).mp hfirst, fun t ht => ?_⟩
        apply (ih (hinv s l t hs ht)).mp
        intro front hfront
        have hboth := hall (l :: front) (List.cons_prefix_cons.mpr ⟨rfl, hfront⟩)
        simpa [exec, ht, hfirst.symm.trans ht] using hboth
      · rintro ⟨hl, hrest⟩ front hfront
        cases front with
        | nil => rfl
        | cons k front =>
            obtain ⟨rfl, hback⟩ := List.cons_prefix_cons.mp hfront
            simp only [exec]
            rw [← (hagree s k hs).mpr hl]
            cases hfirst : next s k with
            | none => rfl
            | some t => exact (ih (hinv s k t hs hfirst)).mpr (hrest t hfirst) front hback

section Guarded

variable (check : σ → ι → Bool) (trap : σ → σ) (next)

/-- The same system with a check before each step: where it fails, the step is into a trap. -/
def guarded (s : σ) (l : ι) : Option σ := if check s l then next s l else some (trap s)

variable {check trap next}

/-- **A guarded run is a run without the guard**, unless its last step is the one that fails
the check. -/
theorem exec_guarded (hstuck : ∀ s l, check (trap s) l = true ∧ next (trap s) l = none)
    {s t : σ} {ls : List ι} (hrun : exec (guarded next check trap) s ls = some t) :
    exec next s ls = some t ∨
      ∃ front l u, ls = front ++ [l] ∧ exec (guarded next check trap) s front = some u ∧
        exec next s front = some u ∧ check u l = false ∧ t = trap u := by
  induction ls generalizing s with
  | nil => exact Or.inl hrun
  | cons l ls ih =>
      obtain ⟨u, hguarded, hrest⟩ := exec_cons.mp hrun
      have hstep := hguarded
      unfold guarded at hstep
      split at hstep
      · rcases ih hrest with hfree | ⟨front, k, v, rfl, hfront, hfree, hfails, rfl⟩
        · exact Or.inl (exec_cons.mpr ⟨u, hstep, hfree⟩)
        · exact Or.inr ⟨l :: front, k, v, rfl, exec_cons.mpr ⟨u, hguarded, hfront⟩,
            exec_cons.mpr ⟨u, hstep, hfree⟩, hfails, rfl⟩
      · next hcheck =>
          cases hstep
          cases ls with
          | nil =>
              cases hrest
              exact Or.inr ⟨[], l, s, rfl, rfl, rfl, by simpa using hcheck, rfl⟩
          | cons k ks =>
              obtain ⟨v, hnext, -⟩ := exec_cons.mp hrest
              rw [guarded, if_pos (hstuck s k).1, (hstuck s k).2] at hnext
              cases hnext

end Guarded

section Padded

variable {Idle : σ → ι → σ → Prop}

/-- A run along the second labels, which are the first with idle steps put in. -/
inductive Padded (next : σ → ι → Option σ) (Idle : σ → ι → σ → Prop) :
    σ → List ι → List ι → σ → Prop
  | nil (s : σ) : Padded next Idle s [] [] s
  | step {s u t : σ} {l : ι} {ls ks : List ι} (hstep : next s l = some u)
      (hrest : Padded next Idle u ls ks t) : Padded next Idle s (l :: ls) (l :: ks) t
  | idle {s u t : σ} {l : ι} {ls ks : List ι} (hstep : next s l = some u) (hidle : Idle s l u)
      (hrest : Padded next Idle u ls ks t) : Padded next Idle s ls (l :: ks) t

namespace Padded

theorem exec {s t : σ} {ls ks : List ι} (h : Padded next Idle s ls ks t) :
    exec next s ks = some t := by
  induction h with
  | nil s => rfl
  | step hstep _ ih | idle hstep _ _ ih => exact exec_cons.mpr ⟨_, hstep, ih⟩

theorem append {s u t : σ} {ls ks ls' ks' : List ι} (h : Padded next Idle s ls ks u)
    (h' : Padded next Idle u ls' ks' t) : Padded next Idle s (ls ++ ls') (ks ++ ks') t := by
  induction h with
  | nil s => exact h'
  | step hstep _ ih => exact .step hstep (ih h')
  | idle hstep hidle _ ih => exact .idle hstep hidle (ih h')

/-- Idle steps of a part of the system are idle steps of the whole. -/
theorem lift {τ : Type*} {κ : Type*} {next' : τ → κ → Option τ} {Idle' : τ → κ → τ → Prop}
    {f : σ → τ} {g : ι → κ}
    (hlift : ∀ s l u, next s l = some u → Idle s l u →
      next' (f s) (g l) = some (f u) ∧ Idle' (f s) (g l) (f u))
    {s t : σ} {ks : List ι} (h : Padded next Idle s [] ks t) :
    Padded next' Idle' (f s) [] (ks.map g) (f t) := by
  generalize hls : ([] : List ι) = ls at h
  induction h with
  | nil s => exact .nil _
  | step => cases hls
  | idle hstep hidle _ ih =>
      obtain ⟨hstep', hidle'⟩ := hlift _ _ _ hstep hidle
      exact .idle hstep' hidle' (ih hls)

end Padded

end Padded

section Simulation

variable {τ : Type*} {κ : Type*} {next' : τ → κ → Option τ} {R : σ → τ → Prop}
  {Q : σ → τ → List ι → List κ → σ → τ → Prop}

/-- **A system that follows another step by step follows its runs.** Each step may be followed
by any number of steps, as `Q` allows of the two runs. -/
theorem exec_simulates (hnil : ∀ s t, Q s t [] [] s t)
    (happend : ∀ {s s' s'' : σ} {t t' t'' : τ} {l : ι} {ls : List ι} {ks ks' : List κ},
      Q s t [l] ks s' t' → Q s' t' ls ks' s'' t'' → Q s t (l :: ls) (ks ++ ks') s'' t'')
    (hstep : ∀ s t l s', R s t → next s l = some s' →
      ∃ ks t', Q s t [l] ks s' t' ∧ exec next' t ks = some t' ∧ R s' t')
    {s s' : σ} {t : τ} {ls : List ι} (h : R s t) (hrun : exec next s ls = some s') :
    ∃ ks t', Q s t ls ks s' t' ∧ exec next' t ks = some t' ∧ R s' t' := by
  induction ls generalizing s t with
  | nil =>
      cases hrun
      exact ⟨[], t, hnil _ t, rfl, h⟩
  | cons l ls ih =>
      obtain ⟨mid, hfirst, hrest⟩ := exec_cons.mp hrun
      obtain ⟨ks, u, hks, hfollow, hmid⟩ := hstep s t l mid h hfirst
      obtain ⟨ks', t', hks', hback, hlast⟩ := ih hmid hrest
      exact ⟨ks ++ ks', t', happend hks hks', exec_append.mpr ⟨u, hfollow, hback⟩, hlast⟩

end Simulation

end LabelledRun
