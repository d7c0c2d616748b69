/-
# The scope of a `#[cfg]` in a dataflow body

The walk has no parser. It takes a predicate into force at the token behind its attributes
and drops it at the first token of the level that ends a scope: a semicolon, a comma, a
brace group behind which the statement does not go on, the end of a nested function item.

A reported call carries the predicate of an attribute exactly where no such token stands
between the two (`mem_cfgs_iff`). So a statement's predicate reaches the statement's calls,
and no others, exactly where the first such token is the statement's last.
-/

import EmbassySupervisor.Macro.VerbReports

namespace EmbassySupervisor

open TokenTree

variable {node : String} {verbs : VerbTable} {syn : ExprSyntax}

/-! ## One level -/

/-- The predicates pending and in force behind a piece. -/
def stepScope (here : Place) (scope : List Cfg × List Cfg) (p : ℕ × Piece) :
    List Cfg × List Cfg :=
  match p with
  | (k, .attr _ g) =>
    (scope.1 ++ ((cfgAttrPredicate g).map (Cfg.mk (here ++ [k]))).toList, scope.2)
  | (_, pc) => ([], if pc.ends then [] else scope.2 ++ scope.1)

/-- The predicates in force at a piece itself. -/
def scopeAt (inherited : List Cfg) (scope : List Cfg × List Cfg) : Piece → List Cfg
  | .attr .. => []
  | _ => inherited ++ (scope.2 ++ scope.1)

theorem withCfgs_cons (inherited : List Cfg) (here : Place) (scope : List Cfg × List Cfg)
    (p : ℕ × Piece) (ps : List (ℕ × Piece)) :
    withCfgs inherited here scope.1 scope.2 (p :: ps) =
      (p.1, p.2, scopeAt inherited scope p.2) ::
        withCfgs inherited here (stepScope here scope p).1 (stepScope here scope p).2 ps := by
  obtain ⟨k, pc⟩ := p
  cases pc <;> rfl

theorem withCfgs_append (inherited : List Cfg) (here : Place) (scope : List Cfg × List Cfg)
    (ps ps' : List (ℕ × Piece)) :
    withCfgs inherited here scope.1 scope.2 (ps ++ ps') =
      withCfgs inherited here scope.1 scope.2 ps ++
        withCfgs inherited here (ps.foldl (stepScope here) scope).1
          (ps.foldl (stepScope here) scope).2 ps' := by
  induction ps generalizing scope with
  | nil => rfl
  | cons p ps ih => rw [List.cons_append, withCfgs_cons, withCfgs_cons, ih]; rfl

theorem exists_scope {inherited : List Cfg} {here : Place} {scope : List Cfg × List Cfg}
    {ps : List (ℕ × Piece)} {k : ℕ} {pc : Piece} {cfgs : List Cfg}
    (h : (k, pc, cfgs) ∈ withCfgs inherited here scope.1 scope.2 ps) :
    ∃ scope, cfgs = scopeAt inherited scope pc := by
  induction ps generalizing scope with
  | nil => cases h
  | cons p ps ih =>
      rw [withCfgs_cons] at h
      rcases List.mem_cons.mp h with heq | h
      · cases heq
        exact ⟨scope, rfl⟩
      · exact ih h

/-- A piece brings no other predicate into the scope than its own. -/
theorem mem_stepScope {here : Place} {scope : List Cfg × List Cfg} {p : ℕ × Piece} {x : Cfg}
    (hx : x ∈ (stepScope here scope p).1 ++ (stepScope here scope p).2) :
    x ∈ scope.1 ++ scope.2 ∨ x.place = here ++ [p.1] := by
  obtain ⟨k, pc⟩ := p
  have copied : x ∈ [] ++ (if pc.ends then [] else scope.2 ++ scope.1) →
      x ∈ scope.1 ++ scope.2 ∨ x.place = here ++ [k] := by
    intro hx
    split at hx
    · simp at hx
    · exact .inl (by simpa [or_comm] using hx)
  cases pc with
  | attr t g =>
      simp only [stepScope, List.append_assoc, List.mem_append] at hx ⊢
      rcases hx with h | h | h
      · exact .inl (.inl h)
      · cases hpred : cfgAttrPredicate g with
        | none => simp [hpred] at h
        | some pred => exact .inr (by simp [hpred] at h; simp [h])
      · exact .inl (.inr h)
  | item t => exact copied hx
  | call verb write t dot name g => exact copied hx
  | token t ends => exact copied hx

theorem mem_scopeAt {inherited : List Cfg} {scope : List Cfg × List Cfg} {pc : Piece} {x : Cfg}
    (hx : x ∈ scopeAt inherited scope pc) : x ∈ inherited ∨ x ∈ scope.1 ++ scope.2 := by
  have hmem : x ∈ inherited ++ (scope.2 ++ scope.1) := by
    cases pc with
    | attr t g => cases hx
    | item t => exact hx
    | call verb write t dot name g => exact hx
    | token t ends => exact hx
  simpa [or_comm] using hmem

theorem scopeAt_of_ne_attr (inherited : List Cfg) (scope : List Cfg × List Cfg) {pc : Piece}
    (hpc : ∀ t g, pc ≠ .attr t g) :
    scopeAt inherited scope pc = inherited ++ (scope.2 ++ scope.1) := by
  cases pc with
  | attr t g => exact absurd rfl (hpc t g)
  | item t => rfl
  | call verb write t dot name g => rfl
  | token t ends => rfl

/-- A predicate in the scope stays there over a piece that does not end it. -/
theorem mem_stepScope_of_mem {here : Place} {scope : List Cfg × List Cfg} {p : ℕ × Piece}
    {x : Cfg} (hx : x ∈ scope.1 ++ scope.2) (hends : p.2.ends = false) :
    x ∈ (stepScope here scope p).1 ++ (stepScope here scope p).2 := by
  obtain ⟨k, pc⟩ := p
  have hcopied : x ∈ [] ++ (if pc.ends then [] else scope.2 ++ scope.1) := by
    simpa [show pc.ends = false from hends, or_comm] using hx
  cases pc with
  | attr t g =>
      rcases List.mem_append.mp hx with hx | hx <;> simp [stepScope, hx]
  | item t => exact hcopied
  | call verb write t dot name g => exact hcopied
  | token t ends => exact hcopied

/-- Nothing is left in the scope behind a piece that ends it. -/
theorem stepScope_of_ends (here : Place) (scope : List Cfg × List Cfg) {p : ℕ × Piece}
    (hends : p.2.ends = true) : stepScope here scope p = ([], []) := by
  obtain ⟨k, pc⟩ := p
  have hends : pc.ends = true := hends
  cases pc with
  | attr t g => cases hends
  | item t => simp [stepScope, hends]
  | call verb write t dot name g => cases hends
  | token t ends => simp [stepScope, hends]

/-- Where a predicate in force at a piece comes from. -/
theorem origin_of_mem {inherited : List Cfg} {here : Place} {scope : List Cfg × List Cfg}
    {ps : List (ℕ × Piece)} {k : ℕ} {pc : Piece} {cfgs : List Cfg} {x : Cfg}
    (h : (k, pc, cfgs) ∈ withCfgs inherited here scope.1 scope.2 ps) (hx : x ∈ cfgs) :
    x ∈ inherited ∨ x ∈ scope.1 ++ scope.2 ∨ ∃ p ∈ ps, x.place = here ++ [p.1] := by
  induction ps generalizing scope with
  | nil => cases h
  | cons p ps ih =>
      rw [withCfgs_cons] at h
      rcases List.mem_cons.mp h with heq | h
      · cases heq
        rcases mem_scopeAt hx with h | h
        · exact .inl h
        · exact .inr (.inl h)
      · rcases ih h with h | h | ⟨p', hp', hplace⟩
        · exact .inl h
        · rcases mem_stepScope h with h | h
          · exact .inr (.inl h)
          · exact .inr (.inr ⟨p, by simp, h⟩)
        · exact .inr (.inr ⟨p', by simp [hp'], hplace⟩)

theorem origin_of_scopeless {inherited : List Cfg} {here : Place} {ps : List (ℕ × Piece)} {k : ℕ}
    {pc : Piece} {cfgs : List Cfg} {x : Cfg} (h : (k, pc, cfgs) ∈ withCfgs inherited here [] [] ps)
    (hx : x ∈ cfgs) : x ∈ inherited ∨ ∃ p ∈ ps, x.place = here ++ [p.1] := by
  have hcases := @origin_of_mem inherited here ([], []) ps k pc cfgs x h hx
  simpa using hcases

/-- A predicate in the scope is in force at a piece as long as no piece before ends it. -/
theorem mem_iff_of_scope {inherited : List Cfg} {here : Place} {scope : List Cfg × List Cfg}
    {ps : List (ℕ × Piece)} {k : ℕ} {pc : Piece} {cfgs : List Cfg} {x : Cfg}
    (hsorted : ps.Pairwise fun p p' => p.1 < p'.1)
    (hinherited : x ∉ inherited) (hplace : ∀ p ∈ ps, x.place ≠ here ++ [p.1])
    (hscope : x ∈ scope.1 ++ scope.2) (hpc : ∀ t g, pc ≠ .attr t g)
    (h : (k, pc, cfgs) ∈ withCfgs inherited here scope.1 scope.2 ps) :
    x ∈ cfgs ↔ ∀ p ∈ ps, p.1 < k → p.2.ends = false := by
  induction ps generalizing scope with
  | nil => cases h
  | cons p ps ih =>
      rw [withCfgs_cons] at h
      obtain ⟨hlt, hsorted⟩ := List.pairwise_cons.mp hsorted
      rcases List.mem_cons.mp h with heq | h
      · cases heq
        rw [scopeAt_of_ne_attr _ _ hpc]
        refine iff_of_true ?_ fun p' hp' hk => ?_
        · simpa [or_comm] using Or.inr hscope
        · rcases List.mem_cons.mp hp' with rfl | hp'
          · omega
          · exact absurd (hlt p' hp') (by omega)
      · have hk : p.1 < k := hlt _ (mem_of_withCfgs h)
        cases hends : p.2.ends with
        | true =>
            refine iff_of_false (fun hx => ?_) fun hall => ?_
            · rw [stepScope_of_ends here scope hends] at h
              rcases origin_of_mem h hx with h | h | ⟨p', hp', h⟩
              · exact hinherited h
              · simp at h
              · exact hplace p' (by simp [hp']) h
            · exact absurd (hall p (by simp) hk) (by simp [hends])
        | false =>
            rw [ih hsorted (fun p' hp' => hplace p' (by simp [hp']))
              (mem_stepScope_of_mem hscope hends) h]
            constructor
            · intro hall p' hp' hlt'
              rcases List.mem_cons.mp hp' with rfl | hp'
              · exact hends
              · exact hall p' hp' hlt'
            · exact fun hall p' hp' hlt' => hall p' (by simp [hp']) hlt'

/-! ## The levels of a body -/

namespace LevelEntry

variable {l : LevelEntry}

theorem origin {k : ℕ} {pc : Piece} {cfgs : List Cfg} {x : Cfg}
    (h : (k, pc, cfgs) ∈ l.pieces node verbs) (hx : x ∈ cfgs) :
    x ∈ l.inherited ∨ ∃ a, x.place = l.here ++ [a] := by
  rcases origin_of_scopeless h hx with h | ⟨p, -, h⟩
  · exact .inl h
  · exact .inr ⟨_, h⟩

/-- A piece ends the scopes at an index of the level. -/
def EndsAt (node : String) (verbs : VerbTable) (l : LevelEntry) (k : ℕ) : Prop :=
  ∃ pc cfgs, (k, pc, cfgs) ∈ l.pieces node verbs ∧ pc.ends = true

theorem map_pieces (l : LevelEntry) : (l.pieces node verbs).map (fun x => (x.1, x.2.1)) =
    EmbassySupervisor.pieces node verbs 0 l.mode none l.stream :=
  map_withCfgs l.inherited l.here [] [] _

theorem endsAt_iff {k : ℕ} : l.EndsAt node verbs k ↔ ∃ pc,
    (k, pc) ∈ EmbassySupervisor.pieces node verbs 0 l.mode none l.stream ∧ pc.ends = true := by
  constructor
  · rintro ⟨pc, cfgs, hmem, hends⟩
    exact ⟨pc, mem_of_withCfgs hmem, hends⟩
  · rintro ⟨pc, hmem, hends⟩
    rw [← l.map_pieces] at hmem
    obtain ⟨⟨k', pc', cfgs⟩, hmem', heq⟩ := List.mem_map.mp hmem
    cases heq
    exact ⟨pc', cfgs, hmem', hends⟩

theorem strictly_sorted (node : String) (verbs : VerbTable) (l : LevelEntry) :
    (EmbassySupervisor.pieces node verbs 0 l.mode none l.stream).Pairwise
      fun p p' => p.1 < p'.1 := by
  refine (pieces_covers 0 l.mode none l.stream).sorted.imp fun {p p'} hle => ?_
  have hpos : 0 < p.2.tokens.length := by cases p.2 <;> simp [Piece.tokens]
  omega

/-- The predicate of an attribute is in force at the pieces behind it up to the first that
ends a scope. -/
theorem mem_iff {a k : ℕ} {t g : TokenTree} {pc : Piece} {cfgs₀ cfgs : List Cfg}
    {pred : List TokenTree} (hattr : (a, .attr t g, cfgs₀) ∈ l.pieces node verbs)
    (hpred : cfgAttrPredicate g = some pred) (hinherited : ⟨l.here ++ [a], pred⟩ ∉ l.inherited)
    (h : (k, pc, cfgs) ∈ l.pieces node verbs) (hpc : ∀ t g, pc ≠ .attr t g) :
    ⟨l.here ++ [a], pred⟩ ∈ cfgs ↔ a < k ∧ ∀ j, a < j → j < k → ¬ l.EndsAt node verbs j := by
  obtain ⟨front, back, hps⟩ := List.append_of_mem (mem_of_withCfgs hattr)
  have hsorted := l.strictly_sorted node verbs
  rw [hps] at hsorted
  obtain ⟨-, hsorted, hfront⟩ := List.pairwise_append.mp hsorted
  obtain ⟨hback, hsorted⟩ := List.pairwise_cons.mp hsorted
  have hends : ∀ {j}, a < j → l.EndsAt node verbs j →
      ∃ p ∈ back, p.1 = j ∧ p.2.ends = true := by
    intro j hj hends
    obtain ⟨pc', hmem, hends⟩ := endsAt_iff.mp hends
    rw [hps] at hmem
    rcases List.mem_append.mp hmem with hmem | hmem
    · exact absurd (hfront _ hmem _ List.mem_cons_self) (by simp only; omega)
    · rcases List.mem_cons.mp hmem with heq | hmem
      · exact absurd (Prod.mk.inj heq).1 (by omega)
      · exact ⟨_, hmem, rfl, hends⟩
  have place_ne : ∀ j, j ≠ a → l.here ++ [a] ≠ l.here ++ [j] := by
    intro j hj heq
    exact hj (by simpa using heq.symm)
  let scope := stepScope l.here (front.foldl (stepScope l.here) ([], [])) (a, .attr t g)
  have hcut : l.pieces node verbs = withCfgs l.inherited l.here [] [] front ++
      (a, .attr t g, []) :: withCfgs l.inherited l.here scope.1 scope.2 back := by
    unfold pieces
    rw [hps]
    exact (withCfgs_append l.inherited l.here ([], []) front _).trans (by rw [withCfgs_cons]; rfl)
  rw [hcut] at h
  rcases List.mem_append.mp h with h | h
  · -- before the attribute
    have hk : k < a := hfront _ (mem_of_withCfgs h) _ List.mem_cons_self
    refine iff_of_false (fun hx => ?_) (by omega)
    rcases origin_of_scopeless h hx with h | ⟨p, hp, h⟩
    · exact hinherited h
    · exact place_ne p.1 (Nat.ne_of_lt (hfront p hp _ List.mem_cons_self)) h
  · rcases List.mem_cons.mp h with heq | h
    · exact absurd (Prod.mk.inj (Prod.mk.inj heq).2).1 (hpc t g)
    · have hk : a < k := hback _ (mem_of_withCfgs h)
      have hscope : ⟨l.here ++ [a], pred⟩ ∈ scope.1 ++ scope.2 := by
        simp [scope, stepScope, hpred]
      have hplace : ∀ p ∈ back, l.here ++ [a] ≠ l.here ++ [p.1] := fun p hp =>
        place_ne p.1 (Nat.ne_of_gt (hback p hp))
      rw [mem_iff_of_scope hsorted hinherited hplace hscope hpc h]
      constructor
      · refine fun hall => ⟨hk, fun j hj hlt hend => ?_⟩
        obtain ⟨p, hp, rfl, hpend⟩ := hends hj hend
        exact Bool.false_ne_true ((hall p hp hlt).symm.trans hpend)
      · intro hall p hp hlt
        by_contra hend
        refine hall.2 p.1 (hback p hp) hlt (endsAt_iff.mpr ⟨p.2, ?_, by simpa using hend⟩)
        exact hps ▸ List.mem_append_right _ (List.mem_cons_of_mem _ hp)

end LevelEntry

/-- A predicate inherited by a level entered comes from the level it is entered from, or from
an attribute on the way down. -/
theorem Enters.origin {l l' : LevelEntry} (h : Enters node verbs l l') {x : Cfg}
    (hx : x ∈ l'.inherited) : x ∈ l.inherited ∨
      ∃ q a k q', x.place = l.here ++ q ++ [a] ∧ l'.here = l.here ++ q ++ k :: q' := by
  induction h with
  | self l => exact .inl hx
  | @inside l l' k offset pc cfgs mode ts hmem hinside hent ih =>
      obtain ⟨q', hq'⟩ := hent.here_prefix
      rcases ih hx with h | ⟨q, a, k', q'', hplace, hhere⟩
      · rcases LevelEntry.origin hmem h with h | ⟨a, h⟩
        · exact .inl h
        · exact .inr ⟨[], a, k + offset, q', by simpa using h, by simpa using hq'⟩
      · exact .inr ⟨(k + offset) :: q, a, k', q'', by simpa using hplace, by simpa using hhere⟩

/-- Predicates inherited by a level are inherited by every level below it. -/
theorem Enters.inherited {l l' : LevelEntry} (h : Enters node verbs l l') {x : Cfg}
    (hx : x ∈ l.inherited) : x ∈ l'.inherited := by
  induction h with
  | self l => exact hx
  | @inside l l' k offset pc cfgs mode ts hmem hinside hent ih =>
      refine ih ?_
      obtain ⟨scope, rfl⟩ := @exists_scope l.inherited l.here ([], []) _ k pc cfgs hmem
      rw [scopeAt_of_ne_attr]
      · exact List.mem_append_left _ hx
      · rintro t g rfl
        cases hinside

/-! ## Calls -/

/-- Where no piece ends a scope is the same up to a piece's start and up to its group. -/
theorem LevelEntry.unended_iff {l : LevelEntry} {a k j : ℕ} {t g : TokenTree} {pc : Piece}
    {cfgs₀ cfgs : List Cfg} (hattr : (a, .attr t g, cfgs₀) ∈ l.pieces node verbs)
    (h : (k, pc, cfgs) ∈ l.pieces node verbs) (hpc : ∀ t g, pc ≠ .attr t g) (hle : k ≤ j)
    (hlt : j < k + pc.tokens.length) (hends : j = k ∨ pc.ends = false) :
    (a < k ∧ ∀ j', a < j' → j' < k → ¬ l.EndsAt node verbs j') ↔
      (a < j ∧ ∀ j', a < j' → j' < j → ¬ l.EndsAt node verbs j') := by
  have ha : a < j ↔ a < k := by
    refine ⟨fun haj => ?_, fun hak => by omega⟩
    by_contra hak
    have heq := LevelEntry.piece_unique h hattr (j := a) ⟨by omega, by omega⟩
      ⟨Nat.le_refl a, by simp [Piece.tokens]⟩
    exact hpc t g (Prod.mk.inj (Prod.mk.inj heq).2).1
  have hmid : ∀ j', k ≤ j' → j' < j → ¬ l.EndsAt node verbs j' := by
    rintro j' hkj hjj ⟨pc', cfgs', hmem, hend⟩
    have hpos : 0 < pc'.tokens.length := by cases pc' <;> simp [Piece.tokens]
    have heq := LevelEntry.piece_unique h hmem (j := j') ⟨hkj, by omega⟩ ⟨Nat.le_refl j', by omega⟩
    cases heq
    rcases hends with rfl | hends
    · omega
    · exact Bool.false_ne_true (hends.symm.trans hend)
  rw [ha]
  refine and_congr_right fun _ => ⟨fun hall j' haj hjj => ?_, fun hall j' haj hjk => ?_⟩
  · by_cases hjk : j' < k
    · exact hall j' haj hjk
    · exact hmid j' (by omega) hjj
  · exact hall j' haj (by omega)

/-- A predicate of an outer level is carried by a call where it is inherited. -/
theorem Reports.mem_cfgs_iff {l : LevelEntry} {call : VerbCall} {x : Cfg}
    (h : Reports node verbs syn l call) (hx : x.place.length ≤ l.here.length) :
    x ∈ call.cfgs ↔ x ∈ l.inherited := by
  obtain ⟨l', k, verb, write, t, dot, name, g, cfgs, target, hent, hmem, -, rfl⟩ := h
  obtain ⟨q', hq'⟩ := hent.here_prefix
  constructor
  · intro hcfgs
    rcases LevelEntry.origin hmem hcfgs with hin | ⟨a, hplace⟩
    · rcases hent.origin hin with h | ⟨q, a, k', q'', hplace, -⟩
      · exact h
      · have hlen := congrArg List.length hplace
        simp only [List.length_append, List.length_cons] at hlen
        omega
    · have hlen := congrArg List.length hplace
      simp only [hq', List.length_append, List.length_cons] at hlen
      omega
  · intro hin
    obtain ⟨scope, rfl⟩ := @exists_scope l'.inherited l'.here ([], []) _ k _ cfgs hmem
    exact List.mem_append_left _ (hent.inherited hin)

/-- The same in the level of the attribute. -/
theorem Reports.mem_cfgs_iff_of_level {l : LevelEntry} {a : ℕ} {t g : TokenTree} {cfgs : List Cfg}
    {pred : List TokenTree} {call : VerbCall} (h : Reports node verbs syn l call)
    (hattr : (a, .attr t g, cfgs) ∈ l.pieces node verbs) (hpred : cfgAttrPredicate g = some pred)
    (hinherited : ⟨l.here ++ [a], pred⟩ ∉ l.inherited) {j : ℕ} {q : Place}
    (hplace : call.place = l.here ++ j :: q) :
    ⟨l.here ++ [a], pred⟩ ∈ call.cfgs ↔
      a < j ∧ ∀ j', a < j' → j' < j → ¬ l.EndsAt node verbs j' := by
  obtain ⟨k, pc, cfgs', hmem, h⟩ := reports_iff.mp h
  rcases h with ⟨verb, write, t', dot, name, g', target, rfl, -, rfl⟩ |
      ⟨offset, mode, ts, hinside, h⟩
  · have hj : k + 3 = j := (List.cons.inj (List.append_cancel_left hplace)).1
    have hcall : ∀ t g, Piece.call verb write t' dot name g' ≠ .attr t g := by simp
    exact (l.mem_iff hattr hpred hinherited hmem hcall).trans
      (LevelEntry.unended_iff hattr hmem hcall (by omega) (by simp [Piece.tokens]; omega)
        (.inr rfl))
  · obtain ⟨q', hq', -⟩ := h.place
    have hj : k + offset = j := by
      have hcut : l.here ++ (k + offset) :: q' = l.here ++ j :: q := by
        rw [← hplace, hq']
        simp
      exact (List.cons.inj (List.append_cancel_left hcut)).1
    have hne : ∀ t g, pc ≠ .attr t g := by
      rintro t g rfl
      cases hinside
    have hoffset := Piece.offset_lt hinside
    have hends : j = k ∨ pc.ends = false := by
      cases pc with
      | attr t g => cases hinside
      | item t => cases hinside
      | call => exact .inr rfl
      | token t ends => cases hinside; exact .inl hj.symm
    rw [h.mem_cfgs_iff (by simp)]
    exact (l.mem_iff hattr hpred hinherited hmem hne).trans
      (LevelEntry.unended_iff hattr hmem hne (by omega) (by omega) hends)

/-- A reported call carries the predicate of an attribute where it stands behind the attribute
in its level, or in what a token behind it holds, and no token between the two ends a scope. -/
theorem mem_cfgs_iff {body : List TokenTree} {l : LevelEntry} {a : ℕ} {t g : TokenTree}
    {cfgs : List Cfg} {pred : List TokenTree} (hl : Enters node verbs (.body body) l)
    (hattr : (a, .attr t g, cfgs) ∈ l.pieces node verbs) (hpred : cfgAttrPredicate g = some pred)
    {call : VerbCall} (hcall : Reports node verbs syn (.body body) call) :
    ⟨l.here ++ [a], pred⟩ ∈ call.cfgs ↔ ∃ j q, call.place = l.here ++ j :: q ∧ a < j ∧
      ∀ j', a < j' → j' < j → ¬ l.EndsAt node verbs j' := by
  have hinherited : ⟨l.here ++ [a], pred⟩ ∉ l.inherited := by
    intro hmem
    rcases hl.origin hmem with h | ⟨q, a', k, q', hplace, hhere⟩
    · cases h
    · have hlen := congrArg List.length hplace
      simp [hhere] at hlen
  constructor
  · intro hmem
    have hthrough : ∃ j q, call.place = l.here ++ j :: q := by
      obtain ⟨l', k, verb, write, t', dot, name, g', cfgs', target, hent, hmem', -, rfl⟩ := hcall
      rcases LevelEntry.origin hmem' hmem with hin | ⟨a', hplace⟩
      · rcases hent.origin hin with h | ⟨q, a', k', q', hplace, hhere⟩
        · cases h
        · obtain ⟨hq, -⟩ := List.append_inj' hplace rfl
          exact ⟨k', q' ++ [k + 3], by simp [hhere, hq]⟩
      · obtain ⟨hq, -⟩ := List.append_inj' hplace rfl
        exact ⟨k + 3, [], by rw [hq]⟩
    obtain ⟨j, q, hplace⟩ := hthrough
    exact ⟨j, q, hplace, ((hl.reports hplace hcall).mem_cfgs_iff_of_level hattr hpred hinherited
      hplace).mp hmem⟩
  · rintro ⟨j, q, hplace, hbehind⟩
    exact ((hl.reports hplace hcall).mem_cfgs_iff_of_level hattr hpred hinherited hplace).mpr
      hbehind

theorem Reports.behind_attr {l : LevelEntry} {a j : ℕ} {t g : TokenTree} {cfgs : List Cfg}
    {call : VerbCall} {q : Place} (h : Reports node verbs syn l call)
    (hattr : (a, .attr t g, cfgs) ∈ l.pieces node verbs) (hplace : call.place = l.here ++ j :: q)
    (hlt : a < j) : a + 2 ≤ j := by
  obtain ⟨k, pc, cfgs', hmem, h⟩ := reports_iff.mp h
  obtain ⟨j', q', hplace', hle, hlt'⟩ := h.place
  obtain rfl : j' = j :=
    (List.cons.inj (List.append_cancel_left (hplace'.symm.trans hplace))).1
  by_contra hj
  have heq := LevelEntry.piece_unique hattr hmem (j := j') ⟨by omega, by simp [Piece.tokens]; omega⟩
    ⟨hle, hlt'⟩
  obtain rfl : Piece.attr t g = pc := (Prod.mk.inj (Prod.mk.inj heq).2).1
  rcases h with ⟨_, _, _, _, _, _, _, hpc, -⟩ | ⟨_, _, _, hpc, -⟩ <;> cases hpc

/-! ## A statement and its predicate -/

/-- What holds of the reports on a body with `#[cfg(P)] S` in it: the attribute stands at an
index of a level, and `S` is what follows it up to another index. -/
structure Attributed (node : String) (verbs : VerbTable) (body : List TokenTree) (log : CallLog)
    (here : Place) (a : ℕ) (pred : List TokenTree) (stop : ℕ) : Prop where
  inside : ∀ p, Recognises node verbs (.body body) p → Inside here (a + 2) stop p →
    ∃ e ∈ log, e.1.place = p ∧ ⟨here ++ [a], pred⟩ ∈ e.1.cfgs
  outside : ∀ e ∈ log, ¬ Inside here (a + 2) stop e.1.place → ⟨here ++ [a], pred⟩ ∉ e.1.cfgs

/-- The predicate of a statement reaches the statement's calls and no others exactly where,
for each call recognised behind the attribute, the call belongs to the statement if and only
if no token between the two ends a scope. -/
theorem attributed_iff {σ : Type}
    {onCall : VerbCall → σ → Except String (Option (List TokenTree) × σ)}
    {body out : List TokenTree} {st st' : σ} {log : CallLog} {l : LevelEntry} {a : ℕ}
    {t g : TokenTree} {cfgs : List Cfg} {pred : List TokenTree}
    (hrun : rewriteVerbCalls node verbs syn (logged onCall) body (st, []) = .ok (out, (st', log)))
    (hl : Enters node verbs (.body body) l) (hattr : (a, .attr t g, cfgs) ∈ l.pieces node verbs)
    (hpred : cfgAttrPredicate g = some pred) (stop : ℕ) :
    Attributed node verbs body log l.here a pred stop ↔
      ∀ j q, Recognises node verbs (.body body) (l.here ++ j :: q) → a + 2 ≤ j →
        (j < stop ↔ ∀ j', a < j' → j' < j → ¬ l.EndsAt node verbs j') := by
  obtain ⟨hnodup, hlog, -⟩ := rewriteVerbCalls_traced hrun
  have carries : ∀ e ∈ log, ⟨l.here ++ [a], pred⟩ ∈ e.1.cfgs ↔ ∃ j q,
      e.1.place = l.here ++ j :: q ∧ a < j ∧ ∀ j', a < j' → j' < j → ¬ l.EndsAt node verbs j' :=
    fun e he => mem_cfgs_iff hl hattr hpred ((hlog _).mp (List.mem_map_of_mem he))
  have same : ∀ {p : Place} {j j' : ℕ} {q q' : Place}, p = l.here ++ j :: q →
      p = l.here ++ j' :: q' → j = j' := fun h h' =>
    (List.cons.inj (List.append_cancel_left (h.symm.trans h'))).1
  constructor
  · intro h j q hrec hle
    constructor
    · intro hlt
      obtain ⟨e, he, hplace, hmem⟩ := h.inside _ hrec ⟨j, q, rfl, hle, hlt⟩
      obtain ⟨j', q', hplace', -, hunended⟩ := (carries e he).mp hmem
      exact same hplace hplace' ▸ hunended
    · intro hunended
      by_contra hlt
      obtain ⟨e, he, hplace⟩ := (recognises_iff hrun _).mp hrec
      refine h.outside e he ?_ ((carries e he).mpr ⟨j, q, hplace, by omega, hunended⟩)
      rintro ⟨j', q', hplace', -, hlt'⟩
      exact hlt (same hplace hplace' ▸ hlt')
  · intro h
    refine ⟨?_, fun e he hout hmem => ?_⟩
    · rintro p hrec ⟨j, q, rfl, hle, hlt⟩
      obtain ⟨e, he, hplace⟩ := (recognises_iff hrun _).mp hrec
      exact ⟨e, he, hplace,
        (carries e he).mpr ⟨j, q, hplace, by omega, (h j q hrec hle).mp hlt⟩⟩
    · obtain ⟨j, q, hplace, hlt, hunended⟩ := (carries e he).mp hmem
      have hreport := hl.reports hplace ((hlog _).mp (List.mem_map_of_mem he))
      have hle : a + 2 ≤ j := hreport.behind_attr hattr hplace hlt
      have hrec : Recognises node verbs (.body body) (l.here ++ j :: q) :=
        hplace ▸ (recognises_iff hrun _).mpr ⟨e, he, rfl⟩
      exact hout ⟨j, q, hplace, hle, (h j q hrec hle).mpr hunended⟩

/-- `#[cfg(P)] let m: M<A, B> = f(node.put(&X));` -/
def genericStatement : List TokenTree :=
  [.punct '#' .alone, .group .bracket [.ident "cfg", .group .parenthesis [.ident "P"]],
    .ident "let", .ident "m", .punct ':' .alone, .ident "M", .punct '<' .alone, .ident "A",
    .punct ',' .alone, .ident "B", .punct '>' .alone, .punct '=' .alone, .ident "f",
    .group .parenthesis (putCall "X"), .punct ';' .alone]

/-- The call of the statement is reported without the predicate. -/
theorem genericStatement_not_attributed :
    rewriteVerbCalls "node" {} nameSyntax (logged decline) genericStatement ((), []) =
      .ok (genericStatement, ((), [(putReport "X" [13, 3], none)])) ∧
    ¬ Attributed "node" {} genericStatement [(putReport "X" [13, 3], none)] [] 0 [.ident "P"]
      15 := by
  have hrun : rewriteVerbCalls "node" {} nameSyntax (logged decline) genericStatement ((), []) =
      .ok (genericStatement, ((), [(putReport "X" [13, 3], none)])) := rfl
  refine ⟨hrun, fun h => ?_⟩
  have hrec : Recognises "node" {} (.body genericStatement) [13, 3] :=
    (recognises_iff hrun _).mpr ⟨_, List.mem_singleton.mpr rfl, rfl⟩
  obtain ⟨e, he, -, hmem⟩ := h.inside _ hrec ⟨13, [3], rfl, by decide, by decide⟩
  obtain rfl := List.mem_singleton.mp he
  cases hmem

/-- `#[cfg(P)] node.put(&X); node.put(&Y);` -/
def plainStatements : List TokenTree :=
  [.punct '#' .alone, .group .bracket [.ident "cfg", .group .parenthesis [.ident "P"]]] ++
    putCall "X" ++ [.punct ';' .alone] ++ putCall "Y" ++ [.punct ';' .alone]

def plainLog : CallLog :=
  [({ putReport "X" [5] with cfgs := [⟨[0], [.ident "P"]⟩] }, none), (putReport "Y" [10], none)]

/-- The first call has the predicate, the second one has not. -/
theorem plainStatements_attributed :
    Attributed "node" {} plainStatements plainLog [] 0 [.ident "P"] 7 := by
  have hrun : rewriteVerbCalls "node" {} nameSyntax (logged decline) plainStatements ((), []) =
      .ok (plainStatements, ((), plainLog)) := rfl
  have hattr : (0, Piece.attr (.punct '#' .alone)
      (.group .bracket [.ident "cfg", .group .parenthesis [.ident "P"]]), []) ∈
      (LevelEntry.body plainStatements).pieces "node" {} := by decide
  refine (attributed_iff hrun (.self _) hattr rfl 7).mpr fun j q hrec _ => ?_
  have hends : ∀ x ∈ (LevelEntry.body plainStatements).pieces "node" {},
      x.2.1.ends = true → x.1 = 6 ∨ x.1 = 11 := by decide
  obtain ⟨e, he, hplace⟩ := (recognises_iff hrun _).mp hrec
  rcases List.mem_pair.mp he with rfl | rfl
  · obtain rfl : 5 = j := (List.cons.inj hplace).1
    refine iff_of_true (by decide) fun j' _ hj' hend => ?_
    obtain ⟨pc, cfgs, hmem, hend⟩ := hend
    rcases hends _ hmem hend with h | h
    · simp only at h; omega
    · simp only at h; omega
  · obtain rfl : 10 = j := (List.cons.inj hplace).1
    refine iff_of_false (by decide) fun hall => hall 6 (by decide) (by decide) ?_
    have hmem : (6, Piece.token (.punct ';' .alone) true, [⟨[0], [.ident "P"]⟩]) ∈
        (LevelEntry.body plainStatements).pieces "node" {} := by decide
    exact ⟨_, _, hmem, rfl⟩

end EmbassySupervisor
