/-
# Crate paths of a fragment

A fragment is parsed where it is written and compiled where it is composed, so its
`crate` paths go through `$crate`: `validate_dollars` accepts no other `$`,
`normalize_fragment_crate` puts the `$` before each bare `crate`, and
`substitute_dollar_crate` resolves `$crate` to the path a compose site names.

`Accepted` and `Normal` are the streams the first takes and the second gives, as
grammars; the results follow by induction on them.
-/

import EmbassySupervisor.Lib.TokenTree

namespace EmbassySupervisor

open TokenTree

/-! ## The rewrites -/

mutual

def normalizeTree : TokenTree → TokenTree
  | .group d ts => .group d (normalizeFragmentCrate ts)
  | t => t

def normalizeFragmentCrate : List TokenTree → List TokenTree
  | [] => []
  | .punct c s :: .ident i :: rest =>
    if c = '$' ∧ i = "crate" then .punct c s :: .ident i :: normalizeFragmentCrate rest
    else .punct c s :: normalizeFragmentCrate (.ident i :: rest)
  | .ident i :: rest =>
    if i = "crate" then .punct '$' .joint :: .ident i :: normalizeFragmentCrate rest
    else .ident i :: normalizeFragmentCrate rest
  | t :: rest => normalizeTree t :: normalizeFragmentCrate rest

end

mutual

def substituteTree (replacement : List TokenTree) : TokenTree → TokenTree
  | .group d ts => .group d (substituteDollarCrate replacement ts)
  | t => t

def substituteDollarCrate (replacement : List TokenTree) : List TokenTree → List TokenTree
  | [] => []
  | .punct c s :: .ident i :: rest =>
    if c = '$' ∧ i = "crate" then replacement ++ substituteDollarCrate replacement rest
    else .punct c s :: substituteDollarCrate replacement (.ident i :: rest)
  | t :: rest => substituteTree replacement t :: substituteDollarCrate replacement rest

end

/-- What a `$` has to stand before. -/
def dollarError : String :=
  "only `$crate` is permitted in a fragment — any other `$` " ++
    "would be read as a metavariable by the relay macro"

mutual

def validateTree : TokenTree → Except String Unit
  | .group _ ts => validateDollars ts
  | _ => .ok ()

def validateDollars : List TokenTree → Except String Unit
  | [] => .ok ()
  | .punct c _ :: rest =>
    if c = '$' then
      match rest with
      | .ident i :: _ => if i = "crate" then validateDollars rest else .error dollarError
      | _ => .error dollarError
    else validateDollars rest
  | t :: rest => do
    validateTree t
    validateDollars rest

end

theorem validateDollars_group (d : Delimiter) (ts rest : List TokenTree) :
    validateDollars (.group d ts :: rest) =
      (validateDollars ts).bind fun _ => validateDollars rest := rfl

@[simp] theorem validateDollars_ident (i : String) (rest : List TokenTree) :
    validateDollars (.ident i :: rest) = validateDollars rest := rfl

@[simp] theorem validateDollars_literal (l : String) (rest : List TokenTree) :
    validateDollars (.literal l :: rest) = validateDollars rest := rfl

@[simp] theorem validateDollars_dollar (s : Spacing) (rest : List TokenTree) :
    validateDollars (.punct '$' s :: .ident "crate" :: rest) = validateDollars rest := rfl

/-! ## What is accepted -/

/-- A token that none of the three looks at: no group, no `$`, no `crate`. -/
def Plain : TokenTree → Prop
  | .group .. => False
  | .punct c _ => c ≠ '$'
  | .ident i => i ≠ "crate"
  | .literal _ => True

/-- Streams in which each `$` stands before a `crate`. -/
inductive Accepted : List TokenTree → Prop
  | nil : Accepted []
  | group {d ts rest} : Accepted ts → Accepted rest → Accepted (.group d ts :: rest)
  | dollar {s rest} : Accepted rest → Accepted (.punct '$' s :: .ident "crate" :: rest)
  | bare {rest} : Accepted rest → Accepted (.ident "crate" :: rest)
  | plain {t rest} : Plain t → Accepted rest → Accepted (t :: rest)

/-- Accepted streams in which also each `crate` stands behind a `$`. -/
inductive Normal : List TokenTree → Prop
  | nil : Normal []
  | group {d ts rest} : Normal ts → Normal rest → Normal (.group d ts :: rest)
  | dollar {s rest} : Normal rest → Normal (.punct '$' s :: .ident "crate" :: rest)
  | plain {t rest} : Plain t → Normal rest → Normal (t :: rest)

/-- A stream and what it is with every `$crate` in it, at any depth, replaced by `crate`
and nothing else changed. -/
inductive Undollared : List TokenTree → List TokenTree → Prop
  | nil : Undollared [] []
  | group {d ts ts' rest rest'} : Undollared ts ts' → Undollared rest rest' →
      Undollared (.group d ts :: rest) (.group d ts' :: rest')
  | dollar {s rest rest'} : Undollared rest rest' →
      Undollared (.punct '$' s :: .ident "crate" :: rest) (.ident "crate" :: rest')
  | bare {rest rest'} : Undollared rest rest' →
      Undollared (.ident "crate" :: rest) (.ident "crate" :: rest')
  | plain {t rest rest'} : Plain t → Undollared rest rest' →
      Undollared (t :: rest) (t :: rest')

/-- Only a stream of the grammar is accepted. -/
theorem accepted_of_validateDollars (items : List TokenTree)
    (h : validateDollars items = .ok ()) : Accepted items := by
  induction items using stream_induction with
  | nil => exact .nil
  | group d ts rest ihInner ih =>
      cases hinner : validateDollars ts with
      | error e => simp [validateDollars_group, hinner, Except.bind] at h
      | ok u =>
          have hrest : validateDollars rest = .ok () := by
            simpa [validateDollars_group, hinner, Except.bind] using h
          exact .group (ihInner hinner) (ih hrest)
  | leaf t rest ht ih =>
      cases t with
      | group d ts => cases ht
      | ident i =>
          have hrest : Accepted rest := ih (by simpa using h)
          by_cases hi : i = "crate"
          · exact hi ▸ .bare hrest
          · exact .plain hi hrest
      | literal l => exact .plain trivial (ih (by simpa using h))
      | punct c s =>
          by_cases hc : c = '$'
          · subst hc
            match rest, h, ih with
            | [], h, _ => simp [validateDollars] at h
            | .group .. :: _, h, _ => simp [validateDollars] at h
            | .punct .. :: _, h, _ => simp [validateDollars] at h
            | .literal _ :: _, h, _ => simp [validateDollars] at h
            | .ident i :: tail, h, ih =>
              by_cases hi : i = "crate"
              · subst hi
                cases ih (by simpa [validateDollars] using h) with
                | bare htail => exact .dollar htail
                | plain hplain _ => exact absurd rfl hplain
              · simp [validateDollars, hi] at h
          · exact .plain hc (ih (by simpa [validateDollars, hc] using h))

/-- A stream of the grammar with every `crate` behind a `$` is accepted. -/
theorem Normal.validateDollars_eq {items : List TokenTree} (h : Normal items) :
    validateDollars items = .ok () := by
  induction h with
  | nil => rfl
  | group _ _ ihInner ih => rw [validateDollars_group, ihInner]; exact ih
  | dollar _ ih => simpa using ih
  | @plain t rest ht _ ih =>
      cases t with
      | group d ts => exact ht.elim
      | ident i => simpa using ih
      | literal l => simpa using ih
      | punct c s => simpa [validateDollars, show c ≠ '$' from ht] using ih

/-- A token that the rewrites do not look at stays, before any stream. -/
theorem normalizeFragmentCrate_plain {t : TokenTree} (ht : Plain t) (rest : List TokenTree) :
    normalizeFragmentCrate (t :: rest) = t :: normalizeFragmentCrate rest := by
  cases t with
  | group d ts => exact ht.elim
  | ident i => simp [normalizeFragmentCrate, show i ≠ "crate" from ht]
  | literal l => rfl
  | punct c s =>
      have hc : c ≠ '$' := ht
      cases rest with
      | nil => rfl
      | cons u rest => cases u <;> simp [normalizeFragmentCrate, normalizeTree, hc]

theorem substituteDollarCrate_plain {t : TokenTree} (ht : Plain t)
    (replacement rest : List TokenTree) :
    substituteDollarCrate replacement (t :: rest) =
      t :: substituteDollarCrate replacement rest := by
  cases t with
  | group d ts => exact ht.elim
  | ident i => rfl
  | literal l => rfl
  | punct c s =>
      have hc : c ≠ '$' := ht
      cases rest with
      | nil => rfl
      | cons u rest => cases u <;> simp [substituteDollarCrate, substituteTree, hc]

/-! ## The round trip -/

theorem Accepted.normal {items : List TokenTree} (h : Accepted items) :
    Normal (normalizeFragmentCrate items) := by
  induction h with
  | nil => exact .nil
  | group _ _ ihInner ih => exact .group ihInner ih
  | dollar _ ih => exact .dollar ih
  | bare _ ih => exact .dollar ih
  | plain ht _ ih =>
      rw [normalizeFragmentCrate_plain ht]
      exact .plain ht ih

theorem Normal.normalize_eq {items : List TokenTree} (h : Normal items) :
    normalizeFragmentCrate items = items := by
  induction h with
  | nil => rfl
  | @group d ts rest _ _ ihInner ih =>
      calc normalizeFragmentCrate (.group d ts :: rest)
          = .group d (normalizeFragmentCrate ts) :: normalizeFragmentCrate rest := rfl
        _ = .group d ts :: rest := by rw [ihInner, ih]
  | @dollar s rest _ ih =>
      exact congrArg (fun ts => .punct '$' s :: .ident "crate" :: ts) ih
  | plain ht _ ih => rw [normalizeFragmentCrate_plain ht, ih]

/-- Resolving the normalised stream to `crate` undoes the normalisation. -/
theorem Accepted.undollared {items : List TokenTree} (h : Accepted items) :
    Undollared items (substituteDollarCrate [.ident "crate"] (normalizeFragmentCrate items)) := by
  induction h with
  | nil => exact .nil
  | group _ _ ihInner ih => exact .group ihInner ih
  | dollar _ ih => exact .dollar ih
  | bare _ ih => exact .bare ih
  | plain ht _ ih =>
      rw [normalizeFragmentCrate_plain ht, substituteDollarCrate_plain ht]
      exact .plain ht ih

/-- Each `crate` of a stream stands directly behind a `$`. -/
def CratesPrefixed (ts : List TokenTree) : Prop :=
  ∀ front back, ts = front ++ .ident "crate" :: back →
    ∃ front' s, front = front' ++ [.punct '$' s]

theorem CratesPrefixed.cons {t : TokenTree} {ts : List TokenTree} (ht : t ≠ .ident "crate")
    (h : CratesPrefixed ts) : CratesPrefixed (t :: ts) := by
  intro front back hcut
  cases front with
  | nil => exact absurd (List.cons.inj hcut).1 ht
  | cons u front =>
      obtain ⟨front', s, rfl⟩ := h front back (List.cons.inj hcut).2
      exact ⟨u :: front', s, rfl⟩

theorem CratesPrefixed.dollar {s : Spacing} {ts : List TokenTree} (h : CratesPrefixed ts) :
    CratesPrefixed (.punct '$' s :: .ident "crate" :: ts) := by
  intro front back hcut
  match front, hcut with
  | [t], hcut => exact ⟨[], s, by simp at hcut; simp [hcut]⟩
  | t :: u :: front, hcut =>
    obtain ⟨front', s', rfl⟩ := h front back (by simp at hcut; exact hcut.2.2)
    exact ⟨t :: u :: front', s', rfl⟩

theorem Normal.cratesPrefixed {items : List TokenTree} (h : Normal items) :
    CratesPrefixed items := by
  induction h with
  | nil => intro front back hcut; simp at hcut
  | group _ _ _ ih => exact .cons (by simp) ih
  | dollar _ ih => exact .dollar ih
  | @plain t _ ht _ ih => exact .cons (fun heq => absurd rfl (heq ▸ ht : Plain (.ident "crate"))) ih

theorem Normal.of_mem {items inner : List TokenTree} {d : Delimiter} (h : Normal items)
    (hmem : .group d inner ∈ items) : Normal inner := by
  induction h with
  | nil => cases hmem
  | group hts _ _ ih =>
      rcases List.mem_cons.mp hmem with heq | hmem
      · exact (TokenTree.group.inj heq).2 ▸ hts
      · exact ih hmem
  | dollar _ ih => exact ih (by simpa using hmem)
  | plain ht _ ih =>
      rcases List.mem_cons.mp hmem with rfl | hmem
      · exact ht.elim
      · exact ih hmem

theorem Normal.level {items ts : List TokenTree} (h : Normal items) (hlevel : Level items ts) :
    Normal ts := by
  induction hlevel with
  | top => exact h
  | inner _ hmem ih => exact ih.of_mem hmem

/-- The replaced stream is the only one of its kind. -/
theorem Undollared.unique {items out out' : List TokenTree} (h : Undollared items out)
    (h' : Undollared items out') : out = out' := by
  induction h generalizing out' with
  | nil => cases h'; rfl
  | group _ _ ihInner ih =>
      cases h' with
      | group hinner hrest => rw [ihInner hinner, ih hrest]
      | plain ht _ => exact ht.elim
  | dollar _ ih =>
      cases h' with
      | dollar hrest => rw [ih hrest]
      | plain ht _ => exact absurd rfl ht
  | bare _ ih =>
      cases h' with
      | bare hrest => rw [ih hrest]
      | plain ht _ => exact absurd rfl ht
  | plain ht _ ih =>
      cases h' with
      | plain _ hrest => rw [ih hrest]
      | group => exact ht.elim
      | dollar => exact absurd rfl ht
      | bare => exact absurd rfl ht

/-- The crate paths of an accepted fragment survive normalisation and resolution. -/
theorem fragment_crate_round_trip {items : List TokenTree}
    (haccepted : validateDollars items = .ok ()) :
    (∀ ts, Level (normalizeFragmentCrate items) ts → CratesPrefixed ts) ∧
    validateDollars (normalizeFragmentCrate items) = .ok () ∧
    normalizeFragmentCrate (normalizeFragmentCrate items) = normalizeFragmentCrate items ∧
    ∀ out, Undollared items out ↔
      out = substituteDollarCrate [.ident "crate"] (normalizeFragmentCrate items) := by
  have h : Accepted items := accepted_of_validateDollars items haccepted
  refine ⟨fun ts hlevel => (h.normal.level hlevel).cratesPrefixed, h.normal.validateDollars_eq,
    h.normal.normalize_eq, fun out => ⟨fun hout => hout.unique h.undollared, ?_⟩⟩
  rintro rfl
  exact h.undollared

/-- `use crate::a; m!{ $crate::b }`. -/
theorem fragment_crate_round_trip_paths :
    validateDollars (normalizeFragmentCrate [.ident "use", .ident "crate", .punct ':' .joint,
      .punct ':' .alone, .ident "a", .punct ';' .alone,
      .group .brace [.punct '$' .alone, .ident "crate"]]) = .ok () :=
  (fragment_crate_round_trip rfl).2.1

end EmbassySupervisor
