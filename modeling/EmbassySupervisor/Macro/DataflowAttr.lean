/-
# Dataflow attributes

A function is a `#[dataflow]` function by that attribute, or by one that comes out of
`#[cfg_attr(P, ..)]` where `P` holds. The compiler takes the `cfg_attr`s off before the
macro runs, in each build its own way (`inForce`). Whoever reads the attributes as written
takes them off by hand, and keeps the predicates (`unwrapCfgAttr`).
-/

import EmbassySupervisor.Macro.Derived

namespace EmbassySupervisor

open TokenTree

/-- What stands between the brackets of an attribute. `args` are the metas that the tokens of
a list parse as, and empty where they are no metas. -/
inductive AttrMeta
  | path (p : List TokenTree)
  | list (p : List TokenTree) (delimiter : Delimiter) (tokens : List TokenTree)
      (args : List AttrMeta)
  | nameValue (p value : List TokenTree)

namespace AttrMeta

def pathTokens : AttrMeta → List TokenTree
  | .path p => p
  | .list p _ _ _ => p
  | .nameValue p _ => p

def toTokens : AttrMeta → List TokenTree
  | .path p => p
  | .list p d tokens _ => p ++ [.group d tokens]
  | .nameValue p value => p ++ .punct '=' .alone :: value

/-- Whether the last segment of the path is `dataflow`. -/
def isDataflow (m : AttrMeta) : Bool := m.pathTokens.getLast? = some (.ident "dataflow")

/-- Whether it is a `#[cfg(..)]`. -/
def isCfg : AttrMeta → Bool
  | .list p _ _ _ => p = [.ident "cfg"]
  | .path _ | .nameValue _ _ => false

/-- What the compiler hands to the macro; it refuses a value. -/
def macroArgs : AttrMeta → Option (List TokenTree)
  | .path _ => some []
  | .list _ _ tokens _ => some tokens
  | .nameValue _ _ => none

end AttrMeta

/-! ## As written -/

mutual

def unwrapCfgAttr : AttrMeta → Option (AttrMeta × List Pred)
  | .path p => if (AttrMeta.path p).isDataflow then some (.path p, []) else none
  | .nameValue p value =>
    if (AttrMeta.nameValue p value).isDataflow then some (.nameValue p value, []) else none
  | .list p d tokens args =>
    if (AttrMeta.list p d tokens args).isDataflow then some (.list p d tokens args, [])
    else if p = [.ident "cfg_attr"] then
      match args with
      | [] => none
      | pred :: rest => (unwrapFirst rest).map fun r => (r.1, pred.toTokens :: r.2)
    else none

def unwrapFirst : List AttrMeta → Option (AttrMeta × List Pred)
  | [] => none
  | m :: rest => (unwrapCfgAttr m).or (unwrapFirst rest)

end

/-- The predicates of the `#[cfg]`s among some attributes. -/
def fnCfgs (attrs : List AttrMeta) : List Pred :=
  attrs.filterMap fun
    | .list p _ tokens _ => if p = [.ident "cfg"] then some tokens else none
    | _ => none

/-- A function with its attributes as written. -/
structure AttrFn where
  attrs : List AttrMeta
  item : FnItem

/-- The first attribute that is or holds a `dataflow`. -/
def AttrFn.dataflowAttr (f : AttrFn) : Option (AttrMeta × List Pred) := unwrapFirst f.attrs

/-! ## In a build -/

section Build

variable (syn : ExprSyntax) (σ : Assignment)

mutual

/-- What an attribute comes to. -/
def AttrMeta.inForce : AttrMeta → List AttrMeta
  | .path p => [.path p]
  | .nameValue p value => [.nameValue p value]
  | .list p d tokens args =>
    if p = [.ident "cfg_attr"] then
      match args with
      | [] => []
      | pred :: rest => if holds syn σ pred.toTokens then inForceAll rest else []
    else [.list p d tokens args]

def inForceAll : List AttrMeta → List AttrMeta
  | [] => []
  | m :: rest => m.inForce ++ inForceAll rest

end

namespace AttrFn

variable (f : AttrFn)

/-- The `dataflow` attributes that the build applies to a function. -/
def dataflowAttrs : List AttrMeta := (inForceAll syn σ f.attrs).filter (·.isDataflow)

def compiledIn : Bool := (fnCfgs (inForceAll syn σ f.attrs)).all (holds syn σ)

/-- Whether the `#[cfg]`s written on a function hold. -/
def ownCfgsHold : Bool := (fnCfgs f.attrs).all (holds syn σ)

/-- A call that the verbs of an attribute recognise in a function. -/
def Calls (m : AttrMeta) (call : VerbCall) : Prop :=
  ∃ args verbs param, m.macroArgs = some args ∧ VerbTable.parse {} args = .ok verbs ∧
    nodeParam syn f.item.inputs = some param ∧ Reports param verbs syn (.body f.item.block) call

variable (features : Features)

/-- The macro derives the tables of a function, in each build that applies it. -/
def Expands : Prop := ∀ σ, ∀ m ∈ f.dataflowAttrs syn σ, ∃ args r, m.macroArgs = some args ∧
  dataflowCollect features syn args f.item = .ok r

/-- A path is in the table that the build has for a function and a direction. -/
def Derives (quoteSig : Sig → List TokenTree) (write : Bool) (path : String) : Prop :=
  f.compiledIn syn σ = true ∧ ∃ m ∈ f.dataflowAttrs syn σ, ∃ args x, m.macroArgs = some args ∧
    dataflowExpand features syn quoteSig args f.item = .ok x ∧
    ∃ entry ∈ (x.side write).under syn σ, entry.path = path

end AttrFn

end Build

/-! ## The attribute found and those in force -/

section Unwrap

variable {syn : ExprSyntax} {σ : Assignment}

mutual

/-- The attribute found is in force where all predicates around it hold. -/
theorem mem_inForce_of_unwrap : ∀ (m : AttrMeta) {attr : AttrMeta} {preds : List Pred},
    unwrapCfgAttr m = some (attr, preds) → preds.all (holds syn σ) = true →
    attr ∈ m.inForce syn σ ∧ attr.isDataflow = true
  | .path p, attr, preds, h, hpreds => by
      simp only [unwrapCfgAttr] at h
      split at h
      · next hdataflow => cases h; exact ⟨by simp [AttrMeta.inForce], hdataflow⟩
      · cases h
  | .nameValue p value, attr, preds, h, hpreds => by
      simp only [unwrapCfgAttr] at h
      split at h
      · next hdataflow => cases h; exact ⟨by simp [AttrMeta.inForce], hdataflow⟩
      · cases h
  | .list p d tokens [], attr, preds, h, hpreds => by
      simp only [unwrapCfgAttr] at h
      split at h
      · next hdataflow =>
          cases h
          refine ⟨?_, hdataflow⟩
          have hp : p ≠ [.ident "cfg_attr"] := by
            rintro rfl
            cases hdataflow
          simp [AttrMeta.inForce, hp]
      · split at h <;> cases h
  | .list p d tokens (pred :: rest), attr, preds, h, hpreds => by
      simp only [unwrapCfgAttr] at h
      split at h
      · next hdataflow =>
          cases h
          refine ⟨?_, hdataflow⟩
          have hp : p ≠ [.ident "cfg_attr"] := by
            rintro rfl
            cases hdataflow
          simp [AttrMeta.inForce, hp]
      · split at h
        · next hp =>
            obtain ⟨⟨attr', preds'⟩, hrest, heq⟩ := Option.map_eq_some_iff.mp h
            cases heq
            rw [List.all_cons, Bool.and_eq_true] at hpreds
            simp only [AttrMeta.inForce, if_pos hp, hpreds.1, if_true]
            exact mem_inForceAll_of_unwrap rest hrest hpreds.2
        · cases h

theorem mem_inForceAll_of_unwrap : ∀ (ms : List AttrMeta) {attr : AttrMeta} {preds : List Pred},
    unwrapFirst ms = some (attr, preds) → preds.all (holds syn σ) = true →
    attr ∈ inForceAll syn σ ms ∧ attr.isDataflow = true
  | [], attr, preds, h, hpreds => by cases h
  | m :: rest, attr, preds, h, hpreds => by
      simp only [unwrapFirst, inForceAll, List.mem_append] at h ⊢
      rcases Option.or_eq_some_iff.mp h with h | ⟨-, h⟩
      · exact (mem_inForce_of_unwrap m h hpreds).imp_left .inl
      · exact (mem_inForceAll_of_unwrap rest h hpreds).imp_left .inr

end

theorem mem_dataflowAttrs {f : AttrFn} {attr : AttrMeta} {preds : List Pred}
    (h : f.dataflowAttr = some (attr, preds)) (hpreds : preds.all (holds syn σ) = true) :
    attr ∈ f.dataflowAttrs syn σ :=
  List.mem_filter.mpr (mem_inForceAll_of_unwrap f.attrs h hpreds)

theorem mem_fnCfgs {attrs : List AttrMeta} {p : Pred} :
    p ∈ fnCfgs attrs ↔ ∃ d args, .list [.ident "cfg"] d p args ∈ attrs := by
  unfold fnCfgs
  rw [List.mem_filterMap]
  constructor
  · rintro ⟨m, hm, hp⟩
    cases m with
    | path q => cases hp
    | nameValue q value => cases hp
    | list q d tokens args =>
        simp only [Option.ite_none_right_eq_some, Option.some.injEq] at hp
        obtain ⟨rfl, rfl⟩ := hp
        exact ⟨d, args, hm⟩
  · rintro ⟨d, args, hm⟩
    exact ⟨_, hm, by simp⟩

theorem mem_inForceAll {m m' : AttrMeta} {attrs : List AttrMeta} (hm : m ∈ attrs)
    (h : m' ∈ m.inForce syn σ) : m' ∈ inForceAll syn σ attrs := by
  induction attrs with
  | nil => cases hm
  | cons a attrs ih =>
      simp only [inForceAll, List.mem_append]
      rcases List.mem_cons.mp hm with rfl | hm
      · exact .inl h
      · exact .inr (ih hm)

/-- The `#[cfg]`s written on a function are among those in force. -/
theorem AttrFn.ownCfgsHold_of_compiledIn {f : AttrFn} (h : f.compiledIn syn σ = true) :
    f.ownCfgsHold syn σ = true := by
  refine List.all_eq_true.mpr fun p hp => List.all_eq_true.mp h p ?_
  obtain ⟨d, args, hm⟩ := mem_fnCfgs.mp hp
  exact mem_fnCfgs.mpr ⟨d, args, mem_inForceAll hm (by simp [AttrMeta.inForce])⟩

end Unwrap

/-! ## The table in a build -/

section Table

variable {syn : ExprSyntax} {σ : Assignment} {features : Features} {f : AttrFn}

/-- The calls of an attribute are the reports of the first pass with its verbs. -/
theorem AttrFn.calls_iff {m : AttrMeta} {args : List TokenTree} {param : String}
    {verbs : VerbTable} {tables : Tables} (hargs : m.macroArgs = some args)
    (hcollect : dataflowCollect features syn args f.item = .ok (param, verbs, tables))
    (call : VerbCall) :
    f.Calls syn m call ↔ Reports param verbs syn (.body f.item.block) call := by
  obtain ⟨hverbs, hparam⟩ := dataflowCollect_ok hcollect
  constructor
  · rintro ⟨args', verbs', param', hargs', hverbs', hparam', h⟩
    cases hargs.symm.trans hargs'
    cases hverbs.symm.trans hverbs'
    cases hparam.symm.trans hparam'
    exact h
  · exact fun h => ⟨args, verbs, param, hargs, hverbs, hparam, h⟩

/-- A path is in the table of a build where an attribute in force has an enabled call of it. -/
theorem AttrFn.Expands.derives_iff (hexpands : f.Expands syn features)
    (quoteSig : Sig → List TokenTree) (write : Bool) (path : String) :
    f.Derives syn σ features quoteSig write path ↔ f.compiledIn syn σ = true ∧
      ∃ m ∈ f.dataflowAttrs syn σ, ∃ call, f.Calls syn m call ∧ call.write = write ∧
        call.path = path ∧ call.enabled syn σ = true := by
  refine and_congr_right fun _ => exists_congr fun m => and_congr_right fun hm => ?_
  obtain ⟨args, ⟨param, verbs, tables⟩, hargs, hcollect⟩ := hexpands σ m hm
  obtain ⟨out, log, -, hexpand⟩ := exists_expansion quoteSig hcollect
  have htable := (collected hcollect).mem_under σ write path
  simp only [AttrFn.calls_iff hargs hcollect, ← htable]
  constructor
  · rintro ⟨args', x, hargs', hx, hentry⟩
    cases hargs.symm.trans hargs'
    cases hexpand.symm.trans hx
    rwa [side_emit] at hentry
  · exact fun h => ⟨args, _, hargs, hexpand, by rwa [side_emit]⟩

end Table

end EmbassySupervisor
