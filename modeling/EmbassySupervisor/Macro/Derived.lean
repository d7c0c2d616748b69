/-
# Derived tables

`#[dataflow]` turns the verb calls of a function into two tables of couplings, and each
call into an index of one. A table has an entry for each signal path, and an entry is
gated by the alternatives of the calls on its path, so both the index and the length are
sums that only the build's predicates decide.

`Assignment` is such a decision: a truth value for the text of each predicate.
-/

import EmbassySupervisor.Macro.VerbReports
import Mathlib.Algebra.GroupWithZero.Nat
import Mathlib.Data.List.Infix
import Mathlib.Data.List.Nodup

namespace EmbassySupervisor

open TokenTree

/-! ## Predicates -/

/-- Which predicates hold in a build, by their text without blanks. -/
abbrev Assignment := String → Bool

/-- The tokens between the parentheses of a `#[cfg(..)]`. -/
abbrev Pred := List TokenTree

section Predicates

variable (syn : ExprSyntax) (σ : Assignment)

def holds (p : Pred) : Bool := σ (syn.tokensText p)

/-- A predicate as written, or the `all(..)` of several. -/
inductive AltExpr
  | pred (p : Pred)
  | all (ps : List Pred)

/-- What stands in a derived `#[cfg(..)]`. -/
inductive DerivedPred
  | alt (a : AltExpr)
  | any (terms : List AltExpr)

def AltExpr.eval : AltExpr → Bool
  | .pred p => holds syn σ p
  | .all ps => ps.all (holds syn σ)

def DerivedPred.eval : DerivedPred → Bool
  | .alt a => a.eval syn σ
  | .any terms => terms.any (·.eval syn σ)

/-- Whether what carries an optional `#[cfg]` is compiled in. -/
def compiledIn : Option DerivedPred → Bool
  | none => true
  | some p => p.eval syn σ

/-- A length as it is emitted: a number, or a sum over gates. -/
inductive LenExpr
  | count (n : ℕ)
  | sum (gates : List (Option DerivedPred))

def LenExpr.eval : LenExpr → ℕ
  | .count n => n
  | .sum gates => (gates.map fun gate => if compiledIn syn σ gate then 1 else 0).sum

end Predicates

def cfgAwareLen (gates : List (Option DerivedPred)) : LenExpr :=
  if gates.any (·.isSome) then .sum gates else .count gates.length

/-! ## Entries -/

structure DerivedEntry where
  path : String
  alts : List (List Pred)

/-- One alternative as a predicate. -/
def altExpr : List Pred → AltExpr
  | [p] => .pred p
  | many => .all many

def derivedPredicate (alts : List (List Pred)) : Option DerivedPred :=
  if alts.any (·.isEmpty) then none
  else
    match alts with
    | [] => none
    | [alt] => some (.alt (altExpr alt))
    | many => some (.any (many.map altExpr))

def derivedPrefixExpr (entries : List DerivedEntry) : LenExpr :=
  cfgAwareLen (entries.map fun e => derivedPredicate e.alts)

def addAlternative (syn : ExprSyntax) (cfgs : List Pred) (e : DerivedEntry) : DerivedEntry :=
  if e.alts.any (fun alt => alt.map syn.text = cfgs.map syn.text) then e
  else { e with alts := e.alts ++ [cfgs] }

/-- Record a call under some predicates, and where in the list it is. Alternatives are one when
they read the same; the source compares them joined by commas, which no predicate has outside
its parentheses. -/
def recordDerived (syn : ExprSyntax) (call : VerbCall) (cfgs : List Pred)
    (list : List DerivedEntry) : List DerivedEntry × ℕ :=
  match list.findIdx? (·.path = call.path) with
  | some k => (list.modify k (addAlternative syn cfgs), k)
  | none => (list ++ [{ path := call.path, alts := [cfgs] }], list.length)

/-- An entry of an emitted table. -/
structure TableEntry where
  gate : Option DerivedPred
  path : String

def derivedEntryTokens (e : DerivedEntry) : TableEntry where
  gate := derivedPredicate e.alts
  path := e.path

/-- A table as it is emitted. -/
structure CouplingTable where
  length : LenExpr
  entries : List TableEntry

def emitTable (list : List DerivedEntry) : CouplingTable where
  length := derivedPrefixExpr list
  entries := list.map derivedEntryTokens

/-- The entries of a table that are compiled in. -/
def CouplingTable.under (syn : ExprSyntax) (σ : Assignment) (table : CouplingTable) :
    List TableEntry :=
  table.entries.filter fun c => compiledIn syn σ c.gate

/-! ## What a gate comes to -/

section Gates

variable {syn : ExprSyntax} {σ : Assignment}

@[simp] theorem eval_altExpr (alt : List Pred) :
    (altExpr alt).eval syn σ = alt.all (holds syn σ) := by
  match alt with
  | [] => rfl
  | [p] => simp [altExpr, AltExpr.eval]
  | p :: q :: rest => rfl

/-- Whether one of an entry's alternatives holds. -/
def DerivedEntry.enabled (syn : ExprSyntax) (σ : Assignment) (e : DerivedEntry) : Bool :=
  e.alts.any (·.all (holds syn σ))

theorem compiledIn_derivedPredicate {alts : List (List Pred)} (hne : alts ≠ []) :
    compiledIn syn σ (derivedPredicate alts) = alts.any (·.all (holds syn σ)) := by
  unfold derivedPredicate
  split
  · next hempty =>
      obtain ⟨alt, halt, hnil⟩ := List.any_eq_true.mp hempty
      have hholds : alt.all (holds syn σ) = true := by simp [List.isEmpty_iff.mp hnil]
      exact (List.any_eq_true.mpr ⟨alt, halt, hholds⟩).symm
  · split
    · exact absurd rfl hne
    · simp [compiledIn, DerivedPred.eval]
    · simp [compiledIn, DerivedPred.eval, List.any_map, Function.comp_def]

/-- A length comes to the number of gates that hold. -/
theorem eval_cfgAwareLen (gates : List (Option DerivedPred)) :
    (cfgAwareLen gates).eval syn σ = gates.countP (compiledIn syn σ) := by
  have hsum : (gates.map fun gate => if compiledIn syn σ gate then 1 else 0).sum =
      gates.countP (compiledIn syn σ) := by
    induction gates with
    | nil => rfl
    | cons gate gates ih => rw [List.map_cons, List.sum_cons, ih, List.countP_cons, Nat.add_comm]
  unfold cfgAwareLen
  split
  · exact hsum
  · next hgates =>
      have hall : ∀ gate ∈ gates, compiledIn syn σ gate = true := by
        intro gate hmem
        cases gate with
        | none => rfl
        | some p => exact absurd (List.any_eq_true.mpr ⟨_, hmem, rfl⟩) hgates
      simp [LenExpr.eval, List.countP_eq_length.mpr hall]

end Gates

/-! ## Lists of derived entries -/

/-- A call and the predicates it is recorded under. -/
abbrev CallSite := VerbCall × List Pred

/-- What a list of entries says of the sites recorded in it. -/
structure SitesRecorded (syn : ExprSyntax) (sites : List CallSite) (list : List DerivedEntry) :
    Prop where
  nodup : (list.map (·.path)).Nodup
  nonempty : ∀ e ∈ list, e.alts ≠ []
  paths : ∀ path, path ∈ list.map (·.path) ↔ ∃ s ∈ sites, s.1.path = path
  enabled : ∀ σ path, (∃ e ∈ list, e.path = path ∧ e.enabled syn σ = true) ↔
    ∃ s ∈ sites, s.1.path = path ∧ s.2.all (holds syn σ) = true

section Lists

variable {syn : ExprSyntax} {sites : List CallSite} {list : List DerivedEntry}

theorem holds_of_text {ps qs : List Pred} (h : ps.map syn.text = qs.map syn.text)
    (σ : Assignment) : ps.all (holds syn σ) = qs.all (holds syn σ) := by
  have hall : ∀ ps : List Pred, ps.all (holds syn σ) =
      (ps.map syn.text).all fun text => σ (String.ofList (text.toList.filter (· ≠ ' '))) := by
    intro ps
    rw [List.all_map]
    rfl
  rw [hall, hall, h]

theorem addAlternative_path (cfgs : List Pred) (e : DerivedEntry) :
    (addAlternative syn cfgs e).path = e.path := by
  unfold addAlternative
  split <;> rfl

theorem addAlternative_nonempty {cfgs : List Pred} {e : DerivedEntry} (h : e.alts ≠ []) :
    (addAlternative syn cfgs e).alts ≠ [] := by
  unfold addAlternative
  split
  · exact h
  · simp

theorem addAlternative_enabled (cfgs : List Pred) (e : DerivedEntry) (σ : Assignment) :
    (addAlternative syn cfgs e).enabled syn σ = true ↔
      e.enabled syn σ = true ∨ cfgs.all (holds syn σ) = true := by
  unfold addAlternative
  split
  · next hsame =>
      refine ⟨.inl, fun h => h.elim id fun hcfgs => ?_⟩
      obtain ⟨alt, halt, htext⟩ := List.any_eq_true.mp hsame
      exact List.any_eq_true.mpr
        ⟨alt, halt, (holds_of_text (by simpa using htext) σ).trans hcfgs⟩
  · simp [DerivedEntry.enabled]

/-- Merging a site into the entry of its path. -/
theorem SitesRecorded.merge {front back : List DerivedEntry} {e : DerivedEntry} {call : VerbCall}
    (h : SitesRecorded syn sites (front ++ e :: back)) (cfgs : List Pred)
    (hpath : e.path = call.path) :
    SitesRecorded syn (sites ++ [(call, cfgs)]) (front ++ addAlternative syn cfgs e :: back) where
  nodup := by simpa [addAlternative_path] using h.nodup
  nonempty e' hmem := by
    rcases List.mem_append.mp hmem with hmem | hmem
    · exact h.nonempty e' (List.mem_append_left _ hmem)
    · rcases List.mem_cons.mp hmem with rfl | hmem
      · exact addAlternative_nonempty (h.nonempty e (by simp))
      · exact h.nonempty e' (by simp [hmem])
  paths path := by
    have hpaths := h.paths path
    have hcall : call.path = path → ∃ s ∈ sites, s.1.path = path := fun heq =>
      hpaths.mp (by simp [hpath, heq])
    have hsame : (front ++ addAlternative syn cfgs e :: back).map (·.path) =
        (front ++ e :: back).map (·.path) := by simp [addAlternative_path]
    rw [hsame, hpaths]
    constructor
    · rintro ⟨s, hs, heq⟩
      exact ⟨s, by simp [hs], heq⟩
    · rintro ⟨s, hs, heq⟩
      rcases List.mem_append.mp hs with hs | hs
      · exact ⟨s, hs, heq⟩
      · obtain rfl := List.mem_singleton.mp hs
        exact hcall heq
  enabled σ path := by
    have henabled := h.enabled σ path
    simp only [List.mem_append, List.mem_cons, List.not_mem_nil, or_false] at henabled ⊢
    constructor
    · rintro ⟨e', hmem | rfl | hmem, heq, he⟩
      · obtain ⟨s, hs, hholds⟩ := henabled.mp ⟨e', .inl hmem, heq, he⟩
        exact ⟨s, .inl hs, hholds⟩
      · rw [addAlternative_path] at heq
        rcases (addAlternative_enabled cfgs e σ).mp he with he | hcfgs
        · obtain ⟨s, hs, hholds⟩ := henabled.mp ⟨e, .inr (.inl rfl), heq, he⟩
          exact ⟨s, .inl hs, hholds⟩
        · exact ⟨(call, cfgs), .inr rfl, hpath ▸ heq, hcfgs⟩
      · obtain ⟨s, hs, hholds⟩ := henabled.mp ⟨e', .inr (.inr hmem), heq, he⟩
        exact ⟨s, .inl hs, hholds⟩
    · rintro ⟨s, hs | rfl, heq, hcfgs⟩
      · obtain ⟨e', hmem | rfl | hmem, hpath', he⟩ := henabled.mpr ⟨s, hs, heq, hcfgs⟩
        · exact ⟨e', .inl hmem, hpath', he⟩
        · exact ⟨_, .inr (.inl rfl), (addAlternative_path cfgs e').trans hpath',
            (addAlternative_enabled cfgs e' σ).mpr (.inl he)⟩
        · exact ⟨e', .inr (.inr hmem), hpath', he⟩
      · exact ⟨_, .inr (.inl rfl), (addAlternative_path cfgs e).trans (hpath.trans heq),
          (addAlternative_enabled cfgs e σ).mpr (.inr hcfgs)⟩

/-- A site of a new path gets an entry of its own. -/
theorem SitesRecorded.append (h : SitesRecorded syn sites list) {call : VerbCall} (cfgs : List Pred)
    (hnew : ∀ e ∈ list, e.path ≠ call.path) :
    SitesRecorded syn (sites ++ [(call, cfgs)])
      (list ++ [{ path := call.path, alts := [cfgs] }]) where
  nodup := by
    rw [List.map_append, List.nodup_append]
    refine ⟨h.nodup, by simp, ?_⟩
    simp only [List.mem_map, List.map_cons, List.map_nil, List.mem_singleton]
    rintro _ ⟨e, he, rfl⟩ _ rfl
    exact hnew e he
  nonempty e he := by
    rcases List.mem_append.mp he with he | he
    · exact h.nonempty e he
    · obtain rfl := List.mem_singleton.mp he
      simp
  paths path := by
    rw [List.map_append, List.mem_append, h.paths path]
    constructor
    · rintro (⟨s, hs, heq⟩ | hpath)
      · exact ⟨s, by simp [hs], heq⟩
      · exact ⟨(call, cfgs), by simp, (List.mem_singleton.mp hpath).symm⟩
    · rintro ⟨s, hs, heq⟩
      rcases List.mem_append.mp hs with hs | hs
      · exact .inl ⟨s, hs, heq⟩
      · obtain rfl := List.mem_singleton.mp hs
        exact .inr (by simp [← heq])
  enabled σ path := by
    have henabled := h.enabled σ path
    constructor
    · rintro ⟨e, he, heq, hcfgs⟩
      rcases List.mem_append.mp he with he | he
      · obtain ⟨s, hs, hholds⟩ := henabled.mp ⟨e, he, heq, hcfgs⟩
        exact ⟨s, by simp [hs], hholds⟩
      · obtain rfl := List.mem_singleton.mp he
        exact ⟨(call, cfgs), by simp, heq, by simpa [DerivedEntry.enabled] using hcfgs⟩
    · rintro ⟨s, hs, heq, hcfgs⟩
      rcases List.mem_append.mp hs with hs | hs
      · obtain ⟨e, he, hholds⟩ := henabled.mpr ⟨s, hs, heq, hcfgs⟩
        exact ⟨e, by simp [he], hholds⟩
      · obtain rfl := List.mem_singleton.mp hs
        exact ⟨⟨call.path, [cfgs]⟩, by simp, heq,
          by simpa [DerivedEntry.enabled] using hcfgs⟩

/-- One more site. -/
theorem SitesRecorded.record (h : SitesRecorded syn sites list) (call : VerbCall)
    (cfgs : List Pred) :
    SitesRecorded syn (sites ++ [(call, cfgs)]) (recordDerived syn call cfgs list).1 := by
  unfold recordDerived
  cases hfind : list.findIdx? (·.path = call.path) with
  | none =>
      exact h.append cfgs fun e he => by
        simpa using List.findIdx?_eq_none_iff.mp hfind e he
  | some k =>
      obtain ⟨hk, hpath, -⟩ := List.findIdx?_eq_some_iff_getElem.mp hfind
      simp only [List.modify_eq_take_cons_drop hk]
      refine SitesRecorded.merge ?_ cfgs (by simpa using hpath)
      rwa [← List.drop_eq_getElem_cons hk, List.take_append_drop]

theorem SitesRecorded.nil : SitesRecorded syn [] [] where
  nodup := .nil
  nonempty := by simp
  paths := by simp
  enabled := by simp

end Lists

/-! ## Emitted tables -/

section Emitted

variable {syn : ExprSyntax} {list : List DerivedEntry}

theorem under_emitTable (hne : ∀ e ∈ list, e.alts ≠ []) (σ : Assignment) :
    (emitTable list).under syn σ = (list.filter (·.enabled syn σ)).map derivedEntryTokens := by
  rw [CouplingTable.under, emitTable, List.filter_map]
  congr 1
  exact List.filter_congr fun e he => compiledIn_derivedPredicate (hne e he)

theorem eval_derivedPrefixExpr (hne : ∀ e ∈ list, e.alts ≠ []) (σ : Assignment) :
    (derivedPrefixExpr list).eval syn σ = list.countP (·.enabled syn σ) := by
  rw [derivedPrefixExpr, eval_cfgAwareLen, List.countP_map]
  exact List.countP_congr fun e he => by
    simp [DerivedEntry.enabled, compiledIn_derivedPredicate (hne e he)]

/-- The declared length is the number of entries that are compiled in. -/
theorem length_emitTable (hne : ∀ e ∈ list, e.alts ≠ []) (σ : Assignment) :
    (emitTable list).length.eval syn σ = ((emitTable list).under syn σ).length := by
  rw [under_emitTable hne, List.length_map, ← List.countP_eq_length_filter]
  exact eval_derivedPrefixExpr hne σ

/-- The entries compiled in before an entry are its index among those compiled in. -/
theorem under_getElem (hne : ∀ e ∈ list, e.alts ≠ []) {σ : Assignment} {k : ℕ} {e : DerivedEntry}
    (hk : list[k]? = some e) (he : e.enabled syn σ = true) :
    ((emitTable list).under syn σ)[(derivedPrefixExpr (list.take k)).eval syn σ]? =
      some (derivedEntryTokens e) := by
  obtain ⟨hlt, rfl⟩ := List.getElem?_eq_some_iff.mp hk
  have hcut : list = list.take k ++ list[k] :: list.drop (k + 1) := by
    rw [← List.drop_eq_getElem_cons hlt, List.take_append_drop]
  have hfilter : list.filter (·.enabled syn σ) = (list.take k).filter (·.enabled syn σ) ++
      list[k] :: (list.drop (k + 1)).filter (·.enabled syn σ) := by
    conv_lhs => rw [hcut]
    rw [List.filter_append, List.filter_cons_of_pos he]
  rw [under_emitTable hne, eval_derivedPrefixExpr fun e he => hne e (List.mem_of_mem_take he),
    List.getElem?_map, hfilter, List.countP_eq_length_filter]
  simp

end Emitted

/-! ## The expansion -/

structure Features where
  dataflow : Bool := true
  liveness : Bool := true
  dataDeps : Bool := true
  veto : Bool := true
  readiness : Bool := true

structure Tables where
  reads : List DerivedEntry := []
  writes : List DerivedEntry := []

def Tables.side (tables : Tables) (write : Bool) : List DerivedEntry :=
  if write then tables.writes else tables.reads

def Tables.record (syn : ExprSyntax) (call : VerbCall) (cfgs : List Pred) (tables : Tables) :
    Tables :=
  if call.write then { tables with writes := (recordDerived syn call cfgs tables.writes).1 }
  else { tables with reads := (recordDerived syn call cfgs tables.reads).1 }

def livenessError (verb : String) : String :=
  "`" ++ verb ++ "` carries the node's sign of life, which requires the `liveness` feature " ++
    "(embassy-supervisor feature `liveness`). Without it this would be a heartbeat the build " ++
    "silently does not make: use `" ++ String.ofList (verb.toList.drop "beat_".length) ++
    "` for the write alone, or enable the feature"

/-- The features that add a verb to `TaskNode`, where the build lacks them. -/
def verbNeeds (features : Features) (verb : String) : Option String :=
  if (verb = "open" ∨ verb = "lease") ∧ features.dataDeps = false then
    some "`data-deps` feature"
  else if verb = "veto" ∧ features.veto = false then some "`veto` feature"
  else if verb = "retire" ∧ (features.dataDeps && features.readiness) = false then
    some "`data-deps` and `readiness` features"
  else none

def needsError (verb needs : String) : String :=
  "`" ++ verb ++ "` requires the " ++ needs ++ " (embassy-supervisor features of the same " ++
    "names), which add the verb to `TaskNode`"

/-- The predicates of a call, as they are recorded. -/
def VerbCall.gates (call : VerbCall) : List Pred := call.cfgs.map (·.pred)

/-- The first pass over a body. -/
def collectCall (features : Features) (syn : ExprSyntax) (call : VerbCall) (tables : Tables) :
    Except String (Option (List TokenTree) × Tables) :=
  if features.liveness = false ∧ (call.verb = "beat_put" ∨ call.verb = "beat_writer") ∧
      call.cfgs = [] then
    .error (livenessError call.verb)
  else
    match verbNeeds features call.verb, call.cfgs with
    | some needs, [] => .error (needsError call.verb needs)
    | _, _ => .ok (none, tables.record syn call call.gates)

/-- `Sig { entry: &TABLE[index], target: &target }`. -/
structure Sig where
  write : Bool
  index : LenExpr
  target : List TokenTree

def secondPassExpect : String := "collected in the first pass over this same body"

/-- The second pass; a failing `expect` is an error. -/
def replaceCall (quoteSig : Sig → List TokenTree) (tables : Tables) (call : VerbCall) (_ : Unit) :
    Except String (Option (List TokenTree) × Unit) :=
  let list := tables.side call.write
  match list.findIdx? (·.path = call.path) with
  | none => .error secondPassExpect
  | some k =>
    .ok (some (quoteSig { write := call.write, index := derivedPrefixExpr (list.take k),
                          target := call.target }), ())

structure FnArg where
  ty : List TokenTree
  /-- The pattern, where it is an identifier. -/
  ident : Option String

/-- The argument whose type names `TaskNode`. -/
def nodeParam (syn : ExprSyntax) (inputs : List FnArg) : Option String :=
  inputs.findSome? fun arg =>
    if "TaskNode".toList <:+: (syn.tokensText arg.ty).toList then arg.ident else none

def builtinError (text : String) : String :=
  "`" ++ text ++ "` is a built-in verb and is always recognised: registering it would either " ++
    "repeat what the crate already says or contradict it. Give the new verb its own name"

def VerbTable.add (table : VerbTable) (text : String) (write : Bool) : Except String VerbTable :=
  if text ∈ builtinReads ∨ text ∈ builtinWrites then .error (builtinError text)
  else if table.custom.any (·.1 == text) then
    .error ("`" ++ text ++ "` is registered twice; a verb points one way")
  else .ok { custom := table.custom ++ [(text, write)] }

def registrationsError : String :=
  "`#[dataflow]` takes verb registrations: `read(<verb>, ..)` / `write(<verb>, ..)`, naming " ++
    "methods your own extension trait adds to `TaskNode`. A derived table states this fn's " ++
    "couplings and nothing else"

def directionError (other : String) : String :=
  "expected `read(..)` or `write(..)`, found `" ++ other ++ "`. The walker has no type " ++
    "information, so which way a registered verb points is stated here"

/-- Identifiers separated by commas, with one more allowed at the end. -/
def parseNames : List TokenTree → Except String (List String)
  | [] => .ok []
  | .ident name :: rest =>
    match rest with
    | [] => .ok [name]
    | .punct c _ :: rest =>
      if c = ',' then do
        let names ← parseNames rest
        return name :: names
      else .error "expected `,`"
    | _ => .error "expected `,`"
  | _ => .error "expected identifier"

def VerbTable.parse (table : VerbTable) : List TokenTree → Except String VerbTable
  | [] => .ok table
  | .ident kw :: rest =>
    if kw ≠ "read" ∧ kw ≠ "write" then .error (directionError kw)
    else
      match rest with
      | .group .parenthesis inner :: rest => do
        let names ← parseNames inner
        if names = [] then .error ("`" ++ kw ++ "(..)` names no verb")
        else
          let table ← names.foldlM (fun table name => table.add name (kw = "write")) table
          match rest with
          | [] => return table
          | .punct c _ :: rest => if c = ',' then table.parse rest else .error "expected `,`"
          | _ => .error "expected `,`"
      | _ => .error "expected parentheses"
  | _ => .error registrationsError

/-- A function as `#[dataflow]` is given it, without its attributes. -/
structure FnItem where
  ident : String
  inputs : List FnArg
  block : List TokenTree

/-- What `#[dataflow]` emits: the function's new body and its two tables. -/
structure Expansion where
  body : List TokenTree
  reads : CouplingTable
  writes : CouplingTable

def Expansion.side (x : Expansion) (write : Bool) : CouplingTable :=
  if write then x.writes else x.reads

def featureError : String :=
  "`#[dataflow]` requires the `dataflow` feature (embassy-supervisor feature `dataflow`) — it " ++
    "derives this fn's coupling tables from the supervisor verbs it calls"

def paramError : String :=
  "`#[dataflow]` needs a `&'static TaskNode` parameter — the verbs it derives from are called " ++
    "through it"

/-- The first pass over a function: its node parameter, the verbs, and the entries. -/
def dataflowCollect (features : Features) (syn : ExprSyntax) (args : List TokenTree)
    (f : FnItem) : Except String (String × VerbTable × Tables) :=
  if features.dataflow = false then .error featureError
  else do
    let verbs ← VerbTable.parse {} args
    match nodeParam syn f.inputs with
    | none => .error paramError
    | some param =>
      let pass ← rewriteVerbCalls param verbs syn (collectCall features syn) f.block {}
      return (param, verbs, pass.2)

def dataflowExpand (features : Features) (syn : ExprSyntax) (quoteSig : Sig → List TokenTree)
    (args : List TokenTree) (f : FnItem) : Except String Expansion := do
  let (param, verbs, tables) ← dataflowCollect features syn args f
  let pass ← rewriteVerbCalls param verbs syn (replaceCall quoteSig tables) f.block ()
  return { body := pass.1, reads := emitTable tables.reads, writes := emitTable tables.writes }

/-! ## The first pass -/

/-- A site of the body is enabled where all its predicates hold. -/
def VerbCall.enabled (syn : ExprSyntax) (σ : Assignment) (call : VerbCall) : Bool :=
  call.gates.all (holds syn σ)

section Passes

variable {features : Features} {syn : ExprSyntax} {node : String} {verbs : VerbTable}

/-- The sites of one direction, of the calls in a log. -/
def sitesOf (gates : VerbCall → List Pred) (log : CallLog) (write : Bool) : List CallSite :=
  (log.filter (·.1.write = write)).map fun e => (e.1, gates e.1)

theorem sitesOf_append (gates : VerbCall → List Pred) (log : CallLog)
    (e : VerbCall × Option (List TokenTree)) (write : Bool) :
    sitesOf gates (log ++ [e]) write =
      if e.1.write = write then sitesOf gates log write ++ [(e.1, gates e.1)]
      else sitesOf gates log write := by
  split <;> simp [sitesOf, *]

theorem collectCall_ok {call : VerbCall} {tables : Tables}
    {r : Option (List TokenTree) × Tables} (h : collectCall features syn call tables = .ok r) :
    r.2 = tables.record syn call call.gates := by
  unfold collectCall at h
  split at h
  · cases h
  · split at h
    · cases h
    · cases h
      rfl

theorem side_record (tables : Tables) (call : VerbCall) (cfgs : List Pred) (write : Bool) :
    (tables.record syn call cfgs).side write =
      if call.write = write then (recordDerived syn call cfgs (tables.side write)).1
      else tables.side write := by
  cases write <;> cases hcall : call.write <;> simp [Tables.record, Tables.side, hcall]

/-- Where the callback records each call it accepts, the run records the calls of its log. -/
theorem recorded_of_run
    {onCall : VerbCall → Tables → Except String (Option (List TokenTree) × Tables)}
    {gates : VerbCall → List Pred}
    (honcall : ∀ call tables r, onCall call tables = .ok r →
      r.2 = tables.record syn call (gates call))
    {start tables : Tables} {sites : Bool → List CallSite}
    (hstart : ∀ write, SitesRecorded syn (sites write) (start.side write))
    {body out : List TokenTree} {log : CallLog}
    (hrun : rewriteVerbCalls node verbs syn (logged onCall) body (start, []) =
      .ok (out, (tables, log))) (write : Bool) :
    SitesRecorded syn (sites write ++ sitesOf gates log write) (tables.side write) := by
  let I (st : Tables × CallLog) : Prop :=
    ∀ write, SitesRecorded syn (sites write ++ sitesOf gates st.2 write) (st.1.side write)
  have hstep : ∀ call st r, I st → logged onCall call st = .ok r → I r.2 := by
    intro call st r h hcall write
    obtain ⟨reply, hreply, hret⟩ := ok_of_bind hcall
    cases hret
    rw [honcall _ _ _ hreply, side_record, sitesOf_append]
    split
    · rw [← List.append_assoc]
      exact (h write).record call (gates call)
    · exact h write
  have hfirst : I (start, []) := fun write => by simpa [sitesOf] using hstart write
  exact rewriteVerbCallsIn_keeps hstep (.body body) hfirst hrun write

theorem mem_sitesOf {gates : VerbCall → List Pred} {log : CallLog} {write : Bool}
    {σ : Assignment} {path : String} :
    (∃ s ∈ sitesOf gates log write, s.1.path = path ∧ s.2.all (holds syn σ) = true) ↔
      ∃ call ∈ log.map (·.1), call.write = write ∧ call.path = path ∧
        (gates call).all (holds syn σ) = true := by
  constructor
  · rintro ⟨s, hs, hpath, hholds⟩
    obtain ⟨e, he, rfl⟩ := List.mem_map.mp hs
    obtain ⟨he, hwrite⟩ := List.mem_filter.mp he
    exact ⟨e.1, List.mem_map_of_mem he, by simpa using hwrite, hpath, hholds⟩
  · rintro ⟨call, hcall, hwrite, hpath, henabled⟩
    obtain ⟨e, he, rfl⟩ := List.mem_map.mp hcall
    exact ⟨_, List.mem_map_of_mem (List.mem_filter.mpr ⟨he, by simpa using hwrite⟩), hpath,
      henabled⟩

end Passes

/-! ## The tables of a function -/

/-- What the first pass over a function finds, said of the calls in its body. -/
structure Collected (syn : ExprSyntax) (f : FnItem) (param : String) (verbs : VerbTable)
    (tables : Tables) : Prop where
  parses : ∀ l' k verb write t dot name g cfgs, Enters param verbs (.body f.block) l' →
    (k, .call verb write t dot name g, cfgs) ∈ l'.pieces param verbs →
    ∃ target, syn.referenced (g.stream.take (g.stream.findIdx isComma)) = some target
  nonempty : ∀ write, ∀ e ∈ tables.side write, e.alts ≠ []
  nodup : ∀ write, ((tables.side write).map (·.path)).Nodup
  paths : ∀ call, Reports param verbs syn (.body f.block) call →
    ∃ e ∈ tables.side call.write, e.path = call.path
  enabled : ∀ write σ path, (∃ e ∈ tables.side write, e.path = path ∧ e.enabled syn σ = true) ↔
    ∃ call, Reports param verbs syn (.body f.block) call ∧ call.write = write ∧
      call.path = path ∧ call.enabled syn σ = true

theorem dataflowCollect_ok {features : Features} {syn : ExprSyntax} {args : List TokenTree}
    {f : FnItem} {param : String} {verbs : VerbTable} {tables : Tables}
    (h : dataflowCollect features syn args f = .ok (param, verbs, tables)) :
    VerbTable.parse {} args = .ok verbs ∧ nodeParam syn f.inputs = some param := by
  unfold dataflowCollect at h
  split at h
  · cases h
  obtain ⟨verbs', hverbs, h⟩ := ok_of_bind h
  split at h
  · cases h
  · next hparam =>
      obtain ⟨pass, -, hret⟩ := ok_of_bind h
      cases hret
      exact ⟨hverbs, hparam⟩

theorem collected {features : Features} {syn : ExprSyntax} {args : List TokenTree} {f : FnItem}
    {param : String} {verbs : VerbTable} {tables : Tables}
    (h : dataflowCollect features syn args f = .ok (param, verbs, tables)) :
    Collected syn f param verbs tables := by
  unfold dataflowCollect at h
  split at h
  · cases h
  obtain ⟨verbs', -, h⟩ := ok_of_bind h
  split at h
  · cases h
  obtain ⟨pass, hpass, hret⟩ := ok_of_bind h
  cases hret
  obtain ⟨log, hrun⟩ := exists_logged_run (.body f.block) [] hpass
  obtain ⟨-, hlog, -⟩ := rewriteVerbCalls_traced hrun
  have hstart : ∀ write, SitesRecorded syn ([] : List CallSite) (Tables.side {} write) := by
    intro write
    cases write <;> exact .nil
  have hrecorded : ∀ write,
      SitesRecorded syn (sitesOf VerbCall.gates log write) (pass.2.side write) :=
    recorded_of_run (fun _ _ _ => collectCall_ok) hstart hrun
  refine ⟨referenced_of_run (.body f.block) hpass, fun write => (hrecorded write).nonempty,
    fun write => (hrecorded write).nodup, fun call hcall => ?_, fun write σ path => ?_⟩
  · obtain ⟨e, he, rfl⟩ := List.mem_map.mp ((hlog call).mpr hcall)
    have hsite : ∃ s ∈ sitesOf VerbCall.gates log e.1.write, s.1.path = e.1.path :=
      ⟨_, List.mem_map_of_mem (List.mem_filter.mpr ⟨he, by simp⟩), rfl⟩
    obtain ⟨entry, hentry, hpath⟩ := List.mem_map.mp (((hrecorded e.1.write).paths _).mpr hsite)
    exact ⟨entry, hentry, hpath⟩
  · rw [(hrecorded write).enabled σ path, mem_sitesOf]
    constructor
    · rintro ⟨call, hcall, h⟩
      exact ⟨call, (hlog call).mp hcall, h⟩
    · rintro ⟨call, hcall, h⟩
      exact ⟨call, (hlog call).mpr hcall, h⟩

theorem replaceCall_of_find {quoteSig : Sig → List TokenTree} {tables : Tables} {call : VerbCall}
    {k : ℕ} (h : (tables.side call.write).findIdx? (·.path = call.path) = some k) :
    replaceCall quoteSig tables call () = .ok (some (quoteSig
      { write := call.write, index := derivedPrefixExpr ((tables.side call.write).take k),
        target := call.target }), ()) := by
  simp [replaceCall, h]

/-- In a logged run each entry of the log holds what the callback answers. -/
theorem answers_of_run {node : String} {verbs : VerbTable} {syn : ExprSyntax}
    {onCall : VerbCall → Unit → Except String (Option (List TokenTree) × Unit)}
    {body out : List TokenTree} {log : CallLog}
    (hrun : rewriteVerbCalls node verbs syn (logged onCall) body ((), []) = .ok (out, ((), log))) :
    ∀ e ∈ log, onCall e.1 () = .ok (e.2, ()) := by
  let I (st : Unit × CallLog) : Prop := ∀ e ∈ st.2, onCall e.1 () = .ok (e.2, ())
  have hstep : ∀ call st r, I st → logged onCall call st = .ok r → I r.2 := by
    intro call st r h hcall e he
    obtain ⟨reply, hreply, hret⟩ := ok_of_bind hcall
    cases hret
    rcases List.mem_append.mp he with he | he
    · exact h e he
    · obtain rfl := List.mem_singleton.mp he
      exact hreply
  have hnil : I ((), []) := by simp [I]
  exact rewriteVerbCallsIn_keeps hstep (.body body) hnil hrun

/-- The entry of a call's path, enabled wherever the call is. -/
theorem Collected.own_entry {syn : ExprSyntax} {f : FnItem} {param : String} {verbs : VerbTable}
    {tables : Tables} (h : Collected syn f param verbs tables) {call : VerbCall}
    (hcall : Reports param verbs syn (.body f.block) call) {k : ℕ}
    (hk : k < (tables.side call.write).length)
    (hpath : decide ((tables.side call.write)[k].path = call.path) = true) :
    ∃ own, (tables.side call.write)[k]? = some own ∧ own.path = call.path ∧
      ∀ σ, call.enabled syn σ = true → own.enabled syn σ = true := by
  have hown : (tables.side call.write)[k].path = call.path := of_decide_eq_true hpath
  refine ⟨_, List.getElem?_eq_getElem hk, hown, fun σ hσ => ?_⟩
  obtain ⟨e, he, hsame, henabled⟩ :=
    (h.enabled call.write σ call.path).mpr ⟨call, hcall, rfl, rfl, hσ⟩
  -- No two entries have one path.
  have heq : e = (tables.side call.write)[k] :=
    List.inj_on_of_nodup_map (h.nodup call.write) he (List.getElem_mem hk)
      (hsame.trans hown.symm)
  exact heq ▸ henabled

theorem side_emit {tables : Tables} {body : List TokenTree} (write : Bool) :
    Expansion.side { body, reads := emitTable tables.reads, writes := emitTable tables.writes }
      write = emitTable (tables.side write) := by
  cases write <;> rfl

/-- After the first pass the second one goes through. -/
theorem exists_expansion {features : Features} {syn : ExprSyntax} {args : List TokenTree}
    {f : FnItem} (quoteSig : Sig → List TokenTree) {param : String} {verbs : VerbTable}
    {tables : Tables}
    (hcollect : dataflowCollect features syn args f = .ok (param, verbs, tables)) :
    ∃ out log, rewriteVerbCalls param verbs syn (logged (replaceCall quoteSig tables)) f.block
        ((), []) = .ok (out, ((), log)) ∧
      dataflowExpand features syn quoteSig args f = .ok
        { body := out, reads := emitTable tables.reads, writes := emitTable tables.writes } := by
  have h := collected hcollect
  have hcall : ∀ call, Reports param verbs syn (.body f.block) call → ∀ st,
      ∃ r, replaceCall quoteSig tables call st = .ok r := by
    intro call hcall st
    obtain ⟨e, he, hpath⟩ := h.paths call hcall
    cases hfind : (tables.side call.write).findIdx? (·.path = call.path) with
    | none => exact absurd hpath (by simpa using List.findIdx?_eq_none_iff.mp hfind e he)
    | some k => exact ⟨_, replaceCall_of_find hfind⟩
  obtain ⟨⟨out, ⟨⟩⟩, hrun⟩ := exists_run (.body f.block) h.parses hcall ()
  obtain ⟨log, hlogged⟩ := exists_logged_run (.body f.block) [] hrun
  have hpass : rewriteVerbCalls param verbs syn (replaceCall quoteSig tables) f.block () =
      .ok (out, ()) := hrun
  refine ⟨out, log, hlogged, ?_⟩
  simp only [dataflowExpand, hcollect, hpass, bind, Except.bind]
  rfl

/-- A path is in the table compiled in where one of its calls is enabled. -/
theorem Collected.mem_under {syn : ExprSyntax} {f : FnItem} {param : String} {verbs : VerbTable}
    {tables : Tables} (h : Collected syn f param verbs tables) (σ : Assignment) (write : Bool)
    (path : String) :
    (∃ entry ∈ (emitTable (tables.side write)).under syn σ, entry.path = path) ↔
      ∃ call, Reports param verbs syn (.body f.block) call ∧ call.write = write ∧
        call.path = path ∧ call.enabled syn σ = true := by
  rw [← h.enabled write σ path, under_emitTable (h.nonempty write)]
  simp [derivedEntryTokens, and_assoc, and_comm, and_left_comm]

/-- The index of each enabled call is that of its own entry in the table compiled in, a path
is in that table where one of its calls is enabled, and the second pass finds every path. -/
theorem dataflow_indexes_own_entry {features : Features} {syn : ExprSyntax}
    {args : List TokenTree} {f : FnItem} (quoteSig : Sig → List TokenTree) {param : String}
    {verbs : VerbTable} {tables : Tables}
    (hcollect : dataflowCollect features syn args f = .ok (param, verbs, tables)) :
    ∃ x replies, dataflowExpand features syn quoteSig args f = .ok x ∧
      x.body = replaceFirstArgs replies [] 0 0 f.block ∧
      (∀ call, Reports param verbs syn (.body f.block) call → ∃ sig : Sig,
        replies call.place = some (quoteSig sig) ∧ sig.write = call.write ∧
        sig.target = call.target ∧ ∀ σ, call.enabled syn σ = true →
          sig.index.eval syn σ < (x.side call.write).length.eval syn σ ∧
          ∃ entry, ((x.side call.write).under syn σ)[sig.index.eval syn σ]? = some entry ∧
            entry.path = call.path) ∧
      ∀ σ write, (x.side write).length.eval syn σ = ((x.side write).under syn σ).length ∧
        ∀ path, (∃ entry ∈ (x.side write).under syn σ, entry.path = path) ↔
          ∃ call, Reports param verbs syn (.body f.block) call ∧ call.write = write ∧
            call.path = path ∧ call.enabled syn σ = true := by
  have h := collected hcollect
  obtain ⟨out, log, hlogged, hexpand⟩ := exists_expansion quoteSig hcollect
  obtain ⟨hnodup, hlog, hout⟩ := rewriteVerbCalls_traced hlogged
  refine ⟨_, repliesOf log, hexpand, hout, fun call hreport => ?_, fun σ write => ?_⟩
  · obtain ⟨e, he, rfl⟩ := List.mem_map.mp ((hlog call).mpr hreport)
    have hanswer := answers_of_run hlogged e he
    obtain ⟨entry, hentry, hpath⟩ := h.paths e.1 hreport
    cases hfind : (tables.side e.1.write).findIdx? (·.path = e.1.path) with
    | none => exact absurd hpath (by simpa using List.findIdx?_eq_none_iff.mp hfind entry hentry)
    | some k =>
        rw [replaceCall_of_find hfind] at hanswer
        obtain ⟨hk, hkpath, -⟩ := List.findIdx?_eq_some_iff_getElem.mp hfind
        obtain ⟨own, howned, hown, henabled⟩ := h.own_entry hreport hk hkpath
        have hreply : repliesOf log e.1.place = some (quoteSig
            { write := e.1.write, index := derivedPrefixExpr ((tables.side e.1.write).take k),
              target := e.1.target }) := by
          rw [repliesOf_eq hnodup he]
          exact (Prod.mk.inj (Except.ok.inj hanswer)).1.symm
        refine ⟨_, hreply, rfl, rfl, fun σ hσ => ?_⟩
        rw [side_emit, length_emitTable (h.nonempty _)]
        have hindex := under_getElem (h.nonempty _) howned (henabled σ hσ)
        exact ⟨(List.getElem?_eq_some_iff.mp hindex).1, _, hindex, hown⟩
  · rw [side_emit]
    exact ⟨length_emitTable (h.nonempty write) σ, h.mem_under σ write⟩

/-- `#[cfg(P)] node.put(&X); node.put(&Y); #[cfg(Q)] node.put(&X);` -/
def gatedBody : List TokenTree :=
  let gate (name : String) : List TokenTree :=
    [.punct '#' .alone, .group .bracket [.ident "cfg", .group .parenthesis [.ident name]]]
  gate "P" ++ putCall "X" ++ [.punct ';' .alone] ++ putCall "Y" ++ [.punct ';' .alone] ++
    gate "Q" ++ putCall "X" ++ [.punct ';' .alone]

def gatedFn : FnItem where
  ident := "f"
  inputs := [{ ty := [.ident "TaskNode"], ident := some "node" }]
  block := gatedBody

def gatedTables : Tables where
  writes :=
    [{ path := "X", alts := [[[.ident "P"]], [[.ident "Q"]]] },
     { path := "Y", alts := [[]] }]

/-- The entry of `X` is compiled in where `P` or `Q` holds, as it does under `P`. -/
theorem dataflow_indexes_gatedFn :
    ∃ x, dataflowExpand {} nameSyntax (fun sig => sig.target) [] gatedFn = .ok x ∧
      ((∃ entry ∈ x.writes.under nameSyntax (· = "P"), entry.path = "X") ↔
        ∃ call, Reports "node" {} nameSyntax (.body gatedBody) call ∧ call.write = true ∧
          call.path = "X" ∧ call.enabled nameSyntax (· = "P") = true) := by
  have hcollect : dataflowCollect {} nameSyntax [] gatedFn = .ok ("node", {}, gatedTables) := rfl
  obtain ⟨x, -, hx, -, -, htable⟩ := dataflow_indexes_own_entry (fun sig => sig.target) hcollect
  exact ⟨x, hx, (htable _ true).2 "X"⟩

end EmbassySupervisor
