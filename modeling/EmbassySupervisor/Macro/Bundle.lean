/-
# Bundles

`#[dataflow_bundle]` on a module makes one pair of tables for all its `#[dataflow]`
functions, so that a declaration can adopt the module as if it were one function.

It sees the functions with their attributes as written, and takes the predicates of the
`#[cfg]`s it finds there into each entry. Those of a `cfg_attr` it leaves out.
-/

import EmbassySupervisor.Macro.DataflowAttr
import Mathlib.Data.List.Induction

namespace EmbassySupervisor

open TokenTree

inductive ModItem
  | fn (f : AttrFn)
  | other

structure ItemMod where
  /-- The items, of a module that is written inline. -/
  content : Option (List ModItem)

/-- The two tables that a bundle puts at the end of its module. -/
structure Bundle where
  reads : CouplingTable
  writes : CouplingTable

def Bundle.side (b : Bundle) (write : Bool) : CouplingTable :=
  if write then b.writes else b.reads

def bundleFeatureError : String :=
  "`#[dataflow_bundle]` requires the `dataflow` feature " ++
    "(embassy-supervisor feature `dataflow`), like the `#[dataflow]` fns it bundles"

def inlineError : String :=
  "`#[dataflow_bundle]` needs an inline module (`mod x \x7b .. \x7d`) — the member fns' bodies " ++
    "are its input, and a `mod x;` declaration does not carry them"

def noMemberError : String :=
  "`#[dataflow_bundle]` found no `#[dataflow]` fn at the module's top level — nothing to bundle"

def valueError : String := "`#[dataflow]` takes verb registrations, not a value"

def bundleVerbs : AttrMeta → Except String VerbTable
  | .path _ => .ok {}
  | .list _ _ tokens _ => VerbTable.parse {} tokens
  | .nameValue _ _ => .error valueError

def bundleName : List TokenTree → Except String String
  | [] => .ok "BUNDLE"
  | [.ident name] => .ok name
  | _ => .error "expected identifier"

section Expand

variable (syn : ExprSyntax)

def bundleCall (cfgs : List Pred) (call : VerbCall) (tables : Tables) :
    Except String (Option (List TokenTree) × Tables) :=
  .ok (none, tables.record syn call (cfgs ++ call.gates))

def bundleMember (f : AttrFn) (attr : AttrMeta) (tables : Tables) : Except String Tables := do
  let verbs ← bundleVerbs attr
  match nodeParam syn f.item.inputs with
  | none => .error paramError
  | some param =>
    let pass ← rewriteVerbCalls param verbs syn (bundleCall syn (fnCfgs f.attrs)) f.item.block
      tables
    return pass.2

/-- One item of the module; the state is the entries and the number of members so far. -/
def bundleItem (st : Tables × ℕ) : ModItem → Except String (Tables × ℕ)
  | .other => .ok st
  | .fn f =>
    match f.dataflowAttr with
    | none => .ok st
    | some (attr, _) => do
      let tables ← bundleMember syn f attr st.1
      return (tables, st.2 + 1)

def bundleExpand (features : Features) (args : List TokenTree) (m : ItemMod) :
    Except String Bundle :=
  if features.dataflow = false then .error bundleFeatureError
  else do
    let _ ← bundleName args
    match m.content with
    | none => .error inlineError
    | some items =>
      let st ← items.foldlM (bundleItem syn) ({}, 0)
      if st.2 = 0 then .error noMemberError
      else return { reads := emitTable st.1.reads, writes := emitTable st.1.writes }

end Expand

/-! ## What a bundle records -/

section Records

variable {syn : ExprSyntax}

/-- A bundle has an entry of a function's for a path and a direction. -/
def AttrFn.Bundled (syn : ExprSyntax) (σ : Assignment) (f : AttrFn) (write : Bool)
    (path : String) : Prop :=
  f.ownCfgsHold syn σ = true ∧ ∃ attr preds call, f.dataflowAttr = some (attr, preds) ∧
    f.Calls syn attr call ∧ call.write = write ∧ call.path = path ∧ call.enabled syn σ = true

theorem bundleVerbs_ok {attr : AttrMeta} {verbs : VerbTable} (h : bundleVerbs attr = .ok verbs) :
    ∃ args, attr.macroArgs = some args ∧ VerbTable.parse {} args = .ok verbs := by
  cases attr with
  | path p =>
      cases h
      exact ⟨[], rfl, rfl⟩
  | list p d tokens args => exact ⟨tokens, rfl, h⟩
  | nameValue p value => cases h

/-- A list of entries is a record of some sites, and these are the enabled calls of the
functions so far. -/
def BundledSoFar (syn : ExprSyntax) (items : List ModItem) (tables : Tables) : Prop :=
  ∃ sites : Bool → List CallSite, ∀ write,
    SitesRecorded syn (sites write) (tables.side write) ∧ ∀ σ path,
      (∃ s ∈ sites write, s.1.path = path ∧ s.2.all (holds syn σ) = true) ↔
        ∃ f, .fn f ∈ items ∧ f.Bundled syn σ write path

theorem BundledSoFar.skip {items : List ModItem} {tables : Tables}
    (h : BundledSoFar syn items tables) {item : ModItem}
    (hno : ∀ f, item = .fn f → f.dataflowAttr = none) :
    BundledSoFar syn (items ++ [item]) tables := by
  obtain ⟨sites, h⟩ := h
  refine ⟨sites, fun write => ⟨(h write).1, fun σ path => ?_⟩⟩
  rw [(h write).2 σ path]
  refine exists_congr fun f => ?_
  rw [List.mem_append, List.mem_singleton]
  refine ⟨fun ⟨hf, hb⟩ => ⟨.inl hf, hb⟩, ?_⟩
  rintro ⟨hf | rfl, hb⟩
  · exact ⟨hf, hb⟩
  · obtain ⟨-, attr, preds, call, hattr, -⟩ := hb
    cases (hno f rfl).symm.trans hattr

theorem BundledSoFar.member {items : List ModItem} {tables tables' : Tables}
    (h : BundledSoFar syn items tables) {f : AttrFn} {attr : AttrMeta} {preds : List Pred}
    (hattr : f.dataflowAttr = some (attr, preds))
    (hmember : bundleMember syn f attr tables = .ok tables') :
    BundledSoFar syn (items ++ [.fn f]) tables' := by
  obtain ⟨sites, h⟩ := h
  obtain ⟨verbs, hverbs, hmember⟩ := ok_of_bind hmember
  obtain ⟨args, hargs, hparse⟩ := bundleVerbs_ok hverbs
  split at hmember
  · cases hmember
  next param hparam =>
  obtain ⟨⟨out, tables'⟩, hpass, hret⟩ := ok_of_bind hmember
  cases hret
  obtain ⟨log, hrun⟩ := exists_logged_run (.body f.item.block) [] hpass
  obtain ⟨-, hlog, -⟩ := rewriteVerbCalls_traced hrun
  have hcalls : ∀ call, f.Calls syn attr call ↔ call ∈ log.map (·.1) := by
    intro call
    rw [hlog]
    constructor
    · rintro ⟨args', verbs', param', hargs', hparse', hparam', hreport⟩
      cases hargs.symm.trans hargs'
      cases hparse.symm.trans hparse'
      cases hparam.symm.trans hparam'
      exact hreport
    · exact fun hreport => ⟨args, verbs, param, hargs, hparse, hparam, hreport⟩
  have honcall : ∀ call tables r, bundleCall syn (fnCfgs f.attrs) call tables = .ok r →
      r.2 = tables.record syn call (fnCfgs f.attrs ++ call.gates) := by
    rintro call tables r ⟨⟩
    rfl
  refine ⟨_, fun write => ⟨recorded_of_run honcall (fun write => (h write).1) hrun write, ?_⟩⟩
  intro σ path
  have hnew : (∃ s ∈ sitesOf (fun call => fnCfgs f.attrs ++ call.gates) log write,
      s.1.path = path ∧ s.2.all (holds syn σ) = true) ↔ f.Bundled syn σ write path := by
    simp only [mem_sitesOf, ← hcalls, List.all_append, Bool.and_eq_true]
    constructor
    · rintro ⟨call, hcall, hwrite, hpath, hown, henabled⟩
      exact ⟨hown, attr, preds, call, hattr, hcall, hwrite, hpath, henabled⟩
    · rintro ⟨hown, attr', preds', call, hattr', hcall, hwrite, hpath, henabled⟩
      cases hattr.symm.trans hattr'
      exact ⟨call, hcall, hwrite, hpath, hown, henabled⟩
  have hold := (h write).2 σ path
  simp only [List.mem_append, List.mem_singleton, or_and_right, exists_or, hold, hnew]
  simp

theorem bundledSoFar_of_fold {items : List ModItem} {st : Tables × ℕ}
    (h : items.foldlM (bundleItem syn) ({}, 0) = .ok st) : BundledSoFar syn items st.1 := by
  induction items using List.reverseRecOn generalizing st with
  | nil =>
      cases h
      refine ⟨fun _ => [], fun write => ⟨?_, by simp⟩⟩
      cases write <;> exact .nil
  | append_singleton items item ih =>
      rw [List.foldlM_append] at h
      obtain ⟨mid, hmid, h⟩ := ok_of_bind h
      obtain ⟨last, hlast, hret⟩ := ok_of_bind h
      cases hret
      cases item with
      | other =>
          cases hlast
          exact (ih hmid).skip (by rintro f ⟨⟩)
      | fn f =>
          cases hattr : f.dataflowAttr with
          | none =>
              simp only [bundleItem, hattr] at hlast
              cases hlast
              exact (ih hmid).skip (by rintro _ ⟨⟩; exact hattr)
          | some found =>
              simp only [bundleItem, hattr] at hlast
              obtain ⟨tables, htables, hret⟩ := ok_of_bind hlast
              cases hret
              exact (ih hmid).member hattr htables

end Records

/-! ## The bundle and its members -/

section Union

variable {syn : ExprSyntax} {features : Features}

theorem bundleExpand_ok {args : List TokenTree} {m : ItemMod} {items : List ModItem} {b : Bundle}
    (hcontent : m.content = some items) (h : bundleExpand syn features args m = .ok b) :
    ∃ tables, BundledSoFar syn items tables ∧
      ∀ write, b.side write = emitTable (tables.side write) := by
  unfold bundleExpand at h
  split at h
  · cases h
  obtain ⟨name, -, h⟩ := ok_of_bind h
  simp only [hcontent] at h
  obtain ⟨st, hfold, h⟩ := ok_of_bind h
  split at h
  · cases h
  · cases h
    refine ⟨st.1, bundledSoFar_of_fold hfold, fun write => ?_⟩
    cases write <;> rfl

/-- A bundle has each enabled path once, the paths of the functions whose own `#[cfg]`s hold. -/
theorem BundledSoFar.table {items : List ModItem} {tables : Tables}
    (h : BundledSoFar syn items tables) (σ : Assignment) (write : Bool) :
    (∀ path, (∃ entry ∈ (emitTable (tables.side write)).under syn σ, entry.path = path) ↔
      ∃ f, .fn f ∈ items ∧ f.Bundled syn σ write path) ∧
    (((emitTable (tables.side write)).under syn σ).map (·.path)).Nodup ∧
    (emitTable (tables.side write)).length.eval syn σ =
      ((emitTable (tables.side write)).under syn σ).length := by
  obtain ⟨sites, h⟩ := h
  obtain ⟨hrecorded, hsites⟩ := h write
  refine ⟨fun path => ?_, ?_, length_emitTable hrecorded.nonempty σ⟩
  · rw [← hsites σ path, ← hrecorded.enabled σ path, under_emitTable hrecorded.nonempty]
    simp [derivedEntryTokens, and_assoc, and_comm, and_left_comm]
  · rw [under_emitTable hrecorded.nonempty, List.map_map]
    exact (List.filter_sublist.map _).nodup hrecorded.nodup

/-- In a build, what the bundle takes in without asking the `cfg_attr`s is there all the same. -/
structure BundleFits (syn : ExprSyntax) (items : List ModItem) (σ : Assignment) : Prop where
  /-- A call enabled in a function whose own `#[cfg]`s hold, but which a `cfg_attr` keeps from
  being a member in the build, has its path among the calls of a member. -/
  member : ∀ f, .fn f ∈ items → f.ownCfgsHold syn σ = true → ∀ attr preds call,
    f.dataflowAttr = some (attr, preds) → f.Calls syn attr call → call.enabled syn σ = true →
    ¬ (f.compiledIn syn σ = true ∧ preds.all (holds syn σ) = true) →
    ∃ f', .fn f' ∈ items ∧ f'.compiledIn syn σ = true ∧ ∃ m ∈ f'.dataflowAttrs syn σ,
      ∃ call', f'.Calls syn m call' ∧ call'.write = call.write ∧ call'.path = call.path ∧
        call'.enabled syn σ = true
  /-- A call enabled under an attribute that is not the first one written has its path among
  those of the first attributes. -/
  written : ∀ f, .fn f ∈ items → f.compiledIn syn σ = true → ∀ m ∈ f.dataflowAttrs syn σ,
    f.dataflowAttr.map (·.1) ≠ some m → ∀ call, f.Calls syn m call →
    call.enabled syn σ = true → ∃ f', .fn f' ∈ items ∧ f'.Bundled syn σ call.write call.path

/-- The bundle is the union of its members' tables, each path once and the length right, where
the functions that a `cfg_attr` takes out add nothing. -/
theorem bundle_is_union_iff (quoteSig : Sig → List TokenTree) {args : List TokenTree}
    {m : ItemMod} {items : List ModItem} {b : Bundle} (hcontent : m.content = some items)
    (hexpands : ∀ f, .fn f ∈ items → f.Expands syn features)
    (hbundle : bundleExpand syn features args m = .ok b) (σ : Assignment) :
    (∀ write, (∀ path, (∃ entry ∈ (b.side write).under syn σ, entry.path = path) ↔
        ∃ f, .fn f ∈ items ∧ f.Derives syn σ features quoteSig write path) ∧
      (((b.side write).under syn σ).map (·.path)).Nodup ∧
      (b.side write).length.eval syn σ = ((b.side write).under syn σ).length) ↔
      BundleFits syn items σ := by
  obtain ⟨tables, hbundled, hside⟩ := bundleExpand_ok hcontent hbundle
  have hentry : ∀ write path, (∃ entry ∈ (b.side write).under syn σ, entry.path = path) ↔
      ∃ f, .fn f ∈ items ∧ f.Bundled syn σ write path := by
    intro write path
    rw [hside]
    exact (hbundled.table σ write).1 path
  constructor
  · intro h
    constructor
    · intro f hf hown attr preds call hattr hcall henabled _
      obtain ⟨f', hf', hderives⟩ := ((h call.write).1 call.path).mp
        ((hentry _ _).mpr ⟨f, hf, hown, attr, preds, call, hattr, hcall, rfl, rfl, henabled⟩)
      exact ⟨f', hf', ((hexpands f' hf').derives_iff quoteSig _ _).mp hderives⟩
    · intro f hf hin m hm _ call hcall henabled
      have hderives := ((hexpands f hf).derives_iff quoteSig _ _).mpr
        ⟨hin, m, hm, call, hcall, rfl, rfl, henabled⟩
      exact (hentry _ _).mp (((h call.write).1 call.path).mpr ⟨f, hf, hderives⟩)
  · intro h write
    have htable := hbundled.table σ write
    rw [← hside] at htable
    refine ⟨fun path => ?_, htable.2⟩
    rw [hentry]
    constructor
    · rintro ⟨f, hf, hown, attr, preds, call, hattr, hcall, rfl, rfl, henabled⟩
      by_cases hmember : f.compiledIn syn σ = true ∧ preds.all (holds syn σ) = true
      · exact ⟨f, hf, ((hexpands f hf).derives_iff quoteSig _ _).mpr ⟨hmember.1, attr,
          mem_dataflowAttrs hattr hmember.2, call, hcall, rfl, rfl, henabled⟩⟩
      · obtain ⟨f', hf', hderives⟩ :=
          h.member f hf hown attr preds call hattr hcall henabled hmember
        exact ⟨f', hf', ((hexpands f' hf').derives_iff quoteSig _ _).mpr hderives⟩
    · rintro ⟨f, hf, hderives⟩
      obtain ⟨hin, m, hm, call, hcall, rfl, rfl, henabled⟩ :=
        ((hexpands f hf).derives_iff quoteSig _ _).mp hderives
      by_cases hfirst : f.dataflowAttr.map (·.1) = some m
      · obtain ⟨⟨attr, preds⟩, hattr, rfl⟩ := Option.map_eq_some_iff.mp hfirst
        exact ⟨f, hf, AttrFn.ownCfgsHold_of_compiledIn hin, attr, preds, call, hattr, hcall, rfl,
          rfl, henabled⟩
      · exact h.written f hf hin m hm hfirst call hcall henabled

end Union

/-- `#[cfg_attr(P, dataflow)] fn f(node: &TaskNode) { node.put(&X); }`, and nothing else. -/
def wrappedFn : AttrFn where
  attrs := [.list [.ident "cfg_attr"] .parenthesis
    [.ident "P", .punct ',' .alone, .ident "dataflow"]
    [.path [.ident "P"], .path [.ident "dataflow"]]]
  item := { gatedFn with block := putCall "X" }

def wrappedMod : ItemMod where
  content := some [.fn wrappedFn]

def wrappedBundle : Bundle where
  reads := emitTable []
  writes := emitTable [{ path := "X", alts := [[]] }]

theorem wrappedFn_expands : wrappedFn.Expands nameSyntax {} := by
  intro σ m hm
  have hattrs : wrappedFn.dataflowAttrs nameSyntax σ =
      if σ "P" then [.path [.ident "dataflow"]] else [] := by
    cases hP : σ "P" with
    | true =>
        have hholds : holds nameSyntax σ [.ident "P"] = true := hP
        simp [AttrFn.dataflowAttrs, wrappedFn, inForceAll, AttrMeta.inForce, AttrMeta.toTokens,
          hholds, AttrMeta.isDataflow, AttrMeta.pathTokens]
    | false =>
        have hholds : holds nameSyntax σ [.ident "P"] = false := hP
        simp [AttrFn.dataflowAttrs, wrappedFn, inForceAll, AttrMeta.inForce, AttrMeta.toTokens,
          hholds]
  rw [hattrs] at hm
  split at hm
  · obtain rfl := List.mem_singleton.mp hm
    exact ⟨[], ("node", {}, _), rfl, rfl⟩
  · cases hm

/-- Without `P` there is no member, and the bundle has a write. -/
theorem wrappedMod_not_union :
    bundleExpand nameSyntax {} [] wrappedMod = .ok wrappedBundle ∧
    ¬ ∀ write path,
      (∃ entry ∈ (wrappedBundle.side write).under nameSyntax fun _ => false, entry.path = path) ↔
        ∃ f, .fn f ∈ [ModItem.fn wrappedFn] ∧
          f.Derives nameSyntax (fun _ => false) {} (fun sig => sig.target) write path := by
  refine ⟨rfl, fun h => ?_⟩
  obtain ⟨f, hf, -, m, hm, -⟩ := (h true "X").mp ⟨_, List.mem_cons_self, rfl⟩
  cases List.mem_singleton.mp hf
  cases hm

/-- With `P` the function is a member, and the bundle is its tables. -/
theorem wrappedMod_union :
    bundleExpand nameSyntax {} [] wrappedMod = .ok wrappedBundle ∧ ∀ write,
    (∀ path, (∃ entry ∈ (wrappedBundle.side write).under nameSyntax fun _ => true,
        entry.path = path) ↔ ∃ f, .fn f ∈ [ModItem.fn wrappedFn] ∧
        f.Derives nameSyntax (fun _ => true) {} (fun sig => sig.target) write path) ∧
      (((wrappedBundle.side write).under nameSyntax fun _ => true).map (·.path)).Nodup ∧
      (wrappedBundle.side write).length.eval nameSyntax (fun _ => true) =
        ((wrappedBundle.side write).under nameSyntax fun _ => true).length := by
  have hcontent : wrappedMod.content = some [.fn wrappedFn] := rfl
  have hbundle : bundleExpand nameSyntax {} [] wrappedMod = .ok wrappedBundle := rfl
  refine ⟨hbundle, (bundle_is_union_iff (fun sig => sig.target) hcontent (fun f hf => ?_) hbundle
    fun _ => true).mpr ⟨?_, ?_⟩⟩
  · cases List.mem_singleton.mp hf
    exact wrappedFn_expands
  · rintro f hf - attr preds call hattr - - hout
    cases List.mem_singleton.mp hf
    exact absurd ⟨rfl, List.all_eq_true.mpr fun _ _ => rfl⟩ hout
  · rintro f hf - m hm hfirst
    cases List.mem_singleton.mp hf
    cases List.mem_singleton.mp hm
    exact absurd rfl hfirst

end EmbassySupervisor
