/-
# The scan of a dataflow function

The diagram and the lints read the accesses of a function from its source. They walk the body
as the macro does, and keep the predicates of the first call of each path.

The macro keeps those of every call. `scanFn_agrees_iff` says when the two come to the same.
-/

import EmbassySupervisor.Macro.DataflowAttr

namespace EmbassySupervisor

open TokenTree

structure Access where
  func : String
  verb : String
  write : Bool
  path : String
  cfgs : List String
  deriving DecidableEq

def verbTableOf (attr : AttrMeta) : VerbTable :=
  match attr with
  | .list _ _ tokens _ =>
    match VerbTable.parse {} tokens with
    | .ok verbs => verbs
    | .error _ => {}
  | _ => {}

section Scan

variable (syn : ExprSyntax)

def allText (preds : List Pred) : String :=
  "all(" ++ ",".intercalate (preds.map syn.tokensText) ++ ")"

/-- The predicates around an attribute, as one. -/
def wrapCfg : List Pred → Option String
  | [] => none
  | [one] => some (syn.tokensText one)
  | many => some (allText syn many)

def addCfg (cfgs : List String) (c : String) : List String :=
  if c ∈ cfgs then cfgs else cfgs ++ [c]

/-- What is reported of a call. -/
def accessOf (func : String) (cfgs : List String) (call : VerbCall) : Access where
  func := func
  verb := call.verb
  write := call.write
  path := call.path
  cfgs := (cfgs ++ call.gates.map syn.tokensText).foldl addCfg []

/-- The state is what has been seen and what has been put out. -/
def scanCall (func : String) (cfgs : List String) (call : VerbCall)
    (st : List (Bool × String) × List Access) :
    Except String (Option (List TokenTree) × (List (Bool × String) × List Access)) :=
  if (call.write, call.path) ∈ st.1 then .ok (none, st)
  else .ok (none, (st.1 ++ [(call.write, call.path)], st.2 ++ [accessOf syn func cfgs call]))

/-- The accesses of a function. The source keeps what it has where the walk of the body fails;
the macro fails on such a body too. -/
def scanFn (f : AttrFn) : Except String (List Access) :=
  match f.dataflowAttr with
  | none => .ok []
  | some (attr, preds) =>
    match nodeParam syn f.item.inputs with
    | none => .ok []
    | some param => do
      let cfgs := (fnCfgs f.attrs).map syn.tokensText ++ (wrapCfg syn preds).toList
      let pass ← rewriteVerbCalls param (verbTableOf attr) syn (scanCall syn f.item.ident cfgs)
        f.item.block ([], [])
      return pass.2.2

end Scan

/-! ## What a scan puts out -/

section Accesses

variable {syn : ExprSyntax} {σ : Assignment}

/-- A build reads `all(..)` as the conjunction. -/
def Assignment.ReadsAll (syn : ExprSyntax) (σ : Assignment) : Prop :=
  ∀ preds : List Pred, σ (allText syn preds) = preds.all (holds syn σ)

def Access.present (σ : Assignment) (a : Access) : Bool := a.cfgs.all σ

theorem all_foldl_addCfg (cs cfgs : List String) :
    (cs.foldl addCfg cfgs).all σ = (cfgs.all σ && cs.all σ) := by
  induction cs generalizing cfgs with
  | nil => simp
  | cons c cs ih =>
      rw [List.foldl_cons, ih]
      unfold addCfg
      split
      · next hmem =>
          have hc : cfgs.all σ = true → σ c = true := fun h => List.all_eq_true.mp h c hmem
          cases hcfgs : cfgs.all σ with
          | false => rfl
          | true => simp [hc hcfgs]
      · simp [Bool.and_assoc]

theorem all_wrapCfg (hall : σ.ReadsAll syn) (preds : List Pred) :
    (wrapCfg syn preds).toList.all σ = preds.all (holds syn σ) := by
  match preds with
  | [] => rfl
  | [one] => simp [wrapCfg, holds]
  | p :: q :: rest => simpa [wrapCfg] using hall (p :: q :: rest)

/-- An access is present where the function's predicates, those around the attribute and the
call's own hold. -/
theorem present_accessOf (hall : σ.ReadsAll syn) (f : AttrFn) (preds : List Pred)
    (func : String) (call : VerbCall) :
    (accessOf syn func ((fnCfgs f.attrs).map syn.tokensText ++ (wrapCfg syn preds).toList)
      call).present σ = true ↔
      f.ownCfgsHold syn σ = true ∧ preds.all (holds syn σ) = true ∧ call.enabled syn σ = true := by
  have htexts : ∀ ps : List Pred, (ps.map syn.tokensText).all σ = ps.all (holds syn σ) :=
    fun ps => by rw [List.all_map]; rfl
  simp only [Access.present, accessOf, all_foldl_addCfg, List.all_append, htexts,
    all_wrapCfg hall, AttrFn.ownCfgsHold, VerbCall.enabled, List.all_nil, Bool.true_and,
    Bool.and_eq_true, and_assoc]

/-- A call and the access of its path and direction. -/
def sameAccess (write : Bool) (path : String) (e : VerbCall × Option (List TokenTree)) : Bool :=
  e.1.write = write ∧ e.1.path = path

/-- What a scan has put out, said of the calls so far. -/
structure Scanned (syn : ExprSyntax) (func : String) (cfgs : List String) (log : CallLog)
    (st : List (Bool × String) × List Access) : Prop where
  seen : ∀ write path, (write, path) ∈ st.1 ↔ (log.find? (sameAccess write path)).isSome = true
  out : ∀ a, a ∈ st.2 ↔ ∃ write path e, log.find? (sameAccess write path) = some e ∧
    a = accessOf syn func cfgs e.1

theorem Scanned.step {func : String} {cfgs : List String} {log : CallLog}
    {st : List (Bool × String) × List Access} (h : Scanned syn func cfgs log st)
    {call : VerbCall} {r : Option (List TokenTree) × (List (Bool × String) × List Access)}
    (hcall : scanCall syn func cfgs call st = .ok r) :
    Scanned syn func cfgs (log ++ [(call, r.1)]) r.2 := by
  have hfind : ∀ write path, (log ++ [(call, r.1)]).find? (sameAccess write path) =
      (log.find? (sameAccess write path)).or
        (if call.write = write ∧ call.path = path then some (call, r.1) else none) := by
    intro write path
    rw [List.find?_append]
    congr 1
    by_cases hsame : call.write = write ∧ call.path = path <;>
      simp [sameAccess, hsame]
  unfold scanCall at hcall
  split at hcall
  · next hseen =>
      cases hcall
      -- A call that has been seen changes no first call.
      have hkeep : ∀ write path, (log ++ [(call, none)]).find? (sameAccess write path) =
          log.find? (sameAccess write path) := by
        intro write path
        rw [hfind]
        split
        · next hsame =>
            obtain ⟨rfl, rfl⟩ := hsame
            obtain ⟨e, he⟩ := Option.isSome_iff_exists.mp ((h.seen _ _).mp hseen)
            rw [he, Option.some_or]
        · exact Option.or_none
      exact ⟨fun write path => by rw [hkeep, h.seen], fun a => by simp only [hkeep, h.out]⟩
  · next hseen =>
      cases hcall
      have hnone : log.find? (sameAccess call.write call.path) = none :=
        Option.not_isSome_iff_eq_none.mp fun hsome => hseen ((h.seen _ _).mpr hsome)
      constructor
      · intro write path
        rw [hfind, List.mem_append, List.mem_singleton, h.seen, Option.isSome_or, Bool.or_eq_true]
        refine or_congr_right ?_
        rw [Prod.mk.injEq]
        split
        · next hsame => exact iff_of_true ⟨hsame.1.symm, hsame.2.symm⟩ rfl
        · next hsame => exact iff_of_false (fun h => hsame ⟨h.1.symm, h.2.symm⟩) (by simp)
      · intro a
        rw [List.mem_append, List.mem_singleton, h.out]
        constructor
        · rintro (⟨write, path, e, he, rfl⟩ | rfl)
          · exact ⟨write, path, e, by rw [hfind, he, Option.some_or], rfl⟩
          · exact ⟨call.write, call.path, (call, none), by simp [hfind, hnone], rfl⟩
        · rintro ⟨write, path, e, he, rfl⟩
          rw [hfind] at he
          rcases Option.or_eq_some_iff.mp he with he | ⟨-, he⟩
          · exact .inl ⟨write, path, e, he, rfl⟩
          · split at he
            · cases he
              exact .inr rfl
            · cases he

theorem scanned_of_run {node func : String} {verbs : VerbTable} {cfgs : List String}
    {body out : List TokenTree} {st : List (Bool × String) × List Access} {log : CallLog}
    (hrun : rewriteVerbCalls node verbs syn (logged (scanCall syn func cfgs)) body
      (([], []), []) = .ok (out, (st, log))) : Scanned syn func cfgs log st := by
  have hstep : ∀ call (st : (List (Bool × String) × List Access) × CallLog) r,
      Scanned syn func cfgs st.2 st.1 → logged (scanCall syn func cfgs) call st = .ok r →
      Scanned syn func cfgs r.2.2 r.2.1 := by
    intro call st r h hcall
    obtain ⟨reply, hreply, hret⟩ := ok_of_bind hcall
    cases hret
    exact h.step hreply
  have hstart : Scanned syn func cfgs [] ([], []) := ⟨by simp, by simp⟩
  exact rewriteVerbCallsIn_keeps hstep (.body body) hstart hrun

end Accesses

/-! ## First calls -/

/-- The first call of an attribute on its path and in its direction. -/
def AttrFn.FirstCall (syn : ExprSyntax) (f : AttrFn) (attr : AttrMeta) (call : VerbCall) : Prop :=
  f.Calls syn attr call ∧ ∀ call', f.Calls syn attr call' → call'.write = call.write →
    call'.path = call.path → ¬ Earlier call'.place call.place

/-- In a log in the order of places, the call found first is the earliest. -/
theorem find?_sameAccess_iff {log : CallLog} (hsorted : (log.map (·.1.place)).Pairwise Earlier)
    (write : Bool) (path : String) (call : VerbCall) :
    (∃ e, log.find? (sameAccess write path) = some e ∧ e.1 = call) ↔
      call ∈ log.map (·.1) ∧ (call.write = write ∧ call.path = path) ∧
        ∀ call' ∈ log.map (·.1), call'.write = write → call'.path = path →
          ¬ Earlier call'.place call.place := by
  induction log with
  | nil => simp
  | cons e log ih =>
      rw [List.map_cons, List.pairwise_cons] at hsorted
      have hlater : ∀ call ∈ log.map (·.1), Earlier e.1.place call.place := by
        intro call hcall
        obtain ⟨e', he', rfl⟩ := List.mem_map.mp hcall
        exact hsorted.1 _ (List.mem_map_of_mem he')
      rw [List.find?_cons]
      cases hsame : sameAccess write path e with
      | true =>
          have hkey : e.1.write = write ∧ e.1.path = path := of_decide_eq_true hsame
          simp only [Option.some.injEq, exists_eq_left', List.map_cons, List.mem_cons]
          constructor
          · rintro rfl
            refine ⟨.inl rfl, hkey, ?_⟩
            rintro call' (rfl | hcall') - -
            · exact not_earlier_self _
            · exact List.lt_asymm (hlater call' hcall')
          · rintro ⟨rfl | hcall, -, hfirst⟩
            · rfl
            · exact absurd (hlater call hcall) (hfirst e.1 (.inl rfl) hkey.1 hkey.2)
      | false =>
          have hkey : ¬ (e.1.write = write ∧ e.1.path = path) := of_decide_eq_false hsame
          simp only [ih hsorted.2, List.map_cons, List.mem_cons]
          constructor
          · rintro ⟨hcall, hkey', hfirst⟩
            refine ⟨.inr hcall, hkey', ?_⟩
            rintro call' (rfl | hcall') hwrite hpath
            · exact absurd ⟨hwrite, hpath⟩ hkey
            · exact hfirst call' hcall' hwrite hpath
          · rintro ⟨rfl | hcall, hkey', hfirst⟩
            · exact absurd hkey' hkey
            · exact ⟨hcall, hkey', fun call' hcall' => hfirst call' (.inr hcall')⟩

/-! ## The scan and the table -/

section Agreement

variable {syn : ExprSyntax} {features : Features} {f : AttrFn}

theorem verbTableOf_eq {attr : AttrMeta} {args : List TokenTree} {verbs : VerbTable}
    (hargs : attr.macroArgs = some args) (hverbs : VerbTable.parse {} args = .ok verbs) :
    verbTableOf attr = verbs := by
  cases attr with
  | path p =>
      cases hargs
      exact Except.ok.inj hverbs
  | list p d tokens metas =>
      cases hargs
      simp only [verbTableOf, hverbs]
  | nameValue p value => cases hargs

/-- A scan reports an access as present where the first call of its path and direction is
enabled and the function is one in force. -/
theorem AttrFn.Expands.scanFn (hexpands : f.Expands syn features) {attr : AttrMeta}
    {preds : List Pred} (hattr : f.dataflowAttr = some (attr, preds)) :
    ∃ accesses, scanFn syn f = .ok accesses ∧ ∀ σ : Assignment, σ.ReadsAll syn →
      ∀ write path, (∃ a ∈ accesses, a.write = write ∧ a.path = path ∧ a.present σ = true) ↔
        (f.ownCfgsHold syn σ = true ∧ preds.all (holds syn σ) = true) ∧
          ∃ first, f.FirstCall syn attr first ∧ first.write = write ∧ first.path = path ∧
            first.enabled syn σ = true := by
  have hforce : attr ∈ f.dataflowAttrs syn fun _ => true :=
    mem_dataflowAttrs hattr (List.all_eq_true.mpr fun _ _ => rfl)
  obtain ⟨args, ⟨param, verbs, tables⟩, hargs, hcollect⟩ := hexpands _ attr hforce
  obtain ⟨hverbs, hparam⟩ := dataflowCollect_ok hcollect
  let cfgs := (fnCfgs f.attrs).map syn.tokensText ++ (wrapCfg syn preds).toList
  have hcall : ∀ call, Reports param verbs syn (.body f.item.block) call → ∀ st,
      ∃ r, scanCall syn f.item.ident cfgs call st = .ok r := by
    intro call _ st
    unfold scanCall
    split <;> exact ⟨_, rfl⟩
  obtain ⟨⟨out, st⟩, hrun⟩ :=
    exists_run (.body f.item.block) (collected hcollect).parses hcall ([], [])
  obtain ⟨log, hlogged⟩ := exists_logged_run (.body f.item.block) [] hrun
  have hscanned := scanned_of_run hlogged
  have hsorted := rewriteVerbCalls_sorted hlogged
  obtain ⟨-, hlog, -⟩ := rewriteVerbCalls_traced hlogged
  have hpass : rewriteVerbCalls param verbs syn (scanCall syn f.item.ident cfgs) f.item.block
      ([], []) = .ok (out, st) := hrun
  have hscan : EmbassySupervisor.scanFn syn f = .ok st.2 := by
    unfold EmbassySupervisor.scanFn
    simp only [hattr, hparam, verbTableOf_eq hargs hverbs]
    rw [hpass]
    rfl
  refine ⟨st.2, hscan, fun σ hall write path => ?_⟩
  have hfirst := find?_sameAccess_iff hsorted
  simp only [hlog, ← AttrFn.calls_iff hargs hcollect] at hfirst
  constructor
  · rintro ⟨a, ha, rfl, rfl, hpresent⟩
    obtain ⟨write, path, e, he, rfl⟩ := (hscanned.out a).mp ha
    obtain ⟨hown, hpreds, henabled⟩ := (present_accessOf hall f preds _ e.1).mp hpresent
    obtain ⟨hcalls, ⟨rfl, rfl⟩, hearliest⟩ := (hfirst write path e.1).mp ⟨e, he, rfl⟩
    exact ⟨⟨hown, hpreds⟩, e.1, ⟨hcalls, hearliest⟩, rfl, rfl, henabled⟩
  · rintro ⟨⟨hown, hpreds⟩, first, ⟨hcalls, hearliest⟩, rfl, rfl, henabled⟩
    obtain ⟨e, he, rfl⟩ := (hfirst _ _ first).mpr ⟨hcalls, ⟨rfl, rfl⟩, hearliest⟩
    exact ⟨_, (hscanned.out _).mpr ⟨_, _, e, he, rfl⟩, rfl, rfl,
      (present_accessOf hall f preds _ e.1).mpr ⟨hown, hpreds, henabled⟩⟩

/-- One of the calls on a path and in a direction is the first. -/
theorem AttrFn.Expands.exists_firstCall (hexpands : f.Expands syn features) {m : AttrMeta}
    (hforce : m ∈ f.dataflowAttrs syn fun _ => true) {call : VerbCall}
    (hcall : f.Calls syn m call) :
    ∃ first, f.FirstCall syn m first ∧ first.write = call.write ∧ first.path = call.path := by
  obtain ⟨args, ⟨param, verbs, tables⟩, hargs, hcollect⟩ := hexpands _ m hforce
  let decline (_ : VerbCall) (st : Unit) : Except String (Option (List TokenTree) × Unit) :=
    .ok (none, st)
  have hok : ∀ call, Reports param verbs syn (.body f.item.block) call →
      ∀ st, ∃ r, decline call st = .ok r := fun _ _ st => ⟨(none, st), rfl⟩
  obtain ⟨⟨out, st⟩, hrun⟩ := exists_run (.body f.item.block) (collected hcollect).parses hok ()
  obtain ⟨log, hlogged⟩ := exists_logged_run (.body f.item.block) [] hrun
  obtain ⟨-, hlog, -⟩ := rewriteVerbCalls_traced hlogged
  have hfirst := find?_sameAccess_iff (rewriteVerbCalls_sorted hlogged) call.write call.path
  simp only [hlog, ← AttrFn.calls_iff hargs hcollect] at hfirst
  obtain ⟨e, he, rfl⟩ := List.mem_map.mp
    ((hlog call).mpr ((AttrFn.calls_iff hargs hcollect call).mp hcall))
  have hfound : (log.find? (sameAccess e.1.write e.1.path)).isSome = true :=
    List.find?_isSome.mpr ⟨e, he, by simp [sameAccess]⟩
  obtain ⟨e', he'⟩ := Option.isSome_iff_exists.mp hfound
  obtain ⟨hcalls, ⟨hwrite, hpath⟩, hearliest⟩ := (hfirst e'.1).mp ⟨e', he', rfl⟩
  exact ⟨e'.1, ⟨hcalls, hwrite ▸ hpath ▸ hearliest⟩, hwrite, hpath⟩

/-- In a build, the first calls stand for all of them. -/
structure AttrFn.FirstCallsDecide (syn : ExprSyntax) (f : AttrFn) (σ : Assignment) : Prop where
  /-- Where a call is enabled under an attribute in force, so is the first one of its path and
  direction, under the attribute written first. -/
  first : f.compiledIn syn σ = true → ∀ m ∈ f.dataflowAttrs syn σ, ∀ call, f.Calls syn m call →
    call.enabled syn σ = true → ∃ attr preds first, f.dataflowAttr = some (attr, preds) ∧
      preds.all (holds syn σ) = true ∧ f.FirstCall syn attr first ∧ first.write = call.write ∧
      first.path = call.path ∧ first.enabled syn σ = true
  /-- Where a `#[cfg]` out of a `cfg_attr` leaves the function out, no first call is enabled. -/
  absent : f.ownCfgsHold syn σ = true → f.compiledIn syn σ = false → ∀ attr preds first,
    f.dataflowAttr = some (attr, preds) → preds.all (holds syn σ) = true →
    f.FirstCall syn attr first → first.enabled syn σ = false

/-- The scan reports what is in the table of a build where the first calls stand for all. -/
theorem scanFn_agrees_iff (quoteSig : Sig → List TokenTree) (hexpands : f.Expands syn features) :
    ∃ accesses, scanFn syn f = .ok accesses ∧ ∀ σ : Assignment, σ.ReadsAll syn →
      ((∀ write path, (∃ a ∈ accesses, a.write = write ∧ a.path = path ∧ a.present σ = true) ↔
          f.Derives syn σ features quoteSig write path) ↔ f.FirstCallsDecide syn σ) := by
  cases hattr : f.dataflowAttr with
  | none =>
      refine ⟨[], by simp only [scanFn, hattr], fun σ _ => ?_⟩
      simp only [hexpands.derives_iff]
      constructor
      · intro h
        refine ⟨fun hin m hm call hcall henabled => ?_, fun _ _ attr preds _ h => ?_⟩
        · obtain ⟨a, ha, -⟩ :=
            (h call.write call.path).mpr ⟨hin, m, hm, call, hcall, rfl, rfl, henabled⟩
          cases ha
        · cases hattr.symm.trans h
      · intro h write path
        refine ⟨fun ⟨a, ha, _⟩ => absurd ha List.not_mem_nil, ?_⟩
        rintro ⟨hin, m, hm, call, hcall, rfl, rfl, henabled⟩
        obtain ⟨attr, preds, first, h, -⟩ := h.first hin m hm call hcall henabled
        cases hattr.symm.trans h
  | some found =>
      obtain ⟨attr, preds⟩ := found
      obtain ⟨accesses, hscan, hpresent⟩ := hexpands.scanFn hattr
      refine ⟨accesses, hscan, fun σ hall => ?_⟩
      simp only [hpresent σ hall, hexpands.derives_iff]
      constructor
      · intro h
        constructor
        · intro hin m hm call hcall henabled
          obtain ⟨⟨-, hpreds⟩, first, hfirst, hwrite, hpath, hon⟩ :=
            (h call.write call.path).mpr ⟨hin, m, hm, call, hcall, rfl, rfl, henabled⟩
          exact ⟨attr, preds, first, hattr, hpreds, hfirst, hwrite, hpath, hon⟩
        · intro hown hout attr' preds' first hattr' hpreds hfirst
          cases hattr.symm.trans hattr'
          by_contra hon
          obtain ⟨hin, -⟩ := (h first.write first.path).mp
            ⟨⟨hown, hpreds⟩, first, hfirst, rfl, rfl, by simpa using hon⟩
          rw [hout] at hin
          cases hin
      · intro h write path
        constructor
        · rintro ⟨⟨hown, hpreds⟩, first, hfirst, hwrite, hpath, hon⟩
          refine ⟨?_, attr, mem_dataflowAttrs hattr hpreds, first, hfirst.1, hwrite, hpath, hon⟩
          by_contra hout
          rw [h.absent hown (by simpa using hout) attr preds first hattr hpreds hfirst] at hon
          cases hon
        · rintro ⟨hin, m, hm, call, hcall, rfl, rfl, hon⟩
          obtain ⟨attr', preds', first, hattr', hpreds, hfirst⟩ := h.first hin m hm call hcall hon
          cases hattr.symm.trans hattr'
          exact ⟨⟨AttrFn.ownCfgsHold_of_compiledIn hin, hpreds⟩, first, hfirst⟩

end Agreement

/-- `#[dataflow]` on the function of `gatedBody`. -/
def gatedAttrFn : AttrFn where
  attrs := [.path [.ident "dataflow"]]
  item := gatedFn

/-- The predicates without a `P` hold. -/
def withoutP : Assignment := fun text => !text.toList.contains 'P'

theorem withoutP_readsAll (syn : ExprSyntax) : withoutP.ReadsAll syn := by
  intro preds
  have hjoin : ∀ texts : List (List Char), 'P' ∈ [','].intercalate texts ↔
      ∃ text ∈ texts, 'P' ∈ text := by
    intro texts
    induction texts with
    | nil => simp
    | cons text texts ih =>
        cases texts with
        | nil => simp
        | cons text' texts =>
            rw [List.intercalate_cons_cons, List.mem_append, List.mem_append, ih]
            simp
  rw [Bool.eq_iff_iff]
  simp [withoutP, allText, holds, hjoin]

theorem gatedAttrFn_expands : gatedAttrFn.Expands nameSyntax {} := by
  intro σ m hm
  obtain rfl := List.mem_singleton.mp hm
  exact ⟨[], ("node", {}, gatedTables), rfl, rfl⟩

/-- With `Q` alone, `X` is in the table and not in the scan. -/
theorem gatedAttrFn_scan_misses : withoutP.ReadsAll nameSyntax ∧ ∃ accesses,
    scanFn nameSyntax gatedAttrFn = .ok accesses ∧
    ¬ ∀ write path,
      (∃ a ∈ accesses, a.write = write ∧ a.path = path ∧ a.present withoutP = true) ↔
        gatedAttrFn.Derives nameSyntax withoutP {} (fun sig => sig.target) write path := by
  have hcollect : dataflowCollect {} nameSyntax [] gatedFn = .ok ("node", {}, gatedTables) := rfl
  refine ⟨withoutP_readsAll _, _, rfl, fun h => ?_⟩
  obtain ⟨out, log, -, hexpand⟩ := exists_expansion (fun sig => sig.target) hcollect
  have hentry : ∃ entry ∈ (emitTable gatedTables.writes).under nameSyntax withoutP,
      entry.path = "X" := ⟨_, List.mem_cons_self, rfl⟩
  obtain ⟨a, ha, -, hpath, hpresent⟩ := (h true "X").mpr
    ⟨rfl, .path [.ident "dataflow"], List.mem_cons_self, [], _, rfl, hexpand, hentry⟩
  rcases List.mem_pair.mp ha with rfl | rfl
  · exact absurd hpresent (by decide)
  · exact absurd hpath (by decide)

/-- With `P` and `Q`, the scan of `gatedBody` and its table agree on `X` and `Y`. -/
theorem scanFn_agrees_gatedAttrFn : ∃ accesses, scanFn nameSyntax gatedAttrFn = .ok accesses ∧
    accesses.map (·.path) = ["X", "Y"] ∧
    ∀ write path, (∃ a ∈ accesses, a.write = write ∧ a.path = path ∧
        a.present (fun _ => true) = true) ↔
      gatedAttrFn.Derives nameSyntax (fun _ => true) {} (fun sig => sig.target) write path := by
  obtain ⟨accesses, hscan, hagrees⟩ := scanFn_agrees_iff (fun sig => sig.target) gatedAttrFn_expands
  have haccesses : accesses.map (·.path) = ["X", "Y"] := by
    cases hscan
    decide
  have hdecide : gatedAttrFn.FirstCallsDecide nameSyntax fun _ => true := by
    refine ⟨fun _ m hm call hcall _ => ?_, fun _ hout => absurd hout (by decide)⟩
    obtain ⟨first, hfirst, hwrite, hpath⟩ := gatedAttrFn_expands.exists_firstCall hm hcall
    obtain rfl := List.mem_singleton.mp hm
    exact ⟨_, [], first, rfl, rfl, hfirst, hwrite, hpath, List.all_eq_true.mpr fun _ _ => rfl⟩
  have hreads : Assignment.ReadsAll nameSyntax fun _ => true :=
    fun _ => (List.all_eq_true.mpr fun _ _ => rfl).symm
  exact ⟨accesses, hscan, haccesses, (hagrees _ hreads).mpr hdecide⟩

end EmbassySupervisor
