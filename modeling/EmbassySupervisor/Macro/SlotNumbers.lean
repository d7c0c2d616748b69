/-
# How slots are numbered

Three runs decide the slots of a graph. The parser refuses an entry of `writes:` given twice,
and on a node a resource given twice. The planning loops give out the bases: they number the
requests of the items one after the other. The emitters refuse a name given twice and read the
bases back.
-/

import EmbassySupervisor.Lib.Numbering
import EmbassySupervisor.Macro.Markers
import EmbassySupervisor.Macro.SlotPlan

namespace EmbassySupervisor

namespace Decl

/-! ## What the parser has checked -/

section Parsed

variable {syn : ExprSyntax}

theorem checkEntries_nodup {name : String} {before decls : List SignalDecl}
    (h : checkEntries syn name before decls = .ok ())
    (hbefore : (before.map (·.display syn)).Nodup) :
    ((before ++ decls).map (·.display syn)).Nodup := by
  induction decls generalizing before with
  | nil => simpa using hbefore
  | cons d rest ih =>
      simp only [checkEntries] at h
      split at h
      · cases h
      next hnew =>
      split at h
      · cases h
      · have hsnoc : ((before ++ [d]).map (·.display syn)).Nodup := by
          rw [List.map_append, List.map_singleton, ← List.concat_eq_append, List.nodup_concat]
          refine ⟨fun hmem => hnew ?_, hbefore⟩
          obtain ⟨e, he, heq⟩ := List.mem_map.mp hmem
          exact List.any_eq_true.mpr ⟨e, he, decide_eq_true heq⟩
        simpa using ih h hsnoc

theorem checkResourceNames_nodup {before decls : List ResourceDecl}
    (h : checkResourceNames before decls = .ok ()) (hbefore : (before.map (·.ident)).Nodup) :
    ((before ++ decls).map (·.ident)).Nodup := by
  induction decls generalizing before with
  | nil => simpa using hbefore
  | cons d rest ih =>
      simp only [checkResourceNames] at h
      split at h
      · cases h
      next hnew =>
      have hsnoc : ((before ++ [d]).map (·.ident)).Nodup := by
        rw [List.map_append, List.map_singleton, ← List.concat_eq_append, List.nodup_concat]
        refine ⟨fun hmem => hnew ?_, hbefore⟩
        obtain ⟨e, he, heq⟩ := List.mem_map.mp hmem
        exact List.any_eq_true.mpr ⟨e, he, decide_eq_true heq⟩
      simpa using ih h hsnoc

theorem parseSignalClause_nodup {name : String} {before decls : List SignalDecl}
    {entries : List RawSignal} (h : parseSignalClause syn name before entries = .ok decls) :
    (decls.map (·.display syn)).Nodup := by
  unfold parseSignalClause at h
  split at h
  · cases h
  · obtain ⟨parsed, -, h⟩ := ok_of_bind h
    obtain ⟨⟨⟩, hcheck, hret⟩ := ok_of_bind h
    cases hret
    unfold checkSignalList at hcheck
    split at hcheck
    · cases hcheck
    · exact checkEntries_nodup hcheck List.nodup_nil

/-- A shared clause sets the writes to a list without duplicates, or leaves them. -/
theorem parseOne_writes {c c' : CommonClauses} {cfg : List AttrMeta} {clause : Clause}
    (h : c.parseOne syn cfg clause = .ok (some c'))
    (hc : (c.writes.map (·.display syn)).Nodup) : (c'.writes.map (·.display syn)).Nodup := by
  cases clause with
  | writes entries =>
      obtain ⟨writes, hwrites, hret⟩ := ok_of_bind h
      cases hret
      exact parseSignalClause_nodup hwrites
  | spawn | task | executor | reads | state | slotTimeout | ackTimeout =>
      obtain ⟨_, -, hret⟩ := ok_of_bind h
      cases hret
      exact hc
  | resources =>
      simp only [CommonClauses.parseOne] at h
      split at h
      · cases h
      · obtain ⟨_, -, hret⟩ := ok_of_bind h
        cases hret
        exact hc
  | discover =>
      simp only [CommonClauses.parseOne] at h
      split at h
      · cases h
      split at h
      · cases h
      · cases h
        exact hc
  | dataflow =>
      simp only [CommonClauses.parseOne] at h
      split at h
      · cases h
      · obtain ⟨_, -, h⟩ := ok_of_bind h
        split at h
        · cases h
        · cases h
          exact hc
  | cancel =>
      simp only [CommonClauses.parseOne] at h
      split at h
      · cases h
      · cases h
        exact hc
  | _ => cases h

theorem parseNodeClause_writes {st st' : NodeClauses} {c : List AttrMeta × Clause}
    (h : parseNodeClause syn st c = .ok st')
    (hst : (st.common.writes.map (·.display syn)).Nodup) :
    (st'.common.writes.map (·.display syn)).Nodup := by
  obtain ⟨⟨⟩, -, h⟩ := ok_of_bind h
  obtain ⟨common, hcommon, h⟩ := ok_of_bind h
  cases common with
  | some common =>
      cases h
      exact parseOne_writes hcommon hst
  | none =>
      obtain ⟨cfg, clause⟩ := c
      cases clause with
      | disabled | readyOnWrite | beatTimeout | beatWindow | enabledIf | restartBudget =>
          obtain ⟨_, -, hret⟩ := ok_of_bind h
          cases hret
          exact hst
      | deps =>
          simp only at h
          split at h
          · cases h
          · obtain ⟨_, -, hret⟩ := ok_of_bind h
            cases hret
            exact hst
      | provides =>
          obtain ⟨_, -, h⟩ := ok_of_bind h
          split at h
          · cases h
          · cases h
            exact hst
      | exit =>
          cases h
          exact hst
      | _ => cases h

theorem parsePoolClause_writes {st st' : PoolClauses} {c : List AttrMeta × Clause}
    (h : parsePoolClause syn st c = .ok st')
    (hst : (st.common.writes.map (·.display syn)).Nodup) :
    (st'.common.writes.map (·.display syn)).Nodup := by
  obtain ⟨⟨⟩, -, h⟩ := ok_of_bind h
  obtain ⟨common, hcommon, h⟩ := ok_of_bind h
  cases common with
  | some common =>
      cases h
      exact parseOne_writes hcommon hst
  | none =>
      obtain ⟨cfg, clause⟩ := c
      cases clause with
      | policy | min | max =>
          obtain ⟨_, -, hret⟩ := ok_of_bind h
          cases hret
          exact hst
      | deps =>
          simp only at h
          split at h
          · cases h
          · obtain ⟨_, -, hret⟩ := ok_of_bind h
            cases hret
            exact hst
      | _ => cases h

/-- What the parser has checked of the entries of an item. -/
structure EntriesChecked (syn : ExprSyntax) (item : Item) : Prop where
  writes : (item.writes.map (·.display syn)).Nodup
  /-- Only a node has its resources looked through. -/
  resources : ∀ n, item = .node n → (n.resources.map (·.ident)).Nodup
  shell : ∀ n, item = .node n → n.resources ≠ [] → ∃ e, n.source = some (.shell e)

/-- An item as parsed. Its executor may be filled in later. -/
def Item.Parsed (syn : ExprSyntax) : Item → Prop
  | .node n => ∃ input m, parseNode syn input = .ok m ∧ n = { m with executor := n.executor }
  | .pool p => ∃ input q, parsePool syn input = .ok q ∧ p = { q with executor := p.executor }
  | .executor _ => True

theorem taskSource_shell {spawn task : Option Tokens} {source : Option TaskSource}
    (h : taskSource spawn task = .ok source) (htask : task.isSome = true) :
    ∃ e, source = some (.shell e) := by
  obtain ⟨e, rfl⟩ := Option.isSome_iff_exists.mp htask
  cases spawn with
  | none =>
      cases h
      exact ⟨e, rfl⟩
  | some e' => cases h

theorem parseNode_entries {input : NodeInput} {m n : NodeItem} (h : parseNode syn input = .ok m)
    (hn : n = { m with executor := n.executor }) : EntriesChecked syn (.node n) := by
  obtain ⟨st, hfold, h⟩ := ok_of_bind h
  obtain ⟨⟨⟩, hcheck, h⟩ := ok_of_bind h
  obtain ⟨source, hsource, hret⟩ := ok_of_bind h
  cases hret
  have hwrites : (st.common.writes.map (·.display syn)).Nodup :=
    foldlM_keeps (fun _ (st : NodeClauses) => (st.common.writes.map (·.display syn)).Nodup)
      (fun _ _ _ _ hst hstep => parseNodeClause_writes hstep hst) (by simp) hfold
  obtain ⟨⟨⟩, -, hcheck⟩ := ok_of_bind hcheck
  obtain ⟨⟨⟩, -, hcheck⟩ := ok_of_bind hcheck
  obtain ⟨⟨⟩, -, hcheck⟩ := ok_of_bind hcheck
  obtain ⟨⟨⟩, -, hcheck⟩ := ok_of_bind hcheck
  obtain ⟨⟨⟩, -, hcheck⟩ := ok_of_bind hcheck
  obtain ⟨⟨⟩, -, hcheck⟩ := ok_of_bind hcheck
  obtain ⟨⟨⟩, hresources, -⟩ := ok_of_bind hcheck
  have hchecked : ∀ decls, st.common.resources = some decls →
      st.common.task.isSome = true ∧ (decls.map (·.ident)).Nodup := by
    intro decls hdecls
    simp only [NodeClauses.checkResources, hdecls] at hresources
    obtain ⟨⟨⟩, htask, hresources⟩ := ok_of_bind hresources
    obtain ⟨⟨⟩, -, hnames⟩ := ok_of_bind hresources
    exact ⟨require_ok htask, checkResourceNames_nodup hnames List.nodup_nil⟩
  constructor
  · rw [hn]
    exact hwrites
  · rintro n' ⟨⟩
    rw [hn]
    cases hdecls : st.common.resources with
    | none => simp
    | some decls => simpa [hdecls] using (hchecked decls hdecls).2
  · rintro n' ⟨⟩ hne
    rw [hn] at hne ⊢
    cases hdecls : st.common.resources with
    | none => simp [hdecls] at hne
    | some decls => exact taskSource_shell hsource (hchecked decls hdecls).1

theorem parsePool_entries {input : PoolInput} {q p : PoolItem} (h : parsePool syn input = .ok q)
    (hp : p = { q with executor := p.executor }) : EntriesChecked syn (.pool p) := by
  obtain ⟨st, hfold, h⟩ := ok_of_bind h
  obtain ⟨source, -, h⟩ := ok_of_bind h
  obtain ⟨⟨⟩, -, h⟩ := ok_of_bind h
  have hwrites : (st.common.writes.map (·.display syn)).Nodup :=
    foldlM_keeps (fun _ (st : PoolClauses) => (st.common.writes.map (·.display syn)).Nodup)
      (fun _ _ _ _ hst hstep => parsePoolClause_writes hstep hst) (by simp) hfold
  have hq : q.writes = st.common.writes := by
    split at h
    · obtain ⟨⟨⟩, -, hret⟩ := ok_of_bind h
      cases hret
      rfl
    · cases h
  constructor
  · rw [hp]
    exact hq ▸ hwrites
  · rintro n ⟨⟩
  · rintro n ⟨⟩

theorem Item.Parsed.entries {item : Item} (h : item.Parsed syn) : EntriesChecked syn item := by
  cases item with
  | node n =>
      obtain ⟨input, m, hparse, hn⟩ := h
      exact parseNode_entries hparse hn
  | pool p =>
      obtain ⟨input, q, hparse, hp⟩ := h
      exact parsePool_entries hparse hp
  | executor ident =>
      constructor
      · exact List.nodup_nil
      · rintro n ⟨⟩
      · rintro n ⟨⟩

end Parsed

/-! ## The bases of claims -/

open BlockNumbering

def ResourceSite.request (site : ResourceSite) : Request String String :=
  { owner := site.owner, key := site.decl.ident, size := site.count }

/-- The slots that the declarations of budgets ask for. -/
def claimRequests (sites : List ResourceSite) : List (Request String String) :=
  (sites.filter (·.decl.kind = .divisible)).map ResourceSite.request

section Claims

variable {syn : ExprSyntax}

theorem sharedSignature_ne (r : ResourceDecl) : sharedSignature syn r ≠ "divisible" := by
  intro h
  have hhead := congrArg (fun text : String => text.toList.head?) h
  unfold sharedSignature at hhead
  cases hlocal : r.localMark <;> cases hserialized : r.serialized <;>
    simp [hlocal, hserialized, String.toList_append] at hhead

theorem signature_eq_divisible {r : ResourceDecl} :
    signature syn r = "divisible" ↔ r.kind = .divisible := by
  unfold signature
  split
  · next h => exact iff_of_true rfl h
  · next h => exact iff_of_false (sharedSignature_ne r) h

/-- The resource loop has numbered the requests of the declarations so far. -/
structure ResourceState.Numbered (sites : List ResourceSite) (st : ResourceState) : Prop where
  bases : st.claimBases = (of (claimRequests sites)).base
  slots : ∀ key, ((st.plans key).map (·.slots)).getD 0 = (of (claimRequests sites)).total key
  le : ∀ key, (of (claimRequests sites)).total key ≤ 256

/-- A name stays what its first declaration makes it. -/
structure ResourceState.Named (syn : ExprSyntax) (sites : List ResourceSite)
    (st : ResourceState) : Prop where
  sig : ∀ key plan, st.plans key = some plan → plan.sig = signature syn plan.decl
  taken : ∀ key ∈ st.taken, st.plans key = none
  site : ∀ site ∈ sites, (site.decl.kind ≠ .divisible ∧ site.decl.ident ∈ st.taken) ∨
    ∃ plan, st.plans site.decl.ident = some plan ∧ plan.sig = signature syn site.decl

/-- Declarations of one name are of one kind, as far as budgets go. -/
theorem ResourceState.Named.kind_iff {sites : List ResourceSite} {st : ResourceState}
    (hst : st.Named syn sites) {s s' : ResourceSite} (hs : s ∈ sites) (hs' : s' ∈ sites)
    (hname : s.decl.ident = s'.decl.ident) :
    s.decl.kind = .divisible ↔ s'.decl.kind = .divisible := by
  rcases hst.site s hs with ⟨hkind, htaken⟩ | ⟨plan, hplan, hsig⟩
  · rcases hst.site s' hs' with ⟨hkind', -⟩ | ⟨plan, hplan, -⟩
    · exact iff_of_false hkind hkind'
    · rw [← hname, hst.taken _ htaken] at hplan
      cases hplan
  · rcases hst.site s' hs' with ⟨-, htaken⟩ | ⟨plan', hplan', hsig'⟩
    · rw [hname, hst.taken _ htaken] at hplan
      cases hplan
    · rw [hname, hplan'] at hplan
      cases hplan
      have heq : signature syn s.decl = signature syn s'.decl := hsig.symm.trans hsig'
      rw [← @signature_eq_divisible syn, heq, signature_eq_divisible]

end Claims

/-! ## The bases of vetoes -/

section Vetoes

variable {syn : ExprSyntax}

def VetoSite.request (syn : ExprSyntax) (site : VetoSite) : Request String String :=
  { owner := site.owner, key := site.decl.display syn, size := site.count }

/-- The veto loop has numbered the requests of the entries so far. -/
structure VetoState.Numbered (syn : ExprSyntax) (sites : List VetoSite) (st : VetoState) :
    Prop where
  bases : st.bases = (of (sites.map (·.request syn))).base
  totals : ∀ key, (st.totals key).getD 0 = (of (sites.map (·.request syn))).total key
  le : ∀ key, (of (sites.map (·.request syn))).total key ≤ 32

end Vetoes

/-! ## The plan of a graph -/

section Plan

variable {syn : ExprSyntax} {items : List Item} {plan : ResourcePlan}

/-- What the planning loops have given out, and what they have seen on the way. -/
structure ResourcePlan.Numbered (syn : ExprSyntax) (items : List Item) (plan : ResourcePlan) :
    Prop where
  claimBases : plan.claimBases = (of (claimRequests (items.flatMap Item.resourceSites))).base
  budgets : ∀ key, (plan.budgets key).getD 0 =
    (of (claimRequests (items.flatMap Item.resourceSites))).total key
  budget_le : ∀ key, (plan.budgets key).getD 0 ≤ 256
  kind_iff : ∀ s ∈ items.flatMap Item.resourceSites, ∀ s' ∈ items.flatMap Item.resourceSites,
    s.decl.ident = s'.decl.ident → (s.decl.kind = .divisible ↔ s'.decl.kind = .divisible)
  vetoBases : plan.vetoBases =
    (of ((items.flatMap Item.vetoSites).map (·.request syn))).base
  gates : ∀ key, (plan.gates key).getD 0 =
    (of ((items.flatMap Item.vetoSites).map (·.request syn))).total key
  gate_le : ∀ key, (plan.gates key).getD 0 ≤ 32

end Plan

end Decl

end EmbassySupervisor
