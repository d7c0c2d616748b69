/-
# When the lints do not depend on the order

A model may be written in many orders: of its items, and of the entries that an item reads and
writes. The same notes are put down in each, in another order, and the keys are arranged as
blocks are, with the writes of an item as the head, its reads as the body, and what it is found
to access as the tail.

The merges go from link to link, so that an element gets what the elements before it have.
`orderFree_iff` says when no finding hangs on that.
-/

import EmbassySupervisor.Lint.Sides

namespace EmbassySupervisor.Lint

open FirstSeen

/-! ## What is reported -/

/-- The side a signal is reported to lack, with its key. -/
def Warning.lacks : Warning → Option (Bool × String)
  | .orphanRead key _ => some (true, key)
  | .deadWrite key _ => some (false, key)
  | .staleAllow _ => none

def LintCats.reports (cats : LintCats) (missing : Bool) : Bool :=
  if missing then cats.orphanReads else cats.deadWrites

section Reported

variable (cats : LintCats) (allow : List String) (syn : ExprSyntax)
  (segments : Decl.Tokens → Option (List String)) (discovered : List Discovered)
  (bundles : List Bundle)

/-- The signals that are reported as read but never written, and as written but never read. -/
def reported (models : List Model) : List (Bool × String) :=
  (warningsOf cats allow syn segments discovered bundles models).filterMap Warning.lacks

def keyWarnings (st : Noted) (key : String) : List Warning :=
  if allow.any (allowMatches key) then [] else findings cats key (st.get key)

variable {cats allow syn segments discovered bundles}

theorem warnings_lintKey (st : Noted) (report : Report) (key : String) :
    (lintKey cats allow st report key).warnings =
      report.warnings ++ keyWarnings cats allow st key := by
  rw [lintKey, keyWarnings, ← List.findIdx?_isSome]
  by_cases hnone : (st.get key).orphan cats = false ∧ (st.get key).dead cats = false
  · simp [findings, hnone]
  · rw [if_neg hnone]
    cases allow.findIdx? (allowMatches key) <;> simp

theorem warnings_foldl_lintKey (st : Noted) (keys : List String) (report : Report) :
    (keys.foldl (lintKey cats allow st) report).warnings =
      report.warnings ++ keys.flatMap (keyWarnings cats allow st) := by
  induction keys generalizing report with
  | nil => simp
  | cons key keys ih => rw [List.foldl_cons, ih, warnings_lintKey, List.append_assoc]; rfl

def linkedOf (syn : ExprSyntax) (segments : Decl.Tokens → Option (List String))
    (discovered : List Discovered) (bundles : List Bundle) (m : Model) : Noted :=
  (lintPasses syn segments discovered bundles m).noted.linked

theorem warnings_foldl_lintModel (models : List Model) (report : Report) :
    (models.foldl (lintModel cats allow syn segments discovered bundles) report).warnings =
      report.warnings ++ models.flatMap fun m =>
        let st := linkedOf syn segments discovered bundles m
        st.order.flatMap (keyWarnings cats allow st) := by
  induction models generalizing report with
  | nil => simp
  | cons m models ih =>
      rw [List.foldl_cons, ih, lintModel, warnings_foldl_lintKey, List.append_assoc]
      rfl

theorem mem_findings {key k : String} {s : Sides} {missing : Bool} :
    (missing, k) ∈ (findings cats key s).filterMap Warning.lacks ↔ k = key ∧
      cats.reports missing = true ∧ s.list missing = [] ∧ s.list (!missing) ≠ [] ∧
        (missing = false → s.monitorConsumed = false) := by
  have hmem : (missing, k) ∈ (findings cats key s).filterMap Warning.lacks ↔
      k = key ∧ (if missing then s.orphan cats else s.dead cats) = true := by
    cases missing <;> cases horphan : s.orphan cats <;> cases hdead : s.dead cats <;>
      simp [findings, horphan, hdead, Warning.lacks]
  rw [hmem]
  cases missing <;> simp [Sides.orphan, Sides.dead, LintCats.reports, Sides.list]

/-- Each model is reported on by itself. -/
theorem mem_reported {models : List Model} {missing : Bool} {key : String} :
    (missing, key) ∈ reported cats allow syn segments discovered bundles models ↔
      ∃ m ∈ models, let st := linkedOf syn segments discovered bundles m
        key ∈ st.order ∧ allow.any (allowMatches key) = false ∧ cats.reports missing = true ∧
          (st.get key).list missing = [] ∧ (st.get key).list (!missing) ≠ [] ∧
            (missing = false → (st.get key).monitorConsumed = false) := by
  have hkey (st : Noted) (k : String) :
      (missing, key) ∈ (keyWarnings cats allow st k).filterMap Warning.lacks ↔
        key = k ∧ allow.any (allowMatches k) = false ∧ cats.reports missing = true ∧
          (st.get k).list missing = [] ∧ (st.get k).list (!missing) ≠ [] ∧
            (missing = false → (st.get k).monitorConsumed = false) := by
    rw [keyWarnings]
    split
    · rename_i hany
      simp [hany]
    · rename_i hany
      simp only [mem_findings, Bool.not_eq_true _ ▸ hany, true_and]
  have hstale : ∀ a ∈ allow.zip (models.foldl
      (lintModel cats allow syn segments discovered bundles)
        { allowHit := allow.map fun _ => false }).allowHit,
      (if a.2 then none else some (Warning.staleAllow a.1)).bind Warning.lacks = none := by
    intro a _
    cases a.2 <;> rfl
  rw [reported, warningsOf, List.filterMap_append, List.filterMap_filterMap,
    List.filterMap_eq_nil_iff.mpr hstale, List.append_nil, warnings_foldl_lintModel,
    List.nil_append, List.filterMap_flatMap]
  simp only [List.mem_flatMap, List.filterMap_flatMap, hkey]
  constructor
  · rintro ⟨m, hm, k, hk, rfl, h⟩
    exact ⟨m, hm, hk, h⟩
  · rintro ⟨m, hm, hk, h⟩
    exact ⟨m, hm, key, hk, rfl, h⟩

end Reported

/-! ## The notes of a model -/

def readsOf : Decl.Item → List Decl.SignalDecl
  | .node n => n.reads
  | .pool p => p.reads
  | .executor _ => []

section Spec

variable (syn : ExprSyntax) (segments : Decl.Tokens → Option (List String))
  (discovered : List Discovered) (bundles : List Bundle)

/-- The keys that an item notes. -/
def itemBlock (graphModule : String) (declared : List String) (item : Decl.Item) :
    Block String where
  head := item.writes.map (·.display syn)
  body := (readsOf item).map (·.display syn)
  tail := (foundNotes segments discovered bundles graphModule declared item).map (·.key)

def Model.blocks (m : Model) : List (Block String) :=
  m.items.map (itemBlock syn segments discovered bundles m.graphModule (m.declared syn))

/-- An element and an array of the model that it may belong to. -/
def Model.Linked (m : Model) (key w : String) : Prop :=
  ∃ base, elementBase key = some base ∧ w ∈ m.keys syn segments discovered bundles ∧
    namesWhole base w = true

/-- The other elements of an array that have a side. -/
def Model.Sibling (m : Model) (missing : Bool) (w key : String) : Prop :=
  m.Linked syn segments discovered bundles key w ∧
    Has (m.notes syn segments discovered bundles) missing key

/-- A signal whose notes lack a side that it is reported for, with what it is linked to. -/
structure Model.OneSided (cats : LintCats) (allow : List String) (m : Model) (missing : Bool)
    (key : String) : Prop where
  mem : key ∈ m.keys syn segments discovered bundles
  notAllowed : allow.any (allowMatches key) = false
  reports : cats.reports missing = true
  lacks : ¬Has (m.notes syn segments discovered bundles) missing key
  wholeLacks (w : String) (h : m.Linked syn segments discovered bundles key w) :
    ¬Has (m.notes syn segments discovered bundles) missing w
  elementLacks (e : String) (h : m.Linked syn segments discovered bundles e key) :
    ¬Has (m.notes syn segments discovered bundles) missing e
  unobserved (h : missing = false) : ¬Consumed (m.notes syn segments discovered bundles) key

/-- No such element may come before, and may come behind, one of its array that has the side. -/
def Model.Settled (cats : LintCats) (allow : List String) (m : Model) : Prop :=
  ∀ missing key w, m.OneSided syn segments discovered bundles cats allow missing key →
    m.Linked syn segments discovered bundles key w →
      ¬(MayFollow (m.Sibling syn segments discovered bundles missing w) key
          (m.blocks syn segments discovered bundles) ∧
        MayLead (m.Sibling syn segments discovered bundles missing w) key
          (m.blocks syn segments discovered bundles))

end Spec

section Notes

variable {syn : ExprSyntax} {segments : Decl.Tokens → Option (List String)}
  {discovered : List Discovered} {bundles : List Bundle} {m : Model}

theorem key_declared (name : String) (write : Bool) :
    ((·.key) ∘ declaredNote syn name ∘ fun x => (write, x)) = (·.display syn) := rfl

theorem keys_declaredNotes (item : Decl.Item) :
    (declaredNotes syn item).map (·.key) =
      (item.writes.map (·.display syn)) ++ (readsOf item).map (·.display syn) := by
  cases item with
  | node n => simp [declaredNotes, boxedName, signalsOf, Decl.Item.writes, readsOf, key_declared]
  | pool p => simp [declaredNotes, boxedName, signalsOf, Decl.Item.writes, readsOf, key_declared]
  | executor ident => rfl

theorem Model.keys_eq (m : Model) : m.keys syn segments discovered bundles =
    entries (m.blocks syn segments discovered bundles) := by
  rw [keys, notes, entries, blocks, List.map_append, List.map_flatMap, List.map_flatMap,
    List.flatMap_map, List.flatMap_map]
  simp only [keys_declaredNotes, Block.front, itemBlock]

theorem Model.Unambiguous.wholeOf (hm : m.Unambiguous syn segments discovered bundles)
    {key w : String} (hkey : key ∈ m.keys syn segments discovered bundles) :
    wholeOf (firsts (m.keys syn segments discovered bundles)) key = some w ↔
      m.Linked syn segments discovered bundles key w := by
  constructor
  · intro h
    obtain ⟨base, hbase, hw, hnames⟩ := wholeOf_eq_some h
    exact ⟨base, hbase, mem_firsts.mp hw, hnames⟩
  · intro ⟨base, hbase, hw, hnames⟩
    rw [Lint.wholeOf, hbase]
    show (firsts (m.keys syn segments discovered bundles)).find? (namesWhole base) = some w
    cases hfind : (firsts (m.keys syn segments discovered bundles)).find? (namesWhole base) with
    | none => exact absurd hnames (List.find?_eq_none.mp hfind w (mem_firsts.mpr hw))
    | some w' =>
        have hw' := mem_firsts.mp (List.mem_of_find?_eq_some hfind)
        rw [hm.wholes key hkey base hbase w' hw' w hw (List.find?_some hfind) hnames]

theorem Model.Linked.plain {key w : String} (h : m.Linked syn segments discovered bundles key w)
    (v : String) : ¬m.Linked syn segments discovered bundles w v := by
  obtain ⟨base, -, -, hnames⟩ := h
  intro ⟨base', hbase', _⟩
  have hplain : '[' ∉ w.toList := (of_decide_eq_true hnames).1
  simp [elementBase, hplain] at hbase'

theorem has_of_mem {notes : List Note} {key : String} (h : key ∈ notes.map (·.key)) :
    ∃ write, Has notes write key := by
  obtain ⟨n, hn, hkey⟩ := List.mem_map.mp h
  exact ⟨n.write, n, hn, hkey, rfl⟩

theorem mem_of_has {write : Bool} {key : String}
    (h : Has (m.notes syn segments discovered bundles) write key) :
    key ∈ m.keys syn segments discovered bundles := by
  obtain ⟨n, hn, hkey, -⟩ := h
  exact List.mem_map.mpr ⟨n, hn, hkey⟩

end Notes

/-! ## When a signal is reported -/

section Characterised

variable {cats : LintCats} {allow : List String} {syn : ExprSyntax}
  {segments : Decl.Tokens → Option (List String)} {discovered : List Discovered}
  {bundles : List Bundle} {m : Model}

/-- What a signal has in the end: its own sides, those of its array, those of the elements before
it, and, if it is an array, those of all its elements. -/
theorem list_linkedOf (hm : m.Unambiguous syn segments discovered bundles) {key : String}
    (hkey : key ∈ m.keys syn segments discovered bundles) (write : Bool) :
    ((linkedOf syn segments discovered bundles m).get key).list write ≠ [] ↔
      Has (m.notes syn segments discovered bundles) write key ∨
      (∃ e, m.Linked syn segments discovered bundles e key ∧
        Has (m.notes syn segments discovered bundles) write e) ∨
      ∃ w, m.Linked syn segments discovered bundles key w ∧
        (Has (m.notes syn segments discovered bundles) write w ∨
          Before (m.Sibling syn segments discovered bundles write w) key
            (m.keys syn segments discovered bundles)) := by
  have hof := Noted.of_foldl (m.notes syn segments discovered bundles)
  rw [linkedOf, lintPasses_noted hm, Noted.list_linked, hof.order]
  have hhas : (fun k => (((m.notes syn segments discovered bundles).foldl Noted.note {}).get
      k).list write ≠ []) = Has (m.notes syn segments discovered bundles) write :=
    funext fun k => propext (hof.list k write)
  rw [hhas]
  show (firsts (m.keys syn segments discovered bundles)).foldl
    (share (wholeOf (firsts (m.keys syn segments discovered bundles)))) _ key ↔ _
  cases hwhole : wholeOf (firsts (m.keys syn segments discovered bundles)) key with
  | none =>
      have hnone (w : String) : ¬m.Linked syn segments discovered bundles key w := by
        intro h
        cases hwhole.symm.trans ((hm.wholeOf hkey).mpr h)
      rw [foldl_share_of_hub (flat_wholeOf _) hwhole]
      have helem : (∃ k ∈ firsts (m.keys syn segments discovered bundles),
          wholeOf (firsts (m.keys syn segments discovered bundles)) k = some key ∧
            Has (m.notes syn segments discovered bundles) write k) ↔
          ∃ e, m.Linked syn segments discovered bundles e key ∧
            Has (m.notes syn segments discovered bundles) write e := by
        refine exists_congr fun e => ?_
        rw [mem_firsts]
        constructor
        · rintro ⟨he, hw, hhas⟩
          exact ⟨(hm.wholeOf he).mp hw, hhas⟩
        · rintro ⟨hlink, hhas⟩
          exact ⟨mem_of_has hhas, (hm.wholeOf (mem_of_has hhas)).mpr hlink, hhas⟩
      rw [helem]
      simp [hnone]
  | some w =>
      have hlinked := (hm.wholeOf hkey).mp hwhole
      have honly (v : String) : m.Linked syn segments discovered bundles key v ↔ w = v := by
        rw [← hm.wholeOf hkey, hwhole, Option.some_inj]
      have helem (e : String) : ¬m.Linked syn segments discovered bundles e key :=
        fun h => h.plain w hlinked
      have hkind : (fun k => wholeOf (firsts (m.keys syn segments discovered bundles)) k = some w ∧
          Has (m.notes syn segments discovered bundles) write k) =
          m.Sibling syn segments discovered bundles write w := by
        funext k
        exact propext (and_congr_left fun hhas => hm.wholeOf (mem_of_has hhas))
      rw [foldl_share_of_linked (flat_wholeOf _) hwhole (mem_firsts.mpr hkey) (nodup_firsts _),
        hkind, before_firsts]
      simp [helem, honly]

/-- A signal is reported if nothing that may cover it has the side it lacks, save elements of its
array that come behind it. -/
theorem mem_reported_iff (hm : m.Unambiguous syn segments discovered bundles) {missing : Bool}
    {key : String} : (missing, key) ∈ reported cats allow syn segments discovered bundles [m] ↔
      m.OneSided syn segments discovered bundles cats allow missing key ∧
        ∀ w, m.Linked syn segments discovered bundles key w →
          ¬Before (m.Sibling syn segments discovered bundles missing w) key
            (m.keys syn segments discovered bundles) := by
  have hof := Noted.of_foldl (m.notes syn segments discovered bundles)
  have horder : (linkedOf syn segments discovered bundles m).order =
      firsts (m.keys syn segments discovered bundles) := by
    rw [linkedOf, Noted.order_linked, lintPasses_noted hm, hof.order]
    rfl
  have hmonitor : ((linkedOf syn segments discovered bundles m).get key).monitorConsumed = true ↔
      Consumed (m.notes syn segments discovered bundles) key := by
    rw [linkedOf, Noted.monitor_linked, lintPasses_noted hm, hof.monitor]
  rw [mem_reported]
  simp only [List.mem_singleton, exists_eq_left, horder, mem_firsts]
  constructor
  · rintro ⟨hkey, hallow, hreports, hlacks, -, hconsumed⟩
    have hnot := (list_linkedOf hm hkey missing).not.mp (not_not.mpr hlacks)
    push Not at hnot
    obtain ⟨hself, helem, hwhole⟩ := hnot
    exact ⟨{ mem := hkey, notAllowed := hallow, reports := hreports, lacks := hself
             wholeLacks := fun w hw => (hwhole w hw).1
             elementLacks := helem
             unobserved := fun h => by rw [← hmonitor, hconsumed h]; simp },
      fun w hw => (hwhole w hw).2⟩
  · rintro ⟨h, hbefore⟩
    have hnot : ¬((linkedOf syn segments discovered bundles m).get key).list missing ≠ [] := by
      rw [list_linkedOf hm h.mem]
      push Not
      exact ⟨h.lacks, h.elementLacks, fun w hw => ⟨h.wholeLacks w hw, hbefore w hw⟩⟩
    have hother : Has (m.notes syn segments discovered bundles) (!missing) key := by
      obtain ⟨write, hhas⟩ := has_of_mem h.mem
      have hne : write ≠ missing := by
        rintro rfl
        exact h.lacks hhas
      rwa [← Bool.eq_not.mpr hne]
    refine ⟨h.mem, h.notAllowed, h.reports, not_not.mp hnot,
      (list_linkedOf hm h.mem _).mpr (.inl hother), fun hm => ?_⟩
    exact Bool.eq_false_iff.mpr (hmonitor.not.mpr (h.unobserved hm))

end Characterised

/-! ## Rearrangements -/

def setSignals (writes reads : List Decl.SignalDecl) : Decl.Item → Decl.Item
  | .node n => .node { n with writes := writes, reads := reads }
  | .pool p => .pool { p with writes := writes, reads := reads }
  | .executor ident => .executor ident

/-- The entries of an item are put in another order. -/
def Shuffles (item item' : Decl.Item) : Prop :=
  ∃ writes reads, item.writes.Perm writes ∧ (readsOf item).Perm reads ∧
    setSignals writes reads item = item'

/-- So are the items, and the entries of each. -/
structure Model.Rearranged (m m' : Model) : Prop where
  graphModule : m'.graphModule = m.graphModule
  items : ∃ mid, m.items.Perm mid ∧ List.Forall₂ Shuffles mid m'.items

section Rearranged

variable {syn : ExprSyntax} {segments : Decl.Tokens → Option (List String)}
  {discovered : List Discovered} {bundles : List Bundle} {m m' : Model} {item item' : Decl.Item}

theorem Shuffles.declaredNotes (h : Shuffles item item') :
    (declaredNotes syn item).Perm (declaredNotes syn item') := by
  obtain ⟨writes, reads, hwrites, hreads, rfl⟩ := h
  cases item with
  | node n => exact ((hwrites.map _).append (hreads.map _)).map _
  | pool p => exact ((hwrites.map _).append (hreads.map _)).map _
  | executor ident => exact .refl _

theorem Shuffles.foundNotes (h : Shuffles item item') (graphModule : String)
    (declared : List String) :
    foundNotes segments discovered bundles graphModule declared item' =
      foundNotes segments discovered bundles graphModule declared item := by
  obtain ⟨writes, reads, -, -, rfl⟩ := h
  cases item with
  | node n => rfl
  | pool p => rfl
  | executor ident => rfl

theorem Shuffles.accesses (h : Shuffles item item') (graphModule : String) :
    accesses segments discovered bundles graphModule item' =
      accesses segments discovered bundles graphModule item := by
  obtain ⟨writes, reads, -, -, rfl⟩ := h
  cases item with
  | node n => rfl
  | pool p => rfl
  | executor ident => rfl

theorem Shuffles.itemBlock (h : Shuffles item item') (graphModule : String)
    (declared : List String) :
    (itemBlock syn segments discovered bundles graphModule declared item).Shuffled
      (itemBlock syn segments discovered bundles graphModule declared item') where
  head := by
    obtain ⟨writes, reads, hwrites, -, rfl⟩ := h
    cases item with
    | node n => exact hwrites.map _
    | pool p => exact hwrites.map _
    | executor ident => exact .refl _
  body := by
    obtain ⟨writes, reads, -, hreads, rfl⟩ := h
    cases item with
    | node n => exact hreads.map _
    | pool p => exact hreads.map _
    | executor ident => exact .refl _
  tail := congrArg (List.map Note.key) (h.foundNotes graphModule declared).symm

/-- Every shuffle of the block of an item is that of a shuffled item. -/
theorem exists_shuffles {graphModule : String} {declared : List String} {b : Block String}
    (h : (itemBlock syn segments discovered bundles graphModule declared item).Shuffled b) :
    ∃ item', Shuffles item item' ∧
      itemBlock syn segments discovered bundles graphModule declared item' = b := by
  obtain ⟨writes, hwrites, hhead⟩ := exists_perm_of_map h.head
  obtain ⟨reads, hreads, hbody⟩ := exists_perm_of_map h.body
  have hsh : Shuffles item (setSignals writes reads item) := ⟨writes, reads, hwrites, hreads, rfl⟩
  refine ⟨_, hsh, ?_⟩
  have hshuffled : (itemBlock syn segments discovered bundles graphModule declared item).Shuffled
      (itemBlock syn segments discovered bundles graphModule declared _) :=
    hsh.itemBlock graphModule declared
  have htail := hshuffled.tail.symm.trans h.tail
  obtain ⟨head, body, tail⟩ := b
  cases item with
  | node n => exact Block.mk.injEq .. ▸ ⟨hhead, hbody, htail⟩
  | pool p => exact Block.mk.injEq .. ▸ ⟨hhead, hbody, htail⟩
  | executor ident =>
      obtain rfl : head = [] := h.head.nil_eq.symm
      obtain rfl : body = [] := h.body.nil_eq.symm
      exact Block.mk.injEq .. ▸ ⟨rfl, rfl, htail⟩

theorem landing_congr {declared declared' : List String} (hperm : declared.Perm declared')
    {d : Discovered} (hone : ∀ k ∈ declared, ∀ k' ∈ declared, pathsAlias k d.ownPath = true →
      pathsAlias k' d.ownPath = true → k = k') : landing declared' d = landing declared d := by
  have hfallback : fallback d declared' = fallback d declared := by
    have hfilter := hperm.filter (pathsAlias · d.access.path)
    rw [fallback, fallback]
    split
    · rfl
    · match hd : declared.filter (pathsAlias · d.access.path) with
      | [] => rw [hd] at hfilter; rw [hfilter.nil_eq.symm]
      | [k] => rw [hd] at hfilter; rw [List.perm_singleton.mp hfilter.symm]
      | k :: k' :: rest =>
          rw [hd] at hfilter
          split
          · rename_i k'' hd'
            have hlength := hfilter.length_eq
            simp [hd'] at hlength
          · rfl
  have hfind : declared'.find? (pathsAlias · d.ownPath) =
      declared.find? (pathsAlias · d.ownPath) := by
    cases h : declared.find? (pathsAlias · d.ownPath) with
    | none =>
        refine List.find?_eq_none.mpr fun k hk => ?_
        exact List.find?_eq_none.mp h k (hperm.mem_iff.mpr hk)
    | some k =>
        have hk := List.mem_of_find?_eq_some h
        cases h' : declared'.find? (pathsAlias · d.ownPath) with
        | none =>
            have hnone := List.find?_eq_none.mp h' k (hperm.mem_iff.mp hk)
            exact absurd (List.find?_some h) hnone
        | some k' =>
            have hk' := hperm.mem_iff.mpr (List.mem_of_find?_eq_some h')
            have halias : pathsAlias k d.ownPath = true := by simpa using List.find?_some h
            have halias' : pathsAlias k' d.ownPath = true := by simpa using List.find?_some h'
            rw [hone k hk k' hk' halias halias']
  rw [landing, landing, discoveredKey_eq, discoveredKey_eq, hfind, hfallback]

/-- The notes of an item hang on the declared spellings through where its accesses land only. -/
theorem foundNotes_congr {graphModule : String} {declared declared' : List String}
    (h : ∀ d ∈ Lint.accesses segments discovered bundles graphModule item,
      landing declared' d = landing declared d) :
    Lint.foundNotes segments discovered bundles graphModule declared' item =
      Lint.foundNotes segments discovered bundles graphModule declared item := by
  rw [Lint.foundNotes, Lint.foundNotes]
  cases boxedName item with
  | none => rfl
  | some name =>
      refine List.map_congr_left fun d hd => ?_
      rw [h d hd]

theorem perm_flatMap_of_forall₂ {α β : Type} {r : α → α → Prop} {f g : α → List β} {l l' : List α}
    (h : List.Forall₂ r l l') (hr : ∀ a a', r a a' → (f a).Perm (g a')) :
    (l.flatMap f).Perm (l'.flatMap g) := by
  induction h with
  | nil => exact .refl _
  | cons hhead _ ih => exact (hr _ _ hhead).append ih

namespace Model.Rearranged

theorem perm_flatMap {β : Type} {f g : Decl.Item → List β} (h : m.Rearranged m')
    (hr : ∀ item item', Shuffles item item' → (f item).Perm (g item')) :
    (m.items.flatMap f).Perm (m'.items.flatMap g) := by
  obtain ⟨mid, hperm, hall⟩ := h.items
  exact (hperm.flatMap_right f).trans (perm_flatMap_of_forall₂ hall hr)

theorem declared (h : m.Rearranged m') : (m.declared syn).Perm (m'.declared syn) := by
  have hnotes : (m.items.flatMap (declaredNotes syn)).Perm (m'.items.flatMap (declaredNotes syn)) :=
    h.perm_flatMap fun _ _ hsh => hsh.declaredNotes
  refine (List.perm_ext_iff_of_nodup (nodup_firsts _) (nodup_firsts _)).mpr fun k => ?_
  rw [mem_firsts, mem_firsts]
  exact (hnotes.map _).mem_iff

theorem mem_items (h : m.Rearranged m') (hitem : item' ∈ m'.items) :
    ∃ item ∈ m.items, Shuffles item item' := by
  obtain ⟨mid, hperm, hall⟩ := h.items
  obtain ⟨n, hn, rfl⟩ := List.mem_iff_getElem.mp hitem
  have hn' : n < mid.length := hall.length_eq ▸ hn
  exact ⟨mid[n], hperm.mem_iff.mpr (List.getElem_mem hn'), hall.get hn' hn⟩

theorem bound (h : m.Rearranged m') {d : Discovered} (hd : m'.Bound segments discovered bundles d) :
    m.Bound segments discovered bundles d := by
  obtain ⟨item', hitem', hd⟩ := hd
  obtain ⟨item, hitem, hsh⟩ := h.mem_items hitem'
  exact ⟨item, hitem, by rwa [← hsh.accesses, ← h.graphModule]⟩

variable (hm : m.Unambiguous syn segments discovered bundles) (h : m.Rearranged m')

include hm h

theorem landing {d : Discovered} (hd : m.Bound segments discovered bundles d) :
    landing (m'.declared syn) d = landing (m.declared syn) d :=
  landing_congr h.declared (hm.declared d hd)

theorem foundNotes (hitem : item ∈ m.items) :
    foundNotes segments discovered bundles m'.graphModule (m'.declared syn) item =
      foundNotes segments discovered bundles m.graphModule (m.declared syn) item := by
  rw [h.graphModule]
  exact foundNotes_congr fun d hd => h.landing hm ⟨item, hitem, hd⟩

/-- The same notes are put down in each order. -/
theorem notes : (m.notes syn segments discovered bundles).Perm
    (m'.notes syn segments discovered bundles) := by
  refine (h.perm_flatMap fun _ _ hsh => hsh.declaredNotes).append ?_
  have hsame : m.items.flatMap (Lint.foundNotes segments discovered bundles m'.graphModule
      (m'.declared syn)) = m.items.flatMap (Lint.foundNotes segments discovered bundles
        m.graphModule (m.declared syn)) :=
    List.flatMap_congr fun item hitem => h.foundNotes hm hitem
  rw [← hsame]
  exact h.perm_flatMap fun _ _ hsh => hsh.foundNotes _ _ ▸ .refl _

theorem mem_keys (k : String) : k ∈ m'.keys syn segments discovered bundles ↔
    k ∈ m.keys syn segments discovered bundles :=
  ((h.notes hm).map _).mem_iff.symm

theorem has (write : Bool) (k : String) :
    Has (m'.notes syn segments discovered bundles) write k ↔
      Has (m.notes syn segments discovered bundles) write k :=
  exists_congr fun _ => and_congr_left' (h.notes hm).mem_iff.symm

theorem consumed (k : String) : Consumed (m'.notes syn segments discovered bundles) k ↔
    Consumed (m.notes syn segments discovered bundles) k :=
  exists_congr fun _ => and_congr_left' (h.notes hm).mem_iff.symm

theorem linked (k w : String) : m'.Linked syn segments discovered bundles k w ↔
    m.Linked syn segments discovered bundles k w :=
  exists_congr fun _ => and_congr_right' (and_congr_left' (h.mem_keys hm w))

theorem unambiguous : m'.Unambiguous syn segments discovered bundles where
  declared d hd k hk k' hk' := hm.declared d (h.bound hd) k (h.declared.mem_iff.mpr hk) k'
    (h.declared.mem_iff.mpr hk')
  found d d' hd hd' hnone := by
    rw [h.landing hm (h.bound hd), h.landing hm (h.bound hd')]
    exact hm.found d d' (h.bound hd) (h.bound hd') fun k hk => hnone k (h.declared.mem_iff.mp hk)
  wholes e he base hbase w hw w' hw' := hm.wholes e ((h.mem_keys hm e).mp he) base hbase
    w ((h.mem_keys hm w).mp hw) w' ((h.mem_keys hm w').mp hw')

theorem oneSided {cats : LintCats} {allow : List String} (missing : Bool) (k : String) :
    m'.OneSided syn segments discovered bundles cats allow missing k ↔
      m.OneSided syn segments discovered bundles cats allow missing k := by
  constructor
  · intro hone
    exact { mem := (h.mem_keys hm k).mp hone.mem
            notAllowed := hone.notAllowed
            reports := hone.reports
            lacks := (h.has hm _ k).not.mp hone.lacks
            wholeLacks := fun w hw => (h.has hm _ w).not.mp
              (hone.wholeLacks w ((h.linked hm k w).mpr hw))
            elementLacks := fun e he => (h.has hm _ e).not.mp
              (hone.elementLacks e ((h.linked hm e k).mpr he))
            unobserved := fun hw => (h.consumed hm k).not.mp (hone.unobserved hw) }
  · intro hone
    exact { mem := (h.mem_keys hm k).mpr hone.mem
            notAllowed := hone.notAllowed
            reports := hone.reports
            lacks := (h.has hm _ k).not.mpr hone.lacks
            wholeLacks := fun w hw => (h.has hm _ w).not.mpr
              (hone.wholeLacks w ((h.linked hm k w).mp hw))
            elementLacks := fun e he => (h.has hm _ e).not.mpr
              (hone.elementLacks e ((h.linked hm e k).mp he))
            unobserved := fun hw => (h.consumed hm k).not.mpr (hone.unobserved hw) }

theorem sibling (missing : Bool) (w : String) :
    m'.Sibling syn segments discovered bundles missing w =
      m.Sibling syn segments discovered bundles missing w :=
  funext fun k => propext (and_congr (h.linked hm k w) (h.has hm missing k))

/-- The keys of a rearranged model are arranged as the blocks of its items are. -/
theorem blocks : Arranged (m.blocks syn segments discovered bundles)
    (m'.blocks syn segments discovered bundles) := by
  have hsame : m'.blocks syn segments discovered bundles = m'.items.map
      (itemBlock syn segments discovered bundles m.graphModule (m.declared syn)) := by
    refine List.map_congr_left fun item' hitem' => ?_
    obtain ⟨item, hitem, hsh⟩ := h.mem_items hitem'
    rw [itemBlock, itemBlock, hsh.foundNotes, hsh.foundNotes, h.foundNotes hm hitem]
  obtain ⟨mid, hperm, hall⟩ := h.items
  rw [hsame]
  exact Arranged.of_items (fun _ _ hsh => hsh.itemBlock _ _) hperm hall

end Model.Rearranged

/-- Every arrangement of the blocks is that of a rearranged model. -/
theorem Model.exists_rearranged (hm : m.Unambiguous syn segments discovered bundles)
    {blocks' : List (Block String)}
    (h : Arranged (m.blocks syn segments discovered bundles) blocks') :
    ∃ m', m.Rearranged m' ∧ m'.blocks syn segments discovered bundles = blocks' := by
  obtain ⟨mid, items', hperm, hall, hblocks⟩ := Arranged.exists_items
    (fun _ _ hsh => exists_shuffles hsh) h
  have hre : m.Rearranged { m with items := items' } := ⟨rfl, mid, hperm, hall⟩
  refine ⟨_, hre, ?_⟩
  rw [← hblocks]
  refine List.map_congr_left fun item' hitem' => ?_
  obtain ⟨item, hitem, hsh⟩ := hre.mem_items hitem'
  rw [itemBlock, itemBlock, hsh.foundNotes, hsh.foundNotes, hre.foundNotes hm hitem]

variable {cats : LintCats} {allow : List String}

theorem mem_reported_rearranged (hm : m.Unambiguous syn segments discovered bundles)
    (h : m.Rearranged m') {missing : Bool} {key : String} :
    (missing, key) ∈ reported cats allow syn segments discovered bundles [m'] ↔
      m.OneSided syn segments discovered bundles cats allow missing key ∧
        ∀ w, m.Linked syn segments discovered bundles key w →
          ¬Before (m.Sibling syn segments discovered bundles missing w) key
            (entries (m'.blocks syn segments discovered bundles)) := by
  rw [mem_reported_iff (h.unambiguous hm), h.oneSided hm, m'.keys_eq]
  refine and_congr_right' (forall_congr' fun w => ?_)
  rw [h.linked hm, h.sibling hm]

theorem Model.Rearranged.refl (m : Model) : m.Rearranged m where
  graphModule := rfl
  items := by
    refine ⟨m.items, .refl _, List.forall₂_same.mpr fun item _ => ?_⟩
    refine ⟨item.writes, readsOf item, .refl _, .refl _, ?_⟩
    cases item with
    | node n => rfl
    | pool p => rfl
    | executor ident => rfl

/-- The findings are the same in every order just in case no one-sided element may come both
behind and before an element of its array that has the side it lacks. -/
theorem orderFree_iff (hm : m.Unambiguous syn segments discovered bundles) :
    (∀ m', m.Rearranged m' → ∀ found,
      found ∈ reported cats allow syn segments discovered bundles [m'] ↔
        found ∈ reported cats allow syn segments discovered bundles [m]) ↔
      m.Settled syn segments discovered bundles cats allow := by
  constructor
  · intro hsame missing key w hone hlinked
    have hmem : key ∈ entries (m.blocks syn segments discovered bundles) := m.keys_eq ▸ hone.mem
    refine (settled_iff (fun h => hone.lacks h.2) hmem).mp fun blocks' harr => ?_
    obtain ⟨m', hre, rfl⟩ := m.exists_rearranged hm harr
    have honly (v : String) (hv : m.Linked syn segments discovered bundles key v) : v = w := by
      have hv := (hm.wholeOf hone.mem).mpr hv
      rw [(hm.wholeOf hone.mem).mpr hlinked] at hv
      exact (Option.some_inj.mp hv).symm
    have hreport (m'' : Model) (h : m.Rearranged m'') :
        (missing, key) ∈ reported cats allow syn segments discovered bundles [m''] ↔
          ¬Before (m.Sibling syn segments discovered bundles missing w) key
            (entries (m''.blocks syn segments discovered bundles)) := by
      rw [mem_reported_rearranged hm h]
      refine ⟨fun hrep => hrep.2 w hlinked, fun hbefore => ⟨hone, fun v hv => ?_⟩⟩
      rwa [honly v hv]
    have hiff := hsame m' hre (missing, key)
    rw [hreport m' hre, hreport m (.refl m)] at hiff
    exact (not_iff_not.mp hiff).symm
  · intro hsettled m' h found
    obtain ⟨missing, key⟩ := found
    rw [mem_reported_rearranged hm h, mem_reported_rearranged hm (.refl m)]
    refine and_congr_right fun hone => forall_congr' fun w => ?_
    refine imp_congr_right fun hlinked => not_congr ?_
    have hmem : key ∈ entries (m.blocks syn segments discovered bundles) := m.keys_eq ▸ hone.mem
    exact ((settled_iff (fun h => hone.lacks h.2) hmem).mpr
      (hsettled missing key w hone hlinked) _ (h.blocks hm)).symm

end Rearranged

/-- `BUF`, or an element of it. -/
def buffer (index : Option String) : Decl.SignalDecl where
  cfg := []
  path := { segments := ["BUF"] }
  index := index.map fun i => [.ident i]

def bufferNode (ident : String) (writes reads : List Decl.SignalDecl) : Decl.Item :=
  .node {
    cfg := []
    ident := ident
    mode := "Terminate"
    deps := []
    source := none
    disabled := none
    executor := none
    resources := []
    slotTimeout := none
    ackTimeout := none
    beatTimeout := none
    beatWindow := none
    enabledIf := none
    restartBudget := none
    readyOnWrite := none
    reads := reads
    writes := writes
    exit := none
    state := none
    cancel := false
    discover := none
    dataflow := []
    provides := [] }

/-- One node writes an element, the other reads the array and another element of it. -/
def bufferModel : Model where
  graphModule := "app"
  items := [bufferNode "W" [buffer (some "I")] [],
    bufferNode "R" [] [buffer none, buffer (some "J")]]

def noSegments : Decl.Tokens → Option (List String) := fun _ => none

theorem notes_bufferModel : bufferModel.notes nameSyntax noSegments [] [] =
    [⟨"BUF[I]", "W", true, false⟩, ⟨"BUF", "R", false, false⟩, ⟨"BUF[J]", "R", false, false⟩] := rfl

theorem keys_bufferModel :
    bufferModel.keys nameSyntax noSegments [] [] = ["BUF[I]", "BUF", "BUF[J]"] := rfl

theorem whole_bufferModel {base : List Char} {w : String}
    (hw : w ∈ bufferModel.keys nameSyntax noSegments [] []) (hnames : namesWhole base w = true) :
    w = "BUF" := by
  have hplain : '[' ∉ w.toList := (of_decide_eq_true hnames).1
  rw [keys_bufferModel] at hw
  simp only [List.mem_cons, List.not_mem_nil, or_false] at hw
  rcases hw with rfl | rfl | rfl
  · exact absurd (by decide) hplain
  · rfl
  · exact absurd (by decide) hplain

theorem linked_bufferModel {key w : String}
    (h : bufferModel.Linked nameSyntax noSegments [] [] key w) : w = "BUF" := by
  obtain ⟨base, -, hw, hnames⟩ := h
  exact whole_bufferModel hw hnames

theorem not_settled_bufferModel :
    ¬bufferModel.Settled nameSyntax noSegments [] [] ⟨true, true⟩ [] := by
  intro hsettled
  have hlinked (key : String) (hbase : elementBase key = some "BUF".toList) :
      bufferModel.Linked nameSyntax noSegments [] [] key "BUF" :=
    ⟨"BUF".toList, hbase, by rw [keys_bufferModel]; simp, by decide⟩
  have hlacks (key : String) (hkey : key ≠ "BUF[I]") :
      ¬Has (bufferModel.notes nameSyntax noSegments [] []) true key := by
    simp [Has, notes_bufferModel, hkey.symm]
  have hone : bufferModel.OneSided nameSyntax noSegments [] [] ⟨true, true⟩ [] true "BUF[J]" :=
    { mem := by rw [keys_bufferModel]; simp
      notAllowed := rfl
      reports := rfl
      lacks := hlacks "BUF[J]" (by decide)
      wholeLacks := fun w hw => linked_bufferModel hw ▸ hlacks "BUF" (by decide)
      elementLacks := fun e he => absurd (linked_bufferModel he) (by decide)
      unobserved := fun h => by cases h }
  have hwritten : bufferModel.Sibling nameSyntax noSegments [] [] true "BUF" "BUF[I]" :=
    ⟨hlinked "BUF[I]" rfl, ⟨"BUF[I]", "W", true, false⟩, by simp [notes_bufferModel], rfl, rfl⟩
  refine hsettled true "BUF[J]" "BUF" hone (hlinked "BUF[J]" rfl) ⟨?_, ?_⟩
  · exact .head (b := ⟨["BUF[I]"], [], []⟩) (.head _) (.head _) hwritten
  · exact .body (b := ⟨[], ["BUF", "BUF[J]"], []⟩) (.tail _ (.head _)) (fun _ hk => by cases hk)
      (.tail _ (.head _))

theorem unambiguous_bufferModel : bufferModel.Unambiguous nameSyntax noSegments [] [] where
  declared d hd := by
    obtain ⟨item, -, hd⟩ := hd
    cases hd
  found d d' hd := by
    obtain ⟨item, -, hd⟩ := hd
    cases hd
  wholes _ _ base _ w hw w' hw' hnames hnames' := by
    rw [whole_bufferModel hw hnames, whole_bufferModel hw' hnames']

/-- The element that is read gets the writer of its array if it comes behind the element that is
written, and only then. -/
theorem not_orderFree_bufferModel :
    ¬∀ m', bufferModel.Rearranged m' → ∀ found,
      found ∈ reported ⟨true, true⟩ [] nameSyntax noSegments [] [] [m'] ↔
        found ∈ reported ⟨true, true⟩ [] nameSyntax noSegments [] [] [bufferModel] := by
  intro hsame
  exact not_settled_bufferModel ((orderFree_iff unambiguous_bufferModel).mp hsame)

end EmbassySupervisor.Lint
