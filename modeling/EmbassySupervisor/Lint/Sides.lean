/-
# What the lints put down

The two passes come to a list of notes: those of the declared entries, item by item, and behind
them those of the accesses that the bound functions are found to make. `lintPasses_noted` says
so for a model in which no spelling may name two signals.

The sides of a signal are those of its notes. Merging the links shares them between an array
and its elements, in the order of the elements (`list_linked`).
-/

import EmbassySupervisor.Lint.Dataflow
import Mathlib.Logic.Function.Basic

namespace EmbassySupervisor.Lint

open FirstSeen

/-! ## Notes -/

/-- A signal has writers, or readers. -/
def Has (notes : List Note) (write : Bool) (key : String) : Prop :=
  ∃ n ∈ notes, n.key = key ∧ n.write = write

/-- The monitor stands in for a reader. -/
def Consumed (notes : List Note) (key : String) : Prop :=
  ∃ n ∈ notes, n.key = key ∧ n.monitor = true

section Notes

variable {notes : List Note} {n : Note} {st : Noted} {key : String} {write : Bool}

theorem has_concat :
    Has (notes ++ [n]) write key ↔ Has notes write key ∨ n.key = key ∧ n.write = write := by
  simp [Has, or_and_right, exists_or]

theorem consumed_concat :
    Consumed (notes ++ [n]) key ↔ Consumed notes key ∨ n.key = key ∧ n.monitor = true := by
  simp [Consumed, or_and_right, exists_or]

theorem addNew_ne_nil {κ : Type} [DecidableEq κ] (l : List κ) (k : κ) : addNew l k ≠ [] := by
  rw [addNew]
  split
  · rename_i hk
    exact List.ne_nil_of_mem hk
  · simp

theorem foldl_addNew_ne_nil {κ : Type} [DecidableEq κ] (l r : List κ) :
    r.foldl addNew l ≠ [] ↔ l ≠ [] ∨ r ≠ [] := by
  induction r generalizing l with
  | nil => simp
  | cons k r ih => simp [ih, addNew_ne_nil]

namespace Sides

variable {s : Sides}

theorem list_add : (s.add n).list write ≠ [] ↔ s.list write ≠ [] ∨ n.write = write := by
  cases write <;> cases hn : n.write <;> simp [add, list, hn, addNew_ne_nil]

theorem list_addAll {src : Sides} :
    (s.addAll src).list write ≠ [] ↔ s.list write ≠ [] ∨ src.list write ≠ [] := by
  cases write <;> simp [addAll, list, foldl_addNew_ne_nil]

end Sides

namespace Noted

@[simp]
theorem get_set (s : Sides) (k : String) :
    (st.set key s).get k = if k = key then s else st.get k := by
  by_cases h : k = key
  · simp [get, set, h]
  · simp [get, set, h]

@[simp]
theorem get_note (k : String) :
    (st.note n).get k = if k = n.key then (st.get k).add n else st.get k := by
  by_cases h : k = n.key
  · simp [get, note, h]
  · simp [get, note, h]

/-- The state is what the notes come to. -/
structure Of (notes : List Note) (st : Noted) : Prop where
  order : st.order = firsts (notes.map (·.key))
  isSome (key : String) : (st.sides key).isSome ↔ key ∈ notes.map (·.key)
  list (key : String) (write : Bool) : (st.get key).list write ≠ [] ↔ Has notes write key
  monitor (key : String) : (st.get key).monitorConsumed = true ↔ Consumed notes key

theorem of_nil : Of [] {} where
  order := rfl
  isSome key := by simp
  list key write := by cases write <;> simp [get, Sides.list, Has]
  monitor key := by simp [get, Consumed]

theorem Of.note (h : Of notes st) (n : Note) : Of (notes ++ [n]) (st.note n) where
  order := by
    rw [List.map_append, List.map_singleton, firsts_concat, ← h.order, addNew]
    have hmem : n.key ∈ st.order ↔ (st.sides n.key).isSome := by
      rw [h.order, mem_firsts, h.isSome]
    simp only [Noted.note, hmem]
  isSome key := by
    by_cases hk : key = n.key
    · simp [Noted.note, hk]
    · simp [Noted.note, hk, h.isSome]
  list key write := by
    rw [has_concat, ← h.list]
    by_cases hk : key = n.key
    · simp [hk, Sides.list_add]
    · simp [hk, Ne.symm hk]
  monitor key := by
    rw [consumed_concat, ← h.monitor]
    by_cases hk : key = n.key
    · simp [hk, Sides.add]
    · simp [hk, Ne.symm hk]

theorem of_foldl (notes : List Note) : Of notes (notes.foldl Noted.note {}) := by
  induction notes using List.reverseRecOn with
  | nil => exact of_nil
  | append_singleton notes n ih =>
      rw [List.foldl_append]
      exact ih.note n

/-- The source's lookups succeed: they are of keys in `order`. -/
theorem Of.isSome_of_mem (h : Of notes st) (hkey : key ∈ st.order) :
    (st.sides key).isSome = true := by
  rw [h.order, mem_firsts] at hkey
  exact (h.isSome key).mpr hkey

end Noted

end Notes

/-! ## Links -/

section Links

variable {st : Noted} {order : List String} {key : String} {write : Bool}

/-- The array that an element is linked to. -/
def wholeOf (order : List String) (key : String) : Option String :=
  (elementBase key).bind fun base => order.find? (namesWhole base)

def linkOf (order : List String) (key : String) : Option (String × String) :=
  (wholeOf order key).map (key, ·)

theorem elementLinks_eq (order : List String) :
    elementLinks order = order.filterMap (linkOf order) := by
  refine List.filterMap_congr fun key _ => ?_
  cases hbase : elementBase key with
  | none => simp [linkOf, wholeOf, hbase]
  | some base => cases hfind : order.find? (namesWhole base) <;> simp [linkOf, wholeOf, hbase, hfind]

/-- What is linked is an element, and its array stands in the order without an index. -/
theorem wholeOf_eq_some {w : String} (h : wholeOf order key = some w) :
    ∃ base, elementBase key = some base ∧ w ∈ order ∧ namesWhole base w = true := by
  obtain ⟨base, hbase, hfind⟩ := Option.bind_eq_some_iff.mp h
  exact ⟨base, hbase, List.mem_of_find?_eq_some hfind, List.find?_some hfind⟩

/-- An array has no array of its own. -/
theorem flat_wholeOf (order : List String) : Flat (wholeOf order) := by
  intro k w hw
  obtain ⟨base, -, -, hnames⟩ := wholeOf_eq_some hw
  have hplain : '[' ∉ w.toList := (of_decide_eq_true hnames).1
  simp [wholeOf, elementBase, hplain]

namespace Noted

theorem get_mergeInto (source target k : String) :
    (st.mergeInto source target).get k =
      if k = target then (st.get target).addAll (st.get source) else st.get k :=
  get_set _ k

theorem list_mergeLink {e w : String} (hne : e ≠ w) (k : String) :
    ((st.mergeLink (e, w)).get k).list write ≠ [] ↔ (st.get k).list write ≠ [] ∨
      (k = w ∧ (st.get e).list write ≠ [] ∨ k = e ∧ (st.get w).list write ≠ []) := by
  simp only [mergeLink, get_mergeInto, if_neg hne]
  by_cases hke : k = e
  · subst hke
    simp only [if_true, Sides.list_addAll, hne, false_and, true_and, false_or]
    tauto
  · by_cases hkw : k = w
    · subst hkw
      simp [Sides.list_addAll, hke]
    · simp [hke, hkw]

theorem monitor_mergeInto (source target k : String) :
    ((st.mergeInto source target).get k).monitorConsumed = (st.get k).monitorConsumed := by
  rw [get_mergeInto]
  split
  · rename_i hk
    subst hk
    rfl
  · rfl

theorem monitor_mergeLink (link : String × String) (k : String) :
    ((st.mergeLink link).get k).monitorConsumed = (st.get k).monitorConsumed := by
  rw [mergeLink, monitor_mergeInto, monitor_mergeInto]

theorem order_foldl_mergeLink (links : List (String × String)) (st : Noted) :
    (links.foldl mergeLink st).order = st.order := by
  induction links generalizing st with
  | nil => rfl
  | cons link links ih => exact ih _

theorem monitor_foldl_mergeLink (links : List (String × String)) (st : Noted) (k : String) :
    ((links.foldl mergeLink st).get k).monitorConsumed = (st.get k).monitorConsumed := by
  induction links generalizing st with
  | nil => rfl
  | cons link links ih => rw [List.foldl_cons, ih, monitor_mergeLink]

/-- One merge after the other shares the sides between an array and its elements. -/
theorem list_foldl_mergeLink (order keys : List String) (st : Noted) (write : Bool) :
    (fun k => (((keys.filterMap (linkOf order)).foldl mergeLink st).get k).list write ≠ []) =
      keys.foldl (share (wholeOf order)) fun k => (st.get k).list write ≠ [] := by
  induction keys generalizing st with
  | nil => rfl
  | cons key keys ih =>
      rw [List.foldl_cons]
      cases hwhole : wholeOf order key with
      | none =>
          have hshare : share (wholeOf order) (fun k => (st.get k).list write ≠ []) key =
              fun k => (st.get k).list write ≠ [] := by
            funext k
            simp [share, hwhole]
          rw [hshare, ← ih, List.filterMap_cons_none (by simp [linkOf, hwhole])]
      | some w =>
          have hne : key ≠ w := by
            rintro rfl
            cases hwhole.symm.trans (flat_wholeOf order _ _ hwhole)
          have hshare : share (wholeOf order) (fun k => (st.get k).list write ≠ []) key =
              fun k => ((st.mergeLink (key, w)).get k).list write ≠ [] := by
            funext k
            simp only [share, hwhole, Option.some.injEq, exists_eq_left', list_mergeLink hne]
          rw [hshare, ← ih, List.filterMap_cons_some (by simp [linkOf, hwhole]; rfl)]
          rfl

theorem order_linked (st : Noted) : st.linked.order = st.order := order_foldl_mergeLink _ st

theorem monitor_linked (st : Noted) (k : String) :
    (st.linked.get k).monitorConsumed = (st.get k).monitorConsumed :=
  monitor_foldl_mergeLink _ st k

theorem list_linked (st : Noted) (write : Bool) (k : String) :
    (st.linked.get k).list write ≠ [] ↔
      st.order.foldl (share (wholeOf st.order)) (fun k => (st.get k).list write ≠ []) k := by
  rw [linked, elementLinks_eq]
  exact iff_of_eq (congrFun (list_foldl_mergeLink st.order st.order st write) k)

end Noted

end Links

/-! ## The passes -/

def Discovered.ownPath (d : Discovered) : String :=
  if d.relative then d.module ++ "::" ++ d.access.path else d.access.path

section Spec

variable (syn : ExprSyntax) (segments : Decl.Tokens → Option (List String))
  (discovered : List Discovered) (bundles : List Bundle)

def declaredNotes (item : Decl.Item) : List Note :=
  match boxedName item with
  | none => []
  | some name => (signalsOf item).map (declaredNote syn name)

/-- The spellings of the declared entries. -/
def Model.declared (m : Model) : List String :=
  firsts ((m.items.flatMap (declaredNotes syn)).map (·.key))

/-- The first access of each path in each direction, of the functions that match. -/
def freshAccesses (funcs : List (String × Option String)) (graphModule : String) :
    List (Bool × String) → List Discovered → List Discovered
  | _, [] => []
  | seen, d :: rest =>
    if d.matches funcs graphModule = false ∨
        seen.any (fun s => s.1 = d.access.write ∧ s.2 = d.access.path) then
      freshAccesses funcs graphModule seen rest
    else d :: freshAccesses funcs graphModule (seen ++ [(d.access.write, d.access.path)]) rest

/-- The accesses that an item is found to make. -/
def accesses (graphModule : String) (item : Decl.Item) : List Discovered :=
  freshAccesses (expandBundles bundles (dataflowFnSources segments item)) graphModule [] discovered

def Model.Bound (m : Model) (d : Discovered) : Prop :=
  ∃ item ∈ m.items, d ∈ accesses segments discovered bundles m.graphModule item

/-- Where an access lands by the declared spellings alone. -/
def landing (declared : List String) (d : Discovered) : String := discoveredKey d declared declared

def foundNotes (graphModule : String) (declared : List String) (item : Decl.Item) : List Note :=
  match boxedName item with
  | none => []
  | some name => (accesses segments discovered bundles graphModule item).map fun d =>
    foundNote name (landing declared d) d.access

def Model.notes (m : Model) : List Note :=
  m.items.flatMap (declaredNotes syn) ++
    m.items.flatMap (foundNotes segments discovered bundles m.graphModule (m.declared syn))

def Model.keys (m : Model) : List String :=
  (m.notes syn segments discovered bundles).map (·.key)

/-- No spelling may name two signals of the model, and no element may belong to two arrays. -/
structure Model.Unambiguous (m : Model) : Prop where
  declared (d : Discovered) (hd : m.Bound segments discovered bundles d) :
    ∀ k ∈ m.declared syn, ∀ k' ∈ m.declared syn, pathsAlias k d.ownPath = true →
      pathsAlias k' d.ownPath = true → k = k'
  found (d d' : Discovered) (hd : m.Bound segments discovered bundles d)
    (hd' : m.Bound segments discovered bundles d')
    (hnone : ∀ k ∈ m.declared syn, pathsAlias k d.ownPath = false) :
    pathsAlias (landing (m.declared syn) d') d.ownPath = true →
      landing (m.declared syn) d' = landing (m.declared syn) d
  wholes : ∀ e ∈ m.keys syn segments discovered bundles, ∀ base, elementBase e = some base →
    ∀ w ∈ m.keys syn segments discovered bundles, ∀ w' ∈ m.keys syn segments discovered bundles,
      namesWhole base w = true → namesWhole base w' = true → w = w'

end Spec

section Passes

variable {syn : ExprSyntax} {segments : Decl.Tokens → Option (List String)}
  {discovered : List Discovered} {bundles : List Bundle}

def putDeclared (st : LintState) (n : Note) : LintState :=
  { st with noted := st.noted.note n, declaredBoxes := addNew st.declaredBoxes n.key }

theorem declareItem_eq (st : LintState) (item : Decl.Item) :
    declareItem syn st item = (declaredNotes syn item).foldl putDeclared st := by
  rw [declareItem, declaredNotes]
  cases boxedName item with
  | none => rfl
  | some name =>
      show (signalsOf item).foldl (noteDeclared syn name) st =
        ((signalsOf item).map (declaredNote syn name)).foldl putDeclared st
      rw [List.foldl_map]
      rfl

theorem foldl_putDeclared (notes : List Note) (st : LintState) :
    notes.foldl putDeclared st =
      { st with
        noted := notes.foldl Noted.note st.noted
        declaredBoxes := (notes.map (·.key)).foldl addNew st.declaredBoxes } := by
  induction notes generalizing st with
  | nil => rfl
  | cons n notes ih => rw [List.foldl_cons, ih, putDeclared]; rfl

/-- The declared pass. -/
theorem foldl_declareItem (m : Model) :
    m.items.foldl (declareItem syn) {} =
      { noted := (m.items.flatMap (declaredNotes syn)).foldl Noted.note {}
        declaredBoxes := m.declared syn } := by
  have hfold : m.items.foldl (declareItem syn) {} =
      (m.items.flatMap (declaredNotes syn)).foldl putDeclared {} := by
    rw [List.foldl_flatMap]
    exact congrArg (fun f => m.items.foldl f {}) (funext fun st => funext (declareItem_eq st))
  rw [hfold, foldl_putDeclared]
  rfl

theorem foldl_noteFound (funcs : List (String × Option String)) (graphModule name : String)
    (st : LintState) (seen : List (Bool × String)) (ds : List Discovered) :
    (ds.foldl (noteFound funcs graphModule name) (st, seen)).1 =
      (freshAccesses funcs graphModule seen ds).foldl (landFound name) st := by
  induction ds generalizing st seen with
  | nil => rfl
  | cons d ds ih =>
      rw [List.foldl_cons, noteFound, freshAccesses]
      split
      · exact ih st seen
      · exact ih _ _

theorem freshAccesses_nil (graphModule : String) (seen : List (Bool × String))
    (ds : List Discovered) : freshAccesses [] graphModule seen ds = [] := by
  induction ds generalizing seen with
  | nil => rfl
  | cons d ds ih => simp [freshAccesses, Discovered.matches, ih]

theorem discoverItem_eq (graphModule : String) (st : LintState) {item : Decl.Item} :
    discoverItem segments discovered bundles graphModule st item =
      match boxedName item with
      | none => st
      | some name =>
        (accesses segments discovered bundles graphModule item).foldl (landFound name) st := by
  rw [discoverItem, accesses]
  cases boxedName item with
  | none => rfl
  | some name =>
      by_cases hfuncs : expandBundles bundles (dataflowFnSources segments item) = []
      · simp only [hfuncs, if_true, freshAccesses_nil, List.foldl_nil]
      · simp only [hfuncs, if_false, foldl_noteFound]

def fallback (d : Discovered) (declared : List String) : String :=
  if d.relative = false then d.access.path
  else
    match declared.filter (pathsAlias · d.access.path) with
    | [k] => k
    | _ => d.ownPath

theorem discoveredKey_eq (d : Discovered) (emitted declared : List String) :
    discoveredKey d emitted declared =
      (emitted.find? (pathsAlias · d.ownPath)).getD (fallback d declared) := by
  unfold discoveredKey fallback
  cases hrel : d.relative with
  | false => simp [Discovered.ownPath, hrel]
  | true =>
      simp only [Discovered.ownPath, hrel, Bool.true_eq_false, if_false, if_true]
      cases emitted.find? (pathsAlias · (d.module ++ "::" ++ d.access.path)) <;> rfl

/-- What the discovered pass keeps: the keys put out behind the declared ones are landings. -/
structure Landed (syn : ExprSyntax) (segments : Decl.Tokens → Option (List String))
    (discovered : List Discovered) (bundles : List Bundle) (m : Model) (st : LintState) : Prop where
  declared : st.declaredBoxes = m.declared syn
  emitted : ∃ rest, st.emitted = m.declared syn ++ rest ∧ ∀ k ∈ rest, ∃ d,
    m.Bound segments discovered bundles d ∧ landing (m.declared syn) d = k

variable {m : Model} {st : LintState}

theorem Landed.key (h : Landed syn segments discovered bundles m st)
    (hm : m.Unambiguous syn segments discovered bundles) {d : Discovered}
    (hd : m.Bound segments discovered bundles d) :
    discoveredKey d st.emitted st.declaredBoxes = landing (m.declared syn) d := by
  obtain ⟨rest, hemitted, hrest⟩ := h.emitted
  rw [h.declared, hemitted, landing, discoveredKey_eq, discoveredKey_eq, List.find?_append]
  cases hdecl : (m.declared syn).find? (pathsAlias · d.ownPath) with
  | some k => rfl
  | none =>
      have hnone : ∀ k ∈ m.declared syn, pathsAlias k d.ownPath = false := by
        simpa using List.find?_eq_none.mp hdecl
      have hlanding : landing (m.declared syn) d = fallback d (m.declared syn) := by
        rw [landing, discoveredKey_eq, hdecl]
        rfl
      cases hfound : rest.find? (pathsAlias · d.ownPath) with
      | none => rfl
      | some k =>
          obtain ⟨d', hd', hk⟩ := hrest k (List.mem_of_find?_eq_some hfound)
          have halias : pathsAlias k d.ownPath = true := by
            simpa using List.find?_some hfound
          rw [← hk] at halias
          exact hk.symm.trans ((hm.found d d' hd hd' hnone halias).trans hlanding)

theorem Landed.land (h : Landed syn segments discovered bundles m st)
    (hm : m.Unambiguous syn segments discovered bundles) {d : Discovered}
    (hd : m.Bound segments discovered bundles d) (name : String) :
    Landed syn segments discovered bundles m (landFound name st d) ∧
      (landFound name st d).noted =
        st.noted.note (foundNote name (landing (m.declared syn) d) d.access) := by
  have hkey := h.key hm hd
  refine ⟨⟨h.declared, ?_⟩, by rw [← hkey]; rfl⟩
  obtain ⟨rest, hemitted, hrest⟩ := h.emitted
  have hemit : (landFound name st d).emitted = addNew st.emitted (landing (m.declared syn) d) :=
    hkey ▸ rfl
  rw [hemit, addNew]
  split
  · exact ⟨rest, hemitted, hrest⟩
  · refine ⟨rest ++ [landing (m.declared syn) d], by rw [hemitted, List.append_assoc], ?_⟩
    intro k hk
    rcases List.mem_append.mp hk with hk | hk
    · exact hrest k hk
    · exact ⟨d, hd, (List.mem_singleton.mp hk).symm⟩

theorem Landed.foldl (hm : m.Unambiguous syn segments discovered bundles) (name : String)
    (ds : List Discovered) (hds : ∀ d ∈ ds, m.Bound segments discovered bundles d)
    (h : Landed syn segments discovered bundles m st) :
    Landed syn segments discovered bundles m (ds.foldl (landFound name) st) ∧
      (ds.foldl (landFound name) st).noted =
        (ds.map fun d => foundNote name (landing (m.declared syn) d) d.access).foldl
          Noted.note st.noted := by
  induction ds generalizing st with
  | nil => exact ⟨h, rfl⟩
  | cons d ds ih =>
      obtain ⟨hland, hnoted⟩ := h.land hm (hds d List.mem_cons_self) name
      obtain ⟨hlast, hnotes⟩ := ih (fun d' hd' => hds d' (List.mem_cons_of_mem d hd')) hland
      refine ⟨hlast, ?_⟩
      rw [List.foldl_cons, hnotes, hnoted]
      rfl

theorem Landed.items (hm : m.Unambiguous syn segments discovered bundles) (items : List Decl.Item)
    (hitems : ∀ item ∈ items, item ∈ m.items) (h : Landed syn segments discovered bundles m st) :
    (items.foldl (discoverItem segments discovered bundles m.graphModule) st).noted =
      (items.flatMap (foundNotes segments discovered bundles m.graphModule
        (m.declared syn))).foldl Noted.note st.noted := by
  induction items generalizing st with
  | nil => rfl
  | cons item items ih =>
      have hrest := fun i hi => hitems i (List.mem_cons_of_mem item hi)
      rw [List.foldl_cons, List.flatMap_cons, List.foldl_append, discoverItem_eq, foundNotes]
      cases boxedName item with
      | none => exact ih hrest h
      | some name =>
          obtain ⟨hland, hnoted⟩ := h.foldl hm name
            (accesses segments discovered bundles m.graphModule item)
            fun d hd => ⟨item, hitems item List.mem_cons_self, hd⟩
          rw [ih hrest hland, hnoted]

/-- The two passes over a model without ambiguities put down its notes. -/
theorem lintPasses_noted (hm : m.Unambiguous syn segments discovered bundles) :
    (lintPasses syn segments discovered bundles m).noted =
      (m.notes syn segments discovered bundles).foldl Noted.note {} := by
  rw [lintPasses, foldl_declareItem, Model.notes, List.foldl_append]
  refine Landed.items hm m.items (fun _ h => h) ⟨rfl, [], ?_, fun _ h => by cases h⟩
  exact (List.append_nil _).symm

end Passes

end EmbassySupervisor.Lint
