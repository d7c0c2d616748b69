/-
# Contributors and claimants

The slots of a budget or a veto gate are numbered for its holders, the nodes and pool members
that declare it. Each is to have one of its own, the numbers are to leave no gap, and the slot
that a worker is given as a `Claimant` is the one that a stop releases.

All of this holds of an accepted graph, but for a pool that lists a budget twice. The parser of
`pool` does not look through the names of its resources.
-/

import EmbassySupervisor.Macro.SlotNumbers
import Mathlib.Data.List.Pairwise

namespace EmbassySupervisor.Decl

open BlockNumbering

/-! ## What the emitters read back -/

section Emit

variable {syn : ExprSyntax} {plan : ResourcePlan}

/-- What the emitters give a member of an item. -/
structure Emitted (syn : ExprSyntax) (plan : ResourcePlan) (item : Item) (h : HolderSlots) :
    Prop where
  owner : item.owner = some h.owner
  member : h.member < item.memberCount
  claims : h.claims =
    slotEntries (·.ident) item.resources (plan.claims h.owner item.resources) h.member
  vetoes : h.vetoes =
    slotEntries (·.display syn) item.writes (plan.vetoSlots syn h.owner item.writes) h.member
  claimants : EntriesChecked syn item → ∃ slotOf : ℕ → ℕ,
    claimants slotOf item.resources (plan.claims h.owner item.resources) = .ok h.claimants ∧
      ∀ base, base + h.member < 256 → slotOf base = base + h.member

def Item.members (item : Item) : List (String × ℕ) :=
  match item.owner with
  | none => []
  | some owner => (List.range item.memberCount).map (owner, ·)

/-- Where the emitters are after some items. -/
structure Emits (syn : ExprSyntax) (plan : ResourcePlan) (items : List Item)
    (st : List String × List HolderSlots) : Prop where
  names : st.1 = items.filterMap Item.owner
  nodup : st.1.Nodup
  members : st.2.map (fun h => (h.owner, h.member)) = items.flatMap Item.members
  emitted : ∀ h ∈ st.2, ∃ item ∈ items, Emitted syn plan item h

/-- An item with a name that is new and holders of its own keeps the emitters' account. -/
theorem Emits.extend {items : List Item} {item : Item} {owner : String}
    {st : List String × List HolderSlots} {holders : List HolderSlots}
    (hst : Emits syn plan items st) (howner : item.owner = some owner) (hnew : owner ∉ st.1)
    (hmembers : holders.map (fun h => (h.owner, h.member)) = item.members)
    (hholders : ∀ h ∈ holders, Emitted syn plan item h) :
    Emits syn plan (items ++ [item]) (st.1 ++ [owner], st.2 ++ holders) := by
  constructor
  · simp [hst.names, howner]
  · rw [← List.concat_eq_append, List.nodup_concat]
    exact ⟨hnew, hst.nodup⟩
  · simp [hst.members, hmembers]
  · intro h hh
    rcases List.mem_append.mp hh with hh | hh
    · obtain ⟨item', hmem, hemitted⟩ := hst.emitted h hh
      exact ⟨item', List.mem_append_left _ hmem, hemitted⟩
    · exact ⟨item, by simp, hholders h hh⟩

end Emit

/-! ## Requests of items -/

section Requests

variable {items : List Item} {names : Item → List String} {key : String}

/-- Each item asks for its members under each of some names. -/
def requests (names : Item → List String) (items : List Item) : List (Request String String) :=
  items.flatMap fun item => item.owner.toList.flatMap fun owner =>
    (names item).map fun key => { owner, key, size := item.memberCount }

def Item.budgets (item : Item) : List String :=
  (item.resources.filter (·.kind = .divisible)).map (·.ident)

def Item.gates (syn : ExprSyntax) (item : Item) : List String :=
  (item.writes.filter (·.veto)).map (·.display syn)

end Requests

/-! ## The slots of a graph -/

/-- The slots of one budget or gate, of which the holders have some entries. -/
structure Filled (names : Item → List String) (items : List Item) (holders : List HolderSlots)
    (entries : HolderSlots → List (String × ℕ)) (key : String) (total : ℕ) : Prop where
  declared : ∀ h ∈ holders, (∃ slot, (key, slot) ∈ entries h) ↔
    ∃ item ∈ items, item.owner = some h.owner ∧ key ∈ names item
  single : ∀ h ∈ holders, ∀ slot slot', (key, slot) ∈ entries h → (key, slot') ∈ entries h →
    slot = slot'
  distinct : ∀ h ∈ holders, ∀ h' ∈ holders, ∀ slot, (key, slot) ∈ entries h →
    (key, slot) ∈ entries h' → h.owner = h'.owner ∧ h.member = h'.member
  fills : ∀ slot, slot < total ↔ ∃ h ∈ holders, (key, slot) ∈ entries h

section Slots

variable {syn : ExprSyntax} {items : List Item} {names : Item → List String}
  {holders : List HolderSlots} {entries : HolderSlots → List (String × ℕ)} {key : String}

section Accepted

variable {plan : ResourcePlan} {st : List String × List HolderSlots}

theorem mem_resourceSites {item : Item} (hitem : item ∈ items) {owner : String}
    (howner : item.owner = some owner) {r : ResourceDecl} (hr : r ∈ item.resources) :
    (⟨owner, item.memberCount, item.executorName, r⟩ : ResourceSite) ∈
      items.flatMap Item.resourceSites := by
  refine List.mem_flatMap.mpr ⟨item, hitem, ?_⟩
  simp only [Item.resourceSites, howner]
  exact List.mem_map.mpr ⟨r, hr, rfl⟩

/-- An entry has a base where it is a budget. -/
theorem ResourcePlan.Numbered.base_isSome_iff (hplan : plan.Numbered syn items) {item : Item}
    (hitem : item ∈ items) {owner : String} (howner : item.owner = some owner) {r : ResourceDecl}
    (hr : r ∈ item.resources) :
    (plan.claimBases owner r.ident).isSome = true ↔ r.kind = .divisible := by
  have hsite := mem_resourceSites hitem howner hr
  rw [hplan.claimBases, BlockNumbering.base_isSome_iff]
  constructor
  · rintro ⟨req, hreq, -, hkey⟩
    obtain ⟨s, hs, rfl⟩ := List.mem_map.mp hreq
    obtain ⟨hs, hdivisible⟩ := List.mem_filter.mp hs
    exact (hplan.kind_iff _ hs _ hsite hkey).mp (of_decide_eq_true hdivisible)
  · intro hdivisible
    refine ⟨_, List.mem_map.mpr ⟨_, List.mem_filter.mpr ⟨hsite, ?_⟩, rfl⟩, rfl, rfl⟩
    exact decide_eq_true hdivisible

end Accepted

end Slots

end EmbassySupervisor.Decl
