/-
# The dependency rows the macro emits

`slot_tables` resolves the `deps:` of every slot to bytes, each behind the `#[cfg]` attributes
it was written with, and refuses a name it does not know and an entry it has seen. It has seen
an entry when slot and attributes are the same; which entries there are in a build is settled
later, when the predicates are.

The sort counts the entries of a row and counts a slot down once for each slot it depends on.
`acyclic_compiles_iff` says what acyclic declarations need to compile: in no row that the
build leaves may the entries outnumber the slots they name. A slot named under two predicates
that both hold is the way to violate that (`acyclic_refused`).
-/

import EmbassySupervisor.Macro.Sort
import Mathlib.Tactic.FinCases

namespace EmbassySupervisor

open Relation

/-- An entry of `deps:`, with the texts of its `#[cfg]` attributes. -/
structure DepDecl where
  cfg : List String := []
  ident : String
  deriving DecidableEq, Repr

/-- A slot as the macro collects it: its `deps:` and the fragment it was taken from. -/
structure SlotDecl where
  deps : List DepDecl := []
  fragment : Option String := none
  deriving DecidableEq, Repr

/-- An element of an emitted row, behind its attributes. -/
structure RowEntry where
  cfg : List String
  idx : UInt8
  deriving DecidableEq, Repr

inductive SlotTablesError
  | unknown (ident : String) (fragment : Option String)
  | duplicate (ident : String)
  deriving DecidableEq, Repr

namespace SlotTablesError

/-- `fragment_suffix`. -/
def fragmentSuffix : Option String → String
  | some f => " (from fragment `" ++ f ++ "`)"
  | none => ""

def message : SlotTablesError → String
  | unknown ident fragment =>
    "unknown dependency `" ++ ident ++ "` — not a declared node or pool" ++
      fragmentSuffix fragment
  | duplicate ident => "duplicate dependency `" ++ ident ++ "`"

end SlotTablesError

section Emit

variable (names : String → Option ℕ)

/-- The row of a slot, given the entries seen so far. -/
def depRow (fragment : Option String) :
    List (UInt8 × List String) → List DepDecl → Except SlotTablesError (List RowEntry)
  | _, [] => .ok []
  | seen, d :: deps =>
    match names d.ident with
    | none => .error (.unknown d.ident fragment)
    | some i =>
      let idx := UInt8.ofNat i
      if seen.any fun s => s.1 == idx && s.2 == d.cfg then .error (.duplicate d.ident)
      else (depRow fragment (seen ++ [(idx, d.cfg)]) deps).map (⟨d.cfg, idx⟩ :: ·)

/-- The rows of `slot_tables`. -/
def slotTables : List SlotDecl → Except SlotTablesError (List (List RowEntry))
  | [] => .ok []
  | s :: slots => do
    let row ← depRow names s.fragment [] s.deps
    let rows ← slotTables slots
    return row :: rows

end Emit

/-- The attributes hold in the build. -/
def enabledBy (holds : String → Bool) (cfg : List String) : Bool := cfg.all holds

/-- A row in the build: the bytes whose attributes hold. -/
def buildRow (holds : String → Bool) (row : List RowEntry) : List UInt8 :=
  (row.filter fun e => enabledBy holds e.cfg).map RowEntry.idx

/-- The rows the sort is given. -/
def buildTable (n : ℕ) (holds : String → Bool) (rows : List (List RowEntry)) (j : Fin n) :
    List UInt8 :=
  buildRow holds (rows.getD j [])

/-- The declared dependencies of a slot that are enabled in the build. -/
def enabledDeps (holds : String → Bool) (s : SlotDecl) : List DepDecl :=
  s.deps.filter fun d => enabledBy holds d.cfg

/-- A declared dependency resolves to the slot. -/
def DepDecl.names (names : String → Option ℕ) (d : DepDecl) (i : ℕ) : Bool :=
  (names d.ident).any fun k => (UInt8.ofNat k).toNat == i

/-- The slots of the graph that the enabled dependencies of a slot name. -/
def namedSlots (names : String → Option ℕ) (holds : String → Bool) (slots : List SlotDecl)
    (s : SlotDecl) : List (Fin slots.length) :=
  (List.finRange slots.length).filter fun i => (enabledDeps holds s).any (·.names names i)

/-- No slot depends on itself through enabled dependencies. -/
def AcyclicDecls (names : String → Option ℕ) (holds : String → Bool)
    (slots : List SlotDecl) : Prop :=
  ∀ j, ¬ TransGen (fun d j : Fin slots.length => d ∈ namedSlots names holds slots slots[j]) j j

/-! ## What the emitted rows say -/

variable {names : String → Option ℕ} {holds : String → Bool}

/-- A row that is accepted has the entries as they were declared. -/
theorem depRow_eq {fragment : Option String} {seen : List (UInt8 × List String)}
    {deps : List DepDecl} {row : List RowEntry} (h : depRow names fragment seen deps = .ok row) :
    List.Forall₂ (fun d e => e.cfg = d.cfg ∧ ∃ k, names d.ident = some k ∧ e.idx = UInt8.ofNat k)
      deps row := by
  induction deps generalizing seen row with
  | nil =>
      cases h
      exact .nil
  | cons d deps ih =>
      unfold depRow at h
      cases hname : names d.ident with
      | none => simp [hname] at h
      | some k =>
          simp only [hname] at h
          split at h
          · cases h
          · cases hrest : depRow names fragment (seen ++ [(UInt8.ofNat k, d.cfg)]) deps with
            | error f => simp [hrest, Except.map] at h
            | ok rest =>
                simp only [hrest, Except.map, Except.ok.injEq] at h
                subst h
                exact .cons ⟨rfl, k, hname, rfl⟩ (ih hrest)

/-- Every slot has its row. -/
theorem slotTables_eq {slots : List SlotDecl} {rows : List (List RowEntry)}
    (h : slotTables names slots = .ok rows) :
    List.Forall₂ (fun s row => depRow names s.fragment [] s.deps = .ok row) slots rows := by
  induction slots generalizing rows with
  | nil =>
      cases h
      exact .nil
  | cons s slots ih =>
      unfold slotTables at h
      cases hrow : depRow names s.fragment [] s.deps with
      | error f =>
          rw [hrow] at h
          cases h
      | ok row =>
          cases hrest : slotTables names slots with
          | error f =>
              rw [hrow, hrest] at h
              cases h
          | ok tables =>
              rw [hrow, hrest] at h
              cases h
              exact .cons hrow (ih hrest)

/-- What the build leaves of a row is what it leaves of the declarations. -/
theorem forall₂_buildRow {deps : List DepDecl} {row : List RowEntry}
    (h : List.Forall₂
      (fun d e => e.cfg = d.cfg ∧ ∃ k, names d.ident = some k ∧ e.idx = UInt8.ofNat k) deps row) :
    List.Forall₂ (fun d x => ∃ k, names d.ident = some k ∧ x = UInt8.ofNat k)
      (deps.filter fun d => enabledBy holds d.cfg) (buildRow holds row) := by
  induction h with
  | nil => exact .nil
  | @cons d e deps row hentry _ ih =>
      obtain ⟨hcfg, k, hname, hidx⟩ := hentry
      by_cases henabled : enabledBy holds d.cfg = true
      · simp only [buildRow, List.filter_cons, hcfg, henabled, if_true, List.map_cons]
        exact .cons ⟨k, hname, hidx⟩ ih
      · simp only [buildRow, List.filter_cons, hcfg, henabled]
        exact ih

theorem any_buildRow {deps : List DepDecl} {row : List UInt8}
    (h : List.Forall₂ (fun d x => ∃ k, names d.ident = some k ∧ x = UInt8.ofNat k) deps row)
    (i : ℕ) : (row.any fun x => x.toNat == i) = deps.any (·.names names i) := by
  induction h with
  | nil => rfl
  | cons hentry _ ih =>
      obtain ⟨k, hname, rfl⟩ := hentry
      rw [List.any_cons, List.any_cons, ih, DepDecl.names, hname]
      rfl

section Accepted

variable {slots : List SlotDecl} {rows : List (List RowEntry)}

/-- The row of a slot in the build. -/
theorem forall₂_buildTable (h : slotTables names slots = .ok rows) (j : Fin slots.length) :
    List.Forall₂ (fun d x => ∃ k, names d.ident = some k ∧ x = UInt8.ofNat k)
      (enabledDeps holds slots[j]) (buildTable slots.length holds rows j) := by
  have hrows := slotTables_eq h
  have hlength : j < rows.length := hrows.length_eq ▸ j.isLt
  have hrow := hrows.get j.isLt hlength
  apply forall₂_buildRow
  rw [List.getD_eq_getElem?_getD, List.getElem?_eq_getElem hlength, Option.getD_some]
  exact depRow_eq hrow

theorem depends_iff_mem (h : slotTables names slots = .ok rows) (d j : Fin slots.length) :
    SortArrays.depends (buildTable slots.length holds rows) d j = true ↔
      d ∈ namedSlots names holds slots slots[j] := by
  rw [SortArrays.depends, any_buildRow (forall₂_buildTable h j)]
  simp [namedSlots]

theorem acyclic_iff (h : slotTables names slots = .ok rows) :
    Acyclic (buildTable slots.length holds rows) ↔ AcyclicDecls names holds slots := by
  have hrel : (fun d j : Fin slots.length =>
      SortArrays.depends (buildTable slots.length holds rows) d j = true) =
        fun d j => d ∈ namedSlots names holds slots slots[j] := by
    funext d j
    exact propext (depends_iff_mem h d j)
  rw [Acyclic, AcyclicDecls, hrel]

/-- **When acyclic declarations compile.** Of declarations that are accepted, acyclic ones
sort in a build, and a cycle is reported of cyclic ones only, if and only if they are cyclic
or no slot has more enabled entries, counted in a byte, than they name slots. -/
theorem acyclic_compiles_iff (hn : slots.length ≤ 256)
    (h : slotTables names slots = .ok rows) (holds : String → Bool) :
    ((AcyclicDecls names holds slots →
        ∃ order, topoSortConst (buildTable slots.length holds rows) = .ok order) ∧
      (topoSortConst (buildTable slots.length holds rows) = .error .cycle →
        ¬ AcyclicDecls names holds slots)) ↔
    (¬ AcyclicDecls names holds slots ∨ ∀ s ∈ slots,
      (enabledDeps holds s).length % 2 ^ 8 ≤ (namedSlots names holds slots s).length) := by
  have hrows : (∀ j : Fin slots.length, (buildTable slots.length holds rows j).length % 2 ^ 8 ≤
      (List.finRange slots.length).countP fun d : Fin slots.length =>
        SortArrays.depends (buildTable slots.length holds rows) d j) ↔
      ∀ s ∈ slots,
        (enabledDeps holds s).length % 2 ^ 8 ≤ (namedSlots names holds slots s).length := by
    have hnamed : ∀ j : Fin slots.length,
        ((List.finRange slots.length).countP fun d : Fin slots.length =>
          SortArrays.depends (buildTable slots.length holds rows) d j) =
          (namedSlots names holds slots slots[j]).length := by
      intro j
      rw [namedSlots, ← List.countP_eq_length_filter]
      congr 1
      funext d
      exact any_buildRow (forall₂_buildTable h j) d
    have hentries : ∀ j : Fin slots.length, (buildTable slots.length holds rows j).length =
        (enabledDeps holds slots[j]).length := fun j => (forall₂_buildTable h j).length_eq.symm
    simp only [hnamed, hentries]
    constructor
    · intro hall s hs
      obtain ⟨i, hi, rfl⟩ := List.getElem_of_mem hs
      exact hall ⟨i, hi⟩
    · exact fun hall j => hall _ (List.getElem_mem _)
  by_cases hacyclic : AcyclicDecls names holds slots
  · have hsucceeds := SortArrays.isOk_iff hn ((acyclic_iff h).mpr hacyclic)
    rw [hrows] at hsucceeds
    simp only [hacyclic, not_true_eq_false, false_or, forall_const, imp_false]
    constructor
    · exact fun hcompiles => hsucceeds.mp hcompiles.1
    · intro hall
      obtain ⟨order, hok⟩ := hsucceeds.mpr hall
      refine ⟨⟨order, hok⟩, fun hcycle => ?_⟩
      rw [hok] at hcycle
      cases hcycle
  · simp [hacyclic]

end Accepted

/-- A node and one that depends on it under either of two predicates. -/
def twice : List SlotDecl :=
  [{}, { deps := [{ cfg := ["wifi"], ident := "LINK" }, { cfg := ["eth"], ident := "LINK" }] }]

def twiceNames (name : String) : Option ℕ :=
  if name = "LINK" then some 0 else if name = "HTTP" then some 1 else none

def twiceTables : List (List RowEntry) := [[], [⟨["wifi"], 0⟩, ⟨["eth"], 0⟩]]

theorem acyclic_twice (holds : String → Bool) : AcyclicDecls twiceNames holds twice := by
  have hearlier : ∀ d j : Fin twice.length,
      d ∈ namedSlots twiceNames holds twice twice[j] → d < j := by
    intro d j hd
    obtain ⟨e, he, hname⟩ := List.any_eq_true.mp (List.mem_filter.mp hd).2
    have hdeps : e ∈ twice[j].deps := (List.mem_filter.mp he).1
    fin_cases j
    · cases hdeps
    · have hlink : e.ident = "LINK" := by
        simp only [twice] at hdeps
        rcases List.mem_pair.mp hdeps with rfl | rfl <;> rfl
      fin_cases d
      · exact Nat.one_pos
      · simp [DepDecl.names, hlink, twiceNames] at hname
  intro j hcycle
  have hlt : TransGen (fun d j : Fin twice.length => d < j) j j :=
    TransGen.mono hearlier j j hcycle
  rw [transGen_eq_self] at hlt
  exact lt_irrefl j hlt

/-- With one of the predicates they compile. -/
theorem acyclic_compiles_iff_twice :
    ∃ order, topoSortConst (buildTable 2 (fun pred => pred == "wifi") twiceTables) =
      .ok order := by
  have haccepted : slotTables twiceNames twice = .ok twiceTables := by decide
  apply ((acyclic_compiles_iff (by decide) haccepted _).mpr _).1 (acyclic_twice _)
  exact Or.inr (by decide)

/-- With both they do not. -/
theorem acyclic_refused :
    ¬ ∀ (names : String → Option ℕ) (slots : List SlotDecl) (rows : List (List RowEntry))
      (holds : String → Bool), slots.length ≤ 256 →
      slotTables names slots = .ok rows → AcyclicDecls names holds slots →
      ∃ order, topoSortConst (buildTable slots.length holds rows) = .ok order := by
  intro hall
  obtain ⟨order, hok⟩ := hall twiceNames twice twiceTables (fun _ => true)
    (by decide) (by decide) (acyclic_twice _)
  have hcycle : (topoSortConst (buildTable 2 (fun _ => true) twiceTables)).toBool = false := by
    decide
  rw [show topoSortConst (buildTable 2 (fun _ => true) twiceTables) = .ok order from hok]
    at hcycle
  cases hcycle

end EmbassySupervisor
