/-
# The dataflow lints

The linter puts down who writes and who reads each signal: first what the items declare, then
what the functions bound to them are found to access. A found access lands on the spelling that
is there already and may name the same signal.

An element of an array and the whole array are two signals that cover each other: the sides of
one are merged into the other, link after link. A signal left with one side is reported.
-/

import EmbassySupervisor.Lib.FirstSeen
import EmbassySupervisor.Macro.Scan
import EmbassySupervisor.Macro.SlotPlan

namespace EmbassySupervisor.Lint

open FirstSeen

structure LintCats where
  orphanReads : Bool := false
  deadWrites : Bool := false

structure Discovered where
  module : String
  access : Access
  relative : Bool

structure Bundle where
  module : String
  modName : String
  name : String
  fns : List String

/-- A declaration with the module of its file. -/
structure Model where
  graphModule : String
  items : List Decl.Item

/-! ## Names of functions -/

/-- The items that are drawn as a box. -/
def boxedName : Decl.Item → Option String
  | .node n => some n.ident
  | .pool p => some p.ident
  | .executor _ => none

def signalsOf : Decl.Item → List (Bool × Decl.SignalDecl)
  | .node n => n.writes.map (true, ·) ++ n.reads.map (false, ·)
  | .pool p => p.writes.map (true, ·) ++ p.reads.map (false, ·)
  | .executor _ => []

/-- A function by its name, and the module in front of it. -/
def splitFn (segments : List String) : Option (String × Option String) :=
  match segments.reverse with
  | [] => none
  | [name] => some (name, none)
  | name :: m :: _ => some (name, if m = "crate" ∨ m = "self" ∨ m = "super" then none else some m)

def Discovered.matches (d : Discovered) (funcs : List (String × Option String))
    (graphModule : String) : Bool :=
  funcs.any fun f => f.1 = d.access.func ∧
    f.2.all fun hint => hint = d.module ∨ d.module = graphModule

def expandBundles (bundles : List Bundle) (pairs : List (String × Option String)) :
    List (String × Option String) :=
  pairs.flatMap fun f =>
    let hit := bundles.find? fun b =>
      b.name = f.1 ∧ f.2.all fun hint => hint = b.modName ∨ hint = b.module
    match hit with
    | some b => b.fns.map (·, some b.module)
    | none => [f]

section Sources

-- The segments of the path that an expression names, or calls.
variable (segments : Decl.Tokens → Option (List String))

def taskFnSegments : Decl.Item → Option (List String)
  | .node n => n.source.bind fun
    | .spawn e => segments e
    | .shell e => segments e
  | .pool p =>
    match p.source with
    | .spawn e => segments e
    | .shell e => segments e
  | .executor _ => none

def adopted : Decl.Item → List Decl.Path
  | .node n => n.dataflow.map (·.2)
  | .pool p => p.dataflow.map (·.2)
  | .executor _ => []

def dataflowFnSources (item : Decl.Item) : List (String × Option String) :=
  ((taskFnSegments segments item).bind splitFn).toList ++
    (adopted item).filterMap fun path => splitFn path.segments

end Sources

/-! ## Spellings -/

def stripCrate (s : String) : List Char :=
  let prefixed := "crate::".toList
  if prefixed <+: s.toList then s.toList.drop prefixed.length else s.toList

/-- One path is the other, or its end from some segment on. -/
def segmentSuffix (a b : List Char) : Bool :=
  a = b ∨ ':' :: ':' :: b <:+ a ∨ ':' :: ':' :: a <:+ b

def pathsAlias (a b : String) : Bool := segmentSuffix (stripCrate a) (stripCrate b)

def allowMatches (key allowed : String) : Bool :=
  segmentSuffix (stripCrate key) (stripCrate allowed)

/-- The signal that a found access lands in. -/
def discoveredKey (d : Discovered) (emitted declared : List String) : String :=
  let raw := d.access.path
  if d.relative = false then (emitted.find? (pathsAlias · raw)).getD raw
  else
    let qualified := d.module ++ "::" ++ raw
    match emitted.find? (pathsAlias · qualified) with
    | some k => k
    | none =>
      match declared.filter (pathsAlias · raw) with
      | [k] => k
      | _ => qualified

def whiteSpace (c : Char) : Bool :=
  let n := c.toNat
  (9 ≤ n ∧ n ≤ 13) ∨ n = 0x20 ∨ n = 0x85 ∨ n = 0xa0 ∨ n = 0x1680 ∨ (0x2000 ≤ n ∧ n ≤ 0x200a) ∨
    n = 0x2028 ∨ n = 0x2029 ∨ n = 0x202f ∨ n = 0x205f ∨ n = 0x3000

def trimEnd (l : List Char) : List Char := (l.reverse.dropWhile whiteSpace).reverse

/-- What stands before the index of an element. -/
def elementBase (key : String) : Option (List Char) :=
  if '[' ∈ key.toList then some (trimEnd (key.toList.takeWhile (· ≠ '['))) else none

/-- A key without an index that may name the array. -/
def namesWhole (base : List Char) (key : String) : Bool :=
  '[' ∉ key.toList ∧ segmentSuffix key.toList base

def elementLinks (order : List String) : List (String × String) :=
  order.filterMap fun key => do
    let base ← elementBase key
    let whole ← order.find? (namesWhole base)
    return (key, whole)

/-! ## Sides -/

structure Sides where
  writers : List String := []
  readers : List String := []
  monitorConsumed : Bool := false

def Sides.list (s : Sides) (write : Bool) : List String := if write then s.writers else s.readers

structure Note where
  key : String
  node : String
  write : Bool
  monitor : Bool

def Sides.add (s : Sides) (n : Note) : Sides where
  writers := if n.write then addNew s.writers n.node else s.writers
  readers := if n.write then s.readers else addNew s.readers n.node
  monitorConsumed := s.monitorConsumed || n.monitor

def Sides.addAll (dst src : Sides) : Sides :=
  { dst with
    writers := src.writers.foldl addNew dst.writers
    readers := src.readers.foldl addNew dst.readers }

/-- The signals in the order of their first notes, and their sides. -/
structure Noted where
  order : List String := []
  sides : String → Option Sides := fun _ => none

namespace Noted

/-- The sides of a key. The source stops on a key without an entry: there is none in `order`
(`Noted.Of.isSome_of_mem`), and it asks for no other. -/
def get (st : Noted) (key : String) : Sides := (st.sides key).getD {}

def set (st : Noted) (key : String) (s : Sides) : Noted :=
  { st with sides := Function.update st.sides key (some s) }

def note (st : Noted) (n : Note) : Noted where
  order := if (st.sides n.key).isSome then st.order else st.order ++ [n.key]
  sides := Function.update st.sides n.key (some ((st.get n.key).add n))

def mergeInto (st : Noted) (source target : String) : Noted :=
  st.set target ((st.get target).addAll (st.get source))

def mergeLink (st : Noted) (link : String × String) : Noted :=
  (st.mergeInto link.1 link.2).mergeInto link.2 link.1

def linked (st : Noted) : Noted := (elementLinks st.order).foldl mergeLink st

end Noted

/-! ## The passes over a declaration -/

structure LintState where
  noted : Noted := {}
  declaredBoxes : List String := []
  emitted : List String := []

section Passes

variable (syn : ExprSyntax) (segments : Decl.Tokens → Option (List String))
  (discovered : List Discovered) (bundles : List Bundle)

def declaredNote (name : String) (entry : Bool × Decl.SignalDecl) : Note where
  key := entry.2.display syn
  node := name
  write := entry.1
  monitor := entry.1 && (entry.2.observed || entry.2.beat)

def noteDeclared (name : String) (st : LintState) (entry : Bool × Decl.SignalDecl) : LintState :=
  { st with
    noted := st.noted.note (declaredNote syn name entry)
    declaredBoxes := addNew st.declaredBoxes (entry.2.display syn) }

def declareItem (st : LintState) (item : Decl.Item) : LintState :=
  match boxedName item with
  | none => st
  | some name => (signalsOf item).foldl (noteDeclared syn name) st

def foundNote (name key : String) (a : Access) : Note where
  key := key
  node := name
  write := a.write
  monitor := a.write && "beat".toList <+: a.verb.toList

def landFound (name : String) (st : LintState) (d : Discovered) : LintState :=
  let key := discoveredKey d st.emitted st.declaredBoxes
  { st with
    noted := st.noted.note (foundNote name key d.access)
    emitted := addNew st.emitted key }

/-- The accesses of the item that were seen before are kept beside the state. -/
def noteFound (funcs : List (String × Option String)) (graphModule name : String)
    (st : LintState × List (Bool × String)) (d : Discovered) :
    LintState × List (Bool × String) :=
  if d.matches funcs graphModule = false ∨
      st.2.any (fun seen => seen.1 = d.access.write ∧ seen.2 = d.access.path) then st
  else (landFound name st.1 d, st.2 ++ [(d.access.write, d.access.path)])

def discoverItem (graphModule : String) (st : LintState) (item : Decl.Item) : LintState :=
  match boxedName item with
  | none => st
  | some name =>
    let funcs := expandBundles bundles (dataflowFnSources segments item)
    if funcs = [] then st else (discovered.foldl (noteFound funcs graphModule name) (st, [])).1

def lintPasses (m : Model) : LintState :=
  let st := m.items.foldl (declareItem syn) {}
  m.items.foldl (discoverItem segments discovered bundles m.graphModule)
    { st with emitted := st.declaredBoxes }

end Passes

/-! ## Reports -/

inductive Warning
  | orphanRead (key : String) (readers : List String)
  | deadWrite (key : String) (writers : List String)
  | staleAllow (allowed : String)

def Warning.text : Warning → String
  | .orphanRead key readers =>
    "orphan read: `" ++ key ++ "` is read by " ++ ", ".intercalate readers ++
      " but nothing in this graph writes it"
  | .deadWrite key writers =>
    "dead write: `" ++ key ++ "` is written by " ++ ", ".intercalate writers ++
      " but nothing in this graph reads it"
  | .staleAllow allowed =>
    "`--allow " ++ allowed ++ "` suppressed nothing — a stale entry, or a typo'd signal"

structure Report where
  warnings : List Warning := []
  allowHit : List Bool

section Report

variable (cats : LintCats) (allow : List String)

def Sides.orphan (s : Sides) : Bool := cats.orphanReads ∧ s.writers = [] ∧ s.readers ≠ []

def Sides.dead (s : Sides) : Bool :=
  cats.deadWrites ∧ s.readers = [] ∧ s.writers ≠ [] ∧ s.monitorConsumed = false

def findings (key : String) (s : Sides) : List Warning :=
  (if s.orphan cats then [.orphanRead key s.readers] else []) ++
    if s.dead cats then [.deadWrite key s.writers] else []

def lintKey (st : Noted) (report : Report) (key : String) : Report :=
  let s := st.get key
  if s.orphan cats = false ∧ s.dead cats = false then report
  else
    match allow.findIdx? (allowMatches key) with
    | some i => { report with allowHit := report.allowHit.set i true }
    | none => { report with warnings := report.warnings ++ findings cats key s }

variable (syn : ExprSyntax) (segments : Decl.Tokens → Option (List String))
  (discovered : List Discovered) (bundles : List Bundle)

def lintModel (report : Report) (m : Model) : Report :=
  let st := (lintPasses syn segments discovered bundles m).noted.linked
  st.order.foldl (lintKey cats allow st) report

def warningsOf (models : List Model) : List Warning :=
  let report := models.foldl (lintModel cats allow syn segments discovered bundles)
    { allowHit := allow.map fun _ => false }
  report.warnings ++ (allow.zip report.allowHit).filterMap fun a =>
    if a.2 then none else some (.staleAllow a.1)

def dataflowLints (models : List Model) : List String :=
  (warningsOf cats allow syn segments discovered bundles models).map Warning.text

end Report

end EmbassySupervisor.Lint
