/-
# Declared items

A `node` or `pool` declaration is a list of clauses, each possibly behind `#[cfg]`s. The
parser takes them one after the other, refuses a clause given twice, and then checks what
clauses ask of each other.

The grammar within a clause (an expression, a type, a path, a literal) is the compiler's
parser's: here a declaration starts as its clauses.
-/

import EmbassySupervisor.Macro.DataflowAttr
import EmbassySupervisor.Shell.Shell

namespace EmbassySupervisor.Decl

open TokenTree

/-- An expression or a type, as tokens. -/
abbrev Tokens := List TokenTree

structure Path where
  leadingColon : Bool := false
  segments : List String
  deriving DecidableEq

def pathToString (p : Path) : String :=
  (if p.leadingColon then "::" else "") ++ "::".intercalate p.segments

/-- A clause value together with the attributes gating it. -/
structure Gated (α : Type) where
  cfg : List AttrMeta
  value : α

/-! ## Entries of lists -/

/-- An entry of `deps:` as written. -/
structure RawDep where
  cfg : List AttrMeta := []
  ident : String
  markers : List String := []

structure Dep where
  cfg : List AttrMeta
  ident : String
  ready : Bool := false
  bound : Bool := false

def addDepMarker (d : Dep) (marker : String) : Except String Dep :=
  if marker = "ready" then
    if d.ready then .error ("duplicate `" ++ marker ++ "` marker on this dep")
    else .ok { d with ready := true }
  else if marker = "bound" then
    if d.bound then .error ("duplicate `" ++ marker ++ "` marker on this dep")
    else .ok { d with bound := true }
  else
    .error ("expected `,`, `]`, or a dep marker (`ready`, `bound`), found `" ++ marker ++ "`")

def parseDep (raw : RawDep) : Except String Dep := do
  let d ← raw.markers.foldlM addDepMarker { cfg := raw.cfg, ident := raw.ident }
  if d.bound ∧ d.ready = false then
    .error "`bound` implies `ready` — write `deps: [X ready bound]`"
  else return d

/-- An entry of `reads:` or `writes:` as written: its markers, and what follows a `via` after
them. -/
structure RawSignal where
  cfg : List AttrMeta := []
  path : Path
  index : Option Tokens := none
  markers : List String := []
  via : Option Tokens := none

structure SignalDecl where
  cfg : List AttrMeta
  path : Path
  index : Option Tokens
  observed : Bool := false
  beat : Bool := false
  veto : Bool := false
  via : Option Tokens := none

def addMarker (d : SignalDecl) (marker : String) : Except String SignalDecl :=
  let duplicate := "duplicate `" ++ marker ++ "` marker"
  if marker = "observed" then
    if d.observed then .error duplicate else .ok { d with observed := true }
  else if marker = "beat" then
    if d.beat then .error duplicate else .ok { d with beat := true }
  else if marker = "veto" then
    if d.veto then .error duplicate else .ok { d with veto := true }
  else
    .error ("expected `,`, `]`, or the `observed`/`beat`/`veto` markers, found `" ++ marker ++ "`")

def viaError : String :=
  "`via` supplies the accessor an `observed` entry polls, which only an `observed` entry has: " ++
    "write `observed via <expr>`. `beat` only ever qualifies `observed`, and a heartbeat the " ++
    "body can state is stated by its verb"

def bareBeatError : String :=
  "a bare `beat` entry is not a declaration: write the heartbeat at the site that produces it, " ++
    "with `node.beat_put(&SIG, v)` / `node.beat_writer(&SIG)` or a `node.beat()` call in the " ++
    "body. `observed beat` is the form for a body the supervisor cannot see"

def parseSignal (raw : RawSignal) : Except String SignalDecl := do
  let d ← raw.markers.foldlM addMarker { cfg := raw.cfg, path := raw.path, index := raw.index }
  if raw.via.isSome ∧ d.observed = false then .error viaError
  else if d.beat ∧ d.observed = false then .error bareBeatError
  else return { d with via := raw.via }

section Signals

variable (syn : ExprSyntax)

def SignalDecl.display (d : SignalDecl) : String :=
  pathToString d.path ++
    match d.index with
    | some i => "[" ++ syn.tokensText i ++ "]"
    | none => ""

/-- The entries of a list in turn, with those before each. -/
def checkEntries (name : String) (before : List SignalDecl) :
    List SignalDecl → Except String Unit
  | [] => .ok ()
  | d :: rest =>
    if before.any (·.display syn = d.display syn) then
      .error ("duplicate `" ++ name ++ ":` entry `" ++ d.display syn ++ "`")
    else if before.any fun e => pathToString e.path = pathToString d.path ∧
        e.index.isSome ≠ d.index.isSome then
      .error ("`" ++ pathToString d.path ++ "` is declared both as a whole array and by " ++
        "element — pick one. An element-0 reference has the same address as the array, so " ++
        "nothing downstream can tell them apart")
    else checkEntries name (before ++ [d]) rest

def checkSignalList (name : String) (decls : List SignalDecl) : Except String Unit :=
  if decls = [] then
    .error ("`" ++ name ++ ":` must declare at least one signal path — omit the clause " ++
      "entirely to declare nothing")
  else checkEntries syn name [] decls

end Signals

/-- An entry of `resources:` as written: its kind markers, and the type behind them. -/
structure RawResource where
  cfg : List AttrMeta := []
  ident : String
  markers : List String := []
  ty : Option Tokens := none

structure ResourceDecl where
  cfg : List AttrMeta
  ident : String
  ty : Option Tokens := none
  localMark : Bool := false
  consume : Bool := false
  shared : Bool := false
  divisible : Bool := false
  serialized : Bool := false

def ResourceDecl.kind (r : ResourceDecl) : ResourceKind :=
  if r.divisible then .divisible
  else if r.shared then .shared
  else if r.consume then .consume
  else .lend

def addKindMarker (r : ResourceDecl) (marker : String) : Except String ResourceDecl :=
  let duplicate := "duplicate `" ++ marker ++ "` marker"
  if marker = "local" then
    if r.localMark then .error duplicate else .ok { r with localMark := true }
  else if marker = "consume" then
    if r.consume then .error duplicate else .ok { r with consume := true }
  else if marker = "shared" then
    if r.shared then .error duplicate else .ok { r with shared := true }
  else if marker = "divisible" then
    if r.divisible then .error duplicate else .ok { r with divisible := true }
  else if marker = "serialized" then
    if r.serialized then .error duplicate else .ok { r with serialized := true }
  else .error "expected a type"

def consumeSharedError : String :=
  "`consume` and `shared` are mutually exclusive — `consume` takes the single value out for one " ++
    "owner, `shared` copies it out to any number of consumers"

def divisibleMarkerError (other : String) : String :=
  "`divisible` is its own kind and takes no other marker: `" ++ other ++ "` describes how one " ++
    "value is handed over, `divisible` declares a budget of units the holder claims a share of"

def serializedError : String :=
  "`serialized` only qualifies `shared` — a slot with a single holder cannot be contended, so " ++
    "there is nothing to serialize"

def divisibleTypeError : String :=
  "`divisible` takes no type — the slot is a `Budget<K>` the graph sizes to its declaring nodes " ++
    "and pool members"

def parseResource (raw : RawResource) : Except String ResourceDecl := do
  let r ← raw.markers.foldlM addKindMarker { cfg := raw.cfg, ident := raw.ident }
  if r.consume ∧ r.shared then .error consumeSharedError
  else if r.divisible ∧ r.localMark then .error (divisibleMarkerError "local")
  else if r.divisible ∧ r.consume then .error (divisibleMarkerError "consume")
  else if r.divisible ∧ r.shared then .error (divisibleMarkerError "shared")
  else if r.serialized ∧ r.shared = false then .error serializedError
  else if r.divisible then
    if raw.ty.isSome then .error divisibleTypeError else return r
  else if raw.ty.isNone then .error "expected a type"
  else return { r with ty := raw.ty }

/-! ## Clauses -/

inductive StateInit
  | expr (e : Tokens)
  | zeroed

/-- A clause as written, behind its keyword. Literals are the numbers they spell. -/
inductive Clause
  | spawn (e : Tokens)
  | task (e : Tokens)
  | executor (ident : String)
  | resources (entries : List RawResource)
  | reads (entries : List RawSignal)
  | writes (entries : List RawSignal)
  | state (ty : Tokens) (init : StateInit)
  | slotTimeout (ms : ℕ)
  | ackTimeout (ms : ℕ)
  | discover (colon : Bool)
  | dataflow (fns : List (List AttrMeta × Path))
  | cancel
  | deps (entries : List RawDep)
  | poolSize
  | disabled
  | readyOnWrite
  | beatTimeout (ms : ℕ)
  | beatWindow (sweeps : ℕ)
  | enabledIf (e : Tokens)
  | restartBudget (max window : ℕ)
  | exit (ty : Tokens)
  | provides (entries : List (List AttrMeta × String))
  | policy (ty : Option Tokens) (e : Tokens)
  | min (e : Tokens)
  | max (e : Tokens)
  | other

inductive ClauseHost
  | node
  | pool

def gateable : ClauseHost → Clause → Bool
  | _, .slotTimeout _ => true
  | _, .ackTimeout _ => true
  | _, .discover _ => true
  | .node, .beatTimeout _ => true
  | .node, .beatWindow _ => true
  | .node, .enabledIf _ => true
  | .node, .restartBudget _ _ => true
  | .node, .readyOnWrite => true
  | .node, .disabled => true
  | _, _ => false

def gateError : ClauseHost → String
  | .node =>
    "`#[cfg(...)]` may only gate `slot_timeout:`, `ack_timeout:`, `beat_timeout:`, " ++
      "`beat_window:`, `enabled_if:`, `restart_budget:`, `ready_on_write`, `disabled`, or " ++
      "`discover` — gate the whole node, or a single entry inside " ++
      "`deps:`/`resources:`/`reads:`/`writes:`/`dataflow:`/`provides:`, for anything structural"
  | .pool =>
    "`#[cfg(...)]` may only gate `slot_timeout:`, `ack_timeout:`, or `discover` — gate the " ++
      "whole pool, or a single entry inside `deps:`/`resources:`/`reads:`/`writes:`/`dataflow:`, " ++
      "for anything structural"

def requireCfgList (what : String) (a : AttrMeta) : Except String Unit :=
  match a with
  | .list p _ _ _ =>
    if p = [.ident "cfg"] then .ok ()
    else .error ("only `#[cfg(...)]` attributes may gate a " ++ what)
  | _ => .error ("only `#[cfg(...)]` attributes may gate a " ++ what)

def parseClauseCfg (host : ClauseHost) (attrs : List AttrMeta) (clause : Clause) :
    Except String Unit :=
  if attrs = [] then .ok ()
  else do
    attrs.forM (requireCfgList "clause")
    if gateable host clause then return () else .error (gateError host)

/-- `base10_parse::<u64>`. -/
def parseU64 (lit : ℕ) : Except String ℕ :=
  if lit < 2 ^ 64 then .ok lit else .error "number too large to fit in target type"

def dupClause (name : String) : String :=
  "duplicate `" ++ name ++ ":` clause — one declaration is the contract"

def dupMarker (name : String) : String := "duplicate `" ++ name ++ "` marker"

/-- A clause that may be given once. -/
def once {α : Type} (slot : Option α) (error : String) (value : α) : Except String (Option α) :=
  if slot.isSome then .error error else .ok (some value)

structure CommonClauses where
  executor : Option String := none
  spawn : Option Tokens := none
  task : Option Tokens := none
  resources : Option (List ResourceDecl) := none
  reads : List SignalDecl := []
  writes : List SignalDecl := []
  state : Option (Tokens × StateInit) := none
  slotTimeout : Option (Gated ℕ) := none
  ackTimeout : Option (Gated ℕ) := none
  cancel : Bool := false
  discover : Option (Gated Unit) := none
  dataflow : Option (List (List AttrMeta × Path)) := none

/-- A list of signals; a list that is not empty has been given already. -/
def parseSignalClause (syn : ExprSyntax) (name : String) (before : List SignalDecl)
    (entries : List RawSignal) : Except String (List SignalDecl) :=
  if before ≠ [] then .error (dupClause name)
  else do
    let decls ← entries.mapM parseSignal
    checkSignalList syn name decls
    return decls

/-- A timeout in milliseconds. -/
def parseTimeout (name : String) (slot : Option (Gated ℕ)) (cfg : List AttrMeta) (ms : ℕ) :
    Except String (Option (Gated ℕ)) :=
  if slot.isSome then .error (dupClause name)
  else do
    let value ← parseU64 ms
    if value = 0 then .error ("`" ++ name ++ ":` must be at least 1 (milliseconds)")
    else return some { cfg, value := ms }

def discoverColonError : String :=
  "`discover` takes no argument — the tables come from the task fn's `#[dataflow]` attribute, " ++
    "sized by its scan"

def adoptTwiceError : String := "duplicate `dataflow:` fn — one adoption binds its tables"

def adoptNoneError : String :=
  "`dataflow:` must name at least one `#[dataflow]` fn — omit the clause entirely to adopt nothing"

/-- The functions adopted, none twice. -/
def parseAdopted (before : List (List AttrMeta × Path)) :
    List (List AttrMeta × Path) → Except String (List (List AttrMeta × Path))
  | [] => .ok before
  | f :: rest =>
    if before.any (·.2 = f.2) then .error adoptTwiceError else parseAdopted (before ++ [f]) rest

/-- The next clause, where it is one that nodes and pools share. -/
def CommonClauses.parseOne (syn : ExprSyntax) (c : CommonClauses) (cfg : List AttrMeta) :
    Clause → Except String (Option CommonClauses)
  | .spawn e => do
    let spawn ← once c.spawn (dupClause "spawn") e
    return some { c with spawn }
  | .task e => do
    let task ← once c.task (dupClause "task") e
    return some { c with task }
  | .executor name => do
    let executor ← once c.executor (dupClause "executor") name
    return some { c with executor }
  | .resources entries =>
    if c.resources.isSome then .error (dupClause "resources")
    else do
      let decls ← entries.mapM parseResource
      return some { c with resources := some decls }
  | .reads entries => do
    let reads ← parseSignalClause syn "reads" c.reads entries
    return some { c with reads }
  | .writes entries => do
    let writes ← parseSignalClause syn "writes" c.writes entries
    return some { c with writes }
  | .state ty init => do
    let state ← once c.state (dupClause "state") (ty, init)
    return some { c with state }
  | .slotTimeout ms => do
    let slotTimeout ← parseTimeout "slot_timeout" c.slotTimeout cfg ms
    return some { c with slotTimeout }
  | .ackTimeout ms => do
    let ackTimeout ← parseTimeout "ack_timeout" c.ackTimeout cfg ms
    return some { c with ackTimeout }
  | .discover colon =>
    if c.discover.isSome then .error (dupMarker "discover")
    else if colon then .error discoverColonError
    else .ok (some { c with discover := some { cfg, value := () } })
  | .dataflow fns =>
    if c.dataflow.isSome then .error (dupClause "dataflow")
    else do
      let adopted ← parseAdopted [] fns
      if adopted = [] then .error adoptNoneError
      else return some { c with dataflow := some adopted }
  | .cancel => if c.cancel then .error (dupMarker "cancel") else .ok (some { c with cancel := true })
  | _ => .ok none

inductive TaskSource
  | spawn (e : Tokens)
  | shell (e : Tokens)

def taskSourceError : String :=
  "`task:` and `spawn:` are mutually exclusive — `spawn:` names a hand-written " ++
    "`#[embassy_executor::task]` fn, `task:` generates one"

def taskSource : Option Tokens → Option Tokens → Except String (Option TaskSource)
  | some _, some _ => .error taskSourceError
  | some e, none => .ok (some (.spawn e))
  | none, some e => .ok (some (.shell e))
  | none, none => .ok none

def depsError : String := "duplicate `deps:` clause — one list declares them all"

def commonClauseNames : String :=
  "`task:`, `spawn:`, `executor:`, `resources:`, `reads:`, `writes:`, `discover`, `dataflow:`, " ++
    "`state:`, `slot_timeout:`, `ack_timeout:`, `cancel`"

end EmbassySupervisor.Decl
