/-
# Parsing declared items

`parse_node` and `parse_pool`: the loop over the clauses, and behind it the checks of what
clauses ask of each other, in the order of the source. A check looks at the declaration with
all its gates present, and at gates as text.
-/

import EmbassySupervisor.Macro.Clauses

namespace EmbassySupervisor.Decl

open TokenTree

/-! ## Nodes -/

structure NodeInput where
  cfg : List AttrMeta := []
  ident : String
  mode : String
  clauses : List (List AttrMeta × Clause)

structure NodeClauses where
  common : CommonClauses := {}
  deps : Option (List Dep) := none
  disabled : Option (Gated Unit) := none
  beatTimeout : Option (Gated ℕ) := none
  beatWindow : Option (Gated ℕ) := none
  enabledIf : Option (Gated Tokens) := none
  restartBudget : Option (Gated (ℕ × ℕ)) := none
  readyOnWrite : Option (Gated Unit) := none
  exit : Option Tokens := none
  provides : List (List AttrMeta × String) := []

structure NodeItem where
  cfg : List AttrMeta
  ident : String
  mode : String
  deps : List Dep
  source : Option TaskSource
  disabled : Option (Gated Unit)
  executor : Option String
  resources : List ResourceDecl
  slotTimeout : Option (Gated ℕ)
  ackTimeout : Option (Gated ℕ)
  beatTimeout : Option (Gated ℕ)
  beatWindow : Option (Gated ℕ)
  enabledIf : Option (Gated Tokens)
  restartBudget : Option (Gated (ℕ × ℕ))
  readyOnWrite : Option (Gated Unit)
  reads : List SignalDecl
  writes : List SignalDecl
  exit : Option Tokens
  state : Option (Tokens × StateInit)
  cancel : Bool
  discover : Option (Gated Unit)
  dataflow : List (List AttrMeta × Path)
  provides : List (List AttrMeta × String)

def poolSizeError : String :=
  "`pool_size:` was removed: a `task:` shell is resident (spawned once, restarted in place), so " ++
    "a node never needs a second task slot — delete the clause"

def budgetMaxZeroError : String :=
  "`restart_budget:` max must be at least 1 — omit the clause to leave restarts unbudgeted"

def budgetMaxError : String := "`restart_budget:` max must fit a u16 (at most 65535)"

def budgetWindowError : String :=
  "`restart_budget:` window must be at least 1 (milliseconds)"

def provideTwiceError : String := "duplicate `provides:` slot — one entry clears it"

def provideNoneError : String :=
  "`provides:` must name at least one resource slot — omit the clause entirely to provide nothing"

def nodeClauseError : String :=
  "expected " ++ commonClauseNames ++ ", `deps:`, `beat_timeout:`, `beat_window:`, " ++
    "`enabled_if:`, `restart_budget:`, `ready_on_write`, `exit:`, `provides:`, or `disabled`"

def parseBudget (slot : Option (Gated (ℕ × ℕ))) (cfg : List AttrMeta) (max window : ℕ) :
    Except String (Option (Gated (ℕ × ℕ))) :=
  if slot.isSome then .error (dupClause "restart_budget")
  else do
    let maxN ← parseU64 max
    if maxN = 0 then .error budgetMaxZeroError
    else if maxN > 65535 then .error budgetMaxError
    else do
      let windowN ← parseU64 window
      if windowN = 0 then .error budgetWindowError
      else return some { cfg, value := (max, window) }

def parseProvides (before : List (List AttrMeta × String)) :
    List (List AttrMeta × String) → Except String (List (List AttrMeta × String))
  | [] => .ok before
  | p :: rest => do
    p.1.forM (requireCfgList "`provides:` entry")
    if before.any (·.2 = p.2) then .error provideTwiceError else parseProvides (before ++ [p]) rest

section Node

variable (syn : ExprSyntax)

/-- One clause of a node. -/
def parseNodeClause (st : NodeClauses) (c : List AttrMeta × Clause) :
    Except String NodeClauses := do
  parseClauseCfg .node c.1 c.2
  match ← st.common.parseOne syn c.1 c.2 with
  | some common => return { st with common }
  | none =>
    match c.2 with
    | .deps entries =>
      if st.deps.isSome then .error depsError
      else do
        let deps ← entries.mapM parseDep
        return { st with deps := some deps }
    | .poolSize => .error poolSizeError
    | .disabled => do
      let disabled ← once st.disabled (dupMarker "disabled") { cfg := c.1, value := () }
      return { st with disabled }
    | .readyOnWrite => do
      let readyOnWrite ←
        once st.readyOnWrite (dupMarker "ready_on_write") { cfg := c.1, value := () }
      return { st with readyOnWrite }
    | .beatTimeout ms => do
      let beatTimeout ←
        once st.beatTimeout (dupClause "beat_timeout") { cfg := c.1, value := ms }
      return { st with beatTimeout }
    | .beatWindow sweeps => do
      let beatWindow ←
        once st.beatWindow (dupClause "beat_window") { cfg := c.1, value := sweeps }
      return { st with beatWindow }
    | .enabledIf e => do
      let enabledIf ← once st.enabledIf (dupClause "enabled_if") { cfg := c.1, value := e }
      return { st with enabledIf }
    | .restartBudget max window => do
      let restartBudget ← parseBudget st.restartBudget c.1 max window
      return { st with restartBudget }
    | .exit ty => return { st with exit := some ty }
    | .provides entries => do
      let provides ← parseProvides st.provides entries
      if provides = [] then .error provideNoneError else return { st with provides }
    | _ => .error nodeClauseError

/-! ## What the clauses of a node ask of each other -/

def require (holds : Bool) (error : String) : Except String Unit :=
  if holds then .ok () else .error error

/-- The token text of some attributes, without blanks. -/
def cfgText (attrs : List AttrMeta) : String :=
  ",".intercalate (attrs.map fun a =>
    syn.tokensText [.punct '#' .alone, .group .bracket a.toTokens])

def beatTimeoutError : String :=
  "`beat_timeout:` must be at least 1 (milliseconds) — omit the clause to leave the node unpoliced"

def windowTimeoutError : String :=
  "`beat_window:` requires `beat_timeout:` — the window counts consecutive sweeps that found the " ++
    "node past its beat budget"

def windowRangeError : String :=
  "`beat_window:` must be in 1..=255 — omit the clause for the default of 1, which reports on " ++
    "the first stale sweep"

def windowGateError : String :=
  "`beat_window:` must carry the same `#[cfg]` predicate as its `beat_timeout:` — the window " ++
    "counts sweeps of a budget that gate compiles out"

def readyGateError : String :=
  "`ready_on_write` must carry the same `#[cfg]` predicate as its `beat_timeout:` — readiness is " ++
    "asserted by the monitor sweep, which that gate compiles out"

def readBeatError : String :=
  "`beat` belongs on a `writes:` entry — a node's heartbeat is something it produces, not " ++
    "something it consumes"

def readVetoError : String :=
  "`veto` belongs on a `writes:` entry — a veto is something a node asserts, not something it " ++
    "consumes"

def discoverEntryError : String :=
  "beside `discover`, a `reads:`/`writes:` entry may only add markers (`observed`, `beat`) to a " ++
    "signal the task fn already accesses — this one carries none, so it would declare a coupling " ++
    "the scan did not find. Drop the entry, or drop `discover` and declare the whole relation"

def discoverSourceError : String :=
  "`discover` needs a `task:`/`spawn:` fn to take its tables from — a parked node has nothing to " ++
    "scan"

def readyEntryError : String :=
  "`ready_on_write` requires an `observed beat` entry in `writes:` — the sweep's own poll of " ++
    "that write is what asserts the readiness. A body that beats through its verbs asserts " ++
    "readiness itself, with `set_ready()` at the same write"

def readyTimeoutError : String :=
  "`ready_on_write` requires `beat_timeout:` — readiness is asserted from the monitor sweep, " ++
    "which only visits nodes that declare a beat budget"

def resourcesTaskError : String :=
  "`resources:` requires `task:` — resources are handed to the generated shell as owned " ++
    "arguments and restored by it; a `spawn:` task fn manages its own arguments"

def resourcesNoneError : String :=
  "`resources:` must declare at least one `NAME: Type` entry"

def stateTaskError : String :=
  "`state:` requires `task:` — the generated shell owns the boxed state across the worker call " ++
    "and drops it on exit; a `spawn:` task fn can Box its own state"

def exitTaskError : String :=
  "`exit:` requires `task:` — the generated shell is what captures the worker's return value; a " ++
    "`spawn:` task fn can provide() into a slot itself"

def cancelTaskError : String :=
  "`cancel` requires `task:` — it wraps the generated shell's call to the worker; a `spawn:` " ++
    "task fn can call `node.run_cancellable(..)` itself"

def cancelPauseError : String :=
  "`cancel` cannot be combined with `Mode::Pause` — a Pause worker must survive the stop and " ++
    "park on `wait_resume()`, but `cancel` drops its future and records an exit; use " ++
    "`Mode::Terminate` (or `OnDemand`), or drive the pause by hand in the worker"

namespace NodeClauses

variable (st : NodeClauses)

def checkBeatTimeout : Except String Unit :=
  match st.beatTimeout with
  | none => .ok ()
  | some bt => do
    let ms ← parseU64 bt.value
    require (ms ≠ 0) beatTimeoutError

def checkBeatWindow : Except String Unit :=
  match st.beatWindow with
  | none => .ok ()
  | some bw => do
    require st.beatTimeout.isSome windowTimeoutError
    let sweeps ← parseU64 bw.value
    require (1 ≤ sweeps ∧ sweeps ≤ 255) windowRangeError

/-- A clause that depends on a gated `beat_timeout:` reads the same gate. -/
def checkGate {α : Type} (bt : Gated ℕ) (error : String) : Option (Gated α) → Except String Unit
  | none => .ok ()
  | some c => require (cfgText syn c.cfg = cfgText syn bt.cfg) error

def checkGates : Except String Unit :=
  match st.beatTimeout with
  | none => .ok ()
  | some bt =>
    if bt.cfg = [] then .ok ()
    else do
      checkGate syn bt windowGateError st.beatWindow
      checkGate syn bt readyGateError st.readyOnWrite

def checkReads : Except String Unit := do
  require (st.common.reads.all fun d => !d.beat) readBeatError
  require (st.common.reads.all fun d => !d.veto) readVetoError

def checkDiscover : Except String Unit :=
  match st.common.discover with
  | none => .ok ()
  | some _ => do
    require ((st.common.reads ++ st.common.writes).all fun d => d.observed || d.beat || d.veto)
      discoverEntryError
    require (st.common.spawn.isSome || st.common.task.isSome) discoverSourceError

def checkReadyOnWrite : Except String Unit :=
  match st.readyOnWrite with
  | none => .ok ()
  | some _ => do
    require (st.common.writes.any fun w => w.beat && w.observed) readyEntryError
    require st.beatTimeout.isSome readyTimeoutError

end NodeClauses

/-- No resource name twice. -/
def checkResourceNames (before : List ResourceDecl) : List ResourceDecl → Except String Unit
  | [] => .ok ()
  | d :: rest =>
    if before.any (·.ident = d.ident) then .error ("duplicate resource name `" ++ d.ident ++ "`")
    else checkResourceNames (before ++ [d]) rest

namespace NodeClauses

variable (st : NodeClauses)

def checkResources : Except String Unit :=
  match st.common.resources with
  | none => .ok ()
  | some decls => do
    require st.common.task.isSome resourcesTaskError
    require (!decls.isEmpty) resourcesNoneError
    checkResourceNames [] decls

def checkTask (mode : String) : Except String Unit := do
  require (st.common.state.isNone || st.common.task.isSome) stateTaskError
  require (st.exit.isNone || st.common.task.isSome) exitTaskError
  require (!st.common.cancel || st.common.task.isSome) cancelTaskError
  require (!st.common.cancel || mode ≠ "Pause") cancelPauseError

def check (mode : String) : Except String Unit := do
  st.checkBeatTimeout
  st.checkBeatWindow
  st.checkGates syn
  st.checkReads
  st.checkDiscover
  st.checkReadyOnWrite
  st.checkResources
  st.checkTask mode

end NodeClauses

def parseNode (input : NodeInput) : Except String NodeItem := do
  let st ← input.clauses.foldlM (parseNodeClause syn) {}
  st.check syn input.mode
  let source ← taskSource st.common.spawn st.common.task
  return {
    cfg := input.cfg
    ident := input.ident
    mode := input.mode
    deps := st.deps.getD []
    source
    disabled := st.disabled
    executor := st.common.executor
    resources := st.common.resources.getD []
    slotTimeout := st.common.slotTimeout
    ackTimeout := st.common.ackTimeout
    beatTimeout := st.beatTimeout
    beatWindow := st.beatWindow
    enabledIf := st.enabledIf
    restartBudget := st.restartBudget
    readyOnWrite := st.readyOnWrite
    reads := st.common.reads
    writes := st.common.writes
    exit := st.exit
    state := st.common.state
    cancel := st.common.cancel
    discover := st.common.discover
    dataflow := st.common.dataflow.getD []
    provides := st.provides }

end Node

/-! ## Pools -/

structure PoolInput where
  cfg : List AttrMeta := []
  ident : String
  modes : List String
  clauses : List (List AttrMeta × Clause)

structure PoolClauses where
  common : CommonClauses := {}
  deps : Option (List Dep) := none
  policy : Option (Option Tokens × Tokens) := none
  min : Option Tokens := none
  max : Option Tokens := none

structure PoolItem where
  cfg : List AttrMeta
  ident : String
  modes : List String
  deps : List Dep
  source : TaskSource
  policy : Tokens
  policyTy : Option Tokens
  executor : Option String
  resources : List ResourceDecl
  slotTimeout : Option (Gated ℕ)
  ackTimeout : Option (Gated ℕ)
  reads : List SignalDecl
  writes : List SignalDecl
  min : Tokens
  max : Tokens
  state : Option (Tokens × StateInit)
  cancel : Bool
  discover : Option (Gated Unit)
  dataflow : List (List AttrMeta × Path)

def poolExitError : String :=
  "`exit:` is not supported on `pool` — the K members share one shell, so per-member exit " ++
    "values need per-member storage; use per-node `exit:` declarations, or have the worker " ++
    "provide() into an app-declared slot itself"

def poolClauseError : String :=
  "expected " ++ commonClauseNames ++ ", `deps:`, `policy:`, `min:`, or `max:`"

def poolLocalError : String :=
  "`local` is not supported on take-kind `pool` resources (the one-executor slot contract + " ++
    "per-member restore is deferred); a `shared local` entry works (one pool-wide fan-out " ++
    "slot), or declare the take-kind `local` resource on a node"

def poolMissingError (ident : String) (absent : List String) : String :=
  "`pool " ++ ident ++ "` is missing " ++ ", ".intercalate absent ++ " — an elastic pool needs " ++
    "its dependencies, a member task, a scaling policy, and the floor/ceiling the policy scales " ++
    "between"

def poolCancelTaskError : String :=
  "`cancel` requires `task:` — it wraps the generated shell's call to the member worker; a " ++
    "`spawn:` member fn can call `node.run_cancellable(..)` itself"

def poolCancelPauseError : String :=
  "`cancel` cannot be combined with a `Pause` member — a Pause worker must survive the stop and " ++
    "park on `wait_resume()`, but `cancel` drops its future and records an exit; use " ++
    "`Terminate` (or `OnDemand`) members, or drive the pause by hand in the worker"

section Pool

variable (syn : ExprSyntax)

/-- One clause of a pool. -/
def parsePoolClause (st : PoolClauses) (c : List AttrMeta × Clause) :
    Except String PoolClauses := do
  parseClauseCfg .pool c.1 c.2
  match ← st.common.parseOne syn c.1 c.2 with
  | some common => return { st with common }
  | none =>
    match c.2 with
    | .deps entries =>
      if st.deps.isSome then .error depsError
      else do
        let deps ← entries.mapM parseDep
        return { st with deps := some deps }
    | .policy ty e => do
      let policy ← once st.policy (dupClause "policy") (ty, e)
      return { st with policy }
    | .min e => do
      let min ← once st.min (dupClause "min") e
      return { st with min }
    | .max e => do
      let max ← once st.max (dupClause "max") e
      return { st with max }
    | .exit _ => .error poolExitError
    | _ => .error poolClauseError

def absentClauses (st : PoolClauses) (source : Option TaskSource) : List String :=
  (if source.isNone then ["`task:` or `spawn:`"] else []) ++
    (if st.policy.isNone then ["`policy:`"] else []) ++
    (if st.min.isNone then ["`min:`"] else []) ++
    (if st.max.isNone then ["`max:`"] else [])

def checkPoolCancel (modes : List String) (cancel : Bool) : TaskSource → Except String Unit
  | .spawn _ => require (!cancel) poolCancelTaskError
  | .shell _ => require (!cancel || modes.all (· ≠ "Pause")) poolCancelPauseError

def parsePool (input : PoolInput) : Except String PoolItem := do
  let st ← input.clauses.foldlM (parsePoolClause syn) {}
  let source ← taskSource st.common.spawn st.common.task
  let resources := st.common.resources.getD []
  require (resources.all fun d => !d.localMark || d.shared) poolLocalError
  match source, st.policy, st.min, st.max with
  | some source, some (policyTy, policy), some min, some max =>
    checkPoolCancel input.modes st.common.cancel source
    return {
      cfg := input.cfg
      ident := input.ident
      modes := input.modes
      deps := st.deps.getD []
      source
      policy
      policyTy
      executor := st.common.executor
      resources
      slotTimeout := st.common.slotTimeout
      ackTimeout := st.common.ackTimeout
      reads := st.common.reads
      writes := st.common.writes
      min
      max
      state := st.common.state
      cancel := st.common.cancel
      discover := st.common.discover
      dataflow := st.common.dataflow.getD [] }
  | source, _, _, _ => .error (poolMissingError input.ident (absentClauses st source))

end Pool

end EmbassySupervisor.Decl
