/-
# Contributor and claimant slots

A budget and a veto gate know their holders by number. The macro numbers them over the whole
graph: a node takes one slot, a pool one a member, in the order of the items, and the base of
each holder is kept under its name and the name of the budget or gate.

The emitters then look the bases up, once for a node's or member's claims table, which a stop
releases entry by entry, and once for the `Claimant`s its worker is given.
-/

import EmbassySupervisor.Macro.ItemParse
import Mathlib.Logic.Function.Basic

namespace EmbassySupervisor.Decl

inductive Item
  | node (n : NodeItem)
  | pool (p : PoolItem)
  | executor (ident : String)

namespace Item

def owner : Item → Option String
  | .node n => some n.ident
  | .pool p => some p.ident
  | .executor _ => none

def memberCount : Item → ℕ
  | .pool p => p.modes.length
  | _ => 1

def resources : Item → List ResourceDecl
  | .node n => n.resources
  | .pool p => p.resources
  | .executor _ => []

def executorName : Item → Option String
  | .node n => n.executor
  | .pool p => p.executor
  | .executor _ => none

def writes : Item → List SignalDecl
  | .node n => n.writes
  | .pool p => p.writes
  | .executor _ => []

end Item

/-- A slot of the graph that several items may declare. -/
structure GraphSlotPlan where
  decl : ResourceDecl
  sig : String
  owners : List String
  executor : Option String
  slots : ℕ

structure ResourceState where
  plans : String → Option GraphSlotPlan := fun _ => none
  taken : List String := []
  claimBases : String → String → Option ℕ := fun _ _ => none

def sharedSignature (syn : ExprSyntax) (r : ResourceDecl) : String :=
  (if r.localMark then "local " else "") ++ (if r.serialized then "serialized " else "") ++
    "shared " ++ (r.ty.map syn.text).getD ""

def signature (syn : ExprSyntax) (r : ResourceDecl) : String :=
  if r.kind = .divisible then "divisible" else sharedSignature syn r

/-- A declaration of a resource: whose it is, how many members take part, and where they run. -/
structure ResourceSite where
  owner : String
  count : ℕ
  executor : Option String
  decl : ResourceDecl

section Plan

variable (syn : ExprSyntax)

def Item.resourceSites (item : Item) : List ResourceSite :=
  match item.owner with
  | none => []
  | some owner =>
    item.resources.map fun decl =>
      { owner, count := item.memberCount, executor := item.executorName, decl }

/-! ## Veto gates -/

structure VetoState where
  bases : String → String → Option ℕ := fun _ _ => none
  totals : String → Option ℕ := fun _ => none
  stems : String → Option String := fun _ => none

structure VetoSite where
  owner : String
  count : ℕ
  decl : SignalDecl

def Item.vetoSites (item : Item) : List VetoSite :=
  match item.owner with
  | none => []
  | some owner =>
    (item.writes.filter (·.veto)).map fun decl => { owner, count := item.memberCount, decl }

/-! ## What is emitted -/

/-- The bases that the emitters look up, and the sizes of the emitted budgets and gates. -/
structure ResourcePlan where
  claimBases : String → String → Option ℕ
  vetoBases : String → String → Option ℕ
  budgets : String → Option ℕ
  gates : String → Option ℕ

/-- The slots of a node or a pool member: its claims table, the `Claimant`s of its worker, and
the slots in its table of writes. -/
structure HolderSlots where
  owner : String
  member : ℕ
  claims : List (String × ℕ)
  claimants : List (String × ℕ)
  vetoes : List (String × ℕ)

/-- `release_claims`: a stop goes through the claims table. -/
def HolderSlots.releaseClaims {σ : Type} (release : String → ℕ → σ → σ) (h : HolderSlots)
    (s : σ) : σ :=
  h.claims.foldl (fun s entry => release entry.1 entry.2 s) s

/-- `u8::try_from(..).expect(..)`. -/
def toU8 (expect : String) (entry : String × ℕ) : Except String (String × ℕ) :=
  if entry.2 < 256 then .ok entry else .error expect

namespace ResourcePlan

variable (plan : ResourcePlan)

def claims (owner : String) (resources : List ResourceDecl) : List (Option ℕ) :=
  resources.map fun r => plan.claimBases owner r.ident

def vetoSlots (owner : String) (writes : List SignalDecl) : List (Option ℕ) :=
  writes.map fun d => plan.vetoBases owner (d.display syn)

end ResourcePlan

/-- The entries of a list that have a base, with the slot of a member. -/
def slotEntries {α : Type} (name : α → String) (entries : List α) (bases : List (Option ℕ))
    (offset : ℕ) : List (String × ℕ) :=
  (entries.zip bases).filterMap fun e => e.2.map fun base => (name e.1, base + offset)

def claimsTokens (resources : List ResourceDecl) (claims : List (Option ℕ)) (offset : ℕ) :
    Except String (List (String × ℕ)) :=
  (slotEntries (·.ident) resources claims offset).mapM (toU8 "slot count checked")

def vetoTokens (writes : List SignalDecl) (bases : List (Option ℕ)) (offset : ℕ) :
    Except String (List (String × ℕ)) :=
  (slotEntries (·.display syn) writes bases offset).mapM (toU8 "veto slot count checked")

/-- The `Claimant`s that a shell is handed; `slotOf` is how a base becomes a slot there. -/
def claimants (slotOf : ℕ → ℕ) (resources : List ResourceDecl) (claims : List (Option ℕ)) :
    Except String (List (String × ℕ)) :=
  ((resources.zip claims).filter (·.1.kind = .divisible)).mapM fun e =>
    match e.2 with
    | some base => .ok (e.1.ident, slotOf base)
    | none => .error "a divisible entry has a slot"

/-- Only a shell is handed values. -/
def nodeClaimants (n : NodeItem) (bases : List (Option ℕ)) :
    Except String (List (String × ℕ)) :=
  match n.source with
  | some (.shell _) => claimants id n.resources bases
  | _ => .ok []

/-- The slots that `emit_node` and the shell of a node take. -/
def emitNode (plan : ResourcePlan) (n : NodeItem) : Except String (List HolderSlots) := do
  let bases := plan.claims n.ident n.resources
  let claimants ← nodeClaimants n bases
  let vetoes ← vetoTokens syn n.writes (plan.vetoSlots syn n.ident n.writes) 0
  let claims ← claimsTokens n.resources bases 0
  return [{ owner := n.ident, member := 0, claims, claimants, vetoes }]

def poolResourcesError : String :=
  "pool `resources:` requires `task:` — the values are handed to the generated shell as " ++
    "arguments (and lend entries restored by it); a `spawn:` task fn manages its own arguments"

def memberVetoes (p : PoolItem) (bases : List (Option ℕ)) (member : ℕ) :
    Except String (List (String × ℕ)) :=
  if bases.any (·.isSome) then vetoTokens syn p.writes bases member else .ok []

def emitMember (plan : ResourcePlan) (p : PoolItem) (member : ℕ) : Except String HolderSlots := do
  let bases := plan.claims p.ident p.resources
  let vetoBases := plan.vetoSlots syn p.ident p.writes
  let claimants ← claimants (fun base => (base + member) % 256) p.resources bases
  let claims ← claimsTokens p.resources bases member
  let vetoes ← memberVetoes syn p vetoBases member
  return { owner := p.ident, member, claims, claimants, vetoes }

def minMaxError (min max : ℕ) : String :=
  "pool `min:` (" ++ toString min ++ ") must not exceed `max:` (" ++ toString max ++ ")"

def maxMembersError (max members : ℕ) : String :=
  "pool `max:` (" ++ toString max ++ ") exceeds the declared member count (" ++
    toString members ++ ")"

/-- `base10_parse::<u8>`. -/
def parseU8 (lit : ℕ) : Except String ℕ :=
  if lit < 2 ^ 8 then .ok lit else .error "number too large to fit in target type"

/-- The bounds are compared where both are literals. -/
def checkBounds (p : PoolItem) : Except String Unit :=
  match syn.integer p.min, syn.integer p.max with
  | some minLit, some maxLit => do
    let min ← parseU8 minLit
    let max ← parseU8 maxLit
    require (min ≤ max) (minMaxError min max)
    require (max ≤ p.modes.length) (maxMembersError max p.modes.length)
  | _, _ => .ok ()

def poolStateError : String :=
  "pool `state:` requires `task:` — the generated shell owns the boxed state across the worker " ++
    "call; a `spawn:` task fn can Box its own state"

def checkPoolSpawn (p : PoolItem) : Except String Unit :=
  match p.source with
  | .spawn _ => do
    require p.resources.isEmpty poolResourcesError
    require p.state.isNone poolStateError
  | .shell _ => .ok ()

def emitPool (plan : ResourcePlan) (p : PoolItem) : Except String (List HolderSlots) := do
  checkBounds syn p
  checkPoolSpawn p
  (List.range p.modes.length).mapM (emitMember syn plan p)

end Plan

end EmbassySupervisor.Decl
