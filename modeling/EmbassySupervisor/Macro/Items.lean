/-
# From declared items to a graph

`supervisor_graph!` turns a list of items into node slots: one for a node, one for
each member of a pool. A slot that is configured out stays, as `none`, and so does its
row. Predicates are taken at what they come to in the build at hand, and names at the
slot they resolve to, a pool's being its floor member.

`Declaration` is a list of items that compiles.
-/

import EmbassySupervisor.Macro.Topology
import EmbassySupervisor.Monitor.Monitor
import EmbassySupervisor.Shell.Shell

namespace EmbassySupervisor

open DependencyOrder

variable {n : ℕ}

/-! ## Items -/

/-- A clause or an entry, and whether its `#[cfg]` holds in the build. -/
structure Gated (α : Type) where
  enabled : Bool := true
  value : α

namespace Gated

variable {α : Type}

/-- A clause as the build sees it. -/
def clause : Option (Gated α) → Option α
  | some c => if c.enabled then some c.value else none
  | none => none

/-- A list of entries as the build sees it. -/
def entries (list : List (Gated α)) : List α := (list.filter (·.enabled)).map (·.value)

theorem mem_of_entries {list : List (Gated α)} {a : α} (h : a ∈ entries list) :
    ∃ e ∈ list, e.value = a := by
  obtain ⟨e, he, heq⟩ := List.mem_map.mp h
  exact ⟨e, (List.mem_filter.mp he).1, heq⟩

end Gated

/-- An entry of `deps:`. -/
structure Dep (n : ℕ) where
  slot : Fin n
  ready : Bool := false
  bound : Bool := false

/-- The slot of a resource that the member at an offset takes from: a pool declares one
slot a member of what is taken, numbered on from the first. -/
def ResourceDecl.slotOf (r : ResourceDecl) (member : ℕ) : ℕ :=
  match r.kind with
  | .lend | .consume => r.slot + member
  | .shared | .divisible => r.slot

/-- An entry of `reads:` or `writes:`. -/
structure SignalDecl where
  signal : ℕ
  observed : Bool := false
  beat : Bool := false

/-- A `node` declaration. Timeouts are in milliseconds; an adopted function stands for the
signals its derived table writes, whose entries carry no markers. -/
structure NodeItem (n : ℕ) where
  enabled : Bool := true
  mode : Mode
  deps : List (Gated (Dep n)) := []
  source : Option Spawn := none
  resources : List (Gated ResourceDecl) := []
  disabled : Option (Gated Unit) := none
  executor : Option ℕ := none
  slotTimeout : Option (Gated ℕ) := none
  ackTimeout : Option (Gated ℕ) := none
  beatTimeout : Option (Gated ℕ) := none
  beatWindow : Option (Gated ℕ) := none
  enabledIf : Option (Gated Unit) := none
  restartBudget : Option (Gated (ℕ × ℕ)) := none
  readyOnWrite : Option (Gated Unit) := none
  reads : List (Gated SignalDecl) := []
  writes : List (Gated SignalDecl) := []
  dataflow : List (Gated (List ℕ)) := []
  provides : List (Gated ℕ) := []

/-- A `pool` declaration, with the modes of its members and the cooldown of its policy. -/
structure PoolItem (n : ℕ) where
  enabled : Bool := true
  modes : List Mode
  min : ℕ
  max : ℕ
  cooldown : ℕ
  deps : List (Gated (Dep n)) := []
  source : Spawn
  resources : List (Gated ResourceDecl) := []
  executor : Option ℕ := none
  slotTimeout : Option (Gated ℕ) := none
  ackTimeout : Option (Gated ℕ) := none
  reads : List (Gated SignalDecl) := []
  writes : List (Gated SignalDecl) := []
  dataflow : List (Gated (List ℕ)) := []

inductive Item (n : ℕ)
  | node (item : NodeItem n)
  | pool (item : PoolItem n)
  | executor

/-! ## Slots -/

/-- One slot: whether it is there, both declared halves of its node, the node's initial
`disabled` flag, and the declared dependencies. -/
structure Slot (n : ℕ) where
  enabled : Bool
  cfg : NodeCfg n
  live : LiveCfg
  disabled : Bool := false
  deps : List (Gated (Dep n))

/-- `Duration::from_millis` at a tick rate: rounded up. -/
def millisToTicks (tickHz ms : ℕ) : ℕ := (ms * tickHz + 999) / 1000

def slotReadyTimeoutMs : ℕ := 100

def shutdownAckTimeoutMs : ℕ := 2000

/-- The marked subset of a dependency list. -/
def markedDeps (select : Dep n → Bool) (deps : List (Gated (Dep n))) : List (Fin n) :=
  ((Gated.entries deps).filter select).map (·.slot)

/-- The coupling tables of one direction: the item's own, then the adopted ones. -/
def couplings (decls : List (Gated SignalDecl)) (foreign : List (Gated (List ℕ))) :
    List Coupling :=
  ((Gated.entries decls).map fun d =>
      { signal := d.signal, observed := d.observed, beats := d.beat }) ++
    (Gated.entries foreign).flatten.map fun signal => { signal := signal }

section Emit

variable (tickHz : ℕ)

def NodeItem.cfg (it : NodeItem n) : NodeCfg n where
  mode := it.mode
  spawn := it.source
  spawnSlot := it.executor
  resourceGates := (Gated.entries it.resources).map fun r => r.slotOf 0
  provides := Gated.entries it.provides
  claims := (Gated.entries it.resources).any (·.kind == .divisible)
  readyDeps := markedDeps (·.ready) it.deps
  boundDeps := markedDeps (·.bound) it.deps
  slotTimeout := millisToTicks tickHz ((Gated.clause it.slotTimeout).getD slotReadyTimeoutMs)
  ackTimeout := millisToTicks tickHz ((Gated.clause it.ackTimeout).getD shutdownAckTimeoutMs)
  enabledIf := (Gated.clause it.enabledIf).isSome
  restartBudget := (Gated.clause it.restartBudget).map fun (max, window) =>
    (if max = 0 then 1 else max, millisToTicks tickHz window)

def NodeItem.live (it : NodeItem n) : LiveCfg where
  beatTimeout := (Gated.clause it.beatTimeout).map (millisToTicks tickHz)
  beatWindow := (Gated.clause it.beatWindow).getD 1
  readyOnWrite := (Gated.clause it.readyOnWrite).isSome
  writes := couplings it.writes it.dataflow

/-- `emit_node`. -/
def emitNode (it : NodeItem n) : Slot n where
  enabled := it.enabled
  cfg := it.cfg tickHz
  live := it.live tickHz
  disabled := (Gated.clause it.disabled).isSome
  deps := it.deps

def PoolItem.cfg (it : PoolItem n) (member : ℕ) (mode : Mode) : NodeCfg n where
  mode := mode
  spawn := some it.source
  spawnSlot := it.executor
  resourceGates := (Gated.entries it.resources).map fun r => r.slotOf member
  claims := (Gated.entries it.resources).any (·.kind == .divisible)
  readyDeps := markedDeps (·.ready) it.deps
  boundDeps := markedDeps (·.bound) it.deps
  slotTimeout := millisToTicks tickHz ((Gated.clause it.slotTimeout).getD slotReadyTimeoutMs)
  ackTimeout := millisToTicks tickHz ((Gated.clause it.ackTimeout).getD shutdownAckTimeoutMs)

def PoolItem.live (it : PoolItem n) : LiveCfg where
  writes := couplings it.writes it.dataflow

/-- `emit_pool`. -/
def emitPool (it : PoolItem n) : List (Slot n) :=
  it.modes.mapIdx fun member mode =>
    { enabled := it.enabled, cfg := it.cfg tickHz member mode, live := it.live, deps := it.deps }

def Item.slots : Item n → List (Slot n)
  | .node it => [emitNode tickHz it]
  | .pool it => emitPool tickHz it
  | .executor => []

/-- The node slots of a graph, in declaration order. -/
def slotsOf (items : List (Item n)) : List (Slot n) := items.flatMap (Item.slots tickHz)

end Emit

/-- The `deps:` row of a slot, absent or not. -/
def Slot.row (s : Slot n) : List (Fin n) := markedDeps (fun _ => true) s.deps

/-- The pools in the build, the items' slots being numbered on from the first. -/
def poolEntries : ℕ → List (Item n) → List (ElasticPool n)
  | _, [] => []
  | first, .node _ :: items => poolEntries (first + 1) items
  | first, .executor :: items => poolEntries first items
  | first, .pool it :: items =>
    let rest := poolEntries (first + it.modes.length) items
    if it.enabled then
      { nodes := (List.finRange n).filter fun j =>
          decide (first ≤ j) && decide (j < first + it.modes.length)
        min := it.min
        max := it.max
        cooldown := it.cooldown } :: rest
    else rest

theorem nodup_poolEntries {p : ElasticPool n} {items : List (Item n)} {first : ℕ}
    (h : p ∈ poolEntries first items) : p.nodes.Nodup := by
  induction items generalizing first with
  | nil => simp [poolEntries] at h
  | cons item items ih =>
      cases item with
      | node it => exact ih h
      | executor => exact ih h
      | pool it =>
          by_cases henabled : it.enabled = true
          · simp only [poolEntries, if_pos henabled] at h
            rcases List.mem_cons.mp h with rfl | hrest
            · exact (List.nodup_finRange n).filter _
            · exact ih hrest
          · simp only [poolEntries, if_neg henabled] at h
            exact ih h

end EmbassySupervisor
