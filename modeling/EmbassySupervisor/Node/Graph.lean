/-
# The static graph

What `supervisor_graph!` emits and nothing at runtime changes: the node slots,
their declared halves, the dependency rows with their topological order, the
elastic pools and the structural shape bits.

A graph carries the proofs of its own well-formedness. `Topology` holds a row
table together with a topological order of it, so a cyclic table cannot be
built; `Graph.shape_sound` holds the promise of the shape bits, that an unset
bit means the structure is absent from every node.
-/

import EmbassySupervisor.Lib.DependencyOrder
import EmbassySupervisor.Node.TaskHandle

namespace EmbassySupervisor

open DependencyOrder

/-- Lifecycle policy of a managed task. -/
inductive Mode
  | terminate
  | pause
  | onDemand
  deriving DecidableEq, Repr

/-- How the generated glue brings a task up: `task:` through a generated shell
that stays resident between activations, `spawn:` through a task function
spawned afresh each time. -/
inductive Spawn
  | task
  | fn
  deriving DecidableEq, Repr

/-- The declared half of a node. Executor and resource slots are named by
number, other nodes by their slot index, durations count clock ticks. Without a
`spawn` the application spawns the node itself; `claims` says that it holds
shares of divisible resources, `restartBudget` gives a count and a window. -/
structure NodeCfg (n : ℕ) where
  mode : Mode
  spawn : Option Spawn
  spawnSlot : Option ℕ := none
  resourceGates : List ℕ := []
  provides : List ℕ := []
  claims : Bool := false
  readyDeps : List (Fin n) := []
  boundDeps : List (Fin n) := []
  slotTimeout : ℕ
  ackTimeout : ℕ
  enabledIf : Bool := false
  restartBudget : Option (ℕ × ℕ) := none

/-- What may be asked of the control driver for a node. -/
inductive ControlOp
  | deactivate
  | activate
  | restart
  deriving DecidableEq, Repr

/-- The structural facts lifecycle code folds on. -/
inductive Shape
  | readyDeps
  | execSlots
  | resources
  | pause
  | onDemand
  | boundDeps
  | pools
  | claims
  deriving DecidableEq, Repr

/-- Dependency rows over the slots, with a topological order of them. -/
structure Topology (n : ℕ) where
  deps : Fin n → List (Fin n)
  order : List (Fin n)
  topological : TopologicalOrder deps order

/-- What an unset shape bit promises of one node. -/
structure NodeCfg.FitsShape {n : ℕ} (cfg : NodeCfg n) (shape : Shape → Bool) : Prop where
  readyDeps : shape .readyDeps = false → cfg.readyDeps = []
  execSlots : shape .execSlots = false → cfg.spawnSlot = none
  resources : shape .resources = false → cfg.resourceGates = []
  pause : shape .pause = false → cfg.mode ≠ .pause
  onDemand : shape .onDemand = false → cfg.mode ≠ .onDemand
  boundDeps : shape .boundDeps = false → cfg.boundDeps = []
  claims : shape .claims = false → cfg.claims = false

/-- With every bit set nothing is promised. -/
theorem NodeCfg.fitsShape_all {n : ℕ} (cfg : NodeCfg n) : cfg.FitsShape fun _ => true := by
  refine ⟨?_, ?_, ?_, ?_, ?_, ?_, ?_⟩ <;> simp

/-- A static task graph over `n` slots. A slot configured out of the build is
`none`; a pool is given by its members; `tickHz` is the clock's tick rate. -/
structure Graph (n : ℕ) extends Topology n where
  nodes : Fin n → Option (NodeCfg n)
  pools : List (List (Fin n)) := []
  shape : Shape → Bool := fun _ => true
  tickHz : ℕ := 1000000
  shape_sound : ∀ j cfg, nodes j = some cfg → cfg.FitsShape shape
  pools_sound : shape .pools = false → pools = []

namespace Graph

variable {n : ℕ} (g : Graph n)

def has (bit : Shape) : Bool := g.shape bit

def occupied (j : Fin n) : Bool := (g.nodes j).isSome

/-- The supervisor spawns the node in this slot itself. -/
def hasSpawn (j : Fin n) : Bool := (g.nodes j).any fun cfg => cfg.spawn.isSome

/-- A span of ticks in whole milliseconds, rounded down. -/
def asMillis (ticks : ℕ) : ℕ := ticks * 1000 / g.tickHz

/-- A span of milliseconds in ticks, rounded up. -/
def fromMillis (ms : ℕ) : ℕ := (ms * g.tickHz + 999) / 1000

def AllOccupied : Prop := ∀ j, g.occupied j = true

/-- Bound dependencies are dependencies of the same table. -/
def BoundDepsAreDeps : Prop :=
  ∀ j cfg, g.nodes j = some cfg → ∀ d ∈ cfg.boundDeps, d ∈ g.deps j

/-- The dependency relation of a graph is well-founded. -/
theorem wellFounded_deps : WellFounded fun d j => d ∈ g.deps j :=
  g.topological.wellFounded

theorem occupied_iff {j : Fin n} : g.occupied j = true ↔ ∃ cfg, g.nodes j = some cfg := by
  simp [occupied, Option.isSome_iff_exists]

theorem mem_order (j : Fin n) : j ∈ g.order := g.topological.complete j

end Graph

/-! ## Graphs of one, two and three nodes

Their slots are written as literals. -/

instance neZeroOne : NeZero 1 :=
  ⟨Nat.succ_ne_zero 0⟩

instance neZeroTwo : NeZero 2 :=
  ⟨Nat.succ_ne_zero 1⟩

instance neZeroThree : NeZero 3 :=
  ⟨Nat.succ_ne_zero 2⟩

theorem topological_one : TopologicalOrder (fun _ : Fin 1 => []) [0] :=
  ⟨by decide, by decide, by decide, by decide⟩

theorem topological_two : TopologicalOrder (fun j : Fin 2 => if j = 1 then [0] else []) [0, 1] :=
  ⟨by decide, by decide, by decide, by decide⟩

theorem pools_sound_one : true = false → ([] : List (List (Fin 1))) = [] := by simp

theorem pools_sound_two : true = false → ([] : List (List (Fin 2))) = [] := by simp

/-- Two nodes for the runs that show a theorem at work: slot 0 is a link, slot 1 a
client bound to its readiness. -/
def clientAndLink : Graph 2 where
  deps j := if j = 1 then [0] else []
  order := [0, 1]
  topological := topological_two
  nodes j := some { mode := .terminate, spawn := some .fn,
                    readyDeps := if j = 1 then [0] else [],
                    boundDeps := if j = 1 then [0] else [],
                    slotTimeout := 5000000, ackTimeout := 2000000 }
  shape_sound _ cfg _ := cfg.fitsShape_all
  pools_sound := pools_sound_two

end EmbassySupervisor
