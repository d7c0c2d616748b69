/-
# Shape bits

`expand` collects ten bits from the clauses of the items, under masks of its own, and
the library tests them under its masks when it asks whether a structure is in the graph
at all. `Declaration.graph` is the graph as the macro emits it; that an unset bit means
the structure is absent from every slot is what building it takes.

A clause that is configured out still sets its bit, which promises nothing.
-/

import EmbassySupervisor.Macro.Items

namespace EmbassySupervisor

open DependencyOrder

variable {n : ℕ}

/-- A set of shape bits. -/
abbrev ShapeBits := BitVec 32

/-! ## The library's side -/

namespace Shape

/-- The bit of a structure. -/
def mask : Shape → ShapeBits
  | .readyDeps => 1 <<< 0
  | .execSlots => 1 <<< 1
  | .resources => 1 <<< 2
  | .pause => 1 <<< 3
  | .onDemand => 1 <<< 4
  | .boundDeps => 1 <<< 7
  | .pools => 1 <<< 8
  | .claims => 1 <<< 9

def beatsMask : ShapeBits := 1 <<< 5

def observedMask : ShapeBits := 1 <<< 6

end Shape

/-- `has`: the bits have one in common with the mask. -/
def ShapeBits.has (bits mask : ShapeBits) : Bool := bits &&& mask != 0

/-- The bits where the condition holds, and none elsewhere. -/
def ShapeBits.when (c : Bool) (bits : ShapeBits) : ShapeBits := if c then bits else 0

/-- Every bit set. -/
def ShapeBits.all : ShapeBits := BitVec.allOnes 32

namespace ShapeBits

@[simp]
theorem has_or (a b mask : ShapeBits) : has (a ||| b) mask = (has a mask || has b mask) := by
  simp only [has, BitVec.and_or_distrib_right]
  rw [Bool.eq_iff_iff]
  simp only [bne_iff_ne, ne_eq, Bool.or_eq_true]
  rw [← not_and_or, not_iff_not]
  exact BitVec.or_eq_zero_iff

@[simp]
theorem has_zero (mask : ShapeBits) : has 0 mask = false := by
  simp [has]

@[simp]
theorem has_when (c : Bool) (bits mask : ShapeBits) :
    has (when c bits) mask = (c && has bits mask) := by
  cases c with
  | false => exact has_zero mask
  | true => rfl

theorem has_foldl {α : Type} (f : α → ShapeBits) (xs : List α) (a mask : ShapeBits) :
    has (xs.foldl (fun bits x => bits ||| f x) a) mask =
      (has a mask || xs.any fun x => has (f x) mask) := by
  induction xs generalizing a with
  | nil => simp
  | cons x xs ih => rw [List.foldl_cons, ih, has_or, List.any_cons, Bool.or_assoc]

end ShapeBits

/-! ## The macro's side -/

namespace Expand

def readyDeps : ShapeBits := 1 <<< 0

def execSlots : ShapeBits := 1 <<< 1

def resources : ShapeBits := 1 <<< 2

def pause : ShapeBits := 1 <<< 3

def onDemand : ShapeBits := 1 <<< 4

def beats : ShapeBits := 1 <<< 5

def observed : ShapeBits := 1 <<< 6

def boundDeps : ShapeBits := 1 <<< 7

def pools : ShapeBits := 1 <<< 8

def claims : ShapeBits := 1 <<< 9

def claimsBit (decls : List (Gated ResourceDecl)) : ShapeBits :=
  .when (decls.any (·.value.kind == .divisible)) claims

def modeBit : Mode → ShapeBits
  | .pause => pause
  | .onDemand => onDemand
  | .terminate => 0

def depBits (deps : List (Gated (Dep n))) : ShapeBits :=
  deps.foldl (fun bits d => bits |||
    (.when (d.value.ready || d.value.bound) readyDeps ||| .when d.value.bound boundDeps)) 0

def observedBit (reads writes : List (Gated SignalDecl)) : ShapeBits :=
  .when ((reads ++ writes).any (·.value.observed)) observed

def nodeBits (it : NodeItem n) : ShapeBits :=
  modeBit it.mode ||| depBits it.deps ||| observedBit it.reads it.writes |||
    .when it.executor.isSome execSlots ||| .when (!it.resources.isEmpty) resources |||
    claimsBit it.resources ||| .when it.beatTimeout.isSome beats |||
    .when it.readyOnWrite.isSome observed

def poolBits (it : PoolItem n) : ShapeBits :=
  pools ||| it.modes.foldl (fun bits m => bits ||| modeBit m) 0 ||| depBits it.deps |||
    observedBit it.reads it.writes ||| .when it.executor.isSome execSlots |||
    .when (!it.resources.isEmpty) resources ||| claimsBit it.resources

def itemBits : Item n → ShapeBits
  | .node it => nodeBits it
  | .pool it => poolBits it
  | .executor => 0

def shapeBits (items : List (Item n)) : ShapeBits :=
  items.foldl (fun bits item => bits ||| itemBits item) 0

end Expand

/-! ## Every clause sets its bit -/

namespace Expand

section Soundness

variable {tickHz : ℕ}

/-- The promise of a set of bits for what a slot is made of. -/
structure Covers (bits : ShapeBits) (s : Slot n) : Prop where
  fits : s.cfg.FitsShape fun shape => bits.has shape.mask
  beats : bits.has Shape.beatsMask = false → s.live.beatTimeout = none
  observed : bits.has Shape.observedMask = false → ∀ c ∈ s.live.writes, c.observed = false

/-- More bits promise less. -/
theorem Covers.mono {bits more : ShapeBits} {s : Slot n} (h : Covers bits s)
    (hmore : ∀ mask, bits.has mask = true → more.has mask = true) : Covers more s := by
  have hless : ∀ {mask}, more.has mask = false → bits.has mask = false := by
    intro mask hno
    by_contra hyes
    simp [hmore mask (by simpa using hyes)] at hno
  exact {
    fits := {
      readyDeps := fun hno => h.fits.readyDeps (hless hno)
      execSlots := fun hno => h.fits.execSlots (hless hno)
      resources := fun hno => h.fits.resources (hless hno)
      pause := fun hno => h.fits.pause (hless hno)
      onDemand := fun hno => h.fits.onDemand (hless hno)
      boundDeps := fun hno => h.fits.boundDeps (hless hno)
      claims := fun hno => h.fits.claims (hless hno) }
    beats := fun hno => h.beats (hless hno)
    observed := fun hno => h.observed (hless hno) }

theorem markedDeps_eq_nil {select : Dep n → Bool} {deps : List (Gated (Dep n))}
    (h : ∀ d ∈ deps, select d.value = false) : markedDeps select deps = [] := by
  have hnone : (Gated.entries deps).filter select = [] := by
    apply List.filter_eq_nil_iff.mpr
    intro d hd
    obtain ⟨e, he, rfl⟩ := Gated.mem_of_entries hd
    simp [h e he]
  simp [markedDeps, hnone]

theorem unmarked_of_depBits {deps : List (Gated (Dep n))} {mask : ShapeBits}
    (h : (depBits deps).has mask = false) :
    (readyDeps.has mask = true → ∀ d ∈ deps, d.value.ready = false) ∧
      (boundDeps.has mask = true → ∀ d ∈ deps, d.value.bound = false) := by
  rw [depBits, ShapeBits.has_foldl, Bool.or_eq_false_iff] at h
  have hone : ∀ d ∈ deps, _ := List.any_eq_false.mp h.2
  constructor
  · intro hmask d hd
    have hd := hone d hd
    simp only [ShapeBits.has_or, ShapeBits.has_when, hmask] at hd
    simp at hd
    exact hd.1.1
  · intro hmask d hd
    have hd := hone d hd
    simp only [ShapeBits.has_or, ShapeBits.has_when, hmask] at hd
    simp at hd
    exact hd.2

theorem no_claims_of_claimsBit {decls : List (Gated ResourceDecl)}
    (h : (claimsBit decls).has Shape.claims.mask = false) :
    (Gated.entries decls).any (·.kind == .divisible) = false := by
  have hmask : claims.has Shape.claims.mask = true := by decide
  rw [claimsBit, ShapeBits.has_when, hmask, Bool.and_true] at h
  apply List.any_eq_false.mpr
  intro r hr
  obtain ⟨e, he, rfl⟩ := Gated.mem_of_entries hr
  exact List.any_eq_false.mp h e he

theorem unobserved_of_observedBit {reads writes : List (Gated SignalDecl)}
    {foreign : List (Gated (List ℕ))}
    (h : (observedBit reads writes).has Shape.observedMask = false) :
    ∀ c ∈ couplings writes foreign, c.observed = false := by
  have hmask : observed.has Shape.observedMask = true := by decide
  rw [observedBit, ShapeBits.has_when, hmask, Bool.and_true] at h
  intro c hc
  rcases List.mem_append.mp hc with hown | hadopted
  · obtain ⟨d, hd, rfl⟩ := List.mem_map.mp hown
    obtain ⟨e, he, rfl⟩ := Gated.mem_of_entries hd
    simpa using List.any_eq_false.mp h e (List.mem_append_right _ he)
  · obtain ⟨signal, _, rfl⟩ := List.mem_map.mp hadopted
    rfl

/-- What the clauses a node and a pool share promise of a slot made of them. -/
structure Parts (bits : ShapeBits) (deps : List (Gated (Dep n)))
    (resourceDecls : List (Gated ResourceDecl)) (reads writes : List (Gated SignalDecl))
    (executor : Option ℕ) : Prop where
  deps : ∀ mask, (depBits deps).has mask = true → bits.has mask = true
  observed : ∀ mask, (observedBit reads writes).has mask = true → bits.has mask = true
  executor : executor.isSome = true → ∀ mask, execSlots.has mask = true → bits.has mask = true
  resources : resourceDecls ≠ [] → ∀ mask, resources.has mask = true → bits.has mask = true
  claims : ∀ mask, (claimsBit resourceDecls).has mask = true → bits.has mask = true

theorem parts_node (it : NodeItem n) :
    Parts (nodeBits it) it.deps it.resources it.reads it.writes it.executor := by
  constructor
  · intro mask h
    simp [nodeBits, h]
  · intro mask h
    simp [nodeBits, h]
  · intro hsome mask h
    simp [nodeBits, hsome, h]
  · intro hne mask h
    simp [nodeBits, hne, h]
  · intro mask h
    simp [nodeBits, h]

theorem parts_pool (it : PoolItem n) :
    Parts (poolBits it) it.deps it.resources it.reads it.writes it.executor := by
  constructor
  · intro mask h
    simp [poolBits, h]
  · intro mask h
    simp [poolBits, h]
  · intro hsome mask h
    simp [poolBits, hsome, h]
  · intro hne mask h
    simp [poolBits, hne, h]
  · intro mask h
    simp [poolBits, h]

/-- **The bits of an item cover a slot made of its clauses.** -/
theorem Parts.covers {bits : ShapeBits} {deps : List (Gated (Dep n))}
    {resourceDecls : List (Gated ResourceDecl)} {reads writes : List (Gated SignalDecl)}
    {foreign : List (Gated (List ℕ))} {executor : Option ℕ} {s : Slot n} {k : ℕ}
    (h : Parts bits deps resourceDecls reads writes executor)
    (hready : s.cfg.readyDeps = markedDeps (·.ready) deps)
    (hbound : s.cfg.boundDeps = markedDeps (·.bound) deps)
    (hgates : s.cfg.resourceGates =
      (Gated.entries resourceDecls).map fun r => r.slotOf k)
    (hclaims : s.cfg.claims = (Gated.entries resourceDecls).any (·.kind == .divisible))
    (hexec : s.cfg.spawnSlot = executor)
    (hwrites : s.live.writes = couplings writes foreign)
    (hmode : ∀ mask, (modeBit s.cfg.mode).has mask = true → bits.has mask = true)
    (hbeats : s.live.beatTimeout.isSome = true → bits.has Shape.beatsMask = true) :
    Covers bits s := by
  have off : ∀ {a mask : ShapeBits}, (a.has mask = true → bits.has mask = true) →
      bits.has mask = false → a.has mask = false := by
    intro a mask himp hno
    by_contra hyes
    simp [himp (by simpa using hyes)] at hno
  refine ⟨⟨?_, ?_, ?_, ?_, ?_, ?_, ?_⟩, ?_, ?_⟩
  · intro hno
    rw [hready]
    exact markedDeps_eq_nil ((unmarked_of_depBits (off (h.deps _) hno)).1 (by decide))
  · intro hno
    rw [hexec]
    by_contra hsome
    have hyes := h.executor (Option.isSome_iff_ne_none.mpr hsome) Shape.execSlots.mask (by decide)
    simp [hyes] at hno
  · intro hno
    have hnil : resourceDecls = [] := by
      by_contra hne
      simp [h.resources hne Shape.resources.mask (by decide)] at hno
    simp [hgates, hnil, Gated.entries]
  · intro hno hpause
    have hyes := hmode Shape.pause.mask (by rw [hpause]; decide)
    simp [hyes] at hno
  · intro hno hdemand
    have hyes := hmode Shape.onDemand.mask (by rw [hdemand]; decide)
    simp [hyes] at hno
  · intro hno
    rw [hbound]
    exact markedDeps_eq_nil ((unmarked_of_depBits (off (h.deps _) hno)).2 (by decide))
  · intro hno
    rw [hclaims]
    exact no_claims_of_claimsBit (off (h.claims _) hno)
  · intro hno
    by_contra hsome
    simp [hbeats (Option.isSome_iff_ne_none.mpr hsome)] at hno
  · intro hno
    rw [hwrites]
    exact unobserved_of_observedBit (off (h.observed _) hno)

theorem covers_node (it : NodeItem n) : Covers (nodeBits it) (emitNode tickHz it) := by
  apply (parts_node it).covers (k := 0) rfl rfl rfl rfl rfl rfl
  · intro mask h
    have hmode : (modeBit it.mode).has mask = true := h
    simp [nodeBits, hmode]
  · intro hsome
    have hclause : it.beatTimeout.isSome = true := by
      cases hbeat : it.beatTimeout with
      | none => simp [emitNode, NodeItem.live, hbeat, Gated.clause] at hsome
      | some c => rfl
    have hmask : beats.has Shape.beatsMask = true := by decide
    simp [nodeBits, hclause, hmask]

theorem covers_pool (it : PoolItem n) {s : Slot n} (hs : s ∈ emitPool tickHz it) :
    Covers (poolBits it) s := by
  obtain ⟨k, hk, rfl⟩ := List.mem_mapIdx.mp hs
  apply (parts_pool it).covers (k := k) rfl rfl rfl rfl rfl rfl
  · intro mask h
    have hmode : (it.modes.any fun m => (modeBit m).has mask) = true :=
      List.any_eq_true.mpr ⟨it.modes[k], List.getElem_mem hk, h⟩
    simp [poolBits, ShapeBits.has_foldl, hmode]
  · intro hsome
    simp [PoolItem.live] at hsome

/-- **The bits of a graph cover all its slots.** -/
theorem covers_slotsOf {items : List (Item n)} {s : Slot n} (hs : s ∈ slotsOf tickHz items) :
    Covers (shapeBits items) s := by
  obtain ⟨item, hitem, hslot⟩ := List.mem_flatMap.mp hs
  have hcovers : Covers (itemBits item) s := by
    cases item with
    | node it => rw [List.mem_singleton.mp hslot]; exact covers_node it
    | pool it => exact covers_pool it hslot
    | executor => simp [Item.slots] at hslot
  apply hcovers.mono
  intro mask h
  rw [shapeBits, ShapeBits.has_foldl, List.any_eq_true.mpr ⟨item, hitem, h⟩, Bool.or_true]

/-- A graph without the bit of pools has no pool. -/
theorem poolEntries_eq_nil {items : List (Item n)}
    (h : (shapeBits items).has Shape.pools.mask = false) (first : ℕ) :
    poolEntries first items = [] := by
  have hmask : pools.has Shape.pools.mask = true := by decide
  rw [shapeBits, ShapeBits.has_foldl, Bool.or_eq_false_iff] at h
  have hnone := h.2
  induction items generalizing first with
  | nil => rfl
  | cons item items ih =>
      simp only [List.any_cons, Bool.or_eq_false_iff] at hnone
      cases item with
      | node it => exact ih ⟨h.1, hnone.2⟩ _ hnone.2
      | executor => exact ih ⟨h.1, hnone.2⟩ _ hnone.2
      | pool it => simp [itemBits, poolBits, hmask] at hnone

end Soundness

end Expand

/-! ## Declarations -/

/-- A list of items that compiles: its slots are numbered, and the sort of their rows did
not panic. -/
structure Declaration (n : ℕ) where
  items : List (Item n)
  tickHz : ℕ := 1000000
  slots_length : (slotsOf tickHz items).length = n
  order : List (Fin n)
  sorted : topoSort (fun j => ((slotsOf tickHz items).get (j.cast slots_length.symm)).row) =
    some order
  topological : TopologicalOrder
    (fun j => ((slotsOf tickHz items).get (j.cast slots_length.symm)).row) order

namespace Declaration

variable (d : Declaration n)

def slot (j : Fin n) : Slot n := (slotsOf d.tickHz d.items).get (j.cast d.slots_length.symm)

def bits : ShapeBits := Expand.shapeBits d.items

/-- No slot declares a dependency. -/
def flat : Bool := (slotsOf d.tickHz d.items).all fun s => s.deps.isEmpty

/-- The rows in their sorted order. -/
def ordered : Topology n where
  deps j := (d.slot j).row
  order := d.order
  topological := d.topological

/-- The topology the macro picks. -/
def topology : Topology n := if d.flat then Topology.flat n else d.ordered

theorem covers_slot (j : Fin n) : Expand.Covers d.bits (d.slot j) :=
  Expand.covers_slotsOf (List.get_mem _ _)

/-- **The graph as the macro emits it.** -/
def graph : MonitoredGraph n where
  toTopology := d.topology
  nodes j := if (d.slot j).enabled then some (d.slot j).cfg else none
  pools := (poolEntries 0 d.items).map ElasticPool.nodes
  elastic := poolEntries 0 d.items
  elastic_nodes := rfl
  nodup _ hp := nodup_poolEntries hp
  shape s := d.bits.has s.mask
  tickHz := d.tickHz
  shape_sound j cfg hcfg := by
    split at hcfg
    · cases hcfg
      exact (d.covers_slot j).fits
    · cases hcfg
  pools_sound h := by
    rw [Expand.poolEntries_eq_nil h 0]
    rfl
  live j := (d.slot j).live
  hasBeats := d.bits.has Shape.beatsMask
  hasObserved := d.bits.has Shape.observedMask
  beats_sound h j := (d.covers_slot j).beats h
  observed_sound h j := (d.covers_slot j).observed h

end Declaration

end EmbassySupervisor
