/-
# Accounting under nesting

A poll of one executor may preempt a poll of another, on the same core. With `trace-nested` the
hooks split the time between the two: the counters of a node, and of an executor, grow by the
time in which their own polls were the innermost.

The tracer keeps the account of nested sections with its stack of slot numbers for frames and
the counters for credits. It stays exact in counters that wrap as long as a run is shorter than
the clock's period.
-/

import EmbassySupervisor.Lib.Preemption
import EmbassySupervisor.Trace.Hooks
import Mathlib.Algebra.BigOperators.Fin
import Mathlib.Data.List.Nodup
import Mathlib.Data.List.Perm.Subperm

namespace EmbassySupervisor.Trace

open Preemption

structure Poll where
  executorId : UInt32
  taskId : UInt32

def Hook.mark : Hook → Mark Poll
  | .execBegin executorId taskId => .enter ⟨executorId, taskId⟩
  | .execEnd executorId taskId => .leave ⟨executorId, taskId⟩
  | _ => .pass

def HookCall.event (c : HookCall) : Event Poll where
  tick := c.ticks
  mark := c.hook.mark

/-- No executor preempts itself. -/
def Exclusive : List Poll → List HookCall → Prop
  | _, [] => True
  | stack, c :: calls =>
    (∀ executorId taskId, c.hook = .execBegin executorId taskId →
      executorId ∉ stack.map (·.executorId)) ∧ Exclusive (c.event.mark.apply stack) calls

/-- A run of hook calls: the polls nest, and the run is over within a period of the clock. -/
structure Run (start : ℕ) (calls : List HookCall) : Prop where
  nested : WellNested [] start (calls.map HookCall.event)
  exclusive : Exclusive [] calls
  span : ∀ c ∈ calls, c.ticks < start + 2 ^ 32
  nonzero : ∀ c ∈ calls, c.hook.executorId ≠ 0

variable {ν : Type} {setup : Setup ν} {ids : List UInt32} {tr tr₀ : Tracer ν}

/-! ## The table of executors -/

/-- Each executor has at most one slot, and keeps it. -/
structure Table (ids : List UInt32) (tr₀ tr : Tracer ν) : Prop where
  distinct : ∀ i j, (tr.executors i).id = (tr.executors j).id → (tr.executors i).id ≠ 0 → i = j
  kept : ∀ i, (tr₀.executors i).id ≠ 0 → (tr.executors i).id = (tr₀.executors i).id
  known : ∀ i, (tr.executors i).id ≠ 0 → (tr.executors i).id ∈ ids

theorem executorIds_nodup (h : Table ids tr₀ tr) (hfull : ∀ i, (tr.executors i).id ≠ 0) :
    tr.executorIds.Nodup :=
  (List.nodup_finRange maxExecutors).map fun i j heq => h.distinct i j heq (hfull i)

theorem mem_executorIds {executorId : UInt32} :
    executorId ∈ tr.executorIds ↔ ∃ i, (tr.executors i).id = executorId := by
  simp [Tracer.executorIds]

theorem length_executorIds : tr.executorIds.length = maxExecutors := by
  simp [Tracer.executorIds]

/-- While all executors are among four there is a slot for each. -/
theorem Table.exists_slot (h : Table ids tr₀ tr) (hids : ids.length ≤ maxExecutors)
    {executorId : UInt32} (hmem : executorId ∈ ids)
    (hnone : ∀ i, (tr.executors i).id ≠ executorId) : ∃ i, (tr.executors i).id = 0 := by
  by_contra hfull
  have hfull : ∀ i, (tr.executors i).id ≠ 0 := fun i hi => hfull ⟨i, hi⟩
  have hnodup : (executorId :: tr.executorIds).Nodup := by
    refine List.nodup_cons.mpr ⟨fun hin => ?_, executorIds_nodup h hfull⟩
    obtain ⟨i, hi⟩ := mem_executorIds.mp hin
    exact hnone i hi
  have hsubset : executorId :: tr.executorIds ⊆ ids := by
    refine List.cons_subset.mpr ⟨hmem, fun id hid => ?_⟩
    obtain ⟨i, rfl⟩ := mem_executorIds.mp hid
    exact h.known i (hfull i)
  have hlength := (List.subperm_of_subset hnodup hsubset).length_le
  rw [List.length_cons, length_executorIds] at hlength
  omega

/-- The slot that a hook finds or claims. -/
theorem Table.slotFor_eq (h : Table ids tr₀ tr) (hids : ids.length ≤ maxExecutors)
    {executorId : UInt32} (hmem : executorId ∈ ids) :
    ∃ i last, tr.slotFor executorId =
        some (i, { tr.setSlot i { tr.executors i with id := executorId } with lastSlot := last }) ∧
      ((tr.executors i).id = executorId ∨
        (tr.executors i).id = 0 ∧ ∀ j, (tr.executors j).id ≠ executorId) := by
  have hfound : ∀ i, (tr.executors i).id = executorId → ∀ last,
      ({ tr with lastSlot := last } : Tracer ν) =
        { tr.setSlot i { tr.executors i with id := executorId } with lastSlot := last } := by
    rintro i rfl last
    simp [Tracer.setSlot]
  unfold Tracer.slotFor
  cases hlast : (position tr.lastSlot).filter
      fun i => (tr.executors i).id = executorId with
  | some last =>
      have hid : (tr.executors last).id = executorId := by
        simpa using (Option.filter_eq_some_iff.mp hlast).2
      exact ⟨last, tr.lastSlot, by rw [← hfound last hid], .inl hid⟩
  | none =>
      simp only
      cases hfind : (List.finRange maxExecutors).find?
          fun i => (tr.executors i).id = executorId with
      | some i =>
          have hid : (tr.executors i).id = executorId := by simpa using List.find?_some hfind
          exact ⟨i, i, by rw [← hfound i hid], .inl hid⟩
      | none =>
          have hnone : ∀ i, (tr.executors i).id ≠ executorId := by
            simpa [List.find?_eq_none] using hfind
          obtain ⟨j, hj⟩ := h.exists_slot hids hmem hnone
          unfold Tracer.claimSlot
          cases hfree : (List.finRange maxExecutors).find?
              fun i => (tr.executors i).id = 0 ∨ (tr.executors i).id = executorId with
          | some i =>
              have hid : (tr.executors i).id = 0 := by
                have h := List.find?_some hfree
                simp only [decide_eq_true_eq] at h
                exact h.resolve_right (hnone i)
              exact ⟨i, i, rfl, .inr ⟨hid, hnone⟩⟩
          | none =>
              have hj' := List.find?_eq_none.mp hfree j (List.mem_finRange j)
              simp [hj] at hj'

/-- The table is what it says of the ids. -/
theorem Table.congr (h : Table ids tr₀ tr) {tr' : Tracer ν}
    (hids : ∀ i, (tr'.executors i).id = (tr.executors i).id) : Table ids tr₀ tr' := by
  constructor
  · intro i j
    rw [hids, hids]
    exact h.distinct i j
  · intro i
    rw [hids]
    exact h.kept i
  · intro i
    rw [hids]
    exact h.known i

/-- A hook claims a slot under its executor's id. -/
theorem Table.claim (h : Table ids tr₀ tr) {executorId : UInt32} (hmem : executorId ∈ ids)
    {i : Fin maxExecutors}
    (hslot : (tr.executors i).id = executorId ∨
      (tr.executors i).id = 0 ∧ ∀ j, (tr.executors j).id ≠ executorId) :
    Table ids tr₀ (tr.setSlot i { tr.executors i with id := executorId }) := by
  rcases hslot with rfl | ⟨hfree, hnew⟩
  · simpa [Tracer.setSlot] using h
  have hself : ((tr.setSlot i { tr.executors i with id := executorId }).executors i).id =
      executorId := by
    simp [Tracer.setSlot]
  have hother : ∀ j ≠ i, ((tr.setSlot i { tr.executors i with id := executorId }).executors j).id =
      (tr.executors j).id := by
    intro j hj
    simp [Tracer.setSlot, hj]
  constructor
  · intro j k
    by_cases hj : j = i
    · by_cases hk : k = i
      · exact fun _ _ => hj.trans hk.symm
      · rw [hj, hself, hother k hk]
        exact fun heq _ => absurd heq.symm (hnew k)
    · by_cases hk : k = i
      · rw [hk, hself, hother j hj]
        exact fun heq _ => absurd heq (hnew j)
      · rw [hother j hj, hother k hk]
        exact h.distinct j k
  · intro j hj
    rcases eq_or_ne j i with rfl | hne
    · rw [← h.kept j hj] at hj
      exact absurd hfree hj
    · rw [hother j hne]
      exact h.kept j hj
  · intro j
    rcases eq_or_ne j i with rfl | hne
    · rw [hself]
      exact fun _ => hmem
    · rw [hother j hne]
      exact h.known j

/-! ## The stack of slots -/

/-- A slot keeps what the account has of an open poll. -/
structure Holds (slot : ExecutorSlot) (f : Frame Poll) : Prop where
  id : slot.id = f.label.executorId
  since : slot.currentBegin = UInt32.ofNat f.since
  stolen : slot.stolenTicks = UInt32.ofNat f.stolen

/-- The slot on a level of the core's stack. -/
def slotAt (setup : Setup ν) (tr : Tracer ν) (level : ℕ) : Option (Fin maxExecutors) :=
  (position level).bind fun frame => position (tr.nestStack setup.core frame)

def Stacked (setup : Setup ν) (tr : Tracer ν) : List (Frame Poll) → Prop
  | [] => True
  | f :: frames =>
    (∃ i, slotAt setup tr frames.length = some i ∧ Holds (tr.executors i) f) ∧
      Stacked setup tr frames

/-- The tracer knows the open polls, and no slot holds a charge from before. -/
structure OpenPolls (setup : Setup ν) (tr : Tracer ν) (frames : List (Frame Poll)) : Prop where
  depth : tr.nestDepth setup.core = frames.length
  stacked : Stacked setup tr frames
  nodup : (frames.map (·.label.executorId)).Nodup
  nonzero : (0 : UInt32) ∉ frames.map (·.label.executorId)
  clear : ∀ i, (tr.executors i).id ∉ frames.map (·.label.executorId) →
    (tr.executors i).stolenTicks = 0

variable {frames : List (Frame Poll)} {tr' : Tracer ν}

theorem Stacked.exists_slot (h : Stacked setup tr frames) {f : Frame Poll} (hf : f ∈ frames) :
    ∃ i, Holds (tr.executors i) f := by
  induction frames with
  | nil => cases hf
  | cons g frames ih =>
      obtain ⟨⟨i, -, hi⟩, hrest⟩ := h
      rcases List.mem_cons.mp hf with rfl | hf
      · exact ⟨i, hi⟩
      · exact ih hrest hf

/-- What the stack says depends on its levels and on the slots of the open polls. -/
theorem Stacked.congr (h : Stacked setup tr frames)
    (hlevels : ∀ level < frames.length, slotAt setup tr' level = slotAt setup tr level)
    (hslots : ∀ i, ∀ f ∈ frames, Holds (tr.executors i) f → Holds (tr'.executors i) f) :
    Stacked setup tr' frames := by
  induction frames with
  | nil => trivial
  | cons f frames ih =>
      obtain ⟨⟨i, hlevel, hi⟩, hrest⟩ := h
      refine ⟨⟨i, ?_, hslots i f List.mem_cons_self hi⟩, ih hrest ?_ ?_⟩
      · rw [hlevels _ (by simp), hlevel]
      · exact fun level hlt => hlevels level (hlt.trans (by simp))
      · exact fun i g hg => hslots i g (List.mem_cons_of_mem _ hg)

/-- The open polls are of executors with slots, so the stack has room for one more. -/
theorem OpenPolls.length_lt (h : OpenPolls setup tr frames) {i : Fin maxExecutors}
    (hnew : (tr.executors i).id ∉ frames.map (·.label.executorId)) :
    frames.length < maxExecutors := by
  have hsubset : (tr.executors i).id :: frames.map (·.label.executorId) ⊆ tr.executorIds := by
    refine List.cons_subset.mpr ⟨mem_executorIds.mpr ⟨i, rfl⟩, fun id hid => ?_⟩
    obtain ⟨f, hf, rfl⟩ := List.mem_map.mp hid
    obtain ⟨j, hj⟩ := h.stacked.exists_slot hf
    exact mem_executorIds.mpr ⟨j, hj.id⟩
  have hlength := (List.subperm_of_subset (List.nodup_cons.mpr ⟨hnew, h.nodup⟩) hsubset).length_le
  rw [length_executorIds, List.length_cons, List.length_map] at hlength
  omega

theorem OpenPolls.congr (h : OpenPolls setup tr frames)
    (hdepth : tr'.nestDepth setup.core = tr.nestDepth setup.core)
    (hstack : tr'.nestStack setup.core = tr.nestStack setup.core)
    (hslots : ∀ i, (tr'.executors i).id = (tr.executors i).id ∧
      (tr'.executors i).currentBegin = (tr.executors i).currentBegin ∧
      (tr'.executors i).stolenTicks = (tr.executors i).stolenTicks) :
    OpenPolls setup tr' frames := by
  constructor
  · rw [hdepth, h.depth]
  · refine h.stacked.congr (fun level _ => ?_) fun i f _ hf => ?_
    · simp only [slotAt, hstack]
    · exact ⟨(hslots i).1.trans hf.id, (hslots i).2.1.trans hf.since,
        (hslots i).2.2.trans hf.stolen⟩
  · exact h.nodup
  · exact h.nonzero
  · intro i
    rw [(hslots i).1, (hslots i).2.2]
    exact h.clear i

theorem OpenPolls.claim (h : OpenPolls setup tr frames) {executorId : UInt32}
    {i : Fin maxExecutors}
    (hslot : (tr.executors i).id = executorId ∨
      (tr.executors i).id = 0 ∧ ∀ j, (tr.executors j).id ≠ executorId) :
    OpenPolls setup (tr.setSlot i { tr.executors i with id := executorId }) frames := by
  rcases hslot with rfl | ⟨hfree, -⟩
  · simpa [Tracer.setSlot] using h
  constructor
  · exact h.depth
  · refine h.stacked.congr (fun level _ => rfl) fun j f hf hj => ?_
    -- A slot that holds a poll is not free.
    have hne : j ≠ i := by
      rintro rfl
      exact h.nonzero (List.mem_map.mpr ⟨f, hf, hj.id.symm.trans hfree⟩)
    simpa [Tracer.setSlot, hne] using hj
  · exact h.nodup
  · exact h.nonzero
  · intro j
    by_cases hj : j = i
    · subst hj
      intro _
      simpa [Tracer.setSlot] using h.clear j (hfree ▸ h.nonzero)
    · simpa [Tracer.setSlot, hj] using h.clear j

/-! ## The counters -/

def ranFor (executorId : UInt32) (poll : Poll) : Bool := poll.executorId = executorId

/-- Whether a poll counts for a node. -/
def ranOf [DecidableEq ν] (setup : Setup ν) (tr : Tracer ν) (node : ν) (poll : Poll) : Bool :=
  tr.nodeFor setup poll.taskId = some node

/-- The counters have grown by what has been credited, as far as they tell. -/
structure Counted [DecidableEq ν] (setup : Setup ν) (tr₀ tr : Tracer ν)
    (credits : List (Poll × ℕ)) : Prop where
  slots : ∀ i, (tr.executors i).execTicks = (tr₀.executors i).execTicks +
    UInt32.ofNat (credited (ranFor (tr.executors i).id) credits)
  registered : ∀ c ∈ credits, c.1.executorId ≠ 0 ∧ ∃ i, (tr.executors i).id = c.1.executorId
  taskIds : ∀ node, (tr.handles node).taskId = (tr₀.handles node).taskId
  nodes : ∀ node, (tr.handles node).execTicks = (tr₀.handles node).execTicks +
    UInt32.ofNat (credited (ranOf setup tr₀ node) credits)

variable [DecidableEq ν] {credits : List (Poll × ℕ)}

omit [DecidableEq ν] in
/-- The scan for a node looks at task ids. -/
theorem nodeFor_congr (h : ∀ node, (tr'.handles node).taskId = (tr.handles node).taskId)
    (taskId : UInt32) : tr'.nodeFor setup taskId = tr.nodeFor setup taskId := by
  simp only [Tracer.nodeFor, h]

theorem Counted.congr (h : Counted setup tr₀ tr credits)
    (hslots : ∀ i, (tr'.executors i).id = (tr.executors i).id ∧
      (tr'.executors i).execTicks = (tr.executors i).execTicks)
    (hhandles : tr'.handles = tr.handles) : Counted setup tr₀ tr' credits := by
  constructor
  · intro i
    rw [(hslots i).1, (hslots i).2]
    exact h.slots i
  · intro c hc
    obtain ⟨hne, i, hi⟩ := h.registered c hc
    exact ⟨hne, i, (hslots i).1.trans hi⟩
  · rw [hhandles]
    exact h.taskIds
  · rw [hhandles]
    exact h.nodes

theorem Counted.claim (h : Counted setup tr₀ tr credits) {executorId : UInt32}
    {i : Fin maxExecutors}
    (hslot : (tr.executors i).id = executorId ∨
      (tr.executors i).id = 0 ∧ ∀ j, (tr.executors j).id ≠ executorId) :
    Counted setup tr₀ (tr.setSlot i { tr.executors i with id := executorId }) credits := by
  rcases hslot with rfl | ⟨hfree, hnew⟩
  · simpa [Tracer.setSlot] using h
  constructor
  · intro j
    by_cases hj : j = i
    · subst hj
      -- Neither the free slot nor the executor that is new has a credit.
      have hbefore : credited (ranFor (tr.executors j).id) credits = 0 :=
        credited_eq_zero fun c hc => decide_eq_false (hfree ▸ (h.registered c hc).1)
      have hafter : credited (ranFor executorId) credits = 0 := by
        refine credited_eq_zero fun c hc => decide_eq_false fun heq => ?_
        obtain ⟨-, k, hk⟩ := h.registered c hc
        exact hnew k (hk.trans heq)
      have hslot := h.slots j
      rw [hbefore] at hslot
      simpa [Tracer.setSlot, hafter] using hslot
    · simpa [Tracer.setSlot, hj] using h.slots j
  · intro c hc
    obtain ⟨hne, j, hj⟩ := h.registered c hc
    have hji : j ≠ i := by
      rintro rfl
      exact hne (hj.symm.trans hfree)
    exact ⟨hne, j, by simpa [Tracer.setSlot, hji] using hj⟩
  · exact h.taskIds
  · exact h.nodes

/-- The tracer is where the account is. -/
structure Tracks (setup : Setup ν) (ids : List UInt32) (tr₀ tr : Tracer ν) (acc : Account Poll) :
    Prop where
  table : Table ids tr₀ tr
  polls : OpenPolls setup tr acc.frames
  counted : Counted setup tr₀ tr acc.credits

variable {acc : Account Poll}

/-- A hook finds the slot of its executor, and that changes nothing. -/
theorem Tracks.slotFor (h : Tracks setup ids tr₀ tr acc) (hids : ids.length ≤ maxExecutors)
    {executorId : UInt32} (hmem : executorId ∈ ids) :
    ∃ i tr', tr.slotFor executorId = some (i, tr') ∧ (tr'.executors i).id = executorId ∧
      Tracks setup ids tr₀ tr' acc := by
  obtain ⟨i, last, heq, hslot⟩ := h.table.slotFor_eq hids hmem
  refine ⟨i, _, heq, by simp [Tracer.setSlot], ?_⟩
  constructor
  · exact (h.table.claim hmem hslot).congr fun _ => rfl
  · exact (h.polls.claim hslot).congr rfl rfl fun _ => ⟨rfl, rfl, rfl⟩
  · exact (h.counted.claim hslot).congr (fun _ => ⟨rfl, rfl⟩) rfl

/-! ## The hooks, step by step -/

omit [DecidableEq ν] in
theorem executors_setSlot (tr : Tracer ν) (i j : Fin maxExecutors) (slot : ExecutorSlot) :
    (tr.setSlot i slot).executors j = if j = i then slot else tr.executors j := by
  simp [Tracer.setSlot, Function.update_apply]

/-- Other fields of a slot do not matter. -/
theorem Tracks.setSlot (h : Tracks setup ids tr₀ tr acc) {i : Fin maxExecutors}
    {slot : ExecutorSlot} (hid : slot.id = (tr.executors i).id)
    (hbegin : slot.currentBegin = (tr.executors i).currentBegin)
    (hstolen : slot.stolenTicks = (tr.executors i).stolenTicks)
    (hexec : slot.execTicks = (tr.executors i).execTicks) :
    Tracks setup ids tr₀ (tr.setSlot i slot) acc := by
  have hslots : ∀ j, ((tr.setSlot i slot).executors j).id = (tr.executors j).id ∧
      ((tr.setSlot i slot).executors j).currentBegin = (tr.executors j).currentBegin ∧
      ((tr.setSlot i slot).executors j).stolenTicks = (tr.executors j).stolenTicks ∧
      ((tr.setSlot i slot).executors j).execTicks = (tr.executors j).execTicks := by
    intro j
    rw [executors_setSlot]
    split
    · next hj => exact hj ▸ ⟨hid, hbegin, hstolen, hexec⟩
    · exact ⟨rfl, rfl, rfl, rfl⟩
  constructor
  · exact h.table.congr fun j => (hslots j).1
  · exact h.polls.congr rfl rfl fun j => ⟨(hslots j).1, (hslots j).2.1, (hslots j).2.2.1⟩
  · exact h.counted.congr (fun j => ⟨(hslots j).1, (hslots j).2.2.2⟩) rfl

theorem Tracks.onPollStart (h : Tracks setup ids tr₀ tr acc) (hids : ids.length ≤ maxExecutors)
    {executorId : UInt32} (hmem : executorId ∈ ids) :
    Tracks setup ids tr₀ (tr.onPollStart executorId) acc := by
  obtain ⟨i, tr', heq, -, htr'⟩ := h.slotFor hids hmem
  simp only [Tracer.onPollStart, heq]
  exact htr'.setSlot rfl rfl rfl rfl

theorem Tracks.onExecutorIdle (h : Tracks setup ids tr₀ tr acc)
    (hids : ids.length ≤ maxExecutors) {executorId now : UInt32} (hmem : executorId ∈ ids) :
    Tracks setup ids tr₀ (tr.onExecutorIdle now executorId) acc := by
  obtain ⟨i, tr', heq, -, htr'⟩ := h.slotFor hids hmem
  simp only [Tracer.onExecutorIdle, heq]
  split
  · exact htr'
  · exact htr'.setSlot rfl rfl rfl rfl

omit [DecidableEq ν] in
/-- The slot number that a poll puts on the stack. -/
theorem slotAt_push {level i : Fin maxExecutors}
    (hstack : tr'.nestStack setup.core = Function.update (tr.nestStack setup.core) level i) :
    slotAt setup tr' level = some i ∧
      ∀ below < level.val, slotAt setup tr' below = slotAt setup tr below := by
  constructor
  · simp [slotAt, hstack]
  · intro below hbelow
    unfold slotAt
    cases hpos : position below with
    | none => rfl
    | some f =>
        have hne : f ≠ level := by
          rintro rfl
          exact absurd (position_eq_some hpos) hbelow.ne
        simp [hstack, hne]

omit [DecidableEq ν] in
/-- One more poll, in a slot that none of the open polls has. -/
theorem OpenPolls.push (h : OpenPolls setup tr frames) {i level : Fin maxExecutors}
    {f : Frame Poll} (hnew : (tr.executors i).id ∉ frames.map (·.label.executorId))
    (hid : (tr.executors i).id = f.label.executorId) (hne : f.label.executorId ≠ 0)
    (hlevel : level.val = frames.length)
    (hdepth : tr'.nestDepth setup.core = frames.length + 1)
    (hstack : tr'.nestStack setup.core = Function.update (tr.nestStack setup.core) level i)
    (hslot : Holds (tr'.executors i) f) (hother : ∀ j ≠ i, tr'.executors j = tr.executors j) :
    OpenPolls setup tr' (f :: frames) := by
  obtain ⟨htop, hbelow⟩ := slotAt_push hstack
  constructor
  · exact hdepth
  · refine ⟨⟨i, hlevel ▸ htop, hslot⟩, h.stacked.congr (hlevel ▸ hbelow) ?_⟩
    intro j g hg hj
    have hji : j ≠ i := by
      rintro rfl
      exact hnew (List.mem_map.mpr ⟨g, hg, hj.id.symm⟩)
    rw [hother j hji]
    exact hj
  · rw [List.map_cons, List.nodup_cons, ← hid]
    exact ⟨hnew, h.nodup⟩
  · exact fun hmem => (List.mem_cons.mp hmem).elim (fun heq => hne heq.symm) h.nonzero
  · intro j hj
    rw [List.map_cons, List.mem_cons, not_or] at hj
    have hji : j ≠ i := by
      rintro rfl
      exact hj.1 hslot.id
    rw [hother j hji] at hj ⊢
    exact h.clear j hj.2

theorem Tracks.onTaskExecBegin (h : Tracks setup ids tr₀ tr acc)
    (hids : ids.length ≤ maxExecutors) {executorId taskId : UInt32} {t : ℕ}
    (hmem : executorId ∈ ids) (hne : executorId ≠ 0)
    (hnew : executorId ∉ acc.frames.map (·.label.executorId)) :
    Tracks setup ids tr₀ (tr.onTaskExecBegin setup (UInt32.ofNat t) executorId taskId)
      { acc with frames := ⟨⟨executorId, taskId⟩, t, 0⟩ :: acc.frames } := by
  obtain ⟨i, tr', heq, rfl, htr'⟩ := h.slotFor hids hmem
  have hroom := htr'.polls.length_lt hnew
  have hposition : position acc.frames.length = some ⟨acc.frames.length, hroom⟩ :=
    position_val ⟨acc.frames.length, hroom⟩
  simp only [Tracer.onTaskExecBegin, heq]
  have hdepth : (tr'.setSlot i { (tr'.executors i).wake (UInt32.ofNat t) with
      currentBegin := UInt32.ofNat t, currentTask := taskId }).nestDepth setup.core =
      acc.frames.length := htr'.polls.depth
  rw [hdepth, hposition]
  constructor
  · refine htr'.table.congr fun j => ?_
    rw [executors_setSlot]
    split
    · next hj => simp [hj]
    · rfl
  · have hlevel : (⟨acc.frames.length, hroom⟩ : Fin maxExecutors).val = acc.frames.length := rfl
    refine htr'.polls.push hnew rfl hne hlevel (by simp) (by simp [Tracer.setSlot]) ?_ ?_
    · refine ⟨?_, ?_, ?_⟩
      · simp [Tracer.setSlot]
      · simp [Tracer.setSlot]
      · simp [Tracer.setSlot, htr'.polls.clear i hnew]
    · intro j hj
      simp [Tracer.setSlot, hj]
  · refine htr'.counted.congr (fun j => ?_) rfl
    rw [executors_setSlot]
    split
    · next hj => simp [hj]
    · exact ⟨rfl, rfl⟩

section Charge

variable {ticks : ℕ} {raw : UInt32} {f g : Frame Poll} {i : Fin maxExecutors}

omit [DecidableEq ν] in
theorem chargeParent_zero (hdepth : tr.nestDepth setup.core = 1) :
    tr.chargeParent setup raw =
      { tr with nestDepth := Function.update tr.nestDepth setup.core 0 } := by
  simp [Tracer.chargeParent, hdepth]

omit [DecidableEq ν] in
theorem chargeParent_succ {level : ℕ} {parent : Fin maxExecutors}
    (hdepth : tr.nestDepth setup.core = level + 2)
    (hparent : slotAt setup tr level = some parent) :
    tr.chargeParent setup raw =
      { tr with
        nestDepth := Function.update tr.nestDepth setup.core (level + 1)
        executors := Function.update tr.executors parent
          { tr.executors parent with
            stolenTicks := (tr.executors parent).stolenTicks + raw } } := by
  unfold slotAt at hparent
  simp [Tracer.chargeParent, hdepth, hparent, Tracer.setSlot]

omit [DecidableEq ν] in
/-- Charging the parent leaves all but charges as it is. -/
theorem chargeParent_frame (setup : Setup ν) (tr : Tracer ν) (raw : UInt32)
    (j : Fin maxExecutors) :
    ((tr.chargeParent setup raw).executors j).id = (tr.executors j).id ∧
      ((tr.chargeParent setup raw).executors j).currentBegin = (tr.executors j).currentBegin ∧
      ((tr.chargeParent setup raw).executors j).execTicks = (tr.executors j).execTicks ∧
      (tr.chargeParent setup raw).handles = tr.handles := by
  simp only [Tracer.chargeParent]
  by_cases hcur : tr.nestDepth setup.core > 0
  · simp only [if_pos hcur]
    split
    · split
      · next parent _ => by_cases hj : j = parent <;> simp [Tracer.setSlot, hj]
      · exact ⟨rfl, rfl, rfl, rfl⟩
    · exact ⟨rfl, rfl, rfl, rfl⟩
  · have hzero : tr.nestDepth setup.core = 0 := by omega
    simp [hzero]

omit [DecidableEq ν] in
/-- A poll ends: its slot is cleared, and the poll below is charged. -/
theorem OpenPolls.pop (h : OpenPolls setup tr (f :: frames)) (htable : Table ids tr₀ tr)
    (hi : (tr.executors i).id = f.label.executorId) {slot : ExecutorSlot}
    (hclear : slot.stolenTicks = 0) :
    OpenPolls setup ((tr.setSlot i slot).chargeParent setup (UInt32.ofNat ticks))
      (steal ticks frames) := by
  have hne : (tr.executors i).id ≠ 0 := by
    rw [hi]
    exact fun heq => h.nonzero (heq ▸ List.mem_cons_self)
  -- Another slot is of another executor.
  have hother : ∀ j ≠ i, (tr.executors j).id ≠ f.label.executorId := by
    intro j hj heq
    exact hj (htable.distinct i j (hi.trans heq.symm) hne).symm
  obtain ⟨hfresh, hnodup⟩ := List.nodup_cons.mp h.nodup
  cases frames with
  | nil =>
      have hdepth : (tr.setSlot i slot).nestDepth setup.core = 1 := h.depth
      rw [chargeParent_zero hdepth]
      refine ⟨by simp [steal], trivial, List.nodup_nil, by simp [steal], fun j _ => ?_⟩
      by_cases hj : j = i
      · simp [Tracer.setSlot, hj, hclear]
      · have hstolen := h.clear j (by simpa using hother j hj)
        simpa [Tracer.setSlot, hj] using hstolen
  | cons g frames =>
      obtain ⟨-, ⟨parent, hlevel, hparent⟩, hrest⟩ := h.stacked
      obtain ⟨hgfresh, -⟩ := List.nodup_cons.mp hnodup
      have hdepth : (tr.setSlot i slot).nestDepth setup.core = frames.length + 2 := h.depth
      have hne' : parent ≠ i := by
        rintro rfl
        exact hfresh (List.mem_cons.mpr (.inl (hi.symm.trans hparent.id)))
      have hlevel' : slotAt setup (tr.setSlot i slot) frames.length = some parent := hlevel
      rw [chargeParent_succ hdepth hlevel']
      constructor
      · simp [steal]
      · refine ⟨⟨parent, hlevel, ?_⟩, hrest.congr (fun _ _ => rfl) fun j k hk hj => ?_⟩
        · refine ⟨?_, ?_, ?_⟩
          · simpa [Tracer.setSlot, hne'] using hparent.id
          · simpa [Tracer.setSlot, hne'] using hparent.since
          · simp [Tracer.setSlot, hne', hparent.stolen, UInt32.ofNat_add]
        · have hji : j ≠ i := by
            rintro rfl
            refine hfresh (List.mem_cons_of_mem _ (List.mem_map.mpr ⟨k, hk, ?_⟩))
            exact hj.id.symm.trans hi
          have hjparent : j ≠ parent := by
            rintro rfl
            exact hgfresh (List.mem_map.mpr ⟨k, hk, hj.id.symm.trans hparent.id⟩)
          simpa [Tracer.setSlot, hji, hjparent] using hj
      · simpa [steal] using hnodup
      · intro hzero
        exact h.nonzero (List.mem_cons_of_mem _ (by simpa [steal] using hzero))
      · intro j hj
        have hjparent : j ≠ parent := by
          rintro rfl
          exact hj (by simp [steal, Tracer.setSlot, hne', hparent.id])
        by_cases hji : j = i
        · simp [Tracer.setSlot, hji, hne'.symm, hclear]
        · have hj' : (tr.executors j).id ∉ (f :: g :: frames).map (·.label.executorId) := by
            intro hmem
            rcases List.mem_cons.mp hmem with heq | hmem
            · exact hother j hji heq
            · exact hj (by simpa [steal, Tracer.setSlot, hji, hjparent] using hmem)
          simpa [Tracer.setSlot, hji, hjparent] using h.clear j hj'

theorem creditNode_frame (setup : Setup ν) (tr : Tracer ν) (taskId elapsed : UInt32) :
    (tr.creditNode setup taskId elapsed).executors = tr.executors ∧
      (tr.creditNode setup taskId elapsed).nestDepth = tr.nestDepth ∧
      (tr.creditNode setup taskId elapsed).nestStack = tr.nestStack := by
  unfold Tracer.creditNode
  split
  · exact ⟨rfl, rfl, rfl⟩
  · exact ⟨rfl, rfl, rfl⟩

/-- The handles behind a credit. -/
theorem handles_creditNode (tr : Tracer ν) (taskId elapsed : UInt32) (node : ν) :
    ((tr.creditNode setup taskId elapsed).handles node).taskId = (tr.handles node).taskId ∧
      ((tr.creditNode setup taskId elapsed).handles node).execTicks =
        if tr.nodeFor setup taskId = some node then (tr.handles node).execTicks + elapsed
        else (tr.handles node).execTicks := by
  unfold Tracer.creditNode
  cases hnode : tr.nodeFor setup taskId with
  | none => simp
  | some n =>
      by_cases hn : node = n
      · simp [hn]
      · simp [hn, Ne.symm hn]

theorem add_ofNat_add_ofNat (count : UInt32) (a b : ℕ) :
    count + UInt32.ofNat b + UInt32.ofNat a = count + UInt32.ofNat (a + b) := by
  rw [Nat.add_comm, UInt32.ofNat_add, UInt32.add_assoc]

theorem Counted.credit (h : Counted setup tr₀ tr credits) (htable : Table ids tr₀ tr)
    {poll : Poll} {elapsed : ℕ} {slot : ExecutorSlot} (hi : (tr.executors i).id = poll.executorId)
    (hne : poll.executorId ≠ 0) (hid : slot.id = poll.executorId)
    (hexec : slot.execTicks = (tr.executors i).execTicks + UInt32.ofNat elapsed) :
    Counted setup tr₀ ((tr.setSlot i slot).creditNode setup poll.taskId (UInt32.ofNat elapsed))
      ((poll, elapsed) :: credits) := by
  obtain ⟨hexecutors, -, -⟩ :=
    creditNode_frame setup (tr.setSlot i slot) poll.taskId (UInt32.ofNat elapsed)
  constructor
  · intro j
    rw [hexecutors, executors_setSlot, credited_cons]
    by_cases hj : j = i
    · subst hj
      have hslot := h.slots j
      rw [if_pos rfl, hexec, hslot, hid, hi, add_ofNat_add_ofNat]
      simp [ranFor]
    · have hother : (tr.executors j).id ≠ poll.executorId := fun heq =>
        hj (htable.distinct j i (heq.trans hi.symm) (heq ▸ hne))
      simpa [hj, ranFor, Ne.symm hother] using h.slots j
  · intro c hc
    rw [hexecutors]
    rcases List.mem_cons.mp hc with rfl | hc
    · exact ⟨hne, i, by simp [Tracer.setSlot, hid]⟩
    · obtain ⟨hcne, j, hj⟩ := h.registered c hc
      refine ⟨hcne, j, ?_⟩
      rw [executors_setSlot]
      split
      · next heq => exact (hid.trans hi.symm).trans (heq ▸ hj)
      · exact hj
  · intro node
    rw [(handles_creditNode _ _ _ _).1]
    exact h.taskIds node
  · intro node
    have hfor : (tr.setSlot i slot).nodeFor setup poll.taskId = tr₀.nodeFor setup poll.taskId :=
      nodeFor_congr h.taskIds poll.taskId
    rw [(handles_creditNode _ _ _ _).2, credited_cons, hfor]
    have hnode : ((tr.setSlot i slot).handles node).execTicks = _ := h.nodes node
    rw [hnode]
    by_cases hran : tr₀.nodeFor setup poll.taskId = some node
    · rw [if_pos hran, add_ofNat_add_ofNat]
      simp [hran, ranOf]
    · simp [hran, ranOf]

end Charge

section End

variable {f : Frame Poll} {i : Fin maxExecutors} {ticks : ℕ}

/-- The poll is off the stack, and not yet credited. -/
theorem Tracks.charge (h : Tracks setup ids tr₀ tr acc) (hframes : acc.frames = f :: frames)
    {slot : ExecutorSlot} (hi : (tr.executors i).id = f.label.executorId)
    (hid : slot.id = (tr.executors i).id) (hclear : slot.stolenTicks = 0)
    (hexec : slot.execTicks = (tr.executors i).execTicks) :
    Tracks setup ids tr₀ ((tr.setSlot i slot).chargeParent setup (UInt32.ofNat ticks))
      { acc with frames := steal ticks frames } := by
  have hslots : ∀ j, ((tr.setSlot i slot).executors j).id = (tr.executors j).id ∧
      ((tr.setSlot i slot).executors j).execTicks = (tr.executors j).execTicks := by
    intro j
    rw [executors_setSlot]
    split
    · next hj => exact hj ▸ ⟨hid, hexec⟩
    · exact ⟨rfl, rfl⟩
  have hframe := chargeParent_frame setup (tr.setSlot i slot) (UInt32.ofNat ticks)
  have hpolls : OpenPolls setup tr (f :: frames) := hframes ▸ h.polls
  constructor
  · exact h.table.congr fun j => (hframe j).1.trans (hslots j).1
  · exact hpolls.pop h.table hi hclear
  · refine h.counted.congr (fun j => ⟨?_, ?_⟩) (hframe i).2.2.2
    · exact (hframe j).1.trans (hslots j).1
    · exact (hframe j).2.2.1.trans (hslots j).2

theorem Tracks.credit (h : Tracks setup ids tr₀ tr acc) {poll : Poll} {elapsed : ℕ}
    {slot : ExecutorSlot} (hi : (tr.executors i).id = poll.executorId)
    (hne : poll.executorId ≠ 0) (hid : slot.id = (tr.executors i).id)
    (hbegin : slot.currentBegin = (tr.executors i).currentBegin)
    (hstolen : slot.stolenTicks = (tr.executors i).stolenTicks)
    (hexec : slot.execTicks = (tr.executors i).execTicks + UInt32.ofNat elapsed) :
    Tracks setup ids tr₀
      ((tr.setSlot i slot).creditNode setup poll.taskId (UInt32.ofNat elapsed))
      { acc with credits := (poll, elapsed) :: acc.credits } := by
  have hslots : ∀ j, ((tr.setSlot i slot).executors j).id = (tr.executors j).id ∧
      ((tr.setSlot i slot).executors j).currentBegin = (tr.executors j).currentBegin ∧
      ((tr.setSlot i slot).executors j).stolenTicks = (tr.executors j).stolenTicks := by
    intro j
    rw [executors_setSlot]
    split
    · next hj => exact hj ▸ ⟨hid, hbegin, hstolen⟩
    · exact ⟨rfl, rfl, rfl⟩
  obtain ⟨hexecutors, hdepth, hstack⟩ :=
    creditNode_frame setup (tr.setSlot i slot) poll.taskId (UInt32.ofNat elapsed)
  constructor
  · exact h.table.congr fun j => by rw [hexecutors, (hslots j).1]
  · refine h.polls.congr (by rw [hdepth]; rfl) (by rw [hstack]; rfl) fun j => ?_
    rw [hexecutors]
    exact hslots j
  · exact h.counted.credit h.table hi hne (hid.trans hi) hexec

theorem saturatingSub_ofNat {a b : ℕ} (hle : b ≤ a) (hlt : a < 2 ^ 32) :
    Tracer.saturatingSub (UInt32.ofNat a) (UInt32.ofNat b) = UInt32.ofNat (a - b) := by
  unfold Tracer.saturatingSub
  rw [if_neg, UInt32.ofNat_sub hle]
  rw [UInt32.ofNat_lt_iff_lt hlt (hle.trans_lt hlt)]
  exact not_lt.mpr hle

theorem Tracks.onTaskExecEnd (h : Tracks setup ids tr₀ tr acc)
    (hids : ids.length ≤ maxExecutors) {t : ℕ} (hmem : f.label.executorId ∈ ids)
    (hframes : acc.frames = f :: frames) (hsound : f.since + f.stolen ≤ t)
    (hspan : t < f.since + 2 ^ 32) :
    Tracks setup ids tr₀
      (tr.onTaskExecEnd setup (UInt32.ofNat t) f.label.executorId f.label.taskId)
      { frames := steal (t - f.since) frames
        credits := (f.label, t - f.since - f.stolen) :: acc.credits } := by
  obtain ⟨i, tr', heq, hid, htr'⟩ := h.slotFor hids hmem
  have hpolls : OpenPolls setup tr' (f :: frames) := hframes ▸ htr'.polls
  have hne : f.label.executorId ≠ 0 := fun hzero => hpolls.nonzero (hzero ▸ List.mem_cons_self)
  -- The slot of the executor is the one on the stack.
  obtain ⟨⟨j, -, hj⟩, -⟩ := hpolls.stacked
  obtain rfl : j = i := htr'.table.distinct j i (hj.id.trans hid.symm) (hj.id ▸ hne)
  have hraw : UInt32.ofNat t - (tr'.executors j).currentBegin = UInt32.ofNat (t - f.since) := by
    rw [hj.since, UInt32.ofNat_sub (by omega)]
  have helapsed : Tracer.saturatingSub (UInt32.ofNat (t - f.since))
      (tr'.executors j).stolenTicks = UInt32.ofNat (t - f.since - f.stolen) := by
    rw [hj.stolen, saturatingSub_ofNat (by omega) (by omega)]
  have hcharged : Tracks setup ids tr₀
      ((tr'.setSlot j { tr'.executors j with currentTask := 0, stolenTicks := 0 }).chargeParent
        setup (UInt32.ofNat (t - f.since)))
      { acc with frames := steal (t - f.since) frames } :=
    htr'.charge hframes hid rfl rfl rfl
  have hslot := (chargeParent_frame setup
    (tr'.setSlot j { tr'.executors j with currentTask := 0, stolenTicks := 0 })
    (UInt32.ofNat (t - f.since)) j).1
  rw [executors_setSlot, if_pos rfl] at hslot
  simp only [Tracer.onTaskExecEnd, heq, hraw, helapsed]
  generalize Tracer.chargeParent setup _ (UInt32.ofNat (t - f.since)) = charged at hcharged hslot ⊢
  exact hcharged.credit (hslot.trans hid) hne rfl rfl rfl rfl

end End

/-! ## Runs -/

/-- A hook call takes the tracer along with the account. -/
theorem Tracks.call (h : Tracks setup ids tr₀ tr acc) (hids : ids.length ≤ maxExecutors)
    {c : HookCall} (hmem : c.hook.executorId ∈ ids) (hne : c.hook.executorId ≠ 0)
    (hfits : c.event.mark.Fits (acc.frames.map (·.label)))
    (hnew : ∀ executorId taskId, c.hook = .execBegin executorId taskId →
      executorId ∉ (acc.frames.map (·.label)).map (·.executorId))
    (hsound : Sound c.ticks acc.frames) (hspan : ∀ f ∈ acc.frames, c.ticks < f.since + 2 ^ 32) :
    Tracks setup ids tr₀ (tr.call setup c) (acc.step c.event) := by
  obtain ⟨t, hook⟩ := c
  cases hook with
  | pollStart executorId => exact h.onPollStart hids hmem
  | executorIdle executorId => exact h.onExecutorIdle hids hmem
  | execBegin executorId taskId =>
      have hfresh := hnew executorId taskId rfl
      rw [List.map_map] at hfresh
      exact h.onTaskExecBegin hids hmem hne hfresh
  | execEnd executorId taskId =>
      obtain ⟨frames, credits⟩ := acc
      cases frames with
      | nil => cases hfits
      | cons f frames =>
          have hlabel : f.label = ⟨executorId, taskId⟩ := Option.some.inj hfits
          obtain rfl : executorId = f.label.executorId := by rw [hlabel]
          obtain rfl : taskId = f.label.taskId := by rw [hlabel]
          exact h.onTaskExecEnd hids hmem rfl hsound.1 (hspan f List.mem_cons_self)

theorem Tracks.run {calls : List HookCall} {start now : ℕ} (h : Tracks setup ids tr₀ tr acc)
    (hids : ids.length ≤ maxExecutors)
    (hnested : WellNested (acc.frames.map (·.label)) now (calls.map HookCall.event))
    (hexclusive : Exclusive (acc.frames.map (·.label)) calls)
    (hmem : ∀ c ∈ calls, c.hook.executorId ∈ ids) (hne : ∀ c ∈ calls, c.hook.executorId ≠ 0)
    (hspan : ∀ c ∈ calls, c.ticks < start + 2 ^ 32) (hstart : start ≤ now)
    (hsince : ∀ f ∈ acc.frames, start ≤ f.since) (hsound : Sound now acc.frames) :
    Tracks setup ids tr₀ (calls.foldl (Tracer.call setup) tr)
      ((calls.map HookCall.event).foldl Account.step acc) := by
  induction calls generalizing tr acc now with
  | nil => exact h
  | cons c calls ih =>
      obtain ⟨hnow, hfits, hnested⟩ := hnested
      obtain ⟨hnew, hexclusive⟩ := hexclusive
      have hstep : Tracks setup ids tr₀ (tr.call setup c) (acc.step c.event) := by
        refine h.call hids (hmem c List.mem_cons_self) (hne c List.mem_cons_self) hfits hnew
          (hsound.mono hnow) fun f hf => ?_
        have hlt := hspan c List.mem_cons_self
        have hle := hsince f hf
        omega
      rw [← Account.labels_step hfits] at hnested hexclusive
      exact ih hstep hnested hexclusive (fun c' hc' => hmem c' (List.mem_cons_of_mem _ hc'))
        (fun c' hc' => hne c' (List.mem_cons_of_mem _ hc'))
        (fun c' hc' => hspan c' (List.mem_cons_of_mem _ hc')) (Nat.le_trans hstart hnow)
        (Account.since_step (Nat.le_trans hstart hnow) hsince) (Account.sound_step hsound hnow)

/-! ## What a run adds up to -/

/-- Nothing is being polled on the core, and nothing is left over from before. -/
structure Tracer.Quiet (setup : Setup ν) (tr : Tracer ν) : Prop where
  depth : tr.nestDepth setup.core = 0
  stolen : ∀ i, (tr.executors i).stolenTicks = 0
  distinct : ∀ i j, (tr.executors i).id = (tr.executors j).id → (tr.executors i).id ≠ 0 → i = j
  free : ∀ i, (tr.executors i).id = 0 → (tr.executors i).execTicks = 0

/-- The executors of a run, and those with slots already, are among as many as there are slots. -/
def FewExecutors (tr : Tracer ν) (calls : List HookCall) : Prop :=
  ∃ ids : List UInt32, ids.length ≤ maxExecutors ∧
    (∀ i, (tr.executors i).id ≠ 0 → (tr.executors i).id ∈ ids) ∧
    ∀ c ∈ calls, c.hook.executorId ∈ ids

/-- `executor_stats(..).unwrap_or_default().exec_ticks` -/
def Tracer.execTicksOf (tr : Tracer ν) (now executorId : UInt32) : UInt32 :=
  ((tr.executorStats now executorId).getD {}).execTicks

/-- The counters have grown by the time that was spent. -/
structure Exact (setup : Setup ν) (before after : Tracer ν) (start : ℕ) (calls : List HookCall) :
    Prop where
  node : ∀ node, ((after.handles node).execTicks - (before.handles node).execTicks).toNat =
    ticksIn (ranOf setup before node) [] start (calls.map HookCall.event)
  executor : ∀ executorId ≠ 0, ∀ now now',
    (after.execTicksOf now' executorId - before.execTicksOf now executorId).toNat =
      ticksIn (ranFor executorId) [] start (calls.map HookCall.event)
  total : ∑ i, ((after.executors i).execTicks - (before.executors i).execTicks).toNat =
    ticksIn (fun _ => true) [] start (calls.map HookCall.event)

omit [DecidableEq ν] in
theorem execTicksOf_eq {now executorId : UInt32} {i : Fin maxExecutors}
    (hdistinct : ∀ i j, (tr.executors i).id = (tr.executors j).id → (tr.executors i).id ≠ 0 →
      i = j) (hi : (tr.executors i).id = executorId) (hne : executorId ≠ 0) :
    tr.execTicksOf now executorId = (tr.executors i).execTicks := by
  unfold Tracer.execTicksOf Tracer.executorStats
  cases hfind : (List.finRange maxExecutors).find?
      fun i => (tr.executors i).id = executorId with
  | none => simpa [hi] using List.find?_eq_none.mp hfind i (List.mem_finRange i)
  | some j =>
      have hj : (tr.executors j).id = executorId := by simpa using List.find?_some hfind
      obtain rfl := hdistinct j i (hj.trans hi.symm) (hj ▸ hne)
      rfl

omit [DecidableEq ν] in
theorem execTicksOf_eq_zero {now executorId : UInt32}
    (hnone : ∀ i, (tr.executors i).id ≠ executorId) : tr.execTicksOf now executorId = 0 := by
  have hfind : ((List.finRange maxExecutors).find?
      fun i => (tr.executors i).id = executorId) = none := by
    simpa [List.find?_eq_none] using hnone
  simp [Tracer.execTicksOf, Tracer.executorStats, hfind]

theorem ofNat_growth {count count₀ : UInt32} {ticks : ℕ} (hlt : ticks < 2 ^ 32)
    (h : count = count₀ + UInt32.ofNat ticks) : (count - count₀).toNat = ticks := by
  rw [h, UInt32.add_comm, UInt32.add_sub_cancel, UInt32.toNat_ofNat', Nat.mod_eq_of_lt hlt]

omit [DecidableEq ν] in
/-- Each credit is one slot's. -/
theorem sum_credited (hdistinct : ∀ i j, (tr.executors i).id = (tr.executors j).id →
    (tr.executors i).id ≠ 0 → i = j) (hcredits : ∀ c ∈ credits, c.1.executorId ≠ 0 ∧
      ∃ i, (tr.executors i).id = c.1.executorId) :
    ∑ i, credited (ranFor (tr.executors i).id) credits = credited (fun _ => true) credits := by
  induction credits with
  | nil => simp [credited]
  | cons c credits ih =>
      obtain ⟨poll, ticks⟩ := c
      obtain ⟨hne, i, hi⟩ := hcredits (poll, ticks) List.mem_cons_self
      have hone : ∀ j, (if ranFor (tr.executors j).id poll then ticks else 0) =
          if j = i then ticks else 0 := by
        intro j
        by_cases hj : j = i
        · simp [hj, ranFor, hi]
        · have hother : poll.executorId ≠ (tr.executors j).id := fun heq =>
            hj (hdistinct j i (heq.symm.trans hi.symm) (heq ▸ hne))
          simp [hj, ranFor, hother]
      simp only [credited_cons, Finset.sum_add_distrib, hone, Finset.sum_ite_eq',
        Finset.mem_univ, if_true]
      rw [ih fun c hc => hcredits c (List.mem_cons_of_mem _ hc)]

theorem Tracer.Quiet.tracks (h : tr.Quiet setup)
    (hids : ∀ i, (tr.executors i).id ≠ 0 → (tr.executors i).id ∈ ids) :
    Tracks setup ids tr tr ⟨[], []⟩ where
  table := ⟨h.distinct, fun _ _ => rfl, hids⟩
  polls := ⟨h.depth, trivial, List.nodup_nil, by simp, fun i _ => h.stolen i⟩
  counted := ⟨by simp [credited], by simp, fun _ => rfl, by simp [credited]⟩

theorem Tracks.quiet (h : Tracks setup ids tr₀ tr acc) (hquiet : tr₀.Quiet setup)
    (hframes : acc.frames = []) : tr.Quiet setup := by
  have hpolls : OpenPolls setup tr [] := hframes ▸ h.polls
  refine ⟨hpolls.depth, fun i => hpolls.clear i (by simp), h.table.distinct, fun i hi => ?_⟩
  have hi₀ : (tr₀.executors i).id = 0 := by
    by_contra hne
    exact hne ((h.table.kept i hne).symm.trans hi)
  have hzero : credited (ranFor (tr.executors i).id) acc.credits = 0 :=
    credited_eq_zero fun c hc => decide_eq_false (hi ▸ (h.counted.registered c hc).1)
  rw [h.counted.slots i, hzero, hquiet.free i hi₀]
  rfl

/-- An executor's counter has grown by its credits. -/
theorem Tracks.execTicksOf_eq_add (h : Tracks setup ids tr₀ tr acc) (hquiet : tr₀.Quiet setup)
    {executorId : UInt32} (hne : executorId ≠ 0) (now now' : UInt32) :
    tr.execTicksOf now' executorId = tr₀.execTicksOf now executorId +
      UInt32.ofNat (credited (ranFor executorId) acc.credits) := by
  by_cases hslot : ∃ i, (tr.executors i).id = executorId
  · obtain ⟨i, hi⟩ := hslot
    rw [execTicksOf_eq h.table.distinct hi hne, h.counted.slots i, hi]
    congr 1
    by_cases hfree : (tr₀.executors i).id = 0
    · -- The executor came to its slot in the run.
      have hnone : ∀ j, (tr₀.executors j).id ≠ executorId := by
        intro j hj
        have hj' := (h.table.kept j (hj ▸ hne)).trans hj
        obtain rfl := h.table.distinct j i (hj'.trans hi.symm) (hj' ▸ hne)
        exact hne (hj.symm.trans hfree)
      rw [hquiet.free i hfree, execTicksOf_eq_zero hnone]
    · exact (execTicksOf_eq hquiet.distinct ((h.table.kept i hfree).symm.trans hi) hne).symm
  · have hnone : ∀ i, (tr.executors i).id ≠ executorId := fun i hi => hslot ⟨i, hi⟩
    have hnone₀ : ∀ i, (tr₀.executors i).id ≠ executorId := fun i hi =>
      hnone i ((h.table.kept i (hi ▸ hne)).trans hi)
    have hzero : credited (ranFor executorId) acc.credits = 0 := by
      refine credited_eq_zero fun c hc => decide_eq_false fun heq => ?_
      obtain ⟨-, i, hi⟩ := h.counted.registered c hc
      exact hnone i (hi.trans heq)
    rw [execTicksOf_eq_zero hnone, execTicksOf_eq_zero hnone₀, hzero]
    rfl

/-- Where the credits are the time that was spent, and less than a period of the clock, the
counters are exact. -/
theorem Tracks.exact {start : ℕ} {calls : List HookCall} (h : Tracks setup ids tr₀ tr acc)
    (hquiet : tr₀.Quiet setup)
    (hcredits : ∀ p, credited p acc.credits = ticksIn p [] start (calls.map HookCall.event))
    (hlt : ∀ p, ticksIn p [] start (calls.map HookCall.event) < 2 ^ 32) :
    Exact setup tr₀ tr start calls := by
  constructor
  · intro node
    refine ofNat_growth (hlt _) ?_
    rw [h.counted.nodes node, hcredits]
  · intro executorId hne now now'
    refine ofNat_growth (hlt _) ?_
    rw [h.execTicksOf_eq_add hquiet hne now now', hcredits]
  · have hgrowth : ∀ i, ((tr.executors i).execTicks - (tr₀.executors i).execTicks).toNat =
        credited (ranFor (tr.executors i).id) acc.credits := by
      intro i
      refine ofNat_growth ?_ (h.counted.slots i)
      rw [hcredits]
      exact hlt _
    simp only [hgrowth]
    rw [sum_credited h.table.distinct h.counted.registered, hcredits]

/-- From a quiet tracer, a run of polls of at most four executors, which preempt others but
never themselves, leaves exact counters and a quiet tracer. -/
theorem exact_of_run {start : ℕ} {calls : List HookCall} (hquiet : tr.Quiet setup)
    (hrun : Run start calls) (hfew : FewExecutors tr calls) :
    Exact setup tr (calls.foldl (Tracer.call setup) tr) start calls ∧
      (calls.foldl (Tracer.call setup) tr).Quiet setup := by
  obtain ⟨ids, hids, hslots, hcalls⟩ := hfew
  have htracks := (hquiet.tracks hslots).run hids hrun.nested hrun.exclusive hcalls hrun.nonzero
    hrun.span (Nat.le_refl start) (by simp) trivial
  have hcredits : ∀ p, credited p ((calls.map HookCall.event).foldl Account.step ⟨[], []⟩).credits =
      ticksIn p [] start (calls.map HookCall.event) := by
    intro p
    have hacc := (@credited_run _ p ⟨[], []⟩ start _ trivial hrun.nested).2
    simpa [credited, owed] using hacc
  have hframes : ((calls.map HookCall.event).foldl Account.step ⟨[], []⟩).frames = [] :=
    (@credited_run _ (fun _ => true) ⟨[], []⟩ start _ trivial hrun.nested).1
  have hlt : ∀ p, ticksIn p [] start (calls.map HookCall.event) < 2 ^ 32 := by
    intro p
    have hle : ticksIn p [] start (calls.map HookCall.event) ≤ start + (2 ^ 32 - 1) - start := by
      refine ticksIn_le p hrun.nested (Nat.le_add_right _ _) fun e he => ?_
      obtain ⟨c, hc, rfl⟩ := List.mem_map.mp he
      have hspan : c.event.tick < start + 2 ^ 32 := hrun.span c hc
      omega
    omega
  exact ⟨htracks.exact hquiet hcredits hlt, htracks.quiet hquiet hframes⟩

/-- Two nodes of one graph. -/
def twoNodes : Setup Bool where
  core := ⟨0, by decide⟩
  traceSelf := false
  graphs := [{ nodes := [some false, none, some true] }]

def twoTasks : Tracer Bool where
  handles node := { taskId := if node then 20 else 10 }

/-- A poll of task 10, preempted twice by task 20 of another executor, across the wrap of the
clock. -/
def preempted : List HookCall :=
  [⟨2 ^ 32 - 10, .execBegin 1 10⟩, ⟨2 ^ 32 - 4, .execBegin 2 20⟩, ⟨2 ^ 32 + 2, .execEnd 2 20⟩,
    ⟨2 ^ 32 + 3, .executorIdle 2⟩, ⟨2 ^ 32 + 5, .execBegin 2 20⟩, ⟨2 ^ 32 + 6, .execEnd 2 20⟩,
    ⟨2 ^ 32 + 20, .execEnd 1 10⟩]

theorem exact_preempted : Exact twoNodes twoTasks
      (preempted.foldl (Tracer.call twoNodes) twoTasks) (2 ^ 32 - 10) preempted ∧
    (preempted.foldl (Tracer.call twoNodes) twoTasks).Quiet twoNodes := by
  refine exact_of_run ?_ ?_ ⟨[1, 2], by decide, ?_, ?_⟩
  · exact ⟨rfl, fun _ => rfl, fun i j _ hne => absurd rfl hne, fun _ _ => rfl⟩
  · constructor
    · simp [preempted, WellNested, HookCall.event, Hook.mark, Mark.Fits, Mark.apply]
    · simp [preempted, Exclusive, HookCall.event, Hook.mark, Mark.apply]
    · decide
    · decide
  · exact fun i hne => absurd rfl hne
  · decide

example : ticksIn (ranOf twoNodes twoTasks false) [] (2 ^ 32 - 10)
    (preempted.map HookCall.event) = 23 := by decide

end EmbassySupervisor.Trace
