/-
# Claiming a trace slot without a lock

The hooks of several executors look for their slots at the same time: in the slot of the last
hook, then in all slots, then for a free one, which a compare-and-exchange claims. Each access
is a step of its own.

`decided` lists the searches in the order of the accesses that settle them; the code does not
read it. `slot_for_linearizable` says that every search ends as `slotOf` does at that access, one
after the other, and that no executor ever has two slots.
-/

import EmbassySupervisor.Lib.Interleaving
import EmbassySupervisor.Lib.LabelledRun
import EmbassySupervisor.Trace.Hooks

namespace EmbassySupervisor.Trace

open LabelledRun Interleaving

/-! ## One search at a time -/

/-- The ids in the slots; a free slot has none. -/
abbrev Ids := Fin maxExecutors → UInt32

/-- The slot of an executor: its own, or the first free one. -/
def slotOf (ids : Ids) (id : UInt32) : Option (Fin maxExecutors) :=
  ((List.finRange maxExecutors).find? fun i => ids i = id) <|>
    (List.finRange maxExecutors).find? fun i => ids i = 0

/-- The ids after the search. -/
def claim (ids : Ids) (id : UInt32) : Ids :=
  match slotOf ids id with
  | some i => Function.update ids i id
  | none => ids

/-! ## Searches in flight -/

/-- Where a search is: at the slot of the last hook, in one of the two passes with the slots
still to look at, about to remember its slot, or over. -/
inductive SlotPhase
  | load
  | check (last : ℕ)
  | scan (todo : List (Fin maxExecutors))
  | claim (todo : List (Fin maxExecutors))
  | store (i : Fin maxExecutors)
  | returned (r : Option (Fin maxExecutors))

structure SlotCall where
  id : UInt32
  phase : SlotPhase := .load

/-- A search that is settled, and how. -/
structure Decision where
  call : ℕ
  id : UInt32
  result : Option (Fin maxExecutors)

structure SlotSys where
  ids : Ids := fun _ => 0
  lastSlot : ℕ := 0
  calls : List SlotCall := []
  decided : List Decision := []

namespace SlotSys

inductive Label
  | call (id : UInt32)
  | advance (k : ℕ)
  deriving DecidableEq

/-- The search moves on. -/
def goto (s : SlotSys) (k : ℕ) (c : SlotCall) (phase : SlotPhase) : SlotSys :=
  { s with calls := s.calls.set k { c with phase } }

/-- The search is settled by the access it has just made. -/
def decide (s : SlotSys) (k : ℕ) (c : SlotCall) (r : Option (Fin maxExecutors)) : SlotSys :=
  { s with decided := { call := k, id := c.id, result := r } :: s.decided }

/-- The next access of a search. -/
def access (s : SlotSys) (k : ℕ) (c : SlotCall) : Option SlotSys :=
  match c.phase with
  | .load => some (s.goto k c (.check s.lastSlot))
  | .check last =>
    match (position last).filter fun i => s.ids i = c.id with
    | some i => some ((s.decide k c (some i)).goto k c (.returned (some i)))
    | none => some (s.goto k c (.scan (List.finRange maxExecutors)))
  | .scan (i :: todo) =>
    if s.ids i = c.id then some ((s.decide k c (some i)).goto k c (.store i))
    else some (s.goto k c (.scan todo))
  | .scan [] => some (s.goto k c (.claim (List.finRange maxExecutors)))
  | .claim (i :: todo) =>
    if s.ids i = 0 then
      some (({ s with ids := Function.update s.ids i c.id }.decide k c (some i)).goto k c (.store i))
    else if s.ids i = c.id then some ((s.decide k c (some i)).goto k c (.store i))
    else some (s.goto k c (.claim todo))
  | .claim [] => some ((s.decide k c none).goto k c (.returned none))
  | .store i => some ({ s with lastSlot := i }.goto k c (.returned (some i)))
  | .returned _ => none

def next (s : SlotSys) : Label → Option SlotSys
  | .call id => some { s with calls := s.calls ++ [{ id }] }
  | .advance k => s.calls[k]?.bind (s.access k)

/-! ## What is kept -/

/-- The ids that the settled searches leave, one after the other. -/
def replay : List Decision → Ids
  | [] => fun _ => 0
  | d :: earlier => claim (replay earlier) d.id

/-- Each search ended as it does on its own. -/
def Sequential : List Decision → Prop
  | [] => True
  | d :: earlier => d.result = slotOf (replay earlier) d.id ∧ Sequential earlier

end SlotSys

/-! ## The table -/

/-- The table fills from the front, and nobody is in it twice. -/
structure Filled (ids : Ids) : Prop where
  front : ∀ i j, ids i = 0 → i < j → ids j = 0
  distinct : ∀ i j, ids i = ids j → ids i ≠ 0 → i = j

/-- Whoever has a slot keeps it. -/
def Grows (ids ids' : Ids) : Prop := ∀ i, ids i ≠ 0 → ids' i = ids i

/-- The slots that a search has left behind belong to others. -/
def Passed (ids : Ids) (id : UInt32) (todo : List (Fin maxExecutors)) : Prop :=
  ∃ front, List.finRange maxExecutors = front ++ todo ∧ ∀ j ∈ front, ids j ≠ 0 ∧ ids j ≠ id

section Filled

variable {ids ids' : Ids} {id : UInt32} {i : Fin maxExecutors} {todo : List (Fin maxExecutors)}

theorem filled_empty : Filled fun _ => 0 :=
  ⟨fun _ _ _ _ => rfl, fun _ _ _ h => absurd rfl h⟩

theorem Passed.start : Passed ids id (List.finRange maxExecutors) :=
  ⟨[], rfl, fun _ h => by cases h⟩

theorem Passed.mono (h : Passed ids id todo) (hgrows : Grows ids ids') : Passed ids' id todo := by
  obtain ⟨front, heq, hfront⟩ := h
  refine ⟨front, heq, fun j hj => ?_⟩
  rw [hgrows j (hfront j hj).1]
  exact hfront j hj

theorem Passed.cons (h : Passed ids id (i :: todo)) (hzero : ids i ≠ 0) (hid : ids i ≠ id) :
    Passed ids id todo := by
  obtain ⟨front, heq, hfront⟩ := h
  refine ⟨front ++ [i], by rw [heq, List.append_assoc, List.singleton_append], fun j hj => ?_⟩
  rcases List.mem_append.mp hj with hj | hj
  · exact hfront j hj
  · rw [List.mem_singleton.mp hj]
    exact ⟨hzero, hid⟩

theorem Passed.before (h : Passed ids id (i :: todo)) {j : Fin maxExecutors} (hj : j < i) :
    ids j ≠ 0 ∧ ids j ≠ id := by
  obtain ⟨front, heq, hfront⟩ := h
  have hsorted : (front ++ i :: todo).Pairwise (· < ·) := heq ▸ List.pairwise_lt_finRange _
  have hmem : j ∈ front ++ i :: todo := heq ▸ List.mem_finRange j
  rcases List.mem_append.mp hmem with hmem | hmem
  · exact hfront j hmem
  · have hrest := (List.pairwise_append.mp hsorted).2.1
    rcases List.mem_cons.mp hmem with rfl | hmem
    · exact absurd hj (lt_irrefl j)
    · exact absurd hj (lt_asymm (List.rel_of_pairwise_cons hrest hmem))

theorem Passed.all (h : Passed ids id []) (j : Fin maxExecutors) : ids j ≠ 0 ∧ ids j ≠ id := by
  obtain ⟨front, heq, hfront⟩ := h
  rw [List.append_nil] at heq
  exact hfront j (heq ▸ List.mem_finRange j)

theorem find?_finRange {p : Fin maxExecutors → Bool} (hi : p i = true)
    (hbefore : ∀ j < i, p j = false) : (List.finRange maxExecutors).find? p = some i := by
  obtain ⟨front, back, heq⟩ := List.append_of_mem (List.mem_finRange i)
  have hsorted : (front ++ i :: back).Pairwise (· < ·) := heq ▸ List.pairwise_lt_finRange _
  refine List.find?_eq_some_iff_append.mpr ⟨hi, front, back, heq, fun j hj => ?_⟩
  have hlt := (List.pairwise_append.mp hsorted).2.2 j hj i List.mem_cons_self
  rw [hbefore j hlt]
  rfl

theorem find?_finRange_none {p : Fin maxExecutors → Bool} (h : ∀ j, p j = false) :
    (List.finRange maxExecutors).find? p = none :=
  List.find?_eq_none.mpr fun j _ => by simp [h j]

/-- A search that finds its slot. -/
theorem Filled.slotOf_own (h : Filled ids) (hid : id ≠ 0) (hi : ids i = id) :
    slotOf ids id = some i := by
  have hfound : ((List.finRange maxExecutors).find? fun j => ids j = id) = some i := by
    refine find?_finRange (decide_eq_true hi) fun j hj => decide_eq_false fun hj' => ?_
    have heq := h.distinct j i (hj'.trans hi.symm) (hj' ▸ hid)
    exact absurd hj (heq ▸ lt_irrefl j)
  rw [slotOf, hfound]
  rfl

theorem Filled.claim_own (h : Filled ids) (hid : id ≠ 0) (hi : ids i = id) : claim ids id = ids := by
  rw [claim, h.slotOf_own hid hi]
  subst hi
  exact Function.update_eq_self i ids

/-- A search that claims a slot. -/
theorem Filled.slotOf_free (h : Filled ids) (hid : id ≠ 0) (hpassed : Passed ids id (i :: todo))
    (hi : ids i = 0) : slotOf ids id = some i := by
  have hnone : ((List.finRange maxExecutors).find? fun j => ids j = id) = none := by
    refine find?_finRange_none fun j => decide_eq_false fun hj => ?_
    rcases lt_trichotomy j i with hlt | heq | hgt
    · exact (hpassed.before hlt).2 hj
    · rw [heq, hi] at hj
      exact hid hj.symm
    · rw [h.front i j hi hgt] at hj
      exact hid hj.symm
  have hfree : ((List.finRange maxExecutors).find? fun j => ids j = 0) = some i :=
    find?_finRange (decide_eq_true hi) fun j hj => decide_eq_false (hpassed.before hj).1
  rw [slotOf, hnone, hfree]
  rfl

/-- A search for which there is no slot. -/
theorem slotOf_full (hpassed : Passed ids id []) : slotOf ids id = none := by
  have hnone : ((List.finRange maxExecutors).find? fun j => ids j = id) = none :=
    find?_finRange_none fun j => decide_eq_false (hpassed.all j).2
  have hfull : ((List.finRange maxExecutors).find? fun j => ids j = 0) = none :=
    find?_finRange_none fun j => decide_eq_false (hpassed.all j).1
  rw [slotOf, hnone, hfull]
  rfl

theorem Filled.update (h : Filled ids) (hid : id ≠ 0) (hpassed : Passed ids id (i :: todo))
    (hi : ids i = 0) : Filled (Function.update ids i id) where
  front a b ha hab := by
    have hai : a ≠ i := by
      intro heq
      rw [heq, Function.update_self] at ha
      exact hid ha
    rw [Function.update_of_ne hai] at ha
    have hbi : b ≠ i := by
      intro heq
      exact (hpassed.before (heq ▸ hab)).1 ha
    rw [Function.update_of_ne hbi]
    exact h.front a b ha hab
  distinct a b hab ha := by
    have hother (c : Fin maxExecutors) (hc : c ≠ i) : ids c ≠ id := by
      intro heq
      rcases lt_or_gt_of_ne hc with hlt | hgt
      · exact (hpassed.before hlt).2 heq
      · rw [h.front i c hi hgt] at heq
        exact hid heq.symm
    by_cases hai : a = i
    · by_cases hbi : b = i
      · rw [hai, hbi]
      · rw [hai, Function.update_self, Function.update_of_ne hbi] at hab
        exact absurd hab.symm (hother b hbi)
    · rw [Function.update_of_ne hai] at hab ha
      by_cases hbi : b = i
      · rw [hbi, Function.update_self] at hab
        exact absurd hab (hother a hai)
      · rw [Function.update_of_ne hbi] at hab
        exact h.distinct a b hab ha

theorem grows_update (hi : ids i = 0) : Grows ids (Function.update ids i id) := by
  intro j hj
  have hji : j ≠ i := by
    intro heq
    exact hj (heq ▸ hi)
  exact Function.update_of_ne hji id ids

/-- **The hooks that take their search for one step** find the slot that `slotOf` says. -/
theorem Filled.slotFor {ν : Type} {tr : Tracer ν} (h : Filled fun i => (tr.executors i).id)
    (hid : id ≠ 0) :
    (tr.slotFor id).map (·.1) = slotOf (fun i => (tr.executors i).id) id := by
  rw [Tracer.slotFor]
  split
  · rename_i last hlast
    have hown := of_decide_eq_true (Option.filter_eq_some_iff.mp hlast).2
    exact (h.slotOf_own hid hown).symm
  · split
    · rename_i i hi
      have hown : (tr.executors i).id = id := by simpa using List.find?_some hi
      exact (h.slotOf_own hid hown).symm
    · rename_i hnone
      have hother := List.find?_eq_none.mp hnone
      have hsame : ((List.finRange maxExecutors).find? fun i =>
          (tr.executors i).id = 0 ∨ (tr.executors i).id = id) =
            (List.finRange maxExecutors).find? fun i => (tr.executors i).id = 0 := by
        congr 1
        funext i
        have hi := hother i (List.mem_finRange i)
        simp only [decide_eq_true_eq] at hi
        simp [hi]
      rw [Tracer.claimSlot, hsame, slotOf, hnone]
      cases (List.finRange maxExecutors).find? fun i => (tr.executors i).id = 0 with
      | none => rfl
      | some i => rfl

end Filled

namespace SlotSys

/-! ## The searches -/

/-- The search at an index is settled, and how. -/
def Settled (s : SlotSys) (k : ℕ) (c : SlotCall) (r : Option (Fin maxExecutors)) : Prop :=
  { call := k, id := c.id, result := r } ∈ s.decided

def Unsettled (s : SlotSys) (k : ℕ) : Prop := ∀ d ∈ s.decided, d.call ≠ k

/-- What a search knows. -/
def Knows (s : SlotSys) (k : ℕ) (c : SlotCall) : Prop :=
  match c.phase with
  | .load | .check _ | .scan _ => s.Unsettled k
  | .claim todo => s.Unsettled k ∧ Passed s.ids c.id todo
  | .store i => s.Settled k c (some i)
  | .returned r => s.Settled k c r

structure Linear (s : SlotSys) : Prop where
  table : Filled s.ids
  replay : s.ids = replay s.decided
  sequential : Sequential s.decided
  nodup : (s.decided.map (·.call)).Nodup
  below : ∀ d ∈ s.decided, d.call < s.calls.length
  named : ∀ c ∈ s.calls, c.id ≠ 0
  knows : ∀ k c, s.calls[k]? = some c → s.Knows k c

variable {s t : SlotSys} {k : ℕ} {c : SlotCall}

theorem Linear.init : Linear {} where
  table := filled_empty
  replay := rfl
  sequential := trivial
  nodup := List.nodup_nil
  below _ hd := by cases hd
  named _ hc := by cases hc
  knows k c hc := by cases hc

/-- A search begins. -/
theorem Linear.call (h : s.Linear) {id : UInt32} (hid : id ≠ 0) :
    Linear { s with calls := s.calls ++ [{ id }] } where
  table := h.table
  replay := h.replay
  sequential := h.sequential
  nodup := h.nodup
  below d hd := by
    rw [List.length_append, List.length_singleton]
    exact Nat.lt_succ_of_lt (h.below d hd)
  named c hc := by
    rcases List.mem_append.mp hc with hc | hc
    · exact h.named c hc
    · rw [List.mem_singleton.mp hc]
      exact hid
  knows k c hc := by
    rw [List.getElem?_append] at hc
    split at hc
    · exact h.knows k c hc
    · rename_i hk
      have hnew := List.mem_singleton.mp (List.mem_of_getElem? hc)
      rw [hnew]
      intro d hd heq
      exact hk (heq ▸ h.below d hd)

/-- A search looks further. -/
theorem Linear.goto (h : s.Linear) (hc : s.calls[k]? = some c) {phase : SlotPhase}
    (hknows : s.Knows k { c with phase }) : (s.goto k c phase).Linear where
  table := h.table
  replay := h.replay
  sequential := h.sequential
  nodup := h.nodup
  below d hd := by
    show d.call < (s.calls.set k _).length
    rw [List.length_set]
    exact h.below d hd
  named := forall_mem_set h.named (h.named c (List.mem_of_getElem? hc))
  knows m d hd := by
    rcases getElem?_set_cases hd with ⟨rfl, rfl⟩ | hd
    · exact hknows
    · exact h.knows m d hd

/-- A search is settled. -/
theorem Linear.decide (h : s.Linear) (hc : s.calls[k]? = some c) (hopen : s.Unsettled k)
    {r : Option (Fin maxExecutors)} {ids : Ids} {phase : SlotPhase}
    (hresult : r = slotOf s.ids c.id) (hids : ids = claim s.ids c.id) (htable : Filled ids)
    (hgrows : Grows s.ids ids)
    (hphase : ∀ u : SlotSys, u.Settled k c r → u.Knows k { c with phase }) :
    (({ s with ids }.decide k c r).goto k c phase).Linear where
  table := htable
  replay := by
    show ids = claim (SlotSys.replay s.decided) c.id
    rw [← h.replay, hids]
  sequential := by
    refine ⟨?_, h.sequential⟩
    rw [← h.replay]
    exact hresult
  nodup := List.nodup_cons.mpr ⟨by simpa [Unsettled] using hopen, h.nodup⟩
  below d hd := by
    show d.call < (s.calls.set k _).length
    rw [List.length_set]
    rcases List.mem_cons.mp hd with rfl | hd
    · exact (List.getElem?_eq_some_iff.mp hc).1
    · exact h.below d hd
  named := forall_mem_set h.named (h.named c (List.mem_of_getElem? hc))
  knows m d hd := by
    by_cases hmk : m = k
    · subst hmk
      rcases getElem?_set_cases hd with ⟨-, rfl⟩ | hd'
      · exact hphase _ (List.mem_cons_self ..)
      · have hlt := (List.getElem?_eq_some_iff.mp hc).1
        have hset : (s.calls.set m { c with phase })[m]? = some { c with phase } :=
          List.getElem?_set_self hlt
        rw [← Option.some.inj (hset.symm.trans hd)]
        exact hphase _ (List.mem_cons_self ..)
    · have hcalls : (({ s with ids }.decide k c r).goto k c phase).calls =
          s.calls.set k { c with phase } := rfl
      rw [hcalls, List.getElem?_set_ne (Ne.symm hmk)] at hd
      have hknows := h.knows m d hd
      have hkept (hm : s.Unsettled m) : ({ s with ids }.decide k c r).Unsettled m := by
        intro e he
        rcases List.mem_cons.mp he with rfl | he
        · exact Ne.symm hmk
        · exact hm e he
      rw [Knows] at hknows ⊢
      cases hp : d.phase with
      | load | check | scan =>
          rw [hp] at hknows
          exact hkept hknows
      | claim todo =>
          rw [hp] at hknows
          exact ⟨hkept hknows.1, hknows.2.mono hgrows⟩
      | store | returned =>
          rw [hp] at hknows
          exact List.mem_cons_of_mem _ hknows

/-- A search finds its slot. -/
theorem Linear.own (h : s.Linear) (hc : s.calls[k]? = some c) (hopen : s.Unsettled k)
    {i : Fin maxExecutors} (hi : s.ids i = c.id) {phase : SlotPhase}
    (hphase : ∀ u : SlotSys, u.Settled k c (some i) → u.Knows k { c with phase }) :
    ((s.decide k c (some i)).goto k c phase).Linear := by
  have hid := h.named c (List.mem_of_getElem? hc)
  exact Linear.decide h hc hopen (h.table.slotOf_own hid hi).symm (h.table.claim_own hid hi).symm
    h.table (fun _ _ => rfl) hphase

/-- **Every access keeps the searches in line.** -/
theorem Linear.access (h : s.Linear) (hc : s.calls[k]? = some c)
    (hstep : s.access k c = some t) : t.Linear := by
  have hid := h.named c (List.mem_of_getElem? hc)
  have hknows := h.knows k c hc
  rw [Knows] at hknows
  rw [SlotSys.access] at hstep
  cases hp : c.phase with
  | load =>
      rw [hp] at hstep hknows
      cases hstep
      exact h.goto hc hknows
  | check last =>
      rw [hp] at hstep hknows
      simp only at hstep
      split at hstep
      · rename_i i hi
        cases hstep
        have hown := of_decide_eq_true (Option.filter_eq_some_iff.mp hi).2
        exact h.own hc hknows hown fun u hu => hu
      · cases hstep
        exact h.goto hc hknows
  | scan todo =>
      cases todo with
      | nil =>
          rw [hp] at hstep hknows
          cases hstep
          exact h.goto hc ⟨hknows, .start⟩
      | cons i todo =>
          rw [hp] at hstep hknows
          simp only at hstep
          split at hstep
          · rename_i hown
            cases hstep
            exact h.own hc hknows hown fun u hu => hu
          · cases hstep
            exact h.goto hc hknows
  | claim todo =>
      rw [hp] at hstep hknows
      obtain ⟨hopen, hpassed⟩ := hknows
      cases todo with
      | nil =>
          cases hstep
          have hfull := slotOf_full hpassed
          have hsame : s.ids = Trace.claim s.ids c.id := by rw [Trace.claim, hfull]
          exact h.decide hc hopen hfull.symm hsame h.table (fun _ _ => rfl) fun u hu => hu
      | cons i todo =>
          simp only at hstep
          split at hstep
          · rename_i hfree
            cases hstep
            have hslot := h.table.slotOf_free hid hpassed hfree
            have hclaim : Function.update s.ids i c.id = Trace.claim s.ids c.id := by
              rw [Trace.claim, hslot]
            exact h.decide hc hopen hslot.symm hclaim (h.table.update hid hpassed hfree)
              (grows_update hfree) fun u hu => hu
          · rename_i hfree
            split at hstep
            · rename_i hown
              cases hstep
              exact h.own hc hopen hown fun u hu => hu
            · rename_i hother
              cases hstep
              exact h.goto hc ⟨hopen, hpassed.cons hfree hother⟩
  | store i =>
      rw [hp] at hstep hknows
      cases hstep
      have hstored : Linear { s with lastSlot := i } :=
        ⟨h.table, h.replay, h.sequential, h.nodup, h.below, h.named, h.knows⟩
      exact hstored.goto hc hknows
  | returned r =>
      rw [hp] at hstep
      cases hstep

theorem linear_run {ls : List Label} (hids : ∀ l ∈ ls, l ≠ .call 0)
    (hrun : exec next {} ls = some s) : s.Linear := by
  have halong : Along next (fun _ l => l ≠ .call 0) {} ls := along_of_forall hids _
  refine exec_invariant_along (I := Linear) (fun u l v hu hl hstep => ?_) .init halong hrun
  cases l with
  | call id =>
      cases hstep
      refine hu.call fun hid => ?_
      rw [hid] at hl
      exact hl rfl
  | advance k =>
      obtain ⟨c, hc, haccess⟩ := Option.bind_eq_some_iff.mp hstep
      exact hu.access hc haccess

/-- What is settled stays so. -/
theorem decided_suffix {l : Label} (hstep : s.next l = some t) : s.decided <:+ t.decided := by
  cases l with
  | call id =>
      cases hstep
      exact List.suffix_refl _
  | advance k =>
      obtain ⟨c, -, haccess⟩ := Option.bind_eq_some_iff.mp hstep
      rw [SlotSys.access] at haccess
      split at haccess
      · cases haccess
        exact List.suffix_refl _
      · split at haccess
        · cases haccess
          exact List.suffix_cons _ _
        · cases haccess
          exact List.suffix_refl _
      · split at haccess
        · cases haccess
          exact List.suffix_cons _ _
        · cases haccess
          exact List.suffix_refl _
      · cases haccess
        exact List.suffix_refl _
      · split at haccess
        · cases haccess
          exact List.suffix_cons _ _
        · split at haccess
          · cases haccess
            exact List.suffix_cons _ _
          · cases haccess
            exact List.suffix_refl _
      · cases haccess
        exact List.suffix_cons _ _
      · cases haccess
        exact List.suffix_refl _
      · cases haccess

/-- **No executor has two slots, and every search ends as it does on its own.** However the hooks
of any number of executors are interleaved, there is an order of the searches in which they end
as `slotOf` says when they are made one after the other; a search comes into it while it is
under way, and whoever has returned is in it. -/
theorem slot_for_linearizable {ls : List Label} (hids : ∀ l ∈ ls, l ≠ .call 0)
    (hrun : exec next {} ls = some s) :
    (∀ i j, s.ids i = s.ids j → s.ids i ≠ 0 → i = j) ∧
      s.ids = SlotSys.replay s.decided ∧ Sequential s.decided ∧ (s.decided.map (·.call)).Nodup ∧
      (∀ k c r, s.calls[k]? = some c → c.phase = .returned r →
        { call := k, id := c.id, result := r } ∈ s.decided) ∧
      (∀ d ∈ s.decided, d.call < s.calls.length) ∧
      (∀ l t, s.next l = some t → s.decided <:+ t.decided) := by
  have h := linear_run hids hrun
  refine ⟨h.table.distinct, h.replay, h.sequential, h.nodup, fun k c r hc hr => ?_, h.below,
    fun l t hstep => decided_suffix hstep⟩
  have hknows := h.knows k c hc
  rw [Knows, hr] at hknows
  exact hknows

/-- Two hooks of one executor look for a slot while another executor claims one. -/
def threeHooks : List Label :=
  [.call 7, .call 7, .call 9] ++ (List.replicate 7 [.advance 0, .advance 2, .advance 1]).flatten ++
    [.advance 2, .advance 0, .advance 1, .advance 0, .advance 1, .advance 1, .advance 2, .advance 0]

def threeHooksRun : Option SlotSys := exec next {} threeHooks

theorem slot_for_threeHooks :
    ∃ s, exec next {} threeHooks = some s ∧
      (∀ i j, s.ids i = s.ids j → s.ids i ≠ 0 → i = j) ∧
        s.ids = SlotSys.replay s.decided ∧ Sequential s.decided ∧
        (s.decided.map (·.call)).Nodup ∧
        (∀ k c r, s.calls[k]? = some c → c.phase = .returned r →
          { call := k, id := c.id, result := r } ∈ s.decided) ∧
        (∀ d ∈ s.decided, d.call < s.calls.length) ∧
        (∀ l t, s.next l = some t → s.decided <:+ t.decided) := by
  have hrun : exec next {} threeHooks = some (threeHooksRun.get (by decide)) :=
    (Option.some_get _).symm
  have hids : ∀ l ∈ threeHooks, l ≠ .call 0 := by decide
  exact ⟨_, hrun, slot_for_linearizable hids hrun⟩

end SlotSys

end EmbassySupervisor.Trace
