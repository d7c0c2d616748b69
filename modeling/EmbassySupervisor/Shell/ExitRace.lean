/-
# A start and an exit of the instance it started

From the launch on, the supervisor and the instance write one flag word without a lock:
the supervisor has `set_running(true)` still to come, and an instance on a preempting
executor or another core may return at any moment.

`running_cleared_iff` is the whole story of the `RUNNING` bit: it ends up clear exactly
when the instance has a clear of it still ahead as the supervisor sets it. An instance
that is over by then leaves a node that reads as running with nothing there.
-/

import EmbassySupervisor.Lib.LabelledRun
import EmbassySupervisor.Shell.Shell

namespace EmbassySupervisor

open LabelledRun

variable {n : ℕ} {V : Type}

/-- What an instance may do to the shared memory before its last act. -/
inductive WorkerOp (V : Type)
  | ackDropped
  | setReady
  | clearReady
  | markBusy
  | markIdle
  | setDetached (detached : Bool)
  | provide (r : ℕ) (v : V)
  | restore (r : ℕ) (v : Stamped V)
  | take (r : ℕ)
  | clear (r : ℕ)

def WorkerOp.atoms (cfg : NodeCfg n) (j : Fin n) : WorkerOp V → List (Atom n V)
  | .ackDropped => Atom.ackDropped cfg j
  | .setReady => [.flagPut j .ready true, .latch j .ready true, .gateEvent, .notifyBind]
  | .clearReady => [.flagPut j .ready false, .notifyBind]
  | .markBusy => [.flagPut j .busy true]
  | .markIdle => [.flagPut j .busy false]
  | .setDetached detached => [.flagPut j .detached detached]
  | .provide r v => Atom.fill (.provide r v) r
  | .restore r v => Atom.fill (.restore r v) r
  | .take r => [.empty r]
  | .clear r => Atom.clear r

/-- Where the instance is started from: a spawn of a task function, the first spawn of a
shell, or the restart of a parked one. -/
inductive Site
  | fn
  | shell
  | resident
  deriving DecidableEq, Repr

/-- A move of the supervisor: an access, or the launch. -/
inductive StartMove (n : ℕ) (V : Type)
  | access (a : Atom n V)
  | launch

/-- The spawn call. A parked shell may run as soon as its `IDLE` is clear. -/
def Site.spawn (j : Fin n) : Site → List (StartMove n V)
  | .fn => [.launch]
  | .shell => [.launch, .access (.flagPut j .resident true)]
  | .resident =>
    [.access (.flagPut j .idle false), .launch, .access (.latch j .resume true)]

/-- From the reset to the end of a successful attempt, in `start_nodes` and `start_node`. -/
def Site.start (site : Site) (j : Fin n) : List (StartMove n V) :=
  (Atom.reset j).map .access ++
    (site.spawn j ++
      [.access (.flagPut j .running true), .access (.flagPut j .boundStopped false)])

/-- How an instance ends: a shell or a hand-written task records its exit, or its last
act is the acknowledgement of a stop. -/
def ending (cfg : NodeCfg n) (j : Fin n) (exits : Bool) : List (Atom n V) :=
  if exits then Atom.markExited cfg j else Atom.ackDropped cfg j

/-- After its exit a shell parks. -/
def Site.parks (j : Fin n) : Site → List (Atom n V)
  | .fn => []
  | .shell | .resident => [.flagPut j .idle true, .gateEvent]

/-- The supervisor with what is left of its start, the instance with what is left of it. -/
structure Race (n : ℕ) (V : Type) where
  mem : Memory n V
  sup : List (StartMove n V)
  inst : List (Atom n V)
  launched : Bool := false

namespace Race

inductive Label
  | supervisor
  | inst
  deriving DecidableEq

def next (s : Race n V) : Label → Option (Race n V)
  | .supervisor =>
    match s.sup with
    | [] => none
    | .access a :: sup => some { s with mem := s.mem.act a, sup }
    | .launch :: sup => some { s with sup, launched := true }
  | .inst =>
    match s.inst with
    | [] => none
    | a :: inst => if s.launched then some { s with mem := s.mem.act a, inst } else none

/-- A start of a node, and an instance that does some work and ends. -/
def begin (m : Memory n V) (site : Site) (cfg : NodeCfg n) (j : Fin n)
    (work : List (WorkerOp V)) (exits : Bool) : Race n V where
  mem := m
  sup := site.start j
  inst := work.flatMap (WorkerOp.atoms cfg j) ++ ending cfg j exits ++ site.parks j

/-- The supervisor is about to set `RUNNING`. -/
def Sets (s : Race n V) (j : Fin n) : Prop :=
  ∃ sup, s.sup = .access (.flagPut j .running true) :: sup

/-- The instance has still to clear `RUNNING`. -/
def Clears (s : Race n V) (j : Fin n) : Prop :=
  ∃ a ∈ s.inst, a.put j .running = some false

/-! ## Who writes the flag -/

/-- A release writes no flag. -/
theorem put_releaseProvided (cfg : NodeCfg n) (j : Fin n) (f : Flag) :
    ∀ a ∈ (Atom.releaseProvided cfg j : List (Atom n V)), a.put j f = none :=
  Memory.forall_releaseProvided (fun _ => rfl) (fun _ => rfl) rfl

/-- Only the supervisor sets `RUNNING`; an acknowledgement clears it. -/
theorem put_ackDropped (cfg : NodeCfg n) (j : Fin n) :
    ∀ a ∈ (Atom.ackDropped cfg j : List (Atom n V)), a.put j .running ≠ some true := by
  intro a ha
  rcases List.mem_append.mp ha with ha | ha
  · simp [put_releaseProvided cfg j .running a ha]
  · simp only [Atom.settleDropped, List.mem_cons, List.not_mem_nil, or_false] at ha
    rcases ha with rfl | rfl | rfl | rfl | rfl <;> simp [Atom.put]

theorem put_markExited (cfg : NodeCfg n) (j : Fin n) :
    ∀ a ∈ (Atom.markExited cfg j : List (Atom n V)), a.put j .running ≠ some true := by
  intro a ha
  rcases List.mem_append.mp ha with ha | ha
  · simp [put_releaseProvided cfg j .running a ha]
  · simp only [Atom.settleDropped, List.mem_cons, List.not_mem_nil, or_false] at ha
    rcases ha with rfl | rfl | rfl | rfl | rfl | rfl <;> simp [Atom.put]

theorem put_worker (cfg : NodeCfg n) (j : Fin n) (op : WorkerOp V) :
    ∀ a ∈ op.atoms cfg j, a.put j .running ≠ some true := by
  cases op with
  | ackDropped => exact put_ackDropped cfg j
  | setReady | clearReady | markBusy | markIdle | setDetached | provide | restore | take
  | clear => simp [WorkerOp.atoms, Atom.fill, Atom.clear, Atom.put]

/-- The instance never sets `RUNNING`. -/
theorem put_inst (m : Memory n V) (site : Site) (cfg : NodeCfg n) (j : Fin n)
    (work : List (WorkerOp V)) (exits : Bool) :
    ∀ a ∈ (begin m site cfg j work exits).inst, a.put j .running ≠ some true := by
  intro a ha
  rcases List.mem_append.mp ha with ha | ha
  · rcases List.mem_append.mp ha with ha | ha
    · obtain ⟨op, _, ha⟩ := List.mem_flatMap.mp ha
      exact put_worker cfg j op a ha
    · unfold ending at ha
      split at ha
      · exact put_markExited cfg j a ha
      · exact put_ackDropped cfg j a ha
  · cases site <;> simp [Site.parks] at ha <;> rcases ha with rfl | rfl <;> simp [Atom.put]

/-- Moves of the supervisor that leave `RUNNING` alone. -/
def Quiet (j : Fin n) (sup : List (StartMove n V)) : Prop :=
  ∀ a, .access a ∈ sup → a.put j .running = none

theorem quiet_start (site : Site) (j : Fin n) :
    Quiet j ((Atom.reset j).map StartMove.access ++ site.spawn j : List (StartMove n V)) := by
  intro a ha
  cases site <;>
    simp only [Atom.reset, Site.spawn, List.map_cons, List.map_nil, List.cons_append,
      List.nil_append, List.mem_cons, List.not_mem_nil, or_false, StartMove.access.injEq,
      reduceCtorEq, false_or] at ha
  case fn => rcases ha with rfl | rfl | rfl | rfl <;> simp [Atom.put, Flag.stale]
  case shell => rcases ha with rfl | rfl | rfl | rfl | rfl <;> simp [Atom.put, Flag.stale]
  case resident =>
    rcases ha with rfl | rfl | rfl | rfl | rfl | rfl <;> simp [Atom.put, Flag.stale]

/-! ## The flag along a run -/

/-- The supervisor has `RUNNING` still to set. -/
def Unset (s : Race n V) (j : Fin n) : Prop :=
  ∃ sup, Quiet j sup ∧
    s.sup = sup ++ [.access (.flagPut j .running true), .access (.flagPut j .boundStopped false)]

/-- The supervisor has set it, and does not write it again. -/
def IsSet (s : Race n V) (j : Fin n) : Prop := Quiet j s.sup

/-- While the instance is sure to clear it last. -/
structure Clearing (j : Fin n) (s : Race n V) : Prop where
  inst : ∀ a ∈ s.inst, a.put j .running ≠ some true
  flag : s.Unset j ∨ s.IsSet j ∧ (s.mem.flag j .running = false ∨ s.Clears j)

/-- Once it is set for good. -/
structure Stuck (j : Fin n) (s : Race n V) : Prop where
  inst : ∀ a ∈ s.inst, a.put j .running = none
  isSet : s.IsSet j
  flag : s.mem.flag j .running = true

variable {j : Fin n} {s t : Race n V} {l : Label}

/-- The steps of the two parties. -/
theorem next_cases (h : next s l = some t) :
    (∃ a sup, l = .supervisor ∧ s.sup = .access a :: sup ∧
      t = { s with mem := s.mem.act a, sup }) ∨
    (∃ sup, l = .supervisor ∧ s.sup = .launch :: sup ∧ t = { s with sup, launched := true }) ∨
    (∃ a inst, l = .inst ∧ s.inst = a :: inst ∧ t = { s with mem := s.mem.act a, inst }) := by
  cases l with
  | supervisor =>
      simp only [next] at h
      match hsup : s.sup with
      | [] => simp [hsup] at h
      | .access a :: sup =>
          simp only [hsup, Option.some.injEq] at h
          exact Or.inl ⟨a, sup, rfl, rfl, h.symm⟩
      | .launch :: sup =>
          simp only [hsup, Option.some.injEq] at h
          exact Or.inr (Or.inl ⟨sup, rfl, rfl, h.symm⟩)
  | inst =>
      simp only [next] at h
      match hinst : s.inst with
      | [] => simp [hinst] at h
      | a :: inst =>
          simp only [hinst] at h
          split at h
          · cases h
            exact Or.inr (Or.inr ⟨a, inst, rfl, rfl, rfl⟩)
          · cases h

theorem clearing_begin (m : Memory n V) (site : Site) (cfg : NodeCfg n) (j : Fin n)
    (work : List (WorkerOp V)) (exits : Bool) :
    Clearing j (begin m site cfg j work exits) where
  inst := put_inst m site cfg j work exits
  flag := Or.inl ⟨_, quiet_start site j, by simp [begin, Site.start]⟩

theorem Quiet.tail {mv : StartMove n V} {sup : List (StartMove n V)} (h : Quiet j (mv :: sup)) :
    Quiet j sup := fun a ha => h a (List.mem_cons_of_mem _ ha)

/-- A move before the set leaves it ahead; the set itself comes when nothing is before it. -/
theorem Unset.cases {mv : StartMove n V} {sup : List (StartMove n V)} (h : s.Unset j)
    (hsup : s.sup = mv :: sup) :
    ((∃ front, Quiet j (mv :: front) ∧ sup = front ++
        [.access (.flagPut j .running true), .access (.flagPut j .boundStopped false)]) ∨
      mv = .access (.flagPut j .running true) ∧ Quiet j sup) := by
  obtain ⟨front, hquiet, heq⟩ := h
  rw [hsup] at heq
  cases front with
  | nil =>
      cases heq
      refine Or.inr ⟨rfl, fun a ha => ?_⟩
      simp only [List.mem_singleton, StartMove.access.injEq] at ha
      rw [ha]
      simp [Atom.put]
  | cons mv' front =>
      cases heq
      exact Or.inl ⟨front, hquiet, rfl⟩

/-- **One step keeps the instance clearing last**, if `RUNNING` is set only while it still
has a clear ahead. -/
theorem clearing_next (hs : Clearing j s) (hset : l = .supervisor → s.Sets j → s.Clears j)
    (h : next s l = some t) : Clearing j t := by
  rcases next_cases h with ⟨a, sup, rfl, hsup, rfl⟩ | ⟨sup, rfl, hsup, rfl⟩ |
    ⟨a, inst, rfl, hinst, rfl⟩
  · refine ⟨hs.inst, ?_⟩
    rcases hs.flag with hunset | ⟨hisSet, hflag⟩
    · rcases hunset.cases hsup with ⟨front, hquiet, heq⟩ | ⟨heq, hquiet⟩
      · exact Or.inl ⟨front, hquiet.tail, heq⟩
      · cases heq
        exact Or.inr ⟨hquiet, Or.inr (hset rfl ⟨sup, hsup⟩)⟩
    · have hquiet : Quiet j (.access a :: sup) := hsup ▸ hisSet
      refine Or.inr ⟨hquiet.tail, hflag.imp_left fun hclear => ?_⟩
      rw [Memory.flag_act, hquiet a List.mem_cons_self]
      exact hclear
  · refine ⟨hs.inst, ?_⟩
    rcases hs.flag with hunset | ⟨hisSet, hflag⟩
    · rcases hunset.cases hsup with ⟨front, hquiet, heq⟩ | ⟨heq, _⟩
      · exact Or.inl ⟨front, hquiet.tail, heq⟩
      · cases heq
    · have hquiet : Quiet j (.launch :: sup) := hsup ▸ hisSet
      exact Or.inr ⟨hquiet.tail, hflag⟩
  · have hinst' : ∀ b ∈ a :: inst, b.put j .running ≠ some true := hinst ▸ hs.inst
    refine ⟨fun b hb => hinst' b (List.mem_cons_of_mem _ hb), ?_⟩
    rcases hs.flag with hunset | ⟨hisSet, hflag⟩
    · exact Or.inl hunset
    · refine Or.inr ⟨hisSet, ?_⟩
      rw [Memory.flag_act]
      match hput : a.put j .running with
      | some false => exact Or.inl rfl
      | some true => exact absurd hput (hinst' a List.mem_cons_self)
      | none =>
          refine hflag.imp id fun hclears => ?_
          obtain ⟨b, hb, hclear⟩ := hclears
          rw [hinst] at hb
          rcases List.mem_cons.mp hb with rfl | hb
          · rw [hput] at hclear
            cases hclear
          · exact ⟨b, hb, hclear⟩

/-- Set once the instance has no clear ahead, the flag is stuck. -/
theorem stuck_of_set (hs : Clearing j s) (hset : s.Sets j) (hclears : ¬ s.Clears j)
    (h : next s .supervisor = some t) : Stuck j t := by
  obtain ⟨sup, hsup⟩ := hset
  have hnever : ∀ a ∈ s.inst, a.put j .running = none := by
    intro a ha
    match hput : a.put j .running with
    | none => rfl
    | some true => exact absurd hput (hs.inst a ha)
    | some false => exact absurd ⟨a, ha, hput⟩ hclears
  rcases next_cases h with ⟨a, sup', _, hsup', rfl⟩ | ⟨sup', _, hsup', rfl⟩ | ⟨a, _, hl, _, _⟩
  · cases hsup.symm.trans hsup'
    have hquiet : Quiet j sup := by
      rcases hs.flag with hunset | ⟨hisSet, _⟩
      · rcases hunset.cases hsup with ⟨front, hquiet, _⟩ | ⟨_, hquiet⟩
        · exact absurd (hquiet _ List.mem_cons_self) (by simp [Atom.put])
        · exact hquiet
      · rw [IsSet, hsup] at hisSet
        exact hisSet.tail
    refine ⟨hnever, hquiet, ?_⟩
    rw [Memory.flag_act]
    simp [Atom.put]
  · cases hsup.symm.trans hsup'
  · cases hl

theorem stuck_next (hs : Stuck j s) (h : next s l = some t) : Stuck j t := by
  rcases next_cases h with ⟨a, sup, rfl, hsup, rfl⟩ | ⟨sup, rfl, hsup, rfl⟩ |
    ⟨a, inst, rfl, hinst, rfl⟩
  · have hquiet : Quiet j (.access a :: sup) := hsup ▸ hs.isSet
    refine ⟨hs.inst, hquiet.tail, ?_⟩
    rw [Memory.flag_act, hquiet a List.mem_cons_self]
    exact hs.flag
  · have hquiet : Quiet j (.launch :: sup) := hsup ▸ hs.isSet
    exact ⟨hs.inst, hquiet.tail, hs.flag⟩
  · have hinst' : ∀ b ∈ a :: inst, b.put j .running = none := hinst ▸ hs.inst
    refine ⟨fun b hb => hinst' b (List.mem_cons_of_mem _ hb), hs.isSet, ?_⟩
    rw [Memory.flag_act, hinst' a List.mem_cons_self]
    exact hs.flag

/-- **When an exit survives its start.** Once both parties are over, the node reads as
down exactly when the instance still had a clear of `RUNNING` ahead as the supervisor set
it. -/
theorem running_cleared_iff {m : Memory n V} {site : Site} {cfg : NodeCfg n} {j : Fin n}
    {work : List (WorkerOp V)} {exits : Bool} {ls : List Label} {t : Race n V}
    (hrun : exec next (begin m site cfg j work exits) ls = some t) (hsup : t.sup = [])
    (hinst : t.inst = []) :
    t.mem.flag j .running = false ↔
      Along next (fun s l => l = .supervisor → s.Sets j → s.Clears j)
        (begin m site cfg j work exits) ls := by
  have hbegin := clearing_begin m site cfg j work exits
  constructor
  · intro hdown
    rcases along_or_breach (P := fun s l => l = .supervisor → s.Sets j → s.Clears j) hrun with
      halong | ⟨front, l, back, u, v, rfl, hfront, halong, hbreak, hstep, hback⟩
    · exact halong
    · have hu : Clearing j u := exec_invariant_along
        (fun _ _ _ hs hl hnext => clearing_next hs hl hnext) hbegin halong hfront
      obtain ⟨rfl, hunclear⟩ := Classical.not_imp.mp hbreak
      obtain ⟨hset, hclears⟩ := Classical.not_imp.mp hunclear
      have ht : Stuck j t := exec_invariant (fun _ _ _ hs hnext => stuck_next hs hnext)
        (stuck_of_set hu hset hclears hstep) hback
      rw [ht.flag] at hdown
      cases hdown
  · intro halong
    have ht : Clearing j t := exec_invariant_along
      (fun _ _ _ hs hl hnext => clearing_next hs hl hnext) hbegin halong hrun
    rcases ht.flag with ⟨sup, _, heq⟩ | ⟨_, hclear | ⟨a, ha, _⟩⟩
    · rw [hsup] at heq
      simp at heq
    · exact hclear
    · rw [hinst] at ha
      exact absurd ha List.not_mem_nil

/-- A worker spawned on another executor that returns as soon as it runs. -/
def returnsAtOnce : Race 1 ℕ :=
  begin {} .fn
    { mode := .terminate, spawn := some .fn, spawnSlot := some 0, slotTimeout := 100000,
      ackTimeout := 2000000 } 0 [] true

/-- It runs once the supervisor is done with the start. -/
def exitAfterSet : List Label := List.replicate 7 .supervisor ++ List.replicate 6 .inst

theorem running_cleared_iff_exitAfterSet :
    ∃ t, exec next returnsAtOnce exitAfterSet = some t ∧ (t.mem.flag 0 .running = false ↔
      Along next (fun s l => l = .supervisor → s.Sets 0 → s.Clears 0) returnsAtOnce
        exitAfterSet) :=
  ⟨_, rfl, running_cleared_iff rfl rfl rfl⟩

/-- It has run to its end between the spawn call and `set_running(true)`. -/
def exitBeforeSet : List Label :=
  List.replicate 5 .supervisor ++ List.replicate 6 .inst ++ List.replicate 2 .supervisor

/-- The node then reads as running, with its exit recorded. -/
theorem exit_overwritten_by_start :
    ¬ ∀ (m : Memory 1 ℕ) (site : Site) (cfg : NodeCfg 1) (work : List (WorkerOp ℕ))
      (exits : Bool) (ls : List Label) (t : Race 1 ℕ),
      exec next (begin m site cfg 0 work exits) ls = some t → t.sup = [] → t.inst = [] →
        t.mem.flag 0 .running = false := by
  intro h
  have hdown := h {} .fn _ [] true exitBeforeSet _ (rfl : exec next returnsAtOnce _ = _) rfl rfl
  revert hdown
  decide

end Race

end EmbassySupervisor
