/-
# The generated task shell

What `emit_shell` stamps for a `task:` node or a pool member: a loop that takes the
activation's resources one after another, drives the worker, puts back what it lent,
records the exit and parks until the next start.

A take that comes up empty ends the activation at once: the exit is recorded and the
values already taken go out of scope with the block. `Activation.step` is one access of
the shell; the epilogue has no branches, so it is the list of accesses left.
-/

import EmbassySupervisor.Shell.Memory

namespace EmbassySupervisor

variable {n : ℕ} {V : Type}

/-- How a `resources:` entry hands its value to the worker. -/
inductive ResourceKind
  | lend
  | consume
  | shared
  | divisible
  deriving DecidableEq, Repr

/-- An entry of `resources:`; for a divisible one `slot` names a budget. -/
structure ResourceDecl where
  kind : ResourceKind
  slot : ℕ
  deriving DecidableEq

namespace ResourceDecl

/-- The kinds a shell takes out of a slot of the node's own. -/
def takes (d : ResourceDecl) : Bool :=
  match d.kind with
  | .lend | .consume => true
  | .shared | .divisible => false

end ResourceDecl

/-- A shell: whose it is, and the clauses it is stamped from. Taken slots, the state
handoff and the exit slot are statics of their own. -/
structure ShellCfg (n : ℕ) where
  node : Fin n
  cfg : NodeCfg n
  resources : List ResourceDecl := []
  state : Option ℕ := none
  exit : Option ℕ := none
  distinct : (state.toList ++ exit.toList ++
    (resources.filter ResourceDecl.takes).map ResourceDecl.slot).Nodup

/-- A shell without clauses has no statics to keep apart. -/
theorem ShellCfg.distinct_bare : ((none : Option ℕ).toList ++ (none : Option ℕ).toList ++
    (([] : List ResourceDecl).filter ResourceDecl.takes).map ResourceDecl.slot).Nodup := by
  decide

/-- A read at the start of an activation: out of a slot, or a copy. -/
inductive Take
  | take (r : ℕ) (lent : Bool)
  | get (r : ℕ)
  deriving DecidableEq

/-- The read an entry compiles to. A claimant is a handle and reads nothing. -/
def ResourceDecl.read (d : ResourceDecl) : Option Take :=
  match d.kind with
  | .lend => some (.take d.slot true)
  | .consume => some (.take d.slot false)
  | .shared => some (.get d.slot)
  | .divisible => none

/-- Where a shell is. `held` are the lent values with their slots, in declared order;
`leaving` is the rest of an activation down to its `IDLE` write; `checking` and `waiting`
are the park loop. -/
inductive Activation (n : ℕ) (V : Type)
  | taking (todo : List Take) (held : List (ℕ × Stamped V))
  | working (held : List (ℕ × Stamped V))
  | leaving (rest : List (Atom n V))
  | checking
  | waiting

namespace ShellCfg

variable (c : ShellCfg n)

/-- The reads of an activation, the state handoff first. -/
def takes : List Take :=
  c.state.toList.map (fun r => .take r false) ++ c.resources.filterMap ResourceDecl.read

/-- `__sv_park` up to its loop. -/
def park : List (Atom n V) := [.flagPut c.node .idle true, .gateEvent]

/-- A read came up empty. -/
def lostResource : List (Atom n V) := Atom.markExited c.cfg c.node ++ c.park

/-- Put the lent values back. -/
def restores (held : List (ℕ × Stamped V)) : List (Atom n V) :=
  held.flatMap fun e => Atom.fill (.restore e.1 e.2) e.1

/-- Provide the worker's output into the exit slot; an aborted worker has none. -/
def provideExit (out : Option V) : List (Atom n V) :=
  match c.exit, out with
  | some r, some v => Atom.fill (.provide r v) r
  | some _, none | none, _ => []

/-- The worker is over. Its state is dropped before anything here. -/
def epilogue (held : List (ℕ × Stamped V)) (out : Option V) : List (Atom n V) :=
  restores held ++ (c.provideExit out ++ (Atom.markExited c.cfg c.node ++ c.park))

end ShellCfg

namespace Activation

/-- One access of the shell on its own; the worker's end is not one of them. -/
def step (c : ShellCfg n) (m : Memory n V) : Activation n V → Option (Activation n V × Memory n V)
  | .taking [] held => some (.working held, m)
  | .taking (.take r lent :: todo) held =>
    match m.value r with
    | none => some (.leaving c.lostResource, m)
    | some v => some (.taking todo (if lent then held ++ [(r, v)] else held), m.act (.empty r))
  | .taking (.get r :: todo) held =>
    match m.value r with
    | none => some (.leaving c.lostResource, m)
    | some _ => some (.taking todo held, m)
  | .working _ => none
  | .leaving [] => some (.checking, m)
  | .leaving (a :: rest) => some (.leaving rest, m.act a)
  | .checking =>
    if m.flag c.node .idle then some (.waiting, m) else some (.taking c.takes [], m)
  | .waiting =>
    if (m.node c.node).resumeWake then some (.checking, m.act (.latch c.node .resume false))
    else none

/-- The worker returned or was cancelled. -/
def finish (c : ShellCfg n) (out : Option V) : Activation n V → Option (Activation n V)
  | .working held => some (.leaving (c.epilogue held out))
  | .taking _ _ | .leaving _ | .checking | .waiting => none

end Activation

/-! ## What a shell can do -/

/-- The accesses of a shell, phase by phase. -/
inductive Activation.Step (c : ShellCfg n) (m : Memory n V) :
    Activation n V → Activation n V → Memory n V → Prop
  | drive {held : List (ℕ × Stamped V)} : Step c m (.taking [] held) (.working held) m
  | lost {t : Take} {todo : List Take} {held : List (ℕ × Stamped V)} {r : ℕ}
      (hread : t = .get r ∨ ∃ lent, t = .take r lent) (hempty : m.value r = none) :
      Step c m (.taking (t :: todo) held) (.leaving c.lostResource) m
  | take {r : ℕ} {lent : Bool} {todo : List Take} {held : List (ℕ × Stamped V)} {v : Stamped V}
      (hvalue : m.value r = some v) :
      Step c m (.taking (.take r lent :: todo) held)
        (.taking todo (if lent then held ++ [(r, v)] else held)) (m.act (.empty r))
  | get {r : ℕ} {todo : List Take} {held : List (ℕ × Stamped V)} {v : Stamped V}
      (hvalue : m.value r = some v) :
      Step c m (.taking (.get r :: todo) held) (.taking todo held) m
  | leave {a : Atom n V} {rest : List (Atom n V)} :
      Step c m (.leaving (a :: rest)) (.leaving rest) (m.act a)
  | park : Step c m (.leaving []) .checking m
  | wait (hidle : m.flag c.node .idle = true) : Step c m .checking .waiting m
  | start (hidle : m.flag c.node .idle = false) : Step c m .checking (.taking c.takes []) m
  | woken (hwake : (m.node c.node).resumeWake = true) :
      Step c m .waiting .checking (m.act (.latch c.node .resume false))

/-- **Inversion of an access of the shell.** -/
theorem Activation.step_cases {c : ShellCfg n} {m m' : Memory n V} {s s' : Activation n V}
    (h : s.step c m = some (s', m')) : Activation.Step c m s s' m' := by
  match s with
  | .taking [] held =>
      cases h
      exact .drive
  | .taking (.take r lent :: todo) held =>
      cases hvalue : m.value r with
      | none =>
          simp only [step, hvalue] at h
          cases h
          exact .lost (Or.inr ⟨lent, rfl⟩) hvalue
      | some v =>
          simp only [step, hvalue] at h
          cases h
          exact .take hvalue
  | .taking (.get r :: todo) held =>
      cases hvalue : m.value r with
      | none =>
          simp only [step, hvalue] at h
          cases h
          exact .lost (Or.inl rfl) hvalue
      | some v =>
          simp only [step, hvalue] at h
          cases h
          exact .get hvalue
  | .working _ => cases h
  | .leaving [] =>
      cases h
      exact .park
  | .leaving (a :: rest) =>
      cases h
      exact .leave
  | .checking =>
      simp only [step] at h
      by_cases hidle : m.flag c.node .idle = true
      · rw [if_pos hidle] at h
        cases h
        exact .wait hidle
      · rw [if_neg hidle] at h
        cases h
        exact .start (by simpa using hidle)
  | .waiting =>
      simp only [step] at h
      by_cases hwake : (m.node c.node).resumeWake = true
      · rw [if_pos hwake] at h
        cases h
        exact .woken hwake
      · rw [if_neg hwake] at h
        cases h

end EmbassySupervisor
