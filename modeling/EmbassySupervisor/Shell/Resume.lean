/-
# The resume of a parked worker

One latch carries two messages: the start of the next activation, read by the shell in its
park loop, and the resume of a paused worker, read by the worker. What keeps them apart is
that a latched signal always has a reader ahead: the shell on its way through the park
loop, or a worker that has acknowledged and waits (`Answered.wake`).

Nothing in the code enforces it. A shell that finds `IDLE` clear leaves the loop without
reading the latch, a bound resume does not ask whether anybody waits, and `set_running`
comes after the signal. `releases_answered` holds of every run that avoids these moments
(`orderly`); in `released_by_start` the signal of a start releases a worker paused later.
-/

import EmbassySupervisor.Shell.Residence

namespace EmbassySupervisor

open LabelledRun

variable {n : ℕ} {V : Type}

/-- What an access makes of the resume latch of a node, if it touches it. -/
def Atom.wakes (j : Fin n) : Atom n V → Option Bool
  | .latch k .resume on => if k = j then some on else none
  | .latch _ _ _ | .provide _ _ | .restore _ _ | .empty _ | .signalFilled _ | .resetFilled _
  | .releaseClaims _ | .flagPut _ _ _ | .clearStale _ | .drop _ _ | .gateEvent | .stopEvent
  | .notifyBind => none

/-- The access sets `RUNNING`. -/
def Atom.raises (j : Fin n) (a : Atom n V) : Bool := a.put j .running == some true

/-- The access clears `RUNNING`. -/
def Atom.lowers (j : Fin n) (a : Atom n V) : Bool := a.put j .running == some false

/-- Past its worker, down to the moment it leaves the park loop. -/
def Activation.out : Activation n V → Bool
  | .taking _ _ | .working _ => false
  | .leaving _ | .checking | .waiting => true

/-- The access comes after an acknowledgement. -/
def Atom.Trails (j : Fin n) (a : Atom n V) : Prop := a.Flagless j ∧ a.drops = false

/-- A pause writes no flag behind its acknowledgement. -/
def WorkerMove.Settles (j : Fin n) : List (WorkerMove n V) → Prop
  | [] => True
  | .awaitResume :: doing => Settles j doing
  | .access a :: doing =>
    (a.drops = true → pauses doing = true → ∀ b, .access b ∈ doing → b.Trails j) ∧
      Settles j doing

/-- The signal of a resume comes before `set_running`. -/
def Atom.Ordered (j : Fin n) : List (Atom n V) → Prop
  | [] => True
  | a :: rest => (a.signals j = true → rest.any (raises j) = true) ∧ Ordered j rest

/-- The release was ordered since the acknowledgement, and the node counts as running. -/
def Release.Answers (r : Release) : Prop := r.signalled = true ∧ r.running = true

namespace Handshake

/-- The next step is none of four: the shell leaves its park loop with a signal latched or
on its way, the supervisor resumes a node that is neither parked nor out, a worker is
released between the signal and `set_running`, an acknowledgement is collected after the
resume that answered it. -/
def orderly (c : ShellCfg n) (s : Handshake n V) : Label V → Bool
  | .shell =>
    match s.shell with
    | some .checking =>
      s.flag c .idle ||
        !((s.mem.node c.node).resumeWake || s.sup.rest.any (Atom.signals c.node))
    | none | some (.taking _ _) | some (.working _) | some (.leaving _) | some .waiting => true
  | .op o => !o.resumes || s.acked || s.shell.any Activation.out
  | .worker =>
    match s.doing, s.sup with
    | .awaitResume :: _, .resuming rest => !rest.any (Atom.raises c.node)
    | _, _ => true
  | .sup =>
    match s.sup with
    | .writes (a :: _) => !a.lowers c.node || !(s.acked && s.signalled)
    | _ => true
  | .work _ | .pause | .finish _ | .startNodes | .spawnSettled | .retry | .giveUp | .probe _
  | .refuse => true

/-- What the supervisor still has to signal, and to whom. -/
def Expected (c : ShellCfg n) (s : Handshake n V) : Prop :=
  match s.sup with
  | .idle | .probing _ => True
  | .writes rest => ∀ a ∈ rest, a.signals c.node = false
  | .resetting rest _ | .launching rest _ _ =>
    ∀ a ∈ rest, a.signals c.node = false ∧ a.lowers c.node = false
  | .starting rest =>
    (∀ a ∈ rest, a.lowers c.node = false) ∧
      (rest.any (Atom.signals c.node) = true → s.shell.any Activation.out = true)
  | .resuming rest =>
    (∀ a ∈ rest, a.lowers c.node = false) ∧ Atom.Ordered c.node rest ∧
      (rest.any (Atom.signals c.node) = true →
        s.shell.any Activation.out = true ∨ s.acked = true)

/-- The invariant of the resume. -/
structure Answered (c : ShellCfg n) (s : Handshake n V) : Prop where
  housed : s.Housed c
  wake : (s.mem.node c.node).resumeWake = true →
    s.shell.any Activation.out = true ∨ s.acked = true ∧ s.signalled = true
  expected : s.Expected c
  silent : ∀ a, .access a ∈ s.doing → a.signals c.node = false
  settles : WorkerMove.Settles c.node s.doing
  acked : s.acked = true →
    .awaitResume ∈ s.doing ∧ ∀ a, .access a ∈ s.doing → a.Trails c.node
  running : s.acked = true → s.signalled = true →
    s.flag c .running = true ∨ ∃ rest, s.sup = .resuming rest ∧ rest.any (Atom.raises c.node) = true
  released : ∀ r ∈ s.released, r.Answers

end Handshake

/-! ## Single accesses -/

namespace Atom

variable {j : Fin n} {a : Atom n V}

theorem signals_eq (a : Atom n V) : a.signals j = (a.wakes j == some true) := by
  cases a with
  | latch k w on =>
      cases w with
      | resume => cases on <;> by_cases hk : k = j <;> simp [signals, wakes, hk]
      | shutdown | dropped | ready => rfl
  | provide | restore | empty | signalFilled | resetFilled | releaseClaims | flagPut | clearStale
  | drop | gateEvent | stopEvent | notifyBind => rfl

theorem signals_of_target (h : a.target = none) : a.signals j = false := by
  cases a with
  | flagPut | clearStale | drop | latch => simp [target] at h
  | provide | restore | empty | signalFilled | resetFilled | releaseClaims | gateEvent
  | stopEvent | notifyBind => rfl

end Atom

namespace Memory

variable {m : Memory n V}

/-- The latch is what the last access to it made it. -/
theorem resumeWake_act (a : Atom n V) (j : Fin n) :
    ((m.act a).node j).resumeWake = (a.wakes j).getD (m.node j).resumeWake := by
  cases a with
  | latch k w on =>
      by_cases hk : j = k
      · subst hk
        cases w <;> simp [act, onNode, Atom.wakes, TaskHandle.latch]
      · cases w <;> simp [act, onNode, Atom.wakes, hk, Ne.symm hk]
  | flagPut k f on =>
      by_cases hk : j = k
      · subst hk
        simp [act, onNode, Atom.wakes, TaskHandle.flagPut]
      · simp [act, onNode, Atom.wakes, hk]
  | clearStale k =>
      by_cases hk : j = k
      · subst hk
        simp [act, onNode, Atom.wakes, TaskHandle.clearStale]
      · simp [act, onNode, Atom.wakes, hk]
  | drop k provides =>
      by_cases hk : j = k
      · subst hk
        simp [act, onNode, Atom.wakes, TaskHandle.flagPut]
      · simp [act, onNode, Atom.wakes, hk]
  | provide | restore | empty | signalFilled | resetFilled | releaseClaims | gateEvent
  | stopEvent | notifyBind => rfl

/-- Only a signal latches. -/
theorem resumeWake_of_act {a : Atom n V} {j : Fin n} (hsilent : a.signals j = false)
    (h : ((m.act a).node j).resumeWake = true) : (m.node j).resumeWake = true := by
  rw [resumeWake_act] at h
  rw [Atom.signals_eq] at hsilent
  cases hwakes : a.wakes j with
  | none => simpa [hwakes] using h
  | some on => cases on <;> simp [hwakes] at h hsilent

end Memory

namespace Atom

variable {j : Fin n}

theorem silent_releaseProvided (cfg : NodeCfg n) :
    ∀ a ∈ (releaseProvided cfg j : List (Atom n V)), a.signals j = false :=
  Memory.forall_releaseProvided (fun _ => rfl) (fun _ => rfl) rfl

theorem silent_ackDropped (cfg : NodeCfg n) :
    ∀ a ∈ (ackDropped cfg j : List (Atom n V)), a.signals j = false := by
  intro a ha
  rcases List.mem_append.mp ha with ha | ha
  · exact silent_releaseProvided cfg a ha
  · simp only [settleDropped, List.mem_cons, List.not_mem_nil, or_false] at ha
    rcases ha with rfl | rfl | rfl | rfl | rfl <;> rfl

theorem silent_worker (cfg : NodeCfg n) (op : WorkerOp V) :
    ∀ a ∈ op.atoms cfg j, a.signals j = false := by
  cases op with
  | ackDropped => exact silent_ackDropped cfg
  | setReady | clearReady | markBusy | markIdle | setDetached | provide | restore | take | clear =>
      simp [WorkerOp.atoms, fill, clear, signals]

theorem silent_reset : ∀ a ∈ (reset j : List (Atom n V)), a.signals j = false := by
  simp [reset, signals]

theorem lowers_of_flagless {a : Atom n V} (h : a.Flagless j) : a.lowers j = false := by
  simp [lowers, h .running]

/-- A set flag stays set but for an access that clears it. -/
theorem running_act {m : Memory n V} {a : Atom n V} (hlowers : a.lowers j = false)
    (h : m.flag j .running = true) : (m.act a).flag j .running = true := by
  rw [Memory.flag_act]
  cases hput : a.put j .running with
  | none => simpa using h
  | some on => cases on <;> simp [lowers, hput] at hlowers ⊢

theorem running_of_raises {m : Memory n V} {a : Atom n V} (h : a.raises j = true) :
    (m.act a).flag j .running = true := by
  rw [Memory.flag_act, beq_iff_eq.mp h, Option.getD_some]

/-- Accesses that signal nothing may stand before a list in order. -/
theorem Ordered.append {front rest : List (Atom n V)} (hfront : ∀ a ∈ front, a.signals j = false)
    (hrest : Ordered j rest) : Ordered j (front ++ rest) := by
  induction front with
  | nil => exact hrest
  | cons a front ih =>
      obtain ⟨hfirst, hothers⟩ := List.forall_mem_cons.mp hfront
      exact ⟨fun h => by simp [hfirst] at h, ih hothers⟩

/-- Without a `set_running` to come there is no signal to come. -/
theorem Ordered.silent {rest : List (Atom n V)} (h : Ordered j rest)
    (hraises : rest.any (raises j) = false) : rest.any (signals j) = false := by
  induction rest with
  | nil => rfl
  | cons a rest ih =>
      rw [List.any_cons, Bool.or_eq_false_iff] at hraises ⊢
      refine ⟨Bool.eq_false_iff.mpr fun hsignals => ?_, ih h.2 hraises.2⟩
      simp [h.1 hsignals] at hraises

end Atom

namespace WorkerMove

variable {j : Fin n}

/-- An operation that does not park has nothing to settle. -/
theorem settles_map (l : List (Atom n V)) : Settles j (l.map .access) := by
  induction l with
  | nil => trivial
  | cons a l ih =>
      refine ⟨fun _ hpauses => ?_, ih⟩
      simp [pauses] at hpauses

/-- Accesses that acknowledge nothing may stand before any list. -/
theorem Settles.append {front : List (Atom n V)} {doing : List (WorkerMove n V)}
    (hfront : ∀ a ∈ front, a.drops = false) (h : Settles j doing) :
    Settles j (front.map .access ++ doing) := by
  induction front with
  | nil => exact h
  | cons a front ih =>
      obtain ⟨hfirst, hothers⟩ := List.forall_mem_cons.mp hfront
      exact ⟨fun hdrops => by simp [hfirst] at hdrops, ih hothers⟩

theorem mem_of_pauses {doing : List (WorkerMove n V)} (h : pauses doing = true) :
    .awaitResume ∈ doing := by
  obtain ⟨move, hmem, hmove⟩ := List.any_eq_true.mp h
  cases move with
  | access a => cases hmove
  | awaitResume => exact hmem

theorem settles_pause (cfg : NodeCfg n) :
    Settles j ((Atom.ackDropped cfg j : List (Atom n V)).map .access ++ [.awaitResume]) := by
  rw [Atom.ackDropped, List.map_append, List.append_assoc]
  apply Settles.append
  · exact Memory.forall_releaseProvided (fun _ => rfl) (fun _ => rfl) rfl
  · simp [Atom.settleDropped, Settles, Atom.drops, Atom.Trails, Atom.Flagless, Atom.put]

end WorkerMove

/-! ## The steps of the tasks -/

namespace Activation

variable {c : ShellCfg n} {m m' : Memory n V} {s s' : Activation n V}

/-- A shell that is out stays out until it finds `IDLE` clear. -/
theorem Step.out (h : Step c m s s' m') (hout : s.out = true) :
    s'.out = true ∨ s = .checking ∧ m.flag c.node .idle = false ∧ m' = m := by
  cases h with
  | start hidle => exact Or.inr ⟨rfl, hidle, rfl⟩
  | leave | park | wait | woken => exact Or.inl rfl
  | drive | lost | take | get => cases hout

/-- A shell that is not out latches nothing. -/
theorem Step.resumeWake (h : Step c m s s' m') (hout : s.out = false) :
    (m'.node c.node).resumeWake = (m.node c.node).resumeWake := by
  cases h with
  | drive | lost | get => rfl
  | take =>
      rw [Memory.resumeWake_act]
      rfl
  | start | leave | park | wait | woken => cases hout

end Activation

namespace Handshake

variable {c : ShellCfg n} {s s' : Handshake n V} {l : Label V}

theorem answered_boot (slot : ℕ → ResourceSlot V) : Answered c (boot slot) where
  housed := housed_boot slot
  wake h := by cases h
  expected := trivial
  silent a h := by cases h
  settles := trivial
  acked h := by cases h
  running h := by cases h
  released r h := by cases h

/-- A parked worker is inside its shell's activation. -/
theorem Answered.working (hs : Answered c s) (hacked : s.acked = true) :
    ∃ held, s.shell = some (.working held) :=
  hs.housed.working (List.ne_nil_of_mem (hs.acked hacked).1)

/-- A shell that moves by itself holds no parked worker. -/
theorem Answered.not_acked (hs : Answered c s) {shell after : Activation n V} {mem : Memory n V}
    (hshell : s.shell = some shell) (hstep : Activation.Step c s.mem shell after mem) :
    s.acked = false := by
  refine Bool.eq_false_iff.mpr fun hacked => ?_
  obtain ⟨held, hworking⟩ := hs.working hacked
  rw [hshell, Option.some.injEq] at hworking
  subst hworking
  cases hstep

/-- If a signal is latched or on its way, an orderly shell that is out stays out. -/
theorem out_of_orderly {shell after : Activation n V} {mem : Memory n V}
    (hshell : s.shell = some shell) (hstep : Activation.Step c s.mem shell after mem)
    (horderly : s.orderly c .shell = true) (hout : s.shell.any Activation.out = true)
    (hsignal : (mem.node c.node).resumeWake = true ∨
      s.sup.rest.any (Atom.signals c.node) = true) : after.out = true := by
  rw [hshell] at hout
  rcases hstep.out hout with hafter | ⟨rfl, hidle, rfl⟩
  · exact hafter
  · have hclear : s.flag c .idle = false := hidle
    rcases hsignal with hsignal | hsignal
    · simp [orderly, hshell, hclear, hsignal] at horderly
    · simp [orderly, hshell, hclear, hsignal] at horderly

theorem Answered.shellStep (hs : Answered c s) {shell after : Activation n V} {mem : Memory n V}
    (hshell : s.shell = some shell) (hstep : Activation.Step c s.mem shell after mem)
    (horderly : s.orderly c .shell = true)
    (hhoused : Housed c { s with shell := some after, mem, late := s.late || shell.writes }) :
    Answered c { s with shell := some after, mem, late := s.late || shell.writes } := by
  have hnot : s.acked = false := hs.not_acked hshell hstep
  constructor
  case housed => exact hhoused
  case wake =>
    intro hwake
    cases hout : shell.out with
    | true =>
        apply Or.inl
        exact out_of_orderly hshell hstep horderly (by simpa [hshell] using hout) (Or.inl hwake)
    | false =>
        have hbefore : (s.mem.node c.node).resumeWake = true := (hstep.resumeWake hout) ▸ hwake
        rcases hs.wake hbefore with hany | ⟨hacked, -⟩
        · simp [hshell, hout] at hany
        · rw [hnot] at hacked
          cases hacked
  case expected =>
    have hexpected := hs.expected
    unfold Expected at hexpected ⊢
    cases hsup : s.sup with
    | idle | probing => trivial
    | writes rest | resetting rest retries | launching rest resident retries =>
        rw [hsup] at hexpected
        exact hexpected
    | starting rest =>
        rw [hsup] at hexpected
        use hexpected.1
        intro hany
        exact out_of_orderly hshell hstep horderly (hexpected.2 hany)
          (Or.inr (by rw [hsup]; exact hany))
    | resuming rest =>
        rw [hsup] at hexpected
        obtain ⟨hlowers, hordered, hto⟩ := hexpected
        use hlowers, hordered
        intro hany
        rcases hto hany with hout | hacked
        · exact Or.inl (out_of_orderly hshell hstep horderly hout
            (Or.inr (by rw [hsup]; exact hany)))
        · exact Or.inr hacked
  case silent => exact hs.silent
  case settles => exact hs.settles
  case acked => exact hs.acked
  case running =>
    intro hacked
    rw [show s.acked = true from hacked] at hnot
    cases hnot
  case released => exact hs.released

/-- What the supervisor expects survives a step of a worker that stays parked, or goes. -/
theorem Expected.congr (h : s.Expected c) (hsup : s'.sup = s.sup)
    (hout : s.shell.any Activation.out = true → s'.shell.any Activation.out = true)
    (hacked : ∀ rest, s.sup = .resuming rest → rest.any (Atom.signals c.node) = true →
      s.acked = true → s'.shell.any Activation.out = true ∨ s'.acked = true) : s'.Expected c := by
  unfold Expected at h ⊢
  rw [hsup]
  cases hs : s.sup with
  | idle | probing => trivial
  | writes rest | resetting rest retries | launching rest resident retries =>
      rw [hs] at h
      exact h
  | starting rest =>
      rw [hs] at h
      exact ⟨h.1, fun hany => hout (h.2 hany)⟩
  | resuming rest =>
      rw [hs] at h
      obtain ⟨hlowers, hordered, hto⟩ := h
      use hlowers, hordered
      intro hany
      exact (hto hany).elim (fun h => Or.inl (hout h)) (hacked rest hs hany)

/-- A worker begins an operation or a pause. -/
theorem Answered.begin (hs : Answered c s) {doing : List (WorkerMove n V)}
    (hdoing : s.doing = []) (hhoused : Housed c { s with doing })
    (hsilent : ∀ a, .access a ∈ doing → a.signals c.node = false)
    (hsettles : WorkerMove.Settles c.node doing) : Answered c { s with doing } where
  housed := hhoused
  wake := hs.wake
  expected := hs.expected
  silent := hsilent
  settles := hsettles
  acked h := by
    have hmem := (hs.acked h).1
    rw [hdoing] at hmem
    cases hmem
  running := hs.running
  released := hs.released

theorem Answered.access (hs : Answered c s) {a : Atom n V} {doing : List (WorkerMove n V)}
    (hdoing : s.doing = .access a :: doing) (hmem : s'.mem = s.mem.act a)
    (hshell : s'.shell = s.shell) (hrest : s'.doing = doing) (hsup : s'.sup = s.sup)
    (hacked : s'.acked = (s.acked || (a.drops && WorkerMove.pauses doing)))
    (hsignalled : s'.signalled = (s.signalled && !(a.drops && WorkerMove.pauses doing)))
    (hreleased : s'.released = s.released) (hhoused : Housed c s') : Answered c s' := by
  have hsilent := hs.silent
  have hsettles := hs.settles
  rw [hdoing] at hsilent hsettles
  -- an acknowledged pause has no second acknowledgement ahead
  have htrails : s.acked = true → a.Trails c.node := fun h =>
    (hs.acked h).2 a (by simp [hdoing])
  have hbegins : s.acked = true → (a.drops && WorkerMove.pauses doing) = false := fun h => by
    simp [(htrails h).2]
  constructor
  case housed => exact hhoused
  case wake =>
    intro hwake
    rw [hmem] at hwake
    rw [hshell, hacked, hsignalled]
    have hbefore := Memory.resumeWake_of_act (hsilent a List.mem_cons_self) hwake
    refine (hs.wake hbefore).imp_right fun ⟨hack, hsig⟩ => ?_
    simp [hack, hsig, hbegins hack]
  case expected =>
    refine hs.expected.congr hsup (by rw [hshell]; exact id) fun _ _ _ hack => Or.inr ?_
    simp [hacked, hack]
  case silent =>
    rw [hrest]
    exact fun b hb => hsilent b (List.mem_cons_of_mem _ hb)
  case settles =>
    rw [hrest]
    exact hsettles.2
  case acked =>
    intro hack
    rw [hrest]
    rw [hacked, Bool.or_eq_true] at hack
    rcases hack with hack | hbegin
    · obtain ⟨hawait, hall⟩ := hs.acked hack
      rw [hdoing] at hawait hall
      exact ⟨by simpa using hawait, fun b hb => hall b (List.mem_cons_of_mem _ hb)⟩
    · rw [Bool.and_eq_true] at hbegin
      exact ⟨WorkerMove.mem_of_pauses hbegin.2, hsettles.1 hbegin.1 hbegin.2⟩
  case running =>
    intro hack hsig
    rw [hsup]
    rw [hacked, Bool.or_eq_true] at hack
    rw [hsignalled, Bool.and_eq_true] at hsig
    have hbefore : s.acked = true := hack.resolve_right fun hbegin => by simp [hbegin] at hsig
    refine (hs.running hbefore hsig.1).imp_left fun hrunning => ?_
    rw [flag, hmem, Atom.flag_of_flagless (htrails hbefore).1]
    exact hrunning
  case released =>
    rw [hreleased]
    exact hs.released

/-- **A release is answered**: the latch it reads was signalled to it. -/
theorem Answered.release (hs : Answered c s) {doing : List (WorkerMove n V)}
    (hdoing : s.doing = .awaitResume :: doing)
    (hwake : (s.mem.node c.node).resumeWake = true) (horderly : s.orderly c .worker = true) :
    Release.Answers ⟨s.signalled, s.flag c .running⟩ := by
  obtain ⟨held, hworking⟩ := hs.housed.working (by simp [hdoing])
  rcases hs.wake hwake with hout | ⟨hacked, hsignalled⟩
  · simp [hworking, Activation.out] at hout
  · use hsignalled
    rcases hs.running hacked hsignalled with hrunning | ⟨rest, hsup, hraises⟩
    · exact hrunning
    · simp [orderly, hdoing, hsup, hraises] at horderly

theorem Answered.releaseStep (hs : Answered c s) {doing : List (WorkerMove n V)}
    (hdoing : s.doing = .awaitResume :: doing)
    (hwake : (s.mem.node c.node).resumeWake = true) (horderly : s.orderly c .worker = true)
    (hmem : s'.mem = s.mem.act (.latch c.node .resume false)) (hshell : s'.shell = s.shell)
    (hrest : s'.doing = doing) (hsup : s'.sup = s.sup) (hacked : s'.acked = false)
    (hreleased : s'.released = ⟨s.signalled, s.flag c .running⟩ :: s.released)
    (hhoused : Housed c s') : Answered c s' := by
  have hsilent := hs.silent
  have hsettles := hs.settles
  rw [hdoing] at hsilent hsettles
  constructor
  case housed => exact hhoused
  case wake =>
    intro hafter
    rw [hmem, Memory.resumeWake_act] at hafter
    simp [Atom.wakes] at hafter
  case expected =>
    refine hs.expected.congr hsup (by rw [hshell]; exact id) fun rest hresuming hany _ => ?_
    have hexpected := hs.expected
    rw [Expected, hresuming] at hexpected
    have hraises : rest.any (Atom.raises c.node) = false := by
      simpa [orderly, hdoing, hresuming] using horderly
    rw [hexpected.2.1.silent hraises] at hany
    cases hany
  case silent =>
    rw [hrest]
    exact fun b hb => hsilent b (List.mem_cons_of_mem _ hb)
  case settles =>
    rw [hrest]
    exact hsettles
  case acked =>
    intro h
    rw [hacked] at h
    cases h
  case running =>
    intro h
    rw [hacked] at h
    cases h
  case released =>
    rw [hreleased]
    exact List.forall_mem_cons.mpr ⟨hs.release hdoing hwake horderly, hs.released⟩

/-- The worker ends, with or without being released. -/
theorem Answered.finish (hs : Answered c s) {rest : List (Atom n V)}
    (hhoused : Housed c { s with shell := some (.leaving rest), doing := [], acked := false }) :
    Answered c { s with shell := some (.leaving rest), doing := [], acked := false } where
  housed := hhoused
  wake _ := Or.inl rfl
  expected := Expected.congr (s := s) hs.expected rfl (fun _ => rfl) fun _ _ _ _ => Or.inl rfl
  silent a h := by cases h
  settles := trivial
  acked h := by cases h
  running h := by cases h
  released := hs.released

/-! ## The steps of the supervisor -/

/-- A step of the supervisor that starts no shell. -/
theorem Answered.bySup (hs : Answered c s) (hdoing : s'.doing = s.doing)
    (hacked : s'.acked = s.acked) (hreleased : s'.released = s.released)
    (hhoused : Housed c s')
    (hwake : (s'.mem.node c.node).resumeWake = true →
      s'.shell.any Activation.out = true ∨ s.acked = true ∧ s'.signalled = true)
    (hexpected : s'.Expected c)
    (hrunning : s.acked = true → s'.signalled = true → s'.flag c .running = true ∨
      ∃ rest, s'.sup = .resuming rest ∧ rest.any (Atom.raises c.node) = true) :
    Answered c s' where
  housed := hhoused
  wake := by
    rw [hacked]
    exact hwake
  expected := hexpected
  silent := by
    rw [hdoing]
    exact hs.silent
  settles := by
    rw [hdoing]
    exact hs.settles
  acked := by
    rw [hacked, hdoing]
    exact hs.acked
  running := by
    rw [hacked]
    exact hrunning
  released := by
    rw [hreleased]
    exact hs.released

/-- Outside a resume a node that a resume has answered counts as running. -/
theorem Answered.running_of_not_resuming (hs : Answered c s) (hacked : s.acked = true)
    (hsignalled : s.signalled = true) (hsup : ∀ rest, s.sup ≠ .resuming rest) :
    s.flag c .running = true :=
  (hs.running hacked hsignalled).resolve_right fun ⟨rest, hresuming, _⟩ => hsup rest hresuming

/-- An access of the supervisor that signals nothing, outside a resume. -/
theorem Answered.silentAccess (hs : Answered c s) {a : Atom n V}
    (hsilent : a.signals c.node = false)
    (hlowers : s.acked = true → s.signalled = true → a.lowers c.node = false)
    (hsup : ∀ rest, s.sup ≠ .resuming rest) (hmem : s'.mem = s.mem.act a)
    (hshell : s'.shell = s.shell) (hdoing : s'.doing = s.doing) (hacked : s'.acked = s.acked)
    (hsignalled : s'.signalled = s.signalled) (hreleased : s'.released = s.released)
    (hhoused : Housed c s') (hexpected : s'.Expected c) : Answered c s' := by
  refine hs.bySup hdoing hacked hreleased hhoused ?_ hexpected ?_
  · intro hwake
    rw [hmem] at hwake
    rw [hshell, hsignalled]
    exact hs.wake (Memory.resumeWake_of_act hsilent hwake)
  · intro hack hsig
    rw [hsignalled] at hsig
    rw [flag, hmem]
    exact Or.inl (Atom.running_act (hlowers hack hsig) (hs.running_of_not_resuming hack hsig hsup))

/-- A step of the supervisor without an access. A resume is over only when it has set
`RUNNING`. -/
theorem Answered.controlStep (hs : Answered c s) (hmem : s'.mem = s.mem)
    (hshell : s'.shell = s.shell) (hdoing : s'.doing = s.doing) (hacked : s'.acked = s.acked)
    (hsignalled : s'.signalled = s.signalled) (hreleased : s'.released = s.released)
    (hhoused : Housed c s') (hresuming : ∀ rest, s.sup = .resuming rest → rest = [])
    (hexpected : s'.Expected c) : Answered c s' := by
  refine hs.bySup hdoing hacked hreleased hhoused ?_ hexpected ?_
  · rw [hmem, hshell, hsignalled]
    exact hs.wake
  · intro hack hsig
    rw [hsignalled] at hsig
    rw [flag, hmem]
    refine Or.inl ((hs.running hack hsig).resolve_right ?_)
    rintro ⟨rest, hsup, hraises⟩
    rw [hresuming rest hsup] at hraises
    cases hraises

/-- An access of a resume. -/
theorem Answered.resumeStep (hs : Answered c s) {a : Atom n V} {rest : List (Atom n V)}
    (hsup : s.sup = .resuming (a :: rest)) (hmem : s'.mem = s.mem.act a)
    (hshell : s'.shell = s.shell) (hdoing : s'.doing = s.doing) (hacked : s'.acked = s.acked)
    (hafter : s'.sup = .resuming rest)
    (hsignalled : s'.signalled = (s.signalled || a.signals c.node))
    (hreleased : s'.released = s.released) (hhoused : Housed c s') : Answered c s' := by
  have hexpected := hs.expected
  rw [Expected, hsup] at hexpected
  obtain ⟨hlowers, hordered, hto⟩ := hexpected
  obtain ⟨hfirst, hothers⟩ := List.forall_mem_cons.mp hlowers
  refine hs.bySup hdoing hacked hreleased hhoused ?_ ?_ ?_
  · intro hwake
    rw [hmem] at hwake
    rw [hshell, hsignalled]
    cases hsignals : a.signals c.node with
    | true => exact (hto (by simp [hsignals])).imp_right fun hack => by simp [hack]
    | false =>
        rw [Bool.or_false]
        exact hs.wake (Memory.resumeWake_of_act hsignals hwake)
  · rw [Expected, hafter]
    use hothers, hordered.2
    intro hany
    rw [hshell, hacked]
    exact hto (by simp [hany])
  · intro hack hsig
    rw [flag, hmem]
    cases hsignals : a.signals c.node with
    | true => exact Or.inr ⟨rest, hafter, hordered.1 hsignals⟩
    | false =>
        have hbefore : s.signalled = true := by simpa [hsignalled, hsignals] using hsig
        rcases hs.running hack hbefore with hrunning | ⟨rest', hsup', hraises⟩
        · exact Or.inl (Atom.running_act hfirst hrunning)
        · rw [hsup] at hsup'
          cases hsup'
          rw [List.any_cons, Bool.or_eq_true] at hraises
          rcases hraises with hraises | hraises
          · exact Or.inl (Atom.running_of_raises hraises)
          · exact Or.inr ⟨rest, hafter, hraises⟩

/-- The rest of a start. -/
theorem Answered.startingStep (hs : Answered c s) {a : Atom n V} {rest : List (Atom n V)}
    (hsup : s.sup = .starting (a :: rest)) (hmem : s'.mem = s.mem.act a)
    (hshell : s'.shell = s.shell) (hdoing : s'.doing = s.doing) (hacked : s'.acked = s.acked)
    (hafter : s'.sup = .starting rest) (hsignalled : s'.signalled = s.signalled)
    (hreleased : s'.released = s.released) (hhoused : Housed c s') : Answered c s' := by
  have hexpected := hs.expected
  rw [Expected, hsup] at hexpected
  obtain ⟨hlowers, hto⟩ := hexpected
  obtain ⟨hfirst, hothers⟩ := List.forall_mem_cons.mp hlowers
  refine hs.bySup hdoing hacked hreleased hhoused ?_ ?_ ?_
  · intro hwake
    rw [hmem] at hwake
    rw [hshell, hsignalled]
    cases hsignals : a.signals c.node with
    | true => exact Or.inl (hto (by simp [hsignals]))
    | false => exact hs.wake (Memory.resumeWake_of_act hsignals hwake)
  · rw [Expected, hafter]
    use hothers
    intro hany
    rw [hshell]
    exact hto (by simp [hany])
  · intro hack hsig
    rw [hsignalled] at hsig
    rw [flag, hmem]
    exact Or.inl (Atom.running_act hfirst
      (hs.running_of_not_resuming hack hsig fun rest h => by simp [hsup] at h))

/-- What an operation of the supervisor will signal it signals to a worker that waits or a
shell that is out. -/
theorem expected_op {o : SupOp} (horderly : s.orderly c (.op o) = true) :
    Expected c { s with sup := o.stretch c.node } := by
  have hto : o.resumes = true →
      s.shell.any Activation.out = true ∨ s.acked = true := by
    intro hresumes
    simp only [orderly, hresumes, Bool.not_true, Bool.false_or, Bool.or_eq_true] at horderly
    exact horderly.symm
  cases o with
  | signalShutdown | collect | awaitAck | markBound =>
      simp [Expected, SupOp.stretch, Atom.signals]
  | resumeNode | resumeInPlace | boundResume =>
      refine ⟨?_, Atom.Ordered.append Atom.silent_reset ?_, fun _ => hto rfl⟩
      · simp [Atom.reset, Atom.lowers, Atom.put, Flag.stale]
      · simp [Atom.Ordered, Atom.signals, Atom.raises, Atom.put]

/-- **Every orderly step keeps the signals answered.** -/
theorem Answered.next (hs : Answered c s) (horderly : s.orderly c l = true)
    (hnext : s.next c l = some s') : Answered c s' := by
  have hhoused := hs.housed.next hnext
  have hexpected := hs.expected
  cases next_cases hnext with
  | shell hshell hstep => exact hs.shellStep hshell hstep horderly hhoused
  | work hshell hdoing =>
      rename_i op held
      refine hs.begin hdoing hhoused (fun a ha => ?_) (WorkerMove.settles_map _)
      obtain ⟨b, hb, heq⟩ := List.mem_map.mp ha
      cases heq
      exact Atom.silent_worker c.cfg op a hb
  | pause hshell hdoing =>
      refine hs.begin hdoing hhoused (fun a ha => ?_) (WorkerMove.settles_pause c.cfg)
      rcases List.mem_append.mp ha with ha | ha
      · obtain ⟨b, hb, heq⟩ := List.mem_map.mp ha
        cases heq
        exact Atom.silent_ackDropped c.cfg a hb
      · simp at ha
  | access hdoing => exact hs.access hdoing rfl rfl rfl rfl rfl rfl rfl hhoused
  | release hdoing hwake =>
      exact hs.releaseStep hdoing hwake horderly rfl rfl rfl rfl rfl rfl hhoused
  | finish hshell hdoing => exact hs.finish hhoused
  | op hsup hallows =>
      refine hs.controlStep rfl rfl rfl rfl rfl rfl hhoused (fun rest h => ?_)
        (expected_op horderly)
      simp [hsup] at h
  | attempt hsup hsettled =>
      refine hs.controlStep rfl rfl rfl rfl rfl rfl hhoused (fun rest h => ?_) ?_
      · simp [hsup] at h
      · simp [Expected, Atom.reset, Atom.signals, Atom.lowers, Atom.put, Flag.stale]
  | giveUp hsup =>
      refine hs.controlStep rfl rfl rfl rfl rfl rfl hhoused (fun rest h => ?_) ?_
      · simp [hsup] at h
      · simp [Expected, hsup]
  | writes hsup =>
      rw [Expected, hsup] at hexpected
      obtain ⟨hfirst, hrest⟩ := List.forall_mem_cons.mp hexpected
      refine hs.silentAccess hfirst (fun hack hsig => ?_) (fun rest h => ?_) rfl rfl rfl rfl rfl
        rfl hhoused hrest
      · simpa [orderly, hsup, hack, hsig] using horderly
      · simp [hsup] at h
  | resume hsup => exact hs.resumeStep hsup rfl rfl rfl rfl rfl rfl rfl hhoused
  | starting hsup => exact hs.startingStep hsup rfl rfl rfl rfl rfl rfl rfl hhoused
  | reset hsup | handOver hsup =>
      rw [Expected, hsup] at hexpected
      obtain ⟨hfirst, hrest⟩ := List.forall_mem_cons.mp hexpected
      refine hs.silentAccess hfirst.1 (fun _ _ => hfirst.2) (fun rest h => ?_) rfl rfl rfl rfl rfl
        rfl hhoused hrest
      simp [hsup] at h
  | restart hsup =>
      -- a shell that says idle is on its way through the park loop
      have hidle : s.flag c .idle = true := (hs.housed.launching _ _ _ hsup).2 rfl
      refine hs.silentAccess (a := .flagPut c.node .idle false) rfl (fun _ _ => ?_)
        (fun rest h => ?_) rfl rfl rfl rfl rfl rfl hhoused ?_
      · simp [Atom.lowers, Atom.put]
      · simp [hsup] at h
      · refine ⟨by simp [Atom.lowers, Atom.put], fun _ => ?_⟩
        cases hshell : s.shell with
        | none =>
            rw [hs.housed.unborn hshell] at hidle
            cases hidle
        | some shell =>
            have hquiet := hs.housed.idle hidle shell hshell
            cases shell with
            | taking | working => cases hquiet
            | leaving | checking | waiting => rfl
  | spawn hsup hshell =>
      refine hs.bySup rfl rfl rfl hhoused (fun hwake => ?_) ?_ fun hack => ?_
      · rcases hs.wake hwake with hout | hboth
        · simp [hshell] at hout
        · exact Or.inr hboth
      · simp [Expected, Atom.signals, Atom.lowers, Atom.put]
      · obtain ⟨held, hworking⟩ := hs.working hack
        rw [hshell] at hworking
        cases hworking
  | ended hsup =>
      refine hs.controlStep rfl rfl rfl rfl rfl rfl hhoused (fun rest h => ?_) trivial
      rcases hsup with hsup | hsup | hsup
      · simp [hsup] at h
      · rw [hsup] at h
        cases h
        rfl
      · simp [hsup] at h
  | resetOver hsup =>
      refine hs.controlStep rfl rfl rfl rfl rfl rfl hhoused (fun rest h => ?_) trivial
      simp [hsup] at h
  | probed hsup hhandoff hready =>
      refine hs.controlStep rfl rfl rfl rfl rfl rfl hhoused (fun rest h => ?_) fun a ha => ?_
      · simp [hsup] at h
      · exact ⟨Atom.signals_of_target (hhandoff a ha),
          Atom.lowers_of_flagless (Atom.flagless_of_target (hhandoff a ha))⟩
  | refused hsup =>
      refine hs.controlStep rfl rfl rfl rfl rfl rfl hhoused (fun rest h => ?_) trivial
      rcases hsup with ⟨retries, hsup⟩ | ⟨handoff, resident, retries, hsup⟩ <;> simp [hsup] at h

/-- In every run whose steps are orderly, a paused worker is released only by a resume
signalled since its acknowledgement, and only while its node counts as running. -/
theorem releases_answered {slot : ℕ → ResourceSlot V} {ls : List (Label V)}
    {t : Handshake n V} (hrun : exec (Handshake.next c) (boot slot) ls = some t)
    (horderly : Along (Handshake.next c) (fun s l => s.orderly c l = true) (boot slot) ls) :
    ∀ r ∈ t.released, r.Answers :=
  (exec_invariant_along (I := Answered c) (fun _ _ _ hs hl h => hs.next hl h)
    (answered_boot slot) horderly hrun).released

/-- One `Pause` node with a `task:` worker. -/
def pausing : ShellCfg 1 where
  node := 0
  cfg := { mode := .pause, spawn := some .task, slotTimeout := 100000, ackTimeout := 2000000 }
  distinct := ShellCfg.distinct_bare

/-- A start, from the reset to the clear of `BOUND_STOPPED`. -/
def startUp : List (Label Unit) :=
  .startNodes :: List.replicate 5 .sup ++ .probe () :: List.replicate 5 .sup

/-- The worker acknowledges a stop and parks. -/
def parkWorker : List (Label Unit) := .pause :: List.replicate 5 .worker

def resumed : List (Label Unit) :=
  startUp ++ [.shell] ++ parkWorker ++ [.op .collect, .sup, .sup] ++ .op .resumeNode ::
    List.replicate 7 .sup ++ [.worker]

theorem releases_answered_resumed :
    ∃ t, exec (Handshake.next pausing) (boot fun _ => {}) resumed = some t ∧
      t.released.length = 1 ∧ ∀ r ∈ t.released, r.Answers := by
  have horderly : Along (Handshake.next pausing) (fun s l => s.orderly pausing l = true)
      (boot fun _ => {}) resumed := by decide +kernel
  exact ⟨_, rfl, rfl, releases_answered rfl horderly⟩

/-- The worker returns, and the shell is started again between its `IDLE` write and its
first look at it. -/
def leftLatched : List (Label Unit) :=
  startUp ++ [.shell] ++ .finish none :: List.replicate 7 .shell ++ startUp ++
    List.replicate 4 .shell ++ parkWorker ++ [.worker]

theorem released_by_start :
    ¬ ∀ (c : ShellCfg 1) (slot : ℕ → ResourceSlot Unit) (t : Handshake 1 Unit)
      (ls : List (Label Unit)), exec (Handshake.next c) (boot slot) ls = some t →
      ∀ r ∈ t.released, r.Answers := by
  intro h
  have hanswers := h pausing (fun _ => {}) _ leftLatched rfl _ List.mem_cons_self
  have hsignalled := hanswers.1
  cases hsignalled

end Handshake

end EmbassySupervisor
