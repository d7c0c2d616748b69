/-
# The respawn of a resident shell

A new activation may share nothing with the one before it: it has to begin on a clean
flag word, and the old one may not write behind the reset. The argument is the order of
three writes. The shell sets `IDLE` last; the supervisor looks at `RESIDENT` and `IDLE`
before it resets; and between that look and the start it makes no await, so nobody else
starts the shell in between.

The retry of `spawn_settled` is not covered: it resets again without another look, and
another call may have started the shell since. `activations_isolated` holds of every run
in which each such retry finds the shell settled; `dropped_survives_retry` is a run in
which one does not.
-/

import EmbassySupervisor.Shell.Residence

namespace EmbassySupervisor

open LabelledRun

variable {n : ℕ} {V : Type}

/-- The new activation shares nothing with the one before it. -/
structure StartRecord.IsFresh (b : StartRecord) : Prop where
  clear : ∀ f : Flag, f.stale = true → b.flags f = false
  late : b.late = false
  leftover : b.leftover = false

namespace Handshake

/-- A retry of `spawn_settled` finds the shell settled. -/
def rechecked (c : ShellCfg n) (s : Handshake n V) : Label V → Bool
  | .retry => s.settled c
  | .shell | .work _ | .pause | .worker | .finish _ | .op _ | .startNodes | .spawnSettled
  | .giveUp | .sup | .probe _ | .refuse => true

/-- No shell, or one that has reported its activation over. -/
def Parked (c : ShellCfg n) (s : Handshake n V) : Prop :=
  s.shell = none ∨ s.flag c .idle = true

/-- The reset is done and nothing has been written since. -/
def Cleared (c : ShellCfg n) (s : Handshake n V) : Prop :=
  (∀ f : Flag, f.stale = true → s.flag c f = false) ∧ s.late = false

/-- What an attempt has established by now. -/
def Established (c : ShellCfg n) (s : Handshake n V) : Prop :=
  match s.sup with
  | .idle | .writes _ | .resuming _ | .starting _ => True
  | .resetting rest _ =>
    s.Parked c ∧
      (rest = Atom.reset c.node ∨ s.Cleared c ∧ ∀ a ∈ rest, a.Flagless c.node)
  | .probing _ | .launching _ _ _ => s.Parked c ∧ s.Cleared c

/-- The invariant of the respawn. -/
structure Isolated (c : ShellCfg n) (s : Handshake n V) : Prop where
  housed : s.Housed c
  sup : s.Established c
  fresh : ∀ b ∈ s.begun, b.IsFresh

variable {c : ShellCfg n} {s s' : Handshake n V} {l : Label V}

theorem isolated_boot (slot : ℕ → ResourceSlot V) : Isolated c (boot slot) where
  housed := housed_boot slot
  sup := trivial
  fresh b h := by cases h

/-- What an attempt has established depends on the flag word, on the account of late writes
and on whether there is a shell. -/
theorem Established.congr (h : s.Established c) (hsup : s'.sup = s.sup)
    (hparked : s.Parked c → s'.Parked c)
    (hcleared : s.Parked c → s.Cleared c → s'.Cleared c) : s'.Established c := by
  unfold Established at h ⊢
  rw [hsup]
  cases hs : s.sup with
  | idle | writes | resuming | starting => trivial
  | resetting rest retries =>
      rw [hs] at h
      obtain ⟨hpark, hreset | ⟨hclear, hrest⟩⟩ := h
      · exact ⟨hparked hpark, Or.inl hreset⟩
      · exact ⟨hparked hpark, Or.inr ⟨hcleared hpark hclear, hrest⟩⟩
  | probing | launching =>
      rw [hs] at h
      exact ⟨hparked h.1, hcleared h.1 h.2⟩

/-! ## The steps of the tasks -/

/-- A parked shell is one that says idle, and its accesses write nothing. -/
theorem Housed.still_of_parked (hs : Housed c s) {shell after : Activation n V}
    {mem : Memory n V} (hshell : s.shell = some shell)
    (hstep : Activation.Step c s.mem shell after mem) (hparked : s.Parked c) :
    s.flag c .idle = true ∧ shell.writes = false ∧ ∀ f, mem.flag c.node f = s.flag c f := by
  rcases hparked with hnone | hidle
  · rw [hshell] at hnone
    cases hnone
  · obtain ⟨hwrites, -, hflags⟩ := hstep.still (hs.idle hidle shell hshell) hidle
    exact ⟨hidle, hwrites, hflags⟩

theorem Established.shellStep (h : s.Established c) (hs : Housed c s) {shell after : Activation n V}
    {mem : Memory n V} (hshell : s.shell = some shell)
    (hstep : Activation.Step c s.mem shell after mem) :
    Established c { s with shell := some after, mem, late := s.late || shell.writes } := by
  refine h.congr rfl (fun hparked => ?_) fun hparked hcleared => ?_
  · obtain ⟨hidle, -, hflags⟩ := hs.still_of_parked hshell hstep hparked
    exact Or.inr ((hflags .idle).trans hidle)
  · obtain ⟨-, hwrites, hflags⟩ := hs.still_of_parked hshell hstep hparked
    constructor
    · intro f hf
      exact (hflags f).trans (hcleared.1 f hf)
    · simp [hcleared.2, hwrites]

theorem Housed.not_parked (hs : Housed c s) {held : List (ℕ × Stamped V)}
    (hshell : s.shell = some (.working held)) : ¬ s.Parked c := by
  rintro (hnone | hidle)
  · rw [hshell] at hnone
    cases hnone
  · rw [hs.idle_working hshell] at hidle
    cases hidle

/-- As long as a worker is at it, no attempt has established anything. -/
theorem Established.workerStep (h : s.Established c) (hs : Housed c s)
    {held : List (ℕ × Stamped V)} (hshell : s.shell = some (.working held))
    (hsup : s'.sup = s.sup) : s'.Established c :=
  h.congr hsup (fun hparked => absurd hparked (hs.not_parked hshell))
    fun hparked => absurd hparked (hs.not_parked hshell)

/-! ## The steps of the supervisor -/

theorem parked_act (hparked : s.Parked c) {a : Atom n V} (hflagless : a.Flagless c.node)
    (hshell : s'.shell = s.shell) (hmem : s'.mem = s.mem.act a) : s'.Parked c := by
  rw [Parked, hshell, flag, hmem, Atom.flag_of_flagless hflagless]
  exact hparked

theorem cleared_act (hcleared : s.Cleared c) {a : Atom n V} (hflagless : a.Flagless c.node)
    (hlate : s'.late = false) (hmem : s'.mem = s.mem.act a) : s'.Cleared c := by
  constructor
  · intro f hf
    rw [flag, hmem, Atom.flag_of_flagless hflagless]
    exact hcleared.1 f hf
  · exact hlate

/-- An access of the reset. The first is the one that clears the flags. -/
theorem Established.resetStep (h : s.Established c) {a : Atom n V} {rest : List (Atom n V)}
    {retries : Bool} (hsup : s.sup = .resetting (a :: rest) retries) :
    Established c
      { s with
        mem := s.mem.act a
        sup := .resetting rest retries
        late := s.late && !a.isReset } := by
  rw [Established, hsup] at h
  obtain ⟨hparked, hreset | ⟨hcleared, hflagless⟩⟩ := h
  · obtain ⟨rfl, rfl⟩ := List.cons.inj hreset
    constructor
    · refine hparked.imp_right fun hidle => ?_
      simpa [flag, Memory.flag_act, Atom.put, Flag.stale] using hidle
    · refine Or.inr ⟨⟨fun f hf => ?_, by simp [Atom.isReset]⟩, ?_⟩
      · simp [flag, Memory.flag_act, Atom.put, hf]
      · simp [Atom.Flagless, Atom.put]
  · obtain ⟨hfirst, hrest⟩ := List.forall_mem_cons.mp hflagless
    exact ⟨parked_act hparked hfirst rfl rfl,
      Or.inr ⟨cleared_act hcleared hfirst (by simp [hcleared.2]) rfl, hrest⟩⟩

/-- A start finds a clean flag word and an activation that is over. -/
theorem Housed.fresh_start (hs : Housed c s) (hparked : s.Parked c) (hcleared : s.Cleared c) :
    (s.start c).IsFresh where
  clear := hcleared.1
  late := hcleared.2
  leftover := by
    cases hshell : s.shell with
    | none => simp [start, hshell]
    | some shell =>
        rcases hparked with hnone | hidle
        · rw [hshell] at hnone
          cases hnone
        · simpa [start, hshell] using hs.idle hidle shell hshell

/-- A step preserves what the attempt has established, if it is no retry on an unsettled
shell. -/
theorem Established.next (h : s.Established c) (hs : Housed c s)
    (hchecked : s.rechecked c l = true) (hnext : s.next c l = some s') : s'.Established c := by
  cases next_cases hnext with
  | shell hshell hstep => exact h.shellStep hs hshell hstep
  | work hshell hdoing | pause hshell hdoing | finish hshell hdoing =>
      exact h.workerStep hs hshell rfl
  | access hdoing | release hdoing hwake =>
      obtain ⟨held, hshell⟩ := hs.working (by simp [hdoing])
      exact h.workerStep hs hshell rfl
  | op hsup hallows =>
      rename_i o
      cases o <;> trivial
  | attempt hsup hsettled =>
      have hfound : s.settled c = true := by
        rcases hsettled with rfl | hfound
        · exact hchecked
        · exact hfound
      exact ⟨hs.parked_of_settled (by simp [hsup, Stretch.rest]) hfound, Or.inl rfl⟩
  | giveUp hsup => simp [Established, hsup]
  | reset hsup => exact h.resetStep hsup
  | handOver hsup =>
      rw [Established, hsup] at h
      have hflagless := (hs.launching _ _ _ hsup).1 _ List.mem_cons_self
      exact ⟨parked_act h.1 hflagless rfl rfl, cleared_act h.2 hflagless h.2.2 rfl⟩
  | writes hsup | resume hsup | starting hsup | restart hsup | spawn hsup | ended hsup
  | refused hsup => trivial
  | resetOver hsup =>
      rw [Established, hsup] at h
      obtain ⟨hparked, hreset | ⟨hcleared, -⟩⟩ := h
      · simp [Atom.reset] at hreset
      · exact ⟨hparked, hcleared⟩
  | probed hsup hhandoff hready =>
      rw [Established, hsup] at h
      exact h

/-- A start enters a fresh record, and nothing else enters one. -/
theorem Isolated.fresh_next (hs : Isolated c s) (hnext : s.next c l = some s') :
    ∀ b ∈ s'.begun, b.IsFresh := by
  have hestablished := hs.sup
  cases next_cases hnext with
  | restart hsup | spawn hsup =>
      rw [Established, hsup] at hestablished
      exact List.forall_mem_cons.mpr
        ⟨hs.housed.fresh_start hestablished.1 hestablished.2, hs.fresh⟩
  | shell | work | pause | access | release | finish | op | attempt | giveUp | writes | resume
  | starting | reset | handOver | ended | resetOver | probed | refused => exact hs.fresh

/-- **A step keeps the activations apart**, if it is no retry on an unsettled shell. -/
theorem Isolated.next (hs : Isolated c s) (hchecked : s.rechecked c l = true)
    (hnext : s.next c l = some s') : Isolated c s' where
  housed := hs.housed.next hnext
  sup := hs.sup.next hs.housed hchecked hnext
  fresh := hs.fresh_next hnext

/-- In every run whose retries of `spawn_settled` each find the shell settled, every
activation begins on a clean flag word, and what the one before it writes is written
before the reset. -/
theorem activations_isolated {slot : ℕ → ResourceSlot V} {ls : List (Label V)}
    {t : Handshake n V} (hrun : exec (Handshake.next c) (boot slot) ls = some t)
    (hchecked : Along (Handshake.next c) (fun s l => s.rechecked c l = true) (boot slot) ls) :
    ∀ b ∈ t.begun, b.IsFresh :=
  (exec_invariant_along (I := Isolated c) (fun _ _ _ hs hl h => hs.next hl h)
    (isolated_boot slot) hchecked hrun).fresh

/-- One node with a `task:` worker that carries boxed state. -/
def boxed : ShellCfg 1 where
  node := 0
  cfg := { mode := .terminate, spawn := some .task, slotTimeout := 100000, ackTimeout := 2000000 }
  state := some 0
  distinct := by decide

/-- An attempt, up to the probe that finds the shell parked. -/
def attempt (begun : Label Unit) : List (Label Unit) :=
  begun :: List.replicate 5 .sup ++ [.probe ()]

/-- The rest of a successful attempt. -/
def launch : List (Label Unit) := List.replicate 8 .sup

/-- The first activation, from the spawn of the shell to its park. -/
def firstActivation : List (Label Unit) :=
  attempt .startNodes ++ launch ++ List.replicate 2 .shell ++ .finish none ::
    List.replicate 10 .shell

/-- The first attempt of `spawn_settled` finds no memory for the state, the second does. -/
def retried : List (Label Unit) :=
  firstActivation ++ attempt .spawnSettled ++ [.refuse] ++ attempt .retry ++ launch

theorem activations_isolated_retried :
    ∃ t, exec (Handshake.next boxed) (boot fun _ => {}) retried = some t ∧
      t.begun.length = 2 ∧ ∀ b ∈ t.begun, b.IsFresh := by
  have hchecked : Along (Handshake.next boxed) (fun s l => s.rechecked boxed l = true)
      (boot fun _ => {}) retried := by decide +kernel
  exact ⟨_, rfl, rfl, activations_isolated rfl hchecked⟩

/-- As the first attempt is refused another call starts the shell. The retry resets while
the activation is on its way out, and the shell records its exit behind the reset. -/
def overtaken : List (Label Unit) :=
  firstActivation ++ attempt .spawnSettled ++ [.refuse] ++ attempt .startNodes ++ launch ++
    List.replicate 4 .shell ++ [.finish none, .shell] ++ .retry :: List.replicate 5 .sup ++
      List.replicate 7 .shell ++ .probe () :: launch

theorem dropped_survives_retry :
    ¬ ∀ (c : ShellCfg 1) (slot : ℕ → ResourceSlot Unit) (t : Handshake 1 Unit)
      (ls : List (Label Unit)), exec (Handshake.next c) (boot slot) ls = some t →
      ∀ b ∈ t.begun, b.IsFresh := by
  intro h
  have hfresh := h boxed (fun _ => {}) _ overtaken rfl _ List.mem_cons_self
  have hdropped := hfresh.clear .dropped (by decide)
  cases hdropped

end Handshake

end EmbassySupervisor
