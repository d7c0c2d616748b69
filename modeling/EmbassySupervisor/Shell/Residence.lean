/-
# Where a resident shell is

What the flags `RESIDENT` and `IDLE` say about a shell, at any moment of any run. A shell
sets `IDLE` last, so one that is found idle has nothing left but to park (`Housed.idle`);
only a start clears it; and `RESIDENT` is set as soon as there is a shell, but for the one
write by which the spawning stretch is late.
-/

import EmbassySupervisor.Shell.Handshake

namespace EmbassySupervisor

open LabelledRun

variable {n : ℕ} {V : Type}

/-- The access leaves `IDLE` alone and does not forget that the shell is there. -/
def Atom.Mild (j : Fin n) (a : Atom n V) : Prop :=
  a.put j .idle = none ∧ a.put j .resident ≠ some false

/-- The access writes no flag of the node. -/
def Atom.Flagless (j : Fin n) (a : Atom n V) : Prop := ∀ f, a.put j f = none

/-- An activation on its way out sets `IDLE` once, and after everything it writes. -/
def Activation.Parks (c : ShellCfg n) : Activation n V → Prop
  | .leaving rest =>
    rest.any Atom.writes = false ∨ ∃ front, rest = front ++ c.park ∧ ∀ a ∈ front, a.Mild c.node
  | .taking _ _ | .working _ | .checking | .waiting => True

namespace Handshake

/-- The shell has not been spawned yet. -/
def boot (slot : ℕ → ResourceSlot V) : Handshake n V := { mem := { slot } }

/-- What `RESIDENT` and `IDLE` say. -/
structure Housed (c : ShellCfg n) (s : Handshake n V) : Prop where
  unborn : s.shell = none → s.flag c .idle = false
  resident : s.flag c .resident = false →
    s.shell = none ∨ .flagPut c.node .resident true ∈ s.sup.rest
  idle : s.flag c .idle = true → ∀ shell ∈ s.shell, shell.leftover = false
  parks : ∀ shell ∈ s.shell, shell.Parks c
  driven : s.doing = [] ∨ ∃ held, s.shell = some (.working held)
  doing : ∀ a, .access a ∈ s.doing → a.Mild c.node
  mild : ∀ a ∈ s.sup.rest, a.Mild c.node
  launching : ∀ rest resident retries, s.sup = .launching rest resident retries →
    (∀ a ∈ rest, a.Flagless c.node) ∧ (resident = true → s.flag c .idle = true)

end Handshake

/-! ## Single accesses -/

namespace Atom

variable {j : Fin n} {a : Atom n V}

theorem Flagless.mild (h : a.Flagless j) : a.Mild j := by
  constructor
  · exact h .idle
  · rw [h .resident]
    exact (Option.some_ne_none false).symm

theorem flagless_of_target (h : a.target = none) : a.Flagless j := by
  intro f
  cases a with
  | flagPut | clearStale | drop | latch => simp [target] at h
  | provide | restore | empty | signalFilled | resetFilled | releaseClaims | gateEvent
  | stopEvent | notifyBind => rfl

theorem flagless_of_not_writes (h : a.writes = false) : a.Flagless j := by
  apply flagless_of_target
  simp only [writes, Bool.or_eq_false_iff, Option.isSome_eq_false_iff,
    Option.isNone_iff_eq_none] at h
  exact h.1

theorem flag_of_flagless {m : Memory n V} (h : a.Flagless j) (f : Flag) :
    (m.act a).flag j f = m.flag j f := by
  rw [Memory.flag_act, h f, Option.getD_none]

theorem Mild.idle {m : Memory n V} (h : a.Mild j) :
    (m.act a).flag j .idle = m.flag j .idle := by
  rw [Memory.flag_act, h.1, Option.getD_none]

theorem Mild.resident {m : Memory n V} (h : a.Mild j)
    (hresident : (m.act a).flag j .resident = false) : m.flag j .resident = false := by
  rw [Memory.flag_act] at hresident
  cases hput : a.put j .resident with
  | none => simpa [hput] using hresident
  | some on =>
      have hon : on ≠ false := fun heq => h.2 (by rw [hput, heq])
      simp [hput, hon] at hresident

/-- A write of another flag than these two is mild. -/
theorem mild_flagPut {f : Flag} (on : Bool) (hidle : f ≠ .idle) (hresident : f ≠ .resident) :
    (.flagPut j f on : Atom n V).Mild j := by
  simp [Mild, put, hidle, hresident]

theorem mild_latch (w : Wake) (on : Bool) : (.latch j w on : Atom n V).Mild j :=
  Flagless.mild fun _ => rfl

theorem mild_releaseProvided (cfg : NodeCfg n) :
    ∀ a ∈ (releaseProvided cfg j : List (Atom n V)), a.Mild j := fun a ha =>
  Flagless.mild fun f => Race.put_releaseProvided cfg j f a ha

theorem mild_settleDropped (cfg : NodeCfg n) :
    ∀ a ∈ (settleDropped cfg j : List (Atom n V)), a.Mild j := by
  simp [settleDropped, Mild, put]

theorem mild_ackDropped (cfg : NodeCfg n) :
    ∀ a ∈ (ackDropped cfg j : List (Atom n V)), a.Mild j := by
  intro a ha
  rcases List.mem_append.mp ha with ha | ha
  · exact mild_releaseProvided cfg a ha
  · exact mild_settleDropped cfg a ha

theorem mild_markExited (cfg : NodeCfg n) :
    ∀ a ∈ (markExited cfg j : List (Atom n V)), a.Mild j := by
  intro a ha
  rcases List.mem_append.mp ha with ha | ha
  · exact mild_releaseProvided cfg a ha
  · rcases List.mem_cons.mp ha with rfl | ha
    · exact mild_flagPut true (by decide) (by decide)
    · exact mild_settleDropped cfg a ha

theorem mild_reset : ∀ a ∈ (reset j : List (Atom n V)), a.Mild j := by
  simp [reset, Mild, put, Flag.stale]

theorem mild_fill {a : Atom n V} (h : a.target = none) (r : ℕ) : ∀ b ∈ fill a r, b.Mild j := by
  intro b hb
  simp only [fill, List.mem_cons, List.not_mem_nil, or_false] at hb
  rcases hb with rfl | rfl | rfl
  · exact (flagless_of_target h).mild
  · exact (flagless_of_target rfl).mild
  · exact (flagless_of_target rfl).mild

theorem mild_worker (cfg : NodeCfg n) (op : WorkerOp V) :
    ∀ a ∈ op.atoms cfg j, a.Mild j := by
  cases op with
  | ackDropped => exact mild_ackDropped cfg
  | provide r v | restore r v => exact mild_fill rfl r
  | setReady | clearReady | markBusy | markIdle | setDetached | take | clear =>
      simp [WorkerOp.atoms, clear, Mild, put]

end Atom

namespace Activation

variable {c : ShellCfg n} {m m' : Memory n V} {s s' : Activation n V}

theorem parks_lostResource : (leaving c.lostResource : Activation n V).Parks c :=
  Or.inr ⟨_, rfl, Atom.mild_markExited c.cfg⟩

theorem parks_epilogue (held : List (ℕ × Stamped V)) (out : Option V) :
    (leaving (c.epilogue held out)).Parks c := by
  have hsplit : c.epilogue held out =
      (ShellCfg.restores held ++ (c.provideExit out ++ Atom.markExited c.cfg c.node)) ++
        c.park := by
    simp [ShellCfg.epilogue]
  refine Or.inr ⟨_, hsplit, fun a ha => ?_⟩
  rcases List.mem_append.mp ha with ha | ha
  · obtain ⟨e, _, ha⟩ := List.mem_flatMap.mp ha
    exact Atom.mild_fill rfl e.1 a ha
  · rcases List.mem_append.mp ha with ha | ha
    · unfold ShellCfg.provideExit at ha
      split at ha
      · exact Atom.mild_fill rfl _ a ha
      · simp at ha
      · simp at ha
    · exact Atom.mild_markExited c.cfg a ha

/-- The next access on the way out is one of the quiet end, the `IDLE` write, or a mild one
before it. -/
theorem Parks.cases {a : Atom n V} {rest : List (Atom n V)} (h : (leaving (a :: rest)).Parks c) :
    (a.writes = false ∧ rest.any Atom.writes = false) ∨
      (a = .flagPut c.node .idle true ∧ rest = [.gateEvent]) ∨
      (a.Mild c.node ∧ (leaving rest).Parks c) := by
  rcases h with hquiet | ⟨front, hrest, hmild⟩
  · rw [List.any_cons, Bool.or_eq_false_iff] at hquiet
    exact Or.inl hquiet
  · cases front with
    | nil =>
        simp only [ShellCfg.park, List.nil_append, List.cons.injEq] at hrest
        exact Or.inr (Or.inl hrest)
    | cons b front =>
        obtain ⟨rfl, htail⟩ := List.cons.inj hrest
        obtain ⟨hfirst, hfront⟩ := List.forall_mem_cons.mp hmild
        exact Or.inr (Or.inr ⟨hfirst, Or.inr ⟨front, htail, hfront⟩⟩)

theorem Step.parks (h : Step c m s s' m') (hparks : s.Parks c) : s'.Parks c := by
  cases h with
  | lost hread hempty => exact parks_lostResource
  | leave =>
      rcases hparks.cases with ⟨-, hquiet⟩ | ⟨-, rfl⟩ | ⟨-, hrest⟩
      · exact Or.inl hquiet
      · exact Or.inl rfl
      · exact hrest
  | drive | take | get | park | wait | start | woken => trivial

/-- Once a shell says idle it has nothing left to write. -/
theorem Step.idle (h : Step c m s s' m') (hparks : s.Parks c)
    (hquiet : m.flag c.node .idle = true → s.leftover = false)
    (hidle : m'.flag c.node .idle = true) : s'.leftover = false := by
  cases h with
  | leave =>
      rcases hparks.cases with ⟨-, hrest⟩ | ⟨-, rfl⟩ | ⟨hmild, -⟩
      · exact hrest
      · rfl
      · have hleft := hquiet (hmild.idle ▸ hidle)
        rw [leftover, List.any_cons, Bool.or_eq_false_iff] at hleft
        exact hleft.2
  | drive | lost | get => exact absurd (hquiet hidle) (by simp [leftover])
  | take =>
      rw [Atom.flag_of_flagless fun _ => rfl] at hidle
      exact absurd (hquiet hidle) (by simp [leftover])
  | start hclear =>
      rw [hclear] at hidle
      cases hidle
  | park | wait | woken => rfl

/-- A shell does not forget that it is there. -/
theorem Step.resident (h : Step c m s s' m') (hparks : s.Parks c)
    (hresident : m'.flag c.node .resident = false) : m.flag c.node .resident = false := by
  cases h with
  | leave =>
      rcases hparks.cases with ⟨hquiet, -⟩ | ⟨rfl, -⟩ | ⟨hmild, -⟩
      · rwa [Atom.flag_of_flagless (Atom.flagless_of_not_writes hquiet)] at hresident
      · simpa [Memory.flag_act, Atom.put] using hresident
      · exact hmild.resident hresident
  | take | woken => rwa [Atom.flag_of_flagless fun _ => rfl] at hresident
  | drive | lost | get | park | wait | start => exact hresident

/-- A shell with nothing left to write, told to stay idle, writes nothing. -/
theorem Step.still (h : Step c m s s' m') (hquiet : s.leftover = false)
    (hidle : m.flag c.node .idle = true) :
    s.writes = false ∧ s'.leftover = false ∧ ∀ f, m'.flag c.node f = m.flag c.node f := by
  cases h with
  | leave =>
      rename_i a rest
      rw [leftover, List.any_cons, Bool.or_eq_false_iff] at hquiet
      exact ⟨hquiet.1, hquiet.2, Atom.flag_of_flagless (Atom.flagless_of_not_writes hquiet.1)⟩
  | start hclear =>
      rw [hclear] at hidle
      cases hidle
  | park | wait => exact ⟨rfl, rfl, fun _ => rfl⟩
  | woken => exact ⟨rfl, rfl, Atom.flag_of_flagless fun _ => rfl⟩
  | drive | lost | take | get => simp [leftover] at hquiet

end Activation

/-! ## A step keeps house -/

namespace Handshake

variable {c : ShellCfg n} {s s' : Handshake n V} {l : Label V}

theorem housed_boot (slot : ℕ → ResourceSlot V) : Housed c (boot slot) where
  unborn _ := rfl
  resident _ := Or.inl rfl
  idle h := by cases h
  parks shell h := by cases h
  driven := Or.inl rfl
  doing a h := by cases h
  mild a h := by cases h
  launching rest resident retries h := by cases h

theorem Housed.idle_working (hs : Housed c s) {held : List (ℕ × Stamped V)}
    (hshell : s.shell = some (.working held)) : s.flag c .idle = false := by
  refine Bool.eq_false_iff.mpr fun h => ?_
  have hquiet := hs.idle h _ hshell
  cases hquiet

/-- A worker that is doing something keeps its shell from being anywhere else. -/
theorem Housed.working (hs : Housed c s) (hdoing : s.doing ≠ []) :
    ∃ held, s.shell = some (.working held) :=
  hs.driven.resolve_left hdoing

/-- A shell the supervisor finds settled is parked, unless it is just being spawned. -/
theorem Housed.parked_of_settled (hs : Housed c s) (hrest : s.sup.rest = [])
    (hsettled : s.settled c = true) : s.shell = none ∨ s.flag c .idle = true := by
  unfold settled at hsettled
  cases hresident : s.flag c .resident with
  | false =>
      rcases hs.resident hresident with hnone | hpending
      · exact Or.inl hnone
      · rw [hrest] at hpending
        cases hpending
  | true =>
      rw [hresident] at hsettled
      exact Or.inr (by simpa using hsettled)

/-- An access of the shell. -/
theorem Housed.shellStep (hs : Housed c s) {shell after : Activation n V} {mem : Memory n V}
    (hshell : s.shell = some shell) (hstep : Activation.Step c s.mem shell after mem)
    (hmem : s'.mem = mem) (hafter : s'.shell = some after) (hdoing : s'.doing = s.doing)
    (hsup : s'.sup = s.sup) : Housed c s' := by
  have hparks : shell.Parks c := hs.parks shell hshell
  have hquiet : s.flag c .idle = true → shell.leftover = false := fun h =>
    hs.idle h shell hshell
  constructor
  case unborn =>
    intro h
    rw [hafter] at h
    cases h
  case resident =>
    intro hresident
    rw [flag, hmem] at hresident
    rcases hs.resident (hstep.resident hparks hresident) with hnone | hpending
    · rw [hshell] at hnone
      cases hnone
    · exact Or.inr (hsup ▸ hpending)
  case idle =>
    intro hidle shell' hshell'
    rw [flag, hmem] at hidle
    rw [hafter] at hshell'
    cases hshell'
    exact hstep.idle hparks hquiet hidle
  case parks =>
    intro shell' hshell'
    rw [hafter] at hshell'
    cases hshell'
    exact hstep.parks hparks
  case driven =>
    rw [hdoing]
    rcases hs.driven with hnil | ⟨held, hworking⟩
    · exact Or.inl hnil
    · rw [hshell, Option.some.injEq] at hworking
      subst hworking
      cases hstep
  case doing =>
    rw [hdoing]
    exact hs.doing
  case mild =>
    rw [hsup]
    exact hs.mild
  case launching =>
    intro rest resident retries heq
    obtain ⟨hflagless, hidle⟩ := hs.launching rest resident retries (hsup ▸ heq)
    use hflagless
    intro hresident
    rw [flag, hmem, (hstep.still (hquiet (hidle hresident)) (hidle hresident)).2.2]
    exact hidle hresident

/-- A step of the worker. -/
theorem Housed.workerStep (hs : Housed c s) {held : List (ℕ × Stamped V)}
    {after : Activation n V} (hshell : s.shell = some (.working held))
    (hafter : s'.shell = some after) (hparks : after.Parks c) (hsup : s'.sup = s.sup)
    (hidle : s'.flag c .idle = s.flag c .idle)
    (hresident : s'.flag c .resident = false → s.flag c .resident = false)
    (hdriven : s'.doing = [] ∨ ∃ held, after = .working held)
    (hdoing : ∀ a, .access a ∈ s'.doing → a.Mild c.node) : Housed c s' where
  unborn h := by
    rw [hafter] at h
    cases h
  resident h := by
    rw [hsup]
    rcases hs.resident (hresident h) with hnone | hpending
    · rw [hshell] at hnone
      cases hnone
    · exact Or.inr hpending
  idle h := by
    rw [hidle, hs.idle_working hshell] at h
    cases h
  parks shell h := by
    rw [hafter] at h
    cases h
    exact hparks
  driven := by
    rw [hafter]
    exact hdriven.imp_right fun ⟨held', heq⟩ => ⟨held', by rw [heq]⟩
  doing := hdoing
  mild := by
    rw [hsup]
    exact hs.mild
  launching rest resident retries heq := by
    rw [hidle]
    exact hs.launching rest resident retries (hsup ▸ heq)

/-- A step of the supervisor that starts no shell. -/
theorem Housed.supStep (hs : Housed c s) (hshell : s'.shell = s.shell)
    (hdoing : s'.doing = s.doing) (hidle : s'.flag c .idle = s.flag c .idle)
    (hresident : s'.flag c .resident = false → s.flag c .resident = false ∧
      (.flagPut c.node .resident true ∈ s.sup.rest →
        .flagPut c.node .resident true ∈ s'.sup.rest))
    (hmild : ∀ a ∈ s'.sup.rest, a.Mild c.node)
    (hlaunching : ∀ rest resident retries, s'.sup = .launching rest resident retries →
      (∀ a ∈ rest, a.Flagless c.node) ∧ (resident = true → s.flag c .idle = true)) :
    Housed c s' where
  unborn h := by
    rw [hidle]
    exact hs.unborn (hshell ▸ h)
  resident h := by
    obtain ⟨hbefore, hpending⟩ := hresident h
    rw [hshell]
    exact (hs.resident hbefore).imp_right hpending
  idle h := by
    rw [hshell]
    exact hs.idle (hidle ▸ h)
  parks := by
    rw [hshell]
    exact hs.parks
  driven := by
    rw [hdoing, hshell]
    exact hs.driven
  doing := by
    rw [hdoing]
    exact hs.doing
  mild := hmild
  launching rest resident retries heq := by
    rw [hidle]
    exact hlaunching rest resident retries heq

/-- The next access of a stretch. -/
theorem Housed.accessStep (hs : Housed c s) {a : Atom n V} {rest : List (Atom n V)}
    (hrest : s.sup.rest = a :: rest) (hafter : s'.sup.rest = rest)
    (hmem : s'.mem = s.mem.act a) (hshell : s'.shell = s.shell) (hdoing : s'.doing = s.doing)
    (hlaunching : ∀ rest' resident retries, s'.sup = .launching rest' resident retries →
      s.sup = .launching (a :: rest') resident retries) : Housed c s' := by
  obtain ⟨hfirst, hmild⟩ := List.forall_mem_cons.mp (hrest ▸ hs.mild)
  apply hs.supStep hshell hdoing
  · rw [flag, hmem]
    exact hfirst.idle
  · intro h
    rw [flag, hmem] at h
    use hfirst.resident h
    rw [hrest, hafter]
    intro hpending
    rcases List.mem_cons.mp hpending with rfl | hpending
    · simp [Memory.flag_act, Atom.put] at h
    · exact hpending
  · rw [hafter]
    exact hmild
  · intro rest' resident retries heq
    obtain ⟨hflagless, hidle⟩ := hs.launching _ _ _ (hlaunching rest' resident retries heq)
    exact ⟨(List.forall_mem_cons.mp hflagless).2, hidle⟩

/-- A step of the supervisor that makes no access. -/
theorem Housed.controlStep (hs : Housed c s) (hmem : s'.mem = s.mem) (hshell : s'.shell = s.shell)
    (hdoing : s'.doing = s.doing) (hrest : ∀ a ∈ s.sup.rest, a.Flagless c.node)
    (hmild : ∀ a ∈ s'.sup.rest, a.Mild c.node)
    (hlaunching : ∀ rest resident retries, s'.sup = .launching rest resident retries →
      (∀ a ∈ rest, a.Flagless c.node) ∧ (resident = true → s.flag c .idle = true)) :
    Housed c s' := by
  apply hs.supStep hshell hdoing
  · rw [flag, hmem]
    rfl
  · intro h
    rw [flag, hmem] at h
    use h
    intro hpending
    have hput := hrest _ hpending .resident
    simp [Atom.put] at hput
  · exact hmild
  · exact hlaunching

/-- The start of a parked shell. -/
theorem Housed.restartStep (hs : Housed c s) {retries : Bool}
    (hsup : s.sup = .launching [] true retries)
    (hmem : s'.mem = s.mem.act (.flagPut c.node .idle false)) (hshell : s'.shell = s.shell)
    (hdoing : s'.doing = s.doing)
    (hafter : s'.sup = .starting [.latch c.node .resume true, .flagPut c.node .running true,
      .flagPut c.node .boundStopped false]) : Housed c s' := by
  have hidle : s'.flag c .idle = false := by
    simp [flag, hmem, Memory.flag_act, Atom.put]
  constructor
  case unborn => exact fun _ => hidle
  case resident =>
    intro h
    have hbefore : s.flag c .resident = false := by
      simpa [flag, hmem, Memory.flag_act, Atom.put] using h
    rw [hshell]
    rcases hs.resident hbefore with hnone | hpending
    · exact Or.inl hnone
    · rw [hsup] at hpending
      cases hpending
  case idle =>
    intro h
    rw [hidle] at h
    cases h
  case parks =>
    rw [hshell]
    exact hs.parks
  case driven =>
    rw [hdoing, hshell]
    exact hs.driven
  case doing =>
    rw [hdoing]
    exact hs.doing
  case mild =>
    rw [hafter]
    simp [Stretch.rest, Atom.Mild, Atom.put]
  case launching =>
    intro rest resident retries heq
    rw [hafter] at heq
    cases heq

/-- The spawn of the shell. -/
theorem Housed.spawnStep (hs : Housed c s) (hshell : s.shell = none) (hmem : s'.mem = s.mem)
    (hspawned : s'.shell = some (.taking c.takes [])) (hdoing : s'.doing = s.doing)
    (hafter : s'.sup = .starting [.flagPut c.node .resident true, .flagPut c.node .running true,
      .flagPut c.node .boundStopped false]) : Housed c s' := by
  constructor
  case unborn =>
    intro h
    rw [hspawned] at h
    cases h
  case resident =>
    intro _
    rw [hafter]
    exact Or.inr List.mem_cons_self
  case idle =>
    intro h
    have hbefore : s.flag c .idle = true := by simpa [flag, hmem] using h
    rw [hs.unborn hshell] at hbefore
    cases hbefore
  case parks =>
    intro shell h
    rw [hspawned] at h
    cases h
    trivial
  case driven =>
    rw [hdoing]
    rcases hs.driven with hnil | ⟨held, hworking⟩
    · exact Or.inl hnil
    · rw [hshell] at hworking
      cases hworking
  case doing =>
    rw [hdoing]
    exact hs.doing
  case mild =>
    rw [hafter]
    simp [Stretch.rest, Atom.Mild, Atom.put]
  case launching =>
    intro rest resident retries heq
    rw [hafter] at heq
    cases heq

theorem SupOp.mild_stretch (o : SupOp) :
    ∀ a ∈ (o.stretch c.node : Stretch n V).rest, a.Mild c.node := by
  cases o with
  | signalShutdown | collect | awaitAck | markBound =>
      simp [stretch, Stretch.rest, Atom.Mild, Atom.put]
  | resumeNode | resumeInPlace | boundResume =>
      intro a ha
      rcases List.mem_append.mp ha with ha | ha
      · exact Atom.mild_reset a ha
      · simp only [List.mem_cons, List.not_mem_nil, or_false] at ha
        rcases ha with rfl | rfl | rfl <;> simp [Atom.Mild, Atom.put]

theorem SupOp.stretch_ne_launching (o : SupOp) {rest : List (Atom n V)} {resident retries : Bool} :
    (o.stretch c.node : Stretch n V) ≠ .launching rest resident retries := by
  cases o <;> simp [stretch]

/-- **Every step keeps house.** -/
theorem Housed.next (hs : Housed c s) (h : s.next c l = some s') : Housed c s' := by
  cases next_cases h with
  | shell hshell hstep => exact hs.shellStep hshell hstep rfl rfl rfl rfl
  | work hshell hdoing =>
      rename_i op held
      refine hs.workerStep hshell hshell trivial rfl rfl id (Or.inr ⟨held, rfl⟩) fun a ha => ?_
      obtain ⟨b, hb, heq⟩ := List.mem_map.mp ha
      cases heq
      exact Atom.mild_worker c.cfg op a hb
  | pause hshell hdoing =>
      rename_i held
      refine hs.workerStep hshell hshell trivial rfl rfl id (Or.inr ⟨held, rfl⟩) fun a ha => ?_
      rcases List.mem_append.mp ha with ha | ha
      · obtain ⟨b, hb, heq⟩ := List.mem_map.mp ha
        cases heq
        exact Atom.mild_ackDropped c.cfg a hb
      · simp at ha
  | access hdoing =>
      rename_i a doing
      have hmild : a.Mild c.node := hs.doing a (by simp [hdoing])
      obtain ⟨held, hshell⟩ := hs.working (by simp [hdoing])
      exact hs.workerStep hshell hshell trivial rfl hmild.idle hmild.resident
        (Or.inr ⟨held, rfl⟩) fun b hb => hs.doing b (hdoing ▸ List.mem_cons_of_mem _ hb)
  | release hdoing hwake =>
      have hmild : (.latch c.node .resume false : Atom n V).Mild c.node := Atom.mild_latch _ _
      obtain ⟨held, hshell⟩ := hs.working (by simp [hdoing])
      exact hs.workerStep hshell hshell trivial rfl hmild.idle hmild.resident
        (Or.inr ⟨held, rfl⟩) fun b hb => hs.doing b (hdoing ▸ List.mem_cons_of_mem _ hb)
  | finish hshell hdoing =>
      rename_i out held
      exact hs.workerStep hshell rfl (Activation.parks_epilogue held out) rfl rfl id
        (Or.inl rfl) fun a ha => by cases ha
  | op hsup hallows =>
      rename_i o
      refine hs.controlStep rfl rfl rfl (by simp [hsup, Stretch.rest]) o.mild_stretch ?_
      exact fun rest resident retries heq => absurd heq o.stretch_ne_launching
  | attempt hsup hsettled =>
      refine hs.controlStep rfl rfl rfl (by simp [hsup, Stretch.rest]) Atom.mild_reset ?_
      exact fun rest resident retries heq => by cases heq
  | giveUp hsup =>
      exact hs.controlStep rfl rfl rfl (by simp [hsup, Stretch.rest]) hs.mild hs.launching
  | writes hsup | resume hsup | starting hsup | reset hsup =>
      refine hs.accessStep (by rw [hsup]; rfl) rfl rfl rfl rfl ?_
      exact fun rest resident retries heq => by cases heq
  | handOver hsup =>
      refine hs.accessStep (by rw [hsup]; rfl) rfl rfl rfl rfl ?_
      intro rest resident retries heq
      cases heq
      exact hsup
  | restart hsup => exact hs.restartStep hsup rfl rfl rfl rfl
  | spawn hsup hshell => exact hs.spawnStep hshell rfl rfl rfl rfl
  | ended hsup =>
      refine hs.controlStep rfl rfl rfl ?_ (by simp [Stretch.rest])
        fun rest resident retries heq => by cases heq
      rcases hsup with hsup | hsup | hsup <;> simp [hsup, Stretch.rest]
  | resetOver hsup =>
      exact hs.controlStep rfl rfl rfl (by simp [hsup, Stretch.rest]) (by simp [Stretch.rest])
        fun rest resident retries heq => by cases heq
  | probed hsup hhandoff hready =>
      rename_i state handoff retries
      have hflagless : ∀ a ∈ handoff, a.Flagless c.node := fun a ha =>
        Atom.flagless_of_target (hhandoff a ha)
      refine hs.controlStep rfl rfl rfl (by simp [hsup, Stretch.rest])
        (fun a ha => (hflagless a ha).mild) ?_
      intro rest resident retries heq
      cases heq
      exact ⟨hflagless, hready⟩
  | refused hsup =>
      refine hs.controlStep rfl rfl rfl ?_ (by simp [Stretch.rest])
        fun rest resident retries heq => by cases heq
      rcases hsup with ⟨retries, hsup⟩ | ⟨handoff, resident, retries, hsup⟩
      · simp [hsup, Stretch.rest]
      · rw [hsup]
        exact (hs.launching handoff resident retries hsup).1

end Handshake

end EmbassySupervisor
