/-
# The waves do not panic

Each wave has an `expect` for every slot it looks up and one for its deadline. The slots
are those of the selection, which are occupied. The deadlines are there because in a graph
without cycles some slot is always ready: the last unresolved one has no chosen dependent
left, so the signal pass has signalled it, and the first pending one has no pending
dependency, so the round has armed it.

Nothing is assumed about the state a wave runs in. It may be another one at every step, so
tasks, interrupts and other calls may do what they like in between, and the clock may run
as it likes.
-/

import EmbassySupervisor.Verb.System
import EmbassySupervisor.Wave.StopOrder

namespace EmbassySupervisor

open LabelledRun

variable {n : ℕ} {g : Graph n}

namespace StopWave

/-- A stop wave whose every step finds some state. -/
def anywhere (g : Graph n) (s : StopWave n) (w : World n) : Option (StopWave n) :=
  (step g w s).map Prod.fst

variable {s t : StopWave n} {w : World n}

/-- The signal pass has been over the slot: it is signalled, unless a chosen dependent of it
has not resolved. -/
def SeenTo (g : Graph n) (s : StopWave n) (j : Fin n) : Prop :=
  s.unresolved j = true → s.signaled j ≠ unsignaled ∨ s.held g j = true

/-- The expire pass has been over the slot and has found a deadline for it. -/
def Awaited (g : Graph n) (s : StopWave n) (nowMs : ℕ) (deadline : Option ℕ) (j : Fin n) :
    Prop :=
  s.unresolved j = true → s.signaled j ≠ unsignaled →
    deadline ≠ none ∧ ∃ cfg, g.nodes j = some cfg ∧ nowMs < s.dueMs g cfg j

/-- What the passes have done so far. -/
def Passed (g : Graph n) (s : StopWave n) : StopPc n → Prop
  | .signal todo => ∀ j ∉ todo, SeenTo g s j
  | .collect _ progress => progress = false → ∀ j, SeenTo g s j
  | .expire todo nowMs deadline progress => progress = false →
    (∀ j, SeenTo g s j) ∧ (∃ j, s.unresolved j = true) ∧
      ∀ j ∉ todo, Awaited g s nowMs deadline j
  | .sleep _ | .done _ => True
  | .panic => False

/-- The chosen slots are occupied, and the passes have done their work. -/
structure Sound (g : Graph n) (s : StopWave n) : Prop where
  occupied : ∀ j, s.chosen j = true → g.occupied j = true
  passed : Passed g s s.pc

theorem occupied_of_unresolved (hs : Sound g s) {j : Fin n} (hj : s.unresolved j = true) :
    g.occupied j = true := hs.occupied j (Bool.and_eq_true_iff.mp hj).1

/-- **Some slot is signalled and not yet due** when the expire pass has made no progress. -/
theorem exists_awaited {nowMs : ℕ} {deadline : Option ℕ}
    (h : Passed g s (.expire [] nowMs deadline false)) :
    ∃ j cfg, s.unresolved j = true ∧ s.signaled j ≠ unsignaled ∧ deadline ≠ none ∧
      g.nodes j = some cfg ∧ nowMs < s.dueMs g cfg j := by
  obtain ⟨hseen, ⟨i, hi⟩, hawaited⟩ := h rfl
  obtain ⟨j, hj, hlast⟩ := g.topological.exists_last hi
  have hfree : s.held g j = false := held_eq_false_iff.mpr hlast
  have hsignaled : s.signaled j ≠ unsignaled := by
    rcases hseen j hj with hsignaled | hheld
    · exact hsignaled
    · rw [hfree] at hheld
      cases hheld
  obtain ⟨hdeadline, cfg, hcfg, hdue⟩ := hawaited j List.not_mem_nil hj hsignaled
  exact ⟨j, cfg, hj, hsignaled, hdeadline, hcfg, hdue⟩

theorem sound_signalVisit {j : Fin n} {todo : List (Fin n)} (hs : Sound g s)
    (hpc : s.pc = .signal (j :: todo)) : Sound g (signalVisit g w s j todo).1 := by
  have hbefore : ∀ i ∉ j :: todo, SeenTo g s i := by
    have := hs.passed
    rwa [hpc] at this
  unfold signalVisit
  split
  · next hready =>
      simp only [Bool.and_eq_true] at hready
      obtain ⟨cfg, hcfg⟩ := g.occupied_iff.mp (occupied_of_unresolved hs hready.1.1)
      simp only [hcfg]
      refine ⟨hs.occupied, fun i hi hopen => ?_⟩
      by_cases hij : i = j
      · apply Or.inl
        simp only [hij, Function.update_self, unsignaled]
        omega
      · rcases hbefore i (by simp [hij, hi]) hopen with hsignaled | hheld
        · apply Or.inl
          simpa only [Function.update_of_ne hij] using hsignaled
        · exact Or.inr hheld
  · next hskip =>
      refine ⟨hs.occupied, fun i hi hopen => ?_⟩
      by_cases hij : i = j
      · subst hij
        have hopen : s.unresolved i = true := hopen
        by_cases hfresh : s.signaled i = unsignaled
        · apply Or.inr
          change s.held g i = true
          simpa [hopen, hfresh] using hskip
        · exact Or.inl hfresh
      · exact hbefore i (by simp [hij, hi]) hopen

theorem sound_collectVisit {j : Fin n} {todo : List (Fin n)} {progress : Bool}
    (hs : Sound g s) (hpc : s.pc = .collect (j :: todo) progress) :
    Sound g (collectVisit g w s j todo progress).1 := by
  have hbefore : progress = false → ∀ j, SeenTo g s j := by
    have := hs.passed
    rwa [hpc] at this
  unfold collectVisit
  split
  · next hopen =>
      obtain ⟨cfg, hcfg⟩ := g.occupied_iff.mp (occupied_of_unresolved hs hopen)
      simp only [hcfg]
      split
      · exact ⟨hs.occupied, nofun⟩
      · exact ⟨hs.occupied, hbefore⟩
  · exact ⟨hs.occupied, hbefore⟩

theorem sound_expireVisit {j : Fin n} {todo : List (Fin n)} {nowMs : ℕ}
    {deadline : Option ℕ} {progress : Bool} (hs : Sound g s)
    (hpc : s.pc = .expire (j :: todo) nowMs deadline progress) :
    Sound g (expireVisit g w s j todo nowMs deadline progress).1 := by
  have hbefore := hs.passed
  rw [hpc] at hbefore
  unfold expireVisit
  split
  · next hopen =>
      simp only [Bool.and_eq_true] at hopen
      obtain ⟨cfg, hcfg⟩ := g.occupied_iff.mp (occupied_of_unresolved hs hopen.1)
      simp only [hcfg]
      split
      · next hdue =>
          refine ⟨hs.occupied, fun hno => ?_⟩
          obtain ⟨hseen, hsome, hawaited⟩ := hbefore hno
          refine ⟨hseen, hsome, fun i hi hiopen hisignaled => ⟨by simp, ?_⟩⟩
          by_cases hij : i = j
          · subst hij
            exact ⟨cfg, hcfg, hdue⟩
          · exact (hawaited i (by simp [hij, hi]) hiopen hisignaled).2
      · split
        · exact ⟨hs.occupied, nofun⟩
        · exact ⟨hs.occupied, trivial⟩
  · next hskip =>
      refine ⟨hs.occupied, fun hno => ?_⟩
      obtain ⟨hseen, hsome, hawaited⟩ := hbefore hno
      refine ⟨hseen, hsome, fun i hi hiopen hisignaled => ?_⟩
      by_cases hij : i = j
      · subst hij
        have hopen : s.unresolved i = true := hiopen
        have hsignaled : s.signaled i ≠ unsignaled := hisignaled
        simp [hopen, hsignaled] at hskip
      · exact hawaited i (by simp [hij, hi]) hiopen hisignaled

/-- **One step of a stop wave**, in whatever state, keeps what the passes have done. -/
theorem Sound.step (hs : Sound g s) (h : anywhere g s w = some t) : Sound g t := by
  have hround : Sound g { s with pc := .signal g.order.reverse } :=
    ⟨hs.occupied, fun j hj => absurd (List.mem_reverse.mpr (g.mem_order j)) hj⟩
  obtain ⟨⟨t, w'⟩, hstep, rfl⟩ := Option.map_eq_some_iff.mp h
  have hpassed := hs.passed
  unfold StopWave.step at hstep
  cases hpc : s.pc with
  | signal todo =>
      rw [hpc] at hpassed
      cases todo with
      | cons j todo =>
          simp only [hpc] at hstep
          have hvisit := sound_signalVisit (w := w) hs hpc
          rwa [Option.some.inj hstep] at hvisit
      | nil =>
          simp only [hpc] at hstep
          cases hstep
          exact ⟨hs.occupied, fun _ j => hpassed j List.not_mem_nil⟩
  | collect todo progress =>
      rw [hpc] at hpassed
      cases todo with
      | cons j todo =>
          simp only [hpc] at hstep
          have hvisit := sound_collectVisit (w := w) hs hpc
          rwa [Option.some.inj hstep] at hvisit
      | nil =>
          simp only [hpc] at hstep
          split at hstep
          · cases hstep
            exact ⟨hs.occupied, trivial⟩
          · next hopen =>
              split at hstep
              · cases hstep
                exact hround
              · next hno =>
                  cases hstep
                  refine ⟨hs.occupied, fun _ => ⟨hpassed (by simpa using hno), ?_, ?_⟩⟩
                  · obtain ⟨j, hj⟩ : ∃ j, ¬ (s.chosen j = true → s.resolved j = true) :=
                      not_forall.mp (mt allResolved_iff.mpr hopen)
                    refine ⟨j, ?_⟩
                    simpa [unresolved] using hj
                  · exact fun j hj => absurd (List.mem_reverse.mpr (g.mem_order j)) hj
  | expire todo nowMs deadline progress =>
      rw [hpc] at hpassed
      cases todo with
      | cons j todo =>
          simp only [hpc] at hstep
          have hvisit := sound_expireVisit (w := w) hs hpc
          rwa [Option.some.inj hstep] at hvisit
      | nil =>
          simp only [hpc] at hstep
          split at hstep
          · cases hstep
            exact hround
          · next hno =>
              obtain rfl : progress = false := by simpa using hno
              obtain ⟨j, cfg, -, -, hdeadline, -⟩ := exists_awaited hpassed
              cases hcase : deadline with
              | none => exact absurd hcase hdeadline
              | some d =>
                  simp only [hcase] at hstep
                  cases hstep
                  exact ⟨hs.occupied, trivial⟩
  | sleep d =>
      simp only [hpc] at hstep
      split at hstep
      · cases hstep
        exact hround
      · split at hstep
        · cases hstep
          exact hround
        · cases hstep
  | panic | done => simp [hpc] at hstep

theorem sound_launch (w₀ : World n) {chosen : Fin n → Bool} (keepGoing : Bool)
    (hocc : ∀ j, chosen j = true → g.occupied j = true) :
    Sound g (launch g w₀ chosen keepGoing) :=
  ⟨hocc, fun j hj => absurd (List.mem_reverse.mpr (g.mem_order j)) hj⟩

end StopWave

namespace StartWave

/-- A start wave whose every step finds some state. -/
def anywhere (g : Graph n) (s : StartWave n) (w : World n) : Option (StartWave n) :=
  (step g w s).map Prod.fst

variable {s t : StartWave n} {w : World n}

/-- The round has been over the slot: its budget has started, unless a dependency of it is
pending. -/
def Reached (g : Graph n) (s : StartWave n) (j : Fin n) : Prop :=
  s.pending j = true → s.armed j ≠ unarmed ∨ ∃ d ∈ g.deps j, s.pending d = true

/-- What a round has done so far. -/
def Passed (g : Graph n) (s : StartWave n) : StartPc n → Prop
  | .visit todo round => round.progress = false →
    (∀ j ∉ todo, Reached g s j) ∧ (round.waiting = true → ∃ j, s.pending j = true)
  | .sleep _ => ∃ j, s.pending j = true ∧ s.armed j ≠ unarmed
  | .yield | .done _ => True
  | .panic => False

structure Sound (g : Graph n) (s : StartWave n) : Prop where
  occupied : ∀ j, s.pending j = true → g.occupied j = true
  passed : Passed g s s.pc

/-- **Some pending slot is armed** when a round has made no progress. -/
theorem exists_armed {round : Round} (h : Passed g s (.visit [] round))
    (hprogress : round.progress = false) (hwaiting : round.waiting = true) :
    ∃ j, s.pending j = true ∧ s.armed j ≠ unarmed := by
  obtain ⟨hreached, hsome⟩ := h hprogress
  obtain ⟨i, hi⟩ := hsome hwaiting
  obtain ⟨j, hj, hfirst⟩ := g.topological.exists_first (p := fun j => s.pending j = true) hi
  rcases hreached j List.not_mem_nil hj with harmed | ⟨d, hd, hpend⟩
  · exact ⟨j, hj, harmed⟩
  · exact absurd hpend (hfirst d hd)

/-- An armed pending slot gives the wave a deadline. -/
theorem deadlineMs_ne_none (hocc : ∀ j, s.pending j = true → g.occupied j = true)
    (h : ∃ j, s.pending j = true ∧ s.armed j ≠ unarmed) : s.deadlineMs g ≠ none := by
  have hsome : ∀ js : List (Fin n), (∀ j ∈ js, g.occupied j = true) →
      ∃ ms : List ℕ, (js.mapM fun j =>
        (g.nodes j).map fun cfg => s.armed j + g.asMillis cfg.slotTimeout) = some ms ∧
          ms.length = js.length := by
    intro js
    induction js with
    | nil =>
        intro _
        exact ⟨[], rfl, rfl⟩
    | cons j js ih =>
        intro hjs
        obtain ⟨cfg, hcfg⟩ := g.occupied_iff.mp (hjs j List.mem_cons_self)
        obtain ⟨ms, hms, hlength⟩ := ih fun k hk => hjs k (List.mem_cons_of_mem j hk)
        exact ⟨(s.armed j + g.asMillis cfg.slotTimeout) :: ms, by simp [hcfg, hms],
          by simp [hlength]⟩
  obtain ⟨j, hj, harmed⟩ := h
  have hmem : j ∈ g.order.filter fun j => s.pending j && s.armed j != unarmed := by
    simp [g.mem_order, hj, harmed]
  obtain ⟨ms, hms, hlength⟩ := hsome (g.order.filter fun j => s.pending j && s.armed j != unarmed)
    fun k hk => hocc k (by simpa using (Bool.and_eq_true_iff.mp (List.mem_filter.mp hk).2).1)
  unfold deadlineMs
  rw [hms]
  cases ms with
  | nil =>
      rw [List.length_nil, eq_comm, List.length_eq_zero_iff] at hlength
      rw [hlength] at hmem
      cases hmem
  | cons => simp [List.min?]

/-- Where all are looked up, each is found, and each was looked for. -/
private theorem mem_of_mapM {α β : Type} {f : α → Option β} {as : List α} {bs : List β}
    (h : as.mapM f = some bs) :
    (∀ a ∈ as, ∃ b ∈ bs, f a = some b) ∧ ∀ b ∈ bs, ∃ a ∈ as, f a = some b := by
  induction as generalizing bs with
  | nil =>
      cases h
      simp
  | cons a as ih =>
      rw [List.mapM_cons] at h
      obtain ⟨b, hb, h⟩ := Option.bind_eq_some_iff.mp h
      obtain ⟨rest, hrest, h⟩ := Option.bind_eq_some_iff.mp h
      cases h
      obtain ⟨hfound, hlooked⟩ := ih hrest
      constructor
      · rintro a' (_ | ⟨_, ha'⟩)
        · exact ⟨b, List.mem_cons_self, hb⟩
        · obtain ⟨b', hb', hf⟩ := hfound a' ha'
          exact ⟨b', List.mem_cons_of_mem b hb', hf⟩
      · rintro b' (_ | ⟨_, hb'⟩)
        · exact ⟨a, List.mem_cons_self, hb⟩
        · obtain ⟨a', ha', hf⟩ := hlooked b' hb'
          exact ⟨a', List.mem_cons_of_mem a ha', hf⟩

/-- The deadline of the wave is the first end of the windows of its armed slots. -/
theorem isLeast_deadlineMs {ms : ℕ} (h : s.deadlineMs g = some ms) :
    IsLeast {ms | ∃ j cfg, s.pending j = true ∧ s.armed j ≠ unarmed ∧ g.nodes j = some cfg ∧
      ms = s.armed j + g.asMillis cfg.slotTimeout} ms := by
  obtain ⟨all, hall, hmin⟩ := Option.bind_eq_some_iff.mp h
  obtain ⟨hfound, hlooked⟩ := mem_of_mapM hall
  obtain ⟨hmem, hle⟩ := List.min?_eq_some_iff.mp hmin
  constructor
  · obtain ⟨j, hj, hms⟩ := hlooked ms hmem
    obtain ⟨cfg, hcfg, rfl⟩ := Option.map_eq_some_iff.mp hms
    obtain ⟨hpend, harmed⟩ := Bool.and_eq_true_iff.mp (List.mem_filter.mp hj).2
    exact ⟨j, cfg, hpend, by simpa using harmed, hcfg, rfl⟩
  · rintro _ ⟨j, cfg, hpend, harmed, hcfg, rfl⟩
    have hj : j ∈ g.order.filter fun j => s.pending j && s.armed j != unarmed := by
      simp [g.mem_order, hpend, harmed]
    obtain ⟨due, hdue, hms⟩ := hfound j hj
    rw [hcfg] at hms
    cases hms
    exact hle _ hdue

/-- A slot that was visited needs no further visit of this round. -/
theorem sound_resolve {j : Fin n} {todo : List (Fin n)} {round : Round}
    (hocc : ∀ j, s.pending j = true → g.occupied j = true) :
    Sound g (s.resolve j todo round) := by
  refine ⟨fun i hi => ?_, nofun⟩
  by_cases hij : i = j
  · simp [resolve, hij] at hi
  · exact hocc i (by simpa [resolve, hij] using hi)

/-- A slot that waits is pending. -/
theorem sound_waits {j : Fin n} {todo : List (Fin n)} {round round' : Round}
    (hs : Sound g s) (hpc : s.pc = .visit (j :: todo) round) (hpend : s.pending j = true)
    (hreached : Reached g s j) (hprogress : round'.progress = round.progress) :
    Sound g { s with pc := .visit todo round' } := by
  have hbefore := hs.passed
  rw [hpc] at hbefore
  refine ⟨hs.occupied, fun hno => ⟨fun i hi => ?_, fun _ => ⟨j, hpend⟩⟩⟩
  by_cases hij : i = j
  · subst hij
    exact hreached
  · exact (hbefore (hprogress ▸ hno)).1 i (by simp [hij, hi])

theorem sound_unsatisfied {cfg : NodeCfg n} {kind : FaultKind n} {j : Fin n}
    {todo : List (Fin n)} {round : Round} (hs : Sound g s)
    (hpc : s.pc = .visit (j :: todo) round) (hpend : s.pending j = true)
    (hreached : Reached g s j) :
    Sound g (s.unsatisfied g w cfg kind j todo round).1 := by
  unfold unsatisfied
  split
  · simp only
    split
    · have hresolve : Sound g (s.resolve j todo round) := sound_resolve hs.occupied
      exact ⟨hresolve.occupied, nofun⟩
    · exact ⟨hs.occupied, trivial⟩
  · exact sound_waits hs hpc hpend hreached rfl

theorem sound_visit {j : Fin n} {todo : List (Fin n)} {round : Round} (hs : Sound g s)
    (hpc : s.pc = .visit (j :: todo) round) :
    Sound g (StartWave.visit g w s j todo round).1 := by
  have hbefore := hs.passed
  rw [hpc] at hbefore
  unfold StartWave.visit
  split
  · next hskip =>
      have hpend : s.pending j = false := by simpa using hskip
      refine ⟨hs.occupied, fun hno => ⟨fun i hi hipend => ?_, (hbefore hno).2⟩⟩
      have hij : i ≠ j := by
        rintro rfl
        exact Bool.false_ne_true (hpend.symm.trans hipend)
      exact (hbefore hno).1 i (by simp [hij, hi]) hipend
  · next hskip =>
      have hpend : s.pending j = true := by simpa using hskip
      obtain ⟨cfg, hcfg⟩ := g.occupied_iff.mp (hs.occupied j hpend)
      simp only [hcfg]
      split
      · next hdep =>
          obtain ⟨d, hd, hdpend⟩ := List.any_eq_true.mp hdep
          exact sound_waits hs hpc hpend (fun _ => Or.inr ⟨d, hd, hdpend⟩) rfl
      · split
        · split
          · exact sound_resolve (s := { s with armed := _ }) hs.occupied
          · -- The budget starts with this visit, and the slot is visited again.
            refine ⟨hs.occupied, ?_⟩
            simp only [hpc]
            refine fun hno => ⟨fun i hi hipend => ?_, (hbefore hno).2⟩
            have hij : i ≠ j := List.ne_of_not_mem_cons hi
            simpa [Function.update_of_ne hij] using (hbefore hno).1 i hi hipend
        · next harmed =>
            have hreached : Reached g s j := fun _ => Or.inl (by simpa using harmed)
            unfold bringUp
            cases cfg.spawn with
            | none => exact sound_resolve hs.occupied
            | some sp =>
                simp only
                split
                · unfold attempt
                  simp only
                  split
                  · exact sound_resolve hs.occupied
                  · split
                    · exact sound_unsatisfied hs hpc hpend hreached
                    · split <;> exact sound_waits hs hpc hpend hreached rfl
                · split
                  · exact sound_resolve hs.occupied
                  · exact sound_unsatisfied hs hpc hpend hreached

/-- **One step of a start wave**, in whatever state, keeps what the round has done. -/
theorem Sound.step (hs : Sound g s) (h : anywhere g s w = some t) : Sound g t := by
  have hround : Sound g { s with pc := .visit g.order {} } :=
    ⟨hs.occupied, fun _ => ⟨fun j hj => absurd (g.mem_order j) hj, nofun⟩⟩
  obtain ⟨⟨t, w'⟩, hstep, rfl⟩ := Option.map_eq_some_iff.mp h
  have hpassed := hs.passed
  unfold StartWave.step at hstep
  cases hpc : s.pc with
  | visit todo round =>
      rw [hpc] at hpassed
      cases todo with
      | cons j todo =>
          simp only [hpc] at hstep
          have hvisit := sound_visit (w := w) hs hpc
          rwa [Option.some.inj hstep] at hvisit
      | nil =>
          simp only [hpc] at hstep
          split at hstep
          · cases hstep
            exact ⟨hs.occupied, trivial⟩
          · next hwaiting =>
              split at hstep
              · cases hstep
                exact hround
              · next hprogress =>
                  have harmed := exists_armed hpassed (by simpa using hprogress)
                    (by simpa using hwaiting)
                  split at hstep
                  · cases hstep
                    exact ⟨hs.occupied, trivial⟩
                  · split at hstep
                    · next hnone => exact absurd hnone (deadlineMs_ne_none hs.occupied harmed)
                    · cases hstep
                      exact ⟨hs.occupied, harmed⟩
  | yield =>
      simp only [hpc] at hstep
      cases hstep
      exact hround
  | sleep d =>
      simp only [hpc] at hstep
      split at hstep
      · cases hstep
        exact hround
      · split at hstep
        · cases hstep
          exact hround
        · cases hstep
  | panic | done => simp [hpc] at hstep

theorem sound_launch (w₀ : World n) {pending : Fin n → Bool} (keepGoing : Bool)
    (hocc : ∀ j, pending j = true → g.occupied j = true) :
    Sound g (launch g w₀ pending keepGoing) :=
  ⟨hocc, fun _ => ⟨fun j hj => absurd (g.mem_order j) hj, nofun⟩⟩

end StartWave

/-! ## Calls -/

/-- The wave of a call is sound. -/
def Call.Sound (g : Graph n) : Call n → Prop
  | .stopping s _ => StopWave.Sound g s
  | .starting s _ => StartWave.Sound g s
  | .panic => False
  | .startNode _ _ _ | .stopNode _ _ | .bindUp _ | .done _ | .cancelled => True

theorem sound_startNodes (w : World n) (select : Fin n → NodeCfg n → TaskHandle → Bool)
    (keepGoing : Bool) : StartWave.Sound g (g.startNodes w select keepGoing) := by
  apply StartWave.sound_launch
  intro j hj
  unfold Graph.occupied
  cases hcfg : g.nodes j with
  | none => simp [hcfg] at hj
  | some cfg => rfl

theorem sound_stopNodes (w : World n) (select : Fin n → TaskHandle → Bool × TaskHandle)
    (keepGoing : Bool) : StopWave.Sound g (g.stopNodes w select keepGoing).1 := by
  apply StopWave.sound_launch
  intro j hj
  have hchosen : (g.stopNodes w select keepGoing).1.chosen j = true := hj
  exact ((chosen_stopNodes j).mp hchosen).1

theorem sound_proceed (next : AfterStart n) (j : Fin n) (e : StartEnd n) :
    (next.proceed j e).Sound g := by
  cases e with
  | wait => trivial
  | done => cases next <;> trivial

theorem sound_begin (w : World n) (v : Verb n) : (g.begin w v).1.Sound g := by
  have hbegun := begin_cases g w v
  generalize g.begin w v = entry at hbegun
  obtain ⟨c, w'⟩ := entry
  cases hbegun with
  | idle | stopNow | stopWait | resumes => trivial
  | startWave _ hsel =>
      change StartWave.Sound g _
      rw [hsel.launch]
      exact StartWave.sound_launch _ _ fun j hj => (hsel.pending j hj).1
  | stopWave _ hsel | bindWave hsel =>
      change StopWave.Sound g _
      rw [hsel.launch]
      exact StopWave.sound_launch _ _ fun j hj => (hsel.chosen j hj).1
  | startNode | grow => exact sound_proceed _ _ _

theorem Call.Sound.step {w w' : World n} {c c' : Call n} (hc : c.Sound g)
    (h : c.step g w = some (c', w')) : c'.Sound g := by
  cases c with
  | stopping wave next =>
      simp only [Call.step] at h
      split at h
      · cases h
        trivial
      · cases next <;> cases h
        · trivial
        · exact sound_startNodes _ _ _
        · trivial
      · next hpc =>
          have hno := StopWave.Sound.passed hc
          rw [hpc] at hno
          exact hno.elim
      all_goals
        obtain ⟨⟨s', u⟩, hstep, heq⟩ := Option.map_eq_some_iff.mp h
        cases heq
        exact StopWave.Sound.step hc (Option.map_eq_some_iff.mpr ⟨_, hstep, rfl⟩)
  | starting wave poke =>
      simp only [Call.step] at h
      split at h
      · cases h
        trivial
      · next hpc =>
          have hno := StartWave.Sound.passed hc
          rw [hpc] at hno
          exact hno.elim
      all_goals
        obtain ⟨⟨s', u⟩, hstep, heq⟩ := Option.map_eq_some_iff.mp h
        cases heq
        exact StartWave.Sound.step hc (Option.map_eq_some_iff.mpr ⟨_, hstep, rfl⟩)
  | startNode j phase next =>
      obtain ⟨cfg, -, h⟩ := Option.bind_eq_some_iff.mp h
      obtain ⟨sp, -, h⟩ := Option.bind_eq_some_iff.mp h
      obtain ⟨⟨e, u⟩, -, heq⟩ := Option.bind_eq_some_iff.mp h
      cases heq
      exact sound_proceed next j e
  | stopNode j deadline =>
      obtain ⟨cfg, -, h⟩ := Option.bind_eq_some_iff.mp h
      obtain ⟨⟨r, u⟩, -, heq⟩ := Option.bind_eq_some_iff.mp h
      cases heq
      trivial
  | bindUp todo =>
      cases todo with
      | nil =>
          cases h
          trivial
      | cons j todo =>
          have hvisit : (g.bindVisit w j todo).1 = c' := congrArg Prod.fst (Option.some.inj h)
          rw [← hvisit]
          unfold Graph.bindVisit
          split
          · trivial
          · split
            · split
              · exact sound_proceed _ _ _
              · split <;> trivial
              · trivial
            · trivial
  | done | panic | cancelled => simp [Call.step] at h

/-- **No verb panics**, in any run of the calls among the tasks. -/
theorem Sys.no_panic {s t : Sys n} {labels : List (Label n)} (hs : ∀ c ∈ s.calls, c.Sound g)
    (hrun : exec (Sys.next g) s labels = some t) : ∀ c ∈ t.calls, c.Sound g := by
  refine exec_invariant (I := fun s : Sys n => ∀ c ∈ s.calls, c.Sound g) ?_ hs hrun
  intro s l t hs h
  cases Sys.next_cases h with
  | @begin v c w _ hbegin =>
      intro d hd
      rcases List.mem_append.mp hd with hold | hnew
      · exact hs d hold
      · obtain rfl := List.mem_singleton.mp hnew
        have hsound := sound_begin (g := g) s.world v
        rwa [hbegin] at hsound
  | advance _ hcall hstep =>
      intro d hd
      rcases List.mem_or_eq_of_mem_set hd with hold | rfl
      · exact hs d hold
      · exact (hs _ (List.mem_of_getElem? hcall)).step hstep
  | task | setDisabled => exact hs
  | cancel =>
      intro d hd
      rcases List.mem_or_eq_of_mem_set hd with hold | rfl
      · exact hs d hold
      · trivial

end EmbassySupervisor
