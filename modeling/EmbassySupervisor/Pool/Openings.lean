/-
# What opens a pool

A pool is open while its policy would grow it and a spare of it has what it depends on. What
opens one is a handful of events: a member goes down, a hold of one changes, something it
depends on comes up, one gets busy, or a dependency gets ready. The last two post the scale
request. The first three do not, but an `activate` or a `restart` posts one when it is done,
and an `apply_bind` when it turns to a member that it finds served again.

`World.Tame` says what a step that posts nothing leaves alone, and `tame_or_posted` that every
step is tame or posts. An untouched pool is not opened by a tame step (`open_of_untouched`).
-/

import Mathlib.Data.List.Find
import EmbassySupervisor.Pool.Policy
import EmbassySupervisor.Pool.Requests
import EmbassySupervisor.Verb.Serving

namespace EmbassySupervisor

variable {n : ℕ}

/-! ## Events of a pool -/

/-- An `apply_bind` that turns to the node finds it served again, and only unmarks it. -/
def Graph.due (g : Graph n) (w : World n) (j : Fin n) : Bool :=
  (g.nodes j).any fun cfg => cfg.mode == .onDemand && w.bindable cfg j

namespace ElasticPool

variable (p : ElasticPool n) (g : Graph n) (w w' : World n)

/-- The step takes a member down, changes a hold of one, or brings up what one depends on. -/
def touched : Bool :=
  p.nodes.any fun j =>
    (w.flag j .running && !w'.flag j .running) || (w.flag j .disabled != w'.flag j .disabled) ||
      (w.flag j .collateral != w'.flag j .collateral) ||
        (g.deps j).any fun d => !w.flag d .running && w'.flag d .running

/-- A member that ran idle stays up, or the pool was full and no member goes down. -/
def sated : Bool :=
  (p.nodes.any fun j => w.flag j .running && !w.flag j .busy && w'.flag j .running) ||
    decide (p.max ≤ (p.stats w).running) &&
      p.nodes.all fun j => !w.flag j .running || w'.flag j .running

/-- What a member depends on was up and ready, or comes up in the step. -/
def suppliedTo (j : Fin n) : Bool :=
  g.occupied j && ((g.deps j).all fun d =>
    g.occupied d && (w.flag d .running || w'.flag d .running)) &&
      (g.nodes j).any fun cfg => cfg.readyDeps.all fun d => w.flag d .ready

/-- A member that is down and free of holds after the step is supplied. -/
def supplied : Bool :=
  p.nodes.any fun j =>
    (g.nodes j).any (fun cfg => cfg.mode == .onDemand) && !w'.flag j .running &&
      !w'.flag j .disabled && !w'.flag j .collateral && suppliedTo g w w' j

/-- A member an `apply_bind` would unmark is held or detached, or loses a bound provider. -/
def strands : Bool :=
  p.nodes.any fun j =>
    g.due w j && (w'.flag j .disabled || w'.flag j .collateral || w'.flag j .detached ||
      (g.boundDepsOf j).any fun d => !w'.isServing d)

end ElasticPool

/-! ## Steps that post nothing -/

/-- Nobody gets busy or ready, who comes up is idle, and no one's mark as down for a provider
is cleared but by bringing it up. -/
structure World.Tame (w w' : World n) : Prop where
  busy : ∀ j, w'.flag j .busy = true → w.flag j .busy = true
  ready : ∀ j, w'.flag j .ready = true → w.flag j .ready = true
  idle : ∀ j, w'.flag j .running = true → w.flag j .running = true ∨ w'.flag j .busy = false
  marked : ∀ j, w.flag j .boundStopped = true →
    w'.flag j .boundStopped = true ∨ w'.flag j .running = true

/-- The flags a tame step is about. -/
def Flag.minded : Flag → Bool
  | .running | .busy | .ready | .boundStopped => true
  | .shutdown | .dropped | .completed | .disabled | .detached | .collateral | .resident
  | .idle => false

namespace World.Tame

variable {w w' w₁ : World n}

theorem of_flags (h : ∀ j k, k.minded = true → w'.flag j k = w.flag j k) : w.Tame w' where
  busy j hj := by rwa [h j .busy rfl] at hj
  ready j hj := by rwa [h j .ready rfl] at hj
  idle j hj := by
    rw [h j .running rfl] at hj
    exact Or.inl hj
  marked j hj := by
    rw [h j .boundStopped rfl]
    exact Or.inl hj

theorem of_still (h : w.Still w') : w.Tame w' := of_flags fun j k _ => h.flag j k

theorem of_relatched (h : w.Relatched w') : w.Tame w' :=
  of_flags fun j k hk => h.flag j k (by cases k <;> simp_all [Flag.minded, Flag.hold])

/-- What is tame from a state that differs in nothing minded. -/
theorem of_same (hsame : ∀ j k, k.minded = true → w₁.flag j k = w.flag j k) (h : w₁.Tame w') :
    w.Tame w' where
  busy j hj := by
    rw [← hsame j .busy rfl]
    exact h.busy j hj
  ready j hj := by
    rw [← hsame j .ready rfl]
    exact h.ready j hj
  idle j hj := by
    rw [← hsame j .running rfl]
    exact h.idle j hj
  marked j hj := by
    rw [← hsame j .boundStopped rfl] at hj
    exact h.marked j hj

/-- Clearing stale flags is tame. -/
theorem of_stale (h : ∀ i k, w'.flag i k = w.flag i k ∨ k.stale = true ∧ w'.flag i k = false) :
    w.Tame w' := by
  have hkept : ∀ i k, k.stale = false → w'.flag i k = w.flag i k := by
    intro i k hk
    rcases h i k with hsame | ⟨hstale, _⟩
    · exact hsame
    · simp [hk] at hstale
  have hlower : ∀ i k, w'.flag i k = true → w.flag i k = true := by
    intro i k hk
    rcases h i k with hsame | ⟨_, hclear⟩
    · rwa [hsame] at hk
    · simp [hclear] at hk
  refine ⟨fun j => hlower j _, fun j => hlower j _, fun j hj => ?_, fun j hj => ?_⟩
  · rw [hkept j .running rfl] at hj
    exact Or.inl hj
  · rw [hkept j .boundStopped rfl]
    exact Or.inl hj

/-- Taking nodes down is tame. -/
theorem of_lower (hsame : ∀ j k, k = .busy ∨ k = .ready → w'.flag j k = w.flag j k)
    (hrunning : ∀ j, w'.flag j .running = true → w.flag j .running = true)
    (hmarked : ∀ j, w.flag j .boundStopped = true → w'.flag j .boundStopped = true) :
    w.Tame w' where
  busy j hj := by rwa [hsame j .busy (by simp)] at hj
  ready j hj := by rwa [hsame j .ready (by simp)] at hj
  idle j hj := Or.inl (hrunning j hj)
  marked j hj := Or.inl (hmarked j hj)

/-- Bringing nodes up after a reset is tame. -/
theorem of_ups (h : ∀ i, (∀ k, k.minded = true → w'.flag i k = w.flag i k) ∨
      (w'.flag i .running = true ∧ w'.flag i .busy = false ∧ w'.flag i .ready = false)) :
    w.Tame w' := by
  refine ⟨fun i hi => ?_, fun i hi => ?_, fun i hi => ?_, fun i hi => ?_⟩
  all_goals rcases h i with hsame | ⟨hup, hbusy, hready⟩
  · rwa [hsame .busy rfl] at hi
  · simp [hbusy] at hi
  · rwa [hsame .ready rfl] at hi
  · simp [hready] at hi
  · rw [hsame .running rfl] at hi
    exact Or.inl hi
  · exact Or.inr hbusy
  · rw [hsame .boundStopped rfl]
    exact Or.inl hi
  · exact Or.inr hup

theorem of_up {j : Fin n} (hup : w'.flag j .running = true) (hbusy : w'.flag j .busy = false)
    (hready : w'.flag j .ready = false)
    (hother : ∀ i k, i ≠ j → k.minded = true → w'.flag i k = w.flag i k) : w.Tame w' := by
  apply of_ups
  intro i
  by_cases hij : i = j
  · subst hij
    exact Or.inr ⟨hup, hbusy, hready⟩
  · exact Or.inl fun k hk => hother i k hij hk

end World.Tame

section Steps

variable {g : Graph n} {w w' : World n}

theorem ne_of_minded {k : Flag} (h : k.minded = true) : k ≠ .resident ∧ k ≠ .idle := by
  constructor <;> rintro rfl <;> cases h

theorem StopWave.Step.tame {s s' : StopWave n} (h : s.Step g w s' w') : w.Tame w' := by
  apply World.Tame.of_lower
  · rintro j k (rfl | rfl) <;> exact h.flag_eq j (by decide) (by decide)
  · exact fun j => h.running_of_running
  · intro j hj
    rwa [h.flag_eq j (by decide) (by decide)]

/-- A resumed node is up, idle and unready. -/
theorem tame_resume (w : World n) (j : Fin n) :
    w.Tame ((w.resume j).putFlag j .boundStopped false) := by
  apply World.Tame.of_up (j := j)
  · simp
  · simp [Flag.stale]
  · simp [Flag.stale]
  · intro i k hij _
    simp [hij]

theorem tame_boundPark {w₁ : World n} {j : Fin n} (hw : w.Still w₁) : w.Tame (w₁.boundPark j) := by
  apply World.Tame.of_lower
  · rintro i k (rfl | rfl) <;> simp [hw.flag]
  · intro i hi
    simpa [hw.flag] using hi
  · intro i hi
    simp [hw.flag, hi]

theorem tame_spawn {w₁ : World n} {sp : Spawn} {j : Fin n} (hw : w.Still w₁) :
    w.Tame (((w₁.reset j).launch sp j).started j) := by
  apply World.Tame.of_up (j := j)
  · simp
  · simp [World.flag_launch, Flag.stale]
  · simp [World.flag_launch, Flag.stale]
  · intro i k hij hk
    obtain ⟨hres, hidle⟩ := ne_of_minded hk
    rw [World.flag_started, if_neg (fun h => hij h.1), if_neg (fun h => hij h.1),
      World.flag_launch sp j i hres hidle, World.flag_reset, if_neg (fun h => hij h.1), hw.flag]

theorem StartWave.Step.tame {s s' : StartWave n} (h : s.Step g w s' w') : w.Tame w' := by
  cases h with
  | arm => exact .of_flags fun _ _ _ => rfl
  | @resume j => exact tame_resume w j
  | @mark j =>
      apply World.Tame.of_up (j := j)
      · simp
      · simp [Flag.stale]
      · simp [Flag.stale]
      · intro i k hij _
        simp [hij]
  | park => exact tame_boundPark (.refl w)
  | @fault j _ _ _ _ w₁ _ hw | @abort j _ _ _ _ w₁ _ hw =>
      have hw₁ : w.Still w₁ ∨ (w.reset j).Still w₁ := by
        rcases hw with rfl | rfl
        · exact Or.inl (.refl _)
        · exact Or.inr (.refl _)
      exact .of_stale fun i k => stale_of_still hw₁ i k
  | spawn => exact tame_spawn (.refl w)
  | @busy j _ _ _ _ _ _ _ hw =>
      apply World.Tame.of_stale
      apply stale_of_still (j := j)
      rcases hw with rfl | ⟨slot, rfl⟩
      · exact Or.inr (.refl _)
      · exact Or.inr (World.still_requestPass _ slot)
  | finish => exact .of_flags fun _ _ _ => rfl
  | turn _ hw => rcases hw with rfl | rfl <;> exact .of_flags fun _ _ _ => rfl

theorem StartEffect.tame {cfg : NodeCfg n} {j : Fin n} {e : StartEnd n}
    (h : StartEffect cfg w j e w') : w.Tame w' := by
  cases h with
  | started _ hw _ => exact tame_spawn hw
  | parked hw _ => exact tame_boundPark hw
  | faulted hw _ => exact .of_stale fun i k => stale_of_still hw i k
  | waits hw => exact .of_stale fun i k => stale_of_still hw i k

theorem StartEntry.tame {j : Fin n} {e : StartEnd n} (h : StartEntry g w j e w') :
    w.Tame w' := by
  cases h with
  | absent => exact .of_flags fun _ _ _ => rfl
  | gated _ h _ =>
      refine .of_same (fun i k hk => ?_) h.tame
      have hne : k ≠ .collateral := by
        rintro rfl
        cases hk
      simp [hne]
  | marked =>
      apply World.Tame.of_up (j := j)
      · simp
      · simp [Flag.stale]
      · simp [Flag.stale]
      · intro i k hij _
        simp [hij]

/-- A step of a call is tame, or it unmarks a node and posts the request. -/
theorem Call.Step.tame {c c' : Call n} (hpools : g.has .pools = true)
    (h : Call.Step g w c c' w') : w'.scaleReq = true ∨ w.Tame w' := by
  cases h with
  | stopWave h => exact Or.inr h.tame
  | startWave h => exact Or.inr h.tame
  | startDone _ hw => exact Or.inr (.of_still hw)
  | startNode _ h => exact Or.inr h.tame
  | @ackNode j =>
      have hkept : ∀ i k, (w.onNode j fun h => { h with droppedWake := false }).flag i k =
          w.flag i k := by
        intro i k
        rw [World.flag_onNode]
        split
        case isTrue heq => rw [heq]; rfl
        case isFalse => rfl
      apply Or.inr (World.Tame.of_lower _ _ _)
      · rintro i k (rfl | rfl) <;> simp [hkept]
      · intro i hi
        simp only [World.flag_takeAck, hkept] at hi
        split at hi
        · cases hi
        · exact hi
      · intro i hi
        simpa [hkept] using hi
  | missNode => exact Or.inr (.of_flags fun _ _ _ => by simp)
  | bindStart _ _ _ h => exact Or.inr h.tame
  | @bindResume j => exact Or.inr (tame_resume w j)
  | bindUnmark _ _ _ _ hpost => exact Or.inl (hpost hpools)
  | stopFault | stopDone | restartUp | bindPhase | stopPanic | startPanic | bindEnd
  | bindSkip => exact Or.inr (.of_flags fun _ _ _ => rfl)

/-- What is resumed is up, idle and unready. -/
theorem tame_resumeAll (w : World n) (js : List (Fin n)) : w.Tame (g.resumeAll w js) := by
  apply World.Tame.of_ups
  intro i
  induction js generalizing w with
  | nil => exact Or.inl fun _ _ => rfl
  | cons j js ih =>
      let u := if (g.nodes j).any (w.resumable · j) then w.resume j else w
      have hall : g.resumeAll w (j :: js) = g.resumeAll u js := rfl
      have hfirst : (∀ k, k.minded = true → u.flag i k = w.flag i k) ∨
          (u.flag i .running = true ∧ u.flag i .busy = false ∧ u.flag i .ready = false) := by
        by_cases hany : (g.nodes j).any (w.resumable · j) = true
        · simp only [u, if_pos hany]
          by_cases hij : i = j
          · exact Or.inr (by simp [hij, Flag.stale])
          · exact Or.inl fun k _ => by simp [hij]
        · simp only [u, if_neg hany]
          exact Or.inl fun _ _ => trivial
      rw [hall]
      rcases ih u with hsame | hup
      · rcases hfirst with hfirst | ⟨hup, hbusy, hready⟩
        · exact Or.inl fun k hk => (hsame k hk).trans (hfirst k hk)
        · exact Or.inr ⟨(hsame _ rfl).trans hup, (hsame _ rfl).trans hbusy,
            (hsame _ rfl).trans hready⟩
      · exact Or.inr hup

theorem Begun.tame {v : Verb n} {c : Call n} (h : Begun g w v c w') : w.Tame w' := by
  cases h with
  | idle h | startWave h | stopWave h => exact .of_relatched h
  | bindWave _ hmark =>
      apply World.Tame.of_lower
      · rintro j k (rfl | rfl) <;> exact hmark.flag j _ (by decide)
      · intro j hj
        rwa [hmark.flag j _ (by decide)] at hj
      · intro j hj
        rw [hmark.bound, hj, Bool.or_true]
  | startNode h | grow _ _ _ h => exact h.tame
  | stopNow =>
      apply World.Tame.of_lower
      · rintro i k (rfl | rfl) <;> simp
      · intro i hi
        simp only [World.flag_takeAck, World.flag_note, World.flag_signalShutdown, reduceCtorEq,
          and_false, if_false, and_true] at hi
        split at hi
        · cases hi
        · exact hi
      · intro i hi
        simpa using hi
  | stopWait =>
      refine .of_flags fun i k hk => ?_
      have hne : k ≠ .shutdown := by
        rintro rfl
        cases hk
      simp [hne]
  | resumes => exact tame_resumeAll w _

/-- Writing the busy flag changes nothing, or posts a request. -/
theorem tame_putBusy (w : World n) (j : Fin n) (busy : Bool) :
    (w.putBusy j busy).scaleReq = true ∨ w.Tame (w.putBusy j busy) := by
  unfold World.putBusy
  by_cases hchanged : (w.flag j .busy != busy) = true
  · rw [if_pos hchanged]
    exact Or.inl rfl
  · rw [if_neg hchanged]
    have hsame : w.flag j .busy = busy := by simpa using hchanged
    refine Or.inr (.of_flags fun i k _ => ?_)
    rw [World.flag_putFlag]
    split
    · next h => rw [h.1, h.2, hsame]
    · rfl

/-- **A task event posts the request, or gets nobody busy or ready.** -/
theorem TaskEvent.tame {e : TaskEvent n} (h : e.apply g w = some w') :
    w'.scaleReq = true ∨ w.Tame w' := by
  have kept := fun j k (hk : e.writes j k = false) => TaskEvent.flag_eq_of_not_writes h hk
  have aside : (∀ j k, k.minded = true → e.writes j k = false) → w.Tame w' :=
    fun hwrites => .of_flags fun j k hk => kept j k (hwrites j k hk)
  have dropped : ∀ {j : Fin n}, Drops w j w' → w.Tame w' := by
    intro j hdrops
    apply World.Tame.of_lower
    · rintro i k (rfl | rfl) <;> simp [hdrops.flag]
    · intro i hi
      by_cases hij : i = j
      · simp [hdrops.flag, hij] at hi
      · simpa [hdrops.flag, hij] using hi
    · intro i hi
      simpa [hdrops.flag] using hi
  cases e with
  | ackDropped j =>
      obtain ⟨cfg, -, h⟩ := Option.bind_eq_some_iff.mp h
      split at h
      · cases h
      · cases h
        exact Or.inr (dropped (drops_ackDropped w cfg j))
  | markExited j =>
      obtain ⟨cfg, -, h⟩ := Option.bind_eq_some_iff.mp h
      split at h
      · cases h
      · cases h
        exact Or.inr (dropped (drops_markExited w cfg j))
  | setReady j =>
      cases h
      exact Or.inl rfl
  | clearReady j =>
      cases h
      refine Or.inr (.of_stale fun i k => ?_)
      have hclear : (w.clearReady j).flag i k = (w.putFlag j .ready false).flag i k := rfl
      rw [hclear, World.flag_putFlag]
      split
      · next hready => exact Or.inr ⟨by rw [hready.2]; rfl, rfl⟩
      · exact Or.inl rfl
  | markBusy j | markIdle j =>
      cases h
      exact tame_putBusy w j _
  | elapse | appSpawn | pollShutdown | takeResume | provide | take | clear | fillSlot
  | fencePass | setRefused => exact Or.inr (aside fun _ _ _ => rfl)
  | park | setDetached =>
      refine Or.inr (aside fun i k hk => ?_)
      cases k <;> simp [TaskEvent.writes, Flag.minded] at hk ⊢

end Steps

/-- **Every step of the system is tame, or posts the request.** -/
theorem tame_or_posted {g : Graph n} (hpools : g.has .pools = true) {s t : Sys n} {l : Label n}
    (h : s.next g l = some t) : t.world.scaleReq = true ∨ s.world.Tame t.world := by
  cases Sys.next_cases h with
  | @begin v c w _ hbegin =>
      have hbegun := begin_cases g s.world v
      rw [hbegin] at hbegun
      exact Or.inr hbegun.tame
  | advance _ _ hstep => exact (Call.step_cases hstep).tame hpools
  | task _ happly => exact TaskEvent.tame happly
  | @setDisabled j =>
      refine Or.inr (.of_flags fun i k hk => ?_)
      rw [World.flag_onNode]
      split
      case isTrue heq =>
        have hne : k ≠ .disabled := by
          rintro rfl
          cases hk
        rw [heq]
        simp [hne, World.flag]
      case isFalse => rfl
  | cancel => exact Or.inr (.of_flags fun _ _ _ => rfl)

/-! ## Pools across a tame step -/

namespace ElasticPool

variable {p : ElasticPool n} {g : Graph n} {w w' : World n}

/-- What a spare has: its member's kind, and no hold. -/
theorem of_spare {j : Fin n} (h : p.spare g w = some j) :
    j ∈ p.nodes ∧ (g.nodes j).any (fun cfg => cfg.mode == .onDemand) = true ∧
      w.flag j .running = false ∧ w.flag j .disabled = false ∧ w.flag j .collateral = false := by
  have hpick := List.find?_some h
  simp only [Bool.and_eq_true, Bool.not_eq_true'] at hpick
  exact ⟨List.mem_of_find?_eq_some h, hpick.1, hpick.2.1.1, hpick.2.1.2, hpick.2.2⟩

/-- A member that comes up in a tame step shuts its pool. -/
theorem shut_of_up (hw : w.Tame w') {j : Fin n} (hj : j ∈ p.nodes)
    (hdown : w.flag j .running = false) (hup : w'.flag j .running = true) :
    p.wouldStart g w' = false := by
  rcases hw.idle j hup with hwas | hbusy
  · rw [hdown] at hwas
    cases hwas
  · exact wouldStart_of_idle hj hup hbusy

theorem shut_of_sated (hw : w.Tame w') (h : p.sated w w' = true) : p.wouldStart g w' = false := by
  rcases Bool.or_eq_true_iff.mp h with hidle | hfull
  · obtain ⟨j, hj, hflags⟩ := List.any_eq_true.mp hidle
    simp only [Bool.and_eq_true, Bool.not_eq_true'] at hflags
    have hbusy : w'.flag j .busy = false := by
      by_contra hbusy
      have hwas := hw.busy j ((Bool.not_eq_false _).mp hbusy)
      rw [hflags.1.2] at hwas
      cases hwas
    exact wouldStart_of_idle hj hflags.2 hbusy
  · obtain ⟨hmax, hstay⟩ := Bool.and_eq_true_iff.mp hfull
    have hle : (p.stats w).running ≤ (p.stats w').running := by
      apply List.countP_mono_left
      intro j hj hup
      have hstays := List.all_eq_true.mp hstay j hj
      simpa [hup] using hstays
    have hroom : ¬ (p.stats w').running < p.max := by
      have := of_decide_eq_true hmax
      omega
    simp [wouldStart, hroom]

/-- A pool that would start a member has supplied it. -/
theorem supplied_of_open (hw : w.Tame w') (h : p.wouldStart g w' = true) :
    p.supplied g w w' = true := by
  simp only [wouldStart, Bool.and_eq_true, Option.any_eq_true] at h
  obtain ⟨-, j, hspare, hadmits⟩ := h
  obtain ⟨hj, hmode, hdown, hdisabled, hcollateral⟩ := of_spare hspare
  simp only [Graph.admits, Graph.depsRunning, World.depsReady, Bool.and_eq_true,
    Option.any_eq_true, List.all_eq_true] at hadmits
  obtain ⟨⟨hocc, hdeps⟩, cfg, hcfg, hready⟩ := hadmits
  rw [hcfg] at hmode
  refine List.any_eq_true.mpr ⟨j, hj, ?_⟩
  simp only [suppliedTo, hdown, hdisabled, hcollateral, hocc, hcfg, Option.any_some,
    Bool.not_false, Bool.and_true, Bool.true_and, Bool.and_eq_true, List.all_eq_true,
    Bool.or_eq_true]
  exact ⟨hmode, fun d hd => ⟨(hdeps d hd).1, Or.inr (hdeps d hd).2⟩,
    fun d hd => hw.ready d (hready d hd)⟩

/-- **A tame step opens no pool that it does not touch.** -/
theorem open_of_untouched (hw : w.Tame w') (h : p.touched g w w' = false)
    (hopen : p.wouldStart g w' = true) : p.wouldStart g w = true := by
  have hkept : ∀ j ∈ p.nodes, w'.flag j .running = w.flag j .running ∧
      w'.flag j .disabled = w.flag j .disabled ∧ w'.flag j .collateral = w.flag j .collateral ∧
        ∀ d ∈ g.deps j, w'.flag d .running = true → w.flag d .running = true := by
    intro j hj
    have huntouched := List.any_eq_false.mp h j hj
    simp only [Bool.or_eq_true, not_or, Bool.not_eq_true, Bool.and_eq_false_iff,
      bne_eq_false_iff_eq, List.any_eq_false, Bool.not_eq_false'] at huntouched
    obtain ⟨⟨⟨hstays, hdisabled⟩, hcollateral⟩, hdeps⟩ := huntouched
    refine ⟨?_, hdisabled.symm, hcollateral.symm, fun d hd hup => ?_⟩
    · cases hrunning : w.flag j .running with
      | true => simpa [hrunning] using hstays
      | false =>
          by_contra hup
          rw [shut_of_up hw hj hrunning ((Bool.not_eq_false _).mp hup)] at hopen
          cases hopen
    · have hdown := hdeps d hd
      simpa [hup] using hdown
  have hidle : (p.stats w).idle ≤ (p.stats w').idle := by
    rw [idle_stats, idle_stats]
    apply List.countP_mono_left
    intro j hj h
    simp only [Bool.and_eq_true, Bool.not_eq_true'] at h ⊢
    refine ⟨(hkept j hj).1.trans h.1, ?_⟩
    by_contra hbusy
    have hwas := hw.busy j ((Bool.not_eq_false _).mp hbusy)
    rw [h.2] at hwas
    cases hwas
  have hrunning : (p.stats w).running = (p.stats w').running :=
    List.countP_congr fun j hj => by rw [(hkept j hj).1]
  have hspares : p.spare g w' = p.spare g w := by
    apply List.find?_congr
    intro j hj
    obtain ⟨hup, hdisabled, hcollateral, -⟩ := hkept j hj
    simp only [hup, hdisabled, hcollateral]
  simp only [wouldStart, hspares, Bool.and_eq_true, Option.any_eq_true, beq_iff_eq,
    decide_eq_true_eq] at hopen ⊢
  obtain ⟨⟨hnone, hroom⟩, j, hspare, hadmits⟩ := hopen
  refine ⟨⟨by omega, by omega⟩, j, hspare, ?_⟩
  simp only [Graph.admits, Graph.depsRunning, World.depsReady, Bool.and_eq_true,
    Option.any_eq_true, List.all_eq_true] at hadmits ⊢
  obtain ⟨⟨hocc, hdeps⟩, cfg, hcfg, hready⟩ := hadmits
  obtain ⟨-, -, -, hrises⟩ := hkept j (of_spare hspare).1
  exact ⟨⟨hocc, fun d hd => ⟨(hdeps d hd).1, hrises d hd (hdeps d hd).2⟩⟩, cfg, hcfg,
    fun d hd => hw.ready d (hready d hd)⟩

/-- A member to be unmarked comes up in a tame step, or stays so, if it is not stranded. -/
theorem due_of_tame (hw : w.Tame w') (hstrands : p.strands g w w' = false) {j : Fin n}
    (hj : j ∈ p.nodes) (hdue : g.due w j = true) :
    w'.flag j .running = true ∨ g.due w' j = true := by
  have hkept := List.any_eq_false.mp hstrands j hj
  obtain ⟨cfg, hcfg, hmode⟩ := (Option.any_eq_true _ _).mp hdue
  obtain ⟨hmode, hbind⟩ := Bool.and_eq_true_iff.mp hmode
  obtain ⟨hmarked, -⟩ := World.bindable_iff.mp hbind
  simp only [hdue, Bool.true_and, Bool.or_eq_true, not_or, Bool.not_eq_true, List.any_eq_false,
    Bool.not_eq_false', Graph.boundDepsOf, hcfg] at hkept
  obtain ⟨⟨⟨hdisabled, hcollateral⟩, hdetached⟩, hserving⟩ := hkept
  cases hup : w'.flag j .running with
  | true => exact Or.inl rfl
  | false =>
      have hmarked' : w'.flag j .boundStopped = true := by
        rcases hw.marked j hmarked with hmarked | hrunning
        · exact hmarked
        · rw [hup] at hrunning
          cases hrunning
      right
      rw [Graph.due, hcfg, Option.any_some, hmode, Bool.true_and, World.bindable_iff]
      exact ⟨hmarked', hdisabled, hcollateral, hdetached, hup, hserving⟩

end ElasticPool

/-! ## Calls that are going to post -/

namespace Call

/-- The slots an `apply_bind` is still to turn to. -/
def visits : Call n → List (Fin n)
  | .bindUp todo | .startNode _ _ (.bind todo) => todo
  | .stopping _ _ | .starting _ _ | .startNode _ _ .ret | .startNode _ _ .ignore
  | .stopNode _ _ | .done _ | .panic | .cancelled => []

/-- An `activate`, or a `restart` from its stop wave on. -/
def cycling : Call n → Bool
  | .stopping _ (.restart _) => true
  | c => c.raising

/-- A `restart` whose stop wave has ended in a fault. -/
def failing : Call n → Bool
  | .stopping s (.restart _) =>
    match s.pc with
    | .done (some _) => true
    | .done none | .signal _ | .collect _ _ | .expire _ _ _ _ | .sleep _ | .panic => false
  | _ => false

/-- The call is to turn to a member of the pool that it would unmark. -/
def unmarks (g : Graph n) (p : ElasticPool n) (w : World n) (c : Call n) : Bool :=
  c.visits.any fun j => p.nodes.contains j && g.due w j

/-- The call is going to post a request that the pool needs. -/
def owes (g : Graph n) (p : ElasticPool n) (w : World n) (c : Call n) : Bool :=
  c.cycling || c.unmarks g p w

variable {g : Graph n} {p : ElasticPool n} {w w' : World n} {c c' : Call n}

theorem visits_proceed (todo : List (Fin n)) (j : Fin n) (e : StartEnd n) :
    ((AfterStart.bind todo).proceed j e).visits = todo := by
  cases e <;> rfl

/-- A visit leaves the others to be made. -/
theorem visits_bindVisit (w : World n) (j : Fin n) (todo : List (Fin n)) :
    (g.bindVisit w j todo).1.visits = todo := by
  unfold Graph.bindVisit
  cases g.nodes j with
  | none => rfl
  | some cfg =>
      simp only
      split
      · cases cfg.mode with
        | terminate => exact visits_proceed todo j _
        | pause =>
            simp only
            split <;> rfl
        | onDemand => rfl
      · rfl

/-- **Unmarking a member posts the request.** -/
theorem scaleReq_of_due (hpools : g.has .pools = true) {j : Fin n} (hdue : g.due w j = true)
    (todo : List (Fin n)) : (g.bindVisit w j todo).2.scaleReq = true := by
  obtain ⟨cfg, hcfg, hmode⟩ := (Option.any_eq_true _ _).mp hdue
  obtain ⟨hmode, hbind⟩ := Bool.and_eq_true_iff.mp hmode
  have hmode : cfg.mode = .onDemand := by simpa using hmode
  simp [Graph.bindVisit, hcfg, hbind, hmode, hpools]

/-- **A call that brings nodes up again goes on, or posts the request.** -/
theorem cycling_step (hpools : g.has .pools = true) (h : c.step g w = some (c', w'))
    (hfails : c.failing = false) (hcycling : c.cycling = true) :
    c'.cycling = true ∨ w'.scaleReq = true := by
  cases c with
  | stopping s next =>
      cases next with
      | restart set =>
          cases step_cases h with
          | stopFault hpc => simp [failing, hpc] at hfails
          | stopWave | restartUp | stopPanic => exact Or.inl rfl
      | ret | bind => cases hcycling
  | starting | startNode | stopNode | bindUp | done | panic | cancelled =>
      refine (raising_or_scaleReq hpools h hcycling).imp (fun hraising => ?_) id
      unfold cycling
      split
      · rfl
      · exact hraising

/-- Who is to unmark a member still is, while the members stay as they are. -/
theorem unmarks_of_due (hkept : ∀ j ∈ p.nodes, g.due w j = true → g.due w' j = true)
    (h : c.unmarks g p w = true) : c.unmarks g p w' = true := by
  obtain ⟨j, hj, hdue⟩ := List.any_eq_true.mp h
  obtain ⟨hmem, hdue⟩ := Bool.and_eq_true_iff.mp hdue
  have hstill := hkept j (by simpa using hmem) hdue
  exact List.any_eq_true.mpr ⟨j, hj, by rw [hmem, hstill, Bool.true_and]⟩

/-- **A call that is to unmark a member still is after its next step, or has posted the
request.** -/
theorem unmarks_step (hpools : g.has .pools = true) (h : c.step g w = some (c', w'))
    (hkept : ∀ j ∈ p.nodes, g.due w j = true → g.due w' j = true)
    (hunmarks : c.unmarks g p w = true) : c'.unmarks g p w' = true ∨ w'.scaleReq = true := by
  obtain ⟨j, hj, hdue⟩ := List.any_eq_true.mp hunmarks
  obtain ⟨hmem, hdue⟩ := Bool.and_eq_true_iff.mp hdue
  have hlater : ∀ {todo : List (Fin n)}, c'.visits = todo → j ∈ todo →
      c'.unmarks g p w' = true := by
    rintro todo rfl hj
    have hstill := hkept j (by simpa using hmem) hdue
    exact List.any_eq_true.mpr ⟨j, hj, by rw [hmem, hstill, Bool.true_and]⟩
  cases c with
  | bindUp todo =>
      cases todo with
      | nil => cases hj
      | cons i todo =>
          have hnext : g.bindVisit w i todo = (c', w') := Option.some.inj h
          rcases List.mem_cons.mp hj with rfl | hj
          · have hposted := scaleReq_of_due hpools hdue todo
            rw [hnext] at hposted
            exact Or.inr hposted
          · have hvisits := visits_bindVisit (g := g) w i todo
            rw [hnext] at hvisits
            exact Or.inl (hlater hvisits hj)
  | startNode i phase next =>
      cases next with
      | bind todo =>
          cases step_cases h with
          | startNode => exact Or.inl (hlater (visits_proceed todo i _) hj)
      | ret | ignore => cases hj
  | stopping | starting | stopNode | done | panic | cancelled => cases hj

end Call

end EmbassySupervisor
