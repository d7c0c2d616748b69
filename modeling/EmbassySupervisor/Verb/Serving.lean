/-
# Who posts the bind request

A bound client is *stranded* while it runs on a provider that does not serve, and
*restorable* while it is down for a provider and nothing else, and all its providers
serve. `apply_bind` is there to leave none of either, and `BIND_REQ` to have it called.

Not every step that strands a node or makes one restorable posts the request.
`posts_next` says what the steps that do not post it can do: they make no provider
serve, and mark nobody as down for one but a node they leave running or record as put off.
-/

import EmbassySupervisor.Verb.Bind
import EmbassySupervisor.Verb.BoundLaw
import EmbassySupervisor.Wave.StartFault

namespace EmbassySupervisor

open LabelledRun

variable {n : ℕ} {g : Graph n}

/-! ## Stranded and restorable -/

/-- A running node that is not detached, one of whose bound providers does not serve. -/
def World.Stranded (g : Graph n) (w : World n) (j : Fin n) : Prop :=
  w.Stoppable j ∧ ∃ d ∈ g.boundDepsOf j, w.isServing d = false

/-- A node that the second phase of `apply_bind` may act on. -/
def World.Restorable (g : Graph n) (w : World n) (j : Fin n) : Prop :=
  (g.nodes j).any (w.bindable · j) = true

theorem restorable_iff {w : World n} {j : Fin n} :
    w.Restorable g j ↔ g.occupied j = true ∧ w.flag j .boundStopped = true ∧
      w.flag j .disabled = false ∧ w.flag j .collateral = false ∧ w.flag j .detached = false ∧
      w.flag j .running = false ∧ ∀ d ∈ g.boundDepsOf j, w.isServing d = true := by
  rw [World.Restorable, Graph.boundDepsOf, Graph.occupied]
  cases hcfg : g.nodes j with
  | none => simp
  | some cfg =>
      simp only [Option.any_some, World.bindable_iff, Option.isSome_some, true_and]

/-- What a step has added to the history. -/
def World.added (w w' : World n) : List (ℕ × Record n) :=
  w'.log.take (w'.log.length - w.log.length)

theorem added_eq {w w' : World n} {new : List (ℕ × Record n)} (h : w'.log = new ++ w.log) :
    w.added w' = new := by
  simp [World.added, h]

/-- The step records it. -/
def Records (w w' : World n) (r : Record n) : Prop := ∃ e ∈ w.added w', e.2 = r

instance (w w' : World n) (r : Record n) : Decidable (Records w w' r) :=
  inferInstanceAs (Decidable (∃ e ∈ w.added w', e.2 = r))

theorem records_of_mem {w w' : World n} {new : List (ℕ × Record n)} {t : ℕ} {r : Record n}
    (h : w'.log = new ++ w.log) (hmem : (t, r) ∈ new) : Records w w' r :=
  ⟨(t, r), (added_eq h).symm ▸ hmem, rfl⟩

theorem not_restorable_of_running {w : World n} {j : Fin n} (h : w.flag j .running = true) :
    ¬ w.Restorable g j := fun hj => by
  simp [(restorable_iff.mp hj).2.2.2.2.2.1] at h

theorem not_restorable_of_unmarked {w : World n} {j : Fin n} (h : w.flag j .boundStopped = false) :
    ¬ w.Restorable g j := fun hj => by
  simp [(restorable_iff.mp hj).2.1] at h

/-- A bring-up that ends without a fault leaves its node up, or put off for a provider that
does not serve. -/
theorem StartEffect.not_restorable {cfg : NodeCfg n} {w u w' : World n} {j : Fin n} {r : Outcome n}
    (h : StartEffect cfg u j (.done r) w') (hlog : w.log <:+ u.log)
    (hparks : Records w w' (.boundPark j) → ∃ d ∈ g.boundDepsOf j, w'.isServing d = false)
    (hfault : ∀ e ∈ w.added w', e.2.fault = none) : ¬ w'.Restorable g j := by
  obtain ⟨old, hold⟩ := hlog
  cases h with
  | started => exact not_restorable_of_running (by simp)
  | @parked w₁ _ hw _ =>
      intro hj
      have hnew : (w₁.boundPark j).log = ((w₁.now, .boundPark j) :: old) ++ w.log := by
        simp [hw.log, ← hold]
      obtain ⟨d, hd, hnot⟩ := hparks (records_of_mem hnew List.mem_cons_self)
      simp [(restorable_iff.mp hj).2.2.2.2.2.2 d hd] at hnot
  | @faulted w₁ kind hw _ =>
      have hlog₁ : w₁.log = u.log := by
        rcases hw with hw | hw
        · exact hw.log
        · exact hw.log
      have hnew : (w₁.note j (.faulted kind)).log =
          ((w₁.now, .note j (.faulted kind)) :: old) ++ w.log := by simp [hlog₁, ← hold]
      have hnone := hfault (w₁.now, .note j (.faulted kind))
        ((added_eq hnew).symm ▸ List.mem_cons_self)
      simp [Record.fault] at hnone

/-! ## What a step that posts nothing leaves alone -/

/-- A step posts the request, or makes no provider serve; and it marks only nodes that run
after it, or that it records as put off. -/
structure World.Posts (w w' : World n) : Prop where
  serving : w'.bindReq = true ∨ ∀ d, w'.isServing d = true → w.isServing d = true
  marked : ∀ j, w'.flag j .boundStopped = true → w.flag j .boundStopped = true ∨
    w'.flag j .running = true ∨ Records w w' (.boundPark j)

namespace World.Posts

variable {w w' w₁ : World n}

/-- A provider that serves was up and ready before, if readiness is not asserted and who is
brought up is not ready. -/
theorem serving_of (h : ∀ d, w'.flag d .ready = true → w.flag d .ready = true ∧
      (w'.flag d .running = true → w.flag d .running = true)) (d : Fin n)
    (hd : w'.isServing d = true) : w.isServing d = true := by
  obtain ⟨hrunning, hready⟩ := Bool.and_eq_true_iff.mp hd
  exact Bool.and_eq_true_iff.mpr ⟨(h d hready).2 hrunning, (h d hready).1⟩

theorem of_lower (hserving : ∀ d, w'.flag d .ready = true → w.flag d .ready = true ∧
      (w'.flag d .running = true → w.flag d .running = true))
    (hmarked : ∀ j, w'.flag j .boundStopped = true → w.flag j .boundStopped = true) :
    w.Posts w' :=
  ⟨Or.inr (serving_of hserving), fun j hj => Or.inl (hmarked j hj)⟩

theorem of_flags (h : ∀ j k, k = .ready ∨ k = .running ∨ k = .boundStopped →
    w'.flag j k = w.flag j k) : w.Posts w' := by
  apply of_lower
  · intro d hd
    rw [h d .ready (by simp)] at hd
    rw [h d .running (by simp)]
    exact ⟨hd, id⟩
  · intro j hj
    rwa [h j .boundStopped (by simp)] at hj

theorem of_still (h : w.Still w') : w.Posts w' := of_flags fun j k _ => h.flag j k

theorem of_relatched (h : w.Relatched w') : w.Posts w' := by
  apply of_flags
  rintro j k (rfl | rfl | rfl) <;> exact h.flag j _ rfl

end World.Posts

section Steps

variable {w w' : World n}

theorem StopWave.Step.posts {s s' : StopWave n} (h : s.Step g w s' w') : w.Posts w' := by
  apply World.Posts.of_lower
  · intro d hd
    rw [h.flag_eq d (by decide) (by decide)] at hd
    exact ⟨hd, h.running_of_running⟩
  · intro j hj
    rwa [h.flag_eq j (by decide) (by decide)] at hj

/-- Bringing a node up after a reset makes nobody serve. -/
theorem posts_of_up {j : Fin n} (hready : w'.flag j .ready = false)
    (hother : ∀ i k, i ≠ j → k = .ready ∨ k = .running → w'.flag i k = w.flag i k)
    (hmarked : ∀ i, w'.flag i .boundStopped = true → w.flag i .boundStopped = true) :
    w.Posts w' := by
  apply World.Posts.of_lower _ hmarked
  intro d hd
  have hne : d ≠ j := by
    rintro rfl
    simp [hready] at hd
  rw [hother d .ready hne (by simp)] at hd
  rw [hother d .running hne (by simp)]
  exact ⟨hd, id⟩

/-- Clearing stale flags makes nobody serve and marks nobody. -/
theorem posts_of_stale (h : ∀ i k, w'.flag i k = w.flag i k ∨ k.stale = true ∧ w'.flag i k = false) :
    w.Posts w' := by
  have hkept : ∀ i k, k.stale = false → w'.flag i k = w.flag i k := by
    intro i k hk
    rcases h i k with hsame | ⟨hstale, _⟩
    · exact hsame
    · simp [hk] at hstale
  apply World.Posts.of_lower
  · intro d hd
    refine ⟨?_, fun hrunning => by rwa [hkept d .running rfl] at hrunning⟩
    rcases h d .ready with hsame | ⟨_, hclear⟩
    · rwa [hsame] at hd
    · simp [hclear] at hd
  · intro i hi
    rwa [hkept i .boundStopped rfl] at hi

theorem stale_of_still {w₁ : World n} {j : Fin n} (hw : w.Still w₁ ∨ (w.reset j).Still w₁)
    (i : Fin n) (k : Flag) :
    w₁.flag i k = w.flag i k ∨ k.stale = true ∧ w₁.flag i k = false := by
  rcases hw with hw | hw
  · exact Or.inl (hw.flag i k)
  · rw [hw.flag, World.flag_reset]
    split
    case isTrue h => exact Or.inr ⟨h.2, rfl⟩
    case isFalse => exact Or.inl rfl

/-- Putting a node off is recorded. -/
theorem posts_boundPark {w₁ : World n} {j : Fin n} (hw : w.Still w₁) :
    w.Posts (w₁.boundPark j) := by
  refine ⟨Or.inr (World.Posts.serving_of fun d hd => ?_), fun i hi => ?_⟩
  · simp only [World.flag_boundPark, reduceCtorEq, and_false, if_false] at hd ⊢
    rw [hw.flag] at hd ⊢
    exact ⟨hd, id⟩
  · by_cases hij : i = j
    · subst hij
      have hnew : (w₁.boundPark i).log = [(w₁.now, .boundPark i)] ++ w.log := by simp [hw.log]
      exact Or.inr (Or.inr (records_of_mem hnew List.mem_cons_self))
    · apply Or.inl
      simpa [hij, hw.flag] using hi

theorem StartWave.Step.posts {s s' : StartWave n} (h : s.Step g w s' w') : w.Posts w' := by
  cases h with
  | arm => exact .of_flags fun _ _ _ => rfl
  | @resume j =>
      apply posts_of_up (j := j)
      · simp [Flag.stale]
      · rintro i k hij (rfl | rfl) <;> simp [hij]
      · intro i hi
        simp only [World.flag_putFlag, World.flag_resume] at hi
        split at hi
        · cases hi
        · simpa [Flag.stale] using hi
  | @mark j =>
      apply posts_of_up (j := j)
      · simp [Flag.stale]
      · rintro i k hij (rfl | rfl) <;> simp [hij]
      · intro i hi
        simpa [Flag.stale] using hi
  | park => exact posts_boundPark (.refl w)
  | @fault j _ _ _ _ w₁ _ hw | @abort j _ _ _ _ w₁ _ hw =>
      have hw₁ : w.Still w₁ ∨ (w.reset j).Still w₁ := by
        rcases hw with rfl | rfl
        · exact Or.inl (.refl _)
        · exact Or.inr (.refl _)
      exact posts_of_stale fun i k => stale_of_still hw₁ i k
  | @spawn j =>
      apply posts_of_up (j := j)
      · simp [World.flag_launch, Flag.stale]
      · rintro i k hij (rfl | rfl) <;> simp [hij, World.flag_launch]
      · intro i hi
        simp only [World.flag_started] at hi
        split at hi
        · cases hi
        · simpa [World.flag_launch, Flag.stale] using hi
  | @busy j _ _ _ _ _ _ _ hw =>
      apply posts_of_stale
      apply stale_of_still (j := j)
      rcases hw with rfl | ⟨slot, rfl⟩
      · exact Or.inr (.refl _)
      · exact Or.inr (World.still_requestPass _ slot)
  | finish => exact .of_flags fun _ _ _ => rfl
  | turn _ hw => rcases hw with rfl | rfl <;> exact .of_flags fun _ _ _ => rfl

theorem StartEffect.posts {cfg : NodeCfg n} {j : Fin n} {e : StartEnd n}
    (h : StartEffect cfg w j e w') : w.Posts w' := by
  cases h with
  | started _ hw _ =>
      apply posts_of_up (j := j)
      · simp [World.flag_launch, Flag.stale]
      · rintro i k hij (rfl | rfl) <;> simp [hij, World.flag_launch, hw.flag]
      · intro i hi
        simp only [World.flag_started] at hi
        split at hi
        · cases hi
        · simpa [World.flag_launch, Flag.stale, hw.flag] using hi
  | parked hw _ => exact posts_boundPark hw
  | faulted hw _ => exact posts_of_stale fun i k => stale_of_still hw i k
  | waits hw => exact posts_of_stale fun i k => stale_of_still hw i k

theorem StartEntry.posts {j : Fin n} {e : StartEnd n} (h : StartEntry g w j e w') :
    w.Posts w' := by
  cases h with
  | absent => exact .of_flags fun _ _ _ => rfl
  | gated _ h hput =>
      have hposts := h.posts
      refine ⟨hposts.serving.imp id fun hserving d hd => ?_, fun i hi => Or.inl (hput i hi)⟩
      simpa [World.isServing] using hserving d hd
  | marked =>
      apply posts_of_up (j := j)
      · simp [Flag.stale]
      · rintro i k hij (rfl | rfl) <;> simp [hij]
      · intro i hi
        simp only [World.flag_started] at hi
        split at hi
        · cases hi
        · simpa [Flag.stale] using hi

theorem Call.Step.posts {c c' : Call n} (h : Call.Step g w c c' w') : w.Posts w' := by
  cases h with
  | stopWave h => exact h.posts
  | startWave h => exact h.posts
  | startDone _ hw => exact .of_still hw
  | startNode _ h => exact h.posts
  | @ackNode j =>
      have hkept : ∀ i k, (w.onNode j fun h => { h with droppedWake := false }).flag i k =
          w.flag i k := by
        intro i k
        rw [World.flag_onNode]
        split
        case isTrue heq => rw [heq]; rfl
        case isFalse => rfl
      apply World.Posts.of_lower
      · intro d hd
        simp only [World.flag_takeAck, hkept, reduceCtorEq, and_false, if_false, and_true] at hd ⊢
        refine ⟨hd, fun hrunning => ?_⟩
        split at hrunning
        · cases hrunning
        · exact hrunning
      · intro i hi
        simpa [World.flag_takeAck, hkept] using hi
  | missNode => exact .of_flags fun _ _ _ => by simp
  | bindStart _ _ _ h => exact h.posts
  | @bindResume j =>
      apply posts_of_up (j := j)
      · simp [Flag.stale]
      · rintro i k hij (rfl | rfl) <;> simp [hij]
      · intro i hi
        simp only [World.flag_putFlag, World.flag_resume] at hi
        split at hi
        · cases hi
        · simpa [Flag.stale] using hi
  | @bindUnmark j _ _ _ _ _ _ hw =>
      apply World.Posts.of_lower
      · intro d hd
        simp only [hw.flag, World.flag_putFlag, reduceCtorEq, and_false, if_false] at hd ⊢
        exact ⟨hd, id⟩
      · intro i hi
        simp only [hw.flag, World.flag_putFlag] at hi
        split at hi
        · cases hi
        · exact hi
  | stopFault | stopDone | restartUp | bindPhase | stopPanic | startPanic | bindEnd
  | bindSkip => exact .of_flags fun _ _ _ => rfl

/-- A resumed instance is not ready. -/
theorem posts_resumeAll (w : World n) (js : List (Fin n)) : w.Posts (g.resumeAll w js) := by
  apply World.Posts.of_lower
  · intro d
    induction js generalizing w with
    | nil => exact fun hd => ⟨hd, id⟩
    | cons j js ih =>
        show (g.resumeAll (if (g.nodes j).any (w.resumable · j) then w.resume j else w) js).flag d
            .ready = true → _ ∧ ((g.resumeAll (if (g.nodes j).any (w.resumable · j) then
              w.resume j else w) js).flag d .running = true → _)
        split
        case isFalse => exact ih w
        case isTrue =>
          intro hd
          obtain ⟨hready, hrunning⟩ := ih _ hd
          have hne : d ≠ j := by
            rintro rfl
            simp [Flag.stale] at hready
          simp only [World.flag_resume, hne, false_and, if_false] at hready hrunning
          exact ⟨hready, hrunning⟩
  · intro j hj
    rwa [flag_resumeAll js j rfl (by decide)] at hj

theorem Begun.posts {v : Verb n} {c : Call n} (h : Begun g w v c w') : w.Posts w' := by
  cases h with
  | idle h | startWave h | stopWave h => exact .of_relatched h
  | bindWave hsel hmark =>
      refine ⟨Or.inr (World.Posts.serving_of fun d hd => ?_), fun j hj => ?_⟩
      · rw [hmark.flag d _ (by decide)] at hd
        rw [hmark.flag d _ (by decide)]
        exact ⟨hd, id⟩
      · rw [hmark.bound, Bool.or_eq_true] at hj
        rcases hj with hchosen | hmarked
        · apply Or.inr ∘ Or.inl
          rw [hmark.flag j _ (by decide)]
          exact (hsel.chosen j hchosen).2.1
        · exact Or.inl hmarked
  | startNode h | grow _ _ _ h => exact h.posts
  | @stopNow _ j =>
      apply World.Posts.of_lower
      · intro d hd
        simp only [World.flag_takeAck, World.flag_note, World.flag_signalShutdown, reduceCtorEq,
          and_false, if_false, and_true] at hd ⊢
        refine ⟨hd, fun hrunning => ?_⟩
        split at hrunning
        · cases hrunning
        · exact hrunning
      · intro i hi
        simpa [World.flag_takeAck] using hi
  | stopWait => exact .of_flags (by rintro i k (rfl | rfl | rfl) <;> simp)
  | resumes => exact posts_resumeAll w _

theorem TaskEvent.posts {e : TaskEvent n} (h : e.apply g w = some w') : w.Posts w' := by
  have kept := fun j k (hk : e.writes j k = false) => TaskEvent.flag_eq_of_not_writes h hk
  have posted : w'.bindReq = true → (∀ j, e.writes j .boundStopped = false) → w.Posts w' := by
    intro hreq hbound
    refine ⟨Or.inl hreq, fun j hj => Or.inl ?_⟩
    rwa [kept j _ (hbound j)] at hj
  have same : (∀ j k, k = .ready ∨ k = .running ∨ k = .boundStopped → e.writes j k = false) →
      w.Posts w' := fun hwrites => .of_flags fun j k hk => kept j k (hwrites j k hk)
  cases e with
  | ackDropped j | markExited j =>
      obtain ⟨cfg, -, h⟩ := Option.bind_eq_some_iff.mp h
      split at h
      · cases h
      · cases h
        exact posted rfl (by simp [writes])
  | setReady j | clearReady j =>
      cases h
      exact posted rfl (by simp [writes])
  | elapse | appSpawn | park | markBusy | markIdle | setDetached | pollShutdown | takeResume
  | provide | take | clear | fillSlot | fencePass | setRefused =>
      exact same (by rintro j k (rfl | rfl | rfl) <;> simp [writes])

end Steps

/-- **No step makes a provider serve without posting the request**, and none marks a node that
is down afterwards without recording that it was put off. -/
theorem posts_next {s t : Sys n} {l : Label n} (h : Sys.next g s l = some t) :
    s.world.Posts t.world := by
  cases Sys.next_cases h with
  | @begin v c w _ heq =>
      have hbegun := begin_cases g s.world v
      rw [heq] at hbegun
      exact hbegun.posts
  | advance _ _ hstep => exact (Call.step_cases hstep).posts
  | task _ happly => exact TaskEvent.posts happly
  | @setDisabled j =>
      apply World.Posts.of_flags
      intro i k hk
      rw [World.flag_onNode]
      split
      case isTrue heq =>
        have hne : k ≠ .disabled := by rcases hk with rfl | rfl | rfl <;> decide
        rw [heq]
        simp [hne, World.flag]
      case isFalse => rfl
  | cancel => exact .of_flags fun _ _ _ => rfl

end EmbassySupervisor
