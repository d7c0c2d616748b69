/-
# What an activation releases and starts

`activate` runs three passes. Against the order it collects what the seed needs
and clears their manual stops; along the order it lifts every collateral hold
that no disabled node justifies any more; and its start wave brings up what the
two passes set free. Nothing the seed needs can still be blocked, because what
it needs is closed downwards and no longer disabled.
-/

import EmbassySupervisor.Verb.Closure
import EmbassySupervisor.Wave.StartOrder

namespace EmbassySupervisor

open DependencyOrder LabelledRun

variable {n : ℕ} {g : Graph n}

/-- The node is of the seed, or the seed needs it: it is reached from the seed
along dependencies of nodes that are not detached. -/
def World.Needed (g : Graph n) (w : World n) (target j : Fin n) : Prop :=
  ∃ a, g.InSeed target a ∧
    Relation.ReflTransGen (fun a d => w.flag a .detached = false ∧ d ∈ g.deps a) a j

theorem collectDependencies_seed (hocc : g.AllOccupied) (w : World n) (target j : Fin n) :
    g.collectDependencies w (g.seed target) j = true ↔ w.Needed g target j := by
  have hopen : (fun a d => ¬ (g.occupied a = true ∧ w.flag a .detached = true) ∧ d ∈ g.deps a) =
      fun a d => w.flag a .detached = false ∧ d ∈ g.deps a := by
    funext a d
    simp [hocc a]
  rw [collectDependencies_iff, hopen]
  exact exists_congr fun a => and_congr_left fun _ => seed_iff hocc target a

/-! ## The two latch passes -/

/-- The state after the first pass. -/
def Graph.enabled (g : Graph n) (w : World n) (target : Fin n) : World n :=
  g.enable w (g.collectDependencies w (g.seed target))

/-- The state after the second pass. -/
def Graph.lifted (g : Graph n) (w : World n) : World n :=
  { w with node := fun j => (g.release w j).handle }

/-- What the start selection of an activation picks. -/
def Graph.activating (g : Graph n) (w : World n) (target j : Fin n) (cfg : NodeCfg n)
    (h : TaskHandle) : Bool :=
  (g.collectDependencies w (g.seed target) j || (g.release (g.enabled w target) j).revive) &&
    !h.flags .detached && !h.flags .running && !h.flags .collateral && !g.deferred cfg

theorem begin_activate (w : World n) (target : Fin n) :
    g.begin w (.activate target) =
      (.starting (g.startNodes (g.lifted (g.enabled w target)) (g.activating w target) true)
        true, g.lifted (g.enabled w target)) := rfl

theorem flag_enable (w : World n) (set : Fin n → Bool) (j : Fin n) (k : Flag) :
    (g.enable w set).flag j k =
      if k = .disabled ∧ set j = true ∧ g.occupied j = true ∧ w.flag j .detached = false then
        false
      else w.flag j k := by
  have hnode : (g.enable w set).node j =
      if set j && g.occupied j && !w.flag j .detached then (w.node j).setDisabled false
      else w.node j := rfl
  rw [World.flag, hnode]
  by_cases hj : (set j && g.occupied j && !w.flag j .detached) = true
  · rw [if_pos hj]
    simp only [Bool.and_eq_true, Bool.not_eq_true'] at hj
    simp only [hj, TaskHandle.flags_setDisabled, and_self, and_true]
    rfl
  · rw [if_neg hj]
    simp only [Bool.and_eq_true, Bool.not_eq_true', not_and] at hj
    rw [if_neg fun h => hj ⟨h.2.1, h.2.2.1⟩ h.2.2.2, World.flag]

theorem flag_lifted (w : World n) (j : Fin n) {k : Flag} (hk : k ≠ .collateral) :
    (g.lifted w).flag j k = w.flag j k := by
  cases release_handle (g := g) w j with
  | inl h => simp [Graph.lifted, World.flag, h]
  | inr h => simp [Graph.lifted, World.flag, h, hk]

/-- What blocks a node does not depend on the collateral holds. -/
theorem blocked_lifted (w : World n) (j : Fin n) :
    World.Blocked g (g.lifted w) j ↔ World.Blocked g w j := by
  have hpass : World.Passes g (g.lifted w) = World.Passes g w := by
    funext i
    simp [World.Passes, flag_lifted]
  simp [World.Blocked, hpass, flag_lifted]

section Activate

variable {w : World n} {target : Fin n}

/-- **The holds an activation clears**, first the manual stops. -/
theorem disabled_activate (hocc : g.AllOccupied) (j : Fin n) :
    (g.begin w (.activate target)).2.flag j .disabled = true ↔
      w.flag j .disabled = true ∧ ¬ (w.flag j .detached = false ∧ w.Needed g target j) := by
  rw [begin_activate, flag_lifted _ _ (by decide), Graph.enabled, flag_enable]
  have hset := collectDependencies_seed hocc w target j
  by_cases hj : w.Needed g target j ∧ w.flag j .detached = false
  · rw [if_pos ⟨rfl, hset.mpr hj.1, hocc j, hj.2⟩]
    simp [hj]
  · rw [if_neg fun h => hj ⟨hset.mp h.2.1, h.2.2.2⟩]
    tauto

theorem flag_activate (j : Fin n) {k : Flag} (hdisabled : k ≠ .disabled)
    (hcollateral : k ≠ .collateral) :
    (g.begin w (.activate target)).2.flag j k = w.flag j k := by
  rw [begin_activate, flag_lifted _ _ hcollateral, Graph.enabled, flag_enable,
    if_neg fun h => hdisabled h.1]

theorem passes_activate (j : Fin n) :
    World.Passes g (g.begin w (.activate target)).2 j ↔ World.Passes g w j := by
  rw [World.Passes, flag_activate j (by decide) (by decide)]
  rfl

/-- Then the collateral holds that nothing blocks. -/
theorem collateral_activate (j : Fin n) :
    (g.begin w (.activate target)).2.flag j .collateral = true ↔
      w.flag j .collateral = true ∧ ¬ (World.Passes g w j ∧
        ¬ World.Blocked g (g.begin w (.activate target)).2 j) := by
  have hslot := (release_slot (g := g) (w := g.enabled w target) j).1
  have hpass : World.Passes g (g.enabled w target) j ↔ World.Passes g w j := by
    simp [World.Passes, Graph.enabled, flag_enable]
  have hcollateral : (g.enabled w target).flag j .collateral = w.flag j .collateral := by
    simp [Graph.enabled, flag_enable]
  rw [begin_activate, blocked_lifted]
  rw [hpass, hcollateral] at hslot
  show (g.release (g.enabled w target) j).handle.flags .collateral = true ↔ _
  rw [hslot]
  tauto

/-- What the seed needs is closed under dependencies. -/
theorem World.Needed.dep {j d : Fin n} (hj : w.Needed g target j)
    (hloose : w.flag j .detached = false) (hd : d ∈ g.deps j) : w.Needed g target d := by
  obtain ⟨a, ha, hpath⟩ := hj
  exact ⟨a, ha, hpath.tail ⟨hloose, hd⟩⟩

/-- **Nothing the seed needs is held.** -/
theorem not_held_of_needed (hocc : g.AllOccupied) {d : Fin n} (hd : w.Needed g target d) :
    ¬ Reaches (World.Passes g (g.begin w (.activate target)).2) g.deps
      (fun d => World.Passes g (g.begin w (.activate target)).2 d ∧
        (g.begin w (.activate target)).2.flag d .disabled = true) d := by
  rintro ⟨b, ⟨hpass, hdisabled⟩, hpath⟩
  have hb : w.Needed g target b := by
    clear hpass hdisabled
    induction hpath with
    | refl => exact hd
    | tail _ hedge ih => exact ih.dep ((passes_activate _).mp hedge.1).2 hedge.2
  exact ((disabled_activate hocc b).mp hdisabled).2 ⟨((passes_activate b).mp hpass).2, hb⟩

theorem not_blocked_of_needed (hocc : g.AllOccupied) {j : Fin n}
    (hj : w.Needed g target j) (hloose : w.flag j .detached = false) :
    ¬ World.Blocked g (g.begin w (.activate target)).2 j := by
  rintro ⟨d, hd, hheld⟩
  exact not_held_of_needed hocc (hj.dep hloose hd) hheld

end Activate

/-! ## The start set -/

/-- What an activation starts: the nodes that are down, not detached and not
`OnDemand`, and that the seed needs or that were just set free. -/
structure World.Starts (g : Graph n) (w : World n) (target j : Fin n) : Prop where
  down : w.flag j .running = false
  loose : w.flag j .detached = false
  mode : ∀ cfg, g.nodes j = some cfg → cfg.mode ≠ .onDemand
  reason : w.Needed g target j ∨
    (w.flag j .collateral = true ∧
      (g.begin w (.activate target)).2.flag j .collateral = false ∧
      (g.begin w (.activate target)).2.flag j .disabled = false)

/-- Only the `OnDemand` nodes are left to their pools. -/
theorem deferred_iff {j : Fin n} {cfg : NodeCfg n} (hcfg : g.nodes j = some cfg) :
    g.deferred cfg = true ↔ cfg.mode = .onDemand := by
  have hshape := (g.shape_sound j cfg hcfg).onDemand
  by_cases hhas : g.shape .onDemand = true
  · simp [Graph.deferred, Graph.has, hhas]
  · simp [Graph.deferred, Graph.has, hhas, hshape (by simpa using hhas)]

theorem pending_startNodes {w : World n} {p : Fin n → NodeCfg n → TaskHandle → Bool}
    {keepGoing : Bool} (j : Fin n) :
    (g.startNodes w p keepGoing).pending j = true ↔
      ∃ cfg, g.nodes j = some cfg ∧ p j cfg (w.node j) = true := by
  simp [Graph.startNodes, StartWave.launch, Option.any_eq_true]

/-- The revived slots are those whose collateral hold was lifted and that are not
disabled. -/
private theorem revive_activate (hocc : g.AllOccupied) (w : World n) (target j : Fin n) :
    (g.release (g.enabled w target) j).revive = true ↔
      w.flag j .detached = false ∧ w.flag j .collateral = true ∧
      (g.begin w (.activate target)).2.flag j .collateral = false ∧
      (g.begin w (.activate target)).2.flag j .disabled = false := by
  have hrevive := (release_slot (g := g) (w := g.enabled w target) j).2
  have hpass : World.Passes g (g.enabled w target) j ↔ w.flag j .detached = false := by
    simp [World.Passes, Graph.enabled, flag_enable, hocc j]
  have hcollateral : (g.enabled w target).flag j .collateral = w.flag j .collateral := by
    simp [Graph.enabled, flag_enable]
  have hdisabled : (g.begin w (.activate target)).2.flag j .disabled =
      (g.enabled w target).flag j .disabled := by
    rw [begin_activate, flag_lifted _ _ (by decide)]
  have hblocked : World.Blocked g (g.begin w (.activate target)).2 j ↔
      World.Blocked g (g.enabled w target) j := blocked_lifted _ j
  have hkept : (g.begin w (.activate target)).2.flag j .collateral = true ↔
      w.flag j .collateral = true ∧ ¬ (w.flag j .detached = false ∧
        ¬ World.Blocked g (g.begin w (.activate target)).2 j) := by
    rw [collateral_activate, World.Passes]
    simp [hocc j]
  rw [hpass, hcollateral, ← hdisabled, ← hblocked] at hrevive
  rw [hrevive, ← Bool.not_eq_true ((g.begin w (.activate target)).2.flag j .collateral), hkept]
  constructor
  · rintro ⟨hfree, hunblocked, hheld, henabled⟩
    exact ⟨hfree, hheld, fun hstays => hstays.2 ⟨hfree, hunblocked⟩, henabled⟩
  · rintro ⟨hfree, hheld, hlifted, henabled⟩
    exact ⟨hfree, fun hblock => hlifted ⟨hheld, fun hpasses => hpasses.2 hblock⟩, hheld, henabled⟩

/-- **The start set of an activation.** -/
theorem pending_activate (hocc : g.AllOccupied) (w : World n) (target : Fin n) :
    ∃ s : StartWave n, (g.begin w (.activate target)).1 = .starting s true ∧
      s = StartWave.launch g (g.begin w (.activate target)).2 s.pending true ∧
      ∀ j, s.pending j = true ↔ w.Starts g target j := by
  refine ⟨_, rfl, rfl, fun j => ?_⟩
  obtain ⟨cfg, hcfg⟩ := (Graph.occupied_iff g).mp (hocc j)
  have hneeded := collectDependencies_seed hocc w target j
  have hrevive := revive_activate hocc w target j
  have hfree : w.Needed g target j → w.flag j .detached = false →
      (g.begin w (.activate target)).2.flag j .collateral = false := by
    intro hj hloose
    apply (Bool.not_eq_true _).mp
    intro hheld
    exact ((collateral_activate j).mp hheld).2
      ⟨⟨hocc j, hloose⟩, not_blocked_of_needed hocc hj hloose⟩
  have hdetached : ((g.lifted (g.enabled w target)).node j).flags .detached =
      w.flag j .detached := flag_activate j (by decide) (by decide)
  have hrunning : ((g.lifted (g.enabled w target)).node j).flags .running =
      w.flag j .running := flag_activate j (by decide) (by decide)
  have hcollateral : ((g.lifted (g.enabled w target)).node j).flags .collateral =
      (g.begin w (.activate target)).2.flag j .collateral := rfl
  have hmode : g.deferred cfg = false ↔
      ∀ cfg', g.nodes j = some cfg' → cfg'.mode ≠ .onDemand := by
    simp [← Bool.not_eq_true, deferred_iff hcfg, hcfg]
  show (g.startNodes (g.lifted (g.enabled w target)) (g.activating w target) true).pending j =
    true ↔ _
  rw [pending_startNodes]
  simp only [hcfg, Option.some.injEq, exists_eq_left', Graph.activating, Bool.and_eq_true,
    Bool.or_eq_true, Bool.not_eq_true', hneeded, hrevive, hdetached, hrunning, hcollateral]
  rw [hmode]
  constructor
  · rintro ⟨⟨⟨⟨hreason, hloose⟩, hdown⟩, _⟩, hmode⟩
    exact ⟨hdown, hloose, hmode, hreason.imp_right And.right⟩
  · rintro ⟨hdown, hloose, hmode, hreason⟩
    refine ⟨⟨⟨⟨hreason.imp_right fun h => ⟨hloose, h⟩, hloose⟩, hdown⟩, ?_⟩, hmode⟩
    cases hreason with
    | inl hneeded => exact hfree hneeded hloose
    | inr h => exact h.2.1

/-! ## The wave -/

/-- What a start wave leaves of each selected slot where it reports no fault:
brought up or put off once, and marked if it was put off. -/
def Resolves (w₀ : World n) (sel : Fin n → Bool) (w : World n) : Prop :=
  ∃ new, w.log = new ++ w₀.log ∧ ∀ j, sel j = true →
    outcomes new j = 1 ∧ (0 < tally new (.boundPark j) → w.flag j .boundStopped = true)

theorem Resolves.event {w₀ w w' : World n} {sel : Fin n → Bool} (hs : Resolves w₀ sel w)
    (h : TaskEvent.Effect g w w') : Resolves w₀ sel w' := by
  obtain ⟨new, hnew, hall⟩ := hs
  obtain ⟨later, hlater, hby⟩ := h.log_eq
  have htally : ∀ r : Record n, (∀ i, r ≠ .dropped i ∧ r ≠ .claimsReleased i) →
      tally (later ++ new) r = tally new r := by
    intro r hr
    apply tally_append_of_ne
    intro e he heq
    obtain ⟨i, hrecord⟩ := hby e he
    rw [heq] at hrecord
    exact hrecord.elim (hr i).1 (hr i).2
  refine ⟨later ++ new, by simp [hlater, hnew], fun j hj => ?_⟩
  obtain ⟨hone, hparked⟩ := hall j hj
  rw [outcomes, htally _ (by simp), htally _ (by simp), htally _ (by simp),
    h.flag_eq j rfl (by decide) (by decide) (by decide)]
  exact ⟨hone, hparked⟩

/-- The states of a call that only starts the selected slots: its wave, then
nothing. -/
inductive OnlyStarts (g : Graph n) (w₀ : World n) (sel : Fin n → Bool) :
    Call n → World n → Prop
  | wave {s : StartWave n} {poke : Bool} {w : World n}
      (haccounts : StartWave.Accounts g sel w₀ s w) (hordered : StartWave.Ordered g sel s) :
      OnlyStarts g w₀ sel (.starting s poke) w
  | ended {c : Call n} {w : World n} (hend : ∀ u, c.step g u = none)
      (h : c = .done none → Resolves w₀ sel w) : OnlyStarts g w₀ sel c w
theorem OnlyStarts.step {w₀ w w' : World n} {sel : Fin n → Bool} {c c' : Call n}
    (hs : OnlyStarts g w₀ sel c w) (h : c.step g w = some (c', w')) :
    OnlyStarts g w₀ sel c' w' := by
  cases hs with
  | ended hend _ => simp [hend] at h
  | @wave s _ _ haccounts hordered =>
      cases Call.step_cases h with
      | startWave h => exact .wave (haccounts.step h) (hordered.step h)
      | startPanic => exact .ended (fun _ => rfl) fun h => by simp at h
      | startDone hpc hw =>
          apply OnlyStarts.ended
          · exact fun _ => rfl
          · intro hdone
            obtain rfl := Call.done.inj hdone
            obtain ⟨new, hnew, hacc⟩ := haccounts
            refine ⟨new, by rw [hw.log, hnew], fun j hj => ?_⟩
            rw [hw.flag]
            refine ⟨?_, (hacc j).parked⟩
            -- No fault is left to explain a slot without an outcome.
            rcases hordered.done none hpc with ⟨herr, hpend⟩ | ⟨_, f, hf, _⟩
            · rcases (hacc j).settled hj (hpend j) with hone | ⟨_, hfault⟩
              · exact hone
              · exact absurd herr.symm hfault
            · simp at hf

theorem OnlyStarts.event {w₀ w w' : World n} {sel : Fin n → Bool} {c : Call n}
    (hs : OnlyStarts g w₀ sel c w) (h : TaskEvent.Effect g w w') :
    OnlyStarts g w₀ sel c w' := by
  cases hs with
  | wave haccounts hordered => exact .wave (haccounts.event h) hordered
  | ended hend hok => exact .ended hend fun hdone => (hok hdone).event h

theorem OnlyStarts.resolves {w₀ w : World n} {sel : Fin n → Bool} {c : Call n}
    (hs : OnlyStarts g w₀ sel c w) (hdone : c = .done none) : Resolves w₀ sel w := by
  cases hs with
  | wave => simp at hdone
  | ended _ hok => exact hok hdone

/-- **What an activation releases and starts.** It clears `disabled` exactly on the
nodes the seed needs that are not detached, then `collateral` exactly on the
nodes that are not detached and that no disabled node blocks, and touches no
other flag. Its wave is over the nodes of `World.Starts`; those the seed needs
have no held dependency; and where the call returns without a fault, each of
them has been brought up once or parked once for a bound provider. -/
theorem activate_releases_and_starts (g : Graph n) (hocc : g.AllOccupied) (w₀ : World n)
    (target : Fin n) {moves : List (Move n)} {c : Call n} {w w₁ : World n}
    (hw₁ : (g.begin w₀ (.activate target)).2 = w₁)
    (hrun : exec (soloCall g) (g.begin w₀ (.activate target)) moves = some (c, w)) :
    (∀ j, w₁.flag j .disabled = true ↔ w₀.flag j .disabled = true ∧
      ¬ (w₀.flag j .detached = false ∧ w₀.Needed g target j)) ∧
    (∀ j, w₁.flag j .collateral = true ↔ w₀.flag j .collateral = true ∧
      ¬ (w₀.flag j .detached = false ∧ ¬ World.Blocked g w₁ j)) ∧
    (∀ j k, k ≠ .disabled → k ≠ .collateral → w₁.flag j k = w₀.flag j k) ∧
    (∃ s : StartWave n, (g.begin w₀ (.activate target)).1 = .starting s true ∧
      ∀ j, s.pending j = true ↔ w₀.Starts g target j) ∧
    (∀ j, w₀.Starts g target j → w₀.Needed g target j → ¬ World.Blocked g w₁ j) ∧
    (c = .done none → ∃ new, w.log = new ++ w₀.log ∧ ∀ j, w₀.Starts g target j →
      outcomes new j = 1 ∧
      (0 < tally new (.boundPark j) → w.flag j .boundStopped = true)) := by
  subst hw₁
  refine ⟨disabled_activate hocc, fun j => ?_, fun j k hd hc => flag_activate j hd hc,
    ?_, ?_, fun hdone => ?_⟩
  · rw [collateral_activate, World.Passes]
    simp [hocc j]
  · obtain ⟨s, hbegin, _, hpending⟩ := pending_activate hocc w₀ target
    exact ⟨s, hbegin, hpending⟩
  · intro j hstarts hneeded
    exact not_blocked_of_needed hocc hneeded hstarts.loose
  · obtain ⟨s, hbegin, hlaunch, hpending⟩ := pending_activate hocc w₀ target
    have hstart : OnlyStarts g w₀ s.pending (g.begin w₀ (.activate target)).1
        (g.begin w₀ (.activate target)).2 := by
      rw [hbegin, hlaunch]
      exact .wave (StartWave.accounts_launch _ _ _) (StartWave.ordered_launch _ _ _)
    obtain ⟨new, hnew, hall⟩ := (among_invariant (I := OnlyStarts g w₀ s.pending)
      (fun _ _ _ _ hs hstep => hs.step hstep) (fun _ _ _ hs he => hs.event he)
      hstart hrun).resolves hdone
    exact ⟨new, hnew, fun j hj => hall j ((hpending j).mpr hj)⟩

/-- The link deactivated, and the client down with it. -/
def linkHeldDown : World 2 where
  node j := { flags := fun k => k == if j = 0 then .disabled else .collateral }

/-- The link starts, the client once the link is ready. -/
def linkActivated : Option (Call 2 × World 2) :=
  exec (soloCall clientAndLink) (clientAndLink.begin linkHeldDown (.activate 0))
    (List.replicate 8 .own ++ [.event (.setReady 0)] ++ List.replicate 5 .own)

theorem activate_releases_and_starts_link :
    (clientAndLink.begin linkHeldDown (.activate 0)).2.flag 0 .disabled = false ∧
      ∃ new, (linkActivated.get rfl).2.log = new ++ [] ∧ outcomes new 0 = 1 := by
  have hrun : linkActivated.isSome = true := rfl
  have hneeded : linkHeldDown.Needed clientAndLink 0 0 := ⟨0, Or.inl rfl, .refl⟩
  obtain ⟨hdisabled, _, _, _, _, hok⟩ := activate_releases_and_starts clientAndLink
    (fun _ => rfl) linkHeldDown 0 rfl (Option.some_get hrun).symm
  refine ⟨(Bool.not_eq_true _).mp fun h => ((hdisabled 0).mp h).2 ⟨rfl, hneeded⟩, ?_⟩
  obtain ⟨new, hnew, hall⟩ := hok rfl
  exact ⟨new, hnew, (hall 0 ⟨rfl, rfl, fun cfg hcfg => by cases hcfg; decide,
    Or.inl hneeded⟩).1⟩

end EmbassySupervisor
