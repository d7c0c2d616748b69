/-
# Dependencies start first, once each

A start wave spawns a node only when no dependency of it is pending and every
gate holds at that instant, and it accounts for every slot it was given: each is
brought up or put off once, unless a fault is reported. A fault that ends the
wave leaves its node and everything above it untouched, because pending spreads
upwards: a selected node with a pending dependency is pending.

The accounting is done on what the wave adds to the history, slot by slot.
-/

import EmbassySupervisor.Wave.StartWave

namespace EmbassySupervisor

open LabelledRun

variable {n : ℕ} {g : Graph n}

/-! ## Counting entries of a history -/

/-- How often an entry occurs in a history. -/
def tally (log : List (ℕ × Record n)) (r : Record n) : ℕ := log.countP fun e => e.2 = r

/-- How often a node was brought up or put off. -/
def outcomes (log : List (ℕ × Record n)) (j : Fin n) : ℕ :=
  tally log (.note j .started) + tally log (.note j .resumed) + tally log (.boundPark j)

@[simp]
theorem tally_nil (r : Record n) : tally [] r = 0 := rfl

@[simp]
theorem tally_cons (e : ℕ × Record n) (log : List (ℕ × Record n)) (r : Record n) :
    tally (e :: log) r = tally log r + if e.2 = r then 1 else 0 := by
  simp [tally, List.countP_cons]

/-- Entries of another kind do not count. -/
theorem tally_append_of_ne {later log : List (ℕ × Record n)} {r : Record n}
    (h : ∀ e ∈ later, e.2 ≠ r) : tally (later ++ log) r = tally log r := by
  have hzero : later.countP (fun e => e.2 = r) = 0 :=
    List.countP_eq_zero.mpr fun e he => by simpa using h e he
  simp [tally, hzero]

/-- How often a node was brought up. -/
def bringUps (log : List (ℕ × Record n)) (j : Fin n) : ℕ :=
  tally log (.note j .started) + tally log (.note j .resumed)

theorem bringUps_append {later log : List (ℕ × Record n)} {j : Fin n}
    (h : ∀ r ∈ later, r.2 ≠ .note j .started ∧ r.2 ≠ .note j .resumed) :
    bringUps (later ++ log) j = bringUps log j := by
  rw [bringUps, tally_append_of_ne fun r hr => (h r hr).1,
    tally_append_of_ne fun r hr => (h r hr).2, bringUps]

theorem bringUps_append_of_node {later log : List (ℕ × Record n)} {j : Fin n}
    (h : ∀ r ∈ later, r.2.node ≠ j) : bringUps (later ++ log) j = bringUps log j := by
  apply bringUps_append
  intro r hr
  exact ⟨fun heq => h r hr (by simp [heq, Record.node]),
    fun heq => h r hr (by simp [heq, Record.node])⟩

/-- A record that is not decisive brings nothing up. -/
theorem Record.ne_of_not_decisive {r : Record n} (hr : r.decisive = false) (j : Fin n) :
    r ≠ .note j .started ∧ r ≠ .note j .resumed := by
  refine ⟨?_, ?_⟩ <;> rintro rfl <;> simp [Record.decisive] at hr

theorem bringUps_append_of_not_decisive {later log : List (ℕ × Record n)} {j : Fin n}
    (h : ∀ r ∈ later, r.2.decisive = false) : bringUps (later ++ log) j = bringUps log j :=
  bringUps_append fun r hr => Record.ne_of_not_decisive (h r hr) j

namespace StartWave

/-! ## The gates at a spawn -/

/-- Every gate of a node holds. -/
structure GatesHold (w : World n) (cfg : NodeCfg n) (j : Fin n) : Prop where
  slot : w.slotFilled cfg = true
  resources : w.gatesFilled cfg = true
  ready : w.depsReady cfg = true
  settled : w.isSettled j = true

/-- Where nothing blocks a node, every gate holds: the ones the shape leaves
untested are not there. -/
theorem gatesHold_of_blockedBy {w : World n} {cfg : NodeCfg n} {j : Fin n}
    (hcfg : g.nodes j = some cfg) (h : g.blockedBy w cfg j = none) : GatesHold w cfg j := by
  have hfits := g.shape_sound j cfg hcfg
  unfold Graph.blockedBy at h
  by_cases hslot : (g.has .execSlots && !w.slotFilled cfg) = true
  · simp [hslot] at h
  by_cases hres : (g.has .resources && !w.gatesFilled cfg) = true
  · simp [hslot, hres] at h
  simp only [if_neg hslot, if_neg hres] at h
  have hready : w.depsReady cfg = true := by
    by_cases hhas : g.has .readyDeps = true
    · rw [if_pos hhas] at h
      cases hfind : cfg.readyDeps.find? fun d => !w.flag d .ready with
      | none => simpa [World.depsReady] using hfind
      | some dep => simp [hfind] at h
    · simp [World.depsReady, hfits.readyDeps (by simpa [Graph.has] using hhas)]
  have hsettled : w.isSettled j = true := by
    by_contra hbusy
    simp only [hbusy] at h
    split at h <;> simp at h
  refine ⟨?_, ?_, hready, hsettled⟩
  · by_cases hhas : g.has .execSlots = true
    · simpa [hhas] using hslot
    · simp [World.slotFilled, hfits.execSlots (by simpa [Graph.has] using hhas)]
  · by_cases hhas : g.has .resources = true
    · simpa [hhas] using hres
    · simp [World.gatesFilled, hfits.resources (by simpa [Graph.has] using hhas)]

/-! ## The account of one slot -/

/-- What the wave has to say for one slot, given the history it has added. -/
structure Accounted (g : Graph n) (sel : Fin n → Bool) (s : StartWave n) (w : World n)
    (new : List (ℕ × Record n)) (j : Fin n) : Prop where
  selected : s.pending j = true → sel j = true
  waiting : s.pending j = true → outcomes new j = 0
  settled : sel j = true → s.pending j = false →
    outcomes new j = 1 ∨ (outcomes new j = 0 ∧ s.firstErr ≠ none)
  spawned : tally new (.spawned j) = if g.hasSpawn j then tally new (.note j .started) else 0
  parked : 0 < tally new (.boundPark j) → w.flag j .boundStopped = true

/-- A slot that nothing happens to keeps its account. -/
theorem Accounted.congr {sel : Fin n → Bool} {s s' : StartWave n} {w w' : World n}
    {new new' : List (ℕ × Record n)} {j : Fin n} (h : Accounted g sel s w new j)
    (hpend : s'.pending j = s.pending j) (herr : s.firstErr ≠ none → s'.firstErr ≠ none)
    (htally : ∀ r ∈ [.note j .started, .note j .resumed, .boundPark j, .spawned j],
      tally new' r = tally new r)
    (hflag : w'.flag j .boundStopped = w.flag j .boundStopped) :
    Accounted g sel s' w' new' j := by
  have hstarted := htally (.note j .started) (by simp)
  have hresumed := htally (.note j .resumed) (by simp)
  have hparked := htally (.boundPark j) (by simp)
  have hspawned := htally (.spawned j) (by simp)
  have hout : outcomes new' j = outcomes new j := by
    simp [outcomes, hstarted, hresumed, hparked]
  refine ⟨?_, ?_, ?_, ?_, ?_⟩
  · rw [hpend]
    exact h.selected
  · rw [hpend, hout]
    exact h.waiting
  · rw [hpend, hout]
    exact fun hsel hj => (h.settled hsel hj).imp_right (And.imp_right herr)
  · rw [hspawned, hstarted]
    exact h.spawned
  · rw [hparked, hflag]
    exact h.parked

/-- The account of every slot against what was added since `w₀`. -/
def Accounts (g : Graph n) (sel : Fin n → Bool) (w₀ : World n) (s : StartWave n)
    (w : World n) : Prop :=
  ∃ new, w.log = new ++ w₀.log ∧ ∀ j, Accounted g sel s w new j

theorem accounts_launch (w₀ : World n) (sel : Fin n → Bool) (keepGoing : Bool) :
    Accounts g sel w₀ (launch g w₀ sel keepGoing) w₀ := by
  refine ⟨[], rfl, fun j => ⟨fun h => h, fun _ => rfl, ?_, ?_, ?_⟩⟩
  · intro hsel hpend
    simp [launch, hsel] at hpend
  · simp
  · simp

theorem Accounts.step {sel : Fin n → Bool} {w₀ w w' : World n} {s s' : StartWave n}
    (hs : Accounts g sel w₀ s w) (h : Step g w s s' w') : Accounts g sel w₀ s' w' := by
  obtain ⟨new, hnew, hacc⟩ := hs
  cases h with
  | @arm j _ _ _ hturn _ =>
      refine ⟨(w.now, .note j .spawning) :: new, by simp [hnew], fun i => ?_⟩
      exact (hacc i).congr rfl id (by simp) rfl
  | @resume j todo round _ hturn _ _ =>
      refine ⟨(w.now, .note j .resumed) :: new, by simp [hnew], fun i => ?_⟩
      by_cases hij : i = j
      · subst hij
        have hzero := (hacc i).waiting hturn.pending
        simp only [outcomes, Nat.add_eq_zero_iff] at hzero
        refine ⟨fun hp => by simp [resolve] at hp, fun hp => by simp [resolve] at hp,
          fun _ _ => Or.inl (by simp [outcomes, hzero]), ?_, ?_⟩
        · simpa using (hacc i).spawned
        · simp [hzero]
      · have hji : j ≠ i := fun h => hij h.symm
        exact (hacc i).congr (by simp [resolve, hij]) id (by simp [hji]) (by simp [hij])
  | @mark j todo round cfg hturn hspawn =>
      refine ⟨(w.now, .note j .started) :: new, by simp [hnew], fun i => ?_⟩
      by_cases hij : i = j
      · subst hij
        have hzero := (hacc i).waiting hturn.pending
        simp only [outcomes, Nat.add_eq_zero_iff] at hzero
        refine ⟨fun hp => by simp [resolve] at hp, fun hp => by simp [resolve] at hp,
          fun _ _ => Or.inl (by simp [outcomes, hzero]), ?_, ?_⟩
        · have hmine : g.hasSpawn i = false := by simp [Graph.hasSpawn, hturn.cfg, hspawn]
          simpa [hmine] using (hacc i).spawned
        · simp [hzero]
      · have hji : j ≠ i := fun h => hij h.symm
        exact (hacc i).congr (by simp [resolve, hij]) id (by simp [hji]) (by simp [hij])
  | @park j dep todo round cfg hturn _ _ _ =>
      refine ⟨(w.now, .boundPark j) :: new, by simp [hnew], fun i => ?_⟩
      by_cases hij : i = j
      · subst hij
        have hzero := (hacc i).waiting hturn.pending
        simp only [outcomes, Nat.add_eq_zero_iff] at hzero
        refine ⟨fun hp => by simp [resolve] at hp, fun hp => by simp [resolve] at hp,
          fun _ _ => Or.inl (by simp [outcomes, hzero]), ?_, by simp⟩
        simpa using (hacc i).spawned
      · have hji : j ≠ i := fun h => hij h.symm
        exact (hacc i).congr (by simp [resolve, hij]) id (by simp [hji]) (by simp [hij])
  | @fault j todo round cfg kind w₁ hturn hw _ _ _ =>
      have hw₁ : w₁.log = w.log ∧ w₁.now = w.now ∧
          ∀ i, w₁.flag i .boundStopped = w.flag i .boundStopped := by
        rcases hw with rfl | rfl <;> simp [Flag.stale]
      refine ⟨(w.now, .note j (.faulted kind)) :: new, by simp [hnew, hw₁], fun i => ?_⟩
      have herr : s.firstErr.or (some { node := j, kind }) ≠ none := by
        cases s.firstErr <;> simp
      by_cases hij : i = j
      · subst hij
        have hzero := (hacc i).waiting hturn.pending
        have hparts := hzero
        simp only [outcomes, Nat.add_eq_zero_iff] at hparts
        refine ⟨fun hp => by simp [resolve] at hp, fun hp => by simp [resolve] at hp,
          fun _ _ => Or.inr ⟨by simp [outcomes, hparts], herr⟩, ?_, by simp [hparts]⟩
        simpa using (hacc i).spawned
      · exact (hacc i).congr (by simp [resolve, hij]) (fun _ => herr) (by simp)
          (by simp [hw₁])
  | @abort j todo round cfg kind w₁ hturn hw _ _ _ =>
      have hw₁ : w₁.log = w.log ∧ w₁.now = w.now ∧
          ∀ i, w₁.flag i .boundStopped = w.flag i .boundStopped := by
        rcases hw with rfl | rfl <;> simp [Flag.stale]
      refine ⟨(w.now, .note j (.faulted kind)) :: new, by simp [hnew, hw₁], fun i => ?_⟩
      exact (hacc i).congr rfl id (by simp) (by simp [hw₁])
  | @spawn j todo round cfg sp hturn hspawn _ _ =>
      refine ⟨(w.now, .note j .started) :: (w.now, .spawned j) :: new, by simp [hnew],
        fun i => ?_⟩
      by_cases hij : i = j
      · subst hij
        have hzero := (hacc i).waiting hturn.pending
        simp only [outcomes, Nat.add_eq_zero_iff] at hzero
        refine ⟨fun hp => by simp [resolve] at hp, fun hp => by simp [resolve] at hp,
          fun _ _ => Or.inl (by simp [outcomes, hzero]), ?_, by simp [hzero]⟩
        have hmine : g.hasSpawn i = true := by simp [Graph.hasSpawn, hturn.cfg, hspawn]
        simpa [hmine] using (hacc i).spawned
      · have hji : j ≠ i := fun h => hij h.symm
        have hflag : (((w.reset j).launch sp j).started j).flag i .boundStopped =
            w.flag i .boundStopped := by
          simp [World.flag_launch, hij]
        exact (hacc i).congr (by simp [resolve, hij]) id (by simp [hji]) hflag
  | @busy j todo round round' cfg _ hturn _ hw =>
      refine ⟨new, ?_, fun i => (hacc i).congr rfl id (fun _ _ => rfl) ?_⟩
      · rcases hw with rfl | ⟨slot, rfl⟩ <;> simp [hnew]
      · rcases hw with rfl | ⟨slot, rfl⟩ <;> simp [Flag.stale]
  | finish => exact ⟨new, hnew, fun i => (hacc i).congr rfl id (fun _ _ => rfl) rfl⟩
  | turn _ hw =>
      refine ⟨new, ?_, fun i => (hacc i).congr rfl id (fun _ _ => rfl) ?_⟩
      · rcases hw with rfl | rfl <;> exact hnew
      · rcases hw with rfl | rfl <;> rfl

theorem Accounts.event {sel : Fin n → Bool} {w₀ w w' : World n} {s : StartWave n}
    (hs : Accounts g sel w₀ s w) (h : TaskEvent.Effect g w w') : Accounts g sel w₀ s w' := by
  obtain ⟨new, hnew, hacc⟩ := hs
  obtain ⟨later, hlater, hby⟩ := h.log_eq
  refine ⟨later ++ new, by simp [hlater, hnew], fun i => ?_⟩
  refine (hacc i).congr rfl id (fun r hr => tally_append_of_ne fun e he heq => ?_)
    (h.flag_eq i rfl (by decide) (by decide) (by decide))
  obtain ⟨j, hrecord⟩ := hby e he
  rw [heq] at hrecord
  rcases hrecord with rfl | rfl <;> simp at hr

/-! ## Pending spreads upwards -/

/-- The shape of a wave's bookkeeping: pending is closed upwards among the
selected slots, a round that has nobody waiting still has every pending slot
ahead of it, and a finished wave has nothing pending or aborted at a pending
slot. -/
structure Ordered (g : Graph n) (sel : Fin n → Bool) (s : StartWave n) : Prop where
  closed : ∀ j d, sel j = true → d ∈ g.deps j → s.pending d = true → s.pending j = true
  firstErr : s.keepGoing = false → s.firstErr = none
  round : ∀ todo round, s.pc = .visit todo round → round.waiting = false →
    ∀ j, s.pending j = true → j ∈ todo
  done : ∀ r, s.pc = .done r →
    (r = s.firstErr ∧ ∀ j, s.pending j = false) ∨
      (s.keepGoing = false ∧ ∃ f, r = some f ∧ s.pending f.node = true)

theorem ordered_launch (w₀ : World n) (sel : Fin n → Bool) (keepGoing : Bool) :
    Ordered g sel (launch g w₀ sel keepGoing) where
  closed j _ hsel _ _ := hsel
  firstErr _ := rfl
  round todo round hpc _ j _ := by
    simp only [launch, StartPc.visit.injEq] at hpc
    exact hpc.1 ▸ g.mem_order j
  done r hpc := by simp [launch] at hpc

/-- Resolving the slot whose turn it is. -/
private theorem Ordered.resolve {sel : Fin n → Bool} {s : StartWave n} {j : Fin n}
    {todo : List (Fin n)} {round : Round} {cfg : NodeCfg n} (hs : Ordered g sel s)
    (hturn : AtTurn g s j todo round cfg) :
    (∀ i d, sel i = true → d ∈ g.deps i → (s.resolve j todo round).pending d = true →
      (s.resolve j todo round).pending i = true) ∧
    (∀ todo' round', (s.resolve j todo round).pc = .visit todo' round' →
      round'.waiting = false → ∀ i, (s.resolve j todo round).pending i = true → i ∈ todo') ∧
    ∀ r, (s.resolve j todo round).pc ≠ .done r := by
  have hpend : ∀ i, (s.resolve j todo round).pending i = true ↔
      i ≠ j ∧ s.pending i = true := by
    intro i
    by_cases hij : i = j
    · simp [StartWave.resolve, hij]
    · simp [StartWave.resolve, hij]
  refine ⟨fun i d hsel hd hdpend => ?_, fun todo' round' hpc hwait i hi => ?_, ?_⟩
  · have hd' := ((hpend d).mp hdpend).2
    refine (hpend i).mpr ⟨fun hij => ?_, hs.closed i d hsel hd hd'⟩
    subst hij
    simp [hturn.deps d hd] at hd'
  · cases hpc
    obtain ⟨hij, hi⟩ := (hpend i).mp hi
    have hmem := hs.round (j :: todo) round hturn.pc hwait i hi
    exact (List.mem_cons.mp hmem).resolve_left hij
  · simp [StartWave.resolve]

theorem Ordered.step {sel : Fin n → Bool} {w w' : World n} {s s' : StartWave n}
    (hs : Ordered g sel s) (h : Step g w s s' w') : Ordered g sel s' := by
  cases h with
  | arm hturn _ => exact ⟨hs.closed, hs.firstErr, hs.round, hs.done⟩
  | resume hturn | mark hturn | park hturn | spawn hturn =>
      obtain ⟨hclosed, hround, hdone⟩ := hs.resolve hturn
      exact ⟨hclosed, hs.firstErr, hround, fun r hr => absurd hr (hdone r)⟩
  | fault hturn _ _ _ hkeep =>
      obtain ⟨hclosed, hround, hdone⟩ := hs.resolve hturn
      refine ⟨hclosed, fun h => ?_, hround, fun r hr => absurd hr (hdone r)⟩
      rw [show s.keepGoing = false from h] at hkeep
      simp at hkeep
  | abort hturn _ _ _ hkeep =>
      refine ⟨hs.closed, hs.firstErr, fun _ _ h => by simp at h, fun r hr => Or.inr ?_⟩
      exact ⟨hkeep, _, (StartPc.done.inj hr).symm, hturn.pending⟩
  | busy hturn hwait =>
      refine ⟨hs.closed, hs.firstErr, fun todo' round' h hround => ?_, fun r hr => by simp at hr⟩
      cases h
      simp [hwait] at hround
  | finish hpc hwait =>
      refine ⟨hs.closed, hs.firstErr, fun _ _ h => by simp at h, fun r hr => Or.inl ?_⟩
      refine ⟨(StartPc.done.inj hr).symm, fun j => ?_⟩
      cases hj : s.pending j with
      | false => rfl
      | true => simpa using hs.round [] _ hpc hwait j hj
  | turn hturn _ =>
      refine ⟨hs.closed, hs.firstErr, fun todo' round' h hround j hj => ?_, fun r hr => ?_⟩
      · cases hturn with
        | skip hpc hpend =>
            cases h
            have hmem := hs.round _ _ hpc hround j hj
            refine (List.mem_cons.mp hmem).resolve_left fun heq => ?_
            rw [heq, hpend] at hj
            simp at hj
        | defer hwait =>
            cases h
            simp [hwait] at hround
        | again =>
            cases h
            exact g.mem_order j
        | yield | sleep | panic => simp at h
      · cases hturn <;> simp at hr

/-- In a wave that aborted, everything selected above the fault is pending. -/
theorem Ordered.pending_above {sel : Fin n → Bool} {s : StartWave n} (hs : Ordered g sel s)
    {i j : Fin n} (hi : s.pending i = true)
    (hpath : Relation.ReflTransGen (fun a d => sel a = true ∧ d ∈ g.deps a) j i) :
    s.pending j = true := by
  induction hpath using Relation.ReflTransGen.head_induction_on with
  | refl => exact hi
  | head hedge _ ih => exact hs.closed _ _ hedge.1 hedge.2 ih

/-! ## Spawns -/

/-- A step that adds a spawn to the history spawns the slot whose turn it is, and
nothing blocks it. -/
theorem Step.of_spawn {w w' : World n} {s s' : StartWave n} (h : Step g w s s' w')
    {j : Fin n} (hlog : tally w.log (.spawned j) < tally w'.log (.spawned j)) :
    ∃ todo round cfg, AtTurn g s j todo round cfg ∧ g.blockedBy w cfg j = none := by
  cases h with
  | arm | resume | mark | park => simp at hlog
  | fault _ hw | abort _ hw => rcases hw with rfl | rfl <;> simp at hlog
  | @spawn i todo round cfg sp hturn _ hgates _ =>
      by_cases hij : i = j
      · subst hij
        exact ⟨todo, round, cfg, hturn, hgates⟩
      · simp [hij] at hlog
  | busy _ _ hw => rcases hw with rfl | ⟨slot, rfl⟩ <;> simp at hlog
  | finish => simp at hlog
  | turn _ hw => rcases hw with rfl | rfl <;> simp at hlog

/-- A wave brings up pending slots only. -/
theorem Step.of_bringUp {w w' : World n} {s s' : StartWave n} (h : Step g w s s' w')
    {j : Fin n} (hlog : bringUps w.log j < bringUps w'.log j) : s.pending j = true := by
  have about : ∀ (new : List (ℕ × Record n)) {i : Fin n}, s.pending i = true →
      w'.log = new ++ w.log → (∀ r ∈ new, r.2.node = i) → s.pending j = true := by
    intro new i hi hnew hnode
    by_cases hij : j = i
    · exact hij ▸ hi
    · rw [hnew, bringUps_append_of_node fun r hr heq => hij (heq.symm.trans (hnode r hr))] at hlog
      exact absurd hlog (lt_irrefl _)
  have same : w'.log = w.log → s.pending j = true := by
    intro heq
    rw [heq] at hlog
    exact absurd hlog (lt_irrefl _)
  cases h with
  | @arm i _ _ _ hturn =>
      exact about [(w.now, .note i .spawning)] hturn.pending rfl (by simp [Record.node])
  | @resume i _ _ _ hturn =>
      exact about [(w.now, .note i .resumed)] hturn.pending (by simp)
        (by simp [Record.node])
  | @mark i _ _ _ hturn =>
      exact about [(w.now, .note i .started)] hturn.pending rfl (by simp [Record.node])
  | @park i _ _ _ _ hturn =>
      exact about [(w.now, .boundPark i)] hturn.pending rfl (by simp [Record.node])
  | @fault i _ _ _ kind _ hturn hw | @abort i _ _ _ kind _ hturn hw =>
      refine about [(w.now, .note i (.faulted kind))] hturn.pending ?_
        (by simp [Record.node])
      rcases hw with rfl | rfl <;> simp
  | @spawn i _ _ _ _ hturn =>
      exact about [(w.now, .note i .started), (w.now, .spawned i)] hturn.pending
        (by simp) (by simp [Record.node])
  | busy _ _ hw =>
      apply same
      rcases hw with rfl | ⟨slot, rfl⟩ <;> simp
  | finish => exact same rfl
  | turn _ hw =>
      apply same
      rcases hw with rfl | rfl <;> rfl

end StartWave

open StartWave in
/-- **Dependencies start first, once each.** In every run of a start wave among
the tasks, a spawn happens only to a selected node with no pending dependency
and with every gate holding at that instant. A wave that aborts at the first
fault and ends without one has brought up or put off each selected node once;
one that ends with a fault has started neither its node nor any selected node
above it. -/
theorem startWave_dependencies_first (g : Graph n) (w₀ : World n) (sel : Fin n → Bool)
    (keepGoing : Bool) {moves : List (Move n)} {s : StartWave n} {w : World n}
    (hrun : exec (among g (step g)) (launch g w₀ sel keepGoing, w₀) moves = some (s, w)) :
    (∀ s' w' j, step g w s = some (s', w') →
      tally w.log (.spawned j) < tally w'.log (.spawned j) →
        sel j = true ∧ (∀ d ∈ g.deps j, s.pending d = false) ∧
          ∃ cfg, g.nodes j = some cfg ∧ GatesHold w cfg j) ∧
    (keepGoing = false → ∃ new, w.log = new ++ w₀.log ∧
      (s.pc = .done none → ∀ j, sel j = true →
        outcomes new j = 1 ∧
        tally new (.spawned j) = (if g.hasSpawn j then tally new (.note j .started) else 0) ∧
        (0 < tally new (.boundPark j) → w.flag j .boundStopped = true)) ∧
      (∀ f, s.pc = .done (some f) → sel f.node = true ∧
        ∀ j, Relation.ReflTransGen (fun a d => sel a = true ∧ d ∈ g.deps a) j f.node →
          outcomes new j = 0 ∧ tally new (.spawned j) = 0)) := by
  have hordered : Ordered g sel s := among_invariant (I := fun s _ => Ordered g sel s)
    (fun _ _ _ _ hs hstep => hs.step (step_cases hstep)) (fun _ _ _ hs _ => hs)
    (ordered_launch w₀ sel keepGoing) hrun
  have haccounts : Accounts g sel w₀ s w := among_invariant
    (fun _ _ _ _ hs hstep => hs.step (step_cases hstep)) (fun _ _ _ hs he => hs.event he)
    (accounts_launch w₀ sel keepGoing) hrun
  have hkeep : s.keepGoing = keepGoing := by
    refine among_invariant (I := fun t _ => t.keepGoing = keepGoing) ?_ ?_ rfl hrun
    · intro t u t' u' ht hstep
      exact (step_cases hstep).static.1.trans ht
    · intro t u u' ht _
      exact ht
  obtain ⟨new, hnew, hacc⟩ := haccounts
  refine ⟨fun s' w' j hstep hlog => ?_, fun hfalse => ⟨new, hnew, ?_, ?_⟩⟩
  · obtain ⟨todo, round, cfg, hturn, hgates⟩ := (step_cases hstep).of_spawn hlog
    exact ⟨(hacc j).selected hturn.pending, hturn.deps, cfg, hturn.cfg,
      gatesHold_of_blockedBy hturn.cfg hgates⟩
  · intro hdone j hj
    have herr := hordered.firstErr (hkeep.trans hfalse)
    have hpend : s.pending j = false := by
      rcases hordered.done none hdone with ⟨_, hall⟩ | ⟨_, f, hf, _⟩
      · exact hall j
      · simp at hf
    refine ⟨?_, (hacc j).spawned, (hacc j).parked⟩
    rcases (hacc j).settled hj hpend with hone | ⟨_, hfault⟩
    · exact hone
    · exact absurd herr hfault
  · intro f hdone
    have herr := hordered.firstErr (hkeep.trans hfalse)
    have hpend : s.pending f.node = true := by
      rcases hordered.done _ hdone with ⟨hf, _⟩ | ⟨_, f', hf, hpend⟩
      · simp [herr] at hf
      · rwa [← Option.some.inj hf] at hpend
    refine ⟨(hacc f.node).selected hpend, fun j hpath => ?_⟩
    have hout := (hacc j).waiting (hordered.pending_above hpend hpath)
    refine ⟨hout, ?_⟩
    simp only [outcomes, Nat.add_eq_zero_iff] at hout
    simp [(hacc j).spawned, hout]

/-- From rest: the link starts, the client waits for its readiness and starts. -/
def clientAndLinkBoot : Option (StartWave 2 × World 2) :=
  exec (among clientAndLink (StartWave.step clientAndLink))
    (StartWave.launch clientAndLink { node := fun _ => {} } (fun _ => true) false,
      { node := fun _ => {} })
    (List.replicate 8 .own ++ [.event (.setReady 0)] ++ List.replicate 4 .own)

theorem startWave_dependencies_first_clientAndLink :
    ∃ new, (clientAndLinkBoot.get rfl).2.log = new ++ [] ∧ outcomes new 1 = 1 ∧
      tally new (.spawned 1) = tally new (.note 1 .started) := by
  have hrun : clientAndLinkBoot.isSome = true := rfl
  obtain ⟨new, hnew, hok, _⟩ := (startWave_dependencies_first clientAndLink
    { node := fun _ => {} } (fun _ => true) false (Option.some_get hrun).symm).2 rfl
  obtain ⟨hone, hspawned, _⟩ := hok rfl 1 rfl
  exact ⟨new, hnew, hone, hspawned⟩

end EmbassySupervisor
