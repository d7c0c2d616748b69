/-
# What the shape bits fold away

The code behind a bit looks at structures that no node has where the bit is unset, so it may
as well run: `full` is the graph with every bit set, and a call does on it what it does on the
graph as it is, from states that are the same.

There are two exceptions. Without the bit of the pools nobody posts a scale request on a verb's
behalf, so the states are the same but for a request that no driver reads. Without the bit of
the bound dependencies `apply_bind` returns at once, where it goes through an idle wave and finds
no node to bring up.
-/

import EmbassySupervisor.Verb.ScaleBlind

namespace EmbassySupervisor

variable {n : ℕ}

namespace Graph

variable (g : Graph n)

/-- The graph with every bit set. -/
def full : Graph n :=
  { g with
    shape := fun _ => true
    shape_sound := fun _ cfg _ => cfg.fitsShape_all
    pools_sound := fun h => by cases h }

variable {g} {w : World n} {cfg : NodeCfg n} {j : Fin n}

theorem has_full (bit : Shape) : g.full.has bit = true := rfl

/-! ## Nodes -/

theorem unset {bit : Shape} (h : ¬g.has bit = true) : g.shape bit = false :=
  (Bool.not_eq_true _).mp h

theorem blockedBy_full (hcfg : g.nodes j = some cfg) :
    g.full.blockedBy w cfg j = g.blockedBy w cfg j := by
  have hfits := g.shape_sound j cfg hcfg
  have hexec : (g.full.has .execSlots && !w.slotFilled cfg) =
      (g.has .execSlots && !w.slotFilled cfg) := by
    by_cases hbit : g.has .execSlots = true
    · rw [hbit, has_full]
    · simp [World.slotFilled, hfits.execSlots (unset hbit)]
  have hres : (g.full.has .resources && !w.gatesFilled cfg) =
      (g.has .resources && !w.gatesFilled cfg) := by
    by_cases hbit : g.has .resources = true
    · rw [hbit, has_full]
    · simp [World.gatesFilled, hfits.resources (unset hbit)]
  have hready : (if g.full.has .readyDeps then cfg.readyDeps.find? fun d => !w.flag d .ready
      else none) =
        if g.has .readyDeps then cfg.readyDeps.find? fun d => !w.flag d .ready else none := by
    by_cases hbit : g.has .readyDeps = true
    · rw [hbit, has_full]
    · simp [hfits.readyDeps (unset hbit)]
  rw [blockedBy, blockedBy, hexec, hres, hready]

theorem ite_nil {α : Type} {b : Bool} {l : List α} (h : b = false → l = []) :
    (if b then l else []) = l := by
  cases b with
  | true => rfl
  | false => rw [h rfl, if_neg Bool.false_ne_true]

theorem gatesOf_eq (hcfg : g.nodes j = some cfg) : g.gatesOf cfg =
    cfg.spawnSlot.toList.map .exec ++ cfg.resourceGates.map .resource ++
      cfg.readyDeps.map .ready := by
  have hfits := g.shape_sound j cfg hcfg
  rw [gatesOf, ite_nil fun h => by rw [hfits.execSlots h]; rfl,
    ite_nil fun h => by rw [hfits.resources h]; rfl,
    ite_nil fun h => by rw [hfits.readyDeps h]; rfl]

theorem gatesOf_full (hcfg : g.nodes j = some cfg) : g.full.gatesOf cfg = g.gatesOf cfg := by
  have hcfg' : g.full.nodes j = some cfg := hcfg
  rw [gatesOf_eq hcfg, gatesOf_eq hcfg']

theorem missAck_full (hcfg : g.nodes j = some cfg) :
    w.missAck g.full cfg j = w.missAck g cfg j := by
  have hclaims : (if g.full.has .claims then w.releaseClaims cfg j else w) =
      if g.has .claims then w.releaseClaims cfg j else w := by
    by_cases hbit : g.has .claims = true
    · rw [hbit, has_full]
    · simp [World.releaseClaims, (g.shape_sound j cfg hcfg).claims (unset hbit)]
  rw [World.missAck, World.missAck, hclaims]

theorem deferred_full (hcfg : g.nodes j = some cfg) : g.full.deferred cfg = g.deferred cfg := by
  rw [deferred, deferred]
  by_cases hbit : g.has .onDemand = true
  · rw [hbit, has_full]
  · have hmode := (g.shape_sound j cfg hcfg).onDemand (unset hbit)
    rw [beq_eq_false_iff_ne.mpr hmode, Bool.and_false, Bool.and_false]

/-- Whether a parked instance may be resumed in place. -/
theorem pauses_full (hcfg : g.nodes j = some cfg) (b : Bool) :
    (g.full.has .pause && cfg.mode == .pause && b) = (g.has .pause && cfg.mode == .pause && b) := by
  by_cases hbit : g.has .pause = true
  · rw [hbit, has_full]
  · have hmode := (g.shape_sound j cfg hcfg).pause (unset hbit)
    rw [beq_eq_false_iff_ne.mpr hmode, Bool.and_false, Bool.and_false]

theorem seed_full (target : Fin n) : g.full.seed target = g.seed target := by
  funext j
  rw [seed, seed]
  by_cases hbit : g.has .pools = true
  · rw [hbit, has_full]
    rfl
  · have hnone : g.pools = [] := g.pools_sound (unset hbit)
    simp [full, occupied, hnone]

/-- Nodes of another mode are not resumed. -/
theorem resumable_of_not_pause (h : ¬g.has .pause = true) (hcfg : g.nodes j = some cfg) :
    w.resumable cfg j = false := by
  simp [World.resumable, (g.shape_sound j cfg hcfg).pause (unset h)]

theorem none_resumable (h : ¬g.has .pause = true) (j : Fin n) :
    ((g.nodes j).any fun cfg => w.resumable cfg j) = false := by
  cases hcfg : g.nodes j with
  | none => rfl
  | some cfg => exact resumable_of_not_pause h hcfg

theorem resumeAll_of_not_pause (h : ¬g.has .pause = true) (js : List (Fin n)) :
    g.resumeAll w js = w := by
  rw [resumeAll]
  induction js with
  | nil => rfl
  | cons j js ih => rw [List.foldl_cons, none_resumable h, if_neg Bool.false_ne_true, ih]

end Graph

/-! ## Waves -/

section Waves

variable {g : Graph n} {w : World n}

open Graph

theorem StopWave.step_full (s : StopWave n) : s.step g.full w = s.step g w := by
  cases hpc : s.pc with
  | expire todo nowMs deadline progress =>
      cases todo with
      | nil =>
          simp only [StopWave.step, hpc]
          rfl
      | cons j todo =>
          simp only [StopWave.step, hpc, StopWave.expireVisit]
          cases hcfg : g.nodes j with
          | none =>
              have hcfg' : g.full.nodes j = none := hcfg
              simp only [hcfg']
          | some cfg =>
              have hcfg' : g.full.nodes j = some cfg := hcfg
              simp only [hcfg', missAck_full hcfg]
              rfl
  | signal todo =>
      simp only [StopWave.step, hpc]
      cases todo <;> rfl
  | collect todo progress =>
      simp only [StopWave.step, hpc]
      cases todo <;> rfl
  | sleep d =>
      simp only [StopWave.step, hpc]
      rfl
  | panic | done => simp only [StopWave.step, hpc]

theorem StartWave.bringUp_full (s : StartWave n) {cfg : NodeCfg n} {j : Fin n}
    (hcfg : g.nodes j = some cfg) (todo : List (Fin n)) (round : Round) :
    s.bringUp g.full w cfg j todo round = s.bringUp g w cfg j todo round := by
  rw [StartWave.bringUp, StartWave.bringUp, blockedBy_full hcfg]
  rfl

theorem StartWave.visit_full (s : StartWave n) (j : Fin n) (todo : List (Fin n)) (round : Round) :
    s.visit g.full w j todo round = s.visit g w j todo round := by
  rw [StartWave.visit, StartWave.visit]
  cases hcfg : g.nodes j with
  | none =>
      have hcfg' : g.full.nodes j = none := hcfg
      simp only [hcfg']
  | some cfg =>
      have hcfg' : g.full.nodes j = some cfg := hcfg
      simp only [hcfg', bringUp_full s hcfg, pauses_full hcfg]
      rfl

theorem StartWave.step_full (s : StartWave n) : s.step g.full w = s.step g w := by
  cases hpc : s.pc with
  | visit todo round =>
      cases todo with
      | nil =>
          simp only [StartWave.step, hpc]
          rfl
      | cons j todo => simp only [StartWave.step, hpc, StartWave.visit_full]
  | yield =>
      simp only [StartWave.step, hpc]
      rfl
  | sleep =>
      simp only [StartWave.step, hpc]
      rfl
  | panic | done => simp only [StartWave.step, hpc]

theorem Graph.startNode_full (j : Fin n) : g.full.startNode w j = g.startNode w j := by
  rw [Graph.startNode, Graph.startNode]
  cases hcfg : g.nodes j with
  | none =>
      have hcfg' : g.full.nodes j = none := hcfg
      simp only [hcfg']
  | some cfg =>
      have hcfg' : g.full.nodes j = some cfg := hcfg
      simp only [hcfg', gatesOf_full hcfg]

theorem World.stopNodeStep_full {cfg : NodeCfg n} {j : Fin n} (hcfg : g.nodes j = some cfg)
    (deadline : ℕ) : w.stopNodeStep g.full cfg j deadline = w.stopNodeStep g cfg j deadline := by
  rw [World.stopNodeStep, World.stopNodeStep, missAck_full hcfg]

/-- A selection that treats the occupied slots the same. -/
theorem Graph.startNodes_full {select select' : Fin n → NodeCfg n → TaskHandle → Bool}
    (h : ∀ j cfg, g.nodes j = some cfg → ∀ t, select' j cfg t = select j cfg t) (keepGoing : Bool) :
    g.full.startNodes w select' keepGoing = g.startNodes w select keepGoing := by
  have hpending : (fun j => (g.full.nodes j).any fun cfg => select' j cfg (w.node j)) =
      fun j => (g.nodes j).any fun cfg => select j cfg (w.node j) := by
    funext j
    show ((g.nodes j).any fun cfg => select' j cfg (w.node j)) = _
    cases hcfg : g.nodes j with
    | none => rfl
    | some cfg => exact h j cfg hcfg (w.node j)
  rw [Graph.startNodes, Graph.startNodes, hpending]
  rfl

end Waves

/-! ## Front halves -/

section Front

variable {g : Graph n} {w : World n}

open Graph

theorem Graph.begin_full {v : Verb n} (hbound : v = .applyBind → g.has .boundDeps = true) :
    g.full.begin w v = g.begin w v := by
  cases v with
  | start enabled =>
      refine Prod.ext (congrArg (Call.starting · false) ?_) rfl
      exact startNodes_full (fun j cfg hcfg t => by rw [deferred_full hcfg]) false
  | startNode j =>
      simp only [Graph.begin, startNode_full]
  | stopNode | teardown | teardownContinue | respawnTerminate => rfl
  | resumeNode j =>
      simp only [Graph.begin, has_full, Bool.true_and]
      by_cases hbit : g.has .pause = true
      · rw [hbit, Bool.true_and]
        rfl
      · rw [none_resumable hbit, Bool.and_false]
        exact if_neg (by rw [show g.full.nodes j = g.nodes j from rfl, none_resumable hbit]; simp)
  | resumePausable =>
      simp only [Graph.begin, has_full, if_true]
      by_cases hbit : g.has .pause = true
      · rw [if_pos hbit]
        rfl
      · rw [if_neg hbit]
        exact Prod.ext rfl (resumeAll_of_not_pause hbit g.order)
  | deactivate target =>
      simp only [Graph.begin, seed_full]
      rfl
  | activate target =>
      simp only [Graph.begin, seed_full]
      refine Prod.ext (congrArg (Call.starting · true) ?_) rfl
      exact startNodes_full (fun j cfg hcfg t => by rw [deferred_full hcfg]; rfl) true
  | restart target =>
      simp only [Graph.begin, seed_full]
      rfl
  | applyBind =>
      simp only [Graph.begin, has_full, hbound rfl, if_true]
      rfl
  | scale pool action =>
      simp only [Graph.begin, startNode_full]
      rfl

end Front

/-! ## Calls -/

/-- The same state, but for a scale request where no pool is there to read it. -/
def Graph.SameWorld (g : Graph n) (w w' : World n) : Prop :=
  w' = w ∨ g.has .pools = false ∧ ∃ req, w' = w.withReq req

/-- The same result next to the same state. -/
def Graph.SameStep (g : Graph n) (p q : Call n × World n) : Prop :=
  q.1 = p.1 ∧ g.SameWorld p.2 q.2

section Calls

variable {g : Graph n} {w w' : World n}

open Graph

theorem Graph.SameWorld.refl (w : World n) : g.SameWorld w w := .inl rfl

theorem Graph.SameStep.refl (p : Call n × World n) : g.SameStep p p := ⟨rfl, .inl rfl⟩

theorem sameStep_refl (x : Option (Call n × World n)) : Option.Rel g.SameStep x x := by
  cases x with
  | none => exact .none
  | some p => exact .some (.refl p)

/-- A request is posted on either graph, or there is no pool. -/
theorem sameWorld_request (poke : Bool) (w : World n) :
    g.SameWorld (if poke && g.has .pools then w.requestScale else w)
      (if poke && g.full.has .pools then w.requestScale else w) := by
  rw [has_full]
  cases hbit : g.has .pools with
  | true => exact .refl _
  | false =>
      refine .inr ⟨hbit, ?_⟩
      cases poke with
      | true => exact ⟨true, rfl⟩
      | false => exact ⟨w.scaleReq, rfl⟩

theorem Graph.bindVisit_full (j : Fin n) (todo : List (Fin n)) :
    g.SameStep (g.bindVisit w j todo) (g.full.bindVisit w j todo) := by
  rw [Graph.bindVisit, Graph.bindVisit]
  cases hcfg : g.nodes j with
  | none =>
      have hcfg' : g.full.nodes j = none := hcfg
      simp only [hcfg']
      exact .refl _
  | some cfg =>
      have hcfg' : g.full.nodes j = some cfg := hcfg
      simp only [hcfg', startNode_full]
      split
      · cases hmode : cfg.mode with
        | terminate => exact .refl _
        | pause =>
            have hbit : g.has .pause = true := by
              by_contra h
              exact (g.shape_sound j cfg hcfg).pause (unset h) hmode
            simp only [hbit, has_full]
            exact .refl _
        | onDemand =>
            refine ⟨rfl, ?_⟩
            have h := sameWorld_request (g := g) true (w.putFlag j .boundStopped false)
            simpa using h
      · exact .refl _

/-- **A step of a call does on the full graph what it does on the graph.** -/
theorem Call.step_full (c : Call n) :
    Option.Rel g.SameStep (c.step g w) (c.step g.full w) := by
  cases c with
  | stopping wave next =>
      cases hpc : wave.pc with
      | done r =>
          simp only [Call.step, hpc]
          cases r with
          | some f => exact sameStep_refl _
          | none =>
              cases next with
              | ret | bind => exact sameStep_refl _
              | restart set =>
                  refine .some ⟨congrArg (Call.starting · true) ?_, .refl w⟩
                  exact startNodes_full (fun j cfg hcfg t => by rw [deferred_full hcfg]) false
      | panic =>
          simp only [Call.step, hpc]
          exact sameStep_refl _
      | signal | collect | expire | sleep =>
          simp only [Call.step, hpc, StopWave.step_full]
          exact sameStep_refl _
  | starting wave poke =>
      cases hpc : wave.pc with
      | done r =>
          simp only [Call.step, hpc]
          exact .some ⟨rfl, sameWorld_request poke w⟩
      | panic =>
          simp only [Call.step, hpc]
          exact sameStep_refl _
      | visit | yield | sleep =>
          simp only [Call.step, hpc, StartWave.step_full]
          exact sameStep_refl _
  | startNode j phase next => exact sameStep_refl _
  | stopNode j deadline =>
      simp only [Call.step]
      cases hcfg : g.nodes j with
      | none =>
          have hcfg' : g.full.nodes j = none := hcfg
          rw [hcfg']
          exact .none
      | some cfg =>
          have hcfg' : g.full.nodes j = some cfg := hcfg
          simp only [hcfg', Option.bind_eq_bind, Option.bind_some, World.stopNodeStep_full hcfg]
          exact sameStep_refl _
  | bindUp todo =>
      cases todo with
      | nil => exact sameStep_refl _
      | cons j todo => exact .some (bindVisit_full j todo)
  | done | panic | cancelled => exact .none

theorem relTrans {α : Type} {r s t : α → α → Prop} {x y z : Option α} (hxy : Option.Rel r x y)
    (hyz : Option.Rel s y z) (h : ∀ a b c, r a b → s b c → t a c) : Option.Rel t x z := by
  cases hxy with
  | none =>
      cases hyz with
      | none => exact .none
  | some hab =>
      cases hyz with
      | some hbc => exact .some (h _ _ _ hab hbc)

theorem rel_some {α β : Type} {r : α → β → Prop} {a : α} {y : Option β}
    (h : Option.Rel r (some a) y) : ∃ b, y = some b ∧ r a b := by
  cases h with
  | some hab => exact ⟨_, rfl, hab⟩

theorem rel_none {α β : Type} {r : α → β → Prop} {y : Option β} (h : Option.Rel r none y) :
    y = none := by
  cases h with
  | none => rfl

/-- The same from states that are the same. -/
theorem Graph.SameWorld.step (h : g.SameWorld w w') (c : Call n) :
    Option.Rel g.SameStep (c.step g w) (c.step g.full w') := by
  rcases h with rfl | ⟨hbit, req, rfl⟩
  · exact Call.step_full c
  · have hblind : Option.Rel SameCall (c.step g.full w) (c.step g.full (w.withReq req)) :=
      c.step_withReq
    refine relTrans (Call.step_full c) hblind fun p q r hpq hqr => ?_
    obtain ⟨hcall, hworld⟩ := hpq
    obtain ⟨hcall', req', hworld'⟩ := hqr
    refine ⟨hcall'.trans hcall, .inr ⟨hbit, req', ?_⟩⟩
    rcases hworld with heq | ⟨-, req'', heq⟩
    · rw [hworld', heq]
    · rw [hworld', heq]
      rfl

/-- The front half of a verb does the same on either graph, `apply_bind` on a graph without bound
dependencies apart. -/
theorem Graph.SameWorld.begin (h : g.SameWorld w w') {v : Verb n}
    (hbound : v = .applyBind → g.has .boundDeps = true) :
    g.SameStep (g.begin w v) (g.full.begin w' v) := by
  rw [Graph.begin_full hbound]
  rcases h with rfl | ⟨hbit, req, rfl⟩
  · exact .refl _
  · rw [Graph.begin_shift]
    exact ⟨rfl, .inr ⟨hbit, req, rfl⟩⟩

end Calls

end EmbassySupervisor
