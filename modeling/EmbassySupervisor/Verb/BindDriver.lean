/-
# The bind driver misses nothing

`run_binds` waits for the bind request, takes it, applies it, and waits again. Anything may
happen while it applies one: what posts the request meanwhile is seen in the next round.

So a driver that waits with no request pending leaves no client running on a provider that
does not serve, and none down whose providers all serve (`parked_serves`), as long as the
steps that post no request do their share: they take no node down and bring no client up
before its providers, lift no hold of a node that is down for one and attach none. Those are
the ways round `BIND_REQ`; `stranded_unseen` is one of them, a client that is started by
hand on a link that has exited but is still marked ready.
-/

import EmbassySupervisor.Verb.BindRequest
import EmbassySupervisor.Verb.Serving

namespace EmbassySupervisor

open LabelledRun

variable {n : ℕ}

/-- Where the driver is: in `wait_bind`, in the `apply_bind` at an index of the calls, or
returned. -/
inductive Binder (n : ℕ)
  | parked
  | applying (i : ℕ)
  | ended (f : NodeFault n)

/-- The system with its bind driver. -/
structure BindSys (n : ℕ) where
  sys : Sys n
  driver : Binder n := .parked

namespace BindSys

inductive Label (n : ℕ)
  | sys (l : EmbassySupervisor.Label n)
  | drive

variable (g : Graph n)

def world (s : BindSys n) : World n := s.sys.world

/-- The label drops the driver's own call. -/
def drops (s : BindSys n) : EmbassySupervisor.Label n → Bool
  | .cancel k =>
    match s.driver with
    | .applying i => i == k
    | .parked | .ended _ => false
  | .begin _ | .advance _ | .task _ | .setDisabled _ _ => false

/-- The driver is polled. -/
def drive (s : BindSys n) : Option (BindSys n) :=
  match s.driver with
  | .parked =>
    if s.world.bindReq then
      let (c, w) := g.begin { s.world with bindReq := false } .applyBind
      some { sys := { world := w, calls := s.sys.calls ++ [c] }
             driver := .applying s.sys.calls.length }
    else none
  | .applying i =>
    match s.sys.calls[i]? with
    | some (.done none) => some { s with driver := .parked }
    | some (.done (some f)) => some { s with driver := .ended f }
    | _ => none
  | .ended _ => none

def next (s : BindSys n) : Label n → Option (BindSys n)
  | .sys l => if s.drops l then none else (s.sys.next g l).map fun sys => { s with sys }
  | .drive => if s.sys.resting then s.drive g else none

/-! ## The conditions on a run -/

/-- What a step that posts no request must not do behind the driver's back. -/
structure Quiet (w w' : World n) : Prop where
  keeps : ∀ j, w.flag j .running = true → w'.flag j .running = true
  serves : ∀ d, w.isServing d = true → w'.isServing d = true
  raised : ∀ j, w'.flag j .running = true → w.flag j .running = true ∨
    ∀ d ∈ g.boundDepsOf j, w'.isServing d = true
  attaches : ∀ j, w.flag j .detached = true → w'.flag j .detached = true
  enables : ∀ j, w.flag j .boundStopped = true → w.flag j .disabled = true →
    w'.flag j .disabled = true
  frees : ∀ j, w.flag j .boundStopped = true → w.flag j .collateral = true →
    w'.flag j .collateral = true
  parks : ∀ j, Records w w' (.boundPark j) → ∃ d ∈ g.boundDepsOf j, w'.isServing d = false

/-- The node the second phase of an `apply_bind` is bringing up, or about to turn to. -/
def turnsTo : Call n → Option (Fin n)
  | .bindUp (j :: _) => some j
  | .startNode j _ (.bind _) => some j
  | .bindUp [] | .startNode _ _ .ret | .startNode _ _ .ignore | .stopping _ _ | .starting _ _
  | .stopNode _ _ | .done _ | .panic | .cancelled => none

/-- The step carries on the driver's `apply_bind`, in its second phase at the node. -/
def binding (s : BindSys n) : Label n → Option (Fin n)
  | .sys (.advance k) =>
    match s.driver with
    | .applying i => if i = k then (s.sys.calls[k]?).bind turnsTo else none
    | .parked | .ended _ => none
  | .sys (.begin _) | .sys (.task _) | .sys (.setDisabled _ _) | .sys (.cancel _) | .drive => none

/-- What follows a step posts the request, or the step is quiet and reports no fault of a
node the driver brings up. -/
def Sound (s : BindSys n) (l : Label n) (t : BindSys n) : Prop :=
  t.world.bindReq = true ∨ (Quiet g s.world t.world ∧
    ((s.binding l).isSome → ∀ e ∈ s.world.added t.world, e.2.fault = none))

/-- The driver takes requests at any time; every other step is sound. -/
def Regular (s : BindSys n) (l : Label n) : Prop := l = .drive ∨ ∀ t ∈ s.next g l, Sound g s l t

/-! ## What is left to do -/

/-- Neither stranded nor restorable. -/
def Clean (w : World n) : Prop := ∀ j, ¬ w.Stranded g j ∧ ¬ w.Restorable g j

/-- The call is going to fail, and the driver with it. -/
def fails : Call n → Bool
  | .stopping s _ =>
    match s.pc with
    | .done (some _) | .panic => true
    | .done none | .signal _ | .collect _ _ | .expire _ _ _ _ | .sleep _ => false
  | .done (some _) | .panic => true
  | .done none | .starting _ _ | .startNode _ _ _ | .stopNode _ _ | .bindUp _
  | .cancelled => false

/-- The nodes an `apply_bind` has still to stop. -/
def stops : Call n → Fin n → Prop
  | .stopping s .bind, j => s.unresolved j = true
  | .stopping _ .ret, _ | .stopping _ (.restart _), _ | .starting _ _, _ | .startNode _ _ _, _
  | .stopNode _ _, _ | .bindUp _, _ | .done _, _ | .panic, _ | .cancelled, _ => False

/-- The nodes it has still to turn to. -/
def turns : Call n → Fin n → Prop
  | .stopping _ .bind, _ => True
  | .bindUp todo, j => j ∈ todo
  | .startNode i _ (.bind todo), j => j = i ∨ j ∈ todo
  | .stopping _ .ret, _ | .stopping _ (.restart _), _ | .starting _ _, _
  | .startNode _ _ .ret, _ | .startNode _ _ .ignore, _
  | .stopNode _ _, _ | .done _, _ | .panic, _ | .cancelled, _ => False

/-- The call still has to do with whatever is stranded or restorable, or a request is
posted. -/
def Covers (c : Call n) (w : World n) : Prop :=
  fails c = true ∨ w.bindReq = true ∨
    ∀ j, (w.Stranded g j → stops c j) ∧ (w.Restorable g j → turns c j)

/-- The states of an `apply_bind`. -/
inductive Applies : Call n → Prop
  | stopping {s : StopWave n} (hkeep : s.keepGoing = false) (herr : s.firstErr = none)
      (hdone : s.pc = .done none → s.allResolved = true) : Applies (.stopping s .bind)
  | bindUp (todo : List (Fin n)) : Applies (.bindUp todo)
  | startNode (j : Fin n) (phase : StartPhase n) (todo : List (Fin n)) :
      Applies (.startNode j phase (.bind todo))
  | done (r : Outcome n) : Applies (.done r)
  | panic : Applies .panic

variable {g} {w w' : World n} {c c' : Call n}

/-! ## Quiet steps -/

theorem quiet_iff : Quiet g w w' ↔ ∀ j,
    (w.flag j .running = true → w'.flag j .running = true) ∧
    (w.isServing j = true → w'.isServing j = true) ∧
    (w'.flag j .running = true → w.flag j .running = true ∨
      (g.boundDepsOf j).all w'.isServing = true) ∧
    (w.flag j .detached = true → w'.flag j .detached = true) ∧
    (w.flag j .boundStopped = true → w.flag j .disabled = true → w'.flag j .disabled = true) ∧
    (w.flag j .boundStopped = true → w.flag j .collateral = true →
      w'.flag j .collateral = true) ∧
    (Records w w' (.boundPark j) → (g.boundDepsOf j).all w'.isServing = false) := by
  simp only [List.all_eq_true, List.all_eq_false, Bool.not_eq_true]
  constructor
  · intro h j
    exact ⟨h.keeps j, h.serves j, h.raised j, h.attaches j, h.enables j, h.frees j, h.parks j⟩
  · intro h
    exact ⟨fun j => (h j).1, fun j => (h j).2.1, fun j => (h j).2.2.1, fun j => (h j).2.2.2.1,
      fun j => (h j).2.2.2.2.1, fun j => (h j).2.2.2.2.2.1, fun j => (h j).2.2.2.2.2.2⟩

instance (w w' : World n) : Decidable (Quiet g w w') := decidable_of_iff' _ quiet_iff

instance (s : BindSys n) (l : Label n) (t : BindSys n) : Decidable (Sound g s l t) :=
  inferInstanceAs (Decidable (_ ∨ _))

instance (s : BindSys n) : (l : Label n) → Decidable (Regular g s l)
  | .drive => isTrue (Or.inl rfl)
  | .sys l => decidable_of_iff (∀ t ∈ s.next g (.sys l), Sound g s (.sys l) t) (by simp [Regular])

/-- A quiet step strands nobody. -/
theorem Quiet.stranded (h : Quiet g w w') {j : Fin n} (hj : w'.Stranded g j) :
    w.Stranded g j := by
  obtain ⟨⟨hrunning, hloose⟩, d, hd, hserving⟩ := hj
  refine ⟨⟨?_, ?_⟩, d, hd, ?_⟩
  · apply (h.raised j hrunning).resolve_right
    intro hall
    simp [hall d hd] at hserving
  · by_contra hdetached
    have hkept := h.attaches j (by simpa using hdetached)
    simp [hloose] at hkept
  · by_contra hserves
    have hkept := h.serves d (by simpa using hserves)
    simp [hserving] at hkept

/-- A quiet step that posts no request makes nobody restorable. -/
theorem Quiet.restorable (h : Quiet g w w') (hposts : w.Posts w') (hreq : w'.bindReq = false)
    {j : Fin n} (hj : w'.Restorable g j) : w.Restorable g j := by
  obtain ⟨hocc, hmarked, henabled, hfree, hloose, hdown, hserving⟩ := restorable_iff.mp hj
  have hwas : w.flag j .boundStopped = true := by
    rcases hposts.marked j hmarked with hold | hrunning | hpark
    · exact hold
    · simp [hdown] at hrunning
    · obtain ⟨d, hd, hnot⟩ := h.parks j hpark
      simp [hserving d hd] at hnot
  have hrise := hposts.serving.resolve_left (by simp [hreq])
  refine restorable_iff.mpr ⟨hocc, hwas, ?_, ?_, ?_, ?_, fun d hd => hrise d (hserving d hd)⟩
  · by_contra hheld
    have hkept := h.enables j hwas (by simpa using hheld)
    simp [henabled] at hkept
  · by_contra hheld
    have hkept := h.frees j hwas (by simpa using hheld)
    simp [hfree] at hkept
  · by_contra hdetached
    have hkept := h.attaches j (by simpa using hdetached)
    simp [hloose] at hkept
  · by_contra hrunning
    have hkept := h.keeps j (by simpa using hrunning)
    simp [hdown] at hkept

/-- What a step of somebody else leaves to do is what there was. -/
theorem Covers.other (hc : Covers g c w) (hposts : w.Posts w')
    (hlatch : w.bindReq = true → w'.bindReq = true)
    (hquiet : w'.bindReq = true ∨ Quiet g w w') : Covers g c w' := by
  rcases hc with hfails | hreq | hall
  · exact Or.inl hfails
  · exact Or.inr (Or.inl (hlatch hreq))
  · by_cases hreq : w'.bindReq = true
    · exact Or.inr (Or.inl hreq)
    · have hstep := hquiet.resolve_left hreq
      refine Or.inr (Or.inr fun j => ⟨fun hj => (hall j).1 (hstep.stranded hj), fun hj => ?_⟩)
      exact (hall j).2 (hstep.restorable hposts (by simpa using hreq) hj)

/-! ## The driver's own steps -/

theorem Applies.step (hc : Applies c) (h : c.step g w = some (c', w')) : Applies c' := by
  have proceeds : ∀ {j : Fin n} {todo : List (Fin n)} (e : StartEnd n),
      Applies ((AfterStart.bind todo).proceed j e) := by
    intro j todo e
    cases e with
    | wait phase => exact .startNode j phase todo
    | done r => exact .bindUp todo
  have hstep := Call.step_cases h
  cases hc with
  | @stopping s hkeep herr hdone =>
      cases hstep with
      | stopWave h =>
          refine .stopping (h.static.2.1.trans hkeep) ?_ ?_
          · cases h with
            | giveUp _ _ _ _ _ hgo => simp [hkeep] at hgo
            | signal | skip | collect | passOver | abort | finish | examine | turn => exact herr
          · cases h with
            | finish _ hall => exact fun _ => hall
            | turn _ hturn =>
                intro hpc
                cases hturn <;> simp at hpc
            | signal | skip | collect | passOver | giveUp | abort | examine =>
                intro hpc
                simp at hpc
      | stopFault => exact .done _
      | bindPhase => exact .bindUp _
      | stopPanic => exact .panic
  | bindUp todo =>
      cases hstep with
      | bindEnd => exact .done _
      | bindSkip | bindResume | bindUnmark => exact .bindUp _
      | bindStart => exact proceeds _
  | startNode j phase todo =>
      cases hstep with
      | startNode => exact proceeds _
  | done | panic => simp [Call.step] at h

/-- The second phase leaves no node restorable that it has turned to and is done with. -/
theorem not_restorable_of_bindVisit {j : Fin n} {todo : List (Fin n)}
    (h : g.bindVisit w j todo = (.bindUp todo, w')) (hquiet : Quiet g w w')
    (hfault : ∀ e ∈ w.added w', e.2.fault = none) : ¬ w'.Restorable g j := by
  unfold Graph.bindVisit at h
  cases hcfg : g.nodes j with
  | none =>
      simp only [hcfg] at h
      cases h
      simp [World.Restorable, hcfg]
  | some cfg =>
      simp only [hcfg] at h
      by_cases hbind : w.bindable cfg j = true
      case neg =>
        rw [if_neg hbind] at h
        cases h
        simpa [World.Restorable, hcfg] using hbind
      rw [if_pos hbind] at h
      cases hmode : cfg.mode with
      | terminate =>
          simp only [hmode] at h
          obtain ⟨hcall, rfl⟩ := Prod.mk.inj h
          have hentry := startNode_cases g w j
          cases hend : (g.startNode w j).1 with
          | wait phase => simp [hend, AfterStart.proceed] at hcall
          | done r =>
              rw [hend] at hentry
              generalize (g.startNode w j).2 = u at hentry hquiet hfault ⊢
              cases hentry with
              | absent hnone => simp [hcfg] at hnone
              | gated _ heffect =>
                  exact heffect.not_restorable (List.suffix_cons _ _) (hquiet.parks j) hfault
              | marked => exact not_restorable_of_running (by simp)
      | pause =>
          have hhas : g.has .pause = true := by
            by_contra hnone
            exact (g.shape_sound j cfg hcfg).pause (by simpa [Graph.has] using hnone) hmode
          simp only [hmode, if_pos hhas] at h
          cases h
          exact not_restorable_of_running (by simp)
      | onDemand =>
          simp only [hmode] at h
          obtain ⟨-, rfl⟩ := Prod.mk.inj h
          apply not_restorable_of_unmarked
          split <;> simp

/-- A call that is going to fail does. -/
theorem fails_step (hc : fails c = true) (h : c.step g w = some (c', w')) : fails c' = true := by
  cases c with
  | stopping s next =>
      simp only [fails] at hc
      split at hc
      · next f hpc =>
          simp only [Call.step, hpc] at h
          cases h
          rfl
      · next hpc =>
          simp only [Call.step, hpc] at h
          cases h
          rfl
      all_goals cases hc
  | done | panic => simp [Call.step] at h
  | starting | startNode | stopNode | bindUp | cancelled => simp [fails] at hc

/-- **What the driver's step leaves to do.** -/
theorem Covers.own (happlies : Applies c) (hc : Covers g c w)
    (h : c.step g w = some (c', w')) (hposts : w.Posts w')
    (hsound : w'.bindReq = true ∨ (Quiet g w w' ∧
      ((turnsTo c).isSome → ∀ e ∈ w.added w', e.2.fault = none))) : Covers g c' w' := by
  have hlatch := Call.bindReq_of_step h
  have hstep := Call.step_cases h
  by_cases hreq : w'.bindReq = true
  · exact Or.inr (Or.inl hreq)
  obtain ⟨hquiet, hfault⟩ := hsound.resolve_left hreq
  rcases hc with hfails | hold | hall
  · exact Or.inl (fails_step hfails h)
  · exact absurd (hlatch.trans hold) hreq
  have hstranded : ∀ j, w'.Stranded g j → stops c j := fun j hj => (hall j).1 (hquiet.stranded hj)
  have hrestorable : ∀ j, w'.Restorable g j → turns c j := fun j hj =>
    (hall j).2 (hquiet.restorable hposts (by simpa using hreq) hj)
  cases happlies with
  | @stopping s hkeep herr hdone =>
      cases hstep with
      | @stopWave _ s' _ _ h =>
          have same : s'.chosen = s.chosen → s'.resolved = s.resolved →
              Covers g (.stopping s' .bind) w' := by
            intro hchosen hresolved
            refine Or.inr (Or.inr fun j => ⟨fun hj => ?_, fun _ => trivial⟩)
            have hleft : s.unresolved j = true := hstranded j hj
            show s'.unresolved j = true
            rwa [StopWave.unresolved, hchosen, hresolved]
          cases h with
          | @collect i todo _ _ _ hopen =>
              refine Or.inr (Or.inr fun j => ⟨fun hj => ?_, fun _ => trivial⟩)
              have hne : j ≠ i := by
                rintro rfl
                have hrunning := hj.1.1
                simp at hrunning
              have hleft : s.unresolved j = true := hstranded j hj
              show _ = true
              simpa [StopWave.unresolved, hne] using hleft
          | giveUp _ _ _ _ _ hgo => simp [hkeep] at hgo
          | abort => exact Or.inl rfl
          | signal | skip | passOver | finish | examine | turn => exact same rfl rfl
      | stopFault | stopPanic => exact Or.inl rfl
      | bindPhase hpc =>
          refine Or.inr (Or.inr fun j => ⟨fun hj => ?_, fun _ => g.mem_order j⟩)
          have hleft : s.unresolved j = true := hstranded j hj
          have hresolved := StopWave.allResolved_iff.mp (hdone hpc) j
          simp [StopWave.unresolved] at hleft
          simp [hresolved hleft.1] at hleft
  | bindUp todo =>
      cases todo with
      | nil =>
          cases hstep with
          | bindEnd =>
              exact Or.inr (Or.inr fun j => ⟨hstranded j, fun hj => absurd (hrestorable j hj)
                (List.not_mem_nil)⟩)
      | cons i todo =>
          have hvisit : g.bindVisit w i todo = (c', w') := Option.some.inj h
          have finish : c' = .bindUp todo → Covers g c' w' := by
            rintro rfl
            refine Or.inr (Or.inr fun j => ⟨fun hj => hstranded j hj, fun hj => ?_⟩)
            apply (List.mem_cons.mp (hrestorable j hj)).resolve_left
            rintro rfl
            exact not_restorable_of_bindVisit hvisit hquiet (hfault rfl) hj
          cases hstep with
          | bindSkip | bindResume | bindUnmark => exact finish rfl
          | @bindStart _ _ _ e =>
              cases e with
              | done r => exact finish rfl
              | wait phase =>
                  refine Or.inr (Or.inr fun j => ⟨fun hj => hstranded j hj, fun hj => ?_⟩)
                  exact List.mem_cons.mp (hrestorable j hj)
  | startNode i phase todo =>
      cases hstep with
      | @startNode _ _ _ _ e _ _ heffect =>
          cases e with
          | wait phase' =>
              exact Or.inr (Or.inr fun j => ⟨fun hj => hstranded j hj, fun hj => hrestorable j hj⟩)
          | done r =>
              refine Or.inr (Or.inr fun j => ⟨fun hj => hstranded j hj, fun hj => ?_⟩)
              rcases hrestorable j hj with rfl | hmem
              · exact absurd hj (heffect.not_restorable List.suffix_rfl (hquiet.parks j)
                  (hfault rfl))
              · exact hmem
  | done | panic => simp [Call.step] at h

/-! ## The driver among the rest -/

/-- A stranded node is among those an `apply_bind` stops. -/
theorem boundStopping_of_stranded {j : Fin n} (hj : w.Stranded g j) :
    g.boundStopping w j = true := by
  obtain ⟨t, ht⟩ := DependencyOrder.exists_sweep_eq (g.boundVisit w) g.topological.nodup
    (g.mem_order j) fun _ => false
  obtain ⟨⟨hrunning, hloose⟩, d, hd, hnot⟩ := hj
  rw [Graph.boundStopping, ht, Graph.boundVisit]
  unfold Graph.boundDepsOf at hd
  cases hcfg : g.nodes j with
  | none => simp [hcfg] at hd
  | some cfg =>
      simp only [hcfg] at hd
      simp only [hrunning, hloose, Bool.not_true, Bool.or_self, Bool.false_eq_true, if_false,
        List.any_eq_true]
      exact ⟨d, hd, by simp [hnot]⟩

/-- Taking the request, the driver has to do with whatever there is. -/
theorem covers_begin (hhas : g.has .boundDeps = true) (hbegin : g.begin w .applyBind = (c, w')) :
    Applies c ∧ Covers g c w' := by
  have hkeep : ∀ s, c = .stopping s .bind → s.keepGoing = false := by
    rintro s rfl
    simp only [Graph.begin, if_pos hhas] at hbegin
    cases hbegin
    rfl
  rcases begin_applyBind (g := g) w with ⟨_, s, u, heq, hsel, hmark, hchosen⟩ | ⟨hno, _⟩
  case inr => simp [hhas] at hno
  obtain ⟨rfl, rfl⟩ := Prod.mk.inj (heq.symm.trans hbegin)
  have hlaunch := hsel.launch
  refine ⟨.stopping (hkeep s rfl) (by rw [hlaunch]; rfl) (fun hpc => ?_), Or.inr (Or.inr fun j =>
    ⟨fun hj => ?_, fun _ => trivial⟩)⟩
  · rw [hlaunch] at hpc
    simp [StopWave.launch] at hpc
  · have hold : w.Stranded g j := by
      obtain ⟨⟨hrunning, hloose⟩, d, hd, hnot⟩ := hj
      rw [hmark.flag j _ (by decide)] at hrunning hloose
      rw [World.isServing, hmark.flag d _ (by decide), hmark.flag d _ (by decide)] at hnot
      exact ⟨⟨hrunning, hloose⟩, d, hd, hnot⟩
    have hresolved : s.resolved j = false := by
      rw [hlaunch]
      rfl
    show s.unresolved j = true
    rw [StopWave.unresolved, hchosen, boundStopping_of_stranded hold, hresolved]
    rfl

/-- Between its rounds the driver has nothing left to do unless a request is posted; in one,
its call has to do with what is left. -/
inductive Keeps (g : Graph n) (s : BindSys n) : Prop
  | parked (hdriver : s.driver = .parked)
      (h : s.world.bindReq = true ∨ Clean g s.world) : Keeps g s
  | applying {i : ℕ} {c : Call n} (hdriver : s.driver = .applying i)
      (hcall : s.sys.calls[i]? = some c) (happlies : Applies c)
      (hcovers : Covers g c s.world) : Keeps g s
  | ended {f : NodeFault n} (hdriver : s.driver = .ended f) : Keeps g s

/-- A step is one of the others' or of the driver's call, or the driver takes the request, or
it goes on once its call is done. -/
inductive Next (g : Graph n) (s : BindSys n) : Label n → BindSys n → Prop
  | sys {l : EmbassySupervisor.Label n} {sys : Sys n} (hdrops : s.drops l = false)
      (hsys : s.sys.next g l = some sys) : Next g s (.sys l) { s with sys }
  | takes {c : Call n} {w : World n} (hdriver : s.driver = .parked)
      (hbegin : g.begin { s.world with bindReq := false } .applyBind = (c, w)) :
      Next g s .drive { sys := { world := w, calls := s.sys.calls ++ [c] }
                        driver := .applying s.sys.calls.length }
  | returns {i : ℕ} (hdriver : s.driver = .applying i)
      (hcall : s.sys.calls[i]? = some (.done none)) :
      Next g s .drive { s with driver := .parked }
  | ends {i : ℕ} {f : NodeFault n} (hdriver : s.driver = .applying i)
      (hcall : s.sys.calls[i]? = some (.done (some f))) :
      Next g s .drive { s with driver := .ended f }

theorem next_cases {s t : BindSys n} {l : Label n} (h : s.next g l = some t) : Next g s l t := by
  cases l with
  | sys l =>
      by_cases hdrops : s.drops l = true
      · simp [next, hdrops] at h
      · simp only [next, if_neg hdrops] at h
        obtain ⟨sys, hsys, rfl⟩ := Option.map_eq_some_iff.mp h
        exact .sys (by simpa using hdrops) hsys
  | drive =>
      obtain ⟨-, h⟩ := Option.ite_none_right_eq_some.mp h
      unfold drive at h
      split at h
      · next hdriver =>
          obtain ⟨-, h⟩ := Option.ite_none_right_eq_some.mp h
          cases h
          exact .takes hdriver rfl
      · next i hdriver =>
          split at h
          · next hcall =>
              cases h
              exact .returns hdriver hcall
          · next f hcall =>
              cases h
              exact .ends hdriver hcall
          · cases h
      · cases h

theorem keeps_next (hhas : g.has .boundDeps = true) {s t : BindSys n} {l : Label n}
    (hs : Keeps g s) (hregular : s.Regular g l) (h : s.next g l = some t) : Keeps g t := by
  cases next_cases h with
  | takes _ hbegin =>
      obtain ⟨happlies, hcovers⟩ := covers_begin hhas hbegin
      exact .applying rfl (by simp) happlies hcovers
  | returns hdriver hcall =>
      refine .parked rfl ?_
      cases hs with
      | parked hparked => simp [hparked] at hdriver
      | ended hended => simp [hended] at hdriver
      | applying happlying hcall' _ hcovers =>
          obtain rfl := Binder.applying.inj (happlying.symm.trans hdriver)
          obtain rfl := Option.some.inj (hcall'.symm.trans hcall)
          rcases hcovers with hfails | hreq | hall
          · simp [fails] at hfails
          · exact Or.inl hreq
          · exact Or.inr hall
  | ends => exact .ended rfl
  | @sys l sys hdrops hsys =>
      have hposts := posts_next hsys
      have hlatch := Sys.bindReq_of_next hsys
      have hsound := hregular.resolve_left nofun _ h
      have hquiet : sys.world.bindReq = true ∨ Quiet g s.world sys.world :=
        hsound.imp id And.left
      cases hs with
      | ended hdriver => exact .ended hdriver
      | parked hdriver hclean =>
          refine .parked hdriver ?_
          rcases hclean with hreq | hclean
          · exact Or.inl (hlatch hreq)
          by_cases hreq : sys.world.bindReq = true
          · exact Or.inl hreq
          · have hkept := hquiet.resolve_left hreq
            refine Or.inr fun j => ⟨fun hj => (hclean j).1 (hkept.stranded hj), fun hj => ?_⟩
            exact (hclean j).2 (hkept.restorable hposts (by simpa using hreq) hj)
      | @applying i c hdriver hcall happlies hcovers =>
          have hother : Covers g c sys.world := hcovers.other hposts hlatch hquiet
          cases Sys.next_cases hsys with
          | begin =>
              refine .applying hdriver ?_ happlies hother
              rw [List.getElem?_append_left (List.getElem?_eq_some_iff.mp hcall).1]
              exact hcall
          | task | setDisabled => exact .applying hdriver hcall happlies hother
          | @cancel k =>
              have hne : k ≠ i := by
                rintro rfl
                simp [drops, hdriver] at hdrops
              refine .applying hdriver ?_ happlies hother
              rw [List.getElem?_set_ne hne]
              exact hcall
          | @advance k d d' w _ hd hcarry =>
              by_cases hki : k = i
              · subst hki
                obtain rfl := Option.some.inj (hcall.symm.trans hd)
                refine .applying hdriver (by simp [(List.getElem?_eq_some_iff.mp hcall).1])
                  (happlies.step hcarry) (hcovers.own happlies hcarry hposts ?_)
                refine hsound.imp id (And.imp_right fun hfault hturn => hfault ?_)
                simpa [binding, hdriver, hcall] using hturn
              · refine .applying hdriver ?_ happlies hother
                rw [List.getElem?_set_ne hki]
                exact hcall

/-- **A waiting driver has missed nothing.** In every regular run of the system with its bind
driver, from a state with nothing left to do or a request posted, whenever the driver waits
with no request pending, no client that is not detached runs on a provider that does not
serve, and none is down for a provider whose providers all serve. -/
theorem parked_serves (g : Graph n) (hhas : g.has .boundDeps = true) {s t : BindSys n}
    {labels : List (Label n)} (hs : s.driver = .parked)
    (hclean : s.world.bindReq = true ∨ Clean g s.world)
    (hregular : Along (next g) (Regular g) s labels)
    (hrun : exec (next g) s labels = some t) (ht : t.driver = .parked)
    (hreq : t.world.bindReq = false) :
    ∀ j, ¬ t.world.Stranded g j ∧ ¬ t.world.Restorable g j := by
  have hkeeps : Keeps g t := exec_invariant_along
    (fun _ _ _ hu hl hstep => keeps_next hhas hu hl hstep) (.parked hs hclean) hregular hrun
  cases hkeeps with
  | parked _ h => exact h.resolve_left (by simp [hreq])
  | applying hdriver => simp [ht] at hdriver
  | ended hdriver => simp [ht] at hdriver

/-- Both run, the link is not ready, and the request has been posted. -/
def linkLost : BindSys 2 := { sys := { world := { clientAndLinkUp with bindReq := true } } }

/-- The client is stopped and acknowledges, the link asserts readiness while the call still
sleeps; its second phase brings the client up, and another round finds nothing to do. -/
def linkRegained : List (Label 2) :=
  [.drive] ++ List.replicate 9 (.sys (.advance 0)) ++
    [.sys (.task (.ackDropped 1)), .sys (.task (.setReady 0))] ++
    List.replicate 11 (.sys (.advance 0)) ++ [.drive, .drive] ++
    List.replicate 10 (.sys (.advance 1)) ++ [.drive]

theorem parked_serves_link :
    ((exec (next clientAndLink) linkLost linkRegained).get rfl).world.flag 1 .running = true ∧
      ∀ j, ¬ ((exec (next clientAndLink) linkLost linkRegained).get rfl).world.Stranded
          clientAndLink j ∧
        ¬ ((exec (next clientAndLink) linkLost linkRegained).get rfl).world.Restorable
          clientAndLink j := by
  have hrun : (exec (next clientAndLink) linkLost linkRegained).isSome = true := rfl
  have hregular : Along (next clientAndLink) (Regular clientAndLink) linkLost linkRegained := by
    decide
  exact ⟨rfl, parked_serves clientAndLink rfl rfl (Or.inl rfl) hregular
    (Option.some_get hrun).symm rfl rfl⟩

/-- The link is brought up, asserts readiness and exits. The driver finds nobody to stop, and
after it has come to rest the client is started by hand. -/
def linkExited : List (Label 2) :=
  [.sys (.begin (.startNode 0)), .sys (.task (.setReady 0)), .sys (.task (.markExited 0)),
    .drive] ++ List.replicate 10 (.sys (.advance 1)) ++ [.drive, .sys (.begin (.startNode 1))]

/-- A client started by hand is stranded unseen: the gate of its bring-up asks whether the link
is ready, not whether it serves. -/
theorem stranded_unseen : ∃ t, exec (next clientAndLink)
    { sys := { world := { node := fun _ => {} } }, driver := .parked } linkExited = some t ∧
      t.driver = .parked ∧ t.world.bindReq = false ∧ t.world.Stranded clientAndLink 1 := by
  have hrun : (exec (next clientAndLink)
    { sys := { world := { node := fun _ => {} } }, driver := .parked } linkExited).isSome = true :=
    rfl
  exact ⟨_, (Option.some_get hrun).symm, rfl, rfl, ⟨rfl, rfl⟩, 0, by decide, rfl⟩

end BindSys

end EmbassySupervisor
