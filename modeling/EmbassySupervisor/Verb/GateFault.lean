/-
# When `start_node` gives up on a gate

Calls of `start_node` in one supervisor task, the tasks' events, and the operations on
gates access by access. A call that gives up on a gate should be right about it: the gate
is shut, and was when the deadline passed.

`gaveUp_shut` says so of every run whose steps are timely. Not timely are the polls and
accesses by which a call that waits at an open gate loses the latch that would tell it, and
those that shut a gate again on a call whose deadline is past. In `gaveUp_open` a second
call takes the latch of a gate both wait for, and the first reports as missing a resource
that is there.
-/

import EmbassySupervisor.Verb.GateWait

namespace EmbassySupervisor

open LabelledRun

variable {n : ℕ}

/-- A fault that names a gate. -/
def FaultKind.ofGate : FaultKind n → Bool
  | .readyDepTimeout _ | .resourceMissing | .executorSlotEmpty => true
  | .spawn | .shutdownTimeout | .restartStorm => false

namespace Call

/-- The gate a call waits at, and until when. -/
def waitsAt : Call n → Option (Gate n × ℕ)
  | .startNode _ (.gate c _ deadline) _ => some (c, deadline)
  | .startNode _ (.settle _) _ | .startNode _ (.pass _ _) _ | .startNode _ (.event _) _
  | .startNode _ (.yield _) _ | .stopping _ _ | .starting _ _ | .stopNode _ _ | .bindUp _
  | .done _ | .panic | .cancelled => none

def waitsFor (c : Gate n) (call : Call n) : Bool := call.waitsAt.any fun x => decide (x.1 = c)

end Call

/-- The calls with the shared state, and the operations on gates with what is left of
each. -/
structure GateSys (n : ℕ) where
  sys : Sys n
  ops : List (List (GateAccess n)) := []

namespace GateSys

inductive Label (n : ℕ)
  | start (j : Fin n)
  | poll (i : ℕ)
  | task (e : TaskEvent n)
  | op (o : GateOp n)
  | act (k : ℕ)

/-- No call has been made yet. -/
def boot (w : World n) : GateSys n := { sys := { world := w } }

variable (g : Graph n)

def world (s : GateSys n) : World n := s.sys.world

def next (s : GateSys n) : Label n → Option (GateSys n)
  | .start j => (s.sys.next g (.begin (.startNode j))).map fun sys => { s with sys }
  | .poll i => (s.sys.next g (.advance i)).map fun sys => { s with sys }
  | .task e => (s.sys.next g (.task e)).map fun sys => { s with sys }
  | .op o => some { s with ops := s.ops ++ [o.accesses] }
  | .act k =>
    match s.ops[k]? with
    | some (a :: rest) =>
      some { sys := { s.sys with world := s.world.access a }, ops := s.ops.set k rest }
    | some [] | none => none

/-- A fill of the gate has its signal still to come. -/
def signalDue (s : GateSys n) (c : Gate n) : Bool :=
  s.ops.any fun op => decide (GateAccess.signal c ∈ op)

/-- A poll does not take the latch of an open gate from another call, nor give up between a
fill and its signal; a reset does not fall on an open gate somebody waits for. -/
def wakeful (s : GateSys n) : Label n → Bool
  | .poll i =>
    match (s.sys.calls[i]?).bind Call.waitsAt with
    | some (c, deadline) =>
      if c.latched s.world then
        !(c.satisfied s.world && (s.sys.calls.eraseIdx i).any (Call.waitsFor c))
      else !(decide (deadline ≤ s.world.now) && c.satisfied s.world && s.signalDue c)
    | none => true
  | .act k =>
    match s.ops[k]? with
    | some (.reset r :: _) =>
      !((Gate.resource r).satisfied s.world && s.sys.calls.any (Call.waitsFor (.resource r)))
    | _ => true
  | .start _ | .task _ | .op _ => true

/-- An open gate stays open for every call past its deadline. -/
def holdsOpen (s t : GateSys n) : Bool :=
  s.sys.calls.all fun call => call.waitsAt.all fun x =>
    !(decide (x.2 ≤ s.world.now) && x.1.satisfied s.world) || x.1.satisfied t.world

def timely (s : GateSys n) (l : Label n) : Bool := s.wakeful l && (s.next g l).all s.holdsOpen

/-! ## The steps -/

/-- The steps, with what a call does in each. -/
inductive Step (s : GateSys n) : Label n → GateSys n → Prop
  | start {j : Fin n} :
      Step s (.start j)
        { s with
          sys := { world := (g.startNode s.world j).2
                   calls := s.sys.calls ++ [AfterStart.ret.proceed j (g.startNode s.world j).1] } }
  | poll {i : ℕ} {j : Fin n} {phase : StartPhase n} {cfg : NodeCfg n} {sp : Spawn}
      {e : StartEnd n} {w : World n}
      (hcall : s.sys.calls[i]? = some (.startNode j phase .ret))
      (hcfg : g.nodes j = some cfg) (hspawn : cfg.spawn = some sp)
      (hpoll : s.world.startNodeStep cfg sp j phase = some (e, w)) :
      Step s (.poll i)
        { s with sys := { world := w, calls := s.sys.calls.set i (AfterStart.ret.proceed j e) } }
  | task {e : TaskEvent n} {w : World n} (happly : e.apply g s.world = some w) :
      Step s (.task e) { s with sys := { s.sys with world := w } }
  | op {o : GateOp n} : Step s (.op o) { s with ops := s.ops ++ [o.accesses] }
  | act {k : ℕ} {a : GateAccess n} {rest : List (GateAccess n)}
      (hop : s.ops[k]? = some (a :: rest)) :
      Step s (.act k)
        { sys := { s.sys with world := s.world.access a }, ops := s.ops.set k rest }

/-- Every call is a `start_node` of its own, waiting or over. -/
def Plain (s : GateSys n) : Prop :=
  ∀ call ∈ s.sys.calls, (∃ j phase, call = .startNode j phase .ret) ∨ ∃ r, call = .done r

variable {g} {s t : GateSys n} {l : Label n}

theorem next_cases (hs : s.Plain) (h : s.next g l = some t) : Step g s l t := by
  cases l with
  | start j =>
      obtain ⟨sys, hnext, rfl⟩ := Option.map_eq_some_iff.mp h
      simp only [Sys.next] at hnext
      split at hnext
      · cases hnext
        exact .start
      · cases hnext
  | poll i =>
      obtain ⟨sys, hnext, rfl⟩ := Option.map_eq_some_iff.mp h
      cases Sys.next_cases hnext with
      | @advance i c c' w hrest hcall hstep =>
          rcases hs c (List.mem_of_getElem? hcall) with ⟨j, phase, rfl⟩ | ⟨r, rfl⟩
          · simp only [Call.step, Option.bind_eq_bind, Option.bind_eq_some_iff,
              Option.some.injEq] at hstep
            obtain ⟨cfg, hcfg, sp, hspawn, ⟨e, w'⟩, hpoll, heq⟩ := hstep
            cases heq
            exact .poll hcall hcfg hspawn hpoll
          · cases hstep
  | task e =>
      obtain ⟨sys, hnext, rfl⟩ := Option.map_eq_some_iff.mp h
      cases Sys.next_cases hnext with
      | task hrest happly => exact .task happly
  | op o =>
      cases h
      exact .op
  | act k =>
      simp only [next] at h
      split at h
      · next a rest hop =>
          cases h
          exact .act hop
      · cases h
      · cases h

theorem plain_next (hs : s.Plain) (h : s.next g l = some t) : t.Plain := by
  have hproceed : ∀ j (e : StartEnd n),
      (∃ i phase, AfterStart.ret.proceed j e = .startNode i phase .ret) ∨
        ∃ r, AfterStart.ret.proceed j e = .done r := by
    intro j e
    cases e with
    | wait phase => exact Or.inl ⟨j, phase, rfl⟩
    | done r => exact Or.inr ⟨r, rfl⟩
  cases next_cases hs h with
  | start =>
      intro call hcall
      rcases List.mem_append.mp hcall with hcall | hcall
      · exact hs call hcall
      · rw [List.mem_singleton.mp hcall]
        exact hproceed _ _
  | poll =>
      intro call hcall
      rcases List.mem_or_eq_of_mem_set hcall with hcall | rfl
      · exact hs call hcall
      · exact hproceed _ _
  | task | op | act => exact hs

/-! ## A wait at an open gate is told -/

/-- After a fill comes its signal. -/
def Signalled : List (GateAccess n) → Prop
  | [] => True
  | a :: rest => (∀ c, a = .fill c → .signal c ∈ rest) ∧ Signalled rest

/-- Whoever waits at an open gate has its latch fired, or about to be. -/
structure Attended (s : GateSys n) : Prop where
  plain : s.Plain
  signalled : ∀ op ∈ s.ops, Signalled op
  wait : ∀ call ∈ s.sys.calls, ∀ c deadline, call.waitsAt = some (c, deadline) →
    c.satisfied s.world = true → c.latched s.world = true ∨ s.signalDue c = true

theorem attended_boot (w : World n) : (boot w).Attended where
  plain call h := by cases h
  signalled op h := by cases h
  wait call h := by cases h

theorem signalled_accesses (o : GateOp n) : Signalled o.accesses := by
  cases o <;> simp [GateOp.accesses, Signalled]

theorem signalDue_iff {c : Gate n} :
    s.signalDue c = true ↔ ∃ op ∈ s.ops, GateAccess.signal c ∈ op := by
  simp [signalDue]

theorem waitsFor_of_waitsAt {call : Call n} {c : Gate n} {deadline : ℕ}
    (h : call.waitsAt = some (c, deadline)) : call.waitsFor c = true := by
  simp [Call.waitsFor, h]

/-- A kept gate leaves whoever waits at it attended. -/
theorem Attended.of_kept (hs : s.Attended) {call : Call n} (hcall : call ∈ s.sys.calls)
    {c : Gate n} {deadline : ℕ} (hwait : call.waitsAt = some (c, deadline)) {w : World n}
    (hkept : c.Kept s.world w) (hsatisfied : c.satisfied w = true) :
    c.latched w = true ∨ s.signalDue c = true := by
  rcases hkept hsatisfied with hlatched | ⟨hbefore, hunlatched⟩
  · exact Or.inl hlatched
  · rcases hs.wait call hcall c deadline hwait hbefore with hlatched | hdue
    · rw [hunlatched] at hlatched
      cases hlatched
    · exact Or.inr hdue

/-- A stretch that waits for a gate waits at a shut one. -/
theorem shut_of_passes {j : Fin n} {e : StartEnd n} {w : World n} (h : Gate.Passes j e w)
    {c : Gate n} {deadline : ℕ}
    (hwait : (AfterStart.ret.proceed j e).waitsAt = some (c, deadline)) :
    c.satisfied w = false := by
  cases h with
  | shut hshut =>
      cases hwait
      exact hshut
  | through hgateless =>
      cases e with
      | done r => cases hwait
      | wait phase =>
          cases phase with
          | gate d rest due => exact absurd rfl (hgateless.wait d rest due)
          | settle | pass | event | yield => cases hwait

theorem shut_of_polls {cfg : NodeCfg n} {w w' : World n} {j : Fin n} {phase : StartPhase n}
    {e : StartEnd n} (h : Gate.Polls cfg w j phase e w') {c : Gate n} {deadline : ℕ}
    (hwait : (AfterStart.ret.proceed j e).waitsAt = some (c, deadline)) :
    c.satisfied w' = false := by
  cases h with
  | passes hpasses => exact shut_of_passes hpasses hwait
  | gaveUp hphase hdue hshut hend =>
      rcases hend with rfl | rfl
      · cases hwait
      · cases hwait

theorem shut_of_startNode {w : World n} {j : Fin n} {c : Gate n} {deadline : ℕ}
    (hwait : (AfterStart.ret.proceed j (g.startNode w j).1).waitsAt = some (c, deadline)) :
    c.satisfied (g.startNode w j).2 = false := by
  cases hcfg : g.occupied j with
  | true => exact shut_of_passes (Gate.passes_startNode g hcfg) hwait
  | false =>
      have hnone : g.nodes j = none := by simpa [Graph.occupied] using hcfg
      simp [Graph.startNode, hnone, AfterStart.proceed, AfterStart.resume, Call.waitsAt] at hwait

/-- A poll does not take the latch of an open gate from another call. -/
theorem open_of_wakeful {i k : ℕ} {j : Fin n} {phase : StartPhase n} {call : Call n}
    {c : Gate n} {deadline : ℕ} (hwakeful : s.wakeful (.poll i) = true)
    (hcall : s.sys.calls[i]? = some (.startNode j phase .ret)) (hki : k ≠ i)
    (hother : s.sys.calls[k]? = some call) (hwait : call.waitsAt = some (c, deadline)) :
    ∀ rest due, phase = .gate c rest due → c.latched s.world = true →
      c.satisfied s.world = false := by
  rintro rest due rfl hlatched
  have hmem : call ∈ s.sys.calls.eraseIdx i :=
    List.mem_eraseIdx_iff_getElem?.mpr ⟨k, hki, hother⟩
  have hany : (s.sys.calls.eraseIdx i).any (Call.waitsFor c) = true :=
    List.any_eq_true.mpr ⟨call, hmem, waitsFor_of_waitsAt hwait⟩
  simpa [wakeful, hcall, Call.waitsAt, hlatched, hany] using hwakeful

theorem Attended.poll (hs : s.Attended) {i : ℕ} {j : Fin n} {phase : StartPhase n}
    {cfg : NodeCfg n} {sp : Spawn} {e : StartEnd n} {w : World n}
    (hwakeful : s.wakeful (.poll i) = true)
    (hcall : s.sys.calls[i]? = some (.startNode j phase .ret))
    (hpoll : s.world.startNodeStep cfg sp j phase = some (e, w)) :
    ∀ call ∈ s.sys.calls.set i (AfterStart.ret.proceed j e), ∀ c deadline,
      call.waitsAt = some (c, deadline) → c.satisfied w = true →
        c.latched w = true ∨ s.signalDue c = true := by
  intro call hmem c deadline hwait hsatisfied
  obtain ⟨k, hk⟩ := List.mem_iff_getElem?.mp hmem
  rw [List.getElem?_set] at hk
  by_cases hki : i = k
  · rw [if_pos hki] at hk
    split at hk
    · cases hk
      rw [shut_of_polls (Gate.polls_startNodeStep hpoll) hwait] at hsatisfied
      cases hsatisfied
    · cases hk
  · rw [if_neg hki] at hk
    refine hs.of_kept (List.mem_of_getElem? hk) hwait ?_ hsatisfied
    exact Gate.kept_startNodeStep hpoll
      (open_of_wakeful hwakeful hcall (Ne.symm hki) hk hwait)

/-- An access of a running operation. -/
theorem Attended.act (hs : s.Attended) {k : ℕ} {a : GateAccess n} {rest : List (GateAccess n)}
    (hwakeful : s.wakeful (.act k) = true) (hop : s.ops[k]? = some (a :: rest)) :
    Attended { sys := { s.sys with world := s.world.access a }, ops := s.ops.set k rest } where
  plain := hs.plain
  signalled op hmem := by
    rcases List.mem_or_eq_of_mem_set hmem with hmem | rfl
    · exact hs.signalled op hmem
    · exact (hs.signalled _ (List.mem_of_getElem? hop)).2
  wait call hcall c deadline hwait hsatisfied := by
    have hlt : k < s.ops.length := (List.getElem?_eq_some_iff.mp hop).1
    have hrest : rest ∈ s.ops.set k rest := List.mem_set hlt rest
    by_cases hfill : a = .fill c
    · -- the signal of this very fill is next
      have hsignal := (hs.signalled _ (List.mem_of_getElem? hop)).1 c hfill
      exact Or.inr (signalDue_iff.mpr ⟨rest, hrest, hsignal⟩)
    · have hshut : ∀ r, a = .reset r → c = .resource r → c.satisfied s.world = false := by
        rintro r rfl rfl
        have hany : s.sys.calls.any (Call.waitsFor (.resource r)) = true :=
          List.any_eq_true.mpr ⟨call, hcall, waitsFor_of_waitsAt hwait⟩
        simpa [wakeful, hop, hany] using hwakeful
      rcases hs.of_kept hcall hwait (Gate.kept_access hfill hshut) hsatisfied with hlatched | hdue
      · exact Or.inl hlatched
      · obtain ⟨op, hmem, hsignal⟩ := signalDue_iff.mp hdue
        obtain ⟨i, hi⟩ := List.mem_iff_getElem?.mp hmem
        by_cases hik : i = k
        · subst hik
          rw [hop, Option.some.injEq] at hi
          subst hi
          rcases List.mem_cons.mp hsignal with rfl | hsignal
          · exact Or.inl (Gate.latched_signal s.world c)
          · exact Or.inr (signalDue_iff.mpr ⟨rest, hrest, hsignal⟩)
        · have hkept : op ∈ s.ops.set k rest := by
            apply List.mem_of_getElem?
            rw [List.getElem?_set_ne (Ne.symm hik), hi]
          exact Or.inr (signalDue_iff.mpr ⟨op, hkept, hsignal⟩)

/-- **A step that is wakeful leaves every wait attended.** -/
theorem Attended.next (hs : s.Attended) (hwakeful : s.wakeful l = true)
    (h : s.next g l = some t) : t.Attended := by
  have hplain := plain_next hs.plain h
  cases next_cases hs.plain h with
  | @start j =>
      refine ⟨hplain, hs.signalled, fun call hmem c deadline hwait hsatisfied => ?_⟩
      rcases List.mem_append.mp hmem with hmem | hmem
      · exact hs.of_kept hmem hwait (Gate.kept_startNode g j) hsatisfied
      · rw [List.mem_singleton.mp hmem] at hwait
        have hshut := shut_of_startNode hwait
        rw [show c.satisfied (g.startNode s.world j).2 = true from hsatisfied] at hshut
        cases hshut
  | poll hcall hcfg hspawn hpoll =>
      exact ⟨hplain, hs.signalled, hs.poll hwakeful hcall hpoll⟩
  | task happly =>
      refine ⟨hplain, hs.signalled, fun call hmem c deadline hwait hsatisfied => ?_⟩
      exact hs.of_kept hmem hwait (Gate.kept_apply happly) hsatisfied
  | @op o =>
      refine ⟨hplain, fun op hmem => ?_, fun call hmem c deadline hwait hsatisfied => ?_⟩
      · rcases List.mem_append.mp hmem with hmem | hmem
        · exact hs.signalled op hmem
        · rw [List.mem_singleton.mp hmem]
          exact signalled_accesses o
      · refine (hs.wait call hmem c deadline hwait hsatisfied).imp_right fun hdue => ?_
        obtain ⟨op, hmem, hsignal⟩ := signalDue_iff.mp hdue
        exact signalDue_iff.mpr ⟨op, List.mem_append_left _ hmem, hsignal⟩
  | act hop => exact hs.act hwakeful hop

/-! ## Past a deadline -/

theorem now_le (hs : s.Plain) (h : s.next g l = some t) : s.world.now ≤ t.world.now := by
  cases next_cases hs h with
  | @start j =>
      show s.world.now ≤ (g.startNode s.world j).2.now
      rw [(startNode_cases g s.world j).now_eq]
  | @poll i j phase cfg sp e w hcall hcfg hspawn hpoll =>
      show s.world.now ≤ w.now
      rw [(startNodeStep_cases hspawn hpoll).now_eq]
  | task happly => exact (TaskEvent.apply_cases happly).now_le
  | op => exact le_rfl
  | @act k a rest hop =>
      show s.world.now ≤ (s.world.access a).now
      rw [World.now_access]

/-- While a call waits past its deadline its gate stays open. -/
theorem open_of_past {u : GateSys n} {ls : List (Label n)} {i : ℕ} {j : Fin n} {c : Gate n}
    {rest : List (Gate n)} {deadline : ℕ} (hu : u.Plain)
    (hrun : exec (next g) u ls = some s)
    (htimely : Along (next g) (fun v l => v.timely g l = true) u ls)
    (hwaits : Along (next g)
      (fun v _ => v.sys.calls[i]? = some (.startNode j (.gate c rest deadline) .ret)) u ls)
    (hdue : deadline ≤ u.world.now) (hsatisfied : c.satisfied u.world = true) :
    c.satisfied s.world = true := by
  have hinv : s.Plain ∧ deadline ≤ s.world.now ∧ c.satisfied s.world = true := by
    refine exec_invariant_along
      (I := fun v => v.Plain ∧ deadline ≤ v.world.now ∧ c.satisfied v.world = true)
      ?_ ⟨hu, hdue, hsatisfied⟩ (htimely.and hwaits) hrun
    rintro v l v' ⟨hv, hpast, hopen⟩ ⟨htime, hcall⟩ hnext
    have hholds : v.holdsOpen v' = true := by
      have hall := (Bool.and_eq_true_iff.mp htime).2
      rwa [hnext] at hall
    have hkept := List.all_eq_true.mp hholds _ (List.mem_of_getElem? hcall)
    refine ⟨plain_next hv hnext, hpast.trans (now_le hv hnext), ?_⟩
    simpa [Call.waitsAt, hpast, hopen] using hkept
  exact hinv.2.2

/-- Call `i`, a `start_node` of `j`, has given up on a gate: it reports the gate's fault or
has put the node off. -/
def GaveUp (t : GateSys n) (i : ℕ) (j : Fin n) : Prop :=
  (∃ f, t.sys.calls[i]? = some (.done (some f)) ∧ f.kind.ofGate = true) ∨
    (t.sys.calls[i]? = some (.done none) ∧ t.world.flag j .boundStopped = true)

/-- In phase `phase` call `i` waits for a gate past its deadline, and the gate has been shut
in every state of the run, from `w` along `ls` to `s`, since the deadline passed. -/
def ShutSince (g : Graph n) (w : World n) (ls : List (Label n)) (s : GateSys n) (i : ℕ)
    (j : Fin n) (phase : StartPhase n) (c : Gate n) : Prop :=
  ∃ rest deadline, phase = .gate c rest deadline ∧ deadline ≤ s.world.now ∧
    ∀ front back u, ls = front ++ back → exec (next g) (boot w) front = some u →
      Along (next g) (fun v _ => v.sys.calls[i]? = some (.startNode j phase .ret)) u back →
      deadline ≤ u.world.now → c.satisfied u.world = false

/-- Whoever gives up was waiting at a gate past its deadline, and found it shut or its latch
unfired. -/
theorem wait_of_gaveUp {i : ℕ} {j : Fin n} {phase : StartPhase n} (hs : s.Plain)
    (hcall : s.sys.calls[i]? = some (.startNode j phase .ret))
    (hnext : s.next g (.poll i) = some t) (hgave : t.GaveUp i j) :
    ∃ c rest deadline, phase = .gate c rest deadline ∧ deadline ≤ s.world.now ∧
      (c.latched s.world = true → c.satisfied s.world = false) ∧
      ∀ f, t.sys.calls[i]? = some (.done (some f)) → f = { node := j, kind := c.fault } := by
  cases next_cases hs hnext with
  | @poll i j' phase' cfg sp e w hcall' hcfg hspawn hpoll =>
      rw [hcall, Option.some.injEq] at hcall'
      cases hcall'
      have hlt : i < s.sys.calls.length := (List.getElem?_eq_some_iff.mp hcall).1
      have hafter : (s.sys.calls.set i (AfterStart.ret.proceed j e))[i]? =
          some (AfterStart.ret.proceed j e) := by
        rw [List.getElem?_set_self hlt]
      simp only [GaveUp, hafter, Option.some.injEq] at hgave ⊢
      cases Gate.polls_startNodeStep hpoll with
      | passes hpasses =>
          cases hpasses with
          | shut hshut => rcases hgave with ⟨f, heq, -⟩ | ⟨heq, -⟩ <;> cases heq
          | through hgateless =>
              cases e with
              | wait phase => rcases hgave with ⟨f, heq, -⟩ | ⟨heq, -⟩ <;> cases heq
              | done r =>
                  rcases hgave with ⟨f, heq, hkind⟩ | ⟨heq, hbound⟩
                  · cases heq
                    rw [hgateless.fault f rfl] at hkind
                    cases hkind
                  · cases heq
                    have hlifted : w.flag j .boundStopped = false := hgateless.parked rfl
                    rw [show w.flag j .boundStopped = true from hbound] at hlifted
                    cases hlifted
      | gaveUp hphase hdue hshut hend =>
          refine ⟨_, _, _, hphase, hdue, hshut, fun f hf => ?_⟩
          rcases hend with rfl | rfl
          · cases hf
            rfl
          · cases hf

/-- **No false gate fault.** In a run whose steps are timely, a call that gives up was
waiting at a gate past its deadline, the gate has been shut ever since the deadline passed,
and the fault, if there is one, is of this gate. -/
theorem gaveUp_shut {w : World n} {ls : List (Label n)} {i : ℕ} {j : Fin n}
    {phase : StartPhase n} (hrun : exec (next g) (boot w) ls = some s)
    (htimely : Along (next g) (fun v l => v.timely g l = true) (boot w) (ls ++ [.poll i]))
    (hcall : s.sys.calls[i]? = some (.startNode j phase .ret))
    (hnext : s.next g (.poll i) = some t) (hgave : t.GaveUp i j) :
    ∃ c, ShutSince g w ls s i j phase c ∧
      ∀ f, t.sys.calls[i]? = some (.done (some f)) → f = { node := j, kind := c.fault } := by
  obtain ⟨hbefore, hlast⟩ := along_append.mp htimely
  have hattended : ∀ {ls : List (Label n)} {v : GateSys n},
      exec (next g) (boot w) ls = some v →
      Along (next g) (fun v l => v.timely g l = true) (boot w) ls → v.Attended := by
    intro ls v hv halong
    refine exec_invariant_along (I := Attended) (fun a l b ha hl hb => ?_) (attended_boot w)
      halong hv
    exact ha.next (Bool.and_eq_true_iff.mp hl).1 hb
  have hs := hattended hrun hbefore
  obtain ⟨c, rest, deadline, hphase, hdue, hshut, hfault⟩ :=
    wait_of_gaveUp hs.plain hcall hnext hgave
  refine ⟨c, ⟨rest, deadline, hphase, hdue, fun front back u hsplit hfront hwaits hpast => ?_⟩,
    hfault⟩
  rw [Bool.eq_false_iff]
  intro hopen
  have hwakeful := (Bool.and_eq_true_iff.mp (hlast s hrun).1).1
  rw [hsplit] at hrun hbefore
  obtain ⟨v, hfront', hback⟩ := exec_append.mp hrun
  cases hfront.symm.trans hfront'
  obtain ⟨hbeforeFront, hbeforeBack⟩ := along_append.mp hbefore
  rw [hphase] at hwaits hcall
  -- the gate is open now, so its latch has not fired, so its signal is still to come
  have hnow : c.satisfied s.world = true :=
    open_of_past (hattended hfront hbeforeFront).plain hback (hbeforeBack u hfront) hwaits hpast
      hopen
  have hunlatched : c.latched s.world = false :=
    Bool.eq_false_iff.mpr fun h => by simp [hshut h] at hnow
  have hsignal : s.signalDue c = true := by
    rcases hs.wait _ (List.mem_of_getElem? hcall) c deadline rfl hnow with hlatched | hsignal
    · rw [hunlatched] at hlatched
      cases hlatched
    · exact hsignal
  simp [wakeful, hcall, Call.waitsAt, hunlatched, hdue, hnow, hsignal] at hwakeful

/-- Two tasks that share a resource. -/
def sharing : Graph 2 where
  deps _ := []
  order := [0, 1]
  topological := ⟨by decide, by decide, by decide, by decide⟩
  nodes _ := some { mode := .terminate, spawn := some .fn, resourceGates := [0],
                    slotTimeout := 100000, ackTimeout := 2000000 }
  shape_sound _ cfg _ := cfg.fitsShape_all
  pools_sound := pools_sound_two

def sharingDown : World 2 where
  node _ := {}

/-- Nobody provides the resource in time. -/
def unprovided : List (Label 2) := [.start 0, .task (.elapse 100000)]

def unprovidedRun : Option (GateSys 2) := exec (next sharing) (boot sharingDown) unprovided

theorem gaveUp_shut_unprovided :
    ∃ c, ShutSince sharing sharingDown unprovided (unprovidedRun.get rfl) 0 0
      (.gate (.resource 0) [] 100000) c := by
  have htimely : Along (next sharing) (fun v l => v.timely sharing l = true) (boot sharingDown)
      (unprovided ++ [.poll 0]) := by decide +kernel
  obtain ⟨c, hshut, -⟩ := gaveUp_shut (Option.some_get _).symm htimely rfl rfl
    (Or.inl ⟨_, rfl, rfl⟩)
  exact ⟨c, hshut⟩

/-- Both wait, the resource is provided, and one of them takes the latch. -/
def outrun : List (Label 2) :=
  [.start 0, .start 1, .task (.provide 0), .poll 1, .task (.elapse 100000)]

def outrunRun : Option (GateSys 2) := exec (next sharing) (boot sharingDown) outrun

theorem gaveUp_open :
    ¬ ∀ (g : Graph 2) (w : World 2) (ls : List (Label 2)) (s t : GateSys 2) (i : ℕ) (j : Fin 2)
      (phase : StartPhase 2), exec (next g) (boot w) ls = some s →
      s.sys.calls[i]? = some (.startNode j phase .ret) → s.next g (.poll i) = some t →
      t.GaveUp i j → ∃ c, ShutSince g w ls s i j phase c := by
  intro h
  have hrun : exec (next sharing) (boot sharingDown) outrun = some (outrunRun.get rfl) :=
    (Option.some_get _).symm
  obtain ⟨c, rest, deadline, hphase, hdue, hshut⟩ := h sharing sharingDown outrun
    (outrunRun.get rfl) _ 0 0 (.gate (.resource 0) [] 100000) hrun rfl rfl (Or.inl ⟨_, rfl, rfl⟩)
  cases hphase
  have hopen := hshut outrun [] _ (List.append_nil _).symm hrun trivial hdue
  cases hopen

end GateSys

end EmbassySupervisor
