/-
# The executor fence

A `spawn:` task that acknowledges its stop is still in its last poll, and its task slot is
free once that poll has returned. Who spawns it again asks the fence of its executor for one
pass, and waits for the count of passes to change.

An executor polls one task at a time, so no pass is counted while the last poll of a task
lasts: `pass_frees` says that a call that has been granted a pass has seen that poll return.
`waits_answered` says that no request is lost and none answered twice. The count wraps: a
call that waits through all its values cannot tell.

`done`, `asked` and `since` count passes and requests; the code does not read them.
-/

import EmbassySupervisor.Lib.Interleaving
import EmbassySupervisor.Lib.LabelledRun
import Mathlib.Logic.Function.Basic

namespace EmbassySupervisor

open LabelledRun Interleaving

/-- Where the poll of the fence is: about to look at `fence_req`, to count the pass, or to
signal the gate event. -/
inductive FencePhase
  | look
  | count
  | notify
  deriving DecidableEq

/-- Whom the executor polls. -/
inductive Polled
  | task (k : ℕ)
  | fence (phase : FencePhase)
  deriving DecidableEq

/-- `SpawnerSlot::set`, up to its next access. -/
inductive SetPhase
  | swap
  | spawn
  | lower
  | fill
  | returned
  deriving DecidableEq

/-- The call is about to spawn the fence, or to take back that it is up. -/
def SetPhase.raising : SetPhase → Bool
  | .spawn | .lower => true
  | .swap | .fill | .returned => false

/-- Where an `executor_pass` is. `unfenced` is over: there is no fence to wait for. -/
inductive PassPhase
  | snapshot
  | request
  | signal
  | wait
  | passed
  | expired
  | unfenced
  deriving DecidableEq

structure PassCall where
  phase : PassPhase := .snapshot
  seen : UInt16 := 0
  since : ℕ := 0
  deriving DecidableEq

/-- One executor with its spawner slot. `busy` are its task slots, `acked` the tasks that have
acknowledged in the poll they are in. -/
structure FenceSys where
  busy : ℕ → Bool
  acked : ℕ → Bool := fun _ => false
  polled : Option Polled := none
  fenced : Bool := true
  fenceUp : Bool := false
  fence : Bool := false
  woken : Bool := false
  waiting : Bool := false
  fenceReq : Bool := false
  passes : UInt16 := 0
  filled : Bool := false
  gateEvt : Bool := false
  sets : List SetPhase := []
  calls : List PassCall := []
  done : ℕ := 0
  asked : ℕ := 0

namespace FenceSys

/-- A poll begins, the polled task acknowledges or returns, the fence goes on; a task is
spawned; `set` or `executor_pass` is called, goes on, or comes to its deadline. -/
inductive Label
  | poll (k : ℕ)
  | pollFence
  | ack
  | leave
  | fence
  | spawn (k : ℕ)
  | set
  | setStep (i : ℕ) (accepted : Bool)
  | pass
  | passStep (i : ℕ)
  | expire (i : ℕ)
  deriving DecidableEq

/-- `fence_req.signal`: latched, and the fence is woken if it waits. -/
def signalFence (s : FenceSys) : FenceSys :=
  { s with fenceReq := true, woken := s.woken || s.waiting, waiting := false, asked := s.asked + 1 }

/-- `__sv_fence_loop`. -/
def fenceStep (s : FenceSys) : FencePhase → FenceSys
  | .look =>
    if s.fenceReq then { s with fenceReq := false, polled := some (.fence .count) }
    else { s with waiting := true, polled := none }
  | .count =>
    { s with passes := s.passes + 1, done := s.done + 1, polled := some (.fence .notify) }
  | .notify => { s with gateEvt := true, polled := some (.fence .look) }

/-- `SpawnerSlot::set`. The executor may refuse the fence. -/
def setStep (s : FenceSys) (i : ℕ) (accepted : Bool) : SetPhase → Option FenceSys
  | .swap =>
    if s.fenced then
      some { s with
        fenceUp := true, sets := s.sets.set i (if s.fenceUp then .fill else .spawn) }
    else some { s with sets := s.sets.set i .fill }
  | .spawn =>
    if accepted then
      some { s with fence := true, woken := true, sets := s.sets.set i .fill }
    else some { s with sets := s.sets.set i .lower }
  | .lower => some { s with fenceUp := false, sets := s.sets.set i .fill }
  | .fill => some { s with filled := true, gateEvt := true, sets := s.sets.set i .returned }
  | .returned => none

/-- `executor_pass` on a node with a slot. -/
def passStep (s : FenceSys) (i : ℕ) (c : PassCall) : Option FenceSys :=
  match c.phase with
  | .snapshot =>
    some { s with calls := s.calls.set i { phase := .request, seen := s.passes, since := s.done } }
  | .request =>
    some { s with
      calls := s.calls.set i { c with phase := if s.fenceUp then .signal else .unfenced } }
  | .signal => some { s.signalFence with calls := s.calls.set i { c with phase := .wait } }
  | .wait =>
    if s.passes = c.seen then none
    else some { s with calls := s.calls.set i { c with phase := .passed } }
  | .passed | .expired | .unfenced => none

def next (s : FenceSys) : Label → Option FenceSys
  | .poll k =>
    if s.polled = none ∧ s.busy k = true then some { s with polled := some (.task k) } else none
  | .pollFence =>
    if s.polled = none ∧ s.fence = true ∧ s.woken = true then
      some { s with woken := false, polled := some (.fence .look) }
    else none
  | .ack =>
    match s.polled with
    | some (.task k) => some { s with acked := Function.update s.acked k true }
    | some (.fence _) | none => none
  | .leave =>
    match s.polled with
    | some (.task k) =>
      some { s with
        polled := none
        busy := Function.update s.busy k (s.busy k && !s.acked k)
        acked := Function.update s.acked k false }
    | some (.fence _) | none => none
  | .fence =>
    match s.polled with
    | some (.fence phase) => some (s.fenceStep phase)
    | some (.task _) | none => none
  | .spawn k => if s.busy k then none else some { s with busy := Function.update s.busy k true }
  | .set => some { s with sets := s.sets ++ [.swap] }
  | .setStep i accepted => s.sets[i]?.bind (s.setStep i accepted)
  | .pass => some { s with calls := s.calls ++ [{}] }
  | .passStep i => s.calls[i]?.bind (s.passStep i)
  | .expire i =>
    s.calls[i]?.bind fun c =>
      if c.phase = .wait ∧ s.passes = c.seen then
        some { s with calls := s.calls.set i { c with phase := .expired } }
      else none

variable {s t u : FenceSys} {l : Label} {labels : List Label}

/-! ## What a step can do -/

/-- The steps of the executor's own tasks, of the fence, of `set` and of `executor_pass`. -/
inductive Step (s : FenceSys) : Label → FenceSys → Prop
  | poll {k : ℕ} (hidle : s.polled = none) (hbusy : s.busy k = true) :
      Step s (.poll k) { s with polled := some (.task k) }
  | pollFence (hidle : s.polled = none) (hfence : s.fence = true) (hwoken : s.woken = true) :
      Step s .pollFence { s with woken := false, polled := some (.fence .look) }
  | ack {k : ℕ} (hpolled : s.polled = some (.task k)) :
      Step s .ack { s with acked := Function.update s.acked k true }
  | leave {k : ℕ} (hpolled : s.polled = some (.task k)) :
      Step s .leave { s with
        polled := none
        busy := Function.update s.busy k (s.busy k && !s.acked k)
        acked := Function.update s.acked k false }
  | fence {phase : FencePhase} (hpolled : s.polled = some (.fence phase)) :
      Step s .fence (s.fenceStep phase)
  | spawn {k : ℕ} (hfree : s.busy k = false) :
      Step s (.spawn k) { s with busy := Function.update s.busy k true }
  | set : Step s .set { s with sets := s.sets ++ [.swap] }
  | setStep {i : ℕ} {accepted : Bool} {c : SetPhase} {t : FenceSys} (hcall : s.sets[i]? = some c)
      (hstep : s.setStep i accepted c = some t) : Step s (.setStep i accepted) t
  | pass : Step s .pass { s with calls := s.calls ++ [{}] }
  | passStep {i : ℕ} {c : PassCall} {t : FenceSys} (hcall : s.calls[i]? = some c)
      (hstep : s.passStep i c = some t) : Step s (.passStep i) t
  | expire {i : ℕ} {c : PassCall} (hcall : s.calls[i]? = some c) (hwait : c.phase = .wait)
      (hseen : s.passes = c.seen) :
      Step s (.expire i) { s with calls := s.calls.set i { c with phase := .expired } }

theorem next_cases (h : next s l = some t) : Step s l t := by
  cases l with
  | poll k =>
      obtain ⟨⟨hidle, hbusy⟩, heq⟩ := Option.ite_none_right_eq_some.mp h
      cases heq
      exact .poll hidle hbusy
  | pollFence =>
      obtain ⟨⟨hidle, hfence, hwoken⟩, heq⟩ := Option.ite_none_right_eq_some.mp h
      cases heq
      exact .pollFence hidle hfence hwoken
  | ack =>
      simp only [next] at h
      split at h
      · next hpolled =>
          cases h
          exact .ack hpolled
      · cases h
      · cases h
  | leave =>
      simp only [next] at h
      split at h
      · next hpolled =>
          cases h
          exact .leave hpolled
      · cases h
      · cases h
  | fence =>
      simp only [next] at h
      split at h
      · next hpolled =>
          cases h
          exact .fence hpolled
      · cases h
      · cases h
  | spawn k =>
      simp only [next] at h
      split at h
      · cases h
      · next hbusy =>
          cases h
          exact .spawn (by simpa using hbusy)
  | set =>
      cases h
      exact .set
  | setStep i accepted =>
      obtain ⟨c, hcall, hstep⟩ := Option.bind_eq_some_iff.mp h
      exact .setStep hcall hstep
  | pass =>
      cases h
      exact .pass
  | passStep i =>
      obtain ⟨c, hcall, hstep⟩ := Option.bind_eq_some_iff.mp h
      exact .passStep hcall hstep
  | expire i =>
      obtain ⟨c, hcall, hstep⟩ := Option.bind_eq_some_iff.mp h
      obtain ⟨⟨hwait, hseen⟩, heq⟩ := Option.ite_none_right_eq_some.mp hstep
      cases heq
      exact .expire hcall hwait hseen

/-- `set` leaves the tasks and the passes alone. -/
theorem setStep_frame {i : ℕ} {accepted : Bool} {c : SetPhase}
    (h : s.setStep i accepted c = some t) : t.busy = s.busy ∧ t.polled = s.polled ∧
      t.acked = s.acked ∧ t.passes = s.passes ∧ t.calls = s.calls := by
  cases c with
  | swap | spawn =>
      simp only [setStep] at h
      split at h <;> cases h <;> exact ⟨rfl, rfl, rfl, rfl, rfl⟩
  | lower | fill =>
      cases h
      exact ⟨rfl, rfl, rfl, rfl, rfl⟩
  | returned => cases h

/-- So does `executor_pass`. -/
theorem passStep_frame {i : ℕ} {c : PassCall} (h : s.passStep i c = some t) :
    t.busy = s.busy ∧ t.polled = s.polled ∧ t.acked = s.acked ∧ t.passes = s.passes := by
  unfold passStep at h
  split at h
  · cases h
    exact ⟨rfl, rfl, rfl, rfl⟩
  · cases h
    exact ⟨rfl, rfl, rfl, rfl⟩
  · cases h
    exact ⟨rfl, rfl, rfl, rfl⟩
  · split at h
    · cases h
    · cases h
      exact ⟨rfl, rfl, rfl, rfl⟩
  · cases h
  · cases h
  · cases h

/-! ## A pass is not counted while a poll lasts -/

/-- The task is in its last poll. -/
def Ending (k : ℕ) (s : FenceSys) : Prop := s.polled = some (.task k) ∧ s.acked k = true

/-- The call at an index has yet to look at the count, or it has not changed since. -/
def Ungranted (i : ℕ) (s : FenceSys) : Prop :=
  ∀ c, s.calls[i]? = some c → c.phase = .snapshot ∨ c.phase ≠ .passed ∧ c.seen = s.passes

/-- **As long as the poll lasts, no call is granted a pass.** -/
theorem ungranted_next {i k : ℕ} (hending : s.Ending k) (hungranted : s.Ungranted i)
    (hstays : l ≠ .leave) (h : next s l = some t) : t.Ending k ∧ t.Ungranted i := by
  obtain ⟨hpolled, hacked⟩ := hending
  cases next_cases h with
  | poll hidle | pollFence hidle => simp [hpolled] at hidle
  | fence hfence => simp [hpolled] at hfence
  | leave => exact absurd rfl hstays
  | ack hnow =>
      refine ⟨⟨hpolled, ?_⟩, hungranted⟩
      simp only [Function.update_apply, hacked, ite_self]
  | spawn | set => exact ⟨⟨hpolled, hacked⟩, hungranted⟩
  | setStep _ hstep =>
      obtain ⟨-, hsame, hkept, hpasses, hcalls⟩ := setStep_frame hstep
      refine ⟨⟨hsame.trans hpolled, (congrFun hkept k).trans hacked⟩, ?_⟩
      intro d hd
      rw [hcalls] at hd
      rw [hpasses]
      exact hungranted d hd
  | pass =>
      refine ⟨⟨hpolled, hacked⟩, fun d hd => ?_⟩
      rcases getElem?_append_singleton hd with rfl | hold
      · exact Or.inl rfl
      · exact hungranted d hold
  | @expire j c hcall _ hseen =>
      refine ⟨⟨hpolled, hacked⟩, fun d hd => ?_⟩
      rcases getElem?_set_cases hd with ⟨-, rfl⟩ | hold
      · exact Or.inr ⟨by simp, hseen.symm⟩
      · exact hungranted d hold
  | @passStep j c _ hcall hstep =>
      have moved : ∀ c' : PassCall, (j = i → c'.phase ≠ .passed ∧ c'.seen = s.passes) →
          Ungranted i { s with calls := s.calls.set j c' } := by
        intro c' hc' d hd
        rcases getElem?_set_cases hd with ⟨hji, rfl⟩ | hold
        · exact Or.inr (hc' hji.symm)
        · exact hungranted d hold
      have before : c.phase ≠ .snapshot → j = i → c.seen = s.passes := by
        rintro hlater rfl
        exact ((hungranted c hcall).resolve_left hlater).2
      unfold passStep at hstep
      split at hstep
      · cases hstep
        exact ⟨⟨hpolled, hacked⟩, moved _ fun _ => ⟨by simp, rfl⟩⟩
      · next hphase =>
          cases hstep
          refine ⟨⟨hpolled, hacked⟩, moved _ fun hji => ⟨?_, before (by simp [hphase]) hji⟩⟩
          split <;> simp
      · next hphase =>
          cases hstep
          exact ⟨⟨hpolled, hacked⟩, moved _ fun hji => ⟨by simp, before (by simp [hphase]) hji⟩⟩
      · next hphase =>
          split at hstep
          · cases hstep
          · next hchanged =>
              cases hstep
              refine ⟨⟨hpolled, hacked⟩, moved _ fun hji => ?_⟩
              exact absurd (before (by simp [hphase]) hji).symm hchanged
      · cases hstep
      · cases hstep
      · cases hstep

/-- A call that is granted a pass has seen the last poll return that it began in. -/
theorem leave_of_passed {i k : ℕ} {c d : PassCall} (hending : s.Ending k)
    (hc : s.calls[i]? = some c) (hbegin : c.phase = .snapshot)
    (hrun : exec next s labels = some t) (hd : t.calls[i]? = some d) (hpass : d.phase = .passed) :
    ∃ before after u v, labels = before ++ .leave :: after ∧ exec next s before = some u ∧
      u.Ending k ∧ next u .leave = some v ∧ v.busy k = false ∧ exec next v after = some t := by
  have hstart : s.Ungranted i := by
    intro c' hc'
    rw [hc] at hc'
    cases hc'
    exact Or.inl hbegin
  have hkept : ∀ {ls : List Label} {u : FenceSys}, Along next (fun _ l => l ≠ .leave) s ls →
      exec next s ls = some u → u.Ending k ∧ u.Ungranted i := fun halong hls =>
    exec_invariant_along (I := fun u => u.Ending k ∧ u.Ungranted i)
      (fun _ _ _ hu hl hstep => ungranted_next hu.1 hu.2 hl hstep) ⟨hending, hstart⟩ halong hls
  rcases along_or_breach (P := fun _ l => l ≠ .leave) hrun with
    halong | ⟨before, l, after, u, v, rfl, hbefore, halong, hleave, hstep, hafter⟩
  · rcases (hkept halong hrun).2 d hd with hsnapshot | ⟨hnot, -⟩
    · simp [hpass] at hsnapshot
    · exact absurd hpass hnot
  · obtain rfl := not_not.mp hleave
    have hlast := (hkept halong hbefore).1
    refine ⟨before, after, u, v, rfl, hbefore, hlast, hstep, ?_, hafter⟩
    cases next_cases hstep with
    | leave hpolled =>
        obtain rfl := Polled.task.inj (Option.some.inj (hlast.1.symm.trans hpolled))
        simp [hlast.2]

/-- A free task slot stays free until a task is spawned into it. -/
theorem free_next {k : ℕ} (hfree : s.busy k = false) (hspawn : l ≠ .spawn k)
    (h : next s l = some t) : t.busy k = false := by
  cases next_cases h with
  | poll | pollFence | ack | set | pass | expire => exact hfree
  | fence =>
      show (s.fenceStep _).busy k = false
      unfold fenceStep
      split
      · split <;> exact hfree
      · exact hfree
      · exact hfree
  | leave =>
      simp only [Function.update_apply]
      split
      · next heq => rw [← heq, hfree, Bool.false_and]
      · exact hfree
  | @spawn j =>
      have hne : k ≠ j := by
        rintro rfl
        exact hspawn rfl
      simpa [Function.update_of_ne hne] using hfree
  | setStep _ hstep =>
      rw [(setStep_frame hstep).1]
      exact hfree
  | passStep _ hstep =>
      rw [(passStep_frame hstep).1]
      exact hfree

/-- **A pass frees the task slot.** When a task has acknowledged in its last poll before an
`executor_pass` looks at the count, and the call is granted a pass, that poll has returned
meanwhile and left its slot free; and unless somebody else has spawned a task into the slot
since, the executor accepts the next one. -/
theorem pass_frees {s t : FenceSys} {i k : ℕ} {c d : PassCall} {labels : List Label}
    (hending : s.Ending k) (hc : s.calls[i]? = some c) (hbegin : c.phase = .snapshot)
    (hrun : exec next s labels = some t) (hd : t.calls[i]? = some d) (hpass : d.phase = .passed) :
    (∃ before after u v, labels = before ++ .leave :: after ∧ exec next s before = some u ∧
      u.Ending k ∧ next u .leave = some v ∧ v.busy k = false) ∧
      (.spawn k ∉ labels → ∃ v, next t (.spawn k) = some v) := by
  obtain ⟨before, after, u, v, rfl, hbefore, hlast, hleave, hfree, hafter⟩ :=
    leave_of_passed hending hc hbegin hrun hd hpass
  refine ⟨⟨before, after, u, v, rfl, hbefore, hlast, hleave, hfree⟩, fun hnobody => ?_⟩
  have hspawn : ∀ l ∈ after, l ≠ .spawn k := by
    rintro l hl rfl
    exact hnobody (by simp [hl])
  have hkept : t.busy k = false :=
    exec_invariant_along (I := fun x => x.busy k = false)
      (fun _ _ _ hx hl hstep => free_next hx hl hstep) hfree (along_of_forall hspawn v) hafter
  exact ⟨_, by rw [next, hkept]; rfl⟩

/-- Nobody has filled the slot or asked for a pass. -/
def boot (fenced : Bool) (busy : ℕ → Bool) : FenceSys := { busy, fenced }

/-- The slot is filled and the fence waits; the one task acknowledges, and before its poll
returns a pass is called for. -/
def lastPoll : List Label :=
  [.set, .setStep 0 true, .setStep 0 true, .setStep 0 true, .pollFence, .fence, .poll 0, .ack,
    .pass]

def lastPolled : Option FenceSys := exec next (boot true fun k => k == 0) lastPoll

/-- The fence is asked, the poll returns, and the fence counts a pass. -/
def counted : List Label :=
  [.passStep 0, .passStep 0, .passStep 0, .leave, .pollFence, .fence, .fence, .fence, .fence]

theorem pass_frees_last :
    (∃ before after u v, counted ++ [.passStep 0] = before ++ .leave :: after ∧
      exec next (lastPolled.get rfl) before = some u ∧ u.Ending 0 ∧ next u .leave = some v ∧
      v.busy 0 = false) ∧
    ∃ v, next ((exec next (lastPolled.get rfl) (counted ++ [.passStep 0])).get rfl) (.spawn 0) =
      some v := by
  have hrun : (exec next (lastPolled.get rfl) (counted ++ [.passStep 0])).isSome = true := rfl
  obtain ⟨hreturns, hspawn⟩ :=
    pass_frees (i := 0) (k := 0) ⟨rfl, rfl⟩ rfl rfl (Option.some_get hrun).symm rfl rfl
  exact ⟨hreturns, hspawn (by decide)⟩

/-! ## No request is lost -/

/-- The fence has taken a request, and is about to count the pass. -/
def counting (s : FenceSys) : Bool := s.polled == some (.fence .count)

/-- The fence is in a poll, or will be polled, or waits for a request that has not come. -/
def Attends (s : FenceSys) : Prop :=
  (∃ phase, s.polled = some (.fence phase)) ∨ s.woken = true ∨
    s.waiting = true ∧ s.fenceReq = false

/-- What a call has seen is from before, and while no pass has been counted since, one is
on its way to a call that waits. -/
structure Asks (s : FenceSys) (c : PassCall) : Prop where
  seen : c.seen = UInt16.ofNat c.since
  since : c.since ≤ s.done
  owed : c.phase = .wait → c.since = s.done → s.fenceReq = true ∨ s.counting = true

structure Sound (s : FenceSys) : Prop where
  passes : s.passes = UInt16.ofNat s.done
  raised : s.fence.toNat + s.sets.countP SetPhase.raising = s.fenceUp.toNat
  attends : s.fence = true → s.Attends
  spent : s.done + s.fenceReq.toNat + s.counting.toNat ≤ s.asked
  asks : ∀ c ∈ s.calls, s.Asks c

variable {c c' : PassCall}

theorem Asks.keep (h : s.Asks c) (hdone : s.done ≤ t.done)
    (howed : t.done = s.done → s.fenceReq = true ∨ s.counting = true →
      t.fenceReq = true ∨ t.counting = true) : t.Asks c := by
  refine ⟨h.seen, Nat.le_trans h.since hdone, fun hwait hsince => ?_⟩
  have hsame : c.since = s.done := Nat.le_antisymm h.since (hsince ▸ hdone)
  exact howed (hsince.symm.trans hsame) (h.owed hwait hsame)

/-- No pass is counted and no request taken. -/
theorem Asks.carry (h : s.Asks c) (hdone : t.done = s.done) (hreq : t.fenceReq = s.fenceReq)
    (hcounting : s.counting = true → t.counting = true) : t.Asks c :=
  h.keep (Nat.le_of_eq hdone.symm) fun _ howed => howed.imp (fun h => hreq.trans h) hcounting

/-- A call goes on, and does not begin to wait. -/
theorem Asks.goes (h : s.Asks c) (hseen : c'.seen = c.seen) (hsince : c'.since = c.since)
    (hphase : c'.phase ≠ .wait) : s.Asks c' :=
  ⟨by rw [hseen, hsince]; exact h.seen, hsince ▸ h.since, fun hwait => absurd hwait hphase⟩

/-- One call moves on, and the rest of the state stays. -/
theorem Sound.callMoves (hs : s.Sound) {i : ℕ} (hc' : s.Asks c') :
    Sound { s with calls := s.calls.set i c' } where
  passes := hs.passes
  raised := hs.raised
  attends := hs.attends
  spent := hs.spent
  asks := forall_mem_set (fun d hd => (hs.asks d hd).carry rfl rfl id) (hc'.carry rfl rfl id)

theorem Sound.signalFence (hs : s.Sound) : s.signalFence.Sound where
  passes := hs.passes
  raised := hs.raised
  attends hfence := by
    rcases hs.attends hfence with hpolled | hwoken | ⟨hwaiting, -⟩
    · exact Or.inl hpolled
    · exact Or.inr (Or.inl (by simp [FenceSys.signalFence, hwoken]))
    · exact Or.inr (Or.inl (by simp [FenceSys.signalFence, hwaiting]))
  spent := by
    have hspent := hs.spent
    have hreq := Bool.toNat_le s.fenceReq
    show s.done + 1 + s.counting.toNat ≤ s.asked + 1
    omega
  asks d hd := (hs.asks d hd).keep (Nat.le_refl _) fun _ _ => Or.inl rfl

theorem Sound.fenceStep (hs : s.Sound) {phase : FencePhase}
    (hpolled : s.polled = some (.fence phase)) : (s.fenceStep phase).Sound := by
  have hspent := hs.spent
  cases phase with
  | look =>
      have hcounting : s.counting = false := by simp [counting, hpolled]
      simp only [FenceSys.fenceStep]
      split
      · next hreq =>
          refine ⟨hs.passes, hs.raised, fun _ => Or.inl ⟨.count, rfl⟩, ?_, fun d hd => ?_⟩
          · show s.done + 0 + 1 ≤ s.asked
            simpa [hreq, hcounting] using hspent
          · exact (hs.asks d hd).keep (Nat.le_refl _) fun _ _ => Or.inr rfl
      · next hreq =>
          refine ⟨hs.passes, hs.raised, fun _ => ?_, ?_, fun d hd => ?_⟩
          · exact Or.inr (Or.inr ⟨rfl, by simpa using hreq⟩)
          · show s.done + s.fenceReq.toNat + 0 ≤ s.asked
            simpa [hcounting] using hspent
          · exact (hs.asks d hd).carry rfl rfl (by simp [hcounting])
  | count =>
      have hcounting : s.counting = true := by simp [counting, hpolled]
      refine ⟨?_, hs.raised, fun _ => Or.inl ⟨.notify, rfl⟩, ?_, fun d hd => ?_⟩
      · show s.passes + 1 = UInt16.ofNat (s.done + 1)
        rw [UInt16.ofNat_add, ← hs.passes]
        rfl
      · show s.done + 1 + s.fenceReq.toNat + 0 ≤ s.asked
        rw [hcounting] at hspent
        simp only [Bool.toNat_true] at hspent
        omega
      · exact (hs.asks d hd).keep (Nat.le_succ _) fun h => absurd h (Nat.succ_ne_self _)
  | notify =>
      have hcounting : s.counting = false := by simp [counting, hpolled]
      refine ⟨hs.passes, hs.raised, fun _ => Or.inl ⟨.look, rfl⟩, ?_, fun d hd => ?_⟩
      · show s.done + s.fenceReq.toNat + 0 ≤ s.asked
        simpa [hcounting] using hspent
      · exact (hs.asks d hd).carry rfl rfl (by simp [hcounting])

/-- At most one `set` raises the fence, and none once it is up. -/
theorem Sound.setStep (hs : s.Sound) {i : ℕ} {accepted : Bool} {c : SetPhase}
    (hc : s.sets[i]? = some c) (h : s.setStep i accepted c = some t) : t.Sound := by
  have hraised := hs.raised
  have hup := Bool.toNat_le s.fenceUp
  have moved : ∀ c' : SetPhase, (s.sets.set i c').countP SetPhase.raising + c.raising.toNat =
      s.sets.countP SetPhase.raising + c'.raising.toNat := fun c' =>
    countP_set_add SetPhase.raising c' hc
  have build : ∀ {fenceUp fence woken filled gateEvt : Bool} {sets : List SetPhase},
      fence.toNat + sets.countP SetPhase.raising = fenceUp.toNat →
      (fence = true → s.fence = true ∧ woken = s.woken ∨ woken = true) →
      Sound { s with fenceUp, fence, woken, filled, gateEvt, sets } := by
    intro fenceUp fence woken filled gateEvt sets hcount hwoken
    refine ⟨hs.passes, hcount, fun hfence => ?_, hs.spent, fun d hd => ?_⟩
    · rcases hwoken hfence with ⟨hold, hsame⟩ | hwoken
      · subst hsame
        exact hs.attends hold
      · exact Or.inr (Or.inl hwoken)
    · exact (hs.asks d hd).carry rfl rfl id
  cases c with
  | swap =>
      simp only [FenceSys.setStep] at h
      split at h
      · cases h
        apply build
        · cases hwas : s.fenceUp with
          | true =>
              have hmoved := moved .fill
              simp only [hwas, SetPhase.raising, if_true, Bool.toNat_true, Bool.toNat_false] at *
              omega
          | false =>
              have hmoved := moved .spawn
              simp only [hwas, SetPhase.raising, Bool.false_eq_true, if_false, Bool.toNat_true,
                Bool.toNat_false] at *
              omega
        · exact fun hfence => Or.inl ⟨hfence, rfl⟩
      · cases h
        apply build
        · have hmoved := moved .fill
          simp only [SetPhase.raising, Bool.toNat_false] at hmoved
          omega
        · exact fun hfence => Or.inl ⟨hfence, rfl⟩
  | spawn =>
      simp only [FenceSys.setStep] at h
      split at h
      · cases h
        apply build
        · have hmoved := moved .fill
          simp only [SetPhase.raising, Bool.toNat_true, Bool.toNat_false] at *
          omega
        · exact fun _ => Or.inr rfl
      · cases h
        apply build
        · have hmoved := moved .lower
          simp only [SetPhase.raising, Bool.toNat_true] at hmoved
          omega
        · exact fun hfence => Or.inl ⟨hfence, rfl⟩
  | lower =>
      cases h
      apply build
      · have hmoved := moved .fill
        simp only [SetPhase.raising, Bool.toNat_true, Bool.toNat_false] at *
        omega
      · exact fun hfence => Or.inl ⟨hfence, rfl⟩
  | fill =>
      cases h
      apply build
      · have hmoved := moved .returned
        simp only [SetPhase.raising, Bool.toNat_false] at hmoved
        omega
      · exact fun hfence => Or.inl ⟨hfence, rfl⟩
  | returned => cases h

theorem Sound.passStep (hs : s.Sound) {i : ℕ} (hc : s.calls[i]? = some c)
    (h : s.passStep i c = some t) : t.Sound := by
  have hasks := hs.asks c (List.mem_of_getElem? hc)
  unfold FenceSys.passStep at h
  split at h
  · cases h
    exact hs.callMoves ⟨hs.passes, Nat.le_refl _, nofun⟩
  · cases h
    exact hs.callMoves (hasks.goes rfl rfl (by show ite _ _ _ ≠ _; split <;> simp))
  · cases h
    have hsignaled := hs.signalFence
    exact hsignaled.callMoves ⟨hasks.seen, hasks.since, fun _ _ => Or.inl rfl⟩
  · split at h
    · cases h
    · cases h
      exact hs.callMoves (hasks.goes rfl rfl (by simp))
  · cases h
  · cases h
  · cases h

theorem Sound.next (hs : s.Sound) (h : FenceSys.next s l = some t) : t.Sound := by
  have hspent := hs.spent
  -- a poll of a task begins or ends
  have turns : ∀ (polled : Option Polled) (busy acked : ℕ → Bool),
      (∀ phase, s.polled ≠ some (.fence phase)) → (∀ phase, polled ≠ some (.fence phase)) →
      Sound { s with polled, busy, acked } := by
    intro polled busy acked hwas his
    have hcounting : s.counting = false := by
      by_contra hcount
      exact hwas .count (by simpa [counting] using hcount)
    have hstill : (polled == some (.fence .count)) = false := by
      by_contra hcount
      exact his .count (by simpa using hcount)
    refine ⟨hs.passes, hs.raised, fun hfence => ?_, ?_, fun d hd => ?_⟩
    · rcases hs.attends hfence with ⟨phase, hpolled⟩ | hrest
      · exact absurd hpolled (hwas phase)
      · exact Or.inr hrest
    · show s.done + s.fenceReq.toNat + (polled == some (.fence .count)).toNat ≤ s.asked
      simpa [hstill, hcounting] using hspent
    · exact (hs.asks d hd).carry rfl rfl (by simp [hcounting])
  cases next_cases h with
  | poll hidle => exact turns _ _ _ (by simp [hidle]) (by simp)
  | leave hpolled => exact turns _ _ _ (by simp [hpolled]) (by simp)
  | pollFence hidle =>
      have hcounting : s.counting = false := by simp [counting, hidle]
      refine ⟨hs.passes, hs.raised, fun _ => Or.inl ⟨.look, rfl⟩, ?_, fun d hd => ?_⟩
      · show s.done + s.fenceReq.toNat + 0 ≤ s.asked
        simpa [hcounting] using hspent
      · exact (hs.asks d hd).carry rfl rfl (by simp [hcounting])
  | fence hpolled => exact hs.fenceStep hpolled
  | ack | spawn =>
      exact ⟨hs.passes, hs.raised, hs.attends, hs.spent,
        fun d hd => (hs.asks d hd).carry rfl rfl id⟩
  | set =>
      refine ⟨hs.passes, ?_, hs.attends, hs.spent,
        fun d hd => (hs.asks d hd).carry rfl rfl id⟩
      simpa [SetPhase.raising] using hs.raised
  | setStep hcall hstep => exact hs.setStep hcall hstep
  | pass =>
      refine ⟨hs.passes, hs.raised, hs.attends, hs.spent, fun d hd => ?_⟩
      rcases List.mem_append.mp hd with hold | hnew
      · exact (hs.asks d hold).carry rfl rfl id
      · obtain rfl := List.mem_singleton.mp hnew
        exact ⟨rfl, Nat.zero_le _, nofun⟩
  | passStep hcall hstep => exact hs.passStep hcall hstep
  | expire hcall =>
      exact hs.callMoves ((hs.asks _ (List.mem_of_getElem? hcall)).goes rfl rfl (by simp))

theorem sound_boot (fenced : Bool) (busy : ℕ → Bool) : (boot fenced busy).Sound where
  passes := rfl
  raised := rfl
  attends := nofun
  spent := Nat.le_refl _
  asks := nofun

/-- **No request is lost, and none is answered twice.** In every run the fence is up for good
once it is spawned and no other `set` spawns it again; no more passes are counted than were
asked for; and while the fence is neither polled nor woken, every call that waits finds the
count changed, unless as many passes have been counted since it looked as the count has
values. -/
theorem waits_answered (fenced : Bool) (busy : ℕ → Bool) {labels : List Label} {t : FenceSys}
    (hrun : exec next (boot fenced busy) labels = some t) :
    t.done ≤ t.asked ∧
      (t.fence = true → t.fenceUp = true ∧ ∀ c ∈ t.sets, c.raising = false) ∧
      (t.fence = true → (∀ phase, t.polled ≠ some (.fence phase)) → t.woken = false →
        ∀ c ∈ t.calls, c.phase = .wait →
          c.since < t.done ∧ (t.done < c.since + UInt16.size → t.passes ≠ c.seen)) := by
  have hsound : t.Sound :=
    exec_invariant (fun _ _ _ hs hstep => hs.next hstep) (sound_boot fenced busy) hrun
  have hspent := hsound.spent
  refine ⟨by omega, fun hfence => ?_, fun hfence hpolled hwoken c hc hwait => ?_⟩
  · have hraised := hsound.raised
    have hup := Bool.toNat_le t.fenceUp
    rw [hfence, Bool.toNat_true] at hraised
    refine ⟨?_, fun c hc => ?_⟩
    · apply Bool.toNat_eq_one.mp
      omega
    · by_contra hraising
      have hpos := List.countP_pos_iff.mpr ⟨c, hc, by simpa using hraising⟩
      omega
  · have hasks := hsound.asks c hc
    have hreq : t.fenceReq = false := by
      rcases hsound.attends hfence with ⟨phase, hphase⟩ | hwake | ⟨-, hnone⟩
      · exact absurd hphase (hpolled phase)
      · simp [hwoken] at hwake
      · exact hnone
    have hcounting : t.counting = false := by
      by_contra hcount
      exact hpolled .count (by simpa [counting] using hcount)
    have hlt : c.since < t.done := by
      apply Nat.lt_of_le_of_ne hasks.since
      intro hsame
      rcases hasks.owed hwait hsame with h | h
      · simp [hreq] at h
      · simp [hcounting] at h
    refine ⟨hlt, fun hbound hsame => ?_⟩
    rw [hsound.passes, hasks.seen] at hsame
    have hmod := congrArg UInt16.toNat hsame
    have hsize : UInt16.size = 65536 := rfl
    simp only [UInt16.toNat_ofNat'] at hmod
    omega

/-- The fence has counted the pass, and the call has not looked again. -/
def countedRun : Option FenceSys :=
  exec next (boot true fun k => k == 0) (lastPoll ++ counted)

theorem waits_answered_last :
    (countedRun.get rfl).calls.length = 1 ∧
      ∀ c ∈ (countedRun.get rfl).calls, c.phase = .wait → (countedRun.get rfl).passes ≠ c.seen := by
  have hrun : countedRun.isSome = true := rfl
  have hdone : (countedRun.get rfl).done = 1 := rfl
  obtain ⟨-, -, hanswered⟩ := waits_answered true (fun k => k == 0) (Option.some_get hrun).symm
  refine ⟨rfl, fun c hc hwait => ?_⟩
  obtain ⟨hlt, hchanged⟩ := hanswered rfl nofun rfl c hc hwait
  apply hchanged
  rw [hdone]
  exact Nat.lt_add_left _ (by decide)

end FenceSys

end EmbassySupervisor
