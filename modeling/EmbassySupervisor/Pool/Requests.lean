/-
# The scale request stays until it is taken

`SCALE_REQ` is one latch that many post and only the pool driver takes. No task event and
no step of a verb takes it (`scaleReq_of_apply`, `scaleReq_of_begin`, `scaleReq_of_step`),
and an `activate` or a `restart` that has begun to bring nodes up posts it when it is done
(`raising_or_scaleReq`).
-/

import EmbassySupervisor.Verb.Frame

namespace EmbassySupervisor

variable {n : ℕ}

/-- The request is a latch of its own. -/
theorem frame_scaleReq : World.Frame (World.scaleReq (n := n)) := by
  refine ⟨?_, ?_, ?_, ?_, ?_, ?_, ?_, ?_⟩
  all_goals
    intros
    rfl

/-! ## Task events -/

/-- **No task event takes the request.** -/
theorem TaskEvent.scaleReq_of_apply {g : Graph n} {w w' : World n} {e : TaskEvent n}
    (happly : e.apply g w = some w') (h : w.scaleReq = true) : w'.scaleReq = true := by
  have of_eq : ∀ {u : World n}, some u = some w' → u.scaleReq = true → w'.scaleReq = true := by
    intro u heq hu
    rwa [Option.some.inj heq] at hu
  cases e with
  | ackDropped j =>
      obtain ⟨cfg, -, happly⟩ := Option.bind_eq_some_iff.mp happly
      split at happly
      · cases happly
      · apply of_eq happly
        rwa [World.ackDropped, frame_scaleReq.settleDropped, frame_scaleReq.releaseProvided]
  | markExited j =>
      obtain ⟨cfg, -, happly⟩ := Option.bind_eq_some_iff.mp happly
      split at happly
      · cases happly
      · apply of_eq happly
        rwa [World.markExited, frame_scaleReq.settleDropped, frame_scaleReq.putFlag,
          frame_scaleReq.releaseProvided]
  | appSpawn j =>
      obtain ⟨cfg, -, happly⟩ := Option.bind_eq_some_iff.mp happly
      split at happly
      · exact of_eq happly h
      · cases happly
  | park j | fencePass s =>
      simp only [apply] at happly
      split at happly
      · exact of_eq happly h
      · cases happly
  | setReady j => exact of_eq happly rfl
  | markBusy j | markIdle j =>
      refine of_eq happly ?_
      simp only [World.putBusy]
      split
      · rfl
      · exact h
  | elapse | clearReady | setDetached | pollShutdown | takeResume | provide | take | clear
  | fillSlot | setRefused => exact of_eq happly h

/-! ## Calls -/

/-- **The front half of a verb does not touch the request.** -/
theorem scaleReq_begin (g : Graph n) (w : World n) (v : Verb n) :
    (g.begin w v).2.scaleReq = w.scaleReq := by
  rcases frame_scaleReq.begin_eq g w v with h | ⟨target, rfl, h⟩
  · exact h
  · rw [h]
    unfold Graph.countRestart
    split
    · rfl
    · simp only
      split
      · rfl
      · split <;> rfl

/-- An `activate` or a `restart` brings nodes up; a panic leaves nothing to run on. -/
def Call.raising : Call n → Bool
  | .starting _ poke => poke
  | .panic => true
  | .stopping _ _ | .startNode _ _ _ | .stopNode _ _ | .bindUp _ | .done _ | .cancelled => false

/-- **No step of a verb takes the request.** -/
theorem Call.scaleReq_of_step {g : Graph n} {w w' : World n} {c c' : Call n}
    (h : c.step g w = some (c', w')) (hreq : w.scaleReq = true) : w'.scaleReq = true := by
  rcases frame_scaleReq.step_eq h with heq | heq
  · rw [heq]
    exact hreq
  · rw [heq]
    rfl

/-- **A bring-up that owes a request stays, or posts it.** -/
theorem raising_or_scaleReq {g : Graph n} {w w' : World n} {c c' : Call n}
    (hpools : g.has .pools = true) (h : c.step g w = some (c', w')) (hc : c.raising = true) :
    c'.raising = true ∨ w'.scaleReq = true := by
  cases c with
  | starting wave poke =>
      have hpoke : poke = true := hc
      subst hpoke
      simp only [Call.step] at h
      split at h
      · cases h
        simp [hpools]
      · cases h
        exact Or.inl rfl
      all_goals
        obtain ⟨⟨s', u⟩, hstep, heq⟩ := Option.map_eq_some_iff.mp h
        cases heq
        exact Or.inl rfl
  | panic => simp [Call.step] at h
  | stopping | startNode | stopNode | bindUp | done | cancelled => simp [Call.raising] at hc

end EmbassySupervisor
