/-
# Calls interleaved one atomic action at a time

A call that takes no lock is the list of its atomic actions, and calls in flight
are such lists, each cut down to what its call has left. Whoever is scheduled
performs the head of its list.

Calls that all end in one same action, a signal say, leave a trace of themselves
as long as they run: `take_closing` says that an action is either that last one or
leaves its call unfinished. Calls that branch on what they read are kept as a list of
their states; `countP_set_add` is the account of one of them moving on. Nothing here
names a particular memory.
-/

import Mathlib.Data.List.Basic

namespace Interleaving

universe u

variable {α : Type u}

/-- Every call has performed its last action. -/
def Finished (calls : List (List α)) : Prop := ∀ c ∈ calls, c = []

/-- The next action of the call at an index, and the calls after it. -/
def take (calls : List (List α)) (k : ℕ) : Option (α × List (List α)) :=
  match calls[k]? with
  | some (a :: rest) => some (a, calls.set k rest)
  | some [] | none => none

/-- **Inversion of one action.** -/
theorem take_eq_some {calls calls' : List (List α)} {k : ℕ} {a : α}
    (h : take calls k = some (a, calls')) :
    ∃ rest, calls[k]? = some (a :: rest) ∧ calls' = calls.set k rest := by
  unfold take at h
  match hc : calls[k]? with
  | some (b :: rest) =>
      simp only [hc, Option.some.injEq, Prod.mk.injEq] at h
      obtain ⟨rfl, rfl⟩ := h
      exact ⟨rest, rfl, rfl⟩
  | some [] | none => simp [hc] at h

/-- A call over, or one whose last action is `a`. -/
def Closing (a : α) (c : List α) : Prop := c = [] ∨ c.getLast? = some a

theorem closing_append_singleton (c : List α) (a : α) : Closing a (c ++ [a]) :=
  Or.inr List.getLast?_concat

/-- What is left of a closing call is closing, and nothing is left only after the
closing action. -/
theorem Closing.tail {a b : α} {c : List α} (h : Closing a (b :: c)) :
    Closing a c ∧ (c = [] → b = a) := by
  have hlast := h.resolve_left (by simp)
  cases c with
  | nil => exact ⟨Or.inl rfl, fun _ => by simpa using hlast⟩
  | cons d c => exact ⟨Or.inr (by simpa using hlast), fun h => by simp at h⟩

/-- Among closing calls an action is the closing one, or its call is still unfinished
after it. -/
theorem take_closing {calls calls' : List (List α)} {k : ℕ} {a b : α}
    (hcalls : ∀ c ∈ calls, Closing a c) (h : take calls k = some (b, calls')) :
    (∀ c ∈ calls', Closing a c) ∧ (b = a ∨ ¬ Finished calls') := by
  obtain ⟨rest, hk, rfl⟩ := take_eq_some h
  have hlt : k < calls.length := (List.getElem?_eq_some_iff.mp hk).1
  have htail := (hcalls _ (List.mem_of_getElem? hk)).tail
  constructor
  · intro c hc
    rcases List.mem_or_eq_of_mem_set hc with hc | rfl
    · exact hcalls c hc
    · exact htail.1
  · by_cases hrest : rest = []
    · exact Or.inl (htail.2 hrest)
    · exact Or.inr fun hdone => hrest (hdone rest (List.mem_set hlt _))

/-! ## One call of a list moves on -/

variable {calls : List α} {k : ℕ} {c c' : α}

/-- How many calls are as `p` says changes by the call that moves. -/
theorem countP_set_add (p : α → Bool) (c' : α) (hk : calls[k]? = some c) :
    (calls.set k c').countP p + (p c).toNat = calls.countP p + (p c').toNat := by
  obtain ⟨hlt, rfl⟩ := List.getElem?_eq_some_iff.mp hk
  rw [List.countP_set hlt]
  have hpos : p calls[k] = true → 0 < calls.countP p := fun hp =>
    List.countP_pos_iff.mpr ⟨_, List.getElem_mem hlt, hp⟩
  cases hp : p calls[k] with
  | true =>
      have := hpos hp
      cases p c' <;> simp <;> omega
  | false => cases p c' <;> simp

/-- What holds of every call still does if it holds of the one that moved. -/
theorem forall_mem_set {P : α → Prop} (hall : ∀ d ∈ calls, P d) (hc : P c') :
    ∀ d ∈ calls.set k c', P d := by
  intro d hd
  rcases List.mem_or_eq_of_mem_set hd with hd | rfl
  · exact hall d hd
  · exact hc

/-- A call that is not the one that moves is still there. -/
theorem mem_set_of_ne {d : α} (hk : calls[k]? = some c) (hd : d ∈ calls) (hne : d ≠ c) :
    d ∈ calls.set k c' := by
  obtain ⟨i, hi, rfl⟩ := List.getElem_of_mem hd
  have hik : k ≠ i := by
    rintro rfl
    exact hne (Option.some.inj ((List.getElem?_eq_getElem hi).symm.trans hk))
  apply List.mem_of_getElem? (i := i)
  rw [List.getElem?_set_ne hik, List.getElem?_eq_getElem hi]

/-- Who is at an index after a call has moved: that call, or whoever was there. -/
theorem getElem?_set_cases {i : ℕ} {d : α} (h : (calls.set k c')[i]? = some d) :
    i = k ∧ d = c' ∨ calls[i]? = some d := by
  by_cases hik : k = i
  · subst hik
    have hlt : k < calls.length := by
      simpa using (List.getElem?_eq_some_iff.mp h).1
    rw [List.getElem?_set_self hlt] at h
    exact .inl ⟨rfl, (Option.some.inj h).symm⟩
  · rw [List.getElem?_set_ne hik] at h
    exact .inr h

/-- Who is at an index after a call has come: that call, or whoever was there. -/
theorem getElem?_append_singleton {i : ℕ} {d : α} (h : (calls ++ [c])[i]? = some d) :
    d = c ∨ calls[i]? = some d := by
  rw [List.getElem?_append] at h
  split at h
  · exact .inr h
  · exact .inl (List.mem_singleton.mp (List.mem_of_getElem? h))

end Interleaving
