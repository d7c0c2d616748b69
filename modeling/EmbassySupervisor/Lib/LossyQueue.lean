/-
# A queue that drops what does not fit

Whoever posts never waits: what does not fit is dropped and counted, in a counter that may wrap.
`posted`, `taken` and `lost` keep the history of the queue, which nobody reads.

`Extends` is all that its operations do to the history, and `Extends.received_eq` is what the
counter is good for: between two readings that are equal nothing has been dropped.
-/

import Mathlib.Data.List.Basic
import Mathlib.Data.UInt

universe u

structure LossyQueue (α : Type u) (cap : ℕ) where
  queue : List α := []
  dropped : UInt32 := 0
  posted : List α := []
  taken : List α := []
  lost : ℕ := 0
  fits : queue.length ≤ cap := by simp
  counts : dropped = UInt32.ofNat lost := by rfl

namespace LossyQueue

variable {α : Type u} {cap : ℕ}

/-- What the consumer gets of what has been posted so far. -/
def received (q : LossyQueue α cap) : List α := q.taken ++ q.queue

/-- `try_send`, and the drop is counted. -/
def post (q : LossyQueue α cap) (a : α) : LossyQueue α cap :=
  if h : q.queue.length < cap then
    { q with
      queue := q.queue ++ [a]
      posted := q.posted ++ [a]
      fits := by
        rw [List.length_append]
        exact h }
  else
    { q with
      dropped := q.dropped + 1
      posted := q.posted ++ [a]
      lost := q.lost + 1
      counts := by
        rw [q.counts]
        exact (UInt32.ofNat_add q.lost 1).symm }

/-- `try_receive`. -/
def take (q : LossyQueue α cap) : Option (α × LossyQueue α cap) :=
  match h : q.queue with
  | [] => none
  | a :: rest =>
    some (a, { q with
      queue := rest
      taken := q.taken ++ [a]
      fits := by
        have hfits := q.fits
        rw [h, List.length_cons] at hfits
        omega })

def postAll (q : LossyQueue α cap) (as : List α) : LossyQueue α cap := as.foldl post q

/-- What has been posted since, and what the consumer gets of it. -/
structure Extends (q : LossyQueue α cap) (new : List α) (q' : LossyQueue α cap) : Prop where
  posted : q'.posted = q.posted ++ new
  received : ∃ kept, q'.received = q.received ++ kept ∧ kept.Sublist new ∧
    q'.lost + kept.length = q.lost + new.length

variable {q q' q'' : LossyQueue α cap} {new new' : List α}

theorem Extends.refl (q : LossyQueue α cap) : q.Extends [] q :=
  ⟨(List.append_nil _).symm, [], (List.append_nil _).symm, .refl _, rfl⟩

theorem Extends.trans (h : q.Extends new q') (h' : q'.Extends new' q'') :
    q.Extends (new ++ new') q'' := by
  obtain ⟨kept, hkept, hsub, hlost⟩ := h.received
  obtain ⟨kept', hkept', hsub', hlost'⟩ := h'.received
  refine ⟨?_, kept ++ kept', ?_, hsub.append hsub', ?_⟩
  · rw [h'.posted, h.posted, List.append_assoc]
  · rw [hkept', hkept, List.append_assoc]
  · simp only [List.length_append]
    omega

theorem extends_post (q : LossyQueue α cap) (a : α) : q.Extends [a] (q.post a) := by
  rw [post]
  by_cases h : q.queue.length < cap
  · rw [dif_pos h]
    exact ⟨rfl, [a], (List.append_assoc _ _ _).symm, .refl _, rfl⟩
  · rw [dif_neg h]
    exact ⟨rfl, [], (List.append_nil _).symm, List.nil_sublist _, rfl⟩

theorem extends_postAll (q : LossyQueue α cap) (as : List α) : q.Extends as (q.postAll as) := by
  induction as generalizing q with
  | nil => exact .refl q
  | cons a as ih => exact (q.extends_post a).trans (ih (q.post a))

theorem extends_take {a : α} (h : q.take = some (a, q')) : q.Extends [] q' := by
  unfold take at h
  split at h
  · cases h
  · rename_i b rest hqueue
    cases h
    have hsame : q.taken ++ [a] ++ rest = q.taken ++ q.queue := by
      rw [hqueue, List.append_assoc]
      rfl
    exact ⟨(List.append_nil _).symm, [], hsame.trans (List.append_nil _).symm, .refl _, rfl⟩

/-- **Two equal readings of the counter**: what was posted in between has all been kept, in order,
unless the counter has gone round. -/
theorem Extends.received_eq (h : q.Extends new q') (hsame : q'.dropped = q.dropped)
    (hshort : new.length < 2 ^ 32) : q'.received = q.received ++ new := by
  obtain ⟨kept, hkept, hsub, hlost⟩ := h.received
  have hle := hsub.length_le
  have hmod : q'.lost % 2 ^ 32 = q.lost % 2 ^ 32 := by
    have hcount := congrArg UInt32.toNat hsame
    rw [q.counts, q'.counts] at hcount
    simpa using hcount
  have hlen : new.length ≤ kept.length := by omega
  rw [hkept, hsub.eq_of_length_le hlen]

end LossyQueue
