/-
# Time under preemption

Sections of work are entered and left on one processor, one inside the other. At each tick the
innermost open section is the one that runs.

An account that looks at the clock only where a section is entered or left can tell how long
each has run: a section that is left charges all the time since it was entered to the one
below, and keeps what was not charged to itself. `credited_run` says that this is exact.
-/

import Mathlib.Algebra.BigOperators.Group.List.Basic
import Mathlib.Algebra.GroupWithZero.Nat
import Mathlib.Data.Nat.Notation

namespace Preemption

variable {α : Type*}

inductive Mark (α : Type*)
  | enter (a : α)
  | leave (a : α)
  | pass

structure Event (α : Type*) where
  tick : ℕ
  mark : Mark α

/-- The open sections behind a mark, the innermost first. -/
def Mark.apply : Mark α → List α → List α
  | .enter a, stack => a :: stack
  | .leave _, stack => stack.tail
  | .pass, stack => stack

/-- A section that is left is the innermost. -/
def Mark.Fits : Mark α → List α → Prop
  | .leave a, stack => stack.head? = some a
  | _, _ => True

/-- Time does not go back, sections are left in the right order, and all are left. -/
def WellNested : List α → ℕ → List (Event α) → Prop
  | stack, _, [] => stack = []
  | stack, now, e :: es =>
    now ≤ e.tick ∧ e.mark.Fits stack ∧ WellNested (e.mark.apply stack) e.tick es

section Time

variable (p : α → Bool)

/-- The ticks of a stretch of time in which a section of a kind is innermost throughout. -/
def stretch (stack : List α) (ticks : ℕ) : ℕ :=
  match stack with
  | [] => 0
  | a :: _ => if p a then ticks else 0

/-- The ticks up to the last event at which a section of a kind is innermost. -/
def ticksIn : List α → ℕ → List (Event α) → ℕ
  | _, _, [] => 0
  | stack, now, e :: es =>
    stretch p stack (e.tick - now) + ticksIn (e.mark.apply stack) e.tick es

theorem stretch_le (stack : List α) (ticks : ℕ) : stretch p stack ticks ≤ ticks := by
  unfold stretch
  split
  · exact Nat.zero_le _
  · split
    · exact Nat.le_refl _
    · exact Nat.zero_le _

theorem ticksIn_le {stack : List α} {now bound : ℕ} {es : List (Event α)}
    (hes : WellNested stack now es) (hnow : now ≤ bound) (hbound : ∀ e ∈ es, e.tick ≤ bound) :
    ticksIn p stack now es ≤ bound - now := by
  induction es generalizing stack now with
  | nil => exact Nat.zero_le _
  | cons e es ih =>
      obtain ⟨hle, -, hrest⟩ := hes
      have htick := hbound e List.mem_cons_self
      have hstretch := stretch_le p stack (e.tick - now)
      have hticks := ih hrest htick fun e' he' => hbound e' (List.mem_cons_of_mem _ he')
      simp only [ticksIn]
      omega

end Time

/-! ## The account -/

/-- An open section: since when, and how much of that ran inside others. -/
structure Frame (α : Type*) where
  label : α
  since : ℕ
  stolen : ℕ

structure Account (α : Type*) where
  frames : List (Frame α)
  credits : List (α × ℕ)

/-- Charge some ticks to the innermost section. -/
def steal (ticks : ℕ) : List (Frame α) → List (Frame α)
  | [] => []
  | f :: frames => { f with stolen := f.stolen + ticks } :: frames

def Account.step (acc : Account α) (e : Event α) : Account α :=
  match e.mark, acc.frames with
  | .enter a, frames => { acc with frames := ⟨a, e.tick, 0⟩ :: frames }
  | .leave _, [] => acc
  | .leave _, f :: frames =>
    { frames := steal (e.tick - f.since) frames
      credits := (f.label, e.tick - f.since - f.stolen) :: acc.credits }
  | .pass, _ => acc

/-- What the sections of a kind have been credited. -/
def credited (p : α → Bool) (credits : List (α × ℕ)) : ℕ :=
  ((credits.filter (p ·.1)).map (·.2)).sum

/-- The charges to a section are from after it was entered, and from before the one above. -/
def Sound : ℕ → List (Frame α) → Prop
  | _, [] => True
  | now, f :: frames => f.since + f.stolen ≤ now ∧ Sound f.since frames

/-- What the open sections of a kind have run so far. -/
def owed (p : α → Bool) : ℕ → List (Frame α) → ℕ
  | _, [] => 0
  | now, f :: frames =>
    (if p f.label then now - f.since - f.stolen else 0) + owed p f.since frames

section Account

variable {p : α → Bool} {acc : Account α} {e : Event α} {now : ℕ}

@[simp] theorem map_label_steal (ticks : ℕ) (frames : List (Frame α)) :
    (steal ticks frames).map (·.label) = frames.map (·.label) := by
  cases frames <;> rfl

/-- Charges leave it as it is since when sections are open. -/
theorem since_mem_of_steal {ticks since : ℕ} {frames : List (Frame α)}
    (h : ∃ f ∈ steal ticks frames, f.since = since) : ∃ f ∈ frames, f.since = since := by
  cases frames with
  | nil => exact h
  | cons g frames =>
      obtain ⟨f, hf, rfl⟩ := h
      rcases List.mem_cons.mp hf with rfl | hf
      · exact ⟨g, List.mem_cons_self, rfl⟩
      · exact ⟨f, List.mem_cons_of_mem _ hf, rfl⟩

theorem Account.since_step {start : ℕ} (hstart : start ≤ e.tick)
    (h : ∀ f ∈ acc.frames, start ≤ f.since) : ∀ f ∈ (acc.step e).frames, start ≤ f.since := by
  obtain ⟨tick, mark⟩ := e
  obtain ⟨frames, credits⟩ := acc
  cases mark with
  | enter a =>
      intro f hf
      rcases List.mem_cons.mp hf with rfl | hf
      · exact hstart
      · exact h f hf
  | pass => exact h
  | leave a =>
      cases frames with
      | nil => exact h
      | cons g frames =>
          intro f hf
          obtain ⟨f', hf', heq⟩ := since_mem_of_steal ⟨f, hf, rfl⟩
          rw [← heq]
          exact h f' (List.mem_cons_of_mem _ hf')

theorem credited_cons (a : α) (ticks : ℕ) (credits : List (α × ℕ)) :
    credited p ((a, ticks) :: credits) = (if p a then ticks else 0) + credited p credits := by
  by_cases ha : p a <;> simp [credited, ha]

theorem credited_eq_zero {credits : List (α × ℕ)} (h : ∀ c ∈ credits, p c.1 = false) :
    credited p credits = 0 := by
  have hnil : credits.filter (p ·.1) = [] :=
    List.filter_eq_nil_iff.mpr fun c hc => by simp [h c hc]
  simp [credited, hnil]

/-- The account has the open sections. -/
theorem Account.labels_step (hfits : e.mark.Fits (acc.frames.map (·.label))) :
    ((acc.step e).frames.map (·.label)) = e.mark.apply (acc.frames.map (·.label)) := by
  obtain ⟨tick, mark⟩ := e
  obtain ⟨frames, credits⟩ := acc
  cases mark with
  | enter a => rfl
  | leave a =>
      cases frames with
      | nil => cases hfits
      | cons f frames => simp [Account.step, Mark.apply]
  | pass => rfl

theorem Sound.mono {now' : ℕ} {frames : List (Frame α)} (hsound : Sound now frames)
    (hnow : now ≤ now') : Sound now' frames := by
  cases frames with
  | nil => trivial
  | cons f frames => exact ⟨Nat.le_trans hsound.1 hnow, hsound.2⟩

theorem Account.sound_step (hsound : Sound now acc.frames) (hnow : now ≤ e.tick) :
    Sound e.tick (acc.step e).frames := by
  obtain ⟨tick, mark⟩ := e
  obtain ⟨frames, credits⟩ := acc
  cases mark with
  | enter a => exact ⟨Nat.le_refl _, hsound.mono hnow⟩
  | pass => exact hsound.mono hnow
  | leave a =>
      match frames, hsound with
      | [], _ => trivial
      | [f], _ => trivial
      | f :: g :: frames, ⟨hf, hg, hrest⟩ =>
          refine ⟨?_, hrest⟩
          simp only at hnow ⊢
          omega

/-- Up to an event the innermost section runs. -/
theorem owed_add_stretch {now' : ℕ} {frames : List (Frame α)} (hsound : Sound now frames)
    (hnow : now ≤ now') :
    owed p now' frames = owed p now frames + stretch p (frames.map (·.label)) (now' - now) := by
  cases frames with
  | nil => rfl
  | cons f frames =>
      obtain ⟨hf, -⟩ := hsound
      by_cases hp : p f.label
      · simp [owed, stretch, hp]
        omega
      · simp [owed, stretch, hp]

/-- A step turns the time up to it into what the open sections have run and what is credited. -/
theorem Account.credited_step (hsound : Sound now acc.frames) (hnow : now ≤ e.tick)
    (hfits : e.mark.Fits (acc.frames.map (·.label))) :
    credited p (acc.step e).credits + owed p e.tick (acc.step e).frames =
      credited p acc.credits + owed p now acc.frames +
        stretch p (acc.frames.map (·.label)) (e.tick - now) := by
  rw [Nat.add_assoc, ← owed_add_stretch hsound hnow]
  obtain ⟨tick, mark⟩ := e
  obtain ⟨frames, credits⟩ := acc
  cases mark with
  | enter a => simp [Account.step, owed]
  | pass => rfl
  | leave a =>
      match frames, hsound with
      | [], _ => cases hfits
      | [f], _ => simp [Account.step, steal, owed, credited_cons, Nat.add_comm]
      | f :: g :: frames, ⟨hf, hg, _⟩ =>
          -- What is charged to `g` is the time since `f` was entered.
          have hcharge : tick - g.since - (g.stolen + (tick - f.since)) =
              f.since - g.since - g.stolen := by
            simp only at hnow
            omega
          simp only [Account.step, steal, owed, credited_cons, hcharge]
          omega

/-- After a well-nested run each kind has been credited the ticks in which it ran. -/
theorem credited_run {es : List (Event α)} (hsound : Sound now acc.frames)
    (hes : WellNested (acc.frames.map (·.label)) now es) :
    (es.foldl Account.step acc).frames = [] ∧
      credited p (es.foldl Account.step acc).credits =
        credited p acc.credits + owed p now acc.frames +
          ticksIn p (acc.frames.map (·.label)) now es := by
  induction es generalizing acc now with
  | nil =>
      have hnil : acc.frames = [] := List.map_eq_nil_iff.mp hes
      simp [hnil, owed, ticksIn]
  | cons e es ih =>
      obtain ⟨hle, hfits, hrest⟩ := hes
      rw [← Account.labels_step hfits] at hrest
      obtain ⟨hdone, hcredits⟩ := ih (Account.sound_step hsound hle) hrest
      refine ⟨hdone, ?_⟩
      have hstep := @Account.credited_step _ p _ _ _ hsound hle hfits
      rw [List.foldl_cons, hcredits, hstep, Account.labels_step hfits, ticksIn, Nat.add_assoc]

end Account

end Preemption
