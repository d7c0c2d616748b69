/-
# How fast a ramp rises

`ShrinkFastGrowSlow` promises at most `step` units per `interval`. The promise hangs on one
stored instant, and a call that leaves no slot short erases it: the next call is due at once,
however recent the last raise. `rate_kept_iff` says that this is all that breaks the promise:
it holds exactly as long as a call that finds no instant stored has room, slot by slot, for
what it raises on top of what the last interval has seen.

`Ramping` is a policy in use, with the grants it left and an account of the raises, which no
code reads. Between two calls a holder may stop, which empties its grant.
-/

import EmbassySupervisor.Lib.LabelledRun
import EmbassySupervisor.Budget.Ramp

namespace EmbassySupervisor

open LabelledRun

variable {n : ℕ}

/-- `raises` are the calls so far, newest first: when, and by how much each slot rose. -/
structure Ramping (n : ℕ) where
  policy : ShrinkFastGrowSlow
  grants : Fin n → UInt32
  now : ℕ
  raises : List (ℕ × (Fin n → ℕ)) := []

namespace Ramping

/-- The allocator divides at an instant, or a slot is released. -/
inductive Label (n : ℕ)
  | divide (capacity : UInt32) (wants : Fin n → UInt32) (now : ℕ)
  | release (slot : Fin n)

/-- By how much a slot rises. -/
def increase (before after : Fin n → UInt32) (i : Fin n) : ℕ :=
  (after i).toNat - (before i).toNat

/-- Instants never decrease. Nothing comes behind a division that panics. -/
def next (s : Ramping n) : Label n → Option (Ramping n)
  | .divide capacity wants now =>
    if s.now ≤ now then
      (s.policy.divide capacity wants s.grants now).map fun d =>
        { policy := d.policy
          grants := d.grants
          now
          raises := (now, increase s.grants d.grants) :: s.raises }
    else none
  | .release slot => some { s with grants := Function.update s.grants slot 0 }

/-- What a slot rose by in the calls at the instants from `a` to `b`. -/
def risen (s : Ramping n) (i : Fin n) (a b : ℕ) : ℕ :=
  ((s.raises.filter fun r => decide (a ≤ r.1 ∧ r.1 ≤ b)).map fun r => r.2 i).sum

/-- Within any span shorter than the interval a slot rises by at most `step`. -/
def RateKept (s : Ramping n) : Prop :=
  ∀ i a b, b < a + s.policy.interval → s.risen i a b ≤ s.policy.step.toNat

/-- What a slot lacks of its target. -/
def lacks (s : Ramping n) (capacity : UInt32) (wants : Fin n → UInt32) (i : Fin n) : ℕ :=
  (FairShare.target capacity wants i).toNat - (s.grants i).toNat

/-- What a slot rose by in the calls less than an interval before an instant. -/
def recent (s : Ramping n) (now : ℕ) (i : Fin n) : ℕ :=
  ((s.raises.filter fun r => decide (now < r.1 + s.policy.interval)).map fun r => r.2 i).sum

/-- A division that finds no instant stored has room for what it raises. -/
def HasRoom (s : Ramping n) : Label n → Prop
  | .divide capacity wants now =>
    s.policy.next = none →
      ∀ i, s.recent now i + min s.policy.step.toNat (s.lacks capacity wants i) ≤
        s.policy.step.toNat
  | .release _ => True

instance (s : Ramping n) : (l : Label n) → Decidable (s.HasRoom l)
  | .divide capacity wants now =>
    inferInstanceAs (Decidable (s.policy.next = none →
      ∀ i, s.recent now i + min s.policy.step.toNat (s.lacks capacity wants i) ≤
        s.policy.step.toNat))
  | .release _ => isTrue trivial

/-! ## What a division raises -/

variable {s t : Ramping n} {l : Label n} {labels : List (Label n)}

/-- A slot rises only if the policy is due, and then by a step or by what it lacks. -/
theorem increase_divide (capacity : UInt32) (wants : Fin n → UInt32) (now : ℕ) (i : Fin n) :
    increase s.grants (BudgetPolicy.divide s.policy capacity wants s.grants now).grants i =
      if s.policy.due now then min s.policy.step.toNat (s.lacks capacity wants i) else 0 := by
  rw [increase, ShrinkFastGrowSlow.grants_divide, ShrinkFastGrowSlow.toNat_ramped, lacks]
  split <;> omega

/-- The steps, label by label. -/
inductive Step (s : Ramping n) : Label n → Ramping n → Prop
  | divide {capacity : UInt32} {wants : Fin n → UInt32} {now : ℕ} {t : Ramping n}
      (hnow : s.now ≤ now) (htime : t.now = now) (hstep : t.policy.step = s.policy.step)
      (hinterval : t.policy.interval = s.policy.interval)
      (hnext : ∀ later, t.policy.next = some later →
        later = if s.policy.due now then now + s.policy.interval else s.policy.next.getD now)
      (hraises : t.raises = (now, fun i =>
        if s.policy.due now then min s.policy.step.toNat (s.lacks capacity wants i) else 0) ::
          s.raises) : Step s (.divide capacity wants now) t
  | release {slot : Fin n} :
      Step s (.release slot) { s with grants := Function.update s.grants slot 0 }

theorem next_cases (h : next s l = some t) : Step s l t := by
  cases l with
  | divide capacity wants now =>
      simp only [next] at h
      split at h
      · next hnow =>
          obtain ⟨d, hd, rfl⟩ := Option.map_eq_some_iff.mp h
          have hsame := ShrinkFastGrowSlow.eq_of_divide s.grants s.policy capacity wants now hd
          subst hsame
          refine .divide hnow rfl rfl rfl ?_ ?_
          · intro later hlater
            exact ShrinkFastGrowSlow.next_divide s.grants s.policy capacity wants now hlater
          · simp only [← increase_divide]
      · cases h
  | release slot =>
      cases h
      exact .release

/-! ## Raises apart -/

/-- The account lies in the past, and whoever rose did so an interval before the instant
stored. -/
structure Paced (s : Ramping n) : Prop where
  past : ∀ r ∈ s.raises, r.1 ≤ s.now
  spaced : ∀ later, s.policy.next = some later →
    ∀ r ∈ s.raises, (∃ i, 0 < r.2 i) → r.1 + s.policy.interval ≤ later

theorem paced_next (hs : s.Paced) (h : next s l = some t) : t.Paced := by
  cases next_cases h with
  | release => exact ⟨hs.past, hs.spaced⟩
  | @divide capacity wants now t hnow htime hstep hinterval hnext hraises =>
      constructor
      · intro r hr
        rw [hraises, List.mem_cons] at hr
        rcases hr with rfl | hr
        · exact htime.ge
        · exact (hs.past r hr).trans (hnow.trans htime.ge)
      · intro later hlater r hr hrose
        rw [hraises, List.mem_cons] at hr
        rw [hinterval, hnext later hlater]
        split
        · rcases hr with rfl | hr
          · exact le_rfl
          · have := hs.past r hr
            omega
        · next hdue =>
            rcases hr with rfl | hr
            · simp [hdue] at hrose
            · cases hstored : s.policy.next with
              | none => simp [ShrinkFastGrowSlow.due, hstored] at hdue
              | some stored => exact hs.spaced stored hstored r hr hrose

/-- An account of at least every raise another one counts. -/
theorem sum_filter_le {raises : List (ℕ × (Fin n → ℕ))} {p q : ℕ × (Fin n → ℕ) → Bool}
    (i : Fin n) (hpq : ∀ r ∈ raises, p r = true → 0 < r.2 i → q r = true) :
    ((raises.filter p).map fun r => r.2 i).sum ≤ ((raises.filter q).map fun r => r.2 i).sum := by
  induction raises with
  | nil => exact le_rfl
  | cons r raises ih =>
      obtain ⟨hr, hrest⟩ := List.forall_mem_cons.mp hpq
      have hle := ih hrest
      have hone : (if p r = true then r.2 i else 0) ≤ if q r = true then r.2 i else 0 := by
        rcases Nat.eq_zero_or_pos (r.2 i) with hzero | hpos
        · simp [hzero]
        · by_cases hp : p r = true
          · simp [hp, hr hp hpos]
          · simp [hp]
      have hcons : ∀ f : ℕ × (Fin n → ℕ) → Bool,
          (((r :: raises).filter f).map fun r => r.2 i).sum =
            (if f r = true then r.2 i else 0) + ((raises.filter f).map fun r => r.2 i).sum := by
        intro f
        rw [List.filter_cons]
        split <;> simp
      rw [hcons, hcons]
      omega

/-- An account nobody rose in. -/
theorem sum_filter_eq_zero {raises : List (ℕ × (Fin n → ℕ))} {p : ℕ × (Fin n → ℕ) → Bool}
    (i : Fin n) (hp : ∀ r ∈ raises, p r = true → ¬ 0 < r.2 i) :
    ((raises.filter p).map fun r => r.2 i).sum = 0 := by
  have hle := sum_filter_le (q := fun _ => false) i fun r hr hin hrose => absurd hrose (hp r hr hin)
  simpa using hle

/-- A call counts in the spans its instant lies in. -/
theorem risen_of_raises {now : ℕ} {raise : Fin n → ℕ} (h : t.raises = (now, raise) :: s.raises)
    (i : Fin n) (a b : ℕ) :
    t.risen i a b = (if a ≤ now ∧ now ≤ b then raise i else 0) + s.risen i a b := by
  unfold risen
  rw [h, List.filter_cons]
  by_cases hin : a ≤ now ∧ now ≤ b
  · simp [hin]
  · simp [hin]

/-- A span that ends less than an interval before it began reaches back no further than
`recent`. -/
theorem risen_le_recent {i : Fin n} {a b now : ℕ} (hb : now ≤ b)
    (hspan : b < a + s.policy.interval) : s.risen i a b ≤ s.recent now i := by
  apply sum_filter_le
  intro r _ hin _
  simp only [decide_eq_true_eq] at hin ⊢
  omega

/-- What is recent fits in one span. -/
theorem recent_le_risen (hs : s.Paced) {i : Fin n} {now : ℕ} (hnow : s.now ≤ now) :
    s.recent now i ≤ s.risen i (now + 1 - s.policy.interval) now := by
  apply sum_filter_le
  intro r hr hlate _
  have := hs.past r hr
  simp only [decide_eq_true_eq] at hlate ⊢
  omega

/-- Nobody rose less than an interval before an instant stored. -/
theorem risen_of_stored (hs : s.Paced) {later : ℕ} (hnext : s.policy.next = some later)
    {i : Fin n} {a b : ℕ} (hb : later ≤ b) (hspan : b < a + s.policy.interval) :
    s.risen i a b = 0 := by
  apply sum_filter_eq_zero
  intro r hr hin hrose
  have := hs.spaced later hnext r hr ⟨i, hrose⟩
  simp only [decide_eq_true_eq] at hin
  omega

/-- **One step keeps the promise exactly if it has room.** -/
theorem rateKept_next_iff (hs : s.Paced) (hkept : s.RateKept) (h : next s l = some t) :
    t.RateKept ↔ s.HasRoom l := by
  cases next_cases h with
  | release => exact iff_of_true hkept trivial
  | @divide capacity wants now t hnow htime hstep hinterval hnext hraises =>
      constructor
      · intro hafter hnone i
        have hdue : s.policy.due now = true := by simp [ShrinkFastGrowSlow.due, hnone]
        have hrecent := recent_le_risen hs (i := i) hnow
        have hspan := hafter i (now + 1 - s.policy.interval) now
        rw [risen_of_raises hraises, hinterval, hstep, if_pos hdue] at hspan
        rcases Nat.eq_zero_or_pos s.policy.interval with hzero | hpos
        · have hnever : s.recent now i = 0 := by
            apply sum_filter_eq_zero
            intro r hr hlate _
            have := hs.past r hr
            simp only [decide_eq_true_eq] at hlate
            omega
          omega
        · rw [if_pos (by omega)] at hspan
          have := hspan (by omega)
          omega
      · intro hroom i a b hspan
        rw [hinterval] at hspan
        rw [risen_of_raises hraises, hstep]
        by_cases hin : a ≤ now ∧ now ≤ b
        · rw [if_pos hin]
          cases hstored : s.policy.next with
          | none =>
              have hdue : s.policy.due now = true := by simp [ShrinkFastGrowSlow.due, hstored]
              have hlately := risen_le_recent (i := i) hin.2 hspan
              have := hroom hstored i
              rw [if_pos hdue]
              omega
          | some later =>
              split
              · next hdue =>
                  have hlater : later ≤ now := by
                    simpa [ShrinkFastGrowSlow.due, hstored] using hdue
                  rw [risen_of_stored hs hstored (hlater.trans hin.2) hspan]
                  omega
              · rw [Nat.zero_add]
                exact hkept i a b hspan
        · rw [if_neg hin, Nat.zero_add]
          exact hkept i a b hspan

/-- **When the ramp keeps its rate.** It does in every state of a run exactly if every
division that finds no instant stored has room for what it raises. -/
theorem rate_kept_iff (hs : s.raises = []) (hrun : exec next s labels = some t) :
    (Along next (fun u _ => u.RateKept) s labels ∧ t.RateKept) ↔
      Along next HasRoom s labels := by
  have hpaced : s.Paced := ⟨by simp [hs], by simp [hs]⟩
  have hkept : s.RateKept := by
    intro i a b _
    simp [risen, hs]
  have halong : Along next (fun u _ => u.Paced ∧ True) s labels :=
    Along.and_invariant (fun _ _ _ hu _ hstep => paced_next hu hstep) hpaced
      (along_of_forall (fun _ _ => trivial) s)
  refine along_and_iff (I := RateKept) (fun _ _ h => h) ?_ hkept halong hrun
  intro u l v hu hup hstep
  rw [and_iff_right hu]
  exact rateKept_next_iff hup.1 hu hstep

/-- Raised by five, then by a full step one tick later: the first division left nothing to
raise and so no instant. -/
def hurried : List (Label 1) := [.divide 100 (fun _ => 5) 0, .divide 100 (fun _ => 15) 1]

def fresh (n : ℕ) : Ramping n where
  policy := { step := 10, interval := 100 }
  grants _ := 0
  now := 0

def hurriedRun : Option (Ramping 1) := exec next (fresh 1) hurried

theorem rate_broken :
    ¬ ∀ (s t : Ramping 1) (labels : List (Label 1)), s.raises = [] →
      exec next s labels = some t → t.RateKept := by
  intro h
  have hrun : exec next (fresh 1) hurried = some (hurriedRun.get (by decide +kernel)) :=
    (Option.some_get _).symm
  have hkept := h _ _ hurried rfl hrun 0 0 1 (by decide +kernel)
  exact absurd hkept (by decide +kernel)

/-- The second raise comes once the instant the first one left has come. -/
def paced : List (Label 1) := [.divide 100 (fun _ => 15) 0, .divide 100 (fun _ => 15) 100]

def pacedRun : Option (Ramping 1) := exec next (fresh 1) paced

theorem rate_kept_iff_paced : (pacedRun.get (by decide +kernel)).RateKept := by
  have hrun : exec next (fresh 1) paced = some (pacedRun.get (by decide +kernel)) :=
    (Option.some_get _).symm
  have hroom : Along next HasRoom (fresh 1) paced := by decide +kernel
  exact ((rate_kept_iff rfl hrun).mpr hroom).2

end Ramping

end EmbassySupervisor
