/-
# Whether a slot's value outlives its provider

Any number of shells, with the application, hand-written tasks and the supervisor beside
them, all exchanging values through the slots access by access. A value carries the
number of acknowledgements its slot's providers had made when it was provided, so a copy
taken at a higher count is a leftover.

`copies_fresh` keeps leftovers out of every run in which two things do not happen: a
shell puts a loan back that is older than the last acknowledgement, and a value is put
into a slot while a provider is between its clear of the slot and its acknowledgement.
The first is what the code does not rule out: a provider clears its slot once, on its way
down, and a consumer may be holding the value at that moment.
-/

import EmbassySupervisor.Lib.LabelledRun
import EmbassySupervisor.Lib.Interleaving
import EmbassySupervisor.Shell.Shell

namespace EmbassySupervisor

open LabelledRun Interleaving

variable {n : ℕ} {V : Type}

/-- One shell a node. A node without one is written by hand, and its shell never moves. -/
structure Tasks (n : ℕ) where
  shell : Fin n → ShellCfg n
  node_shell : ∀ j, (shell j).node = j

/-- The memory, the shells, the calls of other parties in flight, and the copies the
activations have made so far: slot, value and the slot's acknowledgements at that time. -/
structure Floor (n : ℕ) (V : Type) where
  mem : Memory n V := {}
  shells : Fin n → Activation n V := fun _ => .checking
  inFlight : List (List (Atom n V)) := []
  copied : List (ℕ × Stamped V × ℕ) := []

/-- What a shell on its way down has left to do. -/
def Activation.rest : Activation n V → List (Atom n V)
  | .leaving rest => rest
  | .taking _ _ | .working _ | .checking | .waiting => []

/-- The access writes an acknowledgement that counts for the slot. -/
def Atom.acknowledges (r : ℕ) : Atom n V → Bool
  | .drop _ provides => decide (r ∈ provides)
  | .provide _ _ | .restore _ _ | .empty _ | .signalFilled _ | .resetFilled _
  | .releaseClaims _ | .flagPut _ _ _ | .clearStale _ | .latch _ _ _ | .gateEvent
  | .stopEvent | .notifyBind => false

/-- Only the write of an acknowledgement counts for a slot. -/
theorem Atom.eq_drop_of_acknowledges {r : ℕ} {a : Atom n V} (h : a.acknowledges r = true) :
    ∃ j provides, a = .drop j provides ∧ r ∈ provides := by
  cases a with
  | drop j provides => exact ⟨j, provides, rfl, of_decide_eq_true h⟩
  | provide | restore | empty | signalFilled | resetFilled | releaseClaims | flagPut
  | clearStale | latch | gateEvent | stopEvent | notifyBind => cases h

namespace Floor

/-- What others than the shells do: the application and the workers fill, take from and
clear slots, a worker or a hand-written task acknowledges or exits, the supervisor starts
a parked shell. -/
inductive Op (n : ℕ) (V : Type)
  | provide (r : ℕ) (v : V)
  | take (r : ℕ)
  | clear (r : ℕ)
  | ackDropped (j : Fin n)
  | markExited (j : Fin n)
  | svStart (j : Fin n)

def Op.atoms (c : Tasks n) : Op n V → List (Atom n V)
  | .provide r v => Atom.fill (.provide r v) r
  | .take r => [.empty r]
  | .clear r => Atom.clear r
  | .ackDropped j => Atom.ackDropped (c.shell j).cfg j
  | .markExited j => Atom.markExited (c.shell j).cfg j
  | .svStart j => [.flagPut j .idle false, .latch j .resume true]

/-- A shell makes an access, its worker ends, another party begins a call or makes the
next access of the one at an index. -/
inductive Label (n : ℕ) (V : Type)
  | shell (j : Fin n)
  | finish (j : Fin n) (out : Option V)
  | call (op : Op n V)
  | act (k : ℕ)

/-- What the next access of a shell copies or takes. -/
def copies (s : Floor n V) (j : Fin n) : List (ℕ × Stamped V × ℕ) :=
  match s.shells j with
  | .taking (.take r _ :: _) _ | .taking (.get r :: _) _ =>
    (s.mem.value r).toList.map fun v => (r, v, s.mem.acks r)
  | .taking [] _ | .working _ | .leaving _ | .checking | .waiting => []

def next (c : Tasks n) (s : Floor n V) : Label n V → Option (Floor n V)
  | .shell j =>
    ((s.shells j).step (c.shell j) s.mem).map fun (shell, mem) =>
      { s with mem, shells := Function.update s.shells j shell, copied := s.copied ++ s.copies j }
  | .finish j out =>
    ((s.shells j).finish (c.shell j) out).map fun shell =>
      { s with shells := Function.update s.shells j shell }
  | .call op => some { s with inFlight := s.inFlight ++ [op.atoms c] }
  | .act k => (take s.inFlight k).map fun (a, inFlight) => { s with mem := s.mem.act a, inFlight }

/-- Every copy was provided after the last acknowledgement before it. -/
def CopiesFresh (s : Floor n V) : Prop := ∀ e ∈ s.copied, e.2.1.acks = e.2.2

/-- What a call in flight or a shell on its way down has left to do. -/
def Pending (s : Floor n V) (rest : List (Atom n V)) : Prop :=
  rest ∈ s.inFlight ∨ ∃ j, (s.shells j).rest = rest

/-- The slot has been cleared for an acknowledgement that is yet to be written. -/
def Window (r : ℕ) (rest : List (Atom n V)) : Prop :=
  (∃ a ∈ rest, a.acknowledges r = true) ∧ Atom.empty r ∉ rest

/-- No window is open on the slot. -/
def Shut (s : Floor n V) (r : ℕ) : Prop :=
  (∀ rest ∈ s.inFlight, ¬ Window r rest) ∧ ∀ j, ¬ Window r (s.shells j).rest

/-- The access a label performs off a list. -/
def performs (s : Floor n V) : Label n V → Option (Atom n V)
  | .shell j => (s.shells j).rest.head?
  | .act k => (take s.inFlight k).map Prod.fst
  | .finish _ _ | .call _ => none

/-- A loan put back is no older than the slot's last acknowledgement, and nothing is put
into a slot inside a window. -/
def TimelyPut (s : Floor n V) : Atom n V → Prop
  | .restore r v => v.acks = s.mem.acks r ∧ s.Shut r
  | .provide r _ => s.Shut r
  | .empty _ | .signalFilled _ | .resetFilled _ | .releaseClaims _ | .flagPut _ _ _
  | .clearStale _ | .drop _ _ | .latch _ _ _ | .gateEvent | .stopEvent | .notifyBind => True

def Timely (s : Floor n V) (l : Label n V) : Prop := ∀ a ∈ s.performs l, s.TimelyPut a

section Decidable

variable [DecidableEq V]

instance (r : ℕ) (rest : List (Atom n V)) : Decidable (Window r rest) :=
  inferInstanceAs (Decidable (_ ∧ _))

instance (s : Floor n V) (r : ℕ) : Decidable (s.Shut r) := inferInstanceAs (Decidable (_ ∧ _))

instance (s : Floor n V) : DecidablePred s.TimelyPut := fun a =>
  match a with
  | .restore _ _ => inferInstanceAs (Decidable (_ ∧ _))
  | .provide r _ => inferInstanceAs (Decidable (s.Shut r))
  | .empty _ | .signalFilled _ | .resetFilled _ | .releaseClaims _ | .flagPut _ _ _
  | .clearStale _ | .drop _ _ | .latch _ _ _ | .gateEvent | .stopEvent | .notifyBind =>
    isTrue trivial

instance (s : Floor n V) (l : Label n V) : Decidable (s.Timely l) :=
  match h : s.performs l with
  | none => isTrue fun a ha => by simp [h] at ha
  | some a => decidable_of_iff (s.TimelyPut a) (by simp [Timely, h])

end Decidable

/-- What runs start from: no call in flight, no activation begun, and nothing in the
slots older than their providers. -/
structure Start (s : Floor n V) : Prop where
  shells : ∀ j, s.shells j = .checking
  inFlight : s.inFlight = []
  copied : s.copied = []
  fresh : ∀ r v, s.mem.value r = some v → v.acks = s.mem.acks r

/-! ## Windows -/

/-- No slot is cleared after an acknowledgement, and none is acknowledged for without
being cleared. -/
structure Tidy (rest : List (Atom n V)) : Prop where
  dropsLast : rest.Pairwise fun a b => a.drops = true → ∀ r, b ≠ .empty r
  covers : ∀ j provides, Atom.drop j provides ∈ rest → ∀ r ∈ provides, Atom.empty r ∈ rest

theorem tidy_of_no_drop {l : List (Atom n V)} (h : ∀ a ∈ l, a.drops = false) : Tidy l where
  dropsLast := List.pairwise_of_forall_mem_list fun a ha b _ hdrop => by simp [h a ha] at hdrop
  covers j provides hmem := by cases h _ hmem

/-- The shape of an acknowledgement or exit: what is provided is cleared, then the
acknowledgement is written. -/
theorem tidy_of_drop {front tail : List (Atom n V)} {j : Fin n} {provides : List ℕ}
    (hfront : ∀ a ∈ front, a.drops = false) (hclears : ∀ r ∈ provides, Atom.empty r ∈ front)
    (htail : ∀ a ∈ tail, a.drops = false ∧ a.touches = none) :
    Tidy (front ++ .drop j provides :: tail) where
  dropsLast := by
    have hlate : ∀ b ∈ tail, ∀ r, b ≠ .empty r := by
      rintro b hb r rfl
      cases (htail _ hb).2
    refine List.pairwise_append.mpr ⟨?_, List.pairwise_cons.mpr ⟨?_, ?_⟩, ?_⟩
    · exact List.pairwise_of_forall_mem_list fun a ha b _ hdrop => by simp [hfront a ha] at hdrop
    · exact fun b hb _ => hlate b hb
    · exact List.pairwise_of_forall_mem_list fun a _ b hb _ => hlate b hb
    · exact fun a ha b _ hdrop => by simp [hfront a ha] at hdrop
  covers k ps hmem r hr := by
    rcases List.mem_append.mp hmem with hmem | hmem
    · cases hfront _ hmem
    · rcases List.mem_cons.mp hmem with heq | hmem
      · cases heq
        exact List.mem_append_left _ (hclears r hr)
      · cases (htail _ hmem).1

theorem drops_releaseProvided (cfg : NodeCfg n) (j : Fin n) :
    ∀ a ∈ (Atom.releaseProvided cfg j : List (Atom n V)), a.drops = false :=
  Memory.forall_releaseProvided (fun _ => rfl) (fun _ => rfl) rfl

theorem empty_mem_releaseProvided {cfg : NodeCfg n} {j : Fin n} {r : ℕ}
    (hr : r ∈ Atom.clears cfg) : Atom.empty r ∈ (Atom.releaseProvided cfg j : List (Atom n V)) := by
  cases hmode : cfg.mode with
  | pause => simp [Atom.clears, hmode] at hr
  | terminate | onDemand =>
      simp only [Atom.clears, hmode] at hr
      simp only [Atom.releaseProvided, hmode, List.mem_append, List.mem_flatMap]
      exact Or.inl ⟨r, hr, List.mem_cons_self⟩

theorem tidy_ackDropped (cfg : NodeCfg n) (j : Fin n) :
    Tidy (Atom.ackDropped cfg j : List (Atom n V)) := by
  have hshape : (Atom.ackDropped cfg j : List (Atom n V)) =
      (Atom.releaseProvided cfg j ++ [.flagPut j .running false]) ++
        .drop j (Atom.clears cfg) :: [.latch j .dropped true, .stopEvent, .notifyBind] := by
    simp [Atom.ackDropped, Atom.settleDropped]
  rw [hshape]
  apply tidy_of_drop
  · intro a ha
    rcases List.mem_append.mp ha with ha | ha
    · exact drops_releaseProvided cfg j a ha
    · rw [List.mem_singleton.mp ha]
      rfl
  · exact fun r hr => List.mem_append_left _ (empty_mem_releaseProvided hr)
  · simp [Atom.drops, Atom.touches]

/-- An exit, whatever was put into slots before it and however the shell parks after. -/
theorem tidy_markExited {front back : List (Atom n V)} (cfg : NodeCfg n) (j : Fin n)
    (hfront : ∀ a ∈ front, a.drops = false)
    (hback : ∀ a ∈ back, a.drops = false ∧ a.touches = none) :
    Tidy (front ++ (Atom.markExited cfg j ++ back)) := by
  have hshape : front ++ (Atom.markExited cfg j ++ back) =
      (front ++ (Atom.releaseProvided cfg j ++
        [.flagPut j .completed true, .flagPut j .running false])) ++
        .drop j (Atom.clears cfg) ::
          (.latch j .dropped true :: .stopEvent :: .notifyBind :: back) := by
    simp [Atom.markExited, Atom.settleDropped]
  rw [hshape]
  apply tidy_of_drop
  · intro a ha
    rcases List.mem_append.mp ha with ha | ha
    · exact hfront a ha
    · rcases List.mem_append.mp ha with ha | ha
      · exact drops_releaseProvided cfg j a ha
      · simp only [List.mem_cons, List.not_mem_nil, or_false] at ha
        rcases ha with rfl | rfl <;> rfl
  · exact fun r hr =>
      List.mem_append_right _ (List.mem_append_left _ (empty_mem_releaseProvided hr))
  · intro a ha
    simp only [List.mem_cons] at ha
    rcases ha with rfl | rfl | rfl | ha
    · exact ⟨rfl, rfl⟩
    · exact ⟨rfl, rfl⟩
    · exact ⟨rfl, rfl⟩
    · exact hback a ha

theorem park_quiet (c : ShellCfg n) :
    ∀ a ∈ (c.park : List (Atom n V)), a.drops = false ∧ a.touches = none := by
  simp [ShellCfg.park, Atom.drops, Atom.touches]

theorem tidy_lostResource (c : ShellCfg n) : Tidy (c.lostResource : List (Atom n V)) :=
  tidy_markExited c.cfg c.node (List.forall_mem_nil _) (park_quiet c)

theorem tidy_epilogue (c : ShellCfg n) (held : List (ℕ × Stamped V)) (out : Option V) :
    Tidy (c.epilogue held out) := by
  rw [ShellCfg.epilogue, ← List.append_assoc]
  refine tidy_markExited c.cfg c.node ?_ (park_quiet c)
  intro a ha
  rcases List.mem_append.mp ha with ha | ha
  · simp only [ShellCfg.restores, Atom.fill, List.mem_flatMap, List.mem_cons, List.not_mem_nil,
      or_false] at ha
    obtain ⟨e, _, rfl | rfl | rfl⟩ := ha <;> rfl
  · unfold ShellCfg.provideExit at ha
    split at ha
    · simp only [Atom.fill, List.mem_cons, List.not_mem_nil, or_false] at ha
      rcases ha with rfl | rfl | rfl <;> rfl
    · simp at ha
    · simp at ha

theorem tidy_op (c : Tasks n) (op : Op n V) : Tidy (op.atoms c) := by
  cases op with
  | ackDropped j => exact tidy_ackDropped _ j
  | markExited j =>
      have h := tidy_markExited (V := V) (c.shell j).cfg j (List.forall_mem_nil _)
        (List.forall_mem_nil _)
      rwa [List.nil_append, List.append_nil] at h
  | provide | take | clear | svStart =>
      apply tidy_of_no_drop
      simp [Op.atoms, Atom.fill, Atom.clear, Atom.drops]

/-- A list not begun yet holds no window open. -/
theorem Tidy.not_window {rest : List (Atom n V)} (h : Tidy rest) (r : ℕ) : ¬ Window r rest := by
  rintro ⟨⟨a, ha, hcounts⟩, hempty⟩
  obtain ⟨j, provides, rfl, hr⟩ := Atom.eq_drop_of_acknowledges hcounts
  exact hempty (h.covers j provides ha r hr)

/-! ## What a run keeps -/

/-- The slots hold nothing older than their providers, those in a window hold nothing at
all, and every copy made was fresh. -/
structure Sound (s : Floor n V) : Prop where
  fresh : ∀ r v, s.mem.value r = some v → v.acks = s.mem.acks r
  dropsLast : ∀ rest, s.Pending rest →
    rest.Pairwise fun a b => a.drops = true → ∀ r, b ≠ .empty r
  window : ∀ rest, s.Pending rest → ∀ r, Window r rest → s.mem.value r = none
  copied : s.CopiesFresh

theorem sound_of_start {s : Floor n V} (h : s.Start) : s.Sound := by
  have hpending : ∀ rest, s.Pending rest → rest = [] := by
    rintro rest (hcall | ⟨j, rfl⟩)
    · simp [h.inFlight] at hcall
    · simp [h.shells j, Activation.rest]
  refine ⟨h.fresh, ?_, ?_, ?_⟩
  · intro rest hrest
    rw [hpending rest hrest]
    exact List.Pairwise.nil
  · intro rest hrest r hwindow
    rw [hpending rest hrest] at hwindow
    obtain ⟨a, ha, _⟩ := hwindow.1
    exact absurd ha List.not_mem_nil
  · simp [CopiesFresh, h.copied]

variable {s s' : Floor n V}

/-- A step that only empties slots, and leaves nothing pending that was not pending or is
not begun. -/
theorem sound_of_quiet (hs : s.Sound)
    (hvalue : ∀ r, s'.mem.value r = s.mem.value r ∨ s'.mem.value r = none)
    (hacks : s'.mem.acks = s.mem.acks)
    (hpending : ∀ rest, s'.Pending rest → s.Pending rest ∨ Tidy rest)
    (hcopied : s'.CopiesFresh) : s'.Sound where
  fresh r v hv := by
    rcases hvalue r with heq | hnone
    · rw [hacks]
      exact hs.fresh r v (heq ▸ hv)
    · rw [hnone] at hv
      cases hv
  dropsLast rest hrest := (hpending rest hrest).elim (hs.dropsLast rest) Tidy.dropsLast
  window rest hrest r hwindow := by
    rcases hpending rest hrest with hold | hnew
    · exact (hvalue r).elim (fun heq => heq.trans (hs.window rest hold r hwindow)) id
    · exact absurd hwindow (hnew.not_window r)
  copied := hcopied

/-- A value put into a slot by a timely access is as fresh as the slot, and an
acknowledgement finds the slots it counts for empty. -/
theorem fresh_act {m : Memory n V} {a : Atom n V}
    (hfresh : ∀ r v, m.value r = some v → v.acks = m.acks r)
    (hrestore : ∀ r v, a = .restore r v → v.acks = m.acks r)
    (hdrop : ∀ j provides, a = .drop j provides → ∀ r ∈ provides, m.value r = none)
    (r : ℕ) (v : Stamped V) (hv : (m.act a).value r = some v) : v.acks = (m.act a).acks r := by
  cases a with
  | provide k w =>
      rw [Memory.value_act_provide] at hv
      split at hv
      · next heq =>
          cases hv
          rw [heq]
          rfl
      · exact hfresh r v hv
  | restore k w =>
      rw [Memory.value_act_restore] at hv
      split at hv
      · next heq =>
          cases hv
          rw [heq]
          exact hrestore k _ rfl
      · exact hfresh r v hv
  | empty k =>
      rw [Memory.value_act_empty] at hv
      split at hv
      · cases hv
      · exact hfresh r v hv
  | drop j provides =>
      have hold : m.value r = some v := hv
      have hout : r ∉ provides := fun hr => by simp [hdrop j provides rfl r hr] at hold
      change v.acks = if r ∈ provides then m.acks r + 1 else m.acks r
      rw [if_neg hout]
      exact hfresh r v hold
  | signalFilled k | resetFilled k =>
      rw [Memory.value_act (by simp [Atom.touches])] at hv
      exact hfresh r v hv
  | releaseClaims | flagPut | clearStale | latch | gateEvent | stopEvent | notifyBind =>
      exact hfresh r v hv

theorem Shut.not_window {r : ℕ} (h : s.Shut r) {rest : List (Atom n V)} (hrest : s.Pending rest) :
    ¬ Window r rest := by
  rcases hrest with hcall | ⟨j, rfl⟩
  · exact h.1 rest hcall
  · exact h.2 j

/-- **A timely access off a pending list keeps the floor sound.** -/
theorem sound_of_perform (hs : s.Sound) {a : Atom n V} {rest : List (Atom n V)}
    (hhead : s.Pending (a :: rest)) (hmem : s'.mem = s.mem.act a)
    (hpending : ∀ rest', s'.Pending rest' → s.Pending rest' ∨ rest' = rest)
    (hcopied : s'.copied = s.copied) (hput : s.TimelyPut a) : s'.Sound := by
  have hlate := List.pairwise_cons.mp (hs.dropsLast _ hhead)
  -- A slot in a window before the access is empty after it.
  have hstays : ∀ rest' r, s.Pending rest' → Window r rest' → s'.mem.value r = none := by
    intro rest' r hrest hwindow
    have hnone := hs.window rest' hrest r hwindow
    rw [hmem]
    cases a with
    | provide k v =>
        have hne : r ≠ k := fun heq => hput.not_window hrest (heq ▸ hwindow)
        simpa [hne] using hnone
    | restore k v =>
        have hne : r ≠ k := fun heq => hput.2.not_window hrest (heq ▸ hwindow)
        simpa [hne] using hnone
    | empty k => simp [hnone]
    | signalFilled | resetFilled =>
        rw [Memory.value_act (by simp [Atom.touches])]
        exact hnone
    | releaseClaims | flagPut | clearStale | drop | latch | gateEvent | stopEvent
    | notifyBind => exact hnone
  constructor
  · intro r v hv
    rw [hmem] at hv ⊢
    refine fresh_act hs.fresh (fun k w ha => by subst ha; exact hput.1) ?_ r v hv
    rintro j provides rfl k hk
    refine hs.window _ hhead k ⟨⟨_, List.mem_cons_self, decide_eq_true hk⟩, fun hempty => ?_⟩
    rcases List.mem_cons.mp hempty with heq | hempty
    · cases heq
    · exact hlate.1 _ hempty rfl k rfl
  · intro rest' hrest
    rcases hpending rest' hrest with hold | rfl
    · exact hs.dropsLast rest' hold
    · exact hlate.2
  · intro rest' hrest r hwindow
    rcases hpending rest' hrest with hold | rfl
    · exact hstays rest' r hold hwindow
    · -- The window was open before, or it is the clear of the slot that opens it.
      by_cases hempty : a = .empty r
      · rw [hmem, hempty]
        simp
      · obtain ⟨⟨b, hb, hcounts⟩, hclear⟩ := hwindow
        refine hstays _ r hhead ⟨⟨b, List.mem_cons_of_mem _ hb, hcounts⟩, fun hmem' => ?_⟩
        rcases List.mem_cons.mp hmem' with heq | hmem'
        · exact hempty heq.symm
        · exact hclear hmem'
  · rw [CopiesFresh, hcopied]
    exact hs.copied

/-- After one shell has moved, what is pending was pending or is what it goes on with. -/
theorem pending_update {mem : Memory n V} {copied : List (ℕ × Stamped V × ℕ)} {j : Fin n}
    {x : Activation n V} {rest : List (Atom n V)}
    (h : Pending { s with mem, copied, shells := Function.update s.shells j x } rest) :
    s.Pending rest ∨ x.rest = rest := by
  rcases h with hcall | ⟨k, hk⟩
  · exact Or.inl (Or.inl hcall)
  · by_cases hkj : k = j
    · subst hkj
      exact Or.inr (by simpa using hk)
    · exact Or.inl (Or.inr ⟨k, by simpa [hkj] using hk⟩)

theorem pending_or_tidy {mem : Memory n V} {copied : List (ℕ × Stamped V × ℕ)} {j : Fin n}
    {x : Activation n V} {rest : List (Atom n V)}
    (h : Pending { s with mem, copied, shells := Function.update s.shells j x } rest)
    (hx : Tidy x.rest) : s.Pending rest ∨ Tidy rest := by
  rcases pending_update h with hold | rfl
  · exact Or.inl hold
  · exact Or.inr hx

/-- A shell that is not on its way down has nothing pending. -/
theorem tidy_nil : Tidy ([] : List (Atom n V)) := tidy_of_no_drop (List.forall_mem_nil _)

/-- What the next access of a shell copies is fresh when the slots are. -/
theorem copiesFresh_append (hs : s.Sound) (j : Fin n) :
    ∀ e ∈ s.copied ++ s.copies j, e.2.1.acks = e.2.2 := by
  intro e he
  rcases List.mem_append.mp he with he | he
  · exact hs.copied e he
  · unfold copies at he
    split at he
    case h_1 | h_2 =>
      obtain ⟨v, hv, rfl⟩ := List.mem_map.mp he
      exact hs.fresh _ v (Option.mem_toList.mp hv)
    all_goals exact absurd he List.not_mem_nil

/-- **One timely step keeps the floor sound.** -/
theorem sound_next {c : Tasks n} {l : Label n V} (hs : s.Sound) (htimely : s.Timely l)
    (h : next c s l = some s') : s'.Sound := by
  cases l with
  | call op =>
      cases h
      refine sound_of_quiet hs (fun r => Or.inl rfl) rfl (fun rest hrest => ?_) hs.copied
      rcases hrest with hcall | hshell
      · rcases List.mem_append.mp hcall with hcall | hcall
        · exact Or.inl (Or.inl hcall)
        · rw [List.mem_singleton.mp hcall]
          exact Or.inr (tidy_op c op)
      · exact Or.inl (Or.inr hshell)
  | finish j out =>
      obtain ⟨x, hfinish, rfl⟩ := Option.map_eq_some_iff.mp h
      refine sound_of_quiet hs (fun r => Or.inl rfl) rfl (fun rest hrest => ?_) hs.copied
      refine pending_or_tidy hrest ?_
      cases hphase : s.shells j with
      | working held =>
          rw [hphase] at hfinish
          cases hfinish
          exact tidy_epilogue _ held out
      | taking | leaving | checking | waiting =>
          rw [hphase] at hfinish
          cases hfinish
  | act k =>
      obtain ⟨⟨a, calls⟩, htake, rfl⟩ := Option.map_eq_some_iff.mp h
      obtain ⟨rest, hk, rfl⟩ := take_eq_some htake
      have hperforms : s.performs (.act k) = some a := by simp [performs, htake]
      refine sound_of_perform hs (Or.inl (List.mem_of_getElem? hk)) rfl (fun rest' hrest => ?_) rfl
        (htimely a hperforms)
      rcases hrest with hcall | hshell
      · rcases List.mem_or_eq_of_mem_set hcall with hcall | heq
        · exact Or.inl (Or.inl hcall)
        · exact Or.inr heq
      · exact Or.inl (Or.inr hshell)
  | shell j =>
      obtain ⟨⟨x, mem⟩, hstep, rfl⟩ := Option.map_eq_some_iff.mp h
      generalize hphase : s.shells j = phase at hstep
      have hcopied := copiesFresh_append hs j
      cases Activation.step_cases hstep with
      | drive | get | wait | start | park | woken =>
          refine sound_of_quiet hs (fun r => Or.inl rfl) rfl (fun rest hrest => ?_) hcopied
          exact pending_or_tidy hrest tidy_nil
      | lost =>
          refine sound_of_quiet hs (fun r => Or.inl rfl) rfl (fun rest hrest => ?_) hcopied
          exact pending_or_tidy hrest (tidy_lostResource _)
      | @take r lent todo held v hvalue =>
          refine sound_of_quiet hs (fun k => ?_) rfl (fun rest hrest => ?_) hcopied
          · change (s.mem.act (.empty r)).value k = _ ∨ (s.mem.act (.empty r)).value k = none
            by_cases hk : k = r <;> simp [hk]
          · exact pending_or_tidy hrest tidy_nil
      | @leave a rest =>
          have hrest : (s.shells j).rest = a :: rest := by rw [hphase]; rfl
          refine sound_of_perform hs (Or.inr ⟨j, hrest⟩) rfl (fun rest' hrest' => ?_) ?_
            (htimely a (by simp [performs, hrest]))
          · exact (pending_update hrest').imp_right Eq.symm
          · simp [copies, hphase]

/-- **No leftovers.** In a run whose every step is timely, no activation takes or copies
a value that was provided before an acknowledgement or exit of its slot's provider. -/
theorem copies_fresh {c : Tasks n} {s t : Floor n V} {ls : List (Label n V)} (hstart : s.Start)
    (halong : Along (next c) Timely s ls) (hrun : exec (next c) s ls = some t) :
    t.CopiesFresh := by
  have hsound : t.Sound := exec_invariant_along
    (fun _ _ _ hs htimely hnext => sound_next hs htimely hnext) (sound_of_start hstart) halong hrun
  exact hsound.copied

/-- Node 0 provides slot 0, node 1 borrows from it. -/
def providerAndBorrower : Tasks 2 where
  shell j :=
    if j = 0 then
      { node := 0
        cfg := { mode := .terminate, spawn := some .fn, provides := [0], slotTimeout := 100000,
                 ackTimeout := 2000000 }
        distinct := ShellCfg.distinct_bare }
    else
      { node := 1
        cfg := { mode := .terminate, spawn := some .task, resourceGates := [0],
                 slotTimeout := 100000, ackTimeout := 2000000 }
        resources := [⟨.lend, 0⟩]
        distinct := by decide }
  node_shell := by decide

/-- The provider fills its slot and the borrower takes the value. -/
def borrow (call : ℕ) (v : ℕ) : List (Label 2 ℕ) :=
  .call (.provide 0 v) :: List.replicate 3 (.act call) ++ List.replicate 3 (.shell 1)

/-- The borrower's worker returns; its shell puts the loan back, exits and parks. -/
def giveBack : List (Label 2 ℕ) := .finish 1 none :: List.replicate 12 (.shell 1)

/-- The provider exits by itself. -/
def providerExits (call : ℕ) : List (Label 2 ℕ) :=
  .call (.markExited 0) :: List.replicate 8 (.act call)

/-- The supervisor starts the parked borrower again. -/
def respawn (call : ℕ) : List (Label 2 ℕ) :=
  .call (.svStart 1) :: List.replicate 2 (.act call)

/-- The loan is back before the provider exits; the next activation gets the new value. -/
def backInTime : List (Label 2 ℕ) :=
  borrow 0 7 ++ giveBack ++ providerExits 1 ++ respawn 2 ++ borrow 3 8

theorem copies_fresh_backInTime :
    ∃ t, exec (next providerAndBorrower) {} backInTime = some t ∧
      t.copied = [(0, ⟨7, 0⟩, 0), (0, ⟨8, 1⟩, 1)] ∧ t.CopiesFresh := by
  have hstart : ({} : Floor 2 ℕ).Start :=
    ⟨fun _ => rfl, rfl, rfl, fun _ _ hv => by cases hv⟩
  have htimely : Along (next providerAndBorrower) Timely {} backInTime := by decide +kernel
  exact ⟨_, rfl, rfl, copies_fresh hstart htimely rfl⟩

/-- The provider exits while the borrower holds its value. The loan comes back to a slot
already cleared, and the next activation takes it. -/
def backTooLate : List (Label 2 ℕ) :=
  borrow 0 7 ++ providerExits 1 ++ giveBack ++ respawn 2 ++ List.replicate 2 (.shell 1)

theorem leftover_of_late_restore :
    ¬ ∀ (c : Tasks 2) (s t : Floor 2 ℕ) (ls : List (Label 2 ℕ)), s.Start →
      exec (next c) s ls = some t → t.CopiesFresh := by
  intro h
  have hstart : ({} : Floor 2 ℕ).Start :=
    ⟨fun _ => rfl, rfl, rfl, fun _ _ hv => by cases hv⟩
  have hfresh := h providerAndBorrower {} _ backTooLate hstart rfl
  have hcopied := hfresh (0, ⟨7, 0⟩, 1) (by decide +kernel)
  cases hcopied

end Floor

end EmbassySupervisor
