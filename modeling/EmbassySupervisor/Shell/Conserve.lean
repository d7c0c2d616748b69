/-
# What becomes of lent values

One activation of a shell, from its first take to its park, among other parties that
fill, take from and clear the same slots between any two of its accesses.

The account of the activation is kept beside it: `took` are the values it has taken on
loan, `back` those it has put back and not removed again, and a slot is `disturbed` once
another party has touched it since. `lends_returned_iff` says exactly when every loan is
back at the park. It fails in two ways: a later take comes up empty while a loan is held
only in a local of the shell, which goes out of scope; or the node lists a slot it
borrows from in its own `provides:`, and its exit clears what was just put back.
-/

import EmbassySupervisor.Lib.LabelledRun
import EmbassySupervisor.Shell.Shell

namespace EmbassySupervisor

open LabelledRun

variable {n : ℕ} {V : Type}

/-- An activation, the memory around it and the account of its loans. -/
structure Bench (n : ℕ) (V : Type) where
  mem : Memory n V
  shell : Activation n V
  took : List (ℕ × Stamped V) := []
  back : List (ℕ × Stamped V) := []
  disturbed : ℕ → Bool := fun _ => false

namespace Bench

/-- The shell makes an access, its worker ends, or another party makes one. -/
inductive Label (n : ℕ) (V : Type)
  | shell
  | finish (out : Option V)
  | other (a : Atom n V)

/-- Enter the next access of the shell into the account. -/
def account (s : Bench n V) : Bench n V :=
  match s.shell with
  | .taking (.take r true :: _) _ =>
    { s with took := s.took ++ (s.mem.value r).toList.map fun v => (r, v) }
  | .leaving (.restore r v :: _) =>
    { s with back := s.back ++ [(r, v)], disturbed := Function.update s.disturbed r false }
  | .leaving (.empty r :: _) => { s with back := s.back.filter fun e => e.1 ≠ r }
  | .taking _ _ | .working _ | .leaving _ | .checking | .waiting => s

/-- A run is one activation: it ends at the park. -/
def next (c : ShellCfg n) (s : Bench n V) : Label n V → Option (Bench n V)
  | .shell =>
    match s.shell with
    | .checking | .waiting => none
    | .taking _ _ | .working _ | .leaving _ =>
      (s.shell.step c s.mem).map fun (shell, mem) => { s.account with shell, mem }
  | .finish out => (s.shell.finish c out).map fun shell => { s with shell }
  | .other a =>
    some { s with
      mem := s.mem.act a
      disturbed := fun r => s.disturbed r || decide (a.touches = some r) }

/-- An activation about to make its first take. -/
def activation (c : ShellCfg n) (mem : Memory n V) : Bench n V :=
  { mem, shell := .taking c.takes [] }

/-- Every loan has been put back, into a slot that still holds it unless another party
has touched it since. -/
def Returned (s : Bench n V) : Prop :=
  ∀ e ∈ s.took, e ∈ s.back ∧ (s.disturbed e.1 = false → s.mem.value e.1 = some e.2)

/-- The next access of the shell strands a loan: a read comes up empty while one is
held, or the node's exit clears a slot one has been put back to. -/
def Strands (s : Bench n V) : Prop :=
  match s.shell with
  | .taking (.take r _ :: _) held | .taking (.get r :: _) held =>
    s.mem.value r = none ∧ held ≠ []
  | .leaving (.empty r :: _) => ∃ e ∈ s.back, e.1 = r
  | .taking [] _ | .working _ | .leaving _ | .checking | .waiting => False

/-! ## The loans still to come and still to be put back -/

/-- The slots the reads to come borrow from. -/
def lentIn (todo : List Take) : List ℕ :=
  todo.filterMap fun
    | .take r true => some r
    | .take _ false | .get _ => none

/-- The values an epilogue has still to put back. -/
def restoresIn (rest : List (Atom n V)) : List (ℕ × Stamped V) :=
  rest.filterMap fun
    | .restore r v => some (r, v)
    | _ => none

/-- The slots an epilogue has still to provide into. -/
def providesIn (rest : List (Atom n V)) : List ℕ :=
  rest.filterMap fun
    | .provide r _ => some r
    | _ => none

theorem restoresIn_append (l l' : List (Atom n V)) :
    restoresIn (l ++ l') = restoresIn l ++ restoresIn l' :=
  List.filterMap_append

theorem providesIn_append (l l' : List (Atom n V)) :
    providesIn (l ++ l') = providesIn l ++ providesIn l' :=
  List.filterMap_append

theorem restoresIn_eq_nil {l : List (Atom n V)} (h : ∀ a ∈ l, a.puts = false) :
    restoresIn l = [] := by
  refine List.filterMap_eq_nil_iff.mpr fun a ha => ?_
  cases a with
  | restore r v => cases h _ ha
  | provide | empty | signalFilled | resetFilled | releaseClaims | flagPut | clearStale | drop
  | latch | gateEvent | stopEvent | notifyBind => rfl

theorem providesIn_eq_nil {l : List (Atom n V)} (h : ∀ a ∈ l, a.puts = false) :
    providesIn l = [] := by
  refine List.filterMap_eq_nil_iff.mpr fun a ha => ?_
  cases a with
  | provide r v => cases h _ ha
  | restore | empty | signalFilled | resetFilled | releaseClaims | flagPut | clearStale | drop
  | latch | gateEvent | stopEvent | notifyBind => rfl

theorem restoresIn_restores (held : List (ℕ × Stamped V)) :
    restoresIn (ShellCfg.restores held : List (Atom n V)) = held := by
  induction held with
  | nil => rfl
  | cons e held ih =>
      rw [ShellCfg.restores, List.flatMap_cons, restoresIn_append]
      exact congrArg (e :: ·) ih

theorem providesIn_restores (held : List (ℕ × Stamped V)) :
    providesIn (ShellCfg.restores held : List (Atom n V)) = [] := by
  induction held with
  | nil => rfl
  | cons e held ih =>
      rw [ShellCfg.restores, List.flatMap_cons, providesIn_append]
      exact ih

theorem puts_lostResource (c : ShellCfg n) :
    ∀ a ∈ (c.lostResource : List (Atom n V)), a.puts = false := by
  intro a ha
  rcases List.mem_append.mp ha with ha | ha
  · exact Memory.puts_markExited c.cfg c.node a ha
  · simp only [ShellCfg.park, List.mem_cons, List.not_mem_nil, or_false] at ha
    rcases ha with rfl | rfl <;> rfl

/-- An epilogue puts back what is held, in order. -/
theorem restoresIn_epilogue (c : ShellCfg n) (held : List (ℕ × Stamped V)) (out : Option V) :
    restoresIn (c.epilogue held out) = held := by
  have hexit : restoresIn (c.provideExit out : List (Atom n V)) = [] := by
    unfold ShellCfg.provideExit
    split <;> rfl
  have hlast := restoresIn_eq_nil (puts_lostResource (V := V) c)
  rw [ShellCfg.epilogue, restoresIn_append, restoresIn_restores, restoresIn_append, hexit]
  simpa [ShellCfg.lostResource] using hlast

/-- It provides into the exit slot, if anywhere. -/
theorem providesIn_epilogue (c : ShellCfg n) (held : List (ℕ × Stamped V)) (out : Option V) :
    (providesIn (c.epilogue held out)).Sublist c.exit.toList := by
  have hlast := providesIn_eq_nil (puts_lostResource (V := V) c)
  have hexit : (providesIn (c.provideExit out : List (Atom n V))).Sublist c.exit.toList := by
    unfold ShellCfg.provideExit
    split
    · next hexit => simp [hexit, providesIn, Atom.fill]
    · exact List.nil_sublist _
    · exact List.nil_sublist _
  rw [ShellCfg.epilogue, providesIn_append, providesIn_restores, providesIn_append]
  have hlast' : providesIn (Atom.markExited c.cfg c.node ++ c.park : List (Atom n V)) = [] := hlast
  rw [hlast']
  simpa using hexit

/-- No loan is put back after a slot has been cleared. -/
def ClearsLast (rest : List (Atom n V)) : Prop :=
  rest.Pairwise fun a b => (∃ r, a = .empty r) → b.puts = false

theorem clearsLast_lostResource (c : ShellCfg n) :
    ClearsLast (c.lostResource : List (Atom n V)) :=
  List.pairwise_of_forall_mem_list fun _ _ b hb _ => puts_lostResource c b hb

theorem clearsLast_epilogue (c : ShellCfg n) (held : List (ℕ × Stamped V)) (out : Option V) :
    ClearsLast (c.epilogue held out) := by
  have hfill : ∀ a ∈ (ShellCfg.restores held ++ c.provideExit out : List (Atom n V)),
      ¬ ∃ r, a = .empty r := by
    rintro a ha ⟨r, rfl⟩
    rcases List.mem_append.mp ha with ha | ha
    · simp [ShellCfg.restores, Atom.fill] at ha
    · unfold ShellCfg.provideExit at ha
      split at ha <;> simp [Atom.fill] at ha
  rw [ShellCfg.epilogue, ← List.append_assoc]
  refine List.pairwise_append.mpr ⟨?_, clearsLast_lostResource c, ?_⟩
  · exact List.pairwise_of_forall_mem_list fun a ha b _ hempty => absurd hempty (hfill a ha)
  · exact fun a ha b _ hempty => absurd hempty (hfill a ha)

/-- What the entries lend comes from slots the shell takes from. -/
theorem lentIn_read_sublist (l : List ResourceDecl) :
    (lentIn (l.filterMap ResourceDecl.read)).Sublist
      ((l.filter ResourceDecl.takes).map ResourceDecl.slot) := by
  induction l with
  | nil => exact List.Sublist.refl _
  | cons d l ih =>
      obtain ⟨kind, slot⟩ := d
      cases kind with
      | lend => exact ih.cons_cons slot
      | consume => exact ih.cons slot
      | shared | divisible => exact ih

/-- The slots to borrow from and the exit slot are distinct. -/
theorem nodup_lentIn_takes (c : ShellCfg n) : (lentIn c.takes ++ c.exit.toList).Nodup := by
  have hstate : lentIn (c.state.toList.map fun r => Take.take r false) = [] := by
    cases c.state <;> rfl
  have hlent : lentIn c.takes = lentIn (c.resources.filterMap ResourceDecl.read) := by
    rw [ShellCfg.takes, lentIn, List.filterMap_append]
    exact congrArg (· ++ _) hstate
  have hdistinct := c.distinct
  rw [List.append_assoc] at hdistinct
  have hown := List.nodup_append_comm.mp (List.nodup_append.mp hdistinct).2.1
  rw [hlent]
  exact hown.sublist ((lentIn_read_sublist c.resources).append (List.Sublist.refl _))

/-! ## The account along a run -/

/-- What has been put back stands until another party touches it. -/
def Standing (s : Bench n V) : Prop :=
  ∀ e ∈ s.back, s.disturbed e.1 = false → s.mem.value e.1 = some e.2

/-- While no loan is stranded, every loan taken is held, put back, or about to be. -/
def Kept (c : ShellCfg n) (s : Bench n V) : Prop :=
  match s.shell with
  | .taking todo held =>
    s.took = held ∧ s.back = [] ∧
      (held.map Prod.fst ++ (lentIn todo ++ c.exit.toList)).Nodup
  | .working held => s.took = held ∧ s.back = [] ∧ (held.map Prod.fst ++ c.exit.toList).Nodup
  | .leaving rest =>
    s.took = s.back ++ restoresIn rest ∧ (s.took.map Prod.fst ++ providesIn rest).Nodup ∧
      s.Standing ∧ ClearsLast rest
  | .checking | .waiting => s.took = s.back ∧ s.Standing

theorem kept_activation (c : ShellCfg n) (m : Memory n V) : Kept c (activation c m) :=
  ⟨rfl, rfl, by simpa using nodup_lentIn_takes c⟩

/-- An access of another party leaves the undisturbed slots alone. -/
theorem standing_other {s : Bench n V} (h : s.Standing) (a : Atom n V) :
    Standing { s with
      mem := s.mem.act a
      disturbed := fun r => s.disturbed r || decide (a.touches = some r) } := by
  intro e he hdisturbed
  obtain ⟨hquiet, huntouched⟩ := Bool.or_eq_false_iff.mp hdisturbed
  show (s.mem.act a).value e.1 = some e.2
  rw [Memory.value_act (of_decide_eq_false huntouched)]
  exact h e he hquiet

/-- So does an access of the shell that exchanges no value. -/
theorem standing_quiet {s : Bench n V} (h : s.Standing) {a : Atom n V} (ha : a.touches = none)
    {shell : Activation n V} : Standing { s with shell, mem := s.mem.act a } := by
  intro e he hquiet
  show (s.mem.act a).value e.1 = some e.2
  rw [Memory.value_act (by simp [ha])]
  exact h e he hquiet

/-- The slots of distinct loans are distinct. -/
theorem fst_ne_of_nodup {l l' : List (ℕ × Stamped V)} {e e' : ℕ × Stamped V}
    (h : ((l ++ e' :: l').map Prod.fst).Nodup) (he : e ∈ l) : e.1 ≠ e'.1 := by
  rw [List.map_append, List.nodup_append] at h
  exact h.2.2 e.1 (List.mem_map_of_mem he) e'.1 (by simp)

/-- An access of an epilogue keeps the account, unless it clears a slot lent from. -/
theorem kept_leave {c : ShellCfg n} {s : Bench n V} {a : Atom n V} {rest : List (Atom n V)}
    (hshell : s.shell = .leaving (a :: rest)) (hkept : Kept c s) (hstays : ¬ s.Strands) :
    Kept c { s.account with shell := .leaving rest, mem := s.mem.act a } := by
  obtain ⟨mem, shell, took, back, disturbed⟩ := s
  cases hshell
  obtain ⟨htook, hnodup, hstanding, hlast⟩ := hkept
  have hlast' : ClearsLast rest := hlast.of_cons
  cases a with
  | restore r v =>
      have hloan : took = back ++ (r, v) :: restoresIn rest := htook
      have hown : (took.map Prod.fst).Nodup := (List.nodup_append.mp hnodup).1
      refine ⟨by simpa [account] using hloan, hnodup, ?_, hlast'⟩
      intro e he hquiet
      change (mem.act (.restore r v)).value e.1 = some e.2
      rcases List.mem_append.mp he with he | he
      · have hne : e.1 ≠ r := fst_ne_of_nodup (hloan ▸ hown) he
        have hquiet' : disturbed e.1 = false := by simpa [account, hne] using hquiet
        simpa [hne] using hstanding e he hquiet'
      · simp [List.mem_singleton.mp he]
  | empty r =>
      have hne : ∀ e ∈ back, e.1 ≠ r := fun e he heq => hstays ⟨e, he, heq⟩
      have hback : (back.filter fun e => e.1 ≠ r) = back :=
        List.filter_eq_self.mpr fun e he => decide_eq_true (hne e he)
      simp only [account, hback]
      refine ⟨htook, hnodup, ?_, hlast'⟩
      intro e he hquiet
      change (mem.act (.empty r)).value e.1 = some e.2
      simpa [hne e he] using hstanding e he hquiet
  | provide r v =>
      refine ⟨htook, hnodup.sublist ?_, ?_, hlast'⟩
      · exact (List.Sublist.refl _).append ((List.Sublist.refl (providesIn rest)).cons r)
      · intro e he hquiet
        have hloan : took = back ++ restoresIn rest := htook
        have hmem : e.1 ∈ took.map Prod.fst :=
          List.mem_map_of_mem (hloan ▸ List.mem_append_left _ he)
        have hne : e.1 ≠ r :=
          (List.nodup_append.mp hnodup).2.2 e.1 hmem r List.mem_cons_self
        change (mem.act (.provide r v)).value e.1 = some e.2
        simpa [hne] using hstanding e he hquiet
  | signalFilled | resetFilled | releaseClaims | flagPut | clearStale | drop | latch | gateEvent
  | stopEvent | notifyBind =>
      exact ⟨htook, hnodup, standing_quiet hstanding rfl, hlast'⟩

/-- A read that comes up empty takes nothing. -/
theorem account_lost {s : Bench n V} {t : Take} {todo : List Take}
    {held : List (ℕ × Stamped V)} {r : ℕ} (hread : t = .get r ∨ ∃ lent, t = .take r lent)
    (hshell : s.shell = .taking (t :: todo) held) (hempty : s.mem.value r = none) :
    s.account = s := by
  obtain ⟨mem, shell, took, back, disturbed⟩ := s
  cases hshell
  rcases hread with rfl | ⟨lent, rfl⟩
  · rfl
  · cases lent with
    | false => rfl
    | true =>
        change mem.value r = none at hempty
        simp [account, hempty]

/-- **One step keeps the account**, unless it strands a loan. -/
theorem kept_next {c : ShellCfg n} {s t : Bench n V} {l : Label n V} (hkept : Kept c s)
    (hstays : l = .shell → ¬ s.Strands) (h : next c s l = some t) : Kept c t := by
  cases l with
  | other a =>
      cases h
      obtain ⟨mem, shell, took, back, disturbed⟩ := s
      cases shell with
      | taking | working => exact hkept
      | leaving => exact ⟨hkept.1, hkept.2.1, standing_other hkept.2.2.1 a, hkept.2.2.2⟩
      | checking | waiting => exact ⟨hkept.1, standing_other hkept.2 a⟩
  | finish out =>
      obtain ⟨shell, hfinish, rfl⟩ := Option.map_eq_some_iff.mp h
      obtain ⟨mem, phase, took, back, disturbed⟩ := s
      cases phase with
      | working held =>
          cases hfinish
          obtain ⟨htook, hback, hnodup⟩ := hkept
          change took = held at htook
          change back = [] at hback
          subst htook hback
          refine ⟨(restoresIn_epilogue c took out).symm, ?_, ?_, clearsLast_epilogue c took out⟩
          · exact hnodup.sublist ((List.Sublist.refl _).append (providesIn_epilogue c took out))
          · exact fun e he => absurd he List.not_mem_nil
      | taking | leaving | checking | waiting => cases hfinish
  | shell =>
      have hstays := hstays rfl
      obtain ⟨mem, phase, took, back, disturbed⟩ := s
      cases phase with
      | checking | waiting | working => cases h
      | leaving rest =>
          obtain ⟨⟨shell, mem'⟩, hstep, rfl⟩ := Option.map_eq_some_iff.mp h
          cases Activation.step_cases hstep with
          | leave => exact kept_leave rfl hkept hstays
          | park =>
              obtain ⟨htook, _, hstanding, _⟩ := hkept
              exact ⟨by simpa [restoresIn, account] using htook, hstanding⟩
      | taking todo held =>
          obtain ⟨⟨shell, mem'⟩, hstep, rfl⟩ := Option.map_eq_some_iff.mp h
          obtain ⟨htook, hback, hnodup⟩ := hkept
          change took = held at htook
          change back = [] at hback
          subst htook hback
          cases Activation.step_cases hstep with
          | drive => exact ⟨rfl, rfl, hnodup⟩
          | lost hread hempty =>
              have hnone : took = [] := by
                by_contra hheld
                rcases hread with rfl | ⟨lent, rfl⟩ <;> exact hstays ⟨hempty, hheld⟩
              subst hnone
              have hrest := restoresIn_eq_nil (puts_lostResource (V := V) c)
              have hprovides := providesIn_eq_nil (puts_lostResource (V := V) c)
              rw [account_lost hread rfl hempty]
              refine ⟨hrest.symm, by simp [hprovides], ?_, clearsLast_lostResource c⟩
              exact fun e he => absurd he List.not_mem_nil
          | @take r lent _ _ v hvalue =>
              cases lent with
              | false => exact ⟨rfl, rfl, hnodup⟩
              | true =>
                  refine ⟨by simp [account, hvalue], rfl, ?_⟩
                  simpa [lentIn, List.append_assoc] using hnodup
          | get hvalue => exact ⟨rfl, rfl, hnodup⟩

/-! ## Stranded loans -/

/-- A loan is not back, and nothing left of the activation puts it back. -/
def Stranded (s : Bench n V) : Prop :=
  (∃ e ∈ s.took, e ∉ s.back) ∧
    match s.shell with
    | .leaving rest => restoresIn rest = []
    | .checking | .waiting => True
    | .taking _ _ | .working _ => False

/-- The access that strands a loan leaves it stranded. -/
theorem stranded_of_strands {c : ShellCfg n} {s t : Bench n V} (hkept : Kept c s)
    (hstrands : s.Strands) (h : next c s .shell = some t) : t.Stranded := by
  obtain ⟨mem, phase, took, back, disturbed⟩ := s
  cases phase with
  | checking | waiting | working => cases h
  | leaving rest =>
      obtain ⟨⟨shell, mem'⟩, hstep, rfl⟩ := Option.map_eq_some_iff.mp h
      cases Activation.step_cases hstep with
      | park => exact absurd hstrands id
      | @leave a rest =>
          obtain ⟨htook, hnodup, hstanding, hlast⟩ := hkept
          cases a with
          | empty r =>
              obtain ⟨e, he, hslot⟩ := hstrands
              have hloan : took = back ++ restoresIn rest := htook
              refine ⟨⟨e, hloan ▸ List.mem_append_left _ he, ?_⟩, ?_⟩
              · simp [account, hslot]
              · exact restoresIn_eq_nil fun b hb => (List.pairwise_cons.mp hlast).1 b hb ⟨r, rfl⟩
          | provide | restore | signalFilled | resetFilled | releaseClaims | flagPut | clearStale
          | drop | latch | gateEvent | stopEvent | notifyBind => exact absurd hstrands id
  | taking todo held =>
      obtain ⟨⟨shell, mem'⟩, hstep, rfl⟩ := Option.map_eq_some_iff.mp h
      obtain ⟨htook, hback, hnodup⟩ := hkept
      change took = held at htook
      change back = [] at hback
      subst htook hback
      cases Activation.step_cases hstep with
      | drive => exact absurd hstrands id
      | lost hread hempty =>
          have hheld : took ≠ [] := by
            rcases hread with rfl | ⟨lent, rfl⟩ <;> exact hstrands.2
          obtain ⟨e, he⟩ := List.exists_mem_of_ne_nil took hheld
          rw [account_lost hread rfl hempty]
          exact ⟨⟨e, he, List.not_mem_nil⟩, restoresIn_eq_nil (puts_lostResource c)⟩
      | take hvalue =>
          have hempty : mem.value _ = none := hstrands.1
          rw [hvalue] at hempty
          cases hempty
      | get hvalue =>
          have hempty : mem.value _ = none := hstrands.1
          rw [hvalue] at hempty
          cases hempty

/-- A stranded loan stays stranded. -/
theorem stranded_next {c : ShellCfg n} {s t : Bench n V} {l : Label n V} (hs : s.Stranded)
    (h : next c s l = some t) : t.Stranded := by
  cases l with
  | other a =>
      cases h
      exact hs
  | finish out =>
      obtain ⟨shell, hfinish, rfl⟩ := Option.map_eq_some_iff.mp h
      obtain ⟨mem, phase, took, back, disturbed⟩ := s
      cases phase with
      | working => exact absurd hs.2 id
      | taking | leaving | checking | waiting => cases hfinish
  | shell =>
      obtain ⟨mem, phase, took, back, disturbed⟩ := s
      obtain ⟨⟨e, htook, hback⟩, hphase⟩ := hs
      cases phase with
      | checking | waiting | working => cases h
      | taking => exact absurd hphase id
      | leaving rest =>
          obtain ⟨⟨shell, mem'⟩, hstep, rfl⟩ := Option.map_eq_some_iff.mp h
          change restoresIn rest = [] at hphase
          cases Activation.step_cases hstep with
          | park => exact ⟨⟨e, htook, hback⟩, trivial⟩
          | @leave a rest =>
              cases a with
              | restore r v => cases hphase
              | empty r =>
                  exact ⟨⟨e, htook, fun h => hback (List.mem_of_mem_filter h)⟩, hphase⟩
              | provide | signalFilled | resetFilled | releaseClaims | flagPut | clearStale
              | drop | latch | gateEvent | stopEvent | notifyBind =>
                  exact ⟨⟨e, htook, hback⟩, hphase⟩

/-- **When every loan is back at the park.** In an activation carried to its park, every
value taken on loan has been put back exactly when no access of the shell strands one. -/
theorem lends_returned_iff {c : ShellCfg n} {m : Memory n V} {ls : List (Label n V)}
    {t : Bench n V} (hrun : exec (next c) (activation c m) ls = some t)
    (hpark : t.shell = .checking) :
    t.Returned ↔
      Along (next c) (fun s l => l = .shell → ¬ s.Strands) (activation c m) ls := by
  constructor
  · intro hreturned
    rcases along_or_breach (P := fun s l => l = .shell → ¬ s.Strands) hrun with
      halong | ⟨front, l, back, u, v, rfl, hfront, halong, hbreak, hstep, hback⟩
    · exact halong
    · have hkept : Kept c u := exec_invariant_along
        (fun _ _ _ hs hl hnext => kept_next hs hl hnext) (kept_activation c m) halong hfront
      obtain ⟨rfl, hstrands⟩ := Classical.not_imp.mp hbreak
      have hv : v.Stranded := stranded_of_strands hkept (not_not.mp hstrands) hstep
      have ht : t.Stranded := exec_invariant (fun _ _ _ hs hnext => stranded_next hs hnext) hv hback
      obtain ⟨e, htook, hlost⟩ := ht.1
      exact absurd (hreturned e htook).1 hlost
  · intro halong
    have hkept : Kept c t := exec_invariant_along
      (fun _ _ _ hs hl hnext => kept_next hs hl hnext) (kept_activation c m) halong hrun
    simp only [Kept, hpark] at hkept
    intro e he
    rw [hkept.1] at he
    exact ⟨he, hkept.2 e he⟩

/-- A shell that borrows slot 0 and then consumes slot 1. -/
def lendThenConsume : ShellCfg 1 where
  node := 0
  cfg := { mode := .terminate, spawn := some .task, resourceGates := [0, 1],
           slotTimeout := 100000, ackTimeout := 2000000 }
  resources := [⟨.lend, 0⟩, ⟨.consume, 1⟩]
  distinct := by decide

/-- Both slots are filled when the start is made. -/
def bothFilled : Memory 1 ℕ where
  slot r := if r < 2 then { value := some ⟨r, 0⟩, filled := true } else {}

/-- The worker returns, and the loan is put back before the exit is recorded. -/
def lentAndReturned : Option (Bench 1 ℕ) :=
  exec (next lendThenConsume) (activation lendThenConsume bothFilled) <|
    List.replicate 3 .shell ++ [.finish none] ++ List.replicate 12 .shell

theorem lends_returned_iff_lentAndReturned :
    let t := lentAndReturned.get rfl
    t.took = [(0, ⟨0, 0⟩)] ∧
      (t.Returned ↔ Along (next lendThenConsume) (fun s l => l = .shell → ¬ s.Strands)
        (activation lendThenConsume bothFilled)
        (List.replicate 3 .shell ++ [.finish none] ++ List.replicate 12 .shell)) := by
  have hrun : lentAndReturned = some (lentAndReturned.get rfl) := (Option.some_get _).symm
  exact ⟨rfl, lends_returned_iff hrun rfl⟩

/-- The provider of slot 1 exits between the spawn's probe and the shell's first take:
it clears the slot, and nobody else touches either. -/
def consumeCleared : Option (Bench 1 ℕ) :=
  exec (next lendThenConsume) (activation lendThenConsume bothFilled) <|
    [.other (.empty 1), .other (.resetFilled 1)] ++ List.replicate 11 .shell

/-- The value lent from slot 0 is gone when the shell parks. -/
theorem lend_lost_of_consume_empty :
    ¬ ∀ (c : ShellCfg 1) (m : Memory 1 ℕ) (ls : List (Label 1 ℕ)) (t : Bench 1 ℕ),
      exec (next c) (activation c m) ls = some t → t.shell = .checking → t.Returned := by
  intro h
  have hrun : consumeCleared = some (consumeCleared.get rfl) := (Option.some_get _).symm
  have hreturned := h lendThenConsume bothFilled _ _ hrun rfl
  have htook : (0, ⟨0, 0⟩) ∈ (consumeCleared.get rfl).took := by decide
  have hback : (consumeCleared.get rfl).back = [] := rfl
  have hmem := (hreturned _ htook).1
  rw [hback] at hmem
  exact List.not_mem_nil hmem

end Bench

end EmbassySupervisor
