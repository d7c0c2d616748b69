/-
# The chain of registered graphs

A supervisor that starts registers its graph, and the hooks go through all registered graphs
while others register. A graph is linked once, whoever registers it and how often: the first
one latches it and then puts it at the head of the chain, under the lock of the head.

`chain` lists the graphs in the chain and every iteration keeps what that was when it began;
neither is read by the code. `graphs_complete` says that an iteration yields just these graphs,
each once, whatever is registered meanwhile.
-/

import EmbassySupervisor.Lib.Interleaving
import EmbassySupervisor.Lib.LabelledRun
import Mathlib.Logic.Function.Basic

namespace EmbassySupervisor.Trace

open LabelledRun Interleaving

variable {γ : Type} [DecidableEq γ]

/-! ## Links -/

/-- Following the links from a cell leads through these graphs and ends. -/
def Links (next : γ → Option γ) : Option γ → List γ → Prop
  | cell, [] => cell = none
  | cell, g :: gs => cell = some g ∧ Links next (next g) gs

theorem Links.update {next : γ → Option γ} {cell : Option γ} {gs : List γ} {g : γ}
    (h : Links next cell gs) (hg : g ∉ gs) (cell' : Option γ) :
    Links (Function.update next g cell') cell gs := by
  induction gs generalizing cell with
  | nil => exact h
  | cons k gs ih =>
      have hne : k ≠ g := fun heq => hg (heq ▸ List.mem_cons_self)
      have hrest : g ∉ gs := fun hin => hg (List.mem_cons_of_mem _ hin)
      refine ⟨h.1, ?_⟩
      rw [Function.update_of_ne hne]
      exact ih h.2 hrest

/-! ## Registering and iterating -/

inductive RegisterPhase
  | swap
  | link
  | returned
  deriving DecidableEq

structure RegisterCall (γ : Type) where
  graph : γ
  phase : RegisterPhase := .swap

/-- `Graphs`: what comes next, with what has been yielded, newest first, and the chain as it
was when the iteration began. -/
structure Iteration (γ : Type) where
  next : Option γ
  yielded : List γ := []
  all : List γ

structure ChainSys (γ : Type) where
  next : γ → Option γ := fun _ => none
  linked : γ → Bool := fun _ => false
  head : Option γ := none
  calls : List (RegisterCall γ) := []
  iterations : List (Iteration γ) := []
  chain : List γ := []

namespace ChainSys

inductive Label (γ : Type)
  | register (g : γ)
  | advance (k : ℕ)
  | graphs
  | iterate (k : ℕ)

/-- The next access of `register`. -/
def access (s : ChainSys γ) (k : ℕ) (c : RegisterCall γ) : Option (ChainSys γ) :=
  match c.phase with
  | .swap =>
    some { s with
      linked := Function.update s.linked c.graph true
      calls := s.calls.set k
        { c with phase := if s.linked c.graph then .returned else .link } }
  | .link =>
    some { s with
      next := Function.update s.next c.graph s.head
      head := some c.graph
      calls := s.calls.set k { c with phase := .returned }
      chain := c.graph :: s.chain }
  | .returned => none

/-- `Graphs::next`. -/
def yield (s : ChainSys γ) (k : ℕ) (it : Iteration γ) : Option (ChainSys γ) :=
  it.next.map fun g =>
    { s with
      iterations := s.iterations.set k
        { it with next := s.next g, yielded := g :: it.yielded } }

def step (s : ChainSys γ) : Label γ → Option (ChainSys γ)
  | .register g => some { s with calls := s.calls ++ [{ graph := g }] }
  | .advance k => s.calls[k]?.bind (s.access k)
  | .graphs =>
    some { s with iterations := s.iterations ++ [{ next := s.head, all := s.chain }] }
  | .iterate k => s.iterations[k]?.bind (s.yield k)

/-! ## What is kept -/

/-- What is left of an iteration is linked, and part of the chain. -/
def Follows (s : ChainSys γ) (it : Iteration γ) : Prop :=
  ∃ rest, it.all = it.yielded.reverse ++ rest ∧ it.all <:+ s.chain ∧ Links s.next it.next rest

structure Sound (s : ChainSys γ) : Prop where
  links : Links s.next s.head s.chain
  nodup : s.chain.Nodup
  latched : ∀ g ∈ s.chain, s.linked g = true
  linking : ∀ c ∈ s.calls, c.phase = .link → s.linked c.graph = true ∧ c.graph ∉ s.chain
  alone : ∀ (i j : ℕ) (c d : RegisterCall γ), s.calls[i]? = some c → s.calls[j]? = some d →
    c.phase = .link → d.phase = .link → c.graph = d.graph → i = j
  owned : ∀ g, s.linked g = true → g ∈ s.chain ∨ ∃ c ∈ s.calls, c.graph = g ∧ c.phase = .link
  called : ∀ g ∈ s.chain, ∃ c ∈ s.calls, c.graph = g
  returned : ∀ c ∈ s.calls, c.phase ≠ .swap → s.linked c.graph = true
  follows : ∀ it ∈ s.iterations, s.Follows it

variable {s t : ChainSys γ} {k : ℕ}

omit [DecidableEq γ] in
theorem Sound.init : Sound ({} : ChainSys γ) where
  links := rfl
  nodup := List.nodup_nil
  latched _ h := by cases h
  linking _ h := by cases h
  alone _ _ _ _ h := by cases h
  owned _ h := by cases h
  called _ h := by cases h
  returned _ h := by cases h
  follows _ h := by cases h

omit [DecidableEq γ] in
theorem Sound.register (h : s.Sound) (g : γ) :
    Sound { s with calls := s.calls ++ [{ graph := g }] } where
  links := h.links
  nodup := h.nodup
  latched := h.latched
  linking c hc hlink := by
    rcases List.mem_append.mp hc with hc | hc
    · exact h.linking c hc hlink
    · rw [List.mem_singleton.mp hc] at hlink
      cases hlink
  alone i j c d hi hj hc hd heq := by
    rcases getElem?_append_singleton hi with rfl | hi
    · cases hc
    · rcases getElem?_append_singleton hj with rfl | hj
      · cases hd
      · exact h.alone i j c d hi hj hc hd heq
  owned k hk := by
    rcases h.owned k hk with hin | ⟨c, hc, hlink⟩
    · exact .inl hin
    · exact .inr ⟨c, List.mem_append_left _ hc, hlink⟩
  called k hk := by
    obtain ⟨c, hc, heq⟩ := h.called k hk
    exact ⟨c, List.mem_append_left _ hc, heq⟩
  returned c hc hphase := by
    rcases List.mem_append.mp hc with hc | hc
    · exact h.returned c hc hphase
    · rw [List.mem_singleton.mp hc] at hphase
      exact absurd rfl hphase
  follows := h.follows

variable {c : RegisterCall γ}

omit [DecidableEq γ] in
/-- A graph that somebody else has latched. -/
theorem Sound.pass (h : s.Sound) (hc : s.calls[k]? = some c) (hseen : s.linked c.graph = true)
    (hphase : c.phase = .swap) :
    Sound { s with calls := s.calls.set k { c with phase := .returned } } where
  links := h.links
  nodup := h.nodup
  latched := h.latched
  linking d hd hlink := by
    rcases List.mem_or_eq_of_mem_set hd with hd | rfl
    · exact h.linking d hd hlink
    · cases hlink
  alone i j d e hi hj hd he heq := by
    rcases getElem?_set_cases hi with ⟨-, rfl⟩ | hi
    · cases hd
    · rcases getElem?_set_cases hj with ⟨-, rfl⟩ | hj
      · cases he
      · exact h.alone i j d e hi hj hd he heq
  owned g hg := by
    rcases h.owned g hg with hin | ⟨d, hd, heq, hlink⟩
    · exact .inl hin
    · refine .inr ⟨d, mem_set_of_ne hc hd fun hdc => ?_, heq, hlink⟩
      rw [hdc, hphase] at hlink
      cases hlink
  called g hg := by
    obtain ⟨d, hd, heq⟩ := h.called g hg
    by_cases hdc : d = c
    · exact ⟨_, List.mem_set (List.getElem?_eq_some_iff.mp hc).1 _, hdc ▸ heq⟩
    · exact ⟨d, mem_set_of_ne hc hd hdc, heq⟩
  returned := forall_mem_set h.returned fun _ => hseen
  follows := h.follows

/-- The first that comes latches its graph. -/
theorem Sound.latch (h : s.Sound) (hc : s.calls[k]? = some c) (hfirst : s.linked c.graph = false)
    (hphase : c.phase = .swap) :
    Sound { s with
      linked := Function.update s.linked c.graph true
      calls := s.calls.set k { c with phase := .link } } where
  links := h.links
  nodup := h.nodup
  latched g hg := by
    show Function.update s.linked c.graph true g = true
    rw [Function.update_apply]
    split
    · rfl
    · exact h.latched g hg
  linking d hd hlink := by
    rcases List.mem_or_eq_of_mem_set hd with hd | rfl
    · obtain ⟨hlinked, hout⟩ := h.linking d hd hlink
      refine ⟨?_, hout⟩
      show Function.update s.linked c.graph true d.graph = true
      rw [Function.update_apply]
      split
      · rfl
      · exact hlinked
    · refine ⟨Function.update_self .., fun hin => ?_⟩
      have hlinked := h.latched c.graph hin
      rw [hfirst] at hlinked
      cases hlinked
  alone i j d e hi hj hd he heq := by
    have hother {m : ℕ} {f : RegisterCall γ} (hm : s.calls[m]? = some f) (hf : f.phase = .link) :
        f.graph ≠ c.graph := by
      intro hsame
      have hlinked := (h.linking f (List.mem_of_getElem? hm) hf).1
      rw [hsame, hfirst] at hlinked
      cases hlinked
    rcases getElem?_set_cases hi with ⟨hik, hdc⟩ | hi'
    · rcases getElem?_set_cases hj with ⟨hjk, -⟩ | hj'
      · rw [hik, hjk]
      · rw [hdc] at heq
        exact absurd heq.symm (hother hj' he)
    · rcases getElem?_set_cases hj with ⟨-, hec⟩ | hj'
      · rw [hec] at heq
        exact absurd heq (hother hi' hd)
      · exact h.alone i j d e hi' hj' hd he heq
  owned g hg := by
    by_cases hgc : g = c.graph
    · exact .inr ⟨_, List.mem_set (List.getElem?_eq_some_iff.mp hc).1 _, hgc.symm, rfl⟩
    · have hlinked : s.linked g = true := by
        rw [← hg]
        exact (Function.update_of_ne hgc _ _).symm
      rcases h.owned g hlinked with hin | ⟨d, hd, heq, hlink⟩
      · exact .inl hin
      · refine .inr ⟨d, mem_set_of_ne hc hd fun hdc => ?_, heq, hlink⟩
        rw [hdc, hphase] at hlink
        cases hlink
  called g hg := by
    obtain ⟨d, hd, heq⟩ := h.called g hg
    by_cases hdc : d = c
    · exact ⟨_, List.mem_set (List.getElem?_eq_some_iff.mp hc).1 _, hdc ▸ heq⟩
    · exact ⟨d, mem_set_of_ne hc hd hdc, heq⟩
  returned d hd hswap := by
    show Function.update s.linked c.graph true d.graph = true
    rw [Function.update_apply]
    split
    · rfl
    · rename_i hne
      rcases List.mem_or_eq_of_mem_set hd with hd | rfl
      · exact h.returned d hd hswap
      · exact absurd rfl hne
  follows := h.follows

/-- It puts the graph at the head of the chain. -/
theorem Sound.link (h : s.Sound) (hc : s.calls[k]? = some c) (hphase : c.phase = .link) :
    Sound { s with
      next := Function.update s.next c.graph s.head
      head := some c.graph
      calls := s.calls.set k { c with phase := .returned }
      chain := c.graph :: s.chain } where
  links := by
    have hout := (h.linking c (List.mem_of_getElem? hc) hphase).2
    refine ⟨rfl, ?_⟩
    show Links (Function.update s.next c.graph s.head)
      (Function.update s.next c.graph s.head c.graph) s.chain
    rw [Function.update_self]
    exact h.links.update hout _
  nodup := List.nodup_cons.mpr ⟨(h.linking c (List.mem_of_getElem? hc) hphase).2, h.nodup⟩
  latched g hg := by
    rcases List.mem_cons.mp hg with rfl | hg
    · exact (h.linking c (List.mem_of_getElem? hc) hphase).1
    · exact h.latched g hg
  linking d hd hlink := by
    obtain ⟨m, hm⟩ := List.getElem?_of_mem hd
    rcases getElem?_set_cases hm with ⟨-, rfl⟩ | hm'
    · cases hlink
    · obtain ⟨hlinked, hout⟩ := h.linking d (List.mem_of_getElem? hm') hlink
      refine ⟨hlinked, fun hin => ?_⟩
      rcases List.mem_cons.mp hin with heq | hin
      · have hmk := h.alone m k d c hm' hc hlink hphase heq
        subst hmk
        rw [List.getElem?_set_self (List.getElem?_eq_some_iff.mp hc).1] at hm
        rw [← Option.some.inj hm] at hlink
        cases hlink
      · exact hout hin
  alone i j d e hi hj hd he heq := by
    rcases getElem?_set_cases hi with ⟨-, rfl⟩ | hi
    · cases hd
    · rcases getElem?_set_cases hj with ⟨-, rfl⟩ | hj
      · cases he
      · exact h.alone i j d e hi hj hd he heq
  owned g hg := by
    by_cases hgc : g = c.graph
    · exact .inl (hgc ▸ List.mem_cons_self)
    · rcases h.owned g hg with hin | ⟨d, hd, heq, hlink⟩
      · exact .inl (List.mem_cons_of_mem _ hin)
      · refine .inr ⟨d, mem_set_of_ne hc hd fun hdc => ?_, heq, hlink⟩
        exact hgc (heq ▸ hdc ▸ rfl)
  called g hg := by
    have hown : ∃ d ∈ s.calls.set k { c with phase := RegisterPhase.returned },
        d.graph = c.graph :=
      ⟨_, List.mem_set (List.getElem?_eq_some_iff.mp hc).1 _, rfl⟩
    rcases List.mem_cons.mp hg with rfl | hg
    · exact hown
    · obtain ⟨d, hd, heq⟩ := h.called g hg
      by_cases hdc : d = c
      · rw [← heq, hdc]
        exact hown
      · exact ⟨d, mem_set_of_ne hc hd hdc, heq⟩
  returned := forall_mem_set h.returned fun _ =>
    (h.linking c (List.mem_of_getElem? hc) hphase).1
  follows it hit := by
    have hout := (h.linking c (List.mem_of_getElem? hc) hphase).2
    obtain ⟨rest, hall, hpart, hlinks⟩ := h.follows it hit
    refine ⟨rest, hall, hpart.trans (List.suffix_cons _ _), hlinks.update (fun hin => ?_) _⟩
    exact hout (hpart.subset (hall ▸ List.mem_append_right _ hin))

omit [DecidableEq γ] in
/-- An iteration goes on to the next graph. -/
theorem Sound.yield (h : s.Sound) {it : Iteration γ} {g : γ} (hit : s.iterations[k]? = some it)
    (hnext : it.next = some g) :
    Sound { s with
      iterations := s.iterations.set k
        { it with next := s.next g, yielded := g :: it.yielded } } where
  links := h.links
  nodup := h.nodup
  latched := h.latched
  linking := h.linking
  alone := h.alone
  owned := h.owned
  called := h.called
  returned := h.returned
  follows := by
    refine forall_mem_set h.follows ?_
    obtain ⟨rest, hall, hpart, hlinks⟩ := h.follows it (List.mem_of_getElem? hit)
    cases rest with
    | nil =>
        rw [hnext] at hlinks
        cases hlinks
    | cons k rest =>
        obtain ⟨hhead, hrest⟩ := hlinks
        obtain rfl : g = k := Option.some.inj (hnext.symm.trans hhead)
        refine ⟨rest, ?_, hpart, hrest⟩
        show it.all = (g :: it.yielded).reverse ++ rest
        rw [hall, List.reverse_cons, List.append_assoc, List.singleton_append]

/-- **Every step keeps the chain.** -/
theorem Sound.step (h : s.Sound) {l : Label γ} (hstep : s.step l = some t) : t.Sound := by
  cases l with
  | register g =>
      cases hstep
      exact h.register g
  | advance k =>
      obtain ⟨c, hc, haccess⟩ := Option.bind_eq_some_iff.mp hstep
      rw [access] at haccess
      cases hphase : c.phase with
      | swap =>
          rw [hphase] at haccess
          cases haccess
          by_cases hseen : s.linked c.graph = true
          · rw [if_pos hseen, ← hseen, Function.update_eq_self]
            exact h.pass hc hseen hphase
          · rw [if_neg hseen]
            exact h.latch hc ((Bool.not_eq_true _).mp hseen) hphase
      | link =>
          rw [hphase] at haccess
          cases haccess
          exact h.link hc hphase
      | returned =>
          rw [hphase] at haccess
          cases haccess
  | graphs =>
      cases hstep
      refine ⟨h.links, h.nodup, h.latched, h.linking, h.alone, h.owned, h.called, h.returned, ?_⟩
      intro it hit
      rcases List.mem_append.mp hit with hit | hit
      · exact h.follows it hit
      · rw [List.mem_singleton.mp hit]
        exact ⟨s.chain, rfl, List.suffix_refl _, h.links⟩
  | iterate k =>
      obtain ⟨it, hit, hyield⟩ := Option.bind_eq_some_iff.mp hstep
      obtain ⟨g, hnext, rfl⟩ := Option.map_eq_some_iff.mp hyield
      exact h.yield hit hnext

/-- **An iteration is complete.** However registrations and iterations are interleaved, one that
is over has yielded the graphs that were in the chain when it began, the last that came first
and each once; one that goes on has yielded the first of them. When no registration is under
way, the graphs in the chain are those that were ever registered. -/
theorem graphs_complete {ls : List (Label γ)} (hrun : exec ChainSys.step {} ls = some s) :
    s.chain.Nodup ∧
      (∀ it ∈ s.iterations, it.all <:+ s.chain ∧ it.yielded.reverse <+: it.all ∧
        (it.next = none ↔ it.yielded.reverse = it.all)) ∧
      ((∀ c ∈ s.calls, c.phase = .returned) → ∀ g, g ∈ s.chain ↔ ∃ c ∈ s.calls, c.graph = g) := by
  have h : s.Sound := exec_invariant (I := Sound) (fun u l v hu hstep => hu.step hstep) .init hrun
  refine ⟨h.nodup, fun it hit => ?_, fun hover g => ⟨h.called g, ?_⟩⟩
  · obtain ⟨rest, hall, hpart, hlinks⟩ := h.follows it hit
    refine ⟨hpart, ⟨rest, hall.symm⟩, fun hnone => ?_, fun heq => ?_⟩
    · cases rest with
      | nil => rw [hall, List.append_nil]
      | cons k rest =>
          rw [hnone] at hlinks
          cases hlinks.1
    · rw [← heq] at hall
      rw [List.self_eq_append_right.mp hall] at hlinks
      exact hlinks
  · intro hcalled
    obtain ⟨c, hc, rfl⟩ := hcalled
    have hlinked := h.returned c hc (by rw [hover c hc]; exact nofun)
    rcases h.owned c.graph hlinked with hin | ⟨d, hd, -, hlink⟩
    · exact hin
    · rw [hover d hd] at hlink
      cases hlink

/-- A graph is registered twice while another one is, and an iteration begins in between. -/
def registeredTwice : List (Label ℕ) :=
  [.register 1, .register 1, .register 2, .advance 0, .advance 1, .advance 0, .graphs, .advance 2,
    .advance 2, .iterate 0, .graphs, .iterate 1, .iterate 1]

theorem graphs_complete_registeredTwice :
    ∃ s : ChainSys ℕ, exec ChainSys.step {} registeredTwice = some s ∧
      s.chain.Nodup ∧
      (∀ it ∈ s.iterations, it.all <:+ s.chain ∧ it.yielded.reverse <+: it.all ∧
        (it.next = none ↔ it.yielded.reverse = it.all)) ∧
      ((∀ c ∈ s.calls, c.phase = .returned) →
        ∀ g, g ∈ s.chain ↔ ∃ c ∈ s.calls, c.graph = g) := by
  have hrun : exec ChainSys.step {} registeredTwice =
      some ((exec ChainSys.step {} registeredTwice).get (by decide)) := (Option.some_get _).symm
  exact ⟨_, hrun, graphs_complete hrun⟩

example : (exec ChainSys.step {} registeredTwice).map
    (fun s => (s.chain, s.iterations.map fun it => it.yielded.reverse)) =
      some ([2, 1], [[1], [2, 1]]) := by
  decide

end ChainSys

end EmbassySupervisor.Trace
