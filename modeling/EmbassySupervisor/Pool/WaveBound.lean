/-
# Stops and starts end in time

Whatever the other calls, the tasks and the pool driver do meanwhile, a wave is over after the
longest chain of windows of the nodes it was given, if its own timer is honoured: no time passes
beyond the deadline it rests for before it is carried on. That the ack event is shared, and that
another wave may take a wake-up away, does not matter.
-/

import EmbassySupervisor.Pool.Turn
import EmbassySupervisor.Wave.StartPace

namespace EmbassySupervisor

open LabelledRun

variable {n : ℕ}

/-- Until when a wave rests. -/
def Call.wakes (g : Graph n) : Call n → Option ℕ
  | .stopping wave _ =>
    match wave.pc with
    | .sleep d => some d
    | .signal _ | .collect _ _ | .expire _ _ _ _ | .panic | .done _ => none
  | .starting wave _ => wave.wakes g
  | .startNode _ _ _ | .stopNode _ _ | .bindUp _ | .done _ | .panic | .cancelled => none

/-- A call that goes on stopping has carried its wave on. -/
theorem Call.wave_of_step {g : Graph n} {w w' : World n} {c : Call n} {wave' : StopWave n}
    {after : AfterStop n} (h : c.step g w = some (.stopping wave' after, w')) :
    ∃ wave, c = .stopping wave after ∧ wave.step g w = some (wave', w') := by
  obtain ⟨wave, rfl, -, hlive⟩ := Call.stopping_of_step h
  refine ⟨wave, rfl, ?_⟩
  unfold Call.step at h
  cases hpc : wave.pc with
  | done r => exact absurd hpc (hlive r)
  | panic =>
      simp only [hpc] at h
      cases h
  | signal | collect | expire | sleep =>
      simp only [hpc] at h
      obtain ⟨p, hstep, heq⟩ := Option.map_eq_some_iff.mp h
      cases heq
      exact hstep

namespace PoolSys

variable {g : PoolGraph n}

/-- The call at the index is not left at rest past its deadline. -/
def OnTime (g : PoolGraph n) (i : ℕ) (s : PoolSys n) (l : Label n) : Prop :=
  0 < l.elapsed → ∀ c ∈ s.sys.calls[i]?, ∀ d ∈ c.wakes g.toGraph, s.world.now + l.elapsed ≤ d

instance (i : ℕ) (s : PoolSys n) (l : Label n) : Decidable (s.OnTime g i l) := by
  unfold OnTime
  infer_instance

/-- The step carries the call at the index on. -/
def Label.carries (i : ℕ) : Label n → Bool
  | .sys (.advance k) => k == i
  | .sys (.begin _) | .sys (.task _) | .sys (.setDisabled _ _) | .sys (.cancel _) | .drive
  | .control _ => false

/-- What a step makes of a call that has begun. -/
inductive Goes (g : PoolGraph n) (s : PoolSys n) (l : Label n) (t : PoolSys n) (i : ℕ)
    (c : Call n) : Call n → Prop
  | rests (hl : l.carries i = false) (hrest : c.atAwait = true) : Goes g s l t i c c
  | steps {c' : Call n} (hl : l.carries i = true)
      (hstep : c.step g.toGraph s.world = some (c', t.world)) : Goes g s l t i c c'
  | dropped (hl : l.carries i = false) : Goes g s l t i c .cancelled

theorem goes_of_next {s t : PoolSys n} {l : Label n} {i : ℕ} {c : Call n}
    (h : s.next g l = some t) (hcall : s.sys.calls[i]? = some c) :
    ∃ c', t.sys.calls[i]? = some c' ∧ Goes g s l t i c c' := by
  have hlt := (List.getElem?_eq_some_iff.mp hcall).1
  have hmem := List.mem_of_getElem? hcall
  have begins : ∀ {v : Verb n} {sys : Sys n}, s.sys.next g.toGraph (.begin v) = some sys →
      sys.calls[i]? = some c ∧ c.atAwait = true := by
    intro v sys hsys
    cases Sys.next_cases hsys with
    | begin hrest =>
        exact ⟨(List.getElem?_append_left hlt).trans hcall, hrest c hmem⟩
  cases next_cases h with
  | drive hresting hdrive =>
      rw [calls_drive hdrive]
      exact ⟨c, hcall, .rests rfl (Sys.resting_iff.mp hresting c hmem)⟩
  | control _ hsys =>
      obtain ⟨hkept, hrest⟩ := begins hsys
      exact ⟨c, hkept, .rests rfl hrest⟩
  | @sys k sys _ hsys =>
      cases k with
      | begin v =>
          obtain ⟨hkept, hrest⟩ := begins hsys
          exact ⟨c, hkept, .rests rfl hrest⟩
      | task e =>
          cases Sys.next_cases hsys with
          | task hrest => exact ⟨c, hcall, .rests rfl (hrest c hmem)⟩
      | setDisabled j disabled =>
          cases Sys.next_cases hsys with
          | setDisabled hrest => exact ⟨c, hcall, .rests rfl (hrest c hmem)⟩
      | cancel k =>
          cases Sys.next_cases hsys with
          | cancel hrest =>
              by_cases hik : k = i
              · subst hik
                exact ⟨.cancelled, List.getElem?_set_self hlt, .dropped rfl⟩
              · exact ⟨c, (List.getElem?_set_ne hik).trans hcall, .rests rfl (hrest c hmem)⟩
      | advance k =>
          cases Sys.next_cases hsys with
          | @advance _ d d' w hrest hold hstep =>
              by_cases hik : k = i
              · subst hik
                cases hold.symm.trans hcall
                exact ⟨d', List.getElem?_set_self hlt, .steps (by simp [Label.carries]) hstep⟩
              · refine ⟨c, (List.getElem?_set_ne hik).trans hcall, .rests ?_ ?_⟩
                · simp [Label.carries, hik]
                · exact hrest i c (Ne.symm hik) hcall

/-! ## Along a run -/

/-- The steps of a run that carry the call on, and the others. -/
def carried (i : ℕ) (ls : List (Label n)) : ℕ := ls.countP (·.carries i)

def others (i : ℕ) (ls : List (Label n)) : ℕ := ls.countP fun l => !l.carries i

theorem carried_cons (i : ℕ) (l : Label n) (ls : List (Label n)) :
    carried i (l :: ls) = carried i ls + (l.carries i).toNat := by
  rw [carried, List.countP_cons]
  cases l.carries i <;> rfl

theorem others_cons (i : ℕ) (l : Label n) (ls : List (Label n)) :
    others i (l :: ls) = others i ls + (!l.carries i).toNat := by
  rw [others, List.countP_cons]
  cases l.carries i <;> rfl

/-- **What a call keeps** when it is carried on, and while it rests until its deadline at most, it
keeps over every run. `K` counts its own steps and the others. -/
theorem call_run {K : ℕ → ℕ → Call n → World n → Prop} {i : ℕ} {s t : PoolSys n}
    {ls : List (Label n)} {c : Call n}
    (hstep : ∀ a b c w c' w', K a b c w → c.step g.toGraph w = some (c', w') → K (a + 1) b c' w')
    (hrest : ∀ a b c w w', K a b c w → c.atAwait = true → w.now ≤ w'.now →
      (w.now < w'.now → ∀ d ∈ c.wakes g.toGraph, w'.now ≤ d) → K a (b + 1) c w')
    (hcancel : ∀ a b w, K a b .cancelled w)
    (hcall : s.sys.calls[i]? = some c) (hs : K 0 0 c s.world)
    (hontime : Along (next g) (OnTime g i) s ls) (hrun : exec (next g) s ls = some t) :
    ∃ c', t.sys.calls[i]? = some c' ∧ K (carried i ls) (others i ls) c' t.world := by
  suffices hall : ∀ (ls : List (Label n)) (s : PoolSys n) (c : Call n) (a b : ℕ),
      s.sys.calls[i]? = some c → K a b c s.world → Along (next g) (OnTime g i) s ls →
      exec (next g) s ls = some t →
      ∃ c', t.sys.calls[i]? = some c' ∧ K (carried i ls + a) (others i ls + b) c' t.world by
    exact hall ls s c 0 0 hcall hs hontime hrun
  intro ls
  induction ls with
  | nil =>
      intro s c a b hcall hs _ hrun
      cases hrun
      refine ⟨c, hcall, ?_⟩
      rwa [carried, others, List.countP_nil, List.countP_nil, Nat.zero_add, Nat.zero_add]
  | cons l ls ih =>
      intro s c a b hcall hs hontime hrun
      obtain ⟨u, hnext, hlast⟩ := exec_cons.mp hrun
      obtain ⟨c', hcall', hgoes⟩ := goes_of_next hnext hcall
      have hnow := now_of_next hnext
      have hkept : K ((l.carries i).toNat + a) ((!l.carries i).toNat + b) c' u.world := by
        cases hgoes with
        | rests hl hawait =>
            rw [hl, Nat.add_comm _ b]
            show K (0 + a) (b + 1) c u.world
            rw [Nat.zero_add]
            apply hrest a b c s.world u.world hs hawait (by omega)
            intro hpass d hd
            rw [hnow]
            exact hontime.1 (by omega) c hcall d hd
        | steps hl hcarry =>
            rw [hl, Nat.add_comm _ a]
            show K (a + 1) (0 + b) c' u.world
            rw [Nat.zero_add]
            exact hstep a b c s.world c' u.world hs hcarry
        | dropped => exact hcancel _ _ _
      rw [carried_cons, others_cons, Nat.add_assoc, Nat.add_assoc]
      exact ih u c' _ _ hcall' hkept (hontime.2 u hnext) hlast

/-! ## Stops -/

/-- A stop wave in flight is in time, and has taken a number of steps. -/
def StopsInTime (g : Graph n) (chosen : Fin n → Bool) (epoch a b : ℕ) (c : Call n) (w : World n) :
    Prop :=
  ∀ wave after, c = .stopping wave after → wave.Paced g w.now ∧ wave.chosen = chosen ∧
    wave.epoch = epoch ∧
      wave.effort g w + a ≤ (3 * g.order.length + 4) * (n + 2 + b)

theorem effort_launch (g : Graph n) (w : World n) (chosen : Fin n → Bool) (keepGoing : Bool) :
    (StopWave.launch g w chosen keepGoing).effort g w ≤ (3 * g.order.length + 4) * (n + 2) := by
  have hleft : (StopWave.launch g w chosen keepGoing).left ≤ n := by
    have hcard := Finset.card_le_univ
      (Finset.univ.filter fun j => (StopWave.launch g w chosen keepGoing).unresolved j = true)
    rwa [Fintype.card_fin] at hcard
  have hevt := Bool.toNat_le w.stopEvt
  have hrounds : (StopWave.launch g w chosen keepGoing).rounds w ≤ n + 1 :=
    Nat.add_le_add hleft hevt
  have hrest : (StopWave.launch g w chosen keepGoing).rest g = 3 * g.order.length + 4 := by
    show g.order.reverse.length + 2 * g.order.length + 4 = _
    rw [List.length_reverse]
    omega
  rw [StopWave.effort, hrest, Nat.mul_succ (m := n + 1)]
  exact Nat.add_le_add_right (Nat.mul_le_mul_left _ hrounds) _

theorem StopsInTime.step (hz : 0 < g.tickHz) {chosen : Fin n → Bool} {epoch a b : ℕ}
    {c c' : Call n} {w w' : World n} (hs : StopsInTime g.toGraph chosen epoch a b c w)
    (hstep : c.step g.toGraph w = some (c', w')) :
    StopsInTime g.toGraph chosen epoch (a + 1) b c' w' := by
  intro wave' after' hc'
  subst hc'
  obtain ⟨wave, rfl, hwave⟩ := Call.wave_of_step hstep
  obtain ⟨hpaced, hchosen, hepoch, heffort⟩ := hs wave after' rfl
  obtain ⟨hchosen', -, hepoch'⟩ := (StopWave.step_cases hwave).static
  have hless := StopWave.effort_step hpaced hwave
  exact ⟨hpaced.step hz hwave, hchosen'.trans hchosen, hepoch'.trans hepoch, by omega⟩

theorem StopsInTime.rest (hz : 0 < g.tickHz) {chosen : Fin n → Bool} {epoch a b : ℕ}
    {c : Call n} {w w' : World n} (hs : StopsInTime g.toGraph chosen epoch a b c w)
    (hrest : c.atAwait = true) (hle : w.now ≤ w'.now)
    (hontime : w.now < w'.now → ∀ d ∈ c.wakes g.toGraph, w'.now ≤ d) :
    StopsInTime g.toGraph chosen epoch a (b + 1) c w' := by
  intro wave after hc
  subst hc
  obtain ⟨hpaced, hchosen, hepoch, heffort⟩ := hs wave after rfl
  have hsleep : ∃ d, wave.pc = .sleep d := by
    cases hpc : wave.pc with
    | sleep d => exact ⟨d, rfl⟩
    | signal | collect | expire | panic | done => simp [Call.atAwait, hpc] at hrest
  obtain ⟨d, hpc⟩ := hsleep
  have hlater := StopWave.effort_sleep (g := g.toGraph) hpc w w'
  refine ⟨?_, hchosen, hepoch, ?_⟩
  · rcases hle.eq_or_lt with hsame | hpass
    · rwa [← hsame]
    · exact hpaced.elapse hz hpc hle (hontime hpass d (by simp [Call.wakes, hpc]))
  · rw [← Nat.add_assoc, Nat.mul_succ]
    omega

/-- **A stop is over in time.** However the other calls, the tasks and the pool driver are
interleaved with a stop wave whose timer is honoured, the wave is in flight no longer than the
longest chain of acknowledgement windows of the nodes it was given, each of a dependent of the
next; it never sleeps beyond that, and takes at most so many steps of its own. -/
theorem stop_in_time (hz : 0 < g.tickHz) {i : ℕ} {s t : PoolSys n} {ls : List (Label n)}
    {chosen : Fin n → Bool} {keepGoing : Bool} {after after' : AfterStop n} {wave : StopWave n}
    (hocc : ∀ j, chosen j = true → g.occupied j = true)
    (hlaunch : s.sys.calls[i]? =
      some (.stopping (StopWave.launch g.toGraph s.world chosen keepGoing) after))
    (hontime : Along (next g) (OnTime g i) s ls) (hrun : exec (next g) s ls = some t)
    (hcall : t.sys.calls[i]? = some (.stopping wave after')) :
    t.world.now ≤ s.world.now + g.stopBound chosen ∧
      (∀ d, wave.pc = .sleep d → d ≤ s.world.now + g.stopBound chosen) ∧
      carried i ls ≤ (3 * g.order.length + 4) * (n + 2 + others i ls) ∧
      (1000 ≤ g.tickHz → IsGreatest {ticks | ∃ path : List (Fin n),
        (∀ j ∈ path, chosen j = true) ∧ path.IsChain (fun k j => chosen k = true ∧ j ∈ g.deps k) ∧
        ticks = g.fromMillis (path.map g.stopSpan).sum} (g.stopBound chosen)) := by
  have hstart : StopsInTime g.toGraph chosen s.world.now 0 0
      (.stopping (StopWave.launch g.toGraph s.world chosen keepGoing) after) s.world := by
    intro wave after heq
    cases heq
    exact ⟨StopWave.paced_launch s.world keepGoing hocc, rfl, rfl, effort_launch _ _ _ _⟩
  obtain ⟨c, hc, hkept⟩ := call_run (fun _ _ _ _ _ _ hs hstep => hs.step hz hstep)
    (fun _ _ _ _ _ hs hrest hle hontime => hs.rest hz hrest hle hontime) (fun _ _ _ => nofun)
    hlaunch hstart hontime hrun
  cases hc.symm.trans hcall
  obtain ⟨hpaced, rfl, hepoch, heffort⟩ := hkept wave after' rfl
  have hbound := hpaced.bound
  have hle := hpaced.epoch
  refine ⟨by omega, fun d hd => ?_, by omega, Graph.isGreatest_stopBound⟩
  rw [← hepoch]
  exact hpaced.deadline_le hz hd

/-- The workers and what they depend on are stopped, and nobody answers. -/
def unansweredStop : PoolSys 3 where
  sys := { world := { node := fun _ => { flags := fun k => k == .running }, inst := fun _ => .up }
           calls := [.stopping (StopWave.launch workers.toGraph
             { node := fun _ => { flags := fun k => k == .running }, inst := fun _ => .up }
             (fun _ => true) true) .ret] }
  driver := .park none

/-- Both workers are given up on after two seconds, and the wave waits for the third node. -/
def unansweredStopped : List (Label 3) :=
  List.replicate 12 (.sys (.advance 0)) ++ [.sys (.task (.elapse 2000000))] ++
    List.replicate 25 (.sys (.advance 0)) ++ [.sys (.task (.elapse 2000000))]

def unansweredStopRun : Option (PoolSys 3) :=
  exec (next workers) unansweredStop unansweredStopped

theorem stop_in_time_workers : ∃ t wave, unansweredStopRun = some t ∧
    t.sys.calls[0]? = some (.stopping wave .ret) ∧
    t.world.now ≤ 0 + workers.stopBound fun _ => true := by
  have hontime : Along (next workers) (OnTime workers 0) unansweredStop unansweredStopped := by
    decide +kernel
  have hrun : unansweredStopRun = some (unansweredStopRun.get rfl) := (Option.some_get _).symm
  have hbound := stop_in_time (s := unansweredStop) (by decide) (by decide) rfl hontime hrun rfl
  exact ⟨_, _, hrun, rfl, hbound.1⟩

example : unansweredStopRun.map (·.world.now) = some (workers.stopBound fun _ => true) := by
  decide +kernel

/-! ## Starts -/

/-- A start wave in flight is in time; it may be over. -/
def StartsInTime (g : Graph n) (chosen : Fin n → Bool) (epoch : ℕ) (c : Call n) (w : World n) :
    Prop :=
  (∃ wave poke, c = .starting wave poke ∧ wave.Paced g chosen w.now ∧ wave.epoch = epoch) ∨
    c = .panic ∨ c.finished = true

theorem StartsInTime.step {chosen : Fin n → Bool} {epoch : ℕ} {c c' : Call n} {w w' : World n}
    (hs : StartsInTime g.toGraph chosen epoch c w)
    (hstep : c.step g.toGraph w = some (c', w')) :
    StartsInTime g.toGraph chosen epoch c' w' := by
  rcases hs with ⟨wave, poke, rfl, hpaced, hepoch⟩ | rfl | hfinished
  · unfold Call.step at hstep
    cases hpc : wave.pc with
    | done r =>
        simp only [hpc] at hstep
        cases hstep
        exact Or.inr (Or.inr rfl)
    | panic =>
        simp only [hpc] at hstep
        cases hstep
        exact Or.inr (Or.inl rfl)
    | visit | yield | sleep =>
        simp only [hpc] at hstep
        obtain ⟨⟨wave', u⟩, hwave, heq⟩ := Option.map_eq_some_iff.mp hstep
        cases heq
        have hepoch' := (StartWave.step_cases hwave).static.2
        exact Or.inl ⟨wave', poke, rfl, hpaced.step hwave, hepoch'.trans hepoch⟩
  · cases hstep
  · rw [Call.step_of_finished hfinished] at hstep
    cases hstep

theorem StartsInTime.rest (hz : 0 < g.tickHz) {chosen : Fin n → Bool} {epoch : ℕ} {c : Call n}
    {w w' : World n} (hs : StartsInTime g.toGraph chosen epoch c w) (hrest : c.atAwait = true)
    (hle : w.now ≤ w'.now) (hontime : w.now < w'.now → ∀ d ∈ c.wakes g.toGraph, w'.now ≤ d) :
    StartsInTime g.toGraph chosen epoch c w' := by
  rcases hs with ⟨wave, poke, rfl, hpaced, hepoch⟩ | hover
  · have hpc : wave.pc = .yield ∨ ∃ d, wave.pc = .sleep d := by
      cases hpc : wave.pc with
      | yield => exact Or.inl rfl
      | sleep d => exact Or.inr ⟨d, rfl⟩
      | visit | panic | done => simp [Call.atAwait, hpc] at hrest
    refine Or.inl ⟨wave, poke, rfl, ?_, hepoch⟩
    rcases hle.eq_or_lt with hsame | hpass
    · rwa [← hsame]
    · exact hpaced.elapse hz hpc hle fun d hd => hontime hpass d hd
  · exact Or.inr hover

/-- **A start is over in time.** A start wave whose timer is honoured is in flight no longer than
the longest chain of gate budgets of the nodes it was given, each of a dependency of the next,
and never rests beyond that. -/
theorem start_in_time (hz : 0 < g.tickHz) {i : ℕ} {s t : PoolSys n} {ls : List (Label n)}
    {chosen : Fin n → Bool} {keepGoing poke poke' : Bool} {wave : StartWave n}
    (hocc : ∀ j, chosen j = true → g.occupied j = true)
    (hlaunch : s.sys.calls[i]? =
      some (.starting (StartWave.launch g.toGraph s.world chosen keepGoing) poke))
    (hontime : Along (next g) (OnTime g i) s ls) (hrun : exec (next g) s ls = some t)
    (hcall : t.sys.calls[i]? = some (.starting wave poke')) :
    t.world.now ≤ s.world.now + g.startBound chosen ∧
      (∀ d ∈ wave.wakes g.toGraph, d ≤ s.world.now + g.startBound chosen) ∧
      (1000 ≤ g.tickHz → IsGreatest {ticks | ∃ path : List (Fin n),
        (∀ j ∈ path, chosen j = true) ∧ path.IsChain (fun d j => d ∈ g.deps j ∧ chosen d = true) ∧
        ticks = g.fromMillis (path.map g.startSpan).sum} (g.startBound chosen)) := by
  have hstart : StartsInTime g.toGraph chosen s.world.now
      (.starting (StartWave.launch g.toGraph s.world chosen keepGoing) poke) s.world :=
    Or.inl ⟨_, _, rfl, StartWave.paced_launch s.world keepGoing hocc, rfl⟩
  obtain ⟨c, hc, hkept⟩ := call_run (K := fun _ _ => StartsInTime g.toGraph chosen s.world.now)
    (fun _ _ _ _ _ _ hs hstep => hs.step hstep)
    (fun _ _ _ _ _ hs hrest hle hontime => hs.rest hz hrest hle hontime)
    (fun _ _ _ => Or.inr (Or.inr rfl)) hlaunch hstart hontime hrun
  cases hc.symm.trans hcall
  rcases hkept with ⟨wave, poke, heq, hpaced, hepoch⟩ | heq | hfinished
  · cases heq
    have hbound := hpaced.bound
    have hle := hpaced.epoch
    refine ⟨by omega, fun d hd => ?_, Graph.isGreatest_startBound⟩
    rw [← hepoch]
    exact hpaced.wakes_le hz hd
  · cases heq
  · cases hfinished

/-- The workers and what they depend on are started, and no executor takes them. -/
def refusedStart : PoolSys 3 where
  sys := { world := { node := fun _ => {}, refused := fun _ => true }
           calls := [.starting (StartWave.launch workers.toGraph { node := fun _ => {}, refused := fun _ => true }
             (fun _ => true) true) false] }
  driver := .park none

/-- The budget of the node they depend on is spent while the wave yields, and then theirs. -/
def refusedStarted : List (Label 3) :=
  List.replicate 5 (.sys (.advance 0)) ++ [.sys (.task (.elapse 5000000))] ++
    List.replicate 11 (.sys (.advance 0)) ++ [.sys (.task (.elapse 5000000))]

def refusedStartRun : Option (PoolSys 3) := exec (next workers) refusedStart refusedStarted

theorem start_in_time_workers : ∃ t wave, refusedStartRun = some t ∧
    t.sys.calls[0]? = some (.starting wave false) ∧
    t.world.now ≤ 0 + workers.startBound fun _ => true := by
  have hontime : Along (next workers) (OnTime workers 0) refusedStart refusedStarted := by
    decide +kernel
  have hrun : refusedStartRun = some (refusedStartRun.get rfl) := (Option.some_get _).symm
  have hbound := start_in_time (s := refusedStart) (by decide) (by decide) rfl hontime hrun rfl
  exact ⟨_, _, hrun, rfl, hbound.1⟩

example : refusedStartRun.map (·.world.now) = some (workers.startBound fun _ => true) := by
  decide +kernel

end PoolSys

end EmbassySupervisor
