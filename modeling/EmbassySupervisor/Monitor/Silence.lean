/-
# How long a silence lasts

A node found stale should stay stale until it beats, a write that feeds its beat
advances, or it is restarted, stopped or detached. `stale_lasts_iff` says for every
silent run when it does: when the ticks since the last stamp never come to `2 ^ 32`, where
the age of the stamp wraps around, and when no sweep comes across a write that was made
before and had not been seen. `stale_wraps` is a run of a single step in which a node that
has been silent all along is fresh again.

What a silent node shows is listed in `Shows`: it is stale at every instant the run
passes, the application's checks name it, and no sweep reports that it beats again.
-/

import EmbassySupervisor.Monitor.Strikes
import EmbassySupervisor.Pool.Turn

namespace EmbassySupervisor

open LabelledRun

variable {n : ℕ}

/-! ## The age of a stamp -/

/-- The ticks since the last stamp, as they are counted. -/
def Beat.age (b : Beat) (now : ℕ) : ℕ := (UInt32.ofNat now - b.lastBeat).toNat

/-- An age wraps around at 32 bits. -/
theorem Beat.age_add (b : Beat) (now ticks : ℕ) :
    b.age (now + ticks) = (b.age now + ticks) % 2 ^ 32 := by
  have hlt : b.lastBeat.toNat < 2 ^ 32 := b.lastBeat.toNat_lt
  simp only [age, UInt32.toNat_sub, UInt32.toNat_ofNat']
  omega

theorem Beat.age_lt (b : Beat) (now : ℕ) : b.age now < 2 ^ 32 := UInt32.toNat_lt _

/-- Without a beat to stamp, looking at a node changes nothing. -/
theorem Beat.ticksSinceBeat_eq {b : Beat} (h : b.pendingBeat = false) (now : ℕ) :
    b.ticksSinceBeat now = (b.age now, b) := by
  simp [ticksSinceBeat, age, h]

/-- A beat to stamp makes a node fresh. -/
theorem Beat.ticksSinceBeat_of_pending {b : Beat} (h : b.pendingBeat = true) (now : ℕ) :
    (b.ticksSinceBeat now).1 = 0 := by
  simp [ticksSinceBeat, h]

/-- The stamp and the beat to be stamped are as before. -/
structure Beat.SameStamp (b b' : Beat) : Prop where
  lastBeat : b'.lastBeat = b.lastBeat
  pendingBeat : b'.pendingBeat = b.pendingBeat

/-! ## Looking at a silent node -/

namespace MonitoredGraph

variable {g : MonitoredGraph n} {j : Fin n} {w : World n} {l l' : Liveness n}

theorem beat_put_of_eq {i : Fin n} {b : Beat} (h : i = j → b = l.beat j) :
    (l.put i b).beat j = l.beat j := by
  by_cases hij : j = i
  · subst hij
    simp [Liveness.put, h rfl]
  · simp [Liveness.put, hij]

theorem ticksUntilCheck_of_silent {b : Beat} (hpending : b.pendingBeat = false) :
    (g.ticksUntilCheck w j b).2 = b := by
  unfold ticksUntilCheck
  split
  · rfl
  · split
    · rfl
    · split
      · rfl
      · simp [Beat.ticksSinceBeat_eq hpending]

theorem beat_look (hpending : (l.beat j).pendingBeat = false) :
    (g.look w l).beat j = l.beat j := by
  refine look_keeps (P := fun l' => l'.beat j = l.beat j) rfl (fun i l' hl' => ?_)
    fun _ _ hl' => hl'
  refine (beat_put_of_eq fun hij => ?_).trans hl'
  subst hij
  exact ticksUntilCheck_of_silent (hl' ▸ hpending)

theorem beat_isStale (hpending : (l.beat j).pendingBeat = false) (i : Fin n) :
    (g.isStale w i l).2.beat j = l.beat j := by
  unfold isStale
  split
  · split
    · apply beat_put_of_eq
      intro hij
      subst hij
      rw [Beat.ticksSinceBeat_eq hpending]
    · rfl
  · rfl

theorem isStale_congr (h : l'.beat j = l.beat j) :
    (g.isStale w j l').1 = (g.isStale w j l).1 := by
  unfold isStale
  rw [h]
  split
  · split <;> rfl
  · rfl

/-- `stale_nodes` lists every stale node it comes to, and leaves a silent one alone. -/
theorem staleAmong_of_silent (hpending : (l.beat j).pendingBeat = false) (js : List (Fin n)) :
    (g.staleAmong w js l).2.beat j = l.beat j ∧
      (j ∈ js → (g.isStale w j l).1 = true → j ∈ (g.staleAmong w js l).1) := by
  induction js generalizing l with
  | nil => simp [staleAmong]
  | cons i js ih =>
      have hbeat := beat_isStale (g := g) (w := w) hpending i
      obtain ⟨hsame, hlisted⟩ := ih (l := (g.isStale w i l).2) (hbeat ▸ hpending)
      refine ⟨hsame.trans hbeat, fun hj hstale => ?_⟩
      simp only [staleAmong]
      by_cases hij : j = i
      · subst hij
        simp [hstale]
      · have hrest := hlisted ((List.mem_cons.mp hj).resolve_left hij)
          ((isStale_congr hbeat).trans hstale)
        split
        · exact List.mem_cons_of_mem i hrest
        · exact hrest

/-- `all_fresh` does not pass over a stale node, and leaves a silent one alone. -/
theorem freshAmong_of_silent (hpending : (l.beat j).pendingBeat = false) (js : List (Fin n)) :
    (g.freshAmong w js l).2.beat j = l.beat j ∧
      (j ∈ js → (g.isStale w j l).1 = true → (g.freshAmong w js l).1 = false) := by
  induction js generalizing l with
  | nil => simp [freshAmong]
  | cons i js ih =>
      have hbeat := beat_isStale (g := g) (w := w) hpending i
      unfold freshAmong
      cases hcase : g.isStale w i l with
      | mk stale l' =>
          rw [hcase] at hbeat
          cases stale with
          | true => exact ⟨hbeat, fun _ _ => rfl⟩
          | false =>
              obtain ⟨hsame, hnot⟩ := ih (l := l') (hbeat ▸ hpending)
              refine ⟨hsame.trans hbeat, fun hj hstale => ?_⟩
              by_cases hij : j = i
              · subst hij
                rw [hcase] at hstale
                cases hstale
              · exact hnot ((List.mem_cons.mp hj).resolve_left hij)
                  ((isStale_congr hbeat).trans hstale)

theorem beat_stampStarts {w' : World n} (hj : j ∉ MonitorSys.startedBetween w w') :
    (MonitorSys.stampStarts g w w' l).beat j = l.beat j := by
  unfold MonitorSys.stampStarts
  generalize MonitorSys.startedBetween w w' = js at hj
  induction js generalizing l with
  | nil => rfl
  | cons i js ih =>
      obtain ⟨hij, hrest⟩ := List.ne_and_not_mem_of_not_mem_cons hj
      rw [List.foldl_cons, ih hrest]
      exact beat_put_of_eq fun h => absurd h.symm hij

end MonitoredGraph

/-! ## Silent steps -/

namespace MonitorSys

variable (g : MonitoredGraph n) (j : Fin n)

/-- A check at the instant would find the node stale. -/
def staleAt (s : MonitorSys n) (now : ℕ) : Bool :=
  (g.isStale { s.pool.world with now } j s.live).1

def stale (s : MonitorSys n) : Bool := (g.isStale s.pool.world j s.live).1

/-- A sweep would come across a write that feeds the node's beat. -/
def unseenWrite (s : MonitorSys n) : Bool :=
  g.hasObserved && ((s.live.beat j).pollObservedWrites (g.live j) s.live.count).1

/-- The node does not beat, no write that feeds its beat advances, and it is not
restarted, stopped or detached. -/
structure Silent (s : MonitorSys n) (l : Label n) : Prop where
  beat : l ≠ .beat j
  write : ∀ signal, l = .write signal → ∀ c ∈ (g.live j).writes, c.beats = true →
    c.observed = true → c.signal ≠ signal
  up : ∀ t, next g s l = some t → t.pool.world.flag j .running = true ∧
    t.pool.world.flag j .detached = false ∧
    j ∉ startedBetween s.pool.world t.pool.world

/-- What a step shows is that the node is stale: at every instant that passes, to the
application's checks, and to a sweep, which does not report that it beats again. -/
def Shows (s : MonitorSys n) (l : Label n) : Prop :=
  s.stale g j = true ∧
    match l with
    | .pool l => ∀ ticks ≤ l.elapsed, s.staleAt g j (s.pool.world.now + ticks) = true
    | .monitor => s.sweeps .monitor = true →
      ∀ e ∈ g.sweepPosts s.pool.world s.live (List.finRange n), e.node = j →
        e.kind ≠ .recovered
    | .staleNodes => j ∈ (g.staleNodes s.pool.world s.live).1
    | .allFresh => (g.allFresh s.pool.world s.live).1 = false
    | .beat _ | .write _ | .takeHealth => True

/-- The age of the stamp does not come to wrap around, and no sweep comes across a write
not seen before. -/
def Unwrapped (s : MonitorSys n) : Label n → Prop
  | .pool l => (s.live.beat j).age s.pool.world.now + l.elapsed < 2 ^ 32
  | .monitor => s.sweeps .monitor = true → s.unseenWrite g j = false
  | .beat _ | .write _ | .takeHealth | .staleNodes | .allFresh => True

variable {g j} {s t : MonitorSys n} {l : Label n} {cfg : NodeCfg n} {budget : ℕ}

theorem staleAt_iff (hcfg : g.nodes j = some cfg)
    (hbudget : (g.live j).beatTimeout = some budget) (now : ℕ) :
    s.staleAt g j now = true ↔ s.pool.world.flag j .detached = false ∧
      s.pool.world.flag j .running = true ∧ (s.live.beat j).pendingBeat = false ∧
      budget < (s.live.beat j).age now := by
  have hflag : ∀ k, World.flag { s.pool.world with now } j k = s.pool.world.flag j k :=
    fun _ => rfl
  simp only [staleAt, MonitoredGraph.isStale, hcfg, hbudget, hflag]
  by_cases hup : (!s.pool.world.flag j .detached && s.pool.world.flag j .running) = true
  · rw [if_pos hup]
    simp only [Bool.and_eq_true, Bool.not_eq_true'] at hup
    cases hpending : (s.live.beat j).pendingBeat with
    | true => simp [Beat.ticksSinceBeat_of_pending hpending]
    | false => simp [Beat.ticksSinceBeat_eq hpending, hup]
  · rw [if_neg hup]
    simp only [Bool.and_eq_true, Bool.not_eq_true'] at hup
    simp only [Bool.false_eq_true, false_iff]
    exact fun h => hup ⟨h.1, h.2.1⟩

/-- Only a policed node is ever stale. -/
theorem policed_of_stale (h : s.stale g j = true) :
    ∃ cfg budget, g.nodes j = some cfg ∧ (g.live j).beatTimeout = some budget := by
  unfold stale MonitoredGraph.isStale at h
  split at h
  · next cfg budget hcfg hbudget => exact ⟨cfg, budget, hcfg, hbudget⟩
  · cases h

/-- A step that leaves the handle alone and takes no time leaves a silent node stale. -/
theorem stale_of_same (hstale : s.stale g j = true) (hsilent : Silent g j s l)
    (h : next g s l = some t) (hnow : t.pool.world.now = s.pool.world.now)
    (hbeat : t.live.beat j = s.live.beat j) : t.stale g j = true := by
  obtain ⟨cfg, budget, hcfg, hbudget⟩ := policed_of_stale hstale
  obtain ⟨-, -, hpending, hage⟩ := (staleAt_iff hcfg hbudget s.pool.world.now).mp hstale
  obtain ⟨hrunning, hdetached, -⟩ := hsilent.up t h
  apply (staleAt_iff hcfg hbudget t.pool.world.now).mpr
  rw [hbeat, hnow]
  exact ⟨hdetached, hrunning, hpending, hage⟩

/-- Across a step of the rest of the system a node stays stale as long as its stamp does
not wrap around. -/
theorem shows_pool_iff {k : PoolSys.Label n} (hstale : s.stale g j = true)
    (hsilent : Silent g j s (.pool k)) (h : next g s (.pool k) = some t) :
    Shows g j s (.pool k) ∧ t.stale g j = true ↔ Unwrapped g j s (.pool k) := by
  obtain ⟨cfg, budget, hcfg, hbudget⟩ := policed_of_stale hstale
  obtain ⟨hdet, hrun, hpending, hage⟩ := (staleAt_iff hcfg hbudget s.pool.world.now).mp hstale
  obtain ⟨hrunning, hdetached, hstamp⟩ := hsilent.up t h
  obtain ⟨p, hpool, rfl⟩ := Option.map_eq_some_iff.mp h
  have hnow : p.world.now = s.pool.world.now + k.elapsed := PoolSys.now_of_next hpool
  have hbeat : (stampStarts g s.pool.world p.world s.live).beat j = s.live.beat j :=
    MonitoredGraph.beat_stampStarts hstamp
  have hthrough : ∀ ticks, s.staleAt g j (s.pool.world.now + ticks) = true ↔
      budget < ((s.live.beat j).age s.pool.world.now + ticks) % 2 ^ 32 := by
    intro ticks
    rw [staleAt_iff hcfg hbudget, Beat.age_add]
    simp [hdet, hrun, hpending]
  have hlt := (s.live.beat j).age_lt s.pool.world.now
  constructor
  · rintro ⟨⟨-, hall⟩, -⟩
    -- The instant the age wraps around would find the node fresh.
    by_contra hwraps
    simp only [Unwrapped, not_lt] at hwraps
    have hfresh := (hthrough _).mp
      (hall (2 ^ 32 - (s.live.beat j).age s.pool.world.now) (by omega))
    rw [Nat.add_sub_of_le hlt.le, Nat.mod_self] at hfresh
    exact Nat.not_lt_zero _ hfresh
  · intro hunwrapped
    simp only [Unwrapped] at hunwrapped
    refine ⟨⟨hstale, fun ticks hticks => (hthrough ticks).mpr ?_⟩, ?_⟩
    · rw [Nat.mod_eq_of_lt (by omega)]
      omega
    · apply (staleAt_iff hcfg hbudget _).mpr
      refine ⟨hdetached, hrunning, ?_, ?_⟩
      · rw [hbeat]
        exact hpending
      · change budget < ((stampStarts g s.pool.world p.world s.live).beat j).age p.world.now
        rw [hbeat, hnow, Beat.age_add, Nat.mod_eq_of_lt (by omega)]
        omega

/-- A sweep finds a silent node stale, and leaves it so, unless it comes across a write not
seen before. -/
theorem inspect_of_silent {w : World n} {live : Liveness n}
    (hpending : (live.beat j).pendingBeat = false) :
    (g.hasObserved && ((live.beat j).pollObservedWrites (g.live j) live.count).1) = false ∧
        (g.inspect w live j).2.1 = (live.beat j).age w.now ∧
        (live.beat j).SameStamp (g.inspect w live j).2.2 ∨
      (g.hasObserved && ((live.beat j).pollObservedWrites (g.live j) live.count).1) = true ∧
        (g.inspect w live j).2.2.pendingBeat = false ∧
        (g.inspect w live j).2.2.age w.now = 0 := by
  have hpoll : (live.beat j).SameStamp
      ((live.beat j).pollObservedWrites (g.live j) live.count).2 := by
    unfold Beat.pollObservedWrites
    split <;> exact ⟨rfl, rfl⟩
  unfold MonitoredGraph.inspect
  cases hobserved : g.hasObserved with
  | false => simp [Beat.ticksSinceBeat_eq hpending, Beat.SameStamp.mk]
  | true =>
      simp only [if_true, Bool.true_and]
      generalize (live.beat j).pollObservedWrites (g.live j) live.count = polled at hpoll ⊢
      obtain ⟨wrote, b⟩ := polled
      have hsilent : b.pendingBeat = false := hpoll.pendingBeat.trans hpending
      cases wrote with
      | false =>
          apply Or.inl
          simp only [Bool.false_eq_true, if_false, Beat.ticksSinceBeat_eq hsilent]
          refine ⟨trivial, ?_, hpoll⟩
          rw [Beat.age, Beat.age, hpoll.lastBeat]
      | true =>
          apply Or.inr
          simp [Beat.ticksSinceBeat, Beat.age]

theorem now_sweep (w : World n) (live : Liveness n) : (g.sweep w live).1.now = w.now := by
  have visit : ∀ (i : Fin n) (w : World n) (live : Liveness n),
      (g.sweepVisit i w live).1.now = w.now := by
    intro i w live
    unfold MonitoredGraph.sweepVisit
    split
    · split
      · rfl
      · generalize g.inspect w live i = seen
        obtain ⟨wrote, ticks, b⟩ := seen
        simp only
        split <;> rfl
    · rfl
  unfold MonitoredGraph.sweep
  induction List.finRange n generalizing w live with
  | nil => rfl
  | cons i js ih =>
      rw [List.foldl_cons]
      exact (ih _ _).trans (visit i w live)

/-- A poll of the monitor that sweeps is the sweep and the look that follows. -/
theorem sweep_of_next (h : next g s .monitor = some t) (hsweep : s.sweeps .monitor = true) :
    t.pool.world = (g.sweep s.pool.world s.live).1 ∧
      t.live = g.look (g.sweep s.pool.world s.live).1 (g.sweep s.pool.world s.live).2 := by
  simp only [next] at h
  split at h
  · obtain ⟨⟨w, live⟩, hmonitor, rfl⟩ := Option.map_eq_some_iff.mp h
    unfold MonitoredGraph.monitor at hmonitor
    cases hpc : s.live.pc with
    | start | idle => simp [sweeps, hpc] at hsweep
    | sleep due =>
        simp only [hpc] at hmonitor
        split at hmonitor
        · cases hmonitor
          exact ⟨rfl, rfl⟩
        · cases hmonitor
  · cases h

/-- Across a sweep a silent node stays stale unless the sweep comes across a write not seen
before. -/
theorem shows_sweep_iff (hstale : s.stale g j = true) (hsilent : Silent g j s .monitor)
    (h : next g s .monitor = some t) (hsweep : s.sweeps .monitor = true) :
    Shows g j s .monitor ∧ t.stale g j = true ↔ s.unseenWrite g j = false := by
  obtain ⟨cfg, budget, hcfg, hbudget⟩ := policed_of_stale hstale
  obtain ⟨hdet, hrun, hpending, hage⟩ := (staleAt_iff hcfg hbudget s.pool.world.now).mp hstale
  obtain ⟨hrunning, hdetached, -⟩ := hsilent.up t h
  have hup : (s.pool.world.flag j .detached || !s.pool.world.flag j .running) = false := by
    simp [hdet, hrun]
  obtain ⟨hworld, hlive⟩ := sweep_of_next h hsweep
  have hnow : t.pool.world.now = s.pool.world.now := by
    rw [hworld]
    exact now_sweep s.pool.world s.live
  have hswept : (g.inspect s.pool.world s.live j).2.2.SameStamp
      ((g.sweep s.pool.world s.live).2.beat j) := by
    rw [MonitoredGraph.beat_sweep hcfg hbudget, MonitoredGraph.beat_sweepVisit hcfg hbudget]
    simp only [hup, Bool.false_eq_true, if_false]
    exact ⟨rfl, rfl⟩
  have hlooked : ∀ {b : Beat}, b.pendingBeat = false →
      b.SameStamp (g.inspect s.pool.world s.live j).2.2 → b.SameStamp (t.live.beat j) := by
    intro b hb hsame
    have hstamp : b.SameStamp ((g.sweep s.pool.world s.live).2.beat j) :=
      ⟨hswept.lastBeat.trans hsame.lastBeat, hswept.pendingBeat.trans hsame.pendingBeat⟩
    rw [hlive, MonitoredGraph.beat_look (hstamp.pendingBeat.trans hb)]
    exact hstamp
  rcases inspect_of_silent (g := g) (w := s.pool.world) hpending with
    ⟨hseen, hticks, hsame⟩ | ⟨hunseen, hgranted, hfresh⟩
  · have hstamp := hlooked hpending hsame
    refine ⟨fun _ => hseen, fun _ => ⟨⟨hstale, fun _ e he hnode => ?_⟩, ?_⟩⟩
    · have hown := (MonitoredGraph.sweep_of_mem hcfg hbudget (List.nodup_finRange n)
        (List.mem_finRange j) s.pool.world s.live).2
      have hmem : e ∈ (g.visitEvent s.pool.world s.live j).toList := by
        rw [← hown]
        exact List.mem_filter.mpr ⟨he, by simpa using hnode⟩
      have hverdict : g.verdict s.pool.world s.live j =
          .stale ((s.live.beat j).age s.pool.world.now) := by
        simp only [MonitoredGraph.verdict, hcfg, hbudget, hup, Bool.false_eq_true, if_false,
          hticks, if_pos hage]
      simp only [MonitoredGraph.visitEvent, hverdict, Option.mem_toList] at hmem
      split at hmem
      · cases hmem
        exact HealthKind.noConfusion
      · cases hmem
    · apply (staleAt_iff hcfg hbudget t.pool.world.now).mpr
      rw [hnow, Beat.age, hstamp.lastBeat, hstamp.pendingBeat]
      exact ⟨hdetached, hrunning, hpending, hage⟩
  · have hstamp := hlooked hgranted ⟨rfl, rfl⟩
    constructor
    · rintro ⟨-, hstill⟩
      obtain ⟨-, -, -, hold⟩ := (staleAt_iff hcfg hbudget t.pool.world.now).mp hstill
      rw [hnow, Beat.age, hstamp.lastBeat] at hold
      rw [Beat.age] at hfresh
      omega
    · intro hno
      rw [unseenWrite, hunseen] at hno
      cases hno

/-- **One silent step**: the node stays stale, and shows it, exactly if its stamp does not
wrap around and no write comes to light. -/
theorem shows_iff (hstale : s.stale g j = true) (hsilent : Silent g j s l)
    (h : next g s l = some t) : Shows g j s l ∧ t.stale g j = true ↔ Unwrapped g j s l := by
  obtain ⟨cfg, budget, hcfg, hbudget⟩ := policed_of_stale hstale
  obtain ⟨-, -, hpending, -⟩ := (staleAt_iff hcfg hbudget s.pool.world.now).mp hstale
  have hsame := stale_of_same hstale hsilent h
  cases l with
  | pool k => exact shows_pool_iff hstale hsilent h
  | monitor =>
      by_cases hsweep : s.sweeps .monitor = true
      · simp only [Unwrapped, hsweep, forall_const]
        exact shows_sweep_iff hstale hsilent h hsweep
      · have hno : ∀ {P : Prop}, s.sweeps .monitor = true → P := fun h => absurd h hsweep
        refine ⟨fun _ => hno, fun _ => ⟨⟨hstale, hno⟩, ?_⟩⟩
        simp only [next] at h
        split at h
        · obtain ⟨⟨w, live⟩, hmonitor, rfl⟩ := Option.map_eq_some_iff.mp h
          unfold MonitoredGraph.monitor at hmonitor
          cases hpc : s.live.pc with
          | start =>
              simp only [hpc] at hmonitor
              split at hmonitor
              · cases hmonitor
                exact hsame rfl (MonitoredGraph.beat_look hpending)
              · cases hmonitor
                exact hsame rfl rfl
          | idle => simp [hpc] at hmonitor
          | sleep due => simp [sweeps, hpc] at hsweep
        · cases h
  | beat i =>
      have hij : j ≠ i := by
        rintro rfl
        exact hsilent.beat rfl
      simp only [next] at h
      split at h
      · cases h
        simp only [Shows, Unwrapped, and_true, hstale, true_and, iff_true]
        exact hsame rfl (MonitoredGraph.beat_put_of_eq fun h => absurd h.symm hij)
      · cases h
  | write signal =>
      simp only [next] at h
      split at h
      · cases h
        simp only [Shows, Unwrapped, and_true, hstale, true_and, iff_true]
        exact hsame rfl rfl
      · cases h
  | takeHealth =>
      simp only [next] at h
      split at h
      · split at h
        · cases h
        · cases h
          simp only [Shows, Unwrapped, and_true, hstale, true_and, iff_true]
          exact hsame rfl rfl
      · cases h
  | staleNodes =>
      obtain ⟨hbeat, hlisted⟩ := MonitoredGraph.staleAmong_of_silent (g := g)
        (w := s.pool.world) hpending (List.finRange n)
      simp only [next] at h
      split at h
      · cases h
        simp only [Shows, Unwrapped, iff_true]
        exact ⟨⟨hstale, hlisted (List.mem_finRange j) hstale⟩, hsame rfl hbeat⟩
      · cases h
  | allFresh =>
      obtain ⟨hbeat, hnot⟩ := MonitoredGraph.freshAmong_of_silent (g := g)
        (w := s.pool.world) hpending (List.finRange n)
      simp only [next] at h
      split at h
      · cases h
        simp only [Shows, Unwrapped, iff_true]
        exact ⟨⟨hstale, hnot (List.mem_finRange j) hstale⟩, hsame rfl hbeat⟩
      · cases h

/-- **How long a silence lasts.** Along a run in which a stale node is silent, it stays
stale, and shows it, exactly if the age of its stamp does not wrap around and no sweep
comes across a write not seen before. -/
theorem stale_lasts_iff {ls : List (Label n)} (hstale : s.stale g j = true)
    (hsilent : Along (next g) (Silent g j) s ls) (hrun : exec (next g) s ls = some t) :
    Along (next g) (Shows g j) s ls ∧ t.stale g j = true ↔
      Along (next g) (Unwrapped g j) s ls :=
  along_and_iff (fun _ _ hshow => hshow.1)
    (fun _ _ _ hstale hsilent hstep => shows_iff hstale hsilent hstep) hstale hsilent hrun

theorem not_mem_startedBetween {w w' : World n} (h : w'.log = w.log) :
    j ∉ startedBetween w w' := by
  simp [startedBetween, h]

/-- The node of `lonely` has been silent for 20 ticks. -/
def lonelyStale : MonitorSys 1 :=
  { lonelyUp with pool := lonelyUp.pool.withWorld { lonelyUp.pool.world with now := 20 } }

/-- Time passes, and the watchdog asks. -/
def waiting (ticks : ℕ) : List (Label 1) := [.pool (.sys (.task (.elapse ticks))), .allFresh]

theorem silent_waiting (ticks : ℕ) :
    Along (next lonely) (Silent lonely 0) lonelyStale (waiting ticks) := by
  refine ⟨⟨nofun, nofun, fun t h => ?_⟩, fun u hu =>
    ⟨⟨nofun, nofun, fun t h => ?_⟩, fun _ _ => trivial⟩⟩
  · cases h
    exact ⟨rfl, rfl, not_mem_startedBetween rfl⟩
  · cases hu
    simp only [next] at h
    split at h
    · cases h
      exact ⟨rfl, rfl, not_mem_startedBetween rfl⟩
    · cases h

def waitingRun (ticks : ℕ) : Option (MonitorSys 1) :=
  exec (next lonely) lonelyStale (waiting ticks)

theorem stale_lasts_iff_waiting :
    Along (next lonely) (Shows lonely 0) lonelyStale (waiting 20) := by
  have hrun : waitingRun 20 = some ((waitingRun 20).get rfl) := (Option.some_get _).symm
  have hunwrapped : Along (next lonely) (Unwrapped lonely 0) lonelyStale (waiting 20) := by
    refine ⟨?_, fun _ _ => ⟨trivial, fun _ _ => trivial⟩⟩
    change (20 : ℕ) + 20 < 2 ^ 32
    decide
  exact ((stale_lasts_iff (by decide) (silent_waiting 20) hrun).mpr hunwrapped).1

/-- A node that has not beaten at all is fresh again once its age has wrapped around. -/
theorem stale_wraps : ¬ ∀ (s t : MonitorSys 1) (ls : List (Label 1)),
    s.stale lonely 0 = true → Along (next lonely) (Silent lonely 0) s ls →
      exec (next lonely) s ls = some t →
        Along (next lonely) (Shows lonely 0) s ls ∧ t.stale lonely 0 = true := by
  intro h
  have hrun : waitingRun (2 ^ 32 - 20) = some ((waitingRun (2 ^ 32 - 20)).get rfl) :=
    (Option.some_get _).symm
  have hstill := (h lonelyStale _ _ (by decide) (silent_waiting _) hrun).2
  exact absurd hstill (by decide)

end MonitorSys

end EmbassySupervisor
