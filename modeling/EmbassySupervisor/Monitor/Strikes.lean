/-
# What the monitor reports

A sweep finds a policed node down, stale or fresh. The strikes of a node count the
stale sweeps in a row and stop at the node's window, so they also say whether the
silence has been reported. `reports_along_run` states both for every run of the whole
system: the strikes are the length of the current run of stale sweeps, cut off at the
window, and the reports are the ones `Verdict.report` owes.

The reports of a visit are what it puts into an empty mailbox. The mailbox of the run
takes them in turn, and drops what does not fit.
-/

import EmbassySupervisor.Monitor.Monitor

namespace EmbassySupervisor

open LabelledRun

variable {n : ℕ}

/-- What a sweep finds a node to be. A node that is not policed counts as down. -/
inductive Verdict
  | down
  | stale (ticks : ℕ)
  | fresh
  deriving DecidableEq, Repr

namespace Verdict

def isStale : Verdict → Bool
  | .stale _ => true
  | .down | .fresh => false

/-- The number of stale sweeps in a row at the end of a history, newest first. -/
def staleRun (history : List Verdict) : ℕ := (history.takeWhile isStale).length

/-- What a sweep owes after a history: the report of a silence when its run of stale
sweeps fills the window, and the end of a silence that was reported. -/
def report (window : ℕ) (history : List Verdict) : Verdict → Option HealthKind
  | .down => none
  | .stale ticks => if staleRun history + 1 = window then some (.stale ticks) else none
  | .fresh => if window ≤ staleRun history then some .recovered else none

/-- What each sweep of a history owes, newest first. -/
def reports (window : ℕ) : List Verdict → List (List HealthKind)
  | [] => []
  | v :: history => (report window history v).toList :: reports window history

/-- The strikes a sweep leaves. -/
def strikes (window : ℕ) : Verdict → ℕ → ℕ
  | .stale _, k => if k < window then k + 1 else k
  | .down, _ | .fresh, _ => 0

/-- **The strikes are the run of stale sweeps, cut off at the window.** -/
theorem strikes_eq {window : ℕ} (history : List Verdict) (v : Verdict) :
    v.strikes window (min window (staleRun history)) = min window (staleRun (v :: history)) := by
  cases v with
  | down | fresh => simp [strikes, staleRun, isStale]
  | stale ticks =>
      have hrun : staleRun (.stale ticks :: history) = staleRun history + 1 := rfl
      rw [hrun, strikes]
      split <;> omega

end Verdict

namespace MonitoredGraph

variable (g : MonitoredGraph n) (w : World n) (l : Liveness n)

/-- What a sweep would find the node to be. -/
def verdict (j : Fin n) : Verdict :=
  match g.nodes j, (g.live j).beatTimeout with
  | some _, some budget =>
    if w.flag j .detached || !w.flag j .running then .down
    else
      let ticks := (g.inspect w l j).2.1
      if budget < ticks then .stale ticks else .fresh
  | _, _ => .down

/-- The stale sweeps in a row that are reported. -/
def window (j : Fin n) : ℕ := max (g.live j).beatWindow 1

/-- The report the visit of a slot owes. -/
def visitEvent (j : Fin n) : Option (HealthEvent n) :=
  match g.verdict w l j with
  | .down => none
  | .stale ticks =>
    if (l.beat j).staleStrikes < g.window j ∧ (l.beat j).staleStrikes + 1 = g.window j then
      some { node := j, kind := .stale ticks }
    else none
  | .fresh =>
    if g.window j ≤ (l.beat j).staleStrikes then some { node := j, kind := .recovered } else none

/-- What the visit of a slot puts into an empty mailbox. -/
def visitPosts (j : Fin n) : List (HealthEvent n) :=
  (g.sweepVisit j w { l with health := [] }).2.health

/-- What a sweep of these slots posts, in order. -/
def sweepPosts (w : World n) (l : Liveness n) : List (Fin n) → List (HealthEvent n)
  | [] => []
  | j :: js =>
    g.visitPosts w l j ++ sweepPosts (g.sweepVisit j w l).1 (g.sweepVisit j w l).2 js

end MonitoredGraph

/-! ## What leaves the strikes alone -/

/-- The strikes of every node are as before. -/
def Liveness.SameStrikes (l l' : Liveness n) : Prop :=
  ∀ j, (l'.beat j).staleStrikes = (l.beat j).staleStrikes

namespace Liveness

variable {l l' : Liveness n}

theorem SameStrikes.refl (l : Liveness n) : l.SameStrikes l := fun _ => rfl

theorem SameStrikes.trans {l'' : Liveness n} (h : l.SameStrikes l') (h' : l'.SameStrikes l'') :
    l.SameStrikes l'' := fun j => (h' j).trans (h j)

theorem sameStrikes_put {j : Fin n} {b : Beat}
    (h : b.staleStrikes = (l.beat j).staleStrikes) : l.SameStrikes (l.put j b) := by
  intro i
  by_cases hi : i = j
  · subst hi
    simpa [put] using h
  · simp [put, hi]

end Liveness

@[simp]
theorem Beat.staleStrikes_ticksSinceBeat (b : Beat) (now : ℕ) :
    (b.ticksSinceBeat now).2.staleStrikes = b.staleStrikes := by
  unfold Beat.ticksSinceBeat
  simp only
  split <;> rfl

@[simp]
theorem Beat.staleStrikes_pollObservedWrites (b : Beat) (cfg : LiveCfg) (count : ℕ → UInt32) :
    (b.pollObservedWrites cfg count).2.staleStrikes = b.staleStrikes := by
  unfold Beat.pollObservedWrites
  split <;> rfl

namespace MonitoredGraph

variable {g : MonitoredGraph n}

@[simp]
theorem staleStrikes_ticksUntilCheck (w : World n) (j : Fin n) (b : Beat) :
    (g.ticksUntilCheck w j b).2.staleStrikes = b.staleStrikes := by
  unfold ticksUntilCheck
  split
  · rfl
  · split
    · rfl
    · split
      · rfl
      · exact b.staleStrikes_ticksSinceBeat w.now

/-- What every refreshed beat and the sleep keep, looking keeps. -/
theorem look_keeps {P : Liveness n → Prop} {w : World n} {l : Liveness n} (hl : P l)
    (hput : ∀ j l, P l → P (l.put j (g.ticksUntilCheck w j (l.beat j)).2))
    (hsleep : ∀ pc l, P l → P { l with pc }) : P (g.look w l) := by
  unfold look
  refine hsleep _ _ (List.foldlRecOn (motive := fun acc : Option ℕ × Liveness n => P acc.2)
    (List.finRange n) _ hl ?_)
  intro acc hacc j _
  simp only
  split
  · exact hput j _ hacc
  · exact hacc

theorem sameStrikes_look (w : World n) (l : Liveness n) : l.SameStrikes (g.look w l) := by
  refine look_keeps (.refl l) (fun j l' hl' => ?_) fun _ _ hl' => hl'
  exact hl'.trans (Liveness.sameStrikes_put (by simp))

theorem sameStrikes_isStale (w : World n) (j : Fin n) (l : Liveness n) :
    l.SameStrikes (g.isStale w j l).2 := by
  unfold isStale
  split
  · split
    · exact Liveness.sameStrikes_put (by simp)
    · exact .refl l
  · exact .refl l

theorem sameStrikes_staleAmong (w : World n) (js : List (Fin n)) (l : Liveness n) :
    l.SameStrikes (g.staleAmong w js l).2 := by
  induction js generalizing l with
  | nil => exact .refl l
  | cons j js ih => exact (sameStrikes_isStale w j l).trans (ih _)

theorem sameStrikes_freshAmong (w : World n) (js : List (Fin n)) (l : Liveness n) :
    l.SameStrikes (g.freshAmong w js l).2 := by
  induction js generalizing l with
  | nil => exact .refl l
  | cons j js ih =>
      have hone := sameStrikes_isStale (g := g) w j l
      unfold freshAmong
      split
      · next heq =>
          rw [heq] at hone
          exact hone
      · next heq =>
          rw [heq] at hone
          exact hone.trans (ih _)

theorem sameStrikes_stampStarts (w w' : World n) (l : Liveness n) :
    l.SameStrikes (MonitorSys.stampStarts g w w' l) := by
  unfold MonitorSys.stampStarts
  generalize MonitorSys.startedBetween w w' = js
  induction js generalizing l with
  | nil => exact .refl l
  | cons j js ih =>
      rw [List.foldl_cons]
      have hput : l.SameStrikes (l.put j ((l.beat j).stamp (g.live j) l.count w'.now)) :=
        Liveness.sameStrikes_put rfl
      exact hput.trans (ih _)

/-! ## One visit -/

theorem staleStrikes_inspect (w : World n) (l : Liveness n) (j : Fin n) :
    (g.inspect w l j).2.2.staleStrikes = (l.beat j).staleStrikes := by
  unfold inspect
  simp only
  split <;> split <;> simp

theorem beat_strike_self (window ticks : ℕ) (j : Fin n) (b : Beat) (l : Liveness n) :
    (strike window ticks j b l).beat j =
      { b with
        staleStrikes :=
          if b.staleStrikes < window then b.staleStrikes + 1 else b.staleStrikes } := by
  unfold strike Liveness.emit Liveness.put
  simp only
  split
  · split
    · split <;> simp
    · simp
  · simp

theorem beat_recover_self (window : ℕ) (j : Fin n) (b : Beat) (l : Liveness n) :
    (recover window j b l).beat j = { b with staleStrikes := 0 } := by
  unfold recover Liveness.emit Liveness.put
  simp only
  split
  · split <;> simp
  · simp

section Visit

variable {w : World n} {l : Liveness n} {j : Fin n} {cfg : NodeCfg n} {budget : ℕ}

/-- What a visit leaves in the handle: what looking at the node left, with the strikes its
verdict leaves. -/
theorem beat_sweepVisit (hcfg : g.nodes j = some cfg)
    (hbudget : (g.live j).beatTimeout = some budget) :
    (g.sweepVisit j w l).2.beat j =
      { (if w.flag j .detached || !w.flag j .running then l.beat j
          else (g.inspect w l j).2.2) with
        staleStrikes := (g.verdict w l j).strikes (g.window j) (l.beat j).staleStrikes } := by
  have hsame := staleStrikes_inspect (g := g) w l j
  simp only [sweepVisit, verdict, hcfg, hbudget]
  by_cases hdown : (w.flag j .detached || !w.flag j .running) = true
  · simp only [if_pos hdown]
    simp [Liveness.put, Verdict.strikes]
  · simp only [if_neg hdown]
    generalize g.inspect w l j = seen at hsame ⊢
    obtain ⟨wrote, ticks, b⟩ := seen
    by_cases hstale : budget < ticks
    · simp only [if_pos hstale]
      rw [beat_strike_self, ← hsame]
      rfl
    · simp only [if_neg hstale]
      rw [beat_recover_self]
      rfl

/-- The mailbox takes the report the visit owes. -/
theorem health_sweepVisit :
    (g.sweepVisit j w l).2.health =
      ((g.visitEvent w l j).toList.foldl Liveness.emit l).health := by
  have put : ∀ (b : Beat) (l : Liveness n), (l.put j b).health = l.health := fun _ _ => rfl
  have emit : ∀ (b : Beat) (l : Liveness n) (e : HealthEvent n),
      ((l.put j b).emit e).health = (l.emit e).health := by
    intro b l e
    unfold Liveness.emit
    rw [put]
    split <;> rfl
  simp only [sweepVisit, visitEvent, verdict]
  cases hcfg : g.nodes j with
  | none => rfl
  | some cfg =>
      cases hbudget : (g.live j).beatTimeout with
      | none => rfl
      | some budget =>
          simp only
          by_cases hdown : (w.flag j .detached || !w.flag j .running) = true
          · simp only [if_pos hdown]
            rfl
          · simp only [if_neg hdown]
            have hsame := staleStrikes_inspect (g := g) w l j
            by_cases hstale : budget < (g.inspect w l j).2.1
            · simp only [if_pos hstale, strike, hsame]
              by_cases hroom : (l.beat j).staleStrikes < max (g.live j).beatWindow 1
              · by_cases hfill : (l.beat j).staleStrikes + 1 = max (g.live j).beatWindow 1
                · simp [window, hroom, hfill, emit]
                · simp [window, hroom, hfill, put]
              · simp [window, hroom, put]
            · simp only [if_neg hstale, recover, hsame]
              by_cases hreported : max (g.live j).beatWindow 1 ≤ (l.beat j).staleStrikes
              · simp [window, hreported, emit]
              · simp [window, hreported, put]

/-- A visit posts the report it owes. -/
theorem visitPosts_eq : g.visitPosts w l j = (g.visitEvent w l j).toList := by
  have hempty : g.visitEvent w { l with health := [] } j = g.visitEvent w l j := rfl
  rw [visitPosts, health_sweepVisit, hempty]
  cases g.visitEvent w l j with
  | none => rfl
  | some e => simp [Liveness.emit]

end Visit

/-- Every report names the slot that was visited. -/
theorem node_of_visitEvent {w : World n} {l : Liveness n} {j : Fin n} {e : HealthEvent n}
    (he : e ∈ g.visitEvent w l j) : e.node = j := by
  unfold visitEvent at he
  split at he
  · cases he
  · split at he
    · cases he
      rfl
    · cases he
  · split at he
    · cases he
      rfl
    · cases he

/-- Where the strikes are the run of stale sweeps, the report is the one owed. -/
theorem kinds_visitEvent {w : World n} {l : Liveness n} {j : Fin n} {history : List Verdict}
    (hstrikes : (l.beat j).staleStrikes = min (g.window j) (Verdict.staleRun history)) :
    (g.visitEvent w l j).toList.map (·.kind) =
      ((g.verdict w l j).report (g.window j) history).toList := by
  have hpos : 1 ≤ g.window j := le_max_right _ _
  unfold visitEvent
  cases g.verdict w l j with
  | down => rfl
  | stale ticks =>
      have hfills : ((l.beat j).staleStrikes < g.window j ∧
          (l.beat j).staleStrikes + 1 = g.window j) ↔
          Verdict.staleRun history + 1 = g.window j := by omega
      simp only [hfills, Verdict.report]
      split <;> rfl
  | fresh =>
      have hreported : g.window j ≤ (l.beat j).staleStrikes ↔
          g.window j ≤ Verdict.staleRun history := by omega
      simp only [hreported, Verdict.report]
      split <;> rfl

/-! ## One sweep -/

/-- What a visit of a slot reads is as before. -/
structure Unseen (i : Fin n) (w : World n) (l : Liveness n) (w' : World n) (l' : Liveness n) :
    Prop where
  running : w'.flag i .running = w.flag i .running
  detached : w'.flag i .detached = w.flag i .detached
  now : w'.now = w.now
  beat : l'.beat i = l.beat i
  count : l'.count = l.count

section Sweep

variable {i j : Fin n} {w w' w'' : World n} {l l' l'' : Liveness n}

theorem Unseen.refl (i : Fin n) (w : World n) (l : Liveness n) : Unseen i w l w l :=
  ⟨rfl, rfl, rfl, rfl, rfl⟩

theorem Unseen.trans (h : Unseen i w l w' l') (h' : Unseen i w' l' w'' l'') :
    Unseen i w l w'' l'' :=
  ⟨h'.running.trans h.running, h'.detached.trans h.detached, h'.now.trans h.now,
    h'.beat.trans h.beat, h'.count.trans h.count⟩

theorem Unseen.verdict (h : Unseen i w l w' l') : g.verdict w' l' i = g.verdict w l i := by
  simp [MonitoredGraph.verdict, inspect, h.running, h.detached, h.now, h.beat, h.count]

theorem Unseen.visitEvent (h : Unseen i w l w' l') :
    g.visitEvent w' l' i = g.visitEvent w l i := by
  simp [MonitoredGraph.visitEvent, h.verdict, h.beat]

theorem Unseen.beat_sweepVisit (h : Unseen i w l w' l') {cfg : NodeCfg n} {budget : ℕ}
    (hcfg : g.nodes i = some cfg) (hbudget : (g.live i).beatTimeout = some budget) :
    (g.sweepVisit i w' l').2.beat i = (g.sweepVisit i w l).2.beat i := by
  rw [MonitoredGraph.beat_sweepVisit hcfg hbudget, MonitoredGraph.beat_sweepVisit hcfg hbudget,
    h.verdict, h.beat, h.running, h.detached]
  simp [inspect, h.now, h.beat, h.count]

theorem beat_strike (window ticks : ℕ) (b : Beat) (hij : i ≠ j) :
    (strike window ticks j b l).beat i = l.beat i ∧
      (strike window ticks j b l).count = l.count := by
  unfold strike Liveness.emit Liveness.put
  simp only
  split
  · split
    · split <;> simp [hij]
    · simp [hij]
  · simp [hij]

theorem beat_recover (window : ℕ) (b : Beat) (hij : i ≠ j) :
    (recover window j b l).beat i = l.beat i ∧ (recover window j b l).count = l.count := by
  unfold recover Liveness.emit Liveness.put
  simp only
  split
  · split <;> simp [hij]
  · simp [hij]

/-- A visit writes nothing that the visits of other slots read. -/
theorem unseen_sweepVisit (hij : i ≠ j) :
    Unseen i w l (g.sweepVisit j w l).1 (g.sweepVisit j w l).2 := by
  unfold sweepVisit
  split
  · next budget _ _ =>
      have hjudged : ∀ (window ticks : ℕ) (b : Beat),
          (if budget < ticks then strike window ticks j b l else recover window j b l).beat i =
              l.beat i ∧
            (if budget < ticks then strike window ticks j b l else recover window j b l).count =
              l.count := by
        intro window ticks b
        split
        · exact beat_strike window ticks b hij
        · exact beat_recover window b hij
      split
      · exact ⟨rfl, rfl, rfl, by simp [Liveness.put, hij], rfl⟩
      · generalize g.inspect w l j = seen
        obtain ⟨wrote, ticks, b⟩ := seen
        obtain ⟨hbeat, hcount⟩ := hjudged (max (g.live j).beatWindow 1) ticks b
        simp only
        split
        · exact ⟨by simp [World.setReady, World.flag, hij],
            by simp [World.setReady, World.flag, hij], rfl, hbeat, hcount⟩
        · exact ⟨rfl, rfl, rfl, hbeat, hcount⟩
  · exact .refl i w l

/-- A sweep that leaves a slot out says nothing about it. -/
theorem sweep_of_notMem {js : List (Fin n)} (hi : i ∉ js) (w : World n) (l : Liveness n) :
    Unseen i w l (js.foldl (fun (w, l) j => g.sweepVisit j w l) (w, l)).1
        (js.foldl (fun (w, l) j => g.sweepVisit j w l) (w, l)).2 ∧
      (g.sweepPosts w l js).filter (·.node = i) = [] := by
  induction js generalizing w l with
  | nil => exact ⟨.refl i w l, rfl⟩
  | cons j js ih =>
      obtain ⟨hij, hrest⟩ := List.ne_and_not_mem_of_not_mem_cons hi
      obtain ⟨hunseen, hnone⟩ := ih hrest (g.sweepVisit j w l).1 (g.sweepVisit j w l).2
      refine ⟨(unseen_sweepVisit hij).trans hunseen, ?_⟩
      have hown : (g.visitEvent w l j).toList.filter (·.node = i) = [] := by
        apply List.filter_eq_nil_iff.mpr
        intro e he
        rw [node_of_visitEvent (Option.mem_toList.mp he)]
        simpa using Ne.symm hij
      rw [sweepPosts, visitPosts_eq, List.filter_append, hown, hnone, List.nil_append]

/-- **A sweep visits every policed slot once**, as if it came first. -/
theorem sweep_of_mem {cfg : NodeCfg n} {budget : ℕ} (hcfg : g.nodes i = some cfg)
    (hbudget : (g.live i).beatTimeout = some budget) {js : List (Fin n)} (hnodup : js.Nodup)
    (hi : i ∈ js) (w : World n) (l : Liveness n) :
    (js.foldl (fun (w, l) j => g.sweepVisit j w l) (w, l)).2.beat i =
        (g.sweepVisit i w l).2.beat i ∧
      (g.sweepPosts w l js).filter (·.node = i) = (g.visitEvent w l i).toList := by
  induction js generalizing w l with
  | nil => simp at hi
  | cons j js ih =>
      obtain ⟨hj, hnodup⟩ := List.nodup_cons.mp hnodup
      rw [List.foldl_cons, sweepPosts, visitPosts_eq, List.filter_append]
      by_cases hij : i = j
      · subst hij
        obtain ⟨hunseen, hnone⟩ :=
          sweep_of_notMem (g := g) hj (g.sweepVisit i w l).1 (g.sweepVisit i w l).2
        have hown : (g.visitEvent w l i).toList.filter (·.node = i) =
            (g.visitEvent w l i).toList := by
          apply List.filter_eq_self.mpr
          intro e he
          rw [node_of_visitEvent (Option.mem_toList.mp he)]
          simp
        rw [hown, hnone, List.append_nil]
        exact ⟨hunseen.beat, rfl⟩
      · have hunseen := unseen_sweepVisit (g := g) (w := w) (l := l) hij
        obtain ⟨hbeat, hevents⟩ := ih hnodup ((List.mem_cons.mp hi).resolve_left hij)
          (g.sweepVisit j w l).1 (g.sweepVisit j w l).2
        have hother : (g.visitEvent w l j).toList.filter (·.node = i) = [] := by
          apply List.filter_eq_nil_iff.mpr
          intro e he
          rw [node_of_visitEvent (Option.mem_toList.mp he)]
          simpa using Ne.symm hij
        rw [hother, List.nil_append, hevents, hunseen.visitEvent]
        exact ⟨hbeat.trans (hunseen.beat_sweepVisit hcfg hbudget), rfl⟩

theorem beat_sweep {cfg : NodeCfg n} {budget : ℕ} (hcfg : g.nodes i = some cfg)
    (hbudget : (g.live i).beatTimeout = some budget) (w : World n) (l : Liveness n) :
    (g.sweep w l).2.beat i = (g.sweepVisit i w l).2.beat i :=
  (sweep_of_mem hcfg hbudget (List.nodup_finRange n) (List.mem_finRange i) w l).1

end Sweep

/-- The mailbox takes the reports of a sweep in turn. -/
theorem health_sweep (w : World n) (l : Liveness n) :
    (g.sweep w l).2.health =
      ((g.sweepPosts w l (List.finRange n)).foldl Liveness.emit l).health := by
  have fold : ∀ (js : List (Fin n)) (w : World n) (l l' : Liveness n), l.health = l'.health →
      (js.foldl (fun (w, l) j => g.sweepVisit j w l) (w, l)).2.health =
        ((g.sweepPosts w l js).foldl Liveness.emit l').health := by
    have emit : ∀ (es : List (HealthEvent n)) (l l' : Liveness n), l.health = l'.health →
        (es.foldl Liveness.emit l).health = (es.foldl Liveness.emit l').health := by
      intro es
      induction es with
      | nil =>
          intro l l' h
          exact h
      | cons e es ih =>
          intro l l' h
          apply ih
          unfold Liveness.emit
          rw [h]
          split
          · rfl
          · exact h
    intro js
    induction js with
    | nil =>
        intro w l l' h
        exact h
    | cons j js ih =>
        intro w l l' h
        rw [List.foldl_cons, sweepPosts, visitPosts_eq, List.foldl_append]
        apply ih
        exact health_sweepVisit.trans (emit _ l l' h)
  exact fold (List.finRange n) w l l rfl

end MonitoredGraph

/-! ## Runs -/

namespace MonitorSys

variable (g : MonitoredGraph n) (j : Fin n)

/-- The step begins with a sweep: the monitor is polled out of its sleep. -/
def sweeps (s : MonitorSys n) : Label n → Bool
  | .monitor =>
    match s.live.pc with
    | .sleep _ => true
    | .start | .idle => false
  | .pool _ | .beat _ | .write _ | .takeHealth | .staleNodes | .allFresh => false

/-- What the sweeps of a run find the node to be, newest first, after the given history. -/
def verdicts : MonitorSys n → List (Label n) → List Verdict → List Verdict
  | _, [], history => history
  | s, l :: ls, history =>
    match next g s l with
    | none => history
    | some t =>
      verdicts t ls
        (if s.sweeps l then g.verdict s.pool.world s.live j :: history else history)

/-- The reports about the node that each sweep of a run posts, newest first. -/
def emitted : MonitorSys n → List (Label n) → List (List HealthKind) → List (List HealthKind)
  | _, [], reports => reports
  | s, l :: ls, reports =>
    match next g s l with
    | none => reports
    | some t =>
      emitted t ls
        (if s.sweeps l then
          (((g.sweepPosts s.pool.world s.live (List.finRange n)).filter (·.node = j)).map
            (·.kind)) :: reports
        else reports)

/-- The mailbox a step leaves: a sweep posts in turn, and the application takes the oldest
report. -/
def mailbox (s : MonitorSys n) (l : Label n) : List (HealthEvent n) :=
  if s.sweeps l then
    ((g.sweepPosts s.pool.world s.live (List.finRange n)).foldl Liveness.emit s.live).health
  else
    match l with
    | .takeHealth => s.live.health.tail
    | .pool _ | .monitor | .beat _ | .write _ | .staleNodes | .allFresh => s.live.health

variable {g j} {s t : MonitorSys n} {l : Label n}

/-- A step without a sweep leaves the strikes alone. -/
theorem sameStrikes_next (h : next g s l = some t) (hsweep : s.sweeps l = false) :
    s.live.SameStrikes t.live := by
  cases l with
  | pool l =>
      obtain ⟨p, -, rfl⟩ := Option.map_eq_some_iff.mp h
      exact MonitoredGraph.sameStrikes_stampStarts _ _ _
  | monitor =>
      simp only [next] at h
      split at h
      · obtain ⟨⟨w, live⟩, hmonitor, rfl⟩ := Option.map_eq_some_iff.mp h
        unfold MonitoredGraph.monitor at hmonitor
        cases hpc : s.live.pc with
        | start =>
            simp only [hpc] at hmonitor
            split at hmonitor
            · cases hmonitor
              exact MonitoredGraph.sameStrikes_look _ _
            · cases hmonitor
              exact .refl s.live
        | idle => simp [hpc] at hmonitor
        | sleep due => simp [sweeps, hpc] at hsweep
      · cases h
  | beat i =>
      simp only [next] at h
      split at h
      · cases h
        exact Liveness.sameStrikes_put rfl
      · cases h
  | write signal =>
      simp only [next] at h
      split at h
      · cases h
        exact .refl s.live
      · cases h
  | takeHealth =>
      simp only [next] at h
      split at h
      · split at h
        · cases h
        · cases h
          exact .refl s.live
      · cases h
  | staleNodes =>
      simp only [next] at h
      split at h
      · cases h
        exact MonitoredGraph.sameStrikes_staleAmong _ _ _
      · cases h
  | allFresh =>
      simp only [next] at h
      split at h
      · cases h
        exact MonitoredGraph.sameStrikes_freshAmong _ _ _
      · cases h

/-- A step with a sweep is the sweep and a look at what is due next. -/
theorem live_of_sweeps (h : next g s l = some t) (hsweep : s.sweeps l = true) :
    (g.sweep s.pool.world s.live).2.SameStrikes t.live := by
  cases l with
  | monitor =>
      simp only [next] at h
      split at h
      · obtain ⟨⟨w, live⟩, hmonitor, rfl⟩ := Option.map_eq_some_iff.mp h
        unfold MonitoredGraph.monitor at hmonitor
        cases hpc : s.live.pc with
        | start | idle => simp [sweeps, hpc] at hsweep
        | sleep due =>
            simp only [hpc] at hmonitor
            split at hmonitor
            · cases hmonitor
              exact MonitoredGraph.sameStrikes_look _ _
            · cases hmonitor
      · cases h
  | pool | beat | write | takeHealth | staleNodes | allFresh => simp [sweeps] at hsweep

/-! ## The mailbox -/

theorem health_look (w : World n) (l : Liveness n) : (g.look w l).health = l.health :=
  MonitoredGraph.look_keeps (P := fun l' => l'.health = l.health) rfl (fun _ _ h => h)
    fun _ _ h => h

theorem health_isStale (w : World n) (i : Fin n) (l : Liveness n) :
    (g.isStale w i l).2.health = l.health := by
  unfold MonitoredGraph.isStale
  split
  · split <;> rfl
  · rfl

theorem health_staleAmong (w : World n) (js : List (Fin n)) (l : Liveness n) :
    (g.staleAmong w js l).2.health = l.health := by
  induction js generalizing l with
  | nil => rfl
  | cons i js ih => exact (ih _).trans (health_isStale w i l)

theorem health_freshAmong (w : World n) (js : List (Fin n)) (l : Liveness n) :
    (g.freshAmong w js l).2.health = l.health := by
  induction js generalizing l with
  | nil => rfl
  | cons i js ih =>
      have hone := health_isStale (g := g) w i l
      unfold MonitoredGraph.freshAmong
      split
      · next heq =>
          rw [heq] at hone
          exact hone
      · next heq =>
          rw [heq] at hone
          exact (ih _).trans hone

theorem health_stampStarts (w w' : World n) (l : Liveness n) :
    (stampStarts g w w' l).health = l.health :=
  List.foldlRecOn (motive := fun l' : Liveness n => l'.health = l.health) _ _ rfl
    fun _ h _ _ => h

/-- Nobody posts to the mailbox but a sweep, and nobody takes from it but the application. -/
theorem health_next (h : next g s l = some t) : t.live.health = s.mailbox g l := by
  unfold mailbox
  cases l with
  | pool l =>
      obtain ⟨p, -, rfl⟩ := Option.map_eq_some_iff.mp h
      exact health_stampStarts _ _ _
  | monitor =>
      simp only [next] at h
      split at h
      · obtain ⟨⟨w, live⟩, hmonitor, rfl⟩ := Option.map_eq_some_iff.mp h
        unfold MonitoredGraph.monitor at hmonitor
        cases hpc : s.live.pc with
        | start =>
            simp only [hpc] at hmonitor
            split at hmonitor
            · cases hmonitor
              simpa [sweeps, hpc] using health_look _ _
            · cases hmonitor
              simp [sweeps, hpc]
        | idle => simp [hpc] at hmonitor
        | sleep due =>
            simp only [hpc] at hmonitor
            split at hmonitor
            · cases hmonitor
              simpa [sweeps, hpc, ← MonitoredGraph.health_sweep] using health_look _ _
            · cases hmonitor
      · cases h
  | takeHealth =>
      simp only [next] at h
      split at h
      · split at h
        · cases h
        · next hbox =>
            cases h
            simp [sweeps, hbox]
      · cases h
  | staleNodes =>
      simp only [next] at h
      split at h
      · cases h
        exact health_staleAmong _ _ _
      · cases h
  | allFresh =>
      simp only [next] at h
      split at h
      · cases h
        exact health_freshAmong _ _ _
      · cases h
  | beat | write =>
      simp only [next] at h
      split at h
      · cases h
        rfl
      · cases h

/-- **What the monitor reports.** Along every run of the system, the reports about a
policed node that its sweeps post are the ones owed for what they find. The mailbox takes
them in turn as far as they fit, and changes in no other way before the application takes
the oldest. In between the strikes are the length of the current run of stale sweeps, cut
off at the window: with a window of one byte they fit in one. -/
theorem reports_along_run {cfg : NodeCfg n} {budget : ℕ} (hcfg : g.nodes j = some cfg)
    (hbudget : (g.live j).beatTimeout = some budget) {ls : List (Label n)}
    (hs : (s.live.beat j).staleStrikes = 0) (hrun : exec (next g) s ls = some t) :
    s.emitted g j ls [] = Verdict.reports (g.window j) (s.verdicts g j ls []) ∧
      Along (next g) (fun u l => ∀ v, next g u l = some v → v.live.health = u.mailbox g l)
        s ls ∧
      (t.live.beat j).staleStrikes =
        min (g.window j) (Verdict.staleRun (s.verdicts g j ls [])) ∧
      ((g.live j).beatWindow < 2 ^ 8 → (t.live.beat j).staleStrikes < 2 ^ 8) := by
  have along : ∀ (ls : List (Label n)) (s : MonitorSys n) (history : List Verdict),
      (s.live.beat j).staleStrikes = min (g.window j) (Verdict.staleRun history) →
      exec (next g) s ls = some t →
      s.emitted g j ls (Verdict.reports (g.window j) history) =
          Verdict.reports (g.window j) (s.verdicts g j ls history) ∧
        (t.live.beat j).staleStrikes =
          min (g.window j) (Verdict.staleRun (s.verdicts g j ls history)) := by
    intro ls
    induction ls with
    | nil =>
        intro s history hstrikes hrun
        cases hrun
        exact ⟨rfl, hstrikes⟩
    | cons l ls ih =>
        intro s history hstrikes hrun
        obtain ⟨u, hstep, hrest⟩ := exec_cons.mp hrun
        simp only [emitted, verdicts, hstep]
        by_cases hsweep : s.sweeps l = true
        · obtain ⟨hleft, hevents⟩ := MonitoredGraph.sweep_of_mem hcfg hbudget
            (List.nodup_finRange n) (List.mem_finRange j) s.pool.world s.live
          rw [if_pos hsweep, if_pos hsweep]
          have hafter : (u.live.beat j).staleStrikes = min (g.window j)
              (Verdict.staleRun (g.verdict s.pool.world s.live j :: history)) := by
            rw [live_of_sweeps hstep hsweep j, MonitoredGraph.sweep, hleft,
              MonitoredGraph.beat_sweepVisit hcfg hbudget]
            exact hstrikes ▸ Verdict.strikes_eq history _
          rw [hevents, MonitoredGraph.kinds_visitEvent hstrikes]
          exact ih u _ hafter hrest
        · rw [if_neg hsweep, if_neg hsweep]
          have hsame := sameStrikes_next hstep (by simpa using hsweep) j
          exact ih u history (hsame.trans hstrikes) hrest
  have hstart : (s.live.beat j).staleStrikes =
      min (g.window j) (Verdict.staleRun []) := by
    rw [hs]
    exact (Nat.min_zero _).symm
  obtain ⟨hreports, hstrikes⟩ := along ls s [] hstart hrun
  have hmailbox : Along (next g)
      (fun u l => ∀ v, next g u l = some v → v.live.health = u.mailbox g l) s ls :=
    (along_of_forall (P := fun _ => True) (fun _ _ => trivial) s).mono
      fun _ _ _ _ hstep => health_next hstep
  refine ⟨hreports, hmailbox, hstrikes, fun hbyte => ?_⟩
  have hwindow : g.window j < 2 ^ 8 := by
    unfold MonitoredGraph.window
    omega
  omega

/-- One node that may be silent for ten ticks and is reported at its second stale sweep. -/
def lonely : MonitoredGraph 1 where
  deps _ := []
  order := [0]
  topological := topological_one
  nodes _ := some { mode := .terminate, spawn := some .fn, slotTimeout := 5000000,
                    ackTimeout := 2000000 }
  shape_sound _ cfg _ := cfg.fitsShape_all
  pools_sound := pools_sound_one
  elastic := []
  elastic_nodes := rfl
  nodup := by simp
  live _ := { beatTimeout := some 10, beatWindow := 2 }
  beats_sound h := by simp at h
  observed_sound h := by simp at h

def lonelyUp : MonitorSys 1 where
  pool :=
    { sys := { world := { node := fun _ => { flags := fun f => f == .running } } }
      driver := .park none }

/-- The node is silent for three sweeps and then beats. -/
def silence : List (Label 1) :=
  [.monitor, .pool (.sys (.task (.elapse 20))), .monitor, .pool (.sys (.task (.elapse 20))),
    .monitor, .pool (.sys (.task (.elapse 20))), .monitor, .beat 0,
    .pool (.sys (.task (.elapse 20))), .monitor]

def silenceRun : Option (MonitorSys 1) := exec (next lonely) lonelyUp silence

theorem reports_along_run_silence :
    lonelyUp.emitted lonely 0 silence [] = [[.recovered], [], [.stale 40], []] ∧
      (silenceRun.get rfl).live.health =
        [{ node := 0, kind := .stale 40 }, { node := 0, kind := .recovered }] ∧
      lonelyUp.emitted lonely 0 silence [] =
        Verdict.reports 2 (lonelyUp.verdicts lonely 0 silence []) := by
  have hrun : exec (next lonely) lonelyUp silence = some (silenceRun.get rfl) :=
    (Option.some_get _).symm
  exact ⟨by decide +kernel, by decide +kernel, (reports_along_run (j := 0) rfl rfl rfl hrun).1⟩

end MonitorSys

end EmbassySupervisor
