/-
# The control mailbox

Commands reach the driver through a channel of four. Who awaits `request_control` tries again
until there is room; `try_request_control` gives up when there is none. The driver takes a
command wherever `run_pools` is suspended, drops what that was doing, and applies the command
before it takes another.

`commands_in_order`: the commands are applied in the order they were accepted, each once and
one at a time, and none is lost. `accepted`, `tried` and `taken` keep the history, the last
with the index of each command's verb among the calls; the code does not read them.
-/

import EmbassySupervisor.Lib.Interleaving
import EmbassySupervisor.Pool.Driver

namespace EmbassySupervisor

open LabelledRun Interleaving

variable {n : ℕ}

/-- A `request_control` in flight, one that has returned, and one that was dropped. -/
inductive Sender (n : ℕ)
  | waiting (cmd : ControlCommand n)
  | sent (cmd : ControlCommand n)
  | dropped
  deriving DecidableEq

/-- The pool driver with its mailbox. -/
structure MailSys (n : ℕ) where
  pools : PoolSys n
  queue : List (ControlCommand n) := []
  senders : List (Sender n) := []
  accepted : List (ControlCommand n) := []
  tried : List (ControlCommand n) := []
  taken : List (ControlCommand n × ℕ) := []

namespace MailSys

/-- The room of `CONTROL_REQ`. -/
def capacity : ℕ := 4

inductive Label (n : ℕ)
  | sys (l : EmbassySupervisor.Label n)
  | drive
  | request (cmd : ControlCommand n)
  | send (i : ℕ)
  | drop (i : ℕ)
  | tryRequest (cmd : ControlCommand n)
  | take

variable (g : PoolGraph n)

/-- `CONTROL_REQ.try_send`. -/
def trySend (s : MailSys n) (cmd : ControlCommand n) : Option (MailSys n) :=
  if s.queue.length < capacity then
    some { s with queue := s.queue ++ [cmd], accepted := s.accepted ++ [cmd] }
  else none

def next (s : MailSys n) : Label n → Option (MailSys n)
  | .sys l => (s.pools.next g (.sys l)).map fun pools => { s with pools }
  | .drive => (s.pools.next g .drive).map fun pools => { s with pools }
  | .request cmd => some { s with senders := s.senders ++ [.waiting cmd] }
  | .send i =>
    match s.senders[i]? with
    | some (.waiting cmd) =>
      (s.trySend cmd).map fun t => { t with senders := s.senders.set i (.sent cmd) }
    | some (.sent _) | some .dropped | none => none
  | .drop i =>
    match s.senders[i]? with
    | some (.waiting _) => some { s with senders := s.senders.set i .dropped }
    | some (.sent _) | some .dropped | none => none
  | .tryRequest cmd =>
    match s.trySend cmd with
    | some t => some { t with tried := s.tried ++ [cmd] }
    | none => some s
  | .take =>
    match s.queue with
    | [] => none
    | cmd :: rest =>
      (s.pools.next g (.control cmd)).map fun pools =>
        { s with pools, queue := rest, taken := s.taken ++ [(cmd, s.pools.sys.calls.length)] }

/-- The command's verb has returned, without a fault that ends the driver. -/
def Returned (s : MailSys n) (x : ControlCommand n × ℕ) : Prop :=
  ∃ r, s.pools.sys.calls[x.2]? = some (.done r) ∧ x.1.result r = none

/-! ## What a step can do -/

variable {g} {s t : MailSys n}

/-- The driver, a task or a verb takes a step, a command is sent, or one is taken. -/
inductive Step (g : PoolGraph n) (s : MailSys n) : Label n → MailSys n → Prop
  | sys {l : EmbassySupervisor.Label n} {p : PoolSys n}
      (hpools : s.pools.next g (.sys l) = some p) : Step g s (.sys l) { s with pools := p }
  | drive {p : PoolSys n} (hpools : s.pools.next g .drive = some p) :
      Step g s .drive { s with pools := p }
  | request {cmd : ControlCommand n} :
      Step g s (.request cmd) { s with senders := s.senders ++ [.waiting cmd] }
  | send {i : ℕ} {cmd : ControlCommand n} (hsender : s.senders[i]? = some (.waiting cmd))
      (hroom : s.queue.length < capacity) :
      Step g s (.send i) { s with
        queue := s.queue ++ [cmd], accepted := s.accepted ++ [cmd],
        senders := s.senders.set i (.sent cmd) }
  | drop {i : ℕ} {cmd : ControlCommand n} (hsender : s.senders[i]? = some (.waiting cmd)) :
      Step g s (.drop i) { s with senders := s.senders.set i .dropped }
  | tryRequest {cmd : ControlCommand n} (hroom : s.queue.length < capacity) :
      Step g s (.tryRequest cmd) { s with
        queue := s.queue ++ [cmd], accepted := s.accepted ++ [cmd], tried := s.tried ++ [cmd] }
  | full {cmd : ControlCommand n} (hroom : ¬ s.queue.length < capacity) :
      Step g s (.tryRequest cmd) s
  | take {cmd : ControlCommand n} {rest : List (ControlCommand n)} {p : PoolSys n}
      (hqueue : s.queue = cmd :: rest) (hpools : s.pools.next g (.control cmd) = some p) :
      Step g s .take { s with
        pools := p, queue := rest, taken := s.taken ++ [(cmd, s.pools.sys.calls.length)] }

theorem next_cases {l : Label n} (h : s.next g l = some t) : Step g s l t := by
  cases l with
  | sys l =>
      obtain ⟨p, hpools, rfl⟩ := Option.map_eq_some_iff.mp h
      exact .sys hpools
  | drive =>
      obtain ⟨p, hpools, rfl⟩ := Option.map_eq_some_iff.mp h
      exact .drive hpools
  | request cmd =>
      cases h
      exact .request
  | send i =>
      simp only [next] at h
      split at h
      · next cmd hsender =>
          obtain ⟨u, hsend, rfl⟩ := Option.map_eq_some_iff.mp h
          obtain ⟨hroom, heq⟩ := Option.ite_none_right_eq_some.mp hsend
          cases heq
          exact .send hsender hroom
      all_goals cases h
  | drop i =>
      simp only [next] at h
      split at h
      · next hsender =>
          cases h
          exact .drop hsender
      all_goals cases h
  | tryRequest cmd =>
      by_cases hroom : s.queue.length < capacity
      · simp only [next, trySend, if_pos hroom] at h
        cases h
        exact .tryRequest hroom
      · simp only [next, trySend, if_neg hroom] at h
        cases h
        exact .full hroom
  | take =>
      simp only [next] at h
      split at h
      · cases h
      · next cmd rest hqueue =>
          obtain ⟨p, hpools, rfl⟩ := Option.map_eq_some_iff.mp h
          exact .take hqueue hpools

/-! ## A call that has returned -/

theorem done_of_sys {u v : Sys n} {l : EmbassySupervisor.Label n} {i : ℕ} {r : Outcome n}
    (hdone : u.calls[i]? = some (.done r)) (h : u.next g.toGraph l = some v) :
    v.calls[i]? = some (.done r) := by
  have kept : ∀ {k : ℕ} {c : Call n} (c' : Call n), u.calls[k]? = some c →
      c ≠ .done r → (u.calls.set k c')[i]? = some (.done r) := by
    intro k c c' hc hne
    have hki : k ≠ i := by
      rintro rfl
      exact hne (Option.some.inj (hc.symm.trans hdone))
    rw [List.getElem?_set_ne hki]
    exact hdone
  cases Sys.next_cases h with
  | begin =>
      rw [List.getElem?_append_left (List.getElem?_eq_some_iff.mp hdone).1]
      exact hdone
  | task | setDisabled => exact hdone
  | advance _ hc hstep =>
      apply kept _ hc
      rintro rfl
      simp [Call.step] at hstep
  | cancel _ hc hlive =>
      apply kept _ hc
      rintro rfl
      simp [Call.finished] at hlive

theorem done_of_pools {p q : PoolSys n} {l : PoolSys.Label n} {i : ℕ} {r : Outcome n}
    (hdone : p.sys.calls[i]? = some (.done r)) (h : p.next g l = some q) :
    q.sys.calls[i]? = some (.done r) := by
  cases PoolSys.next_cases h with
  | sys _ hsys => exact done_of_sys hdone hsys
  | control _ hsys => exact done_of_sys hdone hsys
  | drive _ hdrive =>
      cases PoolSys.drive_cases hdrive with
      | evaluate | parks | never | carries | wakes | returns | ends => exact hdone

theorem length_le_of_sys {u v : Sys n} {l : EmbassySupervisor.Label n}
    (h : u.next g.toGraph l = some v) : u.calls.length ≤ v.calls.length := by
  cases Sys.next_cases h with
  | begin => simp
  | task | setDisabled => exact Nat.le_refl _
  | advance | cancel => simp

theorem length_le_of_pools {p q : PoolSys n} {l : PoolSys.Label n} (h : p.next g l = some q) :
    p.sys.calls.length ≤ q.sys.calls.length := by
  cases PoolSys.next_cases h with
  | sys _ hsys => exact length_le_of_sys hsys
  | control _ hsys => exact length_le_of_sys hsys
  | drive _ hdrive =>
      cases PoolSys.drive_cases hdrive with
      | evaluate | parks | never | carries | wakes | returns | ends => exact Nat.le_refl _

/-! ## The driver and its command -/

/-- While a command is applied the driver goes on only once its verb has returned. -/
theorem drive_of_control {p q : PoolSys n} {cmd : ControlCommand n} {i : ℕ}
    (hdriver : p.driver = .control cmd i) (h : p.drive g = some q) :
    ∃ r, p.sys.calls[i]? = some (.done r) ∧ (cmd.result r = none ∨ ∃ f, q.driver = .ended f) := by
  unfold PoolSys.drive at h
  simp only [hdriver] at h
  split at h
  · next r hdone =>
      split at h
      · next hnone =>
          cases h
          exact ⟨r, hdone, Or.inl hnone⟩
      · next f _ =>
          cases h
          exact ⟨r, hdone, Or.inr ⟨f, rfl⟩⟩
  · cases h

theorem after_ne_control (k now : ℕ) (due : Option ℕ) (c : Call n) (cmd : ControlCommand n)
    (i : ℕ) : Driver.after k now due c ≠ .control cmd i := by
  unfold Driver.after
  split <;> simp

/-- A driver does not begin to apply a command by itself, nor stay with one. -/
theorem drive_ne_control {p q : PoolSys n} (h : p.drive g = some q) (cmd : ControlCommand n)
    (i : ℕ) : q.driver ≠ .control cmd i := by
  cases PoolSys.drive_cases h with
  | evaluate => exact after_ne_control _ _ _ _ cmd i
  | carries => exact after_ne_control _ _ _ _ cmd i
  | parks | never | wakes | returns | ends => nofun

/-! ## One command after the other -/

/-- All commands taken have returned, or all but the last, which the driver is applying or
has ended with. -/
inductive Serves (s : MailSys n) : Prop
  | idle (hdriver : ∀ cmd i, s.pools.driver ≠ .control cmd i)
      (hall : ∀ x ∈ s.taken, s.Returned x) : Serves s
  | applying {front : List (ControlCommand n × ℕ)} {cmd : ControlCommand n} {i : ℕ}
      (hdriver : s.pools.driver = .control cmd i) (htaken : s.taken = front ++ [(cmd, i)])
      (hall : ∀ x ∈ front, s.Returned x) : Serves s
  | failed {front : List (ControlCommand n × ℕ)} {x : ControlCommand n × ℕ} {f : NodeFault n}
      (hdriver : s.pools.driver = .ended f) (htaken : s.taken = front ++ [x])
      (hall : ∀ x ∈ front, s.Returned x) : Serves s

structure Orderly (s : MailSys n) : Prop where
  order : s.accepted = s.taken.map Prod.fst ++ s.queue
  room : s.queue.length ≤ capacity
  counted : ∀ cmd, s.accepted.count cmd = s.senders.countP (· == .sent cmd) + s.tried.count cmd
  rising : s.taken.Pairwise fun x y => x.2 < y.2
  begun : ∀ x ∈ s.taken, x.2 < s.pools.sys.calls.length
  serves : s.Serves

/-- A step of the driver's side touches no command. -/
theorem Orderly.pools (hs : s.Orderly) {p : PoolSys n}
    (hlength : s.pools.sys.calls.length ≤ p.sys.calls.length)
    (hserves : Serves { s with pools := p }) : Orderly { s with pools := p } :=
  ⟨hs.order, hs.room, hs.counted, hs.rising,
    fun x hx => Nat.lt_of_lt_of_le (hs.begun x hx) hlength, hserves⟩

theorem Serves.step (hs : s.Serves) {p : PoolSys n} {l : PoolSys.Label n}
    (h : s.pools.next g l = some p) (hl : ∀ cmd, l ≠ .control cmd) :
    Serves { s with pools := p } := by
  have returned : ∀ {x}, s.Returned x → Returned { s with pools := p } x := by
    rintro x ⟨r, hdone, hresult⟩
    exact ⟨r, done_of_pools hdone h, hresult⟩
  cases PoolSys.next_cases h with
  | control => exact absurd rfl (hl _)
  | sys =>
      cases hs with
      | idle hdriver hall => exact .idle hdriver fun x hx => returned (hall x hx)
      | applying hdriver htaken hall =>
          exact .applying hdriver htaken fun x hx => returned (hall x hx)
      | failed hdriver htaken hall =>
          exact .failed hdriver htaken fun x hx => returned (hall x hx)
  | drive _ hdrive =>
      cases hs with
      | idle hdriver hall =>
          exact .idle (drive_ne_control hdrive) fun x hx => returned (hall x hx)
      | @applying front cmd i hdriver htaken hall =>
          obtain ⟨r, hdone, hnone | ⟨f, hended⟩⟩ := drive_of_control hdriver hdrive
          · refine .idle (drive_ne_control hdrive) fun x hx => returned ?_
            have hx' : x ∈ front ++ [(cmd, i)] := htaken ▸ hx
            rcases List.mem_append.mp hx' with hold | hlast
            · exact hall x hold
            · obtain rfl := List.mem_singleton.mp hlast
              exact ⟨r, hdone, hnone⟩
          · exact .failed hended htaken fun x hx => returned (hall x hx)
      | failed hdriver =>
          unfold PoolSys.drive at hdrive
          simp [hdriver] at hdrive

/-- A step of the callers' side leaves what the driver does with the commands. -/
theorem Serves.congr (hs : s.Serves) (hpools : t.pools = s.pools) (htaken : t.taken = s.taken) :
    t.Serves := by
  have returned : ∀ x, s.Returned x → t.Returned x := by
    rintro x ⟨r, hdone, hresult⟩
    exact ⟨r, hpools ▸ hdone, hresult⟩
  cases hs with
  | idle hdriver hall =>
      exact .idle (hpools ▸ hdriver) fun x hx => returned x (hall x (htaken ▸ hx))
  | applying hdriver hlast hall =>
      exact .applying (hpools ▸ hdriver) (htaken ▸ hlast) fun x hx => returned x (hall x hx)
  | failed hdriver hlast hall =>
      exact .failed (hpools ▸ hdriver) (htaken ▸ hlast) fun x hx => returned x (hall x hx)

/-- A driver that takes commands has seen all it took return. -/
theorem Serves.returned (hs : s.Serves) (hready : s.pools.driver.interruptible = true) :
    ∀ x ∈ s.taken, s.Returned x := by
  cases hs with
  | idle _ hall => exact hall
  | applying hdriver => simp [hdriver, Driver.interruptible] at hready
  | failed hdriver => simp [hdriver, Driver.interruptible] at hready

theorem countP_sent_append (senders : List (Sender n)) (cmd cmd' : ControlCommand n) :
    (senders ++ [Sender.waiting cmd']).countP (· == Sender.sent cmd) =
      senders.countP (· == Sender.sent cmd) := by
  simp

/-- A sender that waited counts from when it has sent. -/
theorem countP_sent_set {senders : List (Sender n)} {i : ℕ} {cmd : ControlCommand n}
    (hsender : senders[i]? = some (.waiting cmd)) (after : Sender n)
    (cmd' : ControlCommand n) :
    (senders.set i after).countP (· == Sender.sent cmd') =
      senders.countP (· == Sender.sent cmd') + (after == Sender.sent cmd').toNat := by
  have hmoved := countP_set_add (· == Sender.sent cmd') after hsender
  have hwaited : (Sender.waiting cmd == Sender.sent cmd') = false := by simp
  rwa [hwaited, Bool.toNat_false, Nat.add_zero] at hmoved

theorem Orderly.send (hs : s.Orderly) {i : ℕ} {cmd : ControlCommand n}
    (hsender : s.senders[i]? = some (.waiting cmd)) (hroom : s.queue.length < capacity) :
    Orderly { s with
      queue := s.queue ++ [cmd], accepted := s.accepted ++ [cmd],
      senders := s.senders.set i (.sent cmd) } := by
  refine ⟨?_, ?_, fun cmd' => ?_, hs.rising, hs.begun, hs.serves.congr rfl rfl⟩
  · rw [hs.order, List.append_assoc]
  · rw [List.length_append]
    exact hroom
  · rw [countP_sent_set hsender, List.count_append, List.count_singleton, hs.counted cmd']
    have hsent : (Sender.sent cmd == Sender.sent cmd') = (cmd == cmd') := by
      rw [Bool.eq_iff_iff]
      simp
    rw [hsent]
    cases cmd == cmd' with
    | true =>
        simp only [if_true, Bool.toNat_true]
        omega
    | false => simp

theorem Orderly.tryRequest (hs : s.Orderly) {cmd : ControlCommand n}
    (hroom : s.queue.length < capacity) :
    Orderly { s with
      queue := s.queue ++ [cmd], accepted := s.accepted ++ [cmd],
      tried := s.tried ++ [cmd] } := by
  refine ⟨?_, ?_, fun cmd' => ?_, hs.rising, hs.begun, hs.serves.congr rfl rfl⟩
  · rw [hs.order, List.append_assoc]
  · rw [List.length_append]
    exact hroom
  · rw [List.count_append, List.count_append, hs.counted cmd', Nat.add_assoc]

/-- The command taken begins above all that were. -/
theorem Orderly.take (hs : s.Orderly) {cmd : ControlCommand n} {rest : List (ControlCommand n)}
    {p : PoolSys n} (hqueue : s.queue = cmd :: rest)
    (hpools : s.pools.next g (.control cmd) = some p) :
    Orderly { s with
      pools := p, queue := rest, taken := s.taken ++ [(cmd, s.pools.sys.calls.length)] } := by
  cases PoolSys.next_cases hpools with
  | @control _ sys hinterruptible hsys =>
      have hgrown : sys.calls.length = s.pools.sys.calls.length + 1 := by
        cases Sys.next_cases hsys with
        | begin => simp
      refine ⟨?_, ?_, hs.counted, ?_, ?_, ?_⟩
      · rw [hs.order, hqueue, List.map_append, List.append_assoc]
        rfl
      · have hroom := hs.room
        rw [hqueue, List.length_cons] at hroom
        exact Nat.le_of_succ_le hroom
      · refine List.pairwise_append.mpr ⟨hs.rising, List.pairwise_singleton _ _, ?_⟩
        intro x hx y hy
        obtain rfl := List.mem_singleton.mp hy
        exact hs.begun x hx
      · intro x hx
        show x.2 < sys.calls.length
        rw [hgrown]
        rcases List.mem_append.mp hx with hold | hnew
        · exact Nat.lt_succ_of_lt (hs.begun x hold)
        · obtain rfl := List.mem_singleton.mp hnew
          exact Nat.lt_succ_self _
      · refine .applying rfl rfl fun x hx => ?_
        obtain ⟨r, hdone, hresult⟩ := hs.serves.returned hinterruptible x hx
        exact ⟨r, done_of_pools hdone hpools, hresult⟩

theorem Orderly.next (hs : s.Orderly) {l : Label n} (h : MailSys.next g s l = some t) :
    t.Orderly := by
  cases next_cases h with
  | sys hpools => exact hs.pools (length_le_of_pools hpools) (hs.serves.step hpools fun _ => nofun)
  | drive hpools => exact hs.pools (length_le_of_pools hpools) (hs.serves.step hpools fun _ => nofun)
  | request =>
      refine ⟨hs.order, hs.room, fun cmd => ?_, hs.rising, hs.begun, hs.serves.congr rfl rfl⟩
      rw [countP_sent_append]
      exact hs.counted cmd
  | send hsender hroom => exact hs.send hsender hroom
  | drop hsender =>
      refine ⟨hs.order, hs.room, fun cmd => ?_, hs.rising, hs.begun, hs.serves.congr rfl rfl⟩
      rw [countP_sent_set hsender, hs.counted cmd]
      simp
  | tryRequest hroom => exact hs.tryRequest hroom
  | full => exact hs
  | take hqueue hpools => exact hs.take hqueue hpools

/-- **Commands are applied in order, one at a time, and none is lost.** In every run from an
empty mailbox: the commands accepted are those the driver has taken, in that order, and then
those in the mailbox, at most four; each was sent by one `request_control` that has returned or
one `try_request_control` that has succeeded; their verbs begin in that order, and each but the
last has returned, without a fault that ends the driver, the last too unless the driver is
still applying it or has ended. -/
theorem commands_in_order (g : PoolGraph n) {p : PoolSys n} {labels : List (Label n)}
    {t : MailSys n} (hdriver : ∀ cmd i, p.driver ≠ .control cmd i)
    (hrun : exec (next g) { pools := p } labels = some t) :
    t.accepted = t.taken.map Prod.fst ++ t.queue ∧ t.queue.length ≤ 4 ∧
      (∀ cmd, t.accepted.count cmd =
        t.senders.countP (· == .sent cmd) + t.tried.count cmd) ∧
      (t.taken.Pairwise fun x y => x.2 < y.2) ∧ (∀ x ∈ t.taken.dropLast, t.Returned x) ∧
      ((∀ cmd i, t.pools.driver ≠ .control cmd i) → (∀ f, t.pools.driver ≠ .ended f) →
        ∀ x ∈ t.taken, t.Returned x) := by
  have hstart : Orderly ({ pools := p } : MailSys n) :=
    ⟨rfl, Nat.zero_le _, fun _ => rfl, List.Pairwise.nil, nofun, .idle hdriver nofun⟩
  have ht : t.Orderly := exec_invariant (fun _ _ _ hs hstep => hs.next hstep) hstart hrun
  refine ⟨ht.order, ht.room, ht.counted, ht.rising, ?_, ?_⟩
  · intro x hx
    cases ht.serves with
    | idle _ hall => exact hall x (List.dropLast_subset _ hx)
    | applying _ htaken hall | failed _ htaken hall =>
        rw [htaken, List.dropLast_concat] at hx
        exact hall x hx
  · intro hcontrol hended
    cases ht.serves with
    | idle _ hall => exact hall
    | applying hdriver => exact absurd hdriver (hcontrol _ _)
    | failed hdriver => exact absurd hdriver (hended _)

/-- A request is overtaken by one that need not wait. The member is started, then stopped by
the first command and released by the second. -/
def twoCommands : List (Label 1) :=
  [.request ⟨.activate, 0⟩, .tryRequest ⟨.deactivate, 0⟩, .send 0, .drive, .drive, .take] ++
    List.replicate 6 (.sys (.advance 0)) ++ [.sys (.task (.ackDropped 0))] ++
    List.replicate 6 (.sys (.advance 0)) ++ [.drive, .drive, .drive, .take] ++
    List.replicate 3 (.sys (.advance 1)) ++ [.drive]

def twoCommandsRun : Option (MailSys 1) :=
  exec (next PoolSys.lone) { pools := PoolSys.loneDown } twoCommands

theorem commands_in_order_lone :
    (twoCommandsRun.get rfl).taken = [(⟨.deactivate, 0⟩, 0), (⟨.activate, 0⟩, 1)] ∧
      ∀ x ∈ (twoCommandsRun.get rfl).taken, (twoCommandsRun.get rfl).Returned x := by
  have hrun : twoCommandsRun.isSome = true := rfl
  obtain ⟨-, -, -, -, -, hall⟩ := commands_in_order PoolSys.lone (p := PoolSys.loneDown)
    (fun _ _ => nofun) (Option.some_get hrun).symm
  exact ⟨rfl, hall (fun _ _ => nofun) (fun _ => nofun)⟩

end MailSys

end EmbassySupervisor
