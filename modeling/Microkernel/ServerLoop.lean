/-
# A server answers every request once

The world of one server: the kernel, the place of the server in its loop and the state of
its drivers.  Clients send to the server at any time, by any of the three primitives and
with any contents, and the server takes the steps of its loop.

Two things go wrong.  A request (`ipc_sendrec`) of type `MSG_IRQ_NOTIFY` gets no reply from
three of the servers and is found again by every later `ipc_receive`; and the reply to a
message that came by `ipc_send` or `ipc_notify` is taken by a task that is, by then, blocked
in an `ipc_sendrec`.  The theorem: in the runs without these two, each request is processed
once and answered once, with the reply computed for it, and a server that gets no
further messages answers all requests in a bounded number of steps.
-/
import Microkernel.Servers

namespace Microkernel

open Kernel

/-- The place of a server in its loop. -/
inductive Phase where
  /-- About to call `sys_receive`. -/
  | top
  /-- In the wait loop of `sys_receive`. -/
  | waiting
  /-- `sys_receive` has returned. -/
  | received
  deriving DecidableEq

/-- Where `sys_receive` leaves the server. -/
def Phase.afterReceive : Outcome → Phase
  | .ret _ => .received
  | .yields => .waiting

/-- History: a message that was processed, with the number of the `ipc_send` or
`ipc_sendrec` call it came by, `none` for a notification, and the reply computed for it. -/
structure Handled where
  source : Option ℕ
  msg : Message
  reply : Option Message

/-- The kernel, a server and its drivers. -/
structure World (σ : Type*) where
  kernel : Kernel
  phase : Phase
  drivers : σ
  handled : List Handled

/-- What happens in the world of a server. -/
inductive ServerMove where
  | send (c : Slot) (msg : Message)
  | sendrec (c : Slot) (msg : Message)
  /-- `ipc_notify`, by an interrupt or a task. -/
  | notify (msg : Message)
  | receive
  /-- The server leaves the wait loop of `sys_receive`. -/
  | resume
  /-- The server processes the message it received, and replies. -/
  | handle
  deriving DecidableEq

/-- The moves of the server. -/
def ServerMove.isServer : ServerMove → Bool
  | .receive | .resume | .handle => true
  | _ => false

/-- The call whose message was copied last, `none` if a notification was. -/
def latestCopy : List Event → Option ℕ
  | [] => none
  | .deliver n _ _ :: _ => some n
  | .note .. :: _ => none
  | _ :: es => latestCopy es

section

variable (es : List Event)

@[simp] theorem latestCopy_deliver (n : ℕ) (r : UInt32) (m : ℕ) :
    latestCopy (.deliver n r m :: es) = some n := rfl

@[simp] theorem latestCopy_note (d : UInt32) (t : ℕ) (r : UInt32) (i m : ℕ) :
    latestCopy (.note d t r i m :: es) = none := rfl

@[simp] theorem latestCopy_submit (n : ℕ) (c : UInt32) (t : ℕ) (d : UInt32) (a : Bool) :
    latestCopy (.submit n c t d a :: es) = latestCopy es := rfl

end

/-- Call `n` is an `ipc_sendrec`. -/
def Kernel.isRequest (k : Kernel) (n : ℕ) : Bool :=
  k.log.any fun
    | .submit n' _ _ _ awaits => n' == n && awaits
    | _ => false

namespace World

variable {σ : Type*} (D : Drivers σ) (srv : Server) (sv : Slot)

/-- The world in which the server, in slot `sv`, enters its loop. -/
def start (k : Kernel) (d : σ) : World σ := ⟨k, .top, d, []⟩

/-- The PID of the server. -/
def pid (w : World σ) : UInt32 := (w.kernel.tasks sv).id

/-- The message in the server's buffer. -/
def msg (w : World σ) : Message := (w.kernel.tasks sv).msgBuf

/-- The message the server holds came by an `ipc_sendrec`. -/
def holdsRequest (w : World σ) : Bool :=
  match latestCopy w.kernel.log with
  | some n => w.kernel.isRequest n
  | none => false

/-- The world after a client's call. -/
def clientCall (w : World σ) (c : Slot) (cl : Call) : Option (World σ) :=
  if c ≠ sv ∧ canRun (w.kernel.tasks c) = true then
    some { w with kernel := w.kernel.act c (.call cl) }
  else none

/-- The kernel after the server's reply, if it makes one. -/
def afterReply (w : World σ) : Kernel :=
  match (srv.serve D w.drivers (w.msg sv)).2 with
  | some reply => ((w.kernel.onBehalf sv).ipcReply (w.msg sv).sender (some reply)).1
  | none => w.kernel

/-- One move; `none` when it is not possible. -/
def step (w : World σ) : ServerMove → Option (World σ)
  | .send c msg => w.clientCall sv c (.ipcSend (w.pid sv) (some msg))
  | .sendrec c msg => w.clientCall sv c (.ipcSendrec (w.pid sv) (some msg))
  | .notify msg => some { w with kernel := (w.kernel.ipcNotify (w.pid sv) msg).1 }
  | .receive =>
    if w.phase = .top then
      let r := (w.kernel.onBehalf sv).ipcReceive pidAny (some (w.msg sv))
      some { w with
        kernel := r.1
        phase := .afterReceive r.2 }
    else none
  | .resume =>
    if w.phase = .waiting ∧ canRun (w.kernel.tasks sv) = true then
      some { w with phase := .received }
    else none
  | .handle =>
    if w.phase = .received then
      let r := srv.serve D w.drivers (w.msg sv)
      some ⟨w.afterReply D srv sv, .top, r.1,
        ⟨latestCopy w.kernel.log, w.msg sv, r.2⟩ :: w.handled⟩
    else none

/-- The condition on a move: no request has a type the server is silent about, and when a
reply is made to a message that is not a request, no task with the PID in its sender
field is blocked in `ipc_sendrec`. -/
def Proper (w : World σ) : ServerMove → Prop
  | .sendrec _ msg => srv.isSilent msg.type = false
  | .handle => w.holdsRequest = false → srv.isSilent (w.msg sv).type = false →
      ∀ i, (w.kernel.tasks i).active = true → (w.kernel.tasks i).id = (w.msg sv).sender →
        inSendrec (w.kernel.tasks i) = false
  | _ => True

instance (w : World σ) (a : ServerMove) : Decidable (w.Proper srv sv a) := by
  unfold Proper
  split <;> infer_instance

/-- The moves that meet the condition. -/
def StepIf (P : World σ → ServerMove → Prop) (w : World σ) (a : ServerMove) (w' : World σ) :
    Prop :=
  P w a ∧ w.step D srv sv a = some w'

/-- The server is blocked in `sys_receive`. -/
def idle (w : World σ) : Bool := w.phase == .waiting && inReceive (w.kernel.tasks sv)

/-- How often the message of call `n` was processed. -/
def processed (w : World σ) (n : ℕ) : ℕ := w.handled.countP fun h => h.source == some n

end World

/-- The replies to call `n`. -/
def Event.answers (n : ℕ) : Event → Bool
  | .reply n' _ => n' == n
  | _ => false

/-- How often a reply was copied into the buffer of call `n`. -/
def Kernel.replies (k : Kernel) (n : ℕ) : ℕ := k.log.countP (Event.answers n)

namespace Kernel

variable {k : Kernel} {c sv : Slot}

/-! ## The steps of the kernel, seen from the server -/

/-- PIDs of active tasks are distinct. -/
def DistinctPids (k : Kernel) : Prop :=
  ∀ i j, (k.tasks i).active = true → (k.tasks j).active = true →
    (k.tasks i).id = (k.tasks j).id → i = j

theorem DistinctPids.of_tame {k' : Kernel} (hk : DistinctPids k)
    (h : ∀ i, TameTask (k.tasks i) (k'.tasks i)) : DistinctPids k' := by
  intro i j hi hj hij
  rw [(h i).active] at hi
  rw [(h j).active] at hj
  rw [(h i).id, (h j).id] at hij
  exact hk i j hi hj hij

/-- The lookup of an active task by its PID finds it. -/
theorem DistinctPids.findDest (hk : DistinctPids k) {d : Slot} (hd : (k.tasks d).active = true) :
    k.findDest (k.tasks d).id = some d := by
  cases h : k.taskGetByPid (k.tasks d).id with
  | none => exact absurd rfl (taskGetByPid_eq_none.mp h d hd)
  | some j =>
    obtain ⟨hj, hid⟩ := taskGetByPid_eq_some h
    rw [Kernel.findDest, h, hk j d hj hd hid, Option.filter_some, hd]
    rfl

/-- A caller blocked in call `n` of kind `on` to PID `p`. -/
def blockedCaller (t : Task) (n : ℕ) (on : BlockedOn) (p : UInt32) (msg : Message) : Task :=
  { t with
    call := n, state := .blocked, blockedOn := on, sendTo := p
    msgBuf := { msg with sender := t.id }, ticksLeft := 0 }

/-- The receiver after the delivery of a message of the task with PID `p`. -/
def filled (t : Task) (p : UInt32) (msg : Message) : Task :=
  { t with msgBuf := { msg with sender := p }, state := .ready, blockedOn := .none }

/-- The effect of a client's message to the server: the server gets it at once if it waits
for one, and the client of a request is blocked in it. -/
structure Sent (k k' : Kernel) (c sv : Slot) (msg : Message) (awaits : Bool) : Prop where
  calls : k'.calls = k.calls + 1
  pending : k'.pendingNotify = k.pendingNotify
  tame : ∀ i, TameTask (k.tasks i) (k'.tasks i)
  others : ∀ i, i ≠ c → i ≠ sv → k'.tasks i = k.tasks i
  caller : if awaits
    then k'.tasks c = blockedCaller (k.tasks c) k.calls .sendrec (k.tasks sv).id msg
    else inSendrec (k'.tasks c) = false
  outcome :
    (inReceive (k.tasks sv) = true ∧ k'.tasks sv = filled (k.tasks sv) (k.tasks c).id msg ∧
      k'.log = .deliver k.calls (k.tasks sv).id (k.tasks sv).call ::
        .submit k.calls (k.tasks c).id (k.tasks c).serial (k.tasks sv).id awaits :: k.log) ∨
    (acceptsFrom (k.tasks c).id (k.tasks sv) = false ∧ k'.tasks sv = k.tasks sv ∧
      k'.log = .submit k.calls (k.tasks c).id (k.tasks c).serial (k.tasks sv).id awaits :: k.log)

section Sent

variable {p : UInt32} {msg : Message} {awaits : Bool}

theorem submit_tasks_server (hne : c ≠ sv) (p : UInt32) (awaits : Bool) :
    ((k.onBehalf c).submit p awaits).tasks sv = k.tasks sv := by
  simp [submit, beginCall, onBehalf, record, countMessage, hne.symm]

theorem submit_current (p : UInt32) (awaits : Bool) :
    ((k.onBehalf c).submit p awaits).current = { k.tasks c with call := k.calls } := by
  simp [submit, beginCall, onBehalf, record, countMessage, current]

theorem submit_tasks_others (p : UInt32) (awaits : Bool) {i : Slot} (hi : i ≠ c) :
    ((k.onBehalf c).submit p awaits).tasks i = k.tasks i := by
  simp [submit, beginCall, onBehalf, record, countMessage, hi]

theorem blockSending_tasks_caller (on : BlockedOn) (p : UInt32) (msg : Message) :
    (k.blockSending on p msg).tasks k.currentTask = { k.current with
      state := .blocked, blockedOn := on, sendTo := p, msgBuf := msg, ticksLeft := 0 } := by
  simp [blockSending, taskYield_tasks]

theorem blockSending_tasks_others (on : BlockedOn) (p : UInt32) (msg : Message) {i : Slot}
    (hi : i ≠ k.currentTask) : (k.blockSending on p msg).tasks i = k.tasks i := by
  simp [blockSending, taskYield_tasks, hi]

theorem deliverNow_tasks_others {d i : Slot} (hi : i ≠ d) (msg : Message) :
    (k.deliverNow d msg).tasks i = k.tasks i := by
  simp [deliverNow, fillBuffer, hi]

theorem deliverNow_tasks_self (d : Slot) (p : UInt32) (msg : Message) :
    (k.deliverNow d { msg with sender := p }).tasks d = filled (k.tasks d) p msg := by
  simp [deliverNow, fillBuffer, filled]

/-- **A message sent by `ipc_send`.** -/
theorem sent_ipcSend (hne : c ≠ sv) (hrun : canRun (k.tasks c) = true)
    (hfind : k.findDest (k.tasks sv).id = some sv) (msg : Message) :
    Sent k (k.act c (.call (.ipcSend (k.tasks sv).id (some msg)))) c sv msg false := by
  have hfind' : (k.onBehalf c).findDest (k.tasks sv).id = some sv := hfind
  have htame := tame_ipcSend (k.onBehalf c) (k.tasks sv).id (some msg)
  have hid : (k.onBehalf c).current.id = (k.tasks c).id := rfl
  simp only [act, Action.exec, Call.exec, ipcSend, hfind', submit_tasks_server hne,
    submit_current, hid] at htame ⊢
  split_ifs at htame ⊢ with hacc
  · refine ⟨rfl, rfl, htame.tasks, fun i hi hi' => ?_, ?_, Or.inl ⟨?_, ?_, ?_⟩⟩
    · rw [deliverNow_tasks_others hi', submit_tasks_others _ _ hi]
    · have hcur := submit_current (k := k) (c := c) (k.tasks sv).id false
      have hst := state_ne_blocked_of_canRun hrun
      rw [if_neg Bool.false_ne_true, deliverNow_tasks_others hne,
        show ((k.onBehalf c).submit (k.tasks sv).id false).tasks c = _ from hcur]
      simp [inSendrec, hst]
    · simp only [acceptsFrom, Bool.and_eq_true] at hacc
      exact hacc.1
    · rw [deliverNow_tasks_self, submit_tasks_server hne]
    · rw [deliverNow_log, submit_log, submit_current, submit_tasks_server hne]
      rfl
  · refine ⟨rfl, rfl, htame.tasks, fun i hi _ => ?_, ?_, Or.inr ⟨by simpa using hacc, ?_, ?_⟩⟩
    · exact (blockSending_tasks_others _ _ _ hi).trans (submit_tasks_others _ _ hi)
    · rw [if_neg Bool.false_ne_true]
      exact congrArg inSendrec (blockSending_tasks_caller _ _ _)
    · exact (blockSending_tasks_others _ _ _ hne.symm).trans (submit_tasks_server hne _ _)
    · rw [blockSending_log, submit_log]
      rfl

/-- **A message sent by `ipc_sendrec`.** -/
theorem sent_ipcSendrec (hne : c ≠ sv) (hfind : k.findDest (k.tasks sv).id = some sv)
    (msg : Message) :
    Sent k (k.act c (.call (.ipcSendrec (k.tasks sv).id (some msg)))) c sv msg true := by
  have hfind' : (k.onBehalf c).findDest (k.tasks sv).id = some sv := hfind
  have htame := tame_ipcSendrec (k.onBehalf c) (k.tasks sv).id (some msg)
  have hid : (k.onBehalf c).current.id = (k.tasks c).id := rfl
  have hcur := submit_current (k := k) (c := c) (k.tasks sv).id true
  simp only [act, Action.exec, Call.exec, ipcSendrec, hfind', submit_tasks_server hne,
    submit_current, hid] at htame ⊢
  split_ifs at htame ⊢ with hacc
  · refine ⟨rfl, rfl, htame.tasks, fun i hi hi' => ?_, ?_, Or.inl ⟨?_, ?_, ?_⟩⟩
    · rw [blockSending_tasks_others _ _ _ hi, deliverNow_tasks_others hi',
        submit_tasks_others _ _ hi]
    · have hcur' : (((k.onBehalf c).submit (k.tasks sv).id true).deliverNow sv
          { msg with sender := (k.tasks c).id }).current = { k.tasks c with call := k.calls } :=
        (deliverNow_tasks_others hne _).trans hcur
      rw [if_pos rfl]
      refine (blockSending_tasks_caller _ _ _).trans ?_
      rw [hcur']
      rfl
    · simp only [acceptsFrom, Bool.and_eq_true] at hacc
      exact hacc.1
    · rw [blockSending_tasks_others _ _ _ hne.symm, deliverNow_tasks_self,
        submit_tasks_server hne]
    · rw [blockSending_log, deliverNow_log, submit_log, submit_current, submit_tasks_server hne]
      rfl
  · refine ⟨rfl, rfl, htame.tasks, fun i hi _ => ?_, ?_, Or.inr ⟨by simpa using hacc, ?_, ?_⟩⟩
    · exact (blockSending_tasks_others _ _ _ hi).trans (submit_tasks_others _ _ hi)
    · rw [if_pos rfl]
      refine (blockSending_tasks_caller _ _ _).trans ?_
      rw [hcur]
      rfl
    · exact (blockSending_tasks_others _ _ _ hne.symm).trans (submit_tasks_server hne _ _)
    · rw [blockSending_log, submit_log]
      rfl

end Sent

/-- **A notification of the server** is in its buffer at once or pending. -/
theorem notified_ipcNotify (hfind : k.findDest (k.tasks sv).id = some sv) (msg : Message) :
    (inReceive (k.tasks sv) = true ∧ (k.ipcNotify (k.tasks sv).id msg).1.tasks =
        Function.update k.tasks sv (filled (k.tasks sv) 0 msg) ∧
      ∃ m, (k.ipcNotify (k.tasks sv).id msg).1.log =
        .note (k.tasks sv).id (k.tasks sv).serial (k.tasks sv).id (k.tasks sv).serial m :: k.log) ∨
    (inReceive (k.tasks sv) = false ∧ (k.ipcNotify (k.tasks sv).id msg).1.tasks = k.tasks ∧
      (k.ipcNotify (k.tasks sv).id msg).1.log = k.log) := by
  simp only [ipcNotify, hfind]
  split_ifs with hin
  · exact Or.inl ⟨hin, rfl, _, rfl⟩
  · exact Or.inr ⟨Bool.eq_false_iff.mpr hin, rfl, rfl⟩

theorem ipcNotify_calls (p : UInt32) (msg : Message) :
    (k.ipcNotify p msg).1.calls = k.calls := by
  unfold ipcNotify
  split
  · rfl
  · dsimp only
    split_ifs <;> rfl

section Receive

/-- The server's slot after a receive that returned the message `msg`. -/
def gotMessage (t : Task) (n : ℕ) (msg : Message) : Task := { t with call := n, msgBuf := msg }

/-- The server after a receive that blocked. -/
def blockedReceiver (t : Task) (n : ℕ) (msg : Message) : Task :=
  { t with
    call := n, state := .blocked, blockedOn := .receive, receiveFrom := pidAny
    msgBuf := msg, ticksLeft := 0 }

theorem beginCall_tasks_server (k : Kernel) (sv : Slot) : (k.onBehalf sv).beginCall.current =
    { k.tasks sv with call := k.calls } := by
  simp [beginCall, onBehalf, current]

theorem beginCall_tasks_others {i : Slot} (hi : i ≠ sv) :
    (k.onBehalf sv).beginCall.tasks i = k.tasks i := by
  simp [beginCall, onBehalf, hi]

/-- What `ipc_receive` writes into a sender that is blocked in `ipc_sendrec` is there. -/
theorem eq_of_inSendrec {t : Task} (hst : t.state = .blocked) (hon : t.blockedOn = .sendrec) :
    { t with blockedOn := .sendrec, state := .blocked } = t := by
  cases t
  subst hst hon
  rfl

/-- The receive of the server, seen from the tables. -/
inductive Receives (k k' : Kernel) (sv : Slot) : Outcome → Prop where
  | notification (msg : Message) (m : ℕ) :
      k.pendingNotify (notifyIndex (k.tasks sv).id) ≠ 0 →
      k'.tasks = Function.update k.tasks sv (gotMessage (k.tasks sv) k.calls msg) →
      (∃ p t, k'.log = .note p t (k.tasks sv).id (k.tasks sv).serial m :: k.log) →
      k'.pendingNotify = Function.update k.pendingNotify (notifyIndex (k.tasks sv).id) 0 →
      Receives k k' sv (.ret 0)
  | message (s : Slot) :
      s ≠ sv → (k.tasks s).active = true → IsSending (k.tasks s) →
      (k.tasks s).sendTo = (k.tasks sv).id →
      k'.tasks sv = gotMessage (k.tasks sv) k.calls
        { (k.tasks s).msgBuf with sender := (k.tasks s).id } →
      (if (k.tasks s).blockedOn = .sendrec then k'.tasks s = k.tasks s
        else k'.tasks s = { k.tasks s with state := .ready, blockedOn := .none }) →
      (∀ i, i ≠ sv → i ≠ s → k'.tasks i = k.tasks i) →
      k'.log = .deliver (k.tasks s).call (k.tasks sv).id k.calls :: k.log →
      k'.pendingNotify = k.pendingNotify →
      Receives k k' sv (.ret 0)
  | blocks (msg : Message) :
      k.pendingNotify (notifyIndex (k.tasks sv).id) = 0 →
      (∀ i, (k.tasks i).active = true → IsSending (k.tasks i) →
        (k.tasks i).sendTo ≠ (k.tasks sv).id) →
      k'.tasks = Function.update k.tasks sv (blockedReceiver (k.tasks sv) k.calls msg) →
      k'.log = k.log → k'.pendingNotify = k.pendingNotify →
      Receives k k' sv .yields

/-- **The receive of the server.** -/
theorem receives_ipcReceive (hrun : canRun (k.tasks sv) = true) (msg : Message) :
    Receives k ((k.onBehalf sv).ipcReceive pidAny (some msg)).1 sv
      ((k.onBehalf sv).ipcReceive pidAny (some msg)).2 := by
  have hcur := beginCall_tasks_server k sv
  have hst : (k.tasks sv).state ≠ .blocked := state_ne_blocked_of_canRun hrun
  simp only [ipcReceive]
  rw [hcur]
  split_ifs with hp
  · refine .notification (k.notifyMsg (notifyIndex (k.tasks sv).id)) k.calls hp ?_ ?_ ?_
    · funext i
      by_cases hi : i = sv
      · subst hi
        simp [takeNotification, gotMessage, beginCall, onBehalf, current]
      · simp [takeNotification, hi, beginCall, onBehalf]
    · have hlog := takeNotification_log (k := (k.onBehalf sv).beginCall)
      rw [hcur] at hlog
      exact ⟨_, _, hlog⟩
    · simp only [takeNotification]
      rw [hcur]
      rfl
  · split
    · rename_i s hs
      rw [findBlockedSender_beginCall] at hs
      obtain ⟨hact, hsend, hto, -⟩ := findBlockedSender_eq_some hs
      have hne : s ≠ sv := by
        rintro rfl
        exact hst hsend.1
      have hs' := beginCall_tasks_others (k := k) hne
      refine .message s hne hact hsend hto ?_ ?_ (fun i hi hi' => ?_) ?_ ?_
      · refine (takeMessage_tasks_current (k := (k.onBehalf sv).beginCall) hne).trans ?_
        rw [hcur, hs']
        rfl
      · have := takeMessage_tasks_sender (k := (k.onBehalf sv).beginCall) hne
        rw [hs'] at this
        split_ifs at this ⊢ with hon
        · exact this.trans (eq_of_inSendrec hsend.1 hon)
        · exact this
      · exact (takeMessage_tasks_other (k := (k.onBehalf sv).beginCall) hi hi').trans
          (beginCall_tasks_others hi)
      · refine (takeMessage_log s).trans ?_
        rw [hcur, hs']
        rfl
      · unfold takeMessage
        dsimp only
        split_ifs <;> rfl
    · rename_i hnone
      rw [findBlockedSender_beginCall] at hnone
      refine .blocks msg (not_not.mp hp) (fun i hi hsend hto => ?_) ?_ rfl rfl
      · have := List.find?_eq_none.mp hnone i (List.mem_finRange i)
        refine this ?_
        have h₁ : ((k.onBehalf sv).tasks i).active = true := hi
        have h₂ : IsSending ((k.onBehalf sv).tasks i) := hsend
        have h₃ : ((k.onBehalf sv).tasks i).sendTo = (k.tasks sv).id := hto
        simp [isBlockedSender, h₁, h₂.1, h₂.2, h₃]
      · funext i
        by_cases hi : i = sv
        · subst hi
          simp [blockReceiving, taskYield_tasks, blockedReceiver, beginCall, onBehalf, current]
        · simp [blockReceiving, taskYield_tasks, hi, beginCall, onBehalf]

/-- A receive takes up a call number. -/
theorem ipcReceive_calls (p : UInt32) (msg : Message) :
    (k.ipcReceive p (some msg)).1.calls = k.calls + 1 := by
  simp only [ipcReceive]
  split_ifs
  · rfl
  · split
    · unfold takeMessage
      dsimp only
      split_ifs <;> rfl
    · rfl

end Receive

/-- **A reply to a task that waits for one.** -/
theorem replies_ipcReply (sv : Slot) {i : Slot} (hfind : k.findDest (k.tasks i).id = some i)
    (hin : inSendrec (k.tasks i) = true) (msg : Message) :
    ((k.onBehalf sv).ipcReply (k.tasks i).id (some msg)).1.tasks =
      Function.update k.tasks i (filled (k.tasks i) (k.tasks sv).id msg) ∧
    ((k.onBehalf sv).ipcReply (k.tasks i).id (some msg)).1.log =
      .reply (k.tasks i).call (k.tasks sv).id :: k.log ∧
    ((k.onBehalf sv).ipcReply (k.tasks i).id (some msg)).1.calls = k.calls ∧
    ((k.onBehalf sv).ipcReply (k.tasks i).id (some msg)).1.pendingNotify = k.pendingNotify := by
  have hfind' : (k.onBehalf sv).findDest (k.tasks i).id = some i := hfind
  have hin' : inSendrec ((k.onBehalf sv).tasks i) = true := hin
  simp only [ipcReply, hfind', hin', if_true]
  exact ⟨rfl, rfl, rfl, rfl⟩

/-- A reply to a PID no task of which waits for one changes nothing. -/
theorem ipcReply_of_not_inSendrec {p : UInt32} {msg : Option Message}
    (h : ∀ i, (k.tasks i).active = true → (k.tasks i).id = p → inSendrec (k.tasks i) = false) :
    (k.ipcReply p msg).1 = k := by
  unfold ipcReply
  split
  · rfl
  · split
    · rfl
    · rename_i d hd
      obtain ⟨hact, hid⟩ := findDest_eq_some hd
      rw [if_neg (by simp [h d hact hid])]

end Kernel

end Microkernel
