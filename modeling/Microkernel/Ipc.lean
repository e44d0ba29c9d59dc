/-
# Synchronous IPC

The functions of `ipc.c`.  A call that blocks gives the state in which the wait loop
of `task_yield` is entered and the outcome `yields`.
-/
import Microkernel.Scheduler

namespace Microkernel

namespace Kernel

/-! ## Searches -/

/-- A task blocked in `ipc_send` or `ipc_sendrec` to `receiverPid` that a receiver
asking for `fromPid` accepts. -/
def isBlockedSender (receiverPid fromPid : UInt32) (t : Task) : Bool :=
  t.active && t.state == .blocked && (t.blockedOn == .send || t.blockedOn == .sendrec)
    && t.sendTo == receiverPid && (fromPid == pidAny || t.id == fromPid)

/-- `find_blocked_sender`: the first such task of the table. -/
def findBlockedSender (k : Kernel) (receiverPid fromPid : UInt32) : Option Slot :=
  (List.finRange maxTasks).find? fun i => isBlockedSender receiverPid fromPid (k.tasks i)

/-- The lookup the calls with a destination start with, `task_get_by_pid` and the
test of `active`. -/
def findDest (k : Kernel) (destPid : UInt32) : Option Slot :=
  (k.taskGetByPid destPid).filter fun i => (k.tasks i).active

/-- The destination is blocked in `ipc_receive`. -/
def inReceive (t : Task) : Bool := t.state == .blocked && t.blockedOn == .receive

/-- The destination is blocked in `ipc_receive` and accepts messages of `pid`. -/
def acceptsFrom (pid : UInt32) (t : Task) : Bool :=
  inReceive t && (t.receiveFrom == pidAny || t.receiveFrom == pid)

/-- The destination is blocked in `ipc_sendrec`. -/
def inSendrec (t : Task) : Bool := t.state == .blocked && t.blockedOn == .sendrec

/-! ## Parts of the calls -/

/-- `total_messages++`. -/
def countMessage (k : Kernel) : Kernel := { k with totalMessages := k.totalMessages + 1 }

/-- History: give the current task's call the next number. -/
def beginCall (k : Kernel) : Kernel :=
  { k.setTask k.currentTask { k.current with call := k.calls } with calls := k.calls + 1 }

/-- Copy a message into the buffer of a blocked task and make the task ready. -/
def fillBuffer (k : Kernel) (i : Slot) (msg : Message) : Kernel :=
  k.setTask i { k.tasks i with msgBuf := msg, state := .ready, blockedOn := .none }

/-- Block the current task in `ipc_send` or `ipc_sendrec` and yield. -/
def blockSending (k : Kernel) (on : BlockedOn) (destPid : UInt32) (msg : Message) : Kernel :=
  (k.setTask k.currentTask { k.current with
    state := .blocked, blockedOn := on, sendTo := destPid, msgBuf := msg }).taskYield

/-- Block the current task in `ipc_receive` and yield. -/
def blockReceiving (k : Kernel) (fromPid : UInt32) (msg : Message) : Kernel :=
  (k.setTask k.currentTask { k.current with
    state := .blocked, blockedOn := .receive, receiveFrom := fromPid, msgBuf := msg }).taskYield

/-- The delivery of the current task's message to a waiting receiver, the part
`ipc_send` and `ipc_sendrec` share. -/
def deliverNow (k : Kernel) (d : Slot) (msg : Message) : Kernel :=
  (k.record (.deliver k.current.call (k.tasks d).id (k.tasks d).call)).fillBuffer d msg

/-- What `ipc_send` and `ipc_sendrec` do before they look at the destination's
state: number the call, count the message. -/
def submit (k : Kernel) (destPid : UInt32) (awaits : Bool) : Kernel :=
  (k.beginCall.record
    (.submit k.calls k.current.id k.current.serial destPid awaits)).countMessage

/-! ## The calls -/

/-- `ipc_send`. -/
def ipcSend (k : Kernel) (destPid : UInt32) (msg : Option Message) : Kernel × Outcome :=
  match msg with
  | none => (k, .ret (-1))
  | some msg =>
    match k.findDest destPid with
    | none => (k, .ret (-2))
    | some d =>
      let msg := { msg with sender := k.current.id }
      let k := k.submit destPid false
      if acceptsFrom k.current.id (k.tasks d) then (k.deliverNow d msg, .ret 0)
      else (k.blockSending .send destPid msg, .yields)

/-- `ipc_sendrec`. -/
def ipcSendrec (k : Kernel) (destPid : UInt32) (msg : Option Message) : Kernel × Outcome :=
  match msg with
  | none => (k, .ret (-1))
  | some msg =>
    match k.findDest destPid with
    | none => (k, .ret (-2))
    | some d =>
      let msg := { msg with sender := k.current.id }
      let k := k.submit destPid true
      let k := if acceptsFrom k.current.id (k.tasks d) then k.deliverNow d msg else k
      (k.blockSending .sendrec destPid msg, .yields)

/-- The branch of `ipc_receive` that takes a pending notification. -/
def takeNotification (k : Kernel) : Kernel :=
  let idx := notifyIndex k.current.id
  let k := k.setTask k.currentTask { k.current with msgBuf := k.notifyMsg idx }
  let k := k.record (.note (k.notifyFor idx).1 (k.notifyFor idx).2
    k.current.id k.current.serial k.current.call)
  { k with pendingNotify := Function.update k.pendingNotify idx 0 }

/-- The branch of `ipc_receive` that takes the message of a blocked sender.  A
sender in `ipc_send` becomes ready, one in `ipc_sendrec` stays blocked. -/
def takeMessage (k : Kernel) (s : Slot) : Kernel :=
  let sender := k.tasks s
  let k := k.setTask k.currentTask { k.current with
    msgBuf := { sender.msgBuf with sender := sender.id } }
  let k := k.record (.deliver sender.call k.current.id k.current.call)
  if sender.blockedOn = .sendrec then
    k.setTask s { k.tasks s with blockedOn := .sendrec, state := .blocked }
  else
    k.setTask s { k.tasks s with state := .ready, blockedOn := .none }

/-- `ipc_receive`; the contents of `msg` on entry are only kept when the call
blocks. -/
def ipcReceive (k : Kernel) (fromPid : UInt32) (msg : Option Message) : Kernel × Outcome :=
  match msg with
  | none => (k, .ret (-1))
  | some msg =>
    let k := k.beginCall
    if k.pendingNotify (notifyIndex k.current.id) ≠ 0 then (k.takeNotification, .ret 0)
    else
      match k.findBlockedSender k.current.id fromPid with
      | some s => (k.takeMessage s, .ret 0)
      | none => (k.blockReceiving fromPid msg, .yields)

/-- `ipc_reply`. -/
def ipcReply (k : Kernel) (destPid : UInt32) (msg : Option Message) : Kernel × Outcome :=
  match msg with
  | none => (k, .ret (-1))
  | some msg =>
    match k.findDest destPid with
    | none => (k, .ret (-2))
    | some d =>
      if inSendrec (k.tasks d) then
        ((((k.record (.reply (k.tasks d).call k.current.id)).fillBuffer d
          { msg with sender := k.current.id }).countMessage), .ret 0)
      else (k, .ret (-3))

/-- The branch of `ipc_notify` that leaves the notification pending. -/
def storeNotification (k : Kernel) (d : Slot) (destPid : UInt32) (msg : Message) : Kernel :=
  let idx := notifyIndex destPid
  { k with
    notifyMsg := Function.update k.notifyMsg idx msg
    notifyFor := Function.update k.notifyFor idx (destPid, (k.tasks d).serial)
    pendingNotify := Function.update k.pendingNotify idx 1 }

/-- `ipc_notify`. -/
def ipcNotify (k : Kernel) (destPid : UInt32) (msg : Message) : Kernel × Outcome :=
  match k.findDest destPid with
  | none => (k, .ret (-2))
  | some d =>
    let msg := { msg with sender := 0 }
    let k := k.countMessage
    if inReceive (k.tasks d) then
      ((k.record (.note destPid (k.tasks d).serial (k.tasks d).id (k.tasks d).serial
        (k.tasks d).call)).fillBuffer d msg, .ret 0)
    else (k.storeNotification d destPid msg, .ret 0)

/-! ### The parts, field by field -/

section Parts

variable {k : Kernel}

@[simp] theorem submit_log (destPid : UInt32) (awaits : Bool) :
    (k.submit destPid awaits).log =
      .submit k.calls k.current.id k.current.serial destPid awaits :: k.log := rfl

@[simp] theorem fillBuffer_log (i : Slot) (msg : Message) : (k.fillBuffer i msg).log = k.log := rfl

@[simp] theorem deliverNow_log (d : Slot) (msg : Message) :
    (k.deliverNow d msg).log =
      .deliver k.current.call (k.tasks d).id (k.tasks d).call :: k.log := rfl

@[simp] theorem blockSending_log (on : BlockedOn) (destPid : UInt32) (msg : Message) :
    (k.blockSending on destPid msg).log = k.log := rfl

@[simp] theorem blockReceiving_log (fromPid : UInt32) (msg : Message) :
    (k.blockReceiving fromPid msg).log = k.log := rfl

@[simp] theorem beginCall_log : k.beginCall.log = k.log := rfl

@[simp] theorem countMessage_log : k.countMessage.log = k.log := rfl

@[simp] theorem storeNotification_log (d : Slot) (destPid : UInt32) (msg : Message) :
    (k.storeNotification d destPid msg).log = k.log := rfl

/-- The history after taking a message. -/
theorem takeMessage_log (s : Slot) :
    (k.takeMessage s).log =
      .deliver (k.tasks s).call k.current.id k.current.call :: k.log := by
  unfold takeMessage
  dsimp only
  split_ifs <;> simp [current]

theorem takeMessage_tasks_current {s : Slot} (h : s ≠ k.currentTask) :
    (k.takeMessage s).tasks k.currentTask = { k.current with
      msgBuf := { (k.tasks s).msgBuf with sender := (k.tasks s).id } } := by
  unfold takeMessage
  dsimp only
  split_ifs <;> simp [h.symm]

theorem takeMessage_tasks_sender {s : Slot} (h : s ≠ k.currentTask) :
    (k.takeMessage s).tasks s = if (k.tasks s).blockedOn = .sendrec
      then { k.tasks s with blockedOn := .sendrec, state := .blocked }
      else { k.tasks s with state := .ready, blockedOn := .none } := by
  unfold takeMessage
  dsimp only
  split_ifs <;> simp [h]

theorem takeMessage_tasks_other {s i : Slot} (hc : i ≠ k.currentTask) (hs : i ≠ s) :
    (k.takeMessage s).tasks i = k.tasks i := by
  unfold takeMessage
  dsimp only
  split_ifs <;> simp [hc, hs]

/-- The history after taking a notification. -/
theorem takeNotification_log :
    k.takeNotification.log =
      .note (k.notifyFor (notifyIndex k.current.id)).1 (k.notifyFor (notifyIndex k.current.id)).2
        k.current.id k.current.serial k.current.call :: k.log := by
  simp [takeNotification, current]

end Parts

/-! ## The service registry -/

/-- `ipc_register_service`: the entry with this name, else the first free one. -/
def ipcRegisterService (k : Kernel) (name : List UInt8) (pid : UInt32) : Kernel × Outcome :=
  match (List.finRange maxServices).find? fun i =>
      (k.services i).active && (k.services i).name == name with
  | some i =>
    ({ k with services := Function.update k.services i { k.services i with pid := pid } },
      .ret (Int32.ofNat i))
  | none =>
    match (List.finRange maxServices).find? fun i => !(k.services i).active with
    | some i =>
      ({ k with services := Function.update k.services i ⟨true, name.take 31, pid⟩ },
        .ret (Int32.ofNat i))
    | none => (k, .ret (-1))

/-- `ipc_lookup_service`; `0` when the name is not registered. -/
def ipcLookupService (k : Kernel) (name : List UInt8) : UInt32 :=
  match (List.finRange maxServices).find? fun i =>
      (k.services i).active && (k.services i).name == name with
  | some i => (k.services i).pid
  | none => 0

end Kernel

end Microkernel
