/-
# The kernel state

The static variables of `task.c`, `ipc.c`, `syscall.c` and `timer.c` and the two
registers the scheduler drives (CR3 and the TSS kernel stack), as one record.

Three parts of the record are not in the source.  They are history variables:
nothing the kernel computes reads them, they only number the calls and the tasks
and remember what was copied where, so that statements about whole runs can be
made about the state a run ends in.

* `calls` counts the accepted blocking calls; `Task.call` is the number of the
  call whose buffer the task's `msgBuf` is.
* `created` counts the tasks; `Task.serial` is the number of the task, and
  `notifyFor` the PID and the number of the task a pending notification was sent to.
* `log` lists the copies, replies, wake-ups and deaths, the latest first.

`current_task` is `-1` before `task_init` and an index of the table from then on
(`find_next_task` returns nothing else), so it is a `Slot` here and the tests
`current_task < 0` of the source have no counterpart.
-/
import Microkernel.Indices
import Microkernel.Message

namespace Microkernel

/-! ## Tasks -/

/-- `MAX_TASKS`. -/
abbrev maxTasks : ℕ := 32

/-- An index of the task table. -/
abbrev Slot := Fin maxTasks

/-- `task_t`, less the registers of the unused cooperative switch (`regs`) and the
unused `ipc_msg`. -/
structure Task where
  id : UInt32
  name : List UInt8
  state : TaskState
  stackBase : UInt32
  stackSize : UInt32
  wakeTick : UInt32
  cpuTicks : UInt32
  priority : UInt32
  active : Bool
  quantum : UInt32
  ticksLeft : UInt32
  savedEsp : UInt32
  totalTicks : UInt32
  switches : UInt32
  /-- The page directory; `0` is `NULL`, the kernel's directory. -/
  pageDirectory : UInt32
  isUser : Bool
  kernelStackBase : UInt32
  kernelStackTop : UInt32
  blockedOn : BlockedOn
  sendTo : UInt32
  receiveFrom : UInt32
  /-- The contents of the buffer `msg_buf` points to. -/
  msgBuf : Message
  ioPrivileged : Bool
  ownedIrqs : UInt32
  /-- History: the number of the task's latest blocking call. -/
  call : ℕ
  /-- History: the number of the task. -/
  serial : ℕ
  deriving DecidableEq, Inhabited

/-- `memset(t, 0, sizeof(task_t))`; `TASK_READY` and `BLOCKED_NONE` are the zeros
of their types. -/
def Task.zero : Task where
  id := 0
  name := []
  state := .ready
  stackBase := 0
  stackSize := 0
  wakeTick := 0
  cpuTicks := 0
  priority := 0
  active := false
  quantum := 0
  ticksLeft := 0
  savedEsp := 0
  totalTicks := 0
  switches := 0
  pageDirectory := 0
  isUser := false
  kernelStackBase := 0
  kernelStackTop := 0
  blockedOn := .none
  sendTo := 0
  receiveFrom := 0
  msgBuf := Message.zero
  ioPrivileged := false
  ownedIrqs := 0
  call := 0
  serial := 0

/-! ## The history -/

/-- What the history remembers. -/
inductive Event where
  /-- Call `n`, an `ipc_send` or `ipc_sendrec` to PID `dest`, made by task number `task`
  with PID `caller`, was accepted; `awaits` says that it is an `ipc_sendrec`. -/
  | submit (n : ℕ) (caller : UInt32) (task : ℕ) (dest : UInt32) (awaits : Bool)
  /-- The message of call `n` was copied into the buffer of receive call `m`, made
  by PID `receiver`. -/
  | deliver (n : ℕ) (receiver : UInt32) (m : ℕ)
  /-- A reply of PID `replier` was copied into the buffer of call `n`. -/
  | reply (n : ℕ) (replier : UInt32)
  /-- A notification to PID `dest`, held by task number `task`, was copied into the
  buffer of receive call `m`, made by task number `into` with PID `receiver`. -/
  | note (dest : UInt32) (task : ℕ) (receiver : UInt32) (into : ℕ) (m : ℕ)
  /-- `find_next_task` ended sleep call `n` at tick `now`. -/
  | wake (n : ℕ) (now : UInt32)
  /-- `task_exit` or `task_kill` ended the task with this PID. -/
  | ended (pid : UInt32)
  deriving DecidableEq

/-! ## The state -/

/-- `service_entry_t`. -/
structure ServiceEntry where
  active : Bool
  name : List UInt8
  pid : UInt32
  deriving DecidableEq, Inhabited

/-- `MAX_SERVICES`. -/
abbrev maxServices : ℕ := 16

/-- The static variables of the kernel, CR3 and the kernel stack of the TSS. -/
structure Kernel where
  tasks : Slot → Task
  currentTask : Slot
  nextPid : UInt32
  schedulerEnabled : Bool
  preemptiveEnabled : Bool
  defaultQuantum : UInt32
  schedLockCount : UInt32
  switchNewEsp : UInt32
  switchPending : Bool
  totalCtxSwitches : UInt32
  tickCount : UInt32
  services : Fin maxServices → ServiceEntry
  totalMessages : UInt32
  pendingNotify : Slot → UInt32
  notifyMsg : Slot → Message
  irqOwners : Fin 16 → UInt32
  /-- The address of the static `page_directory` of `paging.c`. -/
  kernelPd : UInt32
  cr3 : UInt32
  tssEsp0 : UInt32
  calls : ℕ
  created : ℕ
  notifyFor : Slot → UInt32 × ℕ
  log : List Event

namespace Kernel

variable (k : Kernel)

/-- `task_get_current`. -/
def current : Task := k.tasks k.currentTask

/-- Overwrite one entry of the task table. -/
def setTask (i : Slot) (t : Task) : Kernel :=
  { k with tasks := Function.update k.tasks i t }

/-- Record an event. -/
def record (e : Event) : Kernel := { k with log := e :: k.log }

/-- `task_get_by_pid`: the first active task with this PID. -/
def taskGetByPid (pid : UInt32) : Option Slot :=
  (List.finRange maxTasks).find? fun i => (k.tasks i).active && (k.tasks i).id == pid

/-- The entry of the pending-notification tables for a PID, `pid % MAX_TASKS`. -/
def notifyIndex (pid : UInt32) : Slot := ⟨pid.toNat % maxTasks, Nat.mod_lt _ (by decide)⟩

/-! ### Field lemmas -/

variable {k}

@[simp] theorem setTask_tasks (i : Slot) (t : Task) :
    (k.setTask i t).tasks = Function.update k.tasks i t := rfl

@[simp] theorem setTask_currentTask (i : Slot) (t : Task) :
    (k.setTask i t).currentTask = k.currentTask := rfl

@[simp] theorem setTask_log (i : Slot) (t : Task) : (k.setTask i t).log = k.log := rfl

@[simp] theorem setTask_notifyFor (i : Slot) (t : Task) :
    (k.setTask i t).notifyFor = k.notifyFor := rfl

@[simp] theorem setTask_notifyMsg (i : Slot) (t : Task) :
    (k.setTask i t).notifyMsg = k.notifyMsg := rfl

@[simp] theorem setTask_kernelPd (i : Slot) (t : Task) :
    (k.setTask i t).kernelPd = k.kernelPd := rfl

@[simp] theorem setTask_cr3 (i : Slot) (t : Task) : (k.setTask i t).cr3 = k.cr3 := rfl

@[simp] theorem setTask_tssEsp0 (i : Slot) (t : Task) : (k.setTask i t).tssEsp0 = k.tssEsp0 := rfl

@[simp] theorem record_tasks (e : Event) : (k.record e).tasks = k.tasks := rfl

@[simp] theorem record_currentTask (e : Event) :
    (k.record e).currentTask = k.currentTask := rfl

@[simp] theorem record_log (e : Event) : (k.record e).log = e :: k.log := rfl

/-- What `task_get_by_pid` returns is an active task with the PID asked for. -/
theorem taskGetByPid_eq_some {pid : UInt32} {i : Slot} (h : k.taskGetByPid pid = some i) :
    (k.tasks i).active = true ∧ (k.tasks i).id = pid := by
  have := List.find?_some h
  simpa using this

/-- `task_get_by_pid` fails only when no active task has the PID. -/
theorem taskGetByPid_eq_none {pid : UInt32} :
    k.taskGetByPid pid = none ↔ ∀ i, (k.tasks i).active = true → (k.tasks i).id ≠ pid := by
  simp [taskGetByPid, List.find?_eq_none]

end Kernel

end Microkernel
