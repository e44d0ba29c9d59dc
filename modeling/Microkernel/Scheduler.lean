/-
# The scheduler

The functions of `task.c`, with the tick counter of `timer.c`.  What the functions
get from the allocators (stacks, page directories) is an argument here: the
address the allocator returned, `0` for `NULL`.  Giving the memory back on the
death of a task changes no variable of this state.

The functions that end in `task_yield` give the state in which the wait loop of
`task_yield` is entered; when the loop is left is the matter of `Machine.lean`.
-/
import Microkernel.Kernel

namespace Microkernel

/-- How a call ends: it returns a value, or it goes on in the wait loop of
`task_yield` and returns `0` from there. -/
inductive Outcome where
  | ret (v : Int32)
  | yields
  deriving DecidableEq

namespace Kernel

/-! ## Start and creation -/

/-- `DEFAULT_QUANTUM`. -/
def defaultQuantumTicks : UInt32 := 10

/-- The kernel task of `task_init`. -/
def kernelTask : Task :=
  { Task.zero with
    name := "kernel".toUTF8.toList
    state := .running
    active := true
    priority := 10
    quantum := defaultQuantumTicks
    ticksLeft := defaultQuantumTicks
    ioPrivileged := true }

/-- The state after `task_init` and `ipc_init`: only the kernel task exists, and
the kernel's page directory is loaded. -/
def boot (kernelPd : UInt32) : Kernel where
  tasks := Function.update (fun _ => Task.zero) 0 kernelTask
  currentTask := 0
  nextPid := 1
  schedulerEnabled := true
  preemptiveEnabled := true
  defaultQuantum := defaultQuantumTicks
  schedLockCount := 0
  switchNewEsp := 0
  switchPending := false
  totalCtxSwitches := 0
  tickCount := 0
  services := fun _ => ⟨false, [], 0⟩
  totalMessages := 0
  pendingNotify := fun _ => 0
  notifyMsg := fun _ => Message.zero
  irqOwners := fun _ => 0
  kernelPd := kernelPd
  cr3 := kernelPd
  tssEsp0 := 0
  calls := 0
  created := 1
  notifyFor := fun _ => (0, 0)
  log := []

/-- The first inactive slot, the one the creation functions fill. -/
def freeSlot (k : Kernel) : Option Slot :=
  (List.finRange maxTasks).find? fun i => !(k.tasks i).active

/-- The part the three creation functions share: `memset` of the slot, the next
PID, the name cut to `TASK_NAME_LEN - 1` bytes, the priority and a full quantum. -/
def newTask (k : Kernel) (name : List UInt8) (priority : UInt32) : Task :=
  { Task.zero with
    id := k.nextPid
    name := name.take 31
    state := .ready
    active := true
    priority := priority
    quantum := k.defaultQuantum
    ticksLeft := k.defaultQuantum
    serial := k.created }

/-- Put a new task into a slot; this takes up a PID. -/
def addTask (k : Kernel) (slot : Slot) (t : Task) : Kernel :=
  { k.setTask slot t with nextPid := k.nextPid + 1, created := k.created + 1 }

/-- `task_create`; `stack` is what `kmalloc` returned. -/
def taskCreate (k : Kernel) (name : List UInt8) (priority stack : UInt32) :
    Kernel × Outcome :=
  match k.freeSlot with
  | none => (k, .ret (-1))
  | some slot =>
    if stack = 0 then (k, .ret (-1))
    else
      -- `setup_kernel_stack` pushes a frame of 14 words on the new stack.
      let t := { k.newTask name priority with
        stackBase := stack
        stackSize := 8192
        savedEsp := stack + 8192 - 56 }
      (k.addTask slot t, .ret k.nextPid.toInt32)

/-- `task_create_user`; `userStack` and `kernelStack` are what `kmalloc` returned,
`pd` what `paging_create_address_space` returned. -/
def taskCreateUser (k : Kernel) (name : List UInt8) (priority : UInt32) (ioPrivileged : Bool)
    (userStack kernelStack pd : UInt32) : Kernel × Outcome :=
  match k.freeSlot with
  | none => (k, .ret (-1))
  | some slot =>
    if userStack = 0 ∨ kernelStack = 0 ∨ pd = 0 then (k, .ret (-1))
    else
      -- `setup_user_stack` pushes a frame of 16 words on the new kernel stack.
      let t := { k.newTask name priority with
        stackBase := userStack
        stackSize := 8192
        isUser := true
        ioPrivileged := ioPrivileged
        pageDirectory := pd
        kernelStackBase := kernelStack
        kernelStackTop := kernelStack + 4096
        savedEsp := kernelStack + 4096 - 64 }
      (k.addTask slot t, .ret k.nextPid.toInt32)

/-- `task_create_from_elf`. -/
def taskCreateFromElf (k : Kernel) (name : List UInt8)
    (userStackTop pageDir kstackBase kstackSize priority : UInt32) (ioPrivileged : Bool) :
    Kernel × Outcome :=
  match k.freeSlot with
  | none => (k, .ret (-1))
  | some slot =>
    let t := { k.newTask name priority with
      stackBase := userStackTop - 4 * 4096
      stackSize := 4 * 4096
      isUser := true
      ioPrivileged := ioPrivileged
      pageDirectory := pageDir
      kernelStackBase := kstackBase
      kernelStackTop := kstackBase + kstackSize
      savedEsp := kstackBase + kstackSize - 64 }
    (k.addTask slot t, .ret k.nextPid.toInt32)

/-! ## Choosing the next task -/

/-- The tasks `find_next_task` may choose. -/
def canRun (t : Task) : Bool := t.active && (t.state == .ready || t.state == .running)

/-- The tasks the first loop of `find_next_task` wakes. -/
def isDue (now : UInt32) (t : Task) : Bool :=
  t.active && t.state == .sleeping && decide (t.wakeTick ≤ now)

/-- The first loop of `find_next_task` on one entry. -/
def wakeTask (now : UInt32) (t : Task) : Task :=
  if isDue now t then { t with state := .ready } else t

/-- The first loop of `find_next_task`: every sleeping task whose wake tick is
reached becomes ready. -/
def wakeSleeping (k : Kernel) : Kernel :=
  { k with
    tasks := fun i => wakeTask k.tickCount (k.tasks i)
    log := (((List.finRange maxTasks).filter fun i => isDue k.tickCount (k.tasks i)).map
      fun i => Event.wake (k.tasks i).call k.tickCount) ++ k.log }

/-- The slot the selection loop looks at in round `n`. -/
def roundSlot (k : Kernel) (n : ℕ) : Slot :=
  ⟨((k.currentTask.val + 1) % maxTasks + n) % maxTasks, Nat.mod_lt _ (by decide)⟩

/-- One round of the selection loop, on the pair `best`, `best_prio`. -/
def pickRound (k : Kernel) (acc : Option Slot × UInt32) (n : ℕ) : Option Slot × UInt32 :=
  let i := k.roundSlot n
  if i = k.currentTask then acc
  else if canRun (k.tasks i) ∧ (k.tasks i).priority < acc.2 then
    (some i, (k.tasks i).priority)
  else acc

/-- The selection loop; `none` is the `-1` of the source. -/
def bestTask (k : Kernel) : Option Slot :=
  ((List.range maxTasks).foldl k.pickRound (none, 0xFFFFFFFF)).1

/-- The part of `find_next_task` after the first loop. -/
def pickNext (k : Kernel) : Slot :=
  match k.bestTask with
  | some best => best
  | none => if canRun k.current then k.currentTask else 0

/-- `find_next_task`. -/
def findNextTask (k : Kernel) : Kernel × Slot :=
  (k.wakeSleeping, k.wakeSleeping.pickNext)

/-! ## The timer tick -/

/-- The directory a task runs on, the kernel's when none is recorded. -/
def directoryOf (k : Kernel) (t : Task) : UInt32 :=
  if t.pageDirectory = 0 then k.kernelPd else t.pageDirectory

/-- `do_switch_context`. -/
def doSwitchContext (k : Kernel) (next : Slot) : Kernel :=
  let nextTask := k.tasks next
  let k := if nextTask.isUser ∧ nextTask.kernelStackTop ≠ 0 then
    { k with tssEsp0 := nextTask.kernelStackTop } else k
  let newPd := k.directoryOf nextTask
  let curPd := k.directoryOf k.current
  if newPd ≠ curPd then { k with cr3 := newPd } else k

/-- The states in which `task_timer_tick` must switch. -/
def mustSwitch (t : Task) : Bool :=
  t.state == .sleeping || t.state == .blocked || t.state == .terminated

/-- The count of a tick against the current task. -/
def countTick (k : Kernel) : Kernel :=
  k.setTask k.currentTask { k.current with
    cpuTicks := k.current.cpuTicks + 1, totalTicks := k.current.totalTicks + 1 }

/-- `if (ticks_left > 0) ticks_left--` on the current task. -/
def countQuantum (k : Kernel) : Kernel :=
  if 0 < k.current.ticksLeft then
    k.setTask k.currentTask { k.current with ticksLeft := k.current.ticksLeft - 1 }
  else k

/-- The last part of `task_timer_tick`: leave the current task and enter `next`. -/
def switchTo (k : Kernel) (regs : UInt32) (next : Slot) : Kernel :=
  let k := k.setTask k.currentTask { k.current with
    savedEsp := regs
    state := if k.current.state = .running then .ready else k.current.state }
  let k := k.setTask next { k.tasks next with
    state := .running
    ticksLeft := (k.tasks next).quantum
    switches := (k.tasks next).switches + 1 }
  let k := { k with totalCtxSwitches := k.totalCtxSwitches + 1 }.doSwitchContext next
  { k with
    currentTask := next
    switchNewEsp := (k.tasks next).savedEsp
    switchPending := true }

/-- The part of `task_timer_tick` from the call of `find_next_task` on. -/
def reschedule (k : Kernel) (regs : UInt32) : Kernel :=
  let (k, next) := k.findNextTask
  if next = k.currentTask then
    k.setTask k.currentTask { k.current with ticksLeft := k.current.quantum }
  else k.switchTo regs next

/-- `task_timer_tick`; `regs` is the address of the interrupt frame. -/
def taskTimerTick (k : Kernel) (regs : UInt32) : Kernel :=
  if !k.schedulerEnabled ∨ 0 < k.schedLockCount then k
  else
    let k := k.countTick
    if !k.preemptiveEnabled then k
    else if mustSwitch k.current then k.reschedule regs
    else
      let k := k.countQuantum
      if 0 < k.current.ticksLeft then k else k.reschedule regs

/-- `task_preempt_check`: the stack pointer to continue on, `0` for no switch. -/
def taskPreemptCheck (k : Kernel) : Kernel × UInt32 :=
  if k.switchPending then
    ({ k with switchPending := false, switchNewEsp := 0 }, k.switchNewEsp)
  else (k, 0)

/-! ## Waiting and dying -/

/-- The part of `task_yield` before its wait loop. -/
def taskYield (k : Kernel) : Kernel :=
  k.setTask k.currentTask { k.current with ticksLeft := 0 }

/-- Put the current task to sleep up to a tick and yield. -/
def sleepUntil (k : Kernel) (wakeTick : UInt32) : Kernel :=
  { k.setTask k.currentTask { k.current with
      state := .sleeping, wakeTick := wakeTick, call := k.calls } with
    calls := k.calls + 1 }.taskYield

/-- `task_sleep`. -/
def taskSleep (k : Kernel) (ms : UInt32) : Kernel :=
  k.sleepUntil (k.tickCount + (ms * 100) / 1000)

/-- The sleep of one tick at the end of `SYS_GPU3D_PRESENT`. -/
def gpu3dPresent (k : Kernel) : Kernel :=
  k.sleepUntil (k.tickCount + 1)

/-- End the task in a slot: it is terminated and inactive and gives up its page
directory. -/
def endTask (k : Kernel) (i : Slot) : Kernel :=
  (k.setTask i { k.tasks i with
    state := .terminated, active := false, pageDirectory := 0 }).record
      (.ended (k.tasks i).id)

/-- `task_exit`; slot 0 does not exit.  The kernel's directory is loaded before the
task's own is destroyed. -/
def taskExit (k : Kernel) : Kernel × Outcome :=
  if k.currentTask = 0 then (k, .ret 0)
  else
    let cr3 := if k.current.pageDirectory ≠ 0 then k.kernelPd else k.cr3
    ({ k.endTask k.currentTask with cr3 := cr3 }.taskYield, .yields)

/-- The slot `task_kill` ends: never slot 0. -/
def killSlot (k : Kernel) (id : UInt32) : Option Slot :=
  (List.finRange maxTasks).find? fun i =>
    (k.tasks i).active && (k.tasks i).id == id && i != 0

/-- `task_kill`.  The kernel's directory is loaded if CR3 holds the directory that
is to be destroyed. -/
def taskKill (k : Kernel) (id : UInt32) : Kernel :=
  match k.killSlot id with
  | none => k
  | some i =>
    let cr3 := if (k.tasks i).pageDirectory ≠ 0 ∧ k.cr3 = (k.tasks i).pageDirectory
      then k.kernelPd else k.cr3
    { k.endTask i with cr3 := cr3 }

/-! ## Settings -/

/-- `task_set_quantum`, which keeps the quantum of new tasks in `1..1000`. -/
def taskSetQuantum (k : Kernel) (ticks : UInt32) : Kernel :=
  let ticks := if ticks < 1 then 1 else ticks
  { k with defaultQuantum := if 1000 < ticks then 1000 else ticks }

/-- `task_set_preemptive`. -/
def taskSetPreemptive (k : Kernel) (enabled : Bool) : Kernel :=
  { k with preemptiveEnabled := enabled }

/-- `task_lock_scheduler`. -/
def taskLockScheduler (k : Kernel) : Kernel :=
  { k with schedLockCount := k.schedLockCount + 1 }

/-- `task_unlock_scheduler`. -/
def taskUnlockScheduler (k : Kernel) : Kernel :=
  { k with schedLockCount := if 0 < k.schedLockCount then k.schedLockCount - 1 else 0 }

end Kernel

end Microkernel
