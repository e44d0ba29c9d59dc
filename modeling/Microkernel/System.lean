/-
# The kernel as a transition system

The calls a task can make and the interrupts, as one type of actions, and what each
does to the kernel state.  The runs considered are lists of actions, each with the
slot on whose behalf it is executed: in the running system this is `current_task`
(`Kernel.Scheduled`), but most statements hold for any choice of the acting task,
so for any interleaving of the calls of the tasks.
-/
import Microkernel.Interrupt
import Microkernel.Runs

namespace Microkernel

/-- What a task can ask the kernel for, by a system call, a fault or, in ring 0, by
a call of the kernel function. -/
inductive Call where
  | ipcSend (destPid : UInt32) (msg : Option Message)
  | ipcReceive (fromPid : UInt32) (msg : Option Message)
  | ipcSendrec (destPid : UInt32) (msg : Option Message)
  | ipcReply (destPid : UInt32) (msg : Option Message)
  | ipcNotify (destPid : UInt32) (msg : Message)
  | taskYield
  | taskSleep (ms : UInt32)
  | gpu3dPresent
  | taskExit
  | taskKill (id : UInt32)
  | pageFault
  | taskCreate (name : List UInt8) (priority stack : UInt32)
  | taskCreateUser (name : List UInt8) (priority : UInt32) (ioPrivileged : Bool)
      (userStack kernelStack pd : UInt32)
  | taskCreateFromElf (name : List UInt8)
      (userStackTop pageDir kstackBase kstackSize priority : UInt32) (ioPrivileged : Bool)
  | registerSvc (name : List UInt8)
  | registerIrq (irq : UInt32)
  | grantIo (pid : UInt32)
  | setQuantum (ticks : UInt32)
  | setPreemptive (enabled : Bool)
  | lockScheduler
  | unlockScheduler

/-- The effect of a call made by the current task. -/
def Call.exec (k : Kernel) : Call → Kernel × Outcome
  | .ipcSend destPid msg => k.ipcSend destPid msg
  | .ipcReceive fromPid msg => k.ipcReceive fromPid msg
  | .ipcSendrec destPid msg => k.ipcSendrec destPid msg
  | .ipcReply destPid msg => k.ipcReply destPid msg
  | .ipcNotify destPid msg => k.ipcNotify destPid msg
  | .taskYield => (k.taskYield, .yields)
  | .taskSleep ms => (k.taskSleep ms, .yields)
  | .gpu3dPresent => (k.gpu3dPresent, .yields)
  | .taskExit => k.taskExit
  | .taskKill id => (k.taskKill id, .ret 0)
  | .pageFault => k.pageFault
  | .taskCreate name priority stack => k.taskCreate name priority stack
  | .taskCreateUser name priority io userStack kernelStack pd =>
      k.taskCreateUser name priority io userStack kernelStack pd
  | .taskCreateFromElf name top pd base size priority io =>
      k.taskCreateFromElf name top pd base size priority io
  | .registerSvc name => k.sysRegisterSvc name
  | .registerIrq irq => k.sysRegisterIrq irq
  | .grantIo pid => k.sysGrantIo pid
  | .setQuantum ticks => (k.taskSetQuantum ticks, .ret 0)
  | .setPreemptive enabled => (k.taskSetPreemptive enabled, .ret 0)
  | .lockScheduler => (k.taskLockScheduler, .ret 0)
  | .unlockScheduler => (k.taskUnlockScheduler, .ret 0)

/-- A step of the kernel: a call, or a hardware interrupt whose frame is saved at
`regs`.  The timer tick is `irq 0`. -/
inductive Action where
  | call (c : Call)
  | irq (n : Fin 16) (regs : UInt32)

/-- The state after an action. -/
def Action.exec (k : Kernel) : Action → Kernel
  | .call c => (c.exec k).1
  | .irq n regs => (k.irqHandler n regs).1

namespace Kernel

/-- What the tick, the routing and the switch check of an interrupt preserve the
interrupt preserves. -/
theorem irqHandler_invariant {I : Kernel → Prop} {k : Kernel} (hk : I k) (irq : Fin 16)
    (regs : UInt32) (htick : ∀ k, I k → I (k.timerCallback regs))
    (hroute : ∀ k, I k → I (k.routeIrq irq)) (hcheck : ∀ k, I k → I k.taskPreemptCheck.1) :
    I (k.irqHandler irq regs).1 := by
  refine hcheck _ (hroute _ ?_)
  split_ifs
  · exact htick k hk
  · exact hk

/-- The state with slot `c` as the current task. -/
def onBehalf (k : Kernel) (c : Slot) : Kernel := { k with currentTask := c }

/-- The state after slot `c` acts. -/
def act (k : Kernel) (c : Slot) (a : Action) : Kernel := a.exec (k.onBehalf c)

/-- The steps that meet a condition on the state before them, the acting slot and
the action. -/
def StepIf (P : Kernel → Slot → Action → Prop) (k : Kernel) (l : Slot × Action)
    (k' : Kernel) : Prop :=
  P k l.1 l.2 ∧ k' = k.act l.1 l.2

/-- In the running system the acting task is `current_task`. -/
def Scheduled (k : Kernel) (c : Slot) (_ : Action) : Prop := c = k.currentTask

/-- A task is sequential: inside the wait loop of a blocking call, or dead, it makes no
other call. -/
def Sequential (k : Kernel) (c : Slot) : Action → Prop
  | .call _ => canRun (k.tasks c) = true
  | .irq _ _ => True

instance (k : Kernel) (c : Slot) (a : Action) : Decidable (k.Scheduled c a) :=
  inferInstanceAs (Decidable (_ = _))

instance (k : Kernel) (c : Slot) : (a : Action) → Decidable (k.Sequential c a)
  | .call _ => inferInstanceAs (Decidable (_ = _))
  | .irq _ _ => inferInstanceAs (Decidable True)

/-- A task that makes a call is not blocked. -/
theorem state_ne_blocked_of_canRun {t : Task} (h : canRun t = true) : t.state ≠ .blocked := by
  intro hb
  simp [canRun, hb] at h

section Runs

variable (P : Kernel → Slot → Action → Prop) [∀ k c a, Decidable (P k c a)]

/-- Follow a list of steps as long as they meet the condition. -/
def followIf (k : Kernel) (ls : List (Slot × Action)) : Option Kernel :=
  Run.follow (fun k l => if P k l.1 l.2 then some (k.act l.1 l.2) else none) k ls

/-- What `followIf` computes is a run of the steps that meet the condition. -/
theorem exists_run_followIf {k : Kernel} {ls : List (Slot × Action)} {Q : Kernel → Prop}
    [DecidablePred Q] (h : (k.followIf P ls).any (fun k => decide (Q k)) = true) :
    ∃ k', Run (StepIf P) k ls k' ∧ Q k' := by
  obtain ⟨k', hrun, hQ⟩ := Run.exists_of_follow h
  exact ⟨k', hrun.mono fun s l t hst => ⟨hst.1, (Option.some.inj hst.2).symm⟩, hQ⟩

end Runs

end Kernel

end Microkernel
