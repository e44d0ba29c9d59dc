/-
# Interrupts, faults and system calls

The entry points through which the kernel state changes: the IRQ handler of `idt.c`
with the timer callback of `timer.c`, the page-fault handler of `paging.c`, and the
system calls of `syscall.c` that are more than a call of one kernel function.
-/
import Microkernel.Ipc

namespace Microkernel

namespace Kernel

/-- `timer_callback`. -/
def timerCallback (k : Kernel) (regs : UInt32) : Kernel :=
  { k with tickCount := k.tickCount + 1 }.taskTimerTick regs

/-- The message `irq_handler` sends to the owner of an IRQ. -/
def irqMessage (irq : Fin 16) (ticks : UInt32) : Message :=
  (({ Message.zero with type := msgIrqNotify }).setWord 0
    (UInt32.ofNat irq.val)).setWord 4 ticks

/-- The routing part of `irq_handler`: notify the owner, if there is one. -/
def routeIrq (k : Kernel) (irq : Fin 16) : Kernel :=
  let owner := k.irqOwners irq
  if owner ≠ 0 then (k.ipcNotify owner (irqMessage irq k.tickCount)).1 else k

/-- `irq_handler`: the timer callback on IRQ 0, the notification, and the stack
pointer to continue on.  The other registered handlers change nothing here. -/
def irqHandler (k : Kernel) (irq : Fin 16) (regs : UInt32) : Kernel × UInt32 :=
  let k := if irq = 0 then k.timerCallback regs else k
  (k.routeIrq irq).taskPreemptCheck

/-- `page_fault_handler` on a fault that does not halt the machine: a fault from
ring 3 in a task other than PID 0 kills the task and yields. -/
def pageFault (k : Kernel) : Kernel × Outcome :=
  if 0 < k.current.id then ((k.taskKill k.current.id).taskYield, .yields) else (k, .ret 0)

/-- `SYS_REGISTER_SVC`. -/
def sysRegisterSvc (k : Kernel) (name : List UInt8) : Kernel × Outcome :=
  k.ipcRegisterService name k.current.id

/-- `SYS_GRANT_IO`; the argument `0` is the caller itself. -/
def sysGrantIo (k : Kernel) (pid : UInt32) : Kernel × Outcome :=
  match k.taskGetByPid (if pid ≠ 0 then pid else k.current.id) with
  | some i => (k.setTask i { k.tasks i with ioPrivileged := true }, .ret 0)
  | none => (k, .ret (-1))

/-- `SYS_REGISTER_IRQ`. -/
def sysRegisterIrq (k : Kernel) (irq : UInt32) : Kernel × Outcome :=
  if h : irq.toNat < 16 then
    ({ k.setTask k.currentTask { k.current with
        ownedIrqs := k.current.ownedIrqs ||| (1 <<< irq) } with
      irqOwners := Function.update k.irqOwners ⟨irq.toNat, h⟩ k.current.id }, .ret 0)
  else (k, .ret (-1))

end Kernel

end Microkernel
