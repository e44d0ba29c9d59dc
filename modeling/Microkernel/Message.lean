/-
# Messages and the words the kernel uses for tasks

The data types of `include/ipc.h` and `include/task.h`: the 64-byte message with
its union of views, the state of a task and the reason it is blocked for.

A message buffer is modelled by its contents.  The source passes pointers to
buffers of the calling task; here a task that is inside an IPC call owns the
contents of the buffer it passed (`Task.msgBuf` in `Kernel.lean`), and copying
into `t->msg_buf` replaces these contents.
-/
import Mathlib

namespace Microkernel

/-! ## Messages -/

/-- `message_t`: the sender, the type and the 56 bytes of the union. -/
structure Message where
  sender : UInt32
  type : UInt32
  raw : Vector UInt8 56
  deriving DecidableEq, Inhabited

/-- `PID_ANY`: receive from any sender. -/
def pidAny : UInt32 := 0xFFFFFFFF

/-- `MSG_IRQ_NOTIFY`, the type of the messages `irq_handler` sends. -/
def msgIrqNotify : UInt32 := 100

/-- `MSG_REPLY`, the type of the servers' replies. -/
def msgReply : UInt32 := 101

/-- `memset(&m, 0, sizeof(m))`. -/
def Message.zero : Message := ⟨0, 0, Vector.replicate 56 0⟩

/-- The 32-bit little-endian word at byte `off` of the union. -/
def Message.word (m : Message) (off : ℕ) : UInt32 :=
  let b := fun i => (m.raw[off + i]?.getD 0).toUInt32
  b 0 ||| b 1 <<< 8 ||| b 2 <<< 16 ||| b 3 <<< 24

/-- Store the 32-bit word `v` at byte `off` of the union. -/
def Message.setWord (m : Message) (off : ℕ) (v : UInt32) : Message :=
  { m with raw := (((m.raw.setIfInBounds off v.toUInt8).setIfInBounds (off + 1)
      (v >>> 8).toUInt8).setIfInBounds (off + 2)
      (v >>> 16).toUInt8).setIfInBounds (off + 3) (v >>> 24).toUInt8 }

/-! ## Task states -/

/-- `task_state_t`. -/
inductive TaskState where
  | ready
  | running
  | sleeping
  | blocked
  | terminated
  deriving DecidableEq, Inhabited

/-- `blocked_on`: `BLOCKED_NONE`, `BLOCKED_SEND`, `BLOCKED_RECEIVE` and
`BLOCKED_SENDREC`. -/
inductive BlockedOn where
  | none
  | send
  | receive
  | sendrec
  deriving DecidableEq, Inhabited

end Microkernel
