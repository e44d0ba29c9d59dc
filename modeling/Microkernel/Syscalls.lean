/-
# The system call handler

`syscall_handler` of `syscall.c`: the calls a ring-3 task can make by INT 0x80, with
what each does to the kernel state.  What a call gets from parts of the kernel that are
not in this state (the heap, the keyboard, the window manager, the GPU driver) is an
argument, `Answers`.

A pointer argument is an address.  The handler does not check it, so a call may make the
kernel write anywhere, also over the kernel's own variables; `Syscall.writes` lists the
memory a call has the kernel write through its pointers.
-/
import Microkernel.System

namespace Microkernel

/-- A `message_t*` argument: the address, and the message found there. -/
structure MessagePtr where
  addr : UInt32
  msg : Message

/-- The message, `none` for a null pointer. -/
def MessagePtr.get (p : MessagePtr) : Option Message := if p.addr = 0 then none else some p.msg

/-- `sizeof(message_t)`. -/
def messageSize : UInt32 := 64

/-- `sizeof(block_header_t)`. -/
def blockHeaderSize : UInt32 := 20

/-- The system calls, with their arguments. -/
inductive Syscall where
  | write (buf len : UInt32)
  | read (buf len : UInt32)
  | getpid
  | exit
  | sleep (ms : UInt32)
  | time
  | getTicks
  | malloc (size : UInt32)
  | free (ptr : UInt32)
  | send (destPid : UInt32) (msg : MessagePtr)
  | receive (fromPid : UInt32) (msg : MessagePtr)
  | sendrec (destPid : UInt32) (msg : MessagePtr)
  | reply (destPid : UInt32) (msg : MessagePtr)
  | notify (destPid : UInt32) (msg : MessagePtr)
  | registerSvc (name : List UInt8)
  | lookupSvc (name : List UInt8)
  | grantIo (pid : UInt32)
  | registerIrq (irq : UInt32)
  | createTask (name : List UInt8) (entry priority : UInt32)
  | debugLog (str : UInt32)
  | guiWinOpen (title : UInt32)
  | guiPresent
  | guiWinClose
  | guiGetTicks
  | virglSubmit (buf len : UInt32)
  | gpu3dInit (width height : UInt32)
  | gpu3dClear (flags packed : UInt32)
  | gpu3dUpload (buf numFloats : UInt32)
  | gpu3dMvp (buf : UInt32)
  | gpu3dDraw (mode start count : UInt32)
  | gpu3dPresent
  | other (num : UInt32)

/-- What the other parts of the kernel do in a call. -/
structure Answers where
  /-- The value they return to the handler. -/
  result : UInt32
  /-- How often they call `task_yield`. -/
  yields : ℕ
  /-- The headers of the heap blocks that `kmalloc` and `kfree` write. -/
  headers : List UInt32
  /-- The two stacks and the page directory `task_create_user` asks for. -/
  userStack : UInt32
  kernelStack : UInt32
  pageDirectory : UInt32

namespace Syscall

/-- The memory the kernel writes through the pointers of the call and in the heap, as
pairs of an address and a length. -/
def writes (env : Answers) : Syscall → List (UInt32 × UInt32)
  | .read buf len => (buf, len) :: env.headers.map (·, blockHeaderSize)
  | .send _ msg | .receive _ msg | .sendrec _ msg | .reply _ msg =>
      if msg.addr = 0 then [] else [(msg.addr, messageSize)]
  | .notify _ msg => [(msg.addr, messageSize)]
  | _ => env.headers.map (·, blockHeaderSize)

/-- `task_yield`, as often as the drivers call it. -/
def drive (k : Kernel) (env : Answers) : Kernel := Kernel.taskYield^[env.yields] k

/-- `syscall_handler` for the current task. -/
def exec (k : Kernel) (env : Answers) : Syscall → Kernel × Outcome
  | .write _ len => (k, .ret len.toInt32)
  | .read _ len => (k, .ret len.toInt32)
  | .getpid => (k, .ret k.current.id.toInt32)
  | .exit => k.taskExit
  | .sleep ms => (k.taskSleep ms, .yields)
  | .time | .getTicks | .guiGetTicks => (k, .ret k.tickCount.toInt32)
  | .malloc _ => (k, .ret env.result.toInt32)
  | .free _ => (k, .ret 0)
  | .send destPid msg => k.ipcSend destPid msg.get
  | .receive fromPid msg => k.ipcReceive fromPid msg.get
  | .sendrec destPid msg => k.ipcSendrec destPid msg.get
  | .reply destPid msg => k.ipcReply destPid msg.get
  | .notify destPid msg => k.ipcNotify destPid msg.msg
  | .registerSvc name => k.sysRegisterSvc name
  | .lookupSvc name => (k, .ret (k.ipcLookupService name).toInt32)
  | .grantIo pid => k.sysGrantIo pid
  | .registerIrq irq => k.sysRegisterIrq irq
  | .createTask name _ priority =>
      k.taskCreateUser name priority false env.userStack env.kernelStack env.pageDirectory
  | .debugLog _ => (k, .ret 0)
  | .guiWinOpen _ => (k, .ret (if k.current.pageDirectory ≠ 0 then env.result.toInt32 else 0))
  -- `gui_elf_win_present` and the GPU driver give up the quantum while they wait.
  | .guiPresent => (drive k env, .ret 0)
  | .guiWinClose => (k, .ret 0)
  | .virglSubmit _ _ | .gpu3dInit _ _ => (drive k env, .ret env.result.toInt32)
  | .gpu3dClear _ _ | .gpu3dDraw _ _ _ => (k, .ret 0)
  | .gpu3dUpload _ _ | .gpu3dMvp _ => (k, .ret env.result.toInt32)
  | .gpu3dPresent => ((drive k env).gpu3dPresent, .yields)
  | .other _ => (k, .ret (-1))

end Syscall

end Microkernel
