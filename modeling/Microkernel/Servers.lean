/-
# The server loops

The loops of `servers.c`: console, VFS, disk and network.  Each receives a message,
processes it and replies to its sender; three of them go on without a reply after a
message of type `MSG_IRQ_NOTIFY`.

What the drivers do is a parameter: they act on a state of their own and return the
values the loops put into their replies.  The world of a server is the kernel state, the
place of the server in its loop and the drivers' state; clients send to the server by
`ipc_send`, `ipc_sendrec` and `ipc_notify` at any time.
-/
import Microkernel.Reply

namespace Microkernel

/-! ## Views of a message -/

namespace Message

/-- `msg.cons.data`, the last 47 bytes before the padding of the union. -/
def consData (m : Message) : List UInt8 := (m.raw.toList.drop 5).take 47

/-- `msg.cons.color`. -/
def consColor (m : Message) : UInt8 := m.raw[4]

/-- `msg.io.path`, the last 40 bytes of the union. -/
def ioPath (m : Message) : List UInt8 := m.raw.toList.drop 16

/-- A message of type `MSG_REPLY` with `reply.status` and `reply.value`, the rest zero. -/
def mkReply (status : Int32) (value : UInt32) : Message :=
  (({ zero with type := msgReply }).setWord 0 status.toUInt32).setWord 4 value

end Message

/-! ## The drivers -/

/-- The driver functions the servers call, on a state `σ`.  Buffers are addresses; a path is
the bytes of the message from its first one on. -/
structure Drivers (σ : Type*) where
  terminalPutchar : σ → UInt8 → σ
  terminalClear : σ → σ
  terminalSetcolor : σ → UInt8 → σ
  keyboardGetchar : σ → UInt8 × σ
  procfsRead : σ → List UInt8 → UInt32 → UInt32 → Int32 × σ
  fat16IsMounted : σ → Bool
  fat16ReadFile : σ → List UInt8 → UInt32 → UInt32 → Int32 × σ
  fat16WriteFile : σ → List UInt8 → UInt32 → UInt32 → Int32 × σ
  ntfsIsMounted : σ → Bool
  ntfsReadFile : σ → List UInt8 → UInt32 → UInt32 → Int32 × σ
  ntfsWriteFile : σ → List UInt8 → UInt32 → UInt32 → Int32 × σ
  ramfsRead : σ → List UInt8 → UInt32 → UInt32 → Int32 × σ
  ramfsWrite : σ → List UInt8 → UInt32 → UInt32 → Int32 × σ
  /-- The second argument says that a directory is to be created. -/
  ramfsCreate : σ → List UInt8 → Bool → Int32 × σ
  ramfsDelete : σ → List UInt8 → Int32 × σ
  ataReadSectors : σ → UInt32 → UInt8 → UInt32 → Bool × σ
  ataWriteSectors : σ → UInt32 → UInt8 → UInt32 → Bool × σ
  ataDrivePresent : σ → Bool
  /-- `ata_get_drive_n(0)->size_mb`. -/
  ataDriveSizeMb : σ → UInt32
  netIsAvailable : σ → Bool
  netPoll : σ → σ

/-! ## Processing one message -/

section Loops

variable {σ : Type*} (D : Drivers σ) (d : σ) (msg : Message)

/-- The body of the loop of `console_server_main` after `sys_receive`: the drivers' state
and the reply, `none` for the `continue`. -/
def consoleServe : σ × Option Message :=
  match msg.type with
  | 10 => -- `MSG_CONS_WRITE`
    let len := if 47 < msg.word 0 then 47 else msg.word 0
    let text := (msg.consData.take len.toNat).takeWhile (· ≠ 0)
    (text.foldl D.terminalPutchar d, some (.mkReply 0 len))
  | 12 => -- `MSG_CONS_PUTCHAR`
    (D.terminalPutchar d msg.raw[5], some (.mkReply 0 0))
  | 15 => -- `MSG_CONS_GETCHAR`; the cast of a `char` extends its sign
    let (c, d) := D.keyboardGetchar d
    (d, some (.mkReply 0 c.toInt8.toInt32.toUInt32))
  | 13 => (D.terminalClear d, some (.mkReply 0 0)) -- `MSG_CONS_CLEAR`
  | 14 => (D.terminalSetcolor d msg.consColor, some (.mkReply 0 0)) -- `MSG_CONS_SETCOLOR`
  | 100 => (d, none) -- `MSG_IRQ_NOTIFY`
  | _ => (d, some (.mkReply (-1) 0))

/-- The reply of the VFS server to a read or a write. -/
def sizeReply (n : Int32) : Message := .mkReply (if 0 ≤ n then 0 else -1) n.toUInt32

/-- The body of the loop of `vfs_server_main`. -/
def vfsServe : σ × Option Message :=
  let path := msg.ioPath
  match msg.type with
  | 20 => -- `MSG_VFS_READ`
    let (n, d) :=
      if path.take 5 = "/proc".toUTF8.toList then D.procfsRead d path (msg.word 12) (msg.word 8)
      else if path.take 6 = "/disk/".toUTF8.toList then
        if D.fat16IsMounted d then D.fat16ReadFile d (path.drop 5) (msg.word 12) (msg.word 8)
        else if D.ntfsIsMounted d then D.ntfsReadFile d (path.drop 5) (msg.word 12) (msg.word 8)
        else (-1, d)
      else D.ramfsRead d path (msg.word 12) (msg.word 8)
    (d, some (sizeReply n))
  | 21 => -- `MSG_VFS_WRITE`
    let (n, d) :=
      if path.take 6 = "/disk/".toUTF8.toList then
        if D.fat16IsMounted d then D.fat16WriteFile d (path.drop 5) (msg.word 12) (msg.word 8)
        else if D.ntfsIsMounted d then D.ntfsWriteFile d (path.drop 5) (msg.word 12) (msg.word 8)
        else (-1, d)
      else D.ramfsWrite d path (msg.word 12) (msg.word 8)
    (d, some (sizeReply n))
  | 22 => -- `MSG_VFS_CREATE`
    let (ret, d) := D.ramfsCreate d path (msg.word 0 == 1)
    (d, some (.mkReply ret 0))
  | 23 => -- `MSG_VFS_DELETE`
    let (ret, d) := D.ramfsDelete d path
    (d, some (.mkReply ret 0))
  | 24 => (d, some (.mkReply 0 0)) -- `MSG_VFS_LIST`
  | _ => (d, some (.mkReply (-1) 0))

/-- The body of the loop of `disk_server_main`. -/
def diskServe : σ × Option Message :=
  match msg.type with
  | 30 => -- `MSG_DISK_READ`
    let (ok, d) := D.ataReadSectors d (msg.word 4) (msg.word 8).toUInt8 (msg.word 12)
    (d, some (.mkReply (if ok then 0 else -1) (msg.word 8)))
  | 31 => -- `MSG_DISK_WRITE`
    let (ok, d) := D.ataWriteSectors d (msg.word 4) (msg.word 8).toUInt8 (msg.word 12)
    (d, some (.mkReply (if ok then 0 else -1) (msg.word 8)))
  | 32 => -- `MSG_DISK_INFO`
    (d, some (if D.ataDrivePresent d then .mkReply 0 (D.ataDriveSizeMb d) else .mkReply (-1) 0))
  | 100 => (d, none) -- `MSG_IRQ_NOTIFY`
  | _ => (d, some (.mkReply (-1) 0))

/-- The body of the loop of `net_server_main`. -/
def netServe : σ × Option Message :=
  match msg.type with
  | 42 => -- `MSG_NET_IFCONFIG`
    (d, some (.mkReply (if D.netIsAvailable d then 0 else -1) 0))
  | 43 => (d, some (.mkReply 0 0)) -- `MSG_NET_PING`
  | 100 => -- `MSG_IRQ_NOTIFY`
    (if D.netIsAvailable d then D.netPoll d else d, none)
  | _ => (d, some (.mkReply (-1) 0))

/-- The servers. -/
inductive Server where
  | console
  | vfs
  | disk
  | net
  deriving DecidableEq

namespace Server

/-- Process one message. -/
def serve : Server → σ × Option Message
  | console => consoleServe D d msg
  | vfs => vfsServe D d msg
  | disk => diskServe D d msg
  | net => netServe D d msg

/-- The types after which a server goes on without a reply. -/
def isSilent : Server → UInt32 → Bool
  | vfs, _ => false
  | _, type => type == msgIrqNotify

/-- A server replies to every message but those of a silent type. -/
theorem serve_eq_none (s : Server) :
    (s.serve D d msg).2 = none ↔ s.isSilent msg.type = true := by
  cases s with
  | console =>
    simp only [serve, consoleServe, isSilent, msgIrqNotify, beq_iff_eq]
    split <;> simp_all
  | vfs =>
    simp only [serve, vfsServe, isSilent]
    split <;> simp
  | disk =>
    simp only [serve, diskServe, isSilent, msgIrqNotify, beq_iff_eq]
    split <;> simp_all
  | net =>
    simp only [serve, netServe, isSilent, msgIrqNotify, beq_iff_eq]
    split <;> simp_all

end Server

end Loops

end Microkernel
