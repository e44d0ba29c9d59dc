/-
# The files under `/proc`

The dispatch of `src/procfs.c`.  What a generator prints is an argument: the text it makes in the
present state of the kernel.  The generators write it with `ksnprintf`, which cuts it to one byte
less than the room there is.
-/
import Microkernel.Ramfs

namespace Microkernel

/-- The files that have a generator. -/
inductive ProcFile
  | cpuinfo
  | meminfo
  | uptime
  | version
  | stat
  | loadavg
  | filesystems
  | mounts
  | processes
  | interrupts
  | scheduler
  | netDev
  | pidStatus (pid : ℕ)
  deriving DecidableEq

/-- The text of each file. -/
abbrev ProcTexts := ProcFile → List UInt8

/-- A generator called with room for `max` bytes. -/
def generate (texts : ProcTexts) (file : ProcFile) (max : ℕ) : List UInt8 :=
  (texts file).take (max - 1)

/-- `proc_files`. -/
def procFiles : List (String × ProcFile) :=
  [("cpuinfo", .cpuinfo), ("meminfo", .meminfo), ("uptime", .uptime), ("version", .version),
    ("stat", .stat), ("loadavg", .loadavg), ("filesystems", .filesystems), ("mounts", .mounts),
    ("processes", .processes), ("interrupts", .interrupts), ("scheduler", .scheduler)]

/-- `isdigit`. -/
def isDigit (c : UInt8) : Bool := 0x30 ≤ c && c ≤ 0x39

/-- `atoi` of a string that begins with a digit. -/
def atoi (s : List UInt8) : ℕ :=
  (s.takeWhile isDigit).foldl (fun n c => n * 10 + (c.toNat - 0x30)) 0

/-- The file that a path names, of those that `procfs_read` knows. -/
def procFile (path : List UInt8) : Option ProcFile :=
  let name := path.drop 6
  if path.length ≤ 6 then none
  else if startsWith "net/" name then
    if name.drop 4 = "dev".toUTF8.toList then some .netDev else none
  else if (name.head?.map isDigit).getD false then
    -- `/proc/<pid>/status`, or `/proc/<pid>` alone
    let tail := name.dropWhile (· != slash)
    if tail = [] ∨ tail = [slash] ∨ tail = slash :: "status".toUTF8.toList then
      some (.pidStatus (atoi name))
    else none
  else (procFiles.find? fun f => f.1.toUTF8.toList == name).map Prod.snd

/-- `procfs_read` for a path that begins with `/proc`; `none` is -1. -/
def procfsRead (texts : ProcTexts) (path : List UInt8) (max : ℕ) : Option (List UInt8) :=
  if max = 0 then some [] else (procFile path).map fun f => generate texts f max

/-- `procfs_is_dir`. -/
def procfsIsDir (path : List UInt8) : Bool :=
  path == "/proc".toUTF8.toList || path == "/proc/net".toUTF8.toList ||
    (startsWith "/proc/" path && (((path.drop 6).head?.map isDigit).getD false) &&
      (path.drop 6).all isDigit)

/-- `procfs_stat` for a path that begins with `/proc`: the size is that of a read with 64 bytes of
room. -/
def procfsStat (texts : ProcTexts) (path : List UInt8) : Option (RamfsType × ℕ) :=
  if procfsIsDir path then some (.dir, 0)
  else (procfsRead texts path 64).map fun bytes => (.file, bytes.length)

end Microkernel
