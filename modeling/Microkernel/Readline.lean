/-
# The command line

`shell_readline` in `src/shell.c` without its drawing, and the history of the commands.  The buffer of
`CMD_MAX` bytes is an area of memory: an access outside of it is a fault.
-/
import Microkernel.CStrings
import Microkernel.Keyboard
import Microkernel.Ramfs

open Access Buffer

namespace Microkernel

/-- `CMD_MAX`. -/
def cmdMax : ℕ := 256

/-- `HISTORY_SIZE`. -/
def historySize : ℕ := 32

/-- Ctrl+C. -/
def ctrlC : UInt8 := 3

/-- Ctrl+L. -/
def ctrlL : UInt8 := 12

/-- The names in the table `commands`. -/
def commands : List (List UInt8) :=
  ["help", "?", "clear", "cls", "echo", "uname", "uptime", "date", "time", "sysinfo", "cpuid",
   "lspci", "paging", "mem", "free", "heap", "alloc", "ps", "kill", "ipc", "services", "mkport",
   "send", "recv", "syscall", "ls", "dir", "cd", "pwd", "cat", "touch", "mkdir", "write", "rm",
   "del", "tree", "hex", "xxd", "wc", "more", "less", "cp", "mv", "head", "tail", "grep", "find",
   "ifconfig", "ping", "arp", "nslookup", "dig", "dns", "scheduler", "sched", "disk", "hdd",
   "format", "mount", "umount", "unmount", "ntfsinfo", "save", "load", "exec", "whoami", "users",
   "adduser", "passwd", "login", "logout", "env", "export", "set", "unset", "edit", "nano", "vi",
   "beep", "color", "calc", "history", "logo", "snake", "2048", "matrix", "starfield", "pipes",
   "gui", "startx", "desktop", "gl", "opengl", "3d", "gldemo", "sh",
   "run"].map fun name => name.toUTF8.toList

/-- `cmd_names`: the names that `init_cmd_names` has room for. -/
def cmdNames : List (List UInt8) := commands.take 95

/-- A string that fits in a buffer of `CMD_MAX` bytes. -/
structure CommandLine where
  text : List UInt8
  noNul : 0 ∉ text
  short : text.length < cmdMax

/-! ## The history -/

/-- The static variables `history` and `history_count`. -/
structure History where
  history : ℕ → CommandLine
  historyCount : ℕ

/-- `shell_init`. -/
def History.empty : History where
  history _ := ⟨[], List.not_mem_nil, by decide⟩
  historyCount := 0

/-- The string in the slot of the `i`-th command. -/
def History.line (h : History) (i : ℕ) : List UInt8 := (h.history (i % historySize)).text

/-- `add_history`. -/
def addHistory (cmd : CommandLine) (h : History) : History :=
  if cmd.text = [] then h
  else if 0 < h.historyCount ∧ h.line (h.historyCount - 1) = cmd.text then h
  else
    { history := Function.update h.history (h.historyCount % historySize) cmd
      historyCount := h.historyCount + 1 }

/-! ## Editing -/

/-- The local variables of `shell_readline`. -/
structure Readline where
  mem : Memory
  pos : ℕ
  len : ℕ
  histIdx : ℕ

/-- The buffer of the command line. -/
def lineBuffer (mem : Memory) : Buffer := ⟨cmdMax, mem⟩

def Readline.buf (s : Readline) : Buffer := lineBuffer s.mem

/-- Store a NUL in the buffer. -/
def Readline.cut (s : Readline) (i : ℕ) : Access Readline :=
  (s.buf.storeBytes i [0]).map fun b => { s with mem := b.mem }

/-- The start of `shell_readline`. -/
def Readline.start (h : History) (mem : Memory) : Access Readline :=
  (Readline.mk mem 0 0 h.historyCount).cut 0

/-- A character is put in at the cursor. -/
def Readline.insert (c : UInt8) (s : Readline) : Access Readline :=
  (moveUpLoop s.pos 1 (s.len - s.pos) s.buf).bind fun b =>
    (b.storeBytes s.pos [c]).bind fun b =>
      .ok { s with mem := b.mem, pos := s.pos + 1, len := s.len + 1 }

/-- The character before the cursor is taken out. -/
def Readline.remove (s : Readline) : Access Readline :=
  if 0 < s.pos then
    (memcpyLoop (s.pos - 1) s.pos (s.len - s.pos) 0 s.buf).bind fun b =>
      .ok { s with mem := b.mem, pos := s.pos - 1, len := s.len - 1 }
  else .ok s

/-- The command with this number comes into the buffer. -/
def Readline.recall (h : History) (i : ℕ) (s : Readline) : Access Readline :=
  (s.buf.storeBytes 0 (h.line i ++ [0])).bind fun b =>
    (b.strlen 0).map fun n => { mem := b.mem, pos := n, len := n, histIdx := i }

/-- The branch of `KEY_UP`. -/
def Readline.up (h : History) (s : Readline) : Access Readline :=
  if 0 < s.histIdx ∧ h.historyCount < s.histIdx + historySize then s.recall h (s.histIdx - 1)
  else .ok s

/-- The branch of `KEY_DOWN`. -/
def Readline.down (h : History) (s : Readline) : Access Readline :=
  if s.histIdx + 1 < h.historyCount then s.recall h (s.histIdx + 1)
  else if s.histIdx + 1 = h.historyCount then
    Readline.cut { s with pos := 0, len := 0, histIdx := h.historyCount } 0
  else .ok s

/-! ## Completion -/

/-- The loop of `tab_complete` that looks for the start of the word before `n`. -/
def wordStart (b : Buffer) : ℕ → Access ℕ
  | 0 => .ok 0
  | n + 1 => (b.byte n).bind fun c => if c = blank then .ok (n + 1) else wordStart b n

/-- The commands that begin with a word without a NUL, as many as `matches` has room for. -/
def commandMatches (word : List UInt8) : List (List UInt8) :=
  (cmdNames.filter fun name => name.take word.length == word).take 8

/-- The loop that inserts what a command has behind the word. -/
def completeLoop : List UInt8 → Readline → Access Readline
  | [], s => .ok s
  | c :: rest, s =>
    if s.len < cmdMax - 2 then (s.insert c).bind (completeLoop rest) else .ok s

/-- `tab_complete`. -/
def tabComplete (s : Readline) : Access Readline :=
  (wordStart s.buf s.pos).bind fun start =>
    let plen := s.pos - start
    if plen = 0 ∨ 63 ≤ plen then .ok s
    else
      (s.buf.bytes start plen).bind fun word =>
        match if start = 0 then commandMatches word else [] with
        | [name] => (completeLoop (name.drop plen) s).bind fun s => s.cut s.len
        | _ => .ok s

/-! ## Keys -/

/-- What a key leads to: the loop goes on, or the line is finished. -/
inductive Reading where
  | more (s : Readline)
  | line (mem : Memory)

/-- The end of a round. -/
def Readline.next (s : Readline) : Access Reading := (s.cut s.len).map .more

/-- A round of the loop of `shell_readline`. -/
def readlineKey (h : History) (c : UInt8) (s : Readline) : Access Reading :=
  if c = newline then (s.cut s.len).map fun s => .line s.mem
  else if c = backspace then s.remove.bind Readline.next
  else if c = tab then (tabComplete s).bind Readline.next
  else if c = keyUp then (s.up h).bind Readline.next
  else if c = keyDown then (s.down h).bind Readline.next
  else if c = keyLeft ∧ 0 < s.pos then Readline.next { s with pos := s.pos - 1 }
  else if c = keyRight ∧ s.pos < s.len then Readline.next { s with pos := s.pos + 1 }
  else if c = keyHome then Readline.next { s with pos := 0 }
  else if c = keyEnd then Readline.next { s with pos := s.len }
  else if c = ctrlC ∨ c = ctrlL then (s.cut 0).map fun s => .line s.mem
  else if isPrintable c ∧ s.len < cmdMax - 1 then (s.insert c).bind Readline.next
  else s.next

/-- The state after a sequence of keys; those behind the end of the line are not read. -/
def readlineRun (h : History) : List UInt8 → Reading → Access Reading
  | c :: keys, .more s => (readlineKey h c s).bind (readlineRun h keys)
  | _, r => .ok r

/-- `shell_readline` with these keys. -/
def shellReadline (h : History) (mem : Memory) (keys : List UInt8) : Access Reading :=
  (Readline.start h mem).bind fun s => readlineRun h keys (.more s)

end Microkernel
