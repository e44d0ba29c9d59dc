/-
# Redirections and pipes

`exec_single` and `execute_command` in `src/shell.c`, and the hook that captures what a command prints.
What the commands of the table do is left open: a command does something with the terminal, but for
its hook, and something with the rest of the kernel.
-/
import Microkernel.DnsQuery
import Microkernel.Grep
import Microkernel.RamfsContents
import Microkernel.Script
import Microkernel.ShellWords
import Microkernel.TerminalSheet

namespace Microkernel

/-- `OUTPUT_BUF_SIZE`. -/
def outputBufSize : ℕ := 4096

/-- The character `>`. -/
def greater : UInt8 := 0x3E

/-- The character `|`. -/
def bar : UInt8 := 0x7C

def backslash : UInt8 := 0x5C

/-! ## Capturing -/

/-- `capture_hook`, on the first `output_pos` bytes of `output_buffer`. -/
def captureHook (c : UInt8) (output : List UInt8) : List UInt8 :=
  if output.length < outputBufSize - 1 then output ++ [c] else output

/-- `start_capture`. -/
def Terminal.startCapture (t : Terminal (List UInt8)) : Terminal (List UInt8) :=
  Terminal.setHook (some captureHook) { t with hooked := [] }

/-- `stop_capture`. -/
def Terminal.stopCapture (t : Terminal (List UInt8)) : Terminal (List UInt8) := t.setHook none

/-! ## Commands -/

/-- What commands work on besides the terminal, with the heap that `kmalloc` takes from. -/
structure Surroundings (ω : Type*) where
  env : Env
  fs : Ramfs
  mounts : Mounts
  allocator : Allocator
  other : ω

/-- What is done with the terminal, whose color is given, and with the rest. -/
abbrev Work (ω : Type*) := UInt8 → Surroundings ω → List TerminalOp × Surroundings ω

/-- The functions in `commands`, by their places, and those that are called apart from it. -/
structure CommandTable (ω : Type*) where
  func : ℕ → Option (List (List UInt8) → Work ω)
  powerReboot : Work ω
  powerShutdown : Work ω
  pagerDisplay : List UInt8 → Work ω

/-- The terminal and the rest. -/
structure Shell (ω : Type*) where
  terminal : Terminal (List UInt8)
  rest : Surroundings ω

variable {ω : Type*}

def Shell.perform (work : Work ω) (s : Shell ω) : Shell ω where
  terminal := (work s.terminal.termColor s.rest).1.foldl TerminalOp.run s.terminal
  rest := (work s.terminal.termColor s.rest).2

/-- The message about a command that is not there. -/
def commandNotFound (name : List UInt8) (color : UInt8) : List TerminalOp :=
  .setColor 0x0C :: (name.map .putchar ++
    .setColor color :: ": command not found. Type 'help'.\n".toUTF8.toList.map .putchar)

/-- `exec_single`. -/
def execSingle (table : CommandTable ω) (cmdline : List UInt8) : Work ω := fun color w =>
  match shellMarks.split maxArgs cmdline with
  | [] => ([], w)
  | name :: args =>
    if name = "reboot".toUTF8.toList then table.powerReboot color w
    else if name = "shutdown".toUTF8.toList ∨ name = "halt".toUTF8.toList then
      table.powerShutdown color w
    else
      match commands.idxOf? name with
      | some i =>
        match table.func i with
        | some func => func (name :: args) color w
        | none => ([], w)
      | none => (commandNotFound name color, w)

/-- A command between `start_capture` and `stop_capture`. -/
def Shell.capture (work : Work ω) (s : Shell ω) : Shell ω :=
  let done := Shell.perform work { s with terminal := s.terminal.startCapture }
  { done with terminal := done.terminal.stopCapture }

/-! ## Redirections -/

/-- A command whose output goes to a file. -/
structure Redirection where
  command : List UInt8
  append : Bool
  file : List UInt8

/-- The loop that takes the spaces behind the name of the file away, but not its first character. -/
def trimEnd : List UInt8 → List UInt8
  | [] => []
  | c :: cs => c :: cs.rdropWhile (· == blank)

/-- The search of `execute_command` for a redirection: the first `>`, if it is not the first character
and there is no backslash in front of it. -/
def redirection (expanded : List UInt8) : Option Redirection :=
  let command := expanded.takeWhile (· != greater)
  match expanded.dropWhile (· != greater) with
  | [] => none
  | _ :: gt =>
    if command ≠ [] ∧ command.getLast? ≠ some backslash then
      let append := gt.head? == some greater
      let name := if append then gt.tail else gt
      some ⟨command, append, trimEnd (name.dropWhile (· == blank))⟩
    else none

/-- `ramfs_write` or `ramfs_append`. -/
def Surroundings.store (append : Bool) (path data : List UInt8) (w : Surroundings ω) : Surroundings ω :=
  { w with
    fs :=
      w.fs.exec ⟨w.mounts, w.allocator, if append then .append path data else .write path data⟩ }

/-- A command with a redirection. -/
def Shell.redirect (table : CommandTable ω) (r : Redirection) (s : Shell ω) : Shell ω :=
  let done := s.capture (execSingle table r.command)
  { done with rest := done.rest.store r.append r.file done.terminal.hooked }

/-! ## Pipes -/

/-- The search of `execute_command` for a pipe. -/
def pipeline (expanded : List UInt8) : Option (List UInt8 × List UInt8) :=
  match expanded.dropWhile (· != bar) with
  | [] => none
  | _ :: pipe => some (expanded.takeWhile (· != bar), pipe.dropWhile (· == blank))

/-- The variables `lines`, `words` and `in_word` of the loop that counts. -/
structure Counts where
  lines : ℕ
  words : ℕ
  inWord : Bool

def Counts.count (r : Counts) (c : UInt8) : Counts where
  lines := if c = newline then r.lines + 1 else r.lines
  words := if isSpace c ∨ r.inWord then r.words else r.words + 1
  inWord := !isSpace c

/-- The `wc` of a pipeline. -/
def pipeWc (output : List UInt8) (t : Terminal (List UInt8)) : Option (Terminal (List UInt8)) :=
  let r := output.foldl Counts.count ⟨0, 0, false⟩
  t.kprintf "  %d lines, %d words, %d bytes\n".toUTF8.toList
    [.word (UInt32.ofNat r.lines), .word (UInt32.ofNat r.words), .word (UInt32.ofNat output.length)]

/-- The second command of a pipeline, with the output of the first. -/
def Shell.second (table : CommandTable ω) (pipe output : List UInt8) (s : Shell ω) :
    Option (Shell ω) :=
  let argv := shellMarks.split maxArgs pipe
  if argv.head? = some "more".toUTF8.toList ∨ argv.head? = some "less".toUTF8.toList then
    some (s.perform (table.pagerDisplay output))
  else if argv.head? = some "wc".toUTF8.toList then
    (pipeWc output s.terminal).map fun t => { s with terminal := t }
  else
    match argv with
    | name :: pattern :: _ =>
      if name = "grep".toUTF8.toList then
        (pipeGrep pattern output (output.length + 1)).map fun text =>
          { s with terminal := s.terminal.print text }
      else some (s.perform (execSingle table pipe))
    | _ => some (s.perform (execSingle table pipe))

/-- A pipeline. -/
def Shell.pipe (table : CommandTable ω) (first pipe : List UInt8) (s : Shell ω) : Option (Shell ω) :=
  let done := s.capture (execSingle table first)
  let output := done.terminal.hooked
  Shell.second table pipe output { done with rest := done.rest.store false pipeFile output }

/-- `execute_command`. -/
def executeCommand (table : CommandTable ω) (cmdline : List UInt8) (s : Shell ω) : Option (Shell ω) :=
  let expanded := commandText s.rest.env cmdline
  match redirection expanded with
  | some r => some (s.redirect table r)
  | none =>
    match pipeline expanded with
    | some (first, pipe) => s.pipe table first pipe
    | none => some (s.perform (execSingle table expanded))

end Microkernel
