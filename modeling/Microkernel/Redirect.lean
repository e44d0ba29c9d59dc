/-
# Output that goes to files and through pipes

What a command prints between `start_capture` and `stop_capture` is what ends up in the file of its
redirection, or is searched behind a pipe, as far as the buffer has room for it.  A file of the RAM file
system is a cell for this: a write replaces what it holds, and an append adds to it.
-/
import Microkernel.Execute
import Microkernel.RamfsLookup

namespace Microkernel

/-! ## A file as a cell -/

namespace Ramfs

variable {fs fs' : Ramfs} {m : Mounts} {a : Allocator} {path data : List UInt8}

/-- The same tree has the same paths. -/
theorem SameLinks.find_eq (hs : fs.SameLinks fs') (hcwd : fs'.cwd = fs.cwd) (path : List UInt8) :
    fs'.find path = fs.find path := by
  have hchild : ∀ dir name, fs'.child dir name = fs.child dir name := by
    intro dir name
    unfold child
    congr 1
    funext i
    obtain ⟨hactive, hname, -, hparent⟩ := hs i
    rw [hactive, hname, hparent]
  have hwalk : ∀ cs current, fs'.walk current cs = fs.walk current cs := by
    intro cs
    induction cs with
    | nil => exact fun _ => rfl
    | cons c cs ih =>
      intro current
      have hrest : (fun i => fs'.walk i cs) = fun i => fs.walk i cs := funext ih
      rw [walk_cons, walk_cons, hchild, ih, ih, (hs current).2.2.2, hrest]
  have hresolve : fs'.resolvePath path = fs.resolvePath path := by
    unfold resolvePath absolutePath
    rw [hcwd]
  unfold find
  rw [hresolve]
  dsimp only
  rw [hwalk]

/-- A path that names a file of the RAM file system and fits its arrays. -/
structure IsFilePath (fs : Ramfs) (path : List UInt8) : Prop where
  plain : fs.Plain path
  pathFits : fs.PathFits path
  nameFits : fs.NameFits path
  proper : fs.ProperName path
  notProc : startsWith "/proc" (fs.resolvePath path) = false

/-- Only the working directory counts. -/
theorem IsFilePath.of_cwd (h : fs.IsFilePath path) (hcwd : fs'.cwd = fs.cwd) :
    fs'.IsFilePath path := by
  have habsolute : fs'.absolutePath path = fs.absolutePath path := by
    unfold absolutePath
    rw [hcwd]
  have hresolve : fs'.resolvePath path = fs.resolvePath path := by
    unfold resolvePath
    rw [habsolute]
  obtain ⟨hplain, hfits, hname, hproper, hproc⟩ := h
  refine ⟨?_, ?_, ?_, ?_, ?_⟩
  · unfold Plain at hplain ⊢
    rwa [hresolve]
  · unfold PathFits at hfits ⊢
    rwa [habsolute]
  · unfold NameFits at hname ⊢
    rwa [hresolve]
  · unfold ProperName at hproper ⊢
    rwa [hresolve]
  · rwa [hresolve]

/-- What the file holds that a path names; `none` if there is none, but it can be made. -/
def HoldsFile (fs : Ramfs) (path : List UInt8) : Option (List UInt8) → Prop
  | none => fs.find path = none ∧ ∃ r, fs.createNode path .file = .ok r
  | some bytes => ∃ i, fs.find path = some i ∧ (fs.nodes i).type = .file ∧ fs.contents i = bytes

/-- What `ramfs_read` takes from the nodes is what the file holds. -/
theorem HoldsFile.readNode_eq {c : Option (List UInt8)} (h : fs.HoldsFile path c) (max : ℕ) :
    fs.readNode path max = c.map (·.take max) := by
  unfold readNode
  cases c with
  | none =>
    rw [h.1]
    rfl
  | some bytes =>
    obtain ⟨i, hfind, htype, rfl⟩ := h
    rw [hfind, Option.bind_some, if_neg (not_not.mpr htype), Option.map_some]
    unfold contents
    rw [List.take_take, Nat.min_comm]

/-- And so is what it gives at all. -/
theorem HoldsFile.readBytes_eq {c : Option (List UInt8)} (h : fs.HoldsFile path c)
    (hpath : fs.IsFilePath path) (m : Mounts) (o : OtherReads) (max : ℕ) :
    fs.readBytes m o path max = c.map (·.take max) := by
  have hread : fs.read m path max = .ramfs (readResult (fs.readNode path max)) fs := by
    unfold Ramfs.read procfsIsVirtual
    dsimp only
    rw [hpath.notProc, if_neg Bool.false_ne_true, hpath.plain.matchDisk]
    rfl
  unfold readBytes
  rw [hread]
  exact h.readNode_eq max

/-- The names, the buffers and the place where paths begin. -/
structure Sound (fs : Ramfs) : Prop extends Named fs where
  buffers : fs.Buffers

/-- With room on the heap a file can be written. -/
theorem storeFile_ok (hroom : ∀ n, (a.kmalloc n).isSome) {i : Fin 64}
    (htype : (fs.nodes i).type = .file) (data : List UInt8) : 0 ≤ (fs.storeFile a i data).1 := by
  unfold storeFile
  dsimp only
  rw [if_neg (not_not.mpr htype)]
  split_ifs
  · obtain ⟨b, hb⟩ := Option.isSome_iff_exists.mp (hroom (data.take ramfsMaxData).length)
    rw [hb]
    exact Int.natCast_nonneg _
  · exact Int.natCast_nonneg _

/-- And extended. -/
theorem extendFile_ok (hroom : ∀ n, (a.kmalloc n).isSome) {i : Fin 64}
    (htype : (fs.nodes i).type = .file) (data : List UInt8) : 0 ≤ (fs.extendFile a i data).1 := by
  unfold extendFile
  dsimp only
  rw [if_neg (not_not.mpr htype)]
  split_ifs
  · obtain ⟨b, hb⟩ := Option.isSome_iff_exists.mp
      (hroom (min (((fs.nodes i).size + data.length) % 2 ^ 32) ramfsMaxData))
    rw [hb]
    exact Int.natCast_nonneg _
  · exact Int.natCast_nonneg _

/-- A file that is written holds the data. -/
theorem holdsFile_storeFile (hs : fs.Sound) (hroom : ∀ n, (a.kmalloc n).isSome) {i : Fin 64}
    (hfind : fs.find path = some i) (htype : (fs.nodes i).type = .file) (data : List UInt8) :
    (fs.storeFile a i data).2.Sound ∧ (fs.storeFile a i data).2.cwd = fs.cwd ∧
      (fs.storeFile a i data).2.HoldsFile path (some (data.take ramfsMaxData)) := by
  have hlinks := @sameLinks_storeFile fs a i data
  have hcwd := @storeFile_cwd fs a i data
  obtain ⟨hbuffers, hcontents⟩ := hs.buffers.storeFile (storeFile_ok hroom htype data)
  refine ⟨⟨hlinks.named hcwd hs.toNamed, hbuffers⟩, hcwd, i, ?_, ?_, ?_⟩
  · rw [hlinks.find_eq hcwd, hfind]
  · rw [(hlinks i).2.2.1, htype]
  · rw [hcontents, if_pos rfl]

/-- A write makes the file if it is not there. -/
theorem HoldsFile.writeNode {c : Option (List UInt8)} (hs : fs.Sound) (hpath : fs.IsFilePath path)
    (hroom : ∀ n, (a.kmalloc n).isSome) (h : fs.HoldsFile path c) (data : List UInt8) :
    (fs.writeNode a path data).2.Sound ∧ (fs.writeNode a path data).2.cwd = fs.cwd ∧
      (fs.writeNode a path data).2.HoldsFile path (some (data.take ramfsMaxData)) := by
  unfold Ramfs.writeNode
  cases c with
  | some bytes =>
    obtain ⟨i, hfind, htype, -⟩ := h
    rw [hfind]
    exact holdsFile_storeFile hs hroom hfind htype data
  | none =>
    obtain ⟨hnone, ⟨i, fs₁⟩, hcreate⟩ := h
    rw [hnone]
    dsimp only
    rw [hcreate]
    obtain ⟨-, hfind⟩ := hs.toNamed.find_created hpath.nameFits hpath.proper hcreate
    have hs₁ : fs₁.Sound := ⟨hs.toNamed.createNode hcreate, (hs.buffers.createNode hcreate).1⟩
    obtain ⟨p, -, -, -, -, -, -, rfl⟩ := createNode_ok hcreate
    refine holdsFile_storeFile hs₁ hroom hfind ?_ data
    rw [setNode_same]

/-- **A file is a cell**: after a write it holds the data, and after an append what it held and the
data. -/
theorem HoldsFile.exec {c : Option (List UInt8)} (hs : fs.Sound) (hpath : fs.IsFilePath path)
    (hroom : ∀ n, (a.kmalloc n).isSome) (h : fs.HoldsFile path c) (append : Bool)
    (hdata : data.length ≤ ramfsMaxData) {fs' : Ramfs}
    (heq : fs.exec ⟨m, a, if append then .append path data else .write path data⟩ = fs') :
    fs'.Sound ∧ fs'.cwd = fs.cwd ∧
      fs'.HoldsFile path
        (some (((if append then c.getD [] else []) ++ data).take ramfsMaxData)) := by
  have hwrite := h.writeNode hs hpath hroom data
  rw [← hpath.plain.write (m := m)] at hwrite
  cases append with
  | false =>
    subst heq
    exact hwrite
  | true =>
    have happend : (fs.append m a path data).after fs = fs' := heq
    unfold Ramfs.append at happend
    rw [if_pos rfl]
    cases c with
    | none =>
      rw [h.1] at happend
      subst happend
      exact hwrite
    | some bytes =>
      obtain ⟨i, hfind, htype, hcontents⟩ := h
      rw [hfind] at happend
      subst happend
      have hlinks := @sameLinks_extendFile fs a i data
      have hcwd := @extendFile_cwd fs a i data
      obtain ⟨hbuffers, hextended⟩ := hs.buffers.extendFile (hs.toNamed.find_active hfind) hdata
        (extendFile_ok hroom htype data)
      refine ⟨⟨hlinks.named hcwd hs.toNamed, hbuffers⟩, hcwd, i, ?_, ?_, ?_⟩
      · exact (hlinks.find_eq hcwd path).trans hfind
      · exact (hlinks i).2.2.1.trans htype
      · rw [Option.getD_some, ← hcontents]
        exact (hextended i).trans (if_pos rfl)

end Ramfs

/-! ## The hook -/

namespace Terminal

/-- The terminal with another hook. -/
def withHook (hook : Option (UInt8 → List UInt8 → List UInt8)) (x : List UInt8)
    (t : Terminal (List UInt8)) : Terminal (List UInt8) := { t with outputHook := hook, hooked := x }

variable {t : Terminal (List UInt8)} {hook : UInt8 → List UInt8 → List UInt8}
  {k : Option (UInt8 → List UInt8 → List UInt8)} {x : List UInt8}

theorem updateCursor_withHook (t : Terminal (List UInt8)) :
    (t.withHook k x).updateCursor = t.updateCursor.withHook k x := rfl

theorem endScreen_withHook (t : Terminal (List UInt8)) :
    (t.withHook k x).endScreen = t.endScreen.withHook k x := by
  have hrow : (t.withHook k x).termRow = t.termRow := rfl
  unfold endScreen
  rw [hrow]
  split_ifs
  · rfl
  · rfl

theorem endRow_withHook (t : Terminal (List UInt8)) :
    (t.withHook k x).endRow = t.endRow.withHook k x := by
  have hcol : (t.withHook k x).termCol = t.termCol := rfl
  unfold endRow
  rw [hcol]
  split_ifs
  · rfl
  · rfl

theorem place_withHook (t : Terminal (List UInt8)) (c : UInt8) :
    (t.withHook k x).place c = (t.place c).withHook k x := by
  unfold place
  split_ifs <;> rfl

/-- `terminal_putchar` without the call of the hook. -/
def draw (c : UInt8) (t : Terminal (List UInt8)) : Terminal (List UInt8) :=
  updateCursor (endScreen (endRow (place c t)))

theorem draw_withHook (t : Terminal (List UInt8)) (c : UInt8) :
    draw c (t.withHook k x) = (draw c t).withHook k x := by
  unfold draw
  rw [place_withHook, endRow_withHook, endScreen_withHook, updateCursor_withHook]

theorem backspace_withHook (t : Terminal (List UInt8)) :
    (t.withHook k x).backspace = t.backspace.withHook k x := by
  have hcol : (t.withHook k x).termCol = t.termCol := rfl
  have hrow : (t.withHook k x).termRow = t.termRow := rfl
  unfold backspace
  rw [hcol, hrow]
  split_ifs
  · rfl
  · rfl
  · rfl

theorem withHook_of_none (h : t.outputHook = none) : t.withHook none t.hooked = t := by
  rw [← h]
  rfl

/-- Without a hook the character is drawn. -/
theorem putchar_of_none (h : t.outputHook = none) (c : UInt8) : t.putchar c = draw c t := by
  unfold putchar callHook
  rw [h]
  rfl

end Terminal

/-- What an operation gives to the hook. -/
def TerminalOp.printed : TerminalOp → List UInt8
  | .putchar c => [c]
  | .backspace => []
  | .clear => []
  | .setColor _ => []

section

variable {t : Terminal (List UInt8)}

/-- **One operation** does to the terminal what it does without a hook, and the hook gets what it
prints. -/
theorem TerminalOp.run_withHook (hook : UInt8 → List UInt8 → List UInt8) (x : List UInt8)
    (h : t.outputHook = none) (op : TerminalOp) :
    (op.run t).outputHook = none ∧
      op.run (t.withHook (some hook) x) =
        (op.run t).withHook (some hook) (op.printed.foldl (fun x c => hook c x) x) := by
  have hnone := Terminal.withHook_of_none h
  cases op with
  | putchar c =>
    have hdraw := Terminal.putchar_of_none h c
    constructor
    · show (t.putchar c).outputHook = none
      rw [hdraw, ← hnone, Terminal.draw_withHook]
      rfl
    · show Terminal.draw c (t.withHook (some hook) (hook c x)) = (t.putchar c).withHook _ _
      rw [Terminal.draw_withHook, hdraw]
      rfl
  | backspace =>
    constructor
    · show t.backspace.outputHook = none
      rw [← hnone, Terminal.backspace_withHook]
      rfl
    · exact Terminal.backspace_withHook t
  | clear => exact ⟨h, rfl⟩
  | setColor color => exact ⟨h, rfl⟩

/-- What operations print. -/
def printedText (ops : List TerminalOp) : List UInt8 := ops.flatMap TerminalOp.printed

/-- **A run** of operations under a hook. -/
theorem run_withHook (hook : UInt8 → List UInt8 → List UInt8) (h : t.outputHook = none)
    (ops : List TerminalOp) (x : List UInt8) :
    (ops.foldl TerminalOp.run t).outputHook = none ∧
      ops.foldl TerminalOp.run (t.withHook (some hook) x) =
        (ops.foldl TerminalOp.run t).withHook (some hook)
          ((printedText ops).foldl (fun x c => hook c x) x) := by
  induction ops generalizing t x with
  | nil => exact ⟨h, rfl⟩
  | cons op ops ih =>
    obtain ⟨hnone, hstep⟩ := op.run_withHook hook x h
    obtain ⟨hend, hrun⟩ := ih hnone (op.printed.foldl (fun x c => hook c x) x)
    refine ⟨hend, ?_⟩
    rw [List.foldl_cons, List.foldl_cons, hstep, hrun]
    unfold printedText
    rw [List.flatMap_cons, List.foldl_append]

end

/-- The buffer takes the first characters. -/
theorem foldl_captureHook (text output : List UInt8) (h : output.length ≤ outputBufSize - 1) :
    text.foldl (fun output c => captureHook c output) output =
      (output ++ text).take (outputBufSize - 1) := by
  induction text generalizing output with
  | nil => rw [List.foldl_nil, List.append_nil, List.take_of_length_le h]
  | cons c text ih =>
    rw [List.foldl_cons]
    by_cases hroom : output.length < outputBufSize - 1
    · have hstep : captureHook c output = output ++ [c] := if_pos hroom
      have hle : (output ++ [c]).length ≤ outputBufSize - 1 := by
        rw [List.length_append, List.length_singleton]
        exact hroom
      rw [hstep, ih _ hle, List.append_assoc]
      rfl
    · have hstep : captureHook c output = output := if_neg hroom
      have hfull : output.length = outputBufSize - 1 := le_antisymm h (Nat.le_of_not_lt hroom)
      rw [hstep, ih _ h, List.take_append_of_le_length hfull.ge, List.take_append_of_le_length hfull.ge]

variable {ω : Type*} {s : Shell ω} {table : CommandTable ω}

/-- What a command leaves in the buffer. -/
def Shell.output (work : Work ω) (s : Shell ω) : List UInt8 :=
  (printedText (work s.terminal.termColor s.rest).1).take (outputBufSize - 1)

/-- **A command that is captured** does what it does otherwise, on the screen too, and the buffer has
what it printed. -/
theorem Shell.capture_eq (h : s.terminal.outputHook = none) (work : Work ω) :
    s.capture work =
      { s.perform work with
        terminal := (s.perform work).terminal.withHook none (s.output work) } := by
  obtain ⟨-, hrun⟩ := run_withHook captureHook h (work s.terminal.termColor s.rest).1 []
  have hterminal : (s.capture work).terminal =
      ((work s.terminal.termColor s.rest).1.foldl TerminalOp.run
        (s.terminal.withHook (some captureHook) [])).stopCapture := rfl
  have heq : (s.capture work).terminal =
      (s.perform work).terminal.withHook none (s.output work) := by
    rw [hterminal, hrun, foldl_captureHook _ _ (Nat.zero_le _)]
    rfl
  have hrest : (s.capture work).rest = (s.perform work).rest := rfl
  rw [← heq]
  rfl

/-! ## Lines with a redirection -/

/-- The line with this redirection. -/
def Redirection.line (r : Redirection) : List UInt8 :=
  r.command ++ greater :: ((if r.append then [greater] else []) ++ blank :: r.file)

/-- It can be typed: neither part has a `>` or a `$`, the command has no backslash at its end and the
name of the file no space at either. -/
structure Redirection.Typed (r : Redirection) : Prop where
  short : r.line.length < cmdMax
  command : r.command ≠ [] ∧ greater ∉ r.command ∧ r.command.getLast? ≠ some backslash
  file : r.file ≠ [] ∧ r.file.head? ≠ some blank ∧ r.file.getLast? ≠ some blank
  plain : dollar ∉ r.command ∧ dollar ∉ r.file

/-- Without a dollar sign a line is not changed by the environment. -/
theorem commandText_of_notMem (env : Env) {line : List UInt8} (h : dollar ∉ line)
    (hshort : line.length < cmdMax) : commandText env line = line := by
  have hexpand := expandedText_append_of_notMem env h []
  rw [List.append_nil, expandedText_nil, List.append_nil] at hexpand
  rw [commandText_eq, hexpand]
  exact List.take_of_length_le (Nat.le_sub_one_of_lt hshort)

theorem Redirection.Typed.notMem {r : Redirection} (h : r.Typed) : dollar ∉ r.line := by
  obtain ⟨hcommand, hfile⟩ := h.plain
  have hgreater : dollar ≠ greater := by decide
  have hblank : dollar ≠ blank := by decide
  unfold Redirection.line
  cases r.append <;> simp [hcommand, hfile, hgreater, hblank]

/-- A name without spaces at its ends is not trimmed. -/
theorem trimEnd_eq {file : List UInt8} (h : file.getLast? ≠ some blank) : trimEnd file = file := by
  cases file with
  | nil => rfl
  | cons c cs =>
    have hkeep : cs.rdropWhile (· == blank) = cs := by
      rw [List.rdropWhile_eq_self_iff]
      intro hne hblank
      refine h ?_
      rw [List.getLast?_cons, List.getLast?_eq_getLast_of_ne_nil hne]
      simpa using hblank
    rw [trimEnd, hkeep]

/-- **The parser finds the redirection** that a line is made with. -/
theorem Redirection.Typed.redirection_eq {r : Redirection} (h : r.Typed) :
    redirection r.line = some r := by
  obtain ⟨hne, hnot, hescape⟩ := h.command
  obtain ⟨-, hhead, hlast⟩ := h.file
  have hall : ∀ c ∈ r.command, (c != greater) = true := fun c hc =>
    bne_iff_ne.mpr fun heq => hnot (heq ▸ hc)
  have hstop : ¬ (greater != greater) = true := by decide
  have hname : (blank :: r.file).dropWhile (· == blank) = r.file := by
    rw [List.dropWhile_cons_of_pos (p := (· == blank)) (beq_self_eq_true blank)]
    cases hfile : r.file with
    | nil => rfl
    | cons c cs =>
      rw [hfile] at hhead
      have hc : ¬ (c == blank) = true := fun heq => hhead (congrArg some (beq_iff_eq.mp heq))
      exact List.dropWhile_cons_of_neg hc
  unfold redirection Redirection.line
  dsimp only
  rw [List.takeWhile_append_of_pos hall, List.dropWhile_append_of_pos hall,
    List.takeWhile_cons_of_neg (p := (· != greater)) hstop,
    List.dropWhile_cons_of_neg (p := (· != greater)) hstop, List.append_nil]
  dsimp only
  rw [if_pos ⟨hne, hescape⟩]
  obtain ⟨command, append, file⟩ := r
  cases append with
  | false =>
    have htext : (if false = true then [greater] else []) ++ blank :: file = blank :: file := rfl
    have hmark : (some blank == some greater) = false := by decide
    dsimp only at hname hlast ⊢
    rw [htext, List.head?_cons, hmark, if_neg Bool.false_ne_true, hname, trimEnd_eq hlast]
  | true =>
    have htext : (if true = true then [greater] else []) ++ blank :: file =
        greater :: blank :: file := rfl
    have hmark : (some greater == some greater) = true := by decide
    dsimp only at hname hlast ⊢
    rw [htext, List.head?_cons, hmark, if_pos rfl, List.tail_cons, hname, trimEnd_eq hlast]

/-- **A line with a redirection is executed** as one. -/
theorem executeCommand_line {r : Redirection} (hr : r.Typed) (s : Shell ω) :
    executeCommand table r.line s = some (s.redirect table r) := by
  have hexpanded := commandText_of_notMem s.rest.env hr.notMem hr.short
  unfold executeCommand
  dsimp only
  rw [hexpanded, hr.redirection_eq]

/-- The command does what it does without the redirection, and what it printed is stored. -/
theorem Shell.redirect_eq (table : CommandTable ω) (h : s.terminal.outputHook = none)
    (r : Redirection) :
    (s.redirect table r).terminal = (s.perform (execSingle table r.command)).terminal.withHook none
        (s.output (execSingle table r.command)) ∧
      (s.redirect table r).rest = (s.perform (execSingle table r.command)).rest.store r.append r.file
        (s.output (execSingle table r.command)) := by
  unfold Shell.redirect
  dsimp only
  rw [Shell.capture_eq h]
  exact ⟨rfl, rfl⟩

/-! ## Files that grow line by line -/

/-- Lines one after another. -/
def executeLines (table : CommandTable ω) (lines : List (List UInt8)) (s : Shell ω) :
    Option (Shell ω) := lines.foldlM (fun s line => executeCommand table line s) s

/-- The command changes no file, and takes nothing from the heap for good. -/
def LeavesFiles (table : CommandTable ω) (command : List UInt8) : Prop :=
  ∀ color w, (execSingle table command color w).2.fs = w.fs ∧
    (execSingle table command color w).2.allocator = w.allocator

/-- What a file should hold after commands whose output goes to it: the output of the last that
replaces it, and of those behind that one. -/
def collected (table : CommandTable ω) :
    List Redirection → Shell ω → Option (List UInt8) → Option (List UInt8)
  | [], _, c => c
  | r :: rs, s, c =>
    collected table rs (s.redirect table r)
      (some (((if r.append then c.getD [] else []) ++ s.output (execSingle table r.command)).take
        ramfsMaxData))

/-- The shell between two lines, with room on the heap, where the path names a file. -/
structure Shell.Ready (s : Shell ω) (path : List UInt8) : Prop where
  noHook : s.terminal.outputHook = none
  sound : s.rest.fs.Sound
  isPath : s.rest.fs.IsFilePath path
  room : ∀ n, (s.rest.allocator.kmalloc n).isSome

/-- **One line** stores the output of its command in the file. -/
theorem Shell.Ready.redirect {f : List UInt8} {c : Option (List UInt8)} (h : s.Ready f)
    (hc : s.rest.fs.HoldsFile f c) {r : Redirection} (hfile : r.file = f)
    (hleaves : LeavesFiles table r.command) :
    (s.redirect table r).Ready f ∧
      (s.redirect table r).rest.fs.HoldsFile f
        (some (((if r.append then c.getD [] else []) ++ s.output (execSingle table r.command)).take
          ramfsMaxData)) := by
  obtain ⟨hterminal, hrest⟩ := Shell.redirect_eq table h.noHook r
  obtain ⟨hfs, halloc⟩ := hleaves s.terminal.termColor s.rest
  have hshort : (s.output (execSingle table r.command)).length ≤ ramfsMaxData :=
    le_trans (List.length_take_le _ _) (by decide)
  have hstored : s.rest.fs.exec ⟨(s.perform (execSingle table r.command)).rest.mounts,
      s.rest.allocator, if r.append then .append f (s.output (execSingle table r.command))
        else .write f (s.output (execSingle table r.command))⟩ = (s.redirect table r).rest.fs := by
    rw [hrest, ← hfile, ← hfs, ← halloc]
    rfl
  obtain ⟨hsound, hcwd, hholds⟩ := hc.exec h.sound h.isPath h.room r.append hshort hstored
  refine ⟨⟨?_, hsound, h.isPath.of_cwd hcwd, ?_⟩, hholds⟩
  · rw [hterminal]
    rfl
  · rw [hrest]
    show ∀ n, (((execSingle table r.command s.terminal.termColor s.rest).2).allocator.kmalloc n).isSome
    rw [halloc]
    exact h.room

/-- Every command prints its first argument. -/
def echoTable : CommandTable Unit where
  func _ := some fun argv _ w => ((argv.getD 1 []).map .putchar, w)
  powerReboot _ w := ([], w)
  powerShutdown _ w := ([], w)
  pagerDisplay _ _ w := ([], w)

theorem leavesFiles_echoTable (command : List UInt8) : LeavesFiles echoTable command := by
  intro color w
  unfold execSingle
  split
  · exact ⟨rfl, rfl⟩
  · split_ifs
    · exact ⟨rfl, rfl⟩
    · exact ⟨rfl, rfl⟩
    · split
      · exact ⟨rfl, rfl⟩
      · exact ⟨rfl, rfl⟩

/-- An empty screen and an empty file system. -/
def freshShell : Shell Unit where
  terminal := ⟨fun _ => 0, 0, 0, 7, 0, 0, none, []⟩
  rest :=
    { env := envInit
      fs := Ramfs.init
      mounts := ⟨none, none⟩
      allocator := ⟨fun n => some (List.replicate n 0), Allocator.length_of_zeros⟩
      other := () }

/-- The path `/f`. -/
def pathF : List UInt8 := [0x2F, 0x66]

theorem ready_freshShell : freshShell.Ready pathF where
  noHook := rfl
  sound := ⟨Ramfs.named_init, Ramfs.buffers_init⟩
  isPath := by
    constructor
    · with_unfolding_all decide
    · decide
    · decide
    · decide
    · with_unfolding_all decide
  room _ := rfl

theorem holdsFile_freshShell : freshShell.rest.fs.HoldsFile pathF none := by
  constructor
  · decide
  · exact ⟨_, rfl⟩

/-- `echo a > /f` and `echo b >> /f`. -/
def twoEchoes : List Redirection :=
  [⟨[0x65, 0x63, 0x68, 0x6F, 0x20, 0x61, 0x20], false, pathF⟩,
    ⟨[0x65, 0x63, 0x68, 0x6F, 0x20, 0x62, 0x20], true, pathF⟩]

theorem typed_twoEchoes : ∀ r ∈ twoEchoes, r.Typed := by
  intro r hr
  fin_cases hr
  · exact ⟨by decide, by decide, by decide, by decide⟩
  · exact ⟨by decide, by decide, by decide, by decide⟩

example : collected echoTable twoEchoes freshShell none = some [0x61, 0x62] := by
  with_unfolding_all decide

/-! ## Pipes -/

/-- The `grep` of a pipeline prints the lines with the pattern, in as many rounds as there are
characters. -/
theorem grepLoop_eq {pattern : List UInt8} (hne : pattern ≠ []) (text : List UInt8) :
    ∀ n, text.length < n → grepLoop pattern (fun _ line => some (line ++ [newline])) n text =
      some (selectedLines pattern text) := by
  have hline : ∀ line : List UInt8,
      (if foundIn pattern line then some (line ++ [newline]) else some []) =
        some (TextLines.ofLines newline ([line].filter (pattern <:+: ·))) := by
    intro line
    by_cases hfound : foundIn pattern line = true
    · rw [if_pos hfound, List.filter_cons_of_pos (by simpa using (foundIn_iff hne).mp hfound),
        List.filter_nil, TextLines.ofLines_cons, TextLines.ofLines_nil]
    · rw [if_neg hfound, List.filter_cons_of_neg (by simpa using (foundIn_iff hne).not.mp hfound),
        List.filter_nil, TextLines.ofLines_nil]
  induction text using TextLines.lines_induction (e := newline) with
  | nil =>
    intro n hn
    obtain ⟨n, rfl⟩ := Nat.exists_eq_add_of_lt hn
    exact grepLoop_nil _
  | last line hnot hne' =>
    intro n hn
    obtain ⟨n, rfl⟩ : ∃ m, n = m + 1 := ⟨n - 1, by omega⟩
    rw [grepLoop_last hnot hne', hline]
    unfold selectedLines
    rw [TextLines.linesOf_notMem hnot hne']
  | cons line rest hnot ih =>
    intro n hn
    rw [List.length_append, List.length_cons] at hn
    obtain ⟨n, rfl⟩ : ∃ m, n = m + 1 := ⟨n - 1, by omega⟩
    rw [grepLoop_cons hnot, hline, Option.bind_some, ih n (by omega), Option.map_some]
    have hcons : line :: TextLines.linesOf newline rest =
      [line] ++ TextLines.linesOf newline rest := rfl
    unfold selectedLines
    rw [TextLines.linesOf_append_cons hnot, hcons, List.filter_append, TextLines.ofLines_append]

/-- The two sides of `echo a | grep a`. -/
def echoA : List UInt8 := [0x65, 0x63, 0x68, 0x6F, 0x20, 0x61, 0x20]

def grepA : List UInt8 := [0x20, 0x67, 0x72, 0x65, 0x70, 0x20, 0x61]

end Microkernel
