/-
# The editor

`src/editor.c` without its drawing.  The array `lines` is one area of memory: a column behind the end
of a line is a place in the next line, and an access outside of the array is a fault.  The cursor is
never negative, so its coordinates are natural numbers.
-/
import Microkernel.CStrings
import Microkernel.Keyboard
import Microkernel.Ramfs

open Buffer

namespace Microkernel

/-- `EDITOR_MAX_LINES`. -/
def editorMaxLines : ℕ := 100

/-- `EDITOR_LINE_LEN`. -/
def editorLineLen : ℕ := 80

/-- `EDIT_ROWS`. -/
def editRows : ℕ := 25 - 2

/-- The static variables of the editor, but for the scroll offset, which only the drawing uses. -/
structure Editor where
  mem : Memory
  numLines : ℕ
  cursorRow : ℕ
  cursorCol : ℕ
  editFilename : List UInt8
  modified : Bool

/-- The array `lines`. -/
def linesBuffer (mem : Memory) : Buffer := ⟨editorMaxLines * editorLineLen, mem⟩

def Editor.lines (s : Editor) : Buffer := linesBuffer s.mem

/-- The place of a line in the array. -/
def lineAddr (row : ℕ) : ℕ := editorLineLen * row

/-! ## Editing -/

/-- `editor_insert_char`. -/
def editorInsertChar (c : UInt8) (s : Editor) : Access Editor :=
  if editorMaxLines ≤ s.cursorRow then .ok s
  else
    (s.lines.strlen (lineAddr s.cursorRow)).bind fun len =>
      if editorLineLen - 2 ≤ len then .ok s
      else
        let a := lineAddr s.cursorRow + s.cursorCol
        (moveUpLoop a 1 (len + 1 - s.cursorCol) s.lines).bind fun b =>
          (b.storeBytes a [c]).bind fun b =>
            .ok { s with mem := b.mem, cursorCol := s.cursorCol + 1, modified := true }

/-- The loop that copies each of `k` lines from `i` on from the line below it. -/
def shiftUp : ℕ → ℕ → Buffer → Access Buffer
  | 0, _, b => .ok b
  | k + 1, i, b => (strcpy (lineAddr i) (lineAddr (i + 1)) b).bind (shiftUp k (i + 1))

/-- The loop that copies each of `k` lines from `i` up from the line above it. -/
def shiftDown : ℕ → ℕ → Buffer → Access Buffer
  | 0, _, b => .ok b
  | k + 1, i, b => (strcpy (lineAddr i) (lineAddr (i - 1)) b).bind (shiftDown k (i - 1))

/-- The lines behind `row` move up, and the last one becomes empty. -/
def removeLine (numLines row : ℕ) (b : Buffer) : Access Buffer :=
  (shiftUp (numLines - 1 - row) row b).bind fun b => b.storeBytes (lineAddr (numLines - 1)) [0]

/-- `editor_backspace`. -/
def editorBackspace (s : Editor) : Access Editor :=
  if 0 < s.cursorCol then
    (s.lines.strlen (lineAddr s.cursorRow)).bind fun len =>
      let a := lineAddr s.cursorRow + s.cursorCol
      (memcpyLoop (a - 1) a (len - (s.cursorCol - 1)) 0 s.lines).bind fun b =>
        .ok { s with mem := b.mem, cursorCol := s.cursorCol - 1, modified := true }
  else if 0 < s.cursorRow then
    (s.lines.strlen (lineAddr (s.cursorRow - 1))).bind fun prevLen =>
      (s.lines.strlen (lineAddr s.cursorRow)).bind fun curLen =>
        if prevLen + curLen < editorLineLen - 1 then
          (strcat (lineAddr (s.cursorRow - 1)) (lineAddr s.cursorRow) s.lines).bind fun b =>
            (removeLine s.numLines s.cursorRow b).bind fun b =>
              .ok { s with
                mem := b.mem
                numLines := s.numLines - 1
                cursorRow := s.cursorRow - 1
                cursorCol := prevLen
                modified := true }
        else .ok s
  else .ok s

/-- `editor_enter`; the length of the line is taken but not used. -/
def editorEnter (s : Editor) : Access Editor :=
  if editorMaxLines ≤ s.numLines then .ok s
  else
    let a := lineAddr s.cursorRow + s.cursorCol
    (shiftDown (s.numLines - (s.cursorRow + 1)) s.numLines s.lines).bind fun b =>
      (b.strlen (lineAddr s.cursorRow)).bind fun _ =>
        (strcpy (lineAddr (s.cursorRow + 1)) a b).bind fun b =>
          (b.storeBytes a [0]).bind fun b =>
            .ok { s with
              mem := b.mem
              numLines := s.numLines + 1
              cursorRow := s.cursorRow + 1
              cursorCol := 0
              modified := true }

/-- `editor_cut_line`: the line is copied to `cut_buffer` first, which has the size of a line and is
not used again. -/
def editorCutLine (s : Editor) : Access Editor :=
  (s.lines.strlen (lineAddr s.cursorRow)).bind fun len =>
    if editorLineLen ≤ len then .error .write
    else if 1 < s.numLines then
      (removeLine s.numLines s.cursorRow s.lines).bind fun b =>
        .ok { s with
          mem := b.mem
          numLines := s.numLines - 1
          cursorRow :=
            if s.numLines - 1 ≤ s.cursorRow ∧ 0 < s.cursorRow then s.cursorRow - 1 else s.cursorRow
          cursorCol := 0
          modified := true }
    else
      (s.lines.storeBytes (lineAddr 0) [0]).bind fun b =>
        .ok { s with mem := b.mem, cursorCol := 0, modified := true }

/-! ## Files -/

/-- The loop of `editor_save` over `k` lines from `i` on, with the bytes put into `buf` so far. -/
def saveLoop (b : Buffer) : ℕ → ℕ → List UInt8 → Access (List UInt8)
  | 0, _, buf => .ok buf
  | k + 1, i, buf =>
    if buf.length < ramfsMaxData - 2 then
      (b.strlen (lineAddr i)).bind fun len =>
        if ramfsMaxData ≤ buf.length + len + 1 then .ok buf
        else
          (b.bytes (lineAddr i) len).bind fun line =>
            saveLoop b k (i + 1) (buf ++ line ++ [newline])
    else .ok buf

/-- `editor_save`: the path and the bytes that it gives to `ramfs_write`. -/
def editorSave (s : Editor) : Access (List UInt8 × List UInt8) :=
  (saveLoop s.lines s.numLines 0 []).map fun buf => (s.editFilename, buf)

/-- The loop of `editor_open` over the bytes of a file, with the number of whole lines and the length
of the line that is not. -/
def loadLoop : List UInt8 → Buffer → ℕ → ℕ → Access (Buffer × ℕ × ℕ)
  | [], b, numLines, col => .ok (b, numLines, col)
  | c :: data, b, numLines, col =>
    if numLines < editorMaxLines then
      if c = newline then
        (b.storeBytes (lineAddr numLines + col) [0]).bind fun b =>
          loadLoop data b (numLines + 1) 0
      else if col < editorLineLen - 1 then
        (b.storeBytes (lineAddr numLines + col) [c]).bind fun b =>
          loadLoop data b numLines (col + 1)
      else loadLoop data b numLines col
    else .ok (b, numLines, col)

/-- The editor without a text: `lines` is filled with zeros, and the path is copied by `strncpy` to
a buffer of 64 bytes whose last one stays zero. -/
def Editor.empty (filename : List UInt8) : Editor where
  mem := fun _ => 0
  numLines := 1
  cursorRow := 0
  cursorCol := 0
  editFilename := filename.take 63
  modified := false

/-- `editor_open` up to its loop, with what `ramfs_read` gives. -/
def editorOpen (filename : List UInt8) (file : Option (List UInt8)) : Access Editor :=
  match file with
  | none => .ok (Editor.empty filename)
  | some [] => .ok (Editor.empty filename)
  | some data =>
    (loadLoop data (Editor.empty filename).lines 0 0).bind fun (b, numLines, col) =>
      if 0 < col ∨ numLines = 0 then
        (b.storeBytes (lineAddr numLines + col) [0]).bind fun b =>
          .ok { Editor.empty filename with mem := b.mem, numLines := numLines + 1 }
      else .ok { Editor.empty filename with mem := b.mem, numLines := numLines }

/-! ## Keys -/

/-- Ctrl+Q, which leaves the editor. -/
def ctrlQ : UInt8 := 17

/-- Ctrl+S. -/
def ctrlS : UInt8 := 19

/-- Ctrl+K. -/
def ctrlK : UInt8 := 11

/-- To a line above or below: the column is not behind the end of the line. -/
def editorMoveTo (row : ℕ) (s : Editor) : Access Editor :=
  (s.lines.strlen (lineAddr row)).map fun len =>
    { s with cursorRow := row, cursorCol := min s.cursorCol len }

/-- The line that Page Up leads to. -/
def Editor.pageUp (s : Editor) : ℕ := s.cursorRow - editRows

/-- The line that Page Down leads to. -/
def Editor.pageDown (s : Editor) : ℕ :=
  if s.numLines ≤ s.cursorRow + editRows then s.numLines - 1 else s.cursorRow + editRows

/-- A round of the loop of `editor_open` with a key that is not Ctrl+Q. -/
def editorKey (c : UInt8) (s : Editor) : Access Editor :=
  if c = ctrlS then (editorSave s).map fun _ => { s with modified := false }
  else if c = ctrlK then editorCutLine s
  else if c = newline then editorEnter s
  else if c = backspace then editorBackspace s
  else if c = keyUp ∧ 0 < s.cursorRow then editorMoveTo (s.cursorRow - 1) s
  else if c = keyDown ∧ s.cursorRow < s.numLines - 1 then editorMoveTo (s.cursorRow + 1) s
  else if c = keyLeft then
    if 0 < s.cursorCol then .ok { s with cursorCol := s.cursorCol - 1 }
    else if 0 < s.cursorRow then
      (s.lines.strlen (lineAddr (s.cursorRow - 1))).map fun len =>
        { s with cursorRow := s.cursorRow - 1, cursorCol := len }
    else .ok s
  else if c = keyRight then
    (s.lines.strlen (lineAddr s.cursorRow)).map fun len =>
      if s.cursorCol < len then { s with cursorCol := s.cursorCol + 1 }
      else if s.cursorRow < s.numLines - 1 then
        { s with cursorRow := s.cursorRow + 1, cursorCol := 0 }
      else s
  else if c = keyHome then .ok { s with cursorCol := 0 }
  else if c = keyEnd then
    (s.lines.strlen (lineAddr s.cursorRow)).map fun len => { s with cursorCol := len }
  else if c = keyPgup then .ok { s with cursorRow := s.pageUp }
  else if c = keyPgdown then .ok { s with cursorRow := s.pageDown }
  else if isPrintable c then editorInsertChar c s
  else if c = tab then
    (editorInsertChar blank s).bind fun s =>
      (editorInsertChar blank s).bind fun s =>
        (editorInsertChar blank s).bind fun s => editorInsertChar blank s
  else .ok s

/-- The state after a sequence of keys; Ctrl+Q leaves the editor as it is. -/
def editorRun (s : Editor) : List UInt8 → Access Editor
  | [] => .ok s
  | c :: keys => if c = ctrlQ then .ok s else (editorKey c s).bind fun s => editorRun s keys

/-- `editor_open` with these keys. -/
def editorSession (filename : List UInt8) (file : Option (List UInt8)) (keys : List UInt8) :
    Access Editor :=
  (editorOpen filename file).bind fun s => editorRun s keys

end Microkernel
