/-
# The window manager

The functions of `gui.c` that move windows between the slots of the table `windows`:
opening, raising and closing a window, the windows of ELF processes, and `handle_mouse`.
The active windows are drawn from index 0 up, so the highest index is in front.

Coordinates are integers.  Indices that may be `-1` are options.  Of a window the parts that
only its application draws are left out.  Four things are history: the number of a window
(`serial`), the count of the windows opened, the set of the numbers of the windows that were
opened and not closed, and the number of the window whose title bar was grabbed.
-/
import Mathlib

namespace Microkernel

/-! ## The state -/

/-- An index of the window table; `MAX_WINDOWS` is 8. -/
abbrev WinIdx := Fin 8

/-- `app_type_t`. -/
inductive AppType where
  | none
  | about
  | calc
  | files
  | notepad
  | imgview
  | gl3d
  | term
  | elfGl
  deriving DecidableEq

/-- `window_t`; `ownerPid` is `elf_gl.owner_pid`. -/
structure Window where
  active : Bool
  title : List UInt8
  x : ℤ
  y : ℤ
  w : ℤ
  h : ℤ
  app : AppType
  focused : Bool
  ownerPid : UInt32
  /-- History: the number of the window. -/
  serial : ℕ

/-- A window of zeros. -/
def Window.zero : Window := ⟨false, [], 0, 0, 0, 0, .none, false, 0, 0⟩

/-- `elf_gui_slot_t`, less the frame buffer; `MAX_ELF_GUI` is 4. -/
structure ElfGuiSlot where
  active : Bool
  pid : UInt32
  winIdx : Option WinIdx

/-- The static variables of the window manager. -/
structure Gui where
  gfxW : ℤ
  gfxH : ℤ
  windows : WinIdx → Window
  focusIdx : Option WinIdx
  startMenuOpen : Bool
  guiRunning : Bool
  dragging : Bool
  dragIdx : Option WinIdx
  dragOx : ℤ
  dragOy : ℤ
  elfGuiSlots : Fin 4 → ElfGuiSlot
  opened : ℕ
  openSet : Finset ℕ
  grabbed : ℕ

def taskbarH : ℤ := 30
def titlebarH : ℤ := 25
def startBtnW : ℤ := 90
def smX : ℤ := 2
def smW : ℤ := 200
def smItemH : ℤ := 24
def menuCount : ℤ := 8
def smBannerH : ℤ := 48
def smBottomH : ℤ := 32
def smBodyH : ℤ := menuCount * smItemH + 8
def smH : ℤ := smBannerH + smBodyH + smBottomH

namespace Gui

/-- The state when `gui_run` enters its loop. -/
def start (gfxW gfxH : ℤ) : Gui where
  gfxW := gfxW
  gfxH := gfxH
  windows := fun _ => Window.zero
  focusIdx := none
  startMenuOpen := false
  guiRunning := true
  dragging := false
  dragIdx := none
  dragOx := 0
  dragOy := 0
  elfGuiSlots := fun _ => ⟨false, 0, none⟩
  opened := 0
  openSet := ∅
  grabbed := 0

variable (g : Gui)

/-! ## Opening, raising and closing -/

/-- The active window with the highest index, the result of the loops that count down. -/
def topActive (windows : WinIdx → Window) : Option WinIdx :=
  (List.finRange 8).reverse.find? fun i => (windows i).active

/-- `find_free_window`. -/
def findFreeWindow : Option WinIdx :=
  (List.finRange 8).find? fun i => !(g.windows i).active

/-- Give the focus to the active window with the highest index, and note its index. -/
def focusTop : Gui :=
  match topActive g.windows with
  | some i =>
    { g with
      windows := Function.update g.windows i { g.windows i with focused := true }
      focusIdx := some i }
  | none => { g with focusIdx := none }

/-- The index from which the loop of `bring_to_front` fills index `i`, when the window at
`idx` goes to the end. -/
def raisedFrom (idx i : WinIdx) : WinIdx :=
  if i < idx then i else if h : i.val + 1 < 8 then ⟨i.val + 1, h⟩ else idx

/-- `bring_to_front`. -/
def bringToFront (idx : WinIdx) : Gui :=
  if !(g.windows idx).active then g
  else
    { g with
      windows := fun i => { g.windows (raisedFrom idx i) with focused := false } }.focusTop

/-- `open_window`; the result is `focus_idx`, or `none` for `-1`. -/
def openWindow (title : List UInt8) (x y w h : ℤ) (app : AppType) : Gui × Option WinIdx :=
  match g.findFreeWindow with
  | none => (g, none)
  | some idx =>
    let win : Window :=
      { Window.zero with
        active := true
        title := title.take 39
        x := x
        y := y
        w := w
        h := h
        app := app
        serial := g.opened }
    let g := { g with
      windows := Function.update g.windows idx win
      opened := g.opened + 1
      openSet := insert g.opened g.openSet }
    let g := g.bringToFront idx
    (g, g.focusIdx)

/-- `close_window`. -/
def closeWindow (idx : WinIdx) : Gui :=
  { g with
    windows := Function.update g.windows idx { g.windows idx with active := false }
    openSet := if (g.windows idx).active then g.openSet.erase (g.windows idx).serial
      else g.openSet }.focusTop

/-! ## Windows of ELF processes -/

/-- The slot `gui_elf_win_open` fills. -/
def freeElfSlot : Option (Fin 4) :=
  (List.finRange 4).find? fun i => !(g.elfGuiSlots i).active

/-- `gui_elf_win_open` without the frame buffer; `name` is the name of the task, if it
exists.  The result tells whether it succeeded. -/
def guiElfWinOpen (pid : UInt32) (name : Option (List UInt8)) : Gui × Bool :=
  match g.freeElfSlot with
  | none => (g, false)
  | some si =>
    match g.openWindow "User App".toUTF8.toList 150 100 (320 + 14) (200 + titlebarH + 10)
        .elfGl with
    | (g, none) => (g, false)
    | (g, some idx) =>
      let win := { g.windows idx with ownerPid := pid }
      let win := match name with
        | some name => { win with title := name.take 39 }
        | none => win
      ({ g with
        windows := Function.update g.windows idx win
        elfGuiSlots := Function.update g.elfGuiSlots si ⟨true, pid, some idx⟩ }, true)

/-- The slot of a process. -/
def elfSlotOf (pid : UInt32) : Option (Fin 4) :=
  (List.finRange 4).find? fun i => (g.elfGuiSlots i).active && (g.elfGuiSlots i).pid == pid

/-- The slot of a process becomes free. -/
def freeElfSlotOf (pid : UInt32) : Gui :=
  match g.elfSlotOf pid with
  | none => g
  | some si =>
    { g with
      elfGuiSlots := Function.update g.elfGuiSlots si { g.elfGuiSlots si with active := false } }

/-- The window of a process. -/
def elfWindowOf (pid : UInt32) : Option WinIdx :=
  (List.finRange 8).find? fun i =>
    (g.windows i).active && (g.windows i).app == .elfGl && (g.windows i).ownerPid == pid

/-- `gui_elf_win_close` without the frame buffer. -/
def guiElfWinClose (pid : UInt32) : Gui :=
  match g.elfSlotOf pid with
  | none => g
  | some si =>
    let g := if (g.elfGuiSlots si).winIdx.isSome then
        match g.elfWindowOf pid with
        | some w => g.closeWindow w
        | none => g
      else g
    g.freeElfSlotOf pid

/-- `close_elf_gl_window`, the part that the window manager sees: the slot of the owner is
freed (and the owner is killed). -/
def closeElfGlWindow (idx : WinIdx) : Gui := g.freeElfSlotOf (g.windows idx).ownerPid

/-- One window of the clean-up loop of `render`: a window whose owner is dead is closed. -/
def cleanUp (dead : UInt32 → Bool) (i : WinIdx) : Gui :=
  if (g.windows i).active && (g.windows i).app == .elfGl && dead (g.windows i).ownerPid then
    (g.closeElfGlWindow i).closeWindow i
  else g

/-! ## The mouse -/

/-- A window that an application opens: its title, place and size. -/
structure NewWindow where
  title : List UInt8
  x : ℤ
  y : ℤ
  w : ℤ
  h : ℤ

/-- What `handle_mouse` reads.  `viewer` is the window that `click_files` opens for an image,
if the click is on one. -/
structure MouseInput where
  mx : ℤ
  my : ℤ
  lclick : Bool
  lheld : Bool
  viewer : Option NewWindow

/-- What `handle_start_click` does for an item of the menu. -/
def startMenuItem (item : ℤ) : Gui :=
  if item = 0 then (g.openWindow "Terminal".toUTF8.toList 60 30 520 380 .term).1
  else if item = 1 then (g.openWindow "Calculator".toUTF8.toList 220 80 195 185 .calc).1
  else if item = 2 then (g.openWindow "Untitled - Notepad".toUTF8.toList 80 30 440 360 .notepad).1
  else if item = 3 then (g.openWindow "My Computer".toUTF8.toList 150 50 280 340 .files).1
  else if item = 4 then
    (g.openWindow "3D Demo".toUTF8.toList 100 60 (384 + 14) (280 + titlebarH + 10) .gl3d).1
  else if item = 5 then
    (g.openWindow "About MicroKernel OS".toUTF8.toList 170 100 290 230 .about).1
  else if item = 7 then { g with guiRunning := false }
  else g

/-- `handle_start_click`; the division is that of C, and item 6 is the separator. -/
def handleStartClick (mx my : ℤ) : Gui :=
  let bodyY := g.gfxH - taskbarH - smH + smBannerH
  if smX + 2 ≤ mx ∧ mx < smX + smW - 2 ∧ bodyY ≤ my ∧ my < bodyY + smBodyH then
    let item := (my - bodyY - 4).tdiv smItemH
    if item < 0 ∨ menuCount ≤ item then { g with startMenuOpen := false }
    else if item = 6 then g
    else { g with startMenuOpen := false }.startMenuItem item
  else { g with startMenuOpen := false }

/-- The loop over the buttons of the taskbar: the window whose button is at `mx`, where the
next button begins at `bx`. -/
def taskbarWindow (mx : ℤ) : List WinIdx → ℤ → Option WinIdx
  | [], _ => none
  | i :: is, bx =>
    if !(g.windows i).active then taskbarWindow mx is bx
    else if bx ≤ mx ∧ mx < bx + 136 then some i
    else taskbarWindow mx is (bx + 139)

/-- The window in front at a point. -/
def windowAt (mx my : ℤ) : Option WinIdx :=
  (List.finRange 8).reverse.find? fun i =>
    (g.windows i).active && decide ((g.windows i).x ≤ mx ∧ mx < (g.windows i).x + (g.windows i).w ∧
      (g.windows i).y ≤ my ∧ my < (g.windows i).y + (g.windows i).h)

/-- A click in the body of the window at `ni`, at the point `rx`, `ry` of it. -/
def clickBody (m : MouseInput) (ni : WinIdx) (rx ry : ℤ) : Gui :=
  match (g.windows ni).app with
  | .about =>
    if 86 ≤ rx ∧ rx < 161 ∧ titlebarH + 160 ≤ ry ∧ ry < titlebarH + 183 then g.closeWindow ni else g
  | .files =>
    match m.viewer with
    | some v => (g.openWindow v.title v.x v.y v.w v.h .imgview).1
    | none => g
  | _ => g

/-- A click on the window at `i`: it comes to the front, and the part hit decides. -/
def clickWindow (m : MouseInput) (i : WinIdx) : Gui :=
  let rx := m.mx - (g.windows i).x
  let ry := m.my - (g.windows i).y
  let hit := (g.windows i).serial
  let g := g.bringToFront i
  match g.focusIdx with
  | none => g
  | some ni =>
    let cbx := (g.windows ni).w - 27
    if cbx ≤ rx ∧ rx < cbx + 21 ∧ 6 ≤ ry ∧ ry < 6 + 16 then
      let g := if (g.windows ni).app = .elfGl then g.closeElfGlWindow ni else g
      g.closeWindow ni
    else if ry < titlebarH + 3 then
      { g with dragging := true, dragIdx := some ni, dragOx := rx, dragOy := ry, grabbed := hit }
    else g.clickBody m ni rx ry

/-- The window at `d` follows the mouse. -/
def dragTo (d : WinIdx) (mx my : ℤ) : Gui :=
  let y := my - g.dragOy
  let y := if y < 0 then 0 else y
  let y := if g.gfxH - taskbarH - titlebarH < y then g.gfxH - taskbarH - titlebarH else y
  { g with windows := Function.update g.windows d { g.windows d with x := mx - g.dragOx, y := y } }

/-- The drag is over. -/
def endDrag : Gui := { g with dragging := false, dragIdx := none }

/-- `handle_mouse`. -/
def handleMouse (m : MouseInput) : Gui :=
  if g.dragging then
    match g.dragIdx with
    | some d =>
      if m.lheld && (g.windows d).active then g.dragTo d m.mx m.my else g.endDrag
    | none => g.endDrag
  else if !m.lclick then g
  else if g.startMenuOpen then g.handleStartClick m.mx m.my
  else if g.gfxH - taskbarH ≤ m.my then
    if 2 ≤ m.mx ∧ m.mx < 2 + startBtnW ∧ g.gfxH - taskbarH + 3 ≤ m.my then
      { g with startMenuOpen := !g.startMenuOpen }
    else
      match g.taskbarWindow m.mx (List.finRange 8) (startBtnW + 12) with
      | some i => g.bringToFront i
      | none => g
  else
    match g.windowAt m.mx m.my with
    | some i => g.clickWindow m i
    | none => { g with startMenuOpen := false }

end Gui

/-! ## What happens to the windows -/

/-- The steps of the window manager: calls by the desktop and by processes, and mouse
events. -/
inductive GuiEvent where
  | openWindow (title : List UInt8) (x y w h : ℤ) (app : AppType)
  | bringToFront (idx : WinIdx)
  | closeWindow (idx : WinIdx)
  | elfOpen (pid : UInt32) (name : Option (List UInt8))
  | elfClose (pid : UInt32)
  | cleanUp (dead : UInt32 → Bool) (i : WinIdx)
  | mouse (m : Gui.MouseInput)

/-- The state after a step. -/
def GuiEvent.exec (g : Gui) : GuiEvent → Gui
  | .openWindow title x y w h app => (g.openWindow title x y w h app).1
  | .bringToFront idx => g.bringToFront idx
  | .closeWindow idx => g.closeWindow idx
  | .elfOpen pid name => (g.guiElfWinOpen pid name).1
  | .elfClose pid => g.guiElfWinClose pid
  | .cleanUp dead i => g.cleanUp dead i
  | .mouse m => g.handleMouse m

end Microkernel
