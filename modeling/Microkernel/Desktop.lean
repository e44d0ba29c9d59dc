/-
# ELF processes and their windows

The system around the address spaces: `elf_load` makes processes, `gui_elf_win_open` gives a
process a window whose frame buffer is mapped in the process and in the kernel, and the window
goes when the process closes it, when the user closes it, or when `render` finds the process
dead.  A frame buffer is known in four places: the slot of the window manager, the kernel's
window, the tables of the process and the bitmap of the allocator.

Calls that do not return have no next state.  Three things are history: how often a page was
taken for a frame buffer, how often it was given back, and the slot that a process filled last.
-/
import Microkernel.LoadSteps
import Microkernel.Windows

namespace Microkernel

/-- `ELF_FB_PAGES`, for 320 by 200 pixels of 4 bytes. -/
def elfFbPages : ℕ := (320 * 200 * 4 + 4095) / 4096

/-- `ELF_FB_KVBASE`. -/
def elfFbKvbase : ℕ := 0x22000000

/-- `ELF_GUI_FB_UVADDR`. -/
def elfGuiFbUvaddr : ℕ := 0xA0000000

/-- Where page `i` of the frame buffer in slot `si` is in the kernel. -/
def kernVa (si : Fin 4) (i : ℕ) : ℕ := elfFbKvbase + si * elfFbPages * 4096 + i * 4096

/-- Where page `i` of the frame buffer is in the process. -/
def userVa (i : ℕ) : ℕ := elfGuiFbUvaddr + i * 4096

/-! ## The frame buffer of a slot -/

namespace Paging

variable (k : KernelImage) (s : Paging)

/-- A page of a new frame buffer, at the address `phys` that `pmm_alloc_page` returned: it is
mapped in the process and in the kernel. -/
def mapFrameBuffer (pageDir : ℕ) (si : Fin 4) (i phys : ℕ) : Paging :=
  (s.pagingMapUser k pageDir (BitVec.ofNat 32 (userVa i)) (BitVec.ofNat 32 phys)
    (pagePresent ||| pageWrite ||| pageUser)).pagingMapPage k (BitVec.ofNat 32 (kernVa si i))
      (BitVec.ofNat 32 phys) (pagePresent ||| pageWrite ||| pageUser)

/-- A page of a frame buffer is given back: it is unmapped in the kernel and freed. -/
def freeFrameBuffer (si : Fin 4) (i phys : ℕ) : Paging :=
  let s := s.pagingUnmapPage k (BitVec.ofNat 32 (kernVa si i))
  { s with pmm := s.pmm.pmmFreePage phys }

end Paging

/-! ## The mouse -/

/-- The owner of the window that a mouse event closes by its close button, if the window belongs
to an ELF process: the path of `handle_mouse` to `close_elf_gl_window`. -/
def Gui.mouseKills (g : Gui) (m : Gui.MouseInput) : Option UInt32 :=
  if g.dragging ∨ m.lclick = false ∨ g.startMenuOpen ∨ g.gfxH - taskbarH ≤ m.my then none
  else
    (g.windowAt m.mx m.my).bind fun i =>
      let rx := m.mx - (g.windows i).x
      let ry := m.my - (g.windows i).y
      let g := g.bringToFront i
      g.focusIdx.bind fun ni =>
        let cbx := (g.windows ni).w - 27
        if (cbx ≤ rx ∧ rx < cbx + 21 ∧ 6 ≤ ry ∧ ry < 6 + 16) ∧ (g.windows ni).app = .elfGl then
          some (g.windows ni).ownerPid
        else none

/-! ## The system -/

/-- The kernel with its processes and their windows. -/
structure Desktop where
  loader : Loader
  gui : Gui
  /-- `phys_pages` of each slot. -/
  physPages : Fin 4 → ℕ → ℕ
  /-- History: how often a page was taken for a frame buffer. -/
  taken : ℕ → ℕ
  /-- History: how often a page was given back by the window manager. -/
  returned : ℕ → ℕ
  /-- History: the slot a process filled last. -/
  latest : UInt32 → Option (Fin 4)

namespace Desktop

variable (k : KernelImage) (d : Desktop)

def paging : Paging := d.loader.paging

def kernel : Kernel := d.loader.kernel

/-- Replace the page tables. -/
def setPaging (s : Paging) : Desktop := { d with loader := { d.loader with paging := s } }

/-- One page more in the history. -/
def count (f : ℕ → ℕ) (q : ℕ) : ℕ → ℕ := Function.update f q (f q + 1)

/-- Page `i` of a new frame buffer in slot `si`.  The result of `pmm_alloc_page` is not
checked. -/
def openFrame (pageDir : ℕ) (si : Fin 4) (i : ℕ) : Desktop :=
  let r := d.paging.pmm.pmmAllocPage
  let s : Paging := ⟨d.paging.mem, r.1⟩
  { d.setPaging (s.mapFrameBuffer k pageDir si i r.2) with
    physPages := Function.update d.physPages si (Function.update (d.physPages si) i r.2)
    taken := if r.2 = 0 then d.taken else count d.taken (r.2 / 4096) }

/-- The loop of `gui_elf_win_open`, from page `i` on. -/
def openFrames (pageDir : ℕ) (si : Fin 4) (d : Desktop) (i : ℕ) : ℕ → Desktop
  | 0 => d
  | n + 1 => openFrames pageDir si (d.openFrame k pageDir si i) (i + 1) n

/-- `gui_elf_win_open`.  The slot is marked as active before the loop, which does not look at
it. -/
def guiElfWinOpen (pid : UInt32) (pageDir : ℕ) : Desktop :=
  match d.gui.freeElfSlot with
  | none => d
  | some si =>
    let name := (d.kernel.taskGetByPid pid).map fun i => (d.kernel.tasks i).name
    let r := d.gui.guiElfWinOpen pid name
    if r.2 = false then d
    else openFrames k pageDir si
      { d with
        gui := r.1
        latest := Function.update d.latest pid (some si) } 0 elfFbPages

/-- Page `i` of the frame buffer in slot `si` is given back. -/
def closeFrame (si : Fin 4) (i : ℕ) : Desktop :=
  { d.setPaging (d.paging.freeFrameBuffer k si i (d.physPages si i)) with
    returned := count d.returned (d.physPages si i / 4096) }

/-- The loop of `gui_elf_win_close` and `close_elf_gl_window`, from page `i` on. -/
def closeFrames (si : Fin 4) (d : Desktop) (i : ℕ) : ℕ → Desktop
  | 0 => d
  | n + 1 => closeFrames si (d.closeFrame k si i) (i + 1) n

/-- The frame buffer in the slot of a process is given back. -/
def closeSlotOf (pid : UInt32) : Desktop :=
  match d.gui.elfSlotOf pid with
  | none => d
  | some si => closeFrames k si d 0 elfFbPages

/-- `gui_elf_win_close`. -/
def guiElfWinClose (pid : UInt32) : Desktop :=
  { d.closeSlotOf k pid with gui := d.gui.guiElfWinClose pid }

/-- `task_kill`. -/
def taskKill (pid : UInt32) : Option Desktop :=
  (d.loader.taskKill k pid).map fun l => { d with loader := l }

/-- `close_elf_gl_window` for a window of the process, up to the state of the window manager. -/
def closeElfGlWindow (pid : UInt32) : Option Desktop := (d.closeSlotOf k pid).taskKill k pid

/-- `handle_mouse`. -/
def handleMouse (m : Gui.MouseInput) : Option Desktop :=
  ((d.gui.mouseKills m).elim (some d) fun pid => d.closeElfGlWindow k pid).map fun d' =>
    { d' with gui := d.gui.handleMouse m }

/-- The owner of a window is dead: `!owner || !owner->active || owner->state == TASK_TERMINATED`. -/
def ownerDead (pid : UInt32) : Bool :=
  match d.kernel.taskGetByPid pid with
  | none => true
  | some i => !(d.kernel.tasks i).active || (d.kernel.tasks i).state == .terminated

/-- The clean-up of `render` for the window at `i`. -/
def cleanUp (i : WinIdx) : Option Desktop :=
  if (d.gui.windows i).active && (d.gui.windows i).app == .elfGl &&
      d.ownerDead (d.gui.windows i).ownerPid then
    (d.closeElfGlWindow k (d.gui.windows i).ownerPid).map fun d' =>
      { d' with gui := (d.gui.closeElfGlWindow i).closeWindow i }
  else some d

/-- The clean-up loop of `render`. -/
def cleanUpFrom (d : Desktop) : List WinIdx → Option Desktop
  | [] => some d
  | i :: is => (d.cleanUp k i).bind fun d' => cleanUpFrom d' is

/-- `elf_load`. -/
def elfLoad (f : ElfFile) (args : Loader.Args) : Option Desktop :=
  let r := Loader.elfLoad k f args d.loader
  if r.2 = .lost then none else some { d with loader := r.1 }

/-- `SYS_GUI_WIN_OPEN` by the current task: only tasks with an address space have windows. -/
def sysGuiWinOpen : Desktop :=
  if d.kernel.current.pageDirectory ≠ 0 then
    d.guiElfWinOpen k d.kernel.current.id d.kernel.current.pageDirectory.toNat
  else d

/-- `SYS_GUI_WIN_CLOSE` by the current task. -/
def sysGuiWinClose : Desktop := d.guiElfWinClose k d.kernel.current.id

end Desktop

/-- What happens to processes and their windows. -/
inductive DesktopEvent where
  | elfLoad (f : ElfFile) (args : Loader.Args)
  /-- `paging_map_user` for the process in slot `i` of the task table. -/
  | mapUser (i : Slot) (virt phys flags : BitVec 32)
  | winOpen
  | winClose
  | mouse (m : Gui.MouseInput)
  | render
  | taskExit
  | taskKill (pid : UInt32)
  /-- The scheduler goes on with another task. -/
  | switchTo (i : Slot)

/-- The state after an event. -/
def DesktopEvent.exec (k : KernelImage) (d : Desktop) : DesktopEvent → Option Desktop
  | .elfLoad f args => d.elfLoad k f args
  | .mapUser i virt phys flags =>
    if (d.kernel.tasks i).pageDirectory ≠ 0 then
      some (d.setPaging (d.paging.pagingMapUser k (d.kernel.tasks i).pageDirectory.toNat virt phys flags))
    else none
  | .winOpen => some (d.sysGuiWinOpen k)
  | .winClose => some (d.sysGuiWinClose k)
  | .mouse m => d.handleMouse k m
  | .render => d.cleanUpFrom k (List.finRange 8)
  | .taskExit => (d.loader.taskExit k).map fun l => { d with loader := l }
  | .taskKill pid => d.taskKill k pid
  | .switchTo i => some { d with loader := { d.loader with kernel :=
      { d.loader.kernel with currentTask := i } } }

end Microkernel
