/-
# The windows of ELF processes

Every slot of `elf_gui_slots` that is in use stands for one window of its process, and every
such window has its slot: opening makes one of each, and the ways to close a window take one of
each.  All other things that happen to windows leave both alone.
-/
import Microkernel.Desktop
import Microkernel.WindowRuns

namespace Microkernel

/-- Two sums that differ at one index. -/
theorem sum_add_of_eq_off {ι : Type*} [Fintype ι] [DecidableEq ι] {F F' : ι → ℕ} {x : ι}
    (h : ∀ i, i ≠ x → F' i = F i) : ∑ i, F' i + F x = ∑ i, F i + F' x := by
  have hrest : ∑ i ∈ Finset.univ.erase x, F' i = ∑ i ∈ Finset.univ.erase x, F i := by
    apply Finset.sum_congr rfl
    intro i hi
    exact h i (Finset.ne_of_mem_erase hi)
  have h₁ := Finset.add_sum_erase Finset.univ F (Finset.mem_univ x)
  have h₂ := Finset.add_sum_erase Finset.univ F' (Finset.mem_univ x)
  omega

namespace Gui

variable {g g' : Gui} {idx i : WinIdx} {pid : UInt32}

/-- The window at `i` is a window of the process. -/
def isElf (g : Gui) (pid : UInt32) (i : WinIdx) : Bool :=
  (g.windows i).active && (g.windows i).app == .elfGl && (g.windows i).ownerPid == pid

/-- How many windows a process has. -/
def elfCount (g : Gui) (pid : UInt32) : ℕ := ∑ i : WinIdx, if g.isElf pid i then 1 else 0

/-- How many slots a process has. -/
def slotCount (g : Gui) (pid : UInt32) : ℕ :=
  ∑ si : Fin 4, if (g.elfGuiSlots si).active && (g.elfGuiSlots si).pid == pid then 1 else 0

/-- Nothing happened to the windows of ELF processes. -/
structure SameElf (g g' : Gui) : Prop where
  slots : g'.elfGuiSlots = g.elfGuiSlots
  windows : ∀ pid, g'.elfCount pid = g.elfCount pid

theorem SameElf.refl (g : Gui) : SameElf g g := ⟨rfl, fun _ => rfl⟩

theorem SameElf.trans {g'' : Gui} (h : SameElf g g') (h' : SameElf g' g'') : SameElf g g'' :=
  ⟨h'.slots.trans h.slots, fun pid => (h'.windows pid).trans (h.windows pid)⟩

/-- Windows that are the same but for their focus and their place. -/
theorem elfCount_congr (h : ∀ i, g'.isElf pid i = g.isElf pid i) : g'.elfCount pid = g.elfCount pid := by
  unfold elfCount
  apply Finset.sum_congr rfl
  intro i _
  rw [h]

/-- Replacing one window. -/
theorem elfCount_update (h : ∀ i, i ≠ idx → g'.isElf pid i = g.isElf pid i) :
    g'.elfCount pid + (if g.isElf pid idx then 1 else 0) =
      g.elfCount pid + (if g'.isElf pid idx then 1 else 0) := by
  refine @sum_add_of_eq_off WinIdx _ _ (fun i => if g.isElf pid i then 1 else 0)
    (fun i => if g'.isElf pid i then 1 else 0) idx fun i hi => ?_
  rw [h i hi]

/-! ## Raising and closing -/

theorem isElf_focusTop (g : Gui) (pid : UInt32) (i : WinIdx) : g.focusTop.isElf pid i = g.isElf pid i := by
  unfold isElf
  rw [focusTop_windows]

theorem sameElf_focusTop (g : Gui) : SameElf g g.focusTop :=
  ⟨(focusTop_frame g).2.2.2.2.2, fun _ => elfCount_congr (isElf_focusTop g _)⟩

/-- Raising a window moves the windows around. -/
theorem sameElf_bringToFront (g : Gui) (idx : WinIdx) : SameElf g (g.bringToFront idx) := by
  cases ha : (g.windows idx).active with
  | false =>
    rw [bringToFront_of_inactive ha]
    exact .refl g
  | true =>
    rw [bringToFront_of_active ha]
    have hmove : SameElf g
        { g with windows := fun i => { g.windows (raisedFrom idx i) with focused := false } } :=
      ⟨rfl, fun pid => Fintype.sum_equiv ⟨raisedFrom idx, raisedTo idx, raisedTo_raisedFrom idx,
        raisedFrom_raisedTo idx⟩ _ _ fun i => rfl⟩
    exact hmove.trans (sameElf_focusTop _)

theorem slots_closeWindow (g : Gui) (idx : WinIdx) :
    (g.closeWindow idx).elfGuiSlots = g.elfGuiSlots := (focusTop_frame _).2.2.2.2.2

/-- Closing a window of a process takes one of its windows. -/
theorem elfCount_closeWindow (g : Gui) (idx : WinIdx) (pid : UInt32) :
    (g.closeWindow idx).elfCount pid + (if g.isElf pid idx then 1 else 0) = g.elfCount pid := by
  have hother : ∀ i, i ≠ idx → (g.closeWindow idx).isElf pid i = g.isElf pid i := by
    intro i hi
    unfold closeWindow
    rw [isElf_focusTop]
    unfold isElf
    dsimp only
    rw [Function.update_of_ne hi]
  have hself : (g.closeWindow idx).isElf pid idx = false := by
    unfold closeWindow
    rw [isElf_focusTop]
    unfold isElf
    dsimp only
    rw [Function.update_self]
    rfl
  have hcount := elfCount_update hother
  rw [hself, if_neg Bool.false_ne_true] at hcount
  exact hcount

/-- Closing a window of the system leaves the processes alone. -/
theorem sameElf_closeWindow (h : (g.windows idx).app ≠ .elfGl) : SameElf g (g.closeWindow idx) := by
  refine ⟨slots_closeWindow g idx, fun pid => ?_⟩
  have hnot : g.isElf pid idx = false := by
    unfold isElf
    rw [beq_eq_false_iff_ne.mpr h, Bool.and_false, Bool.false_and]
  have hcount := elfCount_closeWindow g idx pid
  rw [hnot, if_neg Bool.false_ne_true] at hcount
  exact hcount

/-! ## Opening -/

/-- A new window. -/
theorem elfCount_withWindow {win : Window} (hfree : (g.windows idx).active = false) (pid : UInt32) :
    (g.withWindow idx win).elfCount pid = g.elfCount pid +
      if (win.active && win.app == .elfGl && win.ownerPid == pid) = true then 1 else 0 := by
  have hother : ∀ i, i ≠ idx → (g.withWindow idx win).isElf pid i = g.isElf pid i := by
    intro i hi
    unfold isElf withWindow
    dsimp only
    rw [Function.update_of_ne hi]
  have hcount := elfCount_update hother
  have hold : g.isElf pid idx = false := by
    unfold isElf
    rw [hfree]
    rfl
  have hnew : (g.withWindow idx win).isElf pid idx =
      (win.active && win.app == .elfGl && win.ownerPid == pid) := by
    unfold isElf withWindow
    dsimp only
    rw [Function.update_self]
  rw [hold, hnew, if_neg Bool.false_ne_true] at hcount
  exact hcount

theorem slots_openWindow (g : Gui) (title : List UInt8) (x y w h : ℤ) (app : AppType) :
    (g.openWindow title x y w h app).1.elfGuiSlots = g.elfGuiSlots := by
  rcases openWindow_cases g title x y w h app with ⟨_, heq⟩ | ⟨idx, win, _, _, _, heq⟩
  · rw [heq]
  · rw [heq]
    exact (sameElf_bringToFront _ idx).slots

/-- The window that `open_window` makes, before it is raised. -/
theorem openWindow_eq (h : g.findFreeWindow = some idx) (title : List UInt8) (x y w hh : ℤ)
    (app : AppType) : ∃ win : Window, win.active = true ∧ win.app = app ∧ win.ownerPid = 0 ∧
      g.openWindow title x y w hh app = ((g.withWindow idx win).bringToFront idx, some 7) := by
  unfold openWindow
  rw [h]
  refine ⟨_, rfl, rfl, rfl, Prod.ext rfl ?_⟩
  refine bringToFront_focusIdx ?_
  dsimp only
  rw [Function.update_self]

/-- Opening a window of the system leaves the processes alone. -/
theorem sameElf_openWindow (g : Gui) (title : List UInt8) (x y w h : ℤ) {app : AppType}
    (happ : app ≠ .elfGl) : SameElf g (g.openWindow title x y w h app).1 := by
  refine ⟨slots_openWindow g title x y w h app, fun pid => ?_⟩
  cases hfree : g.findFreeWindow with
  | none =>
    unfold openWindow
    rw [hfree]
  | some idx =>
    obtain ⟨win, _, hwin, _, heq⟩ := openWindow_eq hfree title x y w h app
    rw [heq, (sameElf_bringToFront _ idx).windows, elfCount_withWindow (findFreeWindow_eq_some hfree),
      hwin, beq_eq_false_iff_ne.mpr happ, Bool.and_false, Bool.false_and, if_neg Bool.false_ne_true, Nat.add_zero]

theorem isElf_withWindow (g : Gui) (idx : WinIdx) (win : Window) (pid : UInt32) :
    (g.withWindow idx win).isElf pid idx =
      (win.active && win.app == .elfGl && win.ownerPid == pid) := by
  unfold isElf withWindow
  dsimp only
  rw [Function.update_self]

/-- The window that was raised is the last one. -/
theorem isElf_raised (h : (g.windows idx).active = true) (pid : UInt32) :
    (g.bringToFront idx).isElf pid 7 = g.isElf pid idx := by
  rw [bringToFront_of_active h, isElf_focusTop]
  unfold isElf
  dsimp only
  rw [raisedFrom_last]

/-- The window at `idx` gets an owner. -/
theorem elfCount_setOwner {win : Window} (h : g.isElf 0 idx = true)
    (ha : win.active = (g.windows idx).active) (happ : win.app = (g.windows idx).app)
    (hw : g'.windows = Function.update g.windows idx win) (p : UInt32) :
    g'.elfCount p + (if p = 0 then 1 else 0) =
      g.elfCount p + if p = win.ownerPid then 1 else 0 := by
  obtain ⟨hact, howner⟩ := (Bool.and_eq_true _ _).mp h
  have hother : ∀ i, i ≠ idx → g'.isElf p i = g.isElf p i := by
    intro i hi
    unfold isElf
    rw [hw, Function.update_of_ne hi]
  have hold : g.isElf p idx = decide (p = 0) := by
    unfold isElf
    rw [hact, Bool.true_and, eq_of_beq howner, beq_eq_decide]
    exact decide_eq_decide.mpr eq_comm
  have hnew : g'.isElf p idx = decide (p = win.ownerPid) := by
    unfold isElf
    rw [hw, Function.update_self, ha, happ, hact, Bool.true_and, beq_eq_decide]
    exact decide_eq_decide.mpr eq_comm
  have hcount := elfCount_update hother
  rw [hold, hnew] at hcount
  simpa only [decide_eq_true_eq] using hcount

/-- **`gui_elf_win_open`** succeeds if there is a slot and room for a window; then the process has
one window and one slot more. -/
theorem guiElfWinOpen_cases (g : Gui) (pid : UInt32) (name : Option (List UInt8)) :
    (g.guiElfWinOpen pid name = (g, false) ∧ (g.freeElfSlot = none ∨ g.findFreeWindow = none)) ∨
    ∃ si, g.freeElfSlot = some si ∧ g.findFreeWindow ≠ none ∧
      (g.guiElfWinOpen pid name).2 = true ∧
      (g.guiElfWinOpen pid name).1.elfGuiSlots =
        Function.update g.elfGuiSlots si ⟨true, pid, some 7⟩ ∧
      ∀ p, (g.guiElfWinOpen pid name).1.elfCount p = g.elfCount p + if p = pid then 1 else 0 := by
  unfold guiElfWinOpen
  cases hslot : g.freeElfSlot with
  | none => exact Or.inl ⟨rfl, Or.inl rfl⟩
  | some si =>
    cases hfree : g.findFreeWindow with
    | none =>
      left
      have hopen : g.openWindow "User App".toUTF8.toList 150 100 (320 + 14) (200 + titlebarH + 10)
          .elfGl = (g, none) := by
        unfold openWindow
        rw [hfree]
      rw [hopen]
      exact ⟨rfl, Or.inr rfl⟩
    | some idx =>
      right
      obtain ⟨win, hactive, happ, howner, hopen⟩ := openWindow_eq hfree "User App".toUTF8.toList 150
        100 (320 + 14) (200 + titlebarH + 10) .elfGl
      have hwin : ((g.withWindow idx win).windows idx).active = true := withWindow_active hactive
      have hraised := sameElf_bringToFront (g.withWindow idx win) idx
      -- the new window is at the last index, with no owner yet
      have hzero : ((g.withWindow idx win).bringToFront idx).isElf 0 7 = true := by
        rw [isElf_raised hwin, isElf_withWindow, hactive, happ, howner]
        rfl
      have hcount : ∀ p, ((g.withWindow idx win).bringToFront idx).elfCount p =
          g.elfCount p + if p = 0 then 1 else 0 := by
        intro p
        rw [hraised.windows, elfCount_withWindow (findFreeWindow_eq_some hfree), hactive, happ,
          howner]
        congr 1
        refine if_congr ?_ rfl rfl
        rw [Bool.true_and, beq_self_eq_true, Bool.true_and, beq_iff_eq, eq_comm]
      refine ⟨si, rfl, nofun, ?_⟩
      dsimp only
      rw [hopen]
      set r := (g.withWindow idx win).bringToFront idx
      -- the window gets its owner
      have hset : ∀ win' : Window, win'.active = (r.windows 7).active →
          win'.app = (r.windows 7).app → win'.ownerPid = pid → ∀ p,
          elfCount { r with
            windows := Function.update r.windows 7 win'
            elfGuiSlots := Function.update r.elfGuiSlots si ⟨true, pid, some 7⟩ } p =
          g.elfCount p + if p = pid then 1 else 0 := by
        intro win' ha happ' howner' p
        have howned : elfCount { r with
            windows := Function.update r.windows 7 win'
            elfGuiSlots := Function.update r.elfGuiSlots si ⟨true, pid, some 7⟩ } p +
              (if p = 0 then 1 else 0) = r.elfCount p + if p = win'.ownerPid then 1 else 0 :=
          elfCount_setOwner hzero ha happ' rfl p
        have hp := hcount p
        rw [howner'] at howned
        omega
      dsimp only
      refine ⟨rfl, ?_, fun p => ?_⟩
      · rw [hraised.slots]
        rfl
      · cases name with
        | none =>
          exact hset { r.windows 7 with ownerPid := pid } rfl rfl rfl p
        | some name =>
          exact hset { r.windows 7 with ownerPid := pid, title := name.take 39 } rfl rfl rfl p

/-! ## The ways a window of a process goes -/

/-- The slot of a process is free, and one window of it is closed. -/
structure OneClosed (g g' : Gui) (pid : UInt32) : Prop where
  slots : g'.elfGuiSlots = (g.freeElfSlotOf pid).elfGuiSlots
  windows : ∀ p, g'.elfCount p + (if p = pid then 1 else 0) = g.elfCount p

theorem elfSlotOf_eq_some {si : Fin 4} (h : g.elfSlotOf pid = some si) :
    (g.elfGuiSlots si).active = true ∧ (g.elfGuiSlots si).pid = pid := by
  have hfound := List.find?_some h
  obtain ⟨ha, hp⟩ := (Bool.and_eq_true _ _).mp hfound
  exact ⟨ha, eq_of_beq hp⟩

theorem freeElfSlot_eq_some {si : Fin 4} (h : g.freeElfSlot = some si) :
    (g.elfGuiSlots si).active = false := by
  have := List.find?_some h
  simpa using this

theorem elfSlotOf_congr (h : g'.elfGuiSlots = g.elfGuiSlots) (pid : UInt32) :
    g'.elfSlotOf pid = g.elfSlotOf pid := by
  unfold elfSlotOf
  rw [h]

theorem slots_freeElfSlotOf_congr (h : g'.elfGuiSlots = g.elfGuiSlots) (pid : UInt32) :
    (g'.freeElfSlotOf pid).elfGuiSlots = (g.freeElfSlotOf pid).elfGuiSlots := by
  unfold freeElfSlotOf
  rw [elfSlotOf_congr h]
  cases g.elfSlotOf pid with
  | none => exact h
  | some si =>
    dsimp only
    rw [h]

theorem windows_freeElfSlotOf (g : Gui) (pid : UInt32) :
    (g.freeElfSlotOf pid).windows = g.windows := by
  unfold freeElfSlotOf
  split <;> rfl

theorem elfCount_freeElfSlotOf (g : Gui) (pid p : UInt32) :
    (g.freeElfSlotOf pid).elfCount p = g.elfCount p := by
  apply elfCount_congr
  intro i
  unfold isElf
  rw [windows_freeElfSlotOf]

/-- The slots after `gui_elf_win_close`. -/
theorem slots_guiElfWinClose (g : Gui) (pid : UInt32) :
    (g.guiElfWinClose pid).elfGuiSlots = (g.freeElfSlotOf pid).elfGuiSlots := by
  unfold guiElfWinClose
  cases hslot : g.elfSlotOf pid with
  | none =>
    unfold freeElfSlotOf
    rw [hslot]
  | some si =>
    apply slots_freeElfSlotOf_congr
    split_ifs
    · split
      · exact slots_closeWindow g _
      · rfl
    · rfl

/-- A window of a process is closed after its slot was freed. -/
theorem oneClosed_closeWindow {w : WinIdx} (hw : g.isElf pid w = true) :
    OneClosed g ((g.closeElfGlWindow w).closeWindow w) pid := by
  obtain ⟨hact, howner⟩ := (Bool.and_eq_true _ _).mp hw
  have howner' : (g.windows w).ownerPid = pid := eq_of_beq howner
  unfold closeElfGlWindow
  rw [howner']
  refine ⟨slots_closeWindow _ w, fun p => ?_⟩
  have hcount := elfCount_closeWindow (g.freeElfSlotOf pid) w p
  have hiff : (g.freeElfSlotOf pid).isElf p w = true ↔ p = pid := by
    unfold isElf
    rw [windows_freeElfSlotOf, hact, Bool.true_and, howner', beq_iff_eq, eq_comm]
  rw [elfCount_freeElfSlotOf] at hcount
  rw [← hcount]
  exact congrArg _ (if_congr hiff.symm rfl rfl)

/-! ## The mouse -/

theorem SameElf.oneClosed {g'' : Gui} (h : SameElf g g') (h' : OneClosed g' g'' pid) :
    OneClosed g g'' pid :=
  ⟨h'.slots.trans (slots_freeElfSlotOf_congr h.slots pid), fun p =>
    (h'.windows p).trans (h.windows p)⟩

theorem sameElf_startMenuItem (g : Gui) (item : ℤ) : SameElf g (g.startMenuItem item) := by
  unfold startMenuItem
  split_ifs
  all_goals first
    | exact sameElf_openWindow g _ _ _ _ _ nofun
    | exact ⟨rfl, fun _ => rfl⟩

theorem sameElf_handleStartClick (g : Gui) (mx my : ℤ) : SameElf g (g.handleStartClick mx my) := by
  have hmenu : SameElf g { g with startMenuOpen := false } := ⟨rfl, fun _ => rfl⟩
  unfold handleStartClick
  dsimp only
  split_ifs
  · exact hmenu
  · exact .refl g
  · exact hmenu.trans (sameElf_startMenuItem _ _)
  · exact hmenu

theorem sameElf_clickBody (g : Gui) (m : MouseInput) (ni : WinIdx) (rx ry : ℤ) :
    SameElf g (g.clickBody m ni rx ry) := by
  unfold clickBody
  split
  · rename_i happ
    split_ifs
    · apply sameElf_closeWindow
      rw [happ]
      nofun
    · exact .refl g
  · split
    · exact sameElf_openWindow g _ _ _ _ _ nofun
    · exact .refl g
  · exact .refl g

theorem sameElf_dragTo (g : Gui) (w : WinIdx) (mx my : ℤ) : SameElf g (g.dragTo w mx my) := by
  refine ⟨rfl, fun pid => elfCount_congr fun i => ?_⟩
  unfold isElf dragTo
  dsimp only
  by_cases hi : i = w
  · rw [hi, Function.update_self]
  · rw [Function.update_of_ne hi]

/-- The window that is hit comes to the front, and keeps its place in the account. -/
theorem isElf_hit {i : WinIdx} (hi : (g.windows i).active = true)
    (happ : ((g.bringToFront i).windows 7).app = .elfGl) :
    (g.bringToFront i).isElf ((g.bringToFront i).windows 7).ownerPid 7 = true := by
  have hact : ((g.bringToFront i).windows 7).active = true := by
    rw [bringToFront_of_active hi, focusTop_windows]
    dsimp only
    rw [raisedFrom_last]
    exact hi
  unfold isElf
  rw [hact, happ, beq_self_eq_true, beq_self_eq_true]
  rfl

/-- **`handle_mouse`**: a close button hit on the window of a process takes the window and the
slot of the process, and nothing else the mouse does concerns processes. -/
theorem handleMouse_elf (g : Gui) (m : MouseInput) :
    (g.mouseKills m = none ∧ SameElf g (g.handleMouse m)) ∨
    ∃ pid, g.mouseKills m = some pid ∧ OneClosed g (g.handleMouse m) pid := by
  have hsame : ∀ h : g.dragging ∨ m.lclick = false ∨ g.startMenuOpen ∨ g.gfxH - taskbarH ≤ m.my,
      g.mouseKills m = none := fun h => if_pos h
  unfold handleMouse
  split_ifs with hdrag hclick hmenu hbar hstart
  · refine Or.inl ⟨hsame (Or.inl hdrag), ?_⟩
    split
    · split_ifs
      · exact sameElf_dragTo g _ _ _
      · exact ⟨rfl, fun _ => rfl⟩
    · exact ⟨rfl, fun _ => rfl⟩
  · exact Or.inl ⟨hsame (Or.inr (Or.inl (by simpa using hclick))), .refl g⟩
  · exact Or.inl ⟨hsame (Or.inr (Or.inr (Or.inl hmenu))), sameElf_handleStartClick g _ _⟩
  · exact Or.inl ⟨hsame (Or.inr (Or.inr (Or.inr hbar))), ⟨rfl, fun _ => rfl⟩⟩
  · refine Or.inl ⟨hsame (Or.inr (Or.inr (Or.inr hbar))), ?_⟩
    split
    · exact sameElf_bringToFront g _
    · exact .refl g
  · have hkills : g.mouseKills m = (g.windowAt m.mx m.my).bind fun i =>
        let rx := m.mx - (g.windows i).x
        let ry := m.my - (g.windows i).y
        let g := g.bringToFront i
        g.focusIdx.bind fun ni =>
          let cbx := (g.windows ni).w - 27
          if (cbx ≤ rx ∧ rx < cbx + 21 ∧ 6 ≤ ry ∧ ry < 6 + 16) ∧ (g.windows ni).app = .elfGl then
            some (g.windows ni).ownerPid
          else none := by
      unfold mouseKills
      rw [if_neg (by simp only [hdrag, hmenu, hbar, or_false]; simpa using hclick)]
    rw [hkills]
    cases hat : g.windowAt m.mx m.my with
    | none => exact Or.inl ⟨rfl, rfl, fun _ => rfl⟩
    | some i =>
      have hfound := List.find?_some hat
      have hi : (g.windows i).active = true := ((Bool.and_eq_true _ _).mp hfound).1
      have hfront := sameElf_bringToFront g i
      unfold clickWindow
      dsimp only [Option.bind_some]
      rw [bringToFront_focusIdx hi]
      dsimp only [Option.bind_some]
      have hhit := @isElf_hit g i hi
      generalize g.bringToFront i = g₁ at hfront hhit ⊢
      generalize m.mx - (g.windows i).x = rx
      generalize m.my - (g.windows i).y = ry
      by_cases hkill : ((g₁.windows 7).w - 27 ≤ rx ∧ rx < (g₁.windows 7).w - 27 + 21 ∧ 6 ≤ ry ∧
          ry < 6 + 16) ∧ (g₁.windows 7).app = .elfGl
      · rw [if_pos hkill, if_pos hkill.1, if_pos hkill.2]
        exact Or.inr ⟨_, rfl, hfront.oneClosed (oneClosed_closeWindow (hhit hkill.2))⟩
      · rw [if_neg hkill]
        refine Or.inl ⟨rfl, hfront.trans ?_⟩
        split_ifs with hbutton happ htitle
        · exact absurd ⟨hbutton, happ⟩ hkill
        · exact sameElf_closeWindow happ
        · exact ⟨rfl, fun _ => rfl⟩
        · exact sameElf_clickBody g₁ m 7 rx ry

end Gui

end Microkernel
