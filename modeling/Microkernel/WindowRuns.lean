/-
# The windows over whole runs

What every step of the window manager keeps: the focus is on the active window with the
highest index, and each open window is in the table exactly once.  A drag keeps hold of the
window whose title bar was grabbed as long as no window is opened or raised meanwhile; the
other windows move to other indices then, and `drag_idx` does not follow.
-/
import Microkernel.Windows
import Microkernel.Runs

namespace Microkernel

namespace Gui

variable {g g' : Gui} {i j idx : WinIdx}

/-! ## The window in front -/

/-- In a list that goes down, the first element found is the largest. -/
theorem le_of_find?_eq_some {l : List WinIdx} {p : WinIdx → Bool} (hl : l.Pairwise (· > ·))
    (h : l.find? p = some i) (hj : j ∈ l) (hp : p j = true) : j ≤ i := by
  induction l with
  | nil => cases hj
  | cons a l ih =>
    obtain ⟨ha, hl⟩ := List.pairwise_cons.mp hl
    cases hpa : p a with
    | true =>
      rw [List.find?_cons_of_pos hpa] at h
      cases h
      rcases List.mem_cons.mp hj with rfl | hj
      · exact le_rfl
      · exact (ha j hj).le
    | false =>
      rw [List.find?_cons_of_neg (by rw [hpa]; exact Bool.false_ne_true)] at h
      rcases List.mem_cons.mp hj with rfl | hj
      · rw [hpa] at hp
        cases hp
      · exact ih hl h hj

theorem mem_countdown (i : WinIdx) : i ∈ (List.finRange 8).reverse :=
  List.mem_reverse.mpr (List.mem_finRange i)

theorem countdown_pairwise : ((List.finRange 8).reverse).Pairwise (· > ·) := by decide

/-- The window in front is active, and no active window has a higher index. -/
theorem topActive_eq_some {w : WinIdx → Window} :
    topActive w = some i ↔ (w i).active = true ∧ ∀ j, (w j).active = true → j ≤ i := by
  constructor
  · intro h
    have hi := List.find?_some h
    exact ⟨hi, fun j hj => le_of_find?_eq_some countdown_pairwise h (mem_countdown j) hj⟩
  · rintro ⟨hi, hmax⟩
    cases h : topActive w with
    | none =>
      have hnone := List.find?_eq_none.mp h i (mem_countdown i)
      exact absurd hi hnone
    | some k =>
      have hk := List.find?_some h
      have hle := le_of_find?_eq_some countdown_pairwise h (mem_countdown i) hi
      rw [le_antisymm (hmax k hk) hle]

/-- Only the flags `active` matter. -/
theorem topActive_congr {w w' : WinIdx → Window} (h : ∀ i, (w' i).active = (w i).active) :
    topActive w' = topActive w := by
  unfold topActive
  congr 1
  funext i
  exact h i

/-! ## The focus -/

/-- The focus is on the active window with the highest index, and nowhere else. -/
structure FocusInv (g : Gui) : Prop where
  index : g.focusIdx = topActive g.windows
  flags : ∀ i, (g.windows i).active = true →
    ((g.windows i).focused = true ↔ g.focusIdx = some i)

theorem focusTop_windows (g : Gui) (i : WinIdx) : g.focusTop.windows i =
    { g.windows i with
      focused := if topActive g.windows = some i then true else (g.windows i).focused } := by
  unfold focusTop
  cases h : topActive g.windows with
  | none => simp
  | some k =>
    by_cases hik : i = k
    · subst hik
      simp
    · have hne : ¬ k = i := fun hh => hik hh.symm
      simp [hik, hne]

theorem focusTop_focusIdx (g : Gui) : g.focusTop.focusIdx = topActive g.windows := by
  unfold focusTop
  cases topActive g.windows <;> rfl

/-- What `focusTop` leaves alone. -/
theorem focusTop_frame (g : Gui) : g.focusTop.opened = g.opened ∧ g.focusTop.openSet = g.openSet ∧
    g.focusTop.dragging = g.dragging ∧ g.focusTop.dragIdx = g.dragIdx ∧
    g.focusTop.grabbed = g.grabbed ∧ g.focusTop.elfGuiSlots = g.elfGuiSlots := by
  unfold focusTop
  cases topActive g.windows <;> exact ⟨rfl, rfl, rfl, rfl, rfl, rfl⟩

/-- **Focusing the window in front** is right when no other active window has the focus. -/
theorem focusInv_focusTop (h : ∀ i, (g.windows i).active = true → topActive g.windows ≠ some i →
    (g.windows i).focused = false) : FocusInv g.focusTop := by
  have hactive : ∀ i, (g.focusTop.windows i).active = (g.windows i).active := fun i => by
    rw [focusTop_windows]
  refine ⟨?_, fun i hi => ?_⟩
  · rw [focusTop_focusIdx, topActive_congr hactive]
  · rw [hactive] at hi
    rw [focusTop_focusIdx, focusTop_windows]
    by_cases htop : topActive g.windows = some i
    · rw [if_pos htop]
      exact iff_of_true rfl htop
    · rw [if_neg htop, h i hi htop]
      exact iff_of_false Bool.false_ne_true htop

/-! ## The open windows -/

/-- Each open window is in the table, once. -/
structure Listed (g : Gui) : Prop where
  mem : ∀ n, n ∈ g.openSet ↔ ∃ i, (g.windows i).active = true ∧ (g.windows i).serial = n
  once : ∀ i j, (g.windows i).active = true → (g.windows j).active = true →
    (g.windows i).serial = (g.windows j).serial → i = j
  below : ∀ n ∈ g.openSet, n < g.opened

/-- The new state differs in no more than what the invariants do not mention. -/
structure SameTable (g g' : Gui) : Prop where
  focusIdx : g'.focusIdx = g.focusIdx
  opened : g'.opened = g.opened
  openSet : g'.openSet = g.openSet
  active : ∀ i, (g'.windows i).active = (g.windows i).active
  focused : ∀ i, (g'.windows i).focused = (g.windows i).focused
  serial : ∀ i, (g'.windows i).serial = (g.windows i).serial

theorem SameTable.of_windows_eq (hw : g'.windows = g.windows) (hf : g'.focusIdx = g.focusIdx)
    (ho : g'.opened = g.opened) (hs : g'.openSet = g.openSet) : SameTable g g' :=
  ⟨hf, ho, hs, fun i => by rw [hw], fun i => by rw [hw], fun i => by rw [hw]⟩

/-- Overwriting a window by one with the same flags and number. -/
theorem SameTable.update {idx : WinIdx} {win : Window} (ha : win.active = (g.windows idx).active)
    (hf : win.focused = (g.windows idx).focused) (hs : win.serial = (g.windows idx).serial) :
    SameTable g { g with windows := Function.update g.windows idx win } := by
  refine ⟨rfl, rfl, rfl, fun i => ?_, fun i => ?_, fun i => ?_⟩
  all_goals
    dsimp only
    by_cases hi : i = idx
    · subst hi
      rw [Function.update_self]
      assumption
    · rw [Function.update_of_ne hi]

theorem FocusInv.of_same (h : FocusInv g) (hs : SameTable g g') : FocusInv g' := by
  refine ⟨?_, fun i hi => ?_⟩
  · rw [hs.focusIdx, h.index, topActive_congr hs.active]
  · rw [hs.active] at hi
    rw [hs.focused, hs.focusIdx]
    exact h.flags i hi

theorem Listed.of_same (h : Listed g) (hs : SameTable g g') : Listed g' := by
  refine ⟨fun n => ?_, fun i j hi hj heq => ?_, ?_⟩
  · rw [hs.openSet, h.mem]
    exact exists_congr fun i => by rw [hs.active, hs.serial]
  · rw [hs.active] at hi hj
    rw [hs.serial, hs.serial] at heq
    exact h.once i j hi hj heq
  · rw [hs.openSet, hs.opened]
    exact h.below

/-- The focus does not matter for the list of open windows. -/
theorem Listed.focusTop (h : Listed g) : Listed g.focusTop := by
  obtain ⟨ho, hs, _⟩ := focusTop_frame g
  refine ⟨fun n => ?_, fun i j hi hj heq => ?_, ?_⟩
  · rw [hs, h.mem]
    exact exists_congr fun i => by rw [focusTop_windows]
  · rw [focusTop_windows] at hi hj
    rw [focusTop_windows, focusTop_windows] at heq
    exact h.once i j hi hj heq
  · rw [hs, ho]
    exact h.below

/-! ## Raising -/

/-- The index to which the window at `i` goes when the window at `idx` is raised. -/
def raisedTo (idx i : WinIdx) : WinIdx :=
  if i < idx then i else if i = idx then 7 else ⟨i.val - 1, by omega⟩

theorem raisedFrom_raisedTo : ∀ idx i, raisedFrom idx (raisedTo idx i) = i := by decide

theorem raisedTo_raisedFrom : ∀ idx i, raisedTo idx (raisedFrom idx i) = i := by decide

theorem raisedFrom_last : ∀ idx, raisedFrom idx 7 = idx := by decide

theorem bringToFront_of_active (h : (g.windows idx).active = true) : g.bringToFront idx =
    { g with windows := fun i => { g.windows (raisedFrom idx i) with focused := false } }.focusTop := by
  unfold bringToFront
  rw [h]
  rfl

theorem bringToFront_of_inactive (h : (g.windows idx).active = false) : g.bringToFront idx = g := by
  unfold bringToFront
  rw [h]
  rfl

/-- **Raising a window** gives it the last index and the focus. -/
theorem bringToFront_focusIdx (h : (g.windows idx).active = true) :
    (g.bringToFront idx).focusIdx = some 7 := by
  rw [bringToFront_of_active h, focusTop_focusIdx, topActive_eq_some]
  refine ⟨?_, fun j _ => Fin.le_last j⟩
  dsimp only
  rw [raisedFrom_last]
  exact h

theorem bringToFront_serial (h : (g.windows idx).active = true) (i : WinIdx) :
    ((g.bringToFront idx).windows i).serial = (g.windows (raisedFrom idx i)).serial := by
  rw [bringToFront_of_active h, focusTop_windows]

theorem bringToFront_frame (g : Gui) (idx : WinIdx) :
    (g.bringToFront idx).dragging = g.dragging ∧ (g.bringToFront idx).dragIdx = g.dragIdx ∧
      (g.bringToFront idx).grabbed = g.grabbed := by
  unfold bringToFront
  split_ifs
  · exact ⟨rfl, rfl, rfl⟩
  · obtain ⟨_, _, hd, hi, hg, _⟩ := focusTop_frame
      { g with windows := fun i => { g.windows (raisedFrom idx i) with focused := false } }
    exact ⟨hd, hi, hg⟩

theorem focusInv_bringToFront (h : (g.windows idx).active = true) :
    FocusInv (g.bringToFront idx) := by
  rw [bringToFront_of_active h]
  exact focusInv_focusTop fun _ _ _ => rfl

theorem FocusInv.bringToFront (h : FocusInv g) (idx : WinIdx) : FocusInv (g.bringToFront idx) := by
  cases hidx : (g.windows idx).active with
  | true => exact focusInv_bringToFront hidx
  | false =>
    rw [bringToFront_of_inactive hidx]
    exact h

theorem Listed.bringToFront (h : Listed g) (idx : WinIdx) : Listed (g.bringToFront idx) := by
  cases hidx : (g.windows idx).active with
  | false =>
    rw [bringToFront_of_inactive hidx]
    exact h
  | true =>
    rw [bringToFront_of_active hidx]
    apply Listed.focusTop
    refine ⟨fun n => ?_, fun i j hi hj heq => ?_, h.below⟩
    · rw [h.mem]
      constructor
      · rintro ⟨i, hi, hn⟩
        refine ⟨raisedTo idx i, ?_⟩
        dsimp only
        rw [raisedFrom_raisedTo]
        exact ⟨hi, hn⟩
      · rintro ⟨i, hi, hn⟩
        exact ⟨raisedFrom idx i, hi, hn⟩
    · have hsame := h.once _ _ hi hj heq
      rw [← raisedTo_raisedFrom idx i, hsame, raisedTo_raisedFrom]

/-! ## Opening -/

/-- The table with a new window in a free slot, before it is raised. -/
def withWindow (g : Gui) (idx : WinIdx) (win : Window) : Gui :=
  { g with
    windows := Function.update g.windows idx win
    opened := g.opened + 1
    openSet := insert g.opened g.openSet }

theorem findFreeWindow_eq_some (h : g.findFreeWindow = some idx) :
    (g.windows idx).active = false := by
  have hfree := List.find?_some h
  simpa using hfree

/-- Opening a window fails without changes, or it raises the new window. -/
theorem openWindow_cases (g : Gui) (title : List UInt8) (x y w h : ℤ) (app : AppType) :
    (g.findFreeWindow = none ∧ g.openWindow title x y w h app = (g, none)) ∨
    ∃ idx win, g.findFreeWindow = some idx ∧ win.active = true ∧ win.serial = g.opened ∧
      g.openWindow title x y w h app = ((g.withWindow idx win).bringToFront idx, some 7) := by
  unfold openWindow
  cases hfree : g.findFreeWindow with
  | none => exact Or.inl ⟨rfl, rfl⟩
  | some idx =>
    refine Or.inr ⟨idx, _, rfl, ?_, ?_, Prod.ext rfl ?_⟩
    · exact rfl
    · exact rfl
    · refine bringToFront_focusIdx ?_
      dsimp only
      rw [Function.update_self]

theorem withWindow_active {win : Window} (ha : win.active = true) :
    ((g.withWindow idx win).windows idx).active = true := by
  unfold withWindow
  dsimp only
  rwa [Function.update_self]

theorem Listed.withWindow (h : Listed g) {win : Window} (hidx : (g.windows idx).active = false)
    (ha : win.active = true) (hs : win.serial = g.opened) : Listed (g.withWindow idx win) := by
  unfold Gui.withWindow
  have hne : ∀ {i}, (g.windows i).active = true → i ≠ idx := by
    rintro i hi rfl
    rw [hidx] at hi
    cases hi
  have hfresh : ∀ i, (g.windows i).active = true → (g.windows i).serial ≠ g.opened := fun i hi =>
    (h.below _ ((h.mem _).mpr ⟨i, hi, rfl⟩)).ne
  refine ⟨fun n => ?_, fun i j hi hj heq => ?_, fun n hn => ?_⟩
  · rw [Finset.mem_insert]
    constructor
    · rintro (rfl | hn)
      · refine ⟨idx, ?_⟩
        dsimp only
        rw [Function.update_self]
        exact ⟨ha, hs⟩
      · obtain ⟨i, hi, hn⟩ := (h.mem n).mp hn
        refine ⟨i, ?_⟩
        dsimp only
        rw [Function.update_of_ne (hne hi)]
        exact ⟨hi, hn⟩
    · rintro ⟨i, hi, hn⟩
      by_cases hii : i = idx
      · subst hii
        dsimp only at hn
        rw [Function.update_self, hs] at hn
        exact Or.inl hn.symm
      · dsimp only at hi hn
        rw [Function.update_of_ne hii] at hi hn
        exact Or.inr ((h.mem n).mpr ⟨i, hi, hn⟩)
  · dsimp only at hi hj heq
    by_cases hii : i = idx
    · by_cases hjj : j = idx
      · rw [hii, hjj]
      · rw [Function.update_of_ne hjj] at hj heq
        rw [hii, Function.update_self, hs] at heq
        exact absurd heq.symm (hfresh j hj)
    · rw [Function.update_of_ne hii] at hi heq
      by_cases hjj : j = idx
      · rw [hjj, Function.update_self, hs] at heq
        exact absurd heq (hfresh i hi)
      · rw [Function.update_of_ne hjj] at hj heq
        exact h.once i j hi hj heq
  · rcases Finset.mem_insert.mp hn with rfl | hn
    · exact Nat.lt_succ_self _
    · exact (h.below n hn).trans (Nat.lt_succ_self _)

/-! ## Closing -/

theorem closeWindow_serial (g : Gui) (idx i : WinIdx) :
    ((g.closeWindow idx).windows i).serial = (g.windows i).serial := by
  unfold closeWindow
  rw [focusTop_windows]
  dsimp only
  by_cases hi : i = idx
  · subst hi
    rw [Function.update_self]
  · rw [Function.update_of_ne hi]

theorem closeWindow_frame (g : Gui) (idx : WinIdx) :
    (g.closeWindow idx).dragging = g.dragging ∧ (g.closeWindow idx).dragIdx = g.dragIdx ∧
      (g.closeWindow idx).grabbed = g.grabbed := by
  unfold closeWindow
  obtain ⟨_, _, hd, hi, hg, _⟩ := focusTop_frame { g with
    windows := Function.update g.windows idx { g.windows idx with active := false }
    openSet := if (g.windows idx).active then g.openSet.erase (g.windows idx).serial
      else g.openSet }
  exact ⟨hd, hi, hg⟩

theorem FocusInv.closeWindow (h : FocusInv g) (idx : WinIdx) : FocusInv (g.closeWindow idx) := by
  unfold Gui.closeWindow
  apply focusInv_focusTop
  intro i hi htop
  dsimp only at hi htop ⊢
  by_cases hii : i = idx
  · subst hii
    rw [Function.update_self] at hi
    cases hi
  · rw [Function.update_of_ne hii] at hi ⊢
    rw [Bool.eq_false_iff]
    intro hfocused
    -- a window with the focus was in front, and it still is
    have hfront := h.index.symm.trans ((h.flags i hi).mp hfocused)
    obtain ⟨_, hmax⟩ := topActive_eq_some.mp hfront
    refine htop (topActive_eq_some.mpr ⟨?_, fun j hj => ?_⟩)
    · rwa [Function.update_of_ne hii]
    · by_cases hjj : j = idx
      · subst hjj
        rw [Function.update_self] at hj
        cases hj
      · rw [Function.update_of_ne hjj] at hj
        exact hmax j hj

theorem Listed.closeWindow (h : Listed g) (idx : WinIdx) : Listed (g.closeWindow idx) := by
  unfold Gui.closeWindow
  apply Listed.focusTop
  have hsub : (if (g.windows idx).active then g.openSet.erase (g.windows idx).serial
      else g.openSet) ⊆ g.openSet := by
    split_ifs
    · exact Finset.erase_subset _ _
    · exact Finset.Subset.refl _
  have hold : ∀ {i}, ((Function.update g.windows idx
      { g.windows idx with active := false }) i).active = true →
      i ≠ idx ∧ (g.windows i).active = true := by
    intro i hi
    by_cases hii : i = idx
    · subst hii
      rw [Function.update_self] at hi
      cases hi
    · rw [Function.update_of_ne hii] at hi
      exact ⟨hii, hi⟩
  refine ⟨fun n => ?_, fun i j hi hj heq => ?_, fun n hn => h.below n (hsub hn)⟩
  · dsimp only
    constructor
    · intro hn
      obtain ⟨i, hi, hs⟩ := (h.mem n).mp (hsub hn)
      have hne : i ≠ idx := by
        rintro rfl
        rw [if_pos hi, ← hs] at hn
        exact absurd rfl (Finset.ne_of_mem_erase hn)
      refine ⟨i, ?_, ?_⟩
      · rwa [Function.update_of_ne hne]
      · rwa [Function.update_of_ne hne]
    · rintro ⟨i, hi, hs⟩
      obtain ⟨hne, hi⟩ := hold hi
      rw [Function.update_of_ne hne] at hs
      have hmem := (h.mem n).mpr ⟨i, hi, hs⟩
      split_ifs with hidx
      · refine Finset.mem_erase.mpr ⟨?_, hmem⟩
        rintro rfl
        exact hne (h.once i idx hi hidx hs)
      · exact hmem
  · dsimp only at heq
    obtain ⟨hi', hi⟩ := hold hi
    obtain ⟨hj', hj⟩ := hold hj
    rw [Function.update_of_ne hi', Function.update_of_ne hj'] at heq
    exact h.once i j hi hj heq

/-! ## The steps -/

/-- Both invariants. -/
structure WellKept (g : Gui) : Prop where
  focus : FocusInv g
  listed : Listed g

namespace WellKept

theorem of_same (h : WellKept g) (hs : SameTable g g') : WellKept g' :=
  ⟨h.focus.of_same hs, h.listed.of_same hs⟩

/-- Changing only variables that have nothing to do with the table. -/
theorem of_windows_eq (h : WellKept g) (hw : g'.windows = g.windows)
    (hf : g'.focusIdx = g.focusIdx) (ho : g'.opened = g.opened) (hs : g'.openSet = g.openSet) :
    WellKept g' :=
  h.of_same (.of_windows_eq hw hf ho hs)

theorem bringToFront (h : WellKept g) (idx : WinIdx) : WellKept (g.bringToFront idx) :=
  ⟨h.focus.bringToFront idx, h.listed.bringToFront idx⟩

theorem closeWindow (h : WellKept g) (idx : WinIdx) : WellKept (g.closeWindow idx) :=
  ⟨h.focus.closeWindow idx, h.listed.closeWindow idx⟩

theorem openWindow (h : WellKept g) (title : List UInt8) (x y w hh : ℤ) (app : AppType) :
    WellKept (g.openWindow title x y w hh app).1 := by
  rcases openWindow_cases g title x y w hh app with
    ⟨_, heq⟩ | ⟨idx, win, hfree, ha, hs, heq⟩
  · rw [heq]
    exact h
  · rw [heq]
    exact ⟨focusInv_bringToFront (withWindow_active ha),
      (h.listed.withWindow (findFreeWindow_eq_some hfree) ha hs).bringToFront idx⟩

theorem freeElfSlotOf (h : WellKept g) (pid : UInt32) : WellKept (g.freeElfSlotOf pid) := by
  unfold Gui.freeElfSlotOf
  split
  · exact h
  · exact h.of_windows_eq rfl rfl rfl rfl

theorem guiElfWinOpen (h : WellKept g) (pid : UInt32) (name : Option (List UInt8)) :
    WellKept (g.guiElfWinOpen pid name).1 := by
  unfold Gui.guiElfWinOpen
  split
  · exact h
  · have hopen := h.openWindow "User App".toUTF8.toList 150 100 (320 + 14) (200 + titlebarH + 10)
      .elfGl
    split
    · rename_i heq
      rw [heq] at hopen
      exact hopen
    · rename_i g₁ idx heq
      rw [heq] at hopen
      cases name with
      | none =>
        have hsame : SameTable g₁ { g₁ with
            windows := Function.update g₁.windows idx
              { g₁.windows idx with ownerPid := pid } } := .update rfl rfl rfl
        exact (hopen.of_same hsame).of_windows_eq rfl rfl rfl rfl
      | some name =>
        have hsame : SameTable g₁ { g₁ with
            windows := Function.update g₁.windows idx
              { g₁.windows idx with ownerPid := pid, title := name.take 39 } } := .update rfl rfl rfl
        exact (hopen.of_same hsame).of_windows_eq rfl rfl rfl rfl

theorem guiElfWinClose (h : WellKept g) (pid : UInt32) : WellKept (g.guiElfWinClose pid) := by
  unfold Gui.guiElfWinClose
  split
  · exact h
  · apply freeElfSlotOf
    split_ifs
    · split
      · exact h.closeWindow _
      · exact h
    · exact h

theorem cleanUp (h : WellKept g) (dead : UInt32 → Bool) (i : WinIdx) :
    WellKept (g.cleanUp dead i) := by
  unfold Gui.cleanUp
  split_ifs
  · exact (h.freeElfSlotOf _).closeWindow i
  · exact h

theorem startMenuItem (h : WellKept g) (item : ℤ) : WellKept (g.startMenuItem item) := by
  unfold Gui.startMenuItem
  split_ifs
  all_goals first
    | exact h.openWindow _ _ _ _ _ _
    | exact h.of_windows_eq rfl rfl rfl rfl

theorem handleStartClick (h : WellKept g) (mx my : ℤ) : WellKept (g.handleStartClick mx my) := by
  have hmenu : WellKept { g with startMenuOpen := false } := h.of_windows_eq rfl rfl rfl rfl
  unfold Gui.handleStartClick
  dsimp only
  split_ifs
  · exact hmenu
  · exact h
  · exact hmenu.startMenuItem _
  · exact hmenu

theorem clickBody (h : WellKept g) (m : MouseInput) (ni : WinIdx) (rx ry : ℤ) :
    WellKept (g.clickBody m ni rx ry) := by
  unfold Gui.clickBody
  split
  · split_ifs
    · exact h.closeWindow ni
    · exact h
  · split
    · exact h.openWindow _ _ _ _ _ _
    · exact h
  · exact h

theorem clickWindow (h : WellKept g) (m : MouseInput) (i : WinIdx) :
    WellKept (g.clickWindow m i) := by
  have hfront := h.bringToFront i
  unfold Gui.clickWindow
  dsimp only
  split
  · exact hfront
  · split_ifs
    · exact (hfront.freeElfSlotOf _).closeWindow _
    · exact hfront.closeWindow _
    · exact hfront.of_windows_eq rfl rfl rfl rfl
    · exact hfront.clickBody m _ _ _

theorem dragTo (h : WellKept g) (d : WinIdx) (mx my : ℤ) : WellKept (g.dragTo d mx my) :=
  h.of_same (.update rfl rfl rfl)

theorem handleMouse (h : WellKept g) (m : MouseInput) : WellKept (g.handleMouse m) := by
  unfold Gui.handleMouse
  split_ifs
  · split
    · split_ifs
      · exact h.dragTo _ _ _
      · exact h.of_windows_eq rfl rfl rfl rfl
    · exact h.of_windows_eq rfl rfl rfl rfl
  · exact h
  · exact h.handleStartClick _ _
  · exact h.of_windows_eq rfl rfl rfl rfl
  · split
    · exact h.bringToFront _
    · exact h
  · split
    · exact h.clickWindow m _
    · exact h.of_windows_eq rfl rfl rfl rfl

/-- **Every step keeps the focus and the list of open windows.** -/
theorem exec (h : WellKept g) (e : GuiEvent) : WellKept (e.exec g) := by
  cases e with
  | openWindow title x y w hh app => exact h.openWindow title x y w hh app
  | bringToFront idx => exact h.bringToFront idx
  | closeWindow idx => exact h.closeWindow idx
  | elfOpen pid name => exact h.guiElfWinOpen pid name
  | elfClose pid => exact h.guiElfWinClose pid
  | cleanUp dead i => exact h.cleanUp dead i
  | mouse m => exact h.handleMouse m

end WellKept

/-! ## Dragging -/

/-- During a drag the window whose title bar was grabbed is at the index dragged, the last. -/
def DragInv (g : Gui) : Prop :=
  g.dragging = true → g.dragIdx = some 7 ∧ (g.windows 7).serial = g.grabbed

theorem dragInv_of_not_dragging (h : g.dragging = false) : DragInv g := fun hd => by
  rw [h] at hd
  cases hd

/-- The drag and the numbers in the table are the same. -/
structure SameDrag (g g' : Gui) : Prop where
  dragging : g'.dragging = g.dragging
  dragIdx : g'.dragIdx = g.dragIdx
  grabbed : g'.grabbed = g.grabbed
  serial : ∀ i, (g'.windows i).serial = (g.windows i).serial

theorem DragInv.of_same (h : DragInv g) (hs : SameDrag g g') : DragInv g' := by
  intro hd
  rw [hs.dragging] at hd
  rw [hs.dragIdx, hs.grabbed, hs.serial]
  exact h hd

theorem sameDrag_closeWindow (g : Gui) (idx : WinIdx) : SameDrag g (g.closeWindow idx) := by
  obtain ⟨hd, hi, hg⟩ := closeWindow_frame g idx
  exact ⟨hd, hi, hg, closeWindow_serial g idx⟩

theorem sameDrag_freeElfSlotOf (g : Gui) (pid : UInt32) : SameDrag g (g.freeElfSlotOf pid) := by
  unfold freeElfSlotOf
  split <;> exact ⟨rfl, rfl, rfl, fun _ => rfl⟩

theorem SameDrag.trans {g'' : Gui} (h : SameDrag g g') (h' : SameDrag g' g'') : SameDrag g g'' :=
  ⟨h'.dragging.trans h.dragging, h'.dragIdx.trans h.dragIdx, h'.grabbed.trans h.grabbed,
    fun i => (h'.serial i).trans (h.serial i)⟩

theorem sameDrag_guiElfWinClose (g : Gui) (pid : UInt32) : SameDrag g (g.guiElfWinClose pid) := by
  have hrefl : SameDrag g g := ⟨rfl, rfl, rfl, fun _ => rfl⟩
  unfold guiElfWinClose
  split
  · exact hrefl
  · refine SameDrag.trans ?_ (sameDrag_freeElfSlotOf _ pid)
    split_ifs
    · split
      · exact sameDrag_closeWindow g _
      · exact hrefl
    · exact hrefl

theorem sameDrag_cleanUp (g : Gui) (dead : UInt32 → Bool) (i : WinIdx) :
    SameDrag g (g.cleanUp dead i) := by
  unfold cleanUp
  split_ifs
  · exact (sameDrag_freeElfSlotOf g _).trans (sameDrag_closeWindow _ i)
  · exact ⟨rfl, rfl, rfl, fun _ => rfl⟩

theorem openWindow_dragging (g : Gui) (title : List UInt8) (x y w h : ℤ) (app : AppType) :
    (g.openWindow title x y w h app).1.dragging = g.dragging := by
  rcases openWindow_cases g title x y w h app with ⟨_, heq⟩ | ⟨idx, win, _, _, _, heq⟩
  · rw [heq]
  · rw [heq]
    exact (bringToFront_frame _ idx).1

theorem guiElfWinOpen_dragging (g : Gui) (pid : UInt32) (name : Option (List UInt8)) :
    (g.guiElfWinOpen pid name).1.dragging = g.dragging := by
  unfold guiElfWinOpen
  split
  · rfl
  · have hopen := openWindow_dragging g "User App".toUTF8.toList 150 100 (320 + 14)
      (200 + titlebarH + 10) .elfGl
    split
    · rename_i heq
      rw [heq] at hopen
      exact hopen
    · rename_i heq
      rw [heq] at hopen
      exact hopen

theorem startMenuItem_dragging (g : Gui) (item : ℤ) :
    (g.startMenuItem item).dragging = g.dragging := by
  unfold startMenuItem
  split_ifs
  all_goals first
    | exact openWindow_dragging _ _ _ _ _ _ _
    | rfl

theorem handleStartClick_dragging (g : Gui) (mx my : ℤ) :
    (g.handleStartClick mx my).dragging = g.dragging := by
  unfold handleStartClick
  dsimp only
  split_ifs
  · rfl
  · rfl
  · exact startMenuItem_dragging _ _
  · rfl

/-- A click on a window grabs it, or it begins no drag. -/
theorem dragInv_clickWindow (m : MouseInput) {i : WinIdx} (hi : (g.windows i).active = true)
    (hd : g.dragging = false) : DragInv (g.clickWindow m i) := by
  have hfront : (g.bringToFront i).dragging = false := (bringToFront_frame g i).1.trans hd
  unfold clickWindow
  dsimp only
  rw [bringToFront_focusIdx hi]
  dsimp only
  split_ifs
  · refine dragInv_of_not_dragging ?_
    rw [(closeWindow_frame _ _).1]
    exact (sameDrag_freeElfSlotOf _ _).dragging.trans hfront
  · exact dragInv_of_not_dragging ((closeWindow_frame _ _).1.trans hfront)
  · intro _
    refine ⟨rfl, ?_⟩
    dsimp only
    rw [bringToFront_serial hi, raisedFrom_last]
  · refine dragInv_of_not_dragging ?_
    unfold clickBody
    split
    · split_ifs
      · exact (closeWindow_frame _ _).1.trans hfront
      · exact hfront
    · split
      · exact (openWindow_dragging _ _ _ _ _ _ _).trans hfront
      · exact hfront
    · exact hfront

theorem DragInv.handleMouse (h : DragInv g) (m : MouseInput) : DragInv (g.handleMouse m) := by
  cases hd : g.dragging with
  | true =>
    unfold Gui.handleMouse
    rw [if_pos hd, (h hd).1]
    dsimp only
    split_ifs
    · refine h.of_same ⟨rfl, rfl, rfl, fun i => ?_⟩
      unfold dragTo
      dsimp only
      by_cases hi : i = 7
      · subst hi
        rw [Function.update_self]
      · rw [Function.update_of_ne hi]
    · exact dragInv_of_not_dragging rfl
  | false =>
    unfold Gui.handleMouse
    rw [if_neg (by rw [hd]; exact Bool.false_ne_true)]
    split_ifs
    · exact dragInv_of_not_dragging hd
    · exact dragInv_of_not_dragging ((handleStartClick_dragging g _ _).trans hd)
    · exact dragInv_of_not_dragging hd
    · split
      · exact dragInv_of_not_dragging ((bringToFront_frame g _).1.trans hd)
      · exact dragInv_of_not_dragging hd
    · split
      · rename_i i hat
        have hin := List.find?_some hat
        exact dragInv_clickWindow m ((Bool.and_eq_true _ _).mp hin).1 hd
      · exact dragInv_of_not_dragging hd

/-- During a drag, no window is opened, and none but the one dragged is raised. -/
def KeepsGrab (g : Gui) : GuiEvent → Prop
  | .openWindow .. => g.dragging = true → g.findFreeWindow = none
  | .elfOpen .. => g.dragging = true → g.freeElfSlot = none ∨ g.findFreeWindow = none
  | .bringToFront idx => g.dragging = true → (g.windows idx).active = false ∨ g.dragIdx = some idx
  | _ => True

/-- **A drag keeps hold of its window** when nothing is opened or raised. -/
theorem DragInv.exec (h : DragInv g) {e : GuiEvent} (he : g.KeepsGrab e) : DragInv (e.exec g) := by
  cases e with
  | openWindow title x y w hh app =>
    show DragInv (g.openWindow title x y w hh app).1
    cases hd : g.dragging with
    | false => exact dragInv_of_not_dragging ((openWindow_dragging g _ _ _ _ _ _).trans hd)
    | true =>
      rcases openWindow_cases g title x y w hh app with ⟨_, heq⟩ | ⟨idx, win, hfree, _⟩
      · rw [heq]
        exact h
      · rw [he hd] at hfree
        cases hfree
  | bringToFront idx =>
    show DragInv (g.bringToFront idx)
    cases hd : g.dragging with
    | false => exact dragInv_of_not_dragging ((bringToFront_frame g idx).1.trans hd)
    | true =>
      rcases he hd with hidx | hidx
      · rw [bringToFront_of_inactive hidx]
        exact h
      · obtain ⟨hdrag, hserial⟩ := h hd
        have h7 : (7 : WinIdx) = idx := Option.some.inj (hdrag.symm.trans hidx)
        subst h7
        cases hactive : (g.windows 7).active with
        | false =>
          rw [bringToFront_of_inactive hactive]
          exact h
        | true =>
          obtain ⟨_, hi, hg⟩ := bringToFront_frame g 7
          intro _
          rw [hi, hg, bringToFront_serial hactive, raisedFrom_last]
          exact ⟨hdrag, hserial⟩
  | closeWindow idx => exact h.of_same (sameDrag_closeWindow g idx)
  | elfOpen pid name =>
    show DragInv (g.guiElfWinOpen pid name).1
    cases hd : g.dragging with
    | false => exact dragInv_of_not_dragging ((guiElfWinOpen_dragging g pid name).trans hd)
    | true =>
      have hsame : (g.guiElfWinOpen pid name).1 = g := by
        unfold guiElfWinOpen
        rcases he hd with hslot | hfree
        · rw [hslot]
        · split
          · rfl
          · rcases openWindow_cases g "User App".toUTF8.toList 150 100 (320 + 14)
              (200 + titlebarH + 10) .elfGl with ⟨_, heq⟩ | ⟨idx, win, hsome, _⟩
            · rw [heq]
            · rw [hfree] at hsome
              cases hsome
      rw [hsame]
      exact h
  | elfClose pid => exact h.of_same (sameDrag_guiElfWinClose g pid)
  | cleanUp dead i => exact h.of_same (sameDrag_cleanUp g dead i)
  | mouse m => exact h.handleMouse m

/-! ## Runs -/

theorem wellKept_start (gfxW gfxH : ℤ) : WellKept (start gfxW gfxH) := by
  have hnone : ∀ i, ((start gfxW gfxH).windows i).active = true → False := fun i hi => by cases hi
  refine ⟨⟨rfl, fun i hi => absurd hi (hnone i)⟩, ⟨fun n => ⟨fun hn => ?_, ?_⟩, ?_, ?_⟩⟩
  · exact absurd hn (Finset.notMem_empty n)
  · rintro ⟨i, hi, _⟩
    exact absurd hi (hnone i)
  · exact fun i j hi => absurd hi (hnone i)
  · exact fun n hn => absurd hn (Finset.notMem_empty n)

/-- **The window manager.**  In every run the focus is on the active window with the highest
index, and each window that was opened and not closed is in the table exactly once.  If during
drags no window is opened and no other window is raised, the window whose title bar was grabbed
is at `drag_idx`. -/
theorem window_manager {gfxW gfxH : ℤ} {es : List GuiEvent}
    (hrun : Run (fun g e g' => e.exec g = g') (start gfxW gfxH) es g) :
    FocusInv g ∧ Listed g ∧
      (Run (fun g e g' => g.KeepsGrab e ∧ e.exec g = g') (start gfxW gfxH) es g → DragInv g) := by
  have hkept : WellKept g := hrun.invariant (fun g₁ e g₂ (hst : e.exec g₁ = g₂) h => hst ▸ h.exec e)
    (wellKept_start gfxW gfxH)
  refine ⟨hkept.focus, hkept.listed, fun hcalm => ?_⟩
  refine hcalm.invariant (fun g₁ e g₂ hst h => ?_) (dragInv_of_not_dragging rfl)
  rw [← hst.2]
  exact h.exec hst.1

/-- A new window is grabbed by its title bar and dragged. -/
theorem window_manager_drag : ∃ g, Run (fun g e g' => GuiEvent.exec g e = g') (start 1920 1080)
      [.openWindow [] 100 100 300 200 .calc, .mouse ⟨110, 105, true, true, none⟩,
        .mouse ⟨150, 145, false, true, none⟩] g ∧
    (FocusInv g ∧ Listed g ∧ (Run (fun g e g' => g.KeepsGrab e ∧ e.exec g = g') (start 1920 1080)
      [.openWindow [] 100 100 300 200 .calc, .mouse ⟨110, 105, true, true, none⟩,
        .mouse ⟨150, 145, false, true, none⟩] g → DragInv g)) := by
  have hrun : Run (fun g e g' => GuiEvent.exec g e = g') (start 1920 1080)
      [.openWindow [] 100 100 300 200 .calc, .mouse ⟨110, 105, true, true, none⟩,
        .mouse ⟨150, 145, false, true, none⟩] _ := .cons rfl (.cons rfl (.cons rfl (.nil _)))
  exact ⟨_, hrun, window_manager hrun⟩

/-- A process opens its window during a drag: `drag_idx` is then the index of the new window,
and it follows the mouse. -/
theorem drag_takes_other_window : ∃ g, Run (fun g e g' => GuiEvent.exec g e = g') (start 1920 1080)
      [.openWindow [] 100 100 300 200 .calc, .mouse ⟨110, 105, true, true, none⟩,
        .elfOpen 5 none, .mouse ⟨400, 300, false, true, none⟩] g ∧
    g.dragging = true ∧ g.dragIdx = some 7 ∧ (g.windows 7).serial ≠ g.grabbed ∧
    (g.windows 6).serial = g.grabbed ∧ (g.windows 7).x = 390 := by
  refine ⟨_, .cons rfl (.cons rfl (.cons rfl (.cons rfl (.nil _)))), ?_⟩
  decide +kernel

end Gui

end Microkernel
