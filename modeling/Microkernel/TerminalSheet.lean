/-
# The terminal shows the end of what was written

A sheet that keeps all rows says what the terminal of `src/vga.c` is for: the screen has the last 25
of them.
-/
import Microkernel.Terminal

namespace Microkernel

open Sheet

variable {η : Type*} {t : Terminal η} {s : Sheet UInt16} {rest : ℕ → UInt16}

/-- What a character types on the sheet. -/
def strokeOf (color c : UInt8) : Stroke UInt16 :=
  if c = newline then .feed
  else if c = tab then .tab
  else if c = carriageReturn then .home
  else .letter (vgaEntry c color)

/-! ## Loops over the video memory -/

section loops

variable {α : Type*} (m : ℕ → α)

/-- A loop that stores one value in `n` places. -/
theorem foldl_fill (a n : ℕ) (e : α) (i : ℕ) :
    (List.range n).foldl (fun m x => Function.update m (a + x) e) m i =
      if a ≤ i ∧ i < a + n then e else m i := by
  induction n with
  | zero =>
    rw [List.range_zero, List.foldl_nil, if_neg]
    rintro ⟨hle, hlt⟩
    omega
  | succ n ih =>
    rw [List.range_succ, List.foldl_append, List.foldl_cons, List.foldl_nil, Function.update_apply,
      ih]
    split_ifs <;> first | rfl | omega

/-- A loop that copies `n` places from further behind. -/
theorem foldl_copy {a b : ℕ} (hab : a ≤ b) (n i : ℕ) :
    (List.range n).foldl (fun m x => Function.update m (a + x) (m (b + x))) m i =
      if a ≤ i ∧ i < a + n then m (b + (i - a)) else m i := by
  induction n generalizing i with
  | zero =>
    rw [List.range_zero, List.foldl_nil, if_neg]
    rintro ⟨hle, hlt⟩
    omega
  | succ n ih =>
    rw [List.range_succ, List.foldl_append, List.foldl_cons, List.foldl_nil, Function.update_apply,
      ih i, ih (b + n)]
    have hread : ¬ (a ≤ b + n ∧ b + n < a + n) := by omega
    by_cases hi : i = a + n
    · -- The place that is read comes behind the ones that were written.
      rw [if_pos hi, if_neg hread, if_pos (by omega), hi, Nat.add_sub_cancel_left]
    · rw [if_neg hi]
      apply if_congr _ rfl rfl
      omega

end loops

theorem moveRow_apply (m : ℕ → UInt16) (y i : ℕ) :
    Terminal.moveRow y m i =
      if y * vgaWidth ≤ i ∧ i < y * vgaWidth + vgaWidth then m (i + vgaWidth) else m i := by
  have hle : y * vgaWidth ≤ (y + 1) * vgaWidth := Nat.mul_le_mul_right _ (Nat.le_succ y)
  show (List.range vgaWidth).foldl (fun m x => Function.update m (y * vgaWidth + x)
    (m ((y + 1) * vgaWidth + x))) m i = _
  rw [foldl_copy m hle]
  split_ifs with hi
  · congr 1
    rw [Nat.succ_mul]
    omega
  · rfl

/-- `scroll` moves every row up and blanks the last one. -/
theorem Terminal.scroll_apply (t : Terminal η) (i : ℕ) :
    t.scroll.vgaBuffer i =
      if i < (vgaHeight - 1) * vgaWidth then t.vgaBuffer (i + vgaWidth)
      else if i < vgaHeight * vgaWidth then t.blankEntry else t.vgaBuffer i := by
  have hmoved : ∀ k i, (List.range k).foldl (fun m y => Terminal.moveRow y m) t.vgaBuffer i =
      if i < k * vgaWidth then t.vgaBuffer (i + vgaWidth) else t.vgaBuffer i := by
    intro k
    induction k with
    | zero =>
      intro i
      rw [List.range_zero, List.foldl_nil, Nat.zero_mul, if_neg (Nat.not_lt_zero i)]
    | succ k ih =>
      intro i
      rw [List.range_succ, List.foldl_append, List.foldl_cons, List.foldl_nil, moveRow_apply, ih, ih,
        Nat.succ_mul]
      split_ifs <;> first | rfl | omega
  have hend : vgaHeight * vgaWidth = (vgaHeight - 1) * vgaWidth + vgaWidth := rfl
  refine (foldl_fill _ ((vgaHeight - 1) * vgaWidth) vgaWidth t.blankEntry i).trans ?_
  rw [hmoved, hend]
  split_ifs <;> first | rfl | omega

theorem clearBuffer_apply (entry : UInt16) (m : ℕ → UInt16) (i : ℕ) :
    Terminal.clearBuffer entry m i = if i < vgaHeight * vgaWidth then entry else m i := by
  have hfill := foldl_fill m 0 (vgaWidth * vgaHeight) entry i
  unfold Terminal.clearBuffer
  simp only [Nat.zero_add, Nat.zero_le, true_and] at hfill
  rw [Nat.mul_comm vgaHeight]
  exact hfill

/-! ## One step -/

/-- The terminal shows a sheet: what is not on the screen is `rest`, and the controller has the place
of the cursor. -/
structure Terminal.OnSheet (rest : ℕ → UInt16) (t : Terminal η) (s : Sheet UInt16) : Prop where
  shows : Sheet.Shows vgaHeight vgaWidth t.vgaBuffer t.termRow t.termCol s
  col_lt : t.termCol < vgaWidth
  outside : ∀ i, vgaHeight * vgaWidth ≤ i → t.vgaBuffer i = rest i
  cursor : t.cursorHigh * 256 + t.cursorLow = t.termRow * vgaWidth + t.termCol

namespace Terminal.OnSheet

/-- A terminal whose cursor registers are written last. -/
theorem of_updateCursor
    (hs : Sheet.Shows vgaHeight vgaWidth t.vgaBuffer t.termRow t.termCol s)
    (hcol : t.termCol < vgaWidth) (hout : ∀ i, vgaHeight * vgaWidth ≤ i → t.vgaBuffer i = rest i) :
    t.updateCursor.OnSheet rest s := by
  refine ⟨hs, hcol, hout, ?_⟩
  have hplace : t.termRow * vgaWidth + t.termCol < vgaHeight * vgaWidth := place_lt hs.row_lt hcol
  have hsmall : vgaHeight * vgaWidth < 256 * 256 := by decide
  show (t.termRow * vgaWidth + t.termCol) / 256 % 256 * 256 +
    (t.termRow * vgaWidth + t.termCol) % 256 = t.termRow * vgaWidth + t.termCol
  omega

/-- The cursor has gone below a row: the screen scrolls if that was the last one. -/
theorem endScreen {row col : ℕ} (hs : Sheet.Shows vgaHeight vgaWidth t.vgaBuffer row col s)
    (hrow : t.termRow = row + 1) (hcol : t.termCol = col) :
    Sheet.Shows vgaHeight vgaWidth t.endScreen.vgaBuffer t.endScreen.termRow t.endScreen.termCol
      (s.down t.blankEntry) := by
  have hlt := hs.row_lt
  unfold Terminal.endScreen
  by_cases hend : vgaHeight ≤ t.termRow
  · rw [if_pos hend]
    have hlast : row + 1 = vgaHeight := by omega
    show Sheet.Shows vgaHeight vgaWidth t.scroll.vgaBuffer (vgaHeight - 1) t.termCol _
    rw [hcol]
    apply hs.scroll hlast
    · intro y hy z hz
      rw [scroll_apply, if_pos (place_lt hy hz), Nat.succ_mul]
      congr 1
      omega
    · intro z hz
      rw [scroll_apply, if_neg (Nat.not_lt.mpr (Nat.le_add_right _ _)),
        if_pos (place_lt (by decide) hz)]
  · rw [if_neg hend, hrow, hcol]
    exact hs.down (by omega) t.blankEntry

theorem outside_endScreen (hout : ∀ i, vgaHeight * vgaWidth ≤ i → t.vgaBuffer i = rest i) (i : ℕ)
    (hi : vgaHeight * vgaWidth ≤ i) : t.endScreen.vgaBuffer i = rest i := by
  have hless : (vgaHeight - 1) * vgaWidth ≤ vgaHeight * vgaWidth := by decide
  unfold Terminal.endScreen
  split_ifs
  · rw [scroll_apply, if_neg (by omega), if_neg (by omega), hout i hi]
  · exact hout i hi

/-- A store at the cursor is on the screen. -/
theorem outside_store (h : t.OnSheet rest s) (entry : UInt16) (i : ℕ)
    (hi : vgaHeight * vgaWidth ≤ i) : (t.store entry).vgaBuffer i = rest i := by
  have hplace : t.termRow * vgaWidth + t.termCol < vgaHeight * vgaWidth :=
    place_lt h.shows.row_lt h.col_lt
  show Function.update t.vgaBuffer (t.termRow * vgaWidth + t.termCol) entry i = rest i
  rw [Function.update_of_ne (by omega), h.outside i hi]

/-- The cursor goes to the start of the next row. -/
theorem newRow (hs : Sheet.Shows vgaHeight vgaWidth t.vgaBuffer t.termRow t.termCol s)
    (hout : ∀ i, vgaHeight * vgaWidth ≤ i → t.vgaBuffer i = rest i) :
    (t.moveTo ((t.termRow + 1) % 256) 0).endScreen.updateCursor.OnSheet rest
      ((s.moveTo 0).down t.blankEntry) := by
  have hlt := hs.row_lt
  have hsmall : vgaHeight < 256 := by decide
  have hshows := endScreen (t := t.moveTo ((t.termRow + 1) % 256) 0) (hs.moveTo 0)
    (Nat.mod_eq_of_lt (by omega)) rfl
  refine of_updateCursor hshows ?_ (outside_endScreen hout)
  rw [← hshows.col_eq, down_col, moveTo_col]
  decide

/-- The cursor has gone on in a row: behind a full one it goes to the next. -/
theorem endRow (hs : Sheet.Shows vgaHeight vgaWidth t.vgaBuffer t.termRow t.termCol s)
    (hout : ∀ i, vgaHeight * vgaWidth ≤ i → t.vgaBuffer i = rest i) :
    t.endRow.endScreen.updateCursor.OnSheet rest (s.wrap vgaWidth t.blankEntry) := by
  have hlt := hs.row_lt
  unfold Terminal.endRow Sheet.wrap
  rw [hs.col_eq]
  by_cases hfull : vgaWidth ≤ t.termCol
  · rw [if_pos hfull, if_pos hfull]
    exact newRow hs hout
  · rw [if_neg hfull, if_neg hfull]
    have hsame : t.endScreen = t := if_neg (Nat.not_le.mpr hlt)
    rw [hsame]
    exact of_updateCursor hs (Nat.lt_of_not_ge hfull) hout

/-- The hook does not change the screen. -/
theorem callHook (h : t.OnSheet rest s) (c : UInt8) : (t.callHook c).OnSheet rest s := by
  unfold Terminal.callHook
  cases t.outputHook with
  | none => exact h
  | some hook => exact ⟨h.shows, h.col_lt, h.outside, h.cursor⟩

theorem callHook_color (c : UInt8) : (t.callHook c).termColor = t.termColor := by
  unfold Terminal.callHook
  cases t.outputHook with
  | none => rfl
  | some hook => rfl

/-- **A character appears on the screen as on the sheet.** -/
theorem place (h : t.OnSheet rest s) (c : UInt8) :
    (t.place c).endRow.endScreen.updateCursor.OnSheet rest
      (s.stroke vgaWidth 8 t.blankEntry (strokeOf t.termColor c)) := by
  have hcol := h.col_lt
  have hwidth : vgaWidth = 80 := rfl
  unfold Terminal.place strokeOf
  by_cases hnewline : c = newline
  · rw [if_pos hnewline, if_pos hnewline]
    have hsame : (t.moveTo ((t.termRow + 1) % 256) 0).endRow =
        t.moveTo ((t.termRow + 1) % 256) 0 := if_neg (by decide : ¬ vgaWidth ≤ 0)
    rw [hsame]
    exact newRow h.shows h.outside
  rw [if_neg hnewline, if_neg hnewline]
  by_cases htab : c = tab
  · rw [if_pos htab, if_pos htab]
    have hstop : (s.col / 8 + 1) * 8 = (t.termCol + 8) / 8 * 8 % 256 := by
      rw [h.shows.col_eq]
      omega
    show Terminal.OnSheet rest _ ((s.moveTo ((s.col / 8 + 1) * 8)).wrap vgaWidth t.blankEntry)
    rw [hstop]
    exact endRow (t := t.moveTo t.termRow ((t.termCol + 8) / 8 * 8 % 256)) (h.shows.moveTo _) h.outside
  rw [if_neg htab, if_neg htab]
  by_cases hreturn : c = carriageReturn
  · rw [if_pos hreturn, if_pos hreturn]
    exact endRow (t := t.moveTo t.termRow 0) (h.shows.moveTo 0) h.outside
  · rw [if_neg hreturn, if_neg hreturn]
    have hsucc : (t.termCol + 1) % 256 = s.col + 1 := by
      rw [h.shows.col_eq]
      omega
    show Terminal.OnSheet rest _
      (((s.write (vgaEntry c t.termColor)).moveTo (s.col + 1)).wrap vgaWidth t.blankEntry)
    rw [← hsucc]
    apply endRow (t := (t.store (vgaEntry c t.termColor)).moveTo t.termRow ((t.termCol + 1) % 256))
    · exact (h.shows.write hcol _).moveTo _
    · exact h.outside_store (vgaEntry c t.termColor)

/-- `terminal_putchar` types on the sheet. -/
theorem putchar (h : t.OnSheet rest s) (c : UInt8) :
    (t.putchar c).OnSheet rest (s.stroke vgaWidth 8 t.blankEntry (strokeOf t.termColor c)) := by
  have hstep := (h.callHook c).place c
  unfold Terminal.blankEntry at hstep ⊢
  rw [callHook_color] at hstep
  exact hstep

/-- `terminal_backspace` goes back on the sheet, as far as the screen shows it. -/
theorem backspace (h : t.OnSheet rest s) :
    t.backspace.OnSheet rest ((s.back vgaHeight vgaWidth).write t.blankEntry) := by
  have hback : (if 0 < t.termCol then t.moveTo t.termRow (t.termCol - 1)
      else if 0 < t.termRow then t.moveTo (t.termRow - 1) (vgaWidth - 1) else t) =
      t.moveTo (stepBack vgaWidth t.termRow t.termCol).1
        (stepBack vgaWidth t.termRow t.termCol).2 := by
    unfold stepBack
    split_ifs <;> rfl
  have hcol : (stepBack vgaWidth t.termRow t.termCol).2 < vgaWidth := stepBack_col_lt h.col_lt
  unfold Terminal.backspace
  rw [hback]
  have hmoved : (t.moveTo (stepBack vgaWidth t.termRow t.termCol).1
      (stepBack vgaWidth t.termRow t.termCol).2).updateCursor.OnSheet rest
        (s.back vgaHeight vgaWidth) :=
    of_updateCursor h.shows.back hcol h.outside
  exact of_updateCursor (hmoved.shows.write hcol t.blankEntry) hcol
    (hmoved.outside_store t.blankEntry)

/-- `terminal_clear` starts a sheet. -/
theorem clear (hout : ∀ i, vgaHeight * vgaWidth ≤ i → t.vgaBuffer i = rest i) :
    t.clear.OnSheet rest (Sheet.fresh vgaHeight t.blankEntry) := by
  refine of_updateCursor ⟨le_rfl, (by decide : 0 < vgaHeight), rfl, rfl, ?_⟩
    (by decide : 0 < vgaWidth) ?_
  · intro y hy z hz
    show Terminal.clearBuffer t.blankEntry t.vgaBuffer (y * vgaWidth + z) = t.blankEntry
    rw [clearBuffer_apply, if_pos (place_lt hy hz)]
  · intro i hi
    show Terminal.clearBuffer t.blankEntry t.vgaBuffer i = rest i
    rw [clearBuffer_apply, if_neg (Nat.not_lt.mpr hi)]
    exact hout i hi

theorem setColor (h : t.OnSheet rest s) (color : UInt8) : (t.setColor color).OnSheet rest s :=
  ⟨h.shows, h.col_lt, h.outside, h.cursor⟩

end Terminal.OnSheet

/-! ## Runs -/

/-- What the rest of the kernel does with the terminal. -/
inductive TerminalOp where
  | putchar (c : UInt8)
  | backspace
  | clear
  | setColor (color : UInt8)

/-- The sheet, with the color that is set. -/
structure Paper where
  sheet : Sheet UInt16
  color : UInt8

namespace TerminalOp

/-- The operations of the terminal. -/
def run (t : Terminal η) : TerminalOp → Terminal η
  | .putchar c => t.putchar c
  | .backspace => t.backspace
  | .clear => t.clear
  | .setColor color => t.setColor color

/-- What they do to the sheet. -/
def onPaper (p : Paper) : TerminalOp → Paper
  | .putchar c =>
    { p with sheet := p.sheet.stroke vgaWidth 8 (vgaEntry blank p.color) (strokeOf p.color c) }
  | .backspace =>
    { p with sheet := (p.sheet.back vgaHeight vgaWidth).write (vgaEntry blank p.color) }
  | .clear => { p with sheet := Sheet.fresh vgaHeight (vgaEntry blank p.color) }
  | .setColor color => { p with color := color }

end TerminalOp

/-- No part of `terminal_putchar` changes the color. -/
theorem Terminal.putchar_color (t : Terminal η) (c : UInt8) :
    (t.putchar c).termColor = t.termColor := by
  have hscreen : ∀ t : Terminal η, t.endScreen.termColor = t.termColor := by
    intro t
    unfold Terminal.endScreen
    split_ifs <;> rfl
  have hrow : ∀ t : Terminal η, t.endRow.termColor = t.termColor := by
    intro t
    unfold Terminal.endRow
    split_ifs <;> rfl
  have hplace : ∀ t : Terminal η, (t.place c).termColor = t.termColor := by
    intro t
    unfold Terminal.place
    split_ifs <;> rfl
  show (((t.callHook c).place c).endRow.endScreen).termColor = _
  rw [hscreen, hrow, hplace, Terminal.OnSheet.callHook_color]

theorem Terminal.backspace_color (t : Terminal η) : t.backspace.termColor = t.termColor := by
  show (if 0 < t.termCol then t.moveTo t.termRow (t.termCol - 1)
      else if 0 < t.termRow then t.moveTo (t.termRow - 1) (vgaWidth - 1) else t).termColor = _
  split_ifs <;> rfl

/-- What one operation preserves. -/
theorem TerminalOp.run_onSheet {p : Paper} (h : t.OnSheet rest p.sheet) (hcolor : t.termColor = p.color)
    (op : TerminalOp) :
    (op.run t).OnSheet rest (op.onPaper p).sheet ∧ (op.run t).termColor = (op.onPaper p).color := by
  cases op with
  | putchar c =>
    have hstep := h.putchar c
    unfold Terminal.blankEntry at hstep
    rw [hcolor] at hstep
    exact ⟨hstep, (t.putchar_color c).trans hcolor⟩
  | backspace =>
    have hstep := h.backspace
    unfold Terminal.blankEntry at hstep
    rw [hcolor] at hstep
    exact ⟨hstep, t.backspace_color.trans hcolor⟩
  | clear =>
    have hstep := Terminal.OnSheet.clear h.outside
    unfold Terminal.blankEntry at hstep
    rw [hcolor] at hstep
    exact ⟨hstep, hcolor⟩
  | setColor color => exact ⟨h.setColor color, rfl⟩

/-- **The screen is a window on everything that was written.**  Whatever is done with the terminal
after `terminal_init`, the screen has the last rows of the sheet on which the same was done, the cursor
is on the screen, the controller has its place, and nothing outside the screen is written. -/
theorem terminal_shows_sheet (t : Terminal η) (ops : List TerminalOp) :
    (ops.foldl TerminalOp.run t.init).OnSheet t.vgaBuffer
      (ops.foldl TerminalOp.onPaper ⟨Sheet.fresh vgaHeight (vgaEntry blank 7), 7⟩).sheet := by
  have hrun : ∀ (ops : List TerminalOp) (t' : Terminal η) (p : Paper),
      t'.OnSheet t.vgaBuffer p.sheet → t'.termColor = p.color →
        (ops.foldl TerminalOp.run t').OnSheet t.vgaBuffer
          (ops.foldl TerminalOp.onPaper p).sheet := by
    intro ops
    induction ops with
    | nil =>
      intro t' p h _
      exact h
    | cons op ops ih =>
      intro t' p h hcolor
      obtain ⟨hstep, hcolor'⟩ := op.run_onSheet h hcolor
      exact ih _ _ hstep hcolor'
  have hinit : t.init.OnSheet t.vgaBuffer (Sheet.fresh vgaHeight (vgaEntry blank 7)) :=
    Terminal.OnSheet.clear (t := Terminal.moveTo 0 0 { t with termColor := 7 }) fun _ _ => rfl
  exact hrun ops t.init ⟨Sheet.fresh vgaHeight (vgaEntry blank 7), 7⟩ hinit rfl

/-! ## Texts -/

/-- What `terminal_print` types. -/
theorem Terminal.OnSheet.print (h : t.OnSheet rest s) (text : List UInt8) :
    (t.print text).OnSheet rest ((text.map (strokeOf t.termColor)).foldl
      (fun s c => s.stroke vgaWidth 8 t.blankEntry c) s) ∧
    (t.print text).termColor = t.termColor := by
  induction text generalizing t s with
  | nil => exact ⟨h, rfl⟩
  | cons c text ih =>
    have hcolor := t.putchar_color c
    obtain ⟨hrest, hcolor'⟩ := ih (h.putchar c)
    unfold Terminal.blankEntry at hrest ⊢
    rw [hcolor] at hrest hcolor'
    exact ⟨hrest, hcolor'⟩

/-- The rows that a text takes on the terminal. -/
def terminalRows (color : UInt8) (text : List UInt8) : List (List UInt16) :=
  Sheet.lines vgaWidth 8 (vgaEntry blank color) [] (text.map (strokeOf color))

theorem strokeOf_ne_home {color c : UInt8} (h : c ≠ carriageReturn) : strokeOf color c ≠ .home := by
  unfold strokeOf
  rw [if_neg h]
  split_ifs <;> simp

/-- **`terminal_print` shows the end of a text.**  On a cleared screen, a text without carriage
returns is broken at its line ends and behind every 80 columns; the screen has the last 25 of these rows
from its top on, and the cursor is behind the last one. -/
theorem terminal_print_shows (t : Terminal η) (text : List UInt8) (h : carriageReturn ∉ text) :
    let rows := terminalRows t.termColor text
    let shown := t.clear.print text
    (∀ y < vgaHeight, ∀ z < vgaWidth, shown.vgaBuffer (y * vgaWidth + z) =
      Sheet.lineCell t.blankEntry (rows.drop (rows.length - vgaHeight)) y z) ∧
    shown.termRow = min rows.length vgaHeight - 1 ∧
    shown.termCol = (rows.getLast?.getD []).length := by
  intro rows shown
  have hclear : t.clear.OnSheet t.vgaBuffer (Sheet.fresh vgaHeight t.blankEntry) :=
    Terminal.OnSheet.clear fun _ _ => rfl
  obtain ⟨s', hs', hshown⟩ : ∃ s', (text.map (strokeOf t.clear.termColor)).foldl
      (fun s c => s.stroke vgaWidth 8 t.clear.blankEntry c)
        (Sheet.fresh vgaHeight t.blankEntry) = s' ∧
      Sheet.Shows vgaHeight vgaWidth shown.vgaBuffer shown.termRow shown.termCol s' :=
    ⟨_, rfl, (hclear.print text).1.shows⟩
  have hhome : Stroke.home ∉ text.map (strokeOf t.termColor) := by
    intro hmem
    obtain ⟨c, hc, heq⟩ := List.mem_map.mp hmem
    exact strokeOf_ne_home (fun hcr => h (hcr ▸ hc)) heq
  have hfresh : Sheet.Typed vgaHeight vgaWidth t.blankEntry 0 [] []
      (Sheet.fresh vgaHeight t.blankEntry) := by
    refine ⟨rfl, rfl, rfl, ?_⟩
    intro y _ z _
    exact (Sheet.lineCell_snoc_nil.trans (Sheet.lineCell_of_le (Nat.zero_le y))).symm
  obtain ⟨done, cur, hcur, heq, htyped⟩ :=
    Sheet.typed_foldl (n := 8) (by decide) (by decide) _ hhome (by decide) hfresh
  rw [show (text.map (strokeOf t.termColor)).foldl (fun s c => s.stroke vgaWidth 8 t.blankEntry c)
    (Sheet.fresh vgaHeight t.blankEntry) = s' from hs'] at htyped
  have hrows : done ++ [cur] = rows := heq
  have hlen : rows.length = done.length + 1 := by
    rw [← hrows, List.length_append, List.length_singleton]
  -- The sheet has the rows of the screen, or as many as were typed.
  have hheight := htyped.height_eq
  have hrow := htyped.row_eq
  have hcursor := hshown.row_eq
  have hlt := hshown.row_lt
  refine ⟨?_, ?_, ?_⟩
  · intro y hy z hz
    have hcell := hshown.cells y hy z hz
    have hline := htyped.cells (rows.length - vgaHeight + y) (by omega) z hz
    have htop : s'.height - vgaHeight + y = 0 + (rows.length - vgaHeight + y) := by omega
    rw [htop] at hcell
    rw [hcell, hline, hrows]
    unfold Sheet.lineCell
    rw [List.getElem?_drop]
  · omega
  · rw [← hrows, List.getLast?_append, List.getLast?_singleton]
    exact hshown.col_eq.symm.trans htyped.col_eq

/-- A terminal with nothing on it and without a hook. -/
def Terminal.empty : Terminal Unit := ⟨fun _ => 0, 0, 0, 7, 0, 0, none, ()⟩

/-- One letter and the start of a new row. -/
theorem terminal_print_shows_letter :
    let rows := terminalRows Terminal.empty.termColor [0x61, newline]
    let shown := Terminal.empty.clear.print [0x61, newline]
    (∀ y < vgaHeight, ∀ z < vgaWidth, shown.vgaBuffer (y * vgaWidth + z) =
      Sheet.lineCell Terminal.empty.blankEntry (rows.drop (rows.length - vgaHeight)) y z) ∧
    shown.termRow = min rows.length vgaHeight - 1 ∧
    shown.termCol = (rows.getLast?.getD []).length :=
  terminal_print_shows Terminal.empty _ (by decide)

/-! ## Formats -/

/-- The eight digits of `terminal_print_hex`. -/
def hexDigits (w : UInt32) : List UInt8 :=
  [28, 24, 20, 16, 12, 8, 4, 0].map fun i => upperHex (w.toNat / 2 ^ i % 16)

/-- The text of a conversion with the arguments behind it. -/
def conversionText (k : UInt8) : List FormatArg → Option (List UInt8 × List FormatArg)
  | args =>
    match conversionOf k, args with
    | some .s, .str s :: args => some (s, args)
    | some .d, .word w :: args => some (signedDecimal w.toInt32.toInt, args)
    | some .u, .word w :: args => some (numeral 10 w.toNat, args)
    | some .x, .word w :: args => some (0x30 :: 0x78 :: hexDigits w, args)
    | some .c, .word w :: args => some ([w.toUInt8], args)
    | none, args => some (if k = percent then [percent] else [percent, k], args)
    | some _, _ => none

/-- The text that a format with its arguments stands for. -/
def kprintfText : List UInt8 → List FormatArg → Option (List UInt8)
  | [], _ => some []
  | c :: fmt, args =>
    if c = percent then
      match fmt with
      | [] => none
      | k :: fmt =>
        (conversionText k args).bind fun (text, args) => (kprintfText fmt args).map (text ++ ·)
    else (kprintfText fmt args).map (c :: ·)

namespace Terminal

theorem print_append (a b : List UInt8) (t : Terminal η) : t.print (a ++ b) = (t.print a).print b :=
  List.foldl_append

theorem printDigits_eq {size value : ℕ} (h : value < 10 ^ size) (t : Terminal η) :
    t.printDigits size value = some (t.print (numeral 10 value)) := by
  unfold printDigits numeral
  split_ifs with hzero
  · rfl
  · rw [digitLoop_eq (by decide) h]
    rfl

theorem printDec_eq (w : UInt32) (t : Terminal η) :
    t.printDec w = some (t.print (numeral 10 w.toNat)) :=
  printDigits_eq (lt_of_lt_of_le w.toNat_lt (by decide)) t

theorem printDec64_eq (w : UInt64) (t : Terminal η) :
    t.printDec64 w = some (t.print (numeral 10 w.toNat)) :=
  printDigits_eq (lt_of_lt_of_le w.toNat_lt (by decide)) t

/-- The least number is right too: as an unsigned number its negation is its absolute value. -/
theorem printInt_eq (v : Int32) (t : Terminal η) :
    t.printInt v = some (t.print (signedDecimal v.toInt)) := by
  have hlt := v.toUInt32.toNat_lt
  have hint : v.toInt = if 2 * v.toUInt32.toNat < 2 ^ 32 then (v.toUInt32.toNat : ℤ)
      else v.toUInt32.toNat - (2 ^ 32 : ℕ) := BitVec.toInt_eq_toNat_cond _
  have hneg : (-v).toUInt32.toNat = (2 ^ 32 - v.toUInt32.toNat) % 2 ^ 32 :=
    UInt32.toNat_neg v.toUInt32
  have hsign : v < 0 ↔ v.toInt < 0 := Int32.lt_iff_toInt_lt
  unfold printInt signedDecimal
  by_cases hv : v < 0
  · have hv' := hsign.mp hv
    have habs : (-v).toUInt32.toNat = v.toInt.natAbs := by
      split_ifs at hint <;> omega
    rw [if_pos hv, if_pos hv', printDec_eq, habs]
    rfl
  · have hv' := hsign.not.mp hv
    have habs : v.toUInt32.toNat = v.toInt.natAbs := by
      split_ifs at hint <;> omega
    rw [if_neg hv, if_neg hv', printDec_eq, habs]

theorem printHex_eq (w : UInt32) (t : Terminal η) :
    t.printHex w = t.print (0x30 :: 0x78 :: hexDigits w) := by
  have hsplit : 0x30 :: 0x78 :: hexDigits w = [0x30, 0x78] ++ hexDigits w := rfl
  rw [hsplit, print_append]
  unfold printHex printNibbles hexDigits print
  rw [List.foldl_map]

theorem printConversion_eq (k : UInt8) (args : List FormatArg) (t : Terminal η) :
    t.printConversion k args = (conversionText k args).map fun p => (t.print p.1, p.2) := by
  unfold printConversion conversionText
  cases hconv : conversionOf k with
  | none =>
    dsimp only
    split_ifs <;> rfl
  | some conv =>
    cases conv <;> cases args with
    | nil => rfl
    | cons arg args =>
      cases arg <;> dsimp only <;>
        first | rw [printInt_eq] | rw [printDec_eq] | rw [printHex_eq] | rfl
      all_goals rfl

end Terminal

/-- **`kprintf` prints the text of its format.**  It has a result exactly if the format does not end in
a percent sign and the arguments are those that it asks for; the least number is printed like all
others. -/
theorem kprintf_eq (fmt : List UInt8) (args : List FormatArg) (t : Terminal η) :
    Terminal.kprintf fmt args t = (kprintfText fmt args).map fun text => t.print text := by
  induction hlen : fmt.length using Nat.strong_induction_on generalizing fmt args t with
  | _ n ih =>
    cases fmt with
    | nil => rfl
    | cons c fmt =>
      rw [List.length_cons] at hlen
      unfold Terminal.kprintf kprintfText
      by_cases hc : c = percent
      · rw [if_pos hc, if_pos hc]
        cases fmt with
        | nil => rfl
        | cons k fmt =>
          rw [List.length_cons] at hlen
          dsimp only
          rw [Terminal.printConversion_eq]
          cases conversionText k args with
          | none => rfl
          | some p =>
            rw [Option.map_some, Option.bind_some, Option.bind_some]
            dsimp only
            rw [ih fmt.length (by omega) fmt p.2 (t.print p.1) rfl, Option.map_map]
            cases kprintfText fmt p.2 with
            | none => rfl
            | some text => exact congrArg some (Terminal.print_append p.1 text t).symm
      · rw [if_neg hc, if_neg hc, ih fmt.length (by omega) fmt args (t.putchar c) rfl,
          Option.map_map]
        rfl

end Microkernel
