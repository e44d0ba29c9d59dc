/-
# A window on a growing sheet

A text is typed on a sheet, row by row; a new row is added when the cursor goes below the last one.
A screen has memory for the last rows only: the rows above move up when a row is added.  Cells,
sizes and tab stops are arbitrary.
-/
import Mathlib

variable {α : Type*}

/-- What is typed: a letter, the end of a line, a tab, or the return to the start of the row. -/
inductive Stroke (α : Type*) where
  | letter (x : α)
  | feed
  | tab
  | home

/-- A sheet of `height` rows with a cursor. -/
structure Sheet (α : Type*) where
  cell : ℕ → ℕ → α
  height : ℕ
  row : ℕ
  col : ℕ

namespace Sheet

variable {s : Sheet α} {h w n row col : ℕ} {screen screen' : ℕ → α} {blank x : α}

/-- A sheet with `h` blank rows. -/
def fresh (h : ℕ) (blank : α) : Sheet α := ⟨fun _ _ => blank, h, 0, 0⟩

/-- Write at the cursor. -/
def write (x : α) (s : Sheet α) : Sheet α :=
  { s with cell := Function.update s.cell s.row (Function.update (s.cell s.row) s.col x) }

/-- The cursor goes to the row below, which is added if there is none. -/
def down (blank : α) (s : Sheet α) : Sheet α :=
  if s.row + 1 < s.height then { s with row := s.row + 1 }
  else
    { s with
      cell := Function.update s.cell (s.row + 1) fun _ => blank
      height := s.row + 2
      row := s.row + 1 }

/-- The cursor goes to another column. -/
def moveTo (col : ℕ) (s : Sheet α) : Sheet α := { s with col := col }

/-- Behind a full row the cursor goes to the start of the next one. -/
def wrap (w : ℕ) (blank : α) (s : Sheet α) : Sheet α :=
  if w ≤ s.col then (s.moveTo 0).down blank else s

/-- Type on rows of `w` cells, with a tab stop every `n` cells. -/
def stroke (w n : ℕ) (blank : α) : Stroke α → Sheet α → Sheet α
  | .letter x, s => ((s.write x).moveTo (s.col + 1)).wrap w blank
  | .feed, s => (s.moveTo 0).down blank
  | .tab, s => (s.moveTo ((s.col / n + 1) * n)).wrap w blank
  | .home, s => s.moveTo 0

/-- Go back by one cell, but not above the last `h` rows. -/
def back (h w : ℕ) (s : Sheet α) : Sheet α :=
  if 0 < s.col then s.moveTo (s.col - 1)
  else if s.height - h < s.row then { s with row := s.row - 1, col := w - 1 }
  else s

@[simp] theorem write_height : (s.write x).height = s.height := rfl

@[simp] theorem write_row : (s.write x).row = s.row := rfl

@[simp] theorem write_col : (s.write x).col = s.col := rfl

@[simp] theorem moveTo_cell : (s.moveTo col).cell = s.cell := rfl

@[simp] theorem moveTo_height : (s.moveTo col).height = s.height := rfl

@[simp] theorem moveTo_row : (s.moveTo col).row = s.row := rfl

@[simp] theorem moveTo_col : (s.moveTo col).col = col := rfl

theorem write_cell (x : α) (s : Sheet α) (y z : ℕ) :
    (s.write x).cell y z = if y = s.row ∧ z = s.col then x else s.cell y z := by
  show Function.update s.cell s.row (Function.update (s.cell s.row) s.col x) y z = _
  by_cases hy : y = s.row
  · subst hy
    rw [Function.update_self, Function.update_apply]
    simp only [true_and]
  · rw [Function.update_of_ne hy, if_neg fun hyz => hy hyz.1]

@[simp] theorem down_row : (s.down blank).row = s.row + 1 := by
  unfold down
  split_ifs <;> rfl

@[simp] theorem down_col : (s.down blank).col = s.col := by
  unfold down
  split_ifs <;> rfl

theorem down_height (hrow : s.row < s.height) :
    (s.down blank).height = max s.height (s.row + 2) := by
  unfold down
  split_ifs with hlt
  · exact (Nat.max_eq_left hlt).symm
  · exact (Nat.max_eq_right (by omega : s.height ≤ s.row + 2)).symm

theorem down_cell (hrow : s.row < s.height) (y z : ℕ) :
    (s.down blank).cell y z = if y = s.height ∧ s.row + 1 = s.height then blank
      else s.cell y z := by
  unfold down
  split_ifs with hlt hy hy
  · omega
  · rfl
  · show Function.update s.cell (s.row + 1) (fun _ => blank) y z = blank
    rw [hy.1, ← hy.2, Function.update_self]
  · show Function.update s.cell (s.row + 1) (fun _ => blank) y z = s.cell y z
    rw [Function.update_of_ne]
    omega

/-! ## The screen -/

/-- The cursor of a screen with rows of `w` cells after one step back. -/
def stepBack (w row col : ℕ) : ℕ × ℕ :=
  if 0 < col then (row, col - 1) else if 0 < row then (row - 1, w - 1) else (row, col)

theorem stepBack_col_lt (hcol : col < w) : (stepBack w row col).2 < w := by
  unfold stepBack
  split_ifs <;> simp only <;> omega

theorem stepBack_row_le : (stepBack w row col).1 ≤ row := by
  unfold stepBack
  split_ifs <;> simp only <;> omega

/-- A screen of `h` rows of `w` cells shows the last rows of a sheet, and its cursor is the cursor of
the sheet. -/
structure Shows (h w : ℕ) (screen : ℕ → α) (row col : ℕ) (s : Sheet α) : Prop where
  full : h ≤ s.height
  row_lt : row < h
  row_eq : s.row = s.height - h + row
  col_eq : s.col = col
  cells : ∀ y < h, ∀ z < w, screen (y * w + z) = s.cell (s.height - h + y) z

/-- The place of a cell in the memory of a screen says which row and column it is. -/
theorem place_inj {y y' z z' : ℕ} (hz : z < w) (hz' : z' < w) :
    y * w + z = y' * w + z' ↔ y = y' ∧ z = z' := by
  constructor
  · intro heq
    have hw : 0 < w := Nat.zero_lt_of_lt hz
    rw [Nat.mul_comm y, Nat.mul_comm y'] at heq
    constructor
    · have hrow := congrArg (· / w) heq
      simpa only [Nat.mul_add_div hw, Nat.div_eq_of_lt hz, Nat.div_eq_of_lt hz',
        Nat.add_zero] using hrow
    · have hcol := congrArg (· % w) heq
      simpa only [Nat.mul_add_mod, Nat.mod_eq_of_lt hz, Nat.mod_eq_of_lt hz'] using hcol
  · rintro ⟨rfl, rfl⟩
    rfl

/-- Every place on the screen comes before its end. -/
theorem place_lt {y z : ℕ} (hy : y < h) (hz : z < w) : y * w + z < h * w :=
  calc y * w + z < y * w + w := Nat.add_lt_add_left hz _
    _ = (y + 1) * w := (Nat.succ_mul y w).symm
    _ ≤ h * w := Nat.mul_le_mul_right w hy

namespace Shows

theorem row_lt_height (hs : Shows h w screen row col s) : s.row < s.height := by
  have hfull := hs.full
  have hlt := hs.row_lt
  have hrow := hs.row_eq
  omega

/-- A cell that is written on the screen is written on the sheet. -/
theorem write (hs : Shows h w screen row col s) (hcol : col < w) (x : α) :
    Shows h w (Function.update screen (row * w + col) x) row col (s.write x) := by
  refine ⟨hs.full, hs.row_lt, hs.row_eq, hs.col_eq, ?_⟩
  intro y hy z hz
  rw [Function.update_apply, write_cell, write_height, hs.cells y hy z hz, hs.row_eq, hs.col_eq]
  apply if_congr _ rfl rfl
  rw [place_inj hz hcol]
  constructor
  · rintro ⟨rfl, rfl⟩
    exact ⟨rfl, rfl⟩
  · rintro ⟨hrow, rfl⟩
    exact ⟨Nat.add_left_cancel hrow, rfl⟩

theorem moveTo (hs : Shows h w screen row col s) (col' : ℕ) :
    Shows h w screen row col' (s.moveTo col') :=
  ⟨hs.full, hs.row_lt, hs.row_eq, rfl, hs.cells⟩

/-- Above the last row of the screen nothing but the cursor moves. -/
theorem down (hs : Shows h w screen row col s) (hrow : row + 1 < h) (blank : α) :
    Shows h w screen (row + 1) col (s.down blank) := by
  have heq := hs.row_eq
  have hfull := hs.full
  have hlt : s.row + 1 < s.height := by omega
  have hdown : s.down blank = { s with row := s.row + 1 } := if_pos hlt
  have hsucc : s.row + 1 = s.height - h + (row + 1) := by rw [heq, Nat.add_assoc]
  rw [hdown]
  exact ⟨hfull, hrow, hsucc, hs.col_eq, hs.cells⟩

/-- Below the last row of the screen a row is added: what the screen has moves up by one row. -/
theorem scroll (hs : Shows h w screen row col s) (hrow : row + 1 = h)
    (hup : ∀ y < h - 1, ∀ z < w, screen' (y * w + z) = screen ((y + 1) * w + z))
    (hlast : ∀ z < w, screen' ((h - 1) * w + z) = blank) :
    Shows h w screen' (h - 1) col (s.down blank) := by
  have heq := hs.row_eq
  have hfull := hs.full
  have hend : s.row + 1 = s.height := by omega
  have hheight : (s.down blank).height = s.height + 1 := by
    rw [down_height hs.row_lt_height, ← hend]
    exact Nat.max_eq_right (Nat.le_succ _)
  refine ⟨by omega, by omega, by rw [down_row]; omega, by rw [down_col, hs.col_eq], ?_⟩
  intro y hy z hz
  rw [down_cell hs.row_lt_height, hheight]
  by_cases hy' : y < h - 1
  · -- This row was one row below.
    rw [hup y hy' z hz, hs.cells (y + 1) (by omega) z hz, if_neg (by omega)]
    congr 1
    omega
  · have hy'' : y = h - 1 := by omega
    subst hy''
    rw [hlast z hz, if_pos (by omega)]

/-- The cursor goes back on the screen as it does on the sheet. -/
theorem back (hs : Shows h w screen row col s) :
    Shows h w screen (stepBack w row col).1 (stepBack w row col).2 (s.back h w) := by
  have heq := hs.row_eq
  have hlt := hs.row_lt
  unfold Sheet.back stepBack
  rw [hs.col_eq]
  by_cases hpos : 0 < col
  · rw [if_pos hpos, if_pos hpos]
    exact hs.moveTo (col - 1)
  · rw [if_neg hpos, if_neg hpos]
    by_cases hrow : 0 < row
    · have hprev : s.row - 1 = s.height - h + (row - 1) := by omega
      rw [if_pos hrow, if_pos (by omega)]
      exact ⟨hs.full, (Nat.sub_le row 1).trans_lt hlt, hprev, rfl, hs.cells⟩
    · rw [if_neg hrow, if_neg (by omega)]
      exact hs

end Shows

/-! ## Texts -/

/-- The rows that typing fills when the current one has `line` in it. -/
def lines (w n : ℕ) (blank : α) : List α → List (Stroke α) → List (List α)
  | cur, .letter x :: ss =>
    if w ≤ cur.length + 1 then (cur ++ [x]) :: lines w n blank [] ss
    else lines w n blank (cur ++ [x]) ss
  | cur, .feed :: ss => cur :: lines w n blank [] ss
  | cur, .tab :: ss =>
    let padded := cur ++ List.replicate (n - cur.length % n) blank
    if w ≤ padded.length then padded :: lines w n blank [] ss else lines w n blank padded ss
  | cur, .home :: _ => [cur]
  | cur, [] => [cur]

/-- The cell of a list of rows at a place; behind their ends there are blanks. -/
def lineCell (blank : α) (ls : List (List α)) (y z : ℕ) : α := ((ls[y]?.getD [])[z]?).getD blank

/-- From the row `base` on the sheet has these rows, and the cursor is at their end; there is no row
below it that the first `h` rows do not have. -/
structure Typed (h w : ℕ) (blank : α) (base : ℕ) (done : List (List α)) (cur : List α)
    (s : Sheet α) : Prop where
  height_eq : s.height = max h (s.row + 1)
  row_eq : s.row = base + done.length
  col_eq : s.col = cur.length
  cells : ∀ y < s.height - base, ∀ z < w, s.cell (base + y) z = lineCell blank (done ++ [cur]) y z

section lineCell

variable {done : List (List α)} {cur : List α} {y z : ℕ}

theorem lineCell_of_lt (hy : y < done.length) :
    lineCell blank (done ++ [cur]) y z = lineCell blank done y z := by
  unfold lineCell
  rw [List.getElem?_append_left hy]

theorem lineCell_length : lineCell blank (done ++ [cur]) done.length z = cur[z]?.getD blank := by
  unfold lineCell
  rw [List.getElem?_append_right le_rfl, Nat.sub_self]
  rfl

theorem lineCell_of_le {ls : List (List α)} (hy : ls.length ≤ y) : lineCell blank ls y z = blank := by
  unfold lineCell
  rw [List.getElem?_eq_none hy]
  rfl

/-- Behind the rows nothing but blanks is added by an empty row. -/
theorem lineCell_snoc_nil {ls : List (List α)} :
    lineCell blank (ls ++ [[]]) y z = lineCell blank ls y z := by
  rcases lt_trichotomy y ls.length with hlt | rfl | hgt
  · exact lineCell_of_lt hlt
  · rw [lineCell_length, lineCell_of_le le_rfl]
    rfl
  · rw [lineCell_of_le (Nat.le_of_lt hgt), lineCell_of_le]
    simpa using hgt

/-- Rows that differ in the last one only. -/
theorem lineCell_last {cur' : List α} (y z : ℕ)
    (h : y = done.length → cur[z]?.getD blank = cur'[z]?.getD blank) :
    lineCell blank (done ++ [cur]) y z = lineCell blank (done ++ [cur']) y z := by
  rcases lt_trichotomy y done.length with hlt | heq | hgt
  · rw [lineCell_of_lt hlt, lineCell_of_lt hlt]
  · rw [heq, lineCell_length, lineCell_length, h heq]
  · rw [lineCell_of_le (by simpa using hgt), lineCell_of_le (by simpa using hgt)]

end lineCell

namespace Typed

variable {base : ℕ} {done : List (List α)} {cur : List α}

theorem row_lt (ht : Typed h w blank base done cur s) : s.row < s.height := by
  rw [ht.height_eq]
  exact Nat.lt_of_lt_of_le (Nat.lt_succ_self _) (Nat.le_max_right _ _)

/-- A letter goes behind the row. -/
theorem letter (ht : Typed h w blank base done cur s) (x : α) :
    Typed h w blank base done (cur ++ [x]) ((s.write x).moveTo (s.col + 1)) := by
  have hrow := ht.row_eq
  refine ⟨ht.height_eq, hrow, ?_, ?_⟩
  · rw [moveTo_col, ht.col_eq, List.length_append, List.length_singleton]
  · intro y hy z hz
    rw [moveTo_cell, write_cell, ht.cells y hy z hz, hrow, ht.col_eq]
    by_cases hyz : base + y = base + done.length ∧ z = cur.length
    · obtain ⟨hy', rfl⟩ := hyz
      obtain rfl := Nat.add_left_cancel hy'
      rw [if_pos ⟨rfl, rfl⟩, lineCell_length, List.getElem?_append_right le_rfl, Nat.sub_self]
      rfl
    · rw [if_neg hyz]
      apply lineCell_last
      intro hy'
      have hne : z ≠ cur.length := fun hz' => hyz ⟨by rw [hy'], hz'⟩
      rcases Nat.lt_or_gt_of_ne hne with hlt | hgt
      · rw [List.getElem?_append_left hlt]
      · rw [List.getElem?_eq_none hgt.le, List.getElem?_eq_none]
        simpa using hgt

/-- A tab puts blanks behind the row. -/
theorem pad (ht : Typed h w blank base done cur s) (k : ℕ) :
    Typed h w blank base done (cur ++ List.replicate k blank) (s.moveTo (s.col + k)) := by
  refine ⟨ht.height_eq, ht.row_eq, ?_, ?_⟩
  · rw [moveTo_col, ht.col_eq, List.length_append, List.length_replicate]
  · intro y hy z hz
    rw [moveTo_cell, ht.cells y hy z hz]
    apply lineCell_last
    intro _
    rcases Nat.lt_or_ge z cur.length with hlt | hge
    · rw [List.getElem?_append_left hlt]
    · rw [List.getElem?_eq_none hge, List.getElem?_append_right hge, List.getElem?_replicate]
      split_ifs <;> rfl

/-- The end of a row. -/
theorem feed (ht : Typed h w blank base done cur s) :
    Typed h w blank base (done ++ [cur]) [] ((s.moveTo 0).down blank) := by
  have hrow := ht.row_eq
  have hlt := ht.row_lt
  have hheight : ((s.moveTo 0).down blank).height = max s.height (s.row + 2) := down_height hlt
  refine ⟨?_, ?_, ?_, ?_⟩
  · have hmax := ht.height_eq
    rw [hheight, down_row, moveTo_row]
    omega
  · rw [down_row, moveTo_row, hrow, List.length_append, List.length_singleton, Nat.add_assoc]
  · rw [down_col, moveTo_col, List.length_nil]
  · intro y hy z hz
    rw [hheight] at hy
    rw [down_cell (s := s.moveTo 0) hlt, moveTo_height, moveTo_row, moveTo_cell, lineCell_snoc_nil]
    split_ifs with hlast
    · -- The added row comes behind all the others.
      rw [lineCell_of_le]
      rw [List.length_append, List.length_singleton]
      omega
    · exact ht.cells y (by omega) z hz

end Typed

/-- **A text is typed in rows.**  When no stroke returns to the start of its row, the rows of the
sheet are the lines of the text. -/
theorem typed_foldl {base : ℕ} (hw : 0 < w) (hn : 0 < n) (ss : List (Stroke α))
    (hhome : Stroke.home ∉ ss) :
    ∀ {s : Sheet α} {done : List (List α)} {cur : List α}, cur.length < w →
      Typed h w blank base done cur s →
      ∃ done' cur', cur'.length < w ∧ done' ++ [cur'] = done ++ lines w n blank cur ss ∧
        Typed h w blank base done' cur' (ss.foldl (fun s c => s.stroke w n blank c) s) := by
  induction ss with
  | nil =>
    intro s done cur hline ht
    exact ⟨done, cur, hline, by rw [lines], ht⟩
  | cons c ss ih =>
    intro s done cur hline ht
    have hhome' : Stroke.home ∉ ss := fun hmem => hhome (List.mem_cons_of_mem _ hmem)
    -- A full row is left at once.
    have hwrap : ∀ {s' : Sheet α} {cur' : List α}, Typed h w blank base done cur' s' →
        ∃ done'' cur'', cur''.length < w ∧
          done'' ++ [cur''] = done ++ (if w ≤ cur'.length then cur' :: lines w n blank [] ss
            else lines w n blank cur' ss) ∧
          Typed h w blank base done'' cur''
            (ss.foldl (fun s c => s.stroke w n blank c) (s'.wrap w blank)) := by
      intro s' cur' ht'
      unfold wrap
      rw [ht'.col_eq]
      split_ifs with hfull
      · obtain ⟨d, l, hl, heq, htyped⟩ := ih hhome' (by simpa using hw) ht'.feed
        exact ⟨d, l, hl, by rw [heq, List.append_assoc, List.singleton_append], htyped⟩
      · exact ih hhome' (Nat.lt_of_not_ge hfull) ht'
    cases c with
    | letter x =>
      obtain ⟨d, l, hl, heq, htyped⟩ := hwrap (ht.letter x)
      rw [List.length_append, List.length_singleton] at heq
      exact ⟨d, l, hl, by rw [heq, lines], htyped⟩
    | feed =>
      obtain ⟨d, l, hl, heq, htyped⟩ := ih hhome' (by simpa using hw) ht.feed
      exact ⟨d, l, hl, by rw [heq, lines, List.append_assoc, List.singleton_append], htyped⟩
    | tab =>
      have hstop : (s.col / n + 1) * n = s.col + (n - cur.length % n) := by
        have hmod := Nat.mod_lt cur.length hn
        have hdiv := Nat.div_add_mod cur.length n
        rw [ht.col_eq, Nat.succ_mul, Nat.mul_comm]
        omega
      obtain ⟨d, l, hl, heq, htyped⟩ := hwrap (ht.pad (n - cur.length % n))
      rw [← hstop] at htyped
      exact ⟨d, l, hl, by rw [heq, lines], htyped⟩
    | home => exact absurd List.mem_cons_self hhome

end Sheet

/-! ## One row -/

/-- A row that has this text and blanks behind it. -/
def rowOf (blank : α) (text : List α) (x : ℕ) : α := text[x]?.getD blank

section rowOf

variable {blank : α} {text : List α} {p : ℕ}

/-- A letter is written in the row or at its end. -/
theorem update_rowOf (hp : p ≤ text.length) (c : α) :
    Function.update (rowOf blank text) p c = rowOf blank (text.take p ++ c :: text.drop (p + 1)) := by
  funext x
  have htake : (text.take p).length = p := List.length_take_of_le hp
  unfold rowOf
  rcases lt_trichotomy x p with hlt | rfl | hgt
  · rw [Function.update_of_ne hlt.ne, List.getElem?_append_left (by omega),
      List.getElem?_take_of_lt hlt]
  · rw [Function.update_self, List.getElem?_append_right (by omega), htake, Nat.sub_self]
    rfl
  · have hx : x - p = x - p - 1 + 1 := by omega
    rw [Function.update_of_ne hgt.ne', List.getElem?_append_right (by omega), htake, hx,
      List.getElem?_cons_succ, List.getElem?_drop]
    congr 2
    omega

theorem rowOf_append_replicate (text : List α) (n : ℕ) :
    rowOf blank (text ++ List.replicate n blank) = rowOf blank text := by
  funext x
  unfold rowOf
  rcases Nat.lt_or_ge x text.length with hlt | hge
  · rw [List.getElem?_append_left hlt]
  · rw [List.getElem?_append_right hge, List.getElem?_eq_none hge, List.getElem?_replicate]
    split_ifs <;> rfl

end rowOf
