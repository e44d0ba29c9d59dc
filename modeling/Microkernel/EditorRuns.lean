/-
# Runs of the editor

What holds of the editor with its cursor inside the text, after every key.
-/
import Microkernel.EditorText
import Microkernel.TextLines

open Access Buffer TextLines

namespace Microkernel

/-- The state of the editor is well formed. -/
structure EditorInv (s : Editor) : Prop where
  lines_pos : 1 ≤ s.numLines
  lines_le : s.numLines ≤ editorMaxLines
  row_lt : s.cursorRow < s.numLines
  terminated : ∀ i < editorMaxLines, ∃ l, s.lines.HoldsString (lineAddr i) l ∧
    l.length < editorLineLen
  col_le : ∃ l, s.lines.HoldsString (lineAddr s.cursorRow) l ∧ s.cursorCol ≤ l.length

/-- The editor is well formed and shows these lines. -/
structure Edits (s : Editor) (t : ℕ → List UInt8) : Prop where
  shows : ShowsLines s.lines t
  lines_pos : 1 ≤ s.numLines
  lines_le : s.numLines ≤ editorMaxLines
  row_lt : s.cursorRow < s.numLines
  col_le : s.cursorCol ≤ (t s.cursorRow).length

variable {s s' : Editor} {t : ℕ → List UInt8} {c : UInt8}

theorem Edits.row_lt_max (h : Edits s t) : s.cursorRow < editorMaxLines :=
  lt_of_lt_of_le h.row_lt h.lines_le

theorem Edits.inv (h : Edits s t) : EditorInv s where
  lines_pos := h.lines_pos
  lines_le := h.lines_le
  row_lt := h.row_lt
  terminated i hi := ⟨t i, h.shows.line i hi, h.shows.short i hi⟩
  col_le := ⟨_, h.shows.line _ h.row_lt_max, h.col_le⟩

theorem EditorInv.edits (h : EditorInv s) : ∃ t, Edits s t := by
  choose! t ht using h.terminated
  have hshows : ShowsLines s.lines t := ⟨rfl, fun i hi => (ht i hi).1, fun i hi => (ht i hi).2⟩
  refine ⟨t, hshows, h.lines_pos, h.lines_le, h.row_lt, ?_⟩
  obtain ⟨l, hl, hle⟩ := h.col_le
  have hline := hshows.line _ (lt_of_lt_of_le h.row_lt h.lines_le)
  rwa [hline.unique hl]

theorem Edits.strlen (h : Edits s t) {i : ℕ} (hi : i < editorMaxLines) :
    s.lines.strlen (lineAddr i) = .ok (t i).length := strlen_eq (h.shows.line i hi)

/-! ## Editing -/

theorem Edits.afterInsert (h : Edits s t) (hc : c ≠ 0) :
    ∃ s' t', editorInsertChar c s = .ok s' ∧ Edits s' t' := by
  have hrow := h.row_lt_max
  unfold editorInsertChar
  rw [if_neg (not_le.mpr hrow), h.strlen hrow, ok_bind]
  by_cases hfull : editorLineLen - 2 ≤ (t s.cursorRow).length
  · rw [if_pos hfull]
    exact ⟨s, t, rfl, h⟩
  · obtain ⟨b₁, b₂, hmove, hstore, hshows⟩ := h.shows.insertChar hrow h.col_le (not_le.mp hfull) hc
    rw [if_neg hfull]
    dsimp only
    rw [hmove, ok_bind, hstore, ok_bind]
    refine ⟨_, _, rfl, hshows.linesBuffer, h.lines_pos, h.lines_le, h.row_lt, ?_⟩
    rw [Function.update_self, List.length_append, List.length_cons, List.length_take_of_le h.col_le]
    exact Nat.add_le_add_left (Nat.succ_le_succ (Nat.zero_le _)) _

theorem Edits.afterBackspace (h : Edits s t) : ∃ s' t', editorBackspace s = .ok s' ∧ Edits s' t' := by
  have hrow := h.row_lt_max
  have hcol := h.col_le
  unfold editorBackspace
  by_cases hpos : 0 < s.cursorCol
  · obtain ⟨b', hmove, hshows⟩ := h.shows.deleteChar hrow (by omega : s.cursorCol - 1 < _)
    have ha : lineAddr s.cursorRow + (s.cursorCol - 1) = lineAddr s.cursorRow + s.cursorCol - 1 := by
      omega
    have ha' : lineAddr s.cursorRow + s.cursorCol - 1 + 1 = lineAddr s.cursorRow + s.cursorCol := by
      omega
    rw [ha, ha'] at hmove
    rw [if_pos hpos, h.strlen hrow, ok_bind]
    dsimp only
    rw [hmove, ok_bind]
    refine ⟨_, _, rfl, hshows.linesBuffer, h.lines_pos, h.lines_le, h.row_lt, ?_⟩
    dsimp only
    rw [Function.update_self, List.length_append, List.length_take_of_le (by omega)]
    exact Nat.le_add_right _ _
  · rw [if_neg hpos]
    by_cases habove : 0 < s.cursorRow
    · have hprev : s.cursorRow - 1 < editorMaxLines := by omega
      rw [if_pos habove, h.strlen hprev, ok_bind, h.strlen hrow, ok_bind]
      split_ifs with hfits
      · have hadj : lineAddr (s.cursorRow - 1) + editorLineLen = lineAddr s.cursorRow := by
          unfold lineAddr
          obtain ⟨r, hr⟩ : ∃ r, s.cursorRow = r + 1 := ⟨s.cursorRow - 1, by omega⟩
          rw [hr, Nat.add_sub_cancel, Nat.mul_succ]
        have hshort := h.shows.short _ hprev
        obtain ⟨b₁, hcat, hstring, hsame⟩ := strcat_eq (h.shows.line _ hprev) (h.shows.line _ hrow)
          (by omega)
        have hshows₁ := h.shows.update hsame (le_refl _) (by omega) hstring
          (by rw [List.length_append]; omega)
        obtain ⟨b₂, hremove, hshows₂⟩ := hshows₁.removeLine h.lines_le h.row_lt
        have hlines := h.lines_le
        have hlt := h.row_lt
        rw [hcat, ok_bind, hremove, ok_bind]
        refine ⟨_, _, rfl, hshows₂.linesBuffer, ?_, ?_, ?_, ?_⟩
        · dsimp only
          omega
        · dsimp only
          omega
        · dsimp only
          omega
        · dsimp only
          rw [withoutLine, if_pos (by omega), Function.update_self, List.length_append]
          exact Nat.le_add_right _ _
      · exact ⟨s, t, rfl, h⟩
    · rw [if_neg habove]
      exact ⟨s, t, rfl, h⟩

theorem Edits.afterEnter (h : Edits s t) : ∃ s' t', editorEnter s = .ok s' ∧ Edits s' t' := by
  have hrow := h.row_lt_max
  have hcol := h.col_le
  have hlt := h.row_lt
  unfold editorEnter
  by_cases hfull : editorMaxLines ≤ s.numLines
  · rw [if_pos hfull]
    exact ⟨s, t, rfl, h⟩
  · obtain ⟨b₁, hshift, hshows₁⟩ := h.shows.shiftDown (i := s.numLines)
      (k := s.numLines - (s.cursorRow + 1)) (by omega) (by omega)
    -- The line of the cursor is above those that moved.
    have hsame₁ : (if s.numLines - (s.numLines - (s.cursorRow + 1)) < s.cursorRow ∧
        s.cursorRow ≤ s.numLines then t (s.cursorRow - 1) else t s.cursorRow) = t s.cursorRow :=
      if_neg (by omega)
    have hline := hshows₁.line s.cursorRow hrow
    have hshort := hshows₁.short s.cursorRow hrow
    rw [hsame₁] at hline hshort
    have hnext : s.cursorRow + 1 < editorMaxLines := by omega
    have hadj : lineAddr (s.cursorRow + 1) = lineAddr s.cursorRow + editorLineLen := by
      unfold lineAddr
      rw [Nat.mul_succ]
    have hend := lineAddr_lt hnext hshort
    have hsize := hshows₁.size_eq
    obtain ⟨b₂, hcopy, hstring, hsame₂⟩ := strcpy_eq (lineAddr (s.cursorRow + 1))
      (holdsString_drop hline hcol) (by rw [List.length_drop]; omega)
      (by rw [List.length_drop]; omega)
    have hshows₂ := hshows₁.update hsame₂ (le_refl _) (by rw [List.length_drop]; omega) hstring
      (by rw [List.length_drop]; omega)
    obtain ⟨b₃, hstore, hshows₃⟩ := hshows₂.cutLine (i := s.cursorRow) (k := s.cursorCol) hrow (by
      rw [Function.update_of_ne (by omega), hsame₁]
      exact hcol)
    rw [if_neg hfull]
    dsimp only
    rw [hshift, ok_bind, strlen_eq hline, ok_bind, hcopy, ok_bind, hstore, ok_bind]
    refine ⟨_, _, rfl, hshows₃.linesBuffer, ?_, ?_, ?_, Nat.zero_le _⟩
    · dsimp only
      omega
    · dsimp only
      omega
    · dsimp only
      omega

theorem Edits.afterCut (h : Edits s t) : ∃ s' t', editorCutLine s = .ok s' ∧ Edits s' t' := by
  have hrow := h.row_lt_max
  have hlt := h.row_lt
  have hlines := h.lines_le
  unfold editorCutLine
  rw [h.strlen hrow, ok_bind, if_neg (not_le.mpr (h.shows.short _ hrow))]
  by_cases hmany : 1 < s.numLines
  · obtain ⟨b', hremove, hshows⟩ := h.shows.removeLine h.lines_le h.row_lt
    rw [if_pos hmany, hremove, ok_bind]
    refine ⟨_, _, rfl, hshows.linesBuffer, ?_, ?_, ?_, Nat.zero_le _⟩
    · dsimp only
      omega
    · dsimp only
      omega
    · dsimp only
      split_ifs <;> omega
  · obtain ⟨b', hclear, hshows⟩ := h.shows.clear (j := 0) (by decide)
    rw [if_neg hmany, hclear, ok_bind]
    exact ⟨_, _, rfl, hshows.linesBuffer, h.lines_pos, h.lines_le, h.row_lt, Nat.zero_le _⟩

/-! ## Saving -/

/-- **What is saved**: the lines with their ends, as long as the limit of the buffer is far. -/
theorem ShowsLines.saveLoop {b : Buffer} (h : ShowsLines b t) {k i : ℕ} {buf : List UInt8}
    (hle : i + k ≤ editorMaxLines) (hroom : buf.length + editorLineLen * k + 2 < ramfsMaxData) :
    saveLoop b k i buf = .ok (buf ++ ofLines newline ((List.range' i k).map t)) := by
  induction k generalizing i buf with
  | zero =>
    rw [Microkernel.saveLoop, List.range'_zero, List.map_nil, ofLines_nil, List.append_nil]
  | succ k ih =>
    have hi : i < editorMaxLines := by omega
    have hshort := h.short i hi
    have hline := (h.line i hi)
    rw [Nat.mul_succ] at hroom
    have hbytes := b.bytes_of_holds (b.holds_append.mp hline.holds).1
    have hlen : (buf ++ t i ++ [newline]).length = buf.length + (t i).length + 1 := by
      rw [List.length_append, List.length_append, List.length_singleton]
    rw [Microkernel.saveLoop, if_pos (by omega), strlen_eq hline, ok_bind, if_neg (by omega), hbytes,
      ok_bind, ih (by omega) (by rw [hlen]; omega), List.range'_succ, List.map_cons, ofLines_cons]
    simp only [List.append_assoc, List.cons_append, List.nil_append]

theorem Edits.save (h : Edits s t) : editorSave s =
    .ok (s.editFilename, ofLines newline ((List.range' 0 s.numLines).map t)) := by
  have hle := h.lines_le
  have hroom : editorLineLen * editorMaxLines + 2 < ramfsMaxData := by decide
  have hmul := Nat.mul_le_mul_left editorLineLen hle
  unfold editorSave
  rw [h.shows.saveLoop (by omega) (by rw [List.length_nil]; omega)]
  rfl

/-! ## Moving -/

/-- The cursor in another place of the text. -/
theorem Edits.goto (h : Edits s t) {row col : ℕ} (hrow : row < s.numLines)
    (hcol : col ≤ (t row).length) : Edits { s with cursorRow := row, cursorCol := col } t :=
  ⟨h.shows, h.lines_pos, h.lines_le, hrow, hcol⟩

theorem Edits.moveTo (h : Edits s t) {row : ℕ} (hrow : row < s.numLines) :
    ∃ s', editorMoveTo row s = .ok s' ∧ Edits s' t := by
  unfold editorMoveTo
  rw [h.strlen (lt_of_lt_of_le hrow h.lines_le)]
  exact ⟨_, rfl, h.goto hrow (Nat.min_le_right _ _)⟩

/-- Page Up and Page Down lead to lines of the text. -/
theorem Edits.page_lt (h : Edits s t) : s.pageUp < s.numLines ∧ s.pageDown < s.numLines := by
  have hrow := h.row_lt
  have hpos := h.lines_pos
  unfold Editor.pageUp Editor.pageDown
  constructor
  · omega
  · split_ifs
    · omega
    · omega

/-! ## A key -/

/-- A page key leads to a line that is not shorter than the column of the cursor. -/
def PageInside (s : Editor) (c : UInt8) : Prop :=
  (c = keyPgup → ∃ len, s.lines.strlen (lineAddr s.pageUp) = .ok len ∧ s.cursorCol ≤ len) ∧
    (c = keyPgdown → ∃ len, s.lines.strlen (lineAddr s.pageDown) = .ok len ∧ s.cursorCol ≤ len)

/-- **A key keeps the editor well formed**, if it is no page key that leads to a line that is too
short. -/
theorem Edits.key (h : Edits s t) (hpage : PageInside s c) :
    ∃ s' t', editorKey c s = .ok s' ∧ Edits s' t' := by
  have hrow := h.row_lt_max
  have hlt := h.row_lt
  have hcol := h.col_le
  have hlines := h.lines_le
  by_cases hsave : c = ctrlS
  · rw [editorKey, if_pos hsave, h.save]
    exact ⟨_, t, rfl, h.shows, h.lines_pos, h.lines_le, h.row_lt, h.col_le⟩
  by_cases hcut : c = ctrlK
  · rw [editorKey, if_neg hsave, if_pos hcut]
    exact h.afterCut
  by_cases henter : c = newline
  · rw [editorKey, if_neg hsave, if_neg hcut, if_pos henter]
    exact h.afterEnter
  by_cases hback : c = backspace
  · rw [editorKey, if_neg hsave, if_neg hcut, if_neg henter, if_pos hback]
    exact h.afterBackspace
  rw [editorKey, if_neg hsave, if_neg hcut, if_neg henter, if_neg hback]
  by_cases hup : c = keyUp ∧ 0 < s.cursorRow
  · obtain ⟨s', hmove, hedits⟩ := h.moveTo (by omega : s.cursorRow - 1 < s.numLines)
    rw [if_pos hup]
    exact ⟨s', t, hmove, hedits⟩
  by_cases hdown : c = keyDown ∧ s.cursorRow < s.numLines - 1
  · obtain ⟨s', hmove, hedits⟩ := h.moveTo (by omega : s.cursorRow + 1 < s.numLines)
    rw [if_neg hup, if_pos hdown]
    exact ⟨s', t, hmove, hedits⟩
  rw [if_neg hup, if_neg hdown]
  by_cases hleft : c = keyLeft
  · rw [if_pos hleft]
    split_ifs
    · exact ⟨_, t, rfl, h.goto hlt (by omega)⟩
    · have hprev : s.cursorRow - 1 < s.numLines := by omega
      rw [h.strlen (by omega)]
      exact ⟨_, t, rfl, h.goto hprev (le_refl _)⟩
    · exact ⟨s, t, rfl, h⟩
  by_cases hright : c = keyRight
  · rw [if_neg hleft, if_pos hright, h.strlen hrow]
    refine ⟨_, t, rfl, ?_⟩
    dsimp only
    split_ifs with hin hbelow
    · exact h.goto hlt hin
    · exact h.goto (by omega) (Nat.zero_le _)
    · exact h
  rw [if_neg hleft, if_neg hright]
  by_cases hhome : c = keyHome
  · rw [if_pos hhome]
    exact ⟨_, t, rfl, h.goto hlt (Nat.zero_le _)⟩
  by_cases hend : c = keyEnd
  · rw [if_neg hhome, if_pos hend, h.strlen hrow]
    exact ⟨_, t, rfl, h.goto hlt (le_refl _)⟩
  rw [if_neg hhome, if_neg hend]
  obtain ⟨hupLt, hdownLt⟩ := h.page_lt
  by_cases hpgup : c = keyPgup
  · obtain ⟨len, hlen, hle⟩ := hpage.1 hpgup
    rw [h.strlen (by omega)] at hlen
    rw [if_pos hpgup]
    exact ⟨_, t, rfl, h.goto hupLt (Except.ok.inj hlen ▸ hle)⟩
  by_cases hpgdown : c = keyPgdown
  · obtain ⟨len, hlen, hle⟩ := hpage.2 hpgdown
    rw [h.strlen (by omega)] at hlen
    rw [if_neg hpgup, if_pos hpgdown]
    exact ⟨_, t, rfl, h.goto hdownLt (Except.ok.inj hlen ▸ hle)⟩
  rw [if_neg hpgup, if_neg hpgdown]
  by_cases hprint : isPrintable c = true
  · rw [if_pos hprint]
    refine h.afterInsert ?_
    rintro rfl
    exact absurd hprint (by decide)
  rw [if_neg hprint]
  by_cases htab : c = tab
  · have hblank : blank ≠ 0 := by decide
    obtain ⟨s₁, t₁, h₁, hedits₁⟩ := h.afterInsert hblank
    obtain ⟨s₂, t₂, h₂, hedits₂⟩ := hedits₁.afterInsert hblank
    obtain ⟨s₃, t₃, h₃, hedits₃⟩ := hedits₂.afterInsert hblank
    obtain ⟨s₄, t₄, h₄, hedits₄⟩ := hedits₃.afterInsert hblank
    rw [if_pos htab, h₁, ok_bind, h₂, ok_bind, h₃, ok_bind, h₄]
    exact ⟨s₄, t₄, rfl, hedits₄⟩
  · rw [if_neg htab]
    exact ⟨s, t, rfl, h⟩

/-- A page key that leads to a line that is too short leaves the cursor behind its end. -/
theorem Edits.key_outside (h : Edits s t) (hpage : ¬ PageInside s c) :
    ∃ s', editorKey c s = .ok s' ∧ ¬ EditorInv s' := by
  have hlines := h.lines_le
  obtain ⟨hupLt, hdownLt⟩ := h.page_lt
  have hout : ∀ row, row < s.numLines →
      (¬ ∃ len, s.lines.strlen (lineAddr row) = .ok len ∧ s.cursorCol ≤ len) →
      ¬ EditorInv { s with cursorRow := row } := by
    intro row hrow hnot hinv
    obtain ⟨l, hl, hle⟩ := hinv.col_le
    exact hnot ⟨l.length, strlen_eq hl, hle⟩
  unfold PageInside at hpage
  rw [not_and_or, Classical.not_imp, Classical.not_imp] at hpage
  rcases hpage with ⟨rfl, hnot⟩ | ⟨rfl, hnot⟩
  · exact ⟨_, rfl, hout _ hupLt hnot⟩
  · exact ⟨_, rfl, hout _ hdownLt hnot⟩

/-! ## Runs -/

/-- Every page key of a run, until Ctrl+Q, leads to a line that is not shorter than the column. -/
def PagesInside : Editor → List UInt8 → Prop
  | _, [] => True
  | s, c :: keys =>
    c = ctrlQ ∨ PageInside s c ∧ ∀ s', editorKey c s = .ok s' → PagesInside s' keys

/-- After each part of the keys the editor is well formed. -/
def StaysWellFormed (s : Editor) (keys : List UInt8) : Prop :=
  ∀ pre, pre <+: keys → ∃ s', editorRun s pre = .ok s' ∧ EditorInv s'

/-- **The step gives the run**, by induction on the keys. -/
theorem staysWellFormed_iff (h : EditorInv s) (keys : List UInt8) :
    StaysWellFormed s keys ↔ PagesInside s keys := by
  induction keys generalizing s with
  | nil =>
    refine ⟨fun _ => trivial, fun _ pre hpre => ?_⟩
    rw [List.prefix_nil.mp hpre]
    exact ⟨s, rfl, h⟩
  | cons c keys ih =>
    obtain ⟨t, hedits⟩ := h.edits
    by_cases hquit : c = ctrlQ
    · refine ⟨fun _ => Or.inl hquit, fun _ pre hpre => ⟨s, ?_, h⟩⟩
      rcases List.prefix_cons_iff.mp hpre with rfl | ⟨pre, rfl, -⟩
      · rfl
      · rw [editorRun, if_pos hquit]
    · have hrun : ∀ s', editorKey c s = .ok s' → ∀ pre,
          editorRun s (c :: pre) = editorRun s' pre := by
        intro s' hkey pre
        rw [editorRun, if_neg hquit, hkey, ok_bind]
      constructor
      · intro hstays
        by_cases hpage : PageInside s c
        · obtain ⟨s₁, t₁, hkey, hedits₁⟩ := hedits.key hpage
          refine Or.inr ⟨hpage, fun s' hkey' => ?_⟩
          obtain rfl := Except.ok.inj (hkey.symm.trans hkey')
          refine (ih hedits₁.inv).mp fun pre hpre => ?_
          rw [← hrun _ hkey]
          exact hstays _ (List.cons_prefix_cons.mpr ⟨rfl, hpre⟩)
        · obtain ⟨s₁, hkey, hnot⟩ := hedits.key_outside hpage
          obtain ⟨s', hs', hinv⟩ := hstays [c]
            (List.cons_prefix_cons.mpr ⟨rfl, List.nil_prefix⟩)
          rw [hrun _ hkey] at hs'
          obtain rfl := Except.ok.inj hs'
          exact absurd hinv hnot
      · rintro (hq | ⟨hpage, hrest⟩)
        · exact absurd hq hquit
        · obtain ⟨s₁, t₁, hkey, hedits₁⟩ := hedits.key hpage
          intro pre hpre
          rcases List.prefix_cons_iff.mp hpre with rfl | ⟨pre', rfl, hpre'⟩
          · exact ⟨s, rfl, h⟩
          · rw [hrun _ hkey]
            exact (ih hedits₁.inv).mpr (hrest _ hkey) pre' hpre'

end Microkernel
