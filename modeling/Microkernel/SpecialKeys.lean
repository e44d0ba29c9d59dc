/-
# Special keys

What the editor and the command line do with the keys from `KEY_UP` to `KEY_F12`.
-/
import Microkernel.EditorOpen
import Microkernel.ReadlineRuns

open Access Buffer

namespace Microkernel

variable {c : UInt8}

theorem IsSpecialKey.ne_of_lt {k : UInt8} (hc : IsSpecialKey c) (hk : k < keyUp) : c ≠ k := by
  rintro rfl
  exact absurd (UInt8.lt_of_lt_of_le hk hc.1) (UInt8.lt_irrefl _)

/-! ## The editor -/

/-- A key leaves the text of the editor as it is. -/
def Editor.KeepsText (c : UInt8) (s : Editor) : Prop :=
  ∃ s', editorKey c s = .ok s' ∧ s'.mem = s.mem

/-- A line ends inside the array. -/
def Editor.LineEnds (s : Editor) (row : ℕ) : Prop :=
  ∃ len, s.lines.strlen (lineAddr row) = .ok len

/-- The key has a branch of the key loop for itself. -/
def Editor.Moves (c : UInt8) (s : Editor) : Prop :=
  (c = keyUp ∧ 0 < s.cursorRow) ∨ (c = keyDown ∧ s.cursorRow < s.numLines - 1) ∨ c = keyLeft ∨
    c = keyRight ∨ c = keyHome ∨ c = keyEnd ∨ c = keyPgup ∨ c = keyPgdown

/-- The line whose length that branch takes. -/
def Editor.measured (c : UInt8) (s : Editor) : Option ℕ :=
  if c = keyUp then some (s.cursorRow - 1)
  else if c = keyDown then some (s.cursorRow + 1)
  else if c = keyLeft then
    if 0 < s.cursorCol ∨ s.cursorRow = 0 then none else some (s.cursorRow - 1)
  else if c = keyRight ∨ c = keyEnd then some s.cursorRow
  else none

/-- There is no room for a character, or it stands behind the end of the line already. -/
def Editor.TakesNothing (c : UInt8) (s : Editor) : Prop :=
  editorMaxLines ≤ s.cursorRow ∨
    ∃ len, s.lines.strlen (lineAddr s.cursorRow) = .ok len ∧
      (editorLineLen - 2 ≤ len ∨
        len < s.cursorCol ∧ s.lines.byte (lineAddr s.cursorRow + s.cursorCol) = .ok c)

/-- The states in which a special key leaves the text as it is. -/
def Editor.Harmless (c : UInt8) (s : Editor) : Prop :=
  (s.Moves c ∧ ∀ row ∈ s.measured c, s.LineEnds row) ∨ (¬ s.Moves c ∧ s.TakesNothing c)

variable {s s' : Editor}

/-- **When the insertion of a character changes nothing.** -/
theorem editorInsertChar_keeps_iff (s : Editor) (hc : c ≠ 0) :
    (∃ s', editorInsertChar c s = .ok s' ∧ s'.mem = s.mem) ↔ s.TakesNothing c := by
  unfold editorInsertChar Editor.TakesNothing
  by_cases hrow : editorMaxLines ≤ s.cursorRow
  · rw [if_pos hrow]
    exact ⟨fun _ => Or.inl hrow, fun _ => ⟨s, rfl, rfl⟩⟩
  rw [if_neg hrow, or_iff_right hrow]
  cases hlen : s.lines.strlen (lineAddr s.cursorRow) with
  | error e =>
    constructor
    · rintro ⟨s', hs', -⟩
      cases hs'
    · rintro ⟨len, heq, -⟩
      cases heq
  | ok len =>
    have hunique : (∃ l, (Except.ok len : Access ℕ) = .ok l ∧ (editorLineLen - 2 ≤ l ∨
        l < s.cursorCol ∧ s.lines.byte (lineAddr s.cursorRow + s.cursorCol) = .ok c)) ↔
        editorLineLen - 2 ≤ len ∨
          len < s.cursorCol ∧ s.lines.byte (lineAddr s.cursorRow + s.cursorCol) = .ok c := by
      constructor
      · rintro ⟨l, heq, hl⟩
        rwa [Except.ok.inj heq]
      · exact fun hl => ⟨len, rfl, hl⟩
    rw [hunique, ok_bind]
    by_cases hfull : editorLineLen - 2 ≤ len
    · rw [if_pos hfull]
      exact ⟨fun _ => Or.inl hfull, fun _ => ⟨s, rfl, rfl⟩⟩
    rw [if_neg hfull, or_iff_right hfull]
    dsimp only
    by_cases hcol : len < s.cursorCol
    · -- Behind the end of the line nothing is moved.
      have hcount : len + 1 - s.cursorCol = 0 := by omega
      rw [hcount, moveUpLoop, ok_bind, and_iff_right hcol]
      rw [byte_eq_ok, ← storeBytes_keeps_iff]
      constructor
      · rintro ⟨s', hs', hmem⟩
        obtain ⟨b, hstore, hb⟩ := bind_eq_ok.mp hs'
        cases hb
        exact ⟨b, hstore, hmem⟩
      · rintro ⟨b, hstore, hmem⟩
        rw [hstore, ok_bind]
        exact ⟨_, rfl, hmem⟩
    · -- Otherwise the line becomes longer.
      obtain ⟨l, hl, rfl⟩ := exists_of_strlen hlen
      have hsize : s.lines.size = editorMaxLines * editorLineLen := rfl
      have hlast := lineAddr_lt (not_le.mp hrow) (by omega : l.length + 1 < editorLineLen)
      obtain ⟨b₁, b₂, hmove, hstore, hstring, hsame⟩ := hl.insertChar (not_lt.mp hcol)
        (by rw [hsize]; omega) (by rw [hsize]; decide) hc
      rw [hmove, ok_bind, hstore, ok_bind]
      refine ⟨?_, fun hbehind => absurd hbehind.1 hcol⟩
      rintro ⟨s', hs', hmem⟩
      cases hs'
      have heq : s.lines = b₂ := by
        obtain ⟨size, mem⟩ := b₂
        have hsize₂ := hsame.size_eq
        dsimp only at hmem hsize₂
        rw [hmem, hsize₂]
        rfl
      rw [← heq] at hstring
      exact absurd (hstring.unique hl) (take_append_cons_drop_ne l c _)

/-- The moves of the cursor leave the text as it is if they find the end of the line. -/
theorem map_keeps_iff {x : Access ℕ} {f : ℕ → Editor} (hf : ∀ len, (f len).mem = s.mem) :
    (∃ s', x.map f = .ok s' ∧ s'.mem = s.mem) ↔ ∃ len, x = .ok len := by
  constructor
  · rintro ⟨s', hs', -⟩
    obtain ⟨len, hlen, -⟩ := map_eq_ok.mp hs'
    exact ⟨len, hlen⟩
  · rintro ⟨len, rfl⟩
    exact ⟨f len, rfl, hf len⟩

/-- The branches that a special key can lead to. -/
theorem editorKey_special (hc : IsSpecialKey c) (s : Editor) :
    editorKey c s =
      if c = keyUp ∧ 0 < s.cursorRow then editorMoveTo (s.cursorRow - 1) s
      else if c = keyDown ∧ s.cursorRow < s.numLines - 1 then editorMoveTo (s.cursorRow + 1) s
      else if c = keyLeft then
        if 0 < s.cursorCol then .ok { s with cursorCol := s.cursorCol - 1 }
        else if 0 < s.cursorRow then
          (s.lines.strlen (lineAddr (s.cursorRow - 1))).map fun len =>
            { s with cursorRow := s.cursorRow - 1, cursorCol := len }
        else .ok s
      else if c = keyRight then
        (s.lines.strlen (lineAddr s.cursorRow)).map fun len =>
          if s.cursorCol < len then { s with cursorCol := s.cursorCol + 1 }
          else if s.cursorRow < s.numLines - 1 then
            { s with cursorRow := s.cursorRow + 1, cursorCol := 0 }
          else s
      else if c = keyHome then .ok { s with cursorCol := 0 }
      else if c = keyEnd then
        (s.lines.strlen (lineAddr s.cursorRow)).map fun len => { s with cursorCol := len }
      else if c = keyPgup then .ok { s with cursorRow := s.pageUp }
      else if c = keyPgdown then .ok { s with cursorRow := s.pageDown }
      else editorInsertChar c s := by
  rw [editorKey, if_neg (hc.ne_of_lt (by decide)), if_neg (hc.ne_of_lt (by decide)),
    if_neg (hc.ne_of_lt (by decide)), if_neg (hc.ne_of_lt (by decide)), if_pos hc.isPrintable]

theorem forall_mem_some {α : Type} {P : α → Prop} {a : α} : (∀ r ∈ some a, P r) ↔ P a :=
  ⟨fun hall => hall a rfl, fun ha _ hr => Option.some.inj hr ▸ ha⟩

/-- A move that measures no line leaves the text as it is. -/
theorem Editor.harmless_of_none (hmoves : s.Moves c) (hnone : s.measured c = none) :
    s.Harmless c := by
  refine Or.inl ⟨hmoves, ?_⟩
  rw [hnone]
  exact nofun

theorem Editor.harmless_iff_of_some {row : ℕ} (hmoves : s.Moves c)
    (hsome : s.measured c = some row) : s.Harmless c ↔ s.LineEnds row := by
  unfold Editor.Harmless
  rw [and_iff_right hmoves, or_iff_left fun hnot => hnot.1 hmoves, hsome, forall_mem_some]

/-- **A special key leaves the text as it is** exactly in these states. -/
theorem editor_keepsText_iff (hc : IsSpecialKey c) (s : Editor) :
    s.KeepsText c ↔ s.Harmless c := by
  unfold Editor.KeepsText
  rw [editorKey_special hc]
  by_cases hup : c = keyUp ∧ 0 < s.cursorRow
  · have hmeasured : s.measured c = some (s.cursorRow - 1) := if_pos hup.1
    rw [if_pos hup, s.harmless_iff_of_some (Or.inl hup) hmeasured]
    exact map_keeps_iff fun _ => rfl
  by_cases hdown : c = keyDown ∧ s.cursorRow < s.numLines - 1
  · have hmeasured : s.measured c = some (s.cursorRow + 1) := by
      rw [hdown.1]
      rfl
    rw [if_neg hup, if_pos hdown, s.harmless_iff_of_some (Or.inr (Or.inl hdown)) hmeasured]
    exact map_keeps_iff fun _ => rfl
  rw [if_neg hup, if_neg hdown]
  by_cases hleft : c = keyLeft
  · have hmoves : s.Moves c := Or.inr (Or.inr (Or.inl hleft))
    have hmeasured : s.measured c =
        if 0 < s.cursorCol ∨ s.cursorRow = 0 then none else some (s.cursorRow - 1) := by
      rw [hleft]
      rfl
    rw [if_pos hleft]
    by_cases hcol : 0 < s.cursorCol
    · rw [if_pos (Or.inl hcol)] at hmeasured
      rw [if_pos hcol]
      exact iff_of_true ⟨_, rfl, rfl⟩ (Editor.harmless_of_none hmoves hmeasured)
    rw [if_neg hcol]
    by_cases hrow : 0 < s.cursorRow
    · rw [if_neg (by omega)] at hmeasured
      rw [if_pos hrow, s.harmless_iff_of_some hmoves hmeasured]
      exact map_keeps_iff fun _ => rfl
    · rw [if_pos (by omega)] at hmeasured
      rw [if_neg hrow]
      exact iff_of_true ⟨_, rfl, rfl⟩ (Editor.harmless_of_none hmoves hmeasured)
  by_cases hright : c = keyRight
  · have hmeasured : s.measured c = some s.cursorRow := by
      rw [hright]
      rfl
    rw [if_neg hleft, if_pos hright,
      s.harmless_iff_of_some (Or.inr (Or.inr (Or.inr (Or.inl hright)))) hmeasured]
    refine map_keeps_iff fun len => ?_
    split_ifs <;> rfl
  rw [if_neg hleft, if_neg hright]
  by_cases hhome : c = keyHome
  · have hmeasured : s.measured c = none := by
      rw [hhome]
      rfl
    rw [if_pos hhome]
    exact iff_of_true ⟨_, rfl, rfl⟩
      (Editor.harmless_of_none (Or.inr (Or.inr (Or.inr (Or.inr (Or.inl hhome))))) hmeasured)
  by_cases hend : c = keyEnd
  · have hmeasured : s.measured c = some s.cursorRow := by
      rw [hend]
      rfl
    rw [if_neg hhome, if_pos hend, s.harmless_iff_of_some
      (Or.inr (Or.inr (Or.inr (Or.inr (Or.inr (Or.inl hend)))))) hmeasured]
    exact map_keeps_iff fun _ => rfl
  rw [if_neg hhome, if_neg hend]
  by_cases hpage : c = keyPgup ∨ c = keyPgdown
  · have hmoves : s.Moves c := Or.inr (Or.inr (Or.inr (Or.inr (Or.inr (Or.inr hpage)))))
    have hmeasured : s.measured c = none := by
      rcases hpage with rfl | rfl <;> rfl
    refine iff_of_true ?_ (Editor.harmless_of_none hmoves hmeasured)
    split_ifs with hpgup hpgdown
    · exact ⟨_, rfl, rfl⟩
    · exact ⟨_, rfl, rfl⟩
    · exact absurd hpage (not_or.mpr ⟨hpgup, hpgdown⟩)
  · -- No branch is left but the one for characters.
    have hnot : ¬ s.Moves c := by
      rintro (h | h | h | h | h | h | h)
      · exact hup h
      · exact hdown h
      · exact hleft h
      · exact hright h
      · exact hhome h
      · exact hend h
      · exact hpage h
    have hharmless : s.Harmless c ↔ s.TakesNothing c := by
      unfold Editor.Harmless
      rw [or_iff_right fun h => hnot h.1, and_iff_right hnot]
    rw [if_neg fun h => hpage (Or.inl h), if_neg fun h => hpage (Or.inr h), hharmless]
    exact editorInsertChar_keeps_iff s (hc.ne_of_lt (by decide))

theorem Editor.lt_of_moves_keyDown (h : s.Moves keyDown) : s.cursorRow < s.numLines - 1 := by
  rcases h with ⟨h, -⟩ | ⟨-, h⟩ | h | h | h | h | h | h
  · exact absurd h (by decide)
  · exact h
  all_goals exact absurd h (by decide)

/-- While the editor is well formed, the line of the cursor has to be full for a special key that
does not move it. -/
theorem Edits.harmless_iff {t : ℕ → List UInt8} (h : Edits s t) :
    s.Harmless c ↔ s.Moves c ∨ editorLineLen - 2 ≤ (t s.cursorRow).length := by
  have hrow := h.row_lt_max
  have hlt := h.row_lt
  have hlines := h.lines_le
  have hends : ∀ row < editorMaxLines, s.LineEnds row := fun row hr => ⟨_, h.strlen hr⟩
  have htakes : s.TakesNothing c ↔ editorLineLen - 2 ≤ (t s.cursorRow).length := by
    unfold Editor.TakesNothing
    rw [or_iff_right (not_le.mpr hrow), h.strlen hrow]
    constructor
    · rintro ⟨len, hlen, hfull | ⟨hbehind, -⟩⟩
      · rwa [Except.ok.inj hlen]
      · rw [← Except.ok.inj hlen] at hbehind
        exact absurd h.col_le (not_le.mpr hbehind)
    · exact fun hfull => ⟨_, rfl, Or.inl hfull⟩
  by_cases hmoves : s.Moves c
  · refine iff_of_true (Or.inl ⟨hmoves, fun row hmem => hends row ?_⟩) (Or.inl hmoves)
    unfold Editor.measured at hmem
    split_ifs at hmem with hup hdown hleft hcol hlast
    · obtain rfl := Option.some.inj hmem
      omega
    · obtain rfl := Option.some.inj hmem
      rw [hdown] at hmoves
      have habove := Editor.lt_of_moves_keyDown hmoves
      omega
    · cases hmem
    · obtain rfl := Option.some.inj hmem
      omega
    · obtain rfl := Option.some.inj hmem
      exact hrow
    · cases hmem
  · unfold Editor.Harmless
    rw [or_iff_right fun hm => hmoves hm.1, and_iff_right hmoves, or_iff_right hmoves, htakes]

/-! ## The command line -/

/-- A key leaves the text of the command line as it is, and the loop goes on. -/
def Readline.KeepsText (h : History) (c : UInt8) (s : Readline) : Prop :=
  ∃ s', readlineKey h c s = .ok (.more s') ∧ s'.mem = s.mem

/-- The states in which a special key leaves the command line as it is. -/
def Readline.Harmless (c : UInt8) (s : Readline) : Prop :=
  (c = keyLeft ∧ 0 < s.pos) ∨ (c = keyRight ∧ s.pos < s.len) ∨ c = keyHome ∨ c = keyEnd ∨
    cmdMax - 1 ≤ s.len

/-- A string that has its terminator is left as it is by the end of a round. -/
theorem next_keeps {s : Readline} {n : ℕ} {text : List UInt8} (hr : Reads s text) :
    Readline.next { s with pos := n } = .ok (.more { s with pos := n }) := by
  have hlen := hr.typed.len_eq
  have hnul : s.buf.Holds (0 + text.length) [0] := (s.buf.holds_append.mp hr.terminated.holds).2
  rw [Nat.zero_add, ← hlen] at hnul
  unfold Readline.next Readline.cut
  have hstore : Buffer.storeBytes (Readline.buf { s with pos := n }) s.len [0] = .ok s.buf :=
    storeBytes_same hnul
  dsimp only
  rw [hstore]
  rfl

/-- **A special key leaves the command line as it is** exactly in these states, Up and Down aside. -/
theorem readline_keepsText_iff (hc : IsSpecialKey c) (hup : c ≠ keyUp) (hdown : c ≠ keyDown)
    {s : Readline} {text : List UInt8} (hr : Reads s text) (h : History) :
    s.KeepsText h c ↔ s.Harmless c := by
  have hmove : ∀ n, (∃ s', Readline.next { s with pos := n } = .ok (.more s') ∧ s'.mem = s.mem) :=
    fun n => ⟨_, next_keeps hr, rfl⟩
  have hctrl : ¬ (c = ctrlC ∨ c = ctrlL) :=
    not_or.mpr ⟨hc.ne_of_lt (by decide), hc.ne_of_lt (by decide)⟩
  unfold Readline.KeepsText Readline.Harmless
  rw [readlineKey, if_neg (hc.ne_of_lt (by decide)), if_neg (hc.ne_of_lt (by decide)),
    if_neg (hc.ne_of_lt (by decide)), if_neg hup, if_neg hdown]
  by_cases hleft : c = keyLeft ∧ 0 < s.pos
  · rw [if_pos hleft]
    exact iff_of_true (hmove _) (Or.inl hleft)
  by_cases hright : c = keyRight ∧ s.pos < s.len
  · rw [if_neg hleft, if_pos hright]
    exact iff_of_true (hmove _) (Or.inr (Or.inl hright))
  rw [if_neg hleft, if_neg hright, or_iff_right hleft, or_iff_right hright]
  by_cases hhome : c = keyHome
  · rw [if_pos hhome]
    exact iff_of_true (hmove _) (Or.inl hhome)
  by_cases hend : c = keyEnd
  · rw [if_neg hhome, if_pos hend]
    exact iff_of_true (hmove _) (Or.inr (Or.inl hend))
  rw [if_neg hhome, if_neg hend, if_neg hctrl, or_iff_right hhome, or_iff_right hend]
  by_cases hroom : s.len < cmdMax - 1
  · -- The character makes the text longer.
    have htext : text.length < cmdMax - 1 := by
      rwa [← hr.typed.len_eq]
    obtain ⟨s₁, hinsert, htyped, -⟩ := hr.typed.insert htext (hc.ne_of_lt (by decide) : c ≠ 0)
    obtain ⟨s₂, hnext, hreads, -⟩ := htyped.next
    rw [if_pos ⟨hc.isPrintable, hroom⟩, hinsert, ok_bind, hnext]
    refine ⟨?_, fun hfull => absurd hfull (not_le.mpr hroom)⟩
    rintro ⟨s', hs', hmem⟩
    cases hs'
    have hbuf : s₂.buf = s.buf := congrArg lineBuffer hmem
    have hstring := hreads.terminated
    rw [hbuf] at hstring
    exact absurd (hstring.unique hr.terminated) (take_append_cons_drop_ne text c _)
  · rw [if_neg fun h => hroom h.2]
    exact iff_of_true (hmove s.pos) (not_lt.mp hroom)

/-! ## Both loops -/

/-- **A special key leaves the text as it is**, in every state that the editor and the command line
come to, exactly if the loop moves the cursor for it or there is no room for a character. -/
theorem specialKey_keepsText_iff (filename : List UInt8) (file : Option (List UInt8)) (h : History)
    (mem : Memory) (keys : List UInt8) (hc : IsSpecialKey c) :
    (∀ s, editorSession filename file keys = .ok s → (s.KeepsText c ↔ s.Harmless c)) ∧
      ∀ s, shellReadline h mem keys = .ok (.more s) → c ≠ keyUp → c ≠ keyDown →
        (s.KeepsText h c ↔ s.Harmless c) := by
  constructor
  · intro s _
    exact editor_keepsText_iff hc s
  · intro s hrun hup hdown
    obtain ⟨r, hr, hwell⟩ := shellReadline_wellFormed h mem keys
    obtain rfl := Except.ok.inj (hr.symm.trans hrun)
    obtain ⟨text, hreads⟩ := hwell
    exact readline_keepsText_iff hc hup hdown hreads h

theorem specialKey_keepsText_iff_home :
    IsSpecialKey keyHome ∧ (Editor.empty []).KeepsText keyHome := by
  have hc : IsSpecialKey keyHome := ⟨by decide, by decide⟩
  have hmoves : (Editor.empty []).Moves keyHome := by
    unfold Editor.Moves
    decide
  exact ⟨hc, ((specialKey_keepsText_iff [] none History.empty (fun _ => 0) [] hc).1 _ rfl).mpr
    (Editor.harmless_of_none hmoves rfl)⟩

/-- Up in the first line of the editor and F1 on the command line put their codes into the text. -/
theorem not_keepsText_keyUp :
    (∃ s, editorSession [] none [] = .ok s ∧ IsSpecialKey keyUp ∧ ¬ s.KeepsText keyUp) ∧
      ∃ s, shellReadline History.empty (fun _ => 0) [] = .ok (.more s) ∧ IsSpecialKey keyF1 ∧
        ¬ s.KeepsText History.empty keyF1 := by
  have hup : IsSpecialKey keyUp := ⟨by decide, by decide⟩
  have hf1 : IsSpecialKey keyF1 := ⟨by decide, by decide⟩
  constructor
  · refine ⟨_, rfl, hup, ?_⟩
    rw [editor_keepsText_iff hup, (edits_empty []).harmless_iff]
    unfold Editor.Moves
    decide
  · obtain ⟨s, hstart, hreads⟩ := reads_start History.empty fun _ => 0
    refine ⟨s, ?_, hf1, ?_⟩
    · rw [shellReadline, hstart]
      rfl
    · rw [readline_keepsText_iff hf1 (by decide) (by decide) hreads]
      have hlen : s.len = 0 := hreads.typed.len_eq
      unfold Readline.Harmless
      rw [hlen]
      rintro (⟨h, -⟩ | ⟨h, -⟩ | h | h | h)
      all_goals exact absurd h (by decide)

end Microkernel
