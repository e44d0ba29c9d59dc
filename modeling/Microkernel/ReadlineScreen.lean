/-
# The command line on the screen

What `shell_readline` draws with the functions of `src/vga.c` while a line is typed, and that the row
of the screen has the text of the buffer.
-/
import Microkernel.ReadlineRuns
import Microkernel.Runs
import Microkernel.TerminalSheet

open Access Buffer

namespace Microkernel

variable {η : Type*}

/-! ## Drawing -/

/-- The bytes of the buffer from the cursor on. -/
def Readline.tail (s : Readline) : List UInt8 :=
  (List.range (s.len - s.pos)).map fun i => s.mem (s.pos + i)

/-- The rest of the line is drawn again, and the cursor goes back to where it was. -/
def drawTail (tail : List UInt8) (t : Terminal η) : Terminal η :=
  (t.print tail).setCursor t.getCursor.1 t.getCursor.2

/-- The character before the cursor is taken from the screen. -/
def drawRemove (s s' : Readline) (t : Terminal η) : Terminal η :=
  if 0 < s.pos then
    let t := t.backspace
    ((t.print s'.tail).putchar blank).setCursor t.getCursor.1 t.getCursor.2
  else t

/-- The loops that clear the line before another one is drawn. -/
def clearLine (s : Readline) (t : Terminal η) : Terminal η :=
  let t := Terminal.backspace^[s.pos] t
  let t := t.print (List.replicate s.len blank)
  Terminal.backspace^[s.len] t

/-- A line of the history is drawn. -/
def drawRecall (h : History) (i : ℕ) (s : Readline) (t : Terminal η) : Terminal η :=
  (clearLine s t).print (h.line i)

def drawUp (h : History) (s : Readline) (t : Terminal η) : Terminal η :=
  if 0 < s.histIdx ∧ h.historyCount < s.histIdx + historySize then drawRecall h (s.histIdx - 1) s t
  else t

def drawDown (h : History) (s : Readline) (t : Terminal η) : Terminal η :=
  if s.histIdx + 1 < h.historyCount then drawRecall h (s.histIdx + 1) s t
  else if s.histIdx + 1 = h.historyCount then clearLine s t
  else t

/-- The words that `tab_complete` finds for the word before the cursor. -/
def tabMatches (s : Readline) : List (List UInt8) :=
  match wordStart s.buf s.pos with
  | .ok start =>
    if s.pos - start = 0 ∨ 63 ≤ s.pos - start then []
    else if start = 0 then commandMatches ((List.range s.pos).map s.mem)
    else []
  | .error _ => []

/-- `tab_complete` draws what it inserts, or the words if there are several. -/
def drawTab (s s' : Readline) (t : Terminal η) : Terminal η :=
  match tabMatches s with
  | [] => t
  | [name] => t.print ((name.drop s.pos).take (s'.len - s.len))
  | names =>
    let t := names.foldl (fun t name => (t.print [blank, blank]).print name) (t.putchar newline)
    t.putchar newline

/-- What a round of the loop draws that leads from `s` to `s'`. -/
def drawKey (h : History) (c : UInt8) (s s' : Readline) (t : Terminal η) : Terminal η :=
  let (row, col) := t.getCursor
  if c = backspace then drawRemove s s' t
  else if c = tab then drawTab s s' t
  else if c = keyUp then drawUp h s t
  else if c = keyDown then drawDown h s t
  else if c = keyLeft ∧ 0 < s.pos then t.setCursor row (col - 1)
  else if c = keyRight ∧ s.pos < s.len then t.setCursor row (col + 1)
  else if c = keyHome then t.setCursor row (col - s.pos)
  else if c = keyEnd then t.setCursor row (col + (s.len - s.pos))
  else if isPrintable c ∧ s.len < cmdMax - 1 then drawTail s'.tail (t.putchar c)
  else t

/-! ## Letters in a row -/

/-- A character that is drawn in its row. -/
def IsLetter (c : UInt8) : Prop := c ≠ newline ∧ c ≠ tab ∧ c ≠ carriageReturn

theorem isLetter_of_le {c : UInt8} (h : 32 ≤ c) : IsLetter c := by
  refine ⟨?_, ?_, ?_⟩ <;>
  · rintro rfl
    exact absurd h (by decide)

/-- From the column `c₀` on, a row of the screen has this text; the cursor is behind `p` of its
characters, and the rest of the screen is `base`. -/
structure LineShown (base : ℕ → UInt16) (color : UInt8) (r c₀ : ℕ) (text : List UInt8) (p : ℕ)
    (t : Terminal η) : Prop where
  row_eq : t.termRow = r
  col_eq : t.termCol = c₀ + p
  color_eq : t.termColor = color
  row_lt : r < vgaHeight
  col_lt : c₀ + p < vgaWidth
  cells : ∀ i, t.vgaBuffer i =
    if r * vgaWidth + c₀ ≤ i ∧ i < (r + 1) * vgaWidth
    then vgaEntry (rowOf blank text (i - (r * vgaWidth + c₀))) color else base i

namespace LineShown

variable {base : ℕ → UInt16} {color c : UInt8} {r c₀ p : ℕ} {text text' w : List UInt8}
  {t : Terminal η}

/-- What is written at the cursor is in the text. -/
theorem store (h : LineShown base color r c₀ text p t) (hp : p ≤ text.length) (c : UInt8) (i : ℕ) :
    (t.store (vgaEntry c t.termColor)).vgaBuffer i =
      if r * vgaWidth + c₀ ≤ i ∧ i < (r + 1) * vgaWidth
      then vgaEntry (rowOf blank (text.take p ++ c :: text.drop (p + 1))
        (i - (r * vgaWidth + c₀))) color else base i := by
  have hcol := h.col_lt
  show Function.update t.vgaBuffer (t.termRow * vgaWidth + t.termCol)
    (vgaEntry c t.termColor) i = _
  rw [h.row_eq, h.col_eq, h.color_eq, ← update_rowOf hp, Nat.succ_mul]
  by_cases hi : i = r * vgaWidth + (c₀ + p)
  · have hoff : i - (r * vgaWidth + c₀) = p := by omega
    rw [hi, Function.update_self, if_pos (by omega), ← hi, hoff, Function.update_self]
  · rw [Function.update_of_ne hi, h.cells, Nat.succ_mul]
    by_cases hin : r * vgaWidth + c₀ ≤ i ∧ i < r * vgaWidth + vgaWidth
    · rw [if_pos hin, if_pos hin, Function.update_of_ne (by omega)]
    · rw [if_neg hin, if_neg hin]

/-- The cursor moves in the row. -/
theorem moveTo (h : LineShown base color r c₀ text p t) {p' : ℕ} (hp' : c₀ + p' < vgaWidth) :
    LineShown base color r c₀ text p' (t.moveTo r (c₀ + p')).updateCursor :=
  ⟨rfl, rfl, h.color_eq, h.row_lt, hp', h.cells⟩

theorem setCursor (h : LineShown base color r c₀ text p t) {p' : ℕ} (hp' : c₀ + p' < vgaWidth)
    {row col : ℤ} (hrow : row = r) (hcol : col = c₀ + p') :
    LineShown base color r c₀ text p' (t.setCursor row col) := by
  have hwidth : vgaWidth = 80 := rfl
  have hheight : vgaHeight = 25 := rfl
  have hlt := h.row_lt
  have hr : (row % 256).toNat = r := by omega
  have hc : (col % 256).toNat = c₀ + p' := by omega
  unfold Terminal.setCursor
  rw [hr, hc]
  exact h.moveTo hp'

/-- Texts that differ in the blanks at their ends look the same. -/
theorem congr (h : LineShown base color r c₀ text p t)
    (heq : rowOf blank text = rowOf blank text') : LineShown base color r c₀ text' p t := by
  refine ⟨h.row_eq, h.col_eq, h.color_eq, h.row_lt, h.col_lt, ?_⟩
  rw [← heq]
  exact h.cells

/-- **A letter is drawn** when it is not the last one of the row. -/
theorem putchar (h : LineShown base color r c₀ text p t) (hp : p ≤ text.length) (hc : IsLetter c)
    (hroom : c₀ + p + 1 < vgaWidth) :
    LineShown base color r c₀ (text.take p ++ c :: text.drop (p + 1)) (p + 1) (t.putchar c) := by
  have hwidth : vgaWidth = 80 := rfl
  have hlt := h.row_lt
  -- The hook does not change the row.
  have hcall : LineShown base color r c₀ text p (t.callHook c) := by
    unfold Terminal.callHook
    cases t.outputHook with
    | none => exact h
    | some hook => exact ⟨h.row_eq, h.col_eq, h.color_eq, h.row_lt, h.col_lt, h.cells⟩
  obtain ⟨t₁, ht₁⟩ : ∃ t₁, t.callHook c = t₁ := ⟨_, rfl⟩
  rw [ht₁] at hcall
  have hplace : t₁.place c = (t₁.store (vgaEntry c t₁.termColor)).moveTo r (c₀ + (p + 1)) := by
    unfold Terminal.place
    rw [if_neg hc.1, if_neg hc.2.1, if_neg hc.2.2, hcall.row_eq, hcall.col_eq,
      Nat.mod_eq_of_lt (by omega)]
    rfl
  have hrow : (t₁.place c).endRow = t₁.place c := by
    unfold Terminal.endRow
    rw [hplace, if_neg]
    show ¬ vgaWidth ≤ c₀ + (p + 1)
    omega
  have hscreen : (t₁.place c).endScreen = t₁.place c := by
    unfold Terminal.endScreen
    rw [hplace, if_neg]
    show ¬ vgaHeight ≤ r
    omega
  unfold Terminal.putchar
  rw [ht₁, hrow, hscreen, hplace]
  exact ⟨rfl, rfl, hcall.color_eq, h.row_lt, hroom, hcall.store hp c⟩

/-- **A text is drawn** when it ends before the last column. -/
theorem print (h : LineShown base color r c₀ text p t) (hp : p ≤ text.length)
    (hw : ∀ c ∈ w, IsLetter c) (hroom : c₀ + p + w.length < vgaWidth) :
    LineShown base color r c₀ (text.take p ++ w ++ text.drop (p + w.length)) (p + w.length)
      (t.print w) := by
  induction w generalizing text p t with
  | nil =>
    rw [List.append_nil, List.length_nil, Nat.add_zero, List.take_append_drop]
    exact h
  | cons c w ih =>
    rw [List.length_cons] at hroom
    have htake : (text.take p).length = p := List.length_take_of_le hp
    have hstep := h.putchar hp (hw c List.mem_cons_self) (by omega)
    have hlen : p + 1 ≤ (text.take p ++ c :: text.drop (p + 1)).length := by
      rw [List.length_append, htake, List.length_cons]
      omega
    have hrest := ih hstep hlen (fun x hx => hw x (List.mem_cons_of_mem _ hx)) (by omega)
    -- The letters before the cursor are those drawn so far, those behind it are the old ones.
    have hbefore : (text.take p ++ c :: text.drop (p + 1)).take (p + 1) = text.take p ++ [c] := by
      rw [List.take_append, htake, List.take_of_length_le (by omega), Nat.add_sub_cancel_left]
      rfl
    have hbehind : (text.take p ++ c :: text.drop (p + 1)).drop (p + 1 + w.length) =
        text.drop (p + (w.length + 1)) := by
      rw [List.drop_append, htake, List.drop_eq_nil_of_le (by omega), List.nil_append,
        show p + 1 + w.length - p = w.length + 1 by omega, List.drop_succ_cons, List.drop_drop]
      congr 1
      omega
    have hjoin : text.take p ++ c :: w = text.take p ++ [c] ++ w := by
      rw [List.append_assoc, List.singleton_append]
    have hcount : p + (w.length + 1) = p + 1 + w.length := by omega
    rw [hbefore, hbehind, hcount] at hrest
    rw [hjoin, List.length_cons, hcount]
    exact hrest

/-- A step back blanks a letter of the row. -/
theorem backspace (h : LineShown base color r c₀ text (p + 1) t) (hp : p ≤ text.length) :
    LineShown base color r c₀ (text.take p ++ blank :: text.drop (p + 1)) p t.backspace := by
  have hcol := h.col_lt
  have hback : (if 0 < t.termCol then t.moveTo t.termRow (t.termCol - 1)
      else if 0 < t.termRow then t.moveTo (t.termRow - 1) (vgaWidth - 1) else t) =
      t.moveTo r (c₀ + p) := by
    rw [h.col_eq, if_pos (Nat.lt_of_lt_of_le (Nat.succ_pos p) (Nat.le_add_left _ _)), h.row_eq]
    rfl
  have hp' : c₀ + p < vgaWidth := by omega
  have hmoved := h.moveTo hp'
  unfold Terminal.backspace
  rw [hback]
  exact ⟨rfl, rfl, h.color_eq, h.row_lt, by omega, hmoved.store hp blank⟩

/-- Steps back blank the letters before the cursor. -/
theorem backspaces (n : ℕ) (h : LineShown base color r c₀ text (p + n) t)
    (hp : p + n ≤ text.length) :
    LineShown base color r c₀ (text.take p ++ List.replicate n blank ++ text.drop (p + n)) p
      (Terminal.backspace^[n] t) := by
  induction n generalizing t text with
  | zero =>
    rw [List.replicate_zero, List.append_nil, Nat.add_zero, List.take_append_drop]
    exact h
  | succ n ih =>
    have hstep := LineShown.backspace (p := p + n) h (by omega)
    have htake : (text.take (p + n)).length = p + n := List.length_take_of_le (by omega)
    have hlen : p + n ≤ (text.take (p + n) ++ blank :: text.drop (p + n + 1)).length := by
      rw [List.length_append, htake]
      omega
    have hrest := ih hstep hlen
    have hbefore : (text.take (p + n) ++ blank :: text.drop (p + n + 1)).take p = text.take p := by
      rw [List.take_append_of_le_length (by omega), List.take_take, Nat.min_eq_left (by omega)]
    have hbehind : (text.take (p + n) ++ blank :: text.drop (p + n + 1)).drop (p + n) =
        blank :: text.drop (p + n + 1) := List.drop_left' htake
    rw [hbefore, hbehind] at hrest
    rw [List.replicate_succ', List.append_assoc, List.append_assoc, List.singleton_append,
      ← List.append_assoc, Function.iterate_succ_apply]
    exact hrest

end LineShown

/-! ## The buffer after a key -/

variable {h : History} {s s' : Readline} {text w : List UInt8} {c : UInt8}
  {base : ℕ → UInt16} {color : UInt8} {r c₀ : ℕ} {t : Terminal η}

/-- The line can be drawn in its row. -/
def Drawable (text : List UInt8) : Prop := ∀ c ∈ text, IsLetter c

theorem Typed.tail_eq (ht : Typed s text) : s.tail = text.drop s.pos := by
  have hpos := ht.pos_le
  have hsplit := ht.holds
  rw [← List.take_append_drop s.pos text, holds_append] at hsplit
  have hrest := hsplit.2.2
  rw [List.length_take_of_le hpos, Nat.zero_add, List.length_drop] at hrest
  unfold Readline.tail
  rw [ht.len_eq]
  exact hrest

theorem Readline.cut_pos {i : ℕ} (hcut : s.cut i = .ok s') : s'.pos = s.pos := by
  obtain ⟨b, -, hb⟩ := map_eq_ok.mp hcut
  rw [← hb]

/-- The end of a round leaves the cursor where it is. -/
theorem Readline.next_pos (hnext : s.next = .ok (.more s')) : s'.pos = s.pos := by
  obtain ⟨s₁, hcut, hs₁⟩ := map_eq_ok.mp hnext
  cases hs₁
  exact Readline.cut_pos hcut

theorem Typed.recall_pos {i : ℕ} (hrecall : s.recall h i = .ok s') : s'.pos = s'.len := by
  obtain ⟨b, -, hlen⟩ := bind_eq_ok.mp hrecall
  obtain ⟨n, -, hn⟩ := map_eq_ok.mp hlen
  rw [← hn]

/-- What a completion inserts at the end of the line. -/
theorem Typed.completeLoop_end (rest : List UInt8) (ht : Typed s text) (hend : s.pos = text.length)
    (hrest : 0 ∉ rest) :
    ∃ s' k, Microkernel.completeLoop rest s = .ok s' ∧ k ≤ rest.length ∧ Typed s' (text ++ rest.take k) ∧
      s'.pos = text.length + k := by
  induction rest generalizing s text with
  | nil => exact ⟨s, 0, rfl, le_rfl, by rwa [List.take_nil, List.append_nil], hend⟩
  | cons c rest ih =>
    unfold Microkernel.completeLoop
    split_ifs with hroom
    · rw [ht.len_eq] at hroom
      obtain ⟨s₁, hinsert, htyped, hpos⟩ := ht.insert (c := c) (by omega)
        (List.ne_of_not_mem_cons hrest).symm
      rw [hend, List.take_length, List.drop_length] at htyped
      have hlen : (text ++ [c]).length = text.length + 1 := by
        rw [List.length_append, List.length_singleton]
      obtain ⟨s₂, k, hloop, hk, htyped₂, hpos₂⟩ :=
        ih htyped (by rw [hpos, hend, hlen]) (List.not_mem_of_not_mem_cons hrest)
      refine ⟨s₂, k + 1, ?_, Nat.succ_le_succ hk, ?_, by rw [hpos₂, hlen]; omega⟩
      · rw [hinsert, ok_bind, hloop]
      · rw [List.take_succ_cons, ← List.singleton_append, ← List.append_assoc]
        exact htyped₂
    · exact ⟨s, 0, rfl, Nat.zero_le _, by rwa [List.take_zero, List.append_nil], hend⟩

/-- `tab_complete` inserts what is missing of the only word that it finds. -/
theorem Typed.tabComplete_cases (ht : Typed s text) :
    (∃ name, tabMatches s = [name] ∧ Microkernel.tabComplete s =
      (Microkernel.completeLoop (name.drop s.pos) s).bind fun s => s.cut s.len) ∨
    ((∀ name, tabMatches s ≠ [name]) ∧ Microkernel.tabComplete s = .ok s) := by
  obtain ⟨start, hstart, hle⟩ := wordStart_le ht.holds ht.pos_le
  have hinside := ht.holds.1
  have hpos := ht.pos_le
  unfold Microkernel.tabComplete tabMatches
  rw [hstart, ok_bind]
  dsimp only
  by_cases hplen : s.pos - start = 0 ∨ 63 ≤ s.pos - start
  · rw [if_pos hplen, if_pos hplen]
    exact Or.inr ⟨fun name => (List.cons_ne_nil name []).symm, rfl⟩
  · have hword : s.buf.bytes start (s.pos - start) =
        .ok ((List.range (s.pos - start)).map fun i => s.mem (start + i)) :=
      if_pos (Or.inr (by omega))
    rw [if_neg hplen, if_neg hplen, hword, ok_bind]
    by_cases hfirst : start = 0
    · have hmem : (fun i => s.mem (start + i)) = s.mem := by
        funext i
        rw [hfirst, Nat.zero_add]
      rw [if_pos hfirst, if_pos hfirst, hmem, hfirst, Nat.sub_zero]
      -- There is one word, or the line stays as it is.
      generalize commandMatches ((List.range s.pos).map s.mem) = words
      rcases words with _ | ⟨name, _ | ⟨second, words⟩⟩
      · exact Or.inr ⟨fun name => (List.cons_ne_nil name []).symm, rfl⟩
      · exact Or.inl ⟨name, rfl, rfl⟩
      · refine Or.inr ⟨fun only h => ?_, rfl⟩
        exact List.cons_ne_nil second words (List.cons.inj h).2
    · rw [if_neg hfirst, if_neg hfirst]
      exact Or.inr ⟨fun name => (List.cons_ne_nil name []).symm, rfl⟩

/-! ## What is drawn -/

/-- **Clearing the line** leaves blanks behind the prompt. -/
theorem LineShown.clearLine (hs : LineShown base color r c₀ text s.pos t) (ht : Typed s text)
    (hroom : c₀ + text.length < vgaWidth) :
    LineShown base color r c₀ [] 0 (clearLine s t) := by
  have hpos := ht.pos_le
  have hblank : IsLetter blank := isLetter_of_le (by decide)
  have hstart : LineShown base color r c₀ text (0 + s.pos) t := by rwa [Nat.zero_add]
  have hback := hstart.backspaces s.pos (by omega)
  rw [List.take_zero, List.nil_append, Nat.zero_add] at hback
  have hlen : (List.replicate s.pos blank ++ text.drop s.pos).length = s.len := by
    rw [List.length_append, List.length_replicate, List.length_drop, ht.len_eq]
    omega
  have hover := hback.print (w := List.replicate s.len blank) (Nat.zero_le _)
    (fun c hc => (List.eq_of_mem_replicate hc) ▸ hblank) (by
      rw [List.length_replicate, ht.len_eq]
      omega)
  rw [List.take_zero, List.nil_append, List.length_replicate,
    List.drop_eq_nil_of_le (by omega), List.append_nil] at hover
  have hagain := hover.backspaces s.len (by rw [List.length_replicate, Nat.zero_add])
  rw [List.take_zero, List.nil_append, List.drop_eq_nil_of_le
    (by rw [List.length_replicate, Nat.zero_add]), List.append_nil] at hagain
  exact hagain.congr (rowOf_append_replicate [] s.len)

/-- A line of the history is drawn over the old one. -/
theorem LineShown.recall {i : ℕ} (hs : LineShown base color r c₀ text s.pos t) (ht : Typed s text)
    (hroom : c₀ + text.length < vgaWidth) (hline : Drawable (h.line i))
    (hroom' : c₀ + (h.line i).length < vgaWidth) :
    LineShown base color r c₀ (h.line i) (h.line i).length (drawRecall h i s t) := by
  have hdrawn := (hs.clearLine ht hroom).print (w := h.line i) (Nat.zero_le _) hline hroom'
  rw [List.take_nil, List.nil_append, List.drop_nil, List.append_nil, Nat.zero_add] at hdrawn
  exact hdrawn

/-- A character is drawn in the line, and the rest of the line behind it. -/
theorem LineShown.insert {p : ℕ} (hs : LineShown base color r c₀ text p t) (hp : p ≤ text.length)
    (hc : IsLetter c) (hline : Drawable text) (hroom : c₀ + text.length + 1 < vgaWidth) :
    LineShown base color r c₀ (text.take p ++ c :: text.drop p) (p + 1)
      (drawTail (text.drop p) (t.putchar c)) := by
  have hchar := hs.putchar hp hc (by omega)
  have hdrop : (text.drop p).length = text.length - p := List.length_drop
  have htake : (text.take p).length = p := List.length_take_of_le hp
  have hlen : p + 1 ≤ (text.take p ++ c :: text.drop (p + 1)).length := by
    rw [List.length_append, htake, List.length_cons]
    omega
  have hrest := hchar.print (w := text.drop p) hlen
    (fun x hx => hline x (List.mem_of_mem_drop hx)) (by omega)
  -- The old letters behind the cursor are all drawn over.
  have hbefore : (text.take p ++ c :: text.drop (p + 1)).take (p + 1) = text.take p ++ [c] := by
    rw [List.take_append, htake, List.take_of_length_le (by omega), Nat.add_sub_cancel_left]
    rfl
  have hbehind : (text.take p ++ c :: text.drop (p + 1)).drop (p + 1 + (text.drop p).length) = [] := by
    apply List.drop_eq_nil_of_le
    rw [List.length_append, htake, List.length_cons, List.length_drop]
    omega
  rw [hbefore, hbehind, List.append_nil, List.append_assoc, List.singleton_append] at hrest
  refine hrest.setCursor (by omega) ?_ ?_
  · exact congrArg Nat.cast hchar.row_eq
  · exact (congrArg Nat.cast hchar.col_eq).trans (Nat.cast_add _ _)

/-- The letter before the cursor disappears, and the rest of the line moves up. -/
theorem LineShown.takeOut {n : ℕ} (hs : LineShown base color r c₀ text (n + 1) t)
    (hn : n + 1 ≤ text.length) (hline : Drawable text) (hroom : c₀ + text.length < vgaWidth) :
    LineShown base color r c₀ (text.take n ++ text.drop (n + 1)) n
      (((t.backspace.print (text.drop (n + 1))).putchar blank).setCursor t.backspace.getCursor.1
        t.backspace.getCursor.2) := by
  have hback := hs.backspace (by omega)
  have htake : (text.take n).length = n := List.length_take_of_le (by omega)
  have hdrop : (text.drop (n + 1)).length = text.length - (n + 1) := List.length_drop
  have hlen : n ≤ (text.take n ++ blank :: text.drop (n + 1)).length := by
    rw [List.length_append, htake]
    omega
  have hrest := hback.print (w := text.drop (n + 1)) hlen
    (fun x hx => hline x (List.mem_of_mem_drop hx)) (by omega)
  have hbefore : (text.take n ++ blank :: text.drop (n + 1)).take n = text.take n :=
    List.take_left' htake
  rw [hbefore] at hrest
  -- One letter of the old line is left, the blank goes over it.
  obtain ⟨old, hold⟩ : ∃ old, (text.take n ++ blank :: text.drop (n + 1)).drop
      (n + (text.drop (n + 1)).length) = [old] := by
    apply List.length_eq_one_iff.mp
    rw [List.length_drop, List.length_append, htake, List.length_cons]
    omega
  rw [hold] at hrest
  have hdone : (text.take n ++ text.drop (n + 1)).length = n + (text.drop (n + 1)).length := by
    rw [List.length_append, htake]
  have hover := hrest.putchar (by
      rw [List.length_append, hdone]
      omega) (isLetter_of_le (by decide : 32 ≤ blank)) (by omega)
  have hend : (text.take n ++ text.drop (n + 1) ++ [old]).drop
      ((text.take n ++ text.drop (n + 1)).length + 1) = [] :=
    List.drop_eq_nil_of_le (by rw [List.length_append, List.length_singleton])
  rw [← hdone, List.take_left, hend] at hover
  have hshown := hover.congr (rowOf_append_replicate (text.take n ++ text.drop (n + 1)) 1)
  refine hshown.setCursor (by omega) ?_ ?_
  · exact congrArg Nat.cast hback.row_eq
  · exact (congrArg Nat.cast hback.col_eq).trans (Nat.cast_add _ _)

/-! ## Keys -/

theorem cmdNames_drawable : ∀ name ∈ cmdNames, Drawable name :=
  fun name hname c hc => isLetter_of_le (cmdNames_printable name hname c hc)

/-- The buffer has a text, and the screen shows it. -/
structure OnScreen (base : ℕ → UInt16) (color : UInt8) (r c₀ : ℕ) (s : Readline) (t : Terminal η)
    (text : List UInt8) : Prop where
  reads : Reads s text
  shown : LineShown base color r c₀ text s.pos t
  drawable : Drawable text
  room : c₀ + text.length < vgaWidth

/-- The line fits in its row after a key, and a completion is at its end and not a choice. -/
structure KeyFits (c₀ : ℕ) (c : UInt8) (s s' : Readline) : Prop where
  room : c₀ + s'.len < vgaWidth
  completes : c = tab → s.pos = s.len ∧ (tabMatches s).length ≤ 1

/-- A key of `shell_readline` that does not end the line, with what is drawn. -/
def ReadlineStep (h : History) (c₀ : ℕ) (q : Readline × Terminal η) (c : UInt8)
    (q' : Readline × Terminal η) : Prop :=
  readlineKey h c q.1 = .ok (.more q'.1) ∧ q'.2 = drawKey h c q.1 q'.1 q.2 ∧ KeyFits c₀ c q.1 q'.1

theorem mem_cmdNames_of_tabMatches {name : List UInt8} (hmem : name ∈ tabMatches s) :
    name ∈ cmdNames := by
  unfold tabMatches at hmem
  split at hmem
  · split_ifs at hmem
    · exact absurd hmem List.not_mem_nil
    · exact List.mem_of_mem_filter (List.mem_of_mem_take hmem)
    · exact absurd hmem List.not_mem_nil
  · exact absurd hmem List.not_mem_nil

theorem Reading.more_inj {s₁ s₂ : Readline} (h : s.next = .ok (.more s₁))
    (h' : s.next = .ok (.more s₂)) : s₁ = s₂ := by
  have heq := Except.ok.inj (h.symm.trans h')
  injection heq

/-- The end of a round after an edit that was drawn. -/
theorem onScreen_next {s₁ : Readline} (ht : Typed s₁ text)
    (hs : s'.tail = text.drop s₁.pos → c₀ + text.length < vgaWidth → s'.len = text.length →
      LineShown base color r c₀ text s₁.pos t)
    (hline : Drawable text) (hkey : s₁.next = .ok (.more s')) (hroom : c₀ + s'.len < vgaWidth) :
    OnScreen base color r c₀ s' t text := by
  obtain ⟨s₂, hnext, hreads, -⟩ := ht.next
  obtain rfl := Reading.more_inj hnext hkey
  have hpos := Readline.next_pos hnext
  have hlen := hreads.typed.len_eq
  have htail := hreads.typed.tail_eq
  rw [hpos] at htail
  rw [hlen] at hroom
  refine ⟨hreads, ?_, hline, hroom⟩
  rw [hpos]
  exact hs htail hroom hlen

namespace OnScreen

variable (ho : OnScreen base color r c₀ s t text)

include ho

/-- Only the cursor moves. -/
theorem move {n : ℕ} (hn : n ≤ text.length) {t' : Terminal η}
    (hs : LineShown base color r c₀ text n t')
    (hkey : Readline.next { s with pos := n } = .ok (.more s')) (hroom : c₀ + s'.len < vgaWidth) :
    OnScreen base color r c₀ s' t' text := by
  have ht := ho.reads.typed
  have ht' : Typed { s with pos := n } text := ⟨ht.holds, ht.noNul, ht.short, ht.len_eq, hn⟩
  exact onScreen_next ht' (fun _ _ _ => hs) ho.drawable hkey hroom

/-- The key does nothing. -/
theorem keep (hkey : s.next = .ok (.more s')) (hroom : c₀ + s'.len < vgaWidth) :
    OnScreen base color r c₀ s' t text :=
  ho.move ho.reads.typed.pos_le ho.shown hkey hroom

theorem insert (hc : 32 ≤ c) (hlen : s.len < cmdMax - 1)
    (hkey : (s.insert c).bind Readline.next = .ok (.more s')) (hroom : c₀ + s'.len < vgaWidth) :
    OnScreen base color r c₀ s' (drawTail s'.tail (t.putchar c))
      (text.take s.pos ++ c :: text.drop s.pos) := by
  have ht := ho.reads.typed
  have hpos := ht.pos_le
  have hne : c ≠ 0 := by
    rintro rfl
    exact absurd hc (by decide)
  obtain ⟨s₁, hinsert, ht₁, hpos₁⟩ := ht.insert (by rw [← ht.len_eq]; exact hlen) hne
  rw [hinsert, ok_bind] at hkey
  have htake : (text.take s.pos).length = s.pos := List.length_take_of_le hpos
  have hcount : (text.take s.pos ++ c :: text.drop s.pos).length = text.length + 1 := by
    rw [List.length_append, htake, List.length_cons, List.length_drop]
    omega
  refine onScreen_next ht₁ (fun htail hroom' _ => ?_) ?_ hkey hroom
  · have hdrop : (text.take s.pos ++ c :: text.drop s.pos).drop s₁.pos = text.drop s.pos := by
      rw [hpos₁, List.drop_append, htake, List.drop_eq_nil_of_le (by omega),
        Nat.add_sub_cancel_left]
      rfl
    rw [hcount] at hroom'
    rw [htail, hdrop, hpos₁]
    exact ho.shown.insert hpos (isLetter_of_le hc) ho.drawable hroom'
  · intro x hx
    rcases List.mem_append.mp hx with hx | hx
    · exact ho.drawable x (List.mem_of_mem_take hx)
    · rcases List.mem_cons.mp hx with rfl | hx
      · exact isLetter_of_le hc
      · exact ho.drawable x (List.mem_of_mem_drop hx)

theorem remove (hkey : s.remove.bind Readline.next = .ok (.more s'))
    (hroom : c₀ + s'.len < vgaWidth) :
    ∃ text', OnScreen base color r c₀ s' (drawRemove s s' t) text' := by
  have ht := ho.reads.typed
  have hpos := ht.pos_le
  unfold drawRemove
  by_cases hfirst : 0 < s.pos
  · obtain ⟨s₁, hremove, ht₁, hpos₁⟩ := ht.takeOut hfirst
    obtain ⟨n, hn⟩ : ∃ n, s.pos = n + 1 := ⟨s.pos - 1, by omega⟩
    rw [hremove, ok_bind] at hkey
    rw [if_pos hfirst]
    refine ⟨_, onScreen_next ht₁ (fun htail _ _ => ?_) ?_ hkey hroom⟩
    · have htake : (text.take (s.pos - 1)).length = s.pos - 1 :=
        List.length_take_of_le (by omega)
      have hs := ho.shown
      rw [hn] at hs
      rw [hpos₁, List.drop_left' htake] at htail
      rw [hpos₁, htail, hn, Nat.add_sub_cancel]
      exact hs.takeOut (by omega) ho.drawable ho.room
    · intro x hx
      rcases List.mem_append.mp hx with hx | hx
      · exact ho.drawable x (List.mem_of_mem_take hx)
      · exact ho.drawable x (List.mem_of_mem_drop hx)
  · have hsame : s.remove = .ok s := if_neg hfirst
    rw [hsame, ok_bind] at hkey
    rw [if_neg hfirst]
    exact ⟨text, ho.keep hkey hroom⟩

theorem fromHistory {i : ℕ} (hhist : Drawable (h.line i))
    (hkey : (s.recall h i).bind Readline.next = .ok (.more s')) (hroom : c₀ + s'.len < vgaWidth) :
    OnScreen base color r c₀ s' (drawRecall h i s t) (h.line i) := by
  obtain ⟨s₁, hrecall, ht₁⟩ := Typed.recall h i s
  have hpos₁ := Typed.recall_pos hrecall
  rw [hrecall, ok_bind] at hkey
  refine onScreen_next ht₁ (fun _ hroom' _ => ?_) hhist hkey hroom
  rw [hpos₁, ht₁.len_eq]
  exact ho.shown.recall ho.reads.typed ho.room hhist hroom'

theorem up (hhist : ∀ i, Drawable (h.line i))
    (hkey : (s.up h).bind Readline.next = .ok (.more s')) (hroom : c₀ + s'.len < vgaWidth) :
    ∃ text', OnScreen base color r c₀ s' (drawUp h s t) text' := by
  unfold Readline.up at hkey
  unfold drawUp
  split_ifs at hkey ⊢ with hmore
  · exact ⟨_, ho.fromHistory (hhist _) hkey hroom⟩
  · exact ⟨text, ho.keep hkey hroom⟩

theorem down (hhist : ∀ i, Drawable (h.line i))
    (hkey : (s.down h).bind Readline.next = .ok (.more s')) (hroom : c₀ + s'.len < vgaWidth) :
    ∃ text', OnScreen base color r c₀ s' (drawDown h s t) text' := by
  unfold Readline.down at hkey
  unfold drawDown
  split_ifs at hkey ⊢ with hmore hlast
  · exact ⟨_, ho.fromHistory (hhist _) hkey hroom⟩
  · -- Behind the newest command there is the empty line.
    obtain ⟨s₁, hcut, hstring, hpos, hlen⟩ := cut_zero ⟨s.mem, 0, 0, h.historyCount⟩
    have ht₁ : Typed s₁ [] := by
      refine ⟨⟨Nat.zero_le _, rfl⟩, List.not_mem_nil, by decide, hlen, ?_⟩
      rw [hpos]
      exact Nat.zero_le _
    have hcut' : Readline.cut { s with pos := 0, len := 0, histIdx := h.historyCount } 0 = .ok s₁ :=
      hcut
    rw [hcut', ok_bind] at hkey
    refine ⟨[], onScreen_next ht₁ (fun _ _ _ => ?_) (fun c hc => absurd hc List.not_mem_nil) hkey
      hroom⟩
    rw [hpos]
    exact ho.shown.clearLine ho.reads.typed ho.room
  · exact ⟨text, ho.keep hkey hroom⟩

/-- A completion at the end of the line. -/
theorem tabComplete (hend : s.pos = s.len) (hfew : (tabMatches s).length ≤ 1)
    (hkey : (Microkernel.tabComplete s).bind Readline.next = .ok (.more s'))
    (hroom : c₀ + s'.len < vgaWidth) :
    ∃ text', OnScreen base color r c₀ s' (drawTab s s' t) text' := by
  have ht := ho.reads.typed
  have hlen := ht.len_eq
  unfold drawTab
  rcases ht.tabComplete_cases with ⟨name, hwords, htab⟩ | ⟨hwords, htab⟩
  · rw [hwords]
    rw [htab] at hkey
    have hname : name ∈ cmdNames := mem_cmdNames_of_tabMatches (hwords ▸ List.mem_cons_self)
    have hrest : 0 ∉ name.drop s.pos :=
      fun hzero => cmdNames_noNul name hname (List.mem_of_mem_drop hzero)
    have hdraw : Drawable ((name.drop s.pos)) :=
      fun x hx => cmdNames_drawable name hname x (List.mem_of_mem_drop hx)
    obtain ⟨s₁, k, hloop, hk, ht₁, hpos₁⟩ :=
      ht.completeLoop_end (name.drop s.pos) (hend.trans hlen) hrest
    obtain ⟨s₂, hcut, ht₂⟩ := ht₁.cut_len
    have hcount : (text ++ (name.drop s.pos).take k).length = text.length + k := by
      rw [List.length_append, List.length_take_of_le hk]
    rw [hloop, ok_bind, hcut, ok_bind] at hkey
    refine ⟨_, onScreen_next ht₂ (fun _ hroom' hlen' => ?_) ?_ hkey hroom⟩
    · have hpos₂ := Readline.cut_pos hcut
      have hs := ho.shown
      rw [hcount] at hroom' hlen'
      rw [hend, hlen] at hs
      have hdrawn := hs.print (w := (name.drop s.pos).take k) le_rfl
        (fun x hx => hdraw x (List.mem_of_mem_take hx))
        (by rw [List.length_take_of_le hk]; omega)
      rw [List.take_length, List.length_take_of_le hk,
        List.drop_eq_nil_of_le (Nat.le_add_right _ k), List.append_nil] at hdrawn
      rw [hpos₂, hpos₁, hlen', hlen, Nat.add_sub_cancel_left]
      exact hdrawn
    · intro x hx
      rcases List.mem_append.mp hx with hx | hx
      · exact ho.drawable x hx
      · exact hdraw x (List.mem_of_mem_take hx)
  · have hnone : tabMatches s = [] := by
      rcases hw : tabMatches s with _ | ⟨name, names⟩
      · rfl
      · rw [hw, List.length_cons] at hfew
        obtain rfl : names = [] := List.eq_nil_of_length_eq_zero (by omega)
        exact absurd hw (hwords name)
    rw [htab, ok_bind] at hkey
    rw [hnone]
    exact ⟨text, ho.keep hkey hroom⟩

end OnScreen

/-- **A key changes the line and the screen in the same way.** -/
theorem OnScreen.key (ho : OnScreen base color r c₀ s t text)
    (hhist : ∀ i, Drawable (h.line i)) (hkey : readlineKey h c s = .ok (.more s'))
    (hfits : KeyFits c₀ c s s') :
    ∃ text', OnScreen base color r c₀ s' (drawKey h c s s' t) text' := by
  have ht := ho.reads.typed
  have hs := ho.shown
  have hroom := ho.room
  have hpos := ht.pos_le
  have hlen := ht.len_eq
  have hrow : t.getCursor.1 = (r : ℤ) := congrArg Nat.cast hs.row_eq
  have hcol : t.getCursor.2 = (c₀ : ℤ) + s.pos :=
    (congrArg Nat.cast hs.col_eq).trans (Nat.cast_add _ _)
  unfold readlineKey at hkey
  unfold drawKey
  dsimp only
  by_cases henter : c = newline
  · rw [if_pos henter] at hkey
    obtain ⟨_, _, hbad⟩ := map_eq_ok.mp hkey
    cases hbad
  rw [if_neg henter] at hkey
  by_cases hback : c = backspace
  · rw [if_pos hback] at hkey ⊢
    exact ho.remove hkey hfits.room
  rw [if_neg hback] at hkey ⊢
  by_cases htab : c = tab
  · obtain ⟨hend, hfew⟩ := hfits.completes htab
    rw [if_pos htab] at hkey ⊢
    exact ho.tabComplete hend hfew hkey hfits.room
  rw [if_neg htab] at hkey ⊢
  by_cases hup : c = keyUp
  · rw [if_pos hup] at hkey ⊢
    exact ho.up hhist hkey hfits.room
  rw [if_neg hup] at hkey ⊢
  by_cases hdown : c = keyDown
  · rw [if_pos hdown] at hkey ⊢
    exact ho.down hhist hkey hfits.room
  rw [if_neg hdown] at hkey ⊢
  by_cases hleft : c = keyLeft ∧ 0 < s.pos
  · rw [if_pos hleft] at hkey ⊢
    exact ⟨text, ho.move (by omega) (hs.setCursor (by omega) hrow (by omega)) hkey hfits.room⟩
  rw [if_neg hleft] at hkey ⊢
  by_cases hright : c = keyRight ∧ s.pos < s.len
  · rw [if_pos hright] at hkey ⊢
    exact ⟨text, ho.move (by omega) (hs.setCursor (by omega) hrow (by omega)) hkey hfits.room⟩
  rw [if_neg hright] at hkey ⊢
  by_cases hhome : c = keyHome
  · rw [if_pos hhome] at hkey ⊢
    exact ⟨text, ho.move (Nat.zero_le _) (hs.setCursor (by omega) hrow (by omega)) hkey hfits.room⟩
  rw [if_neg hhome] at hkey ⊢
  by_cases hend : c = keyEnd
  · rw [if_pos hend] at hkey ⊢
    exact ⟨text, ho.move hlen.le (hs.setCursor (by omega) hrow (by omega)) hkey hfits.room⟩
  rw [if_neg hend] at hkey ⊢
  by_cases hctrl : c = ctrlC ∨ c = ctrlL
  · rw [if_pos hctrl] at hkey
    obtain ⟨_, _, hbad⟩ := map_eq_ok.mp hkey
    cases hbad
  rw [if_neg hctrl] at hkey
  by_cases hprint : isPrintable c ∧ s.len < cmdMax - 1
  · rw [if_pos hprint] at hkey ⊢
    have hc : 32 ≤ c := by
      have := hprint.1
      unfold isPrintable at this
      simp only [Bool.and_eq_true, decide_eq_true_eq] at this
      exact this.1
    exact ⟨_, ho.insert hc hprint.2 hkey hfits.room⟩
  · rw [if_neg hprint] at hkey ⊢
    exact ⟨text, ho.keep hkey hfits.room⟩

/-- A line is started behind a prompt, and the row is blank from there on. -/
theorem onScreen_start {mem : Memory} {s₀ : Readline} {t₀ : Terminal η} (hrow : t₀.termRow < vgaHeight)
    (hcol : t₀.termCol < vgaWidth)
    (hblank : ∀ x, t₀.termCol ≤ x → x < vgaWidth →
      t₀.vgaBuffer (t₀.termRow * vgaWidth + x) = t₀.blankEntry)
    (hstart : Readline.start h mem = .ok s₀) :
    OnScreen t₀.vgaBuffer t₀.termColor t₀.termRow t₀.termCol s₀ t₀ [] := by
  obtain ⟨s₁, hstart', hreads⟩ := reads_start h mem
  obtain rfl := Except.ok.inj (hstart'.symm.trans hstart)
  have hpos : s₁.pos = 0 := Nat.le_zero.mp hreads.typed.pos_le
  refine ⟨hreads, ⟨rfl, by rw [hpos, Nat.add_zero], rfl, hrow, by rw [hpos]; exact hcol, ?_⟩,
    fun c hc => absurd hc List.not_mem_nil, hcol⟩
  intro i
  rw [Nat.succ_mul]
  split_ifs with hin
  · have hi : t₀.termRow * vgaWidth + (i - t₀.termRow * vgaWidth) = i := by omega
    rw [← hi]
    exact hblank _ (by omega) (by omega)
  · rfl

/-- A blank screen with the cursor at its start. -/
def blankScreen : Terminal Unit := ⟨fun _ => vgaEntry blank 7, 0, 0, 7, 0, 0, none, ()⟩

/-- The command line at its start. -/
def lineStart : Readline := ⟨Memory.storeBytes (fun _ => 0) 0 [0], 0, 0, 0⟩

end Microkernel
