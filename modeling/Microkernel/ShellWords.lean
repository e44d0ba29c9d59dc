/-
# The words of a command

`tokenize` in `src/shell.c`.  It takes a command apart in the place where it stands: it puts a NUL
behind each word, and gives the addresses of the words.
-/
import Microkernel.CStrings
import Microkernel.Keyboard
import Microkernel.WordSplit

open Access Buffer

namespace Microkernel

/-- `MAX_ARGS`. -/
def maxArgs : ℕ := 16

/-- The character `"`. -/
def quote : UInt8 := 0x22

def isBlank (c : UInt8) : Bool := c == blank || c == tab

/-- A loop of `tokenize` that goes on as long as it sees what it looks for. -/
def skipWhile (seen : UInt8 → Bool) (b : Buffer) : ℕ → ℕ → Access ℕ
  | 0, _ => .error .read
  | n + 1, p => (b.byte p).bind fun c => if seen c then skipWhile seen b n (p + 1) else .ok p

/-- What the loop in a word looks for. -/
def goesOn (quoted : Bool) (c : UInt8) : Bool :=
  c != 0 && if quoted then c != quote else c != blank && c != tab

/-- `if (*p) *p++ = '\0';` -/
def endWord (p : ℕ) (b : Buffer) : Access (ℕ × Buffer) :=
  (b.byte p).bind fun c =>
    if c = 0 then .ok (p, b) else (b.storeBytes p [0]).map fun b => (p + 1, b)

/-- A word that begins at `p`, with `go` for the rest of the command. -/
def takeWord (quoted : Bool) (p : ℕ) (b : Buffer) (go : ℕ → Buffer → Access (List ℕ × Buffer)) :
    Access (List ℕ × Buffer) :=
  (skipWhile (goesOn quoted) b b.size p).bind fun e =>
    (endWord e b).bind fun r => (go r.1 r.2).map fun r => (p :: r.1, r.2)

/-- The loop of `tokenize` with room for so many words. -/
def tokenizeLoop : ℕ → ℕ → Buffer → Access (List ℕ × Buffer)
  | 0, p, b => (b.byte p).map fun _ => ([], b)
  | room + 1, p, b =>
    (b.byte p).bind fun c =>
      if c = 0 then .ok ([], b)
      else
        (skipWhile isBlank b b.size p).bind fun p =>
          (b.byte p).bind fun c =>
            if c = 0 then .ok ([], b)
            else if c = quote then takeWord true (p + 1) b (tokenizeLoop room)
            else takeWord false p b (tokenizeLoop room)

/-- `tokenize`: what goes into `argv`, and the buffer afterwards. -/
def tokenize (cmd : ℕ) (b : Buffer) : Access (List ℕ × Buffer) := tokenizeLoop maxArgs cmd b

/-- The marks of a command. -/
def shellMarks : WordMarks UInt8 where
  blank := isBlank
  quote := quote
  quote_not_blank := by decide

/-! ## The loops -/

variable {b b' : Buffer} {p : ℕ} {s w : List UInt8} {quoted : Bool} {room : ℕ}

/-- A loop stops where what it looks for ends, since it does not go on behind the string. -/
theorem skipWhile_eq (seen : UInt8 → Bool) (hseen : seen 0 = false) (h : b.HoldsString p s) {n : ℕ}
    (hn : s.length < n) :
    skipWhile seen b n p = .ok (p + (s.takeWhile seen).length) ∧
      b.HoldsString (p + (s.takeWhile seen).length) (s.dropWhile seen) ∧
      b.Holds p (s.takeWhile seen) := by
  induction s generalizing p n with
  | nil =>
    obtain ⟨n, rfl⟩ : ∃ m, n = m + 1 := ⟨n - 1, by omega⟩
    obtain ⟨hlt, hzero⟩ := holdsString_nil.mp h
    refine ⟨?_, h, ?_⟩
    · rw [skipWhile, byte_of_lt hlt, ok_bind, hzero, hseen]
      rfl
    · exact (b.holds_append.mp h.holds).1
  | cons c s ih =>
    obtain ⟨n, rfl⟩ : ∃ m, n = m + 1 := ⟨n - 1, by omega⟩
    obtain ⟨hc, hfirst, hrest⟩ := holdsString_cons.mp h
    obtain ⟨hlt, hbyte⟩ := holds_singleton.mp hfirst
    rw [List.length_cons] at hn
    rw [skipWhile, byte_of_lt hlt, ok_bind, hbyte]
    by_cases hgo : seen c = true
    · obtain ⟨hskip, hstring, hholds⟩ := ih hrest (by omega : s.length < n)
      have hsum : p + ((s.takeWhile seen).length + 1) = p + 1 + (s.takeWhile seen).length := by omega
      rw [if_pos hgo, List.takeWhile_cons_of_pos hgo, List.dropWhile_cons_of_pos hgo,
        List.length_cons, hsum]
      refine ⟨hskip, hstring, ?_⟩
      have hcons : c :: s.takeWhile seen = [c] ++ s.takeWhile seen := rfl
      rw [hcons, holds_append]
      exact ⟨hfirst, hholds⟩
    · rw [if_neg hgo, List.takeWhile_cons_of_neg hgo, List.dropWhile_cons_of_neg hgo]
      exact ⟨rfl, h, (b.holds_append (l := []) |>.mp h.holds).1⟩

/-- Changes in no place. -/
theorem eq_of_sameOutside (h : SameOutside b b' p p) : b' = b := by
  obtain ⟨hsize, hmem⟩ := h
  have hall : b'.mem = b.mem := by
    funext x
    exact hmem x (Nat.lt_or_ge x p)
  cases b
  cases b'
  exact congrArg₂ Buffer.mk hsize hall

/-- With the string that begins at `p` this makes words of it, and changes nothing but the string. -/
def Splits (go : ℕ → Buffer → Access (List ℕ × Buffer)) (words : List UInt8 → List (List UInt8)) :
    Prop :=
  ∀ {b : Buffer} {p : ℕ} {s : List UInt8}, b.HoldsString p s →
    ∃ argv b', go p b = .ok (argv, b') ∧ List.Forall₂ b'.HoldsString argv (words s) ∧
      SameOutside b b' p (p + s.length)

/-- **One word**: it ends at the NUL that is put behind it, and the words that follow are made of
what is behind the NUL. -/
theorem splits_takeWord {go : ℕ → Buffer → Access (List ℕ × Buffer)}
    {words : List UInt8 → List (List UInt8)} (hgo : Splits go words) (quoted : Bool) :
    Splits (takeWord quoted · · go) fun s =>
      s.takeWhile (goesOn quoted) :: words (s.dropWhile (goesOn quoted)).tail := by
  intro b p s h
  have hsize := h.le
  obtain ⟨hskip, hrest, hword⟩ :=
    skipWhile_eq (goesOn quoted) rfl h (by omega : s.length < b.size)
  have hnul : 0 ∉ s.takeWhile (goesOn quoted) := fun hmem =>
    h.noNul ((List.takeWhile_prefix _).subset hmem)
  have hlen : (s.takeWhile (goesOn quoted)).length + (s.dropWhile (goesOn quoted)).length =
      s.length := by
    rw [← List.length_append, List.takeWhile_append_dropWhile]
  unfold takeWord
  dsimp only
  rw [hskip, ok_bind, endWord]
  generalize s.takeWhile (goesOn quoted) = w at *
  cases hd : s.dropWhile (goesOn quoted) with
  | nil =>
    -- the string ends with the word, and nothing is stored
    rw [hd] at hrest hlen
    obtain ⟨hlt, hzero⟩ := holdsString_nil.mp hrest
    obtain ⟨argv, b', hargs, hwords, hsame⟩ := hgo hrest
    obtain rfl := eq_of_sameOutside hsame
    refine ⟨p :: argv, b', ?_, .cons ⟨?_, hnul⟩ hwords, hsame.widen (by omega) ?_⟩
    · rw [byte_of_lt hlt, ok_bind, hzero, if_pos rfl, ok_bind, hargs]
      rfl
    · exact (b'.holds_append).mpr ⟨hword, holds_singleton.mpr ⟨hlt, hzero⟩⟩
    · rw [← hlen, List.length_nil]
      omega
  | cons e s' =>
    rw [hd] at hrest hlen
    rw [List.length_cons] at hlen
    obtain ⟨he, hend, hbehind⟩ := holdsString_cons.mp hrest
    obtain ⟨hlt, hbyte⟩ := holds_singleton.mp hend
    obtain ⟨b₁, hstore, hzero, hsame₁⟩ := storeBytes_byte hlt 0
    have hword₁ : b₁.HoldsString p w :=
      ⟨(b₁.holds_append).mpr ⟨hword.sameOutside hsame₁ (Or.inl (le_refl _)), hzero⟩, hnul⟩
    obtain ⟨argv, b', hargs, hwords, hsame₂⟩ :=
      hgo (hbehind.sameOutside hsame₁ (Or.inr (le_refl _)))
    refine ⟨p :: argv, b', ?_, .cons ?_ hwords, ?_⟩
    · rw [byte_of_lt hlt, ok_bind, hbyte, if_neg he, hstore]
      show (Except.map _ (go _ b₁)) = _
      rw [hargs]
      rfl
    · exact hword₁.sameOutside hsame₂ (Or.inl (le_refl _))
    · refine (hsame₁.join hsame₂ (Nat.le_succ _) ?_).widen (Nat.le_add_right _ _) ?_
      · exact Nat.le_add_right _ _
      · omega

/-- In a string a word goes on as the marks say. -/
theorem word_eq (h : 0 ∉ s) (quoted : Bool) :
    s.takeWhile (goesOn quoted) = s.takeWhile (shellMarks.inWord quoted) ∧
      s.dropWhile (goesOn quoted) = s.dropWhile (shellMarks.inWord quoted) := by
  induction s with
  | nil => exact ⟨rfl, rfl⟩
  | cons c s ih =>
    rw [List.mem_cons, not_or] at h
    obtain ⟨htake, hdrop⟩ := ih h.2
    have hsame : goesOn quoted c = shellMarks.inWord quoted c := by
      have hc : (c != 0) = true := bne_iff_ne.mpr (Ne.symm h.1)
      unfold goesOn WordMarks.inWord
      rw [hc, Bool.true_and]
      cases quoted with
      | true => rfl
      | false => exact (Bool.not_or _ _).symm
    rw [List.takeWhile_cons, List.takeWhile_cons, List.dropWhile_cons, List.dropWhile_cons, hsame,
      htake, hdrop]
    exact ⟨rfl, rfl⟩

theorem splits_word {go : ℕ → Buffer → Access (List ℕ × Buffer)}
    {words : List UInt8 → List (List UInt8)} (hgo : Splits go words) (quoted : Bool) :
    Splits (takeWord quoted · · go) fun s =>
      s.takeWhile (shellMarks.inWord quoted) ::
        words (s.dropWhile (shellMarks.inWord quoted)).tail := by
  intro b p s h
  obtain ⟨htake, hdrop⟩ := word_eq h.noNul quoted
  dsimp only
  rw [← htake, ← hdrop]
  exact splits_takeWord hgo quoted h

/-- **The loop makes the words of the string**, as many as there is room for. -/
theorem splits_tokenizeLoop (room : ℕ) : Splits (tokenizeLoop room) (shellMarks.split room) := by
  induction room with
  | zero =>
    intro b p s h
    have hsize := h.le
    refine ⟨[], b, ?_, .nil, rfl, fun _ _ => rfl⟩
    rw [tokenizeLoop, byte_of_lt (by omega)]
    rfl
  | succ room ih =>
    intro b p s h
    have hsize := h.le
    cases s with
    | nil =>
      obtain ⟨hlt, hzero⟩ := holdsString_nil.mp h
      refine ⟨[], b, ?_, .nil, rfl, fun _ _ => rfl⟩
      rw [tokenizeLoop, byte_of_lt hlt, ok_bind, if_pos hzero]
    | cons c s =>
      obtain ⟨hc, hfirst, -⟩ := holdsString_cons.mp h
      obtain ⟨hlt, hbyte⟩ := holds_singleton.mp hfirst
      obtain ⟨hskip, hrest, -⟩ :=
        skipWhile_eq isBlank rfl h (by omega : (c :: s).length < b.size)
      have hlen : ((c :: s).takeWhile isBlank).length + ((c :: s).dropWhile isBlank).length =
          (c :: s).length := by
        rw [← List.length_append, List.takeWhile_append_dropWhile]
      rw [tokenizeLoop, byte_of_lt hlt, ok_bind, hbyte, if_neg hc, hskip, ok_bind]
      generalize hq : p + ((c :: s).takeWhile isBlank).length = q at *
      cases hd : (c :: s).dropWhile isBlank with
      | nil =>
        rw [hd] at hrest
        obtain ⟨hlt', hzero'⟩ := holdsString_nil.mp hrest
        rw [byte_of_lt hlt', ok_bind, if_pos hzero', WordMarks.split_succ_of_nil hd]
        exact ⟨[], b, rfl, .nil, rfl, fun _ _ => rfl⟩
      | cons d rest =>
        rw [hd] at hrest
        obtain ⟨hd₀, hfirst', hrest'⟩ := holdsString_cons.mp hrest
        obtain ⟨hlt', hbyte'⟩ := holds_singleton.mp hfirst'
        rw [hd, List.length_cons] at hlen
        rw [byte_of_lt hlt', ok_bind, hbyte', if_neg hd₀, WordMarks.split_succ_of_cons hd]
        unfold WordMarks.firstWord WordMarks.behindWord WordMarks.opened
        by_cases hquote : d = quote
        · have hmark : d = shellMarks.quote := hquote
          obtain ⟨argv, b', hargs, hwords, hsame⟩ := splits_word ih true hrest'
          rw [if_pos hquote, if_pos hmark, beq_iff_eq.mpr hmark]
          exact ⟨argv, b', hargs, hwords, hsame.widen (by omega) (by omega)⟩
        · have hmark : d ≠ shellMarks.quote := hquote
          obtain ⟨argv, b', hargs, hwords, hsame⟩ := splits_word ih false hrest
          rw [if_neg hquote, if_neg hmark, beq_eq_false_iff_ne.mpr hmark]
          rw [List.length_cons] at hsame
          exact ⟨argv, b', hargs, hwords, hsame.widen (by omega) (by omega)⟩

/-- **`tokenize` reads a command**: whatever string it is given, it makes no access outside, puts
into `argv` the addresses of the first words of the string, as many as there is room for, and
changes nothing behind or in front of the string. -/
theorem tokenize_words (h : b.HoldsString p s) :
    ∃ argv b' ws, tokenize p b = .ok (argv, b') ∧ shellMarks.IsLine ws s ∧
      List.Forall₂ b'.HoldsString argv (ws.take maxArgs) ∧
      SameOutside b b' p (p + s.length) := by
  obtain ⟨argv, b', hargs, hwords, hsame⟩ := splits_tokenizeLoop maxArgs h
  rw [WordMarks.split_eq_take] at hwords
  exact ⟨argv, b', _, hargs, WordMarks.isLine_iff.mpr rfl, hwords, hsame⟩

/-- A string that stands behind the command stays there. -/
theorem tokenize_keeps (h : b.HoldsString p s) {q : ℕ} {t : List UInt8} (ht : b.HoldsString q t)
    (hq : p + s.length < q) {argv : List ℕ} (hargs : tokenize p b = .ok (argv, b')) :
    b'.HoldsString q t := by
  obtain ⟨argv', b₁, hargs₁, -, hsame⟩ := splits_tokenizeLoop maxArgs h
  cases hargs.symm.trans hargs₁
  exact ht.sameOutside hsame (Or.inr (by omega))

/-- The command `e "a b" c` with its terminator. -/
def threeWords : Buffer :=
  ⟨10, fun x => [0x65, 0x20, 0x22, 0x61, 0x20, 0x62, 0x22, 0x20, 0x63, 0].getD x 0⟩

theorem holdsString_threeWords :
    threeWords.HoldsString 0 [0x65, 0x20, 0x22, 0x61, 0x20, 0x62, 0x22, 0x20, 0x63] :=
  ⟨⟨by decide, by decide⟩, by decide⟩

theorem tokenize_words_threeWords :
    ∃ argv b' ws, tokenize 0 threeWords = .ok (argv, b') ∧
      shellMarks.IsLine ws [0x65, 0x20, 0x22, 0x61, 0x20, 0x62, 0x22, 0x20, 0x63] ∧
      List.Forall₂ b'.HoldsString argv (ws.take maxArgs) ∧ SameOutside threeWords b' 0 (0 + 9) :=
  tokenize_words holdsString_threeWords

example : shellMarks.words [0x65, 0x20, 0x22, 0x61, 0x20, 0x62, 0x22, 0x20, 0x63] =
    [[0x65], [0x61, 0x20, 0x62], [0x63]] := by decide

end Microkernel
