/-
# Words of a line

A line is words with blanks between them.  A word that begins with the quote goes up to the next
quote, and any other word up to the next blank.  Nothing here is about a shell.
-/
import Mathlib

/-- What separates words, and what stands around a word with blanks in it. -/
structure WordMarks (α : Type*) where
  blank : α → Bool
  quote : α
  quote_not_blank : blank quote = false

namespace WordMarks

variable {α : Type*} [DecidableEq α] (m : WordMarks α)

/-- What goes into a word: in quotes everything but the quote, else everything but blanks. -/
def inWord (quoted : Bool) (c : α) : Bool := if quoted then c != m.quote else !m.blank c

/-- A text that begins with `c`, without an opening quote. -/
def opened (c : α) (s : List α) : List α := if c = m.quote then s else c :: s

/-- The first word of a text that does not begin with a blank. -/
def firstWord (c : α) (s : List α) : List α :=
  (m.opened c s).takeWhile (m.inWord (c == m.quote))

/-- What is behind the first word and the character that ends it. -/
def behindWord (c : α) (s : List α) : List α :=
  ((m.opened c s).dropWhile (m.inWord (c == m.quote))).tail

/-- The first `n` words of a line. -/
def split : ℕ → List α → List (List α)
  | 0, _ => []
  | n + 1, s =>
    match s.dropWhile m.blank with
    | [] => []
    | c :: rest => m.firstWord c rest :: split n (m.behindWord c rest)

/-- All words of a line. -/
def words (s : List α) : List (List α) := m.split s.length s

/-- How a word is written: in quotes it begins behind one, and else it has a first character. -/
inductive IsWord : Bool → List α → List α → Prop
  | quoted {w : List α} (hw : m.quote ∉ w) : IsWord true [m.quote] w
  | bare {c : α} {w : List α} (hc : c ≠ m.quote) (hw : ∀ x ∈ c :: w, m.blank x = false) :
      IsWord false [] (c :: w)

/-- These are the words of this line.  The last word may lack the character that ends it. -/
inductive IsLine : List (List α) → List α → Prop
  | blanks {bs : List α} (hbs : ∀ c ∈ bs, m.blank c) : IsLine [] bs
  | last {bs pre w : List α} {quoted : Bool} (hbs : ∀ c ∈ bs, m.blank c)
      (hw : m.IsWord quoted pre w) : IsLine [w] (bs ++ (pre ++ w))
  | cons {bs pre w s : List α} {quoted : Bool} {e : α} {ws : List (List α)}
      (hbs : ∀ c ∈ bs, m.blank c) (hw : m.IsWord quoted pre w) (he : m.inWord quoted e = false)
      (hs : IsLine ws s) : IsLine (w :: ws) (bs ++ (pre ++ (w ++ e :: s)))

variable {m} {bs pre w s rest : List α} {quoted : Bool} {c e : α} {ws ws' : List (List α)} {n : ℕ}

theorem split_nil (n : ℕ) : m.split n [] = [] := by
  cases n with
  | zero => rfl
  | succ n => rfl

theorem split_succ_of_nil (h : s.dropWhile m.blank = []) : m.split (n + 1) s = [] := by
  rw [split, h]

theorem split_succ_of_cons (h : s.dropWhile m.blank = c :: rest) :
    m.split (n + 1) s = m.firstWord c rest :: m.split n (m.behindWord c rest) := by
  rw [split, h]

/-! ## Reading a word -/

theorem IsWord.all (hw : m.IsWord quoted pre w) : ∀ c ∈ w, m.inWord quoted c := by
  cases hw with
  | quoted hw =>
    intro c hc
    refine bne_iff_ne.mpr ?_
    rintro rfl
    exact hw hc
  | bare hc hw =>
    intro x hx
    have hblank := hw x hx
    simp [inWord, hblank]

/-- The first character of a written word says how it is written. -/
theorem IsWord.exists_cons (hw : m.IsWord quoted pre w) (rest : List α) :
    ∃ c s, pre ++ (w ++ rest) = c :: s ∧ m.blank c = false ∧ (c == m.quote) = quoted ∧
      m.opened c s = w ++ rest := by
  cases hw with
  | quoted hw => exact ⟨m.quote, w ++ rest, rfl, m.quote_not_blank, beq_self_eq_true _, if_pos rfl⟩
  | bare hc hw =>
    exact ⟨_, _, rfl, hw _ List.mem_cons_self, beq_eq_false_iff_ne.mpr hc, if_neg hc⟩

/-- **A word is read as it is written**, up to where it ends. -/
theorem split_word (hbs : ∀ c ∈ bs, m.blank c) (hw : m.IsWord quoted pre w)
    (hrest : ∀ e ∈ rest.head?, m.inWord quoted e = false) (n : ℕ) :
    m.split (n + 1) (bs ++ (pre ++ (w ++ rest))) = w :: m.split n rest.tail := by
  obtain ⟨c, s, hcons, hblank, hquoted, hopened⟩ := hw.exists_cons rest
  have hstop : rest.takeWhile (m.inWord quoted) = [] ∧ rest.dropWhile (m.inWord quoted) = rest := by
    cases rest with
    | nil => exact ⟨rfl, rfl⟩
    | cons e rest =>
      have he : ¬ m.inWord quoted e = true := Bool.eq_false_iff.mp (hrest e rfl)
      exact ⟨List.takeWhile_cons_of_neg he, List.dropWhile_cons_of_neg he⟩
  have hskip : (bs ++ (pre ++ (w ++ rest))).dropWhile m.blank = c :: s := by
    rw [List.dropWhile_append_of_pos hbs, hcons,
      List.dropWhile_cons_of_neg (Bool.eq_false_iff.mp hblank)]
  rw [split_succ_of_cons hskip, firstWord, behindWord, hquoted, hopened,
    List.takeWhile_append_of_pos hw.all, List.dropWhile_append_of_pos hw.all, hstop.1, hstop.2,
    List.append_nil]

/-- **The words of a line are read**, by induction on how the line is written. -/
theorem IsLine.split_eq (h : m.IsLine ws s) (n : ℕ) : m.split n s = ws.take n := by
  induction h generalizing n with
  | blanks hbs =>
    cases n with
    | zero => rfl
    | succ n => exact split_succ_of_nil (List.dropWhile_eq_nil_iff.mpr hbs)
  | last hbs hw =>
    cases n with
    | zero => rfl
    | succ n =>
      have hword := split_word hbs hw (by simp : ∀ e ∈ ([] : List α).head?, _) n
      rw [List.append_nil, List.tail_nil, split_nil] at hword
      rw [hword, List.take_succ_cons, List.take_nil]
  | cons hbs hw he hs ih =>
    cases n with
    | zero => rfl
    | succ n =>
      rw [split_word hbs hw (by simp [he]), List.tail_cons, ih, List.take_succ_cons]

/-! ## Every line has words -/

theorem IsLine.length_le (h : m.IsLine ws s) : ws.length ≤ s.length := by
  induction h with
  | blanks hbs => exact Nat.zero_le _
  | last hbs hw =>
    cases hw with
    | quoted hw => simp; omega
    | bare hc hw => simp; omega
  | cons hbs hw he hs ih => simp; omega

/-- How a word is written that begins with this character. -/
theorem isWord_takeWhile (hc : m.blank c = false) (s : List α) :
    ∃ pre, m.IsWord (c == m.quote) pre (m.firstWord c s) ∧
      c :: s = pre ++ (m.firstWord c s ++ (m.opened c s).dropWhile (m.inWord (c == m.quote))) := by
  unfold firstWord opened
  by_cases hquote : c = m.quote
  · have hq : (c == m.quote) = true := beq_iff_eq.mpr hquote
    refine ⟨[m.quote], ?_, ?_⟩
    · rw [if_pos hquote, hq]
      refine .quoted fun hmem => ?_
      have hin := List.mem_takeWhile_imp hmem
      exact bne_iff_ne.mp hin rfl
    · rw [if_pos hquote, List.takeWhile_append_dropWhile, hquote]
      rfl
  · have hq : (c == m.quote) = false := beq_eq_false_iff_ne.mpr hquote
    have hin : m.inWord false c = true := by simp [inWord, hc]
    refine ⟨[], ?_, ?_⟩
    · rw [if_neg hquote, hq, List.takeWhile_cons_of_pos hin]
      refine .bare hquote fun x hx => ?_
      rcases List.mem_cons.mp hx with rfl | hx
      · exact hc
      · have hin := List.mem_takeWhile_imp hx
        simpa [inWord] using hin
    · rw [if_neg hquote, List.takeWhile_append_dropWhile]
      rfl

/-- **Every line has words**, by induction on its length. -/
theorem exists_isLine (m : WordMarks α) (s : List α) : ∃ ws, m.IsLine ws s := by
  induction hlen : s.length using Nat.strong_induction_on generalizing s with
  | _ k ih =>
    have hbs : ∀ c ∈ s.takeWhile m.blank, m.blank c := fun c hc => List.mem_takeWhile_imp hc
    have hsplit := List.takeWhile_append_dropWhile (p := m.blank) (l := s)
    cases hskip : s.dropWhile m.blank with
    | nil =>
      rw [hskip, List.append_nil] at hsplit
      have hline := IsLine.blanks hbs
      rw [hsplit] at hline
      exact ⟨[], hline⟩
    | cons c rest =>
      have hc : m.blank c = false := by
        have hhead := List.head?_dropWhile_not m.blank s
        rw [hskip] at hhead
        simpa using hhead
      obtain ⟨pre, hw, hcons⟩ := isWord_takeWhile hc rest
      rw [hskip, hcons] at hsplit
      cases hbehind : (m.opened c rest).dropWhile (m.inWord (c == m.quote)) with
      | nil =>
        rw [hbehind, List.append_nil] at hsplit
        have hline := IsLine.last hbs hw
        rw [hsplit] at hline
        exact ⟨_, hline⟩
      | cons e behind =>
        have he : m.inWord (c == m.quote) e = false := by
          have hhead := List.head?_dropWhile_not (m.inWord (c == m.quote)) (m.opened c rest)
          rw [hbehind] at hhead
          simpa using hhead
        rw [hbehind] at hsplit
        have hshort : behind.length < k := by
          rw [← hlen, ← hsplit]
          simp
          omega
        obtain ⟨ws, hws⟩ := ih _ hshort behind rfl
        have hline := IsLine.cons hbs hw he hws
        rw [hsplit] at hline
        exact ⟨_, hline⟩

/-- **The words of a line** are those from which it is written. -/
theorem isLine_iff : m.IsLine ws s ↔ m.words s = ws := by
  have hread : ∀ {ws}, m.IsLine ws s → m.words s = ws := fun h =>
    (h.split_eq _).trans (List.take_of_length_le h.length_le)
  constructor
  · exact hread
  · rintro rfl
    obtain ⟨ws, hws⟩ := exists_isLine m s
    rwa [hread hws]

theorem split_eq_take (m : WordMarks α) (n : ℕ) (s : List α) : m.split n s = (m.words s).take n :=
  (isLine_iff.mpr rfl).split_eq n

end WordMarks
