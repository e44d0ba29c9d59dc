/-
# The lines of a text

A text is a list, and one of its letters ends a line.  What stands behind the last line end is a
line of its own, if it is not empty.  Nothing here is about a program.
-/
import Mathlib

namespace TextLines

variable {α : Type*} {e : α} {text line rest : List α}

/-- The text with these lines, each with its end. -/
def ofLines (e : α) (lines : List (List α)) : List α := lines.flatMap (· ++ [e])

@[simp] theorem ofLines_nil : ofLines e ([] : List (List α)) = [] := rfl

@[simp] theorem ofLines_cons (lines : List (List α)) :
    ofLines e (line :: lines) = line ++ e :: ofLines e lines := by
  rw [ofLines, List.flatMap_cons, List.append_assoc]
  rfl

theorem ofLines_append (lines lines' : List (List α)) :
    ofLines e (lines ++ lines') = ofLines e lines ++ ofLines e lines' :=
  List.flatMap_append

variable [DecidableEq α]

/-- The lines of a text, without their ends. -/
def linesOf (e : α) (text : List α) : List (List α) :=
  if (text.splitOn e).getLast? = some [] then (text.splitOn e).dropLast else text.splitOn e

@[simp] theorem linesOf_nil : linesOf e ([] : List α) = [] := rfl

/-- A text without a line end is one line. -/
theorem linesOf_notMem (h : e ∉ line) (hne : line ≠ []) : linesOf e line = [line] := by
  unfold linesOf
  rw [List.splitOn_eq_singleton h, List.getLast?_singleton, if_neg]
  exact fun hnil => hne (Option.some.inj hnil)

/-- The first line of a text, and the lines behind it. -/
theorem linesOf_append_cons (h : e ∉ line) (rest : List α) :
    linesOf e (line ++ e :: rest) = line :: linesOf e rest := by
  have hne : rest.splitOn e ≠ [] := List.splitOn_ne_nil _ _
  unfold linesOf
  rw [List.splitOn_append_cons_self_of_not_mem h, List.getLast?_cons_of_ne_nil hne,
    List.dropLast_cons_of_ne_nil hne]
  split_ifs
  · rfl
  · rfl

/-- A text is empty, or has no line end, or has a first line and what stands behind it. -/
theorem cases_line (e : α) (text : List α) :
    e ∉ text ∨ ∃ line rest, e ∉ line ∧ text = line ++ e :: rest := by
  by_cases hmem : e ∈ text
  · obtain ⟨line, rest, htext, hnot⟩ := List.eq_append_cons_of_mem hmem
    exact Or.inr ⟨line, rest, hnot, htext⟩
  · exact Or.inl hmem

/-- **Induction on the lines of a text.** -/
theorem lines_induction {P : List α → Prop} (nil : P [])
    (last : ∀ line, e ∉ line → line ≠ [] → P line)
    (cons : ∀ line rest, e ∉ line → P rest → P (line ++ e :: rest)) (text : List α) :
    P text := by
  induction hlen : text.length using Nat.strong_induction_on generalizing text with
  | _ n ih =>
    rcases cases_line e text with hnot | ⟨line, rest, hnot, rfl⟩
    · by_cases hne : text = []
      · exact hne ▸ nil
      · exact last text hnot hne
    · rw [List.length_append, List.length_cons] at hlen
      exact cons line rest hnot (ih rest.length (by omega) rest rfl)

theorem linesOf_ne_nil (h : text ≠ []) : linesOf e text ≠ [] := by
  rcases cases_line e text with hnot | ⟨line, rest, hnot, rfl⟩
  · rw [linesOf_notMem hnot h]
    exact List.cons_ne_nil _ _
  · rw [linesOf_append_cons hnot]
    exact List.cons_ne_nil _ _

/-- No line has a line end in it. -/
theorem notMem_of_mem_linesOf (text : List α) : ∀ line ∈ linesOf e text, e ∉ line := by
  induction text using lines_induction with
  | nil => exact fun line hmem => absurd hmem List.not_mem_nil
  | last line hnot hne =>
    rw [linesOf_notMem hnot hne]
    rintro _ (_ | ⟨_, ⟨⟩⟩)
    exact hnot
  | cons line rest hnot ih =>
    rw [linesOf_append_cons hnot]
    rintro _ (_ | ⟨_, hmem⟩)
    · exact hnot
    · exact ih _ hmem

/-- A line is a part of the text. -/
theorem subset_of_mem_linesOf (text : List α) : ∀ line ∈ linesOf e text, line ⊆ text := by
  induction text using lines_induction (e := e) with
  | nil => exact fun line hmem => absurd hmem List.not_mem_nil
  | last line hnot hne =>
    rw [linesOf_notMem hnot hne]
    rintro _ (_ | ⟨_, ⟨⟩⟩)
    exact List.Subset.refl _
  | cons line rest hnot ih =>
    rw [linesOf_append_cons hnot]
    rintro _ (_ | ⟨_, hmem⟩)
    · exact List.subset_append_left _ _
    · exact List.Subset.trans (ih _ hmem)
        (List.subset_append_of_subset_right _ (List.subset_cons_self _ _))

theorem length_le_of_mem_linesOf (text : List α) :
    ∀ line ∈ linesOf e text, line.length ≤ text.length := by
  induction text using lines_induction (e := e) with
  | nil => exact fun line hmem => absurd hmem List.not_mem_nil
  | last line hnot hne =>
    rw [linesOf_notMem hnot hne]
    rintro _ (_ | ⟨_, ⟨⟩⟩)
    exact le_refl _
  | cons line rest hnot ih =>
    rw [linesOf_append_cons hnot, List.length_append, List.length_cons]
    rintro _ (_ | ⟨_, hmem⟩)
    · omega
    · have := ih _ hmem
      omega

/-- The lines of a text that is made of lines. -/
theorem linesOf_ofLines {lines : List (List α)} (h : ∀ line ∈ lines, e ∉ line) :
    linesOf e (ofLines e lines) = lines := by
  induction lines with
  | nil => rfl
  | cons line lines ih =>
    obtain ⟨hline, hlines⟩ := List.forall_mem_cons.mp h
    rw [ofLines_cons, linesOf_append_cons hline, ih hlines]

/-- **The lines make the text again** exactly if it does not end within a line. -/
theorem ofLines_linesOf_iff (text : List α) :
    ofLines e (linesOf e text) = text ↔ text = [] ∨ text.getLast? = some e := by
  induction text using lines_induction with
  | nil => simp
  | last line hnot hne =>
    rw [linesOf_notMem hnot hne, ofLines_cons, ofLines_nil]
    constructor
    · intro h
      exact absurd (h ▸ List.mem_append_right _ List.mem_cons_self) hnot
    · rintro (hnil | hlast)
      · exact absurd hnil hne
      · exact absurd (List.mem_of_getLast? hlast) hnot
  | cons line rest hnot ih =>
    rw [linesOf_append_cons hnot, ofLines_cons, List.append_cancel_left_eq, List.cons.injEq,
      and_iff_right rfl, ih]
    rw [List.getLast?_append_of_ne_nil _ (List.cons_ne_nil _ _)]
    cases rest with
    | nil => simp
    | cons b rest => simp

end TextLines
