/-
# Matching file names

`glob_match` in `src/shell.c`, which `find` uses for a name with a star in it.  A string is the list
of its bytes before the terminator; the matcher may move its pointer into the string behind the
terminator, where a read is an error.
-/
import Microkernel.Wildcards

namespace Microkernel

def asterisk : UInt8 := 0x2A

def questionMark : UInt8 := 0x3F

/-- The loop that tries each place of the string but its end. -/
def firstTrue (f : List UInt8 → Option Bool) : List UInt8 → Option Bool
  | [] => some false
  | c :: str =>
    match f (c :: str) with
    | some false => firstTrue f str
    | r => r

/-- `glob_match` with the pointer into the string behind its terminator: the string is read for all
but a question mark and a star at the end of the pattern. -/
def globMatchBehind : List UInt8 → Option Bool
  | [] => none
  | c :: pattern =>
    if c = asterisk then if pattern = [] then some true else none
    else if c = questionMark then globMatchBehind pattern
    else none

/-- `glob_match`; `none` if it reads behind the terminator of the string. -/
def globMatch : List UInt8 → List UInt8 → Option Bool
  | [], str => some str.isEmpty
  | c :: pattern, str =>
    if c = asterisk then if pattern = [] then some true else firstTrue (globMatch pattern) str
    else
      match str with
      | [] => if c = questionMark then globMatchBehind pattern else some false
      | d :: str => if c = questionMark ∨ c = d then globMatch pattern str else some false

/-- What a byte of a pattern stands for. -/
def globToken (c : UInt8) : Wildcard UInt8 :=
  if c = asterisk then .any else if c = questionMark then .one else .lit c

/-- The pattern that a text is. -/
def globPattern (pattern : List UInt8) : List (Wildcard UInt8) := pattern.map globToken

/-- `glob_match` reads neither of its arguments behind its terminator, and says if the pattern
matches. -/
def GlobAnswers (pattern str : List UInt8) : Prop :=
  ∃ b, globMatch pattern str = some b ∧ (b = true ↔ Wildcard.Matches (globPattern pattern) str)

/-! ## The search -/

open Wildcard

/-- A matcher that follows the search of a pattern: it answers if the pattern is found or the search
does not run out; otherwise it does not say no, and yes only if the pattern ends with one star. -/
structure FollowsSearch (f : List UInt8 → Option Bool) (p : List (Wildcard UInt8)) : Prop where
  found : ∀ s, Wildcard.Found p s → f s = some true
  missed : ∀ s, ¬ Wildcard.Found p s → ¬ RunsOut p s → f s = some false
  runsOut : ∀ s, ¬ Wildcard.Found p s → RunsOut p s →
    f s ≠ some false ∧ (f s = some true → ¬ TwoStars p)

variable {f : List UInt8 → Option Bool} {p : List (Wildcard UInt8)} {s : List UInt8}

/-- The loop finds what is found from some place on: before it comes there, no way runs out. -/
theorem FollowsSearch.firstTrue_found (h : FollowsSearch f p)
    (hfound : ∃ a u, s = a ++ u ∧ u ≠ [] ∧ Wildcard.Found p u) : firstTrue f s = some true := by
  induction s with
  | nil =>
    obtain ⟨a, u, heq, hu, -⟩ := hfound
    exact absurd (List.append_eq_nil_iff.mp heq.symm).2 hu
  | cons c s ih =>
    by_cases hhere : Wildcard.Found p (c :: s)
    · rw [firstTrue, h.found _ hhere]
    · obtain ⟨a, u, heq, hu, hf⟩ := hfound
      have hout : ¬ RunsOut p (c :: s) := by
        intro hout
        rw [heq] at hout hhere
        exact hhere (found_of_runsOut hf hout)
      rw [firstTrue, h.missed _ hhere hout]
      apply ih
      cases a with
      | nil =>
        rw [List.nil_append] at heq
        exact absurd (heq ▸ hf) hhere
      | cons b a => exact ⟨a, u, (List.cons.inj heq).2, hu, hf⟩

theorem FollowsSearch.firstTrue_missed (h : FollowsSearch f p)
    (hfound : ¬ ∃ a u, s = a ++ u ∧ u ≠ [] ∧ Wildcard.Found p u)
    (hout : ¬ ∃ a u, s = a ++ u ∧ u ≠ [] ∧ RunsOut p u) : firstTrue f s = some false := by
  induction s with
  | nil => rfl
  | cons c s ih =>
    have hhere : ¬ Wildcard.Found p (c :: s) :=
      fun hf => hfound ⟨[], c :: s, rfl, List.cons_ne_nil _ _, hf⟩
    have hhere' : ¬ RunsOut p (c :: s) := fun hr => hout ⟨[], c :: s, rfl, List.cons_ne_nil _ _, hr⟩
    rw [firstTrue, h.missed _ hhere hhere']
    refine ih ?_ ?_
    · rintro ⟨a, u, rfl, hu, hf⟩
      exact hfound ⟨c :: a, u, rfl, hu, hf⟩
    · rintro ⟨a, u, rfl, hu, hr⟩
      exact hout ⟨c :: a, u, rfl, hu, hr⟩

theorem FollowsSearch.firstTrue_runsOut (h : FollowsSearch f p)
    (hfound : ¬ ∃ a u, s = a ++ u ∧ u ≠ [] ∧ Wildcard.Found p u)
    (hout : ∃ a u, s = a ++ u ∧ u ≠ [] ∧ RunsOut p u) :
    firstTrue f s ≠ some false ∧ (firstTrue f s = some true → ¬ TwoStars p) := by
  induction s with
  | nil =>
    obtain ⟨a, u, heq, hu, -⟩ := hout
    exact absurd (List.append_eq_nil_iff.mp heq.symm).2 hu
  | cons c s ih =>
    have hhere : ¬ Wildcard.Found p (c :: s) :=
      fun hf => hfound ⟨[], c :: s, rfl, List.cons_ne_nil _ _, hf⟩
    by_cases hhere' : RunsOut p (c :: s)
    · have hne := h.runsOut _ hhere hhere'
      have hfirst : firstTrue f (c :: s) = f (c :: s) := by
        rw [firstTrue]
        split
        · rename_i hfalse
          exact absurd hfalse hne.1
        · rfl
      rw [hfirst]
      exact hne
    · rw [firstTrue, h.missed _ hhere hhere']
      refine ih ?_ ?_
      · rintro ⟨a, u, rfl, hu, hf⟩
        exact hfound ⟨c :: a, u, rfl, hu, hf⟩
      · obtain ⟨a, u, heq, hu, hr⟩ := hout
        cases a with
        | nil =>
          rw [List.nil_append] at heq
          exact absurd (heq ▸ hr) hhere'
        | cons b a => exact ⟨a, u, (List.cons.inj heq).2, hu, hr⟩

theorem twoStars_cons {w : Wildcard UInt8} : TwoStars (w :: p) ↔ w = .any ∧ p = [.any] ∨ TwoStars p := by
  unfold TwoStars
  rw [List.suffix_cons_iff, List.cons.injEq, eq_comm, @eq_comm _ _ p]

theorem not_twoStars_any : ¬ TwoStars [(.any : Wildcard UInt8)] := fun h => absurd h.length_le (by decide)

/-- Behind the terminator the matcher does not say no, and yes only before one star. -/
theorem globMatchBehind_ne (pattern : List UInt8) :
    globMatchBehind pattern ≠ some false ∧
      (globMatchBehind pattern = some true → ¬ TwoStars (globPattern pattern)) := by
  induction pattern with
  | nil => exact ⟨fun h => (nomatch h), fun h => nomatch h⟩
  | cons c pattern ih =>
    unfold globMatchBehind globPattern
    rw [List.map_cons]
    unfold globToken
    split_ifs with hstar hnil hone
    · refine ⟨fun h => (nomatch h), fun _ => ?_⟩
      rw [hnil]
      exact not_twoStars_any
    · exact ⟨fun h => (nomatch h), fun h => nomatch h⟩
    · refine ⟨ih.1, fun h htwo => ?_⟩
      rcases twoStars_cons.mp htwo with ⟨hone', -⟩ | htwo
      · cases hone'
      · exact ih.2 h htwo
    · exact ⟨fun h => (nomatch h), fun h => nomatch h⟩

/-- **`glob_match` follows the search** of its pattern. -/
theorem globMatch_follows (pattern : List UInt8) :
    FollowsSearch (globMatch pattern) (globPattern pattern) := by
  induction pattern with
  | nil =>
    refine ⟨?_, ?_, fun _ _ hout => hout.elim⟩
    · rintro s rfl
      rfl
    · intro s hs _
      rw [globMatch, List.isEmpty_eq_false_iff.mpr hs]
  | cons c pattern ih =>
    unfold globPattern at ih ⊢
    rw [List.map_cons]
    unfold globToken
    by_cases hstar : c = asterisk
    · rw [if_pos hstar]
      by_cases hnil : pattern = []
      · have htrue : ∀ s, globMatch (c :: pattern) s = some true := by
          intro s
          show (if c = asterisk then (if pattern = [] then _ else _) else _) = _
          rw [if_pos hstar, if_pos hnil]
        have hfound : ∀ s : List UInt8, Wildcard.Found (.any :: pattern.map globToken) s :=
          fun s => Or.inl (by rw [hnil]; rfl)
        exact ⟨fun s _ => htrue s, fun s hs => absurd (hfound s) hs, fun s hs => absurd (hfound s) hs⟩
      · have hloop : ∀ s, globMatch (c :: pattern) s = firstTrue (globMatch pattern) s := by
          intro s
          show (if c = asterisk then (if pattern = [] then _ else firstTrue (globMatch pattern) s) else _) = _
          rw [if_pos hstar, if_neg hnil]
        have hmap : pattern.map globToken ≠ [] := fun h => hnil (List.map_eq_nil_iff.mp h)
        refine ⟨?_, ?_, ?_⟩
        · intro s hs
          rw [hloop]
          exact ih.firstTrue_found (hs.resolve_left hmap)
        · intro s hs hout
          rw [hloop]
          exact ih.firstTrue_missed (fun h => hs (Or.inr h)) hout
        · intro s hs hout
          rw [hloop]
          obtain ⟨hne, htrue⟩ := ih.firstTrue_runsOut (fun h => hs (Or.inr h)) hout
          refine ⟨hne, fun h htwo => ?_⟩
          rcases twoStars_cons.mp htwo with ⟨-, hany⟩ | htwo
          · -- a star alone is always found
            obtain ⟨a, u, -, -, hu⟩ := hout
            rw [hany] at hu
            obtain ⟨_, _, -, -, hnone⟩ := hu
            exact hnone
          · exact htrue h htwo
    · rw [if_neg hstar]
      have hend : globMatch (c :: pattern) [] =
          if c = questionMark then globMatchBehind pattern else some false := by
        show (if c = asterisk then _ else (if c = questionMark then globMatchBehind pattern else some false)) = _
        rw [if_neg hstar]
      have hstep : ∀ d s, globMatch (c :: pattern) (d :: s) =
          if c = questionMark ∨ c = d then globMatch pattern s else some false := by
        intro d s
        show (if c = asterisk then _ else
          (if c = questionMark ∨ c = d then globMatch pattern s else some false)) = _
        rw [if_neg hstar]
      -- what comes behind one letter ends as the whole pattern does
      have hends : ∀ {w : Wildcard UInt8} {r : Option Bool}, w ≠ .any →
          (r ≠ some false ∧ (r = some true → ¬ TwoStars (pattern.map globToken))) →
          r ≠ some false ∧ (r = some true → ¬ TwoStars (w :: pattern.map globToken)) := by
        intro w r hw h
        refine ⟨h.1, fun hr htwo => ?_⟩
        rcases twoStars_cons.mp htwo with ⟨hany, -⟩ | htwo
        · exact hw hany
        · exact h.2 hr htwo
      by_cases hone : c = questionMark
      · rw [if_pos hone]
        refine ⟨?_, ?_, ?_⟩
        · rintro _ ⟨d, s, rfl, hs⟩
          rw [hstep, if_pos (Or.inl hone)]
          exact ih.found s hs
        · intro s hs hout
          cases s with
          | nil => exact absurd (Or.inl rfl) hout
          | cons d s =>
            rw [hstep, if_pos (Or.inl hone)]
            exact ih.missed s (fun h => hs ⟨d, s, rfl, h⟩) fun h => hout (Or.inr ⟨d, s, rfl, h⟩)
        · intro s hs hout
          rcases hout with rfl | ⟨d, s, rfl, hout⟩
          · rw [hend, if_pos hone]
            exact hends (fun h => nomatch h) (globMatchBehind_ne pattern)
          · rw [hstep, if_pos (Or.inl hone)]
            exact hends (fun h => nomatch h) (ih.runsOut s (fun h => hs ⟨d, s, rfl, h⟩) hout)
      · rw [if_neg hone]
        refine ⟨?_, ?_, ?_⟩
        · rintro _ ⟨s, rfl, hs⟩
          rw [hstep, if_pos (Or.inr rfl)]
          exact ih.found s hs
        · intro s hs hout
          cases s with
          | nil => rw [hend, if_neg hone]
          | cons d s =>
            by_cases hd : c = d
            · subst hd
              rw [hstep, if_pos (Or.inr rfl)]
              exact ih.missed s (fun h => hs ⟨s, rfl, h⟩) fun h => hout ⟨s, rfl, h⟩
            · rw [hstep, if_neg (not_or.mpr ⟨hone, hd⟩)]
        · rintro _ hs ⟨s, rfl, hout⟩
          rw [hstep, if_pos (Or.inr rfl)]
          exact hends (fun h => nomatch h) (ih.runsOut s (fun h => hs ⟨s, rfl, h⟩) hout)

/-! ## Right answers -/

/-- The pattern matches, and with a letter left for the stars if there are two or more at its end; or
it does not match, and no part of it before a question mark matches the whole string, but for parts
that end with a star. -/
def GlobSafe (pattern str : List UInt8) : Prop :=
  let p := globPattern pattern
  (Matches p str ∧ (TwoStars p → Matches (trimmed p ++ [.one, .any]) str)) ∨
    (¬ Matches p str ∧ ∀ q r, p = q ++ .one :: r → Closed q → ¬ Matches q str)

/-- **When `glob_match` answers right.** -/
theorem globMatch_answers_iff (pattern str : List UInt8) :
    GlobAnswers pattern str ↔ GlobSafe pattern str := by
  have hfollows := globMatch_follows pattern
  unfold GlobAnswers GlobSafe
  dsimp only
  generalize globPattern pattern = p at hfollows ⊢
  by_cases hfound : Wildcard.Found p str
  · have hmatch := Wildcard.found_iff.mp hfound
    refine iff_of_true ⟨true, hfollows.found _ hfound, ?_⟩ (Or.inl hmatch)
    exact iff_of_true rfl hmatch.1
  · have hclosed : (∀ q r, p = q ++ .one :: r → Closed q → ¬ Matches q str) ↔ ¬ RunsOut p str := by
      rw [runsOut_iff]
      push Not
      rfl
    rw [hclosed]
    constructor
    · rintro ⟨b, hb, hiff⟩
      by_cases hout : RunsOut p str
      · -- the answer can be no other than yes, and is wrong
        obtain ⟨hne, htwo⟩ := hfollows.runsOut _ hfound hout
        have htrue : b = true := by
          cases b with
          | false => exact absurd hb hne
          | true => rfl
        rw [htrue] at hb
        have hnot := htwo hb
        exact absurd (Wildcard.found_iff.mpr ⟨hiff.mp htrue, fun h => absurd h hnot⟩) hfound
      · rw [hfollows.missed _ hfound hout] at hb
        obtain rfl := Option.some.inj hb
        exact Or.inr ⟨fun h => Bool.false_ne_true (hiff.mpr h), hout⟩
    · rintro (hmatch | ⟨hmatch, hout⟩)
      · exact absurd (Wildcard.found_iff.mpr hmatch) hfound
      · exact ⟨false, hfollows.missed _ hfound hout,
          fun h => absurd h Bool.false_ne_true, fun h => absurd h hmatch⟩

/-- The stars at the end of `a**` match nothing in `a`, but the second one is never tried there. -/
theorem not_globAnswers_twoStars :
    ¬ ∀ pattern str : List UInt8, GlobAnswers pattern str := by
  intro hall
  obtain ⟨b, hb, hiff⟩ := hall [0x61, asterisk, asterisk] [0x61]
  have hno : globMatch [0x61, asterisk, asterisk] [0x61] = some false := by decide
  rw [hno] at hb
  obtain rfl := Option.some.inj hb
  have hmatch : Matches (globPattern [0x61, asterisk, asterisk]) [0x61] :=
    ⟨[], rfl, [], [], rfl, [], [], rfl, rfl⟩
  exact Bool.false_ne_true (hiff.mpr hmatch)

example : globMatch [0x61, questionMark] [0x61] = none := by decide

end Microkernel
