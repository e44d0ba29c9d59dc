/-
# Wildcards

Patterns with wildcards for any sequence and for one letter, what they match, and what a search
finds that reads the pattern from the left and tries for a wildcard every place of the rest of the
string but its end.  Nothing here is about one program.
-/
import Mathlib

/-- A part of a pattern: any sequence, one letter, or one given letter. -/
inductive Wildcard (α : Type)
  | any
  | one
  | lit (a : α)
  deriving DecidableEq

namespace Wildcard

variable {α : Type} {p q : List (Wildcard α)} {s t u : List α}

/-- The strings that a pattern matches. -/
def Matches : List (Wildcard α) → List α → Prop
  | [], s => s = []
  | any :: p, s => ∃ a u, s = a ++ u ∧ Matches p u
  | one :: p, s => ∃ c u, s = c :: u ∧ Matches p u
  | lit b :: p, s => ∃ u, s = b :: u ∧ Matches p u

/-- The pattern does not end with a wildcard for a sequence. -/
def Closed (p : List (Wildcard α)) : Prop := p.getLast? ≠ some any

/-- What the search finds: it leaves something of the string to a pattern behind a wildcard. -/
def Found : List (Wildcard α) → List α → Prop
  | [], s => s = []
  | any :: p, s => p = [] ∨ ∃ a u, s = a ++ u ∧ u ≠ [] ∧ Found p u
  | one :: p, s => ∃ c u, s = c :: u ∧ Found p u
  | lit b :: p, s => ∃ u, s = b :: u ∧ Found p u

/-- A way of the search that comes to the end of the string where the pattern wants one letter. -/
def RunsOut : List (Wildcard α) → List α → Prop
  | [], _ => False
  | any :: p, s => ∃ a u, s = a ++ u ∧ u ≠ [] ∧ RunsOut p u
  | one :: p, s => s = [] ∨ ∃ c u, s = c :: u ∧ RunsOut p u
  | lit b :: p, s => ∃ u, s = b :: u ∧ RunsOut p u

/-! ## Matching -/

theorem matches_append : Matches (p ++ q) s ↔ ∃ a u, s = a ++ u ∧ Matches p a ∧ Matches q u := by
  induction p generalizing s with
  | nil =>
    constructor
    · exact fun h => ⟨[], s, rfl, rfl, h⟩
    · rintro ⟨a, u, rfl, rfl, h⟩
      exact h
  | cons w p ih =>
    cases w with
    | any =>
      constructor
      · rintro ⟨a, u, rfl, h⟩
        obtain ⟨b, v, rfl, hp, hq⟩ := ih.mp h
        exact ⟨a ++ b, v, (List.append_assoc a b v).symm, ⟨a, b, rfl, hp⟩, hq⟩
      · rintro ⟨_, u, rfl, ⟨a, b, rfl, hp⟩, hq⟩
        exact ⟨a, b ++ u, List.append_assoc a b u, ih.mpr ⟨b, u, rfl, hp, hq⟩⟩
    | one =>
      constructor
      · rintro ⟨c, u, rfl, h⟩
        obtain ⟨b, v, rfl, hp, hq⟩ := ih.mp h
        exact ⟨c :: b, v, rfl, ⟨c, b, rfl, hp⟩, hq⟩
      · rintro ⟨_, u, rfl, ⟨c, b, rfl, hp⟩, hq⟩
        exact ⟨c, b ++ u, rfl, ih.mpr ⟨b, u, rfl, hp, hq⟩⟩
    | lit c =>
      constructor
      · rintro ⟨u, rfl, h⟩
        obtain ⟨b, v, rfl, hp, hq⟩ := ih.mp h
        exact ⟨c :: b, v, rfl, ⟨b, rfl, hp⟩, hq⟩
      · rintro ⟨_, u, rfl, ⟨b, rfl, hp⟩, hq⟩
        exact ⟨b ++ u, rfl, ih.mpr ⟨b, u, rfl, hp, hq⟩⟩

theorem matches_any (s : List α) : Matches [any] s := ⟨s, [], (List.append_nil s).symm, rfl⟩

/-- One or more letters. -/
theorem matches_one_any : Matches [one, any] s ↔ s ≠ [] := by
  constructor
  · rintro ⟨c, u, rfl, -⟩
    exact List.cons_ne_nil _ _
  · intro h
    obtain ⟨c, u, rfl⟩ := List.exists_cons_of_ne_nil h
    exact ⟨c, u, rfl, matches_any u⟩

theorem Closed.tail {w v : Wildcard α} (h : Closed (w :: v :: p)) : Closed (v :: p) := by
  unfold Closed at h ⊢
  rwa [List.getLast?_cons_cons] at h

theorem Closed.cons {w : Wildcard α} (hw : w ≠ any) (h : Closed p) : Closed (w :: p) := by
  unfold Closed at h ⊢
  cases p with
  | nil =>
    intro hlast
    exact hw (Option.some.inj hlast)
  | cons v p => rwa [List.getLast?_cons_cons]

theorem Closed.of_cons {w : Wildcard α} (h : Closed (w :: p)) : Closed p := by
  cases p with
  | nil => exact fun hlast => nomatch hlast
  | cons v p => exact h.tail

/-- What a closed pattern matches is not empty, if the pattern is not. -/
theorem ne_nil_of_matches (h : Closed p) (hne : p ≠ []) (hm : Matches p s) : s ≠ [] := by
  induction p generalizing s with
  | nil => exact absurd rfl hne
  | cons w p ih =>
    cases w with
    | any =>
      obtain ⟨a, u, rfl, hu⟩ := hm
      have hp : p ≠ [] := by
        rintro rfl
        exact h rfl
      intro hnil
      exact ih h.of_cons hp hu (List.append_eq_nil_iff.mp hnil).2
    | one =>
      obtain ⟨c, u, rfl, -⟩ := hm
      exact List.cons_ne_nil _ _
    | lit b =>
      obtain ⟨u, rfl, -⟩ := hm
      exact List.cons_ne_nil _ _

/-! ## Searching -/

/-- What is behind a closed part of the pattern is searched in what is left. -/
theorem found_append (h : Closed p) :
    Found (p ++ q) s ↔ ∃ a u, s = a ++ u ∧ Matches p a ∧ Found q u := by
  induction p generalizing s with
  | nil =>
    constructor
    · exact fun hq => ⟨[], s, rfl, rfl, hq⟩
    · rintro ⟨a, u, rfl, rfl, hq⟩
      exact hq
  | cons w p ih =>
    have ih := @ih
    cases w with
    | any =>
      have hp : p ≠ [] := by
        rintro rfl
        exact h rfl
      constructor
      · rintro (hnil | ⟨a, u, rfl, -, hf⟩)
        · exact absurd (List.append_eq_nil_iff.mp hnil).1 hp
        · obtain ⟨b, v, rfl, hm, hq⟩ := (ih h.of_cons).mp hf
          exact ⟨a ++ b, v, (List.append_assoc a b v).symm, ⟨a, b, rfl, hm⟩, hq⟩
      · rintro ⟨_, u, rfl, ⟨a, b, rfl, hm⟩, hq⟩
        have hb := ne_nil_of_matches h.of_cons hp hm
        refine Or.inr ⟨a, b ++ u, List.append_assoc a b u, ?_, (ih h.of_cons).mpr ⟨b, u, rfl, hm, hq⟩⟩
        exact List.append_ne_nil_of_left_ne_nil hb u
    | one =>
      constructor
      · rintro ⟨c, u, rfl, hf⟩
        obtain ⟨b, v, rfl, hm, hq⟩ := (ih h.of_cons).mp hf
        exact ⟨c :: b, v, rfl, ⟨c, b, rfl, hm⟩, hq⟩
      · rintro ⟨_, u, rfl, ⟨c, b, rfl, hm⟩, hq⟩
        exact ⟨c, b ++ u, rfl, (ih h.of_cons).mpr ⟨b, u, rfl, hm, hq⟩⟩
    | lit c =>
      constructor
      · rintro ⟨u, rfl, hf⟩
        obtain ⟨b, v, rfl, hm, hq⟩ := (ih h.of_cons).mp hf
        exact ⟨c :: b, v, rfl, ⟨b, rfl, hm⟩, hq⟩
      · rintro ⟨_, u, rfl, ⟨b, rfl, hm⟩, hq⟩
        exact ⟨b ++ u, rfl, (ih h.of_cons).mpr ⟨b, u, rfl, hm, hq⟩⟩

/-- Two wildcards for a sequence or more want one letter. -/
theorem found_stars (k : ℕ) : Found (any :: any :: List.replicate k any) s ↔ s ≠ [] := by
  induction k generalizing s with
  | zero =>
    constructor
    · rintro (hnil | ⟨a, u, rfl, hu, -⟩)
      · exact absurd hnil (List.cons_ne_nil _ _)
      · exact List.append_ne_nil_of_right_ne_nil a hu
    · exact fun h => Or.inr ⟨[], s, rfl, h, Or.inl rfl⟩
  | succ k ih =>
    constructor
    · rintro (hnil | ⟨a, u, rfl, hu, -⟩)
      · exact absurd hnil (List.cons_ne_nil _ _)
      · exact List.append_ne_nil_of_right_ne_nil a hu
    · exact fun h => Or.inr ⟨[], s, rfl, h, ih.mpr h⟩

/-- The pattern ends with two wildcards for a sequence at least. -/
def TwoStars (p : List (Wildcard α)) : Prop := [any, any] <:+ p

/-- The pattern without the wildcards for a sequence at its end. -/
def trimmed [DecidableEq α] (p : List (Wildcard α)) : List (Wildcard α) := p.rdropWhile (· == any)

theorem exists_stars [DecidableEq α] (p : List (Wildcard α)) :
    ∃ k, p = trimmed p ++ List.replicate k any ∧ Closed (trimmed p) := by
  unfold trimmed
  induction p using List.reverseRecOn with
  | nil => exact ⟨0, rfl, fun h => nomatch h⟩
  | append_singleton p w ih =>
    obtain ⟨k, hp, hclosed⟩ := ih
    rw [List.rdropWhile_concat]
    by_cases hw : w = any
    · rw [hw, if_pos (beq_self_eq_true _)]
      refine ⟨k + 1, ?_, hclosed⟩
      rw [List.replicate_succ', ← List.append_assoc, ← hp]
    · rw [if_neg (by simpa using hw)]
      refine ⟨0, (List.append_nil _).symm, ?_⟩
      unfold Closed
      rw [List.getLast?_concat]
      exact fun h => hw (Option.some.inj h)

/-- The number of wildcards at the end decides how the search ends. -/
theorem twoStars_iff {k : ℕ} (h : Closed p) : TwoStars (p ++ List.replicate k any) ↔ 2 ≤ k := by
  unfold TwoStars
  match k with
  | 0 =>
    refine ⟨fun hsuffix => absurd ?_ h, fun hle => by omega⟩
    obtain ⟨r, hr⟩ := hsuffix
    rw [List.replicate_zero, List.append_nil] at hr
    rw [← hr, List.getLast?_append_of_ne_nil _ (List.cons_ne_nil _ _)]
    rfl
  | 1 =>
    refine ⟨fun hsuffix => absurd ?_ h, fun hle => by omega⟩
    obtain ⟨r, hr⟩ := hsuffix
    have hr' : r ++ [any] = p := by
      have hsplit : (r ++ [any]) ++ [any] = p ++ [any] := by
        rw [List.append_assoc]
        exact hr
      exact List.append_cancel_right hsplit
    rw [← hr', List.getLast?_concat]
  | k + 2 =>
    refine ⟨fun _ => by omega, fun _ => ?_⟩
    rw [List.replicate_add, ← List.append_assoc]
    exact List.suffix_append _ _

/-- **What the search finds**: what the pattern matches, with a letter left for two wildcards or more
at the end. -/
theorem found_iff [DecidableEq α] :
    Found p s ↔ Matches p s ∧ (TwoStars p → Matches (trimmed p ++ [one, any]) s) := by
  obtain ⟨k, hp, hclosed⟩ := exists_stars p
  generalize trimmed p = r at hp hclosed ⊢
  subst hp
  rw [twoStars_iff hclosed, found_append hclosed, matches_append, matches_append]
  simp only [matches_one_any]
  match k with
  | 0 =>
    refine ⟨fun h => ⟨h, fun hle => by omega⟩, fun h => h.1⟩
  | 1 =>
    constructor
    · rintro ⟨a, u, heq, hm, -⟩
      exact ⟨⟨a, u, heq, hm, matches_any u⟩, fun hle => by omega⟩
    · rintro ⟨⟨a, u, heq, hm, -⟩, -⟩
      exact ⟨a, u, heq, hm, Or.inl rfl⟩
  | k + 2 =>
    simp only [List.replicate_succ, found_stars]
    constructor
    · intro h
      obtain ⟨a, u, heq, hm, hu⟩ := h
      have hstars : ∀ n, Matches (List.replicate (n + 1) (any : Wildcard α)) u := by
        intro n
        induction n with
        | zero => exact matches_any u
        | succ n ih => exact ⟨[], u, rfl, ih⟩
      exact ⟨⟨a, u, heq, hm, hstars (k + 1)⟩, fun _ => ⟨a, u, heq, hm, hu⟩⟩
    · exact fun h => h.2 (by omega)

/-- **Where the search runs out**: a part of the pattern before a wildcard for one letter matches the
whole string, and does not end with a wildcard for a sequence. -/
theorem runsOut_iff : RunsOut p s ↔ ∃ q r, p = q ++ one :: r ∧ Closed q ∧ Matches q s := by
  induction p generalizing s with
  | nil =>
    refine ⟨fun h => h.elim, ?_⟩
    rintro ⟨q, r, hp, -⟩
    exact absurd hp.symm (List.append_ne_nil_of_right_ne_nil _ (List.cons_ne_nil _ _))
  | cons w p ih =>
    cases w with
    | any =>
      constructor
      · rintro ⟨a, u, rfl, hu, h⟩
        obtain ⟨q, r, rfl, hclosed, hm⟩ := ih.mp h
        cases q with
        | nil => exact absurd hm hu
        | cons v q =>
          refine ⟨any :: v :: q, r, rfl, ?_, a, u, rfl, hm⟩
          unfold Closed at hclosed ⊢
          rwa [List.getLast?_cons_cons]
      · rintro ⟨q, r, hp, hclosed, hm⟩
        cases q with
        | nil => cases hp
        | cons v q =>
          obtain ⟨rfl, rfl⟩ := List.cons.inj hp
          obtain ⟨a, u, rfl, hu⟩ := hm
          have hq : q ≠ [] := by
            rintro rfl
            exact hclosed rfl
          exact ⟨a, u, rfl, ne_nil_of_matches hclosed.of_cons hq hu,
            ih.mpr ⟨q, r, rfl, hclosed.of_cons, hu⟩⟩
    | one =>
      constructor
      · rintro (rfl | ⟨c, u, rfl, h⟩)
        · exact ⟨[], p, rfl, fun h => (nomatch h), rfl⟩
        · obtain ⟨q, r, rfl, hclosed, hm⟩ := ih.mp h
          exact ⟨one :: q, r, rfl, hclosed.cons (fun h => nomatch h), c, u, rfl, hm⟩
      · rintro ⟨q, r, hp, hclosed, hm⟩
        cases q with
        | nil => exact Or.inl hm
        | cons v q =>
          obtain ⟨rfl, rfl⟩ := List.cons.inj hp
          obtain ⟨c, u, rfl, hu⟩ := hm
          exact Or.inr ⟨c, u, rfl, ih.mpr ⟨q, r, rfl, hclosed.of_cons, hu⟩⟩
    | lit b =>
      constructor
      · rintro ⟨u, rfl, h⟩
        obtain ⟨q, r, rfl, hclosed, hm⟩ := ih.mp h
        exact ⟨lit b :: q, r, rfl, hclosed.cons (fun h => nomatch h), u, rfl, hm⟩
      · rintro ⟨q, r, hp, hclosed, hm⟩
        cases q with
        | nil => cases hp
        | cons v q =>
          obtain ⟨rfl, rfl⟩ := List.cons.inj hp
          obtain ⟨u, rfl, hu⟩ := hm
          exact ⟨u, rfl, ih.mpr ⟨q, r, rfl, hclosed.of_cons, hu⟩⟩

/-- **Finding comes before running out**: if the pattern is found in what is behind some letters, and
the search from these letters on runs out, then it is found from there too.  The way that runs out
is as good as the other up to the first wildcard for a sequence, and this can take the letters. -/
theorem found_of_runsOut (h : Found p u) (hout : RunsOut p (t ++ u)) : Found p (t ++ u) := by
  induction p generalizing t u with
  | nil => exact hout.elim
  | cons w p ih =>
    cases w with
    | any =>
      rcases h with rfl | ⟨a, v, rfl, hv, hf⟩
      · exact Or.inl rfl
      · exact Or.inr ⟨t ++ a, v, (List.append_assoc t a v).symm, hv, hf⟩
    | one =>
      obtain ⟨c, v, rfl, hf⟩ := h
      rcases hout with hnil | ⟨d, r, heq, hr⟩
      · exact absurd (List.append_eq_nil_iff.mp hnil).2 (List.cons_ne_nil _ _)
      · cases t with
        | nil =>
          obtain ⟨rfl, rfl⟩ := List.cons.inj heq
          exact ⟨c, v, rfl, hf⟩
        | cons b t =>
          obtain ⟨rfl, rfl⟩ := List.cons.inj heq
          have hsplit : t ++ c :: v = (t ++ [c]) ++ v := List.append_cons t c v
          have hr : RunsOut p (t ++ c :: v) := hr
          rw [hsplit] at hr
          have hfound := ih hf hr
          rw [← hsplit] at hfound
          exact ⟨b, t ++ c :: v, rfl, hfound⟩
    | lit c =>
      obtain ⟨v, rfl, hf⟩ := h
      obtain ⟨r, heq, hr⟩ := hout
      cases t with
      | nil =>
        obtain ⟨-, rfl⟩ := List.cons.inj heq
        exact ⟨v, rfl, hf⟩
      | cons b t =>
        obtain ⟨rfl, rfl⟩ := List.cons.inj heq
        have hsplit : t ++ b :: v = (t ++ [b]) ++ v := List.append_cons t b v
        have hr : RunsOut p (t ++ b :: v) := hr
        rw [hsplit] at hr
        have hfound := ih hf hr
        rw [← hsplit] at hfound
        exact ⟨t ++ b :: v, rfl, hfound⟩

end Wildcard
