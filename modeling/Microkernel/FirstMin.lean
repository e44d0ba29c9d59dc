/-
# Searching a list for the first smallest key

The loop `for x in l: if p x and key x < best_key then best := x, best_key := key x`
over an arbitrary list, started with an upper bound in place of a key.  Nothing here
is about the kernel.
-/
import Mathlib

namespace FirstMin

variable {α β : Type*} [LT β] [DecidableLT β] (p : α → Bool) (key : α → β)

/-- One round of the loop, on the pair of the best element and its key. -/
def round (acc : Option α × β) (x : α) : Option α × β :=
  if p x ∧ key x < acc.2 then (some x, key x) else acc

variable {p key} {l : List α} {b : Option α} {m : β} {x : α}

/-- The loop ends with no element exactly when it started with none and no element
it may take has a key below the bound. -/
theorem foldl_round_eq_none :
    (l.foldl (round p key) (b, m)).1 = none ↔ b = none ∧ ∀ x ∈ l, p x → ¬ key x < m := by
  induction l generalizing b m with
  | nil => simp
  | cons y l ih =>
    rw [List.foldl_cons, round]
    by_cases h : p y ∧ key y < m
    · rw [if_pos h, ih]
      simp only [List.mem_cons, forall_eq_or_imp]
      constructor
      · rintro ⟨h0, -⟩
        exact absurd h0 (by simp)
      · rintro ⟨-, hy, -⟩
        exact absurd h.2 (hy h.1)
    · rw [if_neg h, ih]
      simp only [List.mem_cons, forall_eq_or_imp]
      constructor
      · rintro ⟨hb, hl⟩
        exact ⟨hb, fun hp hk => h ⟨hp, hk⟩, hl⟩
      · rintro ⟨hb, -, hl⟩
        exact ⟨hb, hl⟩

/-- An element the loop ends with is the one it started with or one it took. -/
theorem foldl_round_eq_some [IsTrans β (· < ·)]
    (h : (l.foldl (round p key) (b, m)).1 = some x) :
    b = some x ∨ x ∈ l ∧ p x ∧ key x < m := by
  induction l generalizing b m with
  | nil => exact Or.inl h
  | cons y l ih =>
    rw [List.foldl_cons, round] at h
    by_cases hy : p y ∧ key y < m
    · rw [if_pos hy] at h
      rcases ih h with hx | ⟨hx, hp, hk⟩
      · obtain rfl : y = x := Option.some.inj hx
        exact Or.inr ⟨List.mem_cons_self, hy⟩
      · exact Or.inr ⟨List.mem_cons_of_mem _ hx, hp, IsTrans.trans _ _ _ hk hy.2⟩
    · rw [if_neg hy] at h
      rcases ih h with hx | ⟨hx, hp, hk⟩
      · exact Or.inl hx
      · exact Or.inr ⟨List.mem_cons_of_mem _ hx, hp, hk⟩

section First

variable {β : Type*} [LE β] [LT β] [DecidableLT β] [Std.IsLinearOrder β] [Std.LawfulOrderLT β]
  {p : α → Bool} {key : α → β} {b : Option α} {m : β}

/-- `x` is the first of the smallest in the list: those before it are larger, those after it are
not smaller. -/
def First (p : α → Bool) (key : α → β) (l : List α) (x : α) : Prop :=
  ∃ l₁ l₂, l = l₁ ++ x :: l₂ ∧ p x = true ∧ (∀ y ∈ l₁, p y = true → key x < key y) ∧
    ∀ y ∈ l₂, p y = true → key x ≤ key y

/-- **The loop finds the first of the smallest**, if it ends with another element than it began
with. -/
theorem foldl_round_first (h : (l.foldl (round p key) (b, m)).1 = some x) :
    (b = some x ∧ ∀ y ∈ l, p y = true → m ≤ key y) ∨ (key x < m ∧ First p key l x) := by
  induction l generalizing b m with
  | nil => exact Or.inl ⟨h, nofun⟩
  | cons y l ih =>
    rw [List.foldl_cons, round] at h
    by_cases hy : p y ∧ key y < m
    · rw [if_pos hy] at h
      right
      rcases ih h with ⟨hyx, hl⟩ | ⟨hlt, l₁, l₂, rfl, hp, h₁, h₂⟩
      · obtain rfl := Option.some.inj hyx
        exact ⟨hy.2, [], l, rfl, hy.1, nofun, hl⟩
      · refine ⟨Std.lt_trans hlt hy.2, y :: l₁, l₂, rfl, hp, fun z hz hpz => ?_, h₂⟩
        rcases List.mem_cons.mp hz with rfl | hz
        · exact hlt
        · exact h₁ z hz hpz
    · rw [if_neg hy] at h
      have hle : p y = true → m ≤ key y := fun hp => Std.not_lt.mp fun hk => hy ⟨hp, hk⟩
      rcases ih h with ⟨hb, hl⟩ | ⟨hlt, l₁, l₂, rfl, hp, h₁, h₂⟩
      · refine Or.inl ⟨hb, fun z hz hpz => ?_⟩
        rcases List.mem_cons.mp hz with rfl | hz
        · exact hle hpz
        · exact hl z hz hpz
      · refine Or.inr ⟨hlt, y :: l₁, l₂, rfl, hp, fun z hz hpz => ?_, h₂⟩
        rcases List.mem_cons.mp hz with rfl | hz
        · exact Std.lt_of_lt_of_le hlt (hle hpz)
        · exact h₁ z hz hpz

end First

end FirstMin
