/-
# Stretches of a list

Where in a list a given number of elements in a row have a property, and the first such place.
Nothing here is about one kind of list.
-/
import Mathlib

namespace Stretch

variable {α : Type*} (p : α → Bool) (count : ℕ) (l : List α)

/-- From place `s` on there are `count` elements with the property. -/
def At (s : ℕ) : Prop := ∀ i < count, ∃ a, l[s + i]? = some a ∧ p a = true

/-- The first place with `count` such elements. -/
def First (s : ℕ) : Prop := At p count l s ∧ ∀ r < s, ¬ At p count l r

variable {p count l} {r s : ℕ}

/-- Elements that all have the property are a stretch, whatever follows them. -/
theorem first_of_all {run rest : List α} (hall : ∀ a ∈ run, p a = true) (hlen : count ≤ run.length) :
    First p count (run ++ rest) 0 := by
  refine ⟨fun i hi => ?_, fun r hr => absurd hr (Nat.not_lt_zero r)⟩
  have hlt : i < run.length := by omega
  refine ⟨run[i], ?_, hall _ (List.getElem_mem hlt)⟩
  rw [Nat.zero_add, List.getElem?_append_left hlt, List.getElem?_eq_getElem hlt]

/-- Too few elements and one without the property: the first stretch is behind it. -/
theorem First.skip {run rest : List α} {a : α} (hlen : run.length < count) (ha : p a = false)
    (h : First p count rest s) : First p count (run ++ a :: rest) (run.length + 1 + s) := by
  have hrest : ∀ k, (run ++ a :: rest)[run.length + 1 + k]? = rest[k]? := by
    intro k
    rw [List.getElem?_append_right (by omega), show run.length + 1 + k - run.length = k + 1 by omega,
      List.getElem?_cons_succ]
  refine ⟨fun i hi => ?_, fun r hr hat => ?_⟩
  · rw [Nat.add_assoc, hrest]
    exact h.1 i hi
  · by_cases hle : r ≤ run.length
    · -- The element without the property lies inside.
      obtain ⟨b, hb, hpb⟩ := hat (run.length - r) (by omega)
      rw [show r + (run.length - r) = run.length by omega, List.getElem?_append_right (le_refl _),
        Nat.sub_self, List.getElem?_cons_zero] at hb
      obtain rfl := Option.some.inj hb
      rw [ha] at hpb
      cases hpb
    · refine h.2 (r - (run.length + 1)) (by omega) fun i hi => ?_
      obtain ⟨b, hb, hpb⟩ := hat i hi
      refine ⟨b, ?_, hpb⟩
      rw [← hb, ← hrest]
      congr 1
      omega

end Stretch
