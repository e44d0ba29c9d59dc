/-
# Pieces of arrays without contents

What an array on the stack shows after stores: the bytes set so far as pieces one after another, a
store over one of them, and a read of some of them.  Nothing here is about a data format.
-/
import Microkernel.Drafts

open Access

namespace Draft

variable {d : Draft} {size off : ℕ} {bs l l' f : List UInt8} {ps : List (List UInt8)}

/-- An array of this size that begins with these bytes. -/
structure Shows (d : Draft) (size : ℕ) (bs : List UInt8) : Prop where
  size_eq : d.size = size
  length_le : bs.length ≤ size
  byte_eq : ∀ i < bs.length, d.byte i = bs[i]?

theorem ofList_shows (bs : List UInt8) : (ofList bs).Shows bs.length bs :=
  ⟨rfl, le_rfl, fun _ _ => rfl⟩

/-- The first bytes are stored. -/
theorem blank_store (h : bs.length ≤ size) :
    ∃ d, (blank size).store 0 bs = .ok d ∧ d.Shows size bs := by
  refine ⟨_, if_pos (by rw [Nat.zero_add]; exact h), rfl, h, ?_⟩
  intro i hi
  dsimp only
  rw [if_pos ⟨Nat.zero_le i, by omega⟩, Nat.sub_zero]

/-- A store over a piece. -/
theorem Shows.store (h : d.Shows size (l ++ (f ++ l'))) (hoff : off = l.length)
    (hbs : bs.length = f.length) :
    ∃ d', d.store off bs = .ok d' ∧ d'.Shows size (l ++ (bs ++ l')) := by
  have hle := h.length_le
  simp only [List.length_append] at hle
  refine ⟨_, if_pos (by rw [h.size_eq]; omega), h.size_eq, ?_, ?_⟩
  · simp only [List.length_append]
    omega
  · intro i hi
    simp only [List.length_append] at hi
    have hold := h.byte_eq i (by simp only [List.length_append]; omega)
    dsimp only
    by_cases hin : off ≤ i ∧ i < off + bs.length
    · rw [if_pos hin, List.getElem?_append_right (by omega), List.getElem?_append_left (by omega),
        hoff]
    · rw [if_neg hin, hold]
      rcases Nat.lt_or_ge i l.length with hl | hl
      · rw [List.getElem?_append_left hl, List.getElem?_append_left hl]
      · rw [List.getElem?_append_right hl, List.getElem?_append_right hl,
          List.getElem?_append_right (by omega), List.getElem?_append_right (by omega), hbs]

/-- A read of a piece. -/
theorem Shows.read_piece {n : ℕ} (h : d.Shows size (l ++ (f ++ l'))) (hoff : off = l.length)
    (hn : n = f.length) : d.read off n = .ok f := by
  have hle := h.length_le
  simp only [List.length_append] at hle
  have hbyte : ∀ i < n, d.byte (off + i) = f[i]? := by
    intro i hi
    rw [h.byte_eq (off + i) (by simp only [List.length_append]; omega),
      List.getElem?_append_right (by omega), List.getElem?_append_left (by omega)]
    congr 1
    omega
  unfold Draft.read
  rw [if_pos]
  · congr 1
    apply List.ext_getElem?
    intro i
    rcases Nat.lt_or_ge i n with hi | hi
    · rw [List.getElem?_map, List.getElem?_range hi, Option.map_some, hbyte i hi,
        List.getElem?_eq_getElem (by omega), Option.getD_some]
    · rw [List.getElem?_eq_none (by rwa [List.length_map, List.length_range]),
        List.getElem?_eq_none (by omega)]
  · intro i hi
    rw [hbyte i hi, h.size_eq, List.getElem?_eq_getElem (by omega)]
    exact ⟨by omega, rfl⟩

/-- **A store over the `k`-th piece.** -/
theorem Shows.store_nth (h : d.Shows size ps.flatten) (k off : ℕ) (bs : List UInt8)
    (hk : ps[k]? = some f) (hoff : off = (ps.take k).flatten.length) (hbs : bs.length = f.length) :
    ∃ d', d.store off bs = .ok d' ∧ d'.Shows size (ps.set k bs).flatten := by
  obtain ⟨hlt, hget⟩ := List.getElem?_eq_some_iff.mp hk
  have hps : ps = ps.take k ++ f :: ps.drop (k + 1) := by
    rw [← hget, ← List.drop_eq_getElem_cons hlt, List.take_append_drop]
  have hpieces : d.Shows size ((ps.take k).flatten ++ (f ++ (ps.drop (k + 1)).flatten)) := by
    rw [hps, List.flatten_append, List.flatten_cons] at h
    exact h
  rw [List.set_eq_take_append_cons_drop, if_pos hlt, List.flatten_append, List.flatten_cons]
  exact hpieces.store hoff hbs

/-- **A read of `m` pieces** from the `k`-th on. -/
theorem Shows.read_nth (h : d.Shows size ps.flatten) (k m off n : ℕ)
    (hoff : off = (ps.take k).flatten.length) (hn : n = ((ps.drop k).take m).flatten.length) :
    d.read off n = .ok ((ps.drop k).take m).flatten := by
  have hpieces : d.Shows size ((ps.take k).flatten ++
      (((ps.drop k).take m).flatten ++ ((ps.drop k).drop m).flatten)) := by
    rw [← List.flatten_append, ← List.flatten_append, List.take_append_drop, List.take_append_drop]
    exact h
  exact hpieces.read_piece hoff hn

/-- A read of everything set. -/
theorem Shows.read_all (h : d.Shows size bs) : d.read 0 bs.length = .ok bs := by
  have hpiece : d.Shows size ([] ++ (bs ++ [])) := by
    rwa [List.nil_append, List.append_nil]
  exact hpiece.read_piece rfl rfl

end Draft
