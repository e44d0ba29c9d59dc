/-
# The text of the editor

The lines that the array of the editor holds, and what each operation does to them while the cursor
is inside the text.
-/
import Microkernel.Editor

open Access Buffer

namespace Microkernel

/-- The array holds these lines, each with its terminator inside the line. -/
structure ShowsLines (b : Buffer) (t : ℕ → List UInt8) : Prop where
  size_eq : b.size = editorMaxLines * editorLineLen
  line : ∀ i < editorMaxLines, b.HoldsString (lineAddr i) (t i)
  short : ∀ i < editorMaxLines, (t i).length < editorLineLen

variable {b b' : Buffer} {t : ℕ → List UInt8} {i j k : ℕ} {s : List UInt8}

/-- Lines do not overlap. -/
theorem lineAddr_apart (h : i ≠ j) :
    lineAddr i + editorLineLen ≤ lineAddr j ∨ lineAddr j + editorLineLen ≤ lineAddr i := by
  unfold lineAddr editorLineLen
  omega

theorem lineAddr_lt (h : i < editorMaxLines) (hk : k < editorLineLen) :
    lineAddr i + k < editorMaxLines * editorLineLen := by
  unfold lineAddr editorMaxLines editorLineLen at *
  omega

/-- A buffer with the array has its lines in the memory. -/
theorem ShowsLines.linesBuffer (h : ShowsLines b t) : ShowsLines (Microkernel.linesBuffer b.mem) t := by
  have heq : Microkernel.linesBuffer b.mem = b := by
    obtain ⟨size, mem⟩ := b
    have hsize := h.size_eq
    unfold Microkernel.linesBuffer
    dsimp only at hsize ⊢
    rw [hsize]
  rwa [heq]

theorem ShowsLines.congr {t' : ℕ → List UInt8} (h : ShowsLines b t) (heq : ∀ i < editorMaxLines, t i = t' i) :
    ShowsLines b t' where
  size_eq := h.size_eq
  line i hi := heq i hi ▸ h.line i hi
  short i hi := heq i hi ▸ h.short i hi

/-- **A change of one line.** -/
theorem ShowsLines.update {lo hi : ℕ} (h : ShowsLines b t)
    (hsame : SameOutside b b' lo hi) (hlo : lineAddr j ≤ lo) (hhi : hi ≤ lineAddr j + editorLineLen)
    (hs : b'.HoldsString (lineAddr j) s) (hlen : s.length < editorLineLen) :
    ShowsLines b' (Function.update t j s) where
  size_eq := hsame.size_eq.trans h.size_eq
  line i hi' := by
    by_cases hij : i = j
    · rw [hij, Function.update_self]
      exact hs
    · have hshort := h.short i hi'
      have hapart := lineAddr_apart hij
      rw [Function.update_of_ne hij]
      exact (h.line i hi').sameOutside hsame (by omega)
  short i hi' := by
    by_cases hij : i = j
    · rw [hij, Function.update_self]
      exact hlen
    · rw [Function.update_of_ne hij]
      exact h.short i hi'

/-- A line becomes empty. -/
theorem ShowsLines.clear (h : ShowsLines b t) (hj : j < editorMaxLines) :
    ∃ b', b.storeBytes (lineAddr j) [0] = .ok b' ∧ ShowsLines b' (Function.update t j []) := by
  have hlt : lineAddr j < b.size := by
    rw [h.size_eq]
    exact lineAddr_lt hj (by decide : 0 < editorLineLen)
  obtain ⟨b', hstore, hholds, hsame⟩ := storeBytes_byte hlt 0
  refine ⟨b', hstore, h.update hsame (le_refl _) ?_ ?_ (by decide)⟩
  · unfold editorLineLen
    omega
  · exact holdsString_nil.mpr (holds_singleton.mp hholds)

/-! ## Copying lines -/

theorem ShowsLines.strcpy (h : ShowsLines b t) (hi : i < editorMaxLines) (hj : j < editorMaxLines)
    (hij : i ≠ j) :
    ∃ b', strcpy (lineAddr j) (lineAddr i) b = .ok b' ∧ ShowsLines b' (Function.update t j (t i)) := by
  have hshort := h.short i hi
  have hapart := lineAddr_apart hij
  have hroom := lineAddr_lt hj hshort
  have hsrc := lineAddr_lt hi hshort
  obtain ⟨b', hcopy, hstring, hsame⟩ := strcpy_eq (lineAddr j) (h.line i hi)
    (by rw [h.size_eq]; exact hroom) (by omega)
  exact ⟨b', hcopy, h.update hsame (le_refl _) (by omega) hstring hshort⟩

/-- **Lines move up**, the first one first. -/
theorem ShowsLines.shiftUp (h : ShowsLines b t) (hle : i + k < editorMaxLines) :
    ∃ b', shiftUp k i b = .ok b' ∧
      ShowsLines b' fun x => if i ≤ x ∧ x < i + k then t (x + 1) else t x := by
  induction k generalizing b t i with
  | zero =>
    refine ⟨b, rfl, h.congr fun x _ => ?_⟩
    rw [if_neg (by omega)]
  | succ k ih =>
    obtain ⟨b₁, hcopy, hshows⟩ := h.strcpy (i := i + 1) (j := i) (by omega) (by omega) (by omega)
    obtain ⟨b', hshift, hshows'⟩ := ih (i := i + 1) hshows (by omega)
    refine ⟨b', ?_, hshows'.congr fun x _ => ?_⟩
    · rw [Microkernel.shiftUp, hcopy, ok_bind, hshift]
    · by_cases hx : x = i
      · rw [hx, if_neg (by omega), if_pos (by omega), Function.update_self]
      · by_cases hin : i + 1 ≤ x ∧ x < i + 1 + k
        · rw [if_pos hin, if_pos (by omega), Function.update_of_ne (by omega)]
        · rw [if_neg hin, if_neg (by omega), Function.update_of_ne hx]

/-- **Lines move down**, the last one first. -/
theorem ShowsLines.shiftDown (h : ShowsLines b t) (hi : i < editorMaxLines) (hle : k ≤ i) :
    ∃ b', shiftDown k i b = .ok b' ∧
      ShowsLines b' fun x => if i - k < x ∧ x ≤ i then t (x - 1) else t x := by
  induction k generalizing b t i with
  | zero =>
    refine ⟨b, rfl, h.congr fun x _ => ?_⟩
    rw [if_neg (by omega)]
  | succ k ih =>
    obtain ⟨b₁, hcopy, hshows⟩ := h.strcpy (i := i - 1) (j := i) (by omega) hi (by omega)
    obtain ⟨b', hshift, hshows'⟩ := ih (i := i - 1) hshows (by omega) (by omega)
    refine ⟨b', ?_, hshows'.congr fun x _ => ?_⟩
    · rw [Microkernel.shiftDown, hcopy, ok_bind, hshift]
    · by_cases hx : x = i
      · rw [hx, if_neg (by omega), if_pos (by omega), Function.update_self]
      · by_cases hin : i - 1 - k < x ∧ x ≤ i - 1
        · rw [if_pos hin, if_pos (by omega), Function.update_of_ne (by omega)]
        · rw [if_neg hin, if_neg (by omega), Function.update_of_ne hx]

/-- The lines behind one move up over it. -/
def withoutLine (n row : ℕ) (t : ℕ → List UInt8) (x : ℕ) : List UInt8 :=
  if x < row then t x else if x + 1 < n then t (x + 1) else if x + 1 = n then [] else t x

theorem ShowsLines.removeLine {n row : ℕ} (h : ShowsLines b t) (hn : n ≤ editorMaxLines) (hrow : row < n) :
    ∃ b', removeLine n row b = .ok b' ∧ ShowsLines b' (withoutLine n row t) := by
  obtain ⟨b₁, hshift, hshows⟩ := h.shiftUp (i := row) (k := n - 1 - row) (by omega)
  obtain ⟨b', hclear, hshows'⟩ := hshows.clear (j := n - 1) (by omega)
  refine ⟨b', ?_, hshows'.congr fun x _ => ?_⟩
  · rw [Microkernel.removeLine, hshift, ok_bind, hclear]
  · unfold withoutLine
    by_cases hx : x = n - 1
    · rw [hx, Function.update_self, if_neg (by omega), if_neg (by omega), if_pos (by omega)]
    · rw [Function.update_of_ne hx]
      split_ifs <;> first | rfl | omega

/-! ## Changes inside a line -/

/-- A string from some place in it on. -/
theorem holdsString_drop {a k : ℕ} (h : b.HoldsString a s) (hk : k ≤ s.length) :
    b.HoldsString (a + k) (s.drop k) := by
  have hsplit : s ++ [0] = s.take k ++ (s.drop k ++ [0]) := by
    rw [← List.append_assoc, List.take_append_drop]
  have hholds := h.holds
  rw [hsplit, holds_append, List.length_take_of_le hk] at hholds
  exact ⟨hholds.2, fun hmem => h.noNul (List.mem_of_mem_drop hmem)⟩

/-- A terminator stored into a string ends it there. -/
theorem ShowsLines.cutLine (h : ShowsLines b t) (hi : i < editorMaxLines) (hk : k ≤ (t i).length) :
    ∃ b', b.storeBytes (lineAddr i + k) [0] = .ok b' ∧
      ShowsLines b' (Function.update t i ((t i).take k)) := by
  have hshort := h.short i hi
  have hlt : lineAddr i + k < b.size := by
    rw [h.size_eq]
    exact lineAddr_lt hi (by omega)
  obtain ⟨b', hstore, hholds, hsame⟩ := storeBytes_byte hlt 0
  refine ⟨b', hstore, h.update hsame (Nat.le_add_right _ _) (by omega) ⟨?_, ?_⟩ ?_⟩
  · have hline := (h.line i hi).holds
    have hsplit : t i ++ [0] = (t i).take k ++ ((t i).drop k ++ [0]) := by
      rw [← List.append_assoc, List.take_append_drop]
    rw [hsplit, holds_append] at hline
    have hfirst := hline.1.sameOutside hsame (Or.inl (by rw [List.length_take_of_le hk]))
    rw [holds_append, List.length_take_of_le hk]
    exact ⟨hfirst, hholds⟩
  · exact fun hmem => (h.line i hi).noNul (List.mem_of_mem_take hmem)
  · rw [List.length_take_of_le hk]
    omega

/-- **A character is inserted** into a line that has room for it. -/
theorem ShowsLines.insertChar {c : UInt8} (h : ShowsLines b t) (hi : i < editorMaxLines)
    (hk : k ≤ (t i).length) (hroom : (t i).length < editorLineLen - 2) (hc : c ≠ 0) :
    ∃ b₁ b₂, moveUpLoop (lineAddr i + k) 1 ((t i).length + 1 - k) b = .ok b₁ ∧
      b₁.storeBytes (lineAddr i + k) [c] = .ok b₂ ∧
      ShowsLines b₂ (Function.update t i ((t i).take k ++ c :: (t i).drop k)) := by
  have hsize := h.size_eq
  have hinside := lineAddr_lt hi (by omega : (t i).length + 1 < editorLineLen)
  obtain ⟨b₁, b₂, hmove, hstore, hstring, hsame⟩ := (h.line i hi).insertChar hk
    (by rw [hsize]; omega) (by rw [hsize]; decide) hc
  refine ⟨b₁, b₂, hmove, hstore, h.update hsame (Nat.le_add_right _ _) (by omega) hstring ?_⟩
  rw [List.length_append, List.length_cons, List.length_take, List.length_drop]
  omega

/-- **A character is taken out** of a line. -/
theorem ShowsLines.deleteChar (h : ShowsLines b t) (hi : i < editorMaxLines)
    (hk : k < (t i).length) :
    ∃ b', memcpyLoop (lineAddr i + k) (lineAddr i + k + 1) ((t i).length - k) 0 b = .ok b' ∧
      ShowsLines b' (Function.update t i ((t i).take k ++ (t i).drop (k + 1))) := by
  have hshort := h.short i hi
  obtain ⟨b', hmove, hstring, hsame⟩ := (h.line i hi).deleteChar hk
  refine ⟨b', hmove, h.update hsame (Nat.le_add_right _ _) (by omega) hstring ?_⟩
  rw [List.length_append, List.length_take, List.length_drop]
  omega

end Microkernel
