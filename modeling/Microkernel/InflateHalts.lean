/-
# When inflate comes to an end

After the last byte the reader goes on with zeros, and a full output takes no more bytes, so
neither the input nor the output bounds the loop over the symbols of a block.  The decoder runs
for ever exactly when a dynamic block meets nothing but zeros at the start of a symbol and its
tables make the zeros stand for a byte, or for a copy with a valid distance.
-/
import Microkernel.InflateTrees
import Microkernel.InflateCorrect

open BitStream PrefixCode Relation

namespace Microkernel

/-- Only zeros are left: the bytes are used up and so are the bits ahead. -/
def Bits.Drained (b : Bits) : Prop := b.src.length ≤ b.pos ∧ b.buf = 0

/-- The next symbol does not end the block: a byte, or a length with a valid distance. -/
def RunsOn (lt dt : HTree) (b : Bits) : Prop :=
  0 ≤ (htDecode lt b).1 ∧ (htDecode lt b).1 ≤ 285 ∧ (htDecode lt b).1 ≠ 256 ∧
    (256 < (htDecode lt b).1 →
      (readPair dt ((htDecode lt b).1.toNat - 257) (htDecode lt b).2).1 ≠ none)

/-- The decoder goes on from one symbol of a block to the next. -/
def SymbolStep (lt dt : HTree) (omax : ℤ) (s s' : Inflater) : Prop := decodeSymbol lt dt omax s = .inl s'

/-- The decoder goes on from one block to the next. -/
def BlockStep (omax : ℤ) (s s' : Inflater) : Prop := ∃ fuel, inflateBlock fuel omax s = some (.inl s')

/-- A dynamic block begins at `s` and its symbols at `s'`. -/
def DynamicAt (s : Inflater) (lt dt : HTree) (s' : Inflater) : Prop :=
  (bitsRead (bitsRead s.bits 1).2 2).1 = 2 ∧ ∃ b,
    readTrees (bitsRead (bitsRead s.bits 1).2 2).2 = (some (lt, dt), b) ∧ s' = { s with bits := b }

/-- Some dynamic block of the stream comes, at the start of a symbol, to a place where only zeros
are left and its next symbol, read from zeros, does not end it. -/
def Stalls (src : List UInt8) (out : ℤ → UInt8) (omax : ℤ) : Prop :=
  ∃ s lt dt s₁ s₂, ReflTransGen (BlockStep omax) ⟨bitsInit src, out, 0⟩ s ∧ DynamicAt s lt dt s₁ ∧
    ReflTransGen (SymbolStep lt dt omax) s₁ s₂ ∧ s₂.bits.Drained ∧ RunsOn lt dt s₂.bits

/-- `deflate_decompress` returns. -/
def Halts (src : List UInt8) (out : ℤ → UInt8) (omax : ℤ) : Prop :=
  ∃ fuel r, deflateDecompress fuel src out omax = some r

variable {src : List UInt8} {out : ℤ → UInt8} {omax : ℤ} {p : ℕ} {lt dt : HTree} {s s' : Inflater}

/-! ## Positions -/

/-- Decoding depends only on the bits from the position on, and moves by one at least. -/
theorem htDecodeFrom_shift {q : ℕ} (t : HTree) (depth k : ℕ)
    (h : ∀ i, bitOf src (p + i) = bitOf src (q + i)) :
    ∃ j, (0 < depth → 0 < j) ∧
      (htDecodeFrom t depth k (readerAt src p)).2 = readerAt src (p + j) ∧
      (htDecodeFrom t depth k (readerAt src q)).2 = readerAt src (q + j) ∧
      (htDecodeFrom t depth k (readerAt src p)).1 = (htDecodeFrom t depth k (readerAt src q)).1 := by
  induction depth generalizing k p q with
  | zero => exact ⟨0, fun h => absurd h (Nat.lt_irrefl 0), rfl, rfl, rfl⟩
  | succ depth ih =>
    have hbit : bitOf src q = bitOf src p := (h 0).symm
    have hnext : ∀ i, bitOf src (p + 1 + i) = bitOf src (q + 1 + i) := by
      intro i
      rw [Nat.add_assoc, Nat.add_assoc]
      exact h (1 + i)
    simp only [htDecodeFrom, bitsRead_readerAt, field_one, hbit]
    split_ifs
    · exact ⟨1, fun _ => Nat.one_pos, rfl, rfl, rfl⟩
    · exact ⟨1, fun _ => Nat.one_pos, rfl, rfl, rfl⟩
    · obtain ⟨j, -, hp, hq, hval⟩ := ih (t.ch k ((bitOf src p).toNat == 1)).toNat hnext
      refine ⟨1 + j, fun _ => by omega, ?_, ?_, hval⟩
      · rw [hp, Nat.add_assoc]
      · rw [hq, Nat.add_assoc]

theorem htDecode_shift {q : ℕ} (t : HTree) (h : ∀ i, bitOf src (p + i) = bitOf src (q + i)) :
    ∃ j, 0 < j ∧ (htDecode t (readerAt src p)).2 = readerAt src (p + j) ∧
      (htDecode t (readerAt src q)).2 = readerAt src (q + j) ∧
      (htDecode t (readerAt src p)).1 = (htDecode t (readerAt src q)).1 := by
  obtain ⟨j, hj, h⟩ := htDecodeFrom_shift t 16 0 h
  exact ⟨j, hj (by decide), h⟩

theorem htDecode_at (t : HTree) (src : List UInt8) (p : ℕ) :
    ∃ q, p < q ∧ (htDecode t (readerAt src p)).2 = readerAt src q := by
  obtain ⟨j, hj, h, -⟩ := @htDecode_shift src p p t fun _ => rfl
  exact ⟨p + j, by omega, h⟩

theorem readPair_shift {q : ℕ} (dt : HTree) (li : ℕ)
    (h : ∀ i, bitOf src (p + i) = bitOf src (q + i)) :
    ∃ j, (readPair dt li (readerAt src p)).2 = readerAt src (p + j) ∧
      (readPair dt li (readerAt src q)).2 = readerAt src (q + j) ∧
      (readPair dt li (readerAt src p)).1 = (readPair dt li (readerAt src q)).1 := by
  have hfield : ∀ a n, field (bitOf src) (p + a) n = field (bitOf src) (q + a) n := by
    intro a n
    apply Nat.eq_of_testBit_eq
    intro i
    rw [testBit_field, testBit_field, Nat.add_assoc, Nat.add_assoc, h]
  have hzero := hfield 0
  simp only [Nat.add_zero] at hzero
  have hnext : ∀ i, bitOf src (p + lenExtra.getD li 0 + i) = bitOf src (q + lenExtra.getD li 0 + i) := by
    intro i
    rw [Nat.add_assoc, Nat.add_assoc]
    exact h _
  obtain ⟨j, -, hp, hq, hval⟩ := htDecode_shift dt hnext
  simp only [readPair, bitsRead_readerAt, hp, hq, hval, hzero]
  split_ifs
  · exact ⟨lenExtra.getD li 0 + j, by rw [Nat.add_assoc], by rw [Nat.add_assoc], rfl⟩
  · refine ⟨lenExtra.getD li 0 + j +
      distExtra.getD (htDecode dt (readerAt src (q + lenExtra.getD li 0))).1.toNat 0, ?_, ?_, ?_⟩
    · simp only [Nat.add_assoc]
    · simp only [Nat.add_assoc]
    · simp only [Nat.add_assoc p, Nat.add_assoc q, hfield]

theorem readPair_at (dt : HTree) (li : ℕ) (src : List UInt8) (p : ℕ) :
    ∃ q, p ≤ q ∧ (readPair dt li (readerAt src p)).2 = readerAt src q := by
  obtain ⟨j, h, -⟩ := @readPair_shift src p p dt li fun _ => rfl
  exact ⟨p + j, by omega, h⟩

@[simp] theorem put_bits (omax : ℤ) (s : Inflater) (v : UInt8) : (s.put omax v).bits = s.bits := by
  rw [Inflater.put]
  split_ifs <;> rfl

@[simp] theorem copy_bits (omax : ℤ) (d n : ℕ) (s : Inflater) :
    (Inflater.copy omax d n s).bits = s.bits := by
  induction n generalizing s with
  | zero => rfl
  | succ n ih => rw [Inflater.copy, ih, put_bits]

/-- A round of the loop over the symbols goes on exactly when its symbol does not end the block,
and it moves the reader on as the symbol says. -/
theorem decodeSymbol_cases (lt dt : HTree) (omax : ℤ) (hp : s.bits = readerAt src p) :
    (∃ s', decodeSymbol lt dt omax s = .inl s' ∧ RunsOn lt dt s.bits ∧
      ∃ q, p < q ∧ s'.bits = readerAt src q) ∨
    ∃ r, decodeSymbol lt dt omax s = .inr r ∧ ¬ RunsOn lt dt s.bits ∧
      ∃ q, p < q ∧ r.2.bits = readerAt src q := by
  obtain ⟨q, hq, hread⟩ := htDecode_at lt src p
  rw [← hp] at hread
  have hgoes : ∀ b, p < q ∧ b = readerAt src q → ∃ q, p < q ∧ b = readerAt src q := fun _ h => ⟨q, h⟩
  simp only [decodeSymbol, RunsOn]
  split_ifs with hbad hlit hend
  · exact Or.inr ⟨_, rfl, by omega, hgoes _ ⟨hq, hread⟩⟩
  · refine Or.inl ⟨_, rfl, ⟨by omega, by omega, by omega, by omega⟩, hgoes _ ⟨hq, ?_⟩⟩
    rw [put_bits]
    exact hread
  · exact Or.inr ⟨_, rfl, fun h => h.2.2.1 hend, hgoes _ ⟨hq, hread⟩⟩
  · obtain ⟨q', hq', hpair⟩ := readPair_at dt ((htDecode lt s.bits).1.toNat - 257) src q
    rw [← hread] at hpair
    generalize hres : readPair dt ((htDecode lt s.bits).1.toNat - 257) (htDecode lt s.bits).2 = res at hpair
    obtain ⟨pair, b⟩ := res
    cases pair with
    | none => exact Or.inr ⟨_, rfl, fun h => h.2.2.2 (by omega) rfl, q', by omega, hpair⟩
    | some pair =>
      refine Or.inl ⟨_, rfl, ⟨by omega, by omega, hend, by simp⟩, q', by omega, ?_⟩
      rw [copy_bits]
      exact hpair

theorem SymbolStep.runsOn (h : SymbolStep lt dt omax s s') (hp : s.bits = readerAt src p) :
    RunsOn lt dt s.bits ∧ ∃ q, p < q ∧ s'.bits = readerAt src q := by
  rcases decodeSymbol_cases lt dt omax hp with ⟨s'', hs'', hruns⟩ | ⟨r, hr, -⟩
  · rw [SymbolStep, hs''] at h
    obtain rfl : s'' = s' := by simpa using h
    exact hruns
  · rw [SymbolStep, hr] at h
    simp at h

/-! ## Zeros -/

/-- A drained reader has only zeros before it. -/
theorem Bits.Drained.zero (h : (readerAt src p).Drained) {i : ℕ} (hi : p ≤ i) : bitOf src i = false := by
  obtain ⟨hpos, hbuf⟩ := h
  simp only [readerAt] at hpos hbuf
  rcases Nat.lt_or_ge i (8 * src.length) with hlt | hge
  · -- a bit of the last byte is one of those ahead
    have hbit := @testBit_field (bitOf src) p ((8 - p % 8) % 8) (i - p)
    rw [hbuf, Nat.zero_testBit, decide_eq_true (by omega), Bool.true_and] at hbit
    rw [hbit]
    congr 1
    omega
  · exact bitOf_of_length_le hge

/-- Past its last byte the reader is drained. -/
theorem drained_of_le (h : 8 * src.length ≤ p) : (readerAt src p).Drained := by
  constructor
  · simp only [readerAt]
    omega
  · simp only [readerAt]
    exact field_eq_zero fun i hi => bitOf_of_length_le (by omega)

theorem Bits.Drained.of_le {q : ℕ} (h : (readerAt src p).Drained) (hq : p ≤ q) :
    (readerAt src q).Drained := by
  have hpos := h.1
  simp only [readerAt] at hpos
  constructor
  · simp only [readerAt]
    omega
  · simp only [readerAt]
    exact field_eq_zero fun i hi => h.zero (by omega)

/-- On zeros every symbol is the same. -/
theorem Bits.Drained.runsOn {q : ℕ} (h : (readerAt src p).Drained) (hq : p ≤ q)
    (hruns : RunsOn lt dt (readerAt src p)) : RunsOn lt dt (readerAt src q) := by
  have hsame : ∀ i, bitOf src (p + i) = bitOf src (q + i) := by
    intro i
    rw [h.zero (by omega), h.zero (by omega)]
  obtain ⟨j, -, hp, hq', hval⟩ := htDecode_shift lt hsame
  have hnext : ∀ i, bitOf src (p + j + i) = bitOf src (q + j + i) := by
    intro i
    rw [Nat.add_assoc, Nat.add_assoc]
    exact hsame _
  obtain ⟨j', -, -, hpair⟩ := readPair_shift dt ((htDecode lt (readerAt src p)).1.toNat - 257) hnext
  rw [← hp, ← hq'] at hpair
  rw [RunsOn, ← hval, ← hpair]
  exact hruns

/-! ## Blocks that do not end -/

/-- On zeros that do not end the block the loop over the symbols never returns. -/
theorem decodeBlock_drained (hp : s.bits = readerAt src p) (hdrained : s.bits.Drained)
    (hruns : RunsOn lt dt s.bits) (fuel : ℕ) : decodeBlock lt dt omax fuel s = none := by
  induction fuel generalizing s p with
  | zero => rfl
  | succ fuel ih =>
    rw [hp] at hdrained
    rcases decodeSymbol_cases lt dt omax hp with ⟨s', hs', -, q, hq, hbits⟩ | ⟨r, -, hnot, -⟩
    · rw [hp] at hruns
      rw [decodeBlock, hs']
      refine ih hbits ?_ ?_
      · rw [hbits]
        exact hdrained.of_le (by omega)
      · rw [hbits]
        exact hdrained.runsOn (by omega) hruns
    · exact absurd hruns hnot

/-- Nor does it return from any symbol before. -/
theorem decodeBlock_of_steps (h : ReflTransGen (SymbolStep lt dt omax) s s')
    (hnone : ∀ fuel, decodeBlock lt dt omax fuel s' = none) (fuel : ℕ) :
    decodeBlock lt dt omax fuel s = none := by
  induction h using ReflTransGen.head_induction_on generalizing fuel with
  | refl => exact hnone fuel
  | head hstep _ ih =>
    cases fuel with
    | zero => rfl
    | succ fuel =>
      rw [decodeBlock, hstep]
      exact ih fuel

theorem steps_at (h : ReflTransGen (SymbolStep lt dt omax) s s') (hp : s.bits = readerAt src p) :
    ∃ q, s'.bits = readerAt src q := by
  induction h with
  | refl => exact ⟨p, hp⟩
  | tail _ hstep ih =>
    obtain ⟨q, hq⟩ := ih
    obtain ⟨-, q', -, hq'⟩ := hstep.runsOn hq
    exact ⟨q', hq'⟩

/-! ## Positions of blocks -/

theorem readClLens_at (idxs acc : List ℕ) (src : List UInt8) (p : ℕ) :
    ∃ q, p ≤ q ∧ (readClLens idxs acc (readerAt src p)).2 = readerAt src q := by
  induction idxs generalizing acc p with
  | nil => exact ⟨p, le_rfl, rfl⟩
  | cons i idxs ih =>
    simp only [readClLens, bitsRead_readerAt]
    obtain ⟨q, hq, h⟩ := ih (acc.set i (field (bitOf src) p 3)) (p + 3)
    exact ⟨q, by omega, h⟩

theorem readLens_at (cl : HTree) (total : ℕ) (lens : List ℕ) (src : List UInt8) (p : ℕ) :
    ∃ q, p ≤ q ∧ (readLens cl total lens (readerAt src p)).2 = readerAt src q := by
  obtain ⟨q, hq, h⟩ := htDecode_at cl src p
  simp only [readLens, h, bitsRead_readerAt]
  split_ifs
  · exact ⟨q, by omega, rfl⟩
  · exact ⟨q, by omega, rfl⟩
  · exact ⟨q + 2, by omega, rfl⟩
  · exact ⟨q + 3, by omega, rfl⟩
  · exact ⟨q + 7, by omega, rfl⟩
  · exact ⟨q, by omega, rfl⟩

theorem readAllLens_at (cl : HTree) (total k : ℕ) (lens : List ℕ) (src : List UInt8) (p : ℕ) :
    ∃ q, p ≤ q ∧ (readAllLens cl total k lens (readerAt src p)).2 = readerAt src q := by
  induction k generalizing lens p with
  | zero => exact ⟨p, le_rfl, rfl⟩
  | succ k ih =>
    rw [readAllLens]
    split_ifs
    · obtain ⟨q, hq, h⟩ := readLens_at cl total lens src p
      generalize readLens cl total lens (readerAt src p) = res at h
      obtain ⟨_ | lens', b⟩ := res
      · exact ⟨q, hq, h⟩
      · obtain rfl : b = readerAt src q := h
        obtain ⟨q', hq', h'⟩ := ih lens' q
        exact ⟨q', by omega, h'⟩
    · exact ⟨p, le_rfl, rfl⟩

theorem readTrees_at (src : List UInt8) (p : ℕ) :
    ∃ q, p ≤ q ∧ (readTrees (readerAt src p)).2 = readerAt src q := by
  unfold readTrees
  simp only [bitsRead_readerAt]
  -- the number of lengths is kept out of sight: the loop would be unfolded as many times
  generalize field (bitOf src) p 5 + 257 + (field (bitOf src) (p + 5) 5 + 1) = total
  generalize field (bitOf src) p 5 + 257 = hlit
  obtain ⟨q, hq, h⟩ := readClLens_at
    (clOrder.take (field (bitOf src) (p + 5 + 5) 4 + 4)) (List.replicate 19 0) src (p + 5 + 5 + 4)
  generalize readClLens (clOrder.take (field (bitOf src) (p + 5 + 5) 4 + 4)) (List.replicate 19 0)
    (readerAt src (p + 5 + 5 + 4)) = cl at h
  rw [h]
  obtain ⟨q', hq', h'⟩ := readAllLens_at (htBuild cl.1) total total [] src q
  generalize readAllLens (htBuild cl.1) total total [] (readerAt src q) = res at h'
  refine ⟨q', by omega, ?_⟩
  obtain ⟨_ | lens, b⟩ := res
  · exact h'
  · exact h'

/-- The bytes of a stored block are read up to the last one of the input at most. -/
theorem copyStored_at {k n : ℕ} (hk : k ≤ src.length) (hs : s.bits = ⟨src, k, 0, 0⟩) :
    ∃ k', k ≤ k' ∧ k' ≤ src.length ∧ (copyStored omax n s).bits = ⟨src, k', 0, 0⟩ := by
  induction n generalizing s k with
  | zero => exact ⟨k, le_rfl, hk, hs⟩
  | succ n ih =>
    rw [copyStored]
    split_ifs with hroom hlt
    · rw [hs] at hlt
      simp only at hlt
      obtain ⟨k', hle, hle', h⟩ := ih (s := Inflater.put omax
        { s with bits := { s.bits with pos := s.bits.pos + 1 } } (s.bits.src.getD s.bits.pos 0))
        (show k + 1 ≤ src.length by omega) (by rw [put_bits, hs])
      exact ⟨k', by omega, hle', h⟩
    · exact ih hk (by rw [put_bits, hs])
    · exact ⟨k, le_rfl, hk, hs⟩

theorem storedBlock_at (hsrc : src.length + 4 < 2 ^ 32) (hp : s.bits = readerAt src p)
    (h : storedBlock omax s = some s') : ∃ q, p ≤ q ∧ s'.bits = readerAt src q := by
  simp only [storedBlock, hp, readerAt] at h
  have hle : min src.length ((p + 7) / 8) ≤ src.length := by omega
  generalize hk : min src.length ((p + 7) / 8) = k at h hle
  have hnowrap : (k + 4) % 2 ^ 32 = k + 4 := Nat.mod_eq_of_lt (by omega)
  rw [hnowrap] at h
  split_ifs at h with hshort
  simp only [Option.some.injEq] at h
  obtain ⟨k', hle', hlast, hbits⟩ := @copyStored_at src omax
    { s with bits := ⟨src, k + 4, 0, 0⟩ } (k + 4)
    ((src.getD k 0).toNat + (src.getD ((k + 1) % 2 ^ 32) 0).toNat * 256) (by omega) rfl
  rw [← h]
  refine ⟨8 * k', by omega, ?_⟩
  rw [hbits, readerAt_byte, Nat.min_eq_right hlast]

theorem decodeBlock_at {fuel : ℕ} {r : ℤ × Inflater} (hp : s.bits = readerAt src p)
    (h : decodeBlock lt dt omax fuel s = some r) : ∃ q, p < q ∧ r.2.bits = readerAt src q := by
  induction fuel generalizing s p with
  | zero => simp [decodeBlock] at h
  | succ fuel ih =>
    rw [decodeBlock] at h
    rcases decodeSymbol_cases lt dt omax hp with ⟨s', hs', -, q, hq, hbits⟩ | ⟨r', hr', -, q, hq, hbits⟩
    · rw [hs'] at h
      obtain ⟨q', hq', h'⟩ := ih hbits h
      exact ⟨q', by omega, h'⟩
    · rw [hr'] at h
      obtain rfl : r' = r := by simpa using h
      exact ⟨q, hq, hbits⟩

theorem afterBlock_inl {bfinal : ℕ} {r : ℤ × Inflater} (h : afterBlock bfinal r = .inl s') : s' = r.2 := by
  rw [afterBlock] at h
  split_ifs at h
  simpa using h.symm

/-- A block moves the reader on. -/
theorem BlockStep.pos_lt (hsrc : src.length + 4 < 2 ^ 32) (hp : s.bits = readerAt src p)
    (h : BlockStep omax s s') : ∃ q, p < q ∧ s'.bits = readerAt src q := by
  obtain ⟨fuel, h⟩ := h
  simp only [inflateBlock, hp, bitsRead_readerAt] at h
  split_ifs at h with hstored hfixed hdynamic
  · generalize hres : storedBlock omax { s with bits := readerAt src (p + 1 + 2) } = res at h
    cases res with
    | none => simp at h
    | some s₁ =>
      simp only [Option.some.injEq] at h
      obtain ⟨q, hq, hbits⟩ := storedBlock_at hsrc rfl hres
      exact ⟨q, by omega, by rw [afterBlock_inl h]; exact hbits⟩
  · obtain ⟨r, hr, h⟩ := Option.map_eq_some_iff.mp h
    obtain ⟨q, hq, hbits⟩ := decodeBlock_at rfl hr
    exact ⟨q, by omega, by rw [afterBlock_inl h]; exact hbits⟩
  · obtain ⟨q, hq, htrees⟩ := readTrees_at src (p + 1 + 2)
    generalize readTrees (readerAt src (p + 1 + 2)) = res at h htrees
    obtain ⟨_ | ⟨lt, dt⟩, b⟩ := res
    · simp at h
    · obtain rfl : b = readerAt src q := htrees
      obtain ⟨r, hr, h⟩ := Option.map_eq_some_iff.mp h
      obtain ⟨q', hq', hbits⟩ := decodeBlock_at rfl hr
      exact ⟨q', by omega, by rw [afterBlock_inl h]; exact hbits⟩
  · simp at h

theorem blocks_at (hsrc : src.length + 4 < 2 ^ 32) (hp : s.bits = readerAt src p)
    (h : ReflTransGen (BlockStep omax) s s') : ∃ q, s'.bits = readerAt src q := by
  induction h with
  | refl => exact ⟨p, hp⟩
  | tail _ hstep ih =>
    obtain ⟨q, hq⟩ := ih
    obtain ⟨q', -, hq'⟩ := hstep.pos_lt hsrc hq
    exact ⟨q', hq'⟩

/-! ## More fuel -/

theorem decodeBlock_mono {fuel fuel' : ℕ} {r : ℤ × Inflater} (hle : fuel ≤ fuel')
    (h : decodeBlock lt dt omax fuel s = some r) : decodeBlock lt dt omax fuel' s = some r := by
  induction fuel generalizing s fuel' with
  | zero => simp [decodeBlock] at h
  | succ fuel ih =>
    obtain ⟨fuel', rfl⟩ : ∃ f, fuel' = f + 1 := ⟨fuel' - 1, by omega⟩
    rw [decodeBlock] at h ⊢
    generalize decodeSymbol lt dt omax s = res at h
    cases res with
    | inl s' => exact ih (by omega) h
    | inr r' => exact h

theorem inflateBlock_mono {fuel fuel' : ℕ} {r : Inflater ⊕ (ℤ × Inflater)} (hle : fuel ≤ fuel')
    (h : inflateBlock fuel omax s = some r) : inflateBlock fuel' omax s = some r := by
  simp only [inflateBlock] at h ⊢
  split_ifs at h ⊢ with hstored hfixed hdynamic
  · exact h
  · obtain ⟨r', hr', h⟩ := Option.map_eq_some_iff.mp h
    rw [decodeBlock_mono hle hr', Option.map_some, h]
  · generalize readTrees (bitsRead (bitsRead s.bits 1).2 2).2 = res at h
    obtain ⟨_ | ⟨lt, dt⟩, b⟩ := res
    · exact h
    · obtain ⟨r', hr', h⟩ := Option.map_eq_some_iff.mp h
      simp only
      rw [decodeBlock_mono hle hr', Option.map_some, h]
  · exact h

theorem inflateBlocks_mono {inner inner' fuel fuel' : ℕ} {r : ℤ × Inflater} (hinner : inner ≤ inner')
    (hle : fuel ≤ fuel') (h : inflateBlocks inner omax fuel s = some r) :
    inflateBlocks inner' omax fuel' s = some r := by
  induction fuel generalizing s fuel' with
  | zero => simp [inflateBlocks] at h
  | succ fuel ih =>
    obtain ⟨fuel', rfl⟩ : ∃ f, fuel' = f + 1 := ⟨fuel' - 1, by omega⟩
    rw [inflateBlocks] at h ⊢
    cases hres : inflateBlock inner omax s with
    | none => simp [hres] at h
    | some res =>
      rw [hres] at h
      rw [inflateBlock_mono hinner hres]
      cases res with
      | inl s' => exact ih (by omega) h
      | inr r' => exact h

/-! ## Stalled streams -/

/-- A stalled block is not passed. -/
theorem inflateBlock_of_dynamicAt {s₁ : Inflater} (h : DynamicAt s lt dt s₁)
    (hnone : ∀ fuel, decodeBlock lt dt omax fuel s₁ = none) (fuel : ℕ) :
    inflateBlock fuel omax s = none := by
  obtain ⟨htype, b, htrees, rfl⟩ := h
  simp only [inflateBlock]
  rw [if_neg (by omega), if_neg (by omega), if_pos htype, htrees]
  simp only
  rw [hnone, Option.map_none]

/-- Nor is it reached with a result from any block before. -/
theorem inflateBlocks_of_steps (h : ReflTransGen (BlockStep omax) s s')
    (hnone : ∀ fuel, inflateBlock fuel omax s' = none) (inner fuel : ℕ) :
    inflateBlocks inner omax fuel s = none := by
  induction h using ReflTransGen.head_induction_on generalizing fuel with
  | refl =>
    cases fuel with
    | zero => rfl
    | succ fuel => rw [inflateBlocks, hnone]
  | head hstep _ ih =>
    cases fuel with
    | zero => rfl
    | succ fuel =>
      obtain ⟨f, hf⟩ := hstep
      rw [inflateBlocks]
      cases hres : inflateBlock inner omax _ with
      | none => rfl
      | some res =>
        -- both amounts of fuel give the result of the larger one
        have h1 := inflateBlock_mono (Nat.le_max_left inner f) hres
        have h2 := inflateBlock_mono (Nat.le_max_right inner f) hf
        obtain rfl : res = _ := Option.some.inj (h1.symm.trans h2)
        exact ih fuel

theorem not_halts_of_stalls (hsrc : src.length + 4 < 2 ^ 32) (h : Stalls src out omax) :
    ¬ Halts src out omax := by
  obtain ⟨s, lt, dt, s₁, s₂, hblocks, hdynamic, hsymbols, hdrained, hruns⟩ := h
  obtain ⟨p, hp⟩ := blocks_at hsrc (s := ⟨bitsInit src, out, 0⟩) (bitsInit_eq src) hblocks
  have hs₁ : ∃ q, s₁.bits = readerAt src q := by
    obtain ⟨-, b, htrees, rfl⟩ := hdynamic
    rw [hp, bitsRead_readerAt, bitsRead_readerAt] at htrees
    obtain ⟨q, -, hq⟩ := readTrees_at src (p + 1 + 2)
    rw [htrees] at hq
    exact ⟨q, hq⟩
  obtain ⟨q, hq⟩ := hs₁
  obtain ⟨q', hq'⟩ := steps_at hsymbols hq
  have hnone := decodeBlock_of_steps hsymbols (decodeBlock_drained hq' hdrained hruns)
  have hblock := inflateBlock_of_dynamicAt hdynamic hnone
  rintro ⟨fuel, r, hr⟩
  rw [deflateDecompress, inflateBlocks_of_steps hblocks hblock] at hr
  simp at hr

/-! ## Streams that are not stalled -/

/-- The loop over the symbols returns when it never meets zeros that do not end the block: each
round uses at least one bit, and when the bytes are used up only zeros are left. -/
theorem decodeBlock_halts (hp : s.bits = readerAt src p)
    (h : ∀ s', ReflTransGen (SymbolStep lt dt omax) s s' → s'.bits.Drained → ¬ RunsOn lt dt s'.bits) :
    ∃ fuel r, decodeBlock lt dt omax fuel s = some r := by
  induction hm : 8 * src.length - p using Nat.strong_induction_on generalizing s p with
  | h m ih =>
    rcases decodeSymbol_cases lt dt omax hp with ⟨s', hs', hruns, q, hq, hbits⟩ | ⟨r, hr, -⟩
    · have hlt : p < 8 * src.length := by
        by_contra hge
        refine h s ReflTransGen.refl ?_ hruns
        rw [hp]
        exact drained_of_le (by omega)
      obtain ⟨fuel, r, hr⟩ := ih _ (by omega) hbits
        (fun s'' hsteps => h s'' (ReflTransGen.head hs' hsteps)) rfl
      refine ⟨fuel + 1, r, ?_⟩
      rw [decodeBlock, hs']
      exact hr
    · refine ⟨1, r, ?_⟩
      rw [decodeBlock, hr]

/-- In the fixed tables the zeros are the code of the end of a block. -/
theorem not_runsOn_fixed (h : (readerAt src p).Drained) : ¬ RunsOn fixedLit fixedDist (readerAt src p) := by
  have hword : codeword Deflate.fixedTables.lit 256 = List.replicate 7 false := codeword_fixed_end
  have hspells : Spells (bitOf src) p (codeword Deflate.fixedTables.lit 256) := by
    rw [hword, spells_iff]
    intro i hi
    rw [h.zero (by omega), List.get_eq_getElem, List.getElem_replicate]
  have hdecode := htDecode_fixedLit used_fixedTables_end hspells
  rintro ⟨-, -, hne, -⟩
  apply hne
  rw [hdecode]
  rfl

/-- A block is passed or ends the stream when it is not a stalled dynamic one. -/
theorem inflateBlock_halts (hp : s.bits = readerAt src p)
    (h : ∀ lt dt s₁ s₂, DynamicAt s lt dt s₁ → ReflTransGen (SymbolStep lt dt omax) s₁ s₂ →
      s₂.bits.Drained → ¬ RunsOn lt dt s₂.bits) :
    ∃ fuel r, inflateBlock fuel omax s = some r := by
  by_cases hstored : (bitsRead (bitsRead s.bits 1).2 2).1 = 0
  · refine ⟨0, ?_⟩
    simp only [inflateBlock, if_pos hstored]
    cases storedBlock omax { s with bits := (bitsRead (bitsRead s.bits 1).2 2).2 } with
    | none => exact ⟨_, rfl⟩
    | some s₁ => exact ⟨_, rfl⟩
  by_cases hfixed : (bitsRead (bitsRead s.bits 1).2 2).1 = 1
  · have hstart : (bitsRead (bitsRead s.bits 1).2 2).2 = readerAt src (p + 1 + 2) := by
      rw [hp, bitsRead_readerAt, bitsRead_readerAt]
    have hends : ∀ s₂, ReflTransGen (SymbolStep fixedLit fixedDist omax)
        { s with bits := (bitsRead (bitsRead s.bits 1).2 2).2 } s₂ → s₂.bits.Drained →
        ¬ RunsOn fixedLit fixedDist s₂.bits := by
      intro s₂ hsteps hdrained
      obtain ⟨q, hq⟩ := steps_at hsteps hstart
      rw [hq] at hdrained ⊢
      exact not_runsOn_fixed hdrained
    obtain ⟨fuel, r, hr⟩ := decodeBlock_halts hstart hends
    refine ⟨fuel, ?_⟩
    simp only [inflateBlock, if_neg hstored, if_pos hfixed, hr]
    exact ⟨_, rfl⟩
  by_cases hdynamic : (bitsRead (bitsRead s.bits 1).2 2).1 = 2
  · have hstart : (bitsRead (bitsRead s.bits 1).2 2).2 = readerAt src (p + 1 + 2) := by
      rw [hp, bitsRead_readerAt, bitsRead_readerAt]
    obtain ⟨q, -, hq⟩ := readTrees_at src (p + 1 + 2)
    rw [← hstart] at hq
    generalize htrees : readTrees (bitsRead (bitsRead s.bits 1).2 2).2 = res at hq
    obtain ⟨_ | ⟨lt, dt⟩, b⟩ := res
    · refine ⟨0, ?_⟩
      simp only [inflateBlock, if_neg hstored, if_neg hfixed, if_pos hdynamic, htrees]
      exact ⟨_, rfl⟩
    · have hends : ∀ s₂, ReflTransGen (SymbolStep lt dt omax) { s with bits := b } s₂ →
          s₂.bits.Drained → ¬ RunsOn lt dt s₂.bits := fun s₂ =>
        h lt dt _ s₂ ⟨hdynamic, b, htrees, rfl⟩
      obtain ⟨fuel, r, hr⟩ := decodeBlock_halts hq hends
      refine ⟨fuel, ?_⟩
      simp only [inflateBlock, if_neg hstored, if_neg hfixed, if_pos hdynamic, htrees, hr]
      exact ⟨_, rfl⟩
  · refine ⟨0, ?_⟩
    simp only [inflateBlock, if_neg hstored, if_neg hfixed, if_neg hdynamic]
    exact ⟨_, rfl⟩

/-- A block that begins when the bytes are used up is a stored block cut short. -/
theorem not_blockStep_of_le (hsrc : src.length + 4 < 2 ^ 32) (hp : s.bits = readerAt src p)
    (hle : 8 * src.length ≤ p) : ¬ BlockStep omax s s' := by
  rintro ⟨fuel, h⟩
  have htype : field (bitOf src) (p + 1) 2 = 0 := field_eq_zero fun i hi => bitOf_of_length_le (by omega)
  have hpos : min src.length ((p + 1 + 2 + 7) / 8) = src.length := by omega
  have hnowrap : (src.length + 4) % 2 ^ 32 = src.length + 4 := Nat.mod_eq_of_lt (by omega)
  have hshort : storedBlock omax { s with bits := readerAt src (p + 1 + 2) } = none := by
    simp only [storedBlock, readerAt, hpos, hnowrap]
    rw [if_pos (by omega)]
  simp only [inflateBlock, hp, bitsRead_readerAt, htype, if_true, hshort] at h
  simp at h

/-- The loop over the blocks returns when no block it comes to is stalled. -/
theorem inflateBlocks_halts (hsrc : src.length + 4 < 2 ^ 32) (hp : s.bits = readerAt src p)
    (h : ∀ s' lt dt s₁ s₂, ReflTransGen (BlockStep omax) s s' → DynamicAt s' lt dt s₁ →
      ReflTransGen (SymbolStep lt dt omax) s₁ s₂ → s₂.bits.Drained → ¬ RunsOn lt dt s₂.bits) :
    ∃ fuel r, inflateBlocks fuel omax fuel s = some r := by
  induction hm : 8 * src.length - p using Nat.strong_induction_on generalizing s p with
  | h m ih =>
    obtain ⟨f, r, hr⟩ := inflateBlock_halts hp fun lt dt s₁ s₂ =>
      h s lt dt s₁ s₂ ReflTransGen.refl
    cases r with
    | inl s' =>
      have hstep : BlockStep omax s s' := ⟨f, hr⟩
      obtain ⟨q, hq, hbits⟩ := hstep.pos_lt hsrc hp
      have hlt : p < 8 * src.length := by
        by_contra hge
        exact not_blockStep_of_le hsrc hp (by omega) hstep
      obtain ⟨fuel, r, hrest⟩ := ih _ (by omega) hbits
        (fun s'' lt dt s₁ s₂ hsteps => h s'' lt dt s₁ s₂ (ReflTransGen.head hstep hsteps)) rfl
      refine ⟨max f fuel + 1, r, ?_⟩
      rw [inflateBlocks, inflateBlock_mono (by omega) hr]
      exact inflateBlocks_mono (by omega) (by omega) hrest
    | inr r =>
      refine ⟨f + 1, r, ?_⟩
      rw [inflateBlocks, inflateBlock_mono (by omega) hr]

/-- **When inflate returns**: exactly on the streams that do not stall. -/
theorem halts_iff_not_stalls (src : List UInt8) (out : ℤ → UInt8) (omax : ℤ)
    (hsrc : src.length + 4 < 2 ^ 32) : Halts src out omax ↔ ¬ Stalls src out omax := by
  constructor
  · intro hhalts hstalls
    exact not_halts_of_stalls hsrc hstalls hhalts
  · intro hnot
    have hpasses : ∀ s' lt dt s₁ s₂, ReflTransGen (BlockStep omax) ⟨bitsInit src, out, 0⟩ s' →
        DynamicAt s' lt dt s₁ → ReflTransGen (SymbolStep lt dt omax) s₁ s₂ →
        s₂.bits.Drained → ¬ RunsOn lt dt s₂.bits := by
      intro s' lt dt s₁ s₂ hblocks hdynamic hsymbols hdrained hruns
      exact hnot ⟨s', lt, dt, s₁, s₂, hblocks, hdynamic, hsymbols, hdrained, hruns⟩
    obtain ⟨fuel, r, hr⟩ := inflateBlocks_halts hsrc (bitsInit_eq src) hpasses
    refine ⟨fuel, (r.1, r.2.out), ?_⟩
    rw [deflateDecompress, hr]
    rfl

/-- The condition at the empty input. -/
theorem halts_nil : Halts [] (fun _ => 0) 16 ↔ ¬ Stalls [] (fun _ => 0) 16 :=
  halts_iff_not_stalls [] (fun _ => 0) 16 (by decide)

/-- The first bits of a dynamic block with the two codes, cut off after its tables. -/
def cutBytes : List UInt8 := [5, 192, 129, 8, 0, 0, 0, 0, 32, 214, 253, 37, 14]

/-- The zeros after the tables are the code of the byte 97, again and again. -/
theorem not_halts_cutBytes : ¬ Halts cutBytes (fun _ => 0) 16 := by
  have hbits : Spells (bitOf cutBytes) 0 (true :: lowFirst 2 2 ++ twoCodes.bits) :=
    spells_of_begins (by decide)
  obtain ⟨hhead, htables⟩ := spells_append.mp hbits
  have htype : field (bitOf cutBytes) 1 2 = 2 := field_of_spells hhead.2 (by omega)
  have hlen : twoCodes.bits.length = 98 := by decide
  have htrees := readTrees_header twoCodes_valid htables
  have hdrained : (readerAt cutBytes 101).Drained := ⟨by decide, by decide⟩
  have hzeros : Spells (bitOf cutBytes) 101 (codeword twoCodes.tables.lit 97) := by
    rw [codeword_twoCodes_byte]
    exact ⟨hdrained.zero le_rfl, trivial⟩
  have hdecode := (header_decodable twoCodes_valid).htDecode_lit (by decide) hzeros
  have hat : (0 : ℕ) + (true :: lowFirst 2 2).length + twoCodes.bits.length = 101 := by
    rw [hlen]
    rfl
  rw [hat] at htrees
  refine not_halts_of_stalls (by decide) ⟨_, htBuild twoCodes.tables.lit,
    htBuild twoCodes.tables.dist, _, _, ReflTransGen.refl, ⟨?_, readerAt cutBytes 101, ?_, rfl⟩,
    ReflTransGen.refl, hdrained, ?_⟩
  · simp only [bitsInit_eq, bitsRead_readerAt]
    exact htype
  · simp only [bitsInit_eq, bitsRead_readerAt]
    exact htrees
  · rw [RunsOn, hdecode]
    exact ⟨by decide, by decide, by decide, fun h => absurd h (by decide)⟩

end Microkernel
