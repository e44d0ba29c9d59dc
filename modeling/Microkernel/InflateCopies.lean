/-
# Inflate: back-references

Where `decode_block` in `src/image.c` reads the bytes that it copies for a length and a distance.
It does not look whether the distance goes back before the output.  Whether it does is seen on the
compressed stream alone: `scanStream` reads its symbols and counts the bytes that they stand for.
-/
import Microkernel.InflateHalts

namespace Microkernel

open BitStream PrefixCode

/-! ## The places that are read -/

/-- The copy loop: each place that is read, and the output position then. -/
def copyReads (omax : ℤ) (distance : ℕ) : ℕ → Inflater → List (ℤ × ℕ)
  | 0, _ => []
  | length + 1, s =>
    if (s.opos : ℤ) < omax then
      ((s.opos : ℤ) - distance, s.opos) ::
        copyReads omax distance length (s.put omax (s.out ((s.opos : ℤ) - distance)))
    else []

/-- What the bits at the reader stand for. -/
inductive Symbol
  | byte (v : UInt8)
  | stop
  | pair (p : Pair)
  | damaged

/-- The next symbol, as `decode_block` reads it. -/
def readSymbol (lt dt : HTree) (b : Bits) : Symbol × Bits :=
  let sym := htDecode lt b
  if sym.1 < 0 ∨ 285 < sym.1 then (.damaged, sym.2)
  else if sym.1 < 256 then (.byte (UInt8.ofNat sym.1.toNat), sym.2)
  else if sym.1 = 256 then (.stop, sym.2)
  else
    match readPair dt (sym.1.toNat - 257) sym.2 with
    | (none, b) => (.damaged, b)
    | (some p, b) => (.pair p, b)

/-- The copies of one round of `decode_block`. -/
def symbolReads (lt dt : HTree) (omax : ℤ) (s : Inflater) : List (ℤ × ℕ) :=
  match readSymbol lt dt s.bits with
  | (.pair p, b) => copyReads omax p.distance p.length { s with bits := b }
  | _ => []

/-- The copies of `decode_block`. -/
def blockReads (lt dt : HTree) (omax : ℤ) : ℕ → Inflater → List (ℤ × ℕ)
  | 0, _ => []
  | fuel + 1, s =>
    symbolReads lt dt omax s ++
      match decodeSymbol lt dt omax s with
      | .inl s => blockReads lt dt omax fuel s
      | .inr _ => []

/-- The copies in one round of `deflate_decompress`. -/
def roundReads (fuel : ℕ) (omax : ℤ) (s : Inflater) : List (ℤ × ℕ) :=
  let btype := bitsRead (bitsRead s.bits 1).2 2
  if btype.1 = 1 then blockReads fixedLit fixedDist omax fuel { s with bits := btype.2 }
  else if btype.1 = 2 then
    match readTrees btype.2 with
    | (none, _) => []
    | (some (lt, dt), b) => blockReads lt dt omax fuel { s with bits := b }
  else []

/-- The copies of `deflate_decompress`. -/
def streamReads (inner : ℕ) (omax : ℤ) : ℕ → Inflater → List (ℤ × ℕ)
  | 0, _ => []
  | fuel + 1, s =>
    roundReads inner omax s ++
      match inflateBlock inner omax s with
      | some (.inl s) => streamReads inner omax fuel s
      | _ => []

/-- Every byte that is copied is read from the output, in however many rounds. -/
def CopiesInside (src : List UInt8) (out : ℤ → UInt8) (omax : ℤ) : Prop :=
  ∀ fuel, ∀ r ∈ streamReads fuel omax fuel ⟨bitsInit src, out, 0⟩, 0 ≤ r.1 ∧ r.1 < r.2

/-- `deflate_decompress` returns an error. -/
def ReturnsError (src : List UInt8) (out : ℤ → UInt8) (omax : ℤ) : Prop :=
  ∃ fuel out', deflateDecompress fuel src out omax = some (-1, out')

/-! ## The stream by itself -/

/-- How a part of the stream ends: at the reader, with the number of bytes up to there. -/
inductive ScanEnd
  | next (b : Bits) (size : ℕ)
  | last
  | damaged

/-- The symbols of a block: its pairs, each with the number of bytes before it, and where it ends. -/
def scanBlock (lt dt : HTree) : ℕ → Bits → ℕ → List (ℕ × Pair) × Option ScanEnd
  | 0, _, _ => ([], none)
  | fuel + 1, b, size =>
    match readSymbol lt dt b with
    | (.byte _, b) => scanBlock lt dt fuel b (size + 1)
    | (.stop, b) => ([], some (.next b size))
    | (.pair p, b) =>
      let r := scanBlock lt dt fuel b (size + p.length)
      ((size, p) :: r.1, r.2)
    | (.damaged, _) => ([], some .damaged)

/-- A stored block: only the bytes for which there is room are read. -/
def scanStored (limit : ℕ) (b : Bits) (size : ℕ) : ScanEnd :=
  let b := { b with buf := 0, cnt := 0 }
  if b.src.length < (b.pos + 4) % 2 ^ 32 then .damaged
  else
    let len := (b.src.getD b.pos 0).toNat + (b.src.getD ((b.pos + 1) % 2 ^ 32) 0).toNat * 256
    let pos := (b.pos + 4) % 2 ^ 32
    .next { b with pos := min (pos + min len (limit - size)) b.src.length } (size + len)

/-- The last block ends the stream. -/
def ScanEnd.after (bfinal : ℕ) : ScanEnd → ScanEnd
  | .next b size => if bfinal = 0 then .next b size else .last
  | .last => .last
  | .damaged => .damaged

/-- One block of any type. -/
def scanRound (fuel limit : ℕ) (b : Bits) (size : ℕ) : List (ℕ × Pair) × Option ScanEnd :=
  let bfinal := bitsRead b 1
  let btype := bitsRead bfinal.2 2
  let b := btype.2
  if btype.1 = 0 then ([], some ((scanStored limit b size).after bfinal.1))
  else if btype.1 = 1 then
    let r := scanBlock fixedLit fixedDist fuel b size
    (r.1, r.2.map (ScanEnd.after bfinal.1))
  else if btype.1 = 2 then
    match readTrees b with
    | (none, _) => ([], some .damaged)
    | (some (lt, dt), b) =>
      let r := scanBlock lt dt fuel b size
      (r.1, r.2.map (ScanEnd.after bfinal.1))
  else ([], some .damaged)

/-- The pairs of a stream, each with the number of bytes before it, and whether it is damaged. -/
def scanStream (inner limit : ℕ) : ℕ → Bits → ℕ → List (ℕ × Pair) × Bool
  | 0, _, _ => ([], false)
  | fuel + 1, b, size =>
    let r := scanRound inner limit b size
    match r.2 with
    | some (.next b size) =>
      let rest := scanStream inner limit fuel b size
      (r.1 ++ rest.1, rest.2)
    | some .damaged => (r.1, true)
    | _ => (r.1, false)

/-- Every distance is at most the number of bytes before it, unless these fill the output. -/
def DistancesInside (src : List UInt8) (omax : ℤ) : Prop :=
  ∀ fuel, ∀ q ∈ (scanStream fuel omax.toNat fuel (bitsInit src) 0).1, (q.1 : ℤ) < omax → q.2.distance ≤ q.1

/-- The stream comes to an invalid block or symbol. -/
def Damaged (src : List UInt8) (omax : ℤ) : Prop :=
  ∃ fuel, (scanStream fuel omax.toNat fuel (bitsInit src) 0).2 = true

/-! ## One symbol -/

variable {lt dt : HTree} {omax : ℤ} {s : Inflater} {b : Bits} {size : ℕ}

/-- The decoder does what the next symbol says. -/
theorem decodeSymbol_eq : decodeSymbol lt dt omax s =
    match readSymbol lt dt s.bits with
    | (.byte v, b) => .inl ({ s with bits := b }.put omax v)
    | (.stop, b) => .inr (s.opos, { s with bits := b })
    | (.pair p, b) => .inl (Inflater.copy omax p.distance p.length { s with bits := b })
    | (.damaged, b) => .inr (-1, { s with bits := b }) := by
  unfold decodeSymbol readSymbol
  dsimp only
  split_ifs
  · rfl
  · rfl
  · rfl
  · cases readPair dt ((htDecode lt s.bits).1.toNat - 257) (htDecode lt s.bits).2 with
    | mk p b =>
      cases p with
      | none => rfl
      | some p => rfl

/-- Each pair has a length and a distance. -/
theorem pair_pos {p : Pair} (h : readSymbol lt dt s.bits = (.pair p, b)) :
    1 ≤ p.length ∧ 1 ≤ p.distance := by
  have hlens : ∀ i < 29, 1 ≤ lenBase.getD i 0 := by decide
  have hdists : ∀ i < 30, 1 ≤ distBase.getD i 0 := by decide
  unfold readSymbol at h
  dsimp only at h
  split_ifs at h with hsym hbyte hstop
  · cases h
  · cases h
  · cases h
  · unfold readPair at h
    dsimp only at h
    split_ifs at h with hdist
    · cases h
    · simp only [Prod.mk.injEq, Symbol.pair.injEq] at h
      obtain ⟨rfl, -⟩ := h
      have hlen := hlens ((htDecode lt s.bits).1.toNat - 257) (by omega)
      have hfar := hdists (htDecode dt (bitsRead (htDecode lt s.bits).2
        (lenExtra.getD ((htDecode lt s.bits).1.toNat - 257) 0)).2).1.toNat (by omega)
      exact ⟨by dsimp only; omega, by dsimp only; omega⟩

/-- The decoder has written the bytes of the symbols before, as far as there is room. -/
structure Tracks (omax : ℤ) (s : Inflater) (b : Bits) (size : ℕ) : Prop where
  bits : s.bits = b
  opos : s.opos = min size omax.toNat

theorem Tracks.room_iff (h : Tracks omax s b size) : (s.opos : ℤ) < omax ↔ (size : ℤ) < omax := by
  have hopos := h.opos
  omega

theorem Tracks.put (h : Tracks omax s b size) (v : UInt8) {b' : Bits} :
    Tracks omax ({ s with bits := b' }.put omax v) b' (size + 1) := by
  have hopos := h.opos
  unfold Inflater.put
  split_ifs with hroom
  · dsimp only at hroom
    exact ⟨rfl, by dsimp only; omega⟩
  · dsimp only at hroom
    exact ⟨rfl, by dsimp only; omega⟩

theorem Tracks.copy {distance length : ℕ} (h : Tracks omax s b size) :
    Tracks omax (Inflater.copy omax distance length s) b (size + length) := by
  induction length generalizing s size with
  | zero => exact h
  | succ length ih =>
    rw [Inflater.copy, ← Nat.add_assoc, Nat.add_right_comm]
    apply ih
    obtain ⟨hbits, hopos⟩ := h
    subst hbits
    exact Tracks.put ⟨rfl, hopos⟩ _

/-- A distance that does not go back before the output never does. -/
theorem copyReads_inside {distance length : ℕ} (hpos : 1 ≤ distance) :
    ∀ {s : Inflater}, distance ≤ s.opos →
      ∀ r ∈ copyReads omax distance length s, 0 ≤ r.1 ∧ r.1 < r.2 := by
  induction length with
  | zero =>
    intro s _ r hr
    cases hr
  | succ length ih =>
    intro s hle r hr
    rw [copyReads] at hr
    split_ifs at hr with hroom
    · rcases List.mem_cons.mp hr with rfl | hr
      · exact ⟨by dsimp only; omega, by dsimp only; omega⟩
      · apply ih _ r hr
        unfold Inflater.put
        rw [if_pos hroom]
        dsimp only
        omega
    · cases hr

/-- **A copy reads inside the output** exactly if the distance does not go back before it. -/
theorem copyReads_inside_iff {p : Pair} (hp : 1 ≤ p.length ∧ 1 ≤ p.distance) :
    (∀ r ∈ copyReads omax p.distance p.length s, 0 ≤ r.1 ∧ r.1 < r.2) ↔
      ((s.opos : ℤ) < omax → p.distance ≤ s.opos) := by
  obtain ⟨k, hk⟩ : ∃ k, p.length = k + 1 := ⟨p.length - 1, by omega⟩
  constructor
  · intro h hroom
    -- The first byte is the one furthest back.
    have hfirst := h ((s.opos : ℤ) - p.distance, s.opos) (by
      rw [hk, copyReads, if_pos hroom]
      exact List.mem_cons_self)
    have hge := hfirst.1
    dsimp only at hge
    omega
  · intro h
    by_cases hroom : (s.opos : ℤ) < omax
    · exact copyReads_inside hp.2 (h hroom)
    · intro r hr
      rw [hk, copyReads, if_neg hroom] at hr
      cases hr

/-! ## One block -/

/-- The state in which the decoder leaves a part of the stream that ends so. -/
def Leaves (omax : ℤ) : ScanEnd → ℤ × Inflater → Prop
  | .next b size, r => r.1 = r.2.opos ∧ Tracks omax r.2 b size
  | .last, _ => False
  | .damaged, r => r.1 = -1

/-- Pairs whose copies read inside the output. -/
def PairsInside (omax : ℤ) (pairs : List (ℕ × Pair)) : Prop :=
  ∀ q ∈ pairs, (q.1 : ℤ) < omax → q.2.distance ≤ q.1

/-- The places that are read are inside the output. -/
def ReadsInside (reads : List (ℤ × ℕ)) : Prop := ∀ r ∈ reads, 0 ≤ r.1 ∧ r.1 < r.2

theorem readsInside_append {l l' : List (ℤ × ℕ)} :
    ReadsInside (l ++ l') ↔ ReadsInside l ∧ ReadsInside l' := List.forall_mem_append

theorem pairsInside_append {l l' : List (ℕ × Pair)} :
    PairsInside omax (l ++ l') ↔ PairsInside omax l ∧ PairsInside omax l' := List.forall_mem_append

theorem readsInside_nil : ReadsInside [] := List.forall_mem_nil _

theorem pairsInside_nil : PairsInside omax [] := List.forall_mem_nil _

/-- **A block is decoded as it is scanned.** -/
theorem decodeBlock_scan (fuel : ℕ) : ∀ {s : Inflater} {b : Bits} {size : ℕ}, Tracks omax s b size →
    (ReadsInside (blockReads lt dt omax fuel s) ↔ PairsInside omax (scanBlock lt dt fuel b size).1) ∧
    match decodeBlock lt dt omax fuel s, (scanBlock lt dt fuel b size).2 with
    | none, none => True
    | some r, some e => Leaves omax e r
    | _, _ => False := by
  induction fuel with
  | zero =>
    intro s b size _
    exact ⟨⟨fun _ => pairsInside_nil, fun _ => readsInside_nil⟩, trivial⟩
  | succ fuel ih =>
    intro s b size h
    have hbits := h.bits
    subst hbits
    rw [blockReads, decodeBlock, scanBlock, decodeSymbol_eq, symbolReads, readsInside_append]
    cases hsym : readSymbol lt dt s.bits with
    | mk sym b =>
      cases sym with
      | byte v =>
        have hput : Tracks omax ({ s with bits := b }.put omax v) b (size + 1) := h.put v
        obtain ⟨hreads, hend⟩ := ih hput
        refine ⟨?_, hend⟩
        rw [← hreads]
        exact and_iff_right readsInside_nil
      | stop =>
        refine ⟨⟨fun _ => pairsInside_nil, fun _ => ⟨readsInside_nil, readsInside_nil⟩⟩, rfl, rfl, h.opos⟩
      | pair p =>
        have htracks : Tracks omax { s with bits := b } b size := ⟨rfl, h.opos⟩
        have hcopy : Tracks omax (Inflater.copy omax p.distance p.length { s with bits := b }) b
            (size + p.length) := htracks.copy
        obtain ⟨hreads, hend⟩ := ih hcopy
        refine ⟨?_, hend⟩
        dsimp only
        rw [← List.singleton_append, pairsInside_append, ← hreads]
        apply and_congr_left'
        unfold ReadsInside PairsInside
        rw [copyReads_inside_iff (pair_pos hsym), List.forall_mem_singleton, htracks.room_iff]
        -- With room left, all bytes so far have been written.
        have hopos := htracks.opos
        dsimp only at hopos ⊢
        constructor
        · intro hle hroom
          have hle' := hle hroom
          omega
        · intro hle hroom
          have hle' := hle hroom
          omega
      | damaged =>
        exact ⟨⟨fun _ => pairsInside_nil, fun _ => ⟨readsInside_nil, readsInside_nil⟩⟩, rfl⟩

/-- The bytes of a stored block for which there is room are read. -/
theorem copyStored_tracks (len : ℕ) : ∀ {s : Inflater} {size : ℕ}, s.bits.pos ≤ s.bits.src.length →
    s.opos = min size omax.toNat →
    Tracks omax (copyStored omax len s)
      { s.bits with pos := min (s.bits.pos + min len (omax.toNat - size)) s.bits.src.length }
      (size + len) := by
  induction len with
  | zero =>
    intro s size hpos hopos
    rw [Nat.zero_min, Nat.add_zero, Nat.min_eq_left hpos]
    exact ⟨rfl, hopos⟩
  | succ len ih =>
    intro s size hpos hopos
    rw [copyStored]
    by_cases hroom : (s.opos : ℤ) < omax
    · rw [if_pos hroom]
      dsimp only
      -- After the last byte the reader stays.
      have hnext : (if s.bits.pos < s.bits.src.length then s.bits.pos + 1 else s.bits.pos) =
          min (s.bits.pos + 1) s.bits.src.length := by split_ifs <;> omega
      rw [hnext]
      set s₁ : Inflater := Inflater.put omax
        { s with bits := { s.bits with pos := min (s.bits.pos + 1) s.bits.src.length } }
        (s.bits.src.getD s.bits.pos 0) with hs₁
      have hput : s₁.bits = { s.bits with pos := min (s.bits.pos + 1) s.bits.src.length } ∧
          s₁.opos = s.opos + 1 := by
        rw [hs₁, Inflater.put, if_pos hroom]
        exact ⟨rfl, rfl⟩
      have hstep := @ih s₁ (size + 1) (by rw [hput.1]; exact Nat.min_le_right _ _)
        (by rw [hput.2]; omega)
      rw [hput.1] at hstep
      dsimp only at hstep ⊢
      have hend : min (min (s.bits.pos + 1) s.bits.src.length + min len (omax.toNat - (size + 1)))
          s.bits.src.length = min (s.bits.pos + min (len + 1) (omax.toNat - size)) s.bits.src.length := by
        omega
      rw [Nat.add_assoc size, Nat.add_comm 1 len, hend] at hstep
      exact hstep
    · rw [if_neg hroom]
      constructor
      · rw [Nat.sub_eq_zero_of_le (by omega), Nat.min_zero, Nat.add_zero, Nat.min_eq_left hpos]
      · omega

/-! ## The stream -/

/-- The round that `deflate_decompress` makes of a block that ends so. -/
def Goes (omax : ℤ) : ScanEnd → Inflater ⊕ (ℤ × Inflater) → Prop
  | .next b size, .inl s => Tracks omax s b size
  | .last, .inr r => 0 ≤ r.1
  | .damaged, .inr r => r.1 = -1
  | _, _ => False

theorem Leaves.after {e : ScanEnd} {r : ℤ × Inflater} {bfinal : ℕ} (h : Leaves omax e r) :
    Goes omax (e.after bfinal) (afterBlock bfinal r) := by
  unfold afterBlock
  cases e with
  | next b size =>
    obtain ⟨hopos, htracks⟩ := h
    unfold ScanEnd.after
    rw [if_neg (by omega)]
    split_ifs
    · exact htracks
    · exact Int.natCast_nonneg _
  | last => cases h
  | damaged =>
    have hr : r.1 = -1 := h
    rw [if_pos (by omega)]
    rfl

theorem decodeBlock_after {bfinal fuel : ℕ} (h : Tracks omax s b size) :
    match (decodeBlock lt dt omax fuel s).map (afterBlock bfinal),
      (scanBlock lt dt fuel b size).2.map (ScanEnd.after bfinal) with
    | none, none => True
    | some g, some e => Goes omax e g
    | _, _ => False := by
  have hblock := (@decodeBlock_scan lt dt omax fuel s b size h).2
  cases hr : decodeBlock lt dt omax fuel s with
  | none =>
    cases he : (scanBlock lt dt fuel b size).2 with
    | none => trivial
    | some e =>
      rw [hr, he] at hblock
      exact hblock
  | some r =>
    cases he : (scanBlock lt dt fuel b size).2 with
    | none =>
      rw [hr, he] at hblock
      exact hblock
    | some e =>
      rw [hr, he] at hblock
      exact Leaves.after hblock

theorem storedBlock_scan {bfinal : ℕ} (h : Tracks omax s b size) :
    Goes omax ((scanStored omax.toNat b size).after bfinal)
      (match storedBlock omax s with
        | none => .inr (-1, s)
        | some s => afterBlock bfinal (s.opos, s)) := by
  obtain ⟨rfl, hopos⟩ := h
  unfold storedBlock scanStored
  dsimp only
  split_ifs with hshort
  · exact rfl
  · dsimp only
    apply Leaves.after
    refine ⟨rfl, ?_⟩
    apply @copyStored_tracks omax _
      { s with bits := { s.bits with buf := 0, cnt := 0, pos := (s.bits.pos + 4) % 2 ^ 32 } }
    · dsimp only
      omega
    · exact hopos

/-- **A block of any type is decoded as it is scanned.** -/
theorem inflateBlock_scan (fuel : ℕ) (h : Tracks omax s b size) :
    (ReadsInside (roundReads fuel omax s) ↔ PairsInside omax (scanRound fuel omax.toNat b size).1) ∧
    match inflateBlock fuel omax s, (scanRound fuel omax.toNat b size).2 with
    | none, none => True
    | some g, some e => Goes omax e g
    | _, _ => False := by
  have hbits := h.bits
  subst hbits
  have hnone : ReadsInside [] ↔ PairsInside omax [] :=
    ⟨fun _ => pairsInside_nil, fun _ => readsInside_nil⟩
  unfold roundReads inflateBlock scanRound
  dsimp only
  generalize bitsRead s.bits 1 = bfinal
  generalize bitsRead bfinal.2 2 = btype
  have htracks : Tracks omax { s with bits := btype.2 } btype.2 size := ⟨rfl, h.opos⟩
  by_cases hstored : btype.1 = 0
  · have hgoes := @storedBlock_scan omax _ _ _ bfinal.1 htracks
    rw [if_neg (by omega), if_neg (by omega), if_pos hstored, if_pos hstored]
    refine ⟨hnone, ?_⟩
    cases hblock : storedBlock omax { s with bits := btype.2 } with
    | none =>
      rw [hblock] at hgoes
      exact hgoes
    | some s' =>
      rw [hblock] at hgoes
      exact hgoes
  rw [if_neg hstored, if_neg hstored]
  by_cases hfixed : btype.1 = 1
  · rw [if_pos hfixed, if_pos hfixed, if_pos hfixed]
    exact ⟨(decodeBlock_scan fuel htracks).1, decodeBlock_after htracks⟩
  rw [if_neg hfixed, if_neg hfixed, if_neg hfixed]
  by_cases hdynamic : btype.1 = 2
  · rw [if_pos hdynamic, if_pos hdynamic, if_pos hdynamic]
    cases readTrees btype.2 with
    | mk trees b =>
      cases trees with
      | none => exact ⟨hnone, rfl⟩
      | some trees =>
        have hb : Tracks omax { s with bits := b } b size := ⟨rfl, h.opos⟩
        exact ⟨(decodeBlock_scan fuel hb).1, decodeBlock_after hb⟩
  · rw [if_neg hdynamic, if_neg hdynamic, if_neg hdynamic]
    exact ⟨hnone, rfl⟩

/-- **The whole stream is decoded as it is scanned.** -/
theorem inflateBlocks_scan (inner fuel : ℕ) : ∀ {s : Inflater} {b : Bits} {size : ℕ},
    Tracks omax s b size →
    (ReadsInside (streamReads inner omax fuel s) ↔
      PairsInside omax (scanStream inner omax.toNat fuel b size).1) ∧
    ((∃ s', inflateBlocks inner omax fuel s = some (-1, s')) ↔
      (scanStream inner omax.toNat fuel b size).2 = true) := by
  induction fuel with
  | zero =>
    intro s b size _
    refine ⟨⟨fun _ => pairsInside_nil, fun _ => readsInside_nil⟩, ?_⟩
    constructor
    · rintro ⟨s', hs'⟩
      cases hs'
    · intro h
      cases h
  | succ fuel ih =>
    intro s b size h
    obtain ⟨hreads, hgoes⟩ := inflateBlock_scan inner h
    rw [streamReads, inflateBlocks, scanStream, readsInside_append, hreads]
    dsimp only
    cases hg : inflateBlock inner omax s with
    | none =>
      cases he : (scanRound inner omax.toNat b size).2 with
      | none =>
        refine ⟨and_iff_left readsInside_nil, ?_⟩
        constructor
        · rintro ⟨s', hs'⟩
          cases hs'
        · intro hd
          cases hd
      | some e =>
        rw [hg, he] at hgoes
        cases hgoes
    | some g =>
      cases he : (scanRound inner omax.toNat b size).2 with
      | none =>
        rw [hg, he] at hgoes
        cases hgoes
      | some e =>
        rw [hg, he] at hgoes
        cases g with
        | inl s' =>
          cases e with
          | next b' size' =>
            obtain ⟨hrest, hend⟩ := ih hgoes
            refine ⟨?_, hend⟩
            dsimp only
            rw [hrest, pairsInside_append]
          | last => cases hgoes
          | damaged => cases hgoes
        | inr r =>
          cases e with
          | next b' size' => cases hgoes
          | last =>
            have hok : 0 ≤ r.1 := hgoes
            refine ⟨and_iff_left readsInside_nil, ?_⟩
            constructor
            · rintro ⟨s', hs'⟩
              obtain rfl := Option.some.inj hs'
              cases hok
            · intro hd
              cases hd
          | damaged =>
            have herror : r.1 = -1 := hgoes
            refine ⟨and_iff_left readsInside_nil, ?_⟩
            constructor
            · exact fun _ => rfl
            · intro _
              exact ⟨r.2, by dsimp only; rw [← herror]⟩

/-- Decoding begins as the scan does. -/
theorem tracks_start (src : List UInt8) (out : ℤ → UInt8) (omax : ℤ) :
    Tracks omax ⟨bitsInit src, out, 0⟩ (bitsInit src) 0 := ⟨rfl, (Nat.zero_min _).symm⟩

theorem copiesInside_iff (src : List UInt8) (out : ℤ → UInt8) (omax : ℤ) :
    CopiesInside src out omax ↔ DistancesInside src omax :=
  forall_congr' fun fuel => (inflateBlocks_scan fuel fuel (tracks_start src out omax)).1

theorem returnsError_iff (src : List UInt8) (out : ℤ → UInt8) (omax : ℤ) :
    ReturnsError src out omax ↔ Damaged src omax := by
  apply exists_congr
  intro fuel
  rw [← (inflateBlocks_scan fuel fuel (tracks_start src out omax)).2]
  unfold deflateDecompress
  constructor
  · rintro ⟨out', h⟩
    obtain ⟨r, hr, heq⟩ := Option.map_eq_some_iff.mp h
    obtain ⟨hfirst, -⟩ := Prod.mk.inj heq
    exact ⟨r.2, by rw [hr, ← hfirst]⟩
  · rintro ⟨s', hs'⟩
    exact ⟨s'.out, by rw [hs']; rfl⟩

/-- **When back-references stay in the output**: exactly when the stream is damaged, or every distance
goes back over bytes of the stream only. -/
theorem copiesInside_or_error_iff (src : List UInt8) (out : ℤ → UInt8) (omax : ℤ) :
    ReturnsError src out omax ∨ CopiesInside src out omax ↔ Damaged src omax ∨ DistancesInside src omax :=
  or_congr (returnsError_iff src out omax) (copiesInside_iff src out omax)

/-- A block with the fixed codes that begins with a length of 3 and a distance of 1. -/
def backBytes : List UInt8 := [3, 2, 0]

/-- The scan ends with a last block. -/
theorem scanStream_of_end {inner limit fuel size : ℕ} {b : Bits} {qs : List (ℕ × Pair)} {e : Option ScanEnd}
    (hround : scanRound inner limit b size = (qs, e.map (ScanEnd.after 1))) (hgoes : e ≠ some .damaged) :
    scanStream inner limit (fuel + 1) b size = (qs, false) := by
  rw [scanStream, hround]
  match e, hgoes with
  | none, _ => rfl
  | some (.next _ _), _ => rfl
  | some .last, _ => rfl

/-- The two symbols of `backBytes`. -/
theorem readSymbol_backBytes :
    readSymbol fixedLit fixedDist (readerAt backBytes 3) = (.pair ⟨3, 1⟩, readerAt backBytes 15) ∧
      readSymbol fixedLit fixedDist (readerAt backBytes 15) = (.stop, readerAt backBytes 22) := by
  have hback : codeword Deflate.fixedTables.dist 0 = highFirst 5 0 := codeword_eq (by decide)
  have hlit : htDecode fixedLit (readerAt backBytes 3) = (257, readerAt backBytes 10) :=
    htDecode_fixedLit (by decide) (by rw [codeword_fixed_copy, spells_iff]; decide)
  have hdist : htDecode fixedDist (readerAt backBytes 10) = (0, readerAt backBytes 15) :=
    htDecode_fixedDist (by decide) (by rw [hback, spells_iff]; decide)
  have hstop : htDecode fixedLit (readerAt backBytes 15) = (256, readerAt backBytes 22) :=
    htDecode_fixedLit (by decide) (by rw [codeword_fixed_end, spells_iff]; decide)
  have hpair : readPair fixedDist 0 (readerAt backBytes 10) = (some ⟨3, 1⟩, readerAt backBytes 15) := by
    have hextra : lenExtra.getD 0 0 = 0 := rfl
    have hfar : distExtra.getD (0 : ℤ).toNat 0 = 0 := rfl
    simp only [readPair, hextra, bitsRead_readerAt, Nat.add_zero, hdist, hfar]
    rw [if_neg (by decide)]
    simp only [field_zero]
    rfl
  constructor
  · have hfirst : (257 : ℤ).toNat - 257 = 0 := rfl
    simp only [readSymbol, hlit]
    rw [if_neg (by decide), if_neg (by decide), if_neg (by decide), hfirst, hpair]
  · simp only [readSymbol, hstop]
    rw [if_neg (by decide), if_neg (by decide), if_pos trivial]

theorem scanBlock_backBytes (inner : ℕ) : scanBlock fixedLit fixedDist (inner + 2) (readerAt backBytes 3) 0 =
    ([(0, ⟨3, 1⟩)], some (.next (readerAt backBytes 22) 3)) := by
  obtain ⟨hpair, hstop⟩ := readSymbol_backBytes
  rw [scanBlock, hpair]
  dsimp only
  rw [scanBlock, hstop]

/-- The only block of `backBytes` is the last one. -/
theorem scanRound_backBytes (inner : ℕ) : scanRound inner 16 (bitsInit backBytes) 0 =
    ((scanBlock fixedLit fixedDist inner (readerAt backBytes 3) 0).1,
      (scanBlock fixedLit fixedDist inner (readerAt backBytes 3) 0).2.map (ScanEnd.after 1)) := by
  have hfinal : bitsRead (bitsInit backBytes) 1 = (1, readerAt backBytes 1) := by
    rw [bitsInit_eq, bitsRead_readerAt]
    rfl
  have htype : bitsRead (readerAt backBytes 1) 2 = (1, readerAt backBytes 3) := by
    rw [bitsRead_readerAt]
    rfl
  unfold scanRound
  simp only [hfinal, htype]
  rw [if_neg (by decide), if_pos trivial]

theorem scanBlock_backBytes_end (inner : ℕ) :
    (scanBlock fixedLit fixedDist inner (readerAt backBytes 3) 0).2 ≠ some .damaged := by
  match inner with
  | 0 =>
    rw [scanBlock]
    intro h
    cases h
  | 1 =>
    rw [scanBlock, readSymbol_backBytes.1]
    intro h
    cases h
  | inner + 2 =>
    rw [scanBlock_backBytes]
    intro h
    cases h

/-- However many rounds there are, the stream is not damaged. -/
theorem scanStream_backBytes (inner fuel : ℕ) : scanStream inner (16 : ℤ).toNat (fuel + 1) (bitsInit backBytes) 0 =
    ((scanBlock fixedLit fixedDist inner (readerAt backBytes 3) 0).1, false) := by
  have hlimit : (16 : ℤ).toNat = 16 := rfl
  rw [hlimit]
  exact scanStream_of_end (scanRound_backBytes inner) (scanBlock_backBytes_end inner)

/-- The byte before the output is copied, and the decoder returns 3. -/
theorem not_copiesInside_backBytes :
    ¬ ∀ (src : List UInt8) (out : ℤ → UInt8) (omax : ℤ),
      ReturnsError src out omax ∨ CopiesInside src out omax := by
  intro hall
  rcases (copiesInside_or_error_iff backBytes (fun _ => 0) 16).mp (hall _ _ _) with ⟨fuel, hdamaged⟩ | hinside
  · cases fuel with
    | zero => cases hdamaged
    | succ fuel =>
      rw [scanStream_backBytes] at hdamaged
      cases hdamaged
  · have hmem : (0, ⟨3, 1⟩) ∈ (scanStream 2 (16 : ℤ).toNat 2 (bitsInit backBytes) 0).1 := by
      rw [scanStream_backBytes, scanBlock_backBytes]
      exact List.mem_singleton_self _
    have hdist : 1 ≤ 0 := hinside 2 _ hmem (by decide)
    exact absurd hdist (by decide)

end Microkernel
