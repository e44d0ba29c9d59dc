/-
# The PNG loader: the walk over the chunks

Which bytes the chunk loop of `image_load_png` reads, where it copies image data to, and when it
ends.  Its three sums of 32-bit numbers may go round: then the tests before the accesses say nothing.
-/
import Microkernel.Png
import Microkernel.Walks

namespace Microkernel

/-! ## The accesses -/

/-- Both tests of the loop let the chunk through. -/
def ChunkTested (data : List UInt8) (pos : ℕ) : Prop :=
  (pos + 12) % 2 ^ 32 ≤ data.length ∧ (pos + 12 + rd32be data pos) % 2 ^ 32 ≤ data.length

instance (data : List UInt8) (pos : ℕ) : Decidable (ChunkTested data pos) :=
  inferInstanceAs (Decidable (_ ∧ _))

/-- The tag of the chunk at a position. -/
def chunkTag (data : List UInt8) (pos : ℕ) : List UInt8 := (data.drop (pos + 4)).take 4

/-- What one round reads of the file: places and sizes. -/
def chunkReads (data : List UInt8) (pos : ℕ) (st : PngInfo) : List (ℕ × ℕ) :=
  let clen := rd32be data pos
  let tag := chunkTag data pos
  if data.length < (pos + 12) % 2 ^ 32 then []
  else
    (pos, 4) ::
      if data.length < (pos + 12 + clen) % 2 ^ 32 then []
      else
        (pos + 4, 4) ::
          if tag = tagIHDR ∧ 13 ≤ clen then
            [(pos + 8, 4), (pos + 12, 4), (pos + 16, 1), (pos + 17, 1), (pos + 20, 1)]
          else if tag = tagPLTE then
            (List.range (min (clen / 3) 256)).map fun i => (pos + 8 + i * 3, 3)
          else if tag = tagIDAT then
            if (st.idat.length + clen) % 2 ^ 32 ≤ idatMax then [(pos + 8, clen)] else []
          else []

/-- What one round copies into the buffer for image data. -/
def chunkWrites (data : List UInt8) (pos : ℕ) (st : PngInfo) : List (ℕ × ℕ) :=
  let clen := rd32be data pos
  if ChunkTested data pos ∧ chunkTag data pos = tagIDAT ∧ (st.idat.length + clen) % 2 ^ 32 ≤ idatMax then
    [(st.idat.length, clen)]
  else []

/-- The loop goes on from one chunk to the next. -/
def ChunkStep (data : List UInt8) (s s' : ℕ × PngInfo) : Prop :=
  pngChunk data s.1 s.2 = .next s'.1 s'.2

/-- The loop comes to this state. -/
def ChunkReached (data : List UInt8) (s : ℕ × PngInfo) : Prop :=
  Relation.ReflTransGen (ChunkStep data) (8, .init) s

/-- The loop ends, reads bytes of the file only, and copies into the buffer only. -/
structure WalkBounded (data : List UInt8) : Prop where
  ends : ∃ fuel r, pngChunks data fuel 8 .init = some r
  reads : ∀ s, ChunkReached data s → ∀ r ∈ chunkReads data s.1 s.2, r.1 + r.2 ≤ data.length
  writes : ∀ s, ChunkReached data s → ∀ w ∈ chunkWrites data s.1 s.2, w.1 + w.2 ≤ idatMax

/-! ## The condition -/

/-- The position after a chunk, if the loop goes on. -/
def chunkNext (data : List UInt8) (pos : ℕ) : Option ℕ :=
  if ¬ ChunkTested data pos then none
  else if chunkTag data pos = tagIHDR ∧ 13 ≤ rd32be data pos ∧
      pngHeader (data.drop (pos + 8)) .init = none then none
  else if chunkTag data pos = tagIEND then none
  else some ((pos + 12 + rd32be data pos) % 2 ^ 32)

/-- None of the sums goes round. -/
def SumsExact (data : List UInt8) (pos : ℕ) (st : PngInfo) : Prop :=
  pos + 12 + rd32be data pos < 2 ^ 32 ∧
    (chunkTag data pos = tagIDAT → st.idat.length + rd32be data pos < 2 ^ 32)

/-- A chunk that is let through does no harm: the bytes for its tag are there, and its image data
fits or is left out. -/
structure ChunkHarmless (data : List UInt8) (pos : ℕ) (st : PngInfo) : Prop where
  tag : pos + 8 ≤ data.length
  header : chunkTag data pos = tagIHDR → 13 ≤ rd32be data pos → pos + 21 ≤ data.length
  palette : chunkTag data pos = tagPLTE → 3 ≤ rd32be data pos →
    pos + 8 + min (rd32be data pos / 3) 256 * 3 ≤ data.length
  image : chunkTag data pos = tagIDAT → (st.idat.length + rd32be data pos) % 2 ^ 32 ≤ idatMax →
    pos + 8 + rd32be data pos ≤ data.length ∧ st.idat.length + rd32be data pos ≤ idatMax

/-- What a chunk that the loop comes to has to be. -/
def ChunkSafe (data : List UInt8) (pos : ℕ) (st : PngInfo) : Prop :=
  (pos + 12) % 2 ^ 32 ≤ data.length →
    SumsExact data pos st ∨
      pos + 4 ≤ data.length ∧ (ChunkTested data pos → ChunkHarmless data pos st)

/-! ## One round -/

variable {data : List UInt8} {pos : ℕ} {st : PngInfo}

theorem pngHeader_isNone (cdata : List UInt8) (st st' : PngInfo) :
    pngHeader cdata st = none ↔ pngHeader cdata st' = none := by
  unfold pngHeader
  dsimp only
  split_ifs <;> simp

/-- Whether and where the loop goes on depends on the position only. -/
theorem chunkNext_iff {p : ℕ} : (∃ st', pngChunk data pos st = .next p st') ↔ chunkNext data pos = some p := by
  have htested : ¬ ChunkTested data pos ↔ data.length < (pos + 12) % 2 ^ 32 ∨
      data.length < (pos + 12 + rd32be data pos) % 2 ^ 32 := by
    unfold ChunkTested
    omega
  have hhdr := pngHeader_isNone (data.drop (pos + 8)) st .init
  unfold pngChunk chunkNext
  dsimp only
  rw [if_congr htested rfl rfl]
  unfold chunkTag
  by_cases hfirst : data.length < (pos + 12) % 2 ^ 32
  · rw [if_pos hfirst, if_pos (Or.inl hfirst)]
    simp
  by_cases hsecond : data.length < (pos + 12 + rd32be data pos) % 2 ^ 32
  · rw [if_neg hfirst, if_pos hsecond, if_pos (Or.inr hsecond)]
    simp
  rw [if_neg hfirst, if_neg hsecond, if_neg (not_or.mpr ⟨hfirst, hsecond⟩)]
  by_cases hheader : (data.drop (pos + 4)).take 4 = tagIHDR ∧ 13 ≤ rd32be data pos
  · have hend : ¬ (data.drop (pos + 4)).take 4 = tagIEND := by
      rw [hheader.1]
      decide
    rw [if_pos hheader]
    cases haccept : pngHeader (data.drop (pos + 8)) st with
    | none =>
      rw [if_pos ⟨hheader.1, hheader.2, hhdr.mp haccept⟩]
      simp
    | some st' =>
      have haccept' : ¬ ((data.drop (pos + 4)).take 4 = tagIHDR ∧ 13 ≤ rd32be data pos ∧
          pngHeader (data.drop (pos + 8)) .init = none) := by
        rintro ⟨-, -, hnone⟩
        rw [hhdr.mpr hnone] at haccept
        cases haccept
      rw [if_neg haccept', if_neg hend]
      simp
  have hnot : ¬ ((data.drop (pos + 4)).take 4 = tagIHDR ∧ 13 ≤ rd32be data pos ∧
      pngHeader (data.drop (pos + 8)) .init = none) := fun h => hheader ⟨h.1, h.2.1⟩
  rw [if_neg hheader, if_neg hnot]
  by_cases hpalette : (data.drop (pos + 4)).take 4 = tagPLTE
  · rw [if_pos hpalette, if_neg (by rw [hpalette]; decide)]
    simp
  rw [if_neg hpalette]
  by_cases himage : (data.drop (pos + 4)).take 4 = tagIDAT
  · rw [if_pos himage, if_neg (by rw [himage]; decide)]
    simp
  rw [if_neg himage]
  by_cases hend : (data.drop (pos + 4)).take 4 = tagIEND
  · rw [if_pos hend, if_pos hend]
    simp
  · rw [if_neg hend, if_neg hend]
    simp

/-- Exact sums make a tested chunk harmless. -/
theorem SumsExact.harmless (h : SumsExact data pos st) (htested : ChunkTested data pos) :
    ChunkHarmless data pos st := by
  obtain ⟨hpos, himage⟩ := h
  obtain ⟨hfirst, hsecond⟩ := htested
  rw [Nat.mod_eq_of_lt hpos] at hsecond
  constructor
  · omega
  · intro _ hlen
    omega
  · intro _ hlen
    omega
  · intro htag hroom
    rw [Nat.mod_eq_of_lt (himage htag)] at hroom
    exact ⟨by omega, hroom⟩

theorem chunkSafe_iff_harmless : ChunkSafe data pos st ↔ ((pos + 12) % 2 ^ 32 ≤ data.length →
    pos + 4 ≤ data.length ∧ (ChunkTested data pos → ChunkHarmless data pos st)) := by
  constructor
  · intro h hfirst
    rcases h hfirst with hexact | hsafe
    · have hpos := hexact.1
      rw [Nat.mod_eq_of_lt (by omega)] at hfirst
      exact ⟨by omega, hexact.harmless⟩
    · exact hsafe
  · exact fun h hfirst => Or.inr (h hfirst)

/-- **A chunk is safe** exactly if the round stays inside the two buffers. -/
theorem chunkSafe_iff : ChunkSafe data pos st ↔
    (∀ r ∈ chunkReads data pos st, r.1 + r.2 ≤ data.length) ∧
      ∀ w ∈ chunkWrites data pos st, w.1 + w.2 ≤ idatMax := by
  rw [chunkSafe_iff_harmless]
  unfold chunkReads chunkWrites
  dsimp only
  by_cases hfirst : data.length < (pos + 12) % 2 ^ 32
  · have hnot : ¬ ChunkTested data pos := fun h => absurd h.1 (by omega)
    rw [if_pos hfirst, if_neg fun h => hnot h.1]
    exact ⟨fun _ => ⟨List.forall_mem_nil _, List.forall_mem_nil _⟩, fun _ h => absurd h (by omega)⟩
  rw [if_neg hfirst, List.forall_mem_cons, forall_prop_of_true (by omega), and_assoc]
  apply and_congr_right'
  by_cases hsecond : data.length < (pos + 12 + rd32be data pos) % 2 ^ 32
  · have hnot : ¬ ChunkTested data pos := fun h => absurd h.2 (by omega)
    rw [if_pos hsecond, if_neg fun h => hnot h.1]
    exact ⟨fun _ => ⟨List.forall_mem_nil _, List.forall_mem_nil _⟩, fun _ h => absurd h hnot⟩
  have htested : ChunkTested data pos := ⟨by omega, by omega⟩
  rw [if_neg hsecond, List.forall_mem_cons, forall_prop_of_true htested]
  by_cases hheader : chunkTag data pos = tagIHDR
  · have himage : ¬ chunkTag data pos = tagIDAT := by
      rw [hheader]
      decide
    have hpalette : ¬ chunkTag data pos = tagPLTE := by
      rw [hheader]
      decide
    rw [if_neg (fun h => himage h.2.1 : ¬ (ChunkTested data pos ∧ chunkTag data pos = tagIDAT ∧ _)),
      if_neg hpalette, if_neg himage]
    by_cases hlen : 13 ≤ rd32be data pos
    · rw [if_pos ⟨hheader, hlen⟩]
      constructor
      · intro h
        have hroom := h.header hheader hlen
        refine ⟨⟨by dsimp only; omega, ?_⟩, List.forall_mem_nil _⟩
        intro r hr
        simp only [List.mem_cons, List.not_mem_nil, or_false] at hr
        rcases hr with rfl | rfl | rfl | rfl | rfl <;> (dsimp only; omega)
      · rintro ⟨⟨htag, hreads⟩, -⟩
        have hlast := hreads (pos + 20, 1) (by simp)
        exact ⟨htag, fun _ _ => hlast, fun h => absurd h hpalette, fun h => absurd h himage⟩
    · rw [if_neg fun h => hlen h.2]
      constructor
      · exact fun h => ⟨⟨h.tag, List.forall_mem_nil _⟩, List.forall_mem_nil _⟩
      · rintro ⟨⟨htag, -⟩, -⟩
        exact ⟨htag, fun _ h => absurd h hlen, fun h => absurd h hpalette, fun h => absurd h himage⟩
  rw [if_neg fun h => hheader h.1]
  by_cases hpalette : chunkTag data pos = tagPLTE
  · have himage : ¬ chunkTag data pos = tagIDAT := by
      rw [hpalette]
      decide
    rw [if_pos hpalette, if_neg fun h => himage h.2.1]
    constructor
    · intro h
      refine ⟨⟨h.tag, ?_⟩, List.forall_mem_nil _⟩
      intro r hr
      obtain ⟨i, hi, rfl⟩ := List.mem_map.mp hr
      have hlt := List.mem_range.mp hi
      have hroom := h.palette hpalette (by omega)
      dsimp only
      omega
    · rintro ⟨⟨htag, hreads⟩, -⟩
      refine ⟨htag, fun h => absurd h hheader, ?_, fun h => absurd h himage⟩
      intro _ hlen
      -- The last entry reaches furthest.
      have hlast := hreads (pos + 8 + (min (rd32be data pos / 3) 256 - 1) * 3, 3) (by
        apply List.mem_map.mpr
        exact ⟨_, List.mem_range.mpr (by omega), rfl⟩)
      dsimp only at hlast
      omega
  rw [if_neg hpalette]
  by_cases himage : chunkTag data pos = tagIDAT
  · by_cases hroom : (st.idat.length + rd32be data pos) % 2 ^ 32 ≤ idatMax
    · rw [if_pos himage, if_pos hroom, if_pos ⟨htested, himage, hroom⟩, List.forall_mem_singleton,
        List.forall_mem_singleton]
      constructor
      · intro h
        obtain ⟨hfrom, hto⟩ := h.image himage hroom
        exact ⟨⟨h.tag, hfrom⟩, hto⟩
      · rintro ⟨⟨htag, hfrom⟩, hto⟩
        exact ⟨htag, fun h => absurd h hheader, fun h => absurd h hpalette, fun _ _ => ⟨hfrom, hto⟩⟩
    · rw [if_pos himage, if_neg hroom, if_neg fun h => hroom h.2.2]
      constructor
      · exact fun h => ⟨⟨h.tag, List.forall_mem_nil _⟩, List.forall_mem_nil _⟩
      · rintro ⟨⟨htag, -⟩, -⟩
        exact ⟨htag, fun h => absurd h hheader, fun h => absurd h hpalette, fun _ h => absurd h hroom⟩
  · rw [if_neg himage, if_neg fun h => himage h.2.1]
    constructor
    · exact fun h => ⟨⟨h.tag, List.forall_mem_nil _⟩, List.forall_mem_nil _⟩
    · rintro ⟨⟨htag, -⟩, -⟩
      exact ⟨htag, fun h => absurd h hheader, fun h => absurd h hpalette, fun h => absurd h himage⟩

/-! ## The whole loop -/

theorem chunkNext_eq_none (h : ∀ p st', pngChunk data pos st ≠ .next p st') :
    chunkNext data pos = none := by
  apply Option.eq_none_iff_forall_ne_some.mpr
  intro p hp
  obtain ⟨st', hst'⟩ := (@chunkNext_iff data pos st p).mpr hp
  exact h p st' hst'

/-- The loop has ended after some rounds exactly if the walk over the positions has. -/
theorem pngChunks_isSome_iff (fuel : ℕ) : ∀ {pos : ℕ} {st : PngInfo},
    (∃ r, pngChunks data fuel pos st = some r) ↔ Walk.place (chunkNext data) pos fuel = none := by
  induction fuel with
  | zero =>
    intro pos st
    constructor
    · rintro ⟨r, hr⟩
      cases hr
    · intro h
      cases h
  | succ fuel ih =>
    intro pos st
    rw [pngChunks, Walk.place_succ]
    cases hchunk : pngChunk data pos st with
    | reject =>
      rw [@chunkNext_eq_none data pos st fun p st' h => by rw [hchunk] at h; cases h]
      exact ⟨fun _ => rfl, fun _ => ⟨_, rfl⟩⟩
    | stop st' =>
      rw [@chunkNext_eq_none data pos st fun p st' h => by rw [hchunk] at h; cases h]
      exact ⟨fun _ => rfl, fun _ => ⟨_, rfl⟩⟩
    | next p st' =>
      rw [chunkNext_iff.mp ⟨st', hchunk⟩, Option.bind_some]
      exact ih

/-- Positions are 32-bit numbers. -/
theorem place_lt {n p : ℕ} (h : Walk.place (chunkNext data) 8 n = some p) : p < 2 ^ 32 := by
  cases n with
  | zero =>
    obtain rfl : 8 = p := Option.some.inj h
    norm_num
  | succ n =>
    obtain ⟨q, -, hq⟩ := Option.bind_eq_some_iff.mp h
    unfold chunkNext at hq
    split_ifs at hq
    obtain rfl := Option.some.inj hq
    exact Nat.mod_lt _ (by norm_num)

/-- **When the walk over the chunks is bounded**: exactly when it comes to no position twice and every
chunk it comes to is safe. -/
theorem walkBounded_iff (data : List UInt8) : WalkBounded data ↔
    ¬ Walk.Recurs (chunkNext data) 8 ∧ ∀ s, ChunkReached data s → ChunkSafe data s.1 s.2 := by
  have hends : (∃ fuel r, pngChunks data fuel 8 .init = some r) ↔ ¬ Walk.Recurs (chunkNext data) 8 := by
    rw [← Walk.ends_iff (Set.finite_lt_nat (2 ^ 32)) fun n p => place_lt]
    exact exists_congr fun fuel => pngChunks_isSome_iff fuel
  constructor
  · rintro ⟨hfuel, hreads, hwrites⟩
    refine ⟨hends.mp hfuel, ?_⟩
    intro s hs
    exact chunkSafe_iff.mpr ⟨hreads s hs, hwrites s hs⟩
  · rintro ⟨hrecurs, hsafe⟩
    refine ⟨hends.mpr hrecurs, ?_, ?_⟩
    · intro s hs
      exact (chunkSafe_iff.mp (hsafe s hs)).1
    · intro s hs
      exact (chunkSafe_iff.mp (hsafe s hs)).2

/-- A file whose only chunk is as long as to lead back to itself. -/
def endlessPng : List UInt8 :=
  pngSig ++ [0xFF, 0xFF, 0xFF, 0xF4, 0x74, 0x45, 0x58, 0x74, 0, 0, 0, 0]

/-- The loop does not end. -/
theorem not_walkBounded_endlessPng : ¬ ∀ data, WalkBounded data := by
  intro hall
  have hnext : chunkNext endlessPng 8 = some 8 := by decide
  apply ((walkBounded_iff endlessPng).mp (hall endlessPng)).1
  refine ⟨0, 1, 8, by norm_num, rfl, ?_⟩
  rw [Walk.place_succ, hnext]
  rfl

end Microkernel
