/-
# The PNG loader and its buffers

`image_load_png` on one file with two contents of its buffers.  What controls the decoder are the bits
of the file, so two decoders go together; when no back-reference goes before the output, the bytes that
are written are the same, and so are the rows and the pixels.
-/
import Microkernel.InflateCopies
import Microkernel.PngDecode

namespace Microkernel

/-! ## Two decoders -/

/-- Two decoders at one place of a stream, with the same output so far. -/
structure Agrees (s s' : Inflater) : Prop where
  bits : s.bits = s'.bits
  opos : s.opos = s'.opos
  out : ∀ i : ℕ, i < s.opos → s.out i = s'.out i

/-- Two results: the same value, which is the length unless it is an error, and the same output. -/
structure SameRun (r r' : ℤ × Inflater) : Prop where
  value : r.1 = r'.1
  agrees : Agrees r.2 r'.2
  length : r.1 = -1 ∨ r.1 = r.2.opos

variable {lt dt : HTree} {omax : ℤ} {s s' : Inflater}

theorem Agrees.setBits (h : Agrees s s') (b : Bits) :
    Agrees { s with bits := b } { s' with bits := b } := ⟨rfl, h.opos, h.out⟩

theorem Agrees.put (h : Agrees s s') (v : UInt8) : Agrees (s.put omax v) (s'.put omax v) := by
  unfold Inflater.put
  rw [← h.opos]
  split_ifs
  · refine ⟨h.bits, rfl, ?_⟩
    intro i hi
    dsimp only at hi ⊢
    split_ifs with heq
    · rfl
    · exact h.out i (by omega)
  · exact h

/-- Without room nothing is put. -/
theorem Inflater.put_full (hroom : ¬ (s.opos : ℤ) < omax) (v : UInt8) : s.put omax v = s := if_neg hroom

/-- A copy from inside the output. -/
theorem Agrees.copy (h : Agrees s s') {distance length : ℕ}
    (hreads : ReadsInside (copyReads omax distance length s)) :
    Agrees (Inflater.copy omax distance length s) (Inflater.copy omax distance length s') := by
  induction length generalizing s s' with
  | zero => exact h
  | succ length ih =>
    rw [Inflater.copy, Inflater.copy]
    by_cases hroom : (s.opos : ℤ) < omax
    · rw [copyReads, if_pos hroom] at hreads
      obtain ⟨hfirst, hrest⟩ := List.forall_mem_cons.mp hreads
      obtain ⟨j, hj⟩ := Int.eq_ofNat_of_zero_le hfirst.1
      have hlt := hfirst.2
      dsimp only at hj hlt
      -- the byte is one that both have written
      have hbyte : s.out ((s.opos : ℤ) - distance) = s'.out ((s'.opos : ℤ) - distance) := by
        rw [← h.opos, hj]
        exact h.out j (by omega)
      rw [← hbyte]
      exact ih (h.put _) hrest
    · have hnone : copyReads omax distance length s = [] := by
        cases length with
        | zero => rfl
        | succ length => exact if_neg hroom
      have hroom' : ¬ (s'.opos : ℤ) < omax := h.opos ▸ hroom
      rw [Inflater.put_full hroom, Inflater.put_full hroom']
      refine ih h ?_
      rw [hnone]
      exact readsInside_nil

/-- **One block with codes**, by induction on its symbols. -/
theorem decodeBlock_agrees (fuel : ℕ) (h : Agrees s s')
    (hreads : ReadsInside (blockReads lt dt omax fuel s)) :
    Option.Rel SameRun (decodeBlock lt dt omax fuel s) (decodeBlock lt dt omax fuel s') := by
  induction fuel generalizing s s' with
  | zero => exact .none
  | succ fuel ih =>
    rw [blockReads, readsInside_append, symbolReads] at hreads
    obtain ⟨hfirst, hrest⟩ := hreads
    rw [decodeBlock, decodeBlock]
    rw [decodeSymbol_eq] at hrest ⊢
    rw [decodeSymbol_eq, ← h.bits]
    cases hsym : readSymbol lt dt s.bits with
    | mk sym b =>
      rw [hsym] at hfirst hrest
      cases sym with
      | byte v => exact ih ((h.setBits b).put v) hrest
      | stop => exact .some ⟨congrArg Nat.cast h.opos, h.setBits b, Or.inr rfl⟩
      | pair p => exact ih ((h.setBits b).copy hfirst) hrest
      | damaged => exact .some ⟨rfl, h.setBits b, Or.inl rfl⟩

theorem copyStored_agrees (len : ℕ) (h : Agrees s s') :
    Agrees (copyStored omax len s) (copyStored omax len s') := by
  induction len generalizing s s' with
  | zero => exact h
  | succ len ih =>
    rw [copyStored, copyStored, ← h.bits]
    by_cases hroom : (s.opos : ℤ) < omax
    · have hroom' : (s'.opos : ℤ) < omax := h.opos ▸ hroom
      rw [if_pos hroom, if_pos hroom']
      exact ih ((h.setBits _).put _)
    · have hroom' : ¬ (s'.opos : ℤ) < omax := h.opos ▸ hroom
      rw [if_neg hroom, if_neg hroom']
      exact h

theorem storedBlock_agrees (h : Agrees s s') :
    Option.Rel Agrees (storedBlock omax s) (storedBlock omax s') := by
  unfold storedBlock
  rw [← h.bits]
  dsimp only
  split_ifs
  · exact .none
  · exact .some (copyStored_agrees _ (h.setBits _))

theorem SameRun.after {r r' : ℤ × Inflater} (h : SameRun r r') (bfinal : ℕ) :
    Sum.LiftRel Agrees SameRun (afterBlock bfinal r) (afterBlock bfinal r') := by
  unfold afterBlock
  rw [← h.value]
  split_ifs
  · exact .inr ⟨rfl, h.agrees, Or.inl rfl⟩
  · exact .inl h.agrees
  · exact .inr ⟨congrArg Nat.cast h.agrees.opos, h.agrees, Or.inr rfl⟩

theorem map_afterBlock {r r' : Option (ℤ × Inflater)} (h : Option.Rel SameRun r r') (bfinal : ℕ) :
    Option.Rel (Sum.LiftRel Agrees SameRun) (r.map (afterBlock bfinal)) (r'.map (afterBlock bfinal)) := by
  cases h with
  | none => exact .none
  | some h => exact .some (h.after bfinal)

/-- **One block.** -/
theorem inflateBlock_agrees (fuel : ℕ) (h : Agrees s s') (hreads : ReadsInside (roundReads fuel omax s)) :
    Option.Rel (Sum.LiftRel Agrees SameRun) (inflateBlock fuel omax s) (inflateBlock fuel omax s') := by
  unfold roundReads at hreads
  unfold inflateBlock
  rw [← h.bits]
  dsimp only at hreads ⊢
  by_cases hstored : (bitsRead (bitsRead s.bits 1).2 2).1 = 0
  · rw [if_pos hstored, if_pos hstored]
    have hsame := @storedBlock_agrees omax _ _ (h.setBits (bitsRead (bitsRead s.bits 1).2 2).2)
    generalize storedBlock omax { s with bits := (bitsRead (bitsRead s.bits 1).2 2).2 } = r at hsame ⊢
    generalize storedBlock omax { s' with bits := (bitsRead (bitsRead s.bits 1).2 2).2 } = r' at hsame ⊢
    cases hsame with
    | none => exact .some (.inr ⟨rfl, h.setBits _, Or.inl rfl⟩)
    | some hs =>
      exact .some (SameRun.after ⟨congrArg Nat.cast hs.opos, hs, Or.inr rfl⟩ _)
  rw [if_neg hstored, if_neg hstored]
  by_cases hfixed : (bitsRead (bitsRead s.bits 1).2 2).1 = 1
  · rw [if_pos hfixed] at hreads
    rw [if_pos hfixed, if_pos hfixed]
    exact map_afterBlock (decodeBlock_agrees fuel (h.setBits _) hreads) _
  rw [if_neg hfixed] at hreads
  rw [if_neg hfixed, if_neg hfixed]
  by_cases hdynamic : (bitsRead (bitsRead s.bits 1).2 2).1 = 2
  · rw [if_pos hdynamic] at hreads
    rw [if_pos hdynamic, if_pos hdynamic]
    generalize readTrees (bitsRead (bitsRead s.bits 1).2 2).2 = trees at hreads ⊢
    obtain ⟨_ | ⟨lt, dt⟩, b⟩ := trees
    · exact .some (.inr ⟨rfl, h.setBits b, Or.inl rfl⟩)
    · exact map_afterBlock (decodeBlock_agrees fuel (h.setBits b) hreads) _
  · rw [if_neg hdynamic, if_neg hdynamic]
    exact .some (.inr ⟨rfl, h.setBits _, Or.inl rfl⟩)

/-- **The whole stream**, by induction on its blocks. -/
theorem inflateBlocks_agrees (inner fuel : ℕ) (h : Agrees s s')
    (hreads : ReadsInside (streamReads inner omax fuel s)) :
    Option.Rel SameRun (inflateBlocks inner omax fuel s) (inflateBlocks inner omax fuel s') := by
  induction fuel generalizing s s' with
  | zero => exact .none
  | succ fuel ih =>
    rw [streamReads, readsInside_append] at hreads
    obtain ⟨hfirst, hrest⟩ := hreads
    rw [inflateBlocks, inflateBlocks]
    have hblock := inflateBlock_agrees inner h hfirst
    generalize inflateBlock inner omax s = r at hblock hrest ⊢
    generalize inflateBlock inner omax s' = r' at hblock ⊢
    cases hblock with
    | none => exact .none
    | some hr =>
      cases hr with
      | inl hs => exact ih hs hrest
      | inr hrun => exact .some hrun

/-- **Decompressing** a stream without distances that go before the output. -/
theorem zlibDecompress_agrees {src : List UInt8} (hinside : DistancesInside (src.drop 2) omax)
    (fuel : ℕ) (out out' : ℤ → UInt8) :
    Option.Rel (fun r r' : ℤ × (ℤ → UInt8) => r.1 = r'.1 ∧ ∀ i : ℕ, (i : ℤ) < r.1 → r.2 i = r'.2 i)
      (zlibDecompress fuel src out omax) (zlibDecompress fuel src out' omax) := by
  unfold zlibDecompress deflateDecompress
  split_ifs
  · refine .some ⟨rfl, ?_⟩
    intro i hi
    dsimp only at hi
    omega
  · refine .some ⟨rfl, ?_⟩
    intro i hi
    dsimp only at hi
    omega
  · have hstart : Agrees ⟨bitsInit (src.drop 2), out, 0⟩ ⟨bitsInit (src.drop 2), out', 0⟩ :=
      ⟨rfl, rfl, fun i hi => absurd hi (Nat.not_lt_zero i)⟩
    have hreads := (copiesInside_iff (src.drop 2) out omax).mpr hinside fuel
    have hrun := inflateBlocks_agrees fuel fuel hstart hreads
    generalize inflateBlocks fuel omax fuel ⟨bitsInit (src.drop 2), out, 0⟩ = r at hrun ⊢
    generalize inflateBlocks fuel omax fuel ⟨bitsInit (src.drop 2), out', 0⟩ = r' at hrun ⊢
    cases hrun with
    | none => exact .none
    | some hr =>
      refine .some ⟨hr.value, ?_⟩
      intro i hi
      dsimp only at hi
      rcases hr.length with hlen | hlen
      · omega
      · exact hr.agrees.out i (by omega)

/-! ## Rows -/

variable {m m' : ImageMem} {st : PngInfo} {bpp stride raw n w y : ℕ}

/-- The bytes of a row are rebuilt from the filtered bytes and the row above. -/
theorem unfilterRow_agrees (filter : UInt8) (hbpp : 0 < bpp)
    (hraw : ∀ i < n, m.inflateOut (raw + i : ℕ) = m'.inflateOut (raw + i : ℕ))
    (hprev : ∀ i < n, m.prevBuf i = m'.prevBuf i) :
    ∀ i < n, (unfilterRow filter bpp raw n m).rowBuf i = (unfilterRow filter bpp raw n m').rowBuf i := by
  induction n with
  | zero =>
    intro i hi
    exact absurd hi (Nat.not_lt_zero i)
  | succ n ih =>
    have ih := ih (fun i hi => hraw i (by omega)) (fun i hi => hprev i (by omega))
    obtain ⟨hout, hprev', -⟩ := unfilterRow_frame filter bpp raw n m
    obtain ⟨hout', hprev'', -⟩ := unfilterRow_frame filter bpp raw n m'
    have hleft : (if bpp ≤ n then (unfilterRow filter bpp raw n m).rowBuf (n - bpp) else 0) =
        if bpp ≤ n then (unfilterRow filter bpp raw n m').rowBuf (n - bpp) else 0 := by
      split_ifs with hle
      · exact ih _ (by omega)
      · rfl
    have hcorner : (if bpp ≤ n then m.prevBuf (n - bpp) else 0) =
        if bpp ≤ n then m'.prevBuf (n - bpp) else 0 := by
      split_ifs with hle
      · exact hprev _ (by omega)
      · rfl
    intro i hi
    simp only [unfilterRow, Memory.store8, hleft, hout, hout', hprev', hprev'', hcorner,
      hprev n (by omega), hraw n (by omega)]
    by_cases heq : i = n
    · rw [if_pos heq, if_pos heq]
    · rw [if_neg heq, if_neg heq]
      exact ih i (by omega)

/-- A pixel is made of bytes of its row. -/
theorem pngPixel_congr {cur cur' : Memory} {x : ℕ} (hbpp : pngBpp st.ctype = some bpp) (hx : x < w)
    (hcur : ∀ i < w * bpp, cur i = cur' i) : pngPixel st cur x = pngPixel st cur' x := by
  unfold pngBpp at hbpp
  split_ifs at hbpp with h₀ h₂ h₃ h₄ h₆ <;> obtain rfl := Option.some.inj hbpp
  · simp [pngPixel, h₀, hcur x (by omega)]
  · simp [pngPixel, h₂, hcur (x * 3) (by omega), hcur (x * 3 + 1) (by omega),
      hcur (x * 3 + 2) (by omega)]
  · simp [pngPixel, h₃, hcur x (by omega)]
  · simp [pngPixel, h₄, hcur (x * 2) (by omega)]
  · simp [pngPixel, h₆, hcur (x * 4) (by omega), hcur (x * 4 + 1) (by omega),
      hcur (x * 4 + 2) (by omega)]

theorem pngBpp_pos {ctype : ℕ} (hbpp : pngBpp ctype = some bpp) : 0 < bpp := by
  unfold pngBpp at hbpp
  split_ifs at hbpp <;> obtain rfl := Option.some.inj hbpp <;> decide

/-- The buffers before a row: the decompressed rows, the row above and the pixels above are the same. -/
structure RowsAgree (raw stride done : ℕ) (m m' : ImageMem) : Prop where
  inflateOut : ∀ i < raw, m.inflateOut (i : ℕ) = m'.inflateOut (i : ℕ)
  prevBuf : ∀ i < stride, m.prevBuf i = m'.prevBuf i
  pixels : ∀ i < done, m.pixels i = m'.pixels i

/-- **One row.** -/
theorem pngRow_agrees (hbpp : pngBpp st.ctype = some bpp) (hraw : (y + 1) * (1 + w * bpp) ≤ raw)
    (h : RowsAgree raw (w * bpp) (y * w) m m') :
    RowsAgree raw (w * bpp) ((y + 1) * w) (pngRow st w bpp y m) (pngRow st w bpp y m') := by
  rw [Nat.succ_mul] at hraw
  have hfilter : m.inflateOut (y * (1 + w * bpp) : ℕ) = m'.inflateOut (y * (1 + w * bpp) : ℕ) :=
    h.inflateOut _ (by omega)
  have hrow := @unfilterRow_agrees m m' bpp (y * (1 + w * bpp) + 1) (w * bpp)
    (m'.inflateOut (y * (1 + w * bpp) : ℕ)) (pngBpp_pos hbpp) (fun i hi => h.inflateOut _ (by omega))
    h.prevBuf
  unfold pngRow
  dsimp only
  rw [hfilter]
  obtain ⟨hout, -, hpixels⟩ := unfilterRow_frame (m'.inflateOut (y * (1 + w * bpp) : ℕ)) bpp
    (y * (1 + w * bpp) + 1) (w * bpp) m
  obtain ⟨hout', -, hpixels'⟩ := unfilterRow_frame (m'.inflateOut (y * (1 + w * bpp) : ℕ)) bpp
    (y * (1 + w * bpp) + 1) (w * bpp) m'
  generalize unfilterRow (m'.inflateOut (y * (1 + w * bpp) : ℕ)) bpp (y * (1 + w * bpp) + 1)
    (w * bpp) m = u at hrow hout hpixels ⊢
  generalize unfilterRow (m'.inflateOut (y * (1 + w * bpp) : ℕ)) bpp (y * (1 + w * bpp) + 1)
    (w * bpp) m' = u' at hrow hout' hpixels' ⊢
  obtain ⟨hpout, hprow, -⟩ := pngPixels_frame st (y * w) w u
  obtain ⟨hpout', hprow', -⟩ := pngPixels_frame st (y * w) w u'
  refine ⟨?_, ?_, ?_⟩
  · intro i hi
    dsimp only
    rw [hpout, hout, hpout', hout']
    exact h.inflateOut i hi
  · intro i hi
    dsimp only
    rw [if_pos hi, if_pos hi, hprow, hprow']
    exact hrow i hi
  · intro i hi
    dsimp only
    rw [pngPixels_pixels, pngPixels_pixels, hpixels, hpixels']
    rw [Nat.succ_mul] at hi
    split_ifs with hin
    · exact pngPixel_congr hbpp (by omega) hrow
    · exact h.pixels i (by omega)

/-- **All rows**, by induction on their number. -/
theorem pngRows_agrees (hbpp : pngBpp st.ctype = some bpp) (hraw : n * (1 + w * bpp) ≤ raw)
    (h : RowsAgree raw (w * bpp) 0 m m') :
    RowsAgree raw (w * bpp) (n * w) (pngRows st w bpp n m) (pngRows st w bpp n m') := by
  induction n with
  | zero =>
    rw [Nat.zero_mul]
    exact h
  | succ n ih =>
    have hprefix : n * (1 + w * bpp) ≤ raw := le_trans (Nat.mul_le_mul_right _ (Nat.le_succ n)) hraw
    exact pngRow_agrees hbpp hraw (ih hprefix)

/-! ## The loader -/

/-- Two results of a loader: the same value, and for an image the same size and pixels. -/
structure SamePicture (r r' : Bool × Image × ImageMem) : Prop where
  value : r.1 = r'.1
  size : r.1 = true → r.2.1 = r'.2.1 ∧ r.2.1.valid = true
  pixels : r.1 = true → ∀ i : ℕ, (i : ℤ) < r.2.1.width * r.2.1.height →
    r.2.2.pixels i = r'.2.2.pixels i

theorem SamePicture.of_false {img img' : Image} : SamePicture (false, img, m) (false, img', m') :=
  ⟨rfl, fun h => Bool.noConfusion h, fun h => Bool.noConfusion h⟩

/-- **What follows the walk** does not depend on the buffers. -/
theorem pngFinish_agrees (fuel : ℕ) (img img' : Image)
    (hinside : DistancesInside (st.idat.drop 2) inflateMax) (hsize : 0 ≤ st.w ∧ 0 ≤ st.h) :
    Option.Rel SamePicture (pngFinish fuel st img m) (pngFinish fuel st img' m') := by
  unfold pngFinish
  by_cases hmissing : st.gotIhdr = false ∨ st.idat.length = 0
  · rw [if_pos hmissing, if_pos hmissing]
    exact .some .of_false
  rw [if_neg hmissing, if_neg hmissing]
  cases hbpp : pngBpp st.ctype with
  | none => exact .some .of_false
  | some bpp =>
    dsimp only
    by_cases hlarge : (inflateMax : ℤ) < st.h * (1 + st.w * bpp)
    · rw [if_pos hlarge, if_pos hlarge]
      exact .some .of_false
    rw [if_neg hlarge, if_neg hlarge]
    have hzlib := zlibDecompress_agrees hinside fuel m.inflateOut m'.inflateOut
    generalize zlibDecompress fuel st.idat m.inflateOut inflateMax = r at hzlib ⊢
    generalize zlibDecompress fuel st.idat m'.inflateOut inflateMax = r' at hzlib ⊢
    cases hzlib with
    | none => exact .none
    | @some a b hr =>
      obtain ⟨dlen, out⟩ := a
      obtain ⟨dlen', out'⟩ := b
      obtain ⟨hlen, hout⟩ := hr
      dsimp only at hlen hout ⊢
      subst hlen
      by_cases herror : dlen < 0
      · rw [if_pos herror, if_pos herror]
        exact .some .of_false
      rw [if_neg herror, if_neg herror]
      by_cases hshort : dlen < st.h * (1 + st.w * bpp)
      · rw [if_pos hshort, if_pos hshort]
        exact .some .of_false
      rw [if_neg hshort, if_neg hshort]
      have hraw : (st.h.toNat * (1 + st.w.toNat * bpp) : ℕ) = st.h * (1 + st.w * bpp) := by
        rw [Nat.cast_mul, Nat.cast_add, Nat.cast_mul, Int.toNat_of_nonneg hsize.1,
          Int.toNat_of_nonneg hsize.2]
        rfl
      refine .some ⟨rfl, fun _ => ⟨rfl, rfl⟩, ?_⟩
      intro _ i hi
      refine (pngRows_agrees hbpp le_rfl ⟨?_, ?_, ?_⟩).pixels i ?_
      · intro i hi
        exact hout i (by omega)
      · intro i hi
        dsimp only
        rw [if_pos hi, if_pos hi]
      · intro i hi
        exact absurd hi (Nat.not_lt_zero i)
      · dsimp only at hi
        zify
        rw [Int.toNat_of_nonneg hsize.1, Int.toNat_of_nonneg hsize.2, mul_comm]
        exact hi

/-- A header that is accepted has no negative size. -/
theorem pngHeader_size {cdata : List UInt8} {st' : PngInfo} (h : pngHeader cdata st = some st') :
    0 ≤ st'.w ∧ 0 ≤ st'.h := by
  unfold pngHeader at h
  dsimp only at h
  split_ifs at h with _ _ hbounds
  obtain rfl := Option.some.inj h
  dsimp only
  omega

theorem pngPalette_size (cdata : List UInt8) (clen : ℕ) (st : PngInfo) :
    (pngPalette cdata clen st).w = st.w ∧ (pngPalette cdata clen st).h = st.h := ⟨rfl, rfl⟩

theorem pngData_size (cdata : List UInt8) (clen : ℕ) (st : PngInfo) :
    (pngData cdata clen st).w = st.w ∧ (pngData cdata clen st).h = st.h := by
  unfold pngData
  split_ifs <;> exact ⟨rfl, rfl⟩

theorem pngChunk_stop {data : List UInt8} {pos : ℕ} {st' : PngInfo}
    (h : pngChunk data pos st = .stop st') : st' = st := by
  unfold pngChunk at h
  dsimp only at h
  split_ifs at h
  · exact (ChunkOutcome.stop.inj h).symm
  · exact (ChunkOutcome.stop.inj h).symm
  · cases hhdr : pngHeader (data.drop (pos + 8)) st <;> rw [hhdr] at h <;> cases h
  · exact (ChunkOutcome.stop.inj h).symm

theorem pngChunk_next_size {data : List UInt8} {pos p : ℕ} {st' : PngInfo} (hst : 0 ≤ st.w ∧ 0 ≤ st.h)
    (h : pngChunk data pos st = .next p st') : 0 ≤ st'.w ∧ 0 ≤ st'.h := by
  unfold pngChunk at h
  dsimp only at h
  split_ifs at h
  · cases hhdr : pngHeader (data.drop (pos + 8)) st with
    | none =>
      rw [hhdr] at h
      cases h
    | some st₂ =>
      rw [hhdr] at h
      rw [← (ChunkOutcome.next.inj h).2]
      exact pngHeader_size hhdr
  · rw [← (ChunkOutcome.next.inj h).2, (pngPalette_size _ _ _).1, (pngPalette_size _ _ _).2]
    exact hst
  · rw [← (ChunkOutcome.next.inj h).2, (pngData_size _ _ _).1, (pngData_size _ _ _).2]
    exact hst
  · rw [← (ChunkOutcome.next.inj h).2]
    exact hst

/-- The walk over the chunks leaves no negative size. -/
theorem pngChunks_size {data : List UInt8} {fuel pos : ℕ} {st' : PngInfo} (hst : 0 ≤ st.w ∧ 0 ≤ st.h)
    (h : pngChunks data fuel pos st = some (some st')) : 0 ≤ st'.w ∧ 0 ≤ st'.h := by
  induction fuel generalizing pos st with
  | zero => cases h
  | succ fuel ih =>
    rw [pngChunks] at h
    cases hchunk : pngChunk data pos st with
    | reject =>
      rw [hchunk] at h
      cases h
    | stop st₁ =>
      rw [hchunk] at h
      rw [← Option.some.inj (Option.some.inj h), pngChunk_stop hchunk]
      exact hst
    | next p st₁ =>
      rw [hchunk] at h
      exact ih (pngChunk_next_size hst hchunk) h

theorem pngChunks_mono {data : List UInt8} {fuel fuel' pos : ℕ} {r : Option PngInfo} (hle : fuel ≤ fuel')
    (h : pngChunks data fuel pos st = some r) : pngChunks data fuel' pos st = some r := by
  induction fuel generalizing pos st fuel' with
  | zero => cases h
  | succ fuel ih =>
    obtain ⟨fuel', rfl⟩ : ∃ f, fuel' = f + 1 := ⟨fuel' - 1, by omega⟩
    rw [pngChunks] at h ⊢
    generalize pngChunk data pos st = c at h ⊢
    cases c with
    | reject => exact h
    | stop st' => exact h
    | next pos st' => exact ih (by omega) h

theorem zlibDecompress_mono {fuel fuel' : ℕ} {src : List UInt8} {out : ℤ → UInt8}
    {r : ℤ × (ℤ → UInt8)} (hle : fuel ≤ fuel') (h : zlibDecompress fuel src out omax = some r) :
    zlibDecompress fuel' src out omax = some r := by
  unfold zlibDecompress at h ⊢
  split_ifs at h ⊢
  · exact h
  · exact h
  · unfold deflateDecompress at h ⊢
    obtain ⟨r', hr', h⟩ := Option.map_eq_some_iff.mp h
    rw [inflateBlocks_mono hle hle hr', Option.map_some, h]

/-- **More rounds do not change the result.** -/
theorem imageLoadPng_mono {data : List UInt8} {fuel fuel' : ℕ} {img : Image} {r : Bool × Image × ImageMem}
    (hle : fuel ≤ fuel') (h : imageLoadPng fuel data img m = some r) :
    imageLoadPng fuel' data img m = some r := by
  unfold imageLoadPng at h ⊢
  split_ifs at h ⊢
  · exact h
  · cases hwalk : pngChunks data fuel 8 .init with
    | none =>
      rw [hwalk] at h
      cases h
    | some st =>
      rw [hwalk] at h
      rw [pngChunks_mono hle hwalk]
      cases st with
      | none => exact h
      | some st =>
        unfold pngFinish at h ⊢
        dsimp only at h ⊢
        split_ifs at h ⊢
        · exact h
        · cases hbpp : pngBpp st.ctype with
          | none =>
            rw [hbpp] at h
            exact h
          | some bpp =>
            rw [hbpp] at h
            dsimp only at h ⊢
            split_ifs at h ⊢
            · exact h
            · cases hzlib : zlibDecompress fuel st.idat m.inflateOut inflateMax with
              | none =>
                rw [hzlib] at h
                cases h
              | some r' =>
                rw [hzlib] at h
                rw [zlibDecompress_mono hle hzlib]
                exact h

/-- The compressed data of a file has no distance that goes before the output. -/
def PngInside (data : List UInt8) : Prop :=
  ∀ fuel st, pngChunks data fuel 8 .init = some (some st) → DistancesInside (st.idat.drop 2) inflateMax

/-- **`image_load_png`** on one file with two contents of its buffers. -/
theorem imageLoadPng_agrees {data : List UInt8} (h : PngInside data) (fuel : ℕ) (img img' : Image) :
    Option.Rel SamePicture (imageLoadPng fuel data img m) (imageLoadPng fuel data img' m') := by
  unfold imageLoadPng
  split_ifs
  · exact .some .of_false
  · cases hwalk : pngChunks data fuel 8 .init with
    | none => exact .none
    | some st =>
      cases st with
      | none => exact .some .of_false
      | some st =>
        exact pngFinish_agrees fuel img img' (h fuel st hwalk) (pngChunks_size ⟨le_rfl, le_rfl⟩ hwalk)

end Microkernel
