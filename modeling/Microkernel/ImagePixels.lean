/-
# What the BMP and TGA loaders write

Each loop of the two loaders as a function on the array of pixels: which pixels of the file it
stores, and where, when what it reads is in the file.  The pixels of a run-length coded file come one
after the other, and `paint` puts a list of them in their places.
-/
import Microkernel.ImageLoad

namespace Microkernel

variable {data : List UInt8} {p i n v : ℕ} {pixels : ℕ → ℕ}

/-! ## Reads and stores -/

theorem byteAt_of_lt (h : u32 i < data.length) : byteAt data i = .ok (data.getD (u32 i) 0) := by
  unfold byteAt
  rw [List.getElem?_eq_getElem h, List.getD_eq_getElem _ _ h]

theorem byteAt_of_le (h : data.length ≤ u32 i) : byteAt data i = .error .read := by
  unfold byteAt
  rw [List.getElem?_eq_none h]

/-- The three bytes of a pixel are in the file. -/
def PixelInside (data : List UInt8) (p : ℕ) : Prop := ∀ k < 3, u32 (p + k) < data.length

/-- The pixel, when its bytes are in the file. -/
def pixelValue (data : List UInt8) (p : ℕ) : ℕ :=
  rgb (data.getD (u32 (p + 2)) 0) (data.getD (u32 (p + 1)) 0) (data.getD (u32 p) 0)

theorem pixelAt_of_inside (h : PixelInside data p) : pixelAt data p = .ok (pixelValue data p) := by
  have hfirst : u32 p < data.length := h 0 (by omega)
  unfold pixelAt pixelValue
  rw [byteAt_of_lt (h 2 (by omega)), byteAt_of_lt (h 1 (by omega)), byteAt_of_lt hfirst]
  rfl

theorem pixelAt_of_outside (h : ¬ PixelInside data p) : pixelAt data p = .error .read := by
  unfold pixelAt
  by_cases h₂ : u32 (p + 2) < data.length
  · rw [byteAt_of_lt h₂, Access.ok_bind]
    by_cases h₁ : u32 (p + 1) < data.length
    · have h₀ : data.length ≤ u32 p := by
        by_contra h₀
        apply h
        intro k hk
        interval_cases k
        · exact Nat.lt_of_not_le h₀
        · exact h₁
        · exact h₂
      rw [byteAt_of_lt h₁, Access.ok_bind, byteAt_of_le h₀]
      rfl
    · rw [byteAt_of_le (Nat.le_of_not_lt h₁)]
      rfl
  · rw [byteAt_of_le (Nat.le_of_not_lt h₂)]
    rfl

/-- Bytes before the end of a file are read without a wrap. -/
theorem pixelInside_of_le (hsize : data.length < 2 ^ 32) (h : p + 3 ≤ data.length) :
    PixelInside data p := by
  intro k hk
  unfold u32
  rw [Nat.mod_eq_of_lt (by omega)]
  omega

theorem storePixel_of_lt (h : i < imgMaxW * imgMaxH) :
    storePixel pixels (i : ℤ) v = .ok (Function.update pixels i v) := by
  unfold storePixel
  rw [if_pos ⟨Int.natCast_nonneg i, Int.ofNat_lt.mpr h⟩, Int.toNat_natCast]

/-- One more pixel of a range. -/
theorem update_range {f : ℕ → ℕ} {base : ℕ} :
    Function.update (fun i => if base ≤ i ∧ i < base + n then f i else pixels i) (base + n) (f (base + n)) =
      fun i => if base ≤ i ∧ i < base + (n + 1) then f i else pixels i := by
  funext i
  by_cases hi : i = base + n
  · rw [hi, Function.update_self, if_pos (by omega)]
  · rw [Function.update_of_ne hi]
    by_cases hin : base ≤ i ∧ i < base + n
    · rw [if_pos hin, if_pos (by omega)]
    · rw [if_neg hin, if_neg (by omega)]

/-! ## The rows of a BMP file -/

variable {hd : BmpHeader} {row base b y k : ℕ}

theorem bmpRow_eq (hread : ∀ x < n, PixelInside data (row + x * b))
    (hroom : base + n ≤ imgMaxW * imgMaxH) : bmpRow data b row base n pixels = .ok fun i =>
      if base ≤ i ∧ i < base + n then pixelValue data (row + (i - base) * b) else pixels i := by
  induction n with
  | zero =>
    rw [bmpRow]
    congr 1
    funext i
    rw [if_neg (by omega)]
  | succ n ih =>
    rw [bmpRow, ih (fun x hx => hread x (by omega)) (by omega), Access.ok_bind,
      pixelAt_of_inside (hread n (by omega)), Access.ok_bind, storePixel_of_lt (by omega)]
    have hupdate := @update_range n pixels (fun i => pixelValue data (row + (i - base) * b)) base
    rw [Nat.add_sub_cancel_left] at hupdate
    rw [hupdate]

/-- A row of which a pixel is not in the file. -/
theorem bmpRow_outside (hread : ∃ x < n, ¬ PixelInside data (row + x * b))
    (hroom : base + n ≤ imgMaxW * imgMaxH) : bmpRow data b row base n pixels = .error .read := by
  induction n with
  | zero =>
    obtain ⟨x, hx, -⟩ := hread
    omega
  | succ n ih =>
    rw [bmpRow]
    by_cases hearlier : ∃ x < n, ¬ PixelInside data (row + x * b)
    · rw [ih hearlier (by omega)]
      rfl
    · have hbefore : ∀ x < n, PixelInside data (row + x * b) := by
        intro x hx
        by_contra hout
        exact hearlier ⟨x, hx, hout⟩
      obtain ⟨x, hx, hout⟩ := hread
      obtain rfl : x = n := by
        by_contra hne
        exact hout (hbefore x (by omega))
      rw [bmpRow_eq hbefore (by omega), Access.ok_bind, pixelAt_of_outside hout]
      rfl

namespace BmpHeader

/-- How many of the rows from `y` on are read. -/
def rowsRead (hd : BmpHeader) (size : ℕ) : ℕ → ℕ → ℕ
  | 0, _ => 0
  | k + 1, y => if hd.RowFits size y then hd.rowsRead size k (y + 1) + 1 else 0

theorem succ_add_row (y i : ℕ) : y + 1 + i = y + (i + 1) := by omega

/-- A row is read when it and all before it pass the test. -/
theorem lt_rowsRead_iff {size j : ℕ} :
    j < hd.rowsRead size k y ↔ j < k ∧ ∀ i ≤ j, hd.RowFits size (y + i) := by
  induction k generalizing y j with
  | zero => simp [rowsRead]
  | succ k ih =>
    rw [rowsRead]
    split_ifs with hfits
    · cases j with
      | zero =>
        refine ⟨fun _ => ⟨Nat.succ_pos k, ?_⟩, fun _ => Nat.succ_pos _⟩
        intro i hi
        rw [Nat.le_zero.mp hi]
        exact hfits
      | succ j =>
        rw [Nat.add_lt_add_iff_right, ih, Nat.add_lt_add_iff_right]
        refine and_congr_right' ⟨?_, ?_⟩
        · intro h i hi
          cases i with
          | zero => exact hfits
          | succ i =>
            rw [← succ_add_row]
            exact h i (by omega)
        · intro h i hi
          rw [succ_add_row]
          exact h (i + 1) (by omega)
    · refine ⟨fun h => absurd h (Nat.not_lt_zero j), ?_⟩
      rintro ⟨-, h⟩
      exact absurd (h 0 (Nat.zero_le j)) hfits

theorem rowsRead_le {size : ℕ} : hd.rowsRead size k y ≤ k := by
  by_contra hlt
  have h := (lt_rowsRead_iff.mp (Nat.lt_of_not_le hlt)).1
  exact lt_irrefl k h

end BmpHeader

theorem bmpRows_eq
    (hread : ∀ j < hd.rowsRead data.length k y, ∀ x < hd.width,
      PixelInside data (hd.rowAt (y + j) + x * hd.bytesPp))
    (hroom : (y + k) * hd.width ≤ imgMaxW * imgMaxH) : bmpRows data hd k y pixels = .ok fun i =>
      if y * hd.width ≤ i ∧ i < (y + hd.rowsRead data.length k y) * hd.width then
        pixelValue data (hd.rowAt (i / hd.width) + i % hd.width * hd.bytesPp)
      else pixels i := by
  induction k generalizing y pixels with
  | zero =>
    rw [bmpRows, BmpHeader.rowsRead]
    congr 1
    funext i
    rw [Nat.add_zero, if_neg (by omega)]
  | succ k ih =>
    rw [bmpRows]
    rw [BmpHeader.rowsRead] at hread ⊢
    split_ifs at hread ⊢ with hfits
    · have hrow : y * hd.width + hd.width ≤ imgMaxW * imgMaxH := by
        refine le_trans ?_ hroom
        rw [← Nat.succ_mul]
        exact Nat.mul_le_mul_right _ (by omega)
      have hfirst : ∀ x < hd.width, PixelInside data (hd.rowAt y + x * hd.bytesPp) :=
        hread 0 (Nat.succ_pos _)
      rw [bmpRow_eq hfirst hrow, Access.ok_bind, ih]
      · congr 1
        funext i
        -- the rows behind the first one, the first one, and the rest
        have hsplit : (y + (hd.rowsRead data.length k (y + 1) + 1)) * hd.width =
            (y + 1 + hd.rowsRead data.length k (y + 1)) * hd.width := by
          congr 1
          omega
        have hfirst : (y + 1) * hd.width = y * hd.width + hd.width := Nat.succ_mul _ _
        have hle : (y + 1) * hd.width ≤ (y + 1 + hd.rowsRead data.length k (y + 1)) * hd.width :=
          Nat.mul_le_mul_right _ (by omega)
        rw [hsplit]
        by_cases hlater : (y + 1) * hd.width ≤ i
        · by_cases hin : i < (y + 1 + hd.rowsRead data.length k (y + 1)) * hd.width
          · rw [if_pos ⟨hlater, hin⟩, if_pos ⟨by omega, hin⟩]
          · rw [if_neg (by omega), if_neg (by omega), if_neg (by omega)]
        · rw [if_neg fun h => hlater h.1]
          by_cases hin : y * hd.width ≤ i
          · rw [if_pos ⟨hin, by omega⟩, if_pos ⟨hin, by omega⟩]
            have hdiv : i / hd.width = y := Nat.div_eq_of_lt_le hin (by omega)
            have hmod : i % hd.width = i - y * hd.width := by
              rw [Nat.mod_eq_sub, hdiv, Nat.mul_comm]
            rw [hdiv, hmod]
          · rw [if_neg fun h => hin h.1, if_neg fun h => hin h.1]
      · intro j hj x hx
        rw [BmpHeader.succ_add_row]
        exact hread (j + 1) (by omega) x hx
      · rwa [BmpHeader.succ_add_row]
    · congr 1
      funext i
      rw [Nat.add_zero, if_neg (by omega)]

/-- Rows of which a pixel is not in the file. -/
theorem bmpRows_outside
    (hread : ∃ j < hd.rowsRead data.length k y, ∃ x < hd.width,
      ¬ PixelInside data (hd.rowAt (y + j) + x * hd.bytesPp))
    (hroom : (y + k) * hd.width ≤ imgMaxW * imgMaxH) :
    bmpRows data hd k y pixels = .error .read := by
  induction k generalizing y pixels with
  | zero =>
    obtain ⟨j, hj, -⟩ := hread
    exact absurd hj (Nat.not_lt_zero j)
  | succ k ih =>
    rw [bmpRows]
    rw [BmpHeader.rowsRead] at hread
    have hrow : y * hd.width + hd.width ≤ imgMaxW * imgMaxH := by
      refine le_trans ?_ hroom
      rw [← Nat.succ_mul]
      exact Nat.mul_le_mul_right _ (by omega)
    split_ifs at hread ⊢ with hfits
    · by_cases hfirst : ∃ x < hd.width, ¬ PixelInside data (hd.rowAt y + x * hd.bytesPp)
      · rw [bmpRow_outside hfirst hrow]
        rfl
      · have hinside : ∀ x < hd.width, PixelInside data (hd.rowAt y + x * hd.bytesPp) := by
          intro x hx
          by_contra hout
          exact hfirst ⟨x, hx, hout⟩
        rw [bmpRow_eq hinside hrow, Access.ok_bind]
        apply ih
        · obtain ⟨j, hj, x, hx, hout⟩ := hread
          cases j with
          | zero => exact absurd (hinside x hx) hout
          | succ j =>
            refine ⟨j, by omega, x, hx, ?_⟩
            rwa [BmpHeader.succ_add_row]
        · rwa [BmpHeader.succ_add_row]
    · obtain ⟨j, hj, -⟩ := hread
      exact absurd hj (Nat.not_lt_zero j)

/-! ## The places of a TGA file -/

variable {t : TgaHeader} {cols : List ℕ} {col si m : ℕ}

namespace TgaHeader

/-- The bounds that the checks give. -/
theorem Accepted.bounds (h : t.Accepted) :
    (0 < t.w ∧ t.w ≤ 2048) ∧ (0 < t.h ∧ t.h ≤ 2048) ∧ (t.bytesPp = 3 ∨ t.bytesPp = 4) := by
  obtain ⟨⟨hw, hh, hwmax, hhmax⟩, -, hbpp⟩ := h
  refine ⟨⟨Nat.pos_of_ne_zero hw, hwmax⟩, ⟨Nat.pos_of_ne_zero hh, hhmax⟩, ?_⟩
  unfold bytesPp
  omega

theorem Accepted.area_le (h : t.Accepted) : t.w * t.h ≤ imgMaxW * imgMaxH :=
  Nat.mul_le_mul h.bounds.1.2 h.bounds.2.1.2

/-- The place in the array of the pixel that comes as number `i`; it is the number of the pixel that
is in the place `i`, too. -/
def placeOf (t : TgaHeader) (i : ℕ) : ℕ := (t.place i).toNat

/-- The flipped row of a pixel. -/
theorem placeOf_eq (hi : i < t.w * t.h) : t.place i = t.placeOf i ∧
    t.placeOf i = (if t.topOrigin then i / t.w else t.h - 1 - i / t.w) * t.w + i % t.w := by
  have hrow : i / t.w < t.h := Nat.div_lt_of_lt_mul hi
  have hplace : t.place i = (((if t.topOrigin then i / t.w else t.h - 1 - i / t.w) * t.w + i % t.w : ℕ) : ℤ) := by
    unfold place flipY
    rw [Nat.cast_add, Nat.cast_mul]
    congr 2
    split_ifs
    · rfl
    · omega
  have hof : t.placeOf i = (if t.topOrigin then i / t.w else t.h - 1 - i / t.w) * t.w + i % t.w := by
    unfold placeOf
    rw [hplace, Int.toNat_natCast]
  exact ⟨by rw [hplace, hof], hof⟩

theorem placeOf_lt (hi : i < t.w * t.h) : t.placeOf i < t.w * t.h := by
  have hw : 0 < t.w := Nat.pos_of_mul_pos_right (Nat.zero_lt_of_lt hi)
  have hrow : i / t.w < t.h := Nat.div_lt_of_lt_mul hi
  have hcol := Nat.mod_lt i hw
  rw [(placeOf_eq hi).2]
  generalize hq : (if t.topOrigin then i / t.w else t.h - 1 - i / t.w) = q
  have hlt : q < t.h := by
    generalize i / t.w = r at hrow hq
    rw [← hq]
    split_ifs <;> omega
  calc q * t.w + i % t.w < q * t.w + t.w := Nat.add_lt_add_left hcol _
    _ = t.w * (q + 1) := by rw [Nat.mul_comm t.w, Nat.succ_mul]
    _ ≤ t.w * t.h := Nat.mul_le_mul_left _ hlt

/-- Flipping twice is nothing. -/
theorem placeOf_placeOf (hi : i < t.w * t.h) : t.placeOf (t.placeOf i) = i := by
  have hw : 0 < t.w := Nat.pos_of_mul_pos_right (Nat.zero_lt_of_lt hi)
  have hrow : i / t.w < t.h := Nat.div_lt_of_lt_mul hi
  have hcol := Nat.mod_lt i hw
  have hdiv : t.placeOf i / t.w = if t.topOrigin then i / t.w else t.h - 1 - i / t.w := by
    rw [(placeOf_eq hi).2, Nat.add_comm, Nat.add_mul_div_right _ _ hw, Nat.div_eq_of_lt hcol,
      Nat.zero_add]
  have hmod : t.placeOf i % t.w = i % t.w := by
    rw [(placeOf_eq hi).2, Nat.add_comm, Nat.add_mul_mod_self_right, Nat.mod_mod]
  have htwice : (if t.topOrigin then t.placeOf i / t.w else t.h - 1 - t.placeOf i / t.w) = i / t.w := by
    rw [hdiv]
    generalize i / t.w = q at hrow ⊢
    split_ifs
    · rfl
    · omega
  rw [(placeOf_eq (placeOf_lt hi)).2, htwice, hmod, Nat.mul_comm]
  exact Nat.div_add_mod i t.w

/-- The place of a pixel by its row and column. -/
theorem placeOf_row {x : ℕ} (hx : x < t.w) (hy : y < t.h) :
    y * t.w + x < t.w * t.h ∧ (t.flipY y).toNat * t.w + x = t.placeOf (y * t.w + x) := by
  have hi : y * t.w + x < t.w * t.h := by
    calc y * t.w + x < y * t.w + t.w := Nat.add_lt_add_left hx _
      _ = t.w * (y + 1) := by rw [Nat.mul_comm t.w, Nat.succ_mul]
      _ ≤ t.w * t.h := Nat.mul_le_mul_left _ hy
  refine ⟨hi, ?_⟩
  have hdiv : (y * t.w + x) / t.w = y := by
    rw [Nat.add_comm, Nat.add_mul_div_right _ _ (by omega), Nat.div_eq_of_lt hx, Nat.zero_add]
  have hmod : (y * t.w + x) % t.w = x := by
    rw [Nat.add_comm, Nat.add_mul_mod_self_right, Nat.mod_eq_of_lt hx]
  rw [(placeOf_eq hi).2, hdiv, hmod]
  unfold flipY
  split_ifs
  · rfl
  · congr 2
    omega

/-- `src_left` is what the file has behind the header. -/
theorem srcLeft_eq {size : ℕ} (hsize : size < 2 ^ 32) (h : t.src ≤ size) :
    t.srcLeft size = size - t.src := by
  unfold srcLeft src at *
  omega

/-- A list of pixels in the places of an image, the first where the file begins. -/
def paint (t : TgaHeader) (cols : List ℕ) (pixels : ℕ → ℕ) : ℕ → ℕ := fun i =>
  if i < t.w * t.h then cols.getD (t.placeOf i) (pixels i) else pixels i

theorem paint_nil : t.paint [] pixels = pixels := by
  funext i
  unfold paint
  split_ifs <;> rfl

/-- One more pixel is painted. -/
theorem update_paint (h : cols.length < t.w * t.h) :
    Function.update (t.paint cols pixels) (t.placeOf cols.length) col = t.paint (cols ++ [col]) pixels := by
  funext i
  unfold paint
  by_cases hi : i = t.placeOf cols.length
  · rw [hi, Function.update_self, if_pos (placeOf_lt h), placeOf_placeOf h,
      List.getD_append_right _ _ _ _ le_rfl, Nat.sub_self]
    rfl
  · rw [Function.update_of_ne hi]
    split_ifs with hin
    · have hne : t.placeOf i ≠ cols.length := by
        intro heq
        apply hi
        rw [← heq, placeOf_placeOf hin]
      rcases Nat.lt_or_gt_of_ne hne with hlt | hgt
      · rw [List.getD_append _ _ _ _ hlt]
      · rw [List.getD_eq_default _ _ (by omega), List.getD_eq_default]
        rw [List.length_append, List.length_singleton]
        omega
    · rfl

end TgaHeader

/-! ## The loops of a TGA file -/

namespace TgaCursor

/-- The cursor behind some pixels. -/
def behind (t : TgaHeader) (cols : List ℕ) (si : ℕ) (pixels : ℕ → ℕ) : TgaCursor :=
  ⟨cols.length, si, t.paint cols pixels⟩

theorem px_behind : (behind t cols si pixels).px = cols.length := rfl

theorem si_behind : (behind t cols si pixels).si = si := rfl

theorem put_behind (hacc : t.Accepted) (h : cols.length < t.w * t.h) :
    (TgaCursor.behind t cols si pixels).put t col = .ok (TgaCursor.behind t (cols ++ [col]) si pixels) := by
  have hroom := lt_of_lt_of_le (TgaHeader.placeOf_lt h) hacc.area_le
  unfold put TgaCursor.behind
  dsimp only
  rw [(TgaHeader.placeOf_eq h).1, storePixel_of_lt hroom, TgaHeader.update_paint h,
    List.length_append, List.length_singleton]
  rfl

end TgaCursor

/-- **A run-length packet** paints its pixel as often as there is room. -/
theorem tgaRun_behind (hacc : t.Accepted) (hcols : cols.length ≤ t.w * t.h) (n : ℕ) :
    tgaRun t col n (.behind t cols si pixels) =
      .ok (.behind t (cols ++ List.replicate (min n (t.w * t.h - cols.length)) col) si pixels) := by
  induction n generalizing cols with
  | zero =>
    rw [Nat.zero_min, List.replicate_zero, List.append_nil]
    rfl
  | succ n ih =>
    rw [tgaRun, TgaCursor.px_behind]
    by_cases hroom : cols.length < t.w * t.h
    · have hlen : (cols ++ [col]).length = cols.length + 1 := by
        rw [List.length_append, List.length_singleton]
      have hcount : min (n + 1) (t.w * t.h - cols.length) =
          min n (t.w * t.h - (cols ++ [col]).length) + 1 := by omega
      rw [if_pos hroom, TgaCursor.put_behind hacc hroom, Access.ok_bind, ih (by omega), hcount,
        List.replicate_succ, List.append_assoc, List.singleton_append]
    · rw [if_neg hroom, Nat.sub_eq_zero_of_le (Nat.le_of_not_lt hroom), Nat.min_zero,
        List.replicate_zero, List.append_nil]

/-- The pixels of the file from a place on. -/
def filePixels (data : List UInt8) (t : TgaHeader) (si n : ℕ) : List ℕ :=
  (List.range n).map fun j => pixelValue data (t.src + si + j * t.bytesPp)

theorem length_filePixels : (filePixels data t si n).length = n := by
  unfold filePixels
  rw [List.length_map, List.length_range]

theorem filePixels_succ : filePixels data t si (n + 1) =
    pixelValue data (t.src + si) :: filePixels data t (si + t.bytesPp) n := by
  unfold filePixels
  rw [List.range_succ_eq_map, List.map_cons, List.map_map, Nat.zero_mul, Nat.add_zero]
  refine congrArg _ (List.map_congr_left ?_)
  intro j _
  rw [Function.comp_apply, Nat.succ_mul, Nat.add_comm (j * t.bytesPp), ← Nat.add_assoc,
    ← Nat.add_assoc]

/-- The bytes that are left behind a place are in the file. -/
theorem pixelInside_src (hacc : t.Accepted) (hsize : data.length < 2 ^ 32) (hsrc : t.src ≤ data.length)
    (h : si + t.bytesPp ≤ t.srcLeft data.length) : PixelInside data (t.src + si) := by
  obtain ⟨-, -, hb⟩ := hacc.bounds
  rw [TgaHeader.srcLeft_eq hsize hsrc] at h
  exact pixelInside_of_le hsize (by omega)

/-- The sum in the test for the bytes that are left does not wrap. -/
theorem u32_src (hacc : t.Accepted) (hsize : data.length < 2 ^ 32) (hsrc : t.src ≤ data.length)
    (h : si ≤ t.srcLeft data.length) : u32 (si + t.bytesPp) = si + t.bytesPp := by
  obtain ⟨-, -, hb⟩ := hacc.bounds
  rw [TgaHeader.srcLeft_eq hsize hsrc] at h
  unfold TgaHeader.src at h
  exact Nat.mod_eq_of_lt (by omega)

/-- The number of pixels that a raw packet of `n` pixels has in the rest of the file. -/
def TgaHeader.rawCount (t : TgaHeader) (left n len : ℕ) : ℕ :=
  min n (min (t.w * t.h - len) (left / t.bytesPp))

/-- **A raw packet** paints its pixels as long as there are bytes and room. -/
theorem tgaRaw_behind (hacc : t.Accepted) (hsize : data.length < 2 ^ 32) (hsrc : t.src ≤ data.length)
    (hcols : cols.length ≤ t.w * t.h) (hsi : si ≤ t.srcLeft data.length) (n : ℕ) :
    tgaRaw data t n (.behind t cols si pixels) =
      let m := t.rawCount (t.srcLeft data.length - si) n cols.length
      .ok (.behind t (cols ++ filePixels data t si m) (si + m * t.bytesPp) pixels) := by
  obtain ⟨-, -, hb⟩ := hacc.bounds
  have hnone : ∀ cols si, (TgaCursor.behind t cols si pixels) =
      .behind t (cols ++ filePixels data t si 0) (si + 0 * t.bytesPp) pixels := by
    intro cols si
    rw [Nat.zero_mul, Nat.add_zero, filePixels, List.range_zero, List.map_nil, List.append_nil]
  induction n generalizing cols si with
  | zero =>
    unfold TgaHeader.rawCount
    rw [Nat.zero_min]
    exact congrArg _ (hnone cols si)
  | succ n ih =>
    rw [tgaRaw, TgaCursor.px_behind, TgaCursor.si_behind]
    by_cases hroom : cols.length < t.w * t.h
    · by_cases hleft : t.srcLeft data.length < si + t.bytesPp
      · -- the bytes that are left are not a pixel
        have hzero : (t.srcLeft data.length - si) / t.bytesPp = 0 := Nat.div_eq_of_lt (by omega)
        have hm : t.rawCount (t.srcLeft data.length - si) (n + 1) cols.length = 0 := by
          unfold TgaHeader.rawCount
          rw [hzero, Nat.min_zero, Nat.min_zero]
        have htest : t.srcLeft data.length < u32 (si + t.bytesPp) := by
          rw [u32_src hacc hsize hsrc hsi]
          exact hleft
        rw [if_pos hroom, if_pos htest, hm]
        exact congrArg _ (hnone cols si)
      · have htest : ¬ t.srcLeft data.length < u32 (si + t.bytesPp) := by
          rw [u32_src hacc hsize hsrc hsi]
          exact hleft
        have hread := pixelAt_of_inside (pixelInside_src hacc hsize hsrc (Nat.le_of_not_lt hleft))
        have hlen : (cols ++ [pixelValue data (t.src + si)]).length = cols.length + 1 := by
          rw [List.length_append, List.length_singleton]
        have hput := @TgaCursor.put_behind pixels t cols (pixelValue data (t.src + si)) (si + t.bytesPp)
          hacc hroom
        have hquot : (t.srcLeft data.length - si) / t.bytesPp =
            (t.srcLeft data.length - (si + t.bytesPp)) / t.bytesPp + 1 := by
          rw [← Nat.sub_sub]
          exact Nat.div_eq_sub_div (by omega) (by omega)
        have hm : t.rawCount (t.srcLeft data.length - si) (n + 1) cols.length =
            t.rawCount (t.srcLeft data.length - (si + t.bytesPp)) n (cols.length + 1) + 1 := by
          unfold TgaHeader.rawCount
          rw [hquot]
          omega
        rw [if_pos hroom, if_neg htest]
        show ((pixelAt data (t.src + si)).bind fun col =>
          ((TgaCursor.behind t cols (si + t.bytesPp) pixels).put t col).bind (tgaRaw data t n)) = _
        rw [hread, Access.ok_bind, hput, Access.ok_bind, ih (by omega) (by omega), hlen, hm]
        dsimp only
        rw [filePixels_succ, List.append_assoc, List.singleton_append, Nat.succ_mul]
        congr 2
        omega
    · have hm : t.rawCount (t.srcLeft data.length - si) (n + 1) cols.length = 0 := by
        unfold TgaHeader.rawCount
        rw [Nat.sub_eq_zero_of_le (Nat.le_of_not_lt hroom), Nat.zero_min, Nat.min_zero]
      rw [if_neg hroom, hm]
      exact congrArg _ (hnone cols si)

/-! ## An image that is not compressed -/

namespace TgaHeader

/-- The pixel for the place `i` in the array is in the file. -/
def PixelFits (t : TgaHeader) (size i : ℕ) : Prop :=
  t.placeOf i * t.bytesPp + t.bytesPp ≤ t.srcLeft size

/-- What a file that is not compressed has for the place `i`. -/
def rawPixel (t : TgaHeader) (data : List UInt8) (i : ℕ) : ℕ :=
  pixelValue data (t.src + t.placeOf i * t.bytesPp)

/-- The sum in the test for a pixel does not wrap. -/
theorem Accepted.u32_off (hacc : t.Accepted) (hi : i < t.w * t.h) :
    u32 (t.placeOf i * t.bytesPp + t.bytesPp) = t.placeOf i * t.bytesPp + t.bytesPp := by
  obtain ⟨-, -, hb⟩ := hacc.bounds
  have hplace := lt_of_lt_of_le (placeOf_lt hi) hacc.area_le
  have harea : imgMaxW * imgMaxH = 2 ^ 22 := rfl
  rw [harea] at hplace
  refine Nat.mod_eq_of_lt ?_
  rcases hb with hb | hb <;> rw [hb] <;> omega

end TgaHeader

/-- A row is read up to the first pixel that is not in the file. -/
theorem tgaRow_eq (hacc : t.Accepted) (hsize : data.length < 2 ^ 32) (hsrc : t.src ≤ data.length)
    (hy : y < t.h) : n ≤ t.w → ∃ m ≤ n, (∀ x < m, t.PixelFits data.length (y * t.w + x)) ∧
      (m < n → ¬ t.PixelFits data.length (y * t.w + m)) ∧
      ∀ pixels, tgaRow data t y n pixels = .ok (decide (m = n), fun i =>
        if y * t.w ≤ i ∧ i < y * t.w + m then t.rawPixel data i else pixels i) := by
  induction n with
  | zero =>
    intro _
    refine ⟨0, le_rfl, fun x hx => absurd hx (Nat.not_lt_zero x), fun h => absurd h (lt_irrefl 0), ?_⟩
    intro pixels
    rw [tgaRow]
    congr 2
    funext i
    rw [if_neg (by omega)]
  | succ n ih =>
    intro hn
    obtain ⟨m, hm, hfits, hstop, heq⟩ := ih (by omega)
    by_cases hend : m = n
    · subst hend
      obtain ⟨hplace, hoff⟩ := @TgaHeader.placeOf_row y t m (by omega) hy
      by_cases hnext : t.PixelFits data.length (y * t.w + m)
      · refine ⟨m + 1, le_rfl, ?_, fun h => absurd h (lt_irrefl _), ?_⟩
        · intro x hx
          rcases Nat.lt_succ_iff_lt_or_eq.mp hx with hx | rfl
          · exact hfits x hx
          · exact hnext
        · intro pixels
          have htest : ¬ t.srcLeft data.length <
              u32 (((t.flipY y).toNat * t.w + m) * t.bytesPp + t.bytesPp) := by
            rw [hoff, hacc.u32_off hplace]
            exact Nat.not_lt.mpr hnext
          have hread := pixelAt_of_inside (pixelInside_src hacc hsize hsrc hnext)
          have hroom := lt_of_lt_of_le hplace hacc.area_le
          rw [tgaRow, heq, Access.ok_bind]
          dsimp only
          rw [decide_eq_true rfl, if_neg Bool.noConfusion, if_neg htest, hoff, hread, Access.ok_bind,
            storePixel_of_lt hroom, decide_eq_true rfl]
          have hupdate := @update_range m pixels (t.rawPixel data) (y * t.w)
          unfold TgaHeader.rawPixel at hupdate ⊢
          rw [hupdate]
          rfl
      · refine ⟨m, Nat.le_succ m, hfits, fun _ => hnext, ?_⟩
        intro pixels
        have htest : t.srcLeft data.length <
            u32 (((t.flipY y).toNat * t.w + m) * t.bytesPp + t.bytesPp) := by
          rw [hoff, hacc.u32_off hplace]
          exact Nat.lt_of_not_le hnext
        rw [tgaRow, heq, Access.ok_bind]
        dsimp only
        rw [decide_eq_true rfl, if_neg Bool.noConfusion, if_pos htest, decide_eq_false (by omega)]
    · refine ⟨m, by omega, hfits, fun _ => hstop (by omega), ?_⟩
      intro pixels
      rw [tgaRow, heq, Access.ok_bind]
      dsimp only
      rw [decide_eq_false hend, if_pos rfl, decide_eq_false (by omega)]

/-- The rows are read up to the first pixel that is not in the file. -/
theorem tgaRows_eq (hacc : t.Accepted) (hsize : data.length < 2 ^ 32) (hsrc : t.src ≤ data.length) :
    n ≤ t.h → ∃ m ≤ n * t.w, (∀ i < m, t.PixelFits data.length i) ∧
      (m < n * t.w → ¬ t.PixelFits data.length m) ∧
      ∀ pixels, tgaRows data t n pixels = .ok (decide (m = n * t.w), fun i =>
        if i < m then t.rawPixel data i else pixels i) := by
  induction n with
  | zero =>
    intro _
    refine ⟨0, Nat.zero_le _, fun x hx => absurd hx (Nat.not_lt_zero x), fun h => by omega, ?_⟩
    intro pixels
    rw [tgaRows, decide_eq_true (Nat.zero_mul _).symm]
    congr 2
  | succ n ih =>
    intro hn
    obtain ⟨m, hm, hfits, hstop, heq⟩ := ih (by omega)
    rw [Nat.succ_mul]
    obtain ⟨hw, -, -⟩ := hacc.bounds
    by_cases hend : m = n * t.w
    · subst hend
      obtain ⟨r, hr, hrow, hrowStop, hrowEq⟩ := tgaRow_eq hacc hsize hsrc (show n < t.h by omega) le_rfl
      refine ⟨n * t.w + r, by omega, ?_, fun h => hrowStop (by omega), ?_⟩
      · intro i hi
        rcases Nat.lt_or_ge i (n * t.w) with hlt | hge
        · exact hfits i hlt
        · obtain ⟨x, rfl⟩ := Nat.exists_eq_add_of_le hge
          exact hrow x (by omega)
      · intro pixels
        rw [tgaRows, heq, Access.ok_bind]
        dsimp only
        rw [decide_eq_true rfl, if_neg Bool.noConfusion, hrowEq]
        have hflag : decide (r = t.w) = decide (n * t.w + r = n * t.w + t.w) :=
          decide_eq_decide.mpr (by omega)
        rw [hflag]
        congr 2
        funext i
        by_cases hi : i < n * t.w
        · rw [if_neg (by omega), if_pos hi, if_pos (by omega)]
        · by_cases hin : i < n * t.w + r
          · rw [if_pos ⟨by omega, hin⟩, if_pos hin]
          · rw [if_neg (by omega), if_neg hi, if_neg hin]
    · refine ⟨m, by omega, hfits, fun _ => hstop (by omega), ?_⟩
      intro pixels
      rw [tgaRows, heq, Access.ok_bind]
      dsimp only
      rw [decide_eq_false hend, if_pos rfl, decide_eq_false (by omega)]

/-! ## The packets of a file -/

/-- The pixel at the beginning of some bytes. -/
def headPixel (bs : List UInt8) : ℕ := rgb (bs.getD 2 0) (bs.getD 1 0) (bs.getD 0 0)

/-- The pixels of the packets that some bytes begin with, as far as the bytes go. -/
def packetPixels (bytesPp : ℕ) : List UInt8 → List ℕ
  | [] => []
  | hdr :: rest =>
    let count := hdr.toNat % 128 + 1
    if 128 ≤ hdr.toNat then
      if rest.length < bytesPp then []
      else List.replicate count (headPixel rest) ++ packetPixels bytesPp (rest.drop bytesPp)
    else
      let n := min count (rest.length / bytesPp)
      ((List.range n).map fun j => headPixel (rest.drop (j * bytesPp))) ++
        packetPixels bytesPp (rest.drop (n * bytesPp))
termination_by bs => bs.length
decreasing_by all_goals (rw [List.length_cons, List.length_drop]; omega)

theorem pixelValue_eq (h : p + 2 < 2 ^ 32) : pixelValue data p = headPixel (data.drop p) := by
  have hu : ∀ k ≤ 2, data.getD (u32 (p + k)) 0 = (data.drop p).getD k 0 := by
    intro k hk
    unfold u32
    rw [Nat.mod_eq_of_lt (by omega), List.getD_eq_getElem?_getD, List.getD_eq_getElem?_getD,
      List.getElem?_drop]
  unfold pixelValue headPixel
  rw [hu 2 le_rfl, hu 1 (by omega), ← hu 0 (by omega)]
  rfl

theorem filePixels_eq (hacc : t.Accepted) (hsize : data.length < 2 ^ 32) (hsrc : t.src ≤ data.length)
    (h : si + n * t.bytesPp ≤ t.srcLeft data.length) : filePixels data t si n =
      (List.range n).map fun j => headPixel ((data.drop (t.src + si)).drop (j * t.bytesPp)) := by
  obtain ⟨-, -, hb⟩ := hacc.bounds
  rw [TgaHeader.srcLeft_eq hsize hsrc] at h
  refine List.map_congr_left ?_
  intro j hj
  have hlt : (j + 1) * t.bytesPp ≤ n * t.bytesPp := Nat.mul_le_mul_right _ (List.mem_range.mp hj)
  rw [Nat.succ_mul] at hlt
  rw [pixelValue_eq (by omega), List.drop_drop]

theorem take_filePixels (h : m ≤ n) : (filePixels data t si n).take m = filePixels data t si m := by
  unfold filePixels
  rw [← List.map_take, List.take_range, Nat.min_eq_left h]

/-- Appending to a list that is cut to a length. -/
theorem append_take_append {l l' : List ℕ} {total : ℕ} :
    cols ++ (l ++ l').take (total - cols.length) =
      (cols ++ l.take (total - cols.length)) ++
        l'.take (total - (cols ++ l.take (total - cols.length)).length) := by
  rw [List.take_append, List.append_assoc, List.length_append, List.length_take]
  congr 3
  omega

/-- **The loop over the packets** paints their pixels as long as there is room. -/
theorem tgaPackets_behind (hacc : t.Accepted) (hsize : data.length < 2 ^ 32)
    (hsrc : t.src ≤ data.length) (hcols : cols.length ≤ t.w * t.h) (hsi : si ≤ t.srcLeft data.length)
    (k : ℕ) (hk : t.srcLeft data.length - si < k) : ∃ si', ∀ pixels,
      tgaPackets data t k (.behind t cols si pixels) = .ok (.behind t (cols ++
        (packetPixels t.bytesPp (data.drop (t.src + si))).take (t.w * t.h - cols.length)) si' pixels) := by
  obtain ⟨-, -, hb⟩ := hacc.bounds
  have hleft := TgaHeader.srcLeft_eq hsize hsrc
  induction k generalizing cols si with
  | zero => omega
  | succ k ih =>
    by_cases hgo : cols.length < t.w * t.h ∧ si < t.srcLeft data.length
    swap
    · -- no room, or no bytes
      refine ⟨si, ?_⟩
      intro pixels
      have hnone : (packetPixels t.bytesPp (data.drop (t.src + si))).take (t.w * t.h - cols.length) = [] := by
        rcases not_and_or.mp hgo with hroom | hbytes
        · rw [Nat.sub_eq_zero_of_le (Nat.le_of_not_lt hroom), List.take_zero]
        · rw [List.drop_eq_nil_of_le (by omega), packetPixels, List.take_nil]
      rw [hnone, List.append_nil, tgaPackets, TgaCursor.px_behind, TgaCursor.si_behind, if_neg hgo]
    obtain ⟨hroom, hbytes⟩ := hgo
    have hlt : t.src + si < data.length := by omega
    have hbyte : byteAt data (t.src + si) = .ok data[t.src + si] := by
      have hu : u32 (t.src + si) = t.src + si := Nat.mod_eq_of_lt (by omega)
      rw [byteAt_of_lt (by rw [hu]; exact hlt), hu, List.getD_eq_getElem _ _ hlt]
    have hdrop : data.drop (t.src + si) = data[t.src + si] :: data.drop (t.src + (si + 1)) :=
      List.drop_eq_getElem_cons hlt
    have hrest : (data.drop (t.src + (si + 1))).length = t.srcLeft data.length - (si + 1) := by
      rw [List.length_drop]
      omega
    generalize data[t.src + si] = hdr at hbyte hdrop
    have hround : ∀ pixels, tgaPackets data t (k + 1) (.behind t cols si pixels) =
        if 128 ≤ hdr.toNat then
          if t.srcLeft data.length < u32 (si + 1 + t.bytesPp) then .ok (.behind t cols (si + 1) pixels)
          else
            (pixelAt data (t.src + (si + 1))).bind fun col =>
              (tgaRun t col (hdr.toNat % 128 + 1) (.behind t cols (si + 1 + t.bytesPp) pixels)).bind
                (tgaPackets data t k)
        else (tgaRaw data t (hdr.toNat % 128 + 1) (.behind t cols (si + 1) pixels)).bind
          (tgaPackets data t k) := by
      intro pixels
      rw [tgaPackets, TgaCursor.px_behind, TgaCursor.si_behind, if_pos ⟨hroom, hbytes⟩, hbyte]
      rfl
    rw [hdrop, packetPixels]
    dsimp only
    by_cases hrun : 128 ≤ hdr.toNat
    · rw [if_pos hrun, hrest]
      by_cases hshort : t.srcLeft data.length - (si + 1) < t.bytesPp
      · refine ⟨si + 1, ?_⟩
        intro pixels
        rw [hround, if_pos hrun, u32_src hacc hsize hsrc (by omega), if_pos (by omega), if_pos hshort,
          List.take_nil, List.append_nil]
      · rw [if_neg hshort, append_take_append, List.take_replicate]
        have hread := pixelAt_of_inside
          (@pixelInside_src data t (si + 1) hacc hsize hsrc (by omega))
        rw [pixelValue_eq (by omega)] at hread
        obtain ⟨si', hsi'⟩ := @ih (cols ++ List.replicate (min (t.w * t.h - cols.length)
          (hdr.toNat % 128 + 1)) (headPixel (data.drop (t.src + (si + 1))))) (si + 1 + t.bytesPp)
          (by rw [List.length_append, List.length_replicate]; omega) (by omega) (by omega)
        refine ⟨si', ?_⟩
        intro pixels
        rw [hround, if_pos hrun, u32_src hacc hsize hsrc (by omega), if_neg (by omega), hread,
          Access.ok_bind, tgaRun_behind hacc hcols, Access.ok_bind, Nat.min_comm, hsi', List.drop_drop,
          Nat.add_assoc t.src]
    · rw [if_neg hrun, hrest]
      have hn : si + 1 + min (hdr.toNat % 128 + 1) ((t.srcLeft data.length - (si + 1)) / t.bytesPp) *
          t.bytesPp ≤ t.srcLeft data.length := by
        have hmul := Nat.div_mul_le_self (t.srcLeft data.length - (si + 1)) t.bytesPp
        have hmin := Nat.mul_le_mul_right t.bytesPp (Nat.min_le_right (hdr.toNat % 128 + 1)
          ((t.srcLeft data.length - (si + 1)) / t.bytesPp))
        omega
      have hm : t.rawCount (t.srcLeft data.length - (si + 1)) (hdr.toNat % 128 + 1) cols.length =
          min (t.w * t.h - cols.length) (min (hdr.toNat % 128 + 1)
            ((t.srcLeft data.length - (si + 1)) / t.bytesPp)) := min_left_comm _ _ _
      generalize min (hdr.toNat % 128 + 1) ((t.srcLeft data.length - (si + 1)) / t.bytesPp) = n at hn hm ⊢
      rw [append_take_append, ← filePixels_eq hacc hsize hsrc hn]
      have htake : (filePixels data t (si + 1) n).take (t.w * t.h - cols.length) =
          filePixels data t (si + 1) (min (t.w * t.h - cols.length) n) := by
        rw [← take_filePixels (Nat.min_le_right (t.w * t.h - cols.length) n), List.take_eq_take_min,
          length_filePixels]
      rw [htake]
      have hmn : min (t.w * t.h - cols.length) n * t.bytesPp ≤ n * t.bytesPp :=
        Nat.mul_le_mul_right _ (Nat.min_le_right _ _)
      obtain ⟨si', hsi'⟩ := @ih (cols ++ filePixels data t (si + 1) (min (t.w * t.h - cols.length) n))
        (si + 1 + min (t.w * t.h - cols.length) n * t.bytesPp)
        (by rw [List.length_append, length_filePixels]; omega) (by omega) (by omega)
      refine ⟨si', ?_⟩
      intro pixels
      rw [hround, if_neg hrun, tgaRaw_behind hacc hsize hsrc hcols (by omega), hm]
      dsimp only
      rw [Access.ok_bind, hsi', List.drop_drop]
      by_cases hfull : n ≤ t.w * t.h - cols.length
      · rw [Nat.min_eq_right hfull, Nat.add_assoc t.src]
      · -- the image is full in the middle of a packet
        have hzero : t.w * t.h - (cols ++ filePixels data t (si + 1)
            (min (t.w * t.h - cols.length) n)).length = 0 := by
          rw [List.length_append, length_filePixels]
          omega
        rw [hzero, List.take_zero, List.take_zero]

end Microkernel
