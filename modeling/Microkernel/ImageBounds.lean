/-
# The BMP and TGA loaders: bounds

When `image_load_bmp` and `image_load_tga` read the file only and write the pixels of the image only,
and what sizes they report.  The height of a BMP file is not tested for zero, and the least number is
its own negative; the sum in the test of a row goes round for rows just below the end of the 32-bit
numbers; and a TGA file may be shorter than the identification it announces.
-/
import Microkernel.ImagePixels

namespace Microkernel

variable {data : List UInt8} {p y : ℕ}

/-! ## Headers -/

theorem rd16le_ok (hsize : data.length < 2 ^ 32) (h : p + 2 ≤ data.length) :
    ∃ v, rd16le data p = .ok v := by
  have hu : ∀ k < 2, u32 (p + k) < data.length := by
    intro k hk
    unfold u32
    omega
  unfold rd16le
  have hfirst : u32 p < data.length := hu 0 (by omega)
  rw [byteAt_of_lt hfirst, byteAt_of_lt (hu 1 (by omega))]
  exact ⟨_, rfl⟩

theorem rd32le_ok (hsize : data.length < 2 ^ 32) (h : p + 4 ≤ data.length) :
    ∃ v, rd32le data p = .ok v := by
  obtain ⟨a, ha⟩ := @rd16le_ok data p hsize (by omega)
  obtain ⟨b, hb⟩ := @rd16le_ok data (p + 2) hsize (by omega)
  unfold rd32le
  rw [ha, hb]
  exact ⟨_, rfl⟩

theorem readBmpHeader_ok (hsize : data.length < 2 ^ 32) (h : 54 ≤ data.length) :
    ∃ hd, readBmpHeader data = .ok hd := by
  obtain ⟨offset, hoffset⟩ := @rd32le_ok data 10 hsize (by omega)
  obtain ⟨w, hw⟩ := @rd32le_ok data 18 hsize (by omega)
  obtain ⟨h', hh⟩ := @rd32le_ok data 22 hsize (by omega)
  obtain ⟨bpp, hbpp⟩ := @rd16le_ok data 28 hsize (by omega)
  obtain ⟨comp, hcomp⟩ := @rd32le_ok data 30 hsize (by omega)
  unfold readBmpHeader
  rw [hoffset, hw, hh, hbpp, hcomp]
  exact ⟨_, rfl⟩

theorem readTgaHeader_ok (hsize : data.length < 2 ^ 32) (h : 18 ≤ data.length) :
    ∃ t, readTgaHeader data = .ok t := by
  have hu : ∀ k < 18, u32 k < data.length := by
    intro k hk
    unfold u32
    omega
  obtain ⟨w, hw⟩ := @rd16le_ok data 12 hsize (by omega)
  obtain ⟨h', hh⟩ := @rd16le_ok data 14 hsize (by omega)
  unfold readTgaHeader
  rw [byteAt_of_lt (hu 0 (by omega)), byteAt_of_lt (hu 2 (by omega)), hw, hh,
    byteAt_of_lt (hu 16 (by omega)), byteAt_of_lt (hu 17 (by omega))]
  exact ⟨_, rfl⟩

/-- `image_load_bmp` comes past its checks with this header. -/
structure BmpAccepts (data : List UInt8) (hd : BmpHeader) : Prop where
  size : 54 ≤ data.length
  letters : byteAt data 0 = .ok 0x42 ∧ byteAt data 1 = .ok 0x4D
  header : readBmpHeader data = .ok hd
  accepted : hd.Accepted

/-- `image_load_tga` comes past its checks with this header. -/
structure TgaAccepts (data : List UInt8) (t : TgaHeader) : Prop where
  size : 18 ≤ data.length
  header : readTgaHeader data = .ok t
  accepted : t.Accepted

/-- **`image_load_bmp`** reads the rows, or gives up without a change. -/
theorem imageLoadBmp_cases (hsize : data.length < 2 ^ 32) :
    (∃ hd, BmpAccepts data hd ∧ ∀ img pixels, imageLoadBmp data img pixels =
      (bmpRows data hd hd.height.toNat 0 pixels).map fun pixels => (true, ⟨hd.w, hd.height, true⟩, pixels)) ∨
    (∀ hd, ¬ BmpAccepts data hd) ∧ ∀ img pixels, imageLoadBmp data img pixels = .ok (false, img, pixels) := by
  by_cases hsmall : data.length < 54
  · refine Or.inr ⟨fun hd h => absurd h.size (by omega), ?_⟩
    intro img pixels
    unfold imageLoadBmp
    rw [if_pos hsmall]
  have hu : ∀ k < 2, u32 k < data.length := by
    intro k hk
    unfold u32
    omega
  obtain ⟨hd, hheader⟩ := readBmpHeader_ok hsize (Nat.le_of_not_lt hsmall)
  have hb₀ := byteAt_of_lt (hu 0 (by omega))
  have hb₁ := byteAt_of_lt (hu 1 (by omega))
  generalize data.getD (u32 0) 0 = c₀ at hb₀
  generalize data.getD (u32 1) 0 = c₁ at hb₁
  by_cases hletters : c₀ ≠ 0x42 ∨ c₁ ≠ 0x4D
  · refine Or.inr ⟨?_, ?_⟩
    · intro hd' h
      have h₀ := Except.ok.inj (hb₀.symm.trans h.letters.1)
      have h₁ := Except.ok.inj (hb₁.symm.trans h.letters.2)
      exact hletters.elim (fun hne => hne h₀) fun hne => hne h₁
    · intro img pixels
      unfold imageLoadBmp
      rw [if_neg hsmall, hb₀, Access.ok_bind, hb₁, Access.ok_bind, if_pos hletters]
  obtain ⟨h₀, h₁⟩ := not_or.mp hletters
  rw [not_not.mp h₀] at hb₀
  rw [not_not.mp h₁] at hb₁
  by_cases haccepted : hd.Accepted
  · refine Or.inl ⟨hd, ⟨Nat.le_of_not_lt hsmall, ⟨hb₀, hb₁⟩, hheader, haccepted⟩, ?_⟩
    intro img pixels
    unfold imageLoadBmp
    rw [if_neg hsmall, hb₀, Access.ok_bind, hb₁, Access.ok_bind, if_neg (by decide), hheader,
      Access.ok_bind, if_pos haccepted]
  · refine Or.inr ⟨?_, ?_⟩
    · intro hd' h
      obtain rfl := Except.ok.inj (hheader.symm.trans h.header)
      exact haccepted h.accepted
    · intro img pixels
      unfold imageLoadBmp
      rw [if_neg hsmall, hb₀, Access.ok_bind, hb₁, Access.ok_bind, if_neg (by decide), hheader,
        Access.ok_bind, if_neg haccepted]

/-- The pixels that `image_load_tga` leaves, from those before it. -/
def tgaDecode (data : List UInt8) (t : TgaHeader) (pixels : ℕ → ℕ) : Access (ℕ → ℕ) :=
  if t.imgType = 2 then (tgaRows data t t.h pixels).map Prod.snd
  else (tgaPackets data t (data.length + 1) ⟨0, 0, pixels⟩).map TgaCursor.pixels

/-- **`image_load_tga`** reads the pixels, or gives up without a change. -/
theorem imageLoadTga_cases (hsize : data.length < 2 ^ 32) :
    (∃ t, TgaAccepts data t ∧ ∀ img pixels, imageLoadTga data img pixels =
      (tgaDecode data t pixels).map fun pixels => (true, ⟨t.w, t.h, true⟩, pixels)) ∨
    (∀ t, ¬ TgaAccepts data t) ∧ ∀ img pixels, imageLoadTga data img pixels = .ok (false, img, pixels) := by
  by_cases hsmall : data.length < 18
  · refine Or.inr ⟨fun hd h => absurd h.size (by omega), ?_⟩
    intro img pixels
    unfold imageLoadTga
    rw [if_pos hsmall]
  obtain ⟨t, hheader⟩ := readTgaHeader_ok hsize (Nat.le_of_not_lt hsmall)
  by_cases haccepted : t.Accepted
  · refine Or.inl ⟨t, ⟨Nat.le_of_not_lt hsmall, hheader, haccepted⟩, ?_⟩
    intro img pixels
    unfold imageLoadTga tgaDecode
    rw [if_neg hsmall, hheader, Access.ok_bind, if_pos haccepted]
    dsimp only
    split_ifs
    · cases tgaRows data t t.h pixels <;> rfl
    · cases tgaPackets data t (data.length + 1) ⟨0, 0, pixels⟩ <;> rfl
  · refine Or.inr ⟨?_, ?_⟩
    · intro t' h
      obtain rfl := Except.ok.inj (hheader.symm.trans h.header)
      exact haccepted h.accepted
    · intro img pixels
      unfold imageLoadTga
      rw [if_neg hsmall, hheader, Access.ok_bind, if_neg haccepted]

/-! ## Rows of a BMP file -/

namespace BmpHeader

variable {hd : BmpHeader}

theorem Accepted.bounds (h : hd.Accepted) :
    (0 < hd.width ∧ hd.width ≤ 2048) ∧ hd.w = hd.width ∧ hd.height ≤ 2048 ∧
      (hd.bytesPp = 3 ∨ hd.bytesPp = 4) := by
  obtain ⟨-, hbpp, hw, hwmax, hhmax⟩ := h
  have hmax : (imgMaxW : ℤ) = 2048 := rfl
  have hmax' : (imgMaxH : ℤ) = 2048 := rfl
  rw [hmax] at hwmax
  rw [hmax'] at hhmax
  unfold width bytesPp
  refine ⟨⟨by omega, by omega⟩, by omega, hhmax, by omega⟩

theorem Accepted.area_le (h : hd.Accepted) :
    (0 + hd.height.toNat) * hd.width ≤ imgMaxW * imgMaxH := by
  obtain ⟨⟨-, hw⟩, -, hheight, -⟩ := h.bounds
  have hh : 0 + hd.height.toNat ≤ 2048 := by omega
  exact Nat.mul_le_mul hh hw

/-- The end of a row does not go round; or it does, but the last byte of the memory is one that is not
read. -/
def RowWhole (hd : BmpHeader) (size y : ℕ) : Prop :=
  hd.rowAt y + hd.width * hd.bytesPp < 2 ^ 32 ∨
    hd.bytesPp = 4 ∧ hd.rowAt y % 4 = 0 ∧ size = 2 ^ 32 - 1

/-- **A row that passes the test is in the file** exactly if its end does not go round. -/
theorem row_inside_iff (hacc : hd.Accepted) (hsize : data.length < 2 ^ 32)
    (hfits : hd.RowFits data.length y) :
    (∀ x < hd.width, PixelInside data (hd.rowAt y + x * hd.bytesPp)) ↔ hd.RowWhole data.length y := by
  obtain ⟨⟨hw, -⟩, -, -, hb⟩ := hacc.bounds
  have ho : hd.rowAt y < 2 ^ 32 := Nat.mod_lt _ (by norm_num)
  unfold RowFits u32 at hfits
  unfold RowWhole PixelInside u32
  generalize hd.rowAt y = o at ho hfits
  generalize hd.width = w at hw hfits
  constructor
  · intro h
    by_contra hround
    obtain ⟨hend, hlast⟩ := not_or.mp hround
    -- the pixel that has the last byte of the memory
    rcases hb with hb | hb <;> rw [hb] at h hend hlast
    · have hx : (2 ^ 32 - 1 - o) / 3 < w := by omega
      have hbyte := h _ hx ((2 ^ 32 - 1 - o) % 3) (Nat.mod_lt _ (by norm_num))
      omega
    · have hx : (2 ^ 32 - 1 - o) / 4 < w := by omega
      by_cases hfourth : (2 ^ 32 - 1 - o) % 4 = 3
      · have hbyte := h _ hx 2 (by norm_num)
        omega
      · have hbyte := h _ hx ((2 ^ 32 - 1 - o) % 4) (by omega)
        omega
  · intro h x hx k hk
    rcases h with hend | ⟨hb, haligned, hfull⟩
    · rw [Nat.mod_eq_of_lt hend] at hfits
      have hplace : o + x * hd.bytesPp + k < o + w * hd.bytesPp := by
        rcases hb with hb | hb <;> rw [hb] <;> omega
      rw [Nat.mod_eq_of_lt (by omega)]
      omega
    · rw [hb]
      omega

end BmpHeader

/-! ## When the loaders keep to their bounds -/

/-- The loader reads the file only; and when it returns true, the sizes are in their ranges, and
whatever was in the array before, only pixels of the image are different afterwards. -/
def Bounded (load : Image → (ℕ → ℕ) → Access (Bool × Image × (ℕ → ℕ))) : Prop :=
  ∀ img pixels, ∃ ok img' pixels', load img pixels = .ok (ok, img', pixels') ∧
    (ok = true → (1 ≤ img'.width ∧ img'.width ≤ imgMaxW) ∧ (1 ≤ img'.height ∧ img'.height ≤ imgMaxH) ∧
      ∀ i : ℕ, img'.width * img'.height ≤ i → pixels' i = pixels i)

/-- An accepted BMP file has a height of at least one, and the end of no row that is read goes round. -/
def BmpSound (data : List UInt8) : Prop :=
  ∀ hd, BmpAccepts data hd → 1 ≤ hd.height ∧ ∀ y < hd.height.toNat,
    (∀ y' ≤ y, hd.RowFits data.length y') → hd.RowWhole data.length y

/-- An accepted TGA file has its identification. -/
def TgaSound (data : List UInt8) : Prop := ∀ t, TgaAccepts data t → t.src ≤ data.length

theorem bmp_bounded_iff (hsize : data.length < 2 ^ 32) : Bounded (imageLoadBmp data) ↔ BmpSound data := by
  rcases imageLoadBmp_cases hsize with ⟨hd, haccepts, hload⟩ | ⟨hnone, hload⟩
  swap
  · refine ⟨fun _ hd h => absurd h (hnone hd), fun _ img pixels => ⟨false, img, pixels, hload _ _, ?_⟩⟩
    intro h
    cases h
  have hacc := haccepts.accepted
  obtain ⟨⟨hwpos, hw⟩, hwidth, hheight, -⟩ := hacc.bounds
  constructor
  · intro h hd' h'
    obtain rfl := Except.ok.inj (haccepts.header.symm.trans h'.header)
    obtain ⟨ok, img', pixels', heq, hbounds⟩ := h ⟨0, 0, false⟩ fun _ => 0
    rw [hload] at heq
    obtain ⟨painted, hrows, hres⟩ := Access.map_eq_ok.mp heq
    cases hres
    refine ⟨(hbounds rfl).2.1.1, ?_⟩
    intro y hy hfits
    have hread : y < hd.rowsRead data.length hd.height.toNat 0 := by
      rw [BmpHeader.lt_rowsRead_iff]
      refine ⟨hy, ?_⟩
      intro i hi
      rw [Nat.zero_add]
      exact hfits i hi
    rw [← BmpHeader.row_inside_iff hacc hsize (hfits y le_rfl)]
    intro x hx
    by_contra hout
    have herror := @bmpRows_outside data (fun _ => 0) hd 0 hd.height.toNat
      ⟨y, hread, x, hx, by rw [Nat.zero_add]; exact hout⟩ hacc.area_le
    rw [herror] at hrows
    cases hrows
  · intro h img pixels
    obtain ⟨hpos, hwhole⟩ := h hd haccepts
    have hrows := @bmpRows_eq data pixels hd 0 hd.height.toNat (by
      intro j hj x hx
      obtain ⟨hlt, hfits⟩ := BmpHeader.lt_rowsRead_iff.mp hj
      simp only [Nat.zero_add] at hfits ⊢
      exact (BmpHeader.row_inside_iff hacc hsize (hfits j le_rfl)).mpr (hwhole j hlt hfits) x hx)
      hacc.area_le
    refine ⟨true, ⟨hd.w, hd.height, true⟩, _, by rw [hload, hrows]; rfl, ?_⟩
    intro _
    refine ⟨⟨by dsimp only; omega, by dsimp only; rw [hwidth]; exact_mod_cast hw⟩,
      ⟨hpos, hheight⟩, ?_⟩
    intro i hi
    have hread := @BmpHeader.rowsRead_le hd 0 hd.height.toNat data.length
    have harea : (0 + hd.rowsRead data.length hd.height.toNat 0) * hd.width ≤ i := by
      have hle : (0 + hd.rowsRead data.length hd.height.toNat 0) * hd.width ≤
          hd.height.toNat * hd.width := Nat.mul_le_mul_right _ (by omega)
      refine le_trans hle ?_
      dsimp only at hi
      rw [hwidth] at hi
      zify
      rw [Int.toNat_of_nonneg (by omega), mul_comm]
      exact hi
    exact if_neg fun hin => absurd hin.2 (Nat.not_lt.mpr harea)

/-- What a sound TGA file is decoded to, up to the place where it ends. -/
theorem tgaDecode_eq {t : TgaHeader} (hacc : t.Accepted) (hsize : data.length < 2 ^ 32)
    (hsrc : t.src ≤ data.length) : ∃ m ≤ t.w * t.h, (∀ i < m, t.PixelFits data.length i) ∧
      (m < t.w * t.h → ¬ t.PixelFits data.length m) ∧ ∀ pixels, tgaDecode data t pixels = .ok
        (if t.imgType = 2 then fun i => if i < m then t.rawPixel data i else pixels i
        else t.paint ((packetPixels t.bytesPp (data.drop t.src)).take (t.w * t.h)) pixels) := by
  obtain ⟨m, hm, hfits, hstop, hrows⟩ := tgaRows_eq hacc hsize hsrc le_rfl
  rw [Nat.mul_comm t.h] at hm hstop
  refine ⟨m, hm, hfits, hstop, ?_⟩
  intro pixels
  unfold tgaDecode
  by_cases htype : t.imgType = 2
  · rw [if_pos htype, if_pos htype, hrows]
    rfl
  · rw [if_neg htype, if_neg htype]
    have hleft := TgaHeader.srcLeft_eq hsize hsrc
    obtain ⟨si', hpackets⟩ := @tgaPackets_behind data t [] 0 hacc hsize hsrc (Nat.zero_le _)
      (Nat.zero_le _) (data.length + 1) (by omega)
    have hstart : TgaCursor.behind t [] 0 pixels = ⟨0, 0, pixels⟩ := by
      unfold TgaCursor.behind
      rw [TgaHeader.paint_nil]
      rfl
    rw [← hstart, hpackets, List.nil_append, List.length_nil, Nat.sub_zero, Nat.add_zero]
    rfl

/-- The identification is at most 255 bytes long. -/
theorem TgaAccepts.idLen_lt {t : TgaHeader} (h : TgaAccepts data t) : t.idLen < 256 := by
  have hheader := h.header
  unfold readTgaHeader at hheader
  obtain ⟨idLen, -, hheader⟩ := Access.bind_eq_ok.mp hheader
  obtain ⟨imgType, -, hheader⟩ := Access.bind_eq_ok.mp hheader
  obtain ⟨w, -, hheader⟩ := Access.bind_eq_ok.mp hheader
  obtain ⟨h', -, hheader⟩ := Access.bind_eq_ok.mp hheader
  obtain ⟨bpp, -, hheader⟩ := Access.bind_eq_ok.mp hheader
  obtain ⟨desc, -, rfl⟩ := Access.map_eq_ok.mp hheader
  exact idLen.toNat_lt

/-- `src_left` goes round when the identification does not fit. -/
theorem TgaAccepts.srcLeft_gt {t : TgaHeader} (h : TgaAccepts data t) (hsize : data.length < 2 ^ 32)
    (hsrc : data.length < t.src) : 2 ^ 31 < t.srcLeft data.length := by
  have hid := h.idLen_lt
  have h18 := h.size
  unfold TgaHeader.srcLeft TgaHeader.src at *
  omega

/-- The first pixel is read behind the file. -/
theorem tgaRow_outside {t : TgaHeader} {pixels : ℕ → ℕ} (h : TgaAccepts data t)
    (hsize : data.length < 2 ^ 32) (hsrc : data.length < t.src) (n : ℕ) :
    tgaRow data t 0 (n + 1) pixels = .error .read := by
  induction n with
  | zero =>
    have hleft := h.srcLeft_gt hsize hsrc
    have hid := h.idLen_lt
    obtain ⟨⟨hw, -⟩, ⟨hh, -⟩, hb⟩ := h.accepted.bounds
    have hplace := @TgaHeader.placeOf_row 0 t 0 hw hh
    have hlt := lt_of_lt_of_le (TgaHeader.placeOf_lt hplace.1) h.accepted.area_le
    have harea : imgMaxW * imgMaxH = 2 ^ 22 := rfl
    rw [harea] at hlt
    have hoff : t.placeOf (0 * t.w + 0) * t.bytesPp ≤ 2 ^ 24 := by
      rcases hb with hb | hb <;> rw [hb] <;> omega
    have htest : ¬ t.srcLeft data.length < u32 (t.placeOf (0 * t.w + 0) * t.bytesPp + t.bytesPp) := by
      rw [h.accepted.u32_off hplace.1]
      omega
    have hout : ¬ PixelInside data (t.src + t.placeOf (0 * t.w + 0) * t.bytesPp) := by
      intro hinside
      have hfirst := hinside 0 (by norm_num)
      unfold u32 at hfirst
      unfold TgaHeader.src at hfirst hsrc
      rw [Nat.mod_eq_of_lt (by omega)] at hfirst
      omega
    rw [tgaRow, tgaRow, Access.ok_bind]
    dsimp only
    rw [if_neg Bool.noConfusion, hplace.2, if_neg htest, pixelAt_of_outside hout]
    rfl
  | succ n ih =>
    rw [tgaRow, ih]
    rfl

theorem tgaRows_outside {t : TgaHeader} {pixels : ℕ → ℕ} (h : TgaAccepts data t)
    (hsize : data.length < 2 ^ 32) (hsrc : data.length < t.src) {n : ℕ} (hn : 0 < n) :
    tgaRows data t n pixels = .error .read := by
  obtain ⟨⟨hw, -⟩, -, -⟩ := h.accepted.bounds
  induction n with
  | zero => omega
  | succ n ih =>
    rw [tgaRows]
    cases n with
    | zero =>
      have hrow := @tgaRow_outside data t pixels h hsize hsrc (t.w - 1)
      rw [Nat.sub_add_cancel hw] at hrow
      exact hrow
    | succ n =>
      rw [ih (Nat.succ_pos n)]
      rfl

/-- **An image behind the end of its file** is not read from the file: `src_left` goes round. -/
theorem tgaDecode_outside {t : TgaHeader} {pixels : ℕ → ℕ} (h : TgaAccepts data t)
    (hsize : data.length < 2 ^ 32) (hsrc : data.length < t.src) :
    tgaDecode data t pixels = .error .read := by
  have hid := h.idLen_lt
  have h18 := h.size
  obtain ⟨⟨hw, hwmax⟩, ⟨hh, hhmax⟩, hb⟩ := h.accepted.bounds
  have hleft : 2 ^ 31 < t.srcLeft data.length := by
    unfold TgaHeader.srcLeft TgaHeader.src at *
    omega
  have hout : data.length ≤ u32 (t.src + 0) := by
    unfold TgaHeader.src u32 at *
    omega
  unfold tgaDecode
  split_ifs
  · rw [tgaRows_outside h hsize hsrc (by omega)]
    rfl
  · rw [tgaPackets, if_pos ⟨Nat.mul_pos hw hh, by dsimp only; omega⟩, byteAt_of_le hout]
    rfl

theorem tga_bounded_iff (hsize : data.length < 2 ^ 32) : Bounded (imageLoadTga data) ↔ TgaSound data := by
  rcases imageLoadTga_cases hsize with ⟨t, haccepts, hload⟩ | ⟨hnone, hload⟩
  swap
  · refine ⟨fun _ t h => absurd h (hnone t), fun _ img pixels => ⟨false, img, pixels, hload _ _, ?_⟩⟩
    intro h
    cases h
  have hacc := haccepts.accepted
  obtain ⟨⟨hwpos, hw⟩, ⟨hhpos, hh⟩, -⟩ := hacc.bounds
  constructor
  · intro h t' h'
    obtain rfl := Except.ok.inj (haccepts.header.symm.trans h'.header)
    by_contra hsrc
    obtain ⟨ok, img', pixels', heq, -⟩ := h ⟨0, 0, false⟩ fun _ => 0
    rw [hload, tgaDecode_outside h' hsize (Nat.lt_of_not_le hsrc)] at heq
    cases heq
  · intro h img pixels
    obtain ⟨m, hm, -, -, hdecode⟩ := tgaDecode_eq hacc hsize (h t haccepts)
    refine ⟨true, ⟨t.w, t.h, true⟩, _, by rw [hload, hdecode]; rfl, ?_⟩
    intro _
    refine ⟨⟨by dsimp only; omega, Int.ofNat_le.mpr hw⟩, ⟨by dsimp only; omega, Int.ofNat_le.mpr hh⟩, ?_⟩
    intro i hi
    have hge : t.w * t.h ≤ i := by
      dsimp only at hi
      exact_mod_cast hi
    split_ifs
    · exact if_neg (by omega)
    · exact if_neg (by omega)

/-- **When the two loaders are bounded.** -/
theorem image_loaders_bounded_iff (hsize : data.length < 2 ^ 32) :
    Bounded (imageLoadBmp data) ∧ Bounded (imageLoadTga data) ↔ BmpSound data ∧ TgaSound data :=
  and_congr (bmp_bounded_iff hsize) (tga_bounded_iff hsize)

/-- The header of a BMP file with 24 bits a pixel, from the data offset and the size on. -/
def smallBmpHeader (offset w h : List UInt8) : List UInt8 :=
  [0x42, 0x4D, 0, 0, 0, 0, 0, 0, 0, 0] ++ offset ++ [40, 0, 0, 0] ++ w ++ h ++ [1, 0, 24, 0] ++
    List.replicate 24 0

/-- A file of one pixel. -/
def onePixelBmp : List UInt8 :=
  smallBmpHeader [54, 0, 0, 0] [1, 0, 0, 0] [1, 0, 0, 0] ++ [0x33, 0x22, 0x11, 0]

theorem image_loaders_bounded_onePixelBmp :
    Bounded (imageLoadBmp onePixelBmp) ∧ Bounded (imageLoadTga onePixelBmp) := by
  refine (@image_loaders_bounded_iff onePixelBmp (by decide)).mpr ⟨?_, ?_⟩
  · intro hd h
    have hheader : readBmpHeader onePixelBmp = .ok ⟨54, 1, 1, 24, 0⟩ := by decide
    obtain rfl := Except.ok.inj (hheader.symm.trans h.header)
    refine ⟨by decide, ?_⟩
    intro y hy _
    obtain rfl : y = 0 := Nat.lt_one_iff.mp hy
    exact Or.inl (by decide)
  · intro t h
    have hheader : readTgaHeader onePixelBmp = .ok ⟨66, 0, 0, 40, 0, 0⟩ := by decide
    obtain rfl := Except.ok.inj (hheader.symm.trans h.header)
    exact absurd h.accepted (by decide)

/-- A file whose data offset is eight bytes before its beginning. -/
def wrappedBmp : List UInt8 :=
  smallBmpHeader [0xF8, 0xFF, 0xFF, 0xFF] [3, 0, 0, 0] [1, 0, 0, 0]

/-- The first pixel is read outside of the file. -/
theorem not_bounded_wrappedBmp : ¬ ∀ data : List UInt8, data.length < 2 ^ 32 →
    Bounded (imageLoadBmp data) ∧ Bounded (imageLoadTga data) := by
  intro hall
  obtain ⟨ok, img, pixels, heq, -⟩ := (hall wrappedBmp (by decide)).1 ⟨0, 0, false⟩ fun _ => 0
  have hread : (imageLoadBmp wrappedBmp ⟨0, 0, false⟩ fun _ => 0).map Prod.fst = .error .read := by decide
  rw [heq] at hread
  cases hread

end Microkernel
