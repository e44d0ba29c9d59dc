/-
# TGA files: run-length and raw

The format of a TGA picture, as pixels one after the other and as packets, and that `image_load_tga`
shows the same picture for both: however the pixels are cut into packets.
-/
import Microkernel.ImageBounds

namespace Microkernel

namespace Tga

/-! ## The format -/

/-- A packet with pixels of `b` bytes: one pixel for a run, or pixels as they are. -/
inductive Packet (b : ℕ)
  | run (n : ℕ) (hn : 1 ≤ n ∧ n ≤ 128) (p : Vector UInt8 b)
  | raw (ps : List (Vector UInt8 b)) (hps : 1 ≤ ps.length ∧ ps.length ≤ 128)

variable {b : ℕ}

/-- The bytes of some pixels. -/
def pixelBytes (ps : List (Vector UInt8 b)) : List UInt8 := ps.flatMap Vector.toList

/-- The pixels of a packet. -/
def Packet.pixels : Packet b → List (Vector UInt8 b)
  | .run n _ p => List.replicate n p
  | .raw ps _ => ps

/-- A packet in a file: a byte with its kind and its length less one, and its pixels. -/
def Packet.bytes : Packet b → List UInt8
  | .run n _ p => UInt8.ofNat (128 + (n - 1)) :: p.toList
  | .raw ps _ => UInt8.ofNat (ps.length - 1) :: pixelBytes ps

/-- A picture with the other fields of its header; the pixels are in the order of the file. -/
structure Picture where
  width : ℕ
  height : ℕ
  bytesPp : ℕ
  hwidth : 1 ≤ width ∧ width ≤ imgMaxW
  hheight : 1 ≤ height ∧ height ≤ imgMaxH
  hbytesPp : bytesPp = 3 ∨ bytesPp = 4
  /-- Colour map and origin. -/
  mapType : UInt8
  other : Fin 9 → UInt8
  desc : UInt8
  ident : List UInt8
  hident : ident.length ≤ 255
  pixels : List (Vector UInt8 bytesPp)
  hpixels : pixels.length = width * height

namespace Picture

variable (P : Picture)

/-- The header for a type of image, with the identification. -/
def header (imgType : UInt8) : List UInt8 :=
  [UInt8.ofNat P.ident.length, P.mapType, imgType, P.other 0, P.other 1, P.other 2, P.other 3, P.other 4,
    P.other 5, P.other 6, P.other 7, P.other 8, UInt8.ofNat P.width, UInt8.ofNat (P.width / 256),
    UInt8.ofNat P.height, UInt8.ofNat (P.height / 256), UInt8.ofNat (8 * P.bytesPp), P.desc] ++ P.ident

/-- The file of type 2, with anything behind the picture. -/
def rawFile (tail : List UInt8) : List UInt8 := P.header 2 ++ (pixelBytes P.pixels ++ tail)

/-- The file of type 10. -/
def packetFile (packets : List (Packet P.bytesPp)) (tail : List UInt8) : List UInt8 :=
  P.header 10 ++ (packets.flatMap Packet.bytes ++ tail)

/-- Bit 5 of the descriptor: the first row is the upper one. -/
def topOrigin : Bool := P.desc &&& 0x20 ≠ 0

/-- The number in the file of the pixel that is shown at the place `i`, row by row from above. -/
def numberAt (i : ℕ) : ℕ :=
  (if P.topOrigin then i / P.width else P.height - 1 - i / P.width) * P.width + i % P.width

/-- The colours of the pixels. -/
def colours : List ℕ := P.pixels.map fun p => headPixel p.toList

/-- The array of pixels with the picture in it. -/
def shown (pixels : ℕ → ℕ) : ℕ → ℕ := fun i =>
  if i < P.width * P.height then P.colours.getD (P.numberAt i) 0 else pixels i

end Picture

/-! ## Pixels in a file -/

theorem length_pixelBytes (ps : List (Vector UInt8 b)) : (pixelBytes ps).length = ps.length * b := by
  induction ps with
  | nil => exact (Nat.zero_mul b).symm
  | cons p ps ih =>
    unfold pixelBytes at ih ⊢
    rw [List.flatMap_cons, List.length_append, ih, Vector.length_toList, List.length_cons, Nat.succ_mul,
      Nat.add_comm]

/-- The pixels from number `j` on. -/
theorem drop_pixelBytes (ps : List (Vector UInt8 b)) (rest : List UInt8) {j : ℕ} (hj : j ≤ ps.length) :
    (pixelBytes ps ++ rest).drop (j * b) = pixelBytes (ps.drop j) ++ rest := by
  have hsplit : pixelBytes ps = pixelBytes (ps.take j) ++ pixelBytes (ps.drop j) := by
    unfold pixelBytes
    rw [← List.flatMap_append, List.take_append_drop]
  have hlen : j * b = (pixelBytes (ps.take j)).length := by
    rw [length_pixelBytes, List.length_take, Nat.min_eq_left hj]
  rw [hsplit, hlen, List.append_assoc, List.drop_left]

theorem headPixel_append {l : List UInt8} (r : List UInt8) (h : 3 ≤ l.length) :
    headPixel (l ++ r) = headPixel l := by
  unfold headPixel
  rw [List.getD_append _ _ _ _ (by omega), List.getD_append _ _ _ _ (by omega),
    List.getD_append _ _ _ _ (by omega)]

/-- **A pixel of a file** has its colour. -/
theorem headPixel_drop (hb : 3 ≤ b) (ps : List (Vector UInt8 b)) (rest : List UInt8) {j : ℕ}
    (hj : j < ps.length) : headPixel ((pixelBytes ps ++ rest).drop (j * b)) = headPixel ps[j].toList := by
  rw [drop_pixelBytes ps rest (Nat.le_of_lt hj), List.drop_eq_getElem_cons hj]
  unfold pixelBytes
  rw [List.flatMap_cons, List.append_assoc, headPixel_append _ (by rw [Vector.length_toList]; exact hb)]

/-- Reading pixels one after the other. -/
theorem map_headPixel (hb : 3 ≤ b) (ps : List (Vector UInt8 b)) (rest : List UInt8) :
    ((List.range ps.length).map fun j => headPixel ((pixelBytes ps ++ rest).drop (j * b))) =
      ps.map fun p => headPixel p.toList := by
  apply List.ext_getElem
  · rw [List.length_map, List.length_map, List.length_range]
  · intro j hj hj'
    rw [List.length_map, List.length_range] at hj
    rw [List.getElem_map, List.getElem_map, List.getElem_range, headPixel_drop hb ps rest hj]

/-- **Packets have the colours of their pixels**, however they are cut. -/
theorem packetPixels_bytes (hb : 3 ≤ b) (packets : List (Packet b)) (tail : List UInt8) :
    packetPixels b (packets.flatMap Packet.bytes ++ tail) =
      ((packets.flatMap Packet.pixels).map fun p => headPixel p.toList) ++ packetPixels b tail := by
  induction packets with
  | nil => rfl
  | cons packet packets ih =>
    rw [List.flatMap_cons, List.flatMap_cons, List.map_append, List.append_assoc, List.append_assoc, ← ih]
    generalize packets.flatMap Packet.bytes ++ tail = rest
    cases packet with
    | run n hn p =>
      have hbyte : (UInt8.ofNat (128 + (n - 1))).toNat = 128 + (n - 1) := by
        rw [UInt8.toNat_ofNat']
        exact Nat.mod_eq_of_lt (by omega)
      have hp : p.toList.length = b := Vector.length_toList
      have hcount : (128 + (n - 1)) % 128 + 1 = n := by omega
      show packetPixels b (UInt8.ofNat (128 + (n - 1)) :: (p.toList ++ rest)) = _
      rw [packetPixels, hbyte, hcount]
      dsimp only
      rw [if_pos (by omega), if_neg (by rw [List.length_append, hp]; omega),
        headPixel_append rest (by omega), List.drop_left' hp]
      show _ = (List.replicate n p).map (fun p => headPixel p.toList) ++ _
      rw [List.map_replicate]
    | raw ps hps =>
      have hbyte : (UInt8.ofNat (ps.length - 1)).toNat = ps.length - 1 := by
        rw [UInt8.toNat_ofNat']
        exact Nat.mod_eq_of_lt (by omega)
      have hcount : (ps.length - 1) % 128 + 1 = ps.length := by omega
      have hroom : ps.length ≤ (pixelBytes ps ++ rest).length / b := by
        rw [Nat.le_div_iff_mul_le (by omega), List.length_append, length_pixelBytes]
        exact Nat.le_add_right _ _
      show packetPixels b (UInt8.ofNat (ps.length - 1) :: (pixelBytes ps ++ rest)) = _
      rw [packetPixels, hbyte, hcount]
      dsimp only
      rw [if_neg (by omega), Nat.min_eq_left hroom, map_headPixel hb ps rest,
        drop_pixelBytes ps rest le_rfl, List.drop_length]
      rfl

/-! ## The header -/

namespace Picture

variable {P : Picture} {imgType : UInt8} {body : List UInt8}

/-- The header that `image_load_tga` finds. -/
def tgaHeader (P : Picture) (imgType : UInt8) : TgaHeader :=
  ⟨P.ident.length, imgType.toNat, P.width, P.height, 8 * P.bytesPp, P.desc⟩

theorem readTgaHeader_header : readTgaHeader (P.header imgType ++ body) = .ok (P.tgaHeader imgType) := by
  have hw := P.hwidth.2
  have hh := P.hheight.2
  have hident := P.hident
  have hb := P.hbytesPp
  have hword : ∀ v : ℕ, v ≤ 2048 → (UInt8.ofNat v).toNat + (UInt8.ofNat (v / 256)).toNat * 2 ^ 8 = v := by
    intro v hv
    rw [UInt8.toNat_ofNat', UInt8.toNat_ofNat']
    omega
  have hshort : ∀ v : ℕ, v < 256 → (UInt8.ofNat v).toNat = v := by
    intro v hv
    rw [UInt8.toNat_ofNat']
    exact Nat.mod_eq_of_lt hv
  have hread : readTgaHeader (P.header imgType ++ body) = .ok
      ⟨(UInt8.ofNat P.ident.length).toNat, imgType.toNat,
        (UInt8.ofNat P.width).toNat + (UInt8.ofNat (P.width / 256)).toNat * 2 ^ 8,
        (UInt8.ofNat P.height).toNat + (UInt8.ofNat (P.height / 256)).toNat * 2 ^ 8,
        (UInt8.ofNat (8 * P.bytesPp)).toNat, P.desc⟩ := rfl
  rw [hread, hword _ hw, hword _ hh, hshort _ (by omega), hshort _ (by omega)]
  rfl

theorem length_header : (P.header imgType).length = 18 + P.ident.length := by
  unfold header
  rw [List.length_append]
  rfl

theorem bytesPp_tgaHeader : (P.tgaHeader imgType).bytesPp = P.bytesPp :=
  Nat.mul_div_cancel_left _ (by norm_num)

/-- A file of the picture is accepted, and its body is where the loader looks for it. -/
theorem accepts_header (htype : imgType = 2 ∨ imgType = 10) :
    TgaAccepts (P.header imgType ++ body) (P.tgaHeader imgType) ∧
      (P.header imgType ++ body).drop (P.tgaHeader imgType).src = body ∧
      (P.tgaHeader imgType).src + body.length = (P.header imgType ++ body).length := by
  have hlen := @length_header P imgType
  have hw := P.hwidth
  have hh := P.hheight
  have hb := P.hbytesPp
  refine ⟨⟨?_, readTgaHeader_header, ?_⟩, List.drop_left' hlen, ?_⟩
  · rw [List.length_append, hlen]
    omega
  · refine ⟨⟨?_, ?_, hw.2, hh.2⟩, ?_, ?_⟩
    · exact Nat.pos_iff_ne_zero.mp hw.1
    · exact Nat.pos_iff_ne_zero.mp hh.1
    · rcases htype with rfl | rfl
      · exact Or.inl rfl
      · exact Or.inr rfl
    · show 8 * P.bytesPp = 24 ∨ 8 * P.bytesPp = 32
      omega
  · rw [List.length_append, hlen]
    rfl

/-- Painting all colours shows the picture. -/
theorem paint_colours (pixels : ℕ → ℕ) : (P.tgaHeader imgType).paint P.colours pixels = P.shown pixels := by
  funext i
  unfold TgaHeader.paint shown
  by_cases hi : i < P.width * P.height
  · have hplace : (P.tgaHeader imgType).placeOf i = P.numberAt i :=
      (@TgaHeader.placeOf_eq i (P.tgaHeader imgType) hi).2
    have hlt : P.numberAt i < P.colours.length := by
      rw [← hplace]
      unfold colours
      rw [List.length_map, P.hpixels]
      exact @TgaHeader.placeOf_lt i (P.tgaHeader imgType) hi
    rw [if_pos hi, hplace, List.getD_eq_getElem _ _ hlt, List.getD_eq_getElem _ _ hlt]
    exact if_pos hi
  · rw [if_neg hi]
    exact if_neg hi

/-! ## The two files -/

/-- The file with packets shows the picture. -/
theorem tgaDecode_packetFile {packets : List (Packet P.bytesPp)} {tail : List UInt8}
    (hpackets : packets.flatMap Packet.pixels = P.pixels)
    (hsize : (P.packetFile packets tail).length < 2 ^ 32) (pixels : ℕ → ℕ) :
    tgaDecode (P.packetFile packets tail) (P.tgaHeader 10) pixels = .ok (P.shown pixels) := by
  obtain ⟨haccepts, hbody, hlen⟩ :=
    @accepts_header P 10 (packets.flatMap Packet.bytes ++ tail) (Or.inr rfl)
  have hb : 3 ≤ P.bytesPp := by
    have h := P.hbytesPp
    omega
  obtain ⟨m, -, -, -, hdecode⟩ := tgaDecode_eq haccepts.accepted hsize (hlen ▸ Nat.le_add_right _ _)
  have hcolours : P.colours.length = P.width * P.height := by
    unfold colours
    rw [List.length_map, P.hpixels]
  rw [packetFile] at hdecode ⊢
  rw [hdecode, hbody, bytesPp_tgaHeader, packetPixels_bytes hb, hpackets]
  have htake : (P.colours ++ packetPixels P.bytesPp tail).take (P.width * P.height) = P.colours :=
    List.take_left' hcolours
  show Except.ok ((P.tgaHeader 10).paint ((P.colours ++ packetPixels P.bytesPp tail).take
    (P.width * P.height)) pixels) = _
  rw [htake, paint_colours]

/-- The file without packets shows the picture. -/
theorem tgaDecode_rawFile {tail : List UInt8} (hsize : (P.rawFile tail).length < 2 ^ 32)
    (pixels : ℕ → ℕ) : tgaDecode (P.rawFile tail) (P.tgaHeader 2) pixels = .ok (P.shown pixels) := by
  unfold rawFile at hsize ⊢
  obtain ⟨haccepts, hbody, hlen⟩ := @accepts_header P 2 (pixelBytes P.pixels ++ tail) (Or.inl rfl)
  have hb : 3 ≤ P.bytesPp := by
    have h := P.hbytesPp
    omega
  have hsrc : (P.tgaHeader 2).src ≤ (P.header 2 ++ (pixelBytes P.pixels ++ tail)).length := hlen ▸ Nat.le_add_right _ _
  obtain ⟨m, hm, -, hstop, hdecode⟩ := tgaDecode_eq haccepts.accepted hsize hsrc
  -- every pixel is in the file
  have hleft : (P.tgaHeader 2).srcLeft (P.header 2 ++ (pixelBytes P.pixels ++ tail)).length =
      P.width * P.height * P.bytesPp + tail.length := by
    rw [TgaHeader.srcLeft_eq hsize hsrc]
    have hbytes : (pixelBytes P.pixels ++ tail).length = P.width * P.height * P.bytesPp + tail.length := by
      rw [List.length_append, length_pixelBytes, P.hpixels]
    omega
  have hfits : ∀ i < P.width * P.height, (P.tgaHeader 2).PixelFits (P.header 2 ++ (pixelBytes P.pixels ++ tail)).length i := by
    intro i hi
    have hlt := @TgaHeader.placeOf_lt i (P.tgaHeader 2) hi
    have hmul : ((P.tgaHeader 2).placeOf i + 1) * P.bytesPp ≤ P.width * P.height * P.bytesPp :=
      Nat.mul_le_mul_right _ hlt
    rw [Nat.succ_mul] at hmul
    unfold TgaHeader.PixelFits
    rw [hleft, bytesPp_tgaHeader]
    omega
  have hall : m = P.width * P.height := by
    by_contra hne
    have hlt : m < P.width * P.height := lt_of_le_of_ne hm hne
    exact hstop hlt (hfits m hlt)
  rw [hdecode, if_pos (show (P.tgaHeader 2).imgType = 2 from rfl), hall, ← @paint_colours P 2]
  congr 1
  funext i
  unfold TgaHeader.paint
  by_cases hi : i < P.width * P.height
  · have hlt : (P.tgaHeader 2).placeOf i < P.pixels.length := by
      rw [P.hpixels]
      exact @TgaHeader.placeOf_lt i (P.tgaHeader 2) hi
    have hplace : ((P.tgaHeader 2).placeOf i + 1) * P.bytesPp ≤ (pixelBytes P.pixels).length := by
      rw [length_pixelBytes]
      exact Nat.mul_le_mul_right _ hlt
    have hbytes : (pixelBytes P.pixels).length ≤ (pixelBytes P.pixels ++ tail).length :=
      List.length_append ▸ Nat.le_add_right _ _
    rw [Nat.succ_mul] at hplace
    rw [if_pos hi]
    unfold TgaHeader.rawPixel
    rw [pixelValue_eq (by rw [bytesPp_tgaHeader]; omega), ← List.drop_drop, hbody, bytesPp_tgaHeader,
      headPixel_drop hb _ _ hlt]
    have hcolour : P.colours.getD ((P.tgaHeader 2).placeOf i) (pixels i) =
        headPixel P.pixels[(P.tgaHeader 2).placeOf i].toList := by
      unfold colours
      rw [List.getD_eq_getElem _ _ (by rw [List.length_map]; exact hlt), List.getElem_map]
    rw [← hcolour]
    exact (if_pos hi).symm
  · rw [if_neg hi]
    exact (if_neg hi).symm

end Picture

end Tga

/-- What `image_load_tga` does with an accepted file. -/
theorem imageLoadTga_of_accepts {data : List UInt8} {t : TgaHeader} (h : TgaAccepts data t)
    (hsize : data.length < 2 ^ 32) (img : Image) (pixels : ℕ → ℕ) : imageLoadTga data img pixels =
      (tgaDecode data t pixels).map fun pixels => (true, ⟨t.w, t.h, true⟩, pixels) := by
  rcases imageLoadTga_cases hsize with ⟨t', h', hload⟩ | ⟨hnone, -⟩
  · obtain rfl := Except.ok.inj (h.header.symm.trans h'.header)
    exact hload img pixels
  · exact absurd h (hnone t)

/-- **Run-length coding of a TGA picture does not change it.**  For every way to cut the pixels into
packets, `image_load_tga` shows the picture for the file with packets and for the file without. -/
theorem tga_packets_eq_raw (P : Tga.Picture) (packets : List (Tga.Packet P.bytesPp))
    (hpackets : packets.flatMap Tga.Packet.pixels = P.pixels) (tail tail' : List UInt8)
    (hsize : (P.packetFile packets tail).length < 2 ^ 32) (hsize' : (P.rawFile tail').length < 2 ^ 32)
    (img : Image) (pixels : ℕ → ℕ) :
    imageLoadTga (P.packetFile packets tail) img pixels =
        .ok (true, ⟨P.width, P.height, true⟩, P.shown pixels) ∧
      imageLoadTga (P.rawFile tail') img pixels =
        .ok (true, ⟨P.width, P.height, true⟩, P.shown pixels) := by
  obtain ⟨haccepts, -⟩ :=
    @Tga.Picture.accepts_header P 10 (packets.flatMap Tga.Packet.bytes ++ tail) (Or.inr rfl)
  obtain ⟨haccepts', -⟩ :=
    @Tga.Picture.accepts_header P 2 (Tga.pixelBytes P.pixels ++ tail') (Or.inl rfl)
  have hdecode := Tga.Picture.tgaDecode_packetFile hpackets hsize pixels
  have hdecode' := Tga.Picture.tgaDecode_rawFile hsize' pixels
  unfold Tga.Picture.packetFile at hdecode hsize ⊢
  unfold Tga.Picture.rawFile at hdecode' hsize' ⊢
  rw [imageLoadTga_of_accepts haccepts hsize, imageLoadTga_of_accepts haccepts' hsize', hdecode, hdecode']
  exact ⟨rfl, rfl⟩

theorem bytesPp_three : 3 = 3 ∨ 3 = 4 := Or.inl rfl

/-- Two red pixels over a blue one and a green one; the first row of the file is the lower one. -/
def fourPixels : Tga.Picture where
  width := 2
  height := 2
  bytesPp := 3
  hwidth := by decide
  hheight := by decide
  hbytesPp := bytesPp_three
  mapType := 0
  other := fun _ => 0
  desc := 0
  ident := [0x61]
  hident := by decide
  pixels := [#v[255, 0, 0], #v[0, 255, 0], #v[0, 0, 255], #v[0, 0, 255]]
  hpixels := rfl

/-- A raw packet and a run. -/
theorem tga_packets_eq_raw_fourPixels :
    imageLoadTga (fourPixels.packetFile
      [.raw [#v[255, 0, 0], #v[0, 255, 0]] (by decide), .run 2 (by decide) #v[0, 0, 255]] []) ⟨0, 0, false⟩
        (fun _ => 0) = .ok (true, ⟨2, 2, true⟩, fourPixels.shown fun _ => 0) ∧
      imageLoadTga (fourPixels.rawFile []) ⟨0, 0, false⟩ (fun _ => 0) =
        .ok (true, ⟨2, 2, true⟩, fourPixels.shown fun _ => 0) :=
  tga_packets_eq_raw fourPixels
    [.raw [#v[255, 0, 0], #v[0, 255, 0]] (by decide), .run 2 (by decide) #v[0, 0, 255]] rfl [] []
    (by decide) (by decide) ⟨0, 0, false⟩ fun _ => 0

end Microkernel
