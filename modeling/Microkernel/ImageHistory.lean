/-
# Images and the calls before them

Whether the image that `image_load` returns depends on the calls before it.  All loaders write into
one array of pixels, and the loaders for BMP and TGA files return true when a file ends early: the
pixels that it does not have are then those of the image before.
-/
import Microkernel.PngAgree
import Microkernel.PngWalk
import Microkernel.Runs
import Microkernel.TgaPackets

namespace Microkernel

/-! ## Histories -/

/-- A call of `image_load`. -/
structure LoadCall where
  data : List UInt8
  name : Option (List UInt8)
  img : LoadedImage

namespace ImageState

/-- The static variables before the first call; what is in memory before `inflate_out` is not known. -/
def start (before : ℤ → UInt8) : ImageState where
  mem := ⟨fun x => if x < 0 then before x else 0, fun _ => 0, fun _ => 0, fun _ => 0⟩
  pool := fun _ _ => 0
  nextSlot := 0

/-- The call returns, with this result. -/
def Returns (s : ImageState) (c : LoadCall) (r : Access (Bool × LoadedImage × ImageState)) : Prop :=
  ∃ fuel, imageLoad fuel c.data c.name c.img s = some r

/-- One call of a history. -/
def Call (s : ImageState) (c : LoadCall) (t : ImageState) : Prop :=
  c.data.length < 2 ^ 32 ∧ ∃ ok img, s.Returns c (.ok (ok, img, t))

/-- The state after some history. -/
def Reached (s : ImageState) : Prop := ∃ before calls, Run Call (start before) calls s

end ImageState

open ImageState

/-- If the first call returns true, so does the second, with an image of the same size and the same
pixels.  A call that reads outside of the file has no result that the file could give. -/
def SameImage : Access (Bool × LoadedImage × ImageState) → Access (Bool × LoadedImage × ImageState) → Prop
  | .ok a, .ok b =>
    a.1 = true → b.1 = true ∧ a.2.1.width = b.2.1.width ∧ a.2.1.height = b.2.1.height ∧
      ∀ i : ℕ, (i : ℤ) < a.2.1.width * a.2.1.height → a.2.1.pixel a.2.2 i = b.2.1.pixel b.2.2 i
  | _, _ => False

/-- For any two histories the file gives the same image. -/
def DependsOnFile (data : List UInt8) (name : Option (List UInt8)) : Prop :=
  ∀ s s', Reached s → Reached s' → ∀ img img' r, s.Returns ⟨data, name, img⟩ r →
    (∃ r', s'.Returns ⟨data, name, img'⟩ r') ∧ ∀ r', s'.Returns ⟨data, name, img'⟩ r' → SameImage r r'

/-! ## The condition -/

/-- Every row of an accepted BMP file is in the file. -/
def BmpWhole (data : List UInt8) : Prop :=
  ∀ hd, BmpAccepts data hd → ∀ y < hd.height.toNat, hd.RowFits data.length y ∧ hd.RowWhole data.length y

/-- An accepted TGA file has its identification, and as many pixels as the image. -/
def TgaWhole (data : List UInt8) : Prop :=
  ∀ t, TgaAccepts data t → t.src ≤ data.length ∧
    if t.imgType = 2 then t.w * t.h * t.bytesPp ≤ data.length - t.src
    else t.w * t.h ≤ (packetPixels t.bytesPp (data.drop t.src)).length

/-- A file that is decoded without looking at anything but the file. -/
def FileWhole (data : List UInt8) (name : Option (List UInt8)) : Prop :=
  match imageFormat data name with
  | .png => WalkBounded data ∧ PngInside data
  | .bmp => BmpWhole data
  | .tga => TgaWhole data

/-! ## After the decoder -/

variable {data : List UInt8} {name : Option (List UInt8)} {s s' : ImageState}

theorem imageDecode_png (hformat : imageFormat data name = .png) (fuel : ℕ) (img : Image) (mem : ImageMem) :
    imageDecode fuel data name img mem = (imageLoadPng fuel data img mem).map .ok := by
  unfold imageDecode
  rw [hformat]

theorem imageDecode_bmp (hformat : imageFormat data name = .bmp) (fuel : ℕ) (img : Image) (mem : ImageMem) :
    imageDecode fuel data name img mem = some ((imageLoadBmp data img mem.pixels).map fun r =>
      (r.1, r.2.1, { mem with pixels := r.2.2 })) := by
  unfold imageDecode
  rw [hformat]

theorem imageDecode_tga (hformat : imageFormat data name = .tga) (fuel : ℕ) (img : Image) (mem : ImageMem) :
    imageDecode fuel data name img mem = some ((imageLoadTga data img mem.pixels).map fun r =>
      (r.1, r.2.1, { mem with pixels := r.2.2 })) := by
  unfold imageDecode
  rw [hformat]

/-- The image that is kept has the pixels of the array. -/
theorem imageKeep_pixel {place : PixelPlace} {r : Bool × Image × ImageMem} (hok : r.1 = true)
    (hvalid : r.2.1.valid = true) :
    (imageKeep place s r).2.1.toImage = r.2.1 ∧ ∀ i : ℕ, (i : ℤ) < r.2.1.width * r.2.1.height →
      (imageKeep place s r).2.1.pixel (imageKeep place s r).2.2 i = r.2.2.pixels i := by
  unfold imageKeep
  dsimp only
  rw [if_pos ⟨hok, hvalid⟩]
  split_ifs
  · refine ⟨rfl, ?_⟩
    intro i hi
    show Function.update s.pool s.nextSlot _ s.nextSlot i = _
    rw [Function.update_self, if_pos hi]
  · exact ⟨rfl, fun i _ => rfl⟩

theorem imageKeep_fst {place : PixelPlace} {r : Bool × Image × ImageMem} :
    (imageKeep place s r).1 = r.1 := by
  unfold imageKeep
  dsimp only
  split_ifs <;> rfl

theorem SamePicture.keep {place place' : PixelPlace} {r r' : Bool × Image × ImageMem}
    (h : SamePicture r r') : SameImage (.ok (imageKeep place s r)) (.ok (imageKeep place' s' r')) := by
  dsimp only [SameImage]
  rw [imageKeep_fst, imageKeep_fst]
  intro hok
  obtain ⟨hsize, hvalid⟩ := h.size hok
  have hok' : r'.1 = true := h.value ▸ hok
  obtain ⟨himg, hpixel⟩ := @imageKeep_pixel s place r hok hvalid
  obtain ⟨himg', hpixel'⟩ := @imageKeep_pixel s' place' r' hok' (hsize ▸ hvalid)
  refine ⟨hok', ?_, ?_, ?_⟩
  · rw [himg, himg', hsize]
  · rw [himg, himg', hsize]
  · intro i hi
    rw [himg] at hi
    rw [hpixel i hi, hpixel' i (hsize ▸ hi)]
    exact h.pixels hok i hi

/-- More rounds do not change the result. -/
theorem imageLoad_mono {fuel fuel' : ℕ} {img : LoadedImage}
    {r : Access (Bool × LoadedImage × ImageState)} (hle : fuel ≤ fuel')
    (h : imageLoad fuel data name img s = some r) : imageLoad fuel' data name img s = some r := by
  unfold imageLoad at h ⊢
  obtain ⟨a, ha, rfl⟩ := Option.map_eq_some_iff.mp h
  refine Option.map_eq_some_iff.mpr ⟨a, ?_, rfl⟩
  unfold imageDecode at ha ⊢
  cases hformat : imageFormat data name with
  | png =>
    rw [hformat] at ha
    obtain ⟨b, hb, rfl⟩ := Option.map_eq_some_iff.mp ha
    exact Option.map_eq_some_iff.mpr ⟨b, imageLoadPng_mono hle hb, rfl⟩
  | bmp =>
    rw [hformat] at ha
    exact ha
  | tga =>
    rw [hformat] at ha
    exact ha

/-- Two decoders that read the file only, with the same picture. -/
def SameDecoded (a a' : Access (Bool × Image × ImageMem)) : Prop :=
  ∃ r r', a = .ok r ∧ a' = .ok r' ∧ SamePicture r r'

/-- **A decoder that does not look at the buffers** makes the image depend on the file. -/
theorem dependsOnFile_of_decode (h : ∀ fuel img img' mem mem', Option.Rel SameDecoded
    (imageDecode fuel data name img mem) (imageDecode fuel data name img' mem')) :
    DependsOnFile data name := by
  intro s s' _ _ img img' r hr
  have hload : ∀ fuel, Option.Rel SameImage (imageLoad fuel data name img s)
      (imageLoad fuel data name img' s') := by
    intro fuel
    have hdecode := h fuel { img.toImage with valid := false } { img'.toImage with valid := false }
      s.mem s'.mem
    unfold imageLoad
    generalize imageDecode fuel data name { img.toImage with valid := false } s.mem = a at hdecode ⊢
    generalize imageDecode fuel data name { img'.toImage with valid := false } s'.mem = a' at hdecode ⊢
    cases hdecode with
    | none => exact .none
    | some hsame =>
      obtain ⟨r, r', rfl, rfl, hpicture⟩ := hsame
      exact .some hpicture.keep
  obtain ⟨fuel, hfuel⟩ := hr
  refine ⟨?_, ?_⟩
  · have hrel := hload fuel
    rw [hfuel] at hrel
    cases hs' : imageLoad fuel data name img' s' with
    | none =>
      rw [hs'] at hrel
      cases hrel
    | some r' => exact ⟨r', fuel, hs'⟩
  · rintro r' ⟨fuel', hfuel'⟩
    have hrel := hload (max fuel fuel')
    rw [imageLoad_mono (Nat.le_max_left _ _) hfuel, imageLoad_mono (Nat.le_max_right _ _) hfuel'] at hrel
    cases hrel with
    | some hsame => exact hsame

/-! ## Two histories -/

def whitePixel : Vector UInt8 3 := #v[255, 255, 255]

/-- A white picture of the largest size, in one run after the other. -/
def whitePicture : Tga.Picture where
  width := 2048
  height := 2048
  bytesPp := 3
  hwidth := by decide
  hheight := by decide
  hbytesPp := by decide
  mapType := 0
  other := fun _ => 0
  desc := 0
  ident := []
  hident := by decide
  pixels := List.replicate (2048 * 2048) whitePixel
  hpixels := List.length_replicate

def whitePackets : List (Tga.Packet 3) := List.replicate 32768 (.run 128 (by decide) whitePixel)

theorem flatMap_replicate {α β : Type} (f : α → List β) (a : α) (n : ℕ) {m : ℕ} {b : β}
    (hf : f a = List.replicate m b) : (List.replicate n a).flatMap f = List.replicate (n * m) b := by
  induction n with
  | zero => rw [Nat.zero_mul]; rfl
  | succ n ih =>
    rw [List.replicate_succ, List.flatMap_cons, ih, hf, Nat.succ_mul, Nat.add_comm,
      List.replicate_add]

theorem whitePackets_pixels : whitePackets.flatMap Tga.Packet.pixels = whitePicture.pixels :=
  @flatMap_replicate _ _ Tga.Packet.pixels (.run 128 (by decide) whitePixel) 32768 128 whitePixel rfl

/-- The file of the white picture. -/
def whiteFile : List UInt8 := whitePicture.packetFile whitePackets []

theorem length_whiteFile : whiteFile.length < 2 ^ 32 := by
  have hbytes : (whitePackets.flatMap Tga.Packet.bytes).length = 32768 * 4 := by
    unfold whitePackets
    rw [List.length_flatMap, List.map_replicate, List.sum_replicate]
    rfl
  have hfile : ∀ body : List UInt8, body.length = 32768 * 4 →
      (whitePicture.header 10 ++ (body ++ [])).length < 2 ^ 32 := by
    intro body hbody
    rw [List.append_nil, List.length_append, hbody, Tga.Picture.length_header]
    decide
  exact hfile _ hbytes

theorem imageKeep_mem {place : PixelPlace} {r : Bool × Image × ImageMem} :
    (imageKeep place s r).2.2.mem = r.2.2 := by
  unfold imageKeep
  dsimp only
  split_ifs <;> rfl

/-- The loader for a call without a name and without a magic number. -/
theorem imageFormat_whiteFile : imageFormat whiteFile none = .tga := by
  have hfile : ∀ body, imageFormat (whitePicture.header 10 ++ body) none = .tga := by
    intro body
    have hhead : (whitePicture.header 10 ++ body).take 8 = [0, 0, 10, 0, 0, 0, 0, 0] := rfl
    have hhead' : (whitePicture.header 10 ++ body).take 2 = [0, 0] := rfl
    unfold imageFormat
    rw [hhead, hhead', if_neg fun h => absurd h.2 (by decide), if_neg fun h => absurd h.2 (by decide)]
    rfl
  exact hfile _

theorem shown_white (pixels : ℕ → ℕ) {i : ℕ} (hi : i < 2 ^ 22) : whitePicture.shown pixels i = 0xFFFFFF := by
  have harea : i < whitePicture.width * whitePicture.height := hi
  have hlt : whitePicture.numberAt i < 2048 * 2048 := by
    have hplace := @TgaHeader.placeOf_lt i (whitePicture.tgaHeader 10) harea
    rwa [(@TgaHeader.placeOf_eq i (whitePicture.tgaHeader 10) harea).2] at hplace
  have hcolours : whitePicture.colours = List.replicate (2048 * 2048) 0xFFFFFF := List.map_replicate
  unfold Tga.Picture.shown
  rw [if_pos harea, hcolours, List.getD_eq_getElem _ _ (by rw [List.length_replicate]; exact hlt),
    List.getElem_replicate]

theorem imageLoadTga_whiteFile (img : Image) (pixels : ℕ → ℕ) :
    imageLoadTga whiteFile img pixels = .ok (true, ⟨2048, 2048, true⟩, whitePicture.shown pixels) := by
  have haccepts : TgaAccepts whiteFile (whitePicture.tgaHeader 10) :=
    (@Tga.Picture.accepts_header whitePicture 10 (whitePackets.flatMap Tga.Packet.bytes ++ []) (Or.inr rfl)).1
  have hdecode : tgaDecode whiteFile (whitePicture.tgaHeader 10) pixels = .ok (whitePicture.shown pixels) :=
    @Tga.Picture.tgaDecode_packetFile whitePicture whitePackets [] whitePackets_pixels length_whiteFile pixels
  rw [imageLoadTga_of_accepts haccepts length_whiteFile, hdecode]
  rfl

/-- **After the white picture every pixel of the array is white.** -/
theorem exists_white : ∃ s, Reached s ∧ ∀ i < 2 ^ 22, s.mem.pixels i = 0xFFFFFF := by
  obtain ⟨r, hr⟩ : ∃ r : Bool × Image × ImageMem, r = (true, ⟨2048, 2048, true⟩,
      { (start fun _ => 0).mem with pixels := whitePicture.shown (start fun _ => 0).mem.pixels }) := ⟨_, rfl⟩
  have hload : imageLoad 0 whiteFile none ⟨⟨0, 0, false⟩, .shared⟩ (start fun _ => 0) =
      some (.ok (imageKeep .shared (start fun _ => 0) r)) := by
    unfold imageLoad
    rw [imageDecode_tga imageFormat_whiteFile, imageLoadTga_whiteFile, hr]
    rfl
  refine ⟨(imageKeep .shared (start fun _ => 0) r).2.2,
    ⟨fun _ => 0, [⟨whiteFile, none, ⟨⟨0, 0, false⟩, .shared⟩⟩],
      .cons ⟨length_whiteFile, _, _, 0, hload⟩ (.nil _)⟩, ?_⟩
  intro i hi
  rw [imageKeep_mem, hr]
  exact shown_white _ hi

/-- Before the first call every pixel is black. -/
theorem reached_start : Reached (start fun _ => 0) := ⟨_, [], .nil _⟩

/-- **A pixel that is not written** is from the image before. -/
theorem not_dependsOnFile_of_kept {w h : ℤ} {f : (ℕ → ℕ) → ℕ → ℕ} {i : ℕ}
    (hdecode : ∀ img mem, imageDecode 0 data name img mem =
      some (.ok (true, ⟨w, h, true⟩, { mem with pixels := f mem.pixels })))
    (hi : (i : ℤ) < w * h) (hlt : i < 2 ^ 22) (hkept : ∀ p, f p i = p i) : ¬ DependsOnFile data name := by
  intro hall
  obtain ⟨s, hreached, hwhite⟩ := exists_white
  have hload : ∀ t : ImageState, imageLoad 0 data name ⟨⟨0, 0, false⟩, .shared⟩ t =
      some (.ok (imageKeep .shared t (true, ⟨w, h, true⟩, { t.mem with pixels := f t.mem.pixels }))) := by
    intro t
    unfold imageLoad
    rw [hdecode]
    rfl
  have hsame := (hall _ _ reached_start hreached _ _ _ ⟨0, hload _⟩).2 _ ⟨0, hload s⟩
  obtain ⟨-, -, -, hpixels⟩ := hsame imageKeep_fst
  obtain ⟨himg, hpixel⟩ := @imageKeep_pixel (start fun _ => 0) .shared
    (true, ⟨w, h, true⟩, { (start fun _ => 0).mem with pixels := f (start fun _ => 0).mem.pixels }) rfl rfl
  obtain ⟨-, hpixel'⟩ := @imageKeep_pixel s .shared
    (true, ⟨w, h, true⟩, { s.mem with pixels := f s.mem.pixels }) rfl rfl
  rw [himg] at hpixels
  have heq := hpixels i hi
  rw [hpixel i hi, hpixel' i hi] at heq
  dsimp only at heq
  rw [hkept, hkept, hwhite i hlt] at heq
  cases heq

/-- A decoder that reads outside of the file. -/
theorem not_dependsOnFile_of_outside
    (hdecode : ∀ img mem, imageDecode 0 data name img mem = some (.error .read)) :
    ¬ DependsOnFile data name := by
  intro hall
  have hload : ∀ t : ImageState, imageLoad 0 data name ⟨⟨0, 0, false⟩, .shared⟩ t = some (.error .read) := by
    intro t
    unfold imageLoad
    rw [hdecode]
    rfl
  exact (hall _ _ reached_start reached_start _ _ _ ⟨0, hload _⟩).2 _ ⟨0, hload _⟩

/-! ## BMP files -/

/-- The rows of a whole file are all read. -/
theorem rowsRead_of_whole {hd : BmpHeader} (h : ∀ y < hd.height.toNat, hd.RowFits data.length y) :
    hd.rowsRead data.length hd.height.toNat 0 = hd.height.toNat := by
  apply le_antisymm BmpHeader.rowsRead_le
  by_contra hlt
  have hread := (@BmpHeader.lt_rowsRead_iff hd 0 hd.height.toNat data.length
    (hd.rowsRead data.length hd.height.toNat 0)).mpr ⟨Nat.lt_of_not_le hlt, ?_⟩
  · exact lt_irrefl _ hread
  · intro i hi
    rw [Nat.zero_add]
    exact h i (by omega)

/-- **A BMP file gives the same image after any history** exactly if it is whole. -/
theorem bmp_dependsOnFile_iff (hformat : imageFormat data name = .bmp) (hsize : data.length < 2 ^ 32) :
    DependsOnFile data name ↔ BmpWhole data := by
  have hdecode := imageDecode_bmp hformat
  rcases imageLoadBmp_cases hsize with ⟨hd, haccepts, hload⟩ | ⟨hnone, hload⟩
  swap
  · refine ⟨fun _ hd h => absurd h (hnone hd), fun _ => dependsOnFile_of_decode ?_⟩
    intro fuel img img' mem mem'
    rw [hdecode, hdecode, hload, hload]
    exact .some ⟨_, _, rfl, rfl, .of_false⟩
  have hacc := haccepts.accepted
  obtain ⟨⟨hwpos, hw⟩, hwidth, hheight, -⟩ := hacc.bounds
  have hrows : ∀ j < hd.rowsRead data.length hd.height.toNat 0, hd.RowFits data.length (0 + j) := by
    intro j hj
    exact (BmpHeader.lt_rowsRead_iff.mp hj).2 j le_rfl
  constructor
  · intro h
    -- a row that is read is in the file
    have hinside : ∀ j < hd.rowsRead data.length hd.height.toNat 0, ∀ x < hd.width,
        PixelInside data (hd.rowAt (0 + j) + x * hd.bytesPp) := by
      intro j hj x hx
      by_contra hout
      refine not_dependsOnFile_of_outside ?_ h
      intro img mem
      rw [hdecode, hload, bmpRows_outside ⟨j, hj, x, hx, hout⟩ hacc.area_le]
      rfl
    -- and no row is left out
    have hall : hd.rowsRead data.length hd.height.toNat 0 = hd.height.toNat := by
      by_contra hne
      have hlt : hd.rowsRead data.length hd.height.toNat 0 < hd.height.toNat :=
        lt_of_le_of_ne BmpHeader.rowsRead_le hne
      have hplace : hd.rowsRead data.length hd.height.toNat 0 * hd.width <
          hd.height.toNat * hd.width := Nat.mul_lt_mul_of_pos_right hlt hwpos
      have harea := hacc.area_le
      rw [Nat.zero_add] at harea
      refine @not_dependsOnFile_of_kept data name hd.w hd.height (fun p i =>
        if 0 * hd.width ≤ i ∧ i < (0 + hd.rowsRead data.length hd.height.toNat 0) * hd.width then
          pixelValue data (hd.rowAt (i / hd.width) + i % hd.width * hd.bytesPp)
        else p i) (hd.rowsRead data.length hd.height.toNat 0 * hd.width) ?_ ?_ ?_ ?_ h
      · intro img mem
        rw [hdecode, hload, bmpRows_eq hinside hacc.area_le]
        rfl
      · have hcast : ((hd.height.toNat * hd.width : ℕ) : ℤ) = hd.w * hd.height := by
          rw [Nat.cast_mul, Int.toNat_of_nonneg (by omega), hwidth, mul_comm]
        rw [← hcast]
        exact_mod_cast hplace
      · exact lt_of_lt_of_le hplace harea
      · intro p
        rw [Nat.zero_add, if_neg fun hin => lt_irrefl _ hin.2]
    intro hd' h'
    obtain rfl := Except.ok.inj (haccepts.header.symm.trans h'.header)
    intro y hy
    have hfits := hrows y (by omega)
    have hrow := hinside y (by omega)
    rw [Nat.zero_add] at hfits hrow
    exact ⟨hfits, (BmpHeader.row_inside_iff hacc hsize hfits).mp hrow⟩
  · intro h
    have hwhole := h hd haccepts
    have hall := @rowsRead_of_whole data hd fun y hy => (hwhole y hy).1
    have hinside : ∀ j < hd.rowsRead data.length hd.height.toNat 0, ∀ x < hd.width,
        PixelInside data (hd.rowAt (0 + j) + x * hd.bytesPp) := by
      intro j hj
      rw [Nat.zero_add]
      obtain ⟨hfits, hrow⟩ := hwhole j (by omega)
      exact (BmpHeader.row_inside_iff hacc hsize hfits).mpr hrow
    refine dependsOnFile_of_decode ?_
    intro fuel img img' mem mem'
    rw [hdecode, hdecode, hload, hload, bmpRows_eq hinside hacc.area_le, bmpRows_eq hinside hacc.area_le]
    refine .some ⟨_, _, rfl, rfl, rfl, fun _ => ⟨rfl, rfl⟩, ?_⟩
    intro _ i hi
    dsimp only at hi ⊢
    have hlt : i < (0 + hd.rowsRead data.length hd.height.toNat 0) * hd.width := by
      rw [Nat.zero_add, hall]
      rw [hwidth] at hi
      have hpos : 0 ≤ hd.height := by
        by_contra hneg
        have hprod : (hd.width : ℤ) * hd.height ≤ 0 :=
          mul_nonpos_of_nonneg_of_nonpos (Int.natCast_nonneg _) (by omega)
        omega
      zify
      rw [Int.toNat_of_nonneg hpos, mul_comm]
      exact hi
    rw [if_pos ⟨by omega, hlt⟩, if_pos ⟨by omega, hlt⟩]

/-! ## TGA files -/

/-- The loop over the pixels comes to the end exactly if the file has as many as the image. -/
theorem wholeRaw_iff {t : TgaHeader} {m : ℕ} (hacc : t.Accepted) (hsize : data.length < 2 ^ 32)
    (hsrc : t.src ≤ data.length) (hm : m ≤ t.w * t.h) (hfits : ∀ i < m, t.PixelFits data.length i)
    (hstop : m < t.w * t.h → ¬ t.PixelFits data.length m) :
    m = t.w * t.h ↔ t.w * t.h * t.bytesPp ≤ data.length - t.src := by
  obtain ⟨⟨hw, -⟩, ⟨hh, -⟩, -⟩ := hacc.bounds
  have harea : 0 < t.w * t.h := Nat.mul_pos hw hh
  unfold TgaHeader.PixelFits at hfits hstop
  rw [TgaHeader.srcLeft_eq hsize hsrc] at hfits hstop
  constructor
  · intro hall
    -- the pixel that is last in the file
    have hlast : t.w * t.h - 1 < t.w * t.h := by omega
    have hfit := hfits (t.placeOf (t.w * t.h - 1)) (hall ▸ TgaHeader.placeOf_lt hlast)
    rw [TgaHeader.placeOf_placeOf hlast, ← Nat.succ_mul, Nat.succ_eq_add_one,
      Nat.sub_add_cancel harea] at hfit
    exact hfit
  · intro hroom
    by_contra hne
    have hlt : m < t.w * t.h := lt_of_le_of_ne hm hne
    have hmul : (t.placeOf m + 1) * t.bytesPp ≤ t.w * t.h * t.bytesPp :=
      Nat.mul_le_mul_right _ (TgaHeader.placeOf_lt hlt)
    rw [Nat.succ_mul] at hmul
    exact hstop hlt (le_trans hmul hroom)

/-- **A TGA file gives the same image after any history** exactly if it is whole. -/
theorem tga_dependsOnFile_iff (hformat : imageFormat data name = .tga) (hsize : data.length < 2 ^ 32) :
    DependsOnFile data name ↔ TgaWhole data := by
  have hdecode := imageDecode_tga hformat
  rcases imageLoadTga_cases hsize with ⟨t, haccepts, hload⟩ | ⟨hnone, hload⟩
  swap
  · refine ⟨fun _ t h => absurd h (hnone t), fun _ => dependsOnFile_of_decode ?_⟩
    intro fuel img img' mem mem'
    rw [hdecode, hdecode, hload, hload]
    exact .some ⟨_, _, rfl, rfl, .of_false⟩
  have hacc := haccepts.accepted
  obtain ⟨⟨hwpos, hw⟩, ⟨hhpos, hh⟩, hb⟩ := hacc.bounds
  have hlt : ∀ i < t.w * t.h, i < 2 ^ 22 := fun i hi => lt_of_lt_of_le hi hacc.area_le
  by_cases hsrc : t.src ≤ data.length
  swap
  · refine ⟨fun h => ?_, fun h => absurd (h t haccepts).1 hsrc⟩
    refine absurd h (not_dependsOnFile_of_outside ?_)
    intro img mem
    rw [hdecode, hload, tgaDecode_outside haccepts hsize (Nat.lt_of_not_le hsrc)]
    rfl
  have hunique : TgaWhole data ↔ if t.imgType = 2 then t.w * t.h * t.bytesPp ≤ data.length - t.src
      else t.w * t.h ≤ (packetPixels t.bytesPp (data.drop t.src)).length := by
    refine ⟨fun h => (h t haccepts).2, ?_⟩
    intro h t' h'
    obtain rfl := Except.ok.inj (haccepts.header.symm.trans h'.header)
    exact ⟨hsrc, h⟩
  obtain ⟨m, hm, hfits, hstop, heq⟩ := tgaDecode_eq hacc hsize hsrc
  have hresult : ∀ fuel img mem, imageDecode fuel data name img mem = some (.ok (true, ⟨t.w, t.h, true⟩,
      { mem with pixels := if t.imgType = 2 then
          fun i => if i < m then t.rawPixel data i else mem.pixels i
        else t.paint ((packetPixels t.bytesPp (data.drop t.src)).take (t.w * t.h)) mem.pixels })) := by
    intro fuel img mem
    rw [hdecode, hload, heq]
    rfl
  have hplace : ∀ i : ℕ, (i : ℤ) < t.w * t.h ↔ i < t.w * t.h := by
    intro i
    rw [← Nat.cast_mul]
    exact Int.ofNat_lt
  rw [hunique]
  by_cases htype : t.imgType = 2
  · -- not compressed: the file has all pixels if the loop comes to the end
    rw [if_pos htype, ← wholeRaw_iff hacc hsize hsrc hm hfits hstop]
    simp only [if_pos htype] at hresult
    constructor
    · intro h
      by_contra hne
      have hmlt : m < t.w * t.h := lt_of_le_of_ne hm hne
      exact @not_dependsOnFile_of_kept data name t.w t.h
        (fun p i => if i < m then t.rawPixel data i else p i) m (hresult 0) ((hplace m).mpr hmlt)
        (hlt m hmlt) (fun p => if_neg (lt_irrefl m)) h
    · intro hall
      refine dependsOnFile_of_decode ?_
      intro fuel img img' mem mem'
      rw [hresult, hresult]
      refine .some ⟨_, _, rfl, rfl, rfl, fun _ => ⟨rfl, rfl⟩, ?_⟩
      intro _ i hi
      have hin : i < m := hall ▸ (hplace i).mp hi
      dsimp only
      rw [if_pos hin, if_pos hin]
  · rw [if_neg htype]
    simp only [if_neg htype] at hresult
    generalize packetPixels t.bytesPp (data.drop t.src) = cols at hresult ⊢
    constructor
    · intro h
      by_contra hshort
      have hlast : cols.length < t.w * t.h := Nat.lt_of_not_le hshort
      have hin := TgaHeader.placeOf_lt hlast
      refine @not_dependsOnFile_of_kept data name t.w t.h (fun p => t.paint (cols.take (t.w * t.h)) p) _
        (hresult 0) ((hplace _).mpr hin) (hlt _ hin) ?_ h
      intro p
      unfold TgaHeader.paint
      rw [if_pos hin, TgaHeader.placeOf_placeOf hlast, List.take_of_length_le (by omega),
        List.getD_eq_default _ _ le_rfl]
    · intro hall
      refine dependsOnFile_of_decode ?_
      intro fuel img img' mem mem'
      rw [hresult, hresult]
      refine .some ⟨_, _, rfl, rfl, rfl, fun _ => ⟨rfl, rfl⟩, ?_⟩
      intro _ i hi
      have hin := (hplace i).mp hi
      have hcol : t.placeOf i < (cols.take (t.w * t.h)).length := by
        rw [List.length_take, Nat.min_eq_left hall]
        exact TgaHeader.placeOf_lt hin
      dsimp only
      unfold TgaHeader.paint
      rw [if_pos hin, if_pos hin, List.getD_eq_getElem _ _ hcol, List.getD_eq_getElem _ _ hcol]

/-! ## Files of any format -/

theorem png_dependsOnFile (hformat : imageFormat data name = .png) (h : PngInside data) :
    DependsOnFile data name := by
  refine dependsOnFile_of_decode ?_
  intro fuel img img' mem mem'
  rw [imageDecode_png hformat, imageDecode_png hformat]
  have hpng := @imageLoadPng_agrees mem mem' data h fuel img img'
  generalize imageLoadPng fuel data img mem = r at hpng ⊢
  generalize imageLoadPng fuel data img' mem' = r' at hpng ⊢
  cases hpng with
  | none => exact .none
  | some hsame => exact .some ⟨_, _, rfl, rfl, hsame⟩

/-- A BMP file of one pixel that ends behind its header. -/
def cutBmp : List UInt8 := smallBmpHeader [54, 0, 0, 0] [1, 0, 0, 0] [1, 0, 0, 0]

end Microkernel
