/-
# Inflate is correct

The decoder follows a valid stream block by block: at each block, and inside a block at each
token, the reader stands at the bit where it begins and the output holds the bytes so far.  So
for every valid stream whose bytes fit, the decoder returns their number and has written them.
-/
import Microkernel.Deflate
import Microkernel.InflateTrees

open BitStream PrefixCode

namespace Microkernel

/-- The memory with the given bytes at the start of the output. -/
def writeBytes (out : ℤ → UInt8) (bs : List UInt8) : ℤ → UInt8 := fun x =>
  if 0 ≤ x ∧ x < bs.length then bs.getD x.toNat 0 else out x

/-- The decoder at bit `p` with the bytes `done` behind it. -/
def inflaterAt (src : List UInt8) (out : ℤ → UInt8) (p : ℕ) (done : List UInt8) : Inflater :=
  ⟨readerAt src p, writeBytes out done, done.length⟩

variable {src : List UInt8} {out : ℤ → UInt8} {p : ℕ} {done : List UInt8} {omax : ℤ}

/-! ## Output -/

theorem writeBytes_nil (out : ℤ → UInt8) : writeBytes out [] = out := by
  funext x
  rw [writeBytes, if_neg]
  rintro ⟨h0, hx⟩
  simp only [List.length_nil] at hx
  omega

theorem writeBytes_concat (out : ℤ → UInt8) (done : List UInt8) (v : UInt8) :
    writeBytes out (done ++ [v]) =
      fun x => if x = (done.length : ℤ) then v else writeBytes out done x := by
  funext x
  simp only [writeBytes, List.length_append, List.length_singleton]
  by_cases heq : x = (done.length : ℤ)
  · rw [if_pos heq, if_pos (by omega), heq, Int.toNat_natCast, List.getD_append_right _ _ _ _ le_rfl,
      Nat.sub_self]
    rfl
  · rw [if_neg heq]
    by_cases hx : 0 ≤ x ∧ x < (done.length : ℤ)
    · rw [if_pos hx, if_pos (by omega), List.getD_append _ _ _ _ (by omega)]
    · rw [if_neg hx, if_neg (by omega)]

theorem writeBytes_back {d : ℕ} (hd : 0 < d) (hle : d ≤ done.length) :
    writeBytes out done ((done.length : ℤ) - d) = done.getD (done.length - d) 0 := by
  rw [writeBytes, if_pos (by omega)]
  congr 1
  omega

/-- A byte for which there is room. -/
theorem put_inflaterAt (b : Bits) (v : UInt8) (hroom : (done.length : ℤ) < omax) :
    Inflater.put omax ⟨b, writeBytes out done, done.length⟩ v =
      ⟨b, writeBytes out (done ++ [v]), (done ++ [v]).length⟩ := by
  rw [Inflater.put, if_pos hroom, writeBytes_concat, List.length_append, List.length_singleton]

/-- A copy for which there is room. -/
theorem copy_inflaterAt (b : Bits) {d n : ℕ} (hd : 0 < d) (hle : d ≤ done.length)
    (hroom : ((Deflate.copyBack d n done).length : ℤ) ≤ omax) :
    Inflater.copy omax d n ⟨b, writeBytes out done, done.length⟩ =
      ⟨b, writeBytes out (Deflate.copyBack d n done), (Deflate.copyBack d n done).length⟩ := by
  induction n generalizing done with
  | zero => rfl
  | succ n ih =>
    have hlen := Deflate.copyBack_length d (n + 1) done
    rw [Inflater.copy]
    dsimp only
    rw [writeBytes_back hd hle, put_inflaterAt b _ (by omega)]
    refine ih ?_ hroom
    rw [List.length_append]
    omega

/-! ## Tokens -/

theorem lenRow {code : ℕ} (h : code < 29) :
    Deflate.lengthRows.getD code (0, 0) = (lenExtra.getD code 0, lenBase.getD code 0) := by
  have hall : ∀ c < 29, Deflate.lengthRows.getD c (0, 0) = (lenExtra.getD c 0, lenBase.getD c 0) := by
    decide
  exact hall code h

theorem distRow {code : ℕ} (h : code < 30) :
    Deflate.distanceRows.getD code (0, 0) = (distExtra.getD code 0, distBase.getD code 0) ∧
      0 < distBase.getD code 0 := by
  have hall : ∀ c < 30, Deflate.distanceRows.getD c (0, 0) =
      (distExtra.getD c 0, distBase.getD c 0) ∧ 0 < distBase.getD c 0 := by decide
  exact hall code h

/-- Tables whose trees decode their codes. -/
structure Decodable (T : Deflate.Tables) : Prop where
  lit_fits : Fits T.lit 15
  dist_fits : Fits T.dist 15
  lit_count : T.lit.length ≤ 288
  dist_count : T.dist.length ≤ 32

variable {T : Deflate.Tables}

theorem Decodable.htDecode_lit (h : Decodable T) {s : ℕ} (hs : Used T.lit s)
    (hspells : Spells (bitOf src) p (codeword T.lit s)) :
    htDecode (htBuild T.lit) (readerAt src p) = ((s : ℤ), readerAt src (p + len T.lit s)) := by
  have hcount := h.lit_count
  exact htDecode_codeword h.lit_fits (by unfold htMax; omega) hs hspells

theorem Decodable.htDecode_dist (h : Decodable T) {s : ℕ} (hs : Used T.dist s)
    (hspells : Spells (bitOf src) p (codeword T.dist s)) :
    htDecode (htBuild T.dist) (readerAt src p) = ((s : ℤ), readerAt src (p + len T.dist s)) := by
  have hcount := h.dist_count
  exact htDecode_codeword h.dist_fits (by unfold htMax; omega) hs hspells

theorem length_codeword (lens : List ℕ) (s : ℕ) : (codeword lens s).length = len lens s :=
  length_highFirst

/-- One round of the loop over the symbols reads one token. -/
theorem decodeSymbol_token (h : Decodable T) {t : Deflate.Token} (hvalid : t.Valid T done.length)
    (hspells : Spells (bitOf src) p (t.bits T)) (hroom : ((t.expand done).length : ℤ) ≤ omax) :
    decodeSymbol (htBuild T.lit) (htBuild T.dist) omax (inflaterAt src out p done) =
      .inl (inflaterAt src out (p + (t.bits T).length) (t.expand done)) := by
  cases t with
  | literal byte =>
    have hlt := UInt8.toNat_lt byte
    have hroom' : (done.length : ℤ) < omax := by
      simp only [Deflate.Token.expand, List.length_append, List.length_singleton] at hroom
      omega
    simp only [decodeSymbol, inflaterAt, h.htDecode_lit hvalid hspells]
    rw [if_neg (by omega), if_pos (by omega), put_inflaterAt _ _ hroom']
    simp only [Deflate.Token.bits, length_codeword, Int.toNat_natCast, UInt8.ofNat_toNat]
    rfl
  | copy code extra dcode dextra =>
    obtain ⟨⟨hcode, hused, hextra⟩, ⟨hdcode, hdused, hdextra⟩, hback⟩ := hvalid
    have hrow := lenRow hcode
    obtain ⟨hdrow, hbase⟩ := distRow hdcode
    simp only [Deflate.Token.expand] at hroom
    simp only [Deflate.Token.bits, hrow, hdrow, spells_append, length_codeword, length_lowFirst,
      List.length_append] at hspells hroom ⊢
    rw [hrow] at hextra
    rw [hdrow] at hdextra hback
    obtain ⟨⟨⟨hlit, hext⟩, hdist⟩, hdext⟩ := hspells
    have hli : ((257 + code : ℕ) : ℤ).toNat - 257 = code := by omega
    have hpair : readPair (htBuild T.dist) code (readerAt src (p + len T.lit (257 + code))) =
        (some ⟨lenBase.getD code 0 + extra, distBase.getD dcode 0 + dextra⟩,
          readerAt src (p + (len T.lit (257 + code) + lenExtra.getD code 0 + len T.dist dcode +
            distExtra.getD dcode 0))) := by
      simp only [readPair, bitsRead_readerAt, field_of_spells hext hextra]
      have hdist' : Spells (bitOf src) (p + len T.lit (257 + code) + lenExtra.getD code 0)
          (codeword T.dist dcode) := by
        rw [Nat.add_assoc]
        exact hdist
      rw [h.htDecode_dist hdused hdist']
      simp only [Int.toNat_natCast]
      rw [if_neg (by omega)]
      have hassoc : p + len T.lit (257 + code) + lenExtra.getD code 0 + len T.dist dcode =
          p + (len T.lit (257 + code) + lenExtra.getD code 0 + len T.dist dcode) := by omega
      rw [bitsRead_readerAt, hassoc, field_of_spells hdext hdextra, Nat.add_assoc p]
    simp only [decodeSymbol, inflaterAt, h.htDecode_lit hused hlit]
    rw [if_neg (by omega), if_neg (by omega), if_neg (by omega), hli, hpair]
    simp only
    rw [copy_inflaterAt _ (by omega) hback hroom]
    simp only [Deflate.Token.expand, hrow, hdrow]

/-- The mark of the end of a block. -/
theorem decodeSymbol_end (h : Decodable T) (hused : Used T.lit 256)
    (hspells : Spells (bitOf src) p (codeword T.lit 256)) :
    decodeSymbol (htBuild T.lit) (htBuild T.dist) omax (inflaterAt src out p done) =
      .inr ((done.length : ℤ), inflaterAt src out (p + len T.lit 256) done) := by
  have hsym : ((256 : ℕ) : ℤ) = 256 := rfl
  simp only [decodeSymbol, inflaterAt, h.htDecode_lit hused hspells, hsym]
  rw [if_neg (by decide), if_neg (by decide), if_pos trivial]

/-- **A compressed block**: with a round for each token and one for the end, the loop returns. -/
theorem decodeBlock_tokens (h : Decodable T) (hend : Used T.lit 256) {ts : List Deflate.Token}
    (hvalid : Deflate.TokensValid T done ts)
    (hspells : Spells (bitOf src) p (Deflate.tokensBits T ts))
    (hroom : ((ts.foldl Deflate.Token.expand done).length : ℤ) ≤ omax) {fuel : ℕ}
    (hfuel : ts.length < fuel) :
    decodeBlock (htBuild T.lit) (htBuild T.dist) omax fuel (inflaterAt src out p done) =
      some (((ts.foldl Deflate.Token.expand done).length : ℤ),
        inflaterAt src out (p + (Deflate.tokensBits T ts).length)
          (ts.foldl Deflate.Token.expand done)) := by
  induction ts generalizing p done fuel with
  | nil =>
    obtain ⟨fuel, rfl⟩ : ∃ f, fuel = f + 1 := ⟨fuel - 1, by simp at hfuel; omega⟩
    simp only [Deflate.tokensBits, List.flatMap_nil, List.nil_append] at hspells ⊢
    rw [decodeBlock, decodeSymbol_end h hend hspells, length_codeword]
    rfl
  | cons t ts ih =>
    obtain ⟨fuel, rfl⟩ : ∃ f, fuel = f + 1 := ⟨fuel - 1, by simp at hfuel; omega⟩
    have hsplit : Deflate.tokensBits T (t :: ts) = t.bits T ++ Deflate.tokensBits T ts := by
      simp only [Deflate.tokensBits, List.flatMap_cons, List.append_assoc]
    rw [hsplit, spells_append] at hspells
    have hroom' : ((t.expand done).length : ℤ) ≤ omax := by
      have hle := Deflate.length_le_foldl_expand (t.expand done) ts
      rw [List.foldl_cons] at hroom
      omega
    rw [decodeBlock, decodeSymbol_token h hvalid.1 hspells.1 hroom']
    simp only [List.foldl_cons]
    rw [ih hvalid.2 hspells.2 hroom (by simpa using hfuel), hsplit, List.length_append,
      Nat.add_assoc]

/-! ## The tables of a dynamic block -/

/-- The lengths of the code length code, as they are put into the array. -/
theorem readClLens_spells (cl idxs acc : List ℕ) (hcl : ∀ i, cl.getD i 0 < 2 ^ 3)
    (hspells : Spells (bitOf src) p (idxs.flatMap fun i => lowFirst 3 (cl.getD i 0))) :
    readClLens idxs acc (readerAt src p) =
      (idxs.foldl (fun l i => l.set i (cl.getD i 0)) acc, readerAt src (p + 3 * idxs.length)) := by
  induction idxs generalizing acc p with
  | nil => rfl
  | cons i idxs ih =>
    rw [List.flatMap_cons, spells_append, length_lowFirst] at hspells
    simp only [readClLens, bitsRead_readerAt, field_of_spells hspells.1 (hcl i)]
    rw [ih _ hspells.2, List.foldl_cons, List.length_cons]
    congr 2
    omega

theorem foldl_set_length (cl idxs acc : List ℕ) :
    (idxs.foldl (fun l i => l.set i (cl.getD i 0)) acc).length = acc.length := by
  induction idxs generalizing acc with
  | nil => rfl
  | cons i idxs ih => rw [List.foldl_cons, ih, List.length_set]

/-- What the array holds after some of its places have been set. -/
theorem foldl_set_getD (cl idxs acc : List ℕ) {j : ℕ} (hj : j < acc.length) :
    (idxs.foldl (fun l i => l.set i (cl.getD i 0)) acc).getD j 0 =
      if j ∈ idxs then cl.getD j 0 else acc.getD j 0 := by
  induction idxs generalizing acc with
  | nil => simp
  | cons i idxs ih =>
    rw [List.foldl_cons, ih _ (by rw [List.length_set]; exact hj)]
    by_cases hmem : j ∈ idxs
    · rw [if_pos hmem, if_pos (List.mem_cons_of_mem i hmem)]
    · rw [if_neg hmem]
      by_cases hij : i = j
      · subst hij
        rw [if_pos List.mem_cons_self, List.getD_eq_getElem _ _ (by rw [List.length_set]; exact hj),
          List.getElem_set_self]
      · have hnot : j ∉ i :: idxs := by
          intro h
          rcases List.mem_cons.mp h with h | h
          · exact hij h.symm
          · exact hmem h
        rw [if_neg hnot, List.getD_eq_getElem _ _ (by rw [List.length_set]; exact hj),
          List.getElem_set_ne hij, List.getD_eq_getElem _ _ hj]

variable {h : Deflate.Header}

/-- The array of the code length code, when the places left out are zero. -/
theorem clLens_eq (hvalid : h.Valid) :
    (clOrder.take h.hclen).foldl (fun l i => l.set i (h.cl.getD i 0)) (List.replicate 19 0) = h.cl := by
  have hlen : ((clOrder.take h.hclen).foldl (fun l i => l.set i (h.cl.getD i 0))
      (List.replicate 19 0)).length = 19 := by
    rw [foldl_set_length, List.length_replicate]
  apply List.ext_getElem
  · rw [hlen, hvalid.cl_length]
  · intro j hj hj'
    rw [← List.getD_eq_getElem _ 0 hj, ← List.getD_eq_getElem _ 0 hj',
      foldl_set_getD _ _ _ (by rw [List.length_replicate]; omega)]
    split_ifs with hmem
    · rfl
    · have hall : ∀ i < 19, i ∈ clOrder := by decide
      have hin : j ∈ clOrder.take h.hclen ++ clOrder.drop h.hclen := by
        rw [List.take_append_drop]
        exact hall j (by omega)
      rcases List.mem_append.mp hin with hin | hin
      · exact absurd hin hmem
      · rw [hvalid.cl_rest j hin, List.getD_eq_getElem _ _ (by rw [List.length_replicate]; omega),
          List.getElem_replicate]

/-- One round of the loop over the code lengths reads one item. -/
theorem readLens_item {cl lens : List ℕ} {total : ℕ} {i : Deflate.Item} (hfits : Fits cl 7)
    (hcount : cl.length = 19) (hvalid : i.Valid cl lens)
    (hspells : Spells (bitOf src) p (i.bits cl)) (hle : (i.expand lens).length ≤ total) :
    readLens (htBuild cl) total lens (readerAt src p) =
      (some (i.expand lens), readerAt src (p + (i.bits cl).length)) := by
  have hdecode : ∀ s, Used cl s → Spells (bitOf src) p (codeword cl s) →
      htDecode (htBuild cl) (readerAt src p) = ((s : ℤ), readerAt src (p + len cl s)) := by
    intro s hs hsp
    exact htDecode_codeword (hfits.mono (by omega)) (by unfold htMax; omega) hs hsp
  cases i with
  | one l =>
    obtain ⟨hl, hused⟩ := hvalid
    simp only [readLens, hdecode l hused hspells]
    rw [if_neg (by omega), if_pos (by omega), Int.toNat_natCast]
    simp only [Deflate.Item.bits, Deflate.Item.expand, length_codeword]
  | again n =>
    obtain ⟨-, h3, h6, hused⟩ := hvalid
    simp only [Deflate.Item.bits, spells_append, length_codeword] at hspells
    simp only [Deflate.Item.expand, List.length_append, List.length_replicate] at hle
    have hrep : min (n - 3 + 3) (total - lens.length) = n := by omega
    simp only [readLens, hdecode 16 hused hspells.1, bitsRead_readerAt,
      field_of_spells hspells.2 (by omega : n - 3 < 2 ^ 2), hrep]
    simp only [Deflate.Item.bits, Deflate.Item.expand, List.length_append, length_codeword,
      length_lowFirst, ← Nat.add_assoc]
    rfl
  | zeros n =>
    obtain ⟨h3, h10, hused⟩ := hvalid
    simp only [Deflate.Item.bits, spells_append, length_codeword] at hspells
    simp only [Deflate.Item.expand, List.length_append, List.length_replicate] at hle
    have hrep : min (n - 3 + 3) (total - lens.length) = n := by omega
    simp only [readLens, hdecode 17 hused hspells.1, bitsRead_readerAt,
      field_of_spells hspells.2 (by omega : n - 3 < 2 ^ 3), hrep]
    simp only [Deflate.Item.bits, Deflate.Item.expand, List.length_append, length_codeword,
      length_lowFirst, ← Nat.add_assoc]
    rfl
  | manyZeros n =>
    obtain ⟨h11, h138, hused⟩ := hvalid
    simp only [Deflate.Item.bits, spells_append, length_codeword] at hspells
    simp only [Deflate.Item.expand, List.length_append, List.length_replicate] at hle
    have hrep : min (n - 11 + 11) (total - lens.length) = n := by omega
    simp only [readLens, hdecode 18 hused hspells.1, bitsRead_readerAt,
      field_of_spells hspells.2 (by omega : n - 11 < 2 ^ 7), hrep]
    simp only [Deflate.Item.bits, Deflate.Item.expand, List.length_append, length_codeword,
      length_lowFirst, ← Nat.add_assoc]
    rfl

theorem length_lt_expand {cl lens : List ℕ} {i : Deflate.Item} (hvalid : i.Valid cl lens) :
    lens.length < (i.expand lens).length := by
  cases i with
  | one l => simp [Deflate.Item.expand]
  | again n =>
    have h3 := hvalid.2.1
    simp [Deflate.Item.expand]
    omega
  | zeros n =>
    have h3 := hvalid.1
    simp [Deflate.Item.expand]
    omega
  | manyZeros n =>
    have h11 := hvalid.1
    simp [Deflate.Item.expand]
    omega

/-- The loop over the code lengths. -/
theorem readAllLens_items {cl lens : List ℕ} {total k : ℕ} {items : List Deflate.Item}
    (hfits : Fits cl 7) (hcount : cl.length = 19) (hvalid : Deflate.ItemsValid cl lens items)
    (hspells : Spells (bitOf src) p (items.flatMap (Deflate.Item.bits cl)))
    (htotal : (items.foldl Deflate.Item.expand lens).length = total) (hk : total ≤ lens.length + k) :
    readAllLens (htBuild cl) total k lens (readerAt src p) =
      (some (items.foldl Deflate.Item.expand lens),
        readerAt src (p + (items.flatMap (Deflate.Item.bits cl)).length)) := by
  induction items generalizing lens p k with
  | nil =>
    rw [List.foldl_nil] at htotal
    cases k with
    | zero => rfl
    | succ k =>
      rw [readAllLens, if_neg (by omega)]
      rfl
  | cons i items ih =>
    have hgrow := length_lt_expand hvalid.1
    have hle := Deflate.length_le_items (i.expand lens) items
    rw [List.foldl_cons] at htotal ⊢
    rw [htotal] at hle
    obtain ⟨k, rfl⟩ : ∃ j, k = j + 1 := ⟨k - 1, by omega⟩
    rw [List.flatMap_cons, spells_append] at hspells
    rw [readAllLens, if_pos (by omega), readLens_item hfits hcount hvalid.1 hspells.1 hle]
    simp only
    rw [ih hvalid.2 hspells.2 htotal (by omega), List.flatMap_cons, List.length_append, Nat.add_assoc]

theorem getD_lt_of_fits {cl : List ℕ} (hfits : Fits cl 7) (i : ℕ) : cl.getD i 0 < 2 ^ 3 := by
  rcases Nat.lt_or_ge i cl.length with hi | hi
  · rw [List.getD_eq_getElem _ _ hi]
    have hle := hfits.le _ (List.getElem_mem hi)
    omega
  · rw [List.getD_eq_default _ _ hi]
    decide

theorem clOrder_eq : clOrder = Deflate.order := rfl

theorem length_clBits (cl idxs : List ℕ) :
    (idxs.flatMap fun i => lowFirst 3 (cl.getD i 0)).length = 3 * idxs.length := by
  induction idxs with
  | nil => rfl
  | cons i idxs ih =>
    rw [List.flatMap_cons, List.length_append, ih, length_lowFirst, List.length_cons]
    omega

/-- **The tables of a dynamic block** are the trees of its code lengths. -/
theorem readTrees_header (hvalid : h.Valid) (hspells : Spells (bitOf src) p h.bits) :
    readTrees (readerAt src p) = (some (htBuild h.tables.lit, htBuild h.tables.dist),
      readerAt src (p + h.bits.length)) := by
  have hlit := hvalid.hlit
  have hdist := hvalid.hdist
  have hclen := hvalid.hclen
  have htake : (clOrder.take h.hclen).length = h.hclen := by
    have hlen : clOrder.length = 19 := rfl
    rw [List.length_take, hlen]
    omega
  rw [Deflate.Header.bits, ← clOrder_eq] at hspells
  simp only [spells_append, List.length_append, length_lowFirst, length_clBits, htake] at hspells
  obtain ⟨⟨⟨⟨hs1, hs2⟩, hs3⟩, hs4⟩, hs5⟩ := hspells
  have hread1 : field (bitOf src) p 5 = h.hlit - 257 := field_of_spells hs1 (by omega)
  have hread2 : field (bitOf src) (p + 5) 5 = h.hdist - 1 := field_of_spells hs2 (by omega)
  have hread3 : field (bitOf src) (p + 5 + 5) 4 = h.hclen - 4 := field_of_spells hs3 (by omega)
  have hcl := readClLens_spells h.cl (clOrder.take h.hclen) (List.replicate 19 0)
    (getD_lt_of_fits hvalid.cl_fits) hs4
  rw [clLens_eq hvalid, htake] at hcl
  have hitems := readAllLens_items hvalid.cl_fits hvalid.cl_length hvalid.items hs5 hvalid.length
    (Nat.le_add_left _ _)
  have hlen : h.bits.length = 5 + 5 + 4 + 3 * h.hclen + (h.items.flatMap (Deflate.Item.bits h.cl)).length := by
    rw [Deflate.Header.bits, ← clOrder_eq]
    simp only [List.length_append, length_lowFirst, length_clBits, htake]
  have hlit_eq : h.hlit - 257 + 257 = h.hlit := by omega
  have hdist_eq : h.hdist - 1 + 1 = h.hdist := by omega
  have hclen_eq : h.hclen - 4 + 4 = h.hclen := by omega
  unfold readTrees
  simp only [bitsRead_readerAt]
  rw [hread1, hread2, hread3, hlit_eq, hdist_eq, hclen_eq]
  have hp4 : p + 5 + 5 + 4 = p + (5 + 5 + 4) := by omega
  have hp5 : p + (5 + 5 + 4) + 3 * h.hclen = p + (5 + 5 + 4 + 3 * h.hclen) := by omega
  rw [hp4, hcl, hp5]
  dsimp only
  rw [hitems, hlen, Nat.add_assoc p]
  rfl

/-! ## Stored blocks -/

/-- The loop over the bytes of a stored block. -/
theorem copyStored_bytes {data : List UInt8} {k : ℕ} (hend : k + data.length ≤ src.length)
    (hdata : ∀ i < data.length, src.getD (k + i) 0 = data.getD i 0)
    (hroom : ((done ++ data).length : ℤ) ≤ omax) :
    copyStored omax data.length (inflaterAt src out (8 * k) done) =
      inflaterAt src out (8 * (k + data.length)) (done ++ data) := by
  induction data generalizing k done with
  | nil =>
    rw [List.append_nil]
    rfl
  | cons v data ih =>
    have hsplit : done ++ v :: data = done ++ [v] ++ data := by simp
    have hnext : k + (v :: data).length = k + 1 + data.length := by
      rw [List.length_cons]
      omega
    rw [hnext] at hend
    rw [hsplit] at hroom
    have hv : src.getD k 0 = v := hdata 0 (by simp)
    have hroom' : (done.length : ℤ) < omax := by
      simp only [List.length_append, List.length_singleton] at hroom
      omega
    have hmin : min src.length k = k := by omega
    have hmin' : min src.length (k + 1) = k + 1 := by omega
    have hat : inflaterAt src out (8 * (k + 1)) (done ++ [v]) =
        ⟨⟨src, k + 1, 0, 0⟩, writeBytes out (done ++ [v]), (done ++ [v]).length⟩ := by
      rw [inflaterAt, readerAt_byte, hmin']
    have hstep : copyStored omax (data.length + 1) (inflaterAt src out (8 * k) done) =
        copyStored omax data.length (inflaterAt src out (8 * (k + 1)) (done ++ [v])) := by
      rw [copyStored, hat]
      simp only [inflaterAt, readerAt_byte, hmin, if_pos hroom', hv, if_pos (show k < src.length by omega)]
      rw [put_inflaterAt _ _ hroom']
    have hrest : ∀ i < data.length, src.getD (k + 1 + i) 0 = data.getD i 0 := by
      intro i hi
      rw [Nat.add_assoc, Nat.add_comm 1]
      exact hdata (i + 1) (by simpa using hi)
    rw [hnext, List.length_cons, hstep, hsplit]
    exact ih hend hrest hroom

/-- **A stored block**: `p` is the bit after its type. -/
theorem storedBlock_data {pad : List Bool} {data : List UInt8} (hsrc : src.length < 2 ^ 32)
    (hpad : pad.length < 8) (haligned : (p + pad.length) % 8 = 0) (hdata : data.length < 2 ^ 16)
    (hspells : Spells (bitOf src) p (pad ++ lowFirst 16 data.length ++
      lowFirst 16 (2 ^ 16 - 1 - data.length) ++ bytesBits data))
    (hend : p + pad.length + 32 + 8 * data.length ≤ 8 * src.length)
    (hroom : ((done ++ data).length : ℤ) ≤ omax) :
    storedBlock omax (inflaterAt src out p done) =
      some (inflaterAt src out (p + pad.length + 32 + 8 * data.length) (done ++ data)) := by
  obtain ⟨k, hk⟩ : ∃ k, p + pad.length = 8 * k := ⟨(p + pad.length) / 8, by omega⟩
  simp only [spells_append, List.length_append, length_lowFirst] at hspells
  obtain ⟨⟨⟨-, hlen⟩, -⟩, hbytes⟩ := hspells
  have hbyte : 8 * k + 32 = 8 * (k + 4) := by omega
  have hpos : p + (pad.length + 16 + 16) = 8 * (k + 4) := by omega
  rw [hpos] at hbytes
  rw [hk] at hlen hend ⊢
  have hcount : (src.getD k 0).toNat + (src.getD (k + 1) 0).toNat * 256 = data.length := by
    rw [← field_two_bytes]
    exact field_of_spells hlen hdata
  have hat : min src.length ((p + 7) / 8) = k := by omega
  have hnowrap : (k + 4) % 2 ^ 32 = k + 4 := Nat.mod_eq_of_lt (by omega)
  have hnowrap' : (k + 1) % 2 ^ 32 = k + 1 := Nat.mod_eq_of_lt (by omega)
  have hmin : min src.length (k + 4) = k + 4 := by omega
  have hstart : (⟨⟨src, k + 4, 0, 0⟩, writeBytes out done, done.length⟩ : Inflater) =
      inflaterAt src out (8 * (k + 4)) done := by
    rw [inflaterAt, readerAt_byte, hmin]
  simp only [storedBlock, inflaterAt, readerAt, hat, hnowrap, hnowrap']
  rw [if_neg (by omega), hcount, hstart,
    copyStored_bytes (by omega) (fun i hi => getD_of_spells hbytes hi) hroom, hbyte, inflaterAt]
  congr 3
  omega

/-! ## Streams -/

theorem fixedLitLens_eq : fixedLitLens = Deflate.fixedTables.lit := by
  apply List.ext_getElem
  · simp only [fixedLitLens, Deflate.fixedTables, List.length_append, List.length_replicate,
      List.length_map, List.length_range]
  · intro i hi _
    simp only [fixedLitLens, Deflate.fixedTables, List.getElem_append, List.getElem_replicate,
      List.getElem_map, List.getElem_range, List.length_append, List.length_replicate]
    split_ifs <;> omega

theorem fixedDistLens_eq : fixedDistLens = Deflate.fixedTables.dist := rfl

theorem used_fixedTables_end : Used Deflate.fixedTables.lit 256 := by
  simp [Used, len, Deflate.fixedTables]

set_option maxRecDepth 4000 in
theorem fixedTables_decodable : Decodable Deflate.fixedTables where
  lit_fits := fits_of_sum (by decide) (by decide)
  dist_fits := by decide
  lit_count := by simp [Deflate.fixedTables]
  dist_count := by simp [Deflate.fixedTables]

theorem htDecode_fixedLit {s : ℕ} (hused : Used Deflate.fixedTables.lit s)
    (hspells : Spells (bitOf src) p (codeword Deflate.fixedTables.lit s)) :
    htDecode fixedLit (readerAt src p) = ((s : ℤ), readerAt src (p + len Deflate.fixedTables.lit s)) := by
  unfold fixedLit
  rw [fixedLitLens_eq]
  exact fixedTables_decodable.htDecode_lit hused hspells

theorem htDecode_fixedDist {s : ℕ} (hused : Used Deflate.fixedTables.dist s)
    (hspells : Spells (bitOf src) p (codeword Deflate.fixedTables.dist s)) :
    htDecode fixedDist (readerAt src p) = ((s : ℤ), readerAt src (p + len Deflate.fixedTables.dist s)) := by
  unfold fixedDist
  rw [fixedDistLens_eq]
  exact fixedTables_decodable.htDecode_dist hused hspells

set_option maxRecDepth 4000 in
theorem codeword_fixed_end : codeword Deflate.fixedTables.lit 256 = highFirst 7 0 :=
  codeword_eq (by decide)

set_option maxRecDepth 4000 in
theorem codeword_fixed_copy : codeword Deflate.fixedTables.lit 257 = highFirst 7 1 :=
  codeword_eq (by decide)

/-- The tables of a dynamic block are small enough for the decoder. -/
theorem header_decodable (hvalid : h.Valid) : Decodable h.tables where
  lit_fits := hvalid.lit_fits
  dist_fits := hvalid.dist_fits
  lit_count := by
    have hlit := hvalid.hlit
    simp only [Deflate.Header.tables, List.length_take]
    omega
  dist_count := by
    have hdist := hvalid.hdist
    have hlen := hvalid.length
    simp only [Deflate.Header.tables, List.length_drop]
    omega

/-- Rounds that are enough for the tokens of a block. -/
def rounds : Deflate.Block → ℕ
  | .stored _ _ => 0
  | .fixed ts => ts.length + 1
  | .dynamic _ ts => ts.length + 1

/-- **One round of the loop over the blocks** reads one block. -/
theorem inflateBlock_block {b : Deflate.Block} {final : Bool} {fuel : ℕ} (hsrc : src.length < 2 ^ 32)
    (hvalid : b.Valid p done) (hspells : Spells (bitOf src) p (final :: b.bits))
    (hend : p + 1 + b.bits.length ≤ 8 * src.length)
    (hroom : ((b.expand done).length : ℤ) ≤ omax) (hfuel : rounds b ≤ fuel) :
    inflateBlock fuel omax (inflaterAt src out p done) =
      some (afterBlock final.toNat (((b.expand done).length : ℤ),
        inflaterAt src out (p + 1 + b.bits.length) (b.expand done))) := by
  obtain ⟨hfinal, hspells⟩ := hspells
  have hread : bitsRead (readerAt src p) 1 = (final.toNat, readerAt src (p + 1)) := by
    rw [bitsRead_readerAt, field_one, hfinal]
  cases b with
  | stored pad data =>
    obtain ⟨hpad, haligned, hdata⟩ := hvalid
    have hsplit : (Deflate.Block.stored pad data).bits = lowFirst 2 0 ++ (pad ++ lowFirst 16 data.length ++
        lowFirst 16 (2 ^ 16 - 1 - data.length) ++ bytesBits data) := by
      simp only [Deflate.Block.bits, List.append_assoc]
    have hlen : (Deflate.Block.stored pad data).bits.length = 2 + (pad.length + 32 + 8 * data.length) := by
      rw [hsplit]
      simp only [List.length_append, length_lowFirst, length_bytesBits]
    rw [hlen] at hend ⊢
    rw [hsplit, spells_append] at hspells
    have htype : field (bitOf src) (p + 1) 2 = 0 := field_of_spells hspells.1 (by omega)
    rw [length_lowFirst] at hspells
    have hend' : p + 1 + 2 + pad.length + 32 + 8 * data.length ≤ 8 * src.length := by omega
    have hstored : storedBlock omax (inflaterAt src out (p + 1 + 2) done) = _ :=
      storedBlock_data hsrc hpad haligned hdata hspells.2 hend' hroom
    simp only [inflaterAt] at hstored
    simp only [inflateBlock, inflaterAt, hread, bitsRead_readerAt, htype, if_true]
    rw [hstored]
    have hpos : p + 1 + 2 + pad.length + 32 + 8 * data.length =
        p + 1 + (2 + (pad.length + 32 + 8 * data.length)) := by omega
    simp only [hpos, Deflate.Block.expand]
  | fixed ts =>
    simp only [Deflate.Block.bits, spells_append, length_lowFirst] at hspells
    have htype : field (bitOf src) (p + 1) 2 = 1 := field_of_spells hspells.1 (by omega)
    have hblock : decodeBlock _ _ omax fuel (inflaterAt src out (p + 1 + 2) done) = _ :=
      decodeBlock_tokens fixedTables_decodable used_fixedTables_end hvalid hspells.2 hroom
        (Nat.lt_of_succ_le hfuel)
    simp only [inflaterAt] at hblock
    simp only [inflateBlock, inflaterAt, hread, bitsRead_readerAt, htype]
    rw [if_neg (by decide), if_pos trivial, fixedLit, fixedDist, fixedLitLens_eq, fixedDistLens_eq, hblock]
    simp only [Option.map_some, Deflate.Block.bits, Deflate.Block.expand, List.length_append,
      length_lowFirst, Nat.add_assoc]
  | dynamic h ts =>
    obtain ⟨hheader, hused, hts⟩ := hvalid
    simp only [Deflate.Block.bits, List.append_assoc, spells_append, length_lowFirst] at hspells
    obtain ⟨htype, hhead, htokens⟩ := hspells
    have htype : field (bitOf src) (p + 1) 2 = 2 := field_of_spells htype (by omega)
    have hblock : decodeBlock _ _ omax fuel (inflaterAt src out (p + 1 + 2 + h.bits.length) done) = _ :=
      decodeBlock_tokens (header_decodable hheader) hused hts htokens hroom (Nat.lt_of_succ_le hfuel)
    simp only [inflaterAt] at hblock
    simp only [inflateBlock, inflaterAt, hread, bitsRead_readerAt, htype]
    rw [if_neg (by decide), if_neg (by decide), if_pos trivial, readTrees_header hheader hhead]
    simp only
    rw [hblock]
    simp only [Option.map_some, Deflate.Block.bits, Deflate.Block.expand, List.length_append,
      length_lowFirst, Nat.add_assoc]

/-- **The loop over the blocks.** -/
theorem inflateBlocks_blocks {last : Deflate.Block} {bs : List Deflate.Block} {inner fuel : ℕ}
    (hsrc : src.length < 2 ^ 32) (hvalid : Deflate.BlocksValid last p done bs)
    (hspells : Spells (bitOf src) p (Deflate.blocksBits last bs))
    (hend : p + (Deflate.blocksBits last bs).length ≤ 8 * src.length)
    (hroom : ((last.expand (bs.foldl Deflate.Block.expand done)).length : ℤ) ≤ omax)
    (hinner : ∀ b ∈ last :: bs, rounds b ≤ inner) (hfuel : bs.length < fuel) :
    ∃ s, inflateBlocks inner omax fuel (inflaterAt src out p done) =
        some (((last.expand (bs.foldl Deflate.Block.expand done)).length : ℤ), s) ∧
      s.out = writeBytes out (last.expand (bs.foldl Deflate.Block.expand done)) := by
  induction bs generalizing p done fuel with
  | nil =>
    obtain ⟨fuel, rfl⟩ : ∃ f, fuel = f + 1 := ⟨fuel - 1, by simp at hfuel; omega⟩
    have hlen : (Deflate.blocksBits last []).length = 1 + last.bits.length := by
      rw [Deflate.blocksBits, List.length_cons, Nat.add_comm]
    rw [hlen, ← Nat.add_assoc] at hend
    rw [inflateBlocks, inflateBlock_block hsrc hvalid hspells hend hroom
      (hinner last List.mem_cons_self)]
    simp only [afterBlock, Bool.toNat_true]
    rw [if_neg (by omega), if_neg (by decide)]
    exact ⟨_, rfl, rfl⟩
  | cons b bs ih =>
    obtain ⟨fuel, rfl⟩ : ∃ f, fuel = f + 1 := ⟨fuel - 1, by simp at hfuel; omega⟩
    have hsplit : Deflate.blocksBits last (b :: bs) = (false :: b.bits) ++ Deflate.blocksBits last bs := rfl
    have hhead : (false :: b.bits).length = 1 + b.bits.length := by
      rw [List.length_cons, Nat.add_comm]
    rw [hsplit, spells_append, hhead, ← Nat.add_assoc] at hspells
    rw [hsplit, List.length_append, hhead] at hend
    have hroom' : ((b.expand done).length : ℤ) ≤ omax := by
      have hle := Deflate.length_le_blocks (b.expand done) bs
      have hle' := last.length_le_expand (bs.foldl Deflate.Block.expand (b.expand done))
      rw [List.foldl_cons] at hroom
      omega
    rw [inflateBlocks, inflateBlock_block hsrc hvalid.1 hspells.1 (by omega) hroom'
      (hinner b (by simp))]
    simp only [afterBlock, Bool.toNat_false]
    rw [if_neg (by omega), if_pos trivial]
    refine ih hvalid.2 hspells.2 (by omega) hroom (fun c hc => hinner c ?_) (by simpa using hfuel)
    rcases List.mem_cons.mp hc with rfl | hc
    · exact List.mem_cons_self
    · exact List.mem_cons_of_mem _ (List.mem_cons_of_mem _ hc)

/-- Rounds that are enough for a stream. -/
def streamRounds (S : Deflate.Stream) : ℕ :=
  ((S.last :: S.blocks).map rounds).sum + S.blocks.length + 1

/-- A stream is read to its end with as many rounds as it has blocks and tokens. -/
theorem deflateDecompress_of_stream {S : Deflate.Stream} {fuel : ℕ} (hsrc : src.length < 2 ^ 32)
    (hvalid : S.Valid) (hbits : S.bits <+: bytesBits src) (hfits : (S.output.length : ℤ) ≤ omax)
    (hfuel : streamRounds S ≤ fuel) :
    deflateDecompress fuel src out omax = some ((S.output.length : ℤ), writeBytes out S.output) := by
  have hend : 0 + S.bits.length ≤ 8 * src.length := by
    rw [Nat.zero_add, ← length_bytesBits]
    exact hbits.length_le
  have hinner : ∀ b ∈ S.last :: S.blocks, rounds b ≤ fuel := by
    intro b hb
    have hle := List.single_le_sum (fun x _ => Nat.zero_le x) _ (List.mem_map_of_mem (f := rounds) hb)
    rw [streamRounds] at hfuel
    omega
  have hstart : (⟨bitsInit src, out, 0⟩ : Inflater) = inflaterAt src out 0 [] := by
    rw [inflaterAt, writeBytes_nil, bitsInit_eq, List.length_nil]
  have hblocks : S.blocks.length < fuel := by
    rw [streamRounds] at hfuel
    omega
  obtain ⟨s, hrun, hs⟩ := @inflateBlocks_blocks src out 0 [] omax S.last S.blocks fuel fuel hsrc hvalid
    (spells_of_begins hbits) hend hfits hinner hblocks
  rw [deflateDecompress, hstart, hrun, Option.map_some, hs]
  rfl

/-- **Inflate is correct.**  For a valid stream whose bytes fit into the output, the decoder
returns their number and the output memory has them at its start and is otherwise unchanged. -/
theorem deflateDecompress_correct (src : List UInt8) (out : ℤ → UInt8) (omax : ℤ)
    (S : Deflate.Stream) (hsrc : src.length < 2 ^ 32) (hvalid : S.Valid)
    (hbits : S.bits <+: bytesBits src) (hfits : (S.output.length : ℤ) ≤ omax) :
    ∃ n, ∀ fuel ≥ n,
      deflateDecompress fuel src out omax = some ((S.output.length : ℤ), writeBytes out S.output) :=
  ⟨streamRounds S, fun _ hfuel => deflateDecompress_of_stream hsrc hvalid hbits hfits hfuel⟩

/-- The tables of a block in which only the byte 97 and the end of the block have codes. -/
def twoCodes : Deflate.Header where
  hlit := 257
  hdist := 1
  hclen := 18
  cl := [2, 2, 0, 0, 0, 0, 0, 0, 0, 0, 0, 0, 0, 0, 0, 0, 0, 0, 1]
  items := [.manyZeros 97, .one 1, .manyZeros 138, .manyZeros 20, .one 1, .one 0]

/-- A stream with a block of each kind. -/
def threeBlocks : Deflate.Stream where
  blocks := [.stored [false, false, false, false, false] [98], .fixed [.literal 97, .copy 0 0 1 0]]
  last := .dynamic twoCodes [.literal 97]

/-- The bytes it is written with. -/
def threeBlocksBytes : List UInt8 :=
  [0, 1, 0, 254, 255, 98, 74, 4, 66, 64, 1, 112, 32, 2, 0, 0, 0, 0, 136, 117, 127, 137, 19]

set_option maxRecDepth 4000 in
theorem codeword_twoCodes_byte : codeword twoCodes.tables.lit 97 = [false] := codeword_eq (by decide)

set_option maxRecDepth 4000 in
theorem twoCodes_valid : twoCodes.Valid where
  hlit := by decide
  hdist := by decide
  hclen := by decide
  cl_length := rfl
  cl_rest := by decide
  cl_fits := by decide
  items := by
    unfold twoCodes
    simp only [Deflate.ItemsValid, Deflate.Item.Valid]
    decide
  length := by decide
  lit_fits := fits_of_sum (by decide) (by decide)
  dist_fits := by decide

theorem threeBlocks_valid : threeBlocks.Valid := by
  refine ⟨⟨by decide, by decide, by decide⟩, ⟨by decide, by decide, trivial⟩,
    twoCodes_valid, ?_, ?_, trivial⟩
  · decide
  · show Used twoCodes.tables.lit 97
    decide

set_option maxRecDepth 4000 in
/-- The three blocks are decoded. -/
theorem deflateDecompress_threeBlocks :
    threeBlocksBytes.length < 2 ^ 32 ∧ threeBlocks.bits <+: bytesBits threeBlocksBytes ∧
      threeBlocks.output = [98, 97, 98, 97, 98, 97] ∧
      ∃ n, ∀ fuel ≥ n, deflateDecompress fuel threeBlocksBytes (fun _ => 0) 6 =
        some ((threeBlocks.output.length : ℤ), writeBytes (fun _ => 0) threeBlocks.output) := by
  have hbits : threeBlocks.bits <+: bytesBits threeBlocksBytes := by
    have h97 : codeword Deflate.fixedTables.lit (97 : UInt8).toNat = highFirst 8 145 :=
      codeword_eq (by decide)
    have h97' : codeword twoCodes.tables.lit (97 : UInt8).toNat = [false] := codeword_twoCodes_byte
    have hend' : codeword twoCodes.tables.lit 256 = [true] := codeword_eq (by decide)
    simp only [threeBlocks, Deflate.Stream.bits, Deflate.blocksBits, Deflate.Block.bits,
      Deflate.tokensBits, List.flatMap_cons, List.flatMap_nil, Deflate.Token.bits, Nat.add_zero, h97,
      codeword_fixed_copy, codeword_fixed_end, h97', hend']
    decide
  have houtput : threeBlocks.output = [98, 97, 98, 97, 98, 97] := by decide
  refine ⟨by decide, hbits, houtput, ?_⟩
  refine deflateDecompress_correct _ _ _ threeBlocks (by decide) threeBlocks_valid hbits ?_
  rw [houtput]
  decide

end Microkernel
