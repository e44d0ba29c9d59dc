/-
# NTFS: the records of directories

The record of a directory as what it is for: the attributes before the index root, the entries, the
last entry and the attributes behind.  `insert_index_entry` adds an entry to it, `remove_index_entry`
takes the first one with the name away.
-/
import Microkernel.NtfsIndexEntries

namespace Microkernel

open Access ByteNumbers

/-! ## The record of a directory -/

/-- An attribute before the index root. -/
structure OtherAttr where
  bytes : List UInt8
  header_le : 16 ≤ bytes.length
  length_eq : numberAt bytes 4 4 = bytes.length
  not_root : numberAt bytes 0 4 ≠ attrIndexRoot
  not_end : ¬ (numberAt bytes 0 4 = attrEnd ∨ numberAt bytes 0 4 = 0)

/-- The record of a directory: `kind`, `middle` and `gap` are the fields of the index root that tell
nothing about the entries, up to the value length, up to the offset of the entries and up to the
entries.  A length of the root is that of the entries and some more. -/
structure DirRecord where
  before : List OtherAttr
  kind : List UInt8
  middle : List UInt8
  gap : List UInt8
  entries : List IndexEntry
  last : List UInt8
  after : List UInt8
  valueSlack : ℕ
  totalSlack : ℕ
  allocSlack : ℕ
  kind_length : kind.length = 7
  middle_le : 18 ≤ middle.length
  gap_le : 4 ≤ gap.length
  last_le : 16 ≤ last.length
  last_length : numberAt last 8 2 ≠ 0
  last_flag : (numberAt last 12 4).testBit 1 = true
  total_ge : 16 ≤ totalSlack
  total_le : totalSlack ≤ 12 + gap.length + last.length

namespace DirRecord

variable (r : DirRecord)

def beforeBytes : List UInt8 := r.before.flatMap OtherAttr.bytes

def entriesBytes : List UInt8 := r.entries.flatMap IndexEntry.bytes

/-- The fields from the offset of the value to the offset of the entries. -/
def place : List UInt8 :=
  bytesOf (6 + r.middle.length) 2 ++ (r.middle ++ bytesOf (12 + r.gap.length) 4)

/-- The attributes with these lengths and these entries. -/
def layout (size value total alloc : ℕ) (es : List UInt8) : List UInt8 :=
  r.beforeBytes ++ (bytesOf attrIndexRoot 4 ++ (bytesOf size 4 ++ (0 :: r.kind ++ (bytesOf value 4 ++
    (r.place ++ (bytesOf total 4 ++ (bytesOf alloc 4 ++ (r.gap ++ (es ++ (r.last ++ r.after))))))))))

/-- The length of the index root without its entries. -/
def rootSlack : ℕ := 34 + r.middle.length + r.gap.length + r.last.length

/-- The attributes of the record. -/
def bytes : List UInt8 :=
  r.layout (r.rootSlack + r.entriesBytes.length) (r.valueSlack + r.entriesBytes.length)
    (r.totalSlack + r.entriesBytes.length) (r.allocSlack + r.entriesBytes.length) r.entriesBytes

/-- The record with other entries. -/
def withEntries (es : List IndexEntry) : DirRecord := { r with entries := es }

/-- Where the index root and its entries are, from the first attribute on. -/
def root : ℕ := r.beforeBytes.length

def start : ℕ := r.root + 34 + r.middle.length + r.gap.length

theorem length_place : r.place.length = 6 + r.middle.length := by
  unfold place
  simp only [List.length_append, length_bytesOf]
  omega

theorem length_layout (size value total alloc : ℕ) (es : List UInt8) :
    (r.layout size value total alloc es).length = r.root + r.rootSlack + es.length + r.after.length := by
  have hkind := r.kind_length
  unfold layout root rootSlack
  simp only [List.length_append, List.length_cons, length_bytesOf, length_place]
  omega

theorem length_bytes : r.bytes.length = r.root + r.rootSlack + r.entriesBytes.length + r.after.length :=
  r.length_layout _ _ _ _ _

end DirRecord

/-- The record in the buffer `b` is that of the directory `r`: its update sequence array is at `uso`,
its first attribute at `fa`, and it has `n` sectors, no more than `ntfs_mount` accepts. -/
structure Shows (info : NtfsInfo) (b : Buffer) (r : DirRecord) (uso fa n : ℕ) : Prop where
  writable : WritableRecord info b uso n
  small : n ≤ 8
  behind : 32 ≤ uso
  first : b.mem.loadLE 20 2 = fa
  first_ge : uso + 2 * (n + 1) ≤ fa
  attrs : b.Holds fa r.bytes
  used : b.Holds 24 (bytesOf (fa + r.bytes.length) 4)
  alloc : b.mem.loadLE 28 4 = 512 * n
  fits : fa + r.bytes.length ≤ 512 * n

variable {info : NtfsInfo} {b b' : Buffer} {r : DirRecord} {uso fa n : ℕ}

/-- What shows a directory, shows it where the record is the same but for its array. -/
theorem Shows.of_same (h : Shows info b r uso fa n) (hsize : 512 * n ≤ b'.size)
    (hsame : ∀ x, x < 512 * n → x < uso ∨ uso + 2 * (n + 1) ≤ x → b'.mem x = b.mem x) :
    Shows info b' r uso fa n := by
  have hbehind := h.behind
  have hfirst := h.first_ge
  have hfits := h.fits
  have hfour : "FILE".toUTF8.toList.length = 4 := by decide +kernel
  have hload : ∀ {a w}, a + w ≤ 32 → b'.mem.loadLE a w = b.mem.loadLE a w := by
    intro a w haw
    apply Memory.loadLE_congr
    intro x _ hx
    apply hsame x <;> omega
  constructor
  · constructor
    · constructor
      · rw [hload (by omega)]
        exact h.writable.fixup.offset
      · rw [hload (by omega)]
        exact h.writable.fixup.count
      · exact h.writable.fixup.array
      · exact hsize
    · exact h.writable.size_eq
    · exact h.writable.few
    · rw [← h.writable.magic]
      have hroom := h.writable.fixup.room
      apply beginsWith_congr
      · omega
      · omega
      · intro x _ hx
        apply hsame x <;> omega
  · exact h.small
  · exact hbehind
  · rw [hload (by omega)]
    exact h.first
  · exact hfirst
  · apply h.attrs.congr
    · omega
    · intro x hx hx'
      apply hsame x <;> omega
  · apply h.used.congr
    · rw [length_bytesOf]
      omega
    · intro x hx hx'
      rw [length_bytesOf] at hx'
      apply hsame x <;> omega
  · rw [hload (by omega)]
    exact h.alloc
  · exact hfits

/-! ## Finding the index root -/

/-- The attributes before the index root are passed. -/
theorem findAttributeLoop_passes {recSize : ℕ} {tail : List UInt8} (attrs : List OtherAttr) :
    ∀ {k off : ℕ}, b.Holds off (attrs.flatMap OtherAttr.bytes ++ tail) →
      off + (attrs.flatMap OtherAttr.bytes ++ tail).length ≤ recSize → attrs.length ≤ k →
      findAttributeLoop recSize b attrIndexRoot k off = findAttributeLoop recSize b attrIndexRoot
        (k - attrs.length) (off + (attrs.flatMap OtherAttr.bytes).length) := by
  induction attrs with
  | nil =>
    intro k off _ _ _
    rfl
  | cons a as ih =>
    intro k off hholds hle hk
    rw [List.length_cons] at hk
    obtain ⟨k, rfl⟩ : ∃ k', k = k' + 1 := ⟨k - 1, by omega⟩
    rw [List.flatMap_cons, List.append_assoc] at hholds hle
    rw [List.length_append] at hle
    obtain ⟨ha, hrest⟩ := b.holds_append.mp hholds
    have hheader := a.header_le
    have htype := ha.load_numberAt (i := 0) (w := 4) (by omega)
    rw [Nat.add_zero] at htype
    rw [findAttributeLoop, if_pos (by omega), htype, ok_bind, if_neg a.not_end,
      ha.load_numberAt (by omega), ok_bind, a.length_eq, if_neg (by omega), if_neg a.not_root,
      ih hrest (by omega) (by omega), List.flatMap_cons, List.length_append, List.length_cons,
      Nat.add_sub_add_right, Nat.add_assoc]

/-- **The index root is found**. -/
theorem Shows.findAttribute_eq (h : Shows info b r uso fa n) :
    findAttribute info.mftRecordSize b attrIndexRoot none = .ok (some (fa + r.root)) := by
  have hfits := h.fits
  have hroom := h.writable.fixup.room
  have hlen := r.length_bytes
  have hcount : r.before.length ≤ r.beforeBytes.length := by
    unfold DirRecord.beforeBytes
    rw [List.length_flatMap]
    have hone : ∀ n ∈ r.before.map fun a => a.bytes.length, 1 ≤ n := by
      intro n hn
      obtain ⟨a, -, rfl⟩ := List.mem_map.mp hn
      have := a.header_le
      omega
    have hsum := List.length_le_sum_of_one_le _ hone
    rwa [List.length_map] at hsum
  have hattrs := h.attrs
  unfold DirRecord.bytes DirRecord.layout DirRecord.beforeBytes at hattrs
  have hpass := @findAttributeLoop_passes b (512 * n) _ r.before (512 * n + 1) fa hattrs
    (by have := h.fits; unfold DirRecord.bytes DirRecord.layout DirRecord.beforeBytes at this; omega)
    (by unfold DirRecord.root at hlen; omega)
  obtain ⟨-, hroot⟩ := b.holds_append.mp hattrs
  obtain ⟨htype, hsize⟩ := b.holds_append.mp hroot
  obtain ⟨hsize, -⟩ := b.holds_append.mp hsize
  have htypeLoad := htype.load_eq
  have hsizeLoad := hsize.load_eq
  rw [length_bytesOf, numberOf_bytesOf] at htypeLoad hsizeLoad
  rw [length_bytesOf] at hsizeLoad
  unfold DirRecord.root DirRecord.rootSlack at hlen
  unfold DirRecord.beforeBytes at hlen hcount
  obtain ⟨k, hk⟩ : ∃ k, 512 * n + 1 - r.before.length = k + 1 := ⟨512 * n - r.before.length, by omega⟩
  have hsmall := h.small
  unfold findAttribute attributeStart
  rw [b.load_of_le (by omega), ok_bind, h.first, h.writable.size_eq, hpass, hk, findAttributeLoop,
    if_pos (by omega), htypeLoad, ok_bind, if_neg (by decide), hsizeLoad, ok_bind, Nat.mod_eq_of_lt
      (by unfold DirRecord.rootSlack; omega), if_neg (by unfold DirRecord.rootSlack; omega), if_pos (by decide)]
  rfl

/-- Where its entries begin. -/
theorem Shows.entriesStart_eq (h : Shows info b r uso fa n) :
    entriesStart b (fa + r.root) = .ok (fa + r.root + 6 + r.middle.length, fa + r.start) := by
  have hfits := h.fits
  have hlen := r.length_bytes
  have hsmall := h.small
  have hkind := r.kind_length
  unfold DirRecord.rootSlack at hlen
  have hattrs := h.attrs
  unfold DirRecord.bytes DirRecord.layout DirRecord.place at hattrs
  iterate 5 obtain ⟨-, hattrs⟩ := b.holds_append.mp hattrs
  rw [List.append_assoc, List.append_assoc] at hattrs
  obtain ⟨hvalue, hattrs⟩ := b.holds_append.mp hattrs
  obtain ⟨-, hattrs⟩ := b.holds_append.mp hattrs
  obtain ⟨hentries, -⟩ := b.holds_append.mp hattrs
  have hvalueLoad := hvalue.load_eq
  have hentriesLoad := hentries.load_eq
  simp only [length_bytesOf, numberOf_bytesOf, List.length_cons, hkind] at hvalueLoad hentriesLoad
  unfold entriesStart DirRecord.root DirRecord.start
  rw [show fa + r.beforeBytes.length + 20 = fa + r.beforeBytes.length + 4 + 4 + (7 + 1) + 4 by omega,
    hvalueLoad, ok_bind, Nat.mod_eq_of_lt (by omega),
    show fa + r.beforeBytes.length + (6 + r.middle.length) + 16 =
      fa + r.beforeBytes.length + 4 + 4 + (7 + 1) + 4 + 2 + r.middle.length by omega, hentriesLoad,
    Nat.mod_eq_of_lt (by omega)]
  apply congrArg Except.ok
  apply Prod.ext
  · dsimp only
    omega
  · unfold DirRecord.root
    dsimp only
    omega

/-! ## Going through the entries -/

/-- A name inside a piece is converted as it is there. -/
theorem utf16leToAscii_eq {off i k : ℕ} {bs : List UInt8} (h : b.Holds off bs) (hle : i + 2 * k ≤ bs.length)
    (hk : k < ntfsMaxName) : utf16leToAscii b (off + i) k ntfsMaxName = .ok (asciiAt bs i k) := by
  have hin := h.1
  unfold utf16leToAscii asciiAt
  dsimp only
  rw [Nat.min_eq_left (by omega), if_pos (Or.inr (by omega))]
  congr 2
  apply List.map_congr_left
  intro j hj
  have hjk := List.mem_range.mp hj
  rw [Nat.add_assoc, h.loadLE_numberAt (by omega)]

/-- A number of 32 bits that is not too big. -/
theorem u32_of_lt {v : ℕ} (h : v < 2 ^ 32) : u32 v = v := Nat.mod_eq_of_lt h

section

variable {eb total : ℕ} {tail : List UInt8}

theorem length_entries_le (es : List IndexEntry) : es.length ≤ (es.flatMap IndexEntry.bytes).length := by
  have hone : ∀ n ∈ es.map fun e => e.bytes.length, 1 ≤ n := by
    intro n hn
    obtain ⟨e, -, rfl⟩ := List.mem_map.mp hn
    have := e.header_le
    omega
  have hsum := List.length_le_sum_of_one_le _ hone
  rw [List.length_map] at hsum
  rwa [List.length_flatMap]

/-- **The last entry is found** behind the others. -/
theorem lastEntryLoop_eq {last : List UInt8} (hlast : 16 ≤ last.length) (hlength : numberAt last 8 2 ≠ 0)
    (hflag : (numberAt last 12 4).testBit 1 = true) (hsize : b.size < 2 ^ 32) (es : List IndexEntry) :
    ∀ {k off : ℕ}, b.Holds (eb + off) (es.flatMap IndexEntry.bytes ++ (last ++ tail)) →
      off + (es.flatMap IndexEntry.bytes).length + 16 ≤ total → total < 2 ^ 32 → es.length < k →
      lastEntryLoop b eb total k off = .ok (off + (es.flatMap IndexEntry.bytes).length) := by
  induction es with
  | nil =>
    intro k off hholds hin htotal hk
    obtain ⟨k, rfl⟩ : ∃ k', k = k' + 1 := ⟨k - 1, by omega⟩
    rw [List.flatMap_nil, List.nil_append] at hholds
    obtain ⟨hl, -⟩ := b.holds_append.mp hholds
    have hle := hl.1
    rw [List.flatMap_nil, List.length_nil] at hin ⊢
    rw [lastEntryLoop, u32_of_lt (by omega), if_pos (by omega), u32_of_lt (by omega),
      hl.load_numberAt (by omega), ok_bind, if_neg hlength, u32_of_lt (by omega), hl.load_numberAt (by omega),
      ok_bind, if_pos hflag, Nat.add_zero]
  | cons e es ih =>
    intro k off hholds hin htotal hk
    rw [List.length_cons] at hk
    obtain ⟨k, rfl⟩ : ∃ k', k = k' + 1 := ⟨k - 1, by omega⟩
    rw [List.flatMap_cons, List.append_assoc] at hholds
    rw [List.flatMap_cons, List.length_append] at hin ⊢
    obtain ⟨he, hrest⟩ := b.holds_append.mp hholds
    have hle := he.1
    have hheader := e.header_le
    rw [lastEntryLoop, u32_of_lt (by omega), if_pos (by omega), u32_of_lt (by omega),
      he.load_numberAt (by omega), ok_bind, e.length_eq, if_neg (by omega), u32_of_lt (by omega),
      he.load_numberAt (by omega), ok_bind, e.not_last, if_neg Bool.false_ne_true, u32_of_lt (by omega)]
    rw [Nat.add_assoc] at hrest
    rw [ih hrest (by omega) htotal (by omega), Nat.add_assoc]

/-- The entry at `off` in the loop of `remove_index_entry`. -/
theorem findEntryLoop_cons {fname : List UInt8} {e : IndexEntry} {k off : ℕ}
    (hholds : b.Holds (eb + off) (e.bytes ++ tail)) (hin : off + 16 ≤ total) (htotal : total < 2 ^ 32)
    (hsize : b.size < 2 ^ 32) (hoff : off + e.bytes.length < 2 ^ 32) :
    findEntryLoop b eb total fname (k + 1) off =
      match e.name? with
      | none => findEntryLoop b eb total fname k (off + e.bytes.length)
      | some nm =>
        if strcaseeq nm fname then .ok (some (off, e.bytes.length))
        else findEntryLoop b eb total fname k (off + e.bytes.length) := by
  obtain ⟨he, -⟩ := b.holds_append.mp hholds
  have hle := he.1
  have hheader := e.header_le
  rw [findEntryLoop, u32_of_lt (by omega), if_pos hin, u32_of_lt (by omega), he.load_numberAt (by omega),
    ok_bind, e.length_eq, if_neg (by omega), u32_of_lt (by omega), he.load_numberAt (by omega), ok_bind,
    e.not_last, if_neg Bool.false_ne_true, u32_of_lt (by omega), he.load_numberAt (by omega), ok_bind,
    u32_of_lt (v := off + e.bytes.length) hoff]
  unfold IndexEntry.name?
  split_ifs with hname
  · -- The entry has a name, and it is inside.
    have hinside := e.name_inside hname
    have hshort := numberAt_lt e.bytes 80 1
    rw [u32_of_lt (by omega), he.load_numberAt (by omega), ok_bind, u32_of_lt (by omega),
      utf16leToAscii_eq he hinside hshort, ok_bind]
  · rfl

/-- **The first entry with the name is found**. -/
theorem findEntryLoop_eq {fname : List UInt8} {e : IndexEntry} (hnamed : e.IsNamed fname)
    (hsize : b.size < 2 ^ 32) (es : List IndexEntry) : ∀ {k off : ℕ}, (∀ a ∈ es, ¬ a.IsNamed fname) →
      b.Holds (eb + off) (es.flatMap IndexEntry.bytes ++ (e.bytes ++ tail)) →
      off + (es.flatMap IndexEntry.bytes).length + e.bytes.length ≤ total → total < 2 ^ 32 → es.length < k →
      findEntryLoop b eb total fname k off =
        .ok (some (off + (es.flatMap IndexEntry.bytes).length, e.bytes.length)) := by
  induction es with
  | nil =>
    intro k off _ hholds hin htotal hk
    obtain ⟨k, rfl⟩ : ∃ k', k = k' + 1 := ⟨k - 1, by omega⟩
    obtain ⟨nm, hnm, heq⟩ := hnamed
    have hheader := e.header_le
    rw [List.flatMap_nil, List.length_nil] at hin ⊢
    rw [List.flatMap_nil, List.nil_append] at hholds
    rw [findEntryLoop_cons hholds (by omega) htotal hsize (by omega), hnm]
    dsimp only
    rw [if_pos heq, Nat.add_zero]
  | cons a as ih =>
    intro k off hother hholds hin htotal hk
    rw [List.length_cons] at hk
    obtain ⟨k, rfl⟩ : ∃ k', k = k' + 1 := ⟨k - 1, by omega⟩
    have hheader := e.header_le
    rw [List.flatMap_cons, List.append_assoc] at hholds
    rw [List.flatMap_cons, List.length_append] at hin ⊢
    obtain ⟨-, hrest⟩ := b.holds_append.mp hholds
    rw [Nat.add_assoc] at hrest
    have hlater := @ih k (off + a.bytes.length) (fun c hc => hother c (List.mem_cons_of_mem a hc)) hrest
      (by omega) htotal (by omega)
    rw [Nat.add_assoc] at hlater
    rw [findEntryLoop_cons hholds (by omega) htotal hsize (by omega)]
    cases hname : a.name? with
    | none => exact hlater
    | some nm =>
      dsimp only
      rw [if_neg, hlater]
      intro heq
      exact hother a (List.mem_cons_self ..) ⟨nm, hname, heq⟩

end

/-! ## Changing the lengths -/

/-- The change makes `v'` of a field with `v`. -/
def Changes (change : Buffer → ℕ → ℕ → Access Buffer) (n v v' : ℕ) : Prop :=
  ∀ (b : Buffer) (off : ℕ) (l l' : List UInt8), b.Holds off (l ++ (bytesOf v 4 ++ l')) →
    ∃ b', change b (off + l.length) n = .ok b' ∧ b'.Holds off (l ++ (bytesOf v' 4 ++ l')) ∧
      SameOutside b b' (off + l.length) (off + l.length + 4)

theorem addTo_changes (n v : ℕ) : Changes addTo n v (v + n) := by
  intro b off l l' h
  obtain ⟨-, hfield⟩ := b.holds_append.mp h
  have hload := (b.holds_append.mp hfield).1.load_eq
  rw [length_bytesOf, numberOf_bytesOf] at hload
  obtain ⟨b', hstore, hb', hsame⟩ := h.store_eq (u32 (v % 2 ^ (8 * 4) + n))
  rw [length_bytesOf] at hstore hb' hsame
  have hbytes : bytesOf (u32 (v % 2 ^ (8 * 4) + n)) 4 = bytesOf (v + n) 4 := by
    apply bytesOf_congr
    unfold u32
    omega
  rw [hbytes] at hb'
  refine ⟨b', ?_, hb', hsame⟩
  unfold addTo
  rw [hload, ok_bind, hstore]

theorem subFrom_changes {n : ℕ} (hn : n < 2 ^ 32) (v : ℕ) : Changes subFrom n (v + n) v := by
  intro b off l l' h
  obtain ⟨-, hfield⟩ := b.holds_append.mp h
  have hload := (b.holds_append.mp hfield).1.load_eq
  rw [length_bytesOf, numberOf_bytesOf] at hload
  obtain ⟨b', hstore, hb', hsame⟩ := h.store_eq (u32 ((v + n) % 2 ^ (8 * 4) + 2 ^ 32 - n))
  rw [length_bytesOf] at hstore hb' hsame
  have hbytes : bytesOf (u32 ((v + n) % 2 ^ (8 * 4) + 2 ^ 32 - n)) 4 = bytesOf v 4 := by
    apply bytesOf_congr
    unfold u32
    omega
  rw [hbytes] at hb'
  refine ⟨b', ?_, hb', hsame⟩
  unfold subFrom
  rw [hload, ok_bind, hstore]

/-- **All five lengths are changed**, and nothing else. -/
theorem changeLengths_eq {change : Buffer → ℕ → ℕ → Access Buffer} {k size value total alloc used : ℕ}
    {size' value' total' alloc' used' : ℕ} {es : List UInt8} (htotal : Changes change k total total')
    (halloc : Changes change k alloc alloc') (hvalue : Changes change k value value')
    (hsize : Changes change k size size') (hused : Changes change k used used')
    (hattrs : b.Holds fa (r.layout size value total alloc es)) (hfa : 28 ≤ fa)
    (hheader : b.Holds 24 (bytesOf used 4)) :
    ∃ b', changeLengths change b (fa + r.root) (fa + r.root + 6 + r.middle.length) k = .ok b' ∧
      b'.Holds fa (r.layout size' value' total' alloc' es) ∧ b'.Holds 24 (bytesOf used' 4) ∧
      b'.size = b.size ∧ ∀ x < fa, x < 24 ∨ 28 ≤ x → b'.mem x = b.mem x := by
  have hkind := r.kind_length
  have hplace := r.length_place
  -- The layout, split at each of its lengths.
  have hsplitTotal : ∀ size value total alloc, r.layout size value total alloc es =
      (r.beforeBytes ++ (bytesOf attrIndexRoot 4 ++ (bytesOf size 4 ++ (0 :: r.kind ++ (bytesOf value 4 ++
        r.place))))) ++ (bytesOf total 4 ++ (bytesOf alloc 4 ++ (r.gap ++ (es ++ (r.last ++ r.after))))) := by
    intro size value total alloc
    unfold DirRecord.layout
    simp only [List.append_assoc]
  have hsplitAlloc : ∀ size value total alloc, r.layout size value total alloc es =
      (r.beforeBytes ++ (bytesOf attrIndexRoot 4 ++ (bytesOf size 4 ++ (0 :: r.kind ++ (bytesOf value 4 ++
        (r.place ++ bytesOf total 4)))))) ++ (bytesOf alloc 4 ++ (r.gap ++ (es ++ (r.last ++ r.after)))) := by
    intro size value total alloc
    unfold DirRecord.layout
    simp only [List.append_assoc]
  have hsplitValue : ∀ size value total alloc, r.layout size value total alloc es =
      (r.beforeBytes ++ (bytesOf attrIndexRoot 4 ++ (bytesOf size 4 ++ (0 :: r.kind)))) ++ (bytesOf value 4 ++
        (r.place ++ (bytesOf total 4 ++ (bytesOf alloc 4 ++ (r.gap ++ (es ++ (r.last ++ r.after))))))) := by
    intro size value total alloc
    unfold DirRecord.layout
    simp only [List.append_assoc]
  have hsplitSize : ∀ size value total alloc, r.layout size value total alloc es =
      (r.beforeBytes ++ bytesOf attrIndexRoot 4) ++ (bytesOf size 4 ++ (0 :: r.kind ++ (bytesOf value 4 ++
        (r.place ++ (bytesOf total 4 ++ (bytesOf alloc 4 ++ (r.gap ++ (es ++ (r.last ++ r.after)))))))))  := by
    intro size value total alloc
    unfold DirRecord.layout
    simp only [List.append_assoc]
  rw [hsplitTotal] at hattrs
  obtain ⟨b₁, hrun₁, hattrs, hsame₁⟩ := htotal _ _ _ _ hattrs
  rw [← hsplitTotal, hsplitAlloc] at hattrs
  obtain ⟨b₂, hrun₂, hattrs, hsame₂⟩ := halloc _ _ _ _ hattrs
  rw [← hsplitAlloc, hsplitValue] at hattrs
  obtain ⟨b₃, hrun₃, hattrs, hsame₃⟩ := hvalue _ _ _ _ hattrs
  rw [← hsplitValue, hsplitSize] at hattrs
  obtain ⟨b₄, hrun₄, hattrs, hsame₄⟩ := hsize _ _ _ _ hattrs
  rw [← hsplitSize] at hattrs
  -- What is before the attributes is the same.
  have hsize₄ : b₄.size = b.size := by
    rw [hsame₄.size_eq, hsame₃.size_eq, hsame₂.size_eq, hsame₁.size_eq]
  have hbefore : ∀ x < fa, b₄.mem x = b.mem x := by
    intro x hx
    rw [hsame₄.mem_eq x (by omega), hsame₃.mem_eq x (by omega), hsame₂.mem_eq x (by omega),
      hsame₁.mem_eq x (by omega)]
  have hheader₄ : b₄.Holds 24 (bytesOf used 4) := by
    apply hheader.congr
    · rw [hsize₄]
      exact hheader.1
    · intro x _ hx
      rw [length_bytesOf] at hx
      exact hbefore x (by omega)
  obtain ⟨b₅, hrun₅, hheader₅, hsame₅⟩ := hused b₄ 24 [] [] (by rwa [List.append_nil, List.nil_append])
  rw [List.append_nil, List.nil_append] at hheader₅
  simp only [List.length_append, List.length_cons, List.length_nil, length_bytesOf, hkind, hplace]
    at hrun₁ hrun₂ hrun₃ hrun₄ hrun₅ hsame₅
  have hroot : r.beforeBytes.length = r.root := rfl
  rw [hroot] at hrun₁ hrun₂ hrun₃ hrun₄
  refine ⟨b₅, ?_, ?_, hheader₅, ?_, ?_⟩
  · unfold changeLengths
    rw [show fa + r.root + 6 + r.middle.length + 20 = fa + (r.root + (4 + (4 + (7 + 1 + (4 + (6 + r.middle.length))))))
        by omega, hrun₁, ok_bind,
      show fa + r.root + 6 + r.middle.length + 24 =
        fa + (r.root + (4 + (4 + (7 + 1 + (4 + (6 + r.middle.length + 4)))))) by omega, hrun₂, ok_bind,
      show fa + r.root + 16 = fa + (r.root + (4 + (4 + (7 + 1)))) by omega, hrun₃, ok_bind,
      show fa + r.root + 4 = fa + (r.root + 4) by omega, hrun₄, ok_bind]
    exact hrun₅
  · exact hattrs.sameOutside hsame₅ (Or.inr (by omega))
  · rw [hsame₅.size_eq, hsize₄]
  · intro x hx hout
    rw [hsame₅.mem_eq x (by omega), hbefore x hx]

/-! ## Putting an entry in and taking one out -/

/-- The record with an entry that was put in before the last one. -/
def DirRecord.insert (r : DirRecord) (e : IndexEntry) : DirRecord := r.withEntries (r.entries ++ [e])

theorem DirRecord.entriesBytes_withEntries (r : DirRecord) (es : List IndexEntry) :
    (r.withEntries es).entriesBytes = es.flatMap IndexEntry.bytes := rfl

/-- The attributes behind the fields of the index root. -/
theorem DirRecord.layout_eq (r : DirRecord) (size value total alloc : ℕ) (es : List UInt8) :
    ∃ l, r.layout size value total alloc es = l ++ (es ++ (r.last ++ r.after)) ∧ l.length = r.start ∧
      ∀ es', r.layout size value total alloc es' = l ++ (es' ++ (r.last ++ r.after)) := by
  have hkind := r.kind_length
  refine ⟨r.beforeBytes ++ (bytesOf attrIndexRoot 4 ++ (bytesOf size 4 ++ (0 :: r.kind ++ (bytesOf value 4 ++
    (r.place ++ (bytesOf total 4 ++ (bytesOf alloc 4 ++ r.gap))))))), ?_, ?_, ?_⟩
  · unfold layout
    simp only [List.append_assoc]
  · unfold start root
    simp only [List.length_append, List.length_cons, length_bytesOf, length_place, hkind]
    omega
  · intro es'
    unfold layout
    simp only [List.append_assoc]

/-- The buffers differ before the attributes in the used size alone. -/
def SameRecordHeader (b b' : Buffer) (fa : ℕ) : Prop := ∀ x < fa, x < 24 ∨ 28 ≤ x → b'.mem x = b.mem x

/-- A buffer with the same header and other attributes. -/
theorem Shows.update {r' : DirRecord} (h : Shows info b r uso fa n) (hsize : b'.size = b.size)
    (hheader : SameRecordHeader b b' fa) (hattrs : b'.Holds fa r'.bytes)
    (hused : b'.Holds 24 (bytesOf (fa + r'.bytes.length) 4)) (hfits : fa + r'.bytes.length ≤ 512 * n) :
    Shows info b' r' uso fa n := by
  have hbehind := h.behind
  have hfirst := h.first_ge
  have hroom := h.writable.fixup.room
  have hfour : "FILE".toUTF8.toList.length = 4 := by decide +kernel
  have hload : ∀ {a w}, a + w ≤ 24 ∨ 28 ≤ a ∧ a + w ≤ 32 → b'.mem.loadLE a w = b.mem.loadLE a w := by
    intro a w haw
    apply Memory.loadLE_congr
    intro x _ hx
    apply hheader x <;> omega
  constructor
  · constructor
    · constructor
      · rw [hload (by omega)]
        exact h.writable.fixup.offset
      · rw [hload (by omega)]
        exact h.writable.fixup.count
      · exact h.writable.fixup.array
      · omega
    · exact h.writable.size_eq
    · exact h.writable.few
    · rw [← h.writable.magic]
      apply beginsWith_congr
      · omega
      · omega
      · intro x _ hx
        apply hheader x <;> omega
  · exact h.small
  · exact hbehind
  · rw [hload (by omega)]
    exact h.first
  · exact hfirst
  · exact hattrs
  · exact hused
  · rw [hload (by omega)]
    exact h.alloc
  · exact hfits

/-- The size of the entries, as the driver reads it. -/
theorem Shows.total_eq (h : Shows info b r uso fa n) :
    b.load (fa + r.root + 6 + r.middle.length + 20) 4 = .ok (r.totalSlack + r.entriesBytes.length) := by
  have hfits := h.fits
  have hlen := r.length_bytes
  have hsmall := h.small
  have hkind := r.kind_length
  have hplace := r.length_place
  have htotal := r.total_le
  unfold DirRecord.rootSlack at hlen
  have hattrs := h.attrs
  unfold DirRecord.bytes DirRecord.layout at hattrs
  iterate 6 obtain ⟨-, hattrs⟩ := b.holds_append.mp hattrs
  obtain ⟨hfield, -⟩ := b.holds_append.mp hattrs
  have hload := hfield.load_eq
  simp only [length_bytesOf, numberOf_bytesOf, List.length_cons, hkind, hplace] at hload
  have hroot : r.beforeBytes.length = r.root := rfl
  rw [hroot, Nat.mod_eq_of_lt (by omega)] at hload
  rw [← hload]
  congr 1
  omega

/-- **Putting an entry in** if there is room for it and 8 bytes more. -/
theorem Shows.putEntry_eq (h : Shows info b r uso fa n) (hsize : b.size < 2 ^ 32) (e : IndexEntry) :
    if fa + r.bytes.length + e.bytes.length + 8 ≤ 512 * n then
      ∃ b', putEntry b (fa + r.root) e.bytes = .ok (some b') ∧ b'.size = b.size ∧
        Shows info b' (r.insert e) uso fa n ∧ SameRecordHeader b b' fa
    else putEntry b (fa + r.root) e.bytes = .ok none := by
  have hfits := h.fits
  have hlen := r.length_bytes
  have hsmall := h.small
  have hbehind := h.behind
  have hfirst := h.first_ge
  have hroom := h.writable.fixup.room
  have hshort : e.bytes.length < 2 ^ 16 := by
    rw [← e.length_eq]
    exact numberAt_lt _ _ _
  have htotal := r.total_le
  have htotal' := r.total_ge
  have hstart : r.start + r.last.length = r.root + r.rootSlack := by
    unfold DirRecord.start DirRecord.rootSlack
    omega
  have hslack : r.totalSlack ≤ r.rootSlack := by
    unfold DirRecord.rootSlack
    omega
  have hinfo : (16 : ℕ) ≤ 512 * n := by
    have := h.writable.fixup.array.inside
    omega
  obtain ⟨l, hlayout, hl, hother⟩ := r.layout_eq (r.rootSlack + r.entriesBytes.length)
    (r.valueSlack + r.entriesBytes.length) (r.totalSlack + r.entriesBytes.length)
    (r.allocSlack + r.entriesBytes.length) r.entriesBytes
  have hattrs : b.Holds fa (l ++ (r.entriesBytes ++ (r.last ++ r.after))) := by
    rw [← hlayout]
    exact h.attrs
  have hentries := (b.holds_append.mp hattrs).2
  rw [hl] at hentries
  have hcount := length_entries_le r.entries
  have hbytes : (r.entries.flatMap IndexEntry.bytes).length = r.entriesBytes.length := rfl
  have hloop := @lastEntryLoop_eq b (fa + r.start) (r.totalSlack + r.entriesBytes.length) r.after r.last
    r.last_le r.last_length r.last_flag hsize r.entries (b.size + 1) 0 hentries (by omega) (by omega) (by omega)
  rw [Nat.zero_add, hbytes] at hloop
  have hused := h.used.load_eq
  rw [length_bytesOf, numberOf_bytesOf, Nat.mod_eq_of_lt (by omega)] at hused
  have hts : u32 (fa + r.start + r.entriesBytes.length) = fa + (l ++ r.entriesBytes).length := by
    rw [List.length_append, hl, u32_of_lt (by omega)]
    omega
  have htl : u32 (fa + r.bytes.length + 2 ^ 32 - (fa + (l ++ r.entriesBytes).length)) =
      (r.last ++ r.after).length := by
    rw [List.length_append, List.length_append, hl]
    unfold u32
    omega
  have hrun : putEntry b (fa + r.root) e.bytes =
      if 512 * n < fa + r.bytes.length + e.bytes.length + 8 then .ok none
      else (b.moveUpLoop (fa + (l ++ r.entriesBytes).length) e.bytes.length (r.last ++ r.after).length).bind fun b =>
        (b.storeBytes (fa + (l ++ r.entriesBytes).length) e.bytes).bind fun b =>
          (changeLengths addTo b (fa + r.root) (fa + r.root + 6 + r.middle.length) e.bytes.length).map some := by
    unfold putEntry
    rw [h.entriesStart_eq, ok_bind]
    dsimp only
    rw [h.total_eq, ok_bind, hloop, ok_bind, hused, ok_bind, b.load_of_le (by omega), ok_bind, h.alloc, hts, htl]
    have hcond : u32 (fa + r.bytes.length + e.bytes.length) > u32 (512 * n + 2 ^ 32 - 8) ↔
        512 * n < fa + r.bytes.length + e.bytes.length + 8 := by
      unfold u32
      omega
    have htail : (r.last ++ r.after).length < 2 ^ 31 := by
      rw [List.length_append]
      omega
    rw [if_pos htail]
    simp only [hcond]
  rw [hrun]
  split_ifs with hfull hfull' hfull'
  · omega
  · -- The entry is put in, and then the lengths are changed.
    rw [← List.append_assoc] at hattrs
    obtain ⟨b₁, b₂, hmove, hstore, hholds, hsame⟩ := hattrs.insert_piece e.bytes (by
      simp only [List.length_append]
      omega) (by omega)
    rw [List.append_assoc, ← List.append_assoc r.entriesBytes, ← hother] at hholds
    have hheader : b₂.Holds 24 (bytesOf (fa + r.bytes.length) 4) :=
      h.used.sameOutside hsame (Or.inl (by rw [length_bytesOf]; omega))
    obtain ⟨b₃, hlengths, hattrs₃, hused₃, hsize₃, hsame₃⟩ := changeLengths_eq (addTo_changes _ _)
      (addTo_changes _ _) (addTo_changes _ _) (addTo_changes _ _) (addTo_changes e.bytes.length _) hholds
      (by omega) hheader
    have hnew : (r.insert e).entriesBytes = r.entriesBytes ++ e.bytes := by
      show (r.entries ++ [e]).flatMap IndexEntry.bytes = _
      rw [List.flatMap_append, List.flatMap_singleton]
      rfl
    have hnewBytes : (r.insert e).bytes = r.layout (r.rootSlack + r.entriesBytes.length + e.bytes.length)
        (r.valueSlack + r.entriesBytes.length + e.bytes.length)
        (r.totalSlack + r.entriesBytes.length + e.bytes.length)
        (r.allocSlack + r.entriesBytes.length + e.bytes.length) (r.entriesBytes ++ e.bytes) := by
      show r.layout (r.rootSlack + (r.insert e).entriesBytes.length) (r.valueSlack + (r.insert e).entriesBytes.length)
        (r.totalSlack + (r.insert e).entriesBytes.length) (r.allocSlack + (r.insert e).entriesBytes.length)
        (r.insert e).entriesBytes = _
      rw [hnew, List.length_append]
      simp only [Nat.add_assoc]
    have hnewLength : (r.insert e).bytes.length = r.bytes.length + e.bytes.length := by
      rw [hnewBytes, r.length_layout, hlen, List.length_append]
      omega
    have hsameHeader : SameRecordHeader b b₃ fa := by
      intro x hx hout
      rw [hsame₃ x hx hout]
      exact hsame.mem_eq x (by omega)
    have hsizes : b₃.size = b.size := hsize₃.trans hsame.size_eq
    refine ⟨b₃, ?_, hsizes, ?_, hsameHeader⟩
    · rw [hmove, ok_bind, hstore, ok_bind, hlengths]
      rfl
    · apply h.update hsizes hsameHeader
      · rw [hnewBytes]
        exact hattrs₃
      · rw [hnewLength, ← Nat.add_assoc]
        exact hused₃
      · omega
  · rfl
  · omega

/-- The bytes of a record with other entries. -/
theorem DirRecord.bytes_withEntries (r : DirRecord) {es : List IndexEntry} {m : ℕ}
    (h : (es.flatMap IndexEntry.bytes).length = m) : (r.withEntries es).bytes =
      r.layout (r.rootSlack + m) (r.valueSlack + m) (r.totalSlack + m) (r.allocSlack + m)
        (es.flatMap IndexEntry.bytes) := by
  rw [← h]
  rfl

/-- **Taking the first entry with the name out**. -/
theorem Shows.dropEntry_eq {es es' : List IndexEntry} {e : IndexEntry} {fname : List UInt8}
    (h : Shows info b (r.withEntries (es ++ e :: es')) uso fa n) (hsize : b.size < 2 ^ 32)
    (hnamed : e.IsNamed fname) (hother : ∀ a ∈ es, ¬ a.IsNamed fname) :
    ∃ b', dropEntry b (fa + r.root) fname = .ok (some b') ∧ b'.size = b.size ∧
      Shows info b' (r.withEntries (es ++ es')) uso fa n ∧ SameRecordHeader b b' fa := by
  have hsmall := h.small
  have hbehind := h.behind
  have hfirst := h.first_ge
  have hroom := h.writable.fixup.room
  have hshort : e.bytes.length < 2 ^ 16 := by
    rw [← e.length_eq]
    exact numberAt_lt _ _ _
  have hheaderLe := e.header_le
  have htotal := r.total_le
  have htotal' := r.total_ge
  have hstart : r.start + r.last.length = r.root + r.rootSlack := by
    unfold DirRecord.start DirRecord.rootSlack
    omega
  have hslack : r.totalSlack ≤ r.rootSlack := by
    unfold DirRecord.rootSlack
    omega
  -- The entries with `e` and without it.
  generalize hpre : es.flatMap IndexEntry.bytes = pre
  generalize hpost : es'.flatMap IndexEntry.bytes = post
  have hwith : (es ++ e :: es').flatMap IndexEntry.bytes = pre ++ (e.bytes ++ post) := by
    rw [List.flatMap_append, List.flatMap_cons, hpre, hpost]
  have hwithout : (es ++ es').flatMap IndexEntry.bytes = pre ++ post := by
    rw [List.flatMap_append, hpre, hpost]
  have hold := @DirRecord.bytes_withEntries r (es ++ e :: es') (pre.length + post.length + e.bytes.length) (by
    rw [hwith]
    simp only [List.length_append]
    omega)
  have hnew := @DirRecord.bytes_withEntries r (es ++ es') (pre.length + post.length) (by
    rw [hwithout, List.length_append])
  rw [hwith] at hold
  rw [hwithout] at hnew
  have hlen : (r.withEntries (es ++ e :: es')).bytes.length =
      r.root + r.rootSlack + (pre.length + post.length + e.bytes.length) + r.after.length := by
    rw [hold, r.length_layout]
    simp only [List.length_append]
    omega
  have hlen' : (r.withEntries (es ++ es')).bytes.length =
      r.root + r.rootSlack + (pre.length + post.length) + r.after.length := by
    rw [hnew, r.length_layout, List.length_append]
  have hfits := h.fits
  rw [hlen] at hfits
  obtain ⟨l, hlayout, hl, hlayout'⟩ := r.layout_eq (r.rootSlack + (pre.length + post.length + e.bytes.length))
    (r.valueSlack + (pre.length + post.length + e.bytes.length))
    (r.totalSlack + (pre.length + post.length + e.bytes.length))
    (r.allocSlack + (pre.length + post.length + e.bytes.length)) (pre ++ (e.bytes ++ post))
  have hattrs : b.Holds fa ((l ++ pre) ++ (e.bytes ++ (post ++ (r.last ++ r.after)))) := by
    have hall := h.attrs
    rw [hold, hlayout] at hall
    simpa only [List.append_assoc] using hall
  have hentries : b.Holds (fa + r.start) (es.flatMap IndexEntry.bytes ++
      (e.bytes ++ (post ++ (r.last ++ r.after)))) := by
    rw [hpre, ← hl]
    rw [List.append_assoc] at hattrs
    exact (b.holds_append.mp hattrs).2
  have hcount := length_entries_le es
  rw [hpre] at hcount
  have hfound := @findEntryLoop_eq b (fa + r.start) (r.totalSlack + (pre.length + post.length + e.bytes.length))
    (post ++ (r.last ++ r.after)) fname e hnamed hsize es (b.size + 1) 0 hother hentries
    (by rw [hpre]; omega) (by omega) (by omega)
  rw [Nat.zero_add, hpre] at hfound
  have htotalLoad := h.total_eq
  have hentriesLen : (r.withEntries (es ++ e :: es')).entriesBytes.length =
      pre.length + post.length + e.bytes.length := by
    rw [DirRecord.entriesBytes_withEntries, hwith]
    simp only [List.length_append]
    omega
  rw [hentriesLen, show (r.withEntries (es ++ e :: es')).totalSlack = r.totalSlack from rfl] at htotalLoad
  have hused := h.used.load_eq
  rw [length_bytesOf, numberOf_bytesOf, hlen, Nat.mod_eq_of_lt (by omega)] at hused
  obtain ⟨b₁, hcopy, hholds, hsame⟩ := hattrs.remove_piece
  have hend : ((l ++ pre) ++ (post ++ (r.last ++ r.after))).length =
      r.start + pre.length + (post ++ (r.last ++ r.after)).length := by
    rw [List.length_append, List.length_append, hl]
  have htail : (post ++ (r.last ++ r.after)).length = post.length + (r.last.length + r.after.length) := by
    rw [List.length_append, List.length_append]
  have hlpre : (l ++ pre).length = r.start + pre.length := by rw [List.length_append, hl]
  have hea : u32 (fa + r.start + pre.length) = fa + (l ++ pre).length := by
    rw [hlpre, u32_of_lt (by omega)]
    omega
  have hta : u32 (fa + (l ++ pre).length + e.bytes.length) = fa + (l ++ pre).length + e.bytes.length := by
    rw [u32_of_lt (by omega)]
  have htl : u32 (fa + (r.root + r.rootSlack + (pre.length + post.length + e.bytes.length) + r.after.length) + 2 ^ 32 -
      (fa + (l ++ pre).length + e.bytes.length)) = (post ++ (r.last ++ r.after)).length := by
    rw [hlpre, htail]
    unfold u32
    omega
  -- The zeros go behind what is used.
  have hzeros : ∃ b₂, b₁.storeBytes (u32 (fa + (l ++ pre).length + (post ++ (r.last ++ r.after)).length))
      (List.replicate e.bytes.length 0) = .ok b₂ ∧
      SameOutside b₁ b₂ (fa + ((l ++ pre) ++ (post ++ (r.last ++ r.after))).length) (fa + b.size) := by
    rw [u32_of_lt (by omega)]
    refine ⟨_, if_pos (Or.inr ?_), rfl, ?_⟩
    · rw [hsame.size_eq, List.length_replicate]
      omega
    · intro x hx
      apply Memory.storeBytes_of_outside
      rw [List.length_replicate]
      omega
  obtain ⟨b₂, hzero, hsame₂⟩ := hzeros
  have hholds₂ := hholds.sameOutside hsame₂ (Or.inl le_rfl)
  rw [List.append_assoc, ← List.append_assoc pre, ← hlayout'] at hholds₂
  have hheader : b₂.Holds 24 (bytesOf (fa + (r.root + r.rootSlack + (pre.length + post.length) + r.after.length) +
      e.bytes.length) 4) := by
    have husedHolds := h.used
    rw [hlen, show fa + (r.root + r.rootSlack + (pre.length + post.length + e.bytes.length) + r.after.length) =
      fa + (r.root + r.rootSlack + (pre.length + post.length) + r.after.length) + e.bytes.length by omega] at husedHolds
    apply (husedHolds.sameOutside hsame (Or.inl ?_)).sameOutside hsame₂ (Or.inl ?_)
    · rw [length_bytesOf]
      omega
    · rw [length_bytesOf]
      omega
  have hsub : ∀ v, Changes subFrom e.bytes.length (v + (pre.length + post.length + e.bytes.length))
      (v + (pre.length + post.length)) := by
    intro v
    rw [show v + (pre.length + post.length + e.bytes.length) = v + (pre.length + post.length) + e.bytes.length by omega]
    exact subFrom_changes (by omega) _
  obtain ⟨b₃, hlengths, hattrs₃, hused₃, hsize₃, hsame₃⟩ := changeLengths_eq (hsub _) (hsub _) (hsub _) (hsub _)
    (subFrom_changes (by omega) _) hholds₂ (by omega) hheader
  have hsameHeader : SameRecordHeader b b₃ fa := by
    intro x hx hout
    rw [hsame₃ x hx hout, hsame₂.mem_eq x (by omega), hsame.mem_eq x (by omega)]
  have hsizes : b₃.size = b.size := hsize₃.trans (hsame₂.size_eq.trans hsame.size_eq)
  refine ⟨b₃, ?_, hsizes, ?_, hsameHeader⟩
  · unfold dropEntry
    rw [show r.root = (r.withEntries (es ++ e :: es')).root from rfl, h.entriesStart_eq, ok_bind]
    dsimp only
    rw [htotalLoad, ok_bind, show (r.withEntries (es ++ e :: es')).start = r.start from rfl, hfound, ok_bind]
    dsimp only
    rw [hused, ok_bind, hea, hta, htl, hcopy, ok_bind, hzero, ok_bind]
    exact congrArg (Except.map some) hlengths
  · apply h.update hsizes hsameHeader
    · rw [hnew]
      exact hattrs₃
    · rw [hlen']
      exact hused₃
    · rw [hlen']
      omega

end Microkernel
