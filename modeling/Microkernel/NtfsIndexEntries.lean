/-
# NTFS: index entries

`build_index_entry`, `insert_index_entry` and `remove_index_entry` in `src/ntfs.c`: an entry is put
before the last one of the index root, and taken out again.
-/
import Microkernel.BufferPieces
import Microkernel.NtfsRecordWrites

namespace Microkernel

open Access ByteNumbers

/-! ## Building an entry -/

/-- The name as `ascii_to_utf16le` writes it. -/
def utf16Bytes (name : List UInt8) : List UInt8 := name.flatMap fun c => [c, 0]

/-- `fns`: the size of the file name attribute of an entry. -/
def fileNameSize (name : List UInt8) : ℕ := 66 + 2 * name.length

/-- `es`: the size of an entry, a multiple of 8. -/
def indexEntrySize (name : List UInt8) : ℕ := (16 + fileNameSize name + 7) / 8 * 8

/-- `NTFS_FILE_ATTR_DIRECTORY` or `NTFS_FILE_ATTR_ARCHIVE`. -/
def fileAttrFlags (isDir : Bool) : ℕ := if isDir then 0x10000000 else 0x20

/-- The `filename_attr_t` of a name and the name behind it. -/
def fileNameBytes (parentRef : ℕ) (name : List UInt8) (allocSize realSize : ℕ) (isDir : Bool) :
    List UInt8 :=
  bytesOf (parentRef ||| 2 ^ 48) 8 ++ (List.replicate 32 0 ++ (bytesOf allocSize 8 ++ (bytesOf realSize 8 ++
    (bytesOf (fileAttrFlags isDir) 4 ++ (bytesOf 0 4 ++ (bytesOf name.length 1 ++ (bytesOf 3 1 ++
      utf16Bytes name)))))))

/-- The bytes of an entry: the header, the file name, and zeros up to its size. -/
def indexEntryBytes (fileRef parentRef : ℕ) (name : List UInt8) (fsize : ℕ) (isDir : Bool) : List UInt8 :=
  bytesOf (fileRef ||| 2 ^ 48) 8 ++ (bytesOf (indexEntrySize name) 2 ++ (bytesOf (fileNameSize name) 2 ++
    (bytesOf 0 4 ++ (fileNameBytes parentRef name (if isDir then 0 else fsize) (if isDir then 0 else fsize) isDir ++
      List.replicate (indexEntrySize name - (16 + fileNameSize name)) 0))))

/-- `build_index_entry`: the size of the entry, and the buffer with it. -/
def buildIndexEntry (out : Buffer) (fileRef parentRef : ℕ) (name : List UInt8) (fsize : ℕ) (isDir : Bool) :
    Access (ℕ × Buffer) :=
  (out.storeBytes 0 (indexEntryBytes fileRef parentRef name fsize isDir)).map fun out =>
    (indexEntrySize name, out)

/-! ## The index root -/

/-- Add to a field of 32 bits. -/
def addTo (b : Buffer) (off n : ℕ) : Access Buffer :=
  (b.load off 4).bind fun v => b.store off (u32 (v + n)) 4

/-- Subtract from a field of 32 bits. -/
def subFrom (b : Buffer) (off n : ℕ) : Access Buffer :=
  (b.load off 4).bind fun v => b.store off (u32 (v + 2 ^ 32 - n)) 4

/-- The loop of `insert_index_entry` that looks for the last entry; 0 if there is none. -/
def lastEntryLoop (b : Buffer) (eb total : ℕ) : ℕ → ℕ → Access ℕ
  | 0, _ => .error .read
  | n + 1, off =>
    if u32 (off + 16) ≤ total then
      (b.load (u32 (eb + off + 8)) 2).bind fun entryLength =>
        if entryLength = 0 then .ok 0
        else
          (b.load (u32 (eb + off + 12)) 4).bind fun flags =>
            if flags.testBit 1 then .ok off else lastEntryLoop b eb total n (u32 (off + entryLength))
    else .ok 0

/-- The loop of `remove_index_entry` that looks for the entry: where it is and its length. -/
def findEntryLoop (b : Buffer) (eb total : ℕ) (fname : List UInt8) : ℕ → ℕ → Access (Option (ℕ × ℕ))
  | 0, _ => .error .read
  | n + 1, off =>
    if u32 (off + 16) ≤ total then
      (b.load (u32 (eb + off + 8)) 2).bind fun entryLength =>
        if entryLength = 0 then .ok none
        else
          (b.load (u32 (eb + off + 12)) 4).bind fun flags =>
            if flags.testBit 1 then .ok none
            else
              (b.load (u32 (eb + off + 10)) 2).bind fun contentLength =>
                if 66 ≤ contentLength then
                  (b.load (u32 (eb + off + 80)) 1).bind fun nameLength =>
                    (utf16leToAscii b (u32 (eb + off + 82)) nameLength ntfsMaxName).bind fun nm =>
                      if strcaseeq nm fname then .ok (some (off, entryLength))
                      else findEntryLoop b eb total fname n (u32 (off + entryLength))
                else findEntryLoop b eb total fname n (u32 (off + entryLength))
    else .ok none

/-- Where the entries of the index root begin: `ir` and `eb` of the attribute at `ira`. -/
def entriesStart (b : Buffer) (ira : ℕ) : Access (ℕ × ℕ) :=
  (b.load (ira + 20) 2).bind fun valueOffset =>
    (b.load (ira + valueOffset + 16) 4).map fun entriesOffset =>
      (ira + valueOffset, ira + valueOffset + 16 + entriesOffset)

/-- The five lengths that an entry of the index root counts for. -/
def changeLengths (change : Buffer → ℕ → ℕ → Access Buffer) (b : Buffer) (ira ir n : ℕ) : Access Buffer :=
  (change b (ir + 20) n).bind fun b =>
    (change b (ir + 24) n).bind fun b =>
      (change b (ira + 16) n).bind fun b =>
        (change b (ira + 4) n).bind fun b => change b 24 n

/-- The part of `insert_index_entry` about the copy of the record: `none` if it is full. -/
def putEntry (dr : Buffer) (ira : ℕ) (newIe : List UInt8) : Access (Option Buffer) :=
  (entriesStart dr ira).bind fun (ir, eb) =>
    (dr.load (ir + 20) 4).bind fun total =>
      (lastEntryLoop dr eb total (dr.size + 1) 0).bind fun loff =>
        (dr.load 24 4).bind fun usedSize =>
          (dr.load 28 4).bind fun allocSize =>
            if u32 (usedSize + newIe.length) > u32 (allocSize + 2 ^ 32 - 8) then .ok none
            else
              let ts := u32 (eb + loff)
              let tl := u32 (usedSize + 2 ^ 32 - ts)
              -- A negative `tl` moves nothing.
              (dr.moveUpLoop ts newIe.length (if tl < 2 ^ 31 then tl else 0)).bind fun dr =>
                (dr.storeBytes ts newIe).bind fun dr =>
                  (changeLengths addTo dr ira ir newIe.length).map some

/-- The part of `remove_index_entry` about the copy of the record: `none` if there is no such entry. -/
def dropEntry (dr : Buffer) (ira : ℕ) (fname : List UInt8) : Access (Option Buffer) :=
  (entriesStart dr ira).bind fun (ir, eb) =>
    (dr.load (ir + 20) 4).bind fun total =>
      (findEntryLoop dr eb total fname (dr.size + 1) 0).bind fun found =>
        match found with
        | none => .ok none
        | some (fo, fsz) =>
          (dr.load 24 4).bind fun usedSize =>
            let ea := u32 (eb + fo)
            let ta := u32 (ea + fsz)
            let tl := u32 (usedSize + 2 ^ 32 - ta)
            (dr.memcpyLoop ea ta tl 0).bind fun dr =>
              (dr.storeBytes (u32 (ea + tl)) (List.replicate fsz 0)).bind fun dr =>
                (changeLengths subFrom dr ira ir fsz).map some

/-! ## The record of a directory -/

/-- A copy of the record in `mft_buf`, in memory that `kmalloc` gave. -/
def copyRecord (info : NtfsInfo) (fresh : List UInt8) (buf : Buffer) : Access Buffer :=
  (buf.bytes 0 info.mftRecordSize).bind fun bs =>
    (⟨fresh.length, fun i => fresh.getD i 0⟩ : Buffer).storeBytes 0 bs

/-- What `insert_index_entry` and `remove_index_entry` have in common: the record is read and copied,
the entries of its index root are changed, and the copy is written. -/
def changeIndexRoot (change : Buffer → ℕ → Access (Option Buffer)) (env : NtfsEnv) (info : NtfsInfo)
    (d : Disk) (dirRef : ℕ) (buf : Buffer) : Access (Bool × Disk × Buffer) :=
  match env.heap.kmalloc info.mftRecordSize with
  | none => .ok (false, d, buf)
  | some fresh =>
    (readMftRecord env info d dirRef buf).bind fun (ok, buf) =>
      if ok then
        (copyRecord info fresh buf).bind fun dr =>
          (findAttribute info.mftRecordSize dr attrIndexRoot none).bind fun found =>
            match found with
            | none => .ok (false, d, buf)
            | some ira =>
              (change dr ira).bind fun changed =>
                match changed with
                | none => .ok (false, d, buf)
                | some dr => (writeMftRecord env info d dirRef dr).map fun (ok, d, _) => (ok, d, buf)
      else .ok (false, d, buf)

/-- `insert_index_entry`: whether it succeeds, the disk, and what it leaves in `mft_buf`. -/
def insertIndexEntry (env : NtfsEnv) (info : NtfsInfo) (d : Disk) (dirRef : ℕ) (newIe : List UInt8)
    (buf : Buffer) : Access (Bool × Disk × Buffer) :=
  changeIndexRoot (fun dr ira => putEntry dr ira newIe) env info d dirRef buf

/-- `remove_index_entry`. -/
def removeIndexEntry (env : NtfsEnv) (info : NtfsInfo) (d : Disk) (dirRef : ℕ) (fname : List UInt8)
    (buf : Buffer) : Access (Bool × Disk × Buffer) :=
  changeIndexRoot (fun dr ira => dropEntry dr ira fname) env info d dirRef buf

/-! ## What is in an entry -/

/-- The text of `n` UTF-16 characters, as `utf16le_to_ascii` converts it. -/
def asciiAt (bs : List UInt8) (i n : ℕ) : List UInt8 :=
  ((List.range n).map fun k =>
    let c := numberAt bs (i + 2 * k) 2
    if c < 128 then UInt8.ofNat c else 0x3F).takeWhile (· != 0)

/-- An entry of an index: its length is what it says, it is not the last one, and its name is
inside. -/
structure IndexEntry where
  bytes : List UInt8
  header_le : 16 ≤ bytes.length
  length_eq : numberAt bytes 8 2 = bytes.length
  not_last : (numberAt bytes 12 4).testBit 1 = false
  name_inside : 66 ≤ numberAt bytes 10 2 → 82 + 2 * numberAt bytes 80 1 ≤ bytes.length

/-- The name of an entry, if it has one. -/
def IndexEntry.name? (e : IndexEntry) : Option (List UInt8) :=
  if 66 ≤ numberAt e.bytes 10 2 then some (asciiAt e.bytes 82 (numberAt e.bytes 80 1)) else none

/-- The entry has this name, ignoring case. -/
def IndexEntry.IsNamed (e : IndexEntry) (fname : List UInt8) : Prop :=
  ∃ nm, e.name? = some nm ∧ strcaseeq nm fname = true

/-- An ASCII name shorter than `NTFS_MAX_NAME`. -/
structure IsAsciiName (name : List UInt8) : Prop where
  length_lt : name.length < ntfsMaxName
  ascii : ∀ c ∈ name, 0 < c.toNat ∧ c.toNat < 128

section

variable {name : List UInt8} {fileRef parentRef fsize : ℕ} {isDir : Bool}

theorem length_utf16Bytes (name : List UInt8) : (utf16Bytes name).length = 2 * name.length := by
  induction name with
  | nil => rfl
  | cons c cs ih =>
    unfold utf16Bytes at ih ⊢
    rw [List.flatMap_cons, List.length_append, ih]
    show 2 + 2 * cs.length = 2 * (cs.length + 1)
    omega

/-- The characters of a name that was written. -/
theorem numberAt_utf16Bytes (tail : List UInt8) (name : List UInt8) : ∀ {k : ℕ} (hk : k < name.length),
    numberAt (utf16Bytes name ++ tail) (2 * k) 2 = name[k].toNat := by
  induction name with
  | nil =>
    intro k hk
    cases hk
  | cons c cs ih =>
    intro k hk
    have hcons : utf16Bytes (c :: cs) ++ tail = [] ++ ([c, 0] ++ (utf16Bytes cs ++ tail)) := rfl
    rw [hcons]
    cases k with
    | zero =>
      exact @numberAt_append [] [c, 0] _ 0 2 rfl rfl
    | succ k =>
      rw [List.nil_append, numberAt_append_right (by show 2 ≤ _; omega), List.getElem_cons_succ,
        ← ih (by simpa using hk)]
      congr 1

theorem length_fileNameBytes (parentRef : ℕ) (name : List UInt8) (allocSize realSize : ℕ) (isDir : Bool) :
    (fileNameBytes parentRef name allocSize realSize isDir).length = fileNameSize name := by
  unfold fileNameBytes fileNameSize
  simp only [List.length_append, length_bytesOf, List.length_replicate, length_utf16Bytes]
  omega

theorem length_indexEntryBytes :
    (indexEntryBytes fileRef parentRef name fsize isDir).length = indexEntrySize name := by
  unfold indexEntryBytes
  simp only [List.length_append, length_bytesOf, List.length_replicate, length_fileNameBytes]
  unfold indexEntrySize
  omega

/-- Text that was written is converted back. -/
theorem asciiAt_utf16Bytes {head tail : List UInt8} {i : ℕ} (hi : i = head.length)
    (hascii : ∀ c ∈ name, 0 < c.toNat ∧ c.toNat < 128) :
    asciiAt (head ++ (utf16Bytes name ++ tail)) i name.length = name := by
  have hchars : ((List.range name.length).map fun k =>
      let c := numberAt (head ++ (utf16Bytes name ++ tail)) (i + 2 * k) 2
      if c < 128 then UInt8.ofNat c else 0x3F) = name := by
    apply List.ext_getElem
    · rw [List.length_map, List.length_range]
    · intro k hk hk'
      obtain ⟨-, hlt⟩ := hascii _ (List.getElem_mem hk')
      rw [List.getElem_map, List.getElem_range]
      dsimp only
      rw [numberAt_append_right (by omega), hi, Nat.add_sub_cancel_left, numberAt_utf16Bytes tail name hk',
        if_pos hlt]
      exact UInt8.ofNat_toNat
  unfold asciiAt
  rw [hchars]
  apply List.takeWhile_eq_self_iff.mpr
  intro c hc
  obtain ⟨hpos, -⟩ := hascii c hc
  apply bne_iff_ne.mpr
  intro hzero
  rw [hzero] at hpos
  cases hpos

/-- The bytes before the name of an entry. -/
def entryHead (fileRef parentRef : ℕ) (name : List UInt8) (fsize : ℕ) (isDir : Bool) : List UInt8 :=
  bytesOf (fileRef ||| 2 ^ 48) 8 ++ (bytesOf (indexEntrySize name) 2 ++ (bytesOf (fileNameSize name) 2 ++
    (bytesOf 0 4 ++ (bytesOf (parentRef ||| 2 ^ 48) 8 ++ (List.replicate 32 0 ++
      (bytesOf (if isDir then 0 else fsize) 8 ++ (bytesOf (if isDir then 0 else fsize) 8 ++
        (bytesOf (fileAttrFlags isDir) 4 ++ (bytesOf 0 4 ++ (bytesOf name.length 1 ++ bytesOf 3 1))))))))))

theorem length_entryHead : (entryHead fileRef parentRef name fsize isDir).length = 82 := by
  unfold entryHead
  simp only [List.length_append, length_bytesOf, List.length_replicate]

theorem indexEntryBytes_eq : indexEntryBytes fileRef parentRef name fsize isDir =
    entryHead fileRef parentRef name fsize isDir ++ (utf16Bytes name ++
      List.replicate (indexEntrySize name - (16 + fileNameSize name)) 0) := by
  unfold indexEntryBytes fileNameBytes entryHead
  simp only [List.append_assoc]

theorem numberAt_entryHead {tail : List UInt8} :
    numberAt (entryHead fileRef parentRef name fsize isDir ++ tail) 8 2 = indexEntrySize name % 2 ^ 16 ∧
    numberAt (entryHead fileRef parentRef name fsize isDir ++ tail) 10 2 = fileNameSize name % 2 ^ 16 ∧
    numberAt (entryHead fileRef parentRef name fsize isDir ++ tail) 12 4 = 0 ∧
    numberAt (entryHead fileRef parentRef name fsize isDir ++ tail) 80 1 = name.length % 2 ^ 8 := by
  unfold entryHead
  simp only [List.append_assoc]
  refine ⟨?_, ?_, ?_, ?_⟩
  · rw [numberAt_append (by simp) (by simp), numberOf_bytesOf]
  · rw [numberAt_append_right (by simp), numberAt_append (by simp) (by simp), numberOf_bytesOf]
  · rw [numberAt_append_right (by simp), numberAt_append_right (by simp), numberAt_append (by simp) (by simp),
      numberOf_bytesOf, Nat.zero_mod]
  · -- The ten fields before it.
    iterate 9 rw [numberAt_append_right (by simp)]
    rw [numberAt_append (by simp) (by simp), numberOf_bytesOf]

/-- **The entry that is built** for an ASCII name. -/
def newEntry (fileRef parentRef : ℕ) {name : List UInt8} (fsize : ℕ) (isDir : Bool) (h : IsAsciiName name) :
    IndexEntry where
  bytes := indexEntryBytes fileRef parentRef name fsize isDir
  header_le := by
    rw [length_indexEntryBytes]
    unfold indexEntrySize
    omega
  length_eq := by
    have hlt : name.length < 256 := h.length_lt
    rw [length_indexEntryBytes, indexEntryBytes_eq, numberAt_entryHead.1]
    unfold indexEntrySize fileNameSize
    omega
  not_last := by
    rw [indexEntryBytes_eq, numberAt_entryHead.2.2.1]
    exact Nat.zero_testBit 1
  name_inside := by
    intro _
    rw [length_indexEntryBytes, indexEntryBytes_eq, numberAt_entryHead.2.2.2]
    unfold indexEntrySize fileNameSize
    omega

/-- It has this name. -/
theorem newEntry_name? (h : IsAsciiName name) :
    (newEntry fileRef parentRef fsize isDir h).name? = some name := by
  have hlt : name.length < 2 ^ 8 := h.length_lt
  unfold IndexEntry.name?
  show (if 66 ≤ numberAt (indexEntryBytes fileRef parentRef name fsize isDir) 10 2 then
    some (asciiAt (indexEntryBytes fileRef parentRef name fsize isDir) 82
      (numberAt (indexEntryBytes fileRef parentRef name fsize isDir) 80 1)) else none) = _
  rw [indexEntryBytes_eq, numberAt_entryHead.2.1, numberAt_entryHead.2.2.2, Nat.mod_eq_of_lt hlt,
    asciiAt_utf16Bytes length_entryHead.symm h.ascii, if_pos]
  unfold fileNameSize
  omega

end

end Microkernel
