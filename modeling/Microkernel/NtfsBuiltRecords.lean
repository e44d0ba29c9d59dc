/-
# NTFS: reading records that were built

When a record that `build_file_record` in `src/ntfs.c` makes fits and is read back with its name and
its contents, and when the index entry fits in its buffer.
-/
import Microkernel.NtfsBuildRecord
import Microkernel.NtfsIndexRoundTrip

namespace Microkernel

open Access ByteNumbers

/-! ## What is asked of a record -/

/-- The first `$FILE_NAME` of the record has this name. -/
def HasFileName (info : NtfsInfo) (b : Buffer) (name : List UInt8) : Prop :=
  ∃ fa addr len, findAttribute info.mftRecordSize b attrFileName none = .ok (some fa) ∧
    getResidentData b fa = .ok (some (addr, len)) ∧
    (b.load (addr + 64) 1).bind (fun k => utf16leToAscii b (addr + 66) k ntfsMaxName) = .ok name

/-- The first `$INDEX_ROOT` has an empty index, or the first `$DATA` the data or its clusters. -/
def HasContents (info : NtfsInfo) (b : Buffer) : NewNode → Prop
  | .directory => ∃ ira addr, findAttribute info.mftRecordSize b attrIndexRoot none = .ok (some ira) ∧
      getResidentData b ira = .ok (some (addr, (emptyIndexRoot info).length)) ∧ b.Holds addr (emptyIndexRoot info)
  | .file data cluster count => ∃ da, findAttribute info.mftRecordSize b attrData none = .ok (some da) ∧
      if cluster = 0 then
        ∃ addr, getResidentData b da = .ok (some (addr, data.length)) ∧ b.Holds addr data
      else
        parseDataRuns b da = .ok [⟨cluster, count⟩] ∧ b.load (da + 48) 8 = .ok data.length ∧
          data.length ≤ count * info.clusterSize

/-- After it is written, the record is read with its name and its contents. -/
def ReadsBack (info : NtfsInfo) (rn : ℕ) (name : List UInt8) (node : NewNode) (rec : Buffer) : Prop :=
  ∀ (env : NtfsEnv) (d d' : Disk) (c buf : Buffer), buf.size = mftBufSize →
    writeMftRecord env info d rn rec = .ok (true, d', c) →
    ∃ b, readMftRecord env info d' rn buf = .ok (true, b) ∧ HasFileName info b name ∧ HasContents info b node

/-- The size that is given to `build_index_entry`. -/
def NewNode.size : NewNode → ℕ
  | directory => 0
  | file data .. => data.length

/-- The record fits, its attributes are behind its update sequence array, it is read back, and its
index entry fits. -/
def BuiltReadable (info : NtfsInfo) (rn parentRef : ℕ) (name : List UInt8) (node : NewNode) : Prop :=
  (∃ used rec, buildFileRecord info ⟨info.mftRecordSize, fun _ => 0⟩ rn parentRef name node = .ok (used, rec) ∧
    used ≤ info.mftRecordSize ∧ rec.mem.loadLE 4 2 + 2 * rec.mem.loadLE 6 2 ≤ rec.mem.loadLE 20 2 ∧
    ReadsBack info rn name node rec) ∧
  ∃ out, buildIndexEntry ⟨512, fun _ => 0⟩ rn parentRef name node.size node.isDir = .ok (indexEntrySize name, out)

/-! ## The condition -/

/-- The last attribute is inside the record, it has the data if there are no clusters, and the number
of clusters was computed without an overflow. -/
def LastFits (info : NtfsInfo) (name : List UInt8) : NewNode → Prop
  | .directory => lastAttrPos name + 80 + 8 ≤ info.mftRecordSize
  | .file data cluster count =>
    if cluster = 0 then
      (data.length + lastAttrPos name + 56 ≤ info.mftRecordSize ∨ info.mftRecordSize < lastAttrPos name + 56) ∧
        lastAttrPos name + align8 (24 + data.length) + 8 ≤ info.mftRecordSize
    else
      data.length + info.clusterSize ≤ 2 ^ 32 ∧
        lastAttrPos name + align8 (64 + (runListBytes cluster count).length) + 8 ≤ info.mftRecordSize

/-- The record has one or two sectors, the name has up to 215 characters, and the last attribute
fits. -/
structure RecordFits (info : NtfsInfo) (name : List UInt8) (node : NewNode) : Prop where
  sectors : info.mftRecordSize = 512 ∨ info.mftRecordSize = 1024
  name_le : name.length ≤ 215
  last : LastFits info name node

/-! ## Lengths -/

theorem length_zeroPadded (n : ℕ) (bs : List UInt8) : (zeroPadded n bs).length = max n bs.length := by
  unfold zeroPadded
  rw [List.length_append, List.length_replicate]
  omega

theorem align8_bounds {n : ℕ} (h : n + 7 < 2 ^ 32) : n ≤ align8 n ∧ align8 n < n + 8 := by
  unfold align8
  rw [u32, Nat.mod_eq_of_lt h]
  omega

theorem length_attrHeader (type length : ℕ) (nonResident : Bool) (nameLength nameOffset id : ℕ) :
    (attrHeader type length nonResident nameLength nameOffset id).length = 16 := by
  unfold attrHeader
  simp only [List.length_append, length_bytesOf]

theorem length_residentFields (valueLength valueOffset indexed : ℕ) :
    (residentFields valueLength valueOffset indexed).length = 8 := by
  unfold residentFields
  simp only [List.length_append, length_bytesOf]

theorem length_magic : "FILE".toUTF8.toList.length = 4 := by with_unfolding_all decide

variable {info : NtfsInfo} {name : List UInt8} {node : NewNode} {parentRef rn : ℕ} {b : Buffer}

theorem length_recordHeader (mftNum flags used nextId : ℕ) :
    (recordHeader info mftNum flags used nextId).length = 56 := by
  unfold recordHeader
  simp only [List.length_append, length_bytesOf, length_magic]

theorem length_standardInfoAttr (isDir : Bool) : (standardInfoAttr isDir).length = 72 := by
  have halign : align8 (24 + 48) = 72 := by decide
  unfold standardInfoAttr
  rw [length_zeroPadded, halign]
  simp only [List.length_append, length_attrHeader, length_residentFields, List.length_replicate, length_bytesOf]
  norm_num

theorem length_fileNameAttr (hname : name.length < 256) :
    (fileNameAttr info parentRef name node).length = fileNameAttrSize name := by
  have halign := @align8_bounds (24 + fileNameSize name) (by unfold fileNameSize; omega)
  unfold fileNameAttr
  rw [length_zeroPadded]
  cases node <;>
  · simp only [List.length_append, length_attrHeader, length_residentFields, length_fileNameBytes]
    unfold fileNameAttrSize
    omega

theorem length_emptyIndexRoot : (emptyIndexRoot info).length = 48 := by
  unfold emptyIndexRoot
  simp only [List.length_append, length_bytesOf, List.length_replicate]

theorem length_indexRootAttr : (indexRootAttr info).length = 80 := by
  have halign : align8 (32 + 48) = 80 := by decide
  unfold indexRootAttr
  rw [length_zeroPadded, halign]
  simp only [List.length_append, length_attrHeader, length_residentFields, length_utf16Bytes, length_emptyIndexRoot]
  norm_num

theorem length_residentDataAttr (data : List UInt8) :
    (residentDataAttr data).length = max (align8 (24 + data.length)) (24 + data.length) := by
  unfold residentDataAttr
  rw [length_zeroPadded]
  simp only [List.length_append, length_attrHeader, length_residentFields]
  congr 1
  omega

theorem length_clusterDataAttr (size cluster count : ℕ) : (clusterDataAttr info size cluster count).length =
    max (align8 (64 + (runListBytes cluster count).length)) (64 + (runListBytes cluster count).length) := by
  unfold clusterDataAttr
  dsimp only
  rw [length_zeroPadded]
  simp only [List.length_append, length_attrHeader, length_bytesOf]
  congr 1
  omega

theorem length_builtAttrs (hname : name.length < 256) :
    0x38 + (builtAttrs info parentRef name node).length = lastAttrPos name + (lastAttr info name node).length := by
  have halign : align8 (24 + 48) = 72 := by decide
  unfold builtAttrs lastAttrPos
  simp only [List.length_append, length_standardInfoAttr, length_fileNameAttr hname, halign]
  omega

/-! ## The record in its buffer -/

/-- What is built in a record. -/
def builtBytes (info : NtfsInfo) (rn parentRef : ℕ) (name : List UInt8) (node : NewNode) : List UInt8 :=
  recordHeader info rn (recordFlags node.isDir) (0x38 + (builtAttrs info parentRef name node).length + 8) 3 ++
    (builtAttrs info parentRef name node ++ bytesOf attrEnd 4)

theorem length_builtBytes : (builtBytes info rn parentRef name node).length =
    0x38 + (builtAttrs info parentRef name node).length + 4 := by
  unfold builtBytes
  simp only [List.length_append, length_recordHeader, length_bytesOf]
  omega

/-- **A record is built** if there is room for its bytes. -/
theorem buildFileRecord_ok_iff {used : ℕ} {rec : Buffer} :
    buildFileRecord info ⟨info.mftRecordSize, fun _ => 0⟩ rn parentRef name node = .ok (used, rec) ↔
      0x38 + (builtAttrs info parentRef name node).length + 4 ≤ info.mftRecordSize ∧
      used = 0x38 + (builtAttrs info parentRef name node).length + 8 ∧
      rec = ⟨info.mftRecordSize, Memory.storeBytes (Memory.storeBytes (fun _ => 0) 0
        (List.replicate info.mftRecordSize 0)) 0 (builtBytes info rn parentRef name node)⟩ := by
  have hlen := @length_builtBytes info name node parentRef rn
  unfold buildFileRecord
  dsimp only
  unfold Buffer.storeBytes
  rw [if_pos (Or.inr (by rw [List.length_replicate, Nat.zero_add])), ok_bind, List.append_assoc]
  change Except.map _ (if builtBytes info rn parentRef name node = [] ∨
    0 + (builtBytes info rn parentRef name node).length ≤ info.mftRecordSize then _ else _) = _ ↔ _
  have hne : builtBytes info rn parentRef name node ≠ [] := by
    intro hnil
    rw [hnil, List.length_nil] at hlen
    omega
  constructor
  · intro h
    obtain ⟨rec', hstore, heq⟩ := map_eq_ok.mp h
    split_ifs at hstore with hroom
    cases hstore
    cases heq
    refine ⟨?_, rfl, rfl⟩
    have hle := hroom.resolve_left hne
    omega
  · rintro ⟨hroom, rfl, rfl⟩
    rw [if_pos (Or.inr (by omega))]
    rfl

/-- The buffer holds the record. -/
theorem builtRecord_holds {m : Memory} {size : ℕ} (hroom : (builtBytes info rn parentRef name node).length ≤ size) :
    (⟨size, m.storeBytes 0 (builtBytes info rn parentRef name node)⟩ : Buffer).Holds 0
      (builtBytes info rn parentRef name node) := by
  rw [Buffer.holds_iff]
  refine ⟨by dsimp only; omega, ?_⟩
  intro i hi
  dsimp only
  rw [Memory.storeBytes_of_inside _ hi, List.getElem?_eq_getElem hi]

/-- The numbers in the header of a record. -/
theorem numberAt_recordHeader {mftNum flags used nextId : ℕ} {tail : List UInt8} :
    numberAt (recordHeader info mftNum flags used nextId ++ tail) 4 2 = 48 ∧
    numberAt (recordHeader info mftNum flags used nextId ++ tail) 6 2 = (info.mftRecordSize / 512 + 1) % 2 ^ 16 ∧
    numberAt (recordHeader info mftNum flags used nextId ++ tail) 20 2 = 56 := by
  unfold recordHeader
  simp only [List.append_assoc]
  refine ⟨?_, ?_, ?_⟩
  · rw [numberAt_append length_magic.symm (by simp), numberOf_bytesOf]
    rfl
  · rw [numberAt_append_right (by rw [length_magic]; omega), length_magic, numberAt_append (by simp) (by simp),
      numberOf_bytesOf]
  · rw [numberAt_append_right (by rw [length_magic]; omega), length_magic]
    iterate 4 rw [numberAt_append_right (by simp)]
    rw [numberAt_append (by simp) (by simp), numberOf_bytesOf]
    rfl

/-- The bytes that a buffer holds are those that `memcmp` compares. -/
theorem beginsWith_of_holds {bs : List UInt8} : ∀ {off : ℕ}, b.Holds off bs → b.beginsWith off bs = .ok true := by
  induction bs with
  | nil =>
    intro off _
    rfl
  | cons c cs ih =>
    intro off h
    have hfirst := b.load_of_holds h
    have hrest : b.Holds (off + 1) cs := (b.holds_append.mp (show b.Holds off ([c] ++ cs) from h)).2
    rw [Buffer.beginsWith, hfirst, ok_bind, if_pos rfl, ih hrest]

/-- A record that was built, with its header and its attributes. -/
structure BuiltRecord (info : NtfsInfo) (rn parentRef : ℕ) (name : List UInt8) (node : NewNode) (rec : Buffer) :
    Prop where
  size_eq : rec.size = info.mftRecordSize
  magic : rec.beginsWith 0 "FILE".toUTF8.toList = .ok true
  offset : rec.mem.loadLE 4 2 = 48
  count : rec.mem.loadLE 6 2 = (info.mftRecordSize / 512 + 1) % 2 ^ 16
  first : rec.mem.loadLE 20 2 = 56
  attrs : rec.Holds 56 (builtAttrs info parentRef name node ++ bytesOf attrEnd 4)

theorem builtRecord_of_ok {used : ℕ} {rec : Buffer}
    (h : buildFileRecord info ⟨info.mftRecordSize, fun _ => 0⟩ rn parentRef name node = .ok (used, rec)) :
    BuiltRecord info rn parentRef name node rec := by
  obtain ⟨hroom, -, rfl⟩ := buildFileRecord_ok_iff.mp h
  have hlen := @length_builtBytes info name node parentRef rn
  generalize hm : Memory.storeBytes (Memory.storeBytes (fun _ => 0) 0 (List.replicate info.mftRecordSize 0)) 0
    (builtBytes info rn parentRef name node) = m
  have hall : (⟨info.mftRecordSize, m⟩ : Buffer).Holds 0 (builtBytes info rn parentRef name node) := by
    rw [← hm]
    apply builtRecord_holds
    omega
  have hload : ∀ i w, i + w ≤ 56 → m.loadLE i w = numberAt (builtBytes info rn parentRef name node) i w := by
    intro i w hle
    have hnumber := @Buffer.Holds.loadLE_numberAt _ 0 _ i w hall (by omega)
    rwa [Nat.zero_add] at hnumber
  have hnumbers := @numberAt_recordHeader info rn (recordFlags node.isDir)
    (0x38 + (builtAttrs info parentRef name node).length + 8) 3
    (builtAttrs info parentRef name node ++ bytesOf attrEnd 4)
  obtain ⟨hheader, hattrs⟩ := (Buffer.holds_append _).mp hall
  rw [length_recordHeader, Nat.zero_add] at hattrs
  constructor
  · rfl
  · unfold recordHeader at hheader
    exact beginsWith_of_holds ((Buffer.holds_append _).mp hheader).1
  · rw [hload 4 2 (by omega)]
    exact hnumbers.1
  · rw [hload 6 2 (by omega)]
    exact hnumbers.2.1
  · rw [hload 20 2 (by omega)]
    exact hnumbers.2.2
  · exact hattrs

/-- A record of up to eight sectors can be written. -/
theorem BuiltRecord.writable {rec : Buffer} (h : BuiltRecord info rn parentRef name node rec) {n : ℕ} (hn : 1 ≤ n)
    (hsmall : n ≤ 8) (hsize : info.mftRecordSize = 512 * n) : WritableRecord info rec 48 n where
  fixup := by
    constructor
    · exact h.offset
    · rw [h.count, hsize, Nat.mul_div_cancel_left n (by norm_num), Nat.mod_eq_of_lt (by omega)]
    · exact ⟨by norm_num, by omega, fun i hi hin => by omega⟩
    · rw [h.size_eq, hsize]
  size_eq := hsize
  few := by omega
  magic := h.magic

/-! ## Finding the attributes -/

/-- An attribute of another type is passed. -/
theorem findAttributeLoop_pass {recSize type k off : ℕ} {a tail : List UInt8} (h : b.Holds off (a ++ tail))
    (hlen : 16 ≤ a.length) (hin : off + a.length ≤ recSize) (hlength : numberAt a 4 4 = a.length)
    (hother : numberAt a 0 4 ≠ type) (hend : ¬ (numberAt a 0 4 = attrEnd ∨ numberAt a 0 4 = 0)) :
    findAttributeLoop recSize b type (k + 1) off = findAttributeLoop recSize b type k (off + a.length) := by
  obtain ⟨ha, -⟩ := b.holds_append.mp h
  have htype := @Buffer.Holds.load_numberAt b off a 0 4 ha (by omega)
  rw [Nat.add_zero] at htype
  rw [findAttributeLoop, if_pos (by omega), htype, ok_bind, if_neg hend, ha.load_numberAt (by omega), ok_bind,
    hlength, if_neg (by omega), if_neg hother]

/-- An attribute of the type is found. -/
theorem findAttributeLoop_hit {recSize type k off : ℕ} {a tail : List UInt8} (h : b.Holds off (a ++ tail))
    (hlen : 16 ≤ a.length) (hin : off + a.length ≤ recSize) (hlength : numberAt a 4 4 = a.length)
    (htype : numberAt a 0 4 = type) (hend : ¬ (numberAt a 0 4 = attrEnd ∨ numberAt a 0 4 = 0)) :
    findAttributeLoop recSize b type (k + 1) off = .ok (some off) := by
  obtain ⟨ha, -⟩ := b.holds_append.mp h
  have hload := @Buffer.Holds.load_numberAt b off a 0 4 ha (by omega)
  rw [Nat.add_zero] at hload
  rw [findAttributeLoop, if_pos (by omega), hload, ok_bind, if_neg hend, ha.load_numberAt (by omega), ok_bind,
    hlength, if_neg (by omega), if_pos htype]

/-- The header of an attribute. -/
theorem numberAt_attrHeader {type length nameLength nameOffset id : ℕ} {nonResident : Bool} {tail : List UInt8} :
    numberAt (attrHeader type length nonResident nameLength nameOffset id ++ tail) 0 4 = type % 2 ^ 32 ∧
    numberAt (attrHeader type length nonResident nameLength nameOffset id ++ tail) 4 4 = length % 2 ^ 32 ∧
    numberAt (attrHeader type length nonResident nameLength nameOffset id ++ tail) 8 1 =
      if nonResident then 1 else 0 := by
  unfold attrHeader
  simp only [List.append_assoc]
  refine ⟨?_, ?_, ?_⟩
  · have hfirst := @numberAt_append [] (bytesOf type 4) (bytesOf length 4 ++
      (bytesOf (if nonResident then 1 else 0) 1 ++ (bytesOf nameLength 1 ++ (bytesOf nameOffset 2 ++ (bytesOf 0 2 ++
        (bytesOf id 2 ++ tail)))))) 0 4 rfl (by simp)
    rw [numberOf_bytesOf] at hfirst
    exact hfirst
  · rw [numberAt_append (by simp) (by simp), numberOf_bytesOf]
  · iterate 1 rw [numberAt_append_right (by simp)]
    rw [numberAt_append (by simp) (by simp), numberOf_bytesOf]
    cases nonResident <;> rfl

/-- The header of a padded attribute. -/
theorem numberAt_zeroPadded {size type length nameLength nameOffset id : ℕ} {nonResident : Bool} {rest : List UInt8} :
    numberAt (zeroPadded size (attrHeader type length nonResident nameLength nameOffset id ++ rest)) 0 4 =
      type % 2 ^ 32 ∧
    numberAt (zeroPadded size (attrHeader type length nonResident nameLength nameOffset id ++ rest)) 4 4 =
      length % 2 ^ 32 ∧
    numberAt (zeroPadded size (attrHeader type length nonResident nameLength nameOffset id ++ rest)) 8 1 =
      if nonResident then 1 else 0 := by
  unfold zeroPadded
  rw [List.append_assoc]
  exact numberAt_attrHeader

/-- A resident attribute, with its value. -/
theorem getResidentData_eq {size type length nameLength nameOffset id valueLength valueOffset indexed off : ℕ}
    {value tail : List UInt8} (h : b.Holds off (zeroPadded size (attrHeader type length false nameLength nameOffset id ++
      (residentFields valueLength valueOffset indexed ++ value)) ++ tail))
    (hlength : valueLength < 2 ^ 32) (hoffset : valueOffset < 2 ^ 16) :
    getResidentData b off = .ok (some (off + valueOffset, valueLength)) ∧ b.Holds (off + 24) value := by
  have hsplit : zeroPadded size (attrHeader type length false nameLength nameOffset id ++
      (residentFields valueLength valueOffset indexed ++ value)) ++ tail =
      attrHeader type length false nameLength nameOffset id ++ (bytesOf valueLength 4 ++ (bytesOf valueOffset 2 ++
        ((bytesOf indexed 1 ++ bytesOf 0 1) ++ (value ++ (List.replicate (size - (attrHeader type length false nameLength
          nameOffset id ++ (residentFields valueLength valueOffset indexed ++ value)).length) 0 ++ tail))))) := by
    unfold zeroPadded residentFields
    simp only [List.append_assoc]
  rw [hsplit] at h
  obtain ⟨hheader, h⟩ := b.holds_append.mp h
  obtain ⟨hvalueLength, h⟩ := b.holds_append.mp h
  obtain ⟨hvalueOffset, h⟩ := b.holds_append.mp h
  obtain ⟨-, h⟩ := b.holds_append.mp h
  obtain ⟨hvalue, -⟩ := b.holds_append.mp h
  simp only [length_attrHeader, length_bytesOf, List.length_append] at hvalueLength hvalueOffset hvalue
  have hlen := length_attrHeader type length false nameLength nameOffset id
  have hresident := @Buffer.Holds.load_numberAt b off _ 8 1 hheader (by omega)
  have hkind := (@numberAt_attrHeader type length nameLength nameOffset id false []).2.2
  rw [List.append_nil] at hkind
  have hvalueLengthLoad := hvalueLength.load_eq
  have hvalueOffsetLoad := hvalueOffset.load_eq
  rw [length_bytesOf, numberOf_bytesOf, Nat.mod_eq_of_lt hlength] at hvalueLengthLoad
  rw [length_bytesOf, numberOf_bytesOf, Nat.mod_eq_of_lt hoffset] at hvalueOffsetLoad
  constructor
  · unfold getResidentData nonResident
    rw [hresident, hkind]
    show (b.load (off + 16) 4).bind _ = _
    rw [hvalueLengthLoad, ok_bind, show off + 20 = off + 16 + 4 by omega, hvalueOffsetLoad]
    rfl
  · rw [show off + 24 = off + 16 + 4 + 2 + (1 + 1) by omega]
    exact hvalue

variable {tail : List UInt8}

theorem standardInfoAttr_header (isDir : Bool) :
    numberAt (standardInfoAttr isDir) 0 4 = 0x10 ∧ numberAt (standardInfoAttr isDir) 4 4 = 72 := by
  have halign : align8 (24 + 48) = 72 := by decide
  unfold standardInfoAttr
  rw [numberAt_zeroPadded.1, numberAt_zeroPadded.2.1, halign]
  exact ⟨rfl, rfl⟩

theorem fileNameAttrSize_lt (hname : name.length < 256) : 96 ≤ fileNameAttrSize name ∧ fileNameAttrSize name < 2 ^ 16 := by
  unfold fileNameAttrSize align8 u32 fileNameSize
  omega

theorem fileNameAttr_header (hname : name.length < 256) :
    numberAt (fileNameAttr info parentRef name node) 0 4 = attrFileName ∧
    numberAt (fileNameAttr info parentRef name node) 4 4 = fileNameAttrSize name := by
  have hsize := (fileNameAttrSize_lt hname).2
  unfold fileNameAttr
  rw [numberAt_zeroPadded.1, numberAt_zeroPadded.2.1]
  exact ⟨rfl, Nat.mod_eq_of_lt (by omega)⟩

/-- The attributes are in the buffer from offset 56 on. -/
structure ShowsAttrs (info : NtfsInfo) (parentRef : ℕ) (name : List UInt8) (node : NewNode) (b : Buffer) : Prop where
  first : b.load 20 2 = .ok 56
  attrs : b.Holds 56 (builtAttrs info parentRef name node ++ bytesOf attrEnd 4)
  room : 0x38 + (builtAttrs info parentRef name node).length + 4 ≤ info.mftRecordSize

/-- **The file name is found**. -/
theorem ShowsAttrs.findFileName (h : ShowsAttrs info parentRef name node b) (hname : name.length < 256) :
    findAttribute info.mftRecordSize b attrFileName none = .ok (some 128) ∧
      b.Holds 128 (fileNameAttr info parentRef name node) := by
  have hattrs := h.attrs
  have hroom := h.room
  unfold builtAttrs at hattrs hroom
  simp only [List.append_assoc] at hattrs
  simp only [List.length_append, length_standardInfoAttr, length_fileNameAttr hname] at hroom
  obtain ⟨hsizeLe, hsizeLt⟩ := fileNameAttrSize_lt hname
  obtain ⟨htype, hlength⟩ := standardInfoAttr_header node.isDir
  obtain ⟨-, hrest⟩ := b.holds_append.mp hattrs
  rw [length_standardInfoAttr] at hrest
  obtain ⟨k, hk⟩ : ∃ k, info.mftRecordSize + 1 = k + 1 + 1 := ⟨info.mftRecordSize - 1, by omega⟩
  obtain ⟨hnameType, hnameLength⟩ := @fileNameAttr_header info name node parentRef hname
  have hlen := @length_fileNameAttr info name node parentRef hname
  constructor
  · unfold findAttribute attributeStart
    rw [h.first, ok_bind, hk, findAttributeLoop_pass hattrs (by rw [length_standardInfoAttr]; omega)
      (by rw [length_standardInfoAttr]; omega) (by rw [hlength, length_standardInfoAttr]) (by rw [htype]; decide)
      (by rw [htype]; decide), length_standardInfoAttr]
    exact findAttributeLoop_hit hrest (by omega) (by omega) (by rw [hnameLength, hlen]) hnameType
      (by rw [hnameType]; decide)
  · exact (b.holds_append.mp hrest).1

/-- **The last attribute is found**. -/
theorem ShowsAttrs.findLast (h : ShowsAttrs info parentRef name node b) (hname : name.length < 256) {type : ℕ}
    (htype : numberAt (lastAttr info name node) 0 4 = type)
    (hlength : numberAt (lastAttr info name node) 4 4 = (lastAttr info name node).length)
    (hlen : 16 ≤ (lastAttr info name node).length) (hinfo : type ≠ 0x10) (hfile : type ≠ attrFileName)
    (hend : ¬ (type = attrEnd ∨ type = 0)) :
    findAttribute info.mftRecordSize b type none = .ok (some (lastAttrPos name)) ∧
      b.Holds (lastAttrPos name) (lastAttr info name node ++ bytesOf attrEnd 4) := by
  have hpos := @length_builtAttrs info name node parentRef hname
  have hattrs := h.attrs
  have hroom := h.room
  unfold builtAttrs at hattrs
  simp only [List.append_assoc] at hattrs
  obtain ⟨hsizeLe, hsizeLt⟩ := fileNameAttrSize_lt hname
  obtain ⟨hstdType, hstdLength⟩ := standardInfoAttr_header node.isDir
  obtain ⟨-, hrest⟩ := b.holds_append.mp hattrs
  obtain ⟨-, hlast⟩ := b.holds_append.mp hrest
  have hpos' : 56 + 72 + fileNameAttrSize name = lastAttrPos name := by
    have halign : align8 (24 + 48) = 72 := by decide
    unfold lastAttrPos
    rw [halign]
  rw [length_standardInfoAttr] at hrest
  rw [length_standardInfoAttr, length_fileNameAttr hname, hpos'] at hlast
  obtain ⟨k, hk⟩ : ∃ k, info.mftRecordSize + 1 = k + 1 + 1 + 1 := ⟨info.mftRecordSize - 2, by omega⟩
  obtain ⟨hnameType, hnameLength⟩ := @fileNameAttr_header info name node parentRef hname
  have hnameLen := @length_fileNameAttr info name node parentRef hname
  constructor
  · unfold findAttribute attributeStart
    rw [h.first, ok_bind, hk, findAttributeLoop_pass hattrs (by rw [length_standardInfoAttr]; omega)
      (by rw [length_standardInfoAttr]; omega) (by rw [hstdLength, length_standardInfoAttr])
      (by rw [hstdType]; exact hinfo.symm) (by rw [hstdType]; decide), length_standardInfoAttr,
      findAttributeLoop_pass hrest (by omega) (by omega) (by rw [hnameLength, hnameLen])
      (by rw [hnameType]; exact hfile.symm) (by rw [hnameType]; decide), hnameLen, hpos']
    exact findAttributeLoop_hit hlast hlen (by omega) hlength htype (by rw [htype]; exact hend)
  · exact hlast

/-- **The name is read**. -/
theorem ShowsAttrs.hasFileName (h : ShowsAttrs info parentRef name node b) (hname : IsAsciiName name) :
    HasFileName info b name := by
  have hlt : name.length < 256 := hname.length_lt
  obtain ⟨hfound, hholds⟩ := h.findFileName hlt
  have hsize : fileNameSize name < 2 ^ 32 := by
    unfold fileNameSize
    omega
  have hvalue : ∃ alloc real, getResidentData b 128 = .ok (some (128 + 24, fileNameSize name)) ∧
      b.Holds (128 + 24) (fileNameBytes parentRef name alloc real node.isDir) := by
    rw [← List.append_nil (fileNameAttr info parentRef name node)] at hholds
    unfold fileNameAttr at hholds
    cases node with
    | directory => exact ⟨_, _, getResidentData_eq hholds hsize (by norm_num)⟩
    | file data cluster count => exact ⟨_, _, getResidentData_eq hholds hsize (by norm_num)⟩
  obtain ⟨alloc, real, hdata, hbytes⟩ := hvalue
  refine ⟨128, 152, fileNameSize name, hfound, hdata, ?_⟩
  have hlen := length_fileNameBytes parentRef name alloc real node.isDir
  have hfull : fileNameSize name = 66 + 2 * name.length := rfl
  -- The 66 bytes before the name.
  have hsplit : fileNameBytes parentRef name alloc real node.isDir =
      (bytesOf (parentRef ||| 2 ^ 48) 8 ++ (List.replicate 32 0 ++ (bytesOf alloc 8 ++ (bytesOf real 8 ++
        (bytesOf (fileAttrFlags node.isDir) 4 ++ bytesOf 0 4))))) ++ (bytesOf name.length 1 ++ (bytesOf 3 1 ++
          (utf16Bytes name ++ []))) := by
    unfold fileNameBytes
    simp only [List.append_assoc, List.append_nil]
  have hcount : numberAt (fileNameBytes parentRef name alloc real node.isDir) 64 1 = name.length := by
    rw [hsplit, numberAt_append (by simp) (by simp), numberOf_bytesOf]
    exact Nat.mod_eq_of_lt hlt
  have hchars : asciiAt (fileNameBytes parentRef name alloc real node.isDir) 66 name.length = name := by
    rw [hsplit, ← List.append_assoc, ← List.append_assoc]
    exact asciiAt_utf16Bytes (by simp) hname.ascii
  rw [show 152 + 64 = 128 + 24 + 64 by omega, hbytes.load_numberAt (by omega), ok_bind, hcount,
    show 152 + 66 = 128 + 24 + 66 by omega, utf16leToAscii_eq hbytes (by omega) hname.length_lt, hchars]

/-! ## The last attribute -/

/-- **The index root of a directory**. -/
theorem ShowsAttrs.hasIndexRoot (h : ShowsAttrs info parentRef name .directory b) (hname : name.length < 256) :
    HasContents info b .directory := by
  have hlen := @length_indexRootAttr info
  have hheader : numberAt (indexRootAttr info) 0 4 = attrIndexRoot ∧ numberAt (indexRootAttr info) 4 4 = 80 := by
    have halign : align8 (32 + 48) = 80 := by decide
    unfold indexRootAttr
    rw [numberAt_zeroPadded.1, numberAt_zeroPadded.2.1, halign]
    exact ⟨rfl, rfl⟩
  obtain ⟨hfound, hholds⟩ := h.findLast hname hheader.1 (hheader.2.trans hlen.symm)
    (by show 16 ≤ (indexRootAttr info).length; omega) (by decide) (by decide) (by decide)
  unfold lastAttr indexRootAttr at hholds
  obtain ⟨hdata, hvalue⟩ := getResidentData_eq hholds (by norm_num) (by norm_num)
  -- The value is behind the name.
  obtain ⟨-, hindex⟩ := b.holds_append.mp hvalue
  rw [length_utf16Bytes] at hindex
  refine ⟨lastAttrPos name, lastAttrPos name + 32, hfound, ?_, ?_⟩
  · rw [length_emptyIndexRoot]
    exact hdata
  · exact hindex

/-- **The data of a small file**. -/
theorem ShowsAttrs.hasData {data : List UInt8} {cluster count : ℕ} (hsmall : info.mftRecordSize ≤ 4096)
    (h : ShowsAttrs info parentRef name (.file data cluster count) b) (hname : name.length < 256)
    (hresident : BuiltResident info name data.length cluster) : HasContents info b (.file data cluster count) := by
  have hpos := @length_builtAttrs info name (.file data cluster count) parentRef hname
  have hroom := h.room
  have hlast : lastAttr info name (.file data cluster count) = residentDataAttr data := if_pos hresident
  have hlen := length_residentDataAttr data
  rw [hlast] at hpos
  have halign := @align8_bounds (24 + data.length) (by omega)
  have hheader : numberAt (residentDataAttr data) 0 4 = attrData ∧
      numberAt (residentDataAttr data) 4 4 = (residentDataAttr data).length := by
    rw [hlen]
    unfold residentDataAttr
    rw [numberAt_zeroPadded.1, numberAt_zeroPadded.2.1, show attrData % 2 ^ 32 = attrData from rfl,
      Nat.mod_eq_of_lt (by omega)]
    exact ⟨rfl, by omega⟩
  rw [← hlast] at hheader
  obtain ⟨hfound, hholds⟩ := h.findLast hname hheader.1 hheader.2 (by rw [hlast]; omega) (by decide) (by decide)
    (by decide)
  rw [hlast] at hholds
  unfold residentDataAttr at hholds
  obtain ⟨hdata, hvalue⟩ := getResidentData_eq hholds (by omega) (by norm_num)
  refine ⟨lastAttrPos name, hfound, ?_⟩
  rw [if_pos hresident.2]
  exact ⟨_, hdata, hvalue⟩

/-- The attribute with the clusters of a file. -/
theorem ShowsAttrs.clusterData {data : List UInt8} {cluster count : ℕ} (hsmall : info.mftRecordSize ≤ 4096)
    (h : ShowsAttrs info parentRef name (.file data cluster count) b) (hname : name.length < 256)
    (hdata : data.length < 2 ^ 64) (hclusters : ¬ BuiltResident info name data.length cluster) :
    findAttribute info.mftRecordSize b attrData none = .ok (some (lastAttrPos name)) ∧
      b.load (lastAttrPos name + 48) 8 = .ok data.length ∧
      RunArea b (lastAttrPos name) (runListBytes cluster count) := by
  have hpos := @length_builtAttrs info name (.file data cluster count) parentRef hname
  have hroom := h.room
  have hlast : lastAttr info name (.file data cluster count) = clusterDataAttr info data.length cluster count :=
    if_neg hclusters
  have hlen := @length_clusterDataAttr info data.length cluster count
  rw [hlast] at hpos
  have halign := @align8_bounds (64 + (runListBytes cluster count).length) (by omega)
  have hheader : numberAt (clusterDataAttr info data.length cluster count) 0 4 = attrData ∧
      numberAt (clusterDataAttr info data.length cluster count) 4 4 =
        (clusterDataAttr info data.length cluster count).length := by
    rw [hlen]
    unfold clusterDataAttr
    dsimp only
    rw [numberAt_zeroPadded.1, numberAt_zeroPadded.2.1, show attrData % 2 ^ 32 = attrData from rfl,
      Nat.mod_eq_of_lt (by omega)]
    exact ⟨rfl, by omega⟩
  rw [← hlast] at hheader
  obtain ⟨hfound, hholds⟩ := h.findLast hname hheader.1 hheader.2 (by rw [hlast]; omega) (by decide) (by decide)
    (by decide)
  rw [hlast] at hheader hholds
  obtain ⟨hattr, -⟩ := b.holds_append.mp hholds
  have hkind : numberAt (clusterDataAttr info data.length cluster count) 8 1 = 1 := by
    unfold clusterDataAttr
    dsimp only
    rw [numberAt_zeroPadded.2.2]
    rfl
  -- The fields one after another.
  have hfields := hattr
  unfold clusterDataAttr zeroPadded at hfields
  dsimp only at hfields
  simp only [List.append_assoc] at hfields
  iterate 3 obtain ⟨-, hfields⟩ := b.holds_append.mp hfields
  obtain ⟨hrunOffset, hfields⟩ := b.holds_append.mp hfields
  iterate 3 obtain ⟨-, hfields⟩ := b.holds_append.mp hfields
  obtain ⟨hreal, hfields⟩ := b.holds_append.mp hfields
  obtain ⟨-, hfields⟩ := b.holds_append.mp hfields
  obtain ⟨hruns, -⟩ := b.holds_append.mp hfields
  simp only [length_attrHeader, length_bytesOf] at hrunOffset hreal hruns
  have hrunOffsetLoad := hrunOffset.load_eq
  have hrealLoad := hreal.load_eq
  rw [length_bytesOf, numberOf_bytesOf] at hrunOffsetLoad hrealLoad
  rw [Nat.mod_eq_of_lt hdata] at hrealLoad
  refine ⟨hfound, ?_, ?_⟩
  · rw [← hrealLoad]
  · constructor
    · unfold nonResident
      rw [hattr.load_numberAt (by omega), hkind]
      rfl
    · refine ⟨64, (clusterDataAttr info data.length cluster count).length, ?_, ?_, ?_, ?_⟩
      · rw [show lastAttrPos name + 32 = lastAttrPos name + 16 + 8 + 8 by omega, hrunOffsetLoad]
        rfl
      · rw [hattr.load_numberAt (by omega), hheader.2]
      · omega
      · exact hruns

/-- The run list of one run is parsed as this run. -/
theorem parseDataRuns_runListBytes {attr cluster count : ℕ} (hcluster : cluster < 2 ^ 63)
    (hcount : 1 ≤ count ∧ count < 2 ^ 64) (h : RunArea b attr (runListBytes cluster count)) :
    parseDataRuns b attr = .ok [⟨cluster, count⟩] := by
  obtain ⟨hlb, hlb8, hfits⟩ := numberWidth_spec hcount.2
  obtain ⟨hob, hob8, hsign⟩ := offsetWidth_spec hcluster
  have hcountNumber : numberOf (bytesOf count (numberWidth count)) = count := by
    rw [numberOf_bytesOf, Nat.mod_eq_of_lt hfits]
  let run : CodedRun :=
    ⟨bytesOf count (numberWidth count), bytesOf cluster (offsetWidth cluster),
      by rw [length_bytesOf]; exact ⟨hlb, hlb8⟩, by rw [length_bytesOf]; exact hob8,
      by rw [hcountNumber]; exact hcount.1⟩
  have hdelta : run.delta = cluster := signedOf_bytesOf hsign
  have hnotHole : run.ofsBytes ≠ [] := by
    intro hnil
    have hzero := congrArg List.length hnil
    rw [show run.ofsBytes.length = offsetWidth cluster from length_bytesOf] at hzero
    rw [List.length_nil] at hzero
    omega
  have hslip : run.slip = 0 := by
    unfold CodedRun.slip
    rw [if_neg]
    rintro ⟨-, hneg⟩
    rw [hdelta] at hneg
    omega
  have hoffset := run.runOffset_ofsBytes hnotHole
  rw [hdelta, hslip, add_zero] at hoffset
  have hlcn : u64 (0 + runOffset run.ofsBytes) = cluster := by
    unfold u64
    omega
  have hbytes : runListBytes cluster count = [run].flatMap CodedRun.bytes ++ [0] := by
    unfold runListBytes
    rw [encodeDataRun_eq hcluster hcount.2, List.flatMap_singleton]
    rfl
  rw [hbytes] at h
  rw [parseDataRuns_runs h, storedRuns, if_neg hnotHole]
  dsimp only
  rw [hlcn, show run.clusters = count from hcountNumber]
  rfl

/-- **The clusters of a large file** are its contents if there are enough of them. -/
theorem ShowsAttrs.hasClusters_iff {data : List UInt8} {cluster count : ℕ} (hsmall : info.mftRecordSize ≤ 4096)
    (h : ShowsAttrs info parentRef name (.file data cluster count) b) (hname : name.length < 256)
    (hcluster : 0 < cluster ∧ cluster < 2 ^ 32) (hcount : count < 2 ^ 32)
    (hdata : 0 < data.length ∧ data.length < 2 ^ 32) :
    HasContents info b (.file data cluster count) ↔ data.length ≤ count * info.clusterSize := by
  have hnot : ¬ BuiltResident info name data.length cluster := by
    intro hresident
    have hzero := hresident.2
    omega
  obtain ⟨hfound, hreal, hruns⟩ := h.clusterData hsmall hname (by omega) hnot
  have hne : cluster ≠ 0 := by omega
  constructor
  · rintro ⟨da, -, hcontents⟩
    rw [if_neg hne] at hcontents
    exact hcontents.2.2
  · intro hle
    refine ⟨_, hfound, ?_⟩
    rw [if_neg hne]
    refine ⟨parseDataRuns_runListBytes (by omega) ⟨?_, by omega⟩ hruns, hreal, hle⟩
    apply Nat.pos_of_ne_zero
    rintro rfl
    omega

/-- **Data without clusters that does not go into the record is lost**. -/
theorem ShowsAttrs.losesData {data : List UInt8} {count : ℕ} (hsmall : info.mftRecordSize ≤ 4096)
    (h : ShowsAttrs info parentRef name (.file data 0 count) b) (hname : name.length < 256)
    (hdata : data.length < 2 ^ 32) (hnot : ¬ BuiltResident info name data.length 0) :
    ¬ HasContents info b (.file data 0 count) := by
  obtain ⟨hfound, -, hruns⟩ := h.clusterData hsmall hname (by omega) hnot
  rintro ⟨da, hda, hcontents⟩
  cases Option.some.inj (Except.ok.inj (hfound.symm.trans hda))
  rw [if_pos rfl] at hcontents
  obtain ⟨addr, hresident, -⟩ := hcontents
  unfold getResidentData at hresident
  rw [hruns.nonResident, ok_bind, if_pos rfl] at hresident
  cases hresident

/-! ## Sizes of records -/

/-- The sizes of records that `ntfs_mount` accepts: less than a sector, or up to eight sectors. -/
theorem mftRecordSize_cases {boot : Memory} (hinfo : ntfsInfo boot = some info) :
    info.mftRecordSize ≤ 256 ∨ ∃ n, 1 ≤ n ∧ n ≤ 8 ∧ info.mftRecordSize = 512 * n := by
  obtain ⟨spc, -, hrec, -, hmax⟩ := ntfsInfo_sizes hinfo
  rw [hrec] at hmax ⊢
  unfold recordSize at hmax ⊢
  split_ifs at hmax ⊢ with hfield
  · have hmul : boot.loadLE 64 1 * (512 * spc) = 512 * (boot.loadLE 64 1 * spc) := by ring
    rw [hmul] at hmax ⊢
    by_cases hzero : boot.loadLE 64 1 * spc = 0
    · left
      rw [hzero]
      norm_num
    · right
      exact ⟨_, by omega, by omega, rfl⟩
  · have hlt : (256 - boot.loadLE 64 1) % 256 % 32 < 32 := Nat.mod_lt _ (by omega)
    generalize (256 - boot.loadLE 64 1) % 256 % 32 = k at *
    -- A power of two up to 4096.
    have hk : k ≤ 12 := by
      by_contra hbig
      have hpow : 2 ^ 13 ≤ 2 ^ k := Nat.pow_le_pow_right (by norm_num) (by omega)
      omega
    rcases Nat.lt_or_ge k 9 with hlow | hhigh
    · left
      have hpow : 2 ^ k ≤ 2 ^ 8 := Nat.pow_le_pow_right (by norm_num) (by omega)
      exact hpow
    · right
      have hpow : 2 ^ (k - 9) ≤ 2 ^ 3 := Nat.pow_le_pow_right (by norm_num) (by omega)
      refine ⟨2 ^ (k - 9), Nat.one_le_two_pow, hpow, ?_⟩
      rw [show 512 = 2 ^ 9 by norm_num, ← Nat.pow_add, Nat.add_sub_cancel' hhigh]

theorem ntfsInfo_clusterSize_le {boot : Memory} (hinfo : ntfsInfo boot = some info) :
    0 < info.clusterSize ∧ info.clusterSize ≤ 65536 := by
  unfold ntfsInfo at hinfo
  dsimp only at hinfo
  split_ifs at hinfo with hname hsize hrec
  cases hinfo
  simp only [not_or, not_lt] at hsize
  exact ⟨Nat.pos_of_ne_zero hsize.2.1, hsize.2.2⟩

/-- **What is read after a record of one or two sectors was written**. -/
theorem BuiltRecord.read_shows {rec : Buffer} (h : BuiltRecord info rn parentRef name node rec) {n : ℕ}
    (hn : 1 ≤ n ∧ n ≤ 2) (hsize : info.mftRecordSize = 512 * n) {env : NtfsEnv} {d d' : Disk} {c buf : Buffer}
    (hbuf : buf.size = mftBufSize) (hwrite : writeMftRecord env info d rn rec = .ok (true, d', c)) :
    ∃ b, readMftRecord env info d' rn buf = .ok (true, b) ∧ ShowsAttrs info parentRef name node b := by
  have hbufSize : buf.size = 1024 := hbuf
  have hbufRoom : 512 * n ≤ buf.size := by omega
  obtain ⟨b, hread, hbsize, hsame⟩ := readMftRecord_writeMftRecord (h.writable hn.1 (by omega) hsize) hwrite
    hbufRoom
  have hattrs := h.attrs
  have hroom := hattrs.1
  rw [h.size_eq, List.length_append, length_bytesOf] at hroom
  have hfirst : b.mem.loadLE 20 2 = 56 := by
    rw [← h.first]
    apply Memory.loadLE_congr
    intro x _ hx
    exact hsame.same x (by omega) (by omega)
  refine ⟨b, hread, ?_, ?_, ?_⟩
  · rw [b.load_of_le (by omega), hfirst]
  · apply hattrs.congr
    · rw [List.length_append, length_bytesOf]
      omega
    · intro x hx hx'
      rw [List.length_append, length_bytesOf] at hx'
      exact hsame.same x (by omega) (by omega)
  · omega

/-- A record of more than two sectors is read beyond `mft_buf`. -/
theorem not_readsBack_of_large {rec : Buffer} (h : BuiltRecord info rn parentRef name node rec) {n : ℕ}
    (hn : 3 ≤ n ∧ n ≤ 8) (hsize : info.mftRecordSize = 512 * n) : ¬ ReadsBack info rn name node rec := by
  intro hreads
  obtain ⟨d', c, hwrite⟩ := @writeMftRecord_works workingEnv info (fun _ _ => 0) rec 48 n rn
    (h.writable (by omega) hn.2 hsize) fun _ _ => rfl
  obtain ⟨b, hread, -⟩ := hreads workingEnv _ d' c ⟨mftBufSize, fun _ => 0⟩ rfl hwrite
  unfold readMftRecord at hread
  rw [readSectorsInto_error (fun _ => rfl) _ 0 ⟨mftBufSize, _⟩ (Nat.zero_le _)] at hread
  · cases hread
  · unfold NtfsInfo.recordSectors
    rw [hsize, Nat.mul_div_cancel_left n (by norm_num)]
    show 1024 < 512 * (0 + n)
    omega

/-- Nothing is written of a record that is smaller than a sector. -/
theorem not_readsBack_of_small {rec : Buffer} (h : BuiltRecord info rn parentRef name node rec)
    (hsize : info.mftRecordSize < 512) : ¬ ReadsBack info rn name node rec := by
  intro hreads
  have hroom := h.attrs.1
  rw [h.size_eq, List.length_append, length_bytesOf] at hroom
  have hzero : info.mftRecordSize / 512 = 0 := Nat.div_eq_of_lt hsize
  have hcount := h.count
  rw [hzero] at hcount
  have hsizeEq := h.size_eq
  have hwrite : ∃ c, writeMftRecord workingEnv info (fun _ _ => 0) rn rec = .ok (true, fun _ _ => 0, c) := by
    unfold writeMftRecord prepareFixup
    rw [rec.load_of_le (by omega), ok_bind, rec.load_of_le (by omega), ok_bind, h.offset, hcount,
      if_neg (by omega), rec.load_of_le (by omega), ok_bind]
    unfold Buffer.store
    rw [if_pos (by omega), ok_bind]
    unfold NtfsInfo.recordSectors
    rw [hzero]
    exact ⟨_, rfl⟩
  obtain ⟨c, hwrite⟩ := hwrite
  obtain ⟨b, hread, -⟩ := hreads workingEnv _ _ c ⟨mftBufSize, fun _ => 0⟩ rfl hwrite
  have hmagic : (⟨mftBufSize, fun _ => 0⟩ : Buffer).beginsWith 0 "FILE".toUTF8.toList = .ok false := by with_unfolding_all decide
  unfold readMftRecord NtfsInfo.recordSectors at hread
  rw [hzero, readSectorsInto, ok_bind] at hread
  dsimp only at hread
  rw [if_pos rfl, hmagic, ok_bind, if_neg Bool.false_ne_true] at hread
  cases hread

/-! ## The exact condition -/

theorem indexEntrySize_le_iff : indexEntrySize name ≤ 512 ↔ name.length ≤ 215 := by
  unfold indexEntrySize fileNameSize
  omega

/-- **The index entry** fits for names of up to 215 characters. -/
theorem buildIndexEntry_ok_iff {fileRef fsize : ℕ} {isDir : Bool} :
    (∃ out, buildIndexEntry ⟨512, fun _ => 0⟩ fileRef parentRef name fsize isDir =
      .ok (indexEntrySize name, out)) ↔ name.length ≤ 215 := by
  have hlen := @length_indexEntryBytes name fileRef parentRef fsize isDir
  have hpos : 16 ≤ indexEntrySize name := by
    unfold indexEntrySize
    omega
  rw [← indexEntrySize_le_iff]
  unfold buildIndexEntry Buffer.storeBytes
  constructor
  · rintro ⟨out, h⟩
    obtain ⟨b, hstore, -⟩ := map_eq_ok.mp h
    split_ifs at hstore with hroom
    rcases hroom with hnil | hroom
    · rw [hnil, List.length_nil] at hlen
      omega
    · rw [hlen, Nat.zero_add] at hroom
      exact hroom
  · intro hle
    rw [if_pos (Or.inr (by rw [hlen, Nat.zero_add]; exact hle))]
    exact ⟨_, rfl⟩

/-- The test for resident data, without an overflow and with one. -/
theorem builtResident_iff {size : ℕ} (hname : name.length < 256) (hrec : info.mftRecordSize ≤ 4096)
    (hsize : size ≤ info.mftRecordSize) :
    BuiltResident info name size 0 ↔
      size + lastAttrPos name + 56 ≤ info.mftRecordSize ∨ info.mftRecordSize < lastAttrPos name + 56 := by
  have halign : align8 (24 + 48) = 72 := by decide
  have hlt := (fileNameAttrSize_lt hname).2
  have hpos : lastAttrPos name < 2 ^ 17 := by
    unfold lastAttrPos
    omega
  unfold BuiltResident u32
  generalize lastAttrPos name = pos at *
  generalize info.mftRecordSize = rs at *
  omega

/-- The 32 bytes that `build_file_record` has for a run list are enough. -/
theorem length_runListBytes_le (cluster count : ℕ) : (runListBytes cluster count).length ≤ 32 := by
  have hwidth : ∀ v, numberWidth v ≤ 8 := by
    intro v
    have hle := byteCount_le 8 v
    unfold numberWidth
    split_ifs
    · norm_num
    · exact hle
  have hcount := hwidth count
  have hcluster := hwidth cluster
  have hoffset : offsetWidth cluster ≤ 9 := by
    unfold offsetWidth
    split_ifs <;> omega
  unfold runListBytes encodeDataRun
  simp only [List.length_append, List.length_cons, List.length_map, List.length_range, List.length_nil]
  omega

/-- The room that the last attribute takes. -/
theorem lastFits_iff {boot : Memory} (hinfo : ntfsInfo boot = some info) (hname : name.length < 256)
    (hrec : info.mftRecordSize = 512 ∨ info.mftRecordSize = 1024) (hgiven : node.IsGiven info)
    (hroom : lastAttrPos name + (lastAttr info name node).length + 8 ≤ info.mftRecordSize)
    (hshows : ShowsAttrs info parentRef name node b) : LastFits info name node ↔ HasContents info b node := by
  obtain ⟨hcs, hcsLe⟩ := ntfsInfo_clusterSize_le hinfo
  have hsmall : info.mftRecordSize ≤ 4096 := by omega
  cases node with
  | directory =>
    constructor
    · exact fun _ => hshows.hasIndexRoot hname
    · intro _
      unfold lastAttr at hroom
      rw [length_indexRootAttr] at hroom
      exact hroom
  | file data cluster count =>
    obtain ⟨hdata, hclusters⟩ := hgiven
    unfold LastFits
    dsimp only
    by_cases hzero : cluster = 0
    · -- Without clusters.
      subst hzero
      rw [if_pos rfl]
      by_cases hresident : BuiltResident info name data.length 0
      · rw [show lastAttr info name (.file data 0 count) = residentDataAttr data from if_pos hresident,
          length_residentDataAttr] at hroom
        have halign := @align8_bounds (24 + data.length) (by omega)
        have hcond := (builtResident_iff hname hsmall (by omega)).mp hresident
        constructor
        · exact fun _ => hshows.hasData hsmall hname hresident
        · exact fun _ => ⟨hcond, by omega⟩
      · constructor
        · rintro ⟨hcond, hfits⟩
          have halign : data.length ≤ info.mftRecordSize := by
            unfold align8 u32 at hfits
            rcases hcond with hcond | hcond
            · omega
            · split_ifs at hclusters with hmax
              · omega
              · unfold maxResident u32 at hmax
                omega
          exact absurd ((builtResident_iff hname hsmall halign).mpr hcond) hresident
        · exact fun hcontents => absurd hcontents (hshows.losesData hsmall hname hdata hresident)
    · rw [if_neg hzero]
      split_ifs at hclusters with hmax
      · obtain ⟨hcount, hpos, hlt⟩ := hclusters
        have hcountLt : count < 2 ^ 32 := by
          rw [hcount]
          apply lt_of_le_of_lt (Nat.div_le_self _ _)
          exact Nat.mod_lt _ (by norm_num)
        rw [hshows.hasClusters_iff hsmall hname ⟨hpos, hlt⟩ hcountLt ⟨by omega, hdata⟩]
        have hnot : ¬ BuiltResident info name data.length cluster := fun hresident => hzero hresident.2
        rw [show lastAttr info name (.file data cluster count) = clusterDataAttr info data.length cluster count from
          if_neg hnot, length_clusterDataAttr] at hroom
        have halign := @align8_bounds (64 + (runListBytes cluster count).length) (by omega)
        have hdiv := Nat.div_add_mod (u32 (data.length + info.clusterSize - 1)) info.clusterSize
        have hmod := Nat.mod_lt (u32 (data.length + info.clusterSize - 1)) hcs
        rw [← hcount, Nat.mul_comm] at hdiv
        -- With an overflow there are too few clusters.
        constructor
        · rintro ⟨hfits, -⟩
          have hu32 : u32 (data.length + info.clusterSize - 1) = data.length + info.clusterSize - 1 :=
            Nat.mod_eq_of_lt (by omega)
          rw [hu32] at hdiv hmod
          omega
        · intro hle
          refine ⟨?_, by omega⟩
          by_contra hover
          have hu32 : u32 (data.length + info.clusterSize - 1) = data.length + info.clusterSize - 1 - 2 ^ 32 := by
            unfold u32
            omega
          rw [hu32] at hdiv
          omega
      · exact absurd hclusters.1 hzero

/-- The last attribute that fits has room. -/
theorem LastFits.room (h : LastFits info name node) (hname : name.length < 256)
    (hrec : info.mftRecordSize = 512 ∨ info.mftRecordSize = 1024) (hgiven : node.IsGiven info) :
    lastAttrPos name + (lastAttr info name node).length + 8 ≤ info.mftRecordSize := by
  cases node with
  | directory =>
    unfold lastAttr
    rw [length_indexRootAttr]
    exact h
  | file data cluster count =>
    obtain ⟨hdata, hclusters⟩ := hgiven
    unfold LastFits at h
    dsimp only at h
    by_cases hzero : cluster = 0
    · subst hzero
      rw [if_pos rfl] at h
      obtain ⟨hcond, hfits⟩ := h
      have hle : data.length ≤ info.mftRecordSize := by
        rcases hcond with hcond | hcond
        · omega
        · split_ifs at hclusters with hmax
          · omega
          · unfold maxResident u32 at hmax
            omega
      have halign := @align8_bounds (24 + data.length) (by omega)
      rw [show lastAttr info name (.file data 0 count) = residentDataAttr data from
        if_pos ((builtResident_iff hname (by omega) hle).mpr hcond), length_residentDataAttr]
      omega
    · rw [if_neg hzero] at h
      have hruns := length_runListBytes_le cluster count
      have halign := @align8_bounds (64 + (runListBytes cluster count).length) (by omega)
      rw [show lastAttr info name (.file data cluster count) = clusterDataAttr info data.length cluster count from
        if_neg fun hresident => hzero hresident.2, length_clusterDataAttr]
      omega

/-- **A readable record has one or two sectors**. -/
theorem BuiltReadable.sectors {boot : Memory} (hinfo : ntfsInfo boot = some info)
    (h : BuiltReadable info rn parentRef name node) : info.mftRecordSize = 512 ∨ info.mftRecordSize = 1024 := by
  obtain ⟨⟨used, rec, hbuild, -, hapart, hreads⟩, -⟩ := h
  have hrec := builtRecord_of_ok hbuild
  rcases mftRecordSize_cases hinfo with hlow | ⟨n, hn, hn8, hsize⟩
  · exact absurd hreads (not_readsBack_of_small hrec (by omega))
  · rw [hrec.offset, hrec.count, hrec.first, hsize, Nat.mul_div_cancel_left n (by norm_num),
      Nat.mod_eq_of_lt (by omega)] at hapart
    by_cases hthree : n = 3
    · exact absurd hreads (not_readsBack_of_large hrec ⟨by omega, hn8⟩ hsize)
    · omega

/-- A record of one or two sectors that is built is written and read. -/
theorem BuiltRecord.exists_read {rec : Buffer} (h : BuiltRecord info rn parentRef name node rec)
    (hsize : info.mftRecordSize = 512 ∨ info.mftRecordSize = 1024) : ∃ d' c b,
      writeMftRecord workingEnv info (fun _ _ => 0) rn rec = .ok (true, d', c) ∧
      readMftRecord workingEnv info d' rn ⟨mftBufSize, fun _ => 0⟩ = .ok (true, b) ∧
      ShowsAttrs info parentRef name node b := by
  obtain ⟨n, hn, hn2, hn512⟩ : ∃ n, 1 ≤ n ∧ n ≤ 2 ∧ info.mftRecordSize = 512 * n := by
    rcases hsize with hone | htwo
    · exact ⟨1, le_rfl, by norm_num, hone⟩
    · exact ⟨2, by norm_num, le_rfl, htwo⟩
  obtain ⟨d', c, hwrite⟩ := @writeMftRecord_works workingEnv info (fun _ _ => 0) rec 48 n rn
    (h.writable hn (by omega) hn512) fun _ _ => rfl
  obtain ⟨b, hread, hshows⟩ := @BuiltRecord.read_shows _ _ _ _ _ _ h n ⟨hn, hn2⟩ hn512 _ _ _ _
    ⟨mftBufSize, fun _ => 0⟩ rfl hwrite
  exact ⟨d', c, b, hwrite, hread, hshows⟩

/-- **The last attribute of a readable record fits**. -/
theorem BuiltReadable.lastFits {boot : Memory} (hinfo : ntfsInfo boot = some info) (hname : name.length < 256)
    (hgiven : node.IsGiven info) (h : BuiltReadable info rn parentRef name node) : LastFits info name node := by
  have hsize := h.sectors hinfo
  obtain ⟨⟨used, rec, hbuild, hused, -, hreads⟩, -⟩ := h
  obtain ⟨-, hlen, -⟩ := buildFileRecord_ok_iff.mp hbuild
  have hpos := @length_builtAttrs info name node parentRef hname
  obtain ⟨d', c, b, hwrite, hread, hshows⟩ := (builtRecord_of_ok hbuild).exists_read hsize
  obtain ⟨b', hread', -, hcontents⟩ := hreads workingEnv _ d' c ⟨mftBufSize, fun _ => 0⟩ rfl hwrite
  cases hread.symm.trans hread'
  exact (lastFits_iff hinfo hname hsize hgiven (by omega) hshows).mpr hcontents

/-- **When built records are readable**: exactly when the record has one or two sectors, the name has up
to 215 characters, and the last attribute fits. -/
theorem builtReadable_iff {boot : Memory} (hinfo : ntfsInfo boot = some info) (hname : IsAsciiName name)
    (hgiven : node.IsGiven info) : BuiltReadable info rn parentRef name node ↔ RecordFits info name node := by
  have hlt : name.length < 256 := hname.length_lt
  constructor
  · intro h
    exact ⟨h.sectors hinfo, buildIndexEntry_ok_iff.mp h.2, h.lastFits hinfo hlt hgiven⟩
  · rintro ⟨hsize, hshort, hlast⟩
    have hroom := hlast.room hlt hsize hgiven
    have hpos := @length_builtAttrs info name node parentRef hlt
    have hbuild := (@buildFileRecord_ok_iff info name node parentRef rn _ _).mpr ⟨by omega, rfl, rfl⟩
    have hrec := builtRecord_of_ok hbuild
    refine ⟨⟨_, _, hbuild, by omega, ?_, ?_⟩, buildIndexEntry_ok_iff.mpr hshort⟩
    · rw [hrec.offset, hrec.count, hrec.first]
      omega
    · intro env d d' c buf hbuf hwrite
      obtain ⟨n, hn, hn2, hn512⟩ : ∃ n, 1 ≤ n ∧ n ≤ 2 ∧ info.mftRecordSize = 512 * n := by
        rcases hsize with hone | htwo
        · exact ⟨1, le_rfl, by norm_num, hone⟩
        · exact ⟨2, by norm_num, le_rfl, htwo⟩
      obtain ⟨b, hread, hshows⟩ := hrec.read_shows ⟨hn, hn2⟩ hn512 hbuf hwrite
      exact ⟨b, hread, hshows.hasFileName hname, (lastFits_iff hinfo hlt hsize hgiven (by omega) hshows).mp hlast⟩

/-- A directory "a" in records of 1024 bytes. -/
theorem builtReadable_iff_dir : BuiltReadable (infoWith 1024) 32 5 [0x61] .directory := by
  have hinfo : ntfsInfo (bootWith 0xF6 1) = some (infoWith 1024) := by with_unfolding_all decide
  apply (builtReadable_iff hinfo isAsciiName_a (show NewNode.directory.IsGiven (infoWith 1024) from trivial)).mpr
  exact ⟨Or.inr rfl, by decide, by show lastAttrPos [0x61] + 80 + 8 ≤ 1024; decide⟩

/-- The 744 bytes of a file "abcd" go neither into its record nor into clusters. -/
theorem not_builtReadable_lost : ¬ ∀ (boot : Memory) (info : NtfsInfo) (rn parentRef : ℕ) (name : List UInt8)
    (node : NewNode), ntfsInfo boot = some info → IsAsciiName name → node.IsGiven info →
    BuiltReadable info rn parentRef name node := by
  intro hall
  have hinfo : ntfsInfo (bootWith 0xF6 1) = some (infoWith 1024) := by with_unfolding_all decide
  have hname : IsAsciiName [0x61, 0x62, 0x63, 0x64] := by
    refine ⟨by decide, ?_⟩
    intro c hc
    simp only [List.mem_cons, List.not_mem_nil, or_false] at hc
    rcases hc with rfl | rfl | rfl | rfl <;> decide
  have hgiven : (NewNode.file (List.replicate 744 0x78) 0 0).IsGiven (infoWith 1024) := by
    unfold NewNode.IsGiven
    dsimp only
    rw [List.length_replicate]
    exact ⟨by norm_num, by decide⟩
  have hfits := (hall (bootWith 0xF6 1) (infoWith 1024) 32 5 _ _ hinfo hname hgiven).lastFits hinfo (by decide) hgiven
  have hpos : lastAttrPos [0x61, 0x62, 0x63, 0x64] = 232 := by decide
  unfold LastFits at hfits
  dsimp only at hfits
  rw [if_pos rfl, List.length_replicate, hpos] at hfits
  have hcond : 744 + 232 + 56 ≤ 1024 ∨ 1024 < 232 + 56 := hfits.1
  omega

end Microkernel
