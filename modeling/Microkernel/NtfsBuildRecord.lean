/-
# NTFS: building records

`build_file_record` in `src/ntfs.c`: the record of a new file or directory, with its attributes one
after another.  The record is cleared first, so that what is not written is zero.
-/
import Microkernel.NtfsIndexEntries
import Microkernel.NtfsRunCodec

namespace Microkernel

open Access ByteNumbers

/-- What a record is built for: a directory, or a file with its data and the clusters that were
allocated for it, none if `cluster` is 0. -/
inductive NewNode
  | directory
  | file (data : List UInt8) (cluster count : ℕ)

namespace NewNode

def isDir : NewNode → Bool
  | directory => true
  | file .. => false

end NewNode

/-- `(n + 7) & ~7`, as a number of 32 bits. -/
def align8 (n : ℕ) : ℕ := u32 (n + 7) / 8 * 8

/-- An attribute of `size` bytes, with zeros at its end. -/
def zeroPadded (size : ℕ) (bs : List UInt8) : List UInt8 := bs ++ List.replicate (size - bs.length) 0

/-- `attr_header_t`. -/
def attrHeader (type length : ℕ) (nonResident : Bool) (nameLength nameOffset id : ℕ) : List UInt8 :=
  bytesOf type 4 ++ (bytesOf length 4 ++ (bytesOf (if nonResident then 1 else 0) 1 ++ (bytesOf nameLength 1 ++
    (bytesOf nameOffset 2 ++ (bytesOf 0 2 ++ bytesOf id 2)))))

/-- `attr_resident_t` behind its header. -/
def residentFields (valueLength valueOffset indexed : ℕ) : List UInt8 :=
  bytesOf valueLength 4 ++ (bytesOf valueOffset 2 ++ (bytesOf indexed 1 ++ bytesOf 0 1))

/-- The `$STANDARD_INFORMATION` attribute. -/
def standardInfoAttr (isDir : Bool) : List UInt8 :=
  zeroPadded (align8 (24 + 48)) (attrHeader 0x10 (align8 (24 + 48)) false 0 0 0 ++ (residentFields 48 24 0 ++
    (List.replicate 32 0 ++ bytesOf (fileAttrFlags isDir) 4)))

/-- The size of the `$FILE_NAME` attribute. -/
def fileNameAttrSize (name : List UInt8) : ℕ := align8 (24 + fileNameSize name)

/-- The `$FILE_NAME` attribute. -/
def fileNameAttr (info : NtfsInfo) (parentRef : ℕ) (name : List UInt8) (node : NewNode) : List UInt8 :=
  zeroPadded (fileNameAttrSize name) (attrHeader attrFileName (fileNameAttrSize name) false 0 0 1 ++
    (residentFields (fileNameSize name) 24 1 ++
      match node with
      | .directory => fileNameBytes parentRef name 0 0 true
      | .file data _ count => fileNameBytes parentRef name (count * info.clusterSize) data.length false))

/-- The value of the `$INDEX_ROOT` attribute of an empty directory: the header and the last entry. -/
def emptyIndexRoot (info : NtfsInfo) : List UInt8 :=
  bytesOf attrFileName 4 ++ (bytesOf 1 4 ++ (bytesOf info.indexRecordSize 4 ++ (bytesOf 1 4 ++ (bytesOf 16 4 ++
    (bytesOf 16 4 ++ (bytesOf 16 4 ++ (bytesOf 0 4 ++ (List.replicate 8 0 ++ (bytesOf 16 2 ++ (bytesOf 0 2 ++
      bytesOf 2 4))))))))))

/-- The `$INDEX_ROOT` attribute, with its name "$I30". -/
def indexRootAttr (info : NtfsInfo) : List UInt8 :=
  zeroPadded (align8 (32 + 48)) (attrHeader attrIndexRoot (align8 (32 + 48)) false 4 24 2 ++ (residentFields 48 32 0 ++
    (utf16Bytes [0x24, 0x49, 0x33, 0x30] ++ emptyIndexRoot info)))

/-- A `$DATA` attribute with the data inside. -/
def residentDataAttr (data : List UInt8) : List UInt8 :=
  zeroPadded (align8 (24 + data.length)) (attrHeader attrData (align8 (24 + data.length)) false 0 0 2 ++
    (residentFields data.length 24 0 ++ data))

/-- The run list of the clusters, with its end. -/
def runListBytes (cluster count : ℕ) : List UInt8 := encodeDataRun cluster count ++ [0]

/-- A `$DATA` attribute with the data in clusters. -/
def clusterDataAttr (info : NtfsInfo) (size cluster count : ℕ) : List UInt8 :=
  let as := align8 (64 + (runListBytes cluster count).length)
  zeroPadded as (attrHeader attrData as true 0 0 2 ++ (bytesOf 0 8 ++ (bytesOf (count - 1) 8 ++ (bytesOf 64 2 ++
    (bytesOf 0 2 ++ (bytesOf 0 4 ++ (bytesOf (count * info.clusterSize) 8 ++ (bytesOf size 8 ++ (bytesOf size 8 ++
      runListBytes cluster count)))))))))

/-- Where the last attribute begins: `pos` behind the file name. -/
def lastAttrPos (name : List UInt8) : ℕ := 0x38 + align8 (24 + 48) + fileNameAttrSize name

/-- The data goes into the record: the test of `build_file_record`, with numbers of 32 bits. -/
def BuiltResident (info : NtfsInfo) (name : List UInt8) (size cluster : ℕ) : Prop :=
  size ≤ u32 (u32 (info.mftRecordSize + 2 * 2 ^ 32 - lastAttrPos name - 32) + 2 ^ 32 - 24) ∧ cluster = 0

instance (info : NtfsInfo) (name : List UInt8) (size cluster : ℕ) : Decidable (BuiltResident info name size cluster) :=
  inferInstanceAs (Decidable (_ ∧ _))

/-- The last attribute: the index of a directory, or the data of a file. -/
def lastAttr (info : NtfsInfo) (name : List UInt8) : NewNode → List UInt8
  | .directory => indexRootAttr info
  | .file data cluster count =>
    if BuiltResident info name data.length cluster then residentDataAttr data
    else clusterDataAttr info data.length cluster count

/-- The three attributes. -/
def builtAttrs (info : NtfsInfo) (parentRef : ℕ) (name : List UInt8) (node : NewNode) : List UInt8 :=
  standardInfoAttr node.isDir ++ (fileNameAttr info parentRef name node ++ lastAttr info name node)

/-- `mft_record_header_t` and the update sequence array. -/
def recordHeader (info : NtfsInfo) (mftNum flags used nextId : ℕ) : List UInt8 :=
  "FILE".toUTF8.toList ++ (bytesOf 0x30 2 ++ (bytesOf (info.mftRecordSize / 512 + 1) 2 ++ (bytesOf 0 8 ++
    (bytesOf 1 2 ++ (bytesOf 1 2 ++ (bytesOf 0x38 2 ++ (bytesOf flags 2 ++ (bytesOf used 4 ++
      (bytesOf info.mftRecordSize 4 ++ (bytesOf 0 8 ++ (bytesOf nextId 2 ++ (bytesOf 0 2 ++ (bytesOf mftNum 4 ++
        (bytesOf 1 2 ++ bytesOf 0 6))))))))))))))

/-- `MFT_RECORD_IN_USE`, and `MFT_RECORD_IS_DIR` for a directory. -/
def recordFlags (isDir : Bool) : ℕ := if isDir then 3 else 1

/-- `build_file_record`: the used size of the record, and the record. -/
def buildFileRecord (info : NtfsInfo) (rec : Buffer) (mftNum parentRef : ℕ) (name : List UInt8) (node : NewNode) :
    Access (ℕ × Buffer) :=
  let attrs := builtAttrs info parentRef name node
  let used := 0x38 + attrs.length + 8
  (rec.storeBytes 0 (List.replicate info.mftRecordSize 0)).bind fun rec =>
    (rec.storeBytes 0 (recordHeader info mftNum (recordFlags node.isDir) used 3 ++ attrs ++ bytesOf attrEnd 4)).map
      fun rec => (used, rec)

/-- `max_res` of `ntfs_write_file`: the data of larger files goes into clusters. -/
def maxResident (info : NtfsInfo) : ℕ := u32 (info.mftRecordSize + 2 ^ 32 - 0x38 - 200 - 24)

/-- The clusters are those that `ntfs_write_file` has allocated for the data, if it needs any. -/
def NewNode.IsGiven (info : NtfsInfo) : NewNode → Prop
  | directory => True
  | file data cluster count =>
    data.length < 2 ^ 32 ∧
      if maxResident info < data.length then
        count = u32 (data.length + info.clusterSize - 1) / info.clusterSize ∧ 0 < cluster ∧ cluster < 2 ^ 32
      else cluster = 0 ∧ count = 0

end Microkernel
