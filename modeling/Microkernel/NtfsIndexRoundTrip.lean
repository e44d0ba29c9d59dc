/-
# NTFS: an index entry in and out again

`insert_index_entry` and then `remove_index_entry` of the same name in `src/ntfs.c`: the record of the
directory is what it was, but for the update sequence array, which every write changes.
-/
import Microkernel.NtfsDirRecords
import Microkernel.NtfsRunMap

namespace Microkernel

open Access ByteNumbers

variable {env : NtfsEnv} {info : NtfsInfo} {d d' : Disk} {b b' buf buf' : Buffer} {r r' : DirRecord}
  {uso fa n dirRef : ℕ}

/-- Memory for a copy of the record is there, and the drive transfers its sectors. -/
structure RecordAccess (env : NtfsEnv) (info : NtfsInfo) (rn n : ℕ) : Prop where
  heap : ∃ fresh, env.heap.kmalloc info.mftRecordSize = some fresh
  drive : ∀ k < n, env.responds (u32 (info.recordLba rn + k)) = true

/-- The record on the disk `d'` was that in `b` and is that of the directory `r'` now, with the next
sequence number. -/
def BecomesRecord (env : NtfsEnv) (info : NtfsInfo) (d' : Disk) (rn : ℕ) (b : Buffer) (r' : DirRecord)
    (uso fa n : ℕ) : Prop :=
  ∀ buf : Buffer, 512 * n ≤ buf.size → ∃ b', readMftRecord env info d' rn buf = .ok (true, b') ∧
    Shows info b' r' uso fa n ∧ b'.mem.loadLE uso 2 = nextSequence (b.mem.loadLE uso 2) ∧
    ∀ x < fa, x < 24 ∨ 28 ≤ x → x < uso ∨ uso + 2 * (n + 1) ≤ x → b'.mem x = b.mem x

/-- The copy of the record. -/
theorem copyRecord_eq (h : Shows info b r uso fa n) {fresh : List UInt8}
    (hfresh : fresh.length = info.mftRecordSize) :
    ∃ dr, copyRecord info fresh b = .ok dr ∧ dr.size = 512 * n ∧ ∀ x < 512 * n, dr.mem x = b.mem x := by
  have hroom := h.writable.fixup.room
  unfold copyRecord Buffer.bytes
  rw [h.writable.size_eq, if_pos (by omega), ok_bind]
  unfold Buffer.storeBytes
  rw [if_pos (by rw [List.length_map, List.length_range]; dsimp only; rw [hfresh, h.writable.size_eq]; omega)]
  refine ⟨_, rfl, ?_, ?_⟩
  · rw [← h.writable.size_eq]
    exact hfresh
  · intro x hx
    have hin : x < ((List.range (512 * n)).map fun i => b.mem (0 + i)).length := by
      rw [List.length_map, List.length_range]
      exact hx
    have hbyte := Memory.storeBytes_of_inside (fun i => fresh.getD i 0) (a := 0) hin
    rw [Nat.zero_add] at hbyte
    dsimp only
    rw [hbyte, List.getElem_map, List.getElem_range, Nat.zero_add]

/-- **What both operations do** with the copy of the record. -/
theorem changeIndexRoot_eq {change : Buffer → ℕ → Access (Option Buffer)} (h : Shows info b r uso fa n)
    (hread : readMftRecord env info d dirRef buf = .ok (true, b)) {fresh : List UInt8}
    (hheap : env.heap.kmalloc info.mftRecordSize = some fresh) :
    ∃ dr, dr.size = 512 * n ∧ (∀ x < 512 * n, dr.mem x = b.mem x) ∧
      changeIndexRoot change env info d dirRef buf = (change dr (fa + r.root)).bind fun changed =>
        match changed with
        | none => .ok (false, d, b)
        | some dr => (writeMftRecord env info d dirRef dr).map fun (ok, d, _) => (ok, d, b) := by
  obtain ⟨dr, hcopy, hsize, hsame⟩ := copyRecord_eq h (env.heap.length_eq _ _ hheap)
  have hdr : Shows info dr r uso fa n := h.of_same (by omega) fun x hx _ => hsame x hx
  refine ⟨dr, hsize, hsame, ?_⟩
  unfold changeIndexRoot
  rw [hheap]
  dsimp only
  rw [hread, ok_bind]
  dsimp only
  rw [if_pos rfl, hcopy, ok_bind]
  exact congrArg (Except.bind · _) hdr.findAttribute_eq

/-- **A change that succeeds on the copy** is written and read again. -/
theorem changeIndexRoot_works {change : Buffer → ℕ → Access (Option Buffer)} (h : Shows info b r uso fa n)
    (hread : readMftRecord env info d dirRef buf = .ok (true, b)) (haccess : RecordAccess env info dirRef n)
    (hchange : ∀ dr, Shows info dr r uso fa n → dr.size = 512 * n → ∃ dr', change dr (fa + r.root) = .ok (some dr') ∧
      Shows info dr' r' uso fa n ∧ SameRecordHeader dr dr' fa) :
    ∃ d', changeIndexRoot change env info d dirRef buf = .ok (true, d', b) ∧
      BecomesRecord env info d' dirRef b r' uso fa n := by
  obtain ⟨⟨fresh, hheap⟩, hdrive⟩ := haccess
  obtain ⟨dr, hsize, hsame, hrun⟩ := @changeIndexRoot_eq env info d b buf r uso fa n dirRef change h hread fresh hheap
  have hdr : Shows info dr r uso fa n := h.of_same (by omega) fun x hx _ => hsame x hx
  obtain ⟨dr', hdr', hshows, hheader⟩ := hchange dr hdr hsize
  obtain ⟨d', c, hwrite⟩ := @writeMftRecord_works env info d dr' uso n dirRef hshows.writable hdrive
  have hbehind := h.behind
  have hfirst := h.first_ge
  have hfits := h.fits
  refine ⟨d', ?_, ?_⟩
  · rw [hrun, hdr', ok_bind]
    dsimp only
    rw [hwrite]
    rfl
  · intro buf' hroom
    obtain ⟨b', hread', hsize', hrewritten⟩ := readMftRecord_writeMftRecord hshows.writable hwrite hroom
    refine ⟨b', hread', ?_, ?_, ?_⟩
    · exact hshows.of_same (by omega) hrewritten.same
    · -- The array is between the header and the attributes.
      rw [hrewritten.number]
      congr 1
      apply Memory.loadLE_congr
      intro x hx hx'
      rw [hheader x (by omega) (by omega)]
      exact hsame x (by omega)
    · intro x hx hout harray
      rw [hrewritten.same x (by omega) harray, hheader x hx hout]
      exact hsame x (by omega)

/-! ## The two operations -/

/-- **An entry is put in** if there is room for it. -/
theorem insertIndexEntry_works (h : Shows info b r uso fa n)
    (hread : readMftRecord env info d dirRef buf = .ok (true, b)) (haccess : RecordAccess env info dirRef n)
    {e : IndexEntry} (hroom : fa + r.bytes.length + e.bytes.length + 8 ≤ 512 * n) :
    ∃ d', insertIndexEntry env info d dirRef e.bytes buf = .ok (true, d', b) ∧
      BecomesRecord env info d' dirRef b (r.insert e) uso fa n := by
  apply changeIndexRoot_works h hread haccess
  intro dr hdr hsize
  have hsmall := hdr.small
  have hput := hdr.putEntry_eq (by omega) e
  rw [if_pos hroom] at hput
  obtain ⟨dr', hrun, -, hshows, hheader⟩ := hput
  exact ⟨dr', hrun, hshows, hheader⟩

/-- An entry that is put in has memory, a drive and room. -/
theorem insertIndexEntry_true (h : Shows info b r uso fa n)
    (hread : readMftRecord env info d dirRef buf = .ok (true, b)) {e : IndexEntry}
    (hins : insertIndexEntry env info d dirRef e.bytes buf = .ok (true, d', buf')) :
    RecordAccess env info dirRef n ∧ fa + r.bytes.length + e.bytes.length + 8 ≤ 512 * n := by
  unfold insertIndexEntry at hins
  cases hheap : env.heap.kmalloc info.mftRecordSize with
  | none =>
    unfold changeIndexRoot at hins
    rw [hheap] at hins
    cases hins
  | some fresh =>
    obtain ⟨dr, hsize, hsame, hrun⟩ := @changeIndexRoot_eq env info d b buf r uso fa n dirRef
      (fun dr ira => putEntry dr ira e.bytes) h hread fresh hheap
    have hdr : Shows info dr r uso fa n := h.of_same (by omega) fun x hx _ => hsame x hx
    have hsmall := h.small
    have hput := hdr.putEntry_eq (by omega) e
    rw [hrun] at hins
    by_cases hroom : fa + r.bytes.length + e.bytes.length + 8 ≤ 512 * n
    · rw [if_pos hroom] at hput
      obtain ⟨dr', hdr', -, hshows, -⟩ := hput
      rw [hdr', ok_bind] at hins
      obtain ⟨⟨ok, d₁, c⟩, hwrite, heq⟩ := map_eq_ok.mp hins
      cases heq
      exact ⟨⟨⟨fresh, hheap⟩, writeMftRecord_responds hshows.writable hwrite⟩, hroom⟩
    · rw [if_neg hroom] at hput
      rw [hput, ok_bind] at hins
      cases hins

/-- **The first entry with the name is taken out**. -/
theorem removeIndexEntry_works {es es' : List IndexEntry} {e : IndexEntry} {fname : List UInt8}
    (h : Shows info b (r.withEntries (es ++ e :: es')) uso fa n)
    (hread : readMftRecord env info d dirRef buf = .ok (true, b)) (haccess : RecordAccess env info dirRef n)
    (hnamed : e.IsNamed fname) (hother : ∀ a ∈ es, ¬ a.IsNamed fname) :
    ∃ d', removeIndexEntry env info d dirRef fname buf = .ok (true, d', b) ∧
      BecomesRecord env info d' dirRef b (r.withEntries (es ++ es')) uso fa n := by
  apply changeIndexRoot_works h hread haccess
  intro dr hdr hsize
  have hsmall := hdr.small
  obtain ⟨dr', hrun, -, hshows, hheader⟩ := hdr.dropEntry_eq (by omega) hnamed hother
  exact ⟨dr', hrun, hshows, hheader⟩

/-! ## In and out again -/

/-- The used bytes are the same, but for the update sequence array. -/
def SameUsed (b b' : Buffer) (uso n : ℕ) : Prop :=
  ∀ x < b.mem.loadLE 24 4, x < uso ∨ uso + 2 * (n + 1) ≤ x → b'.mem x = b.mem x

/-- Two records of the same directory with the same header have the same used bytes. -/
theorem Shows.sameUsed (h : Shows info b r uso fa n) (h' : Shows info b' r uso fa n)
    (hheader : ∀ x < fa, x < 24 ∨ 28 ≤ x → x < uso ∨ uso + 2 * (n + 1) ≤ x → b'.mem x = b.mem x) :
    SameUsed b b' uso n := by
  have hfits := h.fits
  have hsmall := h.small
  have hused := h.used.loadLE_eq
  rw [length_bytesOf, numberOf_bytesOf, Nat.mod_eq_of_lt (by omega)] at hused
  have hsame : ∀ {off x bs}, b.Holds off bs → b'.Holds off bs → off ≤ x → x < off + bs.length →
      b'.mem x = b.mem x := by
    intro off x bs hb hb' hx hx'
    have hbyte := (Buffer.holds_iff.mp hb).2 (x - off) (by omega)
    have hbyte' := (Buffer.holds_iff.mp hb').2 (x - off) (by omega)
    rw [hbyte', Nat.add_sub_cancel' hx] at hbyte
    exact Option.some.inj hbyte
  intro x hx harray
  rw [hused] at hx
  rcases Nat.lt_or_ge x fa with hlt | hge
  · by_cases hsize : x < 24 ∨ 28 ≤ x
    · exact hheader x hlt hsize harray
    · apply hsame h.used h'.used
      · omega
      · rw [length_bytesOf]
        omega
  · exact hsame h.attrs h'.attrs hge hx

/-- **Insert and then remove**: if the entry is put in, the other entries and attributes stay and the
index ends as before; the entry is taken out again, and then the used bytes are what they were, but for
the update sequence array, whose number has gone on twice. -/
theorem removeIndexEntry_insertIndexEntry {name : List UInt8} {fileRef parentRef fsize : ℕ} {isDir : Bool}
    (hname : IsAsciiName name) (h : Shows info b r uso fa n)
    (hread : readMftRecord env info d dirRef buf = .ok (true, b)) (hother : ∀ e ∈ r.entries, ¬ e.IsNamed name)
    (hins : insertIndexEntry env info d dirRef (indexEntryBytes fileRef parentRef name fsize isDir) buf =
      .ok (true, d', buf')) :
    (∃ b', readMftRecord env info d' dirRef buf' = .ok (true, b') ∧
      Shows info b' (r.insert (newEntry fileRef parentRef fsize isDir hname)) uso fa n) ∧
    ∃ d'' buf'' b'', removeIndexEntry env info d' dirRef name buf' = .ok (true, d'', buf'') ∧
      readMftRecord env info d'' dirRef buf'' = .ok (true, b'') ∧ Shows info b'' r uso fa n ∧
      SameUsed b b'' uso n ∧ b''.mem.loadLE uso 2 = nextSequence (nextSequence (b.mem.loadLE uso 2)) := by
  obtain ⟨haccess, hroom⟩ := @insertIndexEntry_true env info d d' b buf buf' r uso fa n dirRef h hread
    (newEntry fileRef parentRef fsize isDir hname) hins
  obtain ⟨d₁, hrun, hbecomes⟩ := insertIndexEntry_works h hread haccess hroom
  cases hrun.symm.trans hins
  obtain ⟨b', hread', hshows', hnumber', hsame'⟩ := hbecomes b h.writable.fixup.room
  refine ⟨⟨b', hread', hshows'⟩, ?_⟩
  have hnamed : (newEntry fileRef parentRef fsize isDir hname).IsNamed name :=
    ⟨name, newEntry_name? hname, beq_self_eq_true _⟩
  obtain ⟨d₂, hrun', hbecomes'⟩ := removeIndexEntry_works hshows' hread' haccess hnamed hother
  obtain ⟨b'', hread'', hshows'', hnumber'', hsame''⟩ := hbecomes' b' hshows'.writable.fixup.room
  rw [List.append_nil] at hshows''
  have hsame : ∀ x < fa, x < 24 ∨ 28 ≤ x → x < uso ∨ uso + 2 * (n + 1) ≤ x → b''.mem x = b.mem x := by
    intro x hx hout harray
    rw [hsame'' x hx hout harray, hsame' x hx hout harray]
  refine ⟨d₂, b', b'', hrun', hread'', hshows'', ?_, ?_⟩
  · exact h.sameUsed hshows'' hsame
  · rw [hnumber'', hnumber']

/-- The record of an empty directory, as `build_file_record` lays out its index root. -/
def emptyDir : DirRecord where
  before := []
  kind := List.replicate 7 0
  middle := List.replicate 26 0
  gap := List.replicate 4 0
  entries := []
  last := [0, 0, 0, 0, 0, 0, 0, 0, 16, 0, 0, 0, 2, 0, 0, 0]
  after := bytesOf attrEnd 4 ++ List.replicate 4 0
  valueSlack := 48
  totalSlack := 16
  allocSlack := 16
  kind_length := by decide
  middle_le := by decide
  gap_le := by decide
  last_le := by decide
  last_length := by decide
  last_flag := by decide
  total_ge := by decide
  total_le := by decide

/-- It in a buffer of 1024 bytes. -/
def emptyDirBuffer : Buffer where
  size := 1024
  mem :=
    let m : Memory := fun _ => 0
    let m := m.storeBytes 0 "FILE".toUTF8.toList
    let m := m.storeLE 4 48 2
    let m := m.storeLE 6 3 2
    let m := m.storeLE 20 56 2
    let m := m.storeLE 24 (56 + emptyDir.bytes.length) 4
    let m := m.storeLE 28 1024 4
    m.storeBytes 56 emptyDir.bytes

theorem emptyDirBuffer_shows : Shows (infoWith 1024) emptyDirBuffer emptyDir 48 56 2 where
  writable := ⟨⟨by decide, by decide, ⟨by norm_num, by norm_num, fun i hi hn => by omega⟩, le_rfl⟩,
    rfl, by norm_num, by with_unfolding_all decide⟩
  small := by norm_num
  behind := by norm_num
  first := by decide
  first_ge := by norm_num
  attrs := ⟨by decide, by decide⟩
  used := ⟨by decide, by decide⟩
  alloc := by decide
  fits := by decide

theorem workingEnv_access (rn n : ℕ) : RecordAccess workingEnv (infoWith 1024) rn n :=
  ⟨⟨_, rfl⟩, fun _ _ => rfl⟩

theorem isAsciiName_a : IsAsciiName [0x61] where
  length_lt := by decide
  ascii := by
    intro c hc
    rw [List.mem_singleton.mp hc]
    decide

/-- A disk with it as record 5, and what is read from there. -/
theorem emptyDir_onDisk : ∃ d b, readMftRecord workingEnv (infoWith 1024) d 5 emptyDirBuffer = .ok (true, b) ∧
    Shows (infoWith 1024) b emptyDir 48 56 2 ∧ b.mem.loadLE 48 2 = 1 := by
  have hshows := emptyDirBuffer_shows
  obtain ⟨d, c, hwrite⟩ := @writeMftRecord_works workingEnv (infoWith 1024) (fun _ _ => 0) emptyDirBuffer 48 2 5
    hshows.writable fun _ _ => rfl
  obtain ⟨b, hread, hsize, hrewritten⟩ := @readMftRecord_writeMftRecord _ _ _ _ _ _ _ _ _ hshows.writable
    hwrite emptyDirBuffer le_rfl
  refine ⟨d, b, hread, hshows.of_same (le_of_eq hsize.symm) hrewritten.same, ?_⟩
  rw [hrewritten.number]
  with_unfolding_all decide

/-- The name "a" in an empty directory. -/
theorem removeIndexEntry_insertIndexEntry_empty : ∃ d d' b buf', (∃ b', readMftRecord workingEnv (infoWith 1024) d' 5 buf' =
      .ok (true, b') ∧ Shows (infoWith 1024) b' (emptyDir.insert (newEntry 32 5 0 false isAsciiName_a)) 48 56 2) ∧
    (∃ d'' buf'' b'', removeIndexEntry workingEnv (infoWith 1024) d' 5 [0x61] buf' = .ok (true, d'', buf'') ∧
      readMftRecord workingEnv (infoWith 1024) d'' 5 buf'' = .ok (true, b'') ∧
      Shows (infoWith 1024) b'' emptyDir 48 56 2 ∧ SameUsed b b'' 48 2 ∧
      b''.mem.loadLE 48 2 = nextSequence (nextSequence (b.mem.loadLE 48 2))) ∧
    readMftRecord workingEnv (infoWith 1024) d 5 emptyDirBuffer = .ok (true, b) := by
  obtain ⟨d, b, hread, hshows, -⟩ := emptyDir_onDisk
  obtain ⟨d', hins, -⟩ := @insertIndexEntry_works _ _ _ _ _ _ _ _ _ _ hshows hread (workingEnv_access 5 2)
    (newEntry 32 5 0 false isAsciiName_a) (by decide)
  have hboth := removeIndexEntry_insertIndexEntry isAsciiName_a hshows hread
    (fun e he => absurd he (List.not_mem_nil)) hins
  exact ⟨d, d', b, b, hboth.1, hboth.2, hread⟩

/-- The array is one of the used bytes. -/
theorem not_restores_all : ¬ ∀ (env : NtfsEnv) (info : NtfsInfo) (d d' : Disk) (b buf buf' : Buffer) (r : DirRecord)
    (uso fa n dirRef fileRef parentRef fsize : ℕ) (isDir : Bool) (name : List UInt8), IsAsciiName name →
    Shows info b r uso fa n → readMftRecord env info d dirRef buf = .ok (true, b) →
    (∀ e ∈ r.entries, ¬ e.IsNamed name) →
    insertIndexEntry env info d dirRef (indexEntryBytes fileRef parentRef name fsize isDir) buf =
      .ok (true, d', buf') →
    ∃ d'' buf'' b'', removeIndexEntry env info d' dirRef name buf' = .ok (true, d'', buf'') ∧
      readMftRecord env info d'' dirRef buf'' = .ok (true, b'') ∧
      ∀ x < b.mem.loadLE 24 4, b''.mem x = b.mem x := by
  intro hall
  obtain ⟨d, b, hread, hshows, hone⟩ := emptyDir_onDisk
  obtain ⟨d', hins, hbecomes⟩ := @insertIndexEntry_works _ _ _ _ _ _ _ _ _ _ hshows hread (workingEnv_access 5 2)
    (newEntry 32 5 0 false isAsciiName_a) (by decide)
  obtain ⟨d'', buf'', b'', hremove, hread'', hsame⟩ := hall workingEnv (infoWith 1024) d d' b emptyDirBuffer b
    emptyDir 48 56 2 5 32 5 0 false [0x61] isAsciiName_a hshows hread
    (fun e he => absurd he (List.not_mem_nil)) hins
  -- The number of the array goes from 1 to 3.
  obtain ⟨b', hread', hshows', hnumber', -⟩ := hbecomes b hshows.writable.fixup.room
  obtain ⟨d₂, hrun, hbecomes'⟩ := @removeIndexEntry_works workingEnv (infoWith 1024) d' b' b emptyDir 48 56 2 5 [] []
    (newEntry 32 5 0 false isAsciiName_a) [0x61] hshows' hread' (workingEnv_access 5 2)
    ⟨[0x61], newEntry_name? isAsciiName_a, rfl⟩ (fun e he => absurd he (List.not_mem_nil))
  cases hrun.symm.trans hremove
  obtain ⟨c, hreadc, -, hnumber'', -⟩ := hbecomes' _ hshows'.writable.fixup.room
  cases hread''.symm.trans hreadc
  have hused := hshows.used.loadLE_eq
  rw [length_bytesOf, numberOf_bytesOf] at hused
  have hlen : (56 + emptyDir.bytes.length) % 2 ^ (8 * 4) = 144 := by decide
  rw [hlen] at hused
  have heq : b''.mem.loadLE 48 2 = b.mem.loadLE 48 2 := by
    apply Memory.loadLE_congr
    intro x _ hx
    exact hsame x (by omega)
  rw [hnumber'', hnumber', hone] at heq
  revert heq
  decide

end Microkernel
