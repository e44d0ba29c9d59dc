/-
# NTFS: reading along the run list

Which cluster a run list maps each VCN to, and when `ntfs_read_file` in `src/ntfs.c` gives the bytes
of these clusters: `parse_data_runs` stores up to 256 runs and leaves out the holes, and
`read_data_runs` puts the stored clusters one after another.
-/
import Microkernel.NtfsRunCodec
import Microkernel.NtfsBounds
import Microkernel.NtfsReads

namespace Microkernel

open ByteNumbers Access

/-! ## Run lists -/

/-- One run of a run list: the bytes of its length and of its offset, which a hole does not have. -/
structure CodedRun where
  lenBytes : List UInt8
  ofsBytes : List UInt8
  len_width : 1 ≤ lenBytes.length ∧ lenBytes.length ≤ 8
  ofs_width : ofsBytes.length ≤ 8
  nonempty : 1 ≤ numberOf lenBytes

namespace CodedRun

variable (r : CodedRun)

def bytes : List UInt8 := runBytes r.lenBytes r.ofsBytes

def clusters : ℕ := numberOf r.lenBytes

/-- How far the run begins from the beginning of the last one before it that is no hole. -/
def delta : ℤ := signedOf r.ofsBytes

end CodedRun

/-- Where a run list maps a VCN to: to nothing beyond its end, to `some none` in a hole.  The last run
before the list began at `prev`. -/
def vcnMap : ℤ → List CodedRun → ℕ → Option (Option ℤ)
  | _, [], _ => none
  | prev, r :: rs, v =>
    if v < r.clusters then some (if r.ofsBytes = [] then none else some (prev + r.delta + v))
    else vcnMap (prev + r.delta) rs (v - r.clusters)

/-- No run begins before the volume. -/
def Placed : ℤ → List CodedRun → Prop
  | _, [] => True
  | prev, r :: rs => 0 ≤ prev + r.delta ∧ Placed (prev + r.delta) rs

def listClusters (runs : List CodedRun) : ℕ := (runs.map CodedRun.clusters).sum

/-- A record whose unnamed `$DATA` attribute has this run list and this size. -/
structure HasRuns (info : NtfsInfo) (b : Buffer) (runs : List CodedRun) (real : ℕ) : Prop where
  attr : ∃ da, unnamedData info b = .ok (some da) ∧
    RunArea b da (runs.flatMap CodedRun.bytes ++ [0]) ∧ b.load (da + 48) 8 = .ok real
  placed : Placed 0 runs
  covers : real ≤ listClusters runs * info.clusterSize

/-- Byte `j` of a cluster. -/
def clusterByte (info : NtfsInfo) (d : Disk) (c j : ℕ) : UInt8 :=
  d (u32 (info.clusterToLba c + j / 512)) (j % 512)

/-- Byte `k` of the file, as the run list maps it: holes are zero. -/
def mappedByte (info : NtfsInfo) (d : Disk) (runs : List CodedRun) (k : ℕ) : Option UInt8 :=
  (vcnMap 0 runs (k / info.clusterSize)).map fun c =>
    c.elim 0 fun lcn => clusterByte info d lcn.toNat (k % info.clusterSize)

/-- `ntfs_read_file` returns this for the paths of the files with this record. -/
def ReadsAs (env : NtfsEnv) (info : NtfsInfo) (d : Disk) (b : Buffer) (max : ℕ)
    (r : Option (List UInt8)) : Prop :=
  ∀ path buf rn flags, openRecord env info d path buf = .ok (some (rn, flags), b) →
    inUse flags = true → isDirectory flags = false → ntfsReadFile env info d path max buf = .ok (r, b)

/-- `ntfs_read_file` gives the bytes of the map, as far as the file and the buffer go. -/
def ReadsMap (env : NtfsEnv) (info : NtfsInfo) (d : Disk) (b : Buffer) (runs : List CodedRun)
    (max real : ℕ) : Prop :=
  ∃ r, readData env info d b max = .ok r ∧ ReadsAs env info d b max r ∧
    ∀ k < min max real, r.bind (fun bs => bs[k]?) = mappedByte info d runs k

/-! ## The condition -/

/-- What is added to the beginning of a run by mistake: a negative offset of 8 bytes is taken for
-1. -/
def CodedRun.slip (r : CodedRun) : ℤ := if r.ofsBytes.length = 8 ∧ r.delta < 0 then -1 - r.delta else 0

/-- The runs that the first `need` clusters come from are no holes, they are among the first `room`,
and what has been added to their beginnings by mistake comes to the same sectors. -/
def RunsFollow (spc : ℕ) : ℕ → ℤ → List CodedRun → ℕ → Prop
  | _, _, [], need => need = 0
  | room, slip, r :: rs, need =>
    need = 0 ∨ 0 < room ∧ r.ofsBytes ≠ [] ∧ ((slip + r.slip) * spc) % 2 ^ 32 = 0 ∧
      RunsFollow spc (room - 1) (slip + r.slip) rs (need - r.clusters)

/-! ## What is stored of a run list -/

/-- The runs that `parse_data_runs` would store without a limit. -/
def storedRuns : ℕ → List CodedRun → List DataRun
  | _, [] => []
  | prev, r :: rs =>
    if r.ofsBytes = [] then storedRuns prev rs
    else
      let lcn := u64 (prev + runOffset r.ofsBytes)
      ⟨lcn, r.clusters⟩ :: storedRuns lcn rs

theorem CodedRun.runNumber_lenBytes (r : CodedRun) : runNumber 0 r.lenBytes = r.clusters := by
  have hwidth := r.len_width
  rw [runNumber_eq (by omega), Nat.mul_zero, Nat.pow_zero, Nat.one_mul]
  rfl

/-- The offset as it is decoded. -/
theorem CodedRun.runOffset_ofsBytes (r : CodedRun) (h : r.ofsBytes ≠ []) :
    (runOffset r.ofsBytes : ℤ) = (r.delta + r.slip) % 2 ^ 64 := by
  have hwidth := r.ofs_width
  have hpos : 1 ≤ r.ofsBytes.length := List.length_pos_iff.mpr h
  unfold CodedRun.slip CodedRun.delta
  by_cases hslip : r.ofsBytes.length = 8 ∧ signedOf r.ofsBytes < 0
  · rw [if_pos hslip]
    -- The shift by 64 is one by 0.
    have hlt := numberOf_lt r.ofsBytes
    rw [hslip.1] at hlt
    have hnumber : runNumber 0 r.ofsBytes = numberOf r.ofsBytes := by
      rw [runNumber_eq (by omega), Nat.mul_zero, Nat.pow_zero, Nat.one_mul]
    have htop : 2 ^ 63 ≤ numberOf r.ofsBytes := by
      by_contra hnot
      have hneg := hslip.2
      unfold signedOf at hneg
      rw [hslip.1, if_pos (by omega)] at hneg
      omega
    have hbit : numberOf r.ofsBytes &&& 2 ^ 63 ≠ 0 := by
      rw [Nat.and_two_pow, Nat.testBit_eq_decide_div_mod_eq,
        show numberOf r.ofsBytes / 2 ^ 63 = 1 by omega]
      simp
    have hall : numberOf r.ofsBytes ||| (2 ^ 64 - 1) = 2 ^ 64 - 1 := by
      apply Nat.eq_of_testBit_eq
      intro i
      rw [Nat.testBit_or, Nat.testBit_two_pow_sub_one]
      by_cases hi : i < 64
      · simp [hi]
      · rw [Nat.testBit_lt_two_pow (lt_of_lt_of_le hlt (Nat.pow_le_pow_right (by norm_num) (by omega)))]
        rfl
    have hoffset : runOffset r.ofsBytes = 2 ^ 64 - 1 := by
      unfold runOffset
      dsimp only
      rw [hnumber, hslip.1, show shl64 1 (8 * 8 - 1) = 2 ^ 63 from rfl, if_pos hbit,
        show shl64 1 (8 * 8) = 1 from rfl]
      exact hall
    rw [hoffset]
    norm_num
  · rw [if_neg hslip, add_zero]
    apply runOffset_eq ⟨hpos, hwidth⟩
    by_cases hseven : r.ofsBytes.length ≤ 7
    · exact Or.inl hseven
    · right
      by_contra hneg
      exact hslip ⟨by omega, by omega⟩

theorem CodedRun.length_bytes (r : CodedRun) : 2 ≤ r.bytes.length := by
  have hwidth := r.len_width
  unfold CodedRun.bytes
  rw [length_runBytes]
  omega

/-- **What the loop stores** of a run list, after the runs stored before. -/
theorem runListLoop_runs {b : Buffer} {re : ℕ} (runs : List CodedRun) :
    ∀ {n rd prev : ℕ} {rl : RunList}, runs.length < n → rl.runs.length ≤ maxDataRuns →
      rd + (runs.flatMap CodedRun.bytes ++ [0]).length ≤ re →
      b.Holds rd (runs.flatMap CodedRun.bytes ++ [0]) →
      (runListLoop b re n rd prev rl).map (fun rl => rl.runs.map MappedRun.toDataRun) =
        .ok ((rl.runs.map MappedRun.toDataRun ++ storedRuns prev runs).take maxDataRuns) := by
  induction runs with
  | nil =>
    intro n rd prev rl hn hcount hre hholds
    obtain ⟨k, rfl⟩ : ∃ k, n = k + 1 := ⟨n - 1, by omega⟩
    rw [List.flatMap_nil, List.nil_append, List.length_singleton] at hre
    rw [List.flatMap_nil, List.nil_append] at hholds
    rw [runListLoop_zero hholds (by omega), storedRuns, List.append_nil,
      List.take_of_length_le (by rw [List.length_map]; exact hcount)]
    rfl
  | cons r rs ih =>
    intro n rd prev rl hn hcount hre hholds
    obtain ⟨k, rfl⟩ : ∃ k, n = k + 1 := ⟨n - 1, by omega⟩
    rw [List.length_cons] at hn
    rw [List.flatMap_cons, List.append_assoc] at hholds hre
    rw [List.length_append] at hre
    obtain ⟨hrun, hrest⟩ := (b.holds_append).mp hholds
    by_cases hfull : rl.runs.length = maxDataRuns
    · -- No room is left.
      have hload := @Buffer.load_of_holds b rd _ _ hrun
      rw [runListLoop, if_pos (by have := r.length_bytes; omega), hload, ok_bind,
        if_pos (Or.inr (le_of_eq hfull.symm)), List.take_append_of_le_length (by rw [List.length_map, hfull]),
        List.take_of_length_le (by rw [List.length_map, hfull])]
      rfl
    · have hstep := @runListLoop_run b re k rd prev rl r.lenBytes r.ofsBytes (by have := r.len_width; omega)
        (by have := r.ofs_width; omega) (by omega) (by unfold CodedRun.bytes at hre; omega) hrun
      rw [hstep, storedRuns, r.runNumber_lenBytes]
      by_cases hhole : r.ofsBytes = []
      · rw [if_pos hhole, if_pos hhole]
        refine ih (by omega) ?_ ?_ hrest
        · exact hcount
        · unfold CodedRun.bytes at hre ⊢
          omega
      · rw [if_neg hhole, if_neg hhole]
        dsimp only
        have hpush := @ih k (rd + r.bytes.length) (u64 (prev + runOffset r.ofsBytes))
          (rl.push (u64 (prev + runOffset r.ofsBytes)) r.clusters) (by omega)
          (by unfold RunList.push; rw [List.length_append, List.length_singleton]; omega)
          (by unfold CodedRun.bytes at hre ⊢; omega) hrest
        unfold RunList.push at hpush ⊢
        rw [List.map_append, List.append_assoc] at hpush
        exact hpush

/-- **What `parse_data_runs` stores.** -/
theorem parseDataRuns_runs {b : Buffer} {attr : ℕ} {runs : List CodedRun}
    (h : RunArea b attr (runs.flatMap CodedRun.bytes ++ [0])) :
    parseDataRuns b attr = .ok ((storedRuns 0 runs).take maxDataRuns) := by
  obtain ⟨hnr, ofs, len, hofs, hlen, hinside, hholds⟩ := h
  have hcount : runs.length ≤ (runs.flatMap CodedRun.bytes).length := by
    have hone : ∀ n ∈ runs.map fun r => r.bytes.length, 1 ≤ n := by
      intro n hn
      obtain ⟨r, -, rfl⟩ := List.mem_map.mp hn
      have := r.length_bytes
      omega
    have hsum := List.length_le_sum_of_one_le _ hone
    rwa [List.length_map, ← List.length_flatMap] at hsum
  rw [List.length_append, List.length_singleton] at hinside
  rw [parseDataRuns_eq]
  unfold parseRunList
  rw [hnr, ok_bind, if_pos rfl, hofs, ok_bind, hlen, ok_bind]
  refine (runListLoop_runs runs (by omega) ?_ ?_ hholds).trans ?_
  · exact Nat.zero_le _
  · rw [List.length_append, List.length_singleton]
    omega
  · rw [List.map_nil, List.nil_append]

/-! ## What is read along a list of runs -/

variable {env : NtfsEnv} {info : NtfsInfo} {d : Disk}

/-- The elements of blocks of one size. -/
theorem getElem?_flatMap_range {α : Type} {m : ℕ} (f : ℕ → List α) (hf : ∀ i, (f i).length = m) (n : ℕ) :
    ∀ k < n * m, ((List.range n).flatMap f)[k]? = (f (k / m))[k % m]? := by
  induction n with
  | zero =>
    intro k hk
    omega
  | succ n ih =>
    intro k hk
    have hlen : ((List.range n).flatMap f).length = n * m := by
      simp [List.length_flatMap, hf]
    rw [List.range_succ, List.flatMap_append]
    rcases Nat.lt_or_ge k (n * m) with hlt | hge
    · rw [List.getElem?_append_left (by omega)]
      exact ih k hlt
    · rw [Nat.succ_mul] at hk
      have hdiv : k / m = n := by
        apply Nat.div_eq_of_lt_le
        · exact hge
        · rw [Nat.succ_mul]
          exact hk
      have hmod : k % m = k - n * m := by
        have := Nat.div_add_mod k m
        rw [hdiv, Nat.mul_comm] at this
        omega
      rw [List.getElem?_append_right (by omega), hlen, hdiv, hmod, List.flatMap_singleton]

theorem readCluster_bytes {c : ℕ} {bs : List UInt8} (h : readCluster env info d c = some bs) {j : ℕ}
    (hj : j < info.clusterBytes) : bs[j]? = some (clusterByte info d c j) := by
  unfold readCluster at h
  dsimp only at h
  split_ifs at h
  cases h
  rw [List.flatMap_map]
  unfold NtfsInfo.clusterBytes at hj
  rw [getElem?_flatMap_range _ (fun i => by simp [sectorBytes]) _ j hj]
  unfold sectorBytes clusterByte
  rw [List.getElem?_map, List.getElem?_range (Nat.mod_lt _ (by norm_num))]
  rfl

/-- The bytes of the clusters of one run. -/
theorem readRun_bytes {lcn : ℕ} (hpos : 0 < info.clusterBytes) (n : ℕ) : ∀ {c want : ℕ} {bs : List UInt8},
    readRun env info d lcn n c want = some bs → ∀ k < bs.length,
      bs[k]? = some (clusterByte info d (lcn + (c + k / info.clusterBytes)) (k % info.clusterBytes)) := by
  induction n with
  | zero =>
    intro c want bs h k hk
    cases h
    cases hk
  | succ n ih =>
    intro c want bs h k hk
    rw [readRun] at h
    split_ifs at h with hwant
    · cases h
      cases hk
    · obtain ⟨first, hfirst, h⟩ := Option.bind_eq_some_iff.mp h
      obtain ⟨rest, hrest, rfl⟩ := Option.map_eq_some_iff.mp h
      have hlen : (first.take want).length = min want info.clusterBytes := by
        rw [List.length_take, length_readCluster hfirst]
      rw [List.length_append, hlen] at hk
      rcases Nat.lt_or_ge k (min want info.clusterBytes) with hlt | hge
      · rw [List.getElem?_append_left (by omega), List.getElem?_take_of_lt (by omega),
          readCluster_bytes hfirst (by omega), Nat.div_eq_of_lt (by omega), Nat.mod_eq_of_lt (by omega),
          Nat.add_zero]
      · -- The rest is empty unless the cluster was used up.
        have hspec := (@readRun_spec env info d lcn n (c + 1) (want - (first.take want).length)).2 rest hrest
        have hfull : min want info.clusterBytes = info.clusterBytes := by omega
        rw [hfull] at hlen hge
        have hk' : k = (k - info.clusterBytes) + info.clusterBytes := by omega
        rw [List.getElem?_append_right (by omega), hlen, ih hrest _ (by omega), hk', Nat.add_sub_cancel,
          Nat.add_div_right _ hpos, Nat.add_mod_right, Nat.add_right_comm c, Nat.add_assoc c]

/-- **The bytes of the clusters of a list of runs.** -/
theorem readRuns_bytes (hpos : 0 < info.clusterBytes) (runs : List DataRun) :
    ∀ {want : ℕ} {bs : List UInt8}, readRuns env info d runs want = some bs → ∀ k < bs.length,
      ∃ c, nthCluster runs (k / info.clusterBytes) = some c ∧
        bs[k]? = some (clusterByte info d c (k % info.clusterBytes)) := by
  induction runs with
  | nil =>
    intro want bs h k hk
    cases h
    cases hk
  | cons r rs ih =>
    intro want bs h k hk
    rw [readRuns] at h
    split_ifs at h with hwant
    · cases h
      cases hk
    · obtain ⟨first, hfirst, h⟩ := Option.bind_eq_some_iff.mp h
      obtain ⟨rest, hrest, rfl⟩ := Option.map_eq_some_iff.mp h
      have hlen := (@readRun_spec env info d r.lcn r.length 0 want).2 first hfirst
      rw [List.length_append] at hk
      rcases Nat.lt_or_ge k first.length with hlt | hge
      · have hbyte := readRun_bytes hpos r.length hfirst k hlt
        rw [Nat.zero_add] at hbyte
        refine ⟨r.lcn + k / info.clusterBytes, ?_, ?_⟩
        · unfold nthCluster
          rw [if_pos ((Nat.div_lt_iff_lt_mul hpos).mpr (by omega))]
        · rw [List.getElem?_append_left hlt]
          exact hbyte
      · have hrestLen := (@readRuns_spec env info d rs (want - first.length)).2 rest hrest
        have hfull : first.length = info.clusterBytes * r.length := by
          rw [Nat.mul_comm]
          omega
        obtain ⟨c, hc, hbyte⟩ := ih hrest (k - first.length) (by omega)
        rw [hfull] at hc hbyte hge
        have hskip : r.length ≤ k / info.clusterBytes := by
          apply (Nat.le_div_iff_mul_le hpos).mpr
          rwa [Nat.mul_comm]
        rw [Nat.sub_mul_div] at hc
        rw [Nat.sub_mul_mod hge] at hbyte
        refine ⟨c, ?_, ?_⟩
        · unfold nthCluster
          rw [if_neg (by omega)]
          exact hc
        · rw [List.getElem?_append_right (by omega), hfull]
          exact hbyte

/-! ## The stored runs and the map -/

/-- At this VCN the stored runs have a cluster, and it is in the same place as the mapped one. -/
def MeetsAt (info : NtfsInfo) (stored : List DataRun) (mapped : Option (Option ℤ)) (v : ℕ) : Prop :=
  ∃ l c, mapped = some (some l) ∧ nthCluster stored v = some c ∧
    info.clusterToLba c = info.clusterToLba l.toNat

theorem clusterToLba_eq_iff {c : ℕ} {l slip : ℤ} (hl : 0 ≤ l) (h : (c : ℤ) % 2 ^ 64 = (l + slip) % 2 ^ 64) :
    info.clusterToLba c = info.clusterToLba l.toNat ↔ (slip * info.sectorsPerCluster) % 2 ^ 32 = 0 := by
  have hc : (c : ℤ) ≡ l + slip [ZMOD 2 ^ 32] := by
    have hmod : (c : ℤ) ≡ l + slip [ZMOD 2 ^ 64] := h
    exact hmod.of_dvd (by norm_num)
  have hsectors := hc.mul_right info.sectorsPerCluster
  have hlba : ∀ n : ℕ, (info.clusterToLba n : ℤ) = (n * info.sectorsPerCluster : ℤ) % 2 ^ 32 := by
    intro n
    unfold NtfsInfo.clusterToLba u32
    push_cast
    rfl
  rw [← Int.natCast_inj, hlba, hlba, Int.toNat_of_nonneg hl]
  constructor
  · intro heq
    have hsum : (l + slip) * info.sectorsPerCluster ≡ l * info.sectorsPerCluster [ZMOD 2 ^ 32] :=
      hsectors.symm.trans heq
    rw [add_mul] at hsum
    have hzero := hsum.sub_right (l * info.sectorsPerCluster)
    rw [add_sub_cancel_left, sub_self] at hzero
    exact hzero
  · intro hzero
    have hzero' : slip * info.sectorsPerCluster ≡ 0 [ZMOD 2 ^ 32] := hzero
    have hsum := hzero'.add_left (l * info.sectorsPerCluster)
    rw [add_zero, ← add_mul] at hsum
    exact hsectors.trans hsum

/-- **Where the stored runs follow the map**: exactly at the VCNs of the runs that meet the
condition. -/
theorem runsFollow_iff (runs : List CodedRun) : ∀ {room prev' need : ℕ} {prev slip : ℤ},
    (prev' : ℤ) % 2 ^ 64 = (prev + slip) % 2 ^ 64 → Placed prev runs → need ≤ listClusters runs →
    (RunsFollow info.sectorsPerCluster room slip runs need ↔
      ∀ v < need, MeetsAt info ((storedRuns prev' runs).take room) (vcnMap prev runs v) v) := by
  induction runs with
  | nil =>
    intro room prev' need prev slip _ _ hneed
    have hzero : need = 0 := Nat.le_zero.mp hneed
    subst hzero
    exact ⟨fun _ v hv => absurd hv (Nat.not_lt_zero v), fun _ => rfl⟩
  | cons r rs ih =>
    intro room prev' need prev slip hprev hplaced hneed
    rw [RunsFollow]
    by_cases hzero : need = 0
    · subst hzero
      exact ⟨fun _ v hv => absurd hv (Nat.not_lt_zero v), fun _ => Or.inl rfl⟩
    rw [or_iff_right hzero]
    have hpos := r.nonempty
    have hclusters : 0 < r.clusters := hpos
    have htotal : listClusters (r :: rs) = r.clusters + listClusters rs := by
      unfold listClusters
      rw [List.map_cons, List.sum_cons]
    by_cases hhole : r.ofsBytes = []
    · -- The first VCN is in the hole.
      constructor
      · exact fun h => absurd hhole h.2.1
      · intro h
        obtain ⟨l, c, hmap, -⟩ := h 0 (by omega)
        unfold vcnMap at hmap
        rw [if_pos hclusters, if_pos hhole] at hmap
        cases Option.some.inj hmap
    by_cases hroom : room = 0
    · subst hroom
      constructor
      · exact fun h => absurd h.1 (Nat.lt_irrefl 0)
      · intro h
        obtain ⟨l, c, -, hc, -⟩ := h 0 (by omega)
        rw [List.take_zero] at hc
        cases hc
    obtain ⟨room, rfl⟩ : ∃ k, room = k + 1 := ⟨room - 1, by omega⟩
    obtain ⟨hge, hplaced⟩ := hplaced
    have hgeAt : ∀ v : ℕ, 0 ≤ prev + r.delta + v := by
      intro v
      apply Int.add_nonneg hge
      exact Int.natCast_nonneg v
    have hleft : need - r.clusters ≤ listClusters rs := by omega
    have hlcn : ((u64 (prev' + runOffset r.ofsBytes) : ℕ) : ℤ) % 2 ^ 64 =
        (prev + r.delta + (slip + r.slip)) % 2 ^ 64 := by
      have hoffset := r.runOffset_ofsBytes hhole
      unfold u64
      push_cast
      omega
    have hrest := @ih room (u64 (prev' + runOffset r.ofsBytes)) (need - r.clusters) (prev + r.delta)
      (slip + r.slip) hlcn hplaced hleft
    -- The first cluster decides for the whole run.
    have hrun : ∀ v < r.clusters,
        MeetsAt info ((storedRuns prev' (r :: rs)).take (room + 1)) (vcnMap prev (r :: rs) v) v ↔
          ((slip + r.slip) * info.sectorsPerCluster) % 2 ^ 32 = 0 := by
      intro v hv
      unfold MeetsAt
      rw [storedRuns, if_neg hhole, vcnMap, if_pos hv, if_neg hhole]
      dsimp only
      rw [List.take_succ_cons, nthCluster, if_pos hv]
      have hshift : ((u64 (prev' + runOffset r.ofsBytes) + v : ℕ) : ℤ) % 2 ^ 64 =
          (prev + r.delta + v + (slip + r.slip)) % 2 ^ 64 := by
        have hsum := Int.ModEq.add_right (v : ℤ) (show _ ≡ _ [ZMOD 2 ^ 64] from hlcn)
        rw [add_right_comm _ _ (v : ℤ)] at hsum
        rw [Nat.cast_add]
        exact hsum
      rw [← @clusterToLba_eq_iff info _ (prev + r.delta + v) (slip + r.slip) (hgeAt v) hshift]
      constructor
      · rintro ⟨l, c, hl, hc, heq⟩
        obtain rfl := Option.some.inj (Option.some.inj hl)
        obtain rfl := Option.some.inj hc
        exact heq
      · intro heq
        exact ⟨_, _, rfl, rfl, heq⟩
    have hlater : ∀ v, r.clusters ≤ v →
        (MeetsAt info ((storedRuns prev' (r :: rs)).take (room + 1)) (vcnMap prev (r :: rs) v) v ↔
          MeetsAt info ((storedRuns (u64 (prev' + runOffset r.ofsBytes)) rs).take room)
            (vcnMap (prev + r.delta) rs (v - r.clusters)) (v - r.clusters)) := by
      intro v hv
      unfold MeetsAt
      rw [storedRuns, if_neg hhole, vcnMap, if_neg (by omega)]
      dsimp only
      rw [List.take_succ_cons, nthCluster, if_neg (Nat.not_lt.mpr hv)]
    rw [Nat.add_sub_cancel, hrest]
    constructor
    · rintro ⟨-, -, hslip, hmeets⟩ v hv
      rcases Nat.lt_or_ge v r.clusters with hlt | hge'
      · exact (hrun v hlt).mpr hslip
      · exact (hlater v hge').mpr (hmeets _ (by omega))
    · intro h
      refine ⟨Nat.succ_pos room, hhole, (hrun 0 hclusters).mp (h 0 (by omega)), ?_⟩
      intro v hv
      have hmeets := (hlater (r.clusters + v) (Nat.le_add_right _ _)).mp (h _ (by omega))
      rwa [Nat.add_sub_cancel_left] at hmeets

/-! ## Reading a file -/

/-- A list maps all VCNs before its end. -/
theorem vcnMap_isSome (runs : List CodedRun) : ∀ {prev : ℤ} {v : ℕ}, v < listClusters runs →
    ∃ c, vcnMap prev runs v = some c := by
  induction runs with
  | nil =>
    intro prev v hv
    cases hv
  | cons r rs ih =>
    intro prev v hv
    have htotal : listClusters (r :: rs) = r.clusters + listClusters rs := by
      unfold listClusters
      rw [List.map_cons, List.sum_cons]
    unfold vcnMap
    split_ifs with hin
    · exact ⟨_, rfl⟩
    · exact ⟨_, rfl⟩
    · exact ih (by omega)

/-- The driver gets its buffer, and the drive transfers all sectors. -/
structure DriverWorks (env : NtfsEnv) (info : NtfsInfo) : Prop where
  heap : ∃ fresh, env.heap.kmalloc info.clusterSize = some fresh
  drive : ∀ s, env.responds s = true

/-- What a working driver reads: as many bytes as there are. -/
theorem readDataRuns_works (h : DriverWorks env info) (d : Disk) (runs : List DataRun) (max real : ℕ) :
    ∃ bs, readDataRuns env info d runs max real = some bs ∧
      readRuns env info d runs (min max (u32 real)) = some bs := by
  obtain ⟨⟨fresh, hfresh⟩, hdrive⟩ := h
  have hresponds : ClustersRespond env info d runs (min max (u32 real)) := by
    intro k c _ _
    unfold readCluster
    dsimp only
    rw [if_pos]
    · rfl
    · exact List.all_eq_true.mpr fun s _ => hdrive s
  obtain ⟨bs, hbs⟩ := Option.isSome_iff_exists.mp ((readRuns_spec runs _).1.mpr hresponds)
  refine ⟨bs, ?_, hbs⟩
  unfold readDataRuns
  rw [hfresh, Option.bind_some, hbs]

/-- What `ntfs_read_file` makes of the attribute. -/
theorem readData_runs {b : Buffer} {runs : List CodedRun} {real : ℕ} (h : HasRuns info b runs real)
    (d : Disk) (max : ℕ) : readData env info d b max =
      .ok (if (storedRuns 0 runs).take maxDataRuns = [] then none
        else readDataRuns env info d ((storedRuns 0 runs).take maxDataRuns) max real) := by
  obtain ⟨da, hda, harea, hreal⟩ := h.attr
  unfold readData
  rw [hda, ok_bind]
  dsimp only
  rw [harea.nonResident, ok_bind, if_pos rfl, parseDataRuns_runs harea, ok_bind]
  split_ifs
  · rfl
  · rw [hreal]
    rfl

theorem readsAs_of_readData {b : Buffer} {max : ℕ} {r : Option (List UInt8)}
    (h : readData env info d b max = .ok r) : ReadsAs env info d b max r := by
  intro path buf rn flags hopen huse hdir
  unfold ntfsReadFile
  rw [hopen, ok_bind]
  dsimp only
  rw [huse, hdir, h]
  rfl

/-- What a mounted volume's clusters are made of. -/
theorem ntfsInfo_clusterSize {boot : Memory} (h : ntfsInfo boot = some info) :
    info.clusterSize = info.clusterBytes ∧ 0 < info.clusterSize := by
  unfold ntfsInfo at h
  dsimp only at h
  split_ifs at h with hname hsize hrec
  cases h
  simp only [not_or, not_lt, ne_eq, not_not] at hsize
  unfold NtfsInfo.clusterBytes
  dsimp only
  refine ⟨?_, Nat.pos_of_ne_zero hsize.2.1⟩
  rw [hsize.1, Nat.mul_comm]

/-- An empty list of runs reads as no bytes at all. -/
theorem readsMap_iff_bytes (hworks : DriverWorks env info) {b : Buffer} {runs : List CodedRun}
    {real : ℕ} (h : HasRuns info b runs real) (d : Disk) (max : ℕ) :
    ReadsMap env info d b runs max real ↔
      ∃ bs, readRuns env info d ((storedRuns 0 runs).take maxDataRuns) (min max (u32 real)) = some bs ∧
        ∀ k < min max real, bs[k]? = mappedByte info d runs k := by
  obtain ⟨bs, hread, hbs⟩ := readDataRuns_works hworks d ((storedRuns 0 runs).take maxDataRuns) max real
  have hdata := @readData_runs env info b runs real h d max
  rw [hread] at hdata
  rw [hbs]
  split_ifs at hdata with hnil
  · rw [hnil, readRuns] at hbs
    cases hbs
    constructor
    · rintro ⟨r, hr, -, hbytes⟩
      cases hdata.symm.trans hr
      exact ⟨[], rfl, hbytes⟩
    · rintro ⟨bs, hbs, hbytes⟩
      cases hbs
      exact ⟨none, hdata, readsAs_of_readData hdata, hbytes⟩
  · constructor
    · rintro ⟨r, hr, -, hbytes⟩
      cases hdata.symm.trans hr
      exact ⟨bs, rfl, hbytes⟩
    · rintro ⟨bs', hbs', hbytes⟩
      cases hbs'
      exact ⟨some bs, hdata, readsAs_of_readData hdata, hbytes⟩

/-- Where the stored runs meet the map, a byte that is read is the mapped one. -/
theorem MeetsAt.byte_eq {stored : List DataRun} {runs : List CodedRun} {k : ℕ}
    (hsize : info.clusterSize = info.clusterBytes)
    (h : MeetsAt info stored (vcnMap 0 runs (k / info.clusterBytes)) (k / info.clusterBytes)) :
    ∃ c, nthCluster stored (k / info.clusterBytes) = some c ∧
      mappedByte info d runs k = some (clusterByte info d c (k % info.clusterBytes)) := by
  obtain ⟨l, c, hmap, hc, hlba⟩ := h
  refine ⟨c, hc, ?_⟩
  unfold mappedByte clusterByte
  rw [hsize, hmap, hlba]
  rfl

/-- **When reading follows the map**, whatever is on the disk: exactly when no more is asked for than
the low 32 bits of the size, and the runs that it comes from meet the condition. -/
theorem readsMap_iff {boot : Memory} (hinfo : ntfsInfo boot = some info) (hworks : DriverWorks env info)
    {b : Buffer} {runs : List CodedRun} {real : ℕ} (h : HasRuns info b runs real) (max : ℕ) :
    (∀ d, ReadsMap env info d b runs max real) ↔
      min max real ≤ real % 2 ^ 32 ∧
        RunsFollow info.sectorsPerCluster maxDataRuns 0 runs
          ((min max real + info.clusterSize - 1) / info.clusterSize) := by
  obtain ⟨hsize, hpos⟩ := ntfsInfo_clusterSize hinfo
  have hcovers := h.covers
  rw [hsize] at hpos hcovers
  have hneed : ∀ v, v < (min max real + info.clusterSize - 1) / info.clusterSize ↔
      v * info.clusterBytes < min max real := by
    intro v
    rw [hsize, Nat.lt_iff_add_one_le, Nat.le_div_iff_mul_le hpos, Nat.succ_mul]
    omega
  have hlist : (min max real + info.clusterSize - 1) / info.clusterSize ≤ listClusters runs := by
    by_contra hlt
    have hin := (hneed (listClusters runs)).mp (by omega)
    omega
  rw [@runsFollow_iff info runs maxDataRuns 0 _ 0 0 rfl h.placed hlist]
  have hlength : ∀ {d bs}, readRuns env info d ((storedRuns 0 runs).take maxDataRuns)
      (min max (u32 real)) = some bs → bs.length =
        min (min max (u32 real)) (runClusters ((storedRuns 0 runs).take maxDataRuns) * info.clusterBytes) :=
    fun hbs => (readRuns_spec _ _).2 _ hbs
  have hmapped : ∀ d, ∀ k < min max real, ∃ x, mappedByte info d runs k = some x := by
    intro d k hk
    obtain ⟨c, hc⟩ := @vcnMap_isSome runs 0 (k / info.clusterBytes)
      ((Nat.div_lt_iff_lt_mul hpos).mpr (by omega))
    unfold mappedByte
    rw [hsize, hc]
    exact ⟨_, rfl⟩
  constructor
  · intro hreads
    constructor
    · -- The first byte beyond what was asked for is not there.
      by_contra hmore
      obtain ⟨bs, hbs, hbytes⟩ := (readsMap_iff_bytes hworks h (fun _ _ => 0) max).mp (hreads _)
      have hlow : min max (u32 real) < min max real := by
        unfold u32
        omega
      obtain ⟨x, hx⟩ := hmapped (fun _ _ => 0) _ hlow
      have hbyte := hbytes _ hlow
      rw [hx, List.getElem?_eq_none (by have := hlength hbs; omega)] at hbyte
      cases hbyte
    · intro v hv
      have hk := (hneed v).mp hv
      -- The first byte of the cluster, on any disk.
      have hfirst : ∀ d, ∃ c, nthCluster ((storedRuns 0 runs).take maxDataRuns) v = some c ∧
          some (clusterByte info d c 0) = mappedByte info d runs (v * info.clusterBytes) := by
        intro d
        obtain ⟨bs, hbs, hbytes⟩ := (readsMap_iff_bytes hworks h d max).mp (hreads d)
        have hbyte := hbytes _ hk
        obtain ⟨x, hx⟩ := hmapped d _ hk
        have hlt : v * info.clusterBytes < bs.length := by
          rw [hx] at hbyte
          exact (List.getElem?_eq_some_iff.mp hbyte).1
        obtain ⟨c, hc, hcbyte⟩ := readRuns_bytes hpos _ hbs _ hlt
        rw [Nat.mul_div_cancel v hpos] at hc
        rw [Nat.mul_mod_left] at hcbyte
        refine ⟨c, hc, ?_⟩
        rw [← hcbyte]
        exact hbyte
      have hvcn : ∀ d, mappedByte info d runs (v * info.clusterBytes) = (vcnMap 0 runs v).map
          fun c => c.elim 0 fun lcn => clusterByte info d lcn.toNat 0 := by
        intro d
        unfold mappedByte
        rw [hsize, Nat.mul_div_cancel v hpos, Nat.mul_mod_left]
      obtain ⟨place, hplace⟩ := @vcnMap_isSome runs 0 v (lt_of_lt_of_le hv hlist)
      rw [hplace]
      cases place with
      | none =>
        -- A disk of ones has no zeros.
        obtain ⟨c, -, hone⟩ := hfirst fun _ _ => 1
        rw [hvcn, hplace] at hone
        cases hone
      | some l =>
        -- Only the mapped cluster begins with a one.
        obtain ⟨c, hc, hone⟩ := hfirst fun s _ => if s = info.clusterToLba l.toNat then 1 else 0
        refine ⟨l, c, rfl, hc, ?_⟩
        rw [hvcn, hplace] at hone
        have hu32 : ∀ n, u32 (info.clusterToLba n + 0 / 512) = info.clusterToLba n := by
          intro n
          unfold NtfsInfo.clusterToLba u32
          omega
        have hbyte := Option.some.inj hone
        unfold clusterByte at hbyte
        dsimp only [Option.elim_some] at hbyte
        rw [hu32, hu32, if_pos rfl] at hbyte
        by_contra hne
        rw [if_neg hne] at hbyte
        cases hbyte
  · rintro ⟨hlow, hmeets⟩ d
    apply (readsMap_iff_bytes hworks h d max).mpr
    obtain ⟨bs, -, hbs⟩ := readDataRuns_works hworks d ((storedRuns 0 runs).take maxDataRuns) max real
    refine ⟨bs, hbs, ?_⟩
    intro k hk
    have hv : k / info.clusterBytes < (min max real + info.clusterSize - 1) / info.clusterSize := by
      apply (hneed _).mpr
      have := Nat.div_mul_le_self k info.clusterBytes
      omega
    obtain ⟨c, hc, hbyte⟩ := (hmeets _ hv).byte_eq hsize
    have hin : k < runClusters ((storedRuns 0 runs).take maxDataRuns) * info.clusterBytes :=
      (Nat.div_lt_iff_lt_mul hpos).mp (nthCluster_lt _ hc)
    have hlt : k < bs.length := by
      rw [hlength hbs]
      unfold u32
      omega
    obtain ⟨c', hc', hread⟩ := readRuns_bytes hpos _ hbs k hlt
    obtain rfl := Option.some.inj (hc.symm.trans hc')
    rw [hread]
    exact hbyte.symm

/-- A record whose unnamed `$DATA` attribute has this run list. -/
def recordWithRuns (runs : List CodedRun) (real : ℕ) : Buffer where
  size := 1024
  mem :=
    let m : Memory := fun _ => 0
    let m := m.storeLE 20 56 2
    let m := m.storeLE 56 attrData 4
    let m := m.storeLE 60 96 4
    let m := m.storeLE 64 1 1
    let m := m.storeLE 88 64 2
    let m := m.storeLE 104 real 8
    m.storeBytes 120 (runs.flatMap CodedRun.bytes ++ [0])

/-- A run of one cluster, two clusters behind the last one. -/
def nearRun : CodedRun := ⟨[1], [2], by decide, by decide, by decide⟩

/-- A hole of one cluster. -/
def oneHole : CodedRun := ⟨[1], [], by decide, by decide, by decide⟩

/-- A driver on which everything works. -/
def workingEnv : NtfsEnv := ⟨⟨fun n => some (List.replicate n 0), Allocator.length_of_zeros⟩, fun _ => true⟩

theorem workingEnv_works (info : NtfsInfo) : DriverWorks workingEnv info :=
  ⟨⟨_, rfl⟩, fun _ => rfl⟩

/-- The record as `ntfs_read_file` sees it. -/
theorem hasRuns_near : HasRuns (infoWith 1024) (recordWithRuns [nearRun] 4096) [nearRun] 4096 where
  attr := ⟨56, by decide,
    ⟨by decide, 64, 96, by decide, by decide, by decide, by decide,
      by decide⟩,
    by decide⟩
  placed := ⟨by decide, trivial⟩
  covers := by decide

theorem hasRuns_sparse : HasRuns (infoWith 1024) (recordWithRuns [oneHole, nearRun] 8192)
    [oneHole, nearRun] 8192 where
  attr := ⟨56, by decide,
    ⟨by decide, 64, 96, by decide, by decide, by decide, by decide,
      by decide⟩,
    by decide⟩
  placed := ⟨by decide, by decide, trivial⟩
  covers := by decide

/-- One run is read as it is mapped. -/
theorem readsMap_iff_near : ReadsMap workingEnv (infoWith 1024) (fun s x => UInt8.ofNat (s + x))
    (recordWithRuns [nearRun] 4096) [nearRun] 5000 4096 := by
  have hinfo : ntfsInfo (bootWith 0xF6 1) = some (infoWith 1024) := by with_unfolding_all decide
  apply (readsMap_iff hinfo (workingEnv_works _) hasRuns_near 5000).mpr
  refine ⟨by decide, Or.inr ⟨by decide, by decide, by decide, ?_⟩⟩
  rfl

/-- A hole is left out: the bytes behind it come first. -/
theorem not_readsMap_sparse : ¬ ∀ (env : NtfsEnv) (info : NtfsInfo) (boot : Memory) (b : Buffer)
    (runs : List CodedRun) (real max : ℕ) (d : Disk), ntfsInfo boot = some info →
    DriverWorks env info → HasRuns info b runs real → ReadsMap env info d b runs max real := by
  intro hall
  -- A disk of ones.
  have hreads := hall workingEnv (infoWith 1024) (bootWith 0xF6 1) _ _ _ 1 (fun _ _ => 1)
    (by with_unfolding_all decide) (workingEnv_works _) hasRuns_sparse
  obtain ⟨bs, hbs, hbytes⟩ := (readsMap_iff_bytes (workingEnv_works _) hasRuns_sparse _ 1).mp hreads
  have hzero : bs[0]? = some 0 := hbytes 0 (by decide)
  obtain ⟨c, -, hone⟩ := readRuns_bytes (by decide) _ hbs 0 (List.getElem?_eq_some_iff.mp hzero).1
  rw [hzero] at hone
  cases hone

end Microkernel
