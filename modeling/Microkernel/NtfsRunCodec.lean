/-
# NTFS: data runs

The whole of `parse_data_runs` in `src/ntfs.c`, with the VCN of each run and the number of
clusters, and `encode_data_run`: what is encoded is decoded again.
-/
import Microkernel.ByteNumbers
import Microkernel.NtfsBounds

namespace Microkernel

open ByteNumbers

/-! ## Decoding -/

/-- `data_run_t`. -/
structure MappedRun where
  vcn : ℕ
  lcn : ℕ
  length : ℕ
  deriving DecidableEq

/-- `run_list_t`. -/
structure RunList where
  runs : List MappedRun
  totalClusters : ℕ
  deriving DecidableEq

/-- A run without an offset is counted. -/
def RunList.skip (rl : RunList) (len : ℕ) : RunList :=
  { rl with totalClusters := u64 (rl.totalClusters + len) }

/-- A run with an offset is stored and counted. -/
def RunList.push (rl : RunList) (lcn len : ℕ) : RunList :=
  ⟨rl.runs ++ [⟨rl.totalClusters, lcn, len⟩], u64 (rl.totalClusters + len)⟩

/-- The loop of `parse_data_runs`, from `rd` to `re`. -/
def runListLoop (b : Buffer) (re : ℕ) : ℕ → ℕ → ℕ → RunList → Access RunList
  | 0, _, _, _ => .error .read
  | n + 1, rd, prev, rl =>
    if rd < re then
      (b.load rd 1).bind fun hdr =>
        if hdr = 0 ∨ maxDataRuns ≤ rl.runs.length then .ok rl
        else
          let lb := hdr % 16
          let ob := hdr / 16
          if lb = 0 ∨ rd + 1 + lb + ob > re then .ok rl
          else
            (b.bytes (rd + 1) lb).bind fun lenBytes =>
              (b.bytes (rd + 1 + lb) ob).bind fun ofsBytes =>
                let len := runNumber 0 lenBytes
                if ob = 0 then runListLoop b re n (rd + 1 + lb) prev (rl.skip len)
                else
                  let lcn := u64 (prev + runOffset ofsBytes)
                  runListLoop b re n (rd + 1 + lb + ob) lcn (rl.push lcn len)
    else .ok rl

/-- `parse_data_runs` and what it leaves in the run list; the result is `false` if no run is
stored. -/
def parseRunList (b : Buffer) (attr : ℕ) : Access RunList :=
  (nonResident b attr).bind fun nr =>
    if nr then
      (b.load (attr + 32) 2).bind fun runOffset =>
        (b.load (attr + 4) 4).bind fun length =>
          runListLoop b (attr + length) (length + 1) (attr + runOffset) 0 ⟨[], 0⟩
    else .ok ⟨[], 0⟩

/-- The run as the readers use it. -/
def MappedRun.toDataRun (r : MappedRun) : DataRun := ⟨r.lcn, r.length⟩

theorem map_runListLoop {b : Buffer} {re : ℕ} (n : ℕ) : ∀ {rd prev : ℕ} {rl : RunList},
    (runListLoop b re n rd prev rl).map (fun rl => rl.runs.map MappedRun.toDataRun) =
      parseRunsLoop b re n rd prev (rl.runs.map MappedRun.toDataRun) := by
  induction n with
  | zero => exact fun {_ _ _} => rfl
  | succ n ih =>
    intro rd prev rl
    unfold runListLoop parseRunsLoop
    split_ifs with hrd
    · cases b.load rd 1 with
      | error e => rfl
      | ok hdr =>
        rw [Access.ok_bind, Access.ok_bind, List.length_map]
        dsimp only
        split_ifs
        · rfl
        · rfl
        · cases b.bytes (rd + 1) (hdr % 16) with
          | error e => rfl
          | ok lenBytes =>
            rw [Access.ok_bind, Access.ok_bind]
            cases b.bytes (rd + 1 + hdr % 16) (hdr / 16) with
            | error e => rfl
            | ok ofsBytes =>
              rw [Access.ok_bind, Access.ok_bind]
              exact ih
        · cases b.bytes (rd + 1) (hdr % 16) with
          | error e => rfl
          | ok lenBytes =>
            rw [Access.ok_bind, Access.ok_bind]
            cases b.bytes (rd + 1 + hdr % 16) (hdr / 16) with
            | error e => rfl
            | ok ofsBytes =>
              rw [Access.ok_bind, Access.ok_bind, ih]
              unfold RunList.push
              rw [List.map_append]
              rfl
    · rfl

/-- The runs that the readers use are those of the whole list. -/
theorem parseDataRuns_eq (b : Buffer) (attr : ℕ) : parseDataRuns b attr =
    (parseRunList b attr).map fun rl => rl.runs.map MappedRun.toDataRun := by
  unfold parseDataRuns parseRunList
  cases nonResident b attr with
  | error e => rfl
  | ok nr =>
    rw [Access.ok_bind, Access.ok_bind]
    split_ifs
    · cases b.load (attr + 32) 2 with
      | error e => rfl
      | ok ofs =>
        rw [Access.ok_bind, Access.ok_bind]
        cases b.load (attr + 4) 4 with
        | error e => rfl
        | ok len =>
          rw [Access.ok_bind, Access.ok_bind]
          exact (@map_runListLoop b (attr + len) (len + 1) (attr + ofs) 0 ⟨[], 0⟩).symm
    · rfl

/-! ## Numbers in runs -/

/-- The bytes of a run are put together to their number. -/
theorem runNumber_eq {bs : List UInt8} : ∀ {i : ℕ}, i + bs.length ≤ 8 →
    runNumber i bs = 2 ^ (8 * i) * numberOf bs := by
  induction bs with
  | nil => exact fun {_} _ => rfl
  | cons c bs ih =>
    intro i hlen
    rw [List.length_cons] at hlen
    have hbyte := c.toNat_lt
    have hpow : 2 ^ (8 * i) * 2 ^ 8 = 2 ^ (8 * (i + 1)) := by rw [← Nat.pow_add, Nat.mul_succ]
    have hlow : 2 ^ (8 * i) * c.toNat < 2 ^ (8 * (i + 1)) := by
      rw [← hpow]
      exact Nat.mul_lt_mul_of_pos_left hbyte (Nat.two_pow_pos _)
    have hshift : shl64 c.toNat (i * 8) = 2 ^ (8 * i) * c.toNat := by
      have hword : 2 ^ (8 * (i + 1)) ≤ 2 ^ 64 := Nat.pow_le_pow_right (by norm_num) (by omega)
      unfold shl64 u64
      rw [Nat.mod_eq_of_lt (by omega : i * 8 < 64), Nat.shiftLeft_eq, Nat.mul_comm i 8,
        Nat.mul_comm c.toNat, Nat.mod_eq_of_lt (by omega)]
    rw [runNumber, hshift, ih (by omega), Nat.lor_comm, ← Nat.two_pow_add_eq_or_of_lt hlow,
      numberOf_cons, Nat.mul_add (2 ^ (8 * i)), ← Nat.mul_assoc, hpow, Nat.add_comm]

/-- The offset of a run is the signed number, if it does not use all bytes or is not negative. -/
theorem runOffset_eq {bs : List UInt8} (hlen : 1 ≤ bs.length ∧ bs.length ≤ 8)
    (hsmall : bs.length ≤ 7 ∨ 0 ≤ signedOf bs) :
    (runOffset bs : ℤ) = signedOf bs % 2 ^ 64 := by
  obtain ⟨k, hk⟩ : ∃ k, 8 * bs.length = k + 1 := ⟨8 * bs.length - 1, by omega⟩
  have hlt := numberOf_lt bs
  rw [hk] at hlt
  have hword : 2 ^ (k + 1) ≤ 2 ^ 64 := Nat.pow_le_pow_right (by norm_num) (by omega)
  have hnumber : runNumber 0 bs = numberOf bs := by
    rw [runNumber_eq (by omega), Nat.mul_zero, Nat.pow_zero, Nat.one_mul]
  have htop : shl64 1 (bs.length * 8 - 1) = 2 ^ k := by
    have hpow : 2 ^ k < 2 ^ 64 := Nat.pow_lt_pow_right (by norm_num) (by omega)
    unfold shl64 u64
    rw [Nat.mul_comm, hk, Nat.add_sub_cancel, Nat.mod_eq_of_lt (by omega : k < 64), Nat.shiftLeft_eq,
      Nat.one_mul, Nat.mod_eq_of_lt hpow]
  have hbit : numberOf bs &&& 2 ^ k ≠ 0 ↔ 2 ^ k ≤ numberOf bs := by
    rw [Nat.and_two_pow, Nat.testBit_eq_decide_div_mod_eq]
    rw [Nat.pow_succ] at hlt
    by_cases hle : 2 ^ k ≤ numberOf bs
    · have hone : numberOf bs / 2 ^ k = 1 := by
        apply Nat.div_eq_of_lt_le <;> omega
      rw [hone]
      exact ⟨fun _ => hle, fun _ => by simp⟩
    · rw [Nat.div_eq_of_lt (by omega)]
      exact ⟨fun h => absurd (by simp) h, fun h => absurd h hle⟩
  unfold runOffset signedOf
  dsimp only
  rw [hnumber, htop, hk, Nat.add_sub_cancel]
  by_cases hle : 2 ^ k ≤ numberOf bs
  · -- The sign is extended.
    have hseven : bs.length ≤ 7 := by
      rcases hsmall with h | h
      · exact h
      · unfold signedOf at h
        rw [hk, Nat.add_sub_cancel, if_neg (by omega)] at h
        omega
    have hpow : 2 ^ (k + 1) < 2 ^ 64 := Nat.pow_lt_pow_right (by norm_num) (by omega)
    have hwhole : shl64 1 (bs.length * 8) = 2 ^ (k + 1) := by
      unfold shl64 u64
      rw [Nat.mul_comm, hk, Nat.mod_eq_of_lt (by omega : k + 1 < 64), Nat.shiftLeft_eq, Nat.one_mul,
        Nat.mod_eq_of_lt hpow]
    have hmask : 2 ^ 64 - 1 - (2 ^ (k + 1) - 1) = 2 ^ (k + 1) * (2 ^ (64 - (k + 1)) - 1) := by
      rw [Nat.mul_sub, ← Nat.pow_add, Nat.mul_one, Nat.add_sub_of_le (by omega)]
      omega
    rw [if_pos (hbit.mpr hle), if_neg (by omega), hwhole, hmask, Nat.lor_comm,
      ← Nat.two_pow_add_eq_or_of_lt hlt, ← hmask]
    omega
  · rw [if_neg (by rwa [hbit]), if_pos (by omega)]
    omega

/-! ## A run in the run area -/

/-- The bytes of a run: the widths of its two numbers, its length and its offset. -/
def runBytes (lenBytes ofsBytes : List UInt8) : List UInt8 :=
  UInt8.ofNat (ofsBytes.length * 16 + lenBytes.length) :: (lenBytes ++ ofsBytes)

/-- A non-resident attribute whose run area begins with these bytes. -/
structure RunArea (b : Buffer) (attr : ℕ) (bs : List UInt8) : Prop where
  nonResident : nonResident b attr = .ok true
  area : ∃ ofs len, b.load (attr + 32) 2 = .ok ofs ∧ b.load (attr + 4) 4 = .ok len ∧
    ofs + bs.length ≤ len ∧ b.Holds (attr + ofs) bs

theorem length_runBytes (lenBytes ofsBytes : List UInt8) :
    (runBytes lenBytes ofsBytes).length = 1 + lenBytes.length + ofsBytes.length := by
  rw [runBytes, List.length_cons, List.length_append]
  omega

/-- The loop takes in one run. -/
theorem runListLoop_run {b : Buffer} {re n rd prev : ℕ} {rl : RunList} {lenBytes ofsBytes : List UInt8}
    (hlen : 1 ≤ lenBytes.length ∧ lenBytes.length ≤ 15) (hofs : ofsBytes.length ≤ 15)
    (hcount : rl.runs.length < maxDataRuns) (hre : rd + (runBytes lenBytes ofsBytes).length ≤ re)
    (h : b.Holds rd (runBytes lenBytes ofsBytes)) :
    runListLoop b re (n + 1) rd prev rl =
      if ofsBytes = [] then
        runListLoop b re n (rd + (runBytes lenBytes ofsBytes).length) prev
          (rl.skip (runNumber 0 lenBytes))
      else
        runListLoop b re n (rd + (runBytes lenBytes ofsBytes).length) (u64 (prev + runOffset ofsBytes))
          (rl.push (u64 (prev + runOffset ofsBytes)) (runNumber 0 lenBytes)) := by
  have hbytes := h
  unfold runBytes at hbytes
  have hhdr : (UInt8.ofNat (ofsBytes.length * 16 + lenBytes.length)).toNat =
      ofsBytes.length * 16 + lenBytes.length := by
    rw [UInt8.toNat_ofNat']
    omega
  have hload := b.load_of_holds hbytes
  rw [hhdr] at hload
  rw [← List.singleton_append, Buffer.holds_append, Buffer.holds_append, List.length_singleton] at hbytes
  rw [length_runBytes] at hre ⊢
  have hlb : (ofsBytes.length * 16 + lenBytes.length) % 16 = lenBytes.length := by omega
  have hob : (ofsBytes.length * 16 + lenBytes.length) / 16 = ofsBytes.length := by omega
  rw [runListLoop, if_pos (by omega), hload, Access.ok_bind, if_neg (by omega)]
  dsimp only
  rw [hlb, hob, if_neg (by omega), b.bytes_of_holds hbytes.2.1, Access.ok_bind,
    b.bytes_of_holds hbytes.2.2, Access.ok_bind]
  by_cases hnone : ofsBytes = []
  · rw [if_pos hnone, if_pos (List.length_eq_zero_iff.mpr hnone)]
    congr 1
    rw [hnone, List.length_nil]
    omega
  · have hne : ¬ ofsBytes.length = 0 := fun hzero => hnone (List.length_eq_zero_iff.mp hzero)
    rw [if_neg hnone, if_neg hne]
    congr 1
    omega

/-- The loop ends at a zero byte. -/
theorem runListLoop_zero {b : Buffer} {re n rd prev : ℕ} {rl : RunList} (h : b.Holds rd [0])
    (hre : rd < re) : runListLoop b re (n + 1) rd prev rl = .ok rl := by
  have hzero : (0 : UInt8).toNat = 0 := rfl
  rw [runListLoop, if_pos hre, b.load_of_holds h, Access.ok_bind, hzero, if_pos (Or.inl rfl)]

/-! ## Encoding -/

/-- The rounds in which a 64-bit number is shifted until it is zero, `n` at most. -/
def byteCount : ℕ → ℕ → ℕ
  | 0, _ => 0
  | n + 1, v => if v = 0 then 0 else byteCount n (v >>> 8) + 1

/-- The bytes of a number, at least one. -/
def numberWidth (v : ℕ) : ℕ := if byteCount 8 v = 0 then 1 else byteCount 8 v

/-- The bytes of the offset: one more if the highest bit would be taken for a sign. -/
def offsetWidth (lcn : ℕ) : ℕ :=
  if lcn ≠ 0 ∧ (lcn >>> ((numberWidth lcn - 1) * 8)).testBit 7 then numberWidth lcn + 1
  else numberWidth lcn

/-- `encode_data_run`. -/
def encodeDataRun (lcn length : ℕ) : List UInt8 :=
  let lb := numberWidth length
  let ob := offsetWidth lcn
  UInt8.ofNat (ob <<< 4 ||| lb) ::
    ((List.range lb).map (fun i => UInt8.ofNat (length >>> (i * 8))) ++
      (List.range ob).map fun i => UInt8.ofNat (lcn >>> (i * 8 % 64)))

theorem byteCount_le (n : ℕ) : ∀ v, byteCount n v ≤ n := by
  induction n with
  | zero => exact fun _ => le_rfl
  | succ n ih =>
    intro v
    unfold byteCount
    split_ifs
    · exact Nat.zero_le _
    · exact Nat.succ_le_succ (ih _)

/-- A number fits in the bytes counted. -/
theorem lt_of_byteCount (n : ℕ) : ∀ {v : ℕ}, v < 2 ^ (8 * n) → v < 2 ^ (8 * byteCount n v) := by
  induction n with
  | zero => exact fun h => h
  | succ n ih =>
    intro v h
    unfold byteCount
    split_ifs with hzero
    · rw [hzero]
      exact Nat.one_pos
    · have hrest : v / 2 ^ 8 < 2 ^ (8 * n) := by
        rw [Nat.mul_succ, Nat.pow_add] at h
        exact Nat.div_lt_of_lt_mul (by rwa [Nat.mul_comm])
      have hih := ih hrest
      rw [Nat.shiftRight_eq_div_pow, Nat.mul_succ, Nat.pow_add]
      omega

/-- The width of a number is enough for it. -/
theorem numberWidth_spec {v : ℕ} (h : v < 2 ^ 64) :
    1 ≤ numberWidth v ∧ numberWidth v ≤ 8 ∧ v < 2 ^ (8 * numberWidth v) := by
  have hcount := lt_of_byteCount 8 h
  have hle := byteCount_le 8 v
  unfold numberWidth
  split_ifs with hzero
  · rw [hzero] at hcount
    have hpow : (2 : ℕ) ^ (8 * 0) ≤ 2 ^ (8 * 1) := by norm_num
    exact ⟨le_rfl, by norm_num, lt_of_lt_of_le hcount hpow⟩
  · exact ⟨Nat.one_le_iff_ne_zero.mpr hzero, hle, hcount⟩

/-- The width of the offset leaves a bit for its sign. -/
theorem offsetWidth_spec {lcn : ℕ} (h : lcn < 2 ^ 63) :
    1 ≤ offsetWidth lcn ∧ offsetWidth lcn ≤ 8 ∧ lcn < 2 ^ (8 * offsetWidth lcn - 1) := by
  obtain ⟨hone, height, hlt⟩ := numberWidth_spec (lt_trans h (by norm_num))
  -- The highest bit of the highest byte.
  have htop : (lcn >>> ((numberWidth lcn - 1) * 8)).testBit 7 =
      lcn.testBit (8 * numberWidth lcn - 1) := by
    rw [Nat.testBit_shiftRight]
    congr 1
    omega
  unfold offsetWidth
  rw [htop]
  split_ifs with hsign
  · have hge := Nat.ge_two_pow_of_testBit hsign.2
    have hwidth : 8 * numberWidth lcn - 1 < 63 := by
      by_contra hnot
      have hpow : 2 ^ 63 ≤ 2 ^ (8 * numberWidth lcn - 1) := Nat.pow_le_pow_right (by norm_num) (by omega)
      omega
    refine ⟨by omega, by omega, ?_⟩
    apply lt_of_lt_of_le hlt
    exact Nat.pow_le_pow_right (by norm_num) (by omega)
  · refine ⟨hone, height, ?_⟩
    by_cases hzero : lcn = 0
    · rw [hzero]
      exact Nat.two_pow_pos _
    · have hbit : lcn.testBit (8 * numberWidth lcn - 1) = false := by
        simpa [hzero] using hsign
      by_contra hnot
      -- Between the two powers the highest bit is set.
      have hset : lcn.testBit (8 * numberWidth lcn - 1) = true := by
        apply Nat.testBit_of_two_pow_le_and_two_pow_add_one_gt (by omega)
        rwa [Nat.sub_add_cancel (by omega)]
      rw [hset] at hbit
      cases hbit

/-- The encoded run is the two numbers with their widths. -/
theorem encodeDataRun_eq {lcn length : ℕ} (hlcn : lcn < 2 ^ 63) (hlength : length < 2 ^ 64) :
    encodeDataRun lcn length =
      runBytes (bytesOf length (numberWidth length)) (bytesOf lcn (offsetWidth lcn)) := by
  obtain ⟨-, hlb, -⟩ := numberWidth_spec hlength
  obtain ⟨-, hob, -⟩ := offsetWidth_spec hlcn
  have hheader : offsetWidth lcn <<< 4 ||| numberWidth length =
      offsetWidth lcn * 16 + numberWidth length := by
    rw [← Nat.shiftLeft_add_eq_or_of_lt (by omega), Nat.shiftLeft_eq]
  have hoffset : ((List.range (offsetWidth lcn)).map fun i => UInt8.ofNat (lcn >>> (i * 8 % 64))) =
      bytesOf lcn (offsetWidth lcn) := by
    rw [bytesOf_eq_map]
    apply List.map_congr_left
    intro i hi
    have hlt := List.mem_range.mp hi
    rw [Nat.mod_eq_of_lt (by omega)]
  unfold encodeDataRun runBytes
  dsimp only
  rw [hheader, hoffset, ← bytesOf_eq_map, length_bytesOf, length_bytesOf]

/-- **An encoded run is decoded again.** -/
theorem parseRunList_encodeDataRun {b : Buffer} {attr lcn length : ℕ} (hlcn : lcn < 2 ^ 63)
    (hlength : 1 ≤ length ∧ length < 2 ^ 64) (h : RunArea b attr (encodeDataRun lcn length ++ [0])) :
    parseRunList b attr = .ok ⟨[⟨0, lcn, length⟩], length⟩ := by
  obtain ⟨hlb, hlb8, hfits⟩ := numberWidth_spec hlength.2
  obtain ⟨hob, hob8, hsign⟩ := offsetWidth_spec hlcn
  obtain ⟨hnr, ofs, len, hofs, hlen, hinside, hholds⟩ := h
  rw [encodeDataRun_eq hlcn hlength.2] at hinside hholds
  rw [List.length_append, List.length_singleton] at hinside
  rw [Buffer.holds_append] at hholds
  have hnonzero : bytesOf lcn (offsetWidth lcn) ≠ [] := by
    intro hnil
    have hlen0 := congrArg List.length hnil
    rw [length_bytesOf, List.length_nil] at hlen0
    omega
  have hlenNumber : runNumber 0 (bytesOf length (numberWidth length)) = length := by
    rw [runNumber_eq (by rw [length_bytesOf]; omega), numberOf_bytesOf, Nat.mod_eq_of_lt hfits,
      Nat.mul_zero, Nat.pow_zero, Nat.one_mul]
  have hlcnNumber : runOffset (bytesOf lcn (offsetWidth lcn)) = lcn := by
    have hvalue := signedOf_bytesOf hsign
    have hoffset := @runOffset_eq (bytesOf lcn (offsetWidth lcn)) (by rw [length_bytesOf]; omega)
      (Or.inr (by rw [hvalue]; exact Int.natCast_nonneg _))
    rw [hvalue] at hoffset
    omega
  have hfuel : len + 1 = (len - 1) + 1 + 1 := by omega
  unfold parseRunList
  rw [hnr, Access.ok_bind, if_pos rfl, hofs, Access.ok_bind, hlen, Access.ok_bind, hfuel,
    runListLoop_run (by rw [length_bytesOf]; omega) (by rw [length_bytesOf]; omega) (by norm_num [maxDataRuns])
      (by omega) hholds.1, if_neg hnonzero, runListLoop_zero hholds.2 (by omega), hlenNumber, hlcnNumber]
  unfold RunList.push u64
  rw [Nat.zero_add, Nat.zero_add, Nat.mod_eq_of_lt hlength.2, Nat.mod_eq_of_lt (by omega)]
  rfl

/-- The encoded run in an attribute of 64 bytes, with its zero byte. -/
def encodedAttr (lcn length : ℕ) : Buffer where
  size := 128
  mem := fun x =>
    if x = 8 then 1 else if x = 4 then 128 else if x = 32 then 64
    else if 64 ≤ x then (encodeDataRun lcn length ++ [0]).getD (x - 64) 0 else 0

/-- The boundary of the guard byte. -/
theorem parseRunList_encodeDataRun_small :
    parseRunList (encodedAttr 128 256) 0 = .ok ⟨[⟨0, 128, 256⟩], 256⟩ := by
  apply parseRunList_encodeDataRun (by norm_num) (by norm_num)
  exact ⟨rfl, 64, 128, rfl, rfl, by decide, by decide, by decide⟩

end Microkernel
