/-
# NTFS: writing records

`write_mft_record` in `src/ntfs.c`, and what `read_mft_record` finds afterwards: the record that was
written, but for its update sequence array.
-/
import Microkernel.NtfsFixup
import Microkernel.NtfsReads

namespace Microkernel

open Access

/-- The loop that writes sectors from a buffer, from the `i`-th on; `false` as soon as one is not
transferred. -/
def writeSectorsFrom (env : NtfsEnv) (lba : ℕ) (b : Buffer) : ℕ → ℕ → Disk → Access (Bool × Disk)
  | 0, _, d => .ok (true, d)
  | n + 1, i, d =>
    if env.responds (u32 (lba + i)) then
      if i * 512 + 512 ≤ b.size then
        writeSectorsFrom env lba b n (i + 1) (d.write (u32 (lba + i)) (b.sectorAt (i * 512)))
      else .error .read
    else .ok (false, d)

/-- `write_mft_record`: whether it succeeds, the disk, and the record with its fixups. -/
def writeMftRecord (env : NtfsEnv) (info : NtfsInfo) (d : Disk) (rn : ℕ) (rec : Buffer) :
    Access (Bool × Disk × Buffer) :=
  (prepareFixup rec info.mftRecordSize).bind fun (ok, rec) =>
    if ok then
      (writeSectorsFrom env (info.recordLba rn) rec info.recordSectors 0 d).map fun (ok, d) => (ok, d, rec)
    else .ok (false, d, rec)

/-! ## Sectors -/

variable {env : NtfsEnv} {info : NtfsInfo} {d d' : Disk} {b c : Buffer}

/-- Sectors that are near each other have different numbers. -/
theorem u32_add_inj {a i j : ℕ} (hij : i < j + 2 ^ 32) (hji : j < i + 2 ^ 32) (h : u32 (a + i) = u32 (a + j)) :
    i = j := by
  unfold u32 at h
  omega

/-- **What is written**: the sectors of the buffer, and all of them are transferred. -/
theorem writeSectorsFrom_eq_true {lba : ℕ} (n : ℕ) : ∀ {i : ℕ} {d d' : Disk}, i + n ≤ 2 ^ 32 →
    writeSectorsFrom env lba b n i d = .ok (true, d') →
      (∀ k, i ≤ k → k < i + n → env.responds (u32 (lba + k)) = true ∧
        d' (u32 (lba + k)) = b.sectorAt (k * 512)) ∧
      ∀ s, (∀ k, i ≤ k → k < i + n → s ≠ u32 (lba + k)) → d' s = d s := by
  induction n with
  | zero =>
    intro i d d' _ h
    cases h
    exact ⟨fun k _ hk => by omega, fun s _ => rfl⟩
  | succ n ih =>
    intro i d d' hn h
    rw [writeSectorsFrom] at h
    split_ifs at h with hresponds hroom
    · obtain ⟨hsectors, hrest⟩ := ih (by omega) h
      constructor
      · intro k hik hk
        by_cases hfirst : k = i
        · -- The sector written now is not written again.
          subst hfirst
          refine ⟨hresponds, ?_⟩
          rw [hrest]
          · exact if_pos rfl
          · intro j hj hjn heq
            have := u32_add_inj (by omega) (by omega) heq
            omega
        · exact hsectors k (by omega) (by omega)
      · intro s hs
        rw [hrest s fun k hk hkn => hs k (by omega) (by omega)]
        exact if_neg (hs i le_rfl (by omega))
    · cases h

/-- The sectors are written if the drive transfers them. -/
theorem writeSectorsFrom_works {lba : ℕ} (n : ℕ) : ∀ {i : ℕ} {d : Disk}, 512 * (i + n) ≤ b.size →
    (∀ k, i ≤ k → k < i + n → env.responds (u32 (lba + k)) = true) →
      ∃ d', writeSectorsFrom env lba b n i d = .ok (true, d') := by
  induction n with
  | zero =>
    intro i d _ _
    exact ⟨d, rfl⟩
  | succ n ih =>
    intro i d hroom hresponds
    rw [writeSectorsFrom, if_pos (hresponds i le_rfl (by omega)), if_pos (by omega)]
    apply ih (by omega)
    intro k hk hkn
    exact hresponds k (by omega) (by omega)

/-- Sectors that hold memory are read as this memory. -/
theorem readSectorsInto_eq {lba : ℕ} {m : Memory} (n : ℕ) : ∀ {i : ℕ} {b : Buffer}, 512 * (i + n) ≤ b.size →
    (∀ k, i ≤ k → k < i + n → env.responds (u32 (lba + k)) = true ∧
      d (u32 (lba + k)) = fun x => m (k * 512 + x)) →
      readSectorsInto env d lba n i b =
        .ok (true, ⟨b.size, fun x => if 512 * i ≤ x ∧ x < 512 * (i + n) then m x else b.mem x⟩) := by
  induction n with
  | zero =>
    intro i b _ _
    rw [readSectorsInto]
    congr 2
    apply Buffer.eq_of_mem
    · rfl
    · intro x
      exact (if_neg (by omega)).symm
  | succ n ih =>
    intro i b hroom hsectors
    obtain ⟨hresponds, hsector⟩ := hsectors i le_rfl (by omega)
    rw [readSectorsInto, if_pos hresponds]
    unfold Buffer.storeSector
    rw [if_pos (by omega), ok_bind, ih]
    · congr 2
      apply Buffer.eq_of_mem
      · rfl
      · intro x
        dsimp only
        rw [hsector]
        split_ifs with hlater hin hall hfirst hin
        · rfl
        · omega
        · dsimp only
          congr 1
          omega
        · omega
        · omega
        · rfl
    · dsimp only
      omega
    · intro k hk hkn
      exact hsectors k (by omega) (by omega)

/-! ## Records -/

variable {uso n rn : ℕ}

theorem beginsWith_congr {b c : Buffer} {bs : List UInt8} : ∀ {off : ℕ}, off + bs.length ≤ b.size →
    off + bs.length ≤ c.size → (∀ x, off ≤ x → x < off + bs.length → c.mem x = b.mem x) →
    c.beginsWith off bs = b.beginsWith off bs := by
  induction bs with
  | nil =>
    intro off _ _ _
    rfl
  | cons v vs ih =>
    intro off hb hc hsame
    rw [List.length_cons] at hb hc hsame
    have hbyte : c.mem.loadLE off 1 = b.mem.loadLE off 1 :=
      Memory.loadLE_congr fun x hx hx' => hsame x hx (by omega)
    rw [Buffer.beginsWith, Buffer.beginsWith, Buffer.load_of_le _ (by omega), Buffer.load_of_le _ (by omega),
      ok_bind, ok_bind, hbyte, ih (by omega) (by omega)]
    intro x hx hx'
    exact hsame x (by omega) (by omega)

/-- A record that can be written: its array, its size and its magic number. -/
structure WritableRecord (info : NtfsInfo) (b : Buffer) (uso n : ℕ) : Prop where
  fixup : FixupRecord b uso n
  size_eq : info.mftRecordSize = 512 * n
  few : n ≤ 2 ^ 32
  magic : b.beginsWith 0 "FILE".toUTF8.toList = .ok true

/-- The record `b'` is `b` with the array of the next write. -/
structure Rewritten (b b' : Buffer) (uso n : ℕ) : Prop where
  number : b'.mem.loadLE uso 2 = nextSequence (b.mem.loadLE uso 2)
  same : ∀ x, x < 512 * n → x < uso ∨ uso + 2 * (n + 1) ≤ x → b'.mem x = b.mem x

theorem WritableRecord.recordSectors_eq (h : WritableRecord info b uso n) : info.recordSectors = n := by
  unfold NtfsInfo.recordSectors
  rw [h.size_eq, Nat.mul_div_cancel_left n (by norm_num)]

/-- The record is written if the drive transfers its sectors. -/
theorem writeMftRecord_works (h : WritableRecord info b uso n)
    (hdrive : ∀ k < n, env.responds (u32 (info.recordLba rn + k)) = true) :
    ∃ d' b', writeMftRecord env info d rn b = .ok (true, d', b') := by
  obtain ⟨m, hprepare, -⟩ := h.fixup.prepareFixup_eq
  have hroom := h.fixup.room
  obtain ⟨d', hd'⟩ := @writeSectorsFrom_works env ⟨b.size, m⟩ (info.recordLba rn) n 0 d (by dsimp only; omega)
    fun k _ hk => hdrive k (by omega)
  refine ⟨d', ⟨b.size, m⟩, ?_⟩
  unfold writeMftRecord
  rw [h.size_eq, hprepare, ok_bind, h.recordSectors_eq]
  dsimp only
  rw [if_pos rfl, hd']
  rfl

/-- The sectors of a record that is written are transferred. -/
theorem writeMftRecord_responds (h : WritableRecord info b uso n)
    (hwrite : writeMftRecord env info d rn b = .ok (true, d', c)) :
    ∀ k < n, env.responds (u32 (info.recordLba rn + k)) = true := by
  obtain ⟨m, hprepare, -⟩ := h.fixup.prepareFixup_eq
  unfold writeMftRecord at hwrite
  rw [h.size_eq, hprepare, ok_bind, h.recordSectors_eq] at hwrite
  dsimp only at hwrite
  rw [if_pos rfl] at hwrite
  obtain ⟨⟨ok, d₁⟩, hsectors, heq⟩ := map_eq_ok.mp hwrite
  cases heq
  have hfew := h.few
  intro k hk
  exact ((writeSectorsFrom_eq_true n (by omega) hsectors).1 k (Nat.zero_le k) (by omega)).1

/-- **A record that was written is read again**, with the array of this write. -/
theorem readMftRecord_writeMftRecord (h : WritableRecord info b uso n)
    (hwrite : writeMftRecord env info d rn b = .ok (true, d', c)) {buf : Buffer} (hroom : 512 * n ≤ buf.size) :
    ∃ b', readMftRecord env info d' rn buf = .ok (true, b') ∧ b'.size = buf.size ∧ Rewritten b b' uso n := by
  obtain ⟨m₁, hprepare, hm₁⟩ := h.fixup.prepareFixup_eq
  have hfixed := h.fixup.of_swappedOut hm₁
  have hfew := h.few
  have hinside := h.fixup.array.inside
  have hafter := h.fixup.array.after
  unfold writeMftRecord at hwrite
  rw [h.size_eq, hprepare, ok_bind, h.recordSectors_eq] at hwrite
  dsimp only at hwrite
  rw [if_pos rfl] at hwrite
  obtain ⟨⟨ok, d₁⟩, hsectors, heq⟩ := map_eq_ok.mp hwrite
  cases heq
  have hwritten := (writeSectorsFrom_eq_true n (by omega) hsectors).1
  -- What is read: the sectors of the record, and behind them what was there.
  have hread := @readSectorsInto_eq env d₁ (info.recordLba rn) m₁ n 0 buf (by omega)
    fun k hk hkn => hwritten k hk hkn
  rw [Nat.zero_add] at hread
  generalize hc : (⟨buf.size, fun x => if 512 * 0 ≤ x ∧ x < 512 * n then m₁ x else buf.mem x⟩ : Buffer) = read at hread
  have hsize : read.size = buf.size := by rw [← hc]
  have hmem : ∀ x, x < 512 * n → read.mem x = m₁ x := by
    intro x hx
    rw [← hc]
    exact if_pos ⟨by omega, by omega⟩
  have hrest : ∀ x, 512 * n ≤ x → read.mem x = buf.mem x := by
    intro x hx
    rw [← hc]
    exact if_neg (by omega)
  have hload : ∀ {a w}, a + w ≤ 512 * n → read.mem.loadLE a w = m₁.loadLE a w := by
    intro a w haw
    exact Memory.loadLE_congr fun x _ hx => hmem x (by omega)
  have hrecord : FixupRecord read uso n := by
    constructor
    · rw [hload (by omega)]
      exact hfixed.offset
    · rw [hload (by omega)]
      exact hfixed.count
    · exact hfixed.array
    · omega
  have hswapped : SwappedOut uso n (nextSequence (b.mem.loadLE uso 2)) 1 (n + 1)
      (fun x => if x < 512 * n then b.mem x else buf.mem x) read.mem := by
    constructor
    · rw [hload (by omega)]
      exact hm₁.number
    · intro i hi hin
      rw [hload (by omega)]
      exact hm₁.tail i hi hin
    · intro i hi hin
      rw [hload (by omega), hm₁.saved i hi hin]
      exact (Memory.loadLE_congr fun x _ hx => if_pos (by omega)).symm
    · intro x hx hout
      split_ifs with hlt
      · rw [hmem x hlt]
        exact hm₁.same x hx hout
      · exact hrest x (by omega)
  have hmagic : read.beginsWith 0 "FILE".toUTF8.toList = .ok true := by
    have hfour : "FILE".toUTF8.toList.length = 4 := by decide +kernel
    have hbroom := h.fixup.room
    rw [← h.magic]
    apply beginsWith_congr
    · omega
    · omega
    · intro x _ hx
      rw [hmem x (by omega)]
      apply hm₁.same x (by omega)
      intro i hi _
      left
      omega
  obtain ⟨m₂, happly, hm₂⟩ := hrecord.applyFixup_eq hswapped
  refine ⟨⟨read.size, m₂⟩, ?_, hsize, ?_⟩
  · unfold readMftRecord
    rw [h.recordSectors_eq, hread, ok_bind]
    dsimp only
    rw [if_pos rfl, hmagic, ok_bind, if_pos rfl, h.size_eq]
    exact happly
  · constructor
    · exact hm₂.number
    · intro x hx hout
      have hx' := hm₂.same x hout fun i hi hin => by omega
      rw [if_pos hx] at hx'
      exact hx'

end Microkernel
