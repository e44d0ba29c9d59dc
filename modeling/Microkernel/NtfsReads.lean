/-
# NTFS: reading again

`mft_buf` is scratch memory: what an operation finds does not depend on what an earlier one left
in the part of it that records are read into.  And how many bytes the data runs of a file give.
-/
import Microkernel.Ntfs

namespace Microkernel

open Access

/-! ## `mft_buf` -/

/-- The two buffers differ at most where the sectors of a record go. -/
structure Scratch (info : NtfsInfo) (b b' : Buffer) : Prop where
  size_eq : b.size = b'.size
  mem_eq : ∀ x, 512 * info.recordSectors ≤ x → b.mem x = b'.mem x

section

variable {env : NtfsEnv} {info : NtfsInfo} {d : Disk} {b b' c : Buffer}

theorem Scratch.refl (b : Buffer) : Scratch info b b := ⟨rfl, fun _ _ => rfl⟩

theorem Scratch.symm (h : Scratch info b b') : Scratch info b' b :=
  ⟨h.size_eq.symm, fun x hx => (h.mem_eq x hx).symm⟩

theorem Scratch.trans (h : Scratch info b b') (h' : Scratch info b' c) : Scratch info b c :=
  ⟨h.size_eq.trans h'.size_eq, fun x hx => (h.mem_eq x hx).trans (h'.mem_eq x hx)⟩

/-- A buffer is its size and its bytes. -/
theorem Buffer.eq_of_mem {b b' : Buffer} (hsize : b.size = b'.size)
    (hmem : ∀ x, b.mem x = b'.mem x) : b = b' := by
  obtain ⟨n, m⟩ := b
  obtain ⟨n', m'⟩ := b'
  obtain rfl : n = n' := hsize
  obtain rfl : m = m' := funext hmem
  rfl

/-- Reading sectors leaves the rest of the buffer alone. -/
theorem readSectorsInto_outside {lba : ℕ} {ok : Bool} (n : ℕ) : ∀ {i b},
    readSectorsInto env d lba n i b = .ok (ok, c) →
      c.size = b.size ∧ ∀ x, 512 * (i + n) ≤ x → c.mem x = b.mem x := by
  induction n with
  | zero =>
    intro i b h
    cases h
    exact ⟨rfl, fun _ _ => rfl⟩
  | succ n ih =>
    intro i b h
    rw [readSectorsInto] at h
    split_ifs at h
    · obtain ⟨b₁, hb₁, h⟩ := bind_eq_ok.mp h
      unfold Buffer.storeSector at hb₁
      split_ifs at hb₁
      cases hb₁
      obtain ⟨hsize, hmem⟩ := ih h
      refine ⟨hsize, fun x hx => ?_⟩
      rw [hmem x (by omega)]
      exact if_neg (by omega)
    · cases h
      exact ⟨rfl, fun _ _ => rfl⟩

/-- If all sectors are read, what was there before does not matter. -/
theorem readSectorsInto_congr {lba : ℕ} {ok : Bool} (n : ℕ) : ∀ {i b b'},
    b.size = b'.size → (∀ x, x < 512 * i ∨ 512 * (i + n) ≤ x → b.mem x = b'.mem x) →
    readSectorsInto env d lba n i b = .ok (ok, c) →
    ∃ c', readSectorsInto env d lba n i b' = .ok (ok, c') ∧ (ok = true → c = c') := by
  induction n with
  | zero =>
    intro i b b' hsize hmem h
    cases h
    exact ⟨b', rfl, fun _ => Buffer.eq_of_mem hsize fun x => hmem x (by omega)⟩
  | succ n ih =>
    intro i b b' hsize hmem h
    rw [readSectorsInto] at h ⊢
    split_ifs at h ⊢
    · obtain ⟨b₁, hb₁, h⟩ := bind_eq_ok.mp h
      unfold Buffer.storeSector at hb₁ ⊢
      rw [hsize] at hb₁
      split_ifs at hb₁ ⊢ with hroom
      cases hb₁
      refine ih ?_ ?_ h
      · rfl
      · intro x hx
        dsimp only
        split_ifs with hin
        · rfl
        · exact hmem x (by omega)
    · cases h
      exact ⟨b', rfl, fun hok => by cases hok⟩

/-- The fixups go to the sectors of the record. -/
theorem fixupLoop_outside {uso sv recSize : ℕ} {ok : Bool} (n : ℕ) : ∀ {i b},
    1 ≤ i → fixupLoop uso sv recSize n i b = .ok (ok, c) →
      c.size = b.size ∧ ∀ x, 512 * (recSize / 512) ≤ x → c.mem x = b.mem x := by
  induction n with
  | zero =>
    intro i b _ h
    cases h
    exact ⟨rfl, fun _ _ => rfl⟩
  | succ n ih =>
    intro i b hi h
    rw [fixupLoop] at h
    split_ifs at h with hp
    · cases h
      exact ⟨rfl, fun _ _ => rfl⟩
    · obtain ⟨s, -, h⟩ := bind_eq_ok.mp h
      split_ifs at h
      · cases h
        exact ⟨rfl, fun _ _ => rfl⟩
      obtain ⟨v, -, h⟩ := bind_eq_ok.mp h
      obtain ⟨b₁, hb₁, h⟩ := bind_eq_ok.mp h
      unfold Buffer.store at hb₁
      split_ifs at hb₁
      cases hb₁
      obtain ⟨hsize, hmem⟩ := ih (by omega) h
      refine ⟨hsize, fun x hx => ?_⟩
      rw [hmem x hx]
      exact Memory.storeLE_of_outside _ _ (by omega)

theorem applyFixup_outside {recSize : ℕ} {ok : Bool} (h : applyFixup b recSize = .ok (ok, c)) :
    c.size = b.size ∧ ∀ x, 512 * (recSize / 512) ≤ x → c.mem x = b.mem x := by
  obtain ⟨uso, -, h⟩ := bind_eq_ok.mp h
  obtain ⟨usc, -, h⟩ := bind_eq_ok.mp h
  split_ifs at h
  · cases h
    exact ⟨rfl, fun _ _ => rfl⟩
  · obtain ⟨sv, -, h⟩ := bind_eq_ok.mp h
    exact fixupLoop_outside _ (Nat.le_refl 1) h

/-- `read_mft_record` changes the scratch part only. -/
theorem readMftRecord_scratch {rn : ℕ} {ok : Bool}
    (h : readMftRecord env info d rn b = .ok (ok, c)) : Scratch info b c := by
  obtain ⟨⟨read, b₁⟩, hread, h⟩ := bind_eq_ok.mp h
  obtain ⟨hsize, hmem⟩ := readSectorsInto_outside _ hread
  rw [Nat.zero_add] at hmem
  have h₁ : Scratch info b b₁ := ⟨hsize.symm, fun x hx => (hmem x hx).symm⟩
  cases read with
  | false =>
    cases h
    exact h₁
  | true =>
    obtain ⟨isFile, -, h⟩ := bind_eq_ok.mp h
    cases isFile with
    | false =>
      cases h
      exact h₁
    | true =>
      obtain ⟨hsize₂, hmem₂⟩ := applyFixup_outside h
      exact h₁.trans ⟨hsize₂.symm, fun x hx => (hmem₂ x hx).symm⟩

/-- **What a record is read as** does not depend on the scratch part. -/
theorem readMftRecord_congr {rn : ℕ} {ok : Bool} (hb : Scratch info b b')
    (h : readMftRecord env info d rn b = .ok (ok, c)) :
    ∃ c', readMftRecord env info d rn b' = .ok (ok, c') ∧ (ok = true → c = c') := by
  obtain ⟨⟨read, b₁⟩, hread, h⟩ := bind_eq_ok.mp h
  obtain ⟨b₁', hread', heq⟩ := readSectorsInto_congr info.recordSectors hb.size_eq
    (fun x hx => hb.mem_eq x (by omega)) hread
  unfold readMftRecord
  rw [hread', ok_bind]
  cases read with
  | false =>
    cases h
    exact ⟨b₁', rfl, fun hok => by cases hok⟩
  | true =>
    obtain rfl := heq rfl
    exact ⟨c, h, fun _ => rfl⟩

/-! ## Paths -/

theorem resolveLoop_scratch {r : Option ℕ} (cs : List (List UInt8)) : ∀ {cur b},
    resolveLoop env info d cs cur b = .ok (r, c) → Scratch info b c := by
  induction cs with
  | nil =>
    intro cur b h
    cases h
    exact .refl _
  | cons comp rest ih =>
    intro cur b h
    rw [resolveLoop] at h
    split_ifs at h
    · exact ih h
    obtain ⟨⟨ok, b₁⟩, hread, h⟩ := bind_eq_ok.mp h
    have h₁ := readMftRecord_scratch hread
    cases ok with
    | false =>
      cases h
      exact h₁
    | true =>
      obtain ⟨flags, -, h⟩ := bind_eq_ok.mp h
      split_ifs at h
      · obtain ⟨found, -, h⟩ := bind_eq_ok.mp h
        cases found with
        | none =>
          cases h
          exact h₁
        | some l => exact h₁.trans (ih h)
      · cases h
        exact h₁

theorem resolveLoop_congr {r : Option ℕ} (cs : List (List UInt8)) : ∀ {cur b b'},
    Scratch info b b' → resolveLoop env info d cs cur b = .ok (r, c) →
    ∃ c', resolveLoop env info d cs cur b' = .ok (r, c') := by
  induction cs with
  | nil =>
    intro cur b b' _ h
    cases h
    exact ⟨b', rfl⟩
  | cons comp rest ih =>
    intro cur b b' hb h
    rw [resolveLoop] at h ⊢
    split_ifs at h ⊢
    · exact ih hb h
    obtain ⟨⟨ok, b₁⟩, hread, h⟩ := bind_eq_ok.mp h
    obtain ⟨b₁', hread', heq⟩ := readMftRecord_congr hb hread
    rw [hread', ok_bind]
    cases ok with
    | false =>
      cases h
      exact ⟨b₁', rfl⟩
    | true =>
      obtain rfl := heq rfl
      exact ⟨c, h⟩

theorem ntfsResolvePath_scratch {path : List UInt8} {r : Option ℕ}
    (h : ntfsResolvePath env info d path b = .ok (r, c)) : Scratch info b c := by
  unfold ntfsResolvePath at h
  split_ifs at h
  · cases h
    exact .refl b
  all_goals exact resolveLoop_scratch _ h

theorem ntfsResolvePath_congr {path : List UInt8} {r : Option ℕ} (hb : Scratch info b b')
    (h : ntfsResolvePath env info d path b = .ok (r, c)) :
    ∃ c', ntfsResolvePath env info d path b' = .ok (r, c') := by
  unfold ntfsResolvePath at h ⊢
  split_ifs at h ⊢
  · cases h
    exact ⟨b', rfl⟩
  all_goals exact resolveLoop_congr _ hb h

theorem openRecord_scratch {path : List UInt8} {r : Option (ℕ × ℕ)}
    (h : openRecord env info d path b = .ok (r, c)) : Scratch info b c := by
  obtain ⟨⟨rn, b₁⟩, hpath, h⟩ := bind_eq_ok.mp h
  have h₁ := ntfsResolvePath_scratch hpath
  cases rn with
  | none =>
    cases h
    exact h₁
  | some rn =>
    obtain ⟨⟨ok, b₂⟩, hread, h⟩ := bind_eq_ok.mp h
    have h₂ := h₁.trans (readMftRecord_scratch hread)
    cases ok with
    | false =>
      cases h
      exact h₂
    | true =>
      obtain ⟨flags, -, heq⟩ := map_eq_ok.mp h
      cases heq
      exact h₂

/-- **Opening a file again** finds the same record, with the same contents. -/
theorem openRecord_congr {path : List UInt8} {r : Option (ℕ × ℕ)} (hb : Scratch info b b')
    (h : openRecord env info d path b = .ok (r, c)) :
    ∃ c', openRecord env info d path b' = .ok (r, c') ∧ (r.isSome = true → c = c') := by
  obtain ⟨⟨rn, b₁⟩, hpath, h⟩ := bind_eq_ok.mp h
  obtain ⟨b₁', hpath'⟩ := ntfsResolvePath_congr hb hpath
  have h₁ : Scratch info b₁ b₁' :=
    (ntfsResolvePath_scratch hpath).symm.trans (hb.trans (ntfsResolvePath_scratch hpath'))
  unfold openRecord
  rw [hpath', ok_bind]
  cases rn with
  | none =>
    cases h
    exact ⟨b₁', rfl, fun hr => by cases hr⟩
  | some rn =>
    obtain ⟨⟨ok, b₂⟩, hread, h⟩ := bind_eq_ok.mp h
    obtain ⟨b₂', hread', heq⟩ := readMftRecord_congr h₁ hread
    dsimp only
    rw [hread', ok_bind]
    cases ok with
    | false =>
      cases h
      exact ⟨b₂', rfl, fun hr => by cases hr⟩
    | true =>
      obtain rfl := heq rfl
      exact ⟨c, h, fun _ => rfl⟩

end

/-! ## Data runs -/

/-- The bytes of a cluster. -/
def NtfsInfo.clusterBytes (info : NtfsInfo) : ℕ := info.sectorsPerCluster * 512

/-- The number of clusters of a list of runs. -/
def runClusters (runs : List DataRun) : ℕ := (runs.map DataRun.length).sum

/-- The `k`-th cluster of a list of runs. -/
def nthCluster : List DataRun → ℕ → Option ℕ
  | [], _ => none
  | r :: rs, k => if k < r.length then some (r.lcn + k) else nthCluster rs (k - r.length)

/-- The drive transfers the clusters with the first `n` bytes of a list of runs. -/
def ClustersRespond (env : NtfsEnv) (info : NtfsInfo) (d : Disk) (runs : List DataRun) (n : ℕ) :
    Prop :=
  ∀ k c, k * info.clusterBytes < n → nthCluster runs k = some c →
    (readCluster env info d c).isSome = true

section

variable {env : NtfsEnv} {info : NtfsInfo} {d : Disk}

theorem length_readCluster {c : ℕ} {bs : List UInt8} (h : readCluster env info d c = some bs) :
    bs.length = info.clusterBytes := by
  unfold readCluster at h
  dsimp only at h
  split_ifs at h
  cases h
  simp [sectorBytes, NtfsInfo.clusterBytes, List.length_flatMap, Function.comp_def]

/-- A cluster without sectors is read without the drive. -/
theorem readCluster_of_zero (hzero : info.clusterBytes = 0) (c : ℕ) :
    (readCluster env info d c).isSome = true := by
  have hspc : info.sectorsPerCluster = 0 := by
    unfold NtfsInfo.clusterBytes at hzero
    omega
  simp [readCluster, hspc]

/-- The clusters of one run. -/
theorem readRun_spec {lcn : ℕ} (n : ℕ) : ∀ c want,
    ((readRun env info d lcn n c want).isSome = true ↔
      ∀ j, j < n → j * info.clusterBytes < want →
        (readCluster env info d (lcn + (c + j))).isSome = true) ∧
    ∀ bs, readRun env info d lcn n c want = some bs →
      bs.length = min want (n * info.clusterBytes) := by
  induction n with
  | zero =>
    intro c want
    refine ⟨⟨fun _ j hj => absurd hj (Nat.not_lt_zero j), fun _ => rfl⟩, fun bs h => ?_⟩
    cases h
    simp
  | succ n ih =>
    intro c want
    rw [readRun]
    by_cases hwant : want = 0
    · rw [if_pos hwant]
      subst hwant
      refine ⟨⟨fun _ j _ hj => absurd hj (Nat.not_lt_zero _), fun _ => rfl⟩, fun bs h => ?_⟩
      cases h
      simp
    rw [if_neg hwant]
    cases hread : readCluster env info d (lcn + c) with
    | none =>
      refine ⟨⟨fun h => (by cases h), fun h => ?_⟩, fun bs h => (by cases h)⟩
      have := h 0 (Nat.succ_pos n) (by omega)
      rw [Nat.add_zero, hread] at this
      cases this
    | some first =>
      have hlen : (first.take want).length = min want info.clusterBytes := by
        rw [List.length_take, length_readCluster hread]
      have hleft : want - (first.take want).length = want - info.clusterBytes := by omega
      obtain ⟨hsome, hbytes⟩ := ih (c + 1) (want - info.clusterBytes)
      rw [Option.bind_some, hleft]
      constructor
      · rw [Option.isSome_map, hsome]
        constructor
        · intro h j hj hlt
          cases j with
          | zero => rw [Nat.add_zero, hread, Option.isSome_some]
          | succ j =>
            rw [Nat.succ_mul] at hlt
            have := h j (by omega) (by omega)
            rwa [Nat.add_right_comm, Nat.add_assoc c] at this
        · intro h j hj hlt
          have := h (j + 1) (by omega) (by rw [Nat.succ_mul]; omega)
          rwa [Nat.add_comm j, ← Nat.add_assoc c] at this
      · intro bs h
        obtain ⟨rest, hrest, rfl⟩ := Option.map_eq_some_iff.mp h
        rw [List.length_append, hlen, hbytes rest hrest, Nat.succ_mul]
        omega

/-- **The bytes that runs give**: as many as they have and as are asked for, if the drive
transfers the clusters. -/
theorem readRuns_spec (runs : List DataRun) : ∀ want,
    ((readRuns env info d runs want).isSome = true ↔ ClustersRespond env info d runs want) ∧
    ∀ bs, readRuns env info d runs want = some bs →
      bs.length = min want (runClusters runs * info.clusterBytes) := by
  induction runs with
  | nil =>
    intro want
    refine ⟨⟨fun _ k c _ hk => (by cases hk), fun _ => rfl⟩, fun bs h => ?_⟩
    cases h
    simp [runClusters]
  | cons r rs ih =>
    intro want
    have htotal : runClusters (r :: rs) = r.length + runClusters rs := by simp [runClusters]
    rw [readRuns]
    by_cases hwant : want = 0
    · rw [if_pos hwant]
      subst hwant
      refine ⟨⟨fun _ k c hk => absurd hk (Nat.not_lt_zero _), fun _ => rfl⟩, fun bs h => ?_⟩
      cases h
      simp
    rw [if_neg hwant]
    obtain ⟨hsome, hbytes⟩ := @readRun_spec env info d r.lcn r.length 0 want
    simp only [Nat.zero_add] at hsome
    -- the clusters of the first run are the first of the list
    have hfirst : ClustersRespond env info d (r :: rs) want →
        (readRun env info d r.lcn r.length 0 want).isSome = true := fun h =>
      hsome.mpr fun j hj hlt => h j _ hlt (if_pos hj)
    cases hread : readRun env info d r.lcn r.length 0 want with
    | none =>
      refine ⟨⟨fun h => (by cases h), fun h => ?_⟩, fun bs h => (by cases h)⟩
      have := hfirst h
      rw [hread] at this
      cases this
    | some bs =>
      have hlen := hbytes bs hread
      have hleft : want - bs.length = want - r.length * info.clusterBytes := by omega
      have hrun := hsome.mp (by rw [hread]; rfl)
      obtain ⟨hrest, hrestBytes⟩ := ih (want - r.length * info.clusterBytes)
      rw [Option.bind_some, hleft]
      constructor
      · rw [Option.isSome_map, hrest]
        constructor
        · intro h k c hk hc
          unfold nthCluster at hc
          split_ifs at hc with hin
          · cases hc
            exact hrun k hin hk
          · refine h (k - r.length) c ?_ hc
            rw [Nat.sub_mul]
            have : r.length * info.clusterBytes ≤ k * info.clusterBytes :=
              Nat.mul_le_mul_right _ (Nat.not_lt.mp hin)
            omega
        · intro h k c hk hc
          refine h (r.length + k) c (by rw [Nat.add_mul]; omega) ?_
          unfold nthCluster
          rw [if_neg (by omega), Nat.add_sub_cancel_left]
          exact hc
      · intro bs' h
        obtain ⟨rest, hrest', rfl⟩ := Option.map_eq_some_iff.mp h
        rw [List.length_append, hlen, hrestBytes rest hrest', htotal, Nat.add_mul]
        omega

/-- A list of runs has a `k`-th cluster if it has more than `k`. -/
theorem nthCluster_lt {c : ℕ} (runs : List DataRun) : ∀ {k}, nthCluster runs k = some c →
    k < runClusters runs := by
  induction runs with
  | nil => intro k h; cases h
  | cons r rs ih =>
    intro k h
    have htotal : runClusters (r :: rs) = r.length + runClusters rs := by simp [runClusters]
    unfold nthCluster at h
    split_ifs at h with hk
    · omega
    · have := ih h
      omega

/-- The clusters beyond the bytes that there are do not matter. -/
theorem ClustersRespond.of_min {runs : List DataRun} {n want : ℕ}
    (h : ClustersRespond env info d runs n)
    (hn : min want (runClusters runs * info.clusterBytes) ≤ n) :
    ClustersRespond env info d runs want := by
  intro k c hk hc
  by_cases hzero : info.clusterBytes = 0
  · exact readCluster_of_zero hzero c
  · refine h k c ?_ hc
    have hlt : k * info.clusterBytes < runClusters runs * info.clusterBytes :=
      Nat.mul_lt_mul_of_pos_right (nthCluster_lt runs hc) (Nat.pos_of_ne_zero hzero)
    omega

end

end Microkernel
