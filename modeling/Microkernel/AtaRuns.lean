/-
# The ATA driver and the drives

Whatever the drives did before and however long they take, a transfer of `src/ata.c` that succeeds has
read or written its sector, and one that fails has changed nothing.  When no drive is slower than the
driver's patience, the disks are arrays of sectors.
-/
import Microkernel.Ata
import Microkernel.Machines
import Microkernel.Runs

namespace Microkernel

variable {b b' : AtaBus} {n k : ℕ}

/-! ## Waiting -/

theorem ata400nsDelay_eq (b : AtaBus) : ata400nsDelay b = b.pass 4 := by
  show ((((b.pass 1).pass 1).pass 1).pass 1) = b.pass 4
  rw [AtaBus.pass_pass, AtaBus.pass_pass, AtaBus.pass_pass]

/-- Waiting only lets time pass. -/
theorem ataWaitReady_pass (n : ℕ) (b : AtaBus) : ∃ k, (ataWaitReady n b).2 = b.pass k := by
  induction n generalizing b with
  | zero => exact ⟨0, AtaBus.pass_zero.symm⟩
  | succ n ih =>
    show ∃ k, (if b.status &&& 0x80 = 0 then (true, b.pass 1) else ataWaitReady n (b.pass 1)).2 = _
    split_ifs
    · exact ⟨1, rfl⟩
    · obtain ⟨k, hk⟩ := ih (b.pass 1)
      exact ⟨1 + k, hk.trans (AtaBus.pass_pass 1 k)⟩

theorem ataWaitDrq_pass (n : ℕ) (b : AtaBus) : ∃ k, (ataWaitDrq n b).2 = b.pass k := by
  induction n generalizing b with
  | zero => exact ⟨0, AtaBus.pass_zero.symm⟩
  | succ n ih =>
    show ∃ k, (if b.status &&& 0x01 ≠ 0 then (false, b.pass 1)
      else if b.status &&& 0x80 = 0 ∧ b.status &&& 0x08 ≠ 0 then (true, b.pass 1)
      else ataWaitDrq n (b.pass 1)).2 = _
    split_ifs
    · exact ⟨1, rfl⟩
    · exact ⟨1, rfl⟩
    · obtain ⟨k, hk⟩ := ih (b.pass 1)
      exact ⟨1 + k, hk.trans (AtaBus.pass_pass 1 k)⟩

/-- **`ata_wait_ready`** waits until the selected drive is not busy, if that is soon enough. -/
theorem ataWaitReady_eq (n : ℕ) (h : b.drive.kind ≠ .none) :
    ataWaitReady n b = (decide (b.drive.wait < n), b.pass (min n (b.drive.wait + 1))) := by
  induction n generalizing b with
  | zero =>
    rw [Nat.zero_min, AtaBus.pass_zero]
    rfl
  | succ n ih =>
    show (if b.status &&& 0x80 = 0 then (true, b.pass 1) else ataWaitReady n (b.pass 1)) = _
    rw [b.status_of_attached h]
    by_cases hwait : 0 < b.drive.wait
    · have hkind : (b.pass 1).drive.kind ≠ .none := by
        rw [AtaBus.drive_pass]
        exact h
      rw [if_pos hwait, if_neg (by decide), ih hkind, AtaBus.drive_pass, AtaBus.pass_pass]
      dsimp only
      congr 2
      · exact propext (by omega)
      · omega
    · rw [if_neg hwait, if_pos (AtaPhase.status_ready _), decide_eq_true (by omega : b.drive.wait < n + 1)]
      congr 2
      omega

theorem ataWaitReady_idle (h : b.drive.kind ≠ .none) (hready : (ataWaitReady n b).1 = true) :
    (ataWaitReady n b).2.drive.wait = 0 := by
  rw [ataWaitReady_eq n h] at hready ⊢
  have hlt : b.drive.wait < n := of_decide_eq_true hready
  rw [AtaBus.drive_pass]
  dsimp only
  omega

/-- A status without an error and without a request is polled until the time is over; with an error
it is not. -/
theorem ataWaitDrq_false (n : ℕ) (h : b.drive.kind ≠ .none) (hphase : b.drive.phase.status ≠ 0x48) :
    (ataWaitDrq n b).1 = false := by
  induction n generalizing b with
  | zero => rfl
  | succ n ih =>
    have hnext : (ataWaitDrq n (b.pass 1)).1 = false := by
      apply ih
      · rw [AtaBus.drive_pass]
        exact h
      · rw [AtaBus.drive_pass]
        exact hphase
    show (if b.status &&& 0x01 ≠ 0 then (false, b.pass 1)
      else if b.status &&& 0x80 = 0 ∧ b.status &&& 0x08 ≠ 0 then (true, b.pass 1)
      else ataWaitDrq n (b.pass 1)).1 = false
    rw [b.status_of_attached h]
    by_cases hwait : 0 < b.drive.wait
    · rw [if_pos hwait, if_neg (by decide), if_neg (by decide)]
      exact hnext
    · rw [if_neg hwait]
      cases hp : b.drive.phase with
      | idle =>
        rw [if_neg (by decide : ¬ AtaPhase.idle.status &&& 0x01 ≠ 0), if_neg (by decide)]
        exact hnext
      | error => rfl
      | reading words => exact absurd (by rw [hp]; rfl) hphase
      | writing lba taken => exact absurd (by rw [hp]; rfl) hphase

/-- **`ata_wait_drq`** waits until the selected drive asks for data, if that is soon enough. -/
theorem ataWaitDrq_eq (n : ℕ) (h : b.drive.kind ≠ .none) (hphase : b.drive.phase.status = 0x48) :
    ataWaitDrq n b = (decide (b.drive.wait < n), b.pass (min n (b.drive.wait + 1))) := by
  induction n generalizing b with
  | zero =>
    rw [Nat.zero_min, AtaBus.pass_zero]
    rfl
  | succ n ih =>
    show (if b.status &&& 0x01 ≠ 0 then (false, b.pass 1)
      else if b.status &&& 0x80 = 0 ∧ b.status &&& 0x08 ≠ 0 then (true, b.pass 1)
      else ataWaitDrq n (b.pass 1)) = _
    rw [b.status_of_attached h]
    by_cases hwait : 0 < b.drive.wait
    · have hkind : (b.pass 1).drive.kind ≠ .none := by
        rw [AtaBus.drive_pass]
        exact h
      have hstatus : (b.pass 1).drive.phase.status = 0x48 := by
        rw [AtaBus.drive_pass]
        exact hphase
      rw [if_pos hwait, if_neg (by decide), if_neg (by decide), ih hkind hstatus,
        AtaBus.drive_pass, AtaBus.pass_pass]
      dsimp only
      congr 2
      · exact propext (by omega)
      · omega
    · rw [if_neg hwait, hphase, if_neg (by decide), if_pos (by decide), decide_eq_true (by omega : b.drive.wait < n + 1)]
      congr 2
      omega

/-! ## Data -/

/-- The words of a sector are read in order, and the drive is idle behind them. -/
theorem ataReadWords_eq {words : List UInt16} (hkind : b.drive.kind ≠ .none)
    (hwait : b.drive.wait = 0) (hphase : b.drive.phase = .reading words) (hne : words ≠ []) :
    ataReadWords words.length b = (words, b.setDrive { b.drive with phase := .idle }) := by
  induction words generalizing b with
  | nil => exact absurd rfl hne
  | cons w words ih =>
    have hinw : b.inw = (w, b.setDrive { b.drive with
        phase := if words = [] then .idle else .reading words }) := by
      rw [b.inw_of_attached hkind hwait, AtaDrive.takeWord_reading hphase]
    show (b.inw.1 :: (ataReadWords words.length b.inw.2).1, (ataReadWords words.length b.inw.2).2) = _
    rw [hinw]
    by_cases hlast : words = []
    · rw [hlast, if_pos rfl]
      rfl
    · rw [if_neg hlast, ih (by rw [AtaBus.drive_setDrive]; exact hkind)
        (by rw [AtaBus.drive_setDrive]; exact hwait) (by rw [AtaBus.drive_setDrive]) hlast,
        AtaBus.setDrive_setDrive, AtaBus.drive_setDrive]

/-- The drive stores the words of a sector behind the last one. -/
theorem ataWriteWords_calm {words taken : List UInt16} {lba : ℕ} (hkind : b.drive.kind ≠ .none)
    (hwait : b.drive.wait = 0) (hphase : b.drive.phase = .writing lba taken) (hne : words ≠ [])
    (hlen : (taken ++ words).length = 256) :
    AtaBus.Calm (b.drive.stored lba ⟨taken ++ words, hlen⟩) b (ataWriteWords words b) := by
  induction words generalizing b taken with
  | nil => exact absurd rfl hne
  | cons w words ih =>
    show AtaBus.Calm _ b (ataWriteWords words (b.outw w))
    rw [b.outw_of_attached hkind hwait]
    by_cases hlast : words = []
    · subst hlast
      rw [AtaDrive.putWord_last hphase hlen, ← AtaDrive.store_media]
      exact AtaBus.Calm.setDrive_skip 1 (AtaDrive.store_kind _ _) (AtaDrive.store_bad _ _)
        fun _ hn => (AtaDrive.store_wait _ _).trans_lt (hn.delays 0)
    · have hmore : (taken ++ [w]).length ≠ 256 := by
        have hpos := List.length_pos_iff.mpr hlast
        rw [List.length_append, List.length_cons] at hlen
        rw [List.length_append, List.length_singleton]
        omega
      have happend : taken ++ [w] ++ words = taken ++ w :: words := by
        rw [List.append_assoc, List.singleton_append]
      rw [AtaDrive.putWord_more hphase hmore]
      -- The drive has one word more of the same sector.
      have hword : AtaBus.Calm b.drive.media b ((b.setDrive { b.drive with
          phase := .writing lba (taken ++ [w]) }).skip 1) :=
        AtaBus.Calm.setDrive_skip (d := { b.drive with phase := .writing lba (taken ++ [w]) })
          1 rfl rfl fun _ hn => hn.wait b.selected
      have hdrive := b.drive_setDrive { b.drive with phase := .writing lba (taken ++ [w]) }
      have hrest := hword.trans (ih (hword.kind.trans_ne hkind)
        ((congrArg AtaDrive.wait hdrive).trans hwait) (congrArg AtaDrive.phase hdrive) hlast
        (happend ▸ hlen))
      rw [AtaBus.drive_skip, hdrive] at hrest
      simp only [happend] at hrest
      exact hrest

/-! ## Commands -/

/-- What a disk does when it is told to read or to write a sector. -/
def ataTransfer (d : AtaDrive) (cmd : UInt8) (s : ℕ) : AtaPhase :=
  if cmd = ataCmdReadPio then if d.bad s then .error else .reading (d.media s).val
  else .writing s []

/-- A mask sees of two values with other bits what it sees of each. -/
theorem or_and_mask (a x mask : UInt8) :
    (a ||| (x &&& 0x0F)) &&& mask = (a &&& mask) ||| (x &&& (0x0F &&& mask)) := by
  apply UInt8.toNat_inj.mp
  simp only [UInt8.toNat_and, UInt8.toNat_or]
  rw [Nat.and_or_distrib_right, Nat.and_assoc]

theorem ataDhLba_and_slave (i : Fin 2) (x : UInt8) :
    (ataDhLba i ||| (x &&& 0x0F)) &&& 0x10 = ataDhLba i &&& 0x10 := by
  rw [or_and_mask, (by decide : (0x0F : UInt8) &&& 0x10 = 0), UInt8.and_zero, UInt8.or_zero]

theorem ataDhLba_selects : ∀ i : Fin 2, (if ataDhLba i &&& 0x10 = 0 then (0 : Fin 2) else 1) = i := by
  decide

theorem ataDhLba_and_lba (i : Fin 2) (x : UInt8) :
    (ataDhLba i ||| (x &&& 0x0F)) &&& 0x0F = x &&& 0x0F := by
  have hnone : ataDhLba i &&& 0x0F = 0 := by
    unfold ataDhLba
    split_ifs <;> decide
  rw [or_and_mask, hnone, UInt8.zero_or, UInt8.and_self]

/-- The four bytes of a sector number, of the highest one only its low half. -/
theorem lba_bytes (lba : UInt32) :
    ((lba >>> 24).toUInt8 &&& 0x0F).toNat * 2 ^ 24 + (lba >>> 16).toUInt8.toNat * 2 ^ 16 +
      (lba >>> 8).toUInt8.toNat * 2 ^ 8 + lba.toUInt8.toNat = lba.toNat % 2 ^ 28 := by
  have hhigh : ((lba >>> 24).toUInt8 &&& 0x0F).toNat = lba.toNat / 2 ^ 24 % 2 ^ 8 % 2 ^ 4 := by
    rw [UInt8.toNat_and, UInt32.toNat_toUInt8, UInt32.toNat_shiftRight, Nat.shiftRight_eq_div_pow]
    exact Nat.and_two_pow_sub_one_eq_mod _ 4
  rw [hhigh, UInt32.toNat_toUInt8, UInt32.toNat_toUInt8, UInt32.toNat_toUInt8,
    UInt32.toNat_shiftRight, UInt32.toNat_shiftRight, Nat.shiftRight_eq_div_pow,
    Nat.shiftRight_eq_div_pow]
  show lba.toNat / 2 ^ 24 % 2 ^ 8 % 2 ^ 4 * 2 ^ 24 + lba.toNat / 2 ^ 16 % 2 ^ 8 * 2 ^ 16 +
    lba.toNat / 2 ^ 8 % 2 ^ 8 * 2 ^ 8 + lba.toNat % 2 ^ 8 = lba.toNat % 2 ^ 28
  omega

/-- The registers have the sector number in 28 bits. -/
theorem ataSetup_eq {i : Fin 2} {identity : AtaSector} (hkind : (b.drives i).kind = .disk identity)
    (hwait : (b.drives i).wait = 0) (lba : UInt32) {cmd : UInt8}
    (hcmd : cmd = ataCmdReadPio ∨ cmd = ataCmdWritePio) :
    ∃ b₁ : AtaBus, b₁.selected = i ∧ b₁.drives = b.drives ∧ b₁.delays = b.delays ∧
      ataSetup i lba cmd b = b₁.start (ataTransfer (b.drives i) cmd (lba.toNat % 2 ^ 28)) := by
  obtain ⟨b₁, hb₁⟩ : ∃ b₁ : AtaBus, b₁ = { b with
    driveHead := ataDhLba i ||| ((lba >>> 24).toUInt8 &&& 0x0F)
    sectCnt := 1
    lbaLo := lba.toUInt8
    lbaMid := (lba >>> 8).toUInt8
    lbaHi := (lba >>> 16).toUInt8 } := ⟨_, rfl⟩
  have hselected : b₁.selected = i := by
    rw [hb₁]
    unfold AtaBus.selected
    dsimp only
    rw [ataDhLba_and_slave]
    exact ataDhLba_selects i
  have hlba : b₁.lba = lba.toNat % 2 ^ 28 := by
    rw [hb₁]
    unfold AtaBus.lba
    dsimp only
    rw [ataDhLba_and_lba]
    exact lba_bytes lba
  have hdrives : b₁.drives = b.drives := by rw [hb₁]
  have hdelays : b₁.delays = b.delays := by rw [hb₁]
  have hsect : b₁.sectCnt = 1 := by rw [hb₁]
  have hdrive : b₁.drive = b.drives i := by
    unfold AtaBus.drive
    rw [hselected, hdrives]
  refine ⟨b₁, hselected, hdrives, hdelays, ?_⟩
  have hrun : ataSetup i lba cmd b = b₁.run cmd := by rw [hb₁]; rfl
  have hdisk : b₁.run cmd = b₁.runDisk identity cmd := by
    unfold AtaBus.run
    rw [hdrive, hwait, if_neg (lt_irrefl 0), hkind]
  rw [hrun, hdisk]
  unfold AtaBus.runDisk ataTransfer
  rw [hsect, hlba, hdrive]
  rcases hcmd with rfl | rfl
  · rw [if_pos rfl, if_pos rfl]
    cases (b.drives i).bad (lba.toNat % 2 ^ 28) <;> rfl
  · rfl

/-! ## Transfers -/

/-- The drives that the driver uses are disks, and the one that is not selected is not busy. -/
structure Ata.Attends (a : Ata) (b : AtaBus) : Prop where
  disk : ∀ i, (a.drives i).present = true → ∃ identity, (b.drives i).kind = .disk identity
  ready : ∀ i, (a.drives i).present = true → i ≠ b.selected → (b.drives i).wait = 0

/-- What a transfer does not change. -/
structure Ata.Serves (a : Ata) (b b' : AtaBus) : Prop where
  attends : a.Attends b'
  kind : ∀ i, (b'.drives i).kind = (b.drives i).kind
  bad : ∀ i, (b'.drives i).bad = (b.drives i).bad
  prompt : ∀ n, b.Prompt n → b'.Prompt n
  answers : b.Answers → b'.Answers

/-- The sector of a request that is in the bounds of its drive. -/
def Ata.sectorOf (a : Ata) (idx : ℤ) (lba : UInt32) : Option (Fin 2 × ℕ) :=
  (ataDriveOf idx).bind fun i =>
    if (a.drives i).present = true ∧ lba < (a.drives i).sectors then some (i, lba.toNat % 2 ^ 28)
    else none

variable {a : Ata} {idx : ℤ} {lba : UInt32} {cmd : UInt8} {m : ℕ → AtaSector}

namespace Ata

theorem Attends.calm (h : a.Attends b) (hc : AtaBus.Calm m b b') : a.Attends b' where
  disk i hi := by
    rw [hc.drives_kind]
    exact h.disk i hi
  ready i hi hne := by
    rw [hc.selected] at hne
    rw [hc.others i hne]
    exact h.ready i hi hne

theorem Attends.serves (h : a.Attends b) (hc : AtaBus.Calm m b b') : a.Serves b b' where
  attends := h.calm hc
  kind := hc.drives_kind
  bad := hc.drives_bad
  prompt := hc.prompt
  answers hb := hb.imp (fun hkind => hc.kind.trans_ne hkind) fun hsel => hc.selected.trans hsel

theorem Serves.refl (h : a.Attends b) : a.Serves b b :=
  ⟨h, fun _ => rfl, fun _ => rfl, fun _ hn => hn, id⟩

theorem Serves.trans {b'' : AtaBus} (h : a.Serves b b') (h' : a.Serves b' b'') : a.Serves b b'' where
  attends := h'.attends
  kind i := (h'.kind i).trans (h.kind i)
  bad i := (h'.bad i).trans (h.bad i)
  prompt n hn := h'.prompt n (h.prompt n hn)
  answers hb := h'.answers (h.answers hb)

/-- A disk of the driver is there. -/
theorem Attends.kind_ne (h : a.Attends b) {i : Fin 2} (hi : (a.drives i).present = true) :
    (b.drives i).kind ≠ .none := by
  obtain ⟨identity, hkind⟩ := h.disk i hi
  rw [hkind]
  exact AtaKind.noConfusion

/-- When `ata_wait_ready` succeeds, no disk of the driver is busy. -/
theorem Attends.settled (h : a.Attends b) (hready : (ataWaitReady n b).1 = true) {i : Fin 2}
    (hi : (a.drives i).present = true) : ((ataWaitReady n b).2.drives i).wait = 0 := by
  by_cases hsel : i = b.selected
  · have hkind : b.drive.kind ≠ .none := by
      have hkind := h.kind_ne hi
      rw [hsel] at hkind
      exact hkind
    obtain ⟨k, hk⟩ := ataWaitReady_pass n b
    have hidle := ataWaitReady_idle hkind hready
    rw [hk] at hidle ⊢
    rw [hsel]
    exact hidle
  · obtain ⟨k, hk⟩ := ataWaitReady_pass n b
    rw [hk, (AtaBus.Calm.pass k b).others i hsel]
    exact h.ready i hi hsel

end Ata

/-- A drive that is there and soon ready is waited for, and so is one that the first drive answers
for. -/
theorem ataWaitReady_true (hn : b.Prompt n) (ha : b.Answers) {i : Fin 2}
    (hi : (b.drives i).kind ≠ .none) : (ataWaitReady n b).1 = true := by
  by_cases hkind : b.drive.kind = .none
  · -- The second drive is selected and missing, so the first one is there.
    have hsel : b.selected = 1 := ha.resolve_left fun h => h hkind
    have hfirst : (b.drives 0).kind ≠ .none := by
      have hne : i ≠ 1 := by
        rintro rfl
        rw [← hsel] at hi
        exact hi hkind
      rwa [show i = 0 by omega] at hi
    obtain ⟨n, rfl⟩ : ∃ k, n = k + 1 := ⟨n - 1, by have := hn.delays 0; omega⟩
    show (if b.status &&& 0x80 = 0 then (true, b.pass 1) else ataWaitReady n (b.pass 1)).1 = true
    rw [b.status_of_missing hkind hfirst, if_pos (by decide)]
  · rw [ataWaitReady_eq n hkind]
    exact decide_eq_true (hn.wait b.selected)

/-- The drive asks for the data of a transfer. -/
structure AtaAsksFor (d : AtaDrive) (cmd : UInt8) (i : Fin 2) (s : ℕ) (b : AtaBus) : Prop where
  selected : b.selected = i
  kind : b.drive.kind ≠ .none
  wait : b.drive.wait = 0
  phase : b.drive.phase = ataTransfer d cmd s
  status : (ataTransfer d cmd s).status = 0x48

theorem ataTransfer_congr {d d' : AtaDrive} (hbad : d.bad = d'.bad) (hmedia : d.media = d'.media)
    (cmd : UInt8) (s : ℕ) : ataTransfer d cmd s = ataTransfer d' cmd s := by
  unfold ataTransfer
  rw [hbad, hmedia]

theorem ataBegin_of_none (hs : a.sectorOf idx lba = none) (cmd : UInt8) (b : AtaBus) :
    ataBegin a idx lba cmd b = (false, b) := by
  unfold Ata.sectorOf at hs
  unfold ataBegin
  cases hidx : ataDriveOf idx with
  | none => rfl
  | some i =>
    rw [hidx, Option.bind_some] at hs
    dsimp only
    by_cases hpresent : (a.drives i).present = false
    · rw [if_pos hpresent]
    · have hsectors : (a.drives i).sectors ≤ lba := by
        by_contra hlt
        rw [if_pos ⟨Bool.eq_true_of_not_eq_false hpresent, UInt32.not_le.mp hlt⟩] at hs
        cases hs
      rw [if_neg hpresent, if_pos hsectors]

theorem ataBegin_of_some {i : Fin 2} {s : ℕ} (hs : a.sectorOf idx lba = some (i, s)) (cmd : UInt8)
    (b : AtaBus) : (a.drives i).present = true ∧ s = lba.toNat % 2 ^ 28 ∧
      ataBegin a idx lba cmd b = if (ataWaitReady ataTimeout b).1 = false then
        (false, (ataWaitReady ataTimeout b).2)
      else ataWaitDrq ataTimeout (ataSetup i lba cmd (ataWaitReady ataTimeout b).2) := by
  unfold Ata.sectorOf at hs
  unfold ataBegin
  cases hidx : ataDriveOf idx with
  | none =>
    rw [hidx] at hs
    cases hs
  | some j =>
    rw [hidx, Option.bind_some] at hs
    split_ifs at hs with hvalid
    cases hs
    have hpresent : ¬ (a.drives i).present = false := by
      rw [hvalid.1]
      exact Bool.noConfusion
    dsimp only
    rw [if_neg hpresent, if_neg (UInt32.not_le.mpr hvalid.2)]
    exact ⟨hvalid.1, rfl, rfl⟩

/-- **A transfer begins** when its sector is in bounds and the drives are soon ready; before that
nothing has happened but that time has passed. -/
theorem ataBegin_spec (h : a.Attends b) (idx : ℤ) (lba : UInt32)
    (hcmd : cmd = ataCmdReadPio ∨ cmd = ataCmdWritePio) :
    a.Serves b (ataBegin a idx lba cmd b).2 ∧ (ataBegin a idx lba cmd b).2.media = b.media ∧
    ((ataBegin a idx lba cmd b).1 = true → ∃ i s, a.sectorOf idx lba = some (i, s) ∧
      AtaAsksFor (b.drives i) cmd i s (ataBegin a idx lba cmd b).2) ∧
    (b.Prompt ataTimeout → b.Answers → ∀ i s, a.sectorOf idx lba = some (i, s) →
      (ataTransfer (b.drives i) cmd s).status = 0x48 → (ataBegin a idx lba cmd b).1 = true) := by
  rcases hs : a.sectorOf idx lba with _ | ⟨i, s⟩
  · rw [ataBegin_of_none hs]
    exact ⟨.refl h, rfl, fun hf => absurd hf Bool.false_ne_true, fun _ _ i s hs => by cases hs⟩
  · obtain ⟨hpresent, rfl, hbegin⟩ := ataBegin_of_some hs cmd b
    obtain ⟨k, hk⟩ := ataWaitReady_pass ataTimeout b
    have hpass : AtaBus.Calm b.drive.media b (ataWaitReady ataTimeout b).2 := hk ▸ .pass k b
    rw [hbegin]
    by_cases hready : (ataWaitReady ataTimeout b).1 = false
    · rw [if_pos hready]
      refine ⟨h.serves hpass, hpass.media_eq, fun hf => absurd hf Bool.false_ne_true,
        fun hprompt hanswers i s hs _ => ?_⟩
      cases hs
      rw [ataWaitReady_true hprompt hanswers (h.kind_ne hpresent)] at hready
      exact hready.symm
    · have hready' : (ataWaitReady ataTimeout b).1 = true := Bool.eq_true_of_not_eq_false hready
      rw [if_neg hready]
      obtain ⟨b₀, hb₀⟩ : ∃ b₀, b₀ = (ataWaitReady ataTimeout b).2 := ⟨_, rfl⟩
      rw [← hb₀] at hpass ⊢
      have hserves := h.serves hpass
      have hsettled : ∀ j, (a.drives j).present = true → (b₀.drives j).wait = 0 :=
        fun j hj => hb₀ ▸ h.settled hready' hj
      obtain ⟨identity, hidentity⟩ := hserves.attends.disk i hpresent
      obtain ⟨b₁, hsel, hdrives, hdelays, hsetup⟩ :=
        ataSetup_eq hidentity (hsettled i hpresent) lba hcmd
      -- The registers are written, so another drive may be selected.
      have hdrive : b₁.drive = b₀.drives i := by
        unfold AtaBus.drive
        rw [hsel, hdrives]
      have hkind : b₁.drive.kind ≠ .none := hdrive ▸ hserves.attends.kind_ne hpresent
      have hregisters : a.Serves b₀ b₁ := by
        refine ⟨⟨?_, ?_⟩, ?_, ?_, ?_, fun _ => Or.inl hkind⟩
        · rw [hdrives]
          exact hserves.attends.disk
        · intro j hj _
          rw [hdrives]
          exact hsettled j hj
        · rw [hdrives]
          exact fun _ => rfl
        · rw [hdrives]
          exact fun _ => rfl
        · intro n hn
          exact ⟨hdrives ▸ hn.wait, hdelays ▸ hn.delays⟩
      have hphase : ataTransfer (b₀.drives i) cmd (lba.toNat % 2 ^ 28) =
          ataTransfer (b.drives i) cmd (lba.toNat % 2 ^ 28) :=
        ataTransfer_congr (hpass.drives_bad i) (congrFun hpass.media_eq i) cmd _
      rw [hsetup, hphase]
      obtain ⟨phase, hp⟩ : ∃ phase, phase = ataTransfer (b.drives i) cmd (lba.toNat % 2 ^ 28) :=
        ⟨_, rfl⟩
      rw [← hp]
      -- The command makes the drive busy, and then it may ask for the data.
      have hstart : AtaBus.Calm b₁.drive.media b₁ (b₁.start phase) := .start phase b₁
      have hbusy := b₁.drive_start phase
      have hkind₂ : (b₁.start phase).drive.kind ≠ .none := hstart.kind.trans_ne hkind
      obtain ⟨j, hj⟩ := ataWaitDrq_pass ataTimeout (b₁.start phase)
      have hdrq : AtaBus.Calm b₁.drive.media b₁ (ataWaitDrq ataTimeout (b₁.start phase)).2 := by
        rw [hj]
        exact hstart.snoc (.pass j _)
      have hmedia : b₁.media = b.media := by
        rw [← hpass.media_eq]
        funext j
        exact congrArg (fun drives => (drives j).media) hdrives
      have hphase₂ : (b₁.start phase).drive.phase = phase := by
        rw [hbusy]
        rfl
      have hstatus₂ : (b₁.start phase).drive.phase.status = phase.status := by rw [hphase₂]
      refine ⟨hserves.trans (hregisters.trans (hregisters.attends.serves hdrq)),
        hdrq.media_eq.trans hmedia, fun htrue => ?_, fun hprompt _ i' s' hs' hstatus => ?_⟩
      · by_cases hstatus : phase.status = 0x48
        · rw [ataWaitDrq_eq _ hkind₂ (hstatus₂.trans hstatus)] at htrue hdrq ⊢
          have hlt := of_decide_eq_true htrue
          refine ⟨i, _, rfl, hdrq.selected.trans hsel, hdrq.kind.trans_ne hkind, ?_, ?_, ?_⟩
          · rw [AtaBus.drive_pass]
            dsimp only
            omega
          · rw [AtaBus.drive_pass, ← hp]
            exact hphase₂
          · rw [← hp]
            exact hstatus
        · rw [ataWaitDrq_false _ hkind₂ (hstatus₂.trans_ne hstatus)] at htrue
          cases htrue
      · cases hs'
        rw [← hp] at hstatus
        rw [ataWaitDrq_eq _ hkind₂ (hstatus₂.trans hstatus)]
        have hprompt₂ := hstart.prompt _ (hregisters.prompt _ (hserves.prompt _ hprompt))
        exact decide_eq_true (hprompt₂.wait _)

theorem ataTransfer_read {d : AtaDrive} {s : ℕ} :
    (ataTransfer d ataCmdReadPio s).status = 0x48 ↔ d.bad s = false := by
  unfold ataTransfer
  rw [if_pos rfl]
  cases d.bad s
  · exact ⟨fun _ => rfl, fun _ => rfl⟩
  · exact ⟨fun h => absurd h (by decide : ¬ (0x41 : UInt8) = 0x48), fun h => Bool.noConfusion h⟩

/-- **`ata_read_sector_drv`** reads the sector or nothing. -/
theorem ataReadSectorDrv_spec (h : a.Attends b) (idx : ℤ) (lba : UInt32) :
    a.Serves b (ataReadSectorDrv a idx lba b).2 ∧ (ataReadSectorDrv a idx lba b).2.media = b.media ∧
    (∀ words, (ataReadSectorDrv a idx lba b).1 = some words → ∃ i s,
      a.sectorOf idx lba = some (i, s) ∧ (b.drives i).bad s = false ∧ words = (b.media i s).val) ∧
    (b.Prompt ataTimeout → b.Answers → ∀ i s, a.sectorOf idx lba = some (i, s) →
      (b.drives i).bad s = false → (ataReadSectorDrv a idx lba b).1.isSome = true) := by
  obtain ⟨hserves, hmedia, htrue, hprompt⟩ :=
    ataBegin_spec h idx lba
      (Or.inl rfl : ataCmdReadPio = ataCmdReadPio ∨ ataCmdReadPio = ataCmdWritePio)
  unfold ataReadSectorDrv
  dsimp only
  by_cases hbegin : (ataBegin a idx lba ataCmdReadPio b).1 = false
  · rw [if_pos hbegin]
    refine ⟨hserves, hmedia, fun words hw => absurd hw.symm (Option.some_ne_none words), fun hp ha i s hs hbad => ?_⟩
    rw [hprompt hp ha i s hs (ataTransfer_read.mpr hbad)] at hbegin
    cases hbegin
  · rw [if_neg hbegin]
    obtain ⟨i, s, hs, hasks⟩ := htrue (Bool.eq_true_of_not_eq_false hbegin)
    obtain ⟨b₁, hb₁⟩ : ∃ b₁, b₁ = (ataBegin a idx lba ataCmdReadPio b).2 := ⟨_, rfl⟩
    rw [← hb₁] at hserves hmedia hasks ⊢
    have hbad := ataTransfer_read.mp hasks.status
    have hphase : b₁.drive.phase = .reading (b.media i s).val := by
      rw [hasks.phase]
      unfold ataTransfer
      rw [if_pos rfl, hbad]
      rfl
    have hlen := (b.media i s).property
    have hwords := ataReadWords_eq hasks.kind hasks.wait hphase (List.ne_nil_of_length_pos (by omega))
    rw [hlen] at hwords
    have hcalm : AtaBus.Calm b₁.drive.media b₁
        (ata400nsDelay (b₁.setDrive { b₁.drive with phase := .idle })) := by
      rw [ata400nsDelay_eq]
      exact (AtaBus.Calm.setDrive_skip (d := { b₁.drive with phase := .idle }) 0 rfl rfl
        fun _ hn => hn.wait b₁.selected).snoc (.pass 4 _)
    generalize ataReadWords 256 b₁ = r at hwords ⊢
    subst hwords
    refine ⟨hserves.trans (hserves.attends.serves hcalm), hcalm.media_eq.trans hmedia,
      fun words hw => ⟨i, s, hs, hbad, ?_⟩, fun _ _ _ _ _ _ => rfl⟩
    cases hw
    rfl

/-- **`ata_write_sector_drv`** writes the sector or nothing; it does not see that a sector is bad. -/
theorem ataWriteSectorDrv_spec (h : a.Attends b) (idx : ℤ) (lba : UInt32) (buffer : AtaSector) :
    a.Serves b (ataWriteSectorDrv a idx lba buffer b).2 ∧
    ((ataWriteSectorDrv a idx lba buffer b).1 = false →
      (ataWriteSectorDrv a idx lba buffer b).2.media = b.media) ∧
    ((ataWriteSectorDrv a idx lba buffer b).1 = true → ∃ i s, a.sectorOf idx lba = some (i, s) ∧
      (ataWriteSectorDrv a idx lba buffer b).2.media =
        Function.update b.media i ((b.drives i).stored s buffer)) ∧
    (b.Prompt ataTimeout → b.Answers → ∀ i s, a.sectorOf idx lba = some (i, s) →
      (ataWriteSectorDrv a idx lba buffer b).1 = true) := by
  obtain ⟨hserves, hmedia, htrue, hprompt⟩ :=
    ataBegin_spec h idx lba
      (Or.inr rfl : ataCmdWritePio = ataCmdReadPio ∨ ataCmdWritePio = ataCmdWritePio)
  unfold ataWriteSectorDrv
  dsimp only
  by_cases hbegin : (ataBegin a idx lba ataCmdWritePio b).1 = false
  · rw [if_pos hbegin]
    refine ⟨hserves, fun _ => hmedia, fun hf => absurd hf Bool.false_ne_true,
      fun hp ha i s hs => ?_⟩
    rw [hprompt hp ha i s hs rfl] at hbegin
    cases hbegin
  · rw [if_neg hbegin]
    obtain ⟨i, s, hs, hasks⟩ := htrue (Bool.eq_true_of_not_eq_false hbegin)
    obtain ⟨b₁, hb₁⟩ : ∃ b₁, b₁ = (ataBegin a idx lba ataCmdWritePio b).2 := ⟨_, rfl⟩
    rw [← hb₁] at hserves hmedia hasks ⊢
    have hphase : b₁.drive.phase = .writing s [] := hasks.phase
    have hlen := buffer.property
    have hstored : b₁.drive.stored s buffer = (b.drives i).stored s buffer := by
      have hbad : b₁.drive.bad = (b.drives i).bad := by
        rw [← hserves.bad i, ← hasks.selected]
        rfl
      have hsectors : b₁.drive.media = (b.drives i).media := by
        rw [← hasks.selected]
        exact congrFun hmedia b₁.selected
      unfold AtaDrive.stored
      rw [hbad, hsectors]
    have hwords := ataWriteWords_calm hasks.kind hasks.wait hphase
      (List.ne_nil_of_length_pos (by omega) : buffer.val ≠ []) hlen
    obtain ⟨k, hk⟩ := ataWaitReady_pass ataTimeout
      ((ata400nsDelay (ataWriteWords buffer.val b₁)).outb .command ataCmdFlush)
    have hcalm : AtaBus.Calm ((b.drives i).stored s buffer) b₁ (ataWaitReady ataTimeout
        ((ata400nsDelay (ataWriteWords buffer.val b₁)).outb .command ataCmdFlush)).2 := by
      rw [hk, ata400nsDelay_eq, ← hstored]
      exact ((hwords.snoc (.pass 4 _)).snoc (.run ataCmdFlush _)).snoc (.pass k _)
    refine ⟨hserves.trans (hserves.attends.serves hcalm), fun hf => absurd hf.symm Bool.false_ne_true,
      fun _ => ⟨i, s, hs, ?_⟩, fun _ _ _ _ _ => rfl⟩
    rw [hcalm.media_update, hmedia, hasks.selected]

/-! ## Detection -/

/-- The drives as they are found. -/
def AtaInfo.found (i : Fin 2) : AtaKind → AtaInfo
  | .disk identity => AtaInfo.ofIdentity i identity.val
  | _ => AtaInfo.zero i

/-- The bus when another drive is selected. -/
def ataSelect (i : Fin 2) (b : AtaBus) : AtaBus := b.outb .driveHead (ataDh i)

theorem ataDh_selects : ∀ i : Fin 2, (if ataDh i &&& 0x10 = 0 then (0 : Fin 2) else 1) = i := by
  decide

theorem selected_ataSelect (i : Fin 2) (b : AtaBus) : (ataSelect i b).selected = i := ataDh_selects i

theorem drive_ataSelect (i : Fin 2) (b : AtaBus) : (ataSelect i b).drive = b.drives i := by
  show b.drives (ataSelect i b).selected = b.drives i
  rw [selected_ataSelect]

/-- The command goes to the drive that is selected. -/
theorem ataAskIdentity_eq (i : Fin 2) (b : AtaBus) : ∃ b₁ : AtaBus,
    b₁.selected = i ∧ b₁.drives = b.drives ∧ b₁.delays = b.delays ∧ b₁.floating = b.floating ∧
      b₁.lbaMid = 0 ∧ b₁.lbaHi = 0 ∧ ataAskIdentity i b = b₁.run ataCmdIdentify :=
  ⟨{ b with driveHead := ataDh i, sectCnt := 0, lbaLo := 0, lbaMid := 0, lbaHi := 0 },
    ataDh_selects i, rfl, rfl, rfl, rfl, rfl, rfl⟩

theorem ataReadWords_calm (n : ℕ) (b : AtaBus) :
    AtaBus.Calm b.drive.media b (ataReadWords n b).2 := by
  induction n generalizing b with
  | zero => exact .refl b
  | succ n ih => exact (AtaBus.Calm.inw b).snoc (ih b.inw.2)

theorem ataWaitReady_calm (n : ℕ) (b : AtaBus) :
    AtaBus.Calm b.drive.media b (ataWaitReady n b).2 := by
  obtain ⟨k, hk⟩ := ataWaitReady_pass n b
  rw [hk]
  exact .pass k b

theorem ataWaitDrq_calm (n : ℕ) (b : AtaBus) : AtaBus.Calm b.drive.media b (ataWaitDrq n b).2 := by
  obtain ⟨k, hk⟩ := ataWaitDrq_pass n b
  rw [hk]
  exact .pass k b

theorem ataIdentifyAnswer_calm (i : Fin 2) (b : AtaBus) :
    AtaBus.Calm b.drive.media b (ataIdentifyAnswer i b).2 := by
  have hstatus : AtaBus.Calm b.drive.media b (b.inb .command).2 := .pass 1 b
  have hready := hstatus.snoc (ataWaitReady_calm ataTimeout (b.inb .command).2)
  have hdrq := hready.snoc (ataWaitDrq_calm ataTimeout _)
  have hwords := hdrq.snoc (ataReadWords_calm 256 _)
  unfold ataIdentifyAnswer
  dsimp only
  split_ifs
  · exact hstatus
  · exact hready
  · exact hready
  · exact hdrq
  · dsimp only
    exact hwords

/-- What is no disk is not taken for one: the status or the registers show it. -/
theorem ataIdentifyAnswer_zero (i : Fin 2) (h : b.status = 0 ∨ b.answer b.lbaMid ≠ 0) :
    (ataIdentifyAnswer i b).1 = AtaInfo.zero i := by
  unfold ataIdentifyAnswer
  dsimp only
  by_cases hstatus : (b.inb .command).1 = 0
  · rw [if_pos hstatus]
  · have hmid : b.answer b.lbaMid ≠ 0 := h.resolve_left hstatus
    obtain ⟨k, hk⟩ := ataWaitReady_pass ataTimeout (b.inb .command).2
    have hpass : (ataWaitReady ataTimeout (b.inb .command).2).2 = b.pass (1 + k) :=
      hk.trans (AtaBus.pass_pass 1 k)
    have hread : ((b.pass (1 + k)).inb .lbaMid).1 ≠ 0 := by
      show (b.pass (1 + k)).answer b.lbaMid ≠ 0
      rw [AtaBus.answer_pass]
      exact hmid
    rw [if_neg hstatus, hpass, if_pos (Or.inl hread)]
    split_ifs <;> rfl

/-- A disk answers with its identification, if that is soon enough. -/
theorem ataIdentifyAnswer_disk (i : Fin 2) {identity : AtaSector} (hkind : b.drive.kind ≠ .none)
    (hphase : b.drive.phase = .reading identity.val) (hmid : b.lbaMid = 0) (hhi : b.lbaHi = 0) :
    ((ataIdentifyAnswer i b).1 = AtaInfo.zero i ∨
      (ataIdentifyAnswer i b).1 = AtaInfo.ofIdentity i identity.val ∧
        (ataIdentifyAnswer i b).2.drive.wait = 0) ∧
    (b.Prompt ataTimeout → (ataIdentifyAnswer i b).1 = AtaInfo.ofIdentity i identity.val) := by
  have hstatus : (b.inb .command).1 ≠ 0 := fun hzero => b.status_ne hkind (Or.inl hzero)
  -- The drive after `k` reads of its status.
  have hkind' : ∀ k, (b.pass k).drive.kind ≠ .none := fun k => by rwa [AtaBus.drive_pass]
  have hphase' : ∀ k, (b.pass k).drive.phase = .reading identity.val :=
    fun k => by rwa [AtaBus.drive_pass]
  have hready := ataWaitReady_eq ataTimeout (hkind' 1)
  unfold ataIdentifyAnswer
  dsimp only
  rw [if_neg hstatus, show (b.inb .command).2 = b.pass 1 from rfl, hready]
  dsimp only
  by_cases hlt : (b.pass 1).drive.wait < ataTimeout
  · have hregs : ∀ k, ¬ (((b.pass k).inb .lbaMid).1 ≠ 0 ∨ ((b.pass k).inb .lbaHi).1 ≠ 0) := by
      intro k
      show ¬ ((b.pass k).answer b.lbaMid ≠ 0 ∨ (b.pass k).answer b.lbaHi ≠ 0)
      rw [AtaBus.answer_pass, AtaBus.answer_pass, b.answer_of_attached hkind,
        b.answer_of_attached hkind, hmid, hhi]
      exact fun h => h.elim (fun h => h rfl) fun h => h rfl
    have hstatus' : ∀ k, (b.pass k).drive.phase.status = 0x48 := fun k => by
      rw [hphase']
      rfl
    have hidle : ∀ k, b.drive.wait ≤ k → (b.pass k).drive.wait = 0 := by
      intro k hk
      rw [AtaBus.drive_pass]
      exact Nat.sub_eq_zero_of_le hk
    rw [AtaBus.drive_pass] at hlt ⊢
    dsimp only at hlt ⊢
    have htrue : ¬ true = false := Bool.noConfusion
    rw [decide_eq_true hlt, AtaBus.pass_pass, if_neg htrue, if_neg (hregs _)]
    obtain ⟨k, hk⟩ : ∃ k, k = 1 + min ataTimeout (b.drive.wait - 1 + 1) := ⟨_, rfl⟩
    have hzero := hidle k (by omega)
    have hdrq := ataWaitDrq_eq ataTimeout (hkind' k) (hstatus' k)
    rw [hzero, decide_eq_true (Nat.zero_lt_of_lt hlt), AtaBus.pass_pass] at hdrq
    have hlen := identity.property
    have hwords := ataReadWords_eq (hkind' (k + min ataTimeout (0 + 1)))
      (hidle _ (by omega)) (hphase' _) (List.ne_nil_of_length_pos (by omega))
    rw [hlen] at hwords
    rw [← hk, hdrq]
    dsimp only
    rw [if_neg htrue, hwords]
    have hwait : ((b.pass (k + min ataTimeout (0 + 1))).setDrive
        { (b.pass (k + min ataTimeout (0 + 1))).drive with phase := .idle }).drive.wait = 0 := by
      rw [AtaBus.drive_setDrive]
      exact hidle _ (by omega)
    exact ⟨Or.inr ⟨rfl, hwait⟩, fun _ => rfl⟩
  · rw [decide_eq_false hlt, if_pos rfl]
    refine ⟨Or.inl rfl, fun hprompt => absurd ?_ hlt⟩
    exact ((AtaBus.Calm.pass 1 b).prompt _ hprompt).wait _

/-- The command to identify reaches the drive that is selected and keeps the sectors. -/
theorem ataAskIdentity_calm {i : Fin 2} (hsel : b.selected = i) :
    AtaBus.Calm b.drive.media b (ataAskIdentity i b) := by
  obtain ⟨b₁, hsel₁, hdrives, hdelays, -, -, -, hrun⟩ := ataAskIdentity_eq i b
  have hsame : b₁.selected = b.selected := hsel₁.trans hsel.symm
  have hdrive : b₁.drive = b.drive := by
    unfold AtaBus.drive
    rw [hdrives, hsame]
  have hregisters : AtaBus.Calm b.drive.media b b₁ :=
    ⟨hsame, fun j _ => congrFun hdrives j, congrArg _ hdrive, congrArg _ hdrive, congrArg _ hdrive,
      fun n hn => ⟨hdrives ▸ hn.wait, hdelays ▸ hn.delays⟩⟩
  rw [hrun]
  exact hregisters.snoc (.run ataCmdIdentify b₁)

theorem ataIdentifyDrive_calm (i : Fin 2) (b : AtaBus) :
    AtaBus.Calm (b.media i) (ataSelect i b) (ataIdentifyDrive i b).2 := by
  have hselect : AtaBus.Calm (b.media i) (ataSelect i b) (ataSelect i b) := by
    have hrefl := AtaBus.Calm.refl (ataSelect i b)
    rw [drive_ataSelect] at hrefl
    exact hrefl
  have hdelay : AtaBus.Calm (b.media i) (ataSelect i b) (ata400nsDelay (ataSelect i b)) := by
    rw [ata400nsDelay_eq]
    exact hselect.snoc (.pass 4 _)
  have hready := hdelay.snoc (ataWaitReady_calm ataTimeout _)
  have hstatus := hready.snoc (.pass 1 _)
  have hask := hstatus.snoc (ataAskIdentity_calm (hstatus.selected.trans (selected_ataSelect i b)))
  have hdelay₂ := hask.snoc (.pass 4 _)
  rw [← ata400nsDelay_eq] at hdelay₂
  have hanswer := hdelay₂.snoc (ataIdentifyAnswer_calm i _)
  unfold ataIdentifyDrive
  dsimp only
  split_ifs
  · exact hready
  · exact hstatus
  · exact hanswer

/-- A packet device that is asked shows its signature. -/
theorem ataAskIdentity_packet {i : Fin 2} (hsel : b.selected = i) (hwait : b.drive.wait = 0)
    (hkind : b.drive.kind = .packet) : (ataAskIdentity i b).lbaMid = 0x14 := by
  obtain ⟨b₁, hsel₁, hdrives, -, -, -, -, hrun⟩ := ataAskIdentity_eq i b
  have hdrive : b₁.drive = b.drive := by
    unfold AtaBus.drive
    rw [hdrives, hsel₁, hsel]
  rw [hrun]
  unfold AtaBus.run AtaBus.runPacket
  rw [hdrive, hwait, if_neg (lt_irrefl 0), hkind]
  rfl

/-- A disk that is asked gets its identification ready. -/
theorem ataAskIdentity_disk {i : Fin 2} {identity : AtaSector} (hsel : b.selected = i)
    (hwait : b.drive.wait = 0) (hkind : b.drive.kind = .disk identity) :
    (ataAskIdentity i b).drive.phase = .reading identity.val ∧ (ataAskIdentity i b).lbaMid = 0 ∧
      (ataAskIdentity i b).lbaHi = 0 := by
  obtain ⟨b₁, hsel₁, hdrives, -, -, hmid, hhi, hrun⟩ := ataAskIdentity_eq i b
  have hdrive : b₁.drive = b.drive := by
    unfold AtaBus.drive
    rw [hdrives, hsel₁, hsel]
  have hstart : ataAskIdentity i b = b₁.start (.reading identity.val) := by
    rw [hrun]
    unfold AtaBus.run AtaBus.runDisk
    rw [hdrive, hwait, if_neg (lt_irrefl 0), hkind]
    rfl
  rw [hstart, AtaBus.drive_start]
  exact ⟨rfl, hmid, hhi⟩

/-- **`ata_identify_drive`** takes nothing for a disk that is none, and finds every disk that answers
in time. -/
theorem ataIdentifyDrive_found (i : Fin 2) (b : AtaBus) :
    ((ataIdentifyDrive i b).1 = AtaInfo.zero i ∨ ∃ identity,
      (b.drives i).kind = .disk identity ∧
        (ataIdentifyDrive i b).1 = AtaInfo.ofIdentity i identity.val ∧
        (ataIdentifyDrive i b).2.drive.wait = 0) ∧
    (b.Prompt ataTimeout → (ataIdentifyDrive i b).1 = AtaInfo.found i (b.drives i).kind) := by
  obtain ⟨b₀, hb₀⟩ : ∃ b₀, b₀ = ata400nsDelay (ataSelect i b) := ⟨_, rfl⟩
  have hdelay : AtaBus.Calm (ataSelect i b).drive.media (ataSelect i b) b₀ := by
    rw [hb₀, ata400nsDelay_eq]
    exact .pass 4 _
  have hready := hdelay.snoc (ataWaitReady_calm ataTimeout b₀)
  have hkind₀ : b₀.drive.kind = (b.drives i).kind := by
    rw [hdelay.kind, drive_ataSelect]
  unfold ataIdentifyDrive
  rw [show b.outb .driveHead (ataDh i) = ataSelect i b from rfl, ← hb₀]
  dsimp only
  obtain ⟨b₁, hb₁⟩ : ∃ b₁, b₁ = (ataWaitReady ataTimeout b₀).2 := ⟨_, rfl⟩
  rw [← hb₁] at hready ⊢
  have hkind₁ : b₁.drive.kind = (b.drives i).kind := by
    rw [hready.kind, drive_ataSelect]
  have hfound : (∀ identity, (b.drives i).kind ≠ .disk identity) →
      AtaInfo.found i (b.drives i).kind = AtaInfo.zero i := by
    intro hno
    unfold AtaInfo.found
    split
    next identity hdisk => exact absurd hdisk (hno identity)
    next => rfl
  by_cases hwaited : (ataWaitReady ataTimeout b₀).1 = false
  · rw [if_pos hwaited]
    refine ⟨Or.inl rfl, fun hprompt => (hfound fun identity hdisk => ?_).symm⟩
    have hattached : b₀.drive.kind ≠ .none := by
      rw [hkind₀, hdisk]
      exact AtaKind.noConfusion
    rw [ataWaitReady_eq _ hattached] at hwaited
    have hselect : (ataSelect i b).Prompt ataTimeout := ⟨hprompt.wait, hprompt.delays⟩
    exact of_decide_eq_false hwaited ((hdelay.prompt _ hselect).wait _)
  · rw [if_neg hwaited]
    have hidle : b₁.drive.kind ≠ .none → b₁.drive.wait = 0 := by
      intro hattached
      rw [hb₁]
      exact ataWaitReady_idle (hkind₀.trans hkind₁.symm ▸ hattached)
        (Bool.eq_true_of_not_eq_false hwaited)
    by_cases hstatus : (b₁.inb .command).1 = 0x00 ∨ (b₁.inb .command).1 = 0xFF
    · rw [if_pos hstatus]
      refine ⟨Or.inl rfl, fun _ => (hfound fun identity hdisk => ?_).symm⟩
      refine b₁.status_ne ?_ hstatus
      rw [hkind₁, hdisk]
      exact AtaKind.noConfusion
    · rw [if_neg hstatus, show (b₁.inb .command).2 = b₁.pass 1 from rfl, ata400nsDelay_eq]
      have hstep := hready.snoc (.pass 1 b₁)
      have hsel := hstep.selected.trans (selected_ataSelect i b)
      have hask := hstep.snoc (ataAskIdentity_calm hsel)
      have hend := hask.snoc (.pass 4 _)
      have hkind₂ := hend.kind.trans (congrArg AtaDrive.kind (drive_ataSelect i b))
      have hwait : b₁.drive.kind ≠ .none → (b₁.pass 1).drive.wait = 0 := by
        intro hattached
        rw [AtaBus.drive_pass]
        dsimp only
        rw [hidle hattached]
      cases hkind : (b.drives i).kind with
      | none =>
        have hnone := ataIdentifyAnswer_zero i (b := (ataAskIdentity i (b₁.pass 1)).pass 4) (by
          unfold AtaBus.status
          rw [AtaBus.answer_of_none (hkind₂.trans hkind), AtaBus.answer_of_none (hkind₂.trans hkind)]
          exact em _)
        rw [hnone]
        exact ⟨Or.inl rfl, fun _ => rfl⟩
      | packet =>
        have hattached : b₁.drive.kind ≠ .none := by
          rw [hkind₁, hkind]
          exact AtaKind.noConfusion
        have hpacket := ataAskIdentity_packet hsel (hwait hattached)
          (hstep.kind.trans ((congrArg AtaDrive.kind (drive_ataSelect i b)).trans hkind))
        have hzero := ataIdentifyAnswer_zero i (b := (ataAskIdentity i (b₁.pass 1)).pass 4) (by
          refine Or.inr ?_
          rw [AtaBus.answer_of_attached (hkind₂.trans hkind ▸ AtaKind.noConfusion)]
          show (ataAskIdentity i (b₁.pass 1)).lbaMid ≠ 0
          rw [hpacket]
          decide)
        rw [hzero]
        exact ⟨Or.inl rfl, fun _ => rfl⟩
      | disk identity =>
        have hattached : b₁.drive.kind ≠ .none := by
          rw [hkind₁, hkind]
          exact AtaKind.noConfusion
        obtain ⟨hphase, hmid, hhi⟩ := ataAskIdentity_disk hsel (hwait hattached)
          (hstep.kind.trans ((congrArg AtaDrive.kind (drive_ataSelect i b)).trans hkind))
        have hphase₂ : ((ataAskIdentity i (b₁.pass 1)).pass 4).drive.phase =
            .reading identity.val := by
          rw [AtaBus.drive_pass]
          exact hphase
        obtain ⟨hfirst, hanswer⟩ := ataIdentifyAnswer_disk i
          (hkind₂.trans hkind ▸ AtaKind.noConfusion) hphase₂ hmid hhi
        refine ⟨hfirst.imp_right fun h => ⟨identity, rfl, h⟩, fun hprompt => ?_⟩
        exact hanswer (hend.prompt _ ⟨hprompt.wait, hprompt.delays⟩)

/-- The table of the drives that are there. -/
def ataDetected (b : AtaBus) : Ata where
  drives i := AtaInfo.found i (b.drives i).kind
  numDrives := (AtaInfo.found 0 (b.drives 0).kind).present.toNat +
    (AtaInfo.found 1 (b.drives 1).kind).present.toNat

theorem ataIdentifyDrive_media (i : Fin 2) (b : AtaBus) :
    (ataIdentifyDrive i b).2.media = b.media := by
  rw [(ataIdentifyDrive_calm i b).media_update, selected_ataSelect]
  exact Function.update_eq_self i b.media

/-- **`ata_init`** leaves the sectors alone and a table that has nothing but disks; if no drive is
slower than the driver waits, it has all of them. -/
theorem ataInit_spec (b : AtaBus) :
    (ataInit b).1.Attends (ataInit b).2 ∧ (ataInit b).2.Answers ∧
    (ataInit b).2.media = b.media ∧ (∀ i, ((ataInit b).2.drives i).bad = (b.drives i).bad) ∧
    (∀ i, (ataInit b).1.drives i = AtaInfo.zero i ∨
      (ataInit b).1.drives i = AtaInfo.found i (b.drives i).kind) ∧
    ((∀ k, b.delays k < ataTimeout) →
      (ataInit b).1 = ataDetected b ∧ (ataInit b).2.Prompt ataTimeout) := by
  obtain ⟨b₀, hb₀⟩ : ∃ b₀, b₀ = ata400nsDelay ((ata400nsDelay (b.outb .control 0x04)).outb .control
    0x00) := ⟨_, rfl⟩
  have hreset : AtaBus.Calm b.reset.drive.media b.reset b₀ := by
    rw [hb₀, ata400nsDelay_eq, ata400nsDelay_eq]
    exact (AtaBus.Calm.pass 4 b.reset).snoc (.pass 4 _)
  obtain ⟨b₁, hb₁⟩ : ∃ b₁, b₁ = (ataIdentifyDrive 0 b₀).2 := ⟨_, rfl⟩
  obtain ⟨b₂, hb₂⟩ : ∃ b₂, b₂ = (ataIdentifyDrive 1 b₁).2 := ⟨_, rfl⟩
  have hcalm₁ := ataIdentifyDrive_calm 0 b₀
  have hcalm₂ := ataIdentifyDrive_calm 1 b₁
  obtain ⟨hhda, hhda'⟩ := ataIdentifyDrive_found 0 b₀
  obtain ⟨hhdb, hhdb'⟩ := ataIdentifyDrive_found 1 b₁
  have hmedia₁ := ataIdentifyDrive_media 0 b₀
  have hmedia₂ := ataIdentifyDrive_media 1 b₁
  have hsel₁ : b₁.selected = 0 := by
    rw [hb₁, hcalm₁.selected, selected_ataSelect]
  have hsel₂ : b₂.selected = 1 := by
    rw [hb₂, hcalm₂.selected, selected_ataSelect]
  have hkind₀ : ∀ i, (b₀.drives i).kind = (b.drives i).kind := hreset.drives_kind
  unfold ataInit
  dsimp only
  rw [← hb₀, ← hb₁, ← hb₂]
  rw [← hb₁] at hcalm₁ hmedia₁ hhda
  rw [← hb₂] at hcalm₂ hmedia₂ hhdb
  have hkind₁ : ∀ i, (b₁.drives i).kind = (b₀.drives i).kind := hcalm₁.drives_kind
  have hkind₂ : ∀ i, (b₂.drives i).kind = (b₁.drives i).kind := hcalm₂.drives_kind
  refine ⟨⟨?_, ?_⟩, Or.inr hsel₂, ?_, fun i => ?_, fun i => ?_, fun hdelays => ?_⟩
  · intro i hi
    dsimp only at hi
    rw [hkind₂, hkind₁]
    by_cases hzero : i = 0
    · rw [if_pos hzero] at hi
      rcases hhda with hnone | ⟨identity, hdisk, -, -⟩
      · rw [hnone] at hi
        exact absurd hi Bool.false_ne_true
      · exact ⟨identity, hzero ▸ hdisk⟩
    · rw [if_neg hzero] at hi
      rcases hhdb with hnone | ⟨identity, hdisk, -, -⟩
      · rw [hnone] at hi
        exact absurd hi Bool.false_ne_true
      · obtain rfl : i = 1 := by omega
        exact ⟨identity, (hkind₁ 1).symm.trans hdisk⟩
  · intro i hi hne
    rw [hsel₂] at hne
    obtain rfl : i = 0 := by omega
    dsimp only at hi
    rw [if_pos rfl] at hi
    rw [hcalm₂.others 0 (by rw [selected_ataSelect]; exact hne)]
    rcases hhda with hnone | ⟨identity, -, -, hwait⟩
    · rw [hnone] at hi
      exact absurd hi Bool.false_ne_true
    · unfold AtaBus.drive at hwait
      rw [hsel₁] at hwait
      exact hwait
  · exact hmedia₂.trans (hmedia₁.trans hreset.media_eq)
  · exact (hcalm₂.drives_bad i).trans ((hcalm₁.drives_bad i).trans (hreset.drives_bad i))
  · by_cases hzero : i = 0
    · rw [if_pos hzero, hzero, ← hkind₀]
      refine hhda.imp_right ?_
      rintro ⟨identity, hdisk, hinfo, -⟩
      rw [hinfo, hdisk]
      rfl
    · obtain rfl : i = 1 := by omega
      rw [if_neg hzero, ← hkind₀, ← hkind₁]
      refine hhdb.imp_right ?_
      rintro ⟨identity, hdisk, hinfo, -⟩
      rw [hinfo, hdisk]
      rfl
  · have hprompt₀ : b₀.Prompt ataTimeout := 
      hreset.prompt _ ⟨fun i => hdelays i, fun k => hdelays (k + 2)⟩
    have hprompt₁ := hcalm₁.prompt _ ⟨hprompt₀.wait, hprompt₀.delays⟩
    refine ⟨?_, hcalm₂.prompt _ ⟨hprompt₁.wait, hprompt₁.delays⟩⟩
    rw [hhda' hprompt₀, hhdb' hprompt₁, hkind₁, hkind₀, hkind₀]
    unfold ataDetected
    congr 1
    funext i
    split_ifs with hzero
    · rw [hzero]
    · obtain rfl : i = 1 := by omega
      rfl

/-! ## Runs -/

/-- The transfers of one sector. -/
inductive AtaOp where
  | read (idx : ℤ) (lba : UInt32)
  | write (idx : ℤ) (lba : UInt32) (buffer : AtaSector)

/-- What a transfer gives back. -/
inductive AtaAnswer where
  | words (buffer : Option (List UInt16))
  | done (ok : Bool)

namespace AtaOp

def run (a : Ata) (b : AtaBus) : AtaOp → AtaBus × AtaAnswer
  | read idx lba =>
    let r := ataReadSectorDrv a idx lba b
    (r.2, .words r.1)
  | write idx lba buffer =>
    let r := ataWriteSectorDrv a idx lba buffer b
    (r.2, .done r.1)

/-- The same on arrays of sectors of which some are bad: a bad one is not read, and keeps what it has
when it is written. -/
def onMedia (a : Ata) (bad : Fin 2 → ℕ → Bool) (m : Fin 2 → ℕ → AtaSector) :
    AtaOp → (Fin 2 → ℕ → AtaSector) × AtaAnswer
  | read idx lba =>
    match a.sectorOf idx lba with
    | some (i, s) => (m, .words (if bad i s then none else some (m i s).val))
    | none => (m, .words none)
  | write idx lba buffer =>
    match a.sectorOf idx lba with
    | some (i, s) =>
      (if bad i s then m else Function.update m i (Function.update (m i) s buffer), .done true)
    | none => (m, .done false)

/-- What a transfer may do when the drives are slow: what it should, or nothing. -/
def Honest (a : Ata) (bad : Fin 2 → ℕ → Bool) (m : Fin 2 → ℕ → AtaSector) (op : AtaOp × AtaAnswer)
    (m' : Fin 2 → ℕ → AtaSector) : Prop :=
  (m', op.2) = op.1.onMedia a bad m ∨ m' = m ∧ (op.2 = .words none ∨ op.2 = .done false)

end AtaOp

/-- Which sectors are bad. -/
def ataBad (b : AtaBus) (i : Fin 2) : ℕ → Bool := (b.drives i).bad

/-- What is stored is what the array has then. -/
theorem update_stored (b : AtaBus) (i : Fin 2) (s : ℕ) (buffer : AtaSector) :
    Function.update b.media i ((b.drives i).stored s buffer) = if ataBad b i s then b.media
      else Function.update b.media i (Function.update (b.media i) s buffer) := by
  unfold AtaDrive.stored
  rw [apply_ite (Function.update b.media i)]
  congr 1
  exact Function.update_eq_self i b.media

section onMedia

variable {bad : Fin 2 → ℕ → Bool} {ms : Fin 2 → ℕ → AtaSector} {i : Fin 2} {s : ℕ}

theorem AtaOp.read_some (hs : a.sectorOf idx lba = some (i, s)) : (read idx lba).onMedia a bad ms =
    (ms, .words (if bad i s then none else some (ms i s).val)) := by
  simp only [onMedia, hs]

theorem AtaOp.read_none (hs : a.sectorOf idx lba = none) :
    (read idx lba).onMedia a bad ms = (ms, .words none) := by
  simp only [onMedia, hs]

theorem AtaOp.write_some (hs : a.sectorOf idx lba = some (i, s)) (buffer : AtaSector) :
    (write idx lba buffer).onMedia a bad ms =
      (if bad i s then ms else Function.update ms i (Function.update (ms i) s buffer), .done true) := by
  simp only [onMedia, hs]

theorem AtaOp.write_none (hs : a.sectorOf idx lba = none) (buffer : AtaSector) :
    (write idx lba buffer).onMedia a bad ms = (ms, .done false) := by
  simp only [onMedia, hs]

end onMedia

/-- **One transfer** does what it should or nothing, and what it should if the drives are not slow. -/
theorem AtaOp.run_spec (h : a.Attends b) (op : AtaOp) :
    a.Serves b (op.run a b).1 ∧
    Honest a (ataBad b) b.media (op, (op.run a b).2) (op.run a b).1.media ∧
    (b.Prompt ataTimeout → b.Answers →
      ((op.run a b).1.media, (op.run a b).2) = op.onMedia a (ataBad b) b.media) := by
  cases op with
  | read idx lba =>
    obtain ⟨hserves, hmedia, hsome, hprompt⟩ := ataReadSectorDrv_spec h idx lba
    have hfound : ∀ words, (ataReadSectorDrv a idx lba b).1 = some words →
        (b.media, AtaAnswer.words (some words)) = (read idx lba).onMedia a (ataBad b) b.media := by
      intro words hr
      obtain ⟨i, s, hs, hbad, rfl⟩ := hsome words hr
      rw [read_some hs, show ataBad b i s = false from hbad]
      rfl
    show a.Serves b (ataReadSectorDrv a idx lba b).2 ∧
      Honest a (ataBad b) b.media (read idx lba, .words (ataReadSectorDrv a idx lba b).1)
        (ataReadSectorDrv a idx lba b).2.media ∧
      (_ → _ → ((ataReadSectorDrv a idx lba b).2.media,
        AtaAnswer.words (ataReadSectorDrv a idx lba b).1) = _)
    rw [hmedia]
    cases hr : (ataReadSectorDrv a idx lba b).1 with
    | none =>
      refine ⟨hserves, Or.inr ⟨rfl, Or.inl rfl⟩, fun hp ha => ?_⟩
      rcases hs : a.sectorOf idx lba with _ | ⟨i, s⟩
      · rw [read_none hs]
      · -- The drive was ready in time, so the sector is bad.
        have hbad : ataBad b i s = true := by
          by_contra hgood
          have hread := hprompt hp ha i s hs (Bool.eq_false_of_not_eq_true hgood)
          rw [hr] at hread
          cases hread
        rw [read_some hs, hbad]
        rfl
    | some words => exact ⟨hserves, Or.inl (hfound words hr), fun _ _ => hfound words hr⟩
  | write idx lba buffer =>
    obtain ⟨hserves, hfalse, htrue, hprompt⟩ := ataWriteSectorDrv_spec h idx lba buffer
    show a.Serves b (ataWriteSectorDrv a idx lba buffer b).2 ∧
      Honest a (ataBad b) b.media
        (write idx lba buffer, .done (ataWriteSectorDrv a idx lba buffer b).1)
        (ataWriteSectorDrv a idx lba buffer b).2.media ∧
      (_ → _ → ((ataWriteSectorDrv a idx lba buffer b).2.media,
        AtaAnswer.done (ataWriteSectorDrv a idx lba buffer b).1) = _)
    cases hr : (ataWriteSectorDrv a idx lba buffer b).1 with
    | false =>
      rw [hfalse hr]
      refine ⟨hserves, Or.inr ⟨rfl, Or.inr rfl⟩, fun hp ha => ?_⟩
      rcases hs : a.sectorOf idx lba with _ | ⟨i, s⟩
      · rw [write_none hs]
      · rw [hprompt hp ha i s hs] at hr
        cases hr
    | true =>
      obtain ⟨i, s, hs, hmedia⟩ := htrue hr
      have hstored : ((ataWriteSectorDrv a idx lba buffer b).2.media, AtaAnswer.done true) =
          (write idx lba buffer).onMedia a (ataBad b) b.media := by
        rw [write_some hs, hmedia, update_stored]
      exact ⟨hserves, Or.inl hstored, fun _ _ => hstored⟩

/-- The drives are in use, and none is slow. -/
structure AtaInUse (a : Ata) (bad : Fin 2 → ℕ → Bool) (b : AtaBus) : Prop where
  attends : a.Attends b
  answers : b.Answers
  prompt : b.Prompt ataTimeout
  bad_eq : ataBad b = bad

theorem AtaInUse.serves {bad : Fin 2 → ℕ → Bool} (h : AtaInUse a bad b) (hs : a.Serves b b') :
    AtaInUse a bad b' :=
  ⟨hs.attends, hs.answers h.answers, hs.prompt _ h.prompt, (funext hs.bad).trans h.bad_eq⟩

/-- One transfer when no drive is slow. -/
theorem AtaInUse.run {bad : Fin 2 → ℕ → Bool} (h : AtaInUse a bad b) (op : AtaOp) :
    AtaInUse a bad (op.run a b).1 ∧
      ((op.run a b).1.media, (op.run a b).2) = op.onMedia a bad b.media := by
  obtain ⟨hserves, -, hstep⟩ := op.run_spec h.attends
  have heq := hstep h.prompt h.answers
  rw [h.bad_eq] at heq
  exact ⟨h.serves hserves, heq⟩

theorem ataInit_inUse (b : AtaBus) (hdelays : ∀ k, b.delays k < ataTimeout) :
    AtaInUse (ataDetected b) (ataBad b) (ataInit b).2 := by
  obtain ⟨hattends, hanswers, -, hbad, -, hprompt⟩ := ataInit_spec b
  obtain ⟨htable, hsoon⟩ := hprompt hdelays
  exact ⟨htable ▸ hattends, hanswers, hsoon, funext hbad⟩

/-- **The disks are arrays of sectors.**  If no drive is slower than the driver waits, `ata_init` finds
the disks that are there, and every transfer has the result that it has on arrays with the sectors that
were on them. -/
theorem ata_isDisk (b : AtaBus) (hdelays : ∀ k, b.delays k < ataTimeout) (ops : List AtaOp) :
    (ataInit b).1 = ataDetected b ∧
      (Machine.results (AtaOp.run (ataDetected b)) (ataInit b).2 ops).1 =
        (Machine.results (AtaOp.onMedia (ataDetected b) (ataBad b)) b.media ops).1 ∧
      (Machine.results (AtaOp.run (ataDetected b)) (ataInit b).2 ops).2.media =
        (Machine.results (AtaOp.onMedia (ataDetected b) (ataBad b)) b.media ops).2 := by
  have hsim : Machine.Simulates (fun _ => True)
      (fun b' ms => AtaInUse (ataDetected b) (ataBad b) b' ∧ b'.media = ms)
      (AtaOp.run (ataDetected b)) (AtaOp.onMedia (ataDetected b) (ataBad b)) := by
    rintro b' ms op - ⟨hb', rfl⟩
    obtain ⟨hnext, heq⟩ := hb'.run op
    exact ⟨congrArg Prod.snd heq, hnext, congrArg Prod.fst heq⟩
  obtain ⟨-, -, hmedia, -, -, hprompt⟩ := ataInit_spec b
  have hall : ∀ op ∈ ops, True := fun _ _ => trivial
  obtain ⟨hresults, -, hend⟩ := hsim.results_eq ⟨ataInit_inUse b hdelays, hmedia⟩ hall
  exact ⟨(hprompt hdelays).1, hresults, hend⟩

/-- An identification with 16 sectors. -/
def smallIdentity : List UInt16 := List.replicate 60 0 ++ 16 :: List.replicate 195 0

theorem smallIdentity_length : smallIdentity.length = 256 := by
  rw [smallIdentity, List.length_append, List.length_cons, List.length_replicate,
    List.length_replicate]

/-- A disk as the first drive, and nothing else. -/
def oneDisk : AtaBus where
  drives i := ⟨if i = 0 then .disk ⟨smallIdentity, smallIdentity_length⟩ else .none,
    fun _ => ⟨List.replicate 256 0, List.length_replicate⟩, fun _ => false, .idle, 0⟩
  driveHead := 0
  sectCnt := 0
  lbaLo := 0
  lbaMid := 0
  lbaHi := 0
  delays _ := 3
  floating := 0xFF

theorem oneDisk_prompt (k : ℕ) : oneDisk.delays k < ataTimeout := by
  show 3 < ataTimeout
  unfold ataTimeout
  decide

/-- A sector is written and read again. -/
theorem ata_isDisk_oneDisk :
    let ops : List AtaOp := [.write 0 5 ⟨List.replicate 256 7, List.length_replicate⟩, .read 0 5]
    (ataInit oneDisk).1 = ataDetected oneDisk ∧
      (Machine.results (AtaOp.run (ataDetected oneDisk)) (ataInit oneDisk).2 ops).1 =
        (Machine.results (AtaOp.onMedia (ataDetected oneDisk) (ataBad oneDisk)) oneDisk.media ops).1 ∧
      (Machine.results (AtaOp.run (ataDetected oneDisk)) (ataInit oneDisk).2 ops).2.media =
        (Machine.results (AtaOp.onMedia (ataDetected oneDisk) (ataBad oneDisk)) oneDisk.media
          ops).2 :=
  ata_isDisk oneDisk oneDisk_prompt _

/-- How many sectors the first drive has from `lba` on. -/
def ataRoom (a : Ata) (lba : UInt32) : ℕ :=
  if (a.drives 0).present then (a.drives 0).sectors.toNat - lba.toNat else 0

/-- The sector numbers do not overflow before the end of the drive. -/
theorem sectorOf_add {i : ℕ} (hsectors : (a.drives 0).sectors.toNat ≤ 2 ^ 28) (hi : i ≤ ataRoom a lba) :
    a.sectorOf 0 (lba + UInt32.ofNat i) =
      if i < ataRoom a lba then some (0, lba.toNat + i) else none := by
  have hlt := lba.toNat_lt
  unfold ataRoom at hi ⊢
  unfold Ata.sectorOf
  show (if (a.drives 0).present = true ∧ lba + UInt32.ofNat i < (a.drives 0).sectors then
    some ((0 : Fin 2), (lba + UInt32.ofNat i).toNat % 2 ^ 28) else none) = _
  by_cases hpresent : (a.drives 0).present = true
  · rw [if_pos hpresent] at hi ⊢
    have hadd : (lba + UInt32.ofNat i).toNat = lba.toNat + i := by
      rw [UInt32.toNat_add, UInt32.toNat_ofNat']
      omega
    by_cases hin : i < (a.drives 0).sectors.toNat - lba.toNat
    · have hbelow : lba + UInt32.ofNat i < (a.drives 0).sectors := by
        rw [UInt32.lt_iff_toNat_lt, hadd]
        omega
      rw [if_pos hin, if_pos ⟨hpresent, hbelow⟩, hadd, Nat.mod_eq_of_lt (by omega)]
    · have hend : ¬ lba + UInt32.ofNat i < (a.drives 0).sectors := by
        rw [UInt32.lt_iff_toNat_lt, hadd]
        omega
      rw [if_neg hin, if_neg fun h => hend h.2]
  · rw [if_neg hpresent, if_neg fun h => hpresent h.1, if_neg (Nat.not_lt_zero i)]

/-- The sectors from `base` on hold these, but for the bad ones. -/
def ataFill (ms : ℕ → AtaSector) (bad : ℕ → Bool) (base : ℕ) (buffer : List AtaSector) :
    ℕ → AtaSector :=
  fun t => if base ≤ t ∧ bad t = false then buffer.getD (t - base) (ms t) else ms t

theorem ataFill_nil (ms : ℕ → AtaSector) (bad : ℕ → Bool) (base : ℕ) : ataFill ms bad base [] = ms := by
  funext t
  unfold ataFill
  split_ifs <;> rfl

/-- The first sector is stored before the others. -/
theorem ataFill_cons (ms : ℕ → AtaSector) (bad : ℕ → Bool) (base : ℕ) (s : AtaSector)
    (buffer : List AtaSector) :
    ataFill (if bad base then ms else Function.update ms base s) bad (base + 1) buffer =
      ataFill ms bad base (s :: buffer) := by
  funext t
  unfold ataFill
  have hkeep : t ≠ base → (if bad base then ms else Function.update ms base s) t = ms t := by
    intro hne
    split_ifs
    · rfl
    · exact Function.update_of_ne hne _ _
  rcases Nat.lt_trichotomy t base with hlt | rfl | hgt
  · have hbefore : ¬ (base + 1 ≤ t ∧ bad t = false) := fun h => absurd h.1 (by omega)
    have hbefore' : ¬ (base ≤ t ∧ bad t = false) := fun h => absurd h.1 (by omega)
    rw [if_neg hbefore, if_neg hbefore', hkeep hlt.ne]
  · have hbefore : ¬ (t + 1 ≤ t ∧ bad t = false) := fun h => absurd h.1 (by omega)
    rw [if_neg hbefore]
    cases hbad : bad t
    · rw [if_neg Bool.false_ne_true, if_pos ⟨le_rfl, rfl⟩, Function.update_self, Nat.sub_self]
      rfl
    · rw [if_pos rfl, if_neg fun h => Bool.false_ne_true h.2.symm]
  · have hnext : t - base = t - (base + 1) + 1 := by omega
    rw [hkeep hgt.ne', hnext, List.getD_cons_succ]
    split_ifs with h₁ h₂ h₂
    · rfl
    · exact absurd ⟨by omega, h₁.2⟩ h₂
    · exact absurd ⟨by omega, h₂.2⟩ h₁
    · rfl

section

variable {bad : Fin 2 → ℕ → Bool}

/-- The loop writes as many sectors as fit on the drive. -/
theorem ataWriteLoop_eq (lba : UInt32) (hsectors : (a.drives 0).sectors.toNat ≤ 2 ^ 28)
    (buffer : List AtaSector) {i : ℕ} (h : AtaInUse a bad b) (hi : i ≤ ataRoom a lba) :
    (ataWriteLoop a lba buffer i b).1 = decide (i + buffer.length ≤ ataRoom a lba) ∧
    (ataWriteLoop a lba buffer i b).2.media = Function.update b.media 0
      (ataFill (b.media 0) (bad 0) (lba.toNat + i) (buffer.take (ataRoom a lba - i))) := by
  induction buffer generalizing i b with
  | nil =>
    rw [List.take_nil, ataFill_nil, Function.update_eq_self]
    exact ⟨(decide_eq_true hi).symm, rfl⟩
  | cons s buffer ih =>
    obtain ⟨hnext, heq⟩ := h.run (.write 0 (lba + UInt32.ofNat i) s)
    have hs := sectorOf_add hsectors hi
    unfold ataWriteLoop
    unfold AtaOp.run at hnext heq
    dsimp only at hnext heq
    obtain ⟨⟨ok, b'⟩, hr⟩ : ∃ r, r = ataWriteSectorDrv a 0 (lba + UInt32.ofNat i) s b := ⟨_, rfl⟩
    rw [← hr] at hnext heq ⊢
    rw [List.length_cons]
    by_cases hin : i < ataRoom a lba
    · rw [if_pos hin] at hs
      rw [AtaOp.write_some hs, Prod.mk.injEq, AtaAnswer.done.injEq] at heq
      obtain ⟨hmedia, rfl⟩ := heq
      obtain ⟨hok, hrest⟩ := ih hnext (show i + 1 ≤ ataRoom a lba from hin)
      have htake : (s :: buffer).take (ataRoom a lba - i) =
          s :: buffer.take (ataRoom a lba - (i + 1)) := by
        rw [show ataRoom a lba - i = ataRoom a lba - (i + 1) + 1 by omega, List.take_succ_cons]
      have hfirst : b'.media 0 = if bad 0 (lba.toNat + i) then b.media 0
          else Function.update (b.media 0) (lba.toNat + i) s := by
        rw [hmedia]
        split_ifs
        · rfl
        · exact Function.update_self _ _ _
      have hothers : ∀ m, Function.update b'.media 0 m = Function.update b.media 0 m := by
        intro m
        rw [hmedia]
        split_ifs
        · rfl
        · exact Function.update_idem _ _ _
      refine ⟨hok.trans (decide_eq_decide.mpr (by omega)), hrest.trans ?_⟩
      rw [hfirst, hothers, ← Nat.add_assoc, ataFill_cons, ← htake]
    · rw [if_neg hin] at hs
      rw [AtaOp.write_none hs, Prod.mk.injEq, AtaAnswer.done.injEq] at heq
      obtain ⟨hmedia, rfl⟩ := heq
      have hroom : ataRoom a lba - i = 0 := by omega
      rw [hroom, List.take_zero, ataFill_nil, Function.update_eq_self]
      exact ⟨(decide_eq_false (by omega)).symm, hmedia⟩

/-- The loop reads sectors until one is bad or the drive ends. -/
theorem ataReadLoop_eq (lba : UInt32) (hsectors : (a.drives 0).sectors.toNat ≤ 2 ^ 28) (n : ℕ) {i : ℕ}
    (h : AtaInUse a bad b) (hi : i ≤ ataRoom a lba) :
    (ataReadLoop a lba n i b).1 =
      (((List.range' i n).takeWhile fun j => decide (j < ataRoom a lba) && !bad 0 (lba.toNat + j)).map
        fun j => (b.media 0 (lba.toNat + j)).val,
      (List.range' i n).all fun j => decide (j < ataRoom a lba) && !bad 0 (lba.toNat + j)) := by
  induction n generalizing i b with
  | zero => rfl
  | succ n ih =>
    obtain ⟨hnext, heq⟩ := h.run (.read 0 (lba + UInt32.ofNat i))
    have hs := sectorOf_add hsectors hi
    unfold ataReadLoop
    unfold AtaOp.run at hnext heq
    dsimp only at hnext heq
    obtain ⟨⟨r, b'⟩, hr⟩ : ∃ r, r = ataReadSectorDrv a 0 (lba + UInt32.ofNat i) b := ⟨_, rfl⟩
    rw [← hr] at hnext heq ⊢
    rw [List.range'_succ, List.all_cons]
    by_cases hin : i < ataRoom a lba
    · rw [if_pos hin] at hs
      rw [AtaOp.read_some hs, Prod.mk.injEq, AtaAnswer.words.injEq] at heq
      obtain ⟨hmedia, rfl⟩ := heq
      cases hbad : bad 0 (lba.toNat + i) with
      | false =>
        have hrest := ih hnext (show i + 1 ≤ ataRoom a lba from hin)
        rw [if_neg Bool.false_ne_true, List.takeWhile_cons_of_pos (by
          rw [decide_eq_true hin, hbad]
          rfl), List.map_cons, decide_eq_true hin]
        dsimp only at hrest hmedia ⊢
        rw [hrest, hmedia]
        rfl
      | true =>
        rw [if_pos rfl, List.takeWhile_cons_of_neg (by
          rw [hbad, Bool.not_true, Bool.and_false]
          exact Bool.false_ne_true), Bool.not_true, Bool.and_false, Bool.false_and]
        rfl
    · rw [if_neg hin] at hs
      rw [AtaOp.read_none hs, Prod.mk.injEq, AtaAnswer.words.injEq] at heq
      obtain ⟨-, rfl⟩ := heq
      rw [List.takeWhile_cons_of_neg (by
        rw [decide_eq_false hin, Bool.false_and]
        exact Bool.false_ne_true), decide_eq_false hin, Bool.false_and, Bool.false_and]
      rfl

end

/-- The drives are in use after any transfers. -/
theorem ata_inUse (b : AtaBus) (hdelays : ∀ k, b.delays k < ataTimeout) (ops : List AtaOp) :
    AtaInUse (ataDetected b) (ataBad b)
      (Machine.results (AtaOp.run (ataDetected b)) (ataInit b).2 ops).2 :=
  Machine.results_invariant (I := AtaInUse (ataDetected b) (ataBad b)) (P := fun _ => True)
    (fun _ op _ h => (h.run op).1) (ataInit_inUse b hdelays) fun _ _ => trivial

/-- **Several sectors.**  After any transfers with drives that are not slow, `ata_write_sectors` writes
one sector behind the other up to the end of the drive and says if there was room for all of them, and
`ata_read_sectors` reads them up to the end or to a bad one and says if there was neither. -/
theorem ata_manySectors (b : AtaBus) (hdelays : ∀ k, b.delays k < ataTimeout)
    (hsectors : ((ataDetected b).drives 0).sectors.toNat ≤ 2 ^ 28) (ops : List AtaOp) (lba : UInt32) :
    let b' := (Machine.results (AtaOp.run (ataDetected b)) (ataInit b).2 ops).2
    let room := ataRoom (ataDetected b) lba
    let good := fun j => decide (j < room) && !ataBad b 0 (lba.toNat + j)
    (∀ buffer : List AtaSector,
      (ataWriteSectors (ataDetected b) lba buffer b').1 = decide (buffer.length ≤ room) ∧
      (ataWriteSectors (ataDetected b) lba buffer b').2.media = Function.update b'.media 0
        (ataFill (b'.media 0) (ataBad b 0) lba.toNat (buffer.take room))) ∧
    ∀ count : UInt8, (ataReadSectors (ataDetected b) lba count b').1 =
      (((List.range count.toNat).takeWhile good).map fun j => (b'.media 0 (lba.toNat + j)).val,
        (List.range count.toNat).all good) := by
  intro b' room good
  have huse : AtaInUse (ataDetected b) (ataBad b) b' := ata_inUse b hdelays ops
  refine ⟨fun buffer => ?_, fun count => ?_⟩
  · have hwrite := ataWriteLoop_eq lba hsectors buffer huse (Nat.zero_le _)
    rw [Nat.zero_add, Nat.add_zero, Nat.sub_zero] at hwrite
    exact hwrite
  · have hread := ataReadLoop_eq lba hsectors count.toNat huse (Nat.zero_le _)
    rw [← List.range_eq_range'] at hread
    exact hread

theorem ata_manySectors_oneDisk :
    let b' := (Machine.results (AtaOp.run (ataDetected oneDisk)) (ataInit oneDisk).2 []).2
    let room := ataRoom (ataDetected oneDisk) 14
    let good := fun j => decide (j < room) && !ataBad oneDisk 0 ((14 : UInt32).toNat + j)
    (∀ buffer : List AtaSector,
      (ataWriteSectors (ataDetected oneDisk) 14 buffer b').1 = decide (buffer.length ≤ room) ∧
      (ataWriteSectors (ataDetected oneDisk) 14 buffer b').2.media = Function.update b'.media 0
        (ataFill (b'.media 0) (ataBad oneDisk 0) (14 : UInt32).toNat (buffer.take room))) ∧
    ∀ count : UInt8, (ataReadSectors (ataDetected oneDisk) 14 count b').1 =
      (((List.range count.toNat).takeWhile good).map
        fun j => (b'.media 0 ((14 : UInt32).toNat + j)).val,
        (List.range count.toNat).all good) :=
  ata_manySectors oneDisk oneDisk_prompt (by decide +kernel) [] 14

end Microkernel
