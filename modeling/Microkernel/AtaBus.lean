/-
# Two ATA drives on a bus

What the standard says of the registers that `src/ata.c` uses, for transfers of one sector.  A drive is
busy for some number of reads of its status after a reset, a command or a word that was written; how
many they are, which sectors are bad and what an empty bus reads as are left open.
-/
import Mathlib

instance neZero_two : NeZero 2 := ⟨by decide⟩

/-- A sector of 256 words. -/
abbrev AtaSector := { words : List UInt16 // words.length = 256 }

/-- What is connected as one of the drives: nothing, a packet device, or a disk with its identification. -/
inductive AtaKind where
  | none
  | packet
  | disk (identity : AtaSector)

/-- What a drive does when it is not busy: a transfer has the words that are still to be read, or
the sector and the words that were written. -/
inductive AtaPhase where
  | idle
  | error
  | reading (words : List UInt16)
  | writing (lba : ℕ) (taken : List UInt16)

/-- A drive; `wait` counts the reads of the status for which it is busy. -/
structure AtaDrive where
  kind : AtaKind
  media : ℕ → AtaSector
  bad : ℕ → Bool
  phase : AtaPhase
  wait : ℕ

/-- The registers of one byte. -/
inductive AtaRegister where
  | features
  | sectCnt
  | lbaLo
  | lbaMid
  | lbaHi
  | driveHead
  | command
  | control

/-- The bus: `delays` are the times that the drives will need, and `floating` is what is read when
there is no drive at all. -/
structure AtaBus where
  drives : Fin 2 → AtaDrive
  driveHead : UInt8
  sectCnt : UInt8
  lbaLo : UInt8
  lbaMid : UInt8
  lbaHi : UInt8
  delays : ℕ → ℕ
  floating : UInt8

/-- The status of a drive that is not busy: ready, with a request for data or an error. -/
def AtaPhase.status : AtaPhase → UInt8
  | idle => 0x40
  | error => 0x41
  | reading _ => 0x48
  | writing _ _ => 0x48

/-- No drive that is there looks busy when it is not. -/
theorem AtaPhase.status_ready (p : AtaPhase) : p.status &&& 0x80 = 0 := by
  cases p with
  | idle => rfl
  | error => rfl
  | reading words => exact (by decide : (0x48 : UInt8) &&& 0x80 = 0)
  | writing lba taken => exact (by decide : (0x48 : UInt8) &&& 0x80 = 0)

namespace AtaDrive

/-- The drive gets busy. -/
def start (phase : AtaPhase) (delay : ℕ) (d : AtaDrive) : AtaDrive :=
  { d with phase := phase, wait := delay }

/-- A word of the sector that is read. -/
def takeWord (d : AtaDrive) : UInt16 × AtaDrive :=
  match d.phase with
  | .reading (w :: words) =>
    (w, { d with phase := if words = [] then .idle else .reading words })
  | _ => (0, d)

/-- The drive stores a sector, or it has an error. -/
def store (lba : ℕ) (sector : AtaSector) (delay : ℕ) (d : AtaDrive) : AtaDrive :=
  if d.bad lba then d.start .error delay
  else { d.start .idle delay with media := Function.update d.media lba sector }

/-- A word of the sector that is written. -/
def putWord (w : UInt16) (delay : ℕ) (d : AtaDrive) : AtaDrive :=
  match d.phase with
  | .writing lba taken =>
    if h : (taken ++ [w]).length = 256 then d.store lba ⟨taken ++ [w], h⟩ delay
    else { d with phase := .writing lba (taken ++ [w]) }
  | _ => d

variable {d : AtaDrive} {w : UInt16} {words taken : List UInt16} {lba : ℕ}

theorem store_phase (sector : AtaSector) (phase : AtaPhase) (delay : ℕ) :
    { d with phase := phase }.store lba sector delay = d.store lba sector delay := rfl

@[simp] theorem store_kind (sector : AtaSector) (delay : ℕ) :
    (d.store lba sector delay).kind = d.kind := by
  unfold store
  split_ifs <;> rfl

@[simp] theorem store_bad (sector : AtaSector) (delay : ℕ) :
    (d.store lba sector delay).bad = d.bad := by
  unfold store
  split_ifs <;> rfl

@[simp] theorem store_wait (sector : AtaSector) (delay : ℕ) :
    (d.store lba sector delay).wait = delay := by
  unfold store
  split_ifs <;> rfl

/-- The sectors behind a write: a bad one keeps what it has. -/
def stored (lba : ℕ) (sector : AtaSector) (d : AtaDrive) : ℕ → AtaSector :=
  if d.bad lba then d.media else Function.update d.media lba sector

theorem store_media (sector : AtaSector) (delay : ℕ) :
    (d.store lba sector delay).media = d.stored lba sector := by
  unfold store stored
  split_ifs <;> rfl

theorem takeWord_reading (h : d.phase = .reading (w :: words)) :
    d.takeWord = (w, { d with phase := if words = [] then .idle else .reading words }) := by
  unfold takeWord
  rw [h]

theorem putWord_last (h : d.phase = .writing lba taken) (hlen : (taken ++ [w]).length = 256)
    (delay : ℕ) : d.putWord w delay = d.store lba ⟨taken ++ [w], hlen⟩ delay := by
  unfold putWord
  rw [h]
  exact dif_pos hlen

theorem putWord_more (h : d.phase = .writing lba taken) (hlen : (taken ++ [w]).length ≠ 256)
    (delay : ℕ) : d.putWord w delay = { d with phase := .writing lba (taken ++ [w]) } := by
  unfold putWord
  rw [h]
  exact dif_neg hlen

end AtaDrive

namespace AtaBus

/-- The number of the selected drive. -/
def selected (b : AtaBus) : Fin 2 := if b.driveHead &&& 0x10 = 0 then 0 else 1

/-- The selected drive. -/
def drive (b : AtaBus) : AtaDrive := b.drives b.selected

/-- The sector number in the registers. -/
def lba (b : AtaBus) : ℕ :=
  (b.driveHead &&& 0x0F).toNat * 2 ^ 24 + b.lbaHi.toNat * 2 ^ 16 + b.lbaMid.toNat * 2 ^ 8 +
    b.lbaLo.toNat

/-- Change the selected drive. -/
def setDrive (d : AtaDrive) (b : AtaBus) : AtaBus :=
  { b with drives := Function.update b.drives b.selected d }

/-- The first `j` times are over. -/
def skip (j : ℕ) (b : AtaBus) : AtaBus := { b with delays := fun n => b.delays (n + j) }

/-- The selected drive gets busy. -/
def start (phase : AtaPhase) (b : AtaBus) : AtaBus :=
  (b.setDrive (b.drive.start phase (b.delays 0))).skip 1

/-- What is read for a drive that is missing: the first one answers for the second one. -/
def missing (b : AtaBus) : UInt8 :=
  match (b.drives 0).kind with
  | .none => b.floating
  | _ => 0

/-- What is read of the selected drive, or that it is missing. -/
def answer (v : UInt8) (b : AtaBus) : UInt8 :=
  match b.drive.kind with
  | .none => b.missing
  | _ => v

/-- The status of the selected drive. -/
def status (b : AtaBus) : UInt8 :=
  b.answer (if 0 < b.drive.wait then 0x80 else b.drive.phase.status)

/-- What is on the disks. -/
def media (b : AtaBus) (i : Fin 2) : ℕ → AtaSector := (b.drives i).media

/-- The selected drive is there, or it is the second one. -/
def Answers (b : AtaBus) : Prop := b.drive.kind ≠ .none ∨ b.selected = 1

/-- Time passes for the selected drive, as long as it takes to read the status `k` times. -/
def pass (k : ℕ) (b : AtaBus) : AtaBus := b.setDrive { b.drive with wait := b.drive.wait - k }

/-- A read of a register of one byte; two of them have the status. -/
def inb (r : AtaRegister) (b : AtaBus) : UInt8 × AtaBus :=
  match r with
  | .features => (b.answer 0, b)
  | .sectCnt => (b.answer b.sectCnt, b)
  | .lbaLo => (b.answer b.lbaLo, b)
  | .lbaMid => (b.answer b.lbaMid, b)
  | .lbaHi => (b.answer b.lbaHi, b)
  | .driveHead => (b.answer b.driveHead, b)
  | .command => (b.status, b.pass 1)
  | .control => (b.status, b.pass 1)

/-- A read of the data register. -/
def inw (b : AtaBus) : UInt16 × AtaBus :=
  match b.drive.kind with
  | .none => (0, b)
  | _ => if 0 < b.drive.wait then (0, b) else (b.drive.takeWord.1, b.setDrive b.drive.takeWord.2)

/-- A write to the data register. -/
def outw (w : UInt16) (b : AtaBus) : AtaBus :=
  match b.drive.kind with
  | .none => b
  | _ =>
    if 0 < b.drive.wait then b
    else (b.setDrive (b.drive.putWord w (b.delays 0))).skip 1

/-- What a disk does on a command. -/
def runDisk (identity : AtaSector) (cmd : UInt8) (b : AtaBus) : AtaBus :=
  if cmd = 0x20 then
    if b.sectCnt = 1 ∧ b.drive.bad b.lba = false then b.start (.reading (b.drive.media b.lba).val)
    else b.start .error
  else if cmd = 0x30 then
    if b.sectCnt = 1 then b.start (.writing b.lba []) else b.start .error
  else if cmd = 0xEC then b.start (.reading identity.val)
  else if cmd = 0xE7 then b.start .idle
  else b.start .error

/-- What a packet device does on a command: it shows its signature when it should identify itself. -/
def runPacket (cmd : UInt8) (b : AtaBus) : AtaBus :=
  if cmd = 0xEC then { b.start .error with lbaMid := 0x14, lbaHi := 0xEB } else b.start .error

/-- A write to the command register, which a busy drive ignores. -/
def run (cmd : UInt8) (b : AtaBus) : AtaBus :=
  if 0 < b.drive.wait then b
  else
    match b.drive.kind with
    | .none => b
    | .packet => b.runPacket cmd
    | .disk identity => b.runDisk identity cmd

/-- A reset of both drives. -/
def reset (b : AtaBus) : AtaBus :=
  { b with
    drives := fun i => (b.drives i).start .idle (b.delays i)
    driveHead := 0
    delays := fun n => b.delays (n + 2) }

/-- A write to a register of one byte. -/
def outb (r : AtaRegister) (v : UInt8) (b : AtaBus) : AtaBus :=
  match r with
  | .features => b
  | .sectCnt => { b with sectCnt := v }
  | .lbaLo => { b with lbaLo := v }
  | .lbaMid => { b with lbaMid := v }
  | .lbaHi => { b with lbaHi := v }
  | .driveHead => { b with driveHead := v }
  | .command => b.run v
  | .control => if v &&& 0x04 = 0 then b else b.reset

/-! ## Time -/

variable {b b' b'' : AtaBus} {j k n : ℕ} {m m' : ℕ → AtaSector} {d : AtaDrive}

@[simp] theorem selected_setDrive (d : AtaDrive) : (b.setDrive d).selected = b.selected := rfl

@[simp] theorem drive_setDrive (d : AtaDrive) : (b.setDrive d).drive = d := Function.update_self _ _ _

theorem drives_setDrive (d : AtaDrive) (i : Fin 2) :
    (b.setDrive d).drives i = if i = b.selected then d else b.drives i := Function.update_apply _ _ _ _

theorem setDrive_setDrive (d d' : AtaDrive) : (b.setDrive d).setDrive d' = b.setDrive d' :=
  congrArg (fun drives => { b with drives }) (Function.update_idem _ _ _)

theorem setDrive_drive : b.setDrive b.drive = b :=
  congrArg (fun drives => { b with drives }) (Function.update_eq_self _ _)

@[simp] theorem drive_skip : (b.skip k).drive = b.drive := rfl

theorem drive_start (phase : AtaPhase) :
    (b.start phase).drive = b.drive.start phase (b.delays 0) := by
  unfold start
  rw [drive_skip, drive_setDrive]

theorem skip_skip (j k : ℕ) : (b.skip j).skip k = b.skip (k + j) := by
  unfold skip
  simp only [Nat.add_assoc]

@[simp] theorem selected_pass : (b.pass k).selected = b.selected := rfl

@[simp] theorem delays_pass : (b.pass k).delays = b.delays := rfl

@[simp] theorem drive_pass : (b.pass k).drive = { b.drive with wait := b.drive.wait - k } :=
  drive_setDrive _

theorem pass_pass (j k : ℕ) : (b.pass j).pass k = b.pass (j + k) := by
  unfold pass
  rw [drive_setDrive, setDrive_setDrive, Nat.sub_sub]

theorem pass_zero : b.pass 0 = b := setDrive_drive

/-- All drives are ready before the status has been read `n` times, now and later. -/
structure Prompt (n : ℕ) (b : AtaBus) : Prop where
  wait : ∀ i, (b.drives i).wait < n
  delays : ∀ k, b.delays k < n

/-- The selected drive has done something and has the sectors `m` now; the other drive has not. -/
structure Calm (m : ℕ → AtaSector) (b b' : AtaBus) : Prop where
  selected : b'.selected = b.selected
  others : ∀ i, i ≠ b.selected → b'.drives i = b.drives i
  kind : b'.drive.kind = b.drive.kind
  bad : b'.drive.bad = b.drive.bad
  media : b'.drive.media = m
  prompt : ∀ n, b.Prompt n → b'.Prompt n

namespace Calm

theorem trans (h : Calm m b b') (h' : Calm m' b' b'') : Calm m' b b'' where
  selected := h'.selected.trans h.selected
  others i hi := (h'.others i (h.selected ▸ hi)).trans (h.others i hi)
  kind := h'.kind.trans h.kind
  bad := h'.bad.trans h.bad
  media := h'.media
  prompt n hn := h'.prompt n (h.prompt n hn)

/-- The selected drive changes, and times are over. -/
theorem setDrive_skip (j : ℕ) (hkind : d.kind = b.drive.kind) (hbad : d.bad = b.drive.bad)
    (hwait : ∀ n, b.Prompt n → d.wait < n) : Calm d.media b ((b.setDrive d).skip j) where
  selected := rfl
  others i hi := (drives_setDrive d i).trans (if_neg hi)
  kind := (congrArg AtaDrive.kind (drive_setDrive d)).trans hkind
  bad := (congrArg AtaDrive.bad (drive_setDrive d)).trans hbad
  media := by rw [drive_skip, drive_setDrive]
  prompt n hn := by
    refine ⟨fun i => ?_, fun k => hn.delays (k + j)⟩
    show ((b.setDrive d).drives i).wait < n
    rw [drives_setDrive]
    split_ifs
    · exact hwait n hn
    · exact hn.wait i

theorem pass (k : ℕ) (b : AtaBus) : Calm b.drive.media b (b.pass k) :=
  setDrive_skip (d := { b.drive with wait := b.drive.wait - k }) 0 rfl rfl
    fun _ hn => (Nat.sub_le _ k).trans_lt (hn.wait b.selected)

theorem start (phase : AtaPhase) (b : AtaBus) : Calm b.drive.media b (b.start phase) :=
  setDrive_skip (d := b.drive.start phase (b.delays 0)) 1 rfl rfl fun _ hn => hn.delays 0

theorem refl (b : AtaBus) : Calm b.drive.media b b :=
  ⟨rfl, fun _ _ => rfl, rfl, rfl, rfl, fun _ hn => hn⟩

/-- A step that keeps the sectors, behind one that may have changed them. -/
theorem snoc (h : Calm m b b') (h' : Calm b'.drive.media b' b'') : Calm m b b'' :=
  h.media ▸ h.trans h'

/-- Words that are read keep the sectors. -/
theorem inw (b : AtaBus) : Calm b.drive.media b b.inw.2 := by
  unfold AtaBus.inw
  split
  next => exact .refl b
  next =>
    split_ifs
    · exact .refl b
    · have htake : b.drive.takeWord.2.kind = b.drive.kind ∧
          b.drive.takeWord.2.bad = b.drive.bad ∧ b.drive.takeWord.2.media = b.drive.media ∧
          b.drive.takeWord.2.wait = b.drive.wait := by
        unfold AtaDrive.takeWord
        split
        · exact ⟨rfl, rfl, rfl, rfl⟩
        · exact ⟨rfl, rfl, rfl, rfl⟩
      obtain ⟨hkind, hbad, hmedia, hwait⟩ := htake
      have hset := setDrive_skip (d := b.drive.takeWord.2) 0 hkind hbad
        fun _ hn => hwait.trans_lt (hn.wait b.selected)
      rw [hmedia] at hset
      exact hset

/-- A command alone keeps the sectors. -/
theorem run (cmd : UInt8) (b : AtaBus) : Calm b.drive.media b (b.run cmd) := by
  unfold AtaBus.run
  split_ifs
  · exact .refl b
  · split
    next => exact .refl b
    next =>
      unfold runPacket
      split_ifs
      · have hstart := Calm.start .error b
        exact ⟨hstart.selected, hstart.others, hstart.kind, hstart.bad, hstart.media,
          fun n hn => ⟨(hstart.prompt n hn).wait, (hstart.prompt n hn).delays⟩⟩
      · exact .start .error b
    next =>
      unfold runDisk
      split_ifs <;> exact .start _ b

/-- What is on the disks. -/
theorem drives_media (h : Calm m b b') (i : Fin 2) :
    (b'.drives i).media = if i = b.selected then m else (b.drives i).media := by
  split_ifs with hi
  · rw [hi, ← h.selected]
    exact h.media
  · rw [h.others i hi]

theorem media_update (h : Calm m b b') : b'.media = Function.update b.media b.selected m := by
  funext i
  rw [Function.update_apply]
  exact h.drives_media i

theorem media_eq (h : Calm b.drive.media b b') : b'.media = b.media :=
  h.media_update.trans (Function.update_eq_self b.selected b.media)

theorem drives_kind (h : Calm m b b') (i : Fin 2) : (b'.drives i).kind = (b.drives i).kind := by
  by_cases hi : i = b.selected
  · rw [hi]
    exact (congrArg (fun i => (b'.drives i).kind) h.selected.symm).trans h.kind
  · rw [h.others i hi]

theorem drives_bad (h : Calm m b b') (i : Fin 2) : (b'.drives i).bad = (b.drives i).bad := by
  by_cases hi : i = b.selected
  · rw [hi]
    exact (congrArg (fun i => (b'.drives i).bad) h.selected.symm).trans h.bad
  · rw [h.others i hi]

end Calm

/-- A drive that is there answers for itself. -/
theorem answer_of_attached (h : b.drive.kind ≠ .none) (v : UInt8) : b.answer v = v := by
  unfold answer
  split
  next hkind => exact absurd hkind h
  next => rfl

theorem answer_of_none (h : b.drive.kind = .none) (v : UInt8) : b.answer v = b.missing := by
  unfold answer
  rw [h]

theorem missing_pass : (b.pass k).missing = b.missing := by
  unfold missing
  rw [(Calm.pass k b).drives_kind]
  rfl

theorem answer_pass (v : UInt8) : (b.pass k).answer v = b.answer v := by
  unfold answer
  rw [drive_pass, missing_pass]

/-- The status of a drive that is there. -/
theorem status_of_attached (h : b.drive.kind ≠ .none) :
    b.status = if 0 < b.drive.wait then 0x80 else b.drive.phase.status := answer_of_attached h _

/-- A drive that is there shows that it is. -/
theorem status_ne (h : b.drive.kind ≠ .none) : ¬ (b.status = 0x00 ∨ b.status = 0xFF) := by
  rw [status_of_attached h]
  split_ifs
  · decide
  · cases b.drive.phase with
    | idle => exact (by decide : ¬ ((0x40 : UInt8) = 0 ∨ (0x40 : UInt8) = 0xFF))
    | error => exact (by decide : ¬ ((0x41 : UInt8) = 0 ∨ (0x41 : UInt8) = 0xFF))
    | reading words => exact (by decide : ¬ ((0x48 : UInt8) = 0 ∨ (0x48 : UInt8) = 0xFF))
    | writing lba taken => exact (by decide : ¬ ((0x48 : UInt8) = 0 ∨ (0x48 : UInt8) = 0xFF))

/-- The first drive answers for a second one that is missing. -/
theorem status_of_missing (h : b.drive.kind = .none) (hfirst : (b.drives 0).kind ≠ .none) :
    b.status = 0 := by
  have hmissing : b.missing = 0 := by
    unfold missing
    split
    next hnone => exact absurd hnone hfirst
    next => rfl
  exact (answer_of_none h _).trans hmissing

/-- A word is read from a drive that is there and not busy. -/
theorem inw_of_attached (h : b.drive.kind ≠ .none) (hwait : b.drive.wait = 0) :
    b.inw = (b.drive.takeWord.1, b.setDrive b.drive.takeWord.2) := by
  unfold inw
  split
  next hkind => exact absurd hkind h
  next => rw [hwait, if_neg (lt_irrefl 0)]

/-- A word is written to a drive that is there and not busy. -/
theorem outw_of_attached (h : b.drive.kind ≠ .none) (hwait : b.drive.wait = 0) (w : UInt16) :
    b.outw w = (b.setDrive (b.drive.putWord w (b.delays 0))).skip 1 := by
  unfold outw
  split
  next hkind => exact absurd hkind h
  next => rw [hwait, if_neg (lt_irrefl 0)]

end AtaBus
