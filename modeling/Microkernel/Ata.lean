/-
# The ATA driver

`src/ata.c`.  A buffer is the list of the words of its sectors.
-/
import Microkernel.AtaBus

namespace Microkernel

/-- The number of polls after which `ata_wait_ready` and `ata_wait_drq` give up. -/
@[irreducible] def ataTimeout : ℕ := 100000

/-- `ATA_CMD_READ_PIO`. -/
def ataCmdReadPio : UInt8 := 0x20

/-- `ATA_CMD_WRITE_PIO`. -/
def ataCmdWritePio : UInt8 := 0x30

/-- `ATA_CMD_IDENTIFY`. -/
def ataCmdIdentify : UInt8 := 0xEC

/-- `ATA_CMD_FLUSH`. -/
def ataCmdFlush : UInt8 := 0xE7

/-- `ata_drive_t`. -/
structure AtaInfo where
  present : Bool
  isMaster : Bool
  sectors : UInt32
  sizeMb : UInt32
  model : List UInt8
  serial : List UInt8

/-- The static variables of `ata.c`. -/
structure Ata where
  drives : Fin 2 → AtaInfo
  numDrives : ℕ

/-- `ata_400ns_delay`. -/
def ata400nsDelay (b : AtaBus) : AtaBus :=
  ((((b.inb .control).2.inb .control).2.inb .control).2.inb .control).2

/-- `ata_wait_ready`. -/
def ataWaitReady : ℕ → AtaBus → Bool × AtaBus
  | 0, b => (false, b)
  | timeout + 1, b =>
    let (s, b) := b.inb .command
    if s &&& 0x80 = 0 then (true, b) else ataWaitReady timeout b

/-- `ata_wait_drq`. -/
def ataWaitDrq : ℕ → AtaBus → Bool × AtaBus
  | 0, b => (false, b)
  | timeout + 1, b =>
    let (s, b) := b.inb .command
    if s &&& 0x01 ≠ 0 then (false, b)
    else if s &&& 0x80 = 0 ∧ s &&& 0x08 ≠ 0 then (true, b)
    else ataWaitDrq timeout b

/-- `ata_copy_string`. -/
def ataCopyString (src : List UInt16) : List UInt8 :=
  (src.flatMap fun w : UInt16 => [(w >>> 8).toUInt8, w.toUInt8]).rdropWhile (· = 0x20)

/-- Read `n` words. -/
def ataReadWords : ℕ → AtaBus → List UInt16 × AtaBus
  | 0, b => ([], b)
  | n + 1, b =>
    let rest := ataReadWords n b.inw.2
    (b.inw.1 :: rest.1, rest.2)

/-- Write words. -/
def ataWriteWords : List UInt16 → AtaBus → AtaBus
  | [], b => b
  | w :: words, b => ataWriteWords words (b.outw w)

/-- An entry of `drives` after `memset`. -/
def AtaInfo.zero (i : Fin 2) : AtaInfo := ⟨false, i = 0, 0, 0, [], []⟩

/-- The number of sectors: that of the addresses of 28 bits, or the product of the geometry. -/
def ataSectors (id : List UInt16) : UInt32 :=
  let sectors := (id.getD 60 0).toUInt32 ||| ((id.getD 61 0).toUInt32 <<< 16)
  if sectors = 0 then (id.getD 1 0).toUInt32 * (id.getD 3 0).toUInt32 * (id.getD 6 0).toUInt32
  else sectors

/-- What `ata_identify_drive` takes from the words of the identification. -/
def AtaInfo.ofIdentity (i : Fin 2) (id : List UInt16) : AtaInfo where
  present := true
  isMaster := i = 0
  sectors := ataSectors id
  sizeMb := ataSectors id / 2048
  model := ataCopyString ((id.drop 27).take 20)
  serial := ataCopyString ((id.drop 10).take 10)

/-- The second half of `ata_identify_drive`, when the command has been given. -/
def ataIdentifyAnswer (i : Fin 2) (b : AtaBus) : AtaInfo × AtaBus :=
  let status := b.inb .command
  if status.1 = 0 then (AtaInfo.zero i, status.2)
  else
    let ready := ataWaitReady ataTimeout status.2
    if ready.1 = false then (AtaInfo.zero i, ready.2)
    else if (ready.2.inb .lbaMid).1 ≠ 0 ∨ (ready.2.inb .lbaHi).1 ≠ 0 then
      (AtaInfo.zero i, ready.2)
    else
      let drq := ataWaitDrq ataTimeout ready.2
      if drq.1 = false then (AtaInfo.zero i, drq.2)
      else
        let id := ataReadWords 256 drq.2
        (AtaInfo.ofIdentity i id.1, id.2)

/-- `ATA_DH_MASTER` or `ATA_DH_SLAVE`. -/
def ataDh (i : Fin 2) : UInt8 := if i = 0 then 0xA0 else 0xB0

/-- The registers and the command of `ata_identify_drive`. -/
def ataAskIdentity (i : Fin 2) (b : AtaBus) : AtaBus :=
  let b := b.outb .driveHead (ataDh i)
  let b := b.outb .sectCnt 0
  let b := b.outb .lbaLo 0
  let b := b.outb .lbaMid 0
  let b := b.outb .lbaHi 0
  b.outb .command ataCmdIdentify

/-- `ata_identify_drive`; its result is what it leaves in `present`. -/
def ataIdentifyDrive (i : Fin 2) (b : AtaBus) : AtaInfo × AtaBus :=
  let ready := ataWaitReady ataTimeout (ata400nsDelay (b.outb .driveHead (ataDh i)))
  if ready.1 = false then (AtaInfo.zero i, ready.2)
  else
    let status := ready.2.inb .command
    if status.1 = 0x00 ∨ status.1 = 0xFF then (AtaInfo.zero i, status.2)
    else ataIdentifyAnswer i (ata400nsDelay (ataAskIdentity i status.2))

/-- `ata_init`. -/
def ataInit (b : AtaBus) : Ata × AtaBus :=
  let b := ata400nsDelay (b.outb .control 0x04)
  let hda := ataIdentifyDrive 0 (ata400nsDelay (b.outb .control 0x00))
  let hdb := ataIdentifyDrive 1 hda.2
  (⟨fun i => if i = 0 then hda.1 else hdb.1, hda.1.present.toNat + hdb.1.present.toNat⟩, hdb.2)

/-- The drive of an index from 0 to `ATA_MAX_DRIVES - 1`. -/
def ataDriveOf (idx : ℤ) : Option (Fin 2) := if idx = 0 then some 0 else if idx = 1 then some 1 else none

/-- `ATA_DH_LBA_MASTER` or `ATA_DH_LBA_SLAVE`. -/
def ataDhLba (i : Fin 2) : UInt8 := if i = 0 then 0xE0 else 0xF0

/-- The registers of a transfer, and its command. -/
def ataSetup (i : Fin 2) (lba : UInt32) (cmd : UInt8) (b : AtaBus) : AtaBus :=
  let b := b.outb .driveHead (ataDhLba i ||| ((lba >>> 24).toUInt8 &&& 0x0F))
  let b := b.outb .features 0x00
  let b := b.outb .sectCnt 1
  let b := b.outb .lbaLo lba.toUInt8
  let b := b.outb .lbaMid (lba >>> 8).toUInt8
  let b := b.outb .lbaHi (lba >>> 16).toUInt8
  b.outb .command cmd

/-- What `ata_read_sector_drv` and `ata_write_sector_drv` both do until the drive asks for the data. -/
def ataBegin (a : Ata) (idx : ℤ) (lba : UInt32) (cmd : UInt8) (b : AtaBus) : Bool × AtaBus :=
  match ataDriveOf idx with
  | none => (false, b)
  | some i =>
    if (a.drives i).present = false then (false, b)
    else if (a.drives i).sectors ≤ lba then (false, b)
    else
      let ready := ataWaitReady ataTimeout b
      if ready.1 = false then (false, ready.2)
      else ataWaitDrq ataTimeout (ataSetup i lba cmd ready.2)

/-- `ata_read_sector_drv`: the words that are read, if it succeeds. -/
def ataReadSectorDrv (a : Ata) (idx : ℤ) (lba : UInt32) (b : AtaBus) : Option (List UInt16) × AtaBus :=
  let drq := ataBegin a idx lba ataCmdReadPio b
  if drq.1 = false then (none, drq.2)
  else
    let buffer := ataReadWords 256 drq.2
    (some buffer.1, ata400nsDelay buffer.2)

/-- `ata_write_sector_drv`. -/
def ataWriteSectorDrv (a : Ata) (idx : ℤ) (lba : UInt32) (buffer : AtaSector) (b : AtaBus) :
    Bool × AtaBus :=
  let drq := ataBegin a idx lba ataCmdWritePio b
  if drq.1 = false then (false, drq.2)
  else
    let b := ata400nsDelay (ataWriteWords buffer.val drq.2)
    (true, (ataWaitReady ataTimeout (b.outb .command ataCmdFlush)).2)

/-- The loop of `ata_read_sectors` with `n` sectors to go: the sectors that were read, and if none
failed. -/
def ataReadLoop (a : Ata) (lba : UInt32) : ℕ → ℕ → AtaBus → (List (List UInt16) × Bool) × AtaBus
  | 0, _, b => (([], true), b)
  | n + 1, i, b =>
    match ataReadSectorDrv a 0 (lba + UInt32.ofNat i) b with
    | (none, b) => (([], false), b)
    | (some words, b) =>
      let rest := ataReadLoop a lba n (i + 1) b
      ((words :: rest.1.1, rest.1.2), rest.2)

/-- `ata_read_sectors`. -/
def ataReadSectors (a : Ata) (lba : UInt32) (count : UInt8) (b : AtaBus) :
    (List (List UInt16) × Bool) × AtaBus :=
  ataReadLoop a lba count.toNat 0 b

/-- The loop of `ata_write_sectors` over the sectors of the buffer. -/
def ataWriteLoop (a : Ata) (lba : UInt32) : List AtaSector → ℕ → AtaBus → Bool × AtaBus
  | [], _, b => (true, b)
  | s :: sectors, i, b =>
    match ataWriteSectorDrv a 0 (lba + UInt32.ofNat i) s b with
    | (false, b) => (false, b)
    | (true, b) => ataWriteLoop a lba sectors (i + 1) b

/-- `ata_write_sectors`, with the first `count` sectors of the buffer. -/
def ataWriteSectors (a : Ata) (lba : UInt32) (buffer : List AtaSector) (b : AtaBus) : Bool × AtaBus :=
  ataWriteLoop a lba buffer 0 b

/-- `ata_drive_present`. -/
def ataDrivePresent (a : Ata) (idx : ℤ) : Bool :=
  match ataDriveOf idx with
  | none => false
  | some i => (a.drives i).present

end Microkernel
