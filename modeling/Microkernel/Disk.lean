/-
# Disks

A disk as a function from sector numbers to their bytes, with the writing of one sector and of
a run of sectors.  Nothing here is about a file system.
-/
import Microkernel.ByteMemory

/-- The bytes of every sector. -/
abbrev Disk := ℕ → Memory

namespace Disk

variable (d : Disk)

/-- Write one sector. -/
def write (lba : ℕ) (b : Memory) : Disk := fun s => if s = lba then b else d s

/-- Write the `n` sectors from `base` on, in order. -/
def writeRun (d : Disk) (base : ℕ) (content : ℕ → Memory) : ℕ → Disk
  | 0 => d
  | n + 1 => (writeRun d base content n).write (base + n) (content n)

@[simp] theorem write_same (lba : ℕ) (b : Memory) : d.write lba b lba = b := if_pos rfl

theorem write_of_ne {lba s : ℕ} (b : Memory) (h : s ≠ lba) : d.write lba b s = d s := if_neg h

/-- A run of writes leaves the other sectors alone. -/
theorem writeRun_of_outside {base n s : ℕ} (content : ℕ → Memory) (h : s < base ∨ base + n ≤ s) :
    d.writeRun base content n s = d s := by
  induction n with
  | zero => rfl
  | succ n ih =>
    unfold writeRun
    rw [write_of_ne _ _ (by omega), ih (by omega)]

end Disk
