/-
# Page tables

`src/paging.c` over the words of physical pages: the kernel's static directory and
tables, the directories of processes, and what a virtual address is translated to.  The
kernel reaches a table through the identity map or through one of two windows in its own
address space; the windows are entries of the kernel's tables and are modelled as such.
The bytes of a page are its 1024 words.
-/
import Microkernel.Pmm

namespace Microkernel

/-! ## Entries -/

/-- The words of the physical pages. -/
abbrev PageMemory := ℕ → ℕ → BitVec 32

namespace PageMemory

variable (m : PageMemory)

/-- Write word `i` of page `f`. -/
def store (f i : ℕ) (v : BitVec 32) : PageMemory :=
  fun f' i' => if f' = f ∧ i' = i then v else m f' i'

/-- `memset(page, 0, 4096)`. -/
def zeroPage (f : ℕ) : PageMemory := fun f' i => if f' = f then 0 else m f' i

end PageMemory

/-- `PAGE_PRESENT`. -/
def pagePresent : BitVec 32 := 0x001#32

/-- `PAGE_WRITE`. -/
def pageWrite : BitVec 32 := 0x002#32

/-- `PAGE_USER`. -/
def pageUser : BitVec 32 := 0x004#32

/-- `PAGE_CACHE_DISABLE`. -/
def pageCacheDisable : BitVec 32 := 0x010#32

/-- `TEMP_PD_VA`. -/
def tempPdVa : BitVec 32 := 0x3FE00000#32

/-- `TEMP_PT_VA`. -/
def tempPtVa : BitVec 32 := 0x3FE01000#32

/-- `e & flag`, as a condition. -/
def hasFlag (e flag : BitVec 32) : Bool := e &&& flag != 0#32

/-- The page whose address is `e & 0xFFFFF000`. -/
def frameOf (e : BitVec 32) : ℕ := e.toNat / 4096

/-- `virt >> 22`. -/
def pdIdx (virt : BitVec 32) : ℕ := (virt >>> 22).toNat

/-- `(virt >> 12) & 0x3FF`. -/
def ptIdx (virt : BitVec 32) : ℕ := (virt >>> 12 &&& 0x3FF#32).toNat

/-! ## The kernel's tables -/

/-- Where the linker put the kernel's static directory and tables: whole pages of the
kernel image. -/
structure KernelImage extends KernelEnd where
  pageDirectory : ℕ
  pageTables : ℕ
  dir_ge : 256 ≤ pageDirectory
  dir_lt : (pageDirectory + 1) * 4096 ≤ addr
  tables_ge : 256 ≤ pageTables
  tables_lt : (pageTables + 1024) * 4096 ≤ addr
  apart : pageDirectory < pageTables ∨ pageTables + 1024 ≤ pageDirectory
  /-- The kernel lies in the first GB. -/
  low : addr ≤ 0x40000000

/-- The state the functions work on. -/
structure Paging where
  mem : PageMemory
  pmm : Pmm

/-- The pages that `paging_init` maps one to one; the size is computed in 32 bits. -/
def ramPages (memKb : ℕ) : ℕ := memKb * 1024 % 2 ^ 32 / 4096

/-- `paging_init`: every entry of the directory leads to its static table, and the tables
map the pages of the RAM to themselves. -/
def pagingInit (k : KernelImage) (m : PageMemory) (memKb : ℕ) : PageMemory := fun f i =>
  if f = k.pageDirectory then
    BitVec.ofNat 32 ((k.pageTables + i) * 4096) ||| pagePresent ||| pageWrite ||| pageUser
  else if k.pageTables ≤ f ∧ f < k.pageTables + 1024 then
    if (f - k.pageTables) * 1024 + i < ramPages memKb then
      BitVec.ofNat 32 (((f - k.pageTables) * 1024 + i) * 4096) ||| pagePresent ||| pageWrite
        ||| pageUser
    else 0
  else m f i

namespace Paging

variable (k : KernelImage) (s : Paging)

/-- Write word `i` of page `f`. -/
def store (f i : ℕ) (v : BitVec 32) : Paging := ⟨s.mem.store f i v, s.pmm⟩

/-- The end of `paging_map_page`: write the entry in the table that `pde` names. -/
def writePte (s : Paging) (pde virt phys flags : BitVec 32) : Paging :=
  s.store (frameOf pde) (ptIdx virt)
    ((phys &&& 0xFFFFF000#32) ||| (flags &&& 0xFFF#32) ||| pagePresent)

/-- `paging_map_page`, in the kernel's directory. -/
def pagingMapPage (virt phys flags : BitVec 32) : Paging :=
  let pde := s.mem k.pageDirectory (pdIdx virt)
  if hasFlag pde pagePresent then s.writePte pde virt phys flags
  else
    let r := s.pmm.pmmAllocPage
    if r.2 = 0 then { s with pmm := r.1 }
    else
      let pde := BitVec.ofNat 32 r.2 ||| pagePresent ||| pageWrite ||| pageCacheDisable
      writePte { mem := (s.mem.zeroPage (r.2 / 4096)).store k.pageDirectory (pdIdx virt) pde
                 pmm := r.1 } pde virt phys flags

/-- `paging_unmap_page`, in the kernel's static tables. -/
def pagingUnmapPage (virt : BitVec 32) : Paging :=
  s.store (k.pageTables + pdIdx virt) (ptIdx virt) 0

/-- The page that the kernel reaches at a virtual address. -/
def viewed (virt : BitVec 32) : ℕ :=
  frameOf (s.mem (frameOf (s.mem k.pageDirectory (pdIdx virt))) (ptIdx virt))

/-- `paging_create_isolated_space`: a copy of the kernel's directory without the entries
256 to 767; the address of the new directory, or 0. -/
def pagingCreateIsolatedSpace : Paging × ℕ :=
  let r := s.pmm.pmmAllocPage
  if r.2 = 0 then ({ s with pmm := r.1 }, 0)
  else
    ({ mem := fun f i => if f = r.2 / 4096 ∧ i < 1024 then
          if 256 ≤ i ∧ i < 768 then 0 else s.mem k.pageDirectory i
        else s.mem f i
       pmm := r.1 }, r.2)

/-- The table allocation of `paging_map_user`: the directory in the first window gets a
table for the entry, cleared through the second window, or the entry gets `PAGE_USER`.
The result of `pmm_alloc_page` is not checked. -/
def ensureTable (virt : BitVec 32) : Paging :=
  let pdView := s.viewed k tempPdVa
  let pde := s.mem pdView (pdIdx virt)
  if hasFlag pde pagePresent = false then
    let r := s.pmm.pmmAllocPage
    let s := pagingMapPage k { s with pmm := r.1 } tempPtVa (BitVec.ofNat 32 r.2)
      (pagePresent ||| pageWrite)
    let s := { s with mem := s.mem.zeroPage (s.viewed k tempPtVa) }
    let s := s.store pdView (pdIdx virt)
      (BitVec.ofNat 32 r.2 ||| pagePresent ||| pageWrite ||| pageUser)
    s.pagingUnmapPage k tempPtVa
  else s.store pdView (pdIdx virt) (pde ||| pageUser)

/-- The flags `paging_map_user` writes: user pages, written through in the range of the GPU
buffers. -/
def finalFlags (virt flags : BitVec 32) : BitVec 32 :=
  let f := flags ||| pagePresent ||| pageUser
  if 0x30000000#32 ≤ virt ∧ virt < 0x40000000#32 then f ||| 0x08#32 else f

/-- `paging_map_user`: map a page in the directory at `targetPd`. -/
def pagingMapUser (targetPd : ℕ) (virt phys flags : BitVec 32) : Paging :=
  let s := s.pagingMapPage k tempPdVa (BitVec.ofNat 32 targetPd) (pagePresent ||| pageWrite)
  let pdView := s.viewed k tempPdVa
  let s := s.ensureTable k virt
  let pt := s.mem pdView (pdIdx virt) &&& 0xFFFFF000#32
  let s := s.pagingMapPage k tempPtVa pt (pagePresent ||| pageWrite)
  let s := s.store (s.viewed k tempPtVa) (ptIdx virt)
    ((phys &&& 0xFFFFF000#32) ||| (finalFlags virt flags &&& 0xFFF#32))
  (s.pagingUnmapPage k tempPtVa).pagingUnmapPage k tempPdVa

/-- The loop of `paging_destroy_address_space`: free the tables that are not the kernel's. -/
def destroyLoop (pd : ℕ) (s : Paging) (i : ℕ) : ℕ → Paging
  | 0 => s
  | n + 1 =>
    let e := s.mem (pd / 4096) i
    destroyLoop pd
      (if hasFlag e pagePresent = true ∧ frameOf e ≠ frameOf (s.mem k.pageDirectory i) then
        { s with pmm := s.pmm.pmmFreePage (frameOf e * 4096) } else s) (i + 1) n

/-- `paging_destroy_address_space`. -/
def pagingDestroyAddressSpace (pd : ℕ) : Paging :=
  if pd = 0 ∨ pd = k.pageDirectory * 4096 then s
  else
    let s := destroyLoop k pd s 0 1024
    { s with pmm := s.pmm.pmmFreePage pd }

end Paging

/-! ## Translation -/

/-- What a virtual page is translated to. -/
structure Translation where
  frame : ℕ
  writable : Bool
  user : Bool
  deriving DecidableEq

/-- The page walk for the virtual page `v`, its number, in the directory in page `pd`:
access is allowed if both entries allow it. -/
def walk (m : PageMemory) (pd v : ℕ) : Option Translation :=
  let pde := m pd (v / 1024)
  let pte := m (frameOf pde) (v % 1024)
  if hasFlag pde pagePresent ∧ hasFlag pte pagePresent then
    some ⟨frameOf pte, hasFlag pde pageWrite && hasFlag pte pageWrite,
      hasFlag pde pageUser && hasFlag pte pageUser⟩
  else none

/-- Ring 3 can access the virtual page. -/
def UserAccess (m : PageMemory) (pd v : ℕ) : Prop := ∃ t, walk m pd v = some t ∧ t.user = true

end Microkernel
