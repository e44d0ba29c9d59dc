/-
# The ELF loader

`src/elf.c`: a binary is checked, a page directory is made for it, every `PT_LOAD` segment
is copied into fresh pages and mapped, then the stack, and a task is created.  What the
loader reads of the file is recorded, range by range; everything else it changes is the
page tables, the heap and the task table.

The file does not change while it is loaded.  A frame is written through the identity map,
as the source says.  `memcpy` of more bytes than are left in the frame runs over all of
memory, and nothing is said about the machine after that.
-/
import Microkernel.Heap
import Microkernel.Paging
import Microkernel.Scheduler

namespace Microkernel

/-! ## The file -/

/-- A binary in memory, as `elf_load` gets it: the byte at each distance from the pointer
`data`, which is a 32-bit word, and the size. -/
structure ElfFile where
  /-- `data` is `NULL`. -/
  null : Bool
  bytes : Memory
  size : ℕ
  size_lt : size < 2 ^ 32

/-- A range of the file that was read; offsets wrap around as pointers do. -/
structure FileRead where
  offset : ℕ
  len : ℕ
  deriving DecidableEq

/-- A field of a header: its offset in the header and its width in bytes. -/
structure Field where
  offset : ℕ
  width : ℕ
  deriving DecidableEq

/-- The range of a field of the header at `base`. -/
def Field.range (x : Field) (base : ℕ) : FileRead := ⟨(base + x.offset) % 2 ^ 32, x.width⟩

/-! The fields of `elf32_ehdr_t` that are used; the header has 52 bytes. -/

def eIdentMagic : Field := ⟨0, 4⟩
def eIdentClass : Field := ⟨4, 1⟩
def eIdentData : Field := ⟨5, 1⟩
def eType : Field := ⟨16, 2⟩
def eMachine : Field := ⟨18, 2⟩
def eEntry : Field := ⟨24, 4⟩
def ePhoff : Field := ⟨28, 4⟩
def ePhentsize : Field := ⟨42, 2⟩
def ePhnum : Field := ⟨44, 2⟩

/-- `sizeof(elf32_ehdr_t)`. -/
def ehdrSize : ℕ := 52

/-! The fields of `elf32_phdr_t` that are used. -/

def pType : Field := ⟨0, 4⟩
def pOffset : Field := ⟨4, 4⟩
def pVaddr : Field := ⟨8, 4⟩
def pFilesz : Field := ⟨16, 4⟩
def pMemsz : Field := ⟨20, 4⟩
def pFlags : Field := ⟨24, 4⟩

/-- `USER_BASE`, as a number. -/
def userBaseAddr : ℕ := 0xC0000000

/-- `USER_STACK_TOP`. -/
def userStackTop : ℕ := 0xE0000000

/-- `USER_STACK_PAGES`. -/
def userStackPages : ℕ := 4

/-- `USER_VGA_VADDR`. -/
def userVgaVaddr : ℕ := 0xB0000000

/-- `VGA_PHYS_BASE`. -/
def vgaPhysBase : ℕ := 0xB8000

/-- `TEMP_MAP_VA`. -/
def tempMapVa : BitVec 32 := 0x3FD00000#32

/-- `KERNEL_STACK_SIZE`. -/
def kernelStackSize : ℕ := 4096

/-- `elf32_phdr_t`, less the fields that are not used. -/
structure Phdr where
  type : ℕ
  offset : ℕ
  vaddr : ℕ
  filesz : ℕ
  memsz : ℕ
  flags : ℕ
  deriving DecidableEq

namespace ElfFile

variable (f : ElfFile)

/-- The bytes as a 32-bit pointer reaches them. -/
def mem : Memory := fun o => f.bytes (o % 2 ^ 32)

/-- A field of the header at `base`. -/
def get (base : ℕ) (x : Field) : ℕ := f.mem.loadLE (base + x.offset) x.width

def phoff : ℕ := f.get 0 ePhoff

def phentsize : ℕ := f.get 0 ePhentsize

def phnum : ℕ := f.get 0 ePhnum

def entry : ℕ := f.get 0 eEntry

/-- Where program header `i` is: `file_data + e_phoff + i * e_phentsize`. -/
def phdrBase (i : ℕ) : ℕ := (f.phoff + i * f.phentsize) % 2 ^ 32

/-- Program header `i`. -/
def phdr (i : ℕ) : Phdr where
  type := f.get (f.phdrBase i) pType
  offset := f.get (f.phdrBase i) pOffset
  vaddr := f.get (f.phdrBase i) pVaddr
  filesz := f.get (f.phdrBase i) pFilesz
  memsz := f.get (f.phdrBase i) pMemsz
  flags := f.get (f.phdrBase i) pFlags

end ElfFile

/-! ## Validation -/

/-- Why a binary is not loaded, one for each exit with `-1`. -/
inductive ElfError where
  /-- No data, or less than a header. -/
  | tooSmall
  /-- `ELF: bad magic %x`. -/
  | badMagic (magic : ℕ)
  /-- `ELF: not a 32-bit x86 executable`. -/
  | notExecutable
  /-- `ELF: no program headers`. -/
  | noProgramHeaders
  /-- `ELF: program headers outside file`. -/
  | headersOutside
  /-- `ELF: entry point %x below user base %x`. -/
  | entryBelow (entry : ℕ)
  /-- `ELF: failed to create address space`. -/
  | noAddressSpace
  /-- `ELF: segment at %x below user base`. -/
  | segmentBelow (vaddr : ℕ)
  /-- `ELF: segment file data exceeds binary size`. -/
  | segmentOutside
  /-- `map_segment` failed. -/
  | noSegmentMemory
  /-- `ELF: out of memory for user stack`. -/
  | noStackMemory
  /-- `ELF: out of memory for kernel stack`. -/
  | noKernelStack
  /-- `ELF: failed to create task`. -/
  | noTask
  deriving DecidableEq

/-- The conditions of an `if` with `||` that compare fields of the header with constants:
they are read in turn, up to the first that differs. -/
def matchFields (f : ElfFile) : List (Field × ℕ) → List FileRead × Bool
  | [] => ([], true)
  | (x, v) :: rest =>
    if f.get 0 x ≠ v then ([x.range 0], false)
    else ((x.range 0) :: (matchFields f rest).1, (matchFields f rest).2)

/-- The identification of a 32-bit little-endian executable for i386. -/
def elfIdentification : List (Field × ℕ) :=
  [(eIdentClass, 1), (eIdentData, 1), (eType, 2), (eMachine, 3)]

/-- `ph_end`, in 32 bits. -/
def ElfFile.phEnd (f : ElfFile) : ℕ := (f.phoff + f.phnum * f.phentsize) % 2 ^ 32

/-- The checks of `elf_validate` after the identification. -/
def checkHeaders (f : ElfFile) : List FileRead × Option ElfError :=
  if f.phnum = 0 then ([ePhnum.range 0], some .noProgramHeaders)
  else if f.phoff = 0 then ([ePhnum.range 0, ePhoff.range 0], some .noProgramHeaders)
  else
    let reads := [ePhnum.range 0, ePhoff.range 0, ePhentsize.range 0]
    if f.phEnd > f.size then (reads, some .headersOutside)
    else if f.entry < userBaseAddr then (reads ++ [eEntry.range 0], some (.entryBelow f.entry))
    else (reads ++ [eEntry.range 0], none)

/-- `elf_validate`: what it reads, and why the file is refused, if it is. -/
def elfValidate (f : ElfFile) : List FileRead × Option ElfError :=
  if f.null = true ∨ f.size < ehdrSize then ([], some .tooSmall)
  else if f.get 0 eIdentMagic ≠ 0x464C457F then
    ([eIdentMagic.range 0], some (.badMagic (f.get 0 eIdentMagic)))
  else
    let ident := matchFields f elfIdentification
    if ident.2 = false then (eIdentMagic.range 0 :: ident.1, some .notExecutable)
    else
      let rest := checkHeaders f
      (eIdentMagic.range 0 :: ident.1 ++ rest.1, rest.2)

/-! ## Segments -/

namespace Phdr

variable (p : Phdr)

/-- `vaddr_start`. -/
def vaddrStart : ℕ := p.vaddr / 4096 * 4096

/-- `vaddr_end`. -/
def vaddrEnd : ℕ := (p.vaddr + p.memsz + 0xFFF) % 2 ^ 32 / 4096 * 4096

/-- `num_pages`. -/
def numPages : ℕ := sub32 p.vaddrEnd p.vaddrStart / 4096

/-- `page_vaddr` in round `i`. -/
def pageVaddr (i : ℕ) : ℕ := (p.vaddrStart + i * 4096) % 2 ^ 32

/-- The flags of the mapping. -/
def mapFlags : BitVec 32 :=
  if p.flags &&& 2 ≠ 0 then pagePresent ||| pageUser ||| pageWrite else pagePresent ||| pageUser

end Phdr

/-- What is copied into a page: `copy_len` bytes at `file_offset` to `page_offset`. -/
structure PageCopy where
  pageOffset : ℕ
  fileOffset : ℕ
  copyLen : ℕ
  deriving DecidableEq

/-- What `map_segment` copies into the page at a virtual address. -/
def pageCopy (p : Phdr) (pageVaddr : ℕ) : Option PageCopy :=
  let segFileStart := p.vaddr
  let segFileEnd := (p.vaddr + p.filesz) % 2 ^ 32
  let pageStart := pageVaddr
  let pageEnd := (pageVaddr + 4096) % 2 ^ 32
  if segFileEnd > pageStart ∧ segFileStart < pageEnd then
    let copyStart := if segFileStart > pageStart then segFileStart else pageStart
    let copyEnd := if segFileEnd < pageEnd then segFileEnd else pageEnd
    some
      { pageOffset := sub32 copyStart pageStart
        fileOffset := (p.offset + sub32 copyStart p.vaddr) % 2 ^ 32
        copyLen := sub32 copyEnd copyStart }
  else none

/-- The bytes of a page after `memset` and `memcpy`. -/
def pageBytes (f : ElfFile) (c : Option PageCopy) : Memory := fun o =>
  match c with
  | some c =>
    if c.pageOffset ≤ o ∧ o < c.pageOffset + c.copyLen then
      f.mem (c.fileOffset + (o - c.pageOffset)) else 0
  | none => 0

/-- The copy stays in the page. -/
def copyFits : Option PageCopy → Prop
  | some c => c.pageOffset + c.copyLen ≤ 4096
  | none => True

instance (c : Option PageCopy) : Decidable (copyFits c) := by
  unfold copyFits
  split <;> infer_instance

/-- Fill a page with bytes. -/
def PageMemory.fillPage (m : PageMemory) (f : ℕ) (b : Memory) : PageMemory := fun f' i =>
  if f' = f then BitVec.ofNat 32 (b.load32 (4 * i)) else m f' i

/-! ## The loader -/

/-- What the loader works on, and what it has read of the file, the latest first. -/
structure Loader where
  paging : Paging
  heap : Heap
  kernel : Kernel
  reads : List FileRead

/-- How far a part of the loader came. -/
inductive Progress where
  | done
  | failed (e : ElfError)
  /-- `memcpy` left the page. -/
  | overrun
  deriving DecidableEq

/-- How a call of `elf_load` ends. -/
inductive LoadResult where
  | pid (p : UInt32)
  /-- `-1`. -/
  | failed (e : ElfError)
  /-- The call does not return: `memcpy` left a page, or the heap has no end. -/
  | lost
  deriving DecidableEq

namespace Loader

variable (k : KernelImage) (f : ElfFile)

/-- Record what is read. -/
def read (l : Loader) (rs : List FileRead) : Loader := { l with reads := rs ++ l.reads }

/-- Replace the page allocator. -/
def setPmm (l : Loader) (p : Pmm) : Loader := { l with paging := { l.paging with pmm := p } }

/-- `paging_destroy_address_space(pd)`. -/
def destroy (l : Loader) (pd : ℕ) : Loader :=
  { l with paging := l.paging.pagingDestroyAddressSpace k pd }

/-- `paging_map_user`. -/
def mapUser (l : Loader) (pd virt phys : ℕ) (flags : BitVec 32) : Loader :=
  let s := l.paging.pagingMapUser k pd (BitVec.ofNat 32 virt) (BitVec.ofNat 32 phys) flags
  { l with paging := s }

/-- The frame at `framePhys` is filled and mapped at `pageVaddr`. -/
def mapFrame (l : Loader) (pd : ℕ) (p : Phdr) (pageVaddr framePhys : ℕ) : Loader :=
  let mem := l.paging.mem.fillPage (framePhys / 4096) (pageBytes f (pageCopy p pageVaddr))
  mapUser k { l with paging := { l.paging with mem := mem } } pd pageVaddr framePhys p.mapFlags

/-- What is read of the file for a page. -/
def copyReads : Option PageCopy → List FileRead
  | some c => [⟨c.fileOffset, c.copyLen⟩]
  | none => []

/-- The loop of `map_segment`, in round `i` with `n` rounds left. -/
def mapSegmentLoop (pd : ℕ) (p : Phdr) (l : Loader) (i : ℕ) : ℕ → Loader × Progress
  | 0 => (l, .done)
  | n + 1 =>
    let r := l.paging.pmm.pmmAllocPage
    let l := l.setPmm r.1
    if r.2 = 0 then (l, .failed .noSegmentMemory)
    else
      let copy := pageCopy p (p.pageVaddr i)
      let l := l.read (copyReads copy)
      if copyFits copy then
        mapSegmentLoop pd p (l.mapFrame k f pd p (p.pageVaddr i) r.2) (i + 1) n
      else (l, .overrun)

/-- `map_segment`. -/
def mapSegment (pd : ℕ) (p : Phdr) (l : Loader) : Loader × Progress :=
  mapSegmentLoop k f pd p l 0 p.numPages

/-- One program header that was found to be a segment in user space: the bounds check and
`map_segment`; on failure the address space is destroyed. -/
def loadSegment (pd i : ℕ) (l : Loader) : Loader × Progress :=
  let p := f.phdr i
  let base := f.phdrBase i
  let l := l.read [pFilesz.range base, pOffset.range base]
  if (p.offset + p.filesz) % 2 ^ 32 > f.size then (l.destroy k pd, .failed .segmentOutside)
  else
    let r := mapSegment k f pd p (l.read [pFlags.range base])
    match r.2 with
    | .failed e => (r.1.destroy k pd, .failed e)
    | _ => r

/-- The body of the loop of `elf_load` over the program headers. -/
def loadHeader (pd i : ℕ) (l : Loader) : Loader × Progress :=
  let p := f.phdr i
  let base := f.phdrBase i
  let l := l.read [pType.range base, ePhentsize.range 0, ePhoff.range 0, ePhnum.range 0]
  if p.type ≠ 1 then (l, .done)
  else
    let l := l.read [pMemsz.range base]
    if p.memsz = 0 then (l, .done)
    else
      let l := l.read [pVaddr.range base]
      if p.vaddr < userBaseAddr then (l.destroy k pd, .failed (.segmentBelow p.vaddr))
      else loadSegment k f pd i l

/-- The loop of `elf_load` over the program headers, at header `i` with `n` left. -/
def loadHeaders (pd : ℕ) (l : Loader) (i : ℕ) : ℕ → Loader × Progress
  | 0 => (l.read [ePhnum.range 0], .done)
  | n + 1 =>
    let r := loadHeader k f pd i l
    match r.2 with
    | .done => loadHeaders pd r.1 (i + 1) n
    | _ => r

/-- A frame for the stack is cleared through the window at `TEMP_MAP_VA` and mapped. -/
def mapStackFrame (l : Loader) (pd : ℕ) (vaddr framePhys : ℕ) : Loader :=
  let s := l.paging.pagingMapPage k tempMapVa (BitVec.ofNat 32 framePhys)
    (pagePresent ||| pageWrite)
  let s := { s with mem := s.mem.zeroPage (s.viewed k tempMapVa) }
  mapUser k { l with paging := s.pagingUnmapPage k tempMapVa } pd vaddr framePhys
    (pagePresent ||| pageWrite ||| pageUser)

/-- The loop of `elf_load` over the pages of the stack. -/
def mapStack (pd : ℕ) (l : Loader) (i : ℕ) : ℕ → Loader × Progress
  | 0 => (l, .done)
  | n + 1 =>
    let r := l.paging.pmm.pmmAllocPage
    let l := l.setPmm r.1
    if r.2 = 0 then (l.destroy k pd, .failed .noStackMemory)
    else mapStack pd (l.mapStackFrame k pd (userStackTop - userStackPages * 4096 + i * 4096) r.2)
      (i + 1) n

/-- `ELF_MAP_VGA`: two pages of the text buffer. -/
def mapVga (pd : ℕ) (l : Loader) : Loader :=
  let flags := pagePresent ||| pageWrite ||| pageUser
  (l.mapUser k pd userVgaVaddr vgaPhysBase flags).mapUser k pd (userVgaVaddr + 4096)
    (vgaPhysBase + 4096) flags

/-- The arguments of `elf_load` besides the file. -/
structure Args where
  name : List UInt8
  priority : UInt32
  ioPrivileged : Bool
  flags : UInt32

/-- The end of `elf_load`: the kernel stack and the task.  A PID that is negative as an
`int32_t` counts as a failure. -/
def createTask (args : Args) (pd : ℕ) (l : Loader) : Loader × LoadResult :=
  match l.heap.kmalloc kernelStackSize with
  | none => (l, .lost)
  | some (heap, kernelStack) =>
    let l := { l with heap := heap }
    if kernelStack = 0 then (l.destroy k pd, .failed .noKernelStack)
    else
      let l := l.read [eEntry.range 0]
      let r := l.kernel.taskCreateFromElf args.name (UInt32.ofNat userStackTop) (UInt32.ofNat pd)
        (UInt32.ofNat kernelStack) (UInt32.ofNat kernelStackSize) args.priority args.ioPrivileged
      let l := { l with kernel := r.1 }
      match r.2 with
      | .ret pid =>
        if pid < 0 then
          match l.heap.kfree kernelStack with
          | none => (l, .lost)
          | some (heap, _) => (destroy k { l with heap := heap } pd, .failed .noTask)
        else (l.read [eEntry.range 0], .pid pid.toUInt32)
      | .yields => (l, .lost)

/-- `elf_load` after the address space was made. -/
def loadInto (args : Args) (pd : ℕ) (l : Loader) : Loader × LoadResult :=
  let r := loadHeaders k f pd l 0 f.phnum
  match r.2 with
  | .failed e => (r.1, .failed e)
  | .overrun => (r.1, .lost)
  | .done =>
    let r := mapStack k pd r.1 0 userStackPages
    match r.2 with
    | .failed e => (r.1, .failed e)
    | .overrun => (r.1, .lost)
    | .done => createTask k args pd (if args.flags &&& 1 ≠ 0 then mapVga k pd r.1 else r.1)

/-- `elf_load`. -/
def elfLoad (args : Args) (l : Loader) : Loader × LoadResult :=
  let v := elfValidate f
  let l := l.read v.1.reverse
  match v.2 with
  | some e => (l, .failed e)
  | none =>
    let l := l.read [ePhnum.range 0, eEntry.range 0]
    let r := l.paging.pagingCreateIsolatedSpace k
    let l := { l with paging := r.1 }
    if r.2 = 0 then (l, .failed .noAddressSpace) else loadInto k f args r.2 l

end Loader

end Microkernel
