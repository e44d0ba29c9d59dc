/-
# The kernel heap

The allocator of `src/heap.c`: a doubly linked list of blocks in address order, each
with a header in front of its data area.  `kmalloc` takes the first free block that is
large enough and splits it, `kfree` marks a block free and merges it with its free
neighbours.

Everything the allocator knows is in memory.  Pointers and sizes are 32-bit words,
modelled by natural numbers with the wrap-around of `uint32_t` written out.  The loops
carry a bound; `none` is a loop that did not end within it.  A walk along the links
through more than `2 ^ 32` blocks meets a block twice, so it never ends.
-/
import Microkernel.ByteMemory

namespace Microkernel

/-! ## Headers -/

/-- `HEAP_MAGIC`. -/
def heapMagic : ℕ := 0xDEADBEEF

/-- `sizeof(block_header_t)`: five words, since `bool` is `int` here. -/
def headerSize : ℕ := 20

/-- Subtraction of 32-bit words. -/
def sub32 (a b : ℕ) : ℕ := (a + 2 ^ 32 - b) % 2 ^ 32

/-! The fields of the `block_header_t` at an address. -/

namespace Header

variable (m : Memory) (block : ℕ)

def magic : ℕ := m.load32 block

/-- The size of the data area, without the header. -/
def size : ℕ := m.load32 (block + 4)

def free : Bool := m.load32 (block + 8) != 0

def next : ℕ := m.load32 (block + 12)

def prev : ℕ := m.load32 (block + 16)

def setMagic (v : ℕ) : Memory := m.store32 block v

def setSize (v : ℕ) : Memory := m.store32 (block + 4) v

def setFree (v : Bool) : Memory := m.store32 (block + 8) v.toNat

def setNext (v : ℕ) : Memory := m.store32 (block + 12) v

def setPrev (v : ℕ) : Memory := m.store32 (block + 16) v

end Header

/-! ## The allocator -/

/-- The memory with the globals `heap_start` and `heap_total`. -/
structure Heap where
  mem : Memory
  heapStart : ℕ
  heapTotal : ℕ

/-- `heap_init`: the region is one free block. -/
def heapInit (m : Memory) (start size : ℕ) : Heap :=
  let m := Header.setMagic m start heapMagic
  let m := Header.setSize m start (sub32 size headerSize)
  let m := Header.setFree m start true
  let m := Header.setNext m start 0
  let m := Header.setPrev m start 0
  { mem := m, heapStart := start, heapTotal := size }

/-- `split_block`: the end of `block` becomes a free block of its own if it is large
enough for a header and 16 bytes. -/
def splitBlock (m : Memory) (block size : ℕ) : Memory :=
  if Header.size m block < (size + headerSize + 16) % 2 ^ 32 then m
  else
    let newBlock := (block + headerSize + size) % 2 ^ 32
    let m := Header.setMagic m newBlock heapMagic
    let m := Header.setSize m newBlock (sub32 (sub32 (Header.size m block) size) headerSize)
    let m := Header.setFree m newBlock true
    let m := Header.setNext m newBlock (Header.next m block)
    let m := Header.setPrev m newBlock block
    let m := if Header.next m block ≠ 0 then Header.setPrev m (Header.next m block) newBlock else m
    let m := Header.setNext m block newBlock
    Header.setSize m block size

/-- The body of the loop of `merge_free`: `block` absorbs the block after it. -/
def mergeNext (m : Memory) (block : ℕ) : Memory :=
  let m := Header.setSize m block
    ((Header.size m block + (headerSize + Header.size m (Header.next m block))) % 2 ^ 32)
  let m := Header.setNext m block (Header.next m (Header.next m block))
  if Header.next m block ≠ 0 then Header.setPrev m (Header.next m block) block else m

/-- `merge_free`: `block` absorbs the free blocks that follow it. -/
def mergeFree : ℕ → Memory → ℕ → Option Memory
  | 0, _, _ => none
  | fuel + 1, m, block =>
    if Header.next m block ≠ 0 ∧ Header.free m (Header.next m block) then
      mergeFree fuel (mergeNext m block) block
    else some m

/-- `(size + 7) & ~7`. -/
def roundUp (size : ℕ) : ℕ := (size + 7) % 2 ^ 32 &&& 0xFFFFFFF8

/-- The loop of `kmalloc`, with the rounded size; 0 is `NULL`. -/
def kmallocLoop (size : ℕ) : ℕ → Memory → ℕ → Option (Memory × ℕ)
  | 0, _, _ => none
  | fuel + 1, m, curr =>
    if curr = 0 then some (m, 0)
    else if Header.free m curr ∧ size ≤ Header.size m curr then
      some (Header.setFree (splitBlock m curr size) curr false, (curr + headerSize) % 2 ^ 32)
    else kmallocLoop size fuel m (Header.next m curr)

/-- The bound of the loops. -/
def loopBound : ℕ := 2 ^ 32

/-- What a call of `kfree` did: nothing for `NULL`; the message `kfree: corrupt block
at %x!` with the pointer; or the block is free now. -/
inductive FreeOutcome where
  | ignored
  | corrupt (ptr : ℕ)
  | freed
  deriving DecidableEq

namespace Heap

variable (h : Heap)

def kmalloc (size : ℕ) : Option (Heap × ℕ) :=
  if size = 0 then some (h, 0)
  else (kmallocLoop (roundUp size) loopBound h.mem h.heapStart).map fun r =>
    ({ h with mem := r.1 }, r.2)

def kcalloc (count size : ℕ) : Option (Heap × ℕ) :=
  (h.kmalloc (count * size % 2 ^ 32)).map fun r =>
    if r.2 ≠ 0 then ({ r.1 with mem := r.1.mem.fill r.2 0 (count * size % 2 ^ 32) }, r.2) else r

def kfree (ptr : ℕ) : Option (Heap × FreeOutcome) :=
  if ptr = 0 then some (h, .ignored)
  else
    let block := sub32 ptr headerSize
    if Header.magic h.mem block ≠ heapMagic then some (h, .corrupt ptr)
    else
      let m := Header.setFree h.mem block true
      let block := if Header.prev m block ≠ 0 ∧ Header.free m (Header.prev m block)
        then Header.prev m block else block
      (mergeFree loopBound m block).map fun m => ({ h with mem := m }, .freed)

end Heap

/-! ## What the allocator reports -/

/-- The loop of `heap_free_space` and `heap_used_space`: the sum of the sizes of the
blocks whose `free` flag is `wanted`. -/
def spaceLoop (wanted : Bool) : ℕ → Memory → ℕ → ℕ → Option ℕ
  | 0, _, _, _ => none
  | fuel + 1, m, curr, total =>
    if curr = 0 then some total
    else spaceLoop wanted fuel m (Header.next m curr)
      (if Header.free m curr = wanted then (total + Header.size m curr) % 2 ^ 32 else total)

def Heap.heapFreeSpace (h : Heap) : Option ℕ := spaceLoop true loopBound h.mem h.heapStart 0

def Heap.heapUsedSpace (h : Heap) : Option ℕ := spaceLoop false loopBound h.mem h.heapStart 0

end Microkernel
