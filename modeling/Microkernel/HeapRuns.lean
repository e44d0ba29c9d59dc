/-
# Runs of the heap

The users of the heap: any sequence of `kmalloc`, `kcalloc` and `kfree` on a region
given to `heap_init`, with the pointers that are live, and with the bytes the users
write into their areas in between.  In every state such a sequence reaches, the blocks
tile the region, their links agree and no two free ones are adjacent; and when every
live pointer is freed, in whatever order, the heap is the single block it was.
-/
import Microkernel.HeapRefinement
import Microkernel.Runs

namespace Microkernel

open BlockList

/-! ## Users of the heap -/

/-- A region for `heap_init`: not at `NULL`, larger than a header, smaller than 2 GB and
inside the address space. -/
structure Region where
  start : ℕ
  size : ℕ
  start_ne_null : start ≠ 0
  header_lt : headerSize < size
  lt_two_gb : size < 2 ^ 31
  inside : start + size ≤ 2 ^ 32

/-- The heap with the pointers its users hold. -/
structure HeapClient where
  heap : Heap
  live : List ℕ

/-- What the users do: calls of the allocator, and stores. -/
inductive HeapOp where
  | kmalloc (size : ℕ)
  | kcalloc (count size : ℕ)
  | kfree (ptr : ℕ)
  | write (a : ℕ) (v : UInt8)
  deriving DecidableEq

namespace HeapClient

variable (c : HeapClient)

/-- The result of an allocation: a pointer that is not `NULL` is live. -/
def allocated (r : Heap × ℕ) : HeapClient :=
  ⟨r.1, if r.2 = 0 then c.live else r.2 :: c.live⟩

/-- The effect of an operation; `none` if a loop of the allocator does not end. -/
def exec : HeapOp → Option HeapClient
  | .kmalloc size => (c.heap.kmalloc size).map c.allocated
  | .kcalloc count size => (c.heap.kcalloc count size).map c.allocated
  | .kfree ptr => (c.heap.kfree ptr).map fun r => ⟨r.1, c.live.erase ptr⟩
  | .write a v => some { c with heap := { c.heap with mem := c.heap.mem.store8 a v } }

/-- What users may do.  Sizes are 32-bit words, and the one given to `kcalloc` can be rounded
up to a multiple of 8; `kfree` is given `NULL` or a live pointer; and stores go to live
areas or outside the heap. -/
def Allowed : HeapOp → Prop
  | .kmalloc size => size < 2 ^ 32
  | .kcalloc count size =>
    count < 2 ^ 32 ∧ size < 2 ^ 32 ∧ count * size % 2 ^ 32 ≤ 2 ^ 32 - 8
  | .kfree ptr => ptr = 0 ∨ ptr ∈ c.live
  | .write a _ => (a < c.heap.heapStart ∨ c.heap.heapStart + c.heap.heapTotal ≤ a) ∨
      ∃ p ∈ c.live, p ≤ a ∧ a < p + Header.size c.heap.mem (p - headerSize)

instance : DecidablePred c.Allowed := fun op => by
  cases op <;> unfold Allowed <;> infer_instance

/-- After `heap_init`, before the first allocation. -/
def init (m : Memory) (r : Region) : HeapClient := ⟨heapInit m r.start r.size, []⟩

/-- A step of the users. -/
def Step (c : HeapClient) (op : HeapOp) (c' : HeapClient) : Prop :=
  c.Allowed op ∧ c.exec op = some c'

end HeapClient

/-! ## What a heap looks like in memory -/

/-- The blocks met on the way along the `next` links, as `heap_dump` walks. -/
def blocksLoop : ℕ → Memory → ℕ → Option (List ℕ)
  | 0, _, _ => none
  | fuel + 1, m, curr =>
    if curr = 0 then some []
    else (blocksLoop fuel m (Header.next m curr)).map fun bs => curr :: bs

/-- The blocks from `heap_start` on. -/
def Heap.blocks (h : Heap) : Option (List ℕ) := blocksLoop loopBound h.mem h.heapStart

/-- The heap is well formed, read from its headers: `bs` are the addresses of its blocks. -/
structure WellFormed (c : HeapClient) (bs : List ℕ) : Prop where
  walk : c.heap.blocks = some bs
  first : bs.head? = some c.heap.heapStart
  /-- Each block lies where the one before it ends. -/
  tiles : bs.IsChain fun a b => b = a + headerSize + Header.size c.heap.mem a
  last : ∀ a ∈ bs.getLast?,
    a + headerSize + Header.size c.heap.mem a = c.heap.heapStart + c.heap.heapTotal
  total : (bs.map fun a => Header.size c.heap.mem a + headerSize).sum = c.heap.heapTotal
  magic : ∀ a ∈ bs, Header.magic c.heap.mem a = heapMagic
  links : bs.IsChain fun a b => Header.next c.heap.mem a = b ∧ Header.prev c.heap.mem b = a
  firstPrev : ∀ a ∈ bs.head?, Header.prev c.heap.mem a = 0
  lastNext : ∀ a ∈ bs.getLast?, Header.next c.heap.mem a = 0
  apart : bs.IsChain fun a b => ¬ (Header.free c.heap.mem a ∧ Header.free c.heap.mem b)
  /-- The live pointers are the data areas of the blocks that are not free. -/
  live_iff : ∀ p, p ∈ c.live ↔ ∃ a ∈ bs, Header.free c.heap.mem a = false ∧ p = a + headerSize
  /-- Live blocks are disjoint, headers included. -/
  disjoint : c.live.Pairwise fun p q =>
    p + Header.size c.heap.mem (p - headerSize) ≤ q - headerSize ∨
      q + Header.size c.heap.mem (q - headerSize) ≤ p - headerSize

/-! ## Reading the headers of a represented list -/

/-- The addresses of the blocks of a list that lies at `a`. -/
def addrs : ℕ → List Block → List ℕ
  | _, [] => []
  | a, b :: bs => a :: addrs (a + (headerSize + b.size)) bs

section

variable {m : Memory} {stop prev a : ℕ} {bs : List Block}

theorem addrs_head : ∀ x ∈ (addrs a bs).head?, x = a := by
  cases bs with
  | nil =>
    intro x hx
    cases hx
  | cons b bs =>
    intro x hx
    cases hx
    rfl

namespace Seg

theorem blocksLoop {fuel : ℕ} (h : Seg m 0 prev a bs) (ha : a ≠ 0) (hfuel : bs.length < fuel) :
    blocksLoop fuel m (linkTo 0 a bs) = some (addrs a bs) := by
  induction bs generalizing prev a fuel with
  | nil =>
    obtain ⟨fuel, rfl⟩ := Nat.exists_eq_succ_of_ne_zero (Nat.ne_of_gt hfuel)
    rfl
  | cons b bs ih =>
    obtain ⟨fuel, rfl⟩ := Nat.exists_eq_succ_of_ne_zero (Nat.ne_of_gt (Nat.zero_lt_of_lt hfuel))
    have hnext : Header.next m a = linkTo 0 (a + (headerSize + b.size)) bs := h.1.next
    unfold Microkernel.blocksLoop
    rw [show linkTo 0 a (b :: bs) = a from rfl, if_neg ha, hnext,
      ih h.2 (by omega) (Nat.lt_of_succ_lt_succ hfuel)]
    rfl

/-- Neighbours are where the sizes say, and know each other. -/
theorem isChain (h : Seg m stop prev a bs) : (addrs a bs).IsChain fun x y =>
    y = x + headerSize + Header.size m x ∧ Header.next m x = y ∧ Header.prev m y = x := by
  induction bs generalizing prev a with
  | nil => exact List.isChain_nil
  | cons b bs ih =>
    refine List.isChain_cons.mpr ⟨fun y hy => ?_, ih h.2⟩
    have hya := addrs_head y hy
    subst hya
    cases bs with
    | nil => cases hy
    | cons c cs =>
      have hsize : Header.size m a = b.size := h.1.size
      exact ⟨by omega, h.1.next, h.2.1.prev⟩

theorem isChain_apart (h : Seg m stop prev a bs) (hc : Coalesced bs) :
    (addrs a bs).IsChain fun x y => ¬ (Header.free m x ∧ Header.free m y) := by
  induction bs generalizing prev a with
  | nil => exact List.isChain_nil
  | cons b bs ih =>
    refine List.isChain_cons.mpr ⟨fun y hy => ?_, ih h.2 (List.IsChain.tail hc)⟩
    have hya := addrs_head y hy
    subst hya
    cases bs with
    | nil => cases hy
    | cons c cs =>
      rw [h.1.isFree, h.2.1.isFree]
      exact (List.isChain_cons_cons.mp hc).1

theorem magic (h : Seg m stop prev a bs) : ∀ x ∈ addrs a bs, Header.magic m x = heapMagic := by
  induction bs generalizing prev a with
  | nil =>
    intro x hx
    cases hx
  | cons b bs ih =>
    intro x hx
    rcases List.mem_cons.mp hx with rfl | hx
    · exact h.1.magic
    · exact ih h.2 x hx

theorem sum_sizes (h : Seg m stop prev a bs) :
    ((addrs a bs).map fun x => Header.size m x + headerSize).sum = span headerSize bs := by
  induction bs generalizing prev a with
  | nil => rfl
  | cons b bs ih =>
    have hsize : Header.size m a = b.size := h.1.size
    unfold addrs
    rw [List.map_cons, List.sum_cons, ih h.2, hsize, span_cons]
    omega

theorem last (h : Seg m stop prev a bs) : ∀ x ∈ (addrs a bs).getLast?,
    x + headerSize + Header.size m x = a + span headerSize bs ∧ Header.next m x = stop := by
  induction bs generalizing prev a with
  | nil =>
    intro x hx
    cases hx
  | cons b bs ih =>
    intro x hx
    rw [span_cons]
    cases bs with
    | nil =>
      have hxa : x = a := (Option.mem_some.mp hx).symm
      have hsize : Header.size m a = b.size := h.1.size
      refine ⟨?_, ?_⟩
      · rw [hxa, hsize, span_nil]
        omega
      · rw [hxa]
        exact h.1.next
    | cons c cs =>
      have := ih h.2 x hx
      refine ⟨?_, this.2⟩
      omega

/-- What holds of the sizes of the free blocks of the list holds of those in memory. -/
theorem size_lt {n : ℕ} (h : Seg m stop prev a bs) (hn : ∀ b ∈ bs, b.free = true → b.size < n) :
    ∀ x ∈ addrs a bs, Header.free m x → Header.size m x < n := by
  induction bs generalizing prev a with
  | nil =>
    intro x hx
    cases hx
  | cons b bs ih =>
    intro x hx hfree
    rcases List.mem_cons.mp hx with rfl | hx
    · rw [h.1.isFree] at hfree
      have hsize : Header.size m x = b.size := h.1.size
      rw [hsize]
      exact hn b List.mem_cons_self hfree
    · exact ih h.2 (fun c hc => hn c (List.mem_cons_of_mem _ hc)) x hx hfree

/-- A used address is a block whose flag is off. -/
theorem mem_used_iff (h : Seg m stop prev a bs) (x : ℕ) :
    x ∈ used headerSize a bs ↔ x ∈ addrs a bs ∧ Header.free m x = false := by
  induction bs generalizing prev a with
  | nil => simp [used, addrs]
  | cons b bs ih =>
    have hfree := h.1.isFree
    unfold addrs
    cases hb : b.free with
    | true =>
      rw [used_cons_free hb, ih h.2, List.mem_cons]
      constructor
      · exact fun hx => ⟨Or.inr hx.1, hx.2⟩
      · rintro ⟨rfl | hx, hxf⟩
        · rw [hfree, hb] at hxf
          cases hxf
        · exact ⟨hx, hxf⟩
    | false =>
      rw [used_cons_used hb, List.mem_cons, ih h.2, List.mem_cons]
      constructor
      · rintro (rfl | hx)
        · exact ⟨Or.inl rfl, hfree.trans hb⟩
        · exact ⟨Or.inr hx.1, hx.2⟩
      · rintro ⟨rfl | hx, hxf⟩
        · exact Or.inl rfl
        · exact Or.inr ⟨hx, hxf⟩

/-- A used block ends before the next one begins. -/
theorem pairwise_used (h : Seg m stop prev a bs) : (used headerSize a bs).Pairwise fun x y =>
    x + headerSize + Header.size m x ≤ y := by
  induction bs generalizing prev a with
  | nil => exact List.Pairwise.nil
  | cons b bs ih =>
    cases hb : b.free with
    | true =>
      rw [used_cons_free hb]
      exact ih h.2
    | false =>
      rw [used_cons_used hb]
      refine List.pairwise_cons.mpr ⟨fun y hy => ?_, ih h.2⟩
      have hsize : Header.size m a = b.size := h.1.size
      have := le_of_mem_used hy
      omega

end Seg

end

/-! ## The invariant -/

/-- The invariant of the heap: it represents a coalesced list of blocks that fills the
region, and the live pointers are the data areas of its used blocks. -/
structure HeapInv (r : Region) (c : HeapClient) (bs : List Block) : Prop where
  start : c.heap.heapStart = r.start
  total : c.heap.heapTotal = r.size
  rep : Represents c.heap.mem r.start bs
  span_eq : span headerSize bs = r.size
  coalesced : Coalesced bs
  lastNonempty : LastNonempty bs
  live : c.live.Perm ((used headerSize r.start bs).map (· + headerSize))

namespace HeapInv

variable {r : Region} {c : HeapClient} {bs : List Block}

theorem ne_nil (h : HeapInv r c bs) : bs ≠ [] := by
  rintro rfl
  have := r.header_lt
  have := h.span_eq
  rw [span_nil] at this
  omega

theorem end_le (h : HeapInv r c bs) : r.start + span headerSize bs ≤ 2 ^ 32 := by
  rw [h.span_eq]
  exact r.inside

theorem length_lt (h : HeapInv r c bs) : bs.length < loopBound := by
  have hle := @length_mul_le_span headerSize bs
  have := r.lt_two_gb
  rw [h.span_eq] at hle
  unfold headerSize at hle
  unfold loopBound
  omega

theorem size_lt (h : HeapInv r c bs) : ∀ b ∈ bs, b.size < 2 ^ 31 := by
  intro b hb
  obtain ⟨pre, post, rfl⟩ := List.append_of_mem hb
  have hspan := h.span_eq
  have := r.lt_two_gb
  rw [span_append, span_cons] at hspan
  omega

/-- `heap_init` establishes the invariant. -/
theorem init (m : Memory) (r : Region) :
    HeapInv r (HeapClient.init m r) [⟨r.size - headerSize, true⟩] where
  start := rfl
  total := rfl
  rep := by
    have hsub : sub32 r.size headerSize = r.size - headerSize := by
      have := r.header_lt
      have := r.lt_two_gb
      unfold sub32
      omega
    have hlt := r.lt_two_gb
    show Seg _ 0 0 r.start [_]
    simp only [HeapClient.init, heapInit, hsub, Header.setMagic, Header.setSize, Header.setFree,
      Header.setNext, Header.setPrev]
    refine ⟨⟨?_, ?_, ?_, ?_, ?_⟩, trivial⟩
    · simp (disch := omega) only [Memory.load32_store32_of_disjoint, Memory.load32_store32_same]
      rfl
    · simp (disch := omega) only [Memory.load32_store32_of_disjoint, Memory.load32_store32_same]
      exact Nat.mod_eq_of_lt (by omega)
    · simp (disch := omega) only [Memory.load32_store32_of_disjoint, Memory.load32_store32_same]
      rfl
    · simp (disch := omega) only [Memory.load32_store32_of_disjoint, Memory.load32_store32_same]
      rfl
    · simp (disch := omega) only [Memory.load32_store32_same]
      rfl
  span_eq := by
    have := r.header_lt
    rw [span_cons, span_nil]
    show headerSize + (r.size - headerSize) + 0 = r.size
    omega
  coalesced := List.isChain_singleton _
  lastNonempty := by
    intro b hb
    cases hb
    have := r.header_lt
    show 0 < r.size - headerSize
    omega
  live := List.Perm.nil

/-- A live pointer is the data area of a used block of the list. -/
theorem exists_of_live (h : HeapInv r c bs) {p : ℕ} (hp : p ∈ c.live) :
    ∃ pre b post, bs = pre ++ b :: post ∧ b.free = false ∧
      p = r.start + span headerSize pre + headerSize := by
  obtain ⟨x, hx, rfl⟩ := List.mem_map.mp (h.live.mem_iff.mp hp)
  obtain ⟨pre, b, post, hbs, hb, rfl⟩ := exists_of_mem_used hx
  exact ⟨pre, b, post, hbs, hb, rfl⟩

/-- Bytes of no header may change. -/
theorem congr {m : Memory} (h : HeapInv r c bs)
    (hm : ∀ x, HeaderByte x r.start bs → m x = c.heap.mem x) :
    HeapInv r { c with heap := { c.heap with mem := m } } bs :=
  { h with rep := Seg.congr h.rep hm }

/-! ### The operations -/

/-- **`kmalloc`** returns; what it does is first fit with the rounded size. -/
theorem kmalloc (h : HeapInv r c bs) {size : ℕ} (hsize : size ≠ 0) :
    (firstFit headerSize 16 (roundUp size) bs = none ∧ c.heap.kmalloc size = some (c.heap, 0)) ∨
    ∃ o cs m, firstFit headerSize 16 (roundUp size) bs = some (o, cs) ∧
      c.heap.kmalloc size =
        some ({ c.heap with mem := m }, r.start + o + headerSize) ∧
      HeapInv r (c.allocated ({ c.heap with mem := m }, r.start + o + headerSize)) cs := by
  have hloop := @represents_kmallocLoop _ _ (roundUp size) _ [] _ h.rep r.start_ne_null
    h.end_le h.size_lt h.lastNonempty h.length_lt
  have hlink : linkTo 0 (r.start + span headerSize []) bs = c.heap.heapStart := by
    cases bs with
    | nil => exact absurd rfl h.ne_nil
    | cons b bs => exact h.start.symm
  rw [hlink] at hloop
  unfold Heap.kmalloc
  rw [if_neg hsize]
  cases hff : firstFit headerSize 16 (roundUp size) bs with
  | none =>
    rw [hff] at hloop
    left
    refine ⟨rfl, ?_⟩
    rw [show kmallocLoop (roundUp size) loopBound c.heap.mem c.heap.heapStart = _ from hloop]
    rfl
  | some o =>
    obtain ⟨o, cs⟩ := o
    rw [hff] at hloop
    obtain ⟨m, hm, hrep⟩ := hloop
    right
    refine ⟨o, cs, m, rfl, ?_, ?_⟩
    · rw [hm]
      rfl
    · have hspan : span headerSize cs = span headerSize bs := by
        obtain ⟨pre, b, post, rfl, _, _, _, rfl⟩ := firstFit_eq_some hff
        simp only [span_append, span_carve, span_cons]
        omega
      refine ⟨h.start, h.total, hrep, hspan.trans h.span_eq, h.coalesced.firstFit hff,
        h.lastNonempty.firstFit (by omega) hff, ?_⟩
      show (if r.start + o + headerSize = 0 then c.live
        else (r.start + o + headerSize) :: c.live).Perm _
      rw [if_neg (by unfold headerSize; omega)]
      refine ((h.live.cons _).trans ?_)
      exact ((used_firstFit hff).map (· + headerSize)).symm

/-- **`kfree`** of a live pointer returns and takes it from the live ones. -/
theorem kfree (h : HeapInv r c bs) {p : ℕ} (hp : p ∈ c.live) :
    ∃ m cs, c.heap.kfree p = some ({ c.heap with mem := m }, .freed) ∧
      HeapInv r ⟨{ c.heap with mem := m }, c.live.erase p⟩ cs := by
  obtain ⟨pre, b, post, rfl, hb, rfl⟩ := h.exists_of_live hp
  obtain ⟨m, hm, hrep⟩ := represents_kfree h.rep r.start_ne_null h.end_le h.length_lt
  refine ⟨m, release headerSize pre b post, hm, h.start, h.total, hrep,
    span_release.trans h.span_eq, h.coalesced.release, h.lastNonempty.release (by decide), ?_⟩
  have hperm := h.live.trans ((used_release hb).map (· + headerSize))
  rw [List.map_cons] at hperm
  have := hperm.erase (r.start + span headerSize pre + headerSize)
  rw [List.erase_cons_head] at this
  exact this

/-- The area first fit returns lies in the data area of one block, and holds no header. -/
theorem not_headerByte_of_firstFit {a n o x : ℕ} {cs : List Block}
    (hfit : firstFit headerSize 16 n bs = some (o, cs)) (h₁ : a + o + headerSize ≤ x)
    (h₂ : x < a + o + headerSize + n) : ¬ HeaderByte x a cs := by
  obtain ⟨pre, b, post, _, _, hn, rfl, rfl⟩ := firstFit_eq_some hfit
  rw [List.append_assoc]
  unfold carve
  split_ifs with hs
  · refine not_headerByte_of_data h₁ ?_
    show x < a + span headerSize pre + (headerSize + b.size)
    omega
  · refine not_headerByte_of_data h₁ ?_
    show x < a + span headerSize pre + (headerSize + n)
    omega

/-- Rounding, as arithmetic. -/
theorem roundUp_eq (n : ℕ) : roundUp n = (n + 7) % 2 ^ 32 / 8 * 8 := by
  have hmask : ∀ x, x < 2 ^ 32 → x &&& 0xFFFFFFF8 = x / 8 * 8 := by
    intro x hx
    apply Nat.eq_of_testBit_eq
    intro i
    have h₁ : (0xFFFFFFF8 : ℕ) = (2 ^ 29 - 1) * 2 ^ 3 := by norm_num
    have h₂ : x / 8 * 8 = x / 2 ^ 3 * 2 ^ 3 := by norm_num
    rw [Nat.testBit_and, h₁, h₂, Nat.testBit_mul_two_pow, Nat.testBit_mul_two_pow,
      Nat.testBit_two_pow_sub_one, Nat.testBit_div_two_pow]
    by_cases hi : 3 ≤ i
    · rw [Nat.sub_add_cancel hi]
      by_cases hi' : i - 3 < 29
      · simp [hi, hi']
      · have hbig : x.testBit i = false :=
          Nat.testBit_lt_two_pow (lt_of_lt_of_le hx (Nat.pow_le_pow_right (by omega) (by omega)))
        simp [hbig]
    · simp [hi]
  exact hmask _ (Nat.mod_lt _ (by norm_num))

/-- Where rounding does not overflow, it rounds up. -/
theorem le_roundUp {n : ℕ} (h : n ≤ 2 ^ 32 - 8) : n ≤ roundUp n := by
  rw [roundUp_eq]
  omega

/-- **`kcalloc`** of a product that is not 0 returns; what it does is `kmalloc`, and then it
clears the area. -/
theorem kcalloc (h : HeapInv r c bs) {count size : ℕ} (hzero : count * size % 2 ^ 32 ≠ 0)
    (hsize : count * size % 2 ^ 32 ≤ 2 ^ 32 - 8) :
    (firstFit headerSize 16 (roundUp (count * size % 2 ^ 32)) bs = none ∧
      c.heap.kcalloc count size = some (c.heap, 0)) ∨
    ∃ o cs, ∃ m : Memory,
      firstFit headerSize 16 (roundUp (count * size % 2 ^ 32)) bs = some (o, cs) ∧
      c.heap.kcalloc count size = some ({ c.heap with
        mem := m.fill (r.start + o + headerSize) 0 (count * size % 2 ^ 32) },
        r.start + o + headerSize) ∧
      r.start + o + headerSize + count * size % 2 ^ 32 ≤ 2 ^ 32 ∧
      HeapInv r (c.allocated ({ c.heap with
        mem := m.fill (r.start + o + headerSize) 0 (count * size % 2 ^ 32) },
        r.start + o + headerSize)) cs := by
  unfold Heap.kcalloc
  rcases h.kmalloc hzero with ⟨hnone, hnull⟩ | ⟨o, cs, m, hfit, hsome, hinv⟩
  · refine Or.inl ⟨hnone, ?_⟩
    rw [hnull]
    rfl
  · have hp : r.start + o + headerSize ≠ 0 := by
      unfold headerSize
      omega
    have hle := le_roundUp hsize
    have hend : r.start + o + headerSize + count * size % 2 ^ 32 ≤ 2 ^ 32 := by
      have hbound := h.end_le
      obtain ⟨pre, b, post, rfl, _, hn, rfl, _⟩ := firstFit_eq_some hfit
      rw [span_append, span_cons] at hbound
      omega
    refine Or.inr ⟨o, cs, m, hfit, ?_, hend, ?_⟩
    · rw [hsome]
      exact congrArg some (if_pos hp)
    · refine hinv.congr fun x hx => m.fill_of_outside 0 hend ?_
      by_contra hin
      exact not_headerByte_of_firstFit hfit (by omega) (by omega) hx

/-- A store the users may make changes no header. -/
theorem write (h : HeapInv r c bs) {a : ℕ} {v : UInt8} (hop : c.Allowed (.write a v)) :
    HeapInv r { c with heap := { c.heap with mem := c.heap.mem.store8 a v } } bs := by
  refine h.congr fun x hx => c.heap.mem.store8_of_ne v ?_
  rintro rfl
  rcases hop with hout | ⟨p, hp, h₁, h₂⟩
  · have hb := hx.bounds
    rw [h.span_eq] at hb
    rw [h.start, h.total] at hout
    omega
  · obtain ⟨pre, b, post, rfl, hb, rfl⟩ := h.exists_of_live hp
    rw [Nat.add_sub_cancel] at h₂
    have hsize : Header.size c.heap.mem (r.start + span headerSize pre) = b.size :=
      (represents_middle.mp h.rep).2.1.size
    exact not_headerByte_of_data h₁ (by omega) hx

/-- **Every allowed operation returns and keeps the invariant.** -/
theorem exec (h : HeapInv r c bs) {op : HeapOp} (hop : c.Allowed op) :
    ∃ c' cs, c.exec op = some c' ∧ HeapInv r c' cs := by
  cases op with
  | kmalloc size =>
    by_cases hsize : size = 0
    · subst hsize
      exact ⟨c, bs, rfl, h⟩
    · rcases h.kmalloc hsize with ⟨_, hnull⟩ | ⟨o, cs, m, _, hsome, hinv⟩
      · refine ⟨c, bs, ?_, h⟩
        show (c.heap.kmalloc size).map c.allocated = _
        rw [hnull]
        rfl
      · refine ⟨_, cs, ?_, hinv⟩
        show (c.heap.kmalloc size).map c.allocated = _
        rw [hsome]
        rfl
  | kcalloc count size =>
    by_cases hzero : count * size % 2 ^ 32 = 0
    · refine ⟨c, bs, ?_, h⟩
      show (c.heap.kcalloc count size).map c.allocated = _
      unfold Heap.kcalloc
      rw [hzero]
      rfl
    · rcases h.kcalloc hzero hop.2.2 with ⟨_, hnull⟩ | ⟨o, cs, m, _, hsome, _, hinv⟩
      · refine ⟨c, bs, ?_, h⟩
        show (c.heap.kcalloc count size).map c.allocated = _
        rw [hnull]
        rfl
      · refine ⟨_, cs, ?_, hinv⟩
        show (c.heap.kcalloc count size).map c.allocated = _
        rw [hsome]
        rfl
  | kfree ptr =>
    by_cases hp : ptr ∈ c.live
    · obtain ⟨m, cs, hm, hinv⟩ := h.kfree hp
      refine ⟨_, cs, ?_, hinv⟩
      show (c.heap.kfree ptr).map _ = _
      rw [hm]
      rfl
    · rcases hop with rfl | hp'
      · refine ⟨⟨c.heap, c.live.erase 0⟩, bs, rfl, ?_⟩
        rw [List.erase_of_not_mem hp]
        exact h
      · exact absurd hp' hp
  | write a v => exact ⟨_, bs, rfl, h.write hop⟩

/-- The headers of a heap with the invariant are well formed. -/
theorem wellFormed (h : HeapInv r c bs) : WellFormed c (addrs r.start bs) := by
  have hseg : Seg c.heap.mem 0 0 r.start bs := h.rep
  have hhead : ∀ x, x ∈ (addrs r.start bs).head? → Header.prev c.heap.mem x = 0 := by
    intro x hx
    have hxa := addrs_head x hx
    subst hxa
    cases bs with
    | nil => cases hx
    | cons b bs => exact hseg.1.prev
  refine ⟨?_, ?_, ?_, ?_, ?_, hseg.magic, ?_, hhead, ?_, hseg.isChain_apart h.coalesced, ?_, ?_⟩
  · have hwalk := hseg.blocksLoop r.start_ne_null h.length_lt
    unfold Heap.blocks
    rw [h.start]
    cases bs with
    | nil => exact absurd rfl h.ne_nil
    | cons b bs => exact hwalk
  · rw [h.start]
    cases bs with
    | nil => exact absurd rfl h.ne_nil
    | cons b bs => rfl
  · exact hseg.isChain.imp fun x y hxy => hxy.1
  · intro x hx
    rw [h.start, h.total, ← h.span_eq]
    exact (hseg.last x hx).1
  · rw [h.total, ← h.span_eq]
    exact hseg.sum_sizes
  · exact hseg.isChain.imp fun x y hxy => hxy.2
  · exact fun x hx => (hseg.last x hx).2
  · intro p
    rw [h.live.mem_iff, List.mem_map]
    constructor
    · rintro ⟨x, hx, rfl⟩
      obtain ⟨hxa, hxf⟩ := (hseg.mem_used_iff x).mp hx
      exact ⟨x, hxa, hxf, rfl⟩
    · rintro ⟨x, hxa, hxf, rfl⟩
      exact ⟨x, (hseg.mem_used_iff x).mpr ⟨hxa, hxf⟩, rfl⟩
  · refine (h.live.pairwise_iff fun {_ _} => Or.symm).mpr ?_
    refine List.pairwise_map.mpr (hseg.pairwise_used.imp fun {x y} hxy => Or.inl ?_)
    rw [Nat.add_sub_cancel, Nat.add_sub_cancel]
    exact hxy

/-- With no live pointer left, the heap is one free block. -/
theorem eq_singleton (h : HeapInv r c bs) (hlive : c.live = []) :
    bs = [⟨r.size - headerSize, true⟩] := by
  have hused : used headerSize r.start bs = [] := by
    have hnil := h.live
    rw [hlive] at hnil
    exact List.map_eq_nil_iff.mp hnil.nil_eq.symm
  have hfree : ∀ b ∈ bs, b.free = true := by
    intro b hb
    by_contra hbf
    obtain ⟨pre, post, rfl⟩ := List.append_of_mem hb
    rw [used_append, used_cons_used (by simpa using hbf)] at hused
    simp at hused
  obtain ⟨b, rfl⟩ := h.coalesced.eq_singleton h.ne_nil hfree
  have hspan := h.span_eq
  rw [span_cons, span_nil] at hspan
  obtain ⟨size, free⟩ := b
  have hf : free = true := hfree _ List.mem_cons_self
  have hs : size = r.size - headerSize := by
    have hspan' : headerSize + size + 0 = r.size := hspan
    omega
  rw [hf, hs]

/-- Freeing the live pointers in any order leaves none. -/
theorem free_all {ps : List ℕ} (h : HeapInv r c bs) (hps : ps.Perm c.live) :
    ∃ c' cs, Run HeapClient.Step c (ps.map .kfree) c' ∧ c'.live = [] ∧ HeapInv r c' cs := by
  induction ps generalizing c bs with
  | nil => exact ⟨c, bs, .nil c, hps.nil_eq.symm, h⟩
  | cons p ps ih =>
    have hp : p ∈ c.live := hps.mem_iff.mp List.mem_cons_self
    obtain ⟨m, cs, hm, hinv⟩ := h.kfree hp
    have hrest : ps.Perm (c.live.erase p) := by
      have := hps.erase p
      rwa [List.erase_cons_head] at this
    obtain ⟨c', ds, hrun, hlive, hinv'⟩ := ih hinv hrest
    refine ⟨c', ds, .cons ⟨Or.inr hp, ?_⟩ hrun, hlive, hinv'⟩
    show (c.heap.kfree p).map _ = _
    rw [hm]
    rfl

/-- **The invariant holds in every state that the users reach.** -/
theorem of_run {m : Memory} {ops : List HeapOp}
    (hrun : Run HeapClient.Step (HeapClient.init m r) ops c) : ∃ bs, HeapInv r c bs := by
  refine hrun.invariant (I := fun c => ∃ bs, HeapInv r c bs) (fun c op c' hstep hinv => ?_)
    ⟨_, HeapInv.init m r⟩
  obtain ⟨bs, hinv⟩ := hinv
  obtain ⟨c'', cs, hexec, hinv'⟩ := hinv.exec hstep.1
  rw [hstep.2] at hexec
  cases hexec
  exact ⟨cs, hinv'⟩

end HeapInv

/-! ## The heap over whole runs -/

/-- The fields of the header at `a` are the same in both memories. -/
def SameHeader (m m' : Memory) (a : ℕ) : Prop :=
  Header.magic m a = Header.magic m' a ∧ Header.size m a = Header.size m' a ∧
    Header.free m a = Header.free m' a ∧ Header.next m a = Header.next m' a ∧
    Header.prev m a = Header.prev m' a

/-- **The heap invariant.**  Whatever the users did since `heap_init`, the heap is well
formed; every further call returns; `kmalloc` returns `NULL` for a size other than 0 only
if every free block is smaller than the rounded size; and freeing the live pointers, in any
order, leads back to the single block of `heap_init`. -/
theorem heapInvariant (r : Region) (m : Memory) {ops : List HeapOp} {c : HeapClient}
    (hrun : Run HeapClient.Step (HeapClient.init m r) ops c) :
    (∃ bs, WellFormed c bs ∧ c.heap.heapStart = r.start ∧ c.heap.heapTotal = r.size ∧
      ∀ size, size ≠ 0 → size < 2 ^ 32 → ∃ h p, c.heap.kmalloc size = some (h, p) ∧
        (p = 0 → ∀ a ∈ bs, Header.free c.heap.mem a → Header.size c.heap.mem a < roundUp size)) ∧
    (∀ op, c.Allowed op → ∃ c', c.exec op = some c') ∧
    ∀ ps : List ℕ, ps.Perm c.live → ∃ c', Run HeapClient.Step c (ps.map .kfree) c' ∧
      c'.live = [] ∧ c'.heap.blocks = some [r.start] ∧
        SameHeader c'.heap.mem (heapInit m r.start r.size).mem r.start := by
  obtain ⟨bs, hinv⟩ := HeapInv.of_run hrun
  refine ⟨⟨addrs r.start bs, hinv.wellFormed, hinv.start, hinv.total, ?_⟩, ?_, ?_⟩
  · intro size hsize _
    rcases hinv.kmalloc hsize with ⟨hnone, hnull⟩ | ⟨o, cs, m', _, hsome, _⟩
    · refine ⟨_, _, hnull, fun _ a ha hfree => ?_⟩
      exact hinv.rep.size_lt (firstFit_eq_none_iff.mp hnone) a ha hfree
    · refine ⟨_, _, hsome, fun hp => ?_⟩
      unfold headerSize at hp
      omega
  · intro op hop
    obtain ⟨c', _, hexec, _⟩ := hinv.exec hop
    exact ⟨c', hexec⟩
  · intro ps hps
    obtain ⟨c', cs, hrun', hlive, hinv'⟩ := hinv.free_all hps
    have hone := hinv'.eq_singleton hlive
    subst hone
    refine ⟨c', hrun', hlive, hinv'.wellFormed.walk, ?_⟩
    obtain ⟨hnow, _⟩ := hinv'.rep
    obtain ⟨hinit, _⟩ := (HeapInv.init m r).rep
    exact ⟨hnow.magic.trans hinit.magic.symm, hnow.size.trans hinit.size.symm,
      hnow.isFree.trans hinit.isFree.symm, hnow.next.trans hinit.next.symm,
      hnow.prev.trans hinit.prev.symm⟩

/-- 256 bytes at `0x1000`. -/
def smallRegion : Region := ⟨0x1000, 256, by decide, by decide, by decide, by decide⟩

/-- The invariant after three allocations, one of which fails, a store and a `kfree`. -/
theorem heapInvariant_smallRegion : ∃ c,
    Run HeapClient.Step (HeapClient.init (fun _ => 0) smallRegion)
      [.kmalloc 10, .kcalloc 3 7, .kmalloc 500, .write 0x1015 9, .kfree 0x1014, .kfree 0] c ∧
    c.live = [0x1038] ∧ (∃ bs, WellFormed c bs) ∧
    ∃ c', Run HeapClient.Step c [.kfree 0x1038] c' ∧ c'.heap.blocks = some [0x1000] := by
  obtain ⟨c, hrun, hlive⟩ : ∃ c, Run HeapClient.Step (HeapClient.init (fun _ => 0) smallRegion)
      [.kmalloc 10, .kcalloc 3 7, .kmalloc 500, .write 0x1015 9, .kfree 0x1014, .kfree 0] c ∧
      c.live = [0x1038] := Run.exists_of_follow (by decide +kernel)
  obtain ⟨⟨bs, hwf, _⟩, _, hfree⟩ := heapInvariant smallRegion (fun _ => 0) hrun
  obtain ⟨c', hrun', _, hblocks, _⟩ := hfree [0x1038] (by rw [hlive])
  exact ⟨c, hrun, hlive, ⟨bs, hwf⟩, c', hrun', hblocks⟩

/-- A heap whose first header was cleared is not well formed: its first block is the last
one and does not fill the region. -/
theorem not_wellFormed_of_cleared {c : HeapClient}
    (hsize : Header.size c.heap.mem c.heap.heapStart = 0)
    (hnext : Header.next c.heap.mem c.heap.heapStart = 0)
    (htotal : c.heap.heapTotal ≠ headerSize) : ¬ ∃ bs, WellFormed c bs := by
  rintro ⟨bs, hwf⟩
  match bs, hwf with
  | [], hwf => cases hwf.first
  | a :: bs, hwf =>
    have ha : a = c.heap.heapStart := Option.some.inj hwf.first
    subst ha
    cases bs with
    | nil =>
      have hlast := hwf.last c.heap.heapStart rfl
      omega
    | cons b bs =>
      have htile := (List.isChain_cons_cons.mp hwf.tiles).1
      have hlink := (List.isChain_cons_cons.mp hwf.links).1.1
      unfold headerSize at htile
      omega

/-- Where the invariant needs its conditions.  `kmalloc(0)` is `NULL` although there is a
free block; a heap at address 0 is an empty list for every loop; and
`kcalloc(1, 0xFFFFFFFF)` takes an area of size 0 and clears the whole memory, headers
included. -/
theorem null_with_free_block :
    ((heapInit (fun _ => 0) 0x1000 256).blocks = some [0x1000] ∧
      Header.free (heapInit (fun _ => 0) 0x1000 256).mem 0x1000 = true ∧
      roundUp 0 ≤ Header.size (heapInit (fun _ => 0) 0x1000 256).mem 0x1000 ∧
      ((heapInit (fun _ => 0) 0x1000 256).kmalloc 0).map (·.2) = some 0) ∧
    ((heapInit (fun _ => 0) 0 256).blocks = some [] ∧
      ((heapInit (fun _ => 0) 0 256).kmalloc 8).map (·.2) = some 0) ∧
    ∃ c, (HeapClient.init (fun _ => 0) smallRegion).exec (.kcalloc 1 0xFFFFFFFF) = some c ∧
      ¬ ∃ bs, WellFormed c bs := by
  refine ⟨by decide +kernel, by decide +kernel, ?_⟩
  set c₀ := HeapClient.init (fun _ => 0) smallRegion with hc₀
  have hsize : 0xFFFFFFFF ≠ 0 := by decide
  rcases (HeapInv.init (fun _ => 0) smallRegion).kmalloc hsize with
    ⟨hnone, _⟩ | ⟨o, cs, m, hfit, hsome, _⟩
  · exact absurd hnone (by decide +kernel)
  · have ho : o = 0 := by
      have hdec : firstFit headerSize 16 (roundUp 0xFFFFFFFF)
          [⟨smallRegion.size - headerSize, true⟩] = some (0, [⟨0, false⟩, ⟨216, true⟩]) := by
        decide +kernel
      rw [hdec] at hfit
      cases hfit
      rfl
    subst ho
    have hp : smallRegion.start + 0 + headerSize = 0x1014 := rfl
    rw [hp] at hsome
    refine ⟨⟨{ c₀.heap with mem := m.fill 0x1014 0 0xFFFFFFFF }, [0x1014]⟩, ?_, ?_⟩
    · show (c₀.heap.kcalloc 1 0xFFFFFFFF).map c₀.allocated = _
      unfold Heap.kcalloc
      rw [show 1 * 0xFFFFFFFF % 2 ^ 32 = 0xFFFFFFFF from rfl, hsome]
      rfl
    · have hsize : Header.size (m.fill 0x1014 0 0xFFFFFFFF) 0x1000 = 0 :=
        Memory.load32_fill_zero (by norm_num) (by norm_num) (by norm_num) (by norm_num)
      have hnext : Header.next (m.fill 0x1014 0 0xFFFFFFFF) 0x1000 = 0 :=
        Memory.load32_fill_zero (by norm_num) (by norm_num) (by norm_num) (by norm_num)
      generalize m.fill 0x1014 0 0xFFFFFFFF = m' at hsize hnext ⊢
      have htotal : smallRegion.size ≠ headerSize := by decide
      exact not_wellFormed_of_cleared hsize hnext htotal

end Microkernel
