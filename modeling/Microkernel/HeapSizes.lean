/-
# How large an allocation is

`kmalloc` rounds the size up to a multiple of 8 in 32 bits, and `kcalloc` multiplies in 32 bits.
Where nothing wraps around, the area is as large as was asked for; where something does, any
allocation that succeeds is too small.
-/
import Microkernel.HeapRuns

namespace Microkernel

open BlockList

/-! ## Areas -/

/-- The users own `n` bytes at `p`: the heap is well formed, `p` is live, and its block has
`n` bytes.  The areas of different live pointers are disjoint in a well-formed heap. -/
structure Owns (c : HeapClient) (p n : ℕ) : Prop where
  wellFormed : ∃ bs, WellFormed c bs
  live : p ∈ c.live
  size : n ≤ Header.size c.heap.mem (p - headerSize)

/-- A call of `kmalloc` returns, and what it returns is large enough. -/
def MallocEnough (c : HeapClient) (size : ℕ) : Prop :=
  ∃ res, c.heap.kmalloc size = some res ∧ (res.2 ≠ 0 → Owns (c.allocated res) res.2 size)

/-- A call of `kcalloc` returns, and what it returns is large enough and cleared. -/
def CallocEnough (c : HeapClient) (count size : ℕ) : Prop :=
  ∃ res, c.heap.kcalloc count size = some res ∧
    (res.2 ≠ 0 → Owns (c.allocated res) res.2 (count * size) ∧
      ∀ x, res.2 ≤ x → x < res.2 + count * size → res.1.mem x = 0)

/-- An area is not larger than the heap. -/
theorem Owns.le_total {c : HeapClient} {p n : ℕ} (h : Owns c p n) : n ≤ c.heap.heapTotal := by
  obtain ⟨bs, hwf⟩ := h.wellFormed
  obtain ⟨a, ha, _, rfl⟩ := (hwf.live_iff p).mp h.live
  have hsize := h.size
  rw [Nat.add_sub_cancel] at hsize
  have hsum := List.single_le_sum (l := bs.map fun a => Header.size c.heap.mem a + headerSize)
    (fun _ _ => Nat.zero_le _) _ (List.mem_map_of_mem ha)
  rw [hwf.total] at hsum
  omega

namespace HeapInv

variable {r : Region} {c : HeapClient} {bs : List Block}

/-- The block that first fit took has the bytes, and says so in its header. -/
theorem le_size_of_firstFit {c' : HeapClient} {n o : ℕ} {cs : List Block}
    (h : HeapInv r c' cs) (hfit : firstFit headerSize 16 n bs = some (o, cs)) :
    n ≤ Header.size c'.heap.mem (r.start + o) := by
  obtain ⟨pre, b, post, _, _, hn, rfl, rfl⟩ := firstFit_eq_some hfit
  have hrep := h.rep
  rw [List.append_assoc] at hrep
  unfold carve at hrep
  split_ifs at hrep
  · rwa [show Header.size c'.heap.mem (r.start + span headerSize pre) = b.size from
      (represents_middle.mp hrep).2.1.size]
  · rw [show Header.size c'.heap.mem (r.start + span headerSize pre) = n from
      (represents_middle.mp hrep).2.1.size]

/-- The area that was taken is owned. -/
theorem owns_allocated {res : Heap × ℕ} {n m o : ℕ} {cs : List Block}
    (h : HeapInv r (c.allocated res) cs) (hfit : firstFit headerSize 16 n bs = some (o, cs))
    (hres : res.2 = r.start + o + headerSize) (hm : m ≤ n) : Owns (c.allocated res) res.2 m where
  wellFormed := ⟨_, h.wellFormed⟩
  live := by
    have hne : res.2 ≠ 0 := by
      unfold headerSize at hres
      omega
    unfold HeapClient.allocated
    rw [if_neg hne]
    exact List.mem_cons_self
  size := by
    rw [hres, Nat.add_sub_cancel]
    exact hm.trans (h.le_size_of_firstFit hfit)

/-- No area has 2 GB. -/
theorem not_owns (h : HeapInv r c bs) {res : Heap × ℕ} {n : ℕ}
    (htotal : res.1.heapTotal = c.heap.heapTotal) (hn : 2 ^ 31 ≤ n) :
    ¬ Owns (c.allocated res) res.2 n := by
  intro howns
  have hle : n ≤ res.1.heapTotal := howns.le_total
  have hlt := r.lt_two_gb
  rw [htotal, h.total] at hle
  omega

/-- `kmalloc`: the area is large enough if the size can be rounded up, and otherwise only if
there is no free block to take. -/
theorem mallocEnough_iff (h : HeapInv r c bs) {size : ℕ} (hsize : size < 2 ^ 32) :
    MallocEnough c size ↔ size ≤ 2 ^ 32 - 8 ∨ ∀ b ∈ bs, b.free = false := by
  by_cases hzero : size = 0
  · subst hzero
    exact iff_of_true ⟨(c.heap, 0), rfl, fun hne => absurd rfl hne⟩ (Or.inl (Nat.zero_le _))
  by_cases hle : size ≤ 2 ^ 32 - 8
  · refine iff_of_true ?_ (Or.inl hle)
    rcases h.kmalloc hzero with ⟨_, hnull⟩ | ⟨o, cs, m, hfit, hsome, hinv⟩
    · exact ⟨_, hnull, fun hne => absurd rfl hne⟩
    · exact ⟨_, hsome, fun _ => hinv.owns_allocated hfit rfl (le_roundUp hle)⟩
  · have hround : roundUp size = 0 := by
      rw [roundUp_eq]
      omega
    rw [or_iff_right hle]
    rcases h.kmalloc hzero with ⟨hnone, hnull⟩ | ⟨o, cs, m, hfit, hsome, _⟩
    · refine iff_of_true ⟨_, hnull, fun hne => absurd rfl hne⟩ fun b hb => ?_
      rw [hround] at hnone
      by_contra hfree
      exact absurd (firstFit_eq_none_iff.mp hnone b hb (by simpa using hfree)) (Nat.not_lt_zero _)
    · refine iff_of_false ?_ fun hused => ?_
      · rintro ⟨res, hres, henough⟩
        rw [hsome] at hres
        cases hres
        exact h.not_owns rfl (by omega) (henough (by unfold headerSize; omega))
      · obtain ⟨pre, b, post, rfl, hfree, _⟩ := firstFit_eq_some hfit
        rw [hused b (List.mem_append_right _ List.mem_cons_self)] at hfree
        cases hfree

/-- `kcalloc`: the area is large enough if the product can be rounded up, and otherwise only if
nothing is allocated. -/
theorem callocEnough_iff (h : HeapInv r c bs) (count size : ℕ) :
    CallocEnough c count size ↔ count * size ≤ 2 ^ 32 - 8 ∨ count * size % 2 ^ 32 = 0 ∨
      ∀ b ∈ bs, b.free = true → b.size < roundUp (count * size % 2 ^ 32) := by
  by_cases hzero : count * size % 2 ^ 32 = 0
  · refine iff_of_true ⟨(c.heap, 0), ?_, fun hne => absurd rfl hne⟩ (Or.inr (Or.inl hzero))
    unfold Heap.kcalloc
    rw [hzero]
    rfl
  by_cases hle : count * size ≤ 2 ^ 32 - 8
  · have hmod : count * size % 2 ^ 32 = count * size := Nat.mod_eq_of_lt (by omega)
    refine iff_of_true ?_ (Or.inl hle)
    rcases h.kcalloc hzero (by rwa [hmod]) with ⟨_, hnull⟩ | ⟨o, cs, m, hfit, hsome, hend, hinv⟩
    · exact ⟨_, hnull, fun hne => absurd rfl hne⟩
    · rw [hmod] at hfit hsome hend hinv
      refine ⟨_, hsome, fun _ => ⟨hinv.owns_allocated hfit rfl (le_roundUp hle), ?_⟩⟩
      intro x hx hx'
      dsimp only at hx hx' ⊢
      refine m.fill_of_inside 0 ?_ ?_ ?_ <;> omega
  · rw [or_iff_right hle, or_iff_right hzero, ← firstFit_eq_none_iff]
    -- what is allocated is smaller than 2 GB, and the product is not
    unfold CallocEnough Heap.kcalloc
    rcases h.kmalloc hzero with ⟨hnone, hnull⟩ | ⟨o, cs, m, hfit, hsome, _⟩
    · refine iff_of_true ⟨(c.heap, 0), ?_, fun hne => absurd rfl hne⟩ hnone
      rw [hnull]
      rfl
    · refine iff_of_false ?_ fun hnone => ?_
      · rintro ⟨res, hres, henough⟩
        have hp : r.start + o + headerSize ≠ 0 := by
          unfold headerSize
          omega
        rw [hsome, Option.map_some, if_pos hp] at hres
        cases hres
        exact h.not_owns rfl (by omega) (henough hp).1
      · rw [hnone] at hfit
        cases hfit

end HeapInv

/-- **When an allocation is large enough.**  In every state of the heap, `kmalloc` of a 32-bit
size returns an area that is large enough exactly if the size can be rounded up to a multiple
of 8 or there is no free block; and `kcalloc` returns a cleared area of `count * size` bytes
exactly if that product can be rounded up, or nothing is allocated because the product is 0 in
32 bits or no free block has what it is rounded up to. -/
theorem allocations_enough_iff {r : Region} {c : HeapClient} {bs : List Block}
    (h : HeapInv r c bs) :
    (∀ size, size < 2 ^ 32 →
      (MallocEnough c size ↔ size ≤ 2 ^ 32 - 8 ∨ ∀ b ∈ bs, b.free = false)) ∧
    ∀ count size, CallocEnough c count size ↔
      count * size ≤ 2 ^ 32 - 8 ∨ count * size % 2 ^ 32 = 0 ∨
        ∀ b ∈ bs, b.free = true → b.size < roundUp (count * size % 2 ^ 32) :=
  ⟨fun _ hsize => h.mallocEnough_iff hsize, h.callocEnough_iff⟩

/-- Allocations from a new heap of 256 bytes: 100 bytes are enough, and so are 3 times 7. -/
theorem allocations_enough_smallRegion :
    MallocEnough (HeapClient.init (fun _ => 0) smallRegion) 100 ∧
    CallocEnough (HeapClient.init (fun _ => 0) smallRegion) 3 7 := by
  obtain ⟨hmalloc, hcalloc⟩ := allocations_enough_iff (HeapInv.init (fun _ => 0) smallRegion)
  exact ⟨(hmalloc 100 (by norm_num)).mpr (Or.inl (by norm_num)),
    (hcalloc 3 7).mpr (Or.inl (by norm_num))⟩

/-- On a new heap of 256 bytes, `kmalloc(0xFFFFFFFF)` returns an area of no bytes, and
`kcalloc(8, 0x20000001)`, which asks for `2 ^ 32 + 8` bytes, one of 8 bytes. -/
theorem tiny_area_for_huge_size :
    ¬ MallocEnough (HeapClient.init (fun _ => 0) smallRegion) 0xFFFFFFFF ∧
    ¬ CallocEnough (HeapClient.init (fun _ => 0) smallRegion) 8 0x20000001 := by
  have h := HeapInv.init (fun _ => 0) smallRegion
  constructor
  · rw [h.mallocEnough_iff (by norm_num)]
    decide
  · rw [h.callocEnough_iff]
    decide

end Microkernel
