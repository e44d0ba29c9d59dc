/-
# Pages given back

What a list of calls of `pmm_free_page` does to the bits and the counter of the allocator, and
which calls `paging_destroy_address_space` makes.  An allocator whose pages were taken and given
back one by one is the allocator it was.
-/
import Microkernel.Owners

namespace Microkernel

namespace Pmm

variable {p p' p'' : Pmm} {f q : ℕ} {fs : List ℕ}

/-! ## One page -/

/-- The bits after `pmm_free_page`. -/
theorem test_pmmFreePage (p : Pmm) (f q : ℕ) : (p.pmmFreePage (f * 4096)).bitmap.test q =
    (!decide (q = f ∧ f < p.totalPages) && p.bitmap.test q) := by
  unfold pmmFreePage
  rw [Nat.mul_div_cancel f (by norm_num)]
  split_ifs with h
  · rw [test_unmark]
    simp [h.1]
  · by_cases hq : q = f ∧ f < p.totalPages
    · obtain ⟨rfl, hlt⟩ := hq
      have hbit : p.bitmap.test q = false := by
        by_contra hbit
        exact h ⟨hlt, by simpa using hbit⟩
      rw [hbit, Bool.and_false]
    · rw [decide_eq_false hq]
      rfl

theorem pmmFreePage_totalPages (p : Pmm) (addr : ℕ) :
    (p.pmmFreePage addr).totalPages = p.totalPages := by
  unfold pmmFreePage
  split_ifs <;> rfl

/-! ## The counter -/

/-- The counter moved as the number of pages in use did. -/
structure Steady (p p' : Pmm) : Prop where
  total : p'.totalPages = p.totalPages
  used : (p'.usedPages + p.bitmap.count p.totalPages) % 2 ^ 32 =
    (p.usedPages + p'.bitmap.count p.totalPages) % 2 ^ 32
  used_lt : p.usedPages < 2 ^ 32 → p'.usedPages < 2 ^ 32

theorem Steady.refl (p : Pmm) : Steady p p := ⟨rfl, rfl, id⟩

theorem Steady.trans (h : Steady p p') (h' : Steady p' p'') : Steady p p'' := by
  obtain ⟨htotal, hused, hlt⟩ := h
  obtain ⟨htotal', hused', hlt'⟩ := h'
  rw [htotal] at hused'
  exact ⟨htotal'.trans htotal, by omega, fun hp => hlt' (hlt hp)⟩

theorem steady_mark (hlt : q < p.totalPages) (hbit : p.bitmap.test q = false) :
    Steady p (p.mark q) := by
  refine ⟨rfl, ?_, fun _ => Nat.mod_lt _ (by norm_num)⟩
  show ((p.usedPages + 1) % 2 ^ 32 + p.bitmap.count p.totalPages) % 2 ^ 32 =
    (p.usedPages + (p.bitmap.set q).count p.totalPages) % 2 ^ 32
  rw [Bitmap.count_set _ hlt hbit]
  omega

theorem steady_pmmFreePage (p : Pmm) (addr : ℕ) : Steady p (p.pmmFreePage addr) := by
  unfold pmmFreePage
  split_ifs with h
  · refine ⟨rfl, ?_, fun _ => Nat.mod_lt _ (by norm_num)⟩
    have hcount := Bitmap.count_clear p.bitmap h.1 h.2
    show ((p.usedPages + 2 ^ 32 - 1) % 2 ^ 32 + p.bitmap.count p.totalPages) % 2 ^ 32 =
      (p.usedPages + (p.bitmap.clear (addr / 4096)).count p.totalPages) % 2 ^ 32
    omega
  · exact .refl p

/-- The allocator is the one it was when the bits are. -/
theorem Steady.eq_of_test (h : Steady p p') (hused : p.usedPages < 2 ^ 32)
    (hbits : ∀ q, p'.bitmap.test q = p.bitmap.test q) : p' = p := by
  have hbitmap : p'.bitmap = p.bitmap := by
    funext i
    apply BitVec.eq_of_getLsbD_eq
    intro j hj
    have hbit := hbits (32 * i + j)
    have hdiv : (32 * i + j) / 32 = i := by omega
    have hmod : (32 * i + j) % 32 = j := by omega
    rwa [Bitmap.test_eq_getLsbD, Bitmap.test_eq_getLsbD, hdiv, hmod] at hbit
  obtain ⟨htotal, hcount, hlt⟩ := h
  have hlt' := hlt hused
  rw [hbitmap] at hcount
  obtain ⟨b, t, u⟩ := p
  obtain ⟨b', t', u'⟩ := p'
  dsimp only at *
  rw [hbitmap, htotal, show u' = u by omega]

/-! ## A list of pages -/

/-- `pmm_free_page` for each page of a list. -/
def freeAll (p : Pmm) (fs : List ℕ) : Pmm := fs.foldl (fun p f => p.pmmFreePage (f * 4096)) p

theorem freeAll_append (p : Pmm) (fs gs : List ℕ) :
    p.freeAll (fs ++ gs) = (p.freeAll fs).freeAll gs := List.foldl_append

theorem steady_freeAll (p : Pmm) (fs : List ℕ) : Steady p (p.freeAll fs) := by
  induction fs generalizing p with
  | nil => exact .refl p
  | cons f fs ih => exact (steady_pmmFreePage p (f * 4096)).trans (ih _)

/-- The bits after the pages of a list were freed. -/
theorem test_freeAll (p : Pmm) (fs : List ℕ) (q : ℕ) : (p.freeAll fs).bitmap.test q =
    (!decide (q ∈ fs ∧ q < p.totalPages) && p.bitmap.test q) := by
  induction fs generalizing p with
  | nil => simp [freeAll]
  | cons f fs ih =>
    show ((p.pmmFreePage (f * 4096)).freeAll fs).bitmap.test q = _
    rw [ih, test_pmmFreePage, pmmFreePage_totalPages, ← Bool.and_assoc, ← Bool.not_or,
      ← Bool.decide_or]
    congr 2
    apply decide_eq_decide.mpr
    rw [List.mem_cons]
    constructor
    · rintro (⟨hq, hlt⟩ | ⟨rfl, hlt⟩)
      · exact ⟨Or.inr hq, hlt⟩
      · exact ⟨Or.inl rfl, hlt⟩
    · rintro ⟨rfl | hq, hlt⟩
      · exact Or.inr ⟨rfl, hlt⟩
      · exact Or.inl ⟨hq, hlt⟩

/-- **The pages taken are given back.**  An allocator in which just the pages of a list were
taken is, when they are freed, what it was. -/
theorem freeAll_restores (h : Steady p p') (hused : p.usedPages < 2 ^ 32)
    (hfresh : ∀ q ∈ fs, q < p.totalPages ∧ p.bitmap.test q = false)
    (hbits : ∀ q, p'.bitmap.test q = (decide (q ∈ fs) || p.bitmap.test q)) :
    p'.freeAll fs = p := by
  refine (h.trans (steady_freeAll p' fs)).eq_of_test hused fun q => ?_
  rw [test_freeAll, hbits, h.total]
  by_cases hq : q ∈ fs
  · obtain ⟨hlt, hbit⟩ := hfresh q hq
    simp [hq, hlt, hbit]
  · simp [hq]

end Pmm

/-! ## What `paging_destroy_address_space` frees -/

/-- The pages of the present entries of a directory that do not lead where the kernel's do, for
`n` entries from `i` on. -/
def ownFrames (k : KernelImage) (m : PageMemory) (a : ℕ) : ℕ → ℕ → List ℕ
  | _, 0 => []
  | i, n + 1 =>
    if hasFlag (m a i) pagePresent = true ∧ frameOf (m a i) ≠ frameOf (m k.pageDirectory i) then
      frameOf (m a i) :: ownFrames k m a (i + 1) n
    else ownFrames k m a (i + 1) n

namespace Paging

variable {k : KernelImage} {s : Paging} {m : PageMemory} {a i n f : ℕ}

theorem ownFrames_succ : ownFrames k m a i (n + 1) =
    if hasFlag (m a i) pagePresent = true ∧ frameOf (m a i) ≠ frameOf (m k.pageDirectory i) then
      frameOf (m a i) :: ownFrames k m a (i + 1) n
    else ownFrames k m a (i + 1) n := rfl

theorem mem_ownFrames : f ∈ ownFrames k m a i n ↔ ∃ j, i ≤ j ∧ j < i + n ∧
    hasFlag (m a j) pagePresent = true ∧ frameOf (m a j) ≠ frameOf (m k.pageDirectory j) ∧
    f = frameOf (m a j) := by
  induction n generalizing i with
  | zero =>
    refine iff_of_false List.not_mem_nil ?_
    rintro ⟨j, h₁, h₂, _⟩
    omega
  | succ n ih =>
    have hsplit : (∃ j, i ≤ j ∧ j < i + (n + 1) ∧ hasFlag (m a j) pagePresent = true ∧
          frameOf (m a j) ≠ frameOf (m k.pageDirectory j) ∧ f = frameOf (m a j)) ↔
        (hasFlag (m a i) pagePresent = true ∧ frameOf (m a i) ≠ frameOf (m k.pageDirectory i) ∧
          f = frameOf (m a i)) ∨
        ∃ j, i + 1 ≤ j ∧ j < i + 1 + n ∧ hasFlag (m a j) pagePresent = true ∧
          frameOf (m a j) ≠ frameOf (m k.pageDirectory j) ∧ f = frameOf (m a j) := by
      constructor
      · rintro ⟨j, h₁, h₂, hj⟩
        rcases Nat.eq_or_lt_of_le h₁ with rfl | hlt
        · exact Or.inl hj
        · exact Or.inr ⟨j, hlt, by omega, hj⟩
      · rintro (hj | ⟨j, h₁, h₂, hj⟩)
        · exact ⟨i, le_refl i, by omega, hj⟩
        · exact ⟨j, by omega, by omega, hj⟩
    rw [hsplit, ← ih, ownFrames_succ]
    split_ifs with hown
    · rw [List.mem_cons]
      exact or_congr ⟨fun hf => ⟨hown.1, hown.2, hf⟩, fun hf => hf.2.2⟩ Iff.rfl
    · exact (or_iff_right fun hf => hown ⟨hf.1, hf.2.1⟩).symm

/-- The loop frees the pages of the entries one by one. -/
theorem destroyLoop_eq (pd : ℕ) (s : Paging) (i n : ℕ) :
    destroyLoop k pd s i n = ⟨s.mem, s.pmm.freeAll (ownFrames k s.mem (pd / 4096) i n)⟩ := by
  induction n generalizing s i with
  | zero => rfl
  | succ n ih =>
    unfold destroyLoop
    rw [ownFrames_succ]
    dsimp only
    split_ifs
    · exact ih _ (i + 1)
    · exact ih s (i + 1)

/-- **What `paging_destroy_address_space` frees**: the tables that are not the kernel's, and the
directory. -/
theorem pagingDestroyAddressSpace_eq (ha : a ≠ 0) (hdir : a ≠ k.pageDirectory) :
    s.pagingDestroyAddressSpace k (a * 4096) =
      ⟨s.mem, s.pmm.freeAll (ownFrames k s.mem a 0 1024 ++ [a])⟩ := by
  unfold pagingDestroyAddressSpace
  rw [if_neg (by omega), destroyLoop_eq, Nat.mul_div_cancel a (by norm_num), Pmm.freeAll_append]
  rfl

end Paging

end Microkernel
