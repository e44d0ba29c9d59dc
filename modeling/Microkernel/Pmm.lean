/-
# The physical page allocator

`src/pmm.c`: one bit per page of 4096 bytes, set while the page is in use, and a counter
of the pages in use.  A pointer is the address of a page, and `NULL` is the address of
page 0; pages below the end of the kernel are never meant to be given out.
-/
import Microkernel.Bitmap
import Microkernel.Runs

namespace Microkernel

/-- `MAX_PAGES`: the pages of 1 GB. -/
def maxPages : ℕ := 1024 * 256

/-- The bitmap with its counters. -/
structure Pmm where
  bitmap : Bitmap
  totalPages : ℕ
  usedPages : ℕ

/-- The address of `_kernel_end`.  The linker script places the kernel at 1 MB, and the
kernel ends below the last page of the address space. -/
structure KernelEnd where
  addr : ℕ
  above : 0x100000 ≤ addr
  below : addr + 4095 < 2 ^ 32

namespace Pmm

/-- The first page after the kernel. -/
def firstPage (e : KernelEnd) : ℕ := (e.addr + 4095) % 2 ^ 32 / 4096

/-- `bm_set(i); used_pages++;`. -/
def mark (p : Pmm) (i : ℕ) : Pmm :=
  { p with bitmap := p.bitmap.set i, usedPages := (p.usedPages + 1) % 2 ^ 32 }

/-- `bm_clear(i); used_pages--;`. -/
def unmark (p : Pmm) (i : ℕ) : Pmm :=
  { p with bitmap := p.bitmap.clear i, usedPages := (p.usedPages + 2 ^ 32 - 1) % 2 ^ 32 }

/-- The loop of `pmm_init`: `n` pages from `i` on become free. -/
def initLoop (p : Pmm) (i : ℕ) : ℕ → Pmm
  | 0 => p
  | n + 1 => initLoop (p.unmark i) (i + 1) n

/-- `pmm_init`. -/
def pmmInit (e : KernelEnd) (memSizeKb : ℕ) : Pmm :=
  let total := if memSizeKb / 4 > maxPages then maxPages else memSizeKb / 4
  initLoop ⟨fun _ => 0xFFFFFFFF#32, total, total⟩ (firstPage e) (total - firstPage e)

variable (p : Pmm)

/-- The loop of `pmm_alloc_page`: the first free page of the `n` from `i` on. -/
def allocLoop (i : ℕ) : ℕ → Pmm × ℕ
  | 0 => (p, 0)
  | n + 1 =>
    if p.bitmap.test i = false then (p.mark i, i * 4096 % 2 ^ 32) else allocLoop (i + 1) n

/-- `pmm_alloc_page`: the address of the page, or 0. -/
def pmmAllocPage : Pmm × ℕ := p.allocLoop 0 p.totalPages

/-- `pmm_free_page`.  There is no test for `NULL`. -/
def pmmFreePage (addr : ℕ) : Pmm :=
  if addr / 4096 < p.totalPages ∧ p.bitmap.test (addr / 4096) = true then p.unmark (addr / 4096)
  else p

/-- The loop of `pmm_reserve_range`. -/
def reserveLoop (p : Pmm) (i : ℕ) : ℕ → Pmm
  | 0 => p
  | n + 1 =>
    reserveLoop (if p.bitmap.test i = false then p.mark i else p) (i + 1) n

/-- `pmm_reserve_range`.  The end of the range is computed modulo `2 ^ 32`. -/
def pmmReserveRange (startAddr size : ℕ) : Pmm :=
  let firstPage := startAddr / 4096
  let lastPage := (startAddr + size + 4095) % 2 ^ 32 / 4096
  let lastPage := if lastPage > p.totalPages then p.totalPages else lastPage
  p.reserveLoop firstPage (lastPage - firstPage)

def pmmGetFreePages : ℕ := (p.totalPages + 2 ^ 32 - p.usedPages) % 2 ^ 32

def pmmGetTotalPages : ℕ := p.totalPages

def pmmGetUsedPages : ℕ := p.usedPages

/-! ## What the operations do to the bits -/

@[simp] theorem mark_totalPages (i : ℕ) : (p.mark i).totalPages = p.totalPages := rfl

@[simp] theorem unmark_totalPages (i : ℕ) : (p.unmark i).totalPages = p.totalPages := rfl

@[simp] theorem test_mark (i q : ℕ) :
    (p.mark i).bitmap.test q = (decide (q = i) || p.bitmap.test q) := Bitmap.test_set _

@[simp] theorem test_unmark (i q : ℕ) :
    (p.unmark i).bitmap.test q = (!decide (q = i) && p.bitmap.test q) := Bitmap.test_clear _

/-- The counter agrees with the bitmap. -/
structure Counted : Prop where
  total_le : p.totalPages ≤ maxPages
  used : p.usedPages = p.bitmap.count p.totalPages

variable {p}

theorem Counted.used_lt (h : p.Counted) : p.usedPages ≤ maxPages := by
  rw [h.used]
  exact (p.bitmap.count_le).trans h.total_le

theorem Counted.mark (h : p.Counted) {i : ℕ} (hi : i < p.totalPages)
    (hbit : p.bitmap.test i = false) : (p.mark i).Counted := by
  refine ⟨h.total_le, ?_⟩
  have hlt := h.used_lt
  unfold maxPages at hlt
  show (p.usedPages + 1) % 2 ^ 32 = (p.bitmap.set i).count p.totalPages
  rw [Bitmap.count_set _ hi hbit, ← h.used]
  omega

theorem Counted.unmark (h : p.Counted) {i : ℕ} (hi : i < p.totalPages)
    (hbit : p.bitmap.test i = true) : (p.unmark i).Counted := by
  refine ⟨h.total_le, ?_⟩
  have hlt := h.used_lt
  have hclear := Bitmap.count_clear _ hi hbit
  unfold maxPages at hlt
  rw [← h.used] at hclear
  show (p.usedPages + 2 ^ 32 - 1) % 2 ^ 32 = (p.bitmap.clear i).count p.totalPages
  omega

/-- The loop of `pmm_init` clears its pages and counts them. -/
theorem initLoop_spec {i n : ℕ} (h : p.Counted) (hn : i + n ≤ p.totalPages)
    (hset : ∀ q, i ≤ q → q < i + n → p.bitmap.test q = true) :
    (p.initLoop i n).Counted ∧ (p.initLoop i n).totalPages = p.totalPages ∧
      ∀ q, (p.initLoop i n).bitmap.test q = (!decide (i ≤ q ∧ q < i + n) && p.bitmap.test q) := by
  induction n generalizing p i with
  | zero =>
    refine ⟨h, rfl, fun q => ?_⟩
    rw [decide_eq_false (by omega)]
    rfl
  | succ n ih =>
    have hclear := h.unmark (by omega) (hset i (by omega) (by omega))
    obtain ⟨h₁, h₂, h₃⟩ := ih (i := i + 1) hclear (by
      rw [unmark_totalPages]
      omega) fun q hq hq' => by
        rw [test_unmark]
        have : q ≠ i := by omega
        simp [this, hset q (by omega) (by omega)]
    refine ⟨h₁, h₂, fun q => (h₃ q).trans ?_⟩
    rw [test_unmark]
    by_cases hqi : q = i
    · subst hqi
      simp
    · have hiff : (i + 1 ≤ q ∧ q < i + 1 + n) ↔ (i ≤ q ∧ q < i + (n + 1)) := by omega
      rw [decide_eq_decide.mpr hiff, decide_eq_false hqi]
      rfl

/-- The loop of `pmm_reserve_range` sets its pages and counts the new ones. -/
theorem reserveLoop_spec {i n : ℕ} (h : p.Counted) (hn : i + n ≤ p.totalPages ∨ n = 0) :
    (p.reserveLoop i n).Counted ∧ (p.reserveLoop i n).totalPages = p.totalPages ∧
      ∀ q, (p.reserveLoop i n).bitmap.test q = (decide (i ≤ q ∧ q < i + n) || p.bitmap.test q) := by
  induction n generalizing p i with
  | zero =>
    refine ⟨h, rfl, fun q => ?_⟩
    rw [decide_eq_false (by omega)]
    rfl
  | succ n ih =>
    have hi : i < p.totalPages := by omega
    have hiff : ∀ q, q ≠ i → ((i + 1 ≤ q ∧ q < i + 1 + n) ↔ (i ≤ q ∧ q < i + (n + 1))) := by
      intro q hq
      omega
    unfold reserveLoop
    cases hbit : p.bitmap.test i with
    | false =>
      rw [if_pos rfl]
      obtain ⟨h₁, h₂, h₃⟩ := ih (i := i + 1) (h.mark hi hbit) (by
        rw [mark_totalPages]
        omega)
      refine ⟨h₁, h₂, fun q => (h₃ q).trans ?_⟩
      rw [test_mark]
      by_cases hqi : q = i
      · subst hqi
        simp
      · rw [decide_eq_decide.mpr (hiff q hqi), decide_eq_false hqi]
        rfl
    | true =>
      rw [if_neg fun h => by cases h]
      obtain ⟨h₁, h₂, h₃⟩ := ih (i := i + 1) h (by omega)
      refine ⟨h₁, h₂, fun q => (h₃ q).trans ?_⟩
      by_cases hqi : q = i
      · subst hqi
        simp [hbit]
      · rw [decide_eq_decide.mpr (hiff q hqi)]

/-- The loop of `pmm_alloc_page` finds the first free page, or every page is in use. -/
theorem allocLoop_spec {i n : ℕ} :
    ((∀ q, i ≤ q → q < i + n → p.bitmap.test q = true) ∧ p.allocLoop i n = (p, 0)) ∨
    ∃ q, i ≤ q ∧ q < i + n ∧ p.bitmap.test q = false ∧
      (∀ k, i ≤ k → k < q → p.bitmap.test k = true) ∧
      p.allocLoop i n = (p.mark q, q * 4096 % 2 ^ 32) := by
  induction n generalizing i with
  | zero => exact Or.inl ⟨fun q h₁ h₂ => by omega, rfl⟩
  | succ n ih =>
    unfold allocLoop
    cases hbit : p.bitmap.test i with
    | false => exact Or.inr ⟨i, le_refl i, by omega, hbit, fun k h₁ h₂ => by omega, if_pos rfl⟩
    | true =>
      rw [if_neg fun h => by cases h]
      have hk : ∀ k, i ≤ k → ¬ i + 1 ≤ k → p.bitmap.test k = true := by
        intro k h₁ h₂
        obtain rfl : k = i := by omega
        exact hbit
      rcases @ih (i + 1) with ⟨hall, heq⟩ | ⟨q, h₁, h₂, h₃, h₄, heq⟩
      · refine Or.inl ⟨fun q h₁ h₂ => ?_, heq⟩
        by_cases hq : i + 1 ≤ q
        · exact hall q hq (by omega)
        · exact hk q h₁ hq
      · refine Or.inr ⟨q, by omega, by omega, h₃, fun k h₅ h₆ => ?_, heq⟩
        by_cases hq : i + 1 ≤ k
        · exact h₄ k hq h₆
        · exact hk k h₅ hq

/-- **`pmm_alloc_page`** marks the first free page and returns its address, or returns `NULL`
with every page in use. -/
theorem pmmAllocPage_cases (htotal : p.totalPages ≤ maxPages) :
    ((∀ q, q < p.totalPages → p.bitmap.test q = true) ∧ p.pmmAllocPage = (p, 0)) ∨
    ∃ q, q < p.totalPages ∧ p.bitmap.test q = false ∧
      (∀ k, k < q → p.bitmap.test k = true) ∧ p.pmmAllocPage = (p.mark q, q * 4096) := by
  rcases @allocLoop_spec p 0 p.totalPages with ⟨hall, heq⟩ | ⟨q, _, hq, hbit, hfirst, heq⟩
  · exact Or.inl ⟨fun q hq => hall q (Nat.zero_le q) (by omega), heq⟩
  · unfold maxPages at htotal
    refine Or.inr ⟨q, by omega, hbit, fun k hk => hfirst k (Nat.zero_le k) hk, heq.trans ?_⟩
    rw [Nat.mod_eq_of_lt (a := q * 4096) (by omega)]

/-- Freeing a page leaves the others in use. -/
theorem test_pmmFreePage_of_ne {f q : ℕ} (hne : q ≠ f) (hq : p.bitmap.test q = true) :
    (p.pmmFreePage (f * 4096)).bitmap.test q = true := by
  unfold pmmFreePage
  rw [Nat.mul_div_cancel f (by norm_num)]
  split_ifs
  · rw [test_unmark, hq, decide_eq_false hne]
    rfl
  · exact hq

/-! ## How many pages can be had -/

/-- How often `pmm_alloc_page` succeeds: once for each free page, but if page 0 is free its
address is `NULL`. -/
def available (p : Pmm) : ℕ :=
  if p.bitmap.test 0 = true then p.totalPages - p.bitmap.count p.totalPages else 0

theorem available_le : p.available ≤ p.totalPages := by
  unfold available
  split_ifs <;> omega

theorem available_eq (h : p.bitmap.test 0 = true) :
    p.available = p.totalPages - p.bitmap.count p.totalPages := if_pos h

/-- Taking a page leaves one page less. -/
theorem available_mark {q : ℕ} (hzero : p.bitmap.test 0 = true) (hq : q < p.totalPages)
    (hbit : p.bitmap.test q = false) : (p.mark q).available + 1 = p.available := by
  have hset := Bitmap.count_set p.bitmap hq hbit
  have hle := Bitmap.count_le (p.bitmap.set q) (n := p.totalPages)
  rw [available_eq (p := p.mark q) (by simp [hzero]), available_eq hzero]
  show p.totalPages - (p.bitmap.set q).count p.totalPages + 1 = _
  omega

/-- If every page is in use, none can be had. -/
theorem available_of_full (h : ∀ q, q < p.totalPages → p.bitmap.test q = true) :
    p.available = 0 := by
  have hcount : p.bitmap.count p.totalPages = p.totalPages :=
    Nat.count_iff_forall.mpr h
  unfold available
  rw [hcount]
  split_ifs <;> omega

/-- **`pmm_alloc_page` succeeds as long as pages are available**, and takes one of them. -/
theorem pmmAllocPage_available (htotal : p.totalPages ≤ maxPages)
    (hzero : p.bitmap.test 0 = true) :
    (p.available = 0 ∧ p.pmmAllocPage = (p, 0)) ∨
    ∃ q, 0 < q ∧ q < p.totalPages ∧ p.bitmap.test q = false ∧
      p.pmmAllocPage = (p.mark q, q * 4096) ∧ (p.mark q).available + 1 = p.available := by
  rcases pmmAllocPage_cases htotal with ⟨hall, heq⟩ | ⟨q, hq, hbit, _, heq⟩
  · exact Or.inl ⟨available_of_full hall, heq⟩
  · refine Or.inr ⟨q, ?_, hq, hbit, heq, available_mark hzero hq hbit⟩
    apply Nat.pos_of_ne_zero
    intro hq₀
    rw [hq₀, hzero] at hbit
    cases hbit

end Pmm

end Microkernel
