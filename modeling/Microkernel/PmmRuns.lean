/-
# Runs of the page allocator

The users of the physical page allocator: any sequence of `pmm_alloc_page`,
`pmm_free_page` and `pmm_reserve_range` after `pmm_init`, with the pages that are
allocated and the ranges that were reserved.  As long as no `NULL` is freed, no reserved
page is freed and no range wraps around, the counter counts the pages in use and no
page is given out that is allocated, reserved or part of the kernel.
-/
import Microkernel.Pmm

namespace Microkernel

/-- The allocator with the pages its users hold and the ranges they reserved. -/
structure PageClient where
  pmm : Pmm
  allocated : List ℕ
  reserved : List (ℕ × ℕ)

/-- The calls of the users. -/
inductive PageOp where
  | alloc
  | free (addr : ℕ)
  | reserve (startAddr size : ℕ)

namespace PageClient

variable (c : PageClient)

/-- The page intersects `[start, start + size)` for a reserved range. -/
def Reserved (q : ℕ) : Prop := ∃ r ∈ c.reserved, r.1 < (q + 1) * 4096 ∧ q * 4096 < r.1 + r.2

instance (q : ℕ) : Decidable (c.Reserved q) := by
  unfold Reserved
  infer_instance

def exec : PageOp → PageClient
  | .alloc =>
    { c with pmm := c.pmm.pmmAllocPage.1
             allocated := if c.pmm.pmmAllocPage.2 = 0 then c.allocated
               else c.pmm.pmmAllocPage.2 :: c.allocated }
  | .free addr =>
    { c with pmm := c.pmm.pmmFreePage addr, allocated := c.allocated.erase addr }
  | .reserve startAddr size =>
    { c with pmm := c.pmm.pmmReserveRange startAddr size
             reserved := (startAddr, size) :: c.reserved }

/-- What the callers do: they free `NULL` or a page they hold; addresses and sizes are 32-bit
words. -/
def Allowed : PageOp → Prop
  | .alloc => True
  | .free addr => addr = 0 ∨ addr ∈ c.allocated
  | .reserve startAddr size => startAddr < 2 ^ 32 ∧ size < 2 ^ 32

/-- The calls the allocator can take: `NULL` is freed only if there is no page at all, a page
that is freed is in no reserved range, and the end of a range that begins below the last
page, rounded up, is an address. -/
def Safe : PageOp → Prop
  | .alloc => True
  | .free addr => if addr = 0 then c.pmm.totalPages = 0 else ¬ c.Reserved (addr / 4096)
  | .reserve startAddr size =>
    startAddr + size + 4095 < 2 ^ 32 ∨ c.pmm.totalPages * 4096 ≤ startAddr

instance : DecidablePred c.Allowed := fun op => by
  cases op <;> unfold Allowed <;> infer_instance

instance : DecidablePred c.Safe := fun op => by
  cases op <;> unfold Safe <;> infer_instance

/-- After `pmm_init`. -/
def init (e : KernelEnd) (memSizeKb : ℕ) : PageClient := ⟨Pmm.pmmInit e memSizeKb, [], []⟩

/-- A call that the callers make. -/
def Step (c : PageClient) (op : PageOp) (c' : PageClient) : Prop :=
  c.Allowed op ∧ c.exec op = c'

/-- A call that the callers make and the allocator can take. -/
def SafeStep (c : PageClient) (op : PageOp) (c' : PageClient) : Prop :=
  (c.Allowed op ∧ c.Safe op) ∧ c.exec op = c'

/-! ## The invariant -/

/-- The bits say what the users know. -/
structure Inv (e : KernelEnd) (c : PageClient) : Prop where
  counted : c.pmm.Counted
  /-- The kernel's pages are in use. -/
  kernel : ∀ q, q < Pmm.firstPage e → c.pmm.bitmap.test q = true
  held : ∀ a ∈ c.allocated, a % 4096 = 0 ∧ Pmm.firstPage e ≤ a / 4096 ∧
    a / 4096 < c.pmm.totalPages ∧ c.pmm.bitmap.test (a / 4096) = true
  nodup : c.allocated.Nodup
  reserved : ∀ q, q < c.pmm.totalPages → c.Reserved q → c.pmm.bitmap.test q = true

variable {c} {e : KernelEnd}

theorem firstPage_pos : 0 < Pmm.firstPage e := by
  have h₁ := e.above
  have h₂ := e.below
  unfold Pmm.firstPage
  omega

theorem addr_le_firstPage : e.addr ≤ Pmm.firstPage e * 4096 := by
  have := e.below
  unfold Pmm.firstPage
  omega

theorem inv_init (e : KernelEnd) (memSizeKb : ℕ) : Inv e (init e memSizeKb) := by
  set total := if memSizeKb / 4 > maxPages then maxPages else memSizeKb / 4 with htotal
  have hle : total ≤ maxPages := by
    rw [htotal]
    split_ifs
    · exact le_refl _
    · omega
  have hones : ∀ q, Bitmap.test (fun _ => 0xFFFFFFFF#32) q = true := by
    intro q
    rw [Bitmap.test_eq_getLsbD]
    have hall : ∀ i < 32, (0xFFFFFFFF#32).getLsbD i = true := by decide
    exact hall _ (Nat.mod_lt _ (by norm_num))
  have hcounted : Pmm.Counted ⟨fun _ => 0xFFFFFFFF#32, total, total⟩ := by
    refine ⟨hle, ?_⟩
    show total = Nat.count _ total
    rw [Nat.count_eq_card_filter_range, Finset.filter_true_of_mem fun q _ => hones q,
      Finset.card_range]
  by_cases hk : Pmm.firstPage e ≤ total
  · obtain ⟨h₁, h₂, h₃⟩ := Pmm.initLoop_spec (i := Pmm.firstPage e)
      (n := total - Pmm.firstPage e) hcounted (by
        show _ ≤ total
        omega) fun q _ _ => hones q
    refine ⟨h₁, fun q hq => ?_, fun a ha => ?_, List.nodup_nil, fun q _ hr => ?_⟩
    · refine (h₃ q).trans ?_
      rw [decide_eq_false (by omega), hones q]
      rfl
    · cases ha
    · obtain ⟨r, hr, _⟩ := hr
      cases hr
  · have hzero : total - Pmm.firstPage e = 0 := by omega
    have heq : (init e memSizeKb).pmm = ⟨fun _ => 0xFFFFFFFF#32, total, total⟩ := by
      show Pmm.initLoop _ _ (total - Pmm.firstPage e) = _
      rw [hzero]
      rfl
    refine ⟨?_, fun q _ => ?_, fun a ha => ?_, List.nodup_nil, fun q _ hr => ?_⟩
    · rw [heq]
      exact hcounted
    · rw [heq]
      exact hones q
    · cases ha
    · obtain ⟨r, hr, _⟩ := hr
      cases hr

/-- What `pmm_alloc_page` returns: with every page in use, `NULL`; else the first free page,
which is none of the kernel's. -/
theorem Inv.alloc_cases (h : Inv e c) :
    ((∀ q, q < c.pmm.totalPages → c.pmm.bitmap.test q = true) ∧
      c.pmm.pmmAllocPage = (c.pmm, 0)) ∨
    ∃ q, q < c.pmm.totalPages ∧ Pmm.firstPage e ≤ q ∧ c.pmm.bitmap.test q = false ∧
      c.pmm.pmmAllocPage = (c.pmm.mark q, q * 4096) := by
  rcases Pmm.pmmAllocPage_cases h.counted.total_le with hnone | ⟨q, hq, hbit, _, heq⟩
  · exact Or.inl hnone
  · refine Or.inr ⟨q, hq, ?_, hbit, heq⟩
    by_contra hlt
    rw [h.kernel q (by omega)] at hbit
    cases hbit

theorem Inv.alloc (h : Inv e c) : Inv e (c.exec .alloc) := by
  rcases h.alloc_cases with ⟨_, heq⟩ | ⟨q, hq, hk, hbit, heq⟩
  · unfold exec
    rw [heq]
    exact h
  · have hpos := @firstPage_pos e
    have hexec : c.exec .alloc = ⟨c.pmm.mark q, q * 4096 :: c.allocated, c.reserved⟩ := by
      unfold exec
      rw [heq]
      simp only
      rw [if_neg (by omega)]
    rw [hexec]
    refine ⟨h.counted.mark hq hbit, fun k hk' => ?_, fun a ha => ?_, ?_, fun k hk' hr => ?_⟩
    · simp [h.kernel k hk']
    · rcases List.mem_cons.mp ha with rfl | ha
      · have hdiv : q * 4096 / 4096 = q := by omega
        refine ⟨by omega, by omega, by
          show q * 4096 / 4096 < c.pmm.totalPages
          omega, ?_⟩
        simp [hdiv]
      · obtain ⟨h₁, h₂, h₃, h₄⟩ := h.held a ha
        exact ⟨h₁, h₂, h₃, by simp [h₄]⟩
    · refine List.nodup_cons.mpr ⟨fun hmem => ?_, h.nodup⟩
      have := (h.held _ hmem).2.2.2
      rw [show q * 4096 / 4096 = q by omega, hbit] at this
      cases this
    · have hold := h.reserved k hk' hr
      simp [hold]

theorem Inv.free (h : Inv e c) {addr : ℕ} (hallowed : c.Allowed (.free addr))
    (hsafe : c.Safe (.free addr)) : Inv e (c.exec (.free addr)) := by
  by_cases hzero : addr = 0
  · subst hzero
    have htotal : c.pmm.totalPages = 0 := hsafe
    have hnot : (0 : ℕ) ∉ c.allocated := by
      intro hmem
      have := (h.held 0 hmem).2.2.1
      omega
    have hfree : c.pmm.pmmFreePage 0 = c.pmm := if_neg (by
      rw [htotal]
      omega)
    have hexec : c.exec (.free 0) = c := by
      show PageClient.mk (c.pmm.pmmFreePage 0) (c.allocated.erase 0) c.reserved = c
      rw [hfree, List.erase_of_not_mem hnot]
    rw [hexec]
    exact h
  · have hmem : addr ∈ c.allocated := hallowed.resolve_left hzero
    have hunreserved : ¬ c.Reserved (addr / 4096) := by
      have hsafe' : if addr = 0 then c.pmm.totalPages = 0 else ¬ c.Reserved (addr / 4096) := hsafe
      rwa [if_neg hzero] at hsafe'
    obtain ⟨hal, hk, hlt, hbit⟩ := h.held addr hmem
    have hfree : c.pmm.pmmFreePage addr = c.pmm.unmark (addr / 4096) := if_pos ⟨hlt, hbit⟩
    have hexec : c.exec (.free addr) =
        ⟨c.pmm.unmark (addr / 4096), c.allocated.erase addr, c.reserved⟩ := by
      show PageClient.mk (c.pmm.pmmFreePage addr) (c.allocated.erase addr) c.reserved = _
      rw [hfree]
    rw [hexec]
    refine ⟨h.counted.unmark hlt hbit, fun q hq => ?_, fun a ha => ?_,
      h.nodup.erase addr, fun q hq hr => ?_⟩
    · have hne : q ≠ addr / 4096 := by omega
      simp [hne, h.kernel q hq]
    · obtain ⟨hne, ha⟩ := (h.nodup.mem_erase_iff).mp ha
      obtain ⟨h₁, h₂, h₃, h₄⟩ := h.held a ha
      have hne' : a / 4096 ≠ addr / 4096 := by omega
      exact ⟨h₁, h₂, h₃, by simp [hne', h₄]⟩
    · have hne : q ≠ addr / 4096 := by
        rintro rfl
        exact hunreserved hr
      have hold := h.reserved q hq hr
      simp [hne, hold]

theorem Inv.reserve (h : Inv e c) {startAddr size : ℕ}
    (hsafe : c.Safe (.reserve startAddr size)) : Inv e (c.exec (.reserve startAddr size)) := by
  set last := (startAddr + size + 4095) % 2 ^ 32 / 4096 with hlast
  set last' := if last > c.pmm.totalPages then c.pmm.totalPages else last with hlast'
  have hle : last' ≤ c.pmm.totalPages ∧ last' ≤ last ∧
      (last' = c.pmm.totalPages ∨ last' = last) := by
    rw [hlast']
    split_ifs with hgt
    · exact ⟨le_refl _, by omega, Or.inl rfl⟩
    · exact ⟨by omega, le_refl _, Or.inr rfl⟩
  obtain ⟨h₁, h₂, h₃⟩ := @Pmm.reserveLoop_spec c.pmm (startAddr / 4096)
    (last' - startAddr / 4096) h.counted (by omega)
  have hkeep : ∀ q, c.pmm.bitmap.test q = true →
      (c.pmm.pmmReserveRange startAddr size).bitmap.test q = true := by
    intro q hq
    refine (h₃ q).trans ?_
    rw [hq, Bool.or_true]
  refine ⟨h₁, fun q hq => hkeep q (h.kernel q hq), fun a ha => ?_, h.nodup, fun q hq hr => ?_⟩
  · obtain ⟨h₄, h₅, h₆, h₇⟩ := h.held a ha
    exact ⟨h₄, h₅, lt_of_lt_of_eq h₆ h₂.symm, hkeep _ h₇⟩
  · have hq' : q < c.pmm.totalPages := lt_of_lt_of_eq hq h₂
    obtain ⟨r, hr, hr₁, hr₂⟩ := hr
    rcases List.mem_cons.mp hr with rfl | hr
    · -- the page lies between the first page of the range and its last one
      refine (h₃ q).trans ?_
      have hin : startAddr / 4096 ≤ q ∧
          q < startAddr / 4096 + (last' - startAddr / 4096) := by
        simp only at hr₁ hr₂
        rcases hsafe with hnowrap | hout
        · omega
        · omega
      rw [decide_eq_true hin, Bool.true_or]
    · exact hkeep q (h.reserved q hq' ⟨r, hr, hr₁, hr₂⟩)

theorem Inv.exec (h : Inv e c) {op : PageOp} (hop : c.Allowed op ∧ c.Safe op) :
    Inv e (c.exec op) := by
  cases op with
  | alloc => exact h.alloc
  | free addr => exact h.free hop.1 hop.2
  | reserve startAddr size => exact h.reserve hop.2

/-! ## The allocator over whole runs -/

/-- **The page allocator.**  In every run of calls it can take, the counter is the number
of pages in use; `pmm_alloc_page` returns a page that is free, not allocated, not reserved and
after the kernel, or `NULL` with every page in use; and the pages of the reserved ranges are
in use. -/
theorem pageAllocation (e : KernelEnd) (memSizeKb : ℕ) {ops : List PageOp} {c : PageClient}
    (hrun : Run SafeStep (init e memSizeKb) ops c) :
    c.pmm.usedPages = c.pmm.bitmap.count c.pmm.totalPages ∧
    (c.pmm.pmmAllocPage.2 ≠ 0 → c.pmm.pmmAllocPage.2 ∉ c.allocated ∧
      ¬ c.Reserved (c.pmm.pmmAllocPage.2 / 4096) ∧ e.addr ≤ c.pmm.pmmAllocPage.2 ∧
      c.pmm.pmmAllocPage.2 / 4096 < c.pmm.totalPages ∧
      c.pmm.bitmap.test (c.pmm.pmmAllocPage.2 / 4096) = false) ∧
    (c.pmm.pmmAllocPage.2 = 0 → ∀ q, q < c.pmm.totalPages → c.pmm.bitmap.test q = true) ∧
    ∀ q, q < c.pmm.totalPages → c.Reserved q → c.pmm.bitmap.test q = true := by
  have h : Inv e c := by
    refine hrun.invariant (fun c op c' hstep hinv => ?_) (inv_init e memSizeKb)
    rw [← hstep.2]
    exact hinv.exec hstep.1
  have hpos := @firstPage_pos e
  have haddr := @addr_le_firstPage e
  refine ⟨h.counted.used, ?_, ?_, h.reserved⟩
  · intro hne
    rcases h.alloc_cases with ⟨_, heq⟩ | ⟨q, hq, hk, hbit, heq⟩
    · rw [heq] at hne
      exact absurd rfl hne
    · rw [heq]
      have hdiv : q * 4096 / 4096 = q := by omega
      simp only [hdiv]
      refine ⟨fun hmem => ?_, fun hr => ?_, haddr.trans (Nat.mul_le_mul_right 4096 hk), hq, hbit⟩
      · have := (h.held _ hmem).2.2.2
        rw [hdiv, hbit] at this
        cases this
      · rw [h.reserved q hq hr] at hbit
        cases hbit
  · intro hnull
    rcases h.alloc_cases with ⟨hall, _⟩ | ⟨q, hq, hk, hbit, heq⟩
    · exact hall
    · rw [heq] at hnull
      have hnull' : q * 4096 = 0 := hnull
      omega

/-- A kernel that ends at `0x101000`. -/
def smallKernel : KernelEnd := ⟨0x101000, by decide, by decide⟩

theorem pageAllocation_threePages : ∃ c,
    Run SafeStep (init smallKernel 1200)
      [.alloc, .reserve 0x103000 1, .alloc, .free 0x101000, .alloc, .alloc] c ∧
    c.allocated = [0x104000, 0x101000, 0x102000] ∧
    c.pmm.usedPages = c.pmm.bitmap.count c.pmm.totalPages := by
  obtain ⟨c, hrun, hall⟩ : ∃ c, Run SafeStep (init smallKernel 1200)
      [.alloc, .reserve 0x103000 1, .alloc, .free 0x101000, .alloc, .alloc] c ∧
      c.allocated = [0x104000, 0x101000, 0x102000] :=
    Run.exists_of_follow_total (by decide +kernel)
  exact ⟨c, hrun, hall, (pageAllocation smallKernel 1200 hrun).1⟩

/-- What the calls that are left out do.  `pmm_free_page(NULL)` frees page 0, which
`pmm_alloc_page` then finds first: it returns `NULL` with free pages left.  A range whose end
wraps around reserves nothing.  A page that was reserved after it was allocated is free again
when its holder frees it, and is given out. -/
theorem page_zero_given_out :
    (∃ c, Run Step (init smallKernel 1200) [.free 0] c ∧ c.pmm.pmmAllocPage.2 = 0 ∧
      c.pmm.bitmap.test 257 = false) ∧
    (∃ c, Run Step (init smallKernel 1200) [.reserve 0x101000 0xFFFFFFFF] c ∧
      c.Reserved 257 ∧ c.pmm.bitmap.test 257 = false) ∧
    ∃ c, Run Step (init smallKernel 1200)
        [.alloc, .reserve 0x101000 4096, .free 0x101000] c ∧
      c.Reserved 257 ∧ c.pmm.pmmAllocPage.2 = 257 * 4096 := by
  exact ⟨Run.exists_of_follow_total (by decide +kernel),
    Run.exists_of_follow_total (by decide +kernel),
    Run.exists_of_follow_total (by decide +kernel)⟩

end PageClient

end Microkernel
