/-
# What the loader reads of the file

Every read of `elf_validate` is inside the file.  `elf_load` adds offsets and sizes of the
file in 32 bits before it compares them with the size, and it trusts `e_phentsize`, so it
can read outside.  The reads are all inside exactly if the fields it looks at and the bytes
it copies are, header by header, for as many pages as there are.
-/
import Microkernel.ElfPages
import Microkernel.Isolation

namespace Microkernel

open AddressSpaces (Private)

/-! ## Ranges inside the file -/

/-- Every byte of the range is inside the file. -/
def FileRead.Inside (r : FileRead) (size : ℕ) : Prop := ∀ i < r.len, (r.offset + i) % 2 ^ 32 < size

instance (r : FileRead) (size : ℕ) : Decidable (r.Inside size) := by
  unfold FileRead.Inside
  infer_instance

/-- A range is inside a file shorter than the address space if its end is: if it left the
file, it would contain the first offset after it. -/
theorem FileRead.inside_iff {r : FileRead} {size : ℕ} (hr : r.offset < 2 ^ 32)
    (hsize : size < 2 ^ 32) : r.Inside size ↔ r.len = 0 ∨ r.offset + r.len ≤ size := by
  constructor
  · intro h
    by_contra hnot
    by_cases hlt : r.offset < size
    · have := h (size - r.offset) (by omega)
      rw [Nat.add_sub_cancel' (by omega), Nat.mod_eq_of_lt hsize] at this
      omega
    · have := h 0 (by omega)
      rw [Nat.add_zero, Nat.mod_eq_of_lt hr] at this
      omega
  · intro h i hi
    have := Nat.mod_le (r.offset + i) (2 ^ 32)
    omega

/-- A field of the header at `base` is inside the file. -/
def FieldInside (size base : ℕ) (x : Field) : Prop := (base + x.offset) % 2 ^ 32 + x.width ≤ size

theorem fieldInside_iff {size base : ℕ} {x : Field} (hsize : size < 2 ^ 32) (hx : 0 < x.width) :
    (x.range base).Inside size ↔ FieldInside size base x := by
  rw [FileRead.inside_iff (show (base + x.offset) % 2 ^ 32 < 2 ^ 32 from Nat.mod_lt _ (by norm_num))
    hsize]
  unfold FieldInside Field.range
  dsimp only
  omega

/-- A field of the ELF header is inside any file that has one. -/
theorem inside_of_ehdr {size : ℕ} (hsize : ehdrSize ≤ size) {x : Field}
    (hx : x.offset + x.width ≤ ehdrSize) : (x.range 0).Inside size := by
  unfold ehdrSize at *
  intro i hi
  have h₁ := Nat.mod_le (0 + x.offset) (2 ^ 32)
  have h₂ := Nat.mod_le ((0 + x.offset) % 2 ^ 32 + i) (2 ^ 32)
  unfold Field.range at *
  dsimp only at *
  omega

/-! ## `elf_validate` -/

theorem matchFields_inside {f : ElfFile} (hsize : ehdrSize ≤ f.size) {xs : List (Field × ℕ)}
    (hxs : ∀ x ∈ xs, x.1.offset + x.1.width ≤ ehdrSize) :
    ∀ r ∈ (matchFields f xs).1, r.Inside f.size := by
  induction xs with
  | nil =>
    intro r hr
    cases hr
  | cons x xs ih =>
    have hx := inside_of_ehdr hsize (hxs x List.mem_cons_self)
    intro r hr
    unfold matchFields at hr
    split_ifs at hr
    · rw [List.mem_singleton.mp hr]
      exact hx
    · rcases List.mem_cons.mp hr with rfl | hr
      · exact hx
      · exact ih (fun y hy => hxs y (List.mem_cons_of_mem _ hy)) r hr

theorem checkHeaders_inside {f : ElfFile} (hsize : ehdrSize ≤ f.size) :
    ∀ r ∈ (checkHeaders f).1, r.Inside f.size := by
  have h₁ : (ePhnum.range 0).Inside f.size := inside_of_ehdr hsize (by decide)
  have h₂ : (ePhoff.range 0).Inside f.size := inside_of_ehdr hsize (by decide)
  have h₃ : (ePhentsize.range 0).Inside f.size := inside_of_ehdr hsize (by decide)
  have h₄ : (eEntry.range 0).Inside f.size := inside_of_ehdr hsize (by decide)
  unfold checkHeaders
  split_ifs <;> simp [h₁, h₂, h₃, h₄]

/-- **`elf_validate` reads inside the file.** -/
theorem elfValidate_inside (f : ElfFile) : ∀ r ∈ (elfValidate f).1, r.Inside f.size := by
  unfold elfValidate
  dsimp only
  split_ifs with hsmall
  · intro r hr
    cases hr
  all_goals
    have hsize : ehdrSize ≤ f.size := Nat.le_of_not_lt fun h => hsmall (Or.inr h)
    have hmagic : (eIdentMagic.range 0).Inside f.size := inside_of_ehdr hsize (by decide)
    have hident := @matchFields_inside f hsize elfIdentification (by decide)
    have hheaders := checkHeaders_inside hsize
    intro r hr
    simp only [List.mem_cons, List.cons_append, List.mem_append] at hr
  · rcases hr with rfl | hr
    · exact hmagic
    · cases hr
  · rcases hr with rfl | hr
    · exact hmagic
    · exact hident r hr
  · rcases hr with rfl | hr | hr
    · exact hmagic
    · exact hident r hr
    · exact hheaders r hr

/-- A file that passes has a header. -/
theorem ehdrSize_le_of_elfValidate {f : ElfFile} (h : (elfValidate f).2 = none) :
    ehdrSize ≤ f.size := by
  unfold elfValidate at h
  split_ifs at h with hsmall
  exact Nat.le_of_not_lt fun hlt => hsmall (Or.inr hlt)

/-- Of a file that passes the end of the header table, in 32 bits, is inside. -/
theorem phEnd_le_of_elfValidate {f : ElfFile} (h : (elfValidate f).2 = none) : f.phEnd ≤ f.size := by
  have hheaders : (checkHeaders f).2 = none := by
    unfold elfValidate at h
    dsimp only at h
    split_ifs at h
    exact h
  unfold checkHeaders at hheaders
  dsimp only at hheaders
  split_ifs at hheaders with _ _ hend
  exact Nat.le_of_not_lt hend

/-! ## Segments -/

/-- How many bytes of the file are copied for the first `m` pages of a segment.  The last
page of the address space gets none, and where the segment ends in the page it begins in, by
a wrap around, all of it is copied at once. -/
def copiedBytes (p : Phdr) (m : ℕ) : ℕ :=
  if m = 0 then 0
  else if p.vaddr + p.filesz < 2 ^ 32 then
    min p.filesz (min (m * 4096) (2 ^ 32 - 4096 - p.vaddrStart) - p.vaddr % 4096)
  else if p.vaddrStart < p.vaddr + p.filesz - 2 ^ 32 ∧ p.vaddrStart + 4096 < 2 ^ 32 then p.filesz
  else 0

/-- The bytes that are copied for `m` pages lie in the file. -/
def CopyInside (size : ℕ) (p : Phdr) (m : ℕ) : Prop :=
  copiedBytes p m = 0 ∨ p.offset + copiedBytes p m ≤ size

namespace Phdr

variable {p : Phdr}

/-- The segment ends, by a wrap around, in the page it begins in: `copy_len` is then the
size of the segment. -/
def WrapsInPage (p : Phdr) : Prop :=
  2 ^ 32 ≤ p.vaddr + p.filesz ∧ p.vaddrStart < p.vaddr + p.filesz - 2 ^ 32 ∧
    p.vaddrStart + 4096 < 2 ^ 32

instance : Decidable p.WrapsInPage := by
  unfold WrapsInPage
  infer_instance

/-- The segment can be mapped with `free` pages left. -/
def Passes (p : Phdr) (free : ℕ) : Prop :=
  p.numPages ≤ free ∧ (p.WrapsInPage → p.numPages = 0)

instance (free : ℕ) : Decidable (p.Passes free) := by
  unfold Passes
  infer_instance

/-- The values a segment has that passed the first checks. -/
structure InUserSpace (p : Phdr) : Prop where
  base_le : userBaseAddr ≤ p.vaddr
  vaddr_lt : p.vaddr < 2 ^ 32
  filesz_lt : p.filesz < 2 ^ 32
  offset_lt : p.offset < 2 ^ 32

/-- Page `j` of the segment gets bytes of the file. -/
def CopiesTo (p : Phdr) (j : ℕ) : Prop :=
  p.vaddr + p.filesz < 2 ^ 32 ∧ p.vaddrStart + (j + 1) * 4096 < 2 ^ 32 ∧
    p.vaddrStart + j * 4096 < p.vaddr + p.filesz

instance (j : ℕ) : Decidable (p.CopiesTo j) := by
  unfold CopiesTo
  infer_instance

theorem vaddrStart_le (p : Phdr) : p.vaddrStart ≤ p.vaddr := Nat.div_mul_le_self _ _

theorem lt_vaddrStart (p : Phdr) : p.vaddr < p.vaddrStart + 4096 := by
  unfold vaddrStart
  omega

theorem vaddr_mod (p : Phdr) : p.vaddr % 4096 = p.vaddr - p.vaddrStart := by
  unfold vaddrStart
  omega

/-! What is copied into page `j`, without the wrap-around of the source.  No more than
`2 ^ 18` pages are ever mapped, so a segment does not come back to where it began. -/

theorem pageCopy_of_wraps (h : p.InUserSpace) (hwrap : p.WrapsInPage) :
    pageCopy p (p.pageVaddr 0) = some ⟨p.vaddr - p.vaddrStart, p.offset, p.filesz⟩ := by
  obtain ⟨h₁, h₂, h₃, h₄⟩ := h
  obtain ⟨hend, hpage, hlast⟩ := hwrap
  have hle := p.vaddrStart_le
  have hlt := p.lt_vaddrStart
  have hend' : (p.vaddr + p.filesz) % 2 ^ 32 = p.vaddr + p.filesz - 2 ^ 32 := by omega
  have hva : p.pageVaddr 0 = p.vaddrStart := by
    unfold pageVaddr
    omega
  unfold pageCopy sub32
  dsimp only
  have hstart : p.vaddr > p.vaddrStart := by omega
  have hstop : p.vaddr + p.filesz - 2 ^ 32 < p.vaddrStart + 4096 := by omega
  rw [hva, hend', Nat.mod_eq_of_lt hlast, if_pos ⟨hpage, hlt⟩, if_pos hstart, if_pos hstop]
  congr 2 <;> omega

theorem pageCopy_of_copies (h : p.InUserSpace) {j : ℕ} (hcopy : p.CopiesTo j) :
    pageCopy p (p.pageVaddr j) =
      some ⟨max p.vaddr (p.vaddrStart + j * 4096) - (p.vaddrStart + j * 4096),
        (p.offset + (max p.vaddr (p.vaddrStart + j * 4096) - p.vaddr)) % 2 ^ 32,
        min (p.vaddr + p.filesz) (p.vaddrStart + (j + 1) * 4096)
          - max p.vaddr (p.vaddrStart + j * 4096)⟩ := by
  obtain ⟨h₁, h₂, h₃, h₄⟩ := h
  obtain ⟨hend, hlast, hpage⟩ := hcopy
  have hle := p.vaddrStart_le
  have hlt := p.lt_vaddrStart
  have hva : p.pageVaddr j = p.vaddrStart + j * 4096 := by
    unfold pageVaddr
    omega
  unfold pageCopy sub32
  dsimp only
  rw [hva, Nat.mod_eq_of_lt hend, Nat.mod_eq_of_lt (by omega : p.vaddrStart + j * 4096 + 4096 < 2 ^ 32),
    if_pos ⟨hpage, by omega⟩]
  have hmax : (if p.vaddr > p.vaddrStart + j * 4096 then p.vaddr else p.vaddrStart + j * 4096) =
      max p.vaddr (p.vaddrStart + j * 4096) := by
    split_ifs <;> omega
  have hmin : (if p.vaddr + p.filesz < p.vaddrStart + j * 4096 + 4096 then p.vaddr + p.filesz
      else p.vaddrStart + j * 4096 + 4096) =
      min (p.vaddr + p.filesz) (p.vaddrStart + (j + 1) * 4096) := by
    split_ifs <;> omega
  rw [hmax, hmin]
  congr 2 <;> omega

theorem pageCopy_of_not (h : p.InUserSpace) {j : ℕ} (hj : j < 2 ^ 18) (hcopy : ¬ p.CopiesTo j)
    (hwrap : p.WrapsInPage → j ≠ 0) : pageCopy p (p.pageVaddr j) = none := by
  obtain ⟨h₁, h₂, h₃, h₄⟩ := h
  have hle := p.vaddrStart_le
  have hlt := p.lt_vaddrStart
  unfold userBaseAddr at h₁
  unfold pageCopy pageVaddr
  dsimp only
  apply if_neg
  rintro ⟨hgt, hstart⟩
  by_cases hlast : p.vaddrStart + j * 4096 + 4096 < 2 ^ 32
  · rw [Nat.mod_eq_of_lt (by omega : p.vaddrStart + j * 4096 < 2 ^ 32)] at hgt
    by_cases hend : p.vaddr + p.filesz < 2 ^ 32
    · rw [Nat.mod_eq_of_lt hend] at hgt
      have hnext : p.vaddrStart + (j + 1) * 4096 < 2 ^ 32 := by
        rw [Nat.succ_mul, ← Nat.add_assoc]
        exact hlast
      exact hcopy ⟨hend, hnext, hgt⟩
    · by_cases hj₀ : j = 0
      · have hin : p.vaddrStart < p.vaddr + p.filesz - 2 ^ 32 := by omega
        exact hwrap ⟨Nat.le_of_not_lt hend, hin, by omega⟩ hj₀
      · omega
  · -- The page is the last one of the address space or comes after the wrap around.
    omega

end Phdr

/-! ## The pages of a segment -/

/-- Where the segment does not wrap around, the bytes for `m` pages go up to the end of page `m`,
of the segment or of the pages that get any. -/
theorem copiedBytes_eq {p : Phdr} (hend : p.vaddr + p.filesz < 2 ^ 32) (m : ℕ) :
    copiedBytes p m =
      min (p.vaddr + p.filesz) (min (p.vaddrStart + m * 4096) 0xFFFFF000) - p.vaddr := by
  have hle := p.vaddrStart_le
  unfold copiedBytes
  rw [if_pos hend, p.vaddr_mod]
  split_ifs with hm
  · rw [hm]
    omega
  · have hshift : min (m * 4096) (2 ^ 32 - 4096 - p.vaddrStart) - (p.vaddr - p.vaddrStart) =
        min (p.vaddrStart + m * 4096) 0xFFFFF000 - p.vaddr := by omega
    rw [hshift, ← Nat.sub_min_sub_right (p.vaddr + p.filesz), Nat.add_sub_cancel_left]

theorem Phdr.page_le_succ (p : Phdr) (j : ℕ) :
    p.vaddrStart + j * 4096 ≤ p.vaddrStart + (j + 1) * 4096 :=
  Nat.add_le_add_left (Nat.mul_le_mul_right 4096 (Nat.le_succ j)) _

/-- A page that gets bytes gets those that follow the ones copied before. -/
theorem copiedBytes_of_copies {p : Phdr} {j : ℕ} (hcopy : p.CopiesTo j) :
    copiedBytes p j = max p.vaddr (p.vaddrStart + j * 4096) - p.vaddr ∧
    copiedBytes p (j + 1) = copiedBytes p j + (min (p.vaddr + p.filesz)
      (p.vaddrStart + (j + 1) * 4096) - max p.vaddr (p.vaddrStart + j * 4096)) := by
  obtain ⟨hend, hlast, hpage⟩ := hcopy
  have hle := p.vaddrStart_le
  have hlt := p.lt_vaddrStart
  have hmod := p.vaddr_mod
  have hcap : p.vaddrStart + (j + 1) * 4096 ≤ 0xFFFFF000 := by omega
  have hcap' := (p.page_le_succ j).trans hcap
  have hbefore : copiedBytes p j = max p.vaddr (p.vaddrStart + j * 4096) - p.vaddr := by
    simp only [copiedBytes_eq hend, Nat.min_eq_left hcap', Nat.min_eq_right (Nat.le_of_lt hpage)]
    omega
  refine ⟨hbefore, ?_⟩
  rw [hbefore, copiedBytes_eq hend, Nat.min_eq_left hcap]
  clear hbefore hcap hcap' hmod hlast hend
  omega

/-- A page that gets no bytes does not change the number. -/
theorem copiedBytes_of_not {p : Phdr} {j : ℕ} (hcopy : ¬ p.CopiesTo j) (hwrap : ¬ p.WrapsInPage) :
    copiedBytes p (j + 1) = copiedBytes p j := by
  by_cases hend : p.vaddr + p.filesz < 2 ^ 32
  · rw [copiedBytes_eq hend, copiedBytes_eq hend]
    by_cases hlast : p.vaddrStart + (j + 1) * 4096 < 2 ^ 32
    · -- The segment ends before the page.
      have hpage : p.vaddr + p.filesz ≤ p.vaddrStart + j * 4096 :=
        Nat.le_of_not_lt fun hlt => hcopy ⟨hend, hlast, hlt⟩
      have hnext := hpage.trans (p.page_le_succ j)
      simp only [← Nat.min_assoc, Nat.min_eq_left hpage, Nat.min_eq_left hnext]
    · -- The page is the last one of the address space or comes after it.
      have hcap : 0xFFFFF000 ≤ p.vaddrStart + j * 4096 := by omega
      have hcap' := hcap.trans (p.page_le_succ j)
      simp only [Nat.min_eq_right hcap, Nat.min_eq_right hcap']
  · unfold copiedBytes
    rw [if_neg (Nat.succ_ne_zero j), if_neg hend, if_neg hend,
      if_neg fun h => hwrap ⟨Nat.le_of_not_lt hend, h⟩, ite_self]

/-- The ranges read for the first `m` pages are inside the file exactly if the bytes copied
for them are. -/
theorem pages_inside_iff {p : Phdr} (h : p.InUserSpace) {size m : ℕ} (hsize : size < 2 ^ 32)
    (hm : m ≤ 2 ^ 18) :
    (∀ j < m, ∀ r ∈ Loader.copyReads (pageCopy p (p.pageVaddr j)), r.Inside size) ↔
      CopyInside size p m := by
  by_cases hwrap : p.WrapsInPage
  · -- Only the first page gets bytes, all of them.
    have hend : ¬ p.vaddr + p.filesz < 2 ^ 32 := Nat.not_lt.mpr hwrap.1
    have hnone : ∀ j < m, j ≠ 0 → pageCopy p (p.pageVaddr j) = none := fun j hj hj₀ =>
      Phdr.pageCopy_of_not h (by omega) (fun hcopy => hend hcopy.1) fun _ => hj₀
    have hfirst : (⟨p.offset, p.filesz⟩ : FileRead).Inside size ↔
        p.filesz = 0 ∨ p.offset + p.filesz ≤ size := FileRead.inside_iff h.offset_lt hsize
    unfold CopyInside copiedBytes
    by_cases hm₀ : m = 0
    · rw [if_pos hm₀]
      simp [hm₀]
    · rw [if_neg hm₀, if_neg hend, if_pos hwrap.2, ← hfirst]
      constructor
      · intro hall
        apply hall 0 (Nat.pos_of_ne_zero hm₀)
        rw [Phdr.pageCopy_of_wraps h hwrap]
        exact List.mem_singleton_self _
      · intro hinside j hj r hr
        by_cases hj₀ : j = 0
        · rw [hj₀, Phdr.pageCopy_of_wraps h hwrap] at hr
          rw [List.mem_singleton.mp hr]
          exact hinside
        · rw [hnone j hj hj₀] at hr
          cases hr
  · -- By induction: the bytes of a page follow those of the pages before it.
    induction m with
    | zero => simp [CopyInside, copiedBytes]
    | succ m ih =>
      have hsplit : (∀ j < m + 1, ∀ r ∈ Loader.copyReads (pageCopy p (p.pageVaddr j)),
          r.Inside size) ↔ (∀ j < m, ∀ r ∈ Loader.copyReads (pageCopy p (p.pageVaddr j)),
          r.Inside size) ∧ ∀ r ∈ Loader.copyReads (pageCopy p (p.pageVaddr m)), r.Inside size :=
        Nat.forall_lt_succ_right
      rw [hsplit, ih (by omega)]
      by_cases hcopy : p.CopiesTo m
      · obtain ⟨hbefore, hafter⟩ := copiedBytes_of_copies hcopy
        have hoffset := h.offset_lt
        rw [Phdr.pageCopy_of_copies h hcopy, ← hbefore]
        generalize min (p.vaddr + p.filesz) (p.vaddrStart + (m + 1) * 4096)
          - max p.vaddr (p.vaddrStart + m * 4096) = len at *
        have hrange : (∀ r ∈ Loader.copyReads (some ⟨max p.vaddr (p.vaddrStart + m * 4096)
              - (p.vaddrStart + m * 4096), (p.offset + copiedBytes p m) % 2 ^ 32, len⟩),
            r.Inside size) ↔ len = 0 ∨ (p.offset + copiedBytes p m) % 2 ^ 32 + len ≤ size := by
          rw [← FileRead.inside_iff (r := ⟨(p.offset + copiedBytes p m) % 2 ^ 32, len⟩)
            (Nat.mod_lt _ (by norm_num)) hsize]
          simp [Loader.copyReads]
        rw [hrange]
        unfold CopyInside
        rw [hafter]
        omega
      · rw [Phdr.pageCopy_of_not h (by omega) hcopy fun hw => absurd hw hwrap]
        unfold CopyInside
        rw [copiedBytes_of_not hcopy hwrap]
        simp [Loader.copyReads]

/-- Without the wrap around in the first page, every copy stays in its page. -/
theorem copyFits_of_not_wraps {p : Phdr} (h : p.InUserSpace) (hwrap : ¬ p.WrapsInPage) {j : ℕ}
    (hj : j < 2 ^ 18) : copyFits (pageCopy p (p.pageVaddr j)) := by
  by_cases hcopy : p.CopiesTo j
  · have hle := p.vaddrStart_le
    have hlt := p.lt_vaddrStart
    obtain ⟨_, _, hpage⟩ := id hcopy
    rw [Phdr.pageCopy_of_copies h hcopy]
    show _ - _ + (_ - _) ≤ 4096
    omega
  · rw [Phdr.pageCopy_of_not h hj hcopy fun hw => absurd hw hwrap]
    trivial

/-- With the wrap around in the first page, its copy leaves the page. -/
theorem not_copyFits_of_wraps {p : Phdr} (h : p.InUserSpace) (hwrap : p.WrapsInPage) :
    ¬ copyFits (pageCopy p (p.pageVaddr 0)) := by
  obtain ⟨hend, hin, _⟩ := id hwrap
  have hlt := p.lt_vaddrStart
  rw [Phdr.pageCopy_of_wraps h hwrap]
  show ¬ p.vaddr - p.vaddrStart + p.filesz ≤ 4096
  omega

/-- The pages of a segment are not in the entries 256 to 767. -/
theorem Phdr.InUserSpace.not_private {p : Phdr} (h : p.InUserSpace) {j : ℕ} (hj : j < 2 ^ 18) :
    ¬ Private (pdIdx (BitVec.ofNat 32 (p.pageVaddr j))) := by
  have h₁ := h.base_le
  have h₂ := h.vaddr_lt
  have hle : userBaseAddr ≤ p.vaddrStart := by
    unfold Phdr.vaddrStart
    unfold userBaseAddr at *
    omega
  have hlt := p.vaddrStart_le
  unfold userBaseAddr at *
  rw [pdIdx_eq, BitVec.toNat_ofNat]
  unfold Phdr.pageVaddr Private
  generalize p.vaddrStart = S at *
  generalize p.vaddr = V at *
  omega

namespace Loader

variable {k : KernelImage} {f : ElfFile} {a : ℕ} {l : Loader} {p : Phdr}

/-- One page of a segment is filled and mapped. -/
theorem loading_mapFrame (h : Loading k a l.paging) {q va : ℕ}
    (hq : Pmm.firstPage k.toKernelEnd ≤ q) (hqa : q ≠ a)
    (hva : ¬ Private (pdIdx (BitVec.ofNat 32 va))) :
    Loading k a (l.mapFrame k f (a * 4096) p va (q * 4096)).paging ∧
      (l.mapFrame k f (a * 4096) p va (q * 4096)).paging.pmm = l.paging.pmm := by
  have hfill := h.fillPage hq hqa (pageBytes f (pageCopy p va))
  have hmap := hfill.mapUser hva (BitVec.ofNat 32 (q * 4096)) p.mapFlags
  unfold mapFrame mapUser
  rw [Nat.mul_div_cancel q (by norm_num)]
  exact ⟨hmap.2.1, hmap.1⟩

/-- What the loop of `map_segment` does from round `i` on, with `n` rounds left: it maps as
many pages as it can get, and reads what is copied into them. -/
structure MapsPages (k : KernelImage) (a : ℕ) (p : Phdr) (l : Loader) (i n : ℕ)
    (r : Loader × Progress) : Prop where
  reads : ∀ x, x ∈ r.1.reads ↔ x ∈ l.reads ∨
    ∃ j, i ≤ j ∧ j < i + min n l.paging.pmm.available ∧ x ∈ copyReads (pageCopy p (p.pageVaddr j))
  done : n ≤ l.paging.pmm.available → r.2 = .done ∧ Loading k a r.1.paging ∧
    r.1.paging.pmm.available + n = l.paging.pmm.available
  failed : l.paging.pmm.available < n → r.2 = .failed .noSegmentMemory

theorem mapsPages_mapSegmentLoop (hp : p.InUserSpace) (hwrap : ¬ p.WrapsInPage) {i n : ℕ}
    (h : Loading k a l.paging) (hi : i + l.paging.pmm.available ≤ 2 ^ 18) :
    MapsPages k a p l i n (mapSegmentLoop k f (a * 4096) p l i n) := by
  induction n generalizing l i with
  | zero =>
    refine ⟨fun x => ?_, fun _ => ⟨rfl, h, rfl⟩, fun hlt => absurd hlt (Nat.not_lt_zero _)⟩
    constructor
    · exact Or.inl
    · rintro (hx | ⟨j, h₁, h₂, _⟩)
      · exact hx
      · omega
  | succ n ih =>
    unfold mapSegmentLoop
    rcases h.alloc with ⟨hav, halloc⟩ | ⟨q, hfirst, _, _, hqa, halloc, hav, hload⟩
    · rw [halloc]
      dsimp only
      rw [if_pos rfl]
      refine ⟨fun x => ?_, fun hle => by omega, fun _ => rfl⟩
      constructor
      · exact Or.inl
      · rintro (hx | ⟨j, h₁, h₂, _⟩)
        · exact hx
        · omega
    · have hq₀ : q * 4096 ≠ 0 := by
        have := k.firstPage_pos
        omega
      have hi' : i < 2 ^ 18 := by omega
      rw [halloc]
      dsimp only
      rw [if_neg hq₀, if_pos (copyFits_of_not_wraps hp hwrap hi')]
      set l₁ := (l.setPmm (l.paging.pmm.mark q)).read (copyReads (pageCopy p (p.pageVaddr i)))
        with hl₁
      obtain ⟨hload₂, hpmm₂⟩ := @loading_mapFrame k f a l₁ p hload q _ hfirst hqa
        (hp.not_private hi')
      set l₂ := l₁.mapFrame k f (a * 4096) p (p.pageVaddr i) (q * 4096) with hl₂
      have hav₂ : l₂.paging.pmm.available + 1 = l.paging.pmm.available := by
        rw [hpmm₂]
        exact hav
      have hreads₂ : l₂.reads = copyReads (pageCopy p (p.pageVaddr i)) ++ l.reads := rfl
      have hrest := ih hload₂ (i := i + 1) (by omega)
      refine ⟨fun x => ?_, fun hle => ?_, fun hlt => hrest.failed (by omega)⟩
      · rw [hrest.reads x, hreads₂, List.mem_append]
        constructor
        · rintro ((hx | hx) | ⟨j, h₁, h₂, hx⟩)
          · exact Or.inr ⟨i, le_refl i, by omega, hx⟩
          · exact Or.inl hx
          · exact Or.inr ⟨j, by omega, by omega, hx⟩
        · rintro (hx | ⟨j, h₁, h₂, hx⟩)
          · exact Or.inl (Or.inr hx)
          · by_cases hji : j = i
            · subst hji
              exact Or.inl (Or.inl hx)
            · exact Or.inr ⟨j, by omega, by omega, hx⟩
      · obtain ⟨h₁, h₂, h₃⟩ := hrest.done (by omega)
        exact ⟨h₁, h₂, by omega⟩

/-- All that was read is inside the file. -/
def AllInside (l : Loader) (size : ℕ) : Prop := ∀ x ∈ l.reads, x.Inside size

theorem allInside_read {rs : List FileRead} {size : ℕ} :
    (l.read rs).AllInside size ↔ (∀ x ∈ rs, x.Inside size) ∧ l.AllInside size := by
  unfold AllInside read
  exact List.forall_mem_append

/-- A segment that wraps around in its first page ends the load there. -/
theorem mapSegmentLoop_of_wraps (hp : p.InUserSpace) (hwrap : p.WrapsInPage) {n : ℕ}
    (h : Loading k a l.paging) :
    (l.paging.pmm.available = 0 ∧ mapSegmentLoop k f (a * 4096) p l 0 (n + 1) =
      (l, .failed .noSegmentMemory)) ∨
    ∃ m, 0 < l.paging.pmm.available ∧ mapSegmentLoop k f (a * 4096) p l 0 (n + 1) =
      ((l.setPmm m).read (copyReads (pageCopy p (p.pageVaddr 0))), .overrun) := by
  unfold mapSegmentLoop
  rcases h.alloc with ⟨hav, halloc⟩ | ⟨q, hfirst, _, _, _, halloc, hav, _⟩
  · rw [halloc]
    exact Or.inl ⟨hav, if_pos rfl⟩
  · have hq₀ : q * 4096 ≠ 0 := by
      have := k.firstPage_pos
      omega
    have hover := not_copyFits_of_wraps hp hwrap
    rw [halloc]
    dsimp only
    rw [if_neg hq₀, if_neg hover]
    exact Or.inr ⟨_, by omega, rfl⟩

/-- **`map_segment`** reads inside the file exactly if the bytes it copies are; if it comes to
its end, it has used up its pages. -/
theorem mapSegment_spec (hp : p.InUserSpace) (h : Loading k a l.paging) (hsize : f.size < 2 ^ 32) :
    ((mapSegment k f (a * 4096) p l).1.AllInside f.size ↔ l.AllInside f.size ∧
      CopyInside f.size p (min p.numPages l.paging.pmm.available)) ∧
    (p.Passes l.paging.pmm.available → (mapSegment k f (a * 4096) p l).2 = .done ∧
      Loading k a (mapSegment k f (a * 4096) p l).1.paging ∧
      (mapSegment k f (a * 4096) p l).1.paging.pmm.available =
        l.paging.pmm.available - p.numPages) ∧
    (¬ p.Passes l.paging.pmm.available → (mapSegment k f (a * 4096) p l).2 ≠ .done) := by
  have hav : l.paging.pmm.available ≤ 2 ^ 18 := Pmm.available_le.trans h.total_le
  rw [← pages_inside_iff hp hsize (by omega)]
  unfold mapSegment
  by_cases hwrap : p.WrapsInPage
  · cases hpages : p.numPages with
    | zero =>
      refine ⟨?_, fun _ => ⟨rfl, h, rfl⟩, fun hnot => absurd ⟨by omega, fun _ => hpages⟩ hnot⟩
      rw [Nat.zero_min]
      exact ⟨fun hin => ⟨hin, fun j hj => absurd hj (Nat.not_lt_zero j)⟩, fun hin => hin.1⟩
    | succ n =>
      have hnot : ¬ p.Passes l.paging.pmm.available := fun hpass => by
        have := hpass.2 hwrap
        omega
      refine ⟨?_, fun hpass => absurd hpass hnot, fun _ => ?_⟩
      · rcases mapSegmentLoop_of_wraps (f := f) (n := n) hp hwrap h with ⟨hav, heq⟩ | ⟨m, hav, heq⟩
        · rw [heq, hav, Nat.min_zero]
          exact ⟨fun hin => ⟨hin, fun j hj => absurd hj (Nat.not_lt_zero j)⟩, fun hin => hin.1⟩
        · have hsame : ((l.setPmm m).read (copyReads (pageCopy p (p.pageVaddr 0)))).AllInside f.size ↔
              (∀ x ∈ copyReads (pageCopy p (p.pageVaddr 0)), x.Inside f.size) ∧
                l.AllInside f.size := allInside_read
          rw [heq, hsame, and_comm]
          refine and_congr_right fun _ => ⟨fun hin j hj => ?_, fun hin => hin 0 (by omega)⟩
          by_cases hj₀ : j = 0
          · rw [hj₀]
            exact hin
          · rw [Phdr.pageCopy_of_not hp (by omega) (fun hcopy => absurd hcopy.1
              (Nat.not_lt.mpr hwrap.1)) fun _ => hj₀]
            intro x hx
            cases hx
      · rcases mapSegmentLoop_of_wraps (f := f) (n := n) hp hwrap h with ⟨_, heq⟩ | ⟨m, _, heq⟩
        · rw [heq]
          exact fun hcontra => by cases hcontra
        · rw [heq]
          exact fun hcontra => by cases hcontra
  · have hspec := mapsPages_mapSegmentLoop (f := f) (n := p.numPages) hp hwrap h
      (i := 0) (by omega)
    refine ⟨?_, fun hpass => ?_, fun hnot => ?_⟩
    · constructor
      · intro hin
        refine ⟨fun x hx => hin x ((hspec.reads x).mpr (Or.inl hx)), fun j hj x hx => ?_⟩
        exact hin x ((hspec.reads x).mpr (Or.inr ⟨j, Nat.zero_le j, by omega, hx⟩))
      · rintro ⟨hin, hpages⟩ x hx
        rcases (hspec.reads x).mp hx with hx | ⟨j, _, hj, hx⟩
        · exact hin x hx
        · exact hpages j (by omega) x hx
    · obtain ⟨h₁, h₂, h₃⟩ := hspec.done hpass.1
      exact ⟨h₁, h₂, by omega⟩
    · rw [hspec.failed (Nat.lt_of_not_le fun hle => hnot ⟨hle, fun hw => absurd hw hwrap⟩)]
      exact fun hcontra => by cases hcontra

end Loader

/-! ## The program headers -/

namespace ElfFile

variable (f : ElfFile)

/-- Header `i` is passed over. -/
def Skipped (i : ℕ) : Prop := (f.phdr i).type ≠ 1 ∨ (f.phdr i).memsz = 0

/-- Header `i` is a segment that passes the checks. -/
def Accepted (i : ℕ) : Prop :=
  (f.phdr i).type = 1 ∧ (f.phdr i).memsz ≠ 0 ∧ userBaseAddr ≤ (f.phdr i).vaddr ∧
    ((f.phdr i).offset + (f.phdr i).filesz) % 2 ^ 32 ≤ f.size

instance (i : ℕ) : Decidable (f.Skipped i) := by
  unfold Skipped
  infer_instance

instance (i : ℕ) : Decidable (f.Accepted i) := by
  unfold Accepted
  infer_instance

/-- The fields of header `i` that decide about it. -/
def lookedAt (i : ℕ) : List Field :=
  if (f.phdr i).type ≠ 1 then [pType]
  else if (f.phdr i).memsz = 0 then [pType, pMemsz]
  else if (f.phdr i).vaddr < userBaseAddr then [pType, pMemsz, pVaddr]
  else if ((f.phdr i).offset + (f.phdr i).filesz) % 2 ^ 32 > f.size then
    [pType, pMemsz, pVaddr, pOffset, pFilesz]
  else [pType, pMemsz, pVaddr, pOffset, pFilesz, pFlags]

/-- How many pages are left at header `i` if there are `free` at the first one; `none` if the
loader does not come that far. -/
def pagesLeft (free : ℕ) : ℕ → Option ℕ
  | 0 => some free
  | i + 1 => (pagesLeft free i).bind fun m =>
    if f.Skipped i then some m
    else if f.Accepted i ∧ (f.phdr i).Passes m then some (m - (f.phdr i).numPages)
    else none

/-- The fields looked at in header `i`, and the bytes copied if it is a segment that passes
the checks, lie in the file. -/
structure HeaderInside (i m : ℕ) : Prop where
  fields : ∀ x ∈ f.lookedAt i, FieldInside f.size (f.phdrBase i) x
  copied : f.Accepted i → CopyInside f.size (f.phdr i) (min (f.phdr i).numPages m)

/-- Every header the loader comes to lies in the file, as far as it is looked at, and so do
the bytes copied. -/
def ReadsInside (free : ℕ) : Prop :=
  ∀ i < f.phnum, ∀ m, f.pagesLeft free i = some m → f.HeaderInside i m

end ElfFile

/-- A segment copies no more than its size. -/
theorem copiedBytes_le (p : Phdr) (m : ℕ) : copiedBytes p m ≤ p.filesz := by
  unfold copiedBytes
  split_ifs <;> omega

/-- What the checks of the source are for: if the end of the header table and of every segment
is what it is in the integers, and an entry of the table is large enough for the fields that
are used, all reads are inside. -/
theorem ElfFile.readsInside_of_noWrap {f : ElfFile} (hvalid : (elfValidate f).2 = none)
    (hentry : 28 ≤ f.phentsize) (hend : f.phoff + f.phnum * f.phentsize < 2 ^ 32)
    (hseg : ∀ i < f.phnum, (f.phdr i).offset + (f.phdr i).filesz < 2 ^ 32) (free : ℕ) :
    f.ReadsInside free := by
  have hphend : f.phoff + f.phnum * f.phentsize ≤ f.size := by
    rw [← Nat.mod_eq_of_lt hend]
    exact phEnd_le_of_elfValidate hvalid
  intro i hi m _
  have hnext : (i + 1) * f.phentsize ≤ f.phnum * f.phentsize := Nat.mul_le_mul_right _ hi
  rw [Nat.succ_mul] at hnext
  have hbase : f.phdrBase i = f.phoff + i * f.phentsize := Nat.mod_eq_of_lt (by omega)
  constructor
  · intro x hx
    have hx' : x.offset + x.width ≤ 28 := by
      revert x
      unfold lookedAt
      split_ifs <;> decide
    have := Nat.mod_le (f.phdrBase i + x.offset) (2 ^ 32)
    unfold FieldInside
    omega
  · intro hacc
    have hsum := hacc.2.2.2
    have hle := copiedBytes_le (f.phdr i) (min (f.phdr i).numPages m)
    rw [Nat.mod_eq_of_lt (hseg i hi)] at hsum
    exact Or.inr (by omega)

namespace Loader

variable {k : KernelImage} {f : ElfFile} {a : ℕ} {l : Loader}

/-- The fields of a program header are words. -/
theorem inUserSpace_phdr {i : ℕ} (h : userBaseAddr ≤ (f.phdr i).vaddr) : (f.phdr i).InUserSpace where
  base_le := h
  vaddr_lt := f.mem.loadLE_lt _ 4
  filesz_lt := f.mem.loadLE_lt _ 4
  offset_lt := f.mem.loadLE_lt _ 4

@[simp] theorem destroy_reads (pd : ℕ) : (l.destroy k pd).reads = l.reads := rfl

theorem allInside_destroy {pd size : ℕ} : (l.destroy k pd).AllInside size ↔ l.AllInside size :=
  Iff.rfl

/-- The fields of the header at `base` that are read, together. -/
theorem allInside_fields {xs : List Field} {size base : ℕ} (hsize : size < 2 ^ 32)
    (hxs : ∀ x ∈ xs, 0 < x.width) :
    (l.read (xs.map fun x => x.range base)).AllInside size ↔
      l.AllInside size ∧ ∀ x ∈ xs, FieldInside size base x := by
  rw [allInside_read, and_comm, List.forall_mem_map]
  refine and_congr_right fun _ => ⟨fun h x hx => ?_, fun h x hx => ?_⟩
  · exact (fieldInside_iff hsize (hxs x hx)).mp (h x hx)
  · exact (fieldInside_iff hsize (hxs x hx)).mpr (h x hx)

/-- The loader at header `i` after it read the fields `xs`. -/
def looked (l : Loader) (f : ElfFile) (i : ℕ) (xs : List Field) : Loader :=
  (l.read [ePhentsize.range 0, ePhoff.range 0, ePhnum.range 0]).read
    (xs.map fun x => x.range (f.phdrBase i))

theorem allInside_looked {i : ℕ} {xs : List Field} (hsize : ehdrSize ≤ f.size)
    (hxs : ∀ x ∈ xs, 0 < x.width) :
    (l.looked f i xs).AllInside f.size ↔
      l.AllInside f.size ∧ ∀ x ∈ xs, FieldInside f.size (f.phdrBase i) x := by
  have h₁ : (ePhnum.range 0).Inside f.size := inside_of_ehdr hsize (by decide)
  have h₂ : (ePhoff.range 0).Inside f.size := inside_of_ehdr hsize (by decide)
  have h₃ : (ePhentsize.range 0).Inside f.size := inside_of_ehdr hsize (by decide)
  unfold looked
  rw [allInside_fields f.size_lt hxs, allInside_read]
  simp [h₁, h₂, h₃]

/-- The exits of the body of the loop over the program headers. -/
theorem loadHeader_cases (pd i : ℕ) :
    ((f.phdr i).type ≠ 1 ∧ loadHeader k f pd i l = (l.looked f i [pType], .done)) ∨
    ((f.phdr i).type = 1 ∧ (f.phdr i).memsz = 0 ∧
      loadHeader k f pd i l = (l.looked f i [pMemsz, pType], .done)) ∨
    ((f.phdr i).type = 1 ∧ (f.phdr i).memsz ≠ 0 ∧ (f.phdr i).vaddr < userBaseAddr ∧
      loadHeader k f pd i l = ((l.looked f i [pVaddr, pMemsz, pType]).destroy k pd,
        .failed (.segmentBelow (f.phdr i).vaddr))) ∨
    ((f.phdr i).type = 1 ∧ (f.phdr i).memsz ≠ 0 ∧ userBaseAddr ≤ (f.phdr i).vaddr ∧
      ((f.phdr i).offset + (f.phdr i).filesz) % 2 ^ 32 > f.size ∧
      loadHeader k f pd i l = ((l.looked f i [pFilesz, pOffset, pVaddr, pMemsz, pType]).destroy k pd,
        .failed .segmentOutside)) ∨
    (f.Accepted i ∧ ∃ r, r = mapSegment k f pd (f.phdr i)
        (l.looked f i [pFlags, pFilesz, pOffset, pVaddr, pMemsz, pType]) ∧
      (loadHeader k f pd i l).1.reads = r.1.reads ∧ (loadHeader k f pd i l).2 = r.2 ∧
      (r.2 = .done → (loadHeader k f pd i l).1 = r.1) ∧
      (∀ e, r.2 = .failed e → (loadHeader k f pd i l).1 = r.1.destroy k pd)) := by
  unfold loadHeader
  dsimp only
  by_cases htype : (f.phdr i).type = 1
  · by_cases hmem : (f.phdr i).memsz = 0
    · rw [if_neg (not_not.mpr htype), if_pos hmem]
      exact Or.inr (Or.inl ⟨htype, hmem, rfl⟩)
    · by_cases hbase : (f.phdr i).vaddr < userBaseAddr
      · rw [if_neg (not_not.mpr htype), if_neg hmem, if_pos hbase]
        exact Or.inr (Or.inr (Or.inl ⟨htype, hmem, hbase, rfl⟩))
      · rw [if_neg (not_not.mpr htype), if_neg hmem, if_neg hbase]
        unfold loadSegment
        dsimp only
        by_cases hsum : ((f.phdr i).offset + (f.phdr i).filesz) % 2 ^ 32 > f.size
        · rw [if_pos hsum]
          exact Or.inr (Or.inr (Or.inr (Or.inl
            ⟨htype, hmem, Nat.le_of_not_lt hbase, hsum, rfl⟩)))
        · rw [if_neg hsum]
          refine Or.inr (Or.inr (Or.inr (Or.inr ⟨⟨htype, hmem, Nat.le_of_not_lt hbase,
            Nat.le_of_not_lt hsum⟩, _, rfl, ?_⟩)))
          have hlooked : ((((l.read [pType.range (f.phdrBase i), ePhentsize.range 0,
              ePhoff.range 0, ePhnum.range 0]).read [pMemsz.range (f.phdrBase i)]).read
              [pVaddr.range (f.phdrBase i)]).read [pFilesz.range (f.phdrBase i),
                pOffset.range (f.phdrBase i)]).read [pFlags.range (f.phdrBase i)] =
              l.looked f i [pFlags, pFilesz, pOffset, pVaddr, pMemsz, pType] := rfl
          rw [hlooked]
          obtain ⟨l', progress⟩ := mapSegment k f pd (f.phdr i)
            (l.looked f i [pFlags, pFilesz, pOffset, pVaddr, pMemsz, pType])
          cases progress with
          | done =>
            refine ⟨rfl, rfl, fun _ => rfl, ?_⟩
            rintro e ⟨⟩
          | failed e =>
            refine ⟨rfl, rfl, ?_, fun _ _ => rfl⟩
            rintro ⟨⟩
          | overrun =>
            refine ⟨rfl, rfl, ?_, ?_⟩
            · rintro ⟨⟩
            · rintro e ⟨⟩
  · rw [if_pos htype]
    exact Or.inl ⟨htype, rfl⟩

/-- **One program header**: what is read of it, and how it leaves the loader. -/
theorem loadHeader_spec (hsize : ehdrSize ≤ f.size) (h : Loading k a l.paging) (i : ℕ) :
    ((loadHeader k f (a * 4096) i l).1.AllInside f.size ↔ l.AllInside f.size ∧
      f.HeaderInside i l.paging.pmm.available) ∧
    ((f.Skipped i ∧ (loadHeader k f (a * 4096) i l).2 = .done ∧
        (loadHeader k f (a * 4096) i l).1.paging = l.paging) ∨
      (¬ f.Skipped i ∧ f.Accepted i ∧ (f.phdr i).Passes l.paging.pmm.available ∧
        (loadHeader k f (a * 4096) i l).2 = .done ∧
        Loading k a (loadHeader k f (a * 4096) i l).1.paging ∧
        (loadHeader k f (a * 4096) i l).1.paging.pmm.available =
          l.paging.pmm.available - (f.phdr i).numPages) ∨
      (¬ f.Skipped i ∧ ¬ (f.Accepted i ∧ (f.phdr i).Passes l.paging.pmm.available) ∧
        (loadHeader k f (a * 4096) i l).2 ≠ .done)) := by
  have hfields : ∀ xs, f.lookedAt i = xs.reverse → (∀ x ∈ xs, 0 < x.width) →
      ((l.looked f i xs).AllInside f.size ↔
        l.AllInside f.size ∧ ∀ x ∈ f.lookedAt i, FieldInside f.size (f.phdrBase i) x) := by
    intro xs heq hxs
    rw [allInside_looked hsize hxs, heq]
    simp only [List.mem_reverse]
  have hlooked : ∀ xs, f.lookedAt i = xs.reverse → (∀ x ∈ xs, 0 < x.width) → ¬ f.Accepted i →
      ((l.looked f i xs).AllInside f.size ↔
        l.AllInside f.size ∧ f.HeaderInside i l.paging.pmm.available) := by
    intro xs heq hxs hnot
    rw [hfields xs heq hxs]
    exact and_congr_right fun _ =>
      ⟨fun hin => ⟨hin, fun hacc => absurd hacc hnot⟩, fun hin => hin.fields⟩
  rcases @loadHeader_cases k f l (a * 4096) i with ⟨htype, heq⟩ | ⟨htype, hmem, heq⟩ |
    ⟨htype, hmem, hbase, heq⟩ | ⟨htype, hmem, hbase, hsum, heq⟩ |
    ⟨hacc, r, hr, hreads, hprog, hdone, hfailed⟩
  · rw [heq]
    refine ⟨hlooked _ (if_pos htype) (by decide) fun hacc => htype hacc.1, Or.inl ⟨?_, rfl, rfl⟩⟩
    exact Or.inl htype
  · rw [heq]
    refine ⟨hlooked _ ((if_neg (not_not.mpr htype)).trans (if_pos hmem)) (by decide)
      fun hacc => hacc.2.1 hmem, Or.inl ⟨?_, rfl, rfl⟩⟩
    exact Or.inr hmem
  · rw [heq]
    have hskip : ¬ f.Skipped i := fun hs => hs.elim (fun h => h htype) hmem
    have hnot : ¬ f.Accepted i := fun hacc => absurd hbase (Nat.not_lt.mpr hacc.2.2.1)
    refine ⟨allInside_destroy.trans (hlooked _ ?_ (by decide) hnot),
      Or.inr (Or.inr ⟨hskip, fun hacc => hnot hacc.1, fun he => by cases he⟩)⟩
    unfold ElfFile.lookedAt
    rw [if_neg (not_not.mpr htype), if_neg hmem, if_pos hbase]
    rfl
  · rw [heq]
    have hskip : ¬ f.Skipped i := fun hs => hs.elim (fun h => h htype) hmem
    have hnot : ¬ f.Accepted i := fun hacc => absurd hsum (Nat.not_lt.mpr hacc.2.2.2)
    refine ⟨allInside_destroy.trans (hlooked _ ?_ (by decide) hnot),
      Or.inr (Or.inr ⟨hskip, fun hacc => hnot hacc.1, fun he => by cases he⟩)⟩
    unfold ElfFile.lookedAt
    rw [if_neg (not_not.mpr htype), if_neg hmem, if_neg (Nat.not_lt.mpr hbase), if_pos hsum]
    rfl
  · have hskip : ¬ f.Skipped i := fun hs => hs.elim (fun h => h hacc.1) hacc.2.1
    obtain ⟨hin, hpass, hnot⟩ := @mapSegment_spec k f a _ _ (inUserSpace_phdr hacc.2.2.1)
      (show Loading k a (l.looked f i [pFlags, pFilesz, pOffset, pVaddr, pMemsz, pType]).paging
        from h) f.size_lt
    rw [← hr] at hin hpass hnot
    refine ⟨?_, ?_⟩
    · have hsame : (loadHeader k f (a * 4096) i l).1.AllInside f.size ↔ r.1.AllInside f.size := by
        unfold AllInside
        rw [hreads]
      have hlast : f.lookedAt i = [pFlags, pFilesz, pOffset, pVaddr, pMemsz, pType].reverse := by
        unfold ElfFile.lookedAt
        rw [if_neg (not_not.mpr hacc.1), if_neg hacc.2.1, if_neg (Nat.not_lt.mpr hacc.2.2.1),
          if_neg (Nat.not_lt.mpr hacc.2.2.2)]
        rfl
      rw [hsame, hin, hfields _ hlast (by decide), and_assoc]
      exact and_congr_right fun _ => ⟨fun hall => ⟨hall.1, fun _ => hall.2⟩,
        fun hall => ⟨hall.fields, hall.copied hacc⟩⟩
    · by_cases hp : (f.phdr i).Passes l.paging.pmm.available
      · obtain ⟨h₁, h₂, h₃⟩ := hpass hp
        rw [hdone h₁, hprog]
        exact Or.inr (Or.inl ⟨hskip, hacc, hp, h₁, h₂, h₃⟩)
      · rw [hprog]
        exact Or.inr (Or.inr ⟨hskip, fun h => hp h.2, hnot hp⟩)

/-- Once the loader has stopped it comes to no further header. -/
theorem pagesLeft_none {free i j : ℕ} (h : f.pagesLeft free i = none) (hij : i ≤ j) :
    f.pagesLeft free j = none := by
  induction j, hij using Nat.le_induction with
  | base => exact h
  | succ j _ ih =>
    unfold ElfFile.pagesLeft
    rw [ih]
    rfl

theorem loadHeaders_of_done {pd i n : ℕ} (h : (loadHeader k f pd i l).2 = .done) :
    loadHeaders k f pd l i (n + 1) = loadHeaders k f pd (loadHeader k f pd i l).1 (i + 1) n := by
  rw [loadHeaders]
  simp only [h]

theorem loadHeaders_of_stop {pd i n : ℕ} (h : (loadHeader k f pd i l).2 ≠ .done) :
    loadHeaders k f pd l i (n + 1) = loadHeader k f pd i l := by
  rw [loadHeaders]
  split
  · contradiction
  · rfl

/-- **The loop over the program headers** reads inside the file exactly if the headers it
comes to, and what is copied for them, lie in it. -/
theorem loadHeaders_inside (hsize : ehdrSize ≤ f.size) {free i n : ℕ} (h : Loading k a l.paging)
    (hleft : f.pagesLeft free i = some l.paging.pmm.available) :
    (loadHeaders k f (a * 4096) l i n).1.AllInside f.size ↔ l.AllInside f.size ∧
      ∀ j, i ≤ j → j < i + n → ∀ m, f.pagesLeft free j = some m → f.HeaderInside j m := by
  induction n generalizing l i with
  | zero =>
    have hphnum : (ePhnum.range 0).Inside f.size := inside_of_ehdr hsize (by decide)
    show (l.read [ePhnum.range 0]).AllInside f.size ↔ _
    rw [allInside_read]
    constructor
    · exact fun hin => ⟨hin.2, fun j h₁ h₂ => by omega⟩
    · exact fun hin => ⟨by simpa using hphnum, hin.1⟩
  | succ n ih =>
    obtain ⟨hin, hcases⟩ := loadHeader_spec (k := k) hsize h i
    have hhere : (l.AllInside f.size ∧ f.HeaderInside i l.paging.pmm.available) ∧
        (∀ j, i + 1 ≤ j → j < i + 1 + n → ∀ m, f.pagesLeft free j = some m → f.HeaderInside j m) ↔
        l.AllInside f.size ∧
          ∀ j, i ≤ j → j < i + (n + 1) → ∀ m, f.pagesLeft free j = some m → f.HeaderInside j m := by
      rw [and_assoc]
      refine and_congr_right fun _ => ⟨fun hall j h₁ h₂ m hm => ?_, fun hall => ⟨?_, ?_⟩⟩
      · by_cases hji : j = i
        · subst hji
          obtain rfl : l.paging.pmm.available = m := by
            rw [hleft] at hm
            exact Option.some.inj hm
          exact hall.1
        · exact hall.2 j (by omega) (by omega) m hm
      · exact hall i (le_refl i) (by omega) _ hleft
      · exact fun j h₁ h₂ => hall j (by omega) (by omega)
    have hnext : f.pagesLeft free (i + 1) = if f.Skipped i then some l.paging.pmm.available
        else if f.Accepted i ∧ (f.phdr i).Passes l.paging.pmm.available then
          some (l.paging.pmm.available - (f.phdr i).numPages) else none := by
      rw [ElfFile.pagesLeft, hleft]
      rfl
    rw [← hhere, ← hin]
    rcases hcases with ⟨hskip, hdone, hpaging⟩ | ⟨hskip, hacc, hpass, hdone, hload, hav⟩ |
      ⟨hskip, hnot, hstop⟩
    · rw [if_pos hskip] at hnext
      rw [loadHeaders_of_done hdone]
      apply ih
      · rw [hpaging]
        exact h
      · rw [hpaging]
        exact hnext
    · rw [if_neg hskip, if_pos ⟨hacc, hpass⟩, ← hav] at hnext
      rw [loadHeaders_of_done hdone]
      exact ih hload hnext
    · rw [if_neg hskip, if_neg hnot] at hnext
      rw [loadHeaders_of_stop hstop]
      refine ⟨fun hall => ⟨hall, fun j h₁ _ m hm => ?_⟩, fun hall => hall.1⟩
      rw [pagesLeft_none hnext h₁] at hm
      cases hm

/-! ## The rest of the load -/

theorem mapStack_reads {pd i n : ℕ} : (mapStack k pd l i n).1.reads = l.reads := by
  induction n generalizing l i with
  | zero => rfl
  | succ n ih =>
    unfold mapStack
    dsimp only
    split_ifs
    · rfl
    · exact ih

/-- What is read for the task is the entry point in the header. -/
theorem createTask_reads {args : Args} {pd : ℕ} :
    ∃ n, (createTask k args pd l).1.reads = List.replicate n (eEntry.range 0) ++ l.reads := by
  unfold createTask
  split
  · exact ⟨0, rfl⟩
  · dsimp only
    split_ifs
    · exact ⟨0, rfl⟩
    · split
      · split_ifs
        · split
          · exact ⟨1, rfl⟩
          · exact ⟨1, rfl⟩
        · exact ⟨2, rfl⟩
      · exact ⟨1, rfl⟩

theorem allInside_createTask (hsize : ehdrSize ≤ f.size) {args : Args} {pd : ℕ} :
    (createTask k args pd l).1.AllInside f.size ↔ l.AllInside f.size := by
  obtain ⟨n, hreads⟩ := @createTask_reads k l args pd
  have hentry : (eEntry.range 0).Inside f.size := inside_of_ehdr hsize (by decide)
  unfold AllInside
  rw [hreads, List.forall_mem_append]
  refine and_iff_right fun x hx => ?_
  rw [List.eq_of_mem_replicate hx]
  exact hentry

theorem allInside_loadInto (hsize : ehdrSize ≤ f.size) {args : Args} {pd : ℕ} :
    (loadInto k f args pd l).1.AllInside f.size ↔
      (loadHeaders k f pd l 0 f.phnum).1.AllInside f.size := by
  have hstack : (mapStack k pd (loadHeaders k f pd l 0 f.phnum).1 0 userStackPages).1.AllInside
      f.size ↔ (loadHeaders k f pd l 0 f.phnum).1.AllInside f.size := by
    unfold AllInside
    rw [mapStack_reads]
  unfold loadInto
  dsimp only
  split
  · rfl
  · rfl
  · rw [← hstack]
    split
    · rfl
    · rfl
    · rw [allInside_createTask hsize]
      split_ifs <;> rfl

/-! ## The whole load -/

/-- **What `elf_load` reads.**  The reads of `elf_validate` are inside the file.  Those of
`elf_load` are, exactly if the file is refused, or there is no page for the directory, or the
headers the loader comes to lie in the file as far as it looks at them, and so do the bytes
copied for the pages it gets. -/
theorem readsInside (k : KernelImage) (f : ElfFile) (args : Args) (l : Loader)
    (hready : Ready k l.paging) (hnew : l.reads = []) :
    (∀ r ∈ (elfValidate f).1, r.Inside f.size) ∧
    ((elfLoad k f args l).1.AllInside f.size ↔
      ((elfValidate f).2 = none → 0 < l.paging.pmm.available →
        f.ReadsInside (l.paging.pmm.available - 1))) := by
  have hvalid : (l.read (elfValidate f).1.reverse).AllInside f.size := by
    rw [allInside_read]
    constructor
    · exact fun x hx => elfValidate_inside f x (List.mem_reverse.mp hx)
    · intro x hx
      rw [hnew] at hx
      cases hx
  refine ⟨elfValidate_inside f, ?_⟩
  unfold elfLoad
  dsimp only
  cases hv : (elfValidate f).2 with
  | some e => exact ⟨fun _ h => (by cases h), fun _ => hvalid⟩
  | none =>
    have hsize := ehdrSize_le_of_elfValidate hv
    have hphnum : (ePhnum.range 0).Inside f.size := inside_of_ehdr hsize (by decide)
    have hentry : (eEntry.range 0).Inside f.size := inside_of_ehdr hsize (by decide)
    have hstart : ((l.read (elfValidate f).1.reverse).read [ePhnum.range 0, eEntry.range 0]).AllInside
        f.size := by
      rw [allInside_read]
      exact ⟨by simp [hphnum, hentry], hvalid⟩
    generalize hl₁ : (l.read (elfValidate f).1.reverse).read [ePhnum.range 0, eEntry.range 0] = l₁
      at hstart ⊢
    have hpaging : l₁.paging = l.paging := by rw [← hl₁]; rfl
    rw [hpaging]
    dsimp only
    rcases hready.create with ⟨hav, hzero⟩ | ⟨a, hfirst, _, hcreate, hav, hload⟩
    · rw [if_pos hzero]
      exact ⟨fun _ _ hpos => by omega, fun _ => hstart⟩
    · have ha₀ : a * 4096 ≠ 0 := by
        have := k.firstPage_pos
        omega
      have hpmm : (l.paging.pagingCreateIsolatedSpace k).1.pmm = l.paging.pmm.mark a := by
        rw [hcreate]
      have hpd : (l.paging.pagingCreateIsolatedSpace k).2 = a * 4096 := by rw [hcreate]
      rw [hpd]
      generalize (l.paging.pagingCreateIsolatedSpace k).1 = s at hload hpmm ⊢
      have hleft : f.pagesLeft (l.paging.pmm.available - 1) 0 = some s.pmm.available := by
        show some (l.paging.pmm.available - 1) = _
        rw [hpmm]
        congr 1
        omega
      have hpos : 0 < l.paging.pmm.available := by omega
      rw [if_neg ha₀, allInside_loadInto hsize,
        loadHeaders_inside (l := { l₁ with paging := s }) hsize hload hleft, Nat.zero_add]
      constructor
      · exact fun hall _ _ i hi => hall.2 i (Nat.zero_le i) hi
      · exact fun hall => ⟨hstart, fun j _ hj => hall rfl hpos j hj⟩

/-- A file with the given bytes, with zeros around it in memory. -/
def fileOf (bytes : List UInt8) (h : bytes.length < 2 ^ 32) : ElfFile where
  null := false
  bytes := fun o => bytes.getD o 0
  size := bytes.length
  size_lt := h

/-- An ELF header for i386 with one program header right after it. -/
def ehdrBytes : List UInt8 :=
  [0x7F, 0x45, 0x4C, 0x46, 1, 1, 1, 0, 0, 0, 0, 0, 0, 0, 0, 0, 2, 0, 3, 0, 1, 0, 0, 0,
   0, 0, 0, 0xC0, 52, 0, 0, 0, 0, 0, 0, 0, 0, 0, 0, 0, 52, 0, 32, 0, 1, 0, 0, 0, 0, 0, 0, 0]

/-- One segment of a page that holds the file itself. -/
def plainFile : ElfFile := fileOf (ehdrBytes ++
  [1, 0, 0, 0, 0, 0, 0, 0, 0, 0, 0, 0xC0, 0, 0, 0, 0xC0,
   84, 0, 0, 0, 0, 16, 0, 0, 5, 0, 0, 0, 0, 16, 0, 0]) (by decide)

/-- One segment with `p_offset = 0xFFFFFFF0` and `p_filesz = 0x20`. -/
def wrappedFile : ElfFile := fileOf (ehdrBytes ++
  [1, 0, 0, 0, 0xF0, 0xFF, 0xFF, 0xFF, 0, 0, 0, 0xC0, 0, 0, 0, 0xC0,
   32, 0, 0, 0, 0, 16, 0, 0, 5, 0, 0, 0, 0, 16, 0, 0]) (by decide)

/-- A machine with 19 free pages, right after its start. -/
def smallLoader : Loader where
  paging := (AddressSpaces.init AddressSpaces.smallImage (fun _ _ => 0) 5200 5200).paging
  heap := heapInit (fun _ => 0) 0x600000 0x4000
  kernel := Kernel.boot 0x500000
  reads := []

def smallArgs : Args := ⟨[], 1, false, 0⟩

instance (l : Loader) (size : ℕ) : Decidable (l.AllInside size) := by
  unfold AllInside
  infer_instance

/-- A plain file is loaded as the first process. -/
theorem elfLoad_plainFile :
    (elfLoad AddressSpaces.smallImage plainFile smallArgs smallLoader).2 = .pid 1 := by
  decide +kernel

/-- The condition holds for a plain file: everything read is inside it. -/
theorem readsInside_plainFile :
    (elfLoad AddressSpaces.smallImage plainFile smallArgs smallLoader).1.AllInside plainFile.size ∧
    plainFile.ReadsInside 18 := by
  have hphnum : plainFile.phnum = 1 := by decide +kernel
  have hreads : plainFile.ReadsInside 18 := by
    intro i hi m hm
    obtain rfl : i = 0 := by omega
    obtain rfl := Option.some.inj hm
    constructor
    · unfold FieldInside
      decide +kernel
    · intro _
      unfold CopyInside
      decide +kernel
  have h := readsInside AddressSpaces.smallImage plainFile smallArgs smallLoader
    (Ready.init _ _ _ _) rfl
  have hfree : smallLoader.paging.pmm.available = 19 := by decide +kernel
  rw [hfree] at h
  exact ⟨h.2.mpr fun _ _ => hreads, hreads⟩

/-- `p_offset + p_filesz` is `0x10` in 32 bits and passes the check; what is read begins 16
bytes before the file. -/
theorem read_before_file :
    (elfValidate wrappedFile).2 = none ∧ (wrappedFile.phdr 0).offset + (wrappedFile.phdr 0).filesz =
      2 ^ 32 + 0x10 ∧
    (⟨0xFFFFFFF0, 32⟩ : FileRead) ∈
      (elfLoad AddressSpaces.smallImage wrappedFile smallArgs smallLoader).1.reads ∧
    ¬ (elfLoad AddressSpaces.smallImage wrappedFile smallArgs smallLoader).1.AllInside
      wrappedFile.size := by
  have hmem : (⟨0xFFFFFFF0, 32⟩ : FileRead) ∈
      (elfLoad AddressSpaces.smallImage wrappedFile smallArgs smallLoader).1.reads := by
    decide +kernel
  have hvalid : (elfValidate wrappedFile).2 = none := by decide +kernel
  have hwraps : (wrappedFile.phdr 0).offset + (wrappedFile.phdr 0).filesz = 2 ^ 32 + 0x10 := by
    decide +kernel
  have hout : ¬ (⟨0xFFFFFFF0, 32⟩ : FileRead).Inside wrappedFile.size := by decide +kernel
  exact ⟨hvalid, hwraps, hmem, fun hall => hout (hall _ hmem)⟩

end Loader

end Microkernel
