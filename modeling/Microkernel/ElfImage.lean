/-
# The memory image of a loaded file

What a byte of a segment reads after the load, through the new directory.  As an image an
address space is the bytes of each of its pages; a step of a load replaces one page of it.  So
what counts for a page is the last segment that has it: a segment that shares a page with a
later one loses its bytes there, and `memcpy` is skipped where its bounds wrap around.
-/
import Microkernel.ElfSegments
import Microkernel.KernelEntries

namespace Microkernel

open AddressSpaces (Private)

/-! ## Bytes of pages -/

/-- A byte of a word is a byte of memory. -/
theorem Memory.ofNat_load32_div (m : Memory) (a : ℕ) {j : ℕ} (hj : j < 4) :
    UInt8.ofNat (m.load32 a / 2 ^ (8 * j)) = m (a + j) := by
  have h₀ := (m a).toNat_lt
  have h₁ := (m (a + 1)).toNat_lt
  have h₂ := (m (a + 2)).toNat_lt
  have h₃ := (m (a + 3)).toNat_lt
  apply UInt8.toNat_inj.mp
  rw [UInt8.toNat_ofNat']
  unfold Memory.load32
  interval_cases j
  · rw [Nat.mul_zero, Nat.pow_zero, Nat.div_one]
    show _ = (m a).toNat
    omega
  · omega
  · omega
  · omega

/-- Byte `o` of page `q`. -/
def PageMemory.byte (m : PageMemory) (q o : ℕ) : UInt8 :=
  UInt8.ofNat ((m q (o / 4)).toNat / 2 ^ (8 * (o % 4)))

theorem PageMemory.byte_congr {m m' : PageMemory} {q : ℕ} (h : ∀ i, m' q i = m q i) (o : ℕ) :
    m'.byte q o = m.byte q o := by
  unfold PageMemory.byte
  rw [h]

/-- A page that was filled has the bytes. -/
theorem PageMemory.byte_fillPage (m : PageMemory) (q : ℕ) (b : Memory) (o : ℕ) :
    (m.fillPage q b).byte q o = b o := by
  have hword : m.fillPage q b q (o / 4) = BitVec.ofNat 32 (b.load32 (4 * (o / 4))) := if_pos rfl
  unfold PageMemory.byte
  rw [hword, BitVec.toNat_ofNat, Nat.mod_eq_of_lt (b.load32_lt _),
    Memory.ofNat_load32_div b _ (Nat.mod_lt _ (by norm_num)), Nat.div_add_mod]

/-- The byte at the virtual address `va` in the directory in page `pd`. -/
def readByte (m : PageMemory) (pd va : ℕ) : Option UInt8 :=
  (walk m pd (va / 4096)).map fun t => m.byte t.frame (va % 4096)

/-! ## Images -/

/-- An address space as it is used: the bytes of each virtual page that has been mapped. -/
abbrev SpaceImage := ℕ → Option Memory

/-- What a step of a load is for. -/
def LoadAct.apply (img : SpaceImage) : LoadAct → SpaceImage
  | .segment bytes va _ => Function.update img (va / 4096) (some bytes)
  | .stack va => Function.update img (va / 4096) (some fun _ => 0)
  | .vga va _ => Function.update img (va / 4096) none
  | .noPage => img

/-- The image after some steps. -/
def SpaceImage.after (img : SpaceImage) (acts : List LoadAct) : SpaceImage :=
  acts.foldl LoadAct.apply img

theorem SpaceImage.after_append (img : SpaceImage) (as bs : List LoadAct) :
    img.after (as ++ bs) = (img.after as).after bs := List.foldl_append

/-! ## What the file says -/

namespace Phdr

variable (p : Phdr)

/-- `memcpy` reaches the byte at `x`: it is one of the `p_filesz` bytes, whose end does not wrap
around, and not in the last page of the address space, whose end does. -/
def Copies (x : ℕ) : Prop :=
  p.vaddr ≤ x ∧ x < p.vaddr + p.filesz ∧ p.vaddr + p.filesz < 2 ^ 32 ∧ x < 0xFFFFF000

instance (x : ℕ) : Decidable (p.Copies x) := by
  unfold Copies
  infer_instance

end Phdr

namespace ElfFile

variable (f : ElfFile)

/-- Header `i` is a segment with the byte `x`. -/
def InSegment (i x : ℕ) : Prop :=
  i < f.phnum ∧ (f.phdr i).type = 1 ∧ (f.phdr i).vaddr ≤ x ∧
    x < (f.phdr i).vaddr + (f.phdr i).memsz

/-- The segments are pairwise disjoint, apart from the stack, and do not wrap around. -/
structure Apart : Prop where
  disjoint : ∀ i j x, f.InSegment i x → f.InSegment j x → i = j
  stack : ∀ i x, f.InSegment i x → ¬ (userStackTop - userStackPages * 4096 ≤ x ∧ x < userStackTop)
  noWrap : ∀ i < f.phnum, (f.phdr i).type = 1 → (f.phdr i).vaddr + (f.phdr i).memsz ≤ 2 ^ 32

/-- What byte `b` of segment `i` is to be: a byte of the file, and 0 after the `p_filesz`
bytes. -/
def imageByte (i b : ℕ) : UInt8 :=
  if b < (f.phdr i).filesz then f.mem ((f.phdr i).offset + b) else 0

/-- Segment `i` has the page at `va`. -/
def HasPage (i va : ℕ) : Prop :=
  ¬ f.Skipped i ∧ ∃ j < (f.phdr i).numPages, va = (f.phdr i).pageVaddr j

instance (i va : ℕ) : Decidable (f.HasPage i va) := by
  unfold HasPage
  infer_instance

/-- The last of the first `n` headers that has the page at `va`. -/
def lastWith (va : ℕ) : ℕ → Option ℕ
  | 0 => none
  | n + 1 => if f.HasPage n va then some n else lastWith va n

/-- Byte `b` of segment `i` is not lost: of the segments that have its page the last one copies
the same byte there; or it copies none, and the byte is 0. -/
def ByteKept (i b : ℕ) : Prop :=
  ∀ j, f.lastWith (((f.phdr i).vaddr + b) / 4096 * 4096) f.phnum = some j →
    if (f.phdr j).Copies ((f.phdr i).vaddr + b) then
      f.mem ((f.phdr j).offset + ((f.phdr i).vaddr + b - (f.phdr j).vaddr)) = f.imageByte i b
    else f.imageByte i b = 0

/-- No byte of a segment is lost. -/
def BytesKept : Prop :=
  ∀ i < f.phnum, (f.phdr i).type = 1 → ∀ b < (f.phdr i).memsz, f.ByteKept i b

variable {f}

/-! ### The last segment with a page -/

theorem lastWith_some {va n j : ℕ} (h : f.lastWith va n = some j) : j < n ∧ f.HasPage j va := by
  induction n with
  | zero => cases h
  | succ n ih =>
    unfold lastWith at h
    split_ifs at h with hpage
    · obtain rfl := Option.some.inj h
      exact ⟨Nat.lt_succ_self n, hpage⟩
    · obtain ⟨hlt, hj⟩ := ih h
      exact ⟨Nat.lt_succ_of_lt hlt, hj⟩

theorem exists_lastWith {va n i : ℕ} (hi : i < n) (hpage : f.HasPage i va) :
    ∃ j, f.lastWith va n = some j := by
  induction n with
  | zero => exact absurd hi (Nat.not_lt_zero i)
  | succ n ih =>
    unfold lastWith
    by_cases hn : f.HasPage n va
    · rw [if_pos hn]
      exact ⟨n, rfl⟩
    · rw [if_neg hn]
      apply ih
      have hne : i ≠ n := fun heq => hn (heq ▸ hpage)
      omega

/-! ### The bytes of a page -/

/-- The bytes of a page of a segment. -/
theorem pageBytes_eq {p : Phdr} (h : p.InUserSpace) {j o : ℕ} (hj : j < 2 ^ 18) (ho : o < 4096)
    (hwrap : ¬ p.WrapsInPage) :
    pageBytes f (pageCopy p (p.pageVaddr j)) o =
      if p.Copies (p.vaddrStart + j * 4096 + o) then
        f.mem (p.offset + (p.vaddrStart + j * 4096 + o - p.vaddr)) else 0 := by
  have hle := p.vaddrStart_le
  have hlt := p.lt_vaddrStart
  have halign : p.vaddrStart % 4096 = 0 := Nat.mul_mod_left _ _
  by_cases hcopy : p.CopiesTo j
  · rw [Phdr.pageCopy_of_copies h hcopy]
    obtain ⟨hend, hlast, hpage⟩ := hcopy
    unfold pageBytes ElfFile.mem
    dsimp only
    by_cases hbyte : p.Copies (p.vaddrStart + j * 4096 + o)
    · rw [if_pos hbyte]
      obtain ⟨h₁, h₂, _, _⟩ := hbyte
      rw [if_pos (by omega)]
      congr 1
      omega
    · rw [if_neg hbyte, if_neg]
      rintro ⟨h₁, h₂⟩
      exact hbyte ⟨by omega, by omega, hend, by omega⟩
  · rw [Phdr.pageCopy_of_not h hj hcopy fun hw => absurd hw hwrap, if_neg]
    · rfl
    · rintro ⟨_, h₂, h₃, h₄⟩
      exact hcopy ⟨h₃, by omega, by omega⟩

/-! ### The image of the file -/

variable {img : SpaceImage}

/-- The pages of a segment hold its bytes, the other pages what they held. -/
theorem after_segmentActs {p : Phdr} {i n v : ℕ} (halign : ∀ j, p.pageVaddr j % 4096 = 0) :
    img.after (segmentActs f p i n) v = if ∃ j < i + n, i ≤ j ∧ v * 4096 = p.pageVaddr j then
      some (pageBytes f (pageCopy p (v * 4096))) else img v := by
  induction n generalizing img i with
  | zero =>
    rw [if_neg]
    · rfl
    · rintro ⟨j, h₁, h₂, _⟩
      omega
  | succ n ih =>
    show ((LoadAct.segment _ (p.pageVaddr i) _).apply img |>.after (segmentActs f p (i + 1) n)) v = _
    rw [ih]
    have hi := halign i
    by_cases hrest : ∃ j < i + 1 + n, i + 1 ≤ j ∧ v * 4096 = p.pageVaddr j
    · obtain ⟨j, h₁, h₂, heq⟩ := id hrest
      rw [if_pos hrest, if_pos ⟨j, by omega, by omega, heq⟩]
    · rw [if_neg hrest]
      by_cases hv : v * 4096 = p.pageVaddr i
      · rw [if_pos ⟨i, by omega, le_refl i, hv⟩, hv, show v = p.pageVaddr i / 4096 by omega]
        exact Function.update_self _ _ _
      · rw [if_neg]
        · exact Function.update_of_ne (by omega) _ _
        · rintro ⟨j, h₁, h₂, heq⟩
          by_cases hji : j = i
          · rw [hji] at heq
            exact hv heq
          · exact hrest ⟨j, by omega, by omega, heq⟩

theorem pageVaddr_mod (p : Phdr) (j : ℕ) : p.pageVaddr j % 4096 = 0 := by
  unfold Phdr.pageVaddr Phdr.vaddrStart
  omega

/-- After the headers a page holds the bytes of the last segment that has it. -/
theorem after_headers {n v : ℕ} :
    img.after ((List.range n).flatMap f.headerActs) v =
      match f.lastWith (v * 4096) n with
      | some j => some (pageBytes f (pageCopy (f.phdr j) (v * 4096)))
      | none => img v := by
  induction n with
  | zero => rfl
  | succ n ih =>
    have hsplit : (List.range (n + 1)).flatMap f.headerActs =
        (List.range n).flatMap f.headerActs ++ f.headerActs n := by
      rw [List.range_succ, List.flatMap_append, List.flatMap_singleton]
    rw [hsplit, SpaceImage.after_append]
    unfold lastWith
    by_cases hpage : f.HasPage n (v * 4096)
    · obtain ⟨hskip, j, hj, heq⟩ := id hpage
      have hacts : f.headerActs n = segmentActs f (f.phdr n) 0 (f.phdr n).numPages := if_neg hskip
      rw [if_pos hpage, hacts, after_segmentActs (pageVaddr_mod _),
        if_pos ⟨j, by omega, Nat.zero_le j, heq⟩]
    · rw [if_neg hpage, ← ih]
      unfold headerActs
      split_ifs with hskip
      · rfl
      · rw [after_segmentActs (pageVaddr_mod _), if_neg]
        rintro ⟨j, hj, _, heq⟩
        exact hpage ⟨hskip, j, by omega, heq⟩

/-- Pages that are not of the stack keep what they hold. -/
theorem after_stackActs {i n v : ℕ} (h : ∀ j, i ≤ j → j < i + n →
    v ≠ (userStackTop - userStackPages * 4096 + j * 4096) / 4096) :
    img.after (stackActs i n) v = img v := by
  induction n generalizing img i with
  | zero => rfl
  | succ n ih =>
    show ((LoadAct.stack _).apply img |>.after (stackActs (i + 1) n)) v = _
    rw [ih fun j h₁ h₂ => h j (by omega) (by omega)]
    exact Function.update_of_ne (h i (le_refl i) (by omega)) _ _

end ElfFile

/-! ## A page of the image in the tables -/

/-- The entry for page `v` of the new address space, which is in a table of the kernel, leads to
the page `q`, and it has the bytes. -/
structure HeldPage (k : KernelImage) (a q v : ℕ) (b : Memory) (s : Paging) : Prop
    extends Holding k a q s where
  user : 0xC0000 ≤ v
  page_lt : v < 2 ^ 20
  notTable : ¬ k.IsTable q
  present : hasFlag (s.mem (k.pageTables + v / 1024) (v % 1024)) pagePresent = true
  frame : frameOf (s.mem (k.pageTables + v / 1024) (v % 1024)) = q
  bytes : ∀ o < 4096, s.mem.byte q o = b o

/-- A page in user space is not in the entries 256 to 767. -/
theorem not_private_of_user {v : ℕ} (h : 0xC0000 ≤ v) : ¬ Private (v / 1024) := by
  unfold Private
  omega

namespace HeldPage

variable {k : KernelImage} {a q v : ℕ} {b : Memory} {s : Paging}

theorem ne_window (h : HeldPage k a q v b s) : q ≠ Paging.windowTable k := fun heq => by
  apply h.notTable
  refine Or.inr ⟨?_, ?_⟩ <;> rw [heq] <;> unfold Paging.windowTable <;> omega

theorem table_lt (h : HeldPage k a q v b s) : v / 1024 < 1024 := by
  have := h.page_lt
  omega

/-- Its table is not the one with the windows. -/
theorem table_ne_window (h : HeldPage k a q v b s) :
    k.pageTables + v / 1024 ≠ Paging.windowTable k := by
  have := h.user
  unfold Paging.windowTable
  omega

/-- What is read there. -/
theorem readByte_eq (h : HeldPage k a q v b s) {o : ℕ} (ho : o < 4096) :
    readByte s.mem a (v * 4096 + o) = some (b o) := by
  have htables := k.tables_lt_pow
  have hidx := h.table_lt
  have hlink := h.shared (v / 1024) hidx (not_private_of_user h.user)
  have hpage : (v * 4096 + o) / 4096 = v := by omega
  have hoff : (v * 4096 + o) % 4096 = o := by omega
  unfold readByte
  rw [hpage, hoff, walk_of_tableLink (by omega) hlink]
  unfold entryTranslation
  rw [if_pos h.present, h.frame, Option.map_some, h.bytes o ho]

/-- A change of memory that leaves the entry and the page alone. -/
theorem of_same (h : HeldPage k a q v b s) {s' : Paging} (hhold : Holding k a q s')
    (hentry : s'.mem (k.pageTables + v / 1024) (v % 1024) =
      s.mem (k.pageTables + v / 1024) (v % 1024))
    (hpage : ∀ i, s'.mem q i = s.mem q i) : HeldPage k a q v b s' where
  toHolding := hhold
  user := h.user
  page_lt := h.page_lt
  notTable := h.notTable
  present := by
    rw [hentry]
    exact h.present
  frame := by
    rw [hentry]
    exact h.frame
  bytes := fun o ho => by
    rw [PageMemory.byte_congr hpage]
    exact h.bytes o ho

/-- Taking another page. -/
theorem mark (h : HeldPage k a q v b s) {t : ℕ} (hload : Loading k a ⟨s.mem, s.pmm.mark t⟩) :
    HeldPage k a q v b ⟨s.mem, s.pmm.mark t⟩ :=
  h.of_same (h.toHolding.mark hload) rfl fun _ => rfl

/-- Writing in a page that is new. -/
theorem of_page (h : HeldPage k a q v b s) {s' : Paging} {t : ℕ} (hload : Loading k a s')
    (hpmm : s'.pmm = s.pmm) (ht : Pmm.firstPage k.toKernelEnd ≤ t) (hta : t ≠ a) (htq : t ≠ q)
    (hsame : ∀ f i, f ≠ t → f ≠ Paging.windowTable k → s'.mem f i = s.mem f i) :
    HeldPage k a q v b s' := by
  have htable : k.pageTables + v / 1024 ≠ t := fun heq => absurd
    (show k.IsTable t from Or.inr ⟨by omega, by have := h.table_lt; omega⟩).lt_firstPage
    (Nat.not_lt.mpr ht)
  refine h.of_same (h.toHolding.of_own hload hpmm fun i _ => ?_) ?_ fun i => ?_
  · exact hsame a i hta.symm h.ne_windowTable
  · exact hsame _ _ htable h.table_ne_window
  · exact hsame q i htq.symm h.ne_window

/-- Mapping another page in user space. -/
theorem mapUser (h : HeldPage k a q v b s) {virt : BitVec 32} (huser : 0xC0000 ≤ pageOf virt)
    (hne : pageOf virt ≠ v) (phys flags : BitVec 32) :
    HeldPage k a q v b (s.pagingMapUser k (a * 4096) virt phys flags) := by
  have hidx := pdIdx_lt virt
  have htables := k.tables_lt_pow
  have hshared : ¬ Private (pdIdx virt) := by
    rw [pdIdx_eq]
    exact not_private_of_user huser
  obtain ⟨_, hmem⟩ := Paging.mem_pagingMapUser_of_present h.kernelDir h.dir_lt_pow h.ne_dir
    h.ne_windowTable virt phys flags (h.toLoading.present hidx hshared)
  rw [h.shared _ hidx hshared, frameOf_tableLink (by omega)] at hmem
  refine h.of_same (h.toHolding.mapUser virt phys flags) ?_ fun i => ?_
  · -- The entry is another one.
    have hword : ¬ (k.pageTables + v / 1024 = k.pageTables + pdIdx virt ∧ v % 1024 = ptIdx virt) := by
      rintro ⟨h₁, h₂⟩
      apply hne
      rw [pdIdx_eq] at h₁
      rw [ptIdx_eq] at h₂
      unfold pageOf
      omega
    have hdir : ¬ (k.pageTables + v / 1024 = a ∧ v % 1024 = pdIdx virt) := fun hd =>
      h.toLoading.not_isTable (Or.inr ⟨by omega, by have := h.table_lt; omega⟩)
    rw [hmem, if_neg fun hw => h.table_ne_window hw.1, if_neg hword, if_neg hdir]
  · have hword : ¬ (q = k.pageTables + pdIdx virt ∧ i = ptIdx virt) := fun hq =>
      h.notTable (Or.inr ⟨by omega, by omega⟩)
    rw [hmem, if_neg fun hw => h.ne_window hw.1, if_neg hword, if_neg fun hd => h.ne hd.1]

/-- Mapping a page in the entries 256 to 767. -/
theorem mapUser_private (h : HeldPage k a q v b s) {virt : BitVec 32} (hpriv : Private (pdIdx virt))
    (phys flags : BitVec 32) :
    HeldPage k a q v b (s.pagingMapUser k (a * 4096) virt phys flags) := by
  -- What is written is the directory, a window, and a table that is neither the kernel's nor `q`.
  obtain ⟨t, htq, htable, hmem⟩ : ∃ t, t ≠ q ∧ ¬ k.IsTable t ∧ ∀ f i, f ≠ a → f ≠ t →
      f ≠ Paging.windowTable k →
      (s.pagingMapUser k (a * 4096) virt phys flags).mem f i = s.mem f i := by
    by_cases hpresent : hasFlag (s.mem a (pdIdx virt)) pagePresent = true
    · obtain ⟨_, hmem⟩ := Paging.mem_pagingMapUser_of_present h.kernelDir h.dir_lt_pow h.ne_dir
        h.ne_windowTable virt phys flags hpresent
      obtain ⟨t, ht, hlink, _, htq, htable⟩ := (h.own _ hpriv).resolve_left fun hzero => by
        rw [hzero] at hpresent
        exact absurd hpresent (by decide)
      rw [hlink, frameOf_tableLink ht] at hmem
      refine ⟨t, htq, htable, fun f i hfa hft hfw => ?_⟩
      rw [hmem, if_neg fun hw => hfw hw.1, if_neg fun hw => hft hw.1, if_neg fun hw => hfa hw.1]
    · obtain ⟨t, ht, _, htq, htable, halloc, _⟩ := h.toHolding.alloc
      obtain ⟨_, hmem⟩ := Paging.mem_pagingMapUser_of_absent h.kernelDir h.dir_lt_pow h.ne_dir
        h.ne_windowTable ht (fun hdir => htable (Or.inl hdir)) virt phys flags
        (Bool.eq_false_iff.mpr hpresent) halloc
      refine ⟨t, htq, htable, fun f i hfa hft hfw => ?_⟩
      rw [hmem, if_neg fun hw => hfw hw.1, if_neg fun hw => hft hw.1, if_neg fun hw => hfa hw.1,
        if_neg hft]
  have hidx := h.table_lt
  have hentry : k.IsTable (k.pageTables + v / 1024) := Or.inr ⟨by omega, by omega⟩
  apply h.of_same (h.toHolding.mapUser virt phys flags)
  · apply hmem _ _ _ _ h.table_ne_window
    · exact fun heq => h.toLoading.not_isTable (heq ▸ hentry)
    · exact fun heq => htable (heq ▸ hentry)
  · exact fun i => hmem q i h.ne htq.symm h.ne_window

end HeldPage

/-! ## The steps of a load -/

/-- A page that is held is mapped in user space. -/
theorem Holding.mapNew {k : KernelImage} {a q : ℕ} {b : Memory} {s : Paging} (h : Holding k a q s)
    (hq : Pmm.firstPage k.toKernelEnd ≤ q) (hlt : q < 2 ^ 20) {virt : BitVec 32}
    (huser : 0xC0000 ≤ pageOf virt) (hbytes : ∀ o < 4096, s.mem.byte q o = b o) (flags : BitVec 32) :
    HeldPage k a q (pageOf virt) b
      (s.pagingMapUser k (a * 4096) virt (BitVec.ofNat 32 (q * 4096)) flags) := by
  have hidx := pdIdx_lt virt
  have htables := k.tables_lt_pow
  have hvirt := virt.isLt
  have hshared : ¬ Private (pdIdx virt) := by
    rw [pdIdx_eq]
    exact not_private_of_user huser
  have hnot : ¬ k.IsTable q := fun ht => absurd ht.lt_firstPage (Nat.not_lt.mpr hq)
  obtain ⟨_, hmem⟩ := Paging.mem_pagingMapUser_of_present h.kernelDir h.dir_lt_pow h.ne_dir
    h.ne_windowTable virt (BitVec.ofNat 32 (q * 4096)) flags (h.toLoading.present hidx hshared)
  rw [h.shared _ hidx hshared, frameOf_tableLink (by omega)] at hmem
  have hentry : (s.pagingMapUser k (a * 4096) virt (BitVec.ofNat 32 (q * 4096)) flags).mem
      (k.pageTables + pageOf virt / 1024) (pageOf virt % 1024) =
      Paging.userEntry virt (BitVec.ofNat 32 (q * 4096)) flags := by
    have hwin : ¬ Paging.IsWindow k (k.pageTables + pageOf virt / 1024) (pageOf virt % 1024) := by
      rintro ⟨hw, _⟩
      unfold Paging.windowTable at hw
      omega
    rw [hmem, if_neg hwin, if_pos]
    rw [pdIdx_eq, ptIdx_eq]
    exact ⟨rfl, rfl⟩
  refine ⟨h.mapUser virt _ flags, huser, ?_, hnot, ?_, ?_, fun o ho => ?_⟩
  · unfold pageOf
    omega
  · rw [hentry, hasFlag_present]
    unfold Paging.userEntry
    rw [getLsbD_entry (by norm_num)]
    exact (Paging.finalFlags_getLsbD virt flags).1
  · rw [hentry]
    unfold Paging.userEntry
    rw [frameOf_entry, frameOf_ofNat hlt]
  · rw [← hbytes o ho]
    apply PageMemory.byte_congr
    intro i
    have hword : ¬ (q = k.pageTables + pdIdx virt ∧ i = ptIdx virt) := fun heq =>
      hnot (Or.inr ⟨by omega, by omega⟩)
    have hwin : ¬ Paging.IsWindow k q i := fun hw => by
      apply hnot
      refine Or.inr ⟨?_, ?_⟩ <;> rw [hw.1] <;> unfold Paging.windowTable <;> omega
    rw [hmem, if_neg hwin, if_neg hword, if_neg fun hd => h.ne hd.1]

/-- Clearing a frame through the window at `TEMP_MAP_VA` writes the window and the frame. -/
theorem LoadAct.mem_clearFrame {k : KernelImage} {s : Paging} (hk : KernelDir k s.mem) {q : ℕ}
    (hq : q < 2 ^ 20) (hwin : q ≠ Paging.windowTable k) :
    (clearFrame k s (q * 4096)).pmm = s.pmm ∧ (∀ i, (clearFrame k s (q * 4096)).mem q i = 0) ∧
      ∀ f i, f ≠ q → f ≠ Paging.windowTable k → (clearFrame k s (q * 4096)).mem f i = s.mem f i := by
  have hidx : k.pageTables + pdIdx tempMapVa = Paging.windowTable k := by
    unfold Paging.windowTable
    rw [show pdIdx tempMapVa = 255 by decide]
  set s₁ := s.store (Paging.windowTable k) (ptIdx tempMapVa)
    (windowEntry (BitVec.ofNat 32 (q * 4096))) with hs₁
  have hmap : s.pagingMapPage k tempMapVa (BitVec.ofNat 32 (q * 4096)) (pagePresent ||| pageWrite) =
      s₁ := by
    rw [Paging.pagingMapPage_eq hk, hidx]
    rfl
  have hview : s₁.viewed k tempMapVa = q := by
    rw [Paging.viewed_eq (Paging.kernelDir_store hk Paging.windowTable_ne_dir), hidx,
      Paging.store_same, frameOf_windowEntry, frameOf_ofNat hq]
  unfold clearFrame
  dsimp only
  rw [hmap, hview]
  unfold Paging.pagingUnmapPage
  rw [hidx]
  refine ⟨rfl, fun i => ?_, fun f i hf hfw => ?_⟩
  · rw [Paging.store_other _ _ fun hw => hwin hw.1]
    exact if_pos rfl
  · rw [Paging.store_other _ _ fun hw => hfw hw.1]
    show (if f = q then 0 else s₁.mem f i) = _
    rw [if_neg hf, hs₁, Paging.store_other _ _ fun hw => hfw hw.1]

/-- The step maps a page in user space. -/
def LoadAct.InUser : LoadAct → Prop
  | .segment _ va _ | .stack va => userBaseAddr ≤ va ∧ va < 2 ^ 32
  | _ => False

/-- The new address space has the image. -/
structure Imaged (k : KernelImage) (a : ℕ) (img : SpaceImage) (s : Paging) : Prop where
  pages : ∀ v b, img v = some b → ∃ q, HeldPage k a q v b s

namespace Imaged

variable {k : KernelImage} {a q : ℕ} {img : SpaceImage} {b : Memory} {s s₁ s' : Paging} {va : ℕ}

/-- A new page is written and mapped in user space. -/
theorem mapNew (h : Imaged k a img s) (hfresh : Fresh k a s)
    (hq : Pmm.firstPage k.toKernelEnd ≤ q) (hlt : q < s.pmm.totalPages)
    (hbit : s.pmm.bitmap.test q = false) (hhold : Holding k a q ⟨s.mem, s.pmm.mark q⟩)
    (hpmm : s₁.pmm = s.pmm.mark q)
    (hsame : ∀ f i, f ≠ q → f ≠ Paging.windowTable k → s₁.mem f i = s.mem f i)
    (hbytes : ∀ o < 4096, s₁.mem.byte q o = b o) (hbase : userBaseAddr ≤ va) (hva : va < 2 ^ 32)
    (flags : BitVec 32) :
    Fresh k a (s₁.pagingMapUser k (a * 4096) (BitVec.ofNat 32 va) (BitVec.ofNat 32 (q * 4096))
      flags) ∧ Imaged k a (Function.update img (va / 4096) (some b))
      (s₁.pagingMapUser k (a * 4096) (BitVec.ofNat 32 va) (BitVec.ofNat 32 (q * 4096)) flags) := by
  have hpage : pageOf (BitVec.ofNat 32 va) = va / 4096 := pageOf_ofNat hva
  have huser : 0xC0000 ≤ pageOf (BitVec.ofNat 32 va) := by
    unfold userBaseAddr at hbase
    omega
  have hshared : ¬ Private (pdIdx (BitVec.ofNat 32 va)) := by
    rw [pdIdx_eq]
    exact not_private_of_user huser
  have htotal := hfresh.total_le
  unfold maxPages at htotal
  have hdir : k.pageDirectory ≠ q := fun heq => absurd
    (show k.IsTable q from Or.inl heq.symm).lt_firstPage (Nat.not_lt.mpr hq)
  -- The state with the page written.
  have hload : Loading k a s₁ := by
    have hmem := hhold.toLoading.of_mem (m := s₁.mem)
      (funext fun i => hsame _ i hdir Paging.windowTable_ne_dir.symm)
      fun i _ _ => hsame a i hhold.ne.symm hfresh.ne_windowTable
    rw [show s₁ = ⟨s₁.mem, s.pmm.mark q⟩ by rw [← hpmm]]
    exact hmem
  have hown : ∀ i, Private i → s₁.mem a i = 0 := fun i hi => by
    rw [hsame a i hhold.ne.symm hfresh.ne_windowTable]
    exact hfresh.own i hi
  have hhold₁ : Holding k a q s₁ := hhold.of_own hload hpmm fun i _ =>
    hsame a i hhold.ne.symm hfresh.ne_windowTable
  obtain ⟨_, hload', hkept⟩ := hload.mapUser hshared (BitVec.ofNat 32 (q * 4096)) flags
  refine ⟨⟨hload', fun i hi => (hkept i hi).trans (hown i hi)⟩, ⟨fun v c hc => ?_⟩⟩
  by_cases hv : v = va / 4096
  · rw [hv, Function.update_self] at hc
    obtain rfl := Option.some.inj hc
    have hnew := hhold₁.mapNew hq (by omega) huser hbytes flags
    rw [hpage] at hnew
    rw [hv]
    exact ⟨q, hnew⟩
  · rw [Function.update_of_ne hv] at hc
    obtain ⟨t, ht⟩ := h.pages v c hc
    have hqt : q ≠ t := by
      rintro rfl
      rw [ht.used] at hbit
      cases hbit
    have hmark : HeldPage k a t v c ⟨s.mem, s.pmm.mark q⟩ := ht.mark hhold.toLoading
    have hwritten := hmark.of_page hload hpmm hq hhold.ne hqt hsame
    exact ⟨t, hwritten.mapUser huser (by rw [hpage]; exact Ne.symm hv) _ _⟩

/-- A step of the stack or of a segment in user space. -/
theorem step (h : Imaged k a img s) (hfresh : Fresh k a s) {act : LoadAct}
    (hstep : LoadAct.Step k (a * 4096) s act s')
    (huser : act.InUser) : Fresh k a s' ∧ Imaged k a (act.apply img) s' := by
  obtain ⟨hcan, rfl⟩ := hstep
  have halloc : s.pmm.pmmAllocPage.2 ≠ 0 → ∃ q, Pmm.firstPage k.toKernelEnd ≤ q ∧
      q < s.pmm.totalPages ∧ s.pmm.bitmap.test q = false ∧
      s.pmm.pmmAllocPage = (s.pmm.mark q, q * 4096) ∧ Holding k a q ⟨s.mem, s.pmm.mark q⟩ := by
    intro hne
    rcases hfresh.alloc with ⟨_, hnone⟩ | ⟨q, _, hq, hlt, hbit, heq, hhold⟩
    · rw [hnone] at hne
      exact absurd rfl hne
    · exact ⟨q, hq, hlt, hbit, heq, hhold⟩
  cases act with
  | segment bytes va flags =>
    obtain ⟨q, hq, hlt, hbit, heq, hhold⟩ := halloc hcan
    unfold LoadAct.exec LoadAct.apply
    rw [heq]
    dsimp only
    rw [Nat.mul_div_cancel q (by norm_num)]
    exact h.mapNew hfresh hq hlt hbit hhold rfl (fun f i hf _ => if_neg hf)
      (fun o _ => PageMemory.byte_fillPage _ _ _ _) huser.1 huser.2 flags
  | stack va =>
    obtain ⟨q, hq, hlt, hbit, heq, hhold⟩ := halloc hcan
    unfold LoadAct.exec LoadAct.apply
    rw [heq]
    dsimp only
    have htotal := hfresh.total_le
    unfold maxPages at htotal
    have hwin : q ≠ Paging.windowTable k := fun hw => by
      refine absurd (show k.IsTable q from Or.inr ⟨?_, ?_⟩).lt_firstPage (Nat.not_lt.mpr hq) <;>
        rw [hw] <;> unfold Paging.windowTable <;> omega
    obtain ⟨hpmm, hzero, hsame⟩ := @LoadAct.mem_clearFrame k ⟨s.mem, s.pmm.mark q⟩ hfresh.kernelDir q
      (by omega) hwin
    apply h.mapNew hfresh hq hlt hbit hhold hpmm hsame _ huser.1 huser.2
    intro o _
    unfold PageMemory.byte
    rw [hzero]
    exact congrArg UInt8.ofNat (Nat.zero_div _)
  | vga va phys => exact absurd huser id
  | noPage => exact absurd huser id

/-- Mapping the text buffer, in the entries 256 to 767, keeps the rest. -/
theorem stepVga (h : Imaged k a img s) {phys : ℕ}
    (hpriv : Private (pdIdx (BitVec.ofNat 32 va)))
    (hstep : LoadAct.Step k (a * 4096) s (.vga va phys) s') :
    Imaged k a ((LoadAct.vga va phys).apply img) s' := by
  obtain ⟨_, rfl⟩ := hstep
  refine ⟨fun v c hc => ?_⟩
  dsimp only [LoadAct.apply] at hc
  by_cases hv : v = va / 4096
  · rw [hv, Function.update_self] at hc
    cases hc
  · rw [Function.update_of_ne hv] at hc
    obtain ⟨t, ht⟩ := h.pages v c hc
    exact ⟨t, ht.mapUser_private hpriv _ _⟩

end Imaged

/-! ## Runs -/

namespace Imaged

variable {k : KernelImage} {a : ℕ} {img : SpaceImage} {s s' : Paging}

/-- The steps of the segments and of the stack. -/
theorem of_run (h : Imaged k a img s) (hfresh : Fresh k a s) {acts : List LoadAct}
    (hacts : ∀ act ∈ acts, act.InUser) (hrun : Run (LoadAct.Step k (a * 4096)) s acts s') :
    Fresh k a s' ∧ Imaged k a (img.after acts) s' := by
  induction hrun generalizing img with
  | nil s => exact ⟨hfresh, h⟩
  | @cons s t u act acts hstep _ ih =>
    have huser := hacts act List.mem_cons_self
    obtain ⟨hfresh', h'⟩ := h.step hfresh hstep huser
    exact ih h' hfresh' fun act' hact => hacts act' (List.mem_cons_of_mem _ hact)

/-- The steps of the text buffer. -/
theorem of_vga (h : Imaged k a img s) {args : Loader.Args}
    (hrun : Run (LoadAct.Step k (a * 4096)) s (vgaActs args) s') :
    Imaged k a (img.after (vgaActs args)) s' := by
  unfold vgaActs at hrun ⊢
  split_ifs at hrun ⊢
  · cases hrun with
    | cons hfirst hrun =>
      cases hrun with
      | cons hsecond hrun =>
        cases hrun
        exact (h.stepVga (by decide) hfirst).stepVga (by decide) hsecond
  · cases hrun
    exact h

end Imaged

/-- The directory that `paging_create_isolated_space` makes has no entry of its own. -/
theorem Ready.fresh {k : KernelImage} {s : Paging} (h : Ready k s)
    (hne : (s.pagingCreateIsolatedSpace k).2 ≠ 0) :
    ∃ a, (s.pagingCreateIsolatedSpace k).2 = a * 4096 ∧
      Fresh k a (s.pagingCreateIsolatedSpace k).1 := by
  rcases h.create with ⟨_, hnone⟩ | ⟨a, _, _, hcreate, _, hload⟩
  · exact absurd hnone hne
  · refine ⟨a, by rw [hcreate], hload, fun i hi => ?_⟩
    rw [hcreate]
    exact (if_pos ⟨rfl, by have := hi.2; omega⟩).trans (if_pos hi)

namespace ElfFile

variable {f : ElfFile} {i j v : ℕ}

/-- A segment that is loaded and does not wrap around. -/
structure Sound (f : ElfFile) (i : ℕ) : Prop where
  accepted : f.Accepted i
  fits : ∀ j < (f.phdr i).numPages, copyFits (pageCopy (f.phdr i) ((f.phdr i).pageVaddr j))
  noWrap : (f.phdr i).vaddr + (f.phdr i).memsz ≤ 2 ^ 32

theorem Sound.of_hasPage {va : ℕ} (hloads : ∀ i < f.phnum, f.Loads i) (hapart : f.Apart)
    (hi : i < f.phnum) (hpage : f.HasPage i va) : f.Sound i := by
  obtain ⟨hacc, hfits⟩ := (hloads i hi).resolve_left hpage.1
  exact ⟨hacc, hfits, hapart.noWrap i hi hacc.1⟩

namespace Sound

/-- Its pages, one after the other. -/
theorem pageVaddr_eq (h : f.Sound i) (hj : j < (f.phdr i).numPages) :
    (f.phdr i).pageVaddr j = (f.phdr i).vaddrStart + j * 4096 ∧
      userBaseAddr ≤ (f.phdr i).vaddrStart ∧ (f.phdr i).vaddrStart + j * 4096 < 2 ^ 32 := by
  obtain ⟨heq, hlt⟩ := Phdr.pageVaddr_of_le h.accepted.2.2.1 h.noWrap hj
  have hbase := h.accepted.2.2.1
  have hend := h.noWrap
  refine ⟨heq, ?_, by omega⟩
  unfold Phdr.vaddrStart
  unfold userBaseAddr at *
  omega

/-- The bytes of one of its pages. -/
theorem pageBytes_eq (h : f.Sound i) (hj : j < (f.phdr i).numPages)
    (hv : v * 4096 = (f.phdr i).pageVaddr j) {o : ℕ} (ho : o < 4096) :
    pageBytes f (pageCopy (f.phdr i) (v * 4096)) o =
      if (f.phdr i).Copies (v * 4096 + o) then
        f.mem ((f.phdr i).offset + (v * 4096 + o - (f.phdr i).vaddr)) else 0 := by
  obtain ⟨heq, hbase, hlt⟩ := h.pageVaddr_eq hj
  have hspace : (f.phdr i).InUserSpace := Loader.inUserSpace_phdr h.accepted.2.2.1
  have hwrap : ¬ (f.phdr i).WrapsInPage := fun hw =>
    not_copyFits_of_wraps hspace hw (h.fits 0 (by omega))
  have hpages : j < 2 ^ 18 := by
    unfold userBaseAddr at hbase
    omega
  rw [hv, ElfFile.pageBytes_eq hspace hpages ho hwrap, heq]

/-- It has the page of each of its bytes. -/
theorem hasPage (h : f.Sound i) {b : ℕ} (hb : b < (f.phdr i).memsz) :
    f.HasPage i (((f.phdr i).vaddr + b) / 4096 * 4096) := by
  have hend := h.noWrap
  have htouch : (f.phdr i).Touches (((f.phdr i).vaddr + b) / 4096 * 4096) :=
    ⟨b, hb, by rw [Nat.mod_eq_of_lt (by omega)]⟩
  refine ⟨fun hskip => hskip.elim (fun hne => hne h.accepted.1) (by omega), ?_⟩
  exact (Phdr.mapped_iff_touches h.accepted.2.2.1 hend h.accepted.2.1 _).mpr htouch

end Sound

/-- The steps of the headers map pages in user space. -/
theorem headerActs_inUser (hloads : ∀ i < f.phnum, f.Loads i) (hapart : f.Apart) :
    ∀ act ∈ (List.range f.phnum).flatMap f.headerActs, act.InUser := by
  intro act hact
  obtain ⟨i, hi, hact⟩ := List.mem_flatMap.mp hact
  rw [List.mem_range] at hi
  unfold headerActs at hact
  split_ifs at hact with hskip
  · cases hact
  · obtain ⟨j, hj, rfl⟩ := List.mem_map.mp hact
    have hj' : j < (f.phdr i).numPages := by
      have := (List.mem_range'_1.mp hj).2
      omega
    have hsound : f.Sound i := Sound.of_hasPage hloads hapart hi ⟨hskip, j, hj', rfl⟩
    obtain ⟨heq, hbase, hlt⟩ := hsound.pageVaddr_eq hj'
    show userBaseAddr ≤ (f.phdr i).pageVaddr j ∧ (f.phdr i).pageVaddr j < 2 ^ 32
    rw [heq]
    exact ⟨by omega, hlt⟩

theorem stackActs_inUser : ∀ act ∈ stackActs 0 userStackPages, act.InUser := by
  intro act hact
  obtain ⟨j, hj, rfl⟩ := List.mem_map.mp hact
  have hj' := (List.mem_range'_1.mp hj).2
  show userBaseAddr ≤ _ ∧ _ < 2 ^ 32
  unfold userStackPages at hj'
  unfold userBaseAddr userStackTop userStackPages
  omega

/-- After the whole load a page outside the stack and the text buffer holds the bytes of the
last segment that has it. -/
theorem after_loadActs {args : Loader.Args}
    (hstack : ∀ j < userStackPages, v ≠ (userStackTop - userStackPages * 4096 + j * 4096) / 4096)
    (huser : 0xC0000 ≤ v) (hlast : f.lastWith (v * 4096) f.phnum = some j) :
    SpaceImage.after (fun _ => none) (f.loadActs args) v =
      some (pageBytes f (pageCopy (f.phdr j) (v * 4096))) := by
  unfold loadActs
  rw [SpaceImage.after_append, SpaceImage.after_append, ← List.range_eq_range']
  have hvga : ∀ img : SpaceImage, img.after (vgaActs args) v = img v := fun img => by
    unfold vgaActs
    split_ifs
    · have h₁ : v ≠ userVgaVaddr / 4096 := by
        unfold userVgaVaddr
        omega
      have h₂ : v ≠ (userVgaVaddr + 4096) / 4096 := by
        unfold userVgaVaddr
        omega
      exact (Function.update_of_ne h₂ _ _).trans (Function.update_of_ne h₁ _ _)
    · rfl
  rw [hvga, after_stackActs fun j _ hj => hstack j (by omega), after_headers, hlast]

end ElfFile

namespace Loader

/-- What a byte of a segment reads after the load. -/
theorem readByte_loaded {k : KernelImage} {f : ElfFile} {args : Args} {l : Loader}
    (hready : Ready k l.paging) {p : UInt32} (hpid : (elfLoad k f args l).2 = .pid p)
    (hapart : f.Apart) {i b : ℕ} (hi : i < f.phnum) (htype : (f.phdr i).type = 1)
    (hb : b < (f.phdr i).memsz) :
    ∃ j, f.lastWith (((f.phdr i).vaddr + b) / 4096 * 4096) f.phnum = some j ∧
      readByte (elfLoad k f args l).1.paging.mem ((l.paging.pagingCreateIsolatedSpace k).2 / 4096)
        ((f.phdr i).vaddr + b) = some (if (f.phdr j).Copies ((f.phdr i).vaddr + b) then
          f.mem ((f.phdr j).offset + ((f.phdr i).vaddr + b - (f.phdr j).vaddr)) else 0) := by
  obtain ⟨hne, hloads, hrun⟩ := run_elfLoad hpid
  obtain ⟨a, hpd, hfresh⟩ := hready.fresh hne
  rw [hpd] at hrun ⊢
  rw [Nat.mul_div_cancel a (by norm_num)]
  -- The image of the new address space.
  have himg : Imaged k a (SpaceImage.after (fun _ => none) (f.loadActs args))
      (elfLoad k f args l).1.paging := by
    unfold ElfFile.loadActs at hrun ⊢
    rw [← List.range_eq_range'] at hrun ⊢
    obtain ⟨t, hrun, hvga⟩ := hrun.append_inv
    rw [SpaceImage.after_append]
    have hnone : Imaged k a (fun _ => none) (l.paging.pagingCreateIsolatedSpace k).1 :=
      ⟨fun v b hb => by cases hb⟩
    refine (hnone.of_run hfresh (fun act hact => ?_) hrun).2.of_vga hvga
    rcases List.mem_append.mp hact with hact | hact
    · exact ElfFile.headerActs_inUser hloads hapart act hact
    · exact ElfFile.stackActs_inUser act hact
  -- The page of the byte.
  have hskip : ¬ f.Skipped i := fun hs => hs.elim (fun h => h htype) (by omega)
  obtain ⟨hacc, hfits⟩ := (hloads i hi).resolve_left hskip
  have hsound : f.Sound i := ⟨hacc, hfits, hapart.noWrap i hi htype⟩
  have hend := hsound.noWrap
  have hbase := hacc.2.2.1
  have hstack := hapart.stack i _ ⟨hi, htype, Nat.le_add_right _ b, Nat.add_lt_add_left hb _⟩
  generalize hx : (f.phdr i).vaddr + b = x at *
  have hpage : f.HasPage i (x / 4096 * 4096) := hx ▸ hsound.hasPage hb
  obtain ⟨j, hlast⟩ := ElfFile.exists_lastWith hi hpage
  refine ⟨j, hlast, ?_⟩
  obtain ⟨hj, hpage'⟩ := ElfFile.lastWith_some hlast
  obtain ⟨hskip', t, ht, heq⟩ := id hpage'
  have hsound' := ElfFile.Sound.of_hasPage hloads hapart hj hpage'
  have hafter : SpaceImage.after (fun _ => none) (f.loadActs args) (x / 4096) =
      some (pageBytes f (pageCopy (f.phdr j) (x / 4096 * 4096))) :=
    ElfFile.after_loadActs (fun j hj => ?_) ?_ hlast
  · obtain ⟨q, hq⟩ := himg.pages _ _ hafter
    have hread := hq.readByte_eq (Nat.mod_lt x (by norm_num) : x % 4096 < 4096)
    rw [hsound'.pageBytes_eq ht heq (Nat.mod_lt x (by norm_num)), Nat.div_add_mod' x 4096] at hread
    exact hread
  · unfold userStackTop userStackPages at *
    omega
  · unfold userBaseAddr at hbase
    omega

/-- **When a loaded file has the image it describes.**  Of an accepted file whose segments are
disjoint, apart from the stack and do not wrap around, every byte of every segment reads, through
the new directory, as the byte of the file or as 0, if and only if no byte is lost: of the segments
that have its page the last one copies the same byte there, or none where the byte is 0. -/
theorem image_iff (k : KernelImage) (f : ElfFile) (args : Args) (l : Loader)
    (hready : Ready k l.paging) {p : UInt32} (hpid : (elfLoad k f args l).2 = .pid p)
    (hapart : f.Apart) :
    (∀ i < f.phnum, (f.phdr i).type = 1 → ∀ b < (f.phdr i).memsz,
      readByte (elfLoad k f args l).1.paging.mem ((l.paging.pagingCreateIsolatedSpace k).2 / 4096)
        ((f.phdr i).vaddr + b) = some (f.imageByte i b)) ↔ f.BytesKept := by
  refine forall₅_congr fun i hi htype b hb => ?_
  obtain ⟨j, hlast, hread⟩ := readByte_loaded hready hpid hapart hi htype hb
  rw [hread, Option.some.injEq]
  unfold ElfFile.ByteKept
  constructor
  · intro heq j' hj'
    rw [hlast] at hj'
    obtain rfl := Option.some.inj hj'
    split_ifs at heq ⊢
    · exact heq
    · exact heq.symm
  · intro hkept
    have hbyte := hkept j hlast
    split_ifs at hbyte ⊢
    · exact hbyte
    · exact hbyte.symm

/-- Segments one after the other, below the stack. -/
theorem apart_of_bounds {f : ElfFile}
    (hpairs : ∀ i < f.phnum, ∀ j < f.phnum, i ≠ j →
      (f.phdr i).vaddr + (f.phdr i).memsz ≤ (f.phdr j).vaddr ∨
        (f.phdr j).vaddr + (f.phdr j).memsz ≤ (f.phdr i).vaddr)
    (hlow : ∀ i < f.phnum, (f.phdr i).vaddr + (f.phdr i).memsz ≤
      userStackTop - userStackPages * 4096) : f.Apart where
  disjoint := by
    rintro i j x ⟨hi, _, h₁, h₂⟩ ⟨hj, _, h₃, h₄⟩
    by_contra hne
    rcases hpairs i hi j hj hne with h | h <;> omega
  stack := by
    rintro i x ⟨hi, _, _, hx⟩ ⟨h, _⟩
    have := hlow i hi
    omega
  noWrap := by
    intro i hi _
    have := hlow i hi
    unfold userStackTop userStackPages at this
    omega

/-- No byte is lost if no two segments have a page in common and the bytes of the file end before
the last page of the address space. -/
theorem bytesKept_of_ownPages {f : ElfFile} (hapart : f.Apart)
    (hbase : ∀ i < f.phnum, (f.phdr i).type = 1 → userBaseAddr ≤ (f.phdr i).vaddr)
    (hown : ∀ i < f.phnum, ∀ j < f.phnum, ∀ va, f.HasPage i va → f.HasPage j va → i = j)
    (hend : ∀ i < f.phnum, (f.phdr i).type = 1 →
      (f.phdr i).vaddr + (f.phdr i).filesz ≤ 0xFFFFF000) : f.BytesKept := by
  intro i hi htype b hb j hlast
  have hwrap := hapart.noWrap i hi htype
  have hfile := hend i hi htype
  have hpage : f.HasPage i (((f.phdr i).vaddr + b) / 4096 * 4096) := by
    refine ⟨fun hs => hs.elim (fun h => h htype) (by omega), ?_⟩
    exact (Phdr.mapped_iff_touches (hbase i hi htype) hwrap (by omega) _).mpr
      ⟨b, hb, by rw [Nat.mod_eq_of_lt (by omega)]⟩
  obtain ⟨hj, hpage'⟩ := ElfFile.lastWith_some hlast
  obtain rfl := hown i hi j hj _ hpage hpage'
  unfold ElfFile.imageByte
  by_cases hcopied : b < (f.phdr i).filesz
  · have hcopies : (f.phdr i).Copies ((f.phdr i).vaddr + b) :=
      ⟨by omega, by omega, by omega, by omega⟩
    rw [if_pos hcopies, if_pos hcopied, Nat.add_sub_cancel_left]
  · have hcopies : ¬ (f.phdr i).Copies ((f.phdr i).vaddr + b) := fun h => by
      have := h.2.1
      omega
    rw [if_neg hcopies, if_neg hcopied]

/-- Every byte of a plain file is where it belongs. -/
theorem image_plainFile : plainFile.BytesKept ∧ ∀ b < 4096,
    readByte (elfLoad AddressSpaces.smallImage plainFile smallArgs smallLoader).1.paging.mem
      ((smallLoader.paging.pagingCreateIsolatedSpace AddressSpaces.smallImage).2 / 4096)
      (0xC0000000 + b) = some (plainFile.imageByte 0 b) := by
  have hphnum : plainFile.phnum = 1 := by decide +kernel
  have hphdr : plainFile.phdr 0 = ⟨1, 0, 0xC0000000, 84, 4096, 5⟩ := by decide +kernel
  have hapart : plainFile.Apart := apart_of_bounds (by omega) (by decide +kernel)
  have hkept : plainFile.BytesKept :=
    bytesKept_of_ownPages hapart (by decide +kernel) (by omega) (by decide +kernel)
  have hread := (image_iff AddressSpaces.smallImage plainFile smallArgs smallLoader
    (Ready.init _ _ _ _) elfLoad_plainFile hapart).mpr hkept 0 (by omega) (by rw [hphdr])
  rw [hphdr] at hread
  exact ⟨hkept, hread⟩

/-- Two segments with a page in common: the whole file at `0xC0000000`, and 16 bytes without
contents at `0xC0000800`. -/
def sharedFile : ElfFile := fileOf (ehdrBytes.set 44 2 ++
  [1, 0, 0, 0, 0, 0, 0, 0, 0, 0, 0, 0xC0, 0, 0, 0, 0xC0,
   116, 0, 0, 0, 0, 1, 0, 0, 5, 0, 0, 0, 0, 16, 0, 0,
   1, 0, 0, 0, 0, 0, 0, 0, 0, 8, 0, 0xC0, 0, 8, 0, 0xC0,
   0, 0, 0, 0, 16, 0, 0, 0, 6, 0, 0, 0, 0, 16, 0, 0]) (by decide)

/-- The first byte of the file is to be at `0xC0000000`; a 0 is there. -/
theorem first_segment_lost :
    (elfLoad AddressSpaces.smallImage sharedFile smallArgs smallLoader).2 = .pid 1 ∧
    sharedFile.Apart ∧ (sharedFile.phdr 0).vaddr = 0xC0000000 ∧ sharedFile.imageByte 0 0 = 0x7F ∧
    readByte (elfLoad AddressSpaces.smallImage sharedFile smallArgs smallLoader).1.paging.mem
      ((smallLoader.paging.pagingCreateIsolatedSpace AddressSpaces.smallImage).2 / 4096)
      0xC0000000 = some 0 := by
  have hapart : sharedFile.Apart := apart_of_bounds (by decide +kernel) (by decide +kernel)
  -- One run of the loader gives both of its results.
  have hrun : (elfLoad AddressSpaces.smallImage sharedFile smallArgs smallLoader).2 = .pid 1 ∧
      readByte (elfLoad AddressSpaces.smallImage sharedFile smallArgs smallLoader).1.paging.mem
        ((smallLoader.paging.pagingCreateIsolatedSpace AddressSpaces.smallImage).2 / 4096)
        0xC0000000 = some 0 := by decide +kernel
  exact ⟨hrun.1, hapart, by decide, by decide +kernel, hrun.2⟩

end Loader

end Microkernel
