/-
# The kernel's page tables as a map

`paging_map_page`, `paging_map_range` and `paging_unmap_page` change what the kernel's addresses
are translated to, and `paging_get_physical` and `virt_to_phys` read it.  The first of these
readers, and the function that unmaps, take the static tables; the others go through the
directory.  Together they are a map from virtual pages to frames.

The directory and the tables are static arrays of the kernel image, read and written where the
linker put them.
-/
import Microkernel.KernelEntries

namespace Microkernel

/-! ## The functions -/

namespace Paging

variable (k : KernelImage) (s : Paging)

/-- The loop of `paging_map_range`: `n` pages from the `i`-th on. -/
def mapRangeLoop (s : Paging) (virt phys flags i : BitVec 32) : ℕ → Paging
  | 0 => s
  | n + 1 =>
    mapRangeLoop
      (s.pagingMapPage k (virt + i * 0x1000#32) (phys + i * 0x1000#32) flags)
      virt phys flags (i + 1#32) n

/-- `paging_map_range`. -/
def pagingMapRange (virt phys size flags : BitVec 32) : Paging :=
  mapRangeLoop k s virt phys flags 0#32 ((size + 0xFFF#32) / 0x1000#32).toNat

/-- `paging_get_physical`, from the kernel's static tables. -/
def pagingGetPhysical (virt : BitVec 32) : BitVec 32 :=
  let pte := s.mem (k.pageTables + pdIdx virt) (ptIdx virt)
  if hasFlag pte pagePresent then (pte &&& 0xFFFFF000#32) ||| (virt &&& 0xFFF#32) else 0

/-- `virt_to_phys`, from the table that the directory names. -/
def virtToPhys (virt : BitVec 32) : BitVec 32 :=
  let pde := s.mem k.pageDirectory (pdIdx virt)
  if hasFlag pde pagePresent then
    let pte := s.mem (frameOf pde) (ptIdx virt)
    if hasFlag pte pagePresent then (pte &&& 0xFFFFF000#32) ||| (virt &&& 0xFFF#32) else 0
  else 0

end Paging

/-- A call that changes the kernel's tables. -/
inductive KernelMapOp where
  | mapPage (virt phys flags : BitVec 32)
  | unmapPage (virt : BitVec 32)
  | mapRange (virt phys size flags : BitVec 32)

/-- The effect of a call. -/
def KernelMapOp.exec (k : KernelImage) (s : Paging) : KernelMapOp → Paging
  | .mapPage virt phys flags => s.pagingMapPage k virt phys flags
  | .unmapPage virt => s.pagingUnmapPage k virt
  | .mapRange virt phys size flags => s.pagingMapRange k virt phys size flags

/-- The sizes for which rounding up to pages does not wrap around. -/
def KernelMapOp.Allowed : KernelMapOp → Prop
  | .mapRange _ _ size _ => size ≤ 0xFFFFF000#32
  | _ => True

/-! ## The map -/

/-- Which frame each virtual page is mapped to. -/
abbrev FrameMap := ℕ → Option ℕ

namespace FrameMap

variable (f : FrameMap)

/-- Map `n` consecutive pages to as many frames.  Both wrap around at the end of the address
space. -/
def mapPages (page frame n : ℕ) : FrameMap := fun v =>
  let i := (v + 2 ^ 20 - page) % 2 ^ 20
  if i < n then some ((frame + i) % 2 ^ 20) else f v

def unmap (page : ℕ) : FrameMap := fun v => if v = page then none else f v

/-- The address that a virtual address is translated to, or 0. -/
def translate (virt : BitVec 32) : BitVec 32 :=
  match f (pageOf virt) with
  | some frame => BitVec.ofNat 32 (frame * 4096 + virt.toNat % 4096)
  | none => 0

end FrameMap

/-- What a call does to the map. -/
def KernelMapOp.apply (f : FrameMap) : KernelMapOp → FrameMap
  | .mapPage virt phys _ => f.mapPages (pageOf virt) (pageOf phys) 1
  | .unmapPage virt => f.unmap (pageOf virt)
  | .mapRange virt phys size _ =>
    f.mapPages (pageOf virt) (pageOf phys) ((size.toNat + 4095) / 4096)

/-- The pages that a call is about. -/
def KernelMapOp.pages : KernelMapOp → Set ℕ
  | .mapPage virt _ _ => {pageOf virt}
  | .unmapPage virt => {pageOf virt}
  | .mapRange virt _ size _ =>
    {v | ∃ i < (size.toNat + 4095) / 4096, v = (pageOf virt + i) % 2 ^ 20}

/-- The map after `paging_init`. -/
def identityMap (memKb : ℕ) : FrameMap := fun v => if v < ramPages memKb then some v else none

/-! ## The tables hold a map -/

/-- What a table entry says. -/
def frameOfEntry (e : BitVec 32) : Option ℕ :=
  if hasFlag e pagePresent then some (frameOf e) else none

/-- The kernel's tables hold the map `f`. -/
structure HoldsMap (k : KernelImage) (s : Paging) (f : FrameMap) : Prop where
  kernelDir : KernelDir k s.mem
  entries : ∀ v < 2 ^ 20, frameOfEntry (kernelEntry k s.mem v) = f v

theorem frameOfEntry_kernelPte (phys flags : BitVec 32) :
    frameOfEntry (kernelPte phys flags) = some (pageOf phys) := by
  unfold frameOfEntry
  have hpresent : hasFlag (kernelPte phys flags) pagePresent = true := by
    rw [hasFlag_present]
    unfold kernelPte
    rw [BitVec.getLsbD_or, getLsbD_pagePresent 0 (by norm_num), decide_eq_true rfl, Bool.or_true]
  have hframe : frameOf (kernelPte phys flags) = frameOf phys := by
    refine Eq.trans ?_ (frameOf_entry phys flags)
    apply frameOf_congr
    intro i h₁ h₂
    unfold kernelPte
    rw [BitVec.getLsbD_or, getLsbD_pagePresent i h₂, decide_eq_false (by omega), Bool.or_false]
  rw [if_pos hpresent, hframe]
  rfl

namespace HoldsMap

variable {k : KernelImage} {s : Paging} {f : FrameMap}

theorem mapPage (h : HoldsMap k s f) (virt phys flags : BitVec 32) :
    HoldsMap k (s.pagingMapPage k virt phys flags)
      (f.mapPages (pageOf virt) (pageOf phys) 1) where
  kernelDir := by
    rw [Paging.pagingMapPage_eq h.kernelDir]
    exact Paging.kernelDir_store h.kernelDir (k.table_ne_dir (pdIdx_lt virt))
  entries v hv := by
    have hpage := pageOf_lt virt
    have hframe := pageOf_lt phys
    rw [kernelEntry_map h.kernelDir]
    unfold FrameMap.mapPages
    dsimp only
    by_cases he : pageOf virt = v
    · subst he
      rw [if_pos rfl, frameOfEntry_kernelPte, if_pos (by omega)]
      congr 1
      omega
    · rw [if_neg he, if_neg (by omega)]
      exact h.entries v hv

theorem unmapPage (h : HoldsMap k s f) (virt : BitVec 32) :
    HoldsMap k (s.pagingUnmapPage k virt) (f.unmap (pageOf virt)) where
  kernelDir := Paging.kernelDir_store h.kernelDir (k.table_ne_dir (pdIdx_lt virt))
  entries v hv := by
    rw [kernelEntry_unmap]
    unfold FrameMap.unmap
    by_cases he : pageOf virt = v
    · rw [if_pos he, if_pos he.symm]
      rfl
    · rw [if_neg he, if_neg fun he' => he he'.symm]
      exact h.entries v hv

end HoldsMap

/-- The page of `virt + i * 0x1000`. -/
theorem pageOf_add_mul (virt i : BitVec 32) :
    pageOf (virt + i * 0x1000#32) = (pageOf virt + i.toNat) % 2 ^ 20 := by
  unfold pageOf
  rw [BitVec.toNat_add, BitVec.toNat_mul]
  have hsize : (0x1000#32).toNat = 4096 := rfl
  rw [hsize]
  omega

/-- Mapping the next page after `i` of them. -/
theorem FrameMap.mapPages_succ (f : FrameMap) {page frame i : ℕ} (hpage : page < 2 ^ 20)
    (hi : i < 2 ^ 20) {v : ℕ} (hv : v < 2 ^ 20) :
    (f.mapPages page frame i).mapPages ((page + i) % 2 ^ 20) ((frame + i) % 2 ^ 20) 1 v =
      f.mapPages page frame (i + 1) v := by
  unfold mapPages
  dsimp only
  by_cases hat : (v + 2 ^ 20 - page) % 2 ^ 20 = i
  · rw [if_pos (by omega), if_pos (by omega)]
    congr 1
    omega
  · rw [if_neg (by omega)]
    by_cases hlt : (v + 2 ^ 20 - page) % 2 ^ 20 < i
    · rw [if_pos hlt, if_pos (by omega)]
    · rw [if_neg hlt, if_neg (by omega)]

namespace HoldsMap

variable {k : KernelImage} {s : Paging} {f g : FrameMap}

theorem congr (h : HoldsMap k s f) (hfg : ∀ v < 2 ^ 20, f v = g v) : HoldsMap k s g where
  kernelDir := h.kernelDir
  entries v hv := (h.entries v hv).trans (hfg v hv)

/-- **The loop of `paging_map_range`**, when `i` pages are mapped. -/
theorem mapRangeLoop {virt phys flags i : BitVec 32} {n : ℕ} (hn : i.toNat + n ≤ 2 ^ 20)
    (h : HoldsMap k s (f.mapPages (pageOf virt) (pageOf phys) i.toNat)) :
    HoldsMap k (Paging.mapRangeLoop k s virt phys flags i n)
      (f.mapPages (pageOf virt) (pageOf phys) (i.toNat + n)) := by
  induction n generalizing s i with
  | zero => exact h
  | succ n ih =>
    have hnext : (i + 1#32).toNat = i.toNat + 1 := by
      rw [BitVec.toNat_add]
      exact Nat.mod_eq_of_lt (by
        show i.toNat + 1 < 2 ^ 32
        omega)
    have hstep := h.mapPage (virt + i * 0x1000#32) (phys + i * 0x1000#32) flags
    rw [pageOf_add_mul, pageOf_add_mul] at hstep
    have hmapped := hstep.congr fun v hv =>
      FrameMap.mapPages_succ f (pageOf_lt virt) (by omega) hv
    rw [← hnext] at hmapped
    have hrest := ih (by omega) hmapped
    rw [hnext] at hrest
    unfold Paging.mapRangeLoop
    rwa [Nat.add_assoc, Nat.add_comm 1 n] at hrest

/-- **Each call changes the tables as the map is changed.** -/
theorem exec (h : HoldsMap k s f) {op : KernelMapOp} (hop : op.Allowed) :
    HoldsMap k (op.exec k s) (op.apply f) := by
  cases op with
  | mapPage virt phys flags => exact h.mapPage virt phys flags
  | unmapPage virt => exact h.unmapPage virt
  | mapRange virt phys size flags =>
    have hsize : size.toNat ≤ 0xFFFFF000 := hop
    have hpages : ((size + 0xFFF#32) / 0x1000#32).toNat = (size.toNat + 4095) / 4096 := by
      rw [BitVec.toNat_udiv, BitVec.toNat_add]
      have h₁ : (0xFFF#32).toNat = 4095 := rfl
      have h₂ : (0x1000#32).toNat = 4096 := rfl
      rw [h₁, h₂, Nat.mod_eq_of_lt (by omega)]
    show HoldsMap k (Paging.mapRangeLoop k s virt phys flags 0#32
      ((size + 0xFFF#32) / 0x1000#32).toNat) _
    rw [hpages]
    have hnone : f.mapPages (pageOf virt) (pageOf phys) 0 = f := by
      funext v
      unfold FrameMap.mapPages
      exact if_neg (Nat.not_lt_zero _)
    have hstart : HoldsMap k s (f.mapPages (pageOf virt) (pageOf phys) (0#32).toNat) := by
      rw [show (0#32).toNat = 0 from rfl, hnone]
      exact h
    have hrange := @mapRangeLoop k s f virt phys flags 0#32 ((size.toNat + 4095) / 4096)
      (by show 0 + _ ≤ _; omega) hstart
    rwa [show (0#32).toNat = 0 from rfl, Nat.zero_add] at hrange

end HoldsMap

/-- The address that an entry and an offset make. -/
theorem entry_or_offset (pte virt : BitVec 32) :
    (pte &&& 0xFFFFF000#32) ||| (virt &&& 0xFFF#32) =
      BitVec.ofNat 32 (frameOf pte * 4096 + virt.toNat % 4096) := by
  have hframe : pte &&& 0xFFFFF000#32 = pte >>> 12 <<< 12 := by
    apply BitVec.eq_of_getLsbD_eq
    intro i hi
    rw [BitVec.getLsbD_and, getLsbD_addrMask i hi, BitVec.getLsbD_shiftLeft,
      BitVec.getLsbD_ushiftRight]
    by_cases h12 : 12 ≤ i
    · rw [Nat.add_sub_cancel' h12]
      simp [h12, hi]
    · simp [h12]
  have hpte := pte.isLt
  have hlow : (pte >>> 12 <<< 12).toNat = 2 ^ 12 * frameOf pte := by
    unfold frameOf
    rw [BitVec.toNat_shiftLeft, BitVec.toNat_ushiftRight, Nat.shiftRight_eq_div_pow,
      Nat.shiftLeft_eq]
    omega
  have hoff : (virt &&& 0xFFF#32).toNat = virt.toNat % 4096 := by
    rw [BitVec.toNat_and]
    exact Nat.and_two_pow_sub_one_eq_mod _ 12
  apply BitVec.eq_of_toNat_eq
  have hsum : frameOf pte * 4096 + virt.toNat % 4096 < 2 ^ 32 := by
    unfold frameOf
    omega
  rw [BitVec.toNat_or, hframe, hlow, hoff,
    ← Nat.two_pow_add_eq_or_of_lt (Nat.mod_lt _ (by norm_num)), BitVec.toNat_ofNat,
    Nat.mod_eq_of_lt hsum, Nat.mul_comm]

namespace HoldsMap

variable {k : KernelImage} {s : Paging} {f : FrameMap}

/-- **Both readers give what the map says.** -/
theorem read (h : HoldsMap k s f) (virt : BitVec 32) :
    s.pagingGetPhysical k virt = f.translate virt ∧
      s.virtToPhys k virt = s.pagingGetPhysical k virt := by
  have hidx := pdIdx_lt virt
  have htables := k.tables_lt_pow
  have hentry : kernelEntry k s.mem (pageOf virt) =
      s.mem (k.pageTables + pdIdx virt) (ptIdx virt) := by
    rw [pdIdx_eq_pageOf, ptIdx_eq_pageOf]
    rfl
  constructor
  · have hmap := h.entries (pageOf virt) (pageOf_lt virt)
    rw [hentry] at hmap
    unfold frameOfEntry at hmap
    unfold Paging.pagingGetPhysical FrameMap.translate
    dsimp only
    rw [← hmap]
    split_ifs with hpresent
    · exact entry_or_offset _ virt
    · rfl
  · unfold Paging.virtToPhys Paging.pagingGetPhysical
    dsimp only
    rw [h.kernelDir _ hidx, if_pos (hasFlag_tableLink _), frameOf_tableLink (by omega)]

end HoldsMap

/-- The tables of `paging_init` hold the identity map of the RAM. -/
theorem holdsMap_pagingInit (k : KernelImage) (m : PageMemory) (memKb : ℕ) (p : Pmm) :
    HoldsMap k ⟨pagingInit k m memKb, p⟩ (identityMap memKb) where
  kernelDir t _ := by
    show pagingInit k m memKb k.pageDirectory t = _
    unfold pagingInit
    rw [if_pos rfl]
    rfl
  entries v hv := by
    have hne := @KernelImage.table_ne_dir k (v / 1024) (by omega)
    have hpage : (k.pageTables + v / 1024 - k.pageTables) * 1024 + v % 1024 = v := by omega
    unfold kernelEntry pagingInit identityMap
    dsimp only
    rw [if_neg hne, if_pos ⟨by omega, by omega⟩, hpage]
    split_ifs
    · show frameOfEntry (tableLink v) = some v
      unfold frameOfEntry
      rw [if_pos (hasFlag_tableLink v), frameOf_tableLink hv]
    · rfl

/-! ## Sequences of calls -/

/-- The state after a sequence of calls. -/
def execAll (k : KernelImage) (s : Paging) (ops : List KernelMapOp) : Paging :=
  ops.foldl (fun s op => op.exec k s) s

/-- The map after a sequence of calls. -/
def applyAll (f : FrameMap) (ops : List KernelMapOp) : FrameMap :=
  ops.foldl (fun f op => op.apply f) f

theorem HoldsMap.execAll {k : KernelImage} {s : Paging} {f : FrameMap} {ops : List KernelMapOp}
    (h : HoldsMap k s f) (hops : ∀ op ∈ ops, op.Allowed) :
    HoldsMap k (execAll k s ops) (applyAll f ops) := by
  induction ops generalizing s f with
  | nil => exact h
  | cons op ops ih =>
    exact ih (h.exec (hops op List.mem_cons_self)) fun o ho => hops o (List.mem_cons_of_mem _ ho)

/-- A call changes the map at its own pages only. -/
theorem KernelMapOp.apply_of_notMem (f : FrameMap) (op : KernelMapOp) {v : ℕ} (hv : v < 2 ^ 20)
    (hnot : v ∉ op.pages) : op.apply f v = f v := by
  cases op with
  | mapPage virt phys flags =>
    have hpage := pageOf_lt virt
    refine if_neg fun hlt => hnot ?_
    show v = pageOf virt
    omega
  | unmapPage virt => exact if_neg hnot
  | mapRange virt phys size flags =>
    have hpage := pageOf_lt virt
    refine if_neg fun hlt => hnot ?_
    exact ⟨_, hlt, by omega⟩

/-- **The kernel's page tables are a map.**  After `paging_init` and any calls that map and unmap,
`paging_get_physical` and `virt_to_phys` agree on every address and give what the map of these
calls says; and no further call changes the translation of an address in another page. -/
theorem kernelTables_refine (k : KernelImage) (m : PageMemory) (p : Pmm) (memKb : ℕ)
    {ops : List KernelMapOp} (hops : ∀ op ∈ ops, op.Allowed) (virt : BitVec 32) :
    (execAll k ⟨pagingInit k m memKb, p⟩ ops).pagingGetPhysical k virt =
      (applyAll (identityMap memKb) ops).translate virt ∧
    (execAll k ⟨pagingInit k m memKb, p⟩ ops).virtToPhys k virt =
      (execAll k ⟨pagingInit k m memKb, p⟩ ops).pagingGetPhysical k virt ∧
    ∀ op : KernelMapOp, op.Allowed → pageOf virt ∉ op.pages →
      (op.exec k (execAll k ⟨pagingInit k m memKb, p⟩ ops)).pagingGetPhysical k virt =
        (execAll k ⟨pagingInit k m memKb, p⟩ ops).pagingGetPhysical k virt ∧
      (op.exec k (execAll k ⟨pagingInit k m memKb, p⟩ ops)).virtToPhys k virt =
        (execAll k ⟨pagingInit k m memKb, p⟩ ops).virtToPhys k virt := by
  have h := (holdsMap_pagingInit k m memKb p).execAll hops
  obtain ⟨hread, hagree⟩ := h.read virt
  refine ⟨hread, hagree, fun op hop hnot => ?_⟩
  obtain ⟨hread', hagree'⟩ := (h.exec hop).read virt
  have hsame : (op.apply (applyAll (identityMap memKb) ops)).translate virt =
      (applyAll (identityMap memKb) ops).translate virt := by
    unfold FrameMap.translate
    rw [op.apply_of_notMem _ (pageOf_lt virt) hnot]
  have heq := hread'.trans (hsame.trans hread.symm)
  exact ⟨heq, hagree'.trans (heq.trans hagree.symm)⟩

open AddressSpaces (smallImage)

/-- The VGA text buffer at `0xE0000000`, unmapped, and three pages across the end of the address
space. -/
theorem kernelTables_refine_wrap :
    (execAll smallImage ⟨pagingInit smallImage (fun _ _ => 0) 5200, Pmm.pmmInit
        smallImage.toKernelEnd 5200⟩
      [.mapPage 0xE0000000#32 0xB8000#32 3#32, .unmapPage 0xE0000000#32,
        .mapRange 0xFFFFF000#32 0x100000#32 0x2001#32 3#32]).pagingGetPhysical smallImage
      0x00000123#32 = 0x00101123#32 := by
  have hallowed : ∀ op ∈ [KernelMapOp.mapPage 0xE0000000#32 0xB8000#32 3#32,
      .unmapPage 0xE0000000#32, .mapRange 0xFFFFF000#32 0x100000#32 0x2001#32 3#32],
      op.Allowed := by
    intro op hop
    rcases List.mem_cons.mp hop with rfl | hop
    · trivial
    rcases List.mem_cons.mp hop with rfl | hop
    · trivial
    rw [List.mem_singleton.mp hop]
    show (0x2001#32 : BitVec 32) ≤ 0xFFFFF000#32
    decide
  rw [(kernelTables_refine smallImage (fun _ _ => 0) _ 5200 hallowed 0x00000123#32).1]
  decide +kernel

end Microkernel
