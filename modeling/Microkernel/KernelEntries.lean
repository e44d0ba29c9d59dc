/-
# The entries of the kernel's tables

The kernel's static tables as one table of `2 ^ 20` entries, and which of them the paging
functions write: `paging_map_page` and `paging_unmap_page` one, `paging_map_user` those of its
two windows and, for an address in the shared part, that of the address.
-/
import Microkernel.Accounts
import Microkernel.Isolation

namespace Microkernel

open AddressSpaces (Private)

/-- The entry of the kernel's tables for the virtual page `v`. -/
def kernelEntry (k : KernelImage) (m : PageMemory) (v : ℕ) : BitVec 32 :=
  m (k.pageTables + v / 1024) (v % 1024)

/-- The entry `paging_map_page` writes. -/
def kernelPte (phys flags : BitVec 32) : BitVec 32 :=
  (phys &&& 0xFFFFF000#32) ||| (flags &&& 0xFFF#32) ||| pagePresent

theorem pageOf_ofNat {va : ℕ} (h : va < 2 ^ 32) : pageOf (BitVec.ofNat 32 va) = va / 4096 := by
  unfold pageOf
  rw [BitVec.toNat_ofNat, Nat.mod_eq_of_lt h]

theorem pageOf_lt (virt : BitVec 32) : pageOf virt < 2 ^ 20 := by
  have := virt.isLt
  unfold pageOf
  omega

theorem pdIdx_eq_pageOf (virt : BitVec 32) : pdIdx virt = pageOf virt / 1024 := pdIdx_eq virt

theorem ptIdx_eq_pageOf (virt : BitVec 32) : ptIdx virt = pageOf virt % 1024 := ptIdx_eq virt

variable {k : KernelImage} {o : PageOwners} {s : Paging} {v : ℕ}

/-- A page that is no kernel table has no part in the entries. -/
theorem kernelEntry_congr {m m' : PageMemory} (hv : v < 2 ^ 20)
    (h : ∀ t < 1024, ∀ i, m' (k.pageTables + t) i = m (k.pageTables + t) i) :
    kernelEntry k m' v = kernelEntry k m v := h (v / 1024) (by omega) _

theorem kernelEntry_of_page {m m' : PageMemory} {f : ℕ} (hv : v < 2 ^ 20)
    (hf : ¬ (k.pageTables ≤ f ∧ f < k.pageTables + 1024))
    (h : ∀ f' i, f' ≠ f → m' f' i = m f' i) : kernelEntry k m' v = kernelEntry k m v := by
  apply kernelEntry_congr hv
  intro t ht i
  apply h
  rintro rfl
  exact hf ⟨by omega, by omega⟩

/-- Writing an entry. -/
theorem kernelEntry_store (virt e : BitVec 32) :
    kernelEntry k (s.store (k.pageTables + pdIdx virt) (ptIdx virt) e).mem v =
      if pageOf virt = v then e else kernelEntry k s.mem v := by
  unfold kernelEntry
  by_cases hv : pageOf virt = v
  · obtain ⟨h₁, h₂⟩ := (@table_word_iff k v virt).mpr hv
    rw [if_pos hv, h₁, h₂, Paging.store_same]
  · rw [if_neg hv, Paging.store_other _ _ fun h => hv (table_word_iff virt |>.mp h)]

theorem kernelEntry_map (hk : KernelDir k s.mem) (virt phys flags : BitVec 32) :
    kernelEntry k (s.pagingMapPage k virt phys flags).mem v =
      if pageOf virt = v then kernelPte phys flags else kernelEntry k s.mem v := by
  rw [Paging.pagingMapPage_eq hk]
  exact kernelEntry_store virt _

theorem kernelEntry_unmap (virt : BitVec 32) :
    kernelEntry k (s.pagingUnmapPage k virt).mem v =
      if pageOf virt = v then 0 else kernelEntry k s.mem v := kernelEntry_store virt 0

/-- The table of a call is a kernel table only in the shared part. -/
theorem linkedTable_kernel (h : Kept k o s) {a i q : ℕ} {new : Bool}
    (hq : LinkedTable k o s a i q new) (hpriv : Private i) :
    ¬ (k.pageTables ≤ q ∧ q < k.pageTables + 1024) := by
  have hge := k.tables_ge
  cases hq with
  | shared hnot => exact absurd hpriv hnot
  | own q _ hq _ =>
    rcases hq with rfl | hq
    · omega
    · exact h.not_kernelTable (PageOwners.mem_owned_of_table hq)
  | noPage => omega
  | fresh q _ _ _ _ hfirst =>
    intro ht
    exact absurd (show k.IsTable q from Or.inr ht).lt_firstPage (Nat.not_lt.mpr hfirst)

/-- **The entries after `paging_map_user`**: the windows are closed, and the entry of the address
is written if it is in the shared part. -/
theorem kernelEntry_mappedMem (h : Kept k o s) {a q : ℕ} {new : Bool} (ha : a ∈ o.spaces)
    {virt : BitVec 32} (hq : LinkedTable k o s a (pdIdx virt) q new) (phys flags : BitVec 32)
    (hv : v < 2 ^ 20) :
    kernelEntry k (mappedMem k s a q new virt phys flags) v =
      if IsWindowPage v then 0
      else if ¬ Private (pdIdx virt) ∧ pageOf virt = v then Paging.userEntry virt phys flags
      else kernelEntry k s.mem v := by
  unfold kernelEntry mappedMem
  have hwin := @isWindow_iff k v
  have hnot := h.not_kernelTable (PageOwners.mem_owned_of_space ha)
  have hspace : ¬ (k.pageTables + v / 1024 = a ∧ v % 1024 = pdIdx virt) := by
    rintro ⟨rfl, _⟩
    apply hnot
    omega
  by_cases hw : IsWindowPage v
  · rw [if_pos (hwin.mpr hw), if_pos hw]
  · rw [if_neg fun hh => hw (hwin.mp hh), if_neg hw, if_neg hspace]
    by_cases hpriv : Private (pdIdx virt)
    · have hkernel := linkedTable_kernel h hq hpriv
      rw [if_neg, if_neg, if_neg fun hh => hh.1 hpriv]
      · rintro ⟨_, rfl⟩
        apply hkernel
        omega
      · rintro ⟨rfl, _⟩
        apply hkernel
        omega
    · have hshared : q = k.pageTables + pdIdx virt ∧ new = false := by
        cases hq with
        | shared _ => exact ⟨rfl, rfl⟩
        | own _ hp => exact absurd hp hpriv
        | noPage hp => exact absurd hp hpriv
        | fresh _ hp => exact absurd hp hpriv
      obtain ⟨rfl, rfl⟩ := hshared
      rw [if_neg (show ¬ (false = true ∧ _) from fun hh => by cases hh.1)]
      by_cases hp : pageOf virt = v
      · rw [if_pos ((table_word_iff virt).mpr hp), if_pos ⟨hpriv, hp⟩]
      · rw [if_neg fun hh => hp ((table_word_iff virt).mp hh), if_neg fun hh => hp hh.2]

/-- The walk of the kernel's directory. -/
theorem walk_kernel (hk : KernelDir k s.mem) (hv : v < 2 ^ 20) :
    walk s.mem k.pageDirectory v = entryTranslation (kernelEntry k s.mem v) := by
  have htables := k.tables_lt_pow
  exact walk_of_tableLink (by omega) (hk _ (by omega))

/-- The walk of a process in the shared part. -/
theorem walk_shared (h : Kept k o s) {a : ℕ} (ha : a ∈ o.spaces) (hv : v < 2 ^ 20)
    (hpriv : ¬ Private (v / 1024)) :
    walk s.mem a v = entryTranslation (kernelEntry k s.mem v) := by
  have htables := k.tables_lt_pow
  exact walk_of_tableLink (by omega) (h.shared a ha _ (by omega) hpriv)

end Microkernel
