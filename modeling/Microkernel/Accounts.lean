/-
# Address spaces come and go

The account of the pages when each table belongs to an entry of a directory that is there:
then `paging_destroy_address_space` finds exactly the tables made for its directory, and
gives back what the address space had, page for page.
-/
import Microkernel.Owners

namespace Microkernel

open AddressSpaces (Private)

/-- **The account is complete**: it is right, and its tables are the tables of the entries of its
directories. -/
structure Kept (k : KernelImage) (o : PageOwners) (s : Paging) : Prop extends Linked k o s where
  tables_of : ∀ q a i, (q, a, i) ∈ o.tables → a ∈ o.spaces ∧ Private i ∧ s.mem a i = tableLink q

namespace Kept

variable {k : KernelImage} {o o' : PageOwners} {s s' : Paging} {a q : ℕ}

/-- The tables stay what they are where the directories do not change. -/
theorem of_linked (h : Kept k o s) (h' : Linked k o' s')
    (htables : ∀ q a i, (q, a, i) ∈ o'.tables → (q, a, i) ∈ o.tables ∧ a ∈ o'.spaces)
    (hspace : ∀ a ∈ o.spaces, ∀ i, s'.mem a i = s.mem a i) : Kept k o' s' where
  toLinked := h'
  tables_of := fun q a i hq => by
    obtain ⟨hq, ha'⟩ := htables q a i hq
    obtain ⟨ha, hi, hlink⟩ := h.tables_of q a i hq
    exact ⟨ha', hi, (hspace a ha i).trans hlink⟩

/-- Changes that leave the directories and the account alone. -/
theorem of_same (h : Kept k o s) (h' : Linked k o s')
    (hspace : ∀ a ∈ o.spaces, ∀ i, s'.mem a i = s.mem a i) : Kept k o s' :=
  h.of_linked h' (fun q a i hq => ⟨hq, (h.tables_of q a i hq).1⟩) hspace

theorem store_kernel (h : Kept k o s) {t i : ℕ} (ht : t < 1024) (v : BitVec 32) :
    Kept k o (s.store (k.pageTables + t) i v) := by
  refine h.of_same (h.toLinked.store_kernel ht v) fun a ha j => s.store_other v fun he => ?_
  apply h.not_kernelTable (PageOwners.mem_owned_of_space ha)
  omega

theorem of_page (h : Kept k o s) {f : ℕ} (hdir : f ≠ k.pageDirectory) (hspace : f ∉ o.spaces)
    {m : PageMemory} (hm : ∀ f' i, f' ≠ f → m f' i = s.mem f' i) : Kept k o ⟨m, s.pmm⟩ :=
  h.of_same (h.toLinked.of_page hdir hspace hm) fun a ha i => hm a i fun he => hspace (he ▸ ha)

theorem hold (h : Kept k o s) (hfirst : Pmm.firstPage k.toKernelEnd ≤ q)
    (hlt : q < s.pmm.totalPages) (hfresh : q ∉ o.owned) : Kept k (o.hold q) ⟨s.mem, s.pmm.mark q⟩ :=
  h.of_linked (h.toLinked.hold hfirst hlt hfresh) (fun q a i hq => ⟨hq, (h.tables_of q a i hq).1⟩)
    fun _ _ _ => rfl

/-- What `pmm_alloc_page` finds, in a complete account. -/
theorem alloc (h : Kept k o s) :
    (s.pmm.pmmAllocPage.2 = 0 ∧ s.pmm.pmmAllocPage.1.totalPages = s.pmm.totalPages ∧
      (∀ q, q ≠ 0 → s.pmm.pmmAllocPage.1.bitmap.test q = s.pmm.bitmap.test q) ∧
      Kept k o ⟨s.mem, s.pmm.pmmAllocPage.1⟩) ∨
    ∃ q, q < s.pmm.totalPages ∧ Pmm.firstPage k.toKernelEnd ≤ q ∧ s.pmm.bitmap.test q = false ∧
      q ∉ o.owned ∧ s.pmm.pmmAllocPage = (s.pmm.mark q, q * 4096) ∧
      Kept k (o.hold q) ⟨s.mem, s.pmm.mark q⟩ := by
  rcases h.alloc_cases with ⟨h₁, h₂, h₃, h₄⟩ | ⟨q, hlt, hfirst, hbit, hfresh, halloc⟩
  · exact Or.inl ⟨h₁, h₂, h₃, h.of_same h₄ fun _ _ _ => rfl⟩
  · exact Or.inr ⟨q, hlt, hfirst, hbit, hfresh, halloc, h.hold hfirst hlt hfresh⟩

theorem free_zero (h : Kept k o s) : Kept k o ⟨s.mem, s.pmm.pmmFreePage 0⟩ :=
  h.of_same h.toLinked.free_zero fun _ _ _ => rfl

theorem free_held (h : Kept k o s) {f : ℕ} (hf : f ∈ o.held) :
    Kept k (o.release f) ⟨s.mem, s.pmm.pmmFreePage (f * 4096)⟩ :=
  h.of_linked (h.toLinked.free_held hf) (fun q a i hq => ⟨hq, (h.tables_of q a i hq).1⟩)
    fun _ _ _ => rfl

/-- `paging_create_isolated_space`. -/
theorem create (h : Kept k o s) :
    ((s.pagingCreateIsolatedSpace k).2 = 0 ∧
      s.pagingCreateIsolatedSpace k = (⟨s.mem, s.pmm.pmmAllocPage.1⟩, 0) ∧
      Kept k o (s.pagingCreateIsolatedSpace k).1) ∨
    ∃ q, s.pmm.bitmap.test q = false ∧ q ∉ o.owned ∧ q ≠ 0 ∧
      (s.pagingCreateIsolatedSpace k).2 = q * 4096 ∧
      (s.pagingCreateIsolatedSpace k).1.pmm = s.pmm.mark q ∧
      (∀ f i, f ≠ q → (s.pagingCreateIsolatedSpace k).1.mem f i = s.mem f i) ∧
      (∀ i, Private i → (s.pagingCreateIsolatedSpace k).1.mem q i = 0) ∧
      Kept k (o.addSpace q) (s.pagingCreateIsolatedSpace k).1 := by
  rcases h.toLinked.create with ⟨hnull, heq, hlinked⟩ |
    ⟨q, hbit, hfresh, hne, haddr, hpmm, hold, hzero, hlinked⟩
  · refine Or.inl ⟨hnull, heq, h.of_same hlinked fun _ _ _ => ?_⟩
    rw [heq]
  · refine Or.inr ⟨q, hbit, hfresh, hne, haddr, hpmm, hold, hzero, ?_⟩
    refine h.of_linked hlinked (fun t a i ht => ⟨ht, ?_⟩) fun a ha i => hold a i ?_
    · exact List.mem_cons_of_mem _ (h.tables_of t a i ht).1
    · rintro rfl
      exact hfresh (PageOwners.mem_owned_of_space ha)

/-- **`paging_map_user`**: what it writes, and that the account stays complete. -/
theorem mapUser (h : Kept k o s) (ha : a ∈ o.spaces) (virt phys flags : BitVec 32) :
    ∃ q new, LinkedTable k o s a (pdIdx virt) q new ∧
      s.pagingMapUser k (a * 4096) virt phys flags =
        ⟨mappedMem k s a q new virt phys flags,
          if new = true then s.pmm.pmmAllocPage.1 else s.pmm⟩ ∧
      Kept k (o.afterMap q a (pdIdx virt) new) (s.pagingMapUser k (a * 4096) virt phys flags) := by
  obtain ⟨q, new, hq, heq⟩ := h.linkedTable ha virt phys flags
  obtain ⟨_, hspace⟩ := @Linked.mappedMem_dir k o s a q new virt phys flags h.toLinked ha hq
  refine ⟨q, new, hq, heq, ?_⟩
  rw [heq]
  refine ⟨h.toLinked.mapUser ha hq, fun t a' i ht => ?_⟩
  have hspaces : (o.afterMap q a (pdIdx virt) new).spaces = o.spaces := by
    unfold PageOwners.afterMap
    split_ifs
    · exact PageOwners.addTable_spaces q a _
    · rfl
  -- the table was there, or it is the new one
  have hold : (t, a', i) ∈ o.tables → a' ∈ (o.afterMap q a (pdIdx virt) new).spaces ∧ Private i ∧
      mappedMem k s a q new virt phys flags a' i = tableLink t := by
    intro ht
    obtain ⟨ha', hi, hlink⟩ := h.tables_of t a' i ht
    refine ⟨hspaces.symm ▸ ha', hi, (hspace a' ha' i).trans ?_⟩
    split_ifs with he
    · obtain ⟨rfl, rfl⟩ := he
      cases hq with
      | shared hnot => exact absurd hi hnot
      | own q _ _ hlink' => exact hlink'.symm.trans hlink
      | noPage _ hzero => exact absurd (hlink.symm.trans hzero) (tableLink_ne_zero t)
      | fresh q _ hzero => exact absurd (hlink.symm.trans hzero) (tableLink_ne_zero t)
    · exact hlink
  unfold PageOwners.afterMap at ht
  cases new with
  | false => exact hold ht
  | true =>
    rw [if_pos rfl] at ht
    unfold PageOwners.addTable at ht
    split_ifs at ht with hzero
    · exact hold ht
    · rcases List.mem_cons.mp ht with he | ht
      · cases he
        refine ⟨hspaces.symm ▸ ha, ?_, (hspace a ha _).trans (if_pos ⟨rfl, rfl⟩)⟩
        cases hq with
        | noPage => exact absurd rfl hzero
        | fresh q hpriv => exact hpriv
      · exact hold ht

end Kept

/-! ## The end of an address space -/

/-- The tables of the directory `a` for the entries from `i` on. -/
def PageOwners.tablesFrom (o : PageOwners) (a i : ℕ) : List ℕ :=
  (o.tables.filter fun t => t.2.1 = a ∧ i ≤ t.2.2).map fun t => t.1

/-- The directory `a` and its tables from entry `i` on are held, those before are freed. -/
def PageOwners.retire (o : PageOwners) (a i : ℕ) : PageOwners where
  spaces := o.spaces.erase a
  tables := o.tables.filter fun t => t.2.1 ≠ a
  held := a :: (o.tablesFrom a i ++ o.held)

theorem PageOwners.mem_tablesFrom {o : PageOwners} {a i q : ℕ} :
    q ∈ o.tablesFrom a i ↔ ∃ j, i ≤ j ∧ (q, a, j) ∈ o.tables := by
  unfold tablesFrom
  rw [List.mem_map]
  constructor
  · rintro ⟨⟨q', a', j⟩, hmem, rfl⟩
    obtain ⟨hmem', hp⟩ := List.mem_filter.mp hmem
    obtain ⟨rfl, hij⟩ := of_decide_eq_true hp
    exact ⟨j, hij, hmem'⟩
  · rintro ⟨j, hij, hmem⟩
    exact ⟨(q, a, j), List.mem_filter.mpr ⟨hmem, decide_eq_true ⟨rfl, hij⟩⟩, rfl⟩

namespace Kept

variable {k : KernelImage} {o : PageOwners} {s : Paging} {a q : ℕ}

/-- The account loses pages that are not freed, or changes their order. -/
theorem of_sublist (h : Kept k o s) {o' : PageOwners} (hnodup : o'.owned.Nodup)
    (howned : ∀ f ∈ o'.owned, f ∈ o.owned) (hspaces : ∀ a ∈ o'.spaces, a ∈ o.spaces)
    (htables : ∀ q a i, (q, a, i) ∈ o'.tables ↔ (q, a, i) ∈ o.tables ∧ a ∈ o'.spaces) :
    Kept k o' s := by
  refine h.of_linked ?_ (fun q a i => (htables q a i).mp) fun _ _ _ => rfl
  refine ⟨h.kernelDir, h.total_le, h.kernelUsed, fun f hf => h.owned_used f (howned f hf), hnodup,
    fun a ha => h.shared a (hspaces a ha), fun a ha i hi => ?_⟩
  rcases h.own a (hspaces a ha) i hi with hzero | hlink | ⟨q, hq, hlink⟩
  · exact Or.inl hzero
  · exact Or.inr (Or.inl hlink)
  · exact Or.inr (Or.inr ⟨q, (htables q a i).mpr ⟨hq, ha⟩, hlink⟩)

theorem owned_retire (ha : a ∈ o.spaces) : o.owned.Perm (o.retire a 0).owned := by
  have hspaces := List.perm_cons_erase ha
  have hfilter : ∀ t : ℕ × ℕ × ℕ, (decide (t.2.1 = a ∧ 0 ≤ t.2.2)) = !decide (t.2.1 ≠ a) := by
    intro t
    by_cases ht : t.2.1 = a <;> simp [ht]
  have htables : (o.tables.map fun t => t.1).Perm
      (((o.tables.filter fun t => t.2.1 ≠ a).map fun t => t.1) ++ o.tablesFrom a 0) := by
    unfold PageOwners.tablesFrom
    simp only [hfilter]
    rw [← List.map_append]
    exact (List.filter_append_perm _ _).symm.map _
  refine List.perm_iff_count.mpr fun f => ?_
  have h₁ := hspaces.count_eq f
  have h₂ := htables.count_eq f
  rw [List.count_append] at h₂
  rw [List.count_cons] at h₁
  unfold PageOwners.owned PageOwners.retire
  dsimp only
  simp only [List.count_append, List.count_cons]
  omega

theorem spaces_nodup (h : Kept k o s) : o.spaces.Nodup :=
  (List.nodup_append.mp (List.nodup_append.mp h.nodup).1).1

theorem tables_nodup (h : Kept k o s) : (o.tables.map fun t => t.1).Nodup :=
  (List.nodup_append.mp (List.nodup_append.mp h.nodup).1).2.1

/-- An entry has one table. -/
theorem table_unique (h : Kept k o s) {q q' i : ℕ} (hq : (q, a, i) ∈ o.tables)
    (hq' : (q', a, i) ∈ o.tables) : q' = q := by
  have hlt := h.lt_of_owned (PageOwners.mem_owned_of_table hq)
  have hlt' := h.lt_of_owned (PageOwners.mem_owned_of_table hq')
  rw [← frameOf_tableLink hlt, ← frameOf_tableLink hlt', ← (h.tables_of q a i hq).2.2,
    (h.tables_of q' a i hq').2.2]

/-- A table belongs to one entry. -/
theorem entry_unique (h : Kept k o s) {q a' i i' : ℕ} (hq : (q, a, i) ∈ o.tables)
    (hq' : (q, a', i') ∈ o.tables) : a' = a ∧ i' = i := by
  have heq := List.inj_on_of_nodup_map h.tables_nodup hq hq' rfl
  cases heq
  exact ⟨rfl, rfl⟩

/-- The directory is taken out of the account, and with its tables held to be freed. -/
theorem retire (h : Kept k o s) (ha : a ∈ o.spaces) : Kept k (o.retire a 0) s := by
  have hne : ∀ a' ∈ o.spaces.erase a, a' ≠ a := fun a' ha' => (h.spaces_nodup.mem_erase_iff.mp ha').1
  refine h.of_sublist ((owned_retire ha).nodup_iff.mp h.nodup)
    (fun f hf => (owned_retire ha).mem_iff.mpr hf) (fun a' ha' => List.mem_of_mem_erase ha')
    fun q a' i => ?_
  constructor
  · intro hq
    obtain ⟨hq, hp⟩ := List.mem_filter.mp hq
    have hne' : a' ≠ a := of_decide_eq_true hp
    exact ⟨hq, (List.mem_erase_of_ne hne').mpr (h.tables_of q a' i hq).1⟩
  · rintro ⟨hq, ha'⟩
    exact List.mem_filter.mpr ⟨hq, decide_eq_true (hne a' ha')⟩

/-- An entry without a table of its own. -/
theorem tablesFrom_of_none {i : ℕ} (hnone : ∀ q, (q, a, i) ∉ o.tables) :
    o.tablesFrom a i = o.tablesFrom a (i + 1) := by
  unfold PageOwners.tablesFrom
  congr 1
  apply List.filter_congr
  rintro ⟨q, a', j⟩ hmem
  refine decide_eq_decide.mpr ⟨?_, fun hp => ⟨hp.1, Nat.le_of_succ_le hp.2⟩⟩
  rintro ⟨rfl, hij⟩
  refine ⟨rfl, lt_of_le_of_ne hij ?_⟩
  rintro rfl
  exact hnone q hmem

/-- An entry with a table of its own. -/
theorem tablesFrom_of_table (h : Kept k o s) {i : ℕ} (hq : (q, a, i) ∈ o.tables) :
    (o.tablesFrom a i).Perm (q :: o.tablesFrom a (i + 1)) := by
  have hnodup : ∀ j, (o.tablesFrom a j).Nodup := fun j =>
    h.tables_nodup.sublist (List.filter_sublist.map _)
  have hnot : q ∉ o.tablesFrom a (i + 1) := fun hmem => by
    obtain ⟨j, hij, hq'⟩ := PageOwners.mem_tablesFrom.mp hmem
    have := (h.entry_unique hq hq').2
    omega
  refine (List.perm_ext_iff_of_nodup (hnodup i) (List.nodup_cons.mpr ⟨hnot, hnodup _⟩)).mpr ?_
  intro f
  rw [List.mem_cons, PageOwners.mem_tablesFrom, PageOwners.mem_tablesFrom]
  constructor
  · rintro ⟨j, hij, hf⟩
    rcases Nat.eq_or_lt_of_le hij with rfl | hlt
    · exact Or.inl (h.table_unique hq hf)
    · exact Or.inr ⟨j, hlt, hf⟩
  · rintro (rfl | ⟨j, hij, hf⟩)
    · exact ⟨i, le_refl i, hq⟩
    · exact ⟨j, Nat.le_of_succ_le hij, hf⟩

/-- What `paging_destroy_address_space` does with entry `i`. -/
theorem destroy_entry (h : Kept k o s) (ha : a ∈ o.spaces) {s' : Paging} {i : ℕ} (hi : i < 1024)
    (hmem : s'.mem = s.mem) (h' : Kept k (o.retire a i) s') :
    ∀ s'', s'' = (if hasFlag (s'.mem a i) pagePresent = true ∧
        frameOf (s'.mem a i) ≠ frameOf (s'.mem k.pageDirectory i) then
      { s' with pmm := s'.pmm.pmmFreePage (frameOf (s'.mem a i) * 4096) } else s') →
    s''.mem = s.mem ∧ s''.pmm.totalPages = s'.pmm.totalPages ∧ Kept k (o.retire a (i + 1)) s'' ∧
      ∀ f, f ≠ 0 → s''.pmm.bitmap.test f =
        (!decide ((f, a, i) ∈ o.tables) && s'.pmm.bitmap.test f) := by
  intro s'' hs''
  have htables := k.tables_lt_pow
  have hge := k.tables_ge
  have hentry : s'.mem a i = s.mem a i := by rw [hmem]
  have hkernel : frameOf (s'.mem k.pageDirectory i) = k.pageTables + i := by
    rw [hmem, h.kernelDir i hi, frameOf_tableLink (by omega)]
  rw [hentry, hkernel] at hs''
  -- where there is no table to be freed
  have hnone : (∀ q, (q, a, i) ∉ o.tables) → s'' = s' →
      s''.mem = s.mem ∧ s''.pmm.totalPages = s'.pmm.totalPages ∧ Kept k (o.retire a (i + 1)) s'' ∧
      ∀ f, f ≠ 0 → s''.pmm.bitmap.test f =
        (!decide ((f, a, i) ∈ o.tables) && s'.pmm.bitmap.test f) := by
    intro hno he
    subst he
    refine ⟨hmem, rfl, ?_, fun f _ => ?_⟩
    · unfold PageOwners.retire at h' ⊢
      rwa [← tablesFrom_of_none hno]
    · rw [decide_eq_false (hno f)]
      rfl
  by_cases hpriv : Private i
  · rcases h.own a ha i hpriv with hzero | hlink | ⟨q, hq, hlink⟩
    · refine hnone (fun q hq => tableLink_ne_zero q ((h.tables_of q a i hq).2.2.symm.trans hzero)) ?_
      rw [hzero, if_neg fun hh => by cases hh.1] at hs''
      exact hs''
    · -- page 0 was the table
      have hno : ∀ q, (q, a, i) ∉ o.tables := fun q hq => by
        have hown := PageOwners.mem_owned_of_table hq
        have heq := congrArg frameOf ((h.tables_of q a i hq).2.2.symm.trans hlink)
        rw [frameOf_tableLink (h.lt_of_owned hown), frameOf_tableLink (by norm_num)] at heq
        exact h.ne_zero hown heq
      rw [hlink, frameOf_tableLink (by norm_num), if_pos ⟨hasFlag_tableLink 0, by omega⟩,
        Nat.zero_mul] at hs''
      subst hs''
      have hfree := h'.free_zero
      refine ⟨hmem, ?_, ?_, fun f hf => ?_⟩
      · show (s'.pmm.pmmFreePage 0).totalPages = _
        unfold Pmm.pmmFreePage
        split_ifs <;> rfl
      · unfold PageOwners.retire at hfree ⊢
        rwa [← tablesFrom_of_none hno]
      · rw [decide_eq_false (hno f)]
        show (s'.pmm.pmmFreePage 0).bitmap.test f = _
        unfold Pmm.pmmFreePage
        split_ifs
        · rw [Pmm.test_unmark, decide_eq_false (by simpa using hf)]
        · rfl
    · have hown := PageOwners.mem_owned_of_table hq
      have hperm := h.tablesFrom_of_table hq
      have hheld : q ∈ (o.retire a i).held := by
        refine List.mem_cons_of_mem _ (List.mem_append_left _ ?_)
        exact hperm.mem_iff.mpr List.mem_cons_self
      rw [hlink, frameOf_tableLink (h.lt_of_owned hown), if_pos ⟨hasFlag_tableLink q, fun he =>
        h.not_kernelTable hown (by omega)⟩] at hs''
      subst hs''
      have howned : (o.retire a i).owned.Perm (q :: (o.retire a (i + 1)).owned) := by
        refine List.perm_iff_count.mpr fun f => ?_
        have hcount := hperm.count_eq f
        rw [List.count_cons] at hcount
        unfold PageOwners.owned PageOwners.retire
        dsimp only
        simp only [List.count_append, List.count_cons]
        omega
      refine ⟨hmem, ?_, ?_, fun f _ => ?_⟩
      · show (s'.pmm.pmmFreePage (q * 4096)).totalPages = _
        rw [h'.pmmFreePage_eq (PageOwners.mem_owned_of_held hheld)]
        rfl
      · have hlinked := @Linked.free k (o.retire a i) s' h'.toLinked q (o.retire a (i + 1))
          (PageOwners.mem_owned_of_held hheld) howned (fun _ hb => hb) fun _ _ _ _ ht => ht
        exact h'.of_linked hlinked (fun t b j ht => ⟨ht, (h'.tables_of t b j ht).1⟩) fun _ _ _ => rfl
      · show (s'.pmm.pmmFreePage (q * 4096)).bitmap.test f = _
        rw [h'.test_free (PageOwners.mem_owned_of_held hheld)]
        have hiff : f = q ↔ (f, a, i) ∈ o.tables :=
          ⟨fun he => he ▸ hq, fun hf => h.table_unique hq hf⟩
        rw [decide_eq_decide.mpr hiff]
  · refine hnone (fun q hq => hpriv (h.tables_of q a i hq).2.1) ?_
    rw [h.shared a ha i hi hpriv, frameOf_tableLink (by omega), if_neg fun hh => hh.2 rfl] at hs''
    exact hs''

/-- The loop of `paging_destroy_address_space` frees the tables of the directory. -/
theorem destroyLoop (h : Kept k o s) (ha : a ∈ o.spaces) {n i : ℕ} (hn : i + n = 1024) {s' : Paging}
    (hmem : s'.mem = s.mem) (h' : Kept k (o.retire a i) s') :
    (Paging.destroyLoop k (a * 4096) s' i n).mem = s.mem ∧
    (Paging.destroyLoop k (a * 4096) s' i n).pmm.totalPages = s'.pmm.totalPages ∧
    Kept k (o.retire a 1024) (Paging.destroyLoop k (a * 4096) s' i n) ∧
    ∀ f, f ≠ 0 → (Paging.destroyLoop k (a * 4096) s' i n).pmm.bitmap.test f =
      (!decide (f ∈ o.tablesFrom a i) && s'.pmm.bitmap.test f) := by
  induction n generalizing i s' with
  | zero =>
    have hi : i = 1024 := hn
    subst hi
    refine ⟨hmem, rfl, h', fun f _ => ?_⟩
    have hnot : f ∉ o.tablesFrom a 1024 := fun hf => by
      obtain ⟨j, hj, hq⟩ := PageOwners.mem_tablesFrom.mp hf
      have := (h.tables_of f a j hq).2.1.2
      omega
    rw [decide_eq_false hnot]
    rfl
  | succ n ih =>
    obtain ⟨hmem', htotal, hkept, htest⟩ := h.destroy_entry ha (by omega) hmem h' _ rfl
    obtain ⟨h₁, h₂, h₃, h₄⟩ := ih (i := i + 1) (by omega) hmem' hkept
    unfold Paging.destroyLoop
    dsimp only
    rw [Nat.mul_div_cancel a (by norm_num)]
    refine ⟨h₁, h₂.trans htotal, h₃, fun f hf => (h₄ f hf).trans ?_⟩
    rw [htest f hf, ← Bool.and_assoc, ← Bool.not_or, ← Bool.decide_or]
    congr 2
    apply decide_eq_decide.mpr
    rw [PageOwners.mem_tablesFrom, PageOwners.mem_tablesFrom]
    constructor
    · rintro (⟨j, hj, hq⟩ | hq)
      · exact ⟨j, by omega, hq⟩
      · exact ⟨i, le_refl i, hq⟩
    · rintro ⟨j, hj, hq⟩
      rcases Nat.eq_or_lt_of_le hj with rfl | hlt
      · exact Or.inr hq
      · exact Or.inl ⟨j, hlt, hq⟩

/-- The directory itself, after the tables. -/
theorem destroy_dir (h : Kept k o s) {s₁ s₂ : Paging} (hs₂ : s₂ = ⟨s₁.mem, s₁.pmm.pmmFreePage (a * 4096)⟩)
    (hmem : s₁.mem = s.mem) (htotal : s₁.pmm.totalPages = s.pmm.totalPages)
    (hkept : Kept k (o.retire a 1024) s₁)
    (htest : ∀ f, f ≠ 0 → s₁.pmm.bitmap.test f =
      (!decide (f ∈ o.tablesFrom a 0) && s.pmm.bitmap.test f)) :
    s₂.mem = s.mem ∧ s₂.pmm.totalPages = s.pmm.totalPages ∧ Kept k (o.dropSpace a) s₂ ∧
    ∀ f, f ≠ 0 → s₂.pmm.bitmap.test f =
      (!decide (f ∈ a :: o.tablesFrom a 0) && s.pmm.bitmap.test f) := by
  have hheld : a ∈ (o.retire a 1024).owned :=
    PageOwners.mem_owned_of_held List.mem_cons_self
  have hempty : o.tablesFrom a 1024 = [] := by
    apply List.eq_nil_iff_forall_not_mem.mpr
    intro f hf
    obtain ⟨j, hj, hq⟩ := PageOwners.mem_tablesFrom.mp hf
    have := (h.tables_of f a j hq).2.1.2
    omega
  have howned : (o.retire a 1024).owned.Perm (a :: (o.dropSpace a).owned) := by
    unfold PageOwners.retire PageOwners.dropSpace PageOwners.owned
    dsimp only
    rw [hempty]
    exact List.perm_middle
  subst hs₂
  refine ⟨hmem, ?_, ?_, fun f hf => ?_⟩
  · rw [hkept.pmmFreePage_eq hheld, Pmm.unmark_totalPages, htotal]
  · have hlinked := @Linked.free k (o.retire a 1024) s₁ hkept.toLinked a (o.dropSpace a) hheld howned
      (fun _ hb => hb) fun _ _ _ _ ht => ht
    exact hkept.of_linked hlinked (fun t b j ht => ⟨ht, (hkept.tables_of t b j ht).1⟩)
      fun _ _ _ => rfl
  · rw [hkept.test_free hheld, htest f hf, ← Bool.and_assoc, ← Bool.not_or, ← Bool.decide_or]
    simp only [List.mem_cons]

theorem destroyAddressSpace_of_not {pd : ℕ}
    (h : ¬ (pd = 0 ∨ pd = k.pageDirectory * 4096)) :
    s.pagingDestroyAddressSpace k pd = ⟨(Paging.destroyLoop k pd s 0 1024).mem,
      (Paging.destroyLoop k pd s 0 1024).pmm.pmmFreePage pd⟩ := if_neg h

/-- **`paging_destroy_address_space`** frees the directory and its tables and nothing else but,
perhaps, page 0. -/
theorem destroy (h : Kept k o s) (ha : a ∈ o.spaces) :
    (s.pagingDestroyAddressSpace k (a * 4096)).mem = s.mem ∧
    (s.pagingDestroyAddressSpace k (a * 4096)).pmm.totalPages = s.pmm.totalPages ∧
    Kept k (o.dropSpace a) (s.pagingDestroyAddressSpace k (a * 4096)) ∧
    ∀ f, f ≠ 0 → (s.pagingDestroyAddressSpace k (a * 4096)).pmm.bitmap.test f =
      (!decide (f ∈ a :: o.tablesFrom a 0) && s.pmm.bitmap.test f) := by
  have hown := PageOwners.mem_owned_of_space ha
  have hnot : ¬ (a * 4096 = 0 ∨ a * 4096 = k.pageDirectory * 4096) := by
    rintro (he | he)
    · exact h.ne_zero hown (by omega)
    · exact h.ne_dir hown (Nat.eq_of_mul_eq_mul_right (by norm_num) he)
  obtain ⟨h₁, h₂, h₃, h₄⟩ :=
    @destroyLoop k o s a h ha 1024 0 (Nat.zero_add 1024) s rfl (h.retire ha)
  exact h.destroy_dir (destroyAddressSpace_of_not hnot) h₁ h₂ h₃ h₄

end Kept

end Microkernel
