/-
# What ring 3 can reach

The pages that ring 3 can access in an address space, over whole runs: those mapped for it
by `paging_map_user`, and in the part that is shared with the kernel every page of the
identity map and every page mapped for any other address space.  So only mapped pages are
accessible exactly when the address space has mapped all of these itself.
-/
import Microkernel.Isolation

namespace Microkernel

/-- Both flags that ring 3 needs. -/
def UserBits (e : BitVec 32) : Prop := hasFlag e pagePresent = true ∧ hasFlag e pageUser = true

theorem userBits_tableLink (q : ℕ) : UserBits (tableLink q) := by
  refine ⟨?_, ?_⟩
  · rw [hasFlag_present, tableLink_flag (by norm_num)]
  · rw [hasFlag_user, tableLink_flag (by norm_num)]

theorem not_userBits_zero : ¬ UserBits 0 := fun h => by cases h.1

theorem userBits_userEntry (virt phys flags : BitVec 32) :
    UserBits (Paging.userEntry virt phys flags) := by
  obtain ⟨h₀, h₂, _⟩ := Paging.finalFlags_getLsbD virt flags
  unfold Paging.userEntry
  refine ⟨?_, ?_⟩
  · rw [hasFlag_present, getLsbD_entry (by norm_num), h₀]
  · rw [hasFlag_user, getLsbD_entry (by norm_num), h₂]

/-- Through a link to a table, ring 3 gets where the entry of the table lets it. -/
theorem userAccess_of_tableLink {m : PageMemory} {pd v q : ℕ} (hq : q < 2 ^ 20)
    (hlink : m pd (v / 1024) = tableLink q) : UserAccess m pd v ↔ UserBits (m q (v % 1024)) := by
  unfold UserAccess UserBits
  rw [walk_of_tableLink hq hlink]
  unfold entryTranslation
  constructor
  · rintro ⟨t, ht, huser⟩
    split_ifs at ht with hp
    cases ht
    exact ⟨hp, huser⟩
  · rintro ⟨hp, hu⟩
    exact ⟨_, if_pos hp, hu⟩

namespace AddressSpaces

variable {k : KernelImage} {c : AddressSpaces}

/-- `paging_map_user` finds a page when it needs one for a table. -/
def HasPage (c : AddressSpaces) : PagingOp → Prop
  | .mapUser pd virt _ _ => c.Absent pd virt → c.paging.pmm.pmmAllocPage.2 ≠ 0
  | _ => True

instance (op : PagingOp) : Decidable (c.HasPage op) :=
  match op with
  | .mapUser pd virt _ _ =>
    inferInstanceAs (Decidable (c.Absent pd virt → c.paging.pmm.pmmAllocPage.2 ≠ 0))
  | .create | .allocPage | .freePage _ => inferInstanceAs (Decidable True)

def SafeStep (k : KernelImage) (c : AddressSpaces) (op : PagingOp) (c' : AddressSpaces) : Prop :=
  (c.Allowed k op ∧ c.HasPage op) ∧ c.exec k op = c'

/-- What the tables hold: in the shared part the identity map and the mapped pages, less the
windows once they were used; in the tables of an address space what was mapped for it. -/
structure Content (k : KernelImage) (ram : ℕ) (c : AddressSpaces) : Prop where
  inv : Inv k c
  shared : ∀ v, v < 2 ^ 20 → ¬ Private (v / 1024) →
    (UserBits (c.paging.mem (k.pageTables + v / 1024) (v % 1024)) ↔
      (c.calls = [] ∨ ¬ IsWindowPage v) ∧ (v < ram ∨ ∃ b, (b, v) ∈ c.calls))
  own : ∀ q a i, (q, a, i) ∈ c.tables → ∀ j, hasFlag (c.paging.mem q j) pagePresent = true →
    j < 1024 → (a, i * 1024 + j) ∈ c.calls
  linked : ∀ a ∈ c.spaces, ∀ i, Private i → c.paging.mem a i = 0 ∨
    ∃ q, (q, a, i) ∈ c.tables ∧ c.paging.mem a i = tableLink q

namespace Content

variable {ram : ℕ}

theorem init (k : KernelImage) (m : PageMemory) (pmmKb memKb : ℕ) :
    Content k (ramPages memKb) (AddressSpaces.init k m pmmKb memKb) := by
  refine ⟨Inv.init k m pmmKb memKb, fun v hv _ => ?_, fun q a i hq => ?_, fun a ha => ?_⟩
  · have hword : (AddressSpaces.init k m pmmKb memKb).paging.mem (k.pageTables + v / 1024)
        (v % 1024) = if v < ramPages memKb then tableLink v else 0 := by
      show pagingInit k m memKb (k.pageTables + v / 1024) (v % 1024) = _
      have hne := k.table_ne_dir (show v / 1024 < 1024 by omega)
      have hidx : (k.pageTables + v / 1024 - k.pageTables) * 1024 + v % 1024 = v := by omega
      unfold pagingInit
      rw [if_neg hne, if_pos (by omega), hidx]
      rfl
    have hnone : ¬ ∃ b, (b, v) ∈ (AddressSpaces.init k m pmmKb memKb).calls := by
      rintro ⟨b, hb⟩
      cases hb
    rw [hword]
    by_cases hram : v < ramPages memKb
    · rw [if_pos hram]
      exact ⟨fun _ => ⟨Or.inl rfl, Or.inl hram⟩, fun _ => userBits_tableLink v⟩
    · rw [if_neg hram]
      refine ⟨fun h => absurd h not_userBits_zero, fun h => ?_⟩
      rcases h.2 with h' | h'
      · exact absurd h' hram
      · exact absurd h' hnone
  · cases hq
  · cases ha

/-- Two entries for one table are the same entry. -/
theorem table_unique (h : Inv k c) {q a i a' i' : ℕ} (h₁ : (q, a, i) ∈ c.tables)
    (h₂ : (q, a', i') ∈ c.tables) : a = a' ∧ i = i' := by
  have hnodup : (c.tables.map fun t => t.1).Nodup :=
    (List.nodup_append.mp (List.nodup_append.mp h.nodup).1).2.1
  have heq := List.inj_on_of_nodup_map hnodup h₁ h₂ rfl
  cases heq
  exact ⟨rfl, rfl⟩

theorem mapUser (h : Content k ram c) {a : ℕ} (ha : a ∈ c.spaces) (virt phys flags : BitVec 32)
    (hpage : c.Absent a virt → c.paging.pmm.pmmAllocPage.2 ≠ 0) :
    Content k ram (c.mapUser k a virt phys flags) := by
  obtain ⟨q, new, hq, _, htab, hmem⟩ := h.inv.mem_mapUser ha virt phys flags
  obtain ⟨_, hspace⟩ := h.inv.mem_dir_mapUser ha virt phys flags hq hmem
  have hidx := pdIdx_lt virt
  have hcalls : (c.mapUser k a virt phys flags).calls = (a, pageOf virt) :: c.calls := rfl
  have hnotTable : ∀ f ∈ c.owned, ¬ (k.pageTables ≤ f ∧ f < k.pageTables + 1024) :=
    fun f hf hh => h.inv.not_isTable hf (Or.inr hh)
  -- the table of the call is a table of this address space, or a kernel table
  have hnoZero : q ≠ 0 := by
    cases hq with
    | shared _ =>
      have := k.tables_ge
      omega
    | own q hp _ hlink =>
      rcases h.linked a ha _ hp with hzero | ⟨q', hq', hlink'⟩
      · exact absurd (hlink.symm.trans hzero) (tableLink_ne_zero q)
      · have hframe := congrArg frameOf (hlink.symm.trans hlink')
        have hlt := h.inv.lt_of_owned (Inv.mem_owned_of_table hq')
        intro hq0
        subst hq0
        rw [frameOf_tableLink (by norm_num), frameOf_tableLink hlt] at hframe
        exact h.inv.ne_zero (Inv.mem_owned_of_table hq') hframe.symm
    | noPage _ hzero halloc =>
      have habs : c.Absent a virt := by
        unfold Absent
        rw [hzero]
        rfl
      exact absurd (by rw [halloc]) (hpage habs)
    | fresh _ _ _ _ hne => exact hne
  have hnew : Private (pdIdx virt) → (q, a, pdIdx virt) ∈ (c.mapUser k a virt phys flags).tables := by
    intro hp
    rw [htab]
    cases hq with
    | shared hnot => exact absurd hp hnot
    | own _ _ hq _ =>
      rw [if_neg fun hh => Bool.false_ne_true hh.1]
      exact hq.resolve_left hnoZero
    | noPage => exact absurd rfl hnoZero
    | fresh => rw [if_pos ⟨rfl, hnoZero⟩]; exact List.mem_cons_self
  have hinv' := h.inv.mapUser ha virt phys flags
  refine ⟨hinv', fun v hv hnot => ?_, fun q' a' i hq' j hj hlt => ?_, fun a' ha' i hi => ?_⟩
  · -- a word of a kernel table
    have htable : ∀ f, f ∈ c.owned ∨ f ∉ c.owned ∧ Pmm.firstPage k.toKernelEnd ≤ f →
        k.pageTables + v / 1024 ≠ f := by
      intro f hf heq
      have hist : k.IsTable f := Or.inr (by omega)
      rcases hf with hf | ⟨_, hf⟩
      · exact h.inv.not_isTable hf hist
      · have := hist.lt_firstPage
        omega
    rw [hmem, hcalls]
    by_cases hwin : IsWindowPage v
    · rw [if_pos (isWindow_iff.mpr hwin)]
      refine ⟨fun hh => absurd hh not_userBits_zero, fun hh => ?_⟩
      rcases hh.1 with hh | hh
      · cases hh
      · exact absurd hwin hh
    · rw [if_neg fun hh => hwin (isWindow_iff.mp hh)]
      have hna : k.pageTables + v / 1024 ≠ a := htable a (Or.inl (Inv.mem_owned_of_space ha))
      have hold : pageOf virt ≠ v → (UserBits (c.paging.mem (k.pageTables + v / 1024) (v % 1024)) ↔
          ((a, pageOf virt) :: c.calls = [] ∨ ¬ IsWindowPage v) ∧
            (v < ram ∨ ∃ b, (b, v) ∈ (a, pageOf virt) :: c.calls)) := by
        intro hne
        rw [h.shared v hv hnot]
        have hiff : (∃ b, (b, v) ∈ (a, pageOf virt) :: c.calls) ↔ ∃ b, (b, v) ∈ c.calls := by
          constructor
          · rintro ⟨b, hb⟩
            rcases List.mem_cons.mp hb with heq | hb
            · cases heq
              exact absurd rfl hne
            · exact ⟨b, hb⟩
          · rintro ⟨b, hb⟩
            exact ⟨b, List.mem_cons_of_mem _ hb⟩
        rw [hiff]
        simp [hwin]
      cases hq with
      | shared hns =>
        by_cases hpage : pageOf virt = v
        · rw [if_pos ((table_word_iff virt).mpr hpage)]
          refine ⟨fun _ => ⟨Or.inr hwin, Or.inr ⟨a, ?_⟩⟩, fun _ => userBits_userEntry _ _ _⟩
          rw [hpage]
          exact List.mem_cons_self
        · rw [if_neg fun hh => hpage ((table_word_iff virt).mp hh), if_neg fun hh => hna hh.1,
            if_neg fun hh => Bool.false_ne_true hh.1]
          exact hold hpage
      | own q hp hq _ =>
        have hqt := htable q (Or.inl (Inv.mem_owned_of_table (hq.resolve_left hnoZero)))
        rw [if_neg fun hh => hqt hh.1, if_neg fun hh => hna hh.1, if_neg fun hh => hqt hh.2]
        refine hold fun heq => hnot ?_
        rw [← heq]
        rw [pdIdx_eq] at hp
        exact hp
      | noPage => exact absurd rfl hnoZero
      | fresh q hp _ hfresh _ hfirst =>
        have hqt := htable q (Or.inr ⟨hfresh, hfirst⟩)
        rw [if_neg fun hh => hqt hh.1, if_neg fun hh => hna hh.1, if_neg fun hh => hqt hh.2]
        refine hold fun heq => hnot ?_
        rw [← heq]
        rw [pdIdx_eq] at hp
        exact hp
  · -- a word of a table of an address space
    have hq'own := Inv.mem_owned_of_table hq'
    have hnt : ¬ (k.pageTables ≤ q' ∧ q' < k.pageTables + 1024) := fun hh =>
      hinv'.not_isTable hq'own (Or.inr hh)
    have hnwin : ¬ Paging.IsWindow k q' j := fun hh => hnt (by
      have := hh.1
      unfold Paging.windowTable at this
      omega)
    have hna : q' ≠ a := hinv'.table_ne_space hq' ha
    rw [hmem, if_neg hnwin] at hj
    rw [hcalls]
    by_cases hqq : q' = q
    · subst hqq
      -- the table of the call belongs to the entry of the address
      have hpriv : Private (pdIdx virt) := by
        by_contra hnp
        cases hq with
        | shared _ => exact hnt (by omega)
        | own _ hp => exact hnp hp
        | noPage hp => exact hnp hp
        | fresh _ hp => exact hnp hp
      obtain ⟨rfl, rfl⟩ := table_unique hinv' hq' (hnew hpriv)
      by_cases hjp : j = ptIdx virt
      · refine List.mem_cons.mpr (Or.inl ?_)
        rw [hjp, pdIdx_eq, ptIdx_eq]
        unfold pageOf
        congr 1
        omega
      · rw [if_neg fun hh => hjp hh.2, if_neg fun hh => hna hh.1] at hj
        refine List.mem_cons_of_mem _ ?_
        cases hnewt : new with
        | true =>
          rw [if_pos ⟨hnewt, rfl⟩] at hj
          cases hj
        | false =>
          rw [if_neg fun hh => by rw [hnewt] at hh; cases hh.1] at hj
          rw [hnewt, if_neg fun hh => Bool.false_ne_true hh.1] at htab
          rw [htab] at hq'
          exact h.own q' _ _ hq' j hj hlt
    · rw [if_neg fun hh => hqq hh.1, if_neg fun hh => hna hh.1, if_neg fun hh => hqq hh.2] at hj
      refine List.mem_cons_of_mem _ (h.own q' a' i ?_ j hj hlt)
      rw [htab] at hq'
      split_ifs at hq' with hnewt
      · rcases List.mem_cons.mp hq' with heq | hq'
        · cases heq
          exact absurd rfl hqq
        · exact hq'
      · exact hq'
  · rw [hspace a' ha' i]
    by_cases heq : a' = a ∧ i = pdIdx virt
    · rw [if_pos heq]
      obtain ⟨rfl, rfl⟩ := heq
      exact Or.inr ⟨q, hnew hi, rfl⟩
    · rw [if_neg heq]
      rcases h.linked a' ha' i hi with hzero | ⟨q', hq', hlink⟩
      · exact Or.inl hzero
      · refine Or.inr ⟨q', ?_, hlink⟩
        rw [htab]
        split_ifs
        · exact List.mem_cons_of_mem _ hq'
        · exact hq'

/-- What an operation other than `paging_map_user` leaves alone. -/
theorem of_same {c' : AddressSpaces} (h : Content k ram c) (hinv : Inv k c')
    (htables : c'.tables = c.tables) (hcalls : c'.calls = c.calls)
    (hmem : ∀ f i, k.IsTable f ∨ f ∈ c.owned → c'.paging.mem f i = c.paging.mem f i)
    (hspaces : ∀ a ∈ c'.spaces, a ∉ c.spaces → ∀ i, Private i → c'.paging.mem a i = 0) :
    Content k ram c' := by
  refine ⟨hinv, fun v hv hnot => ?_, fun q a i hq j hj hlt => ?_, fun a ha i hi => ?_⟩
  · rw [hmem _ _ (Or.inl (Or.inr (by omega))), hcalls]
    exact h.shared v hv hnot
  · rw [htables] at hq
    rw [hmem q j (Or.inr (Inv.mem_owned_of_table hq))] at hj
    rw [hcalls]
    exact h.own q a i hq j hj hlt
  · by_cases hold : a ∈ c.spaces
    · rw [hmem a i (Or.inr (Inv.mem_owned_of_space hold)), htables]
      exact h.linked a hold i hi
    · exact Or.inl (hspaces a ha hold i hi)

theorem create (h : Content k ram c) : Content k ram (c.exec k .create) := by
  rcases h.inv.exec_create with hexec | ⟨q, _, hfirst, hfresh, _, hexec⟩
  · rw [hexec]
    exact h
  · have hinv := h.inv.create
    rw [hexec] at hinv ⊢
    refine h.of_same hinv rfl rfl (fun f i hf => ?_) fun a ha hnew i hi => ?_
    · refine if_neg fun hh => ?_
      obtain ⟨rfl, _⟩ := hh
      rcases hf with hf | hf
      · have := hf.lt_firstPage
        omega
      · exact hfresh hf
    · rcases List.mem_cons.mp ha with rfl | ha
      · have := hi.2
        exact (if_pos ⟨rfl, by omega⟩).trans (if_pos hi)
      · exact absurd ha hnew

theorem exec (h : Content k ram c) {op : PagingOp} (hop : c.Allowed k op) (hpage : c.HasPage op) :
    Content k ram (c.exec k op) := by
  cases op with
  | create => exact h.create
  | mapUser pd virt phys flags => exact h.mapUser hop.1 virt phys flags hpage
  | allocPage =>
    exact h.of_same h.inv.allocPage rfl rfl (fun f i _ => rfl) fun a ha hnew => absurd ha hnew
  | freePage f =>
    exact h.of_same (h.inv.freePage hop) rfl rfl (fun f i _ => rfl) fun a ha hnew => absurd ha hnew

end Content

/-- **What ring 3 can reach.**  As long as `paging_map_user` finds pages for its tables, every
page that ring 3 can access in an address space was mapped for that address space if and only
if it has itself mapped every page outside `0x40000000`–`0xBFFFFFFF` that is RAM or was mapped
for any address space; the two pages of the windows do not count once `paging_map_user` has
been called. -/
theorem supervisorOnly {m : PageMemory} {pmmKb memKb : ℕ} {ops : List PagingOp}
    (hrun : Run (SafeStep k) (init k m pmmKb memKb) ops c) {a : ℕ} (ha : a ∈ c.spaces) :
    (∀ v < 2 ^ 20, UserAccess c.paging.mem a v → (a, v) ∈ c.calls) ↔
    ∀ v < 2 ^ 20, ¬ Private (v / 1024) → c.calls = [] ∨ ¬ IsWindowPage v →
      v < ramPages memKb ∨ (∃ b, (b, v) ∈ c.calls) → (a, v) ∈ c.calls := by
  have h : Content k (ramPages memKb) c := by
    refine hrun.invariant (fun c op c' hstep hinv => ?_) (Content.init k m pmmKb memKb)
    rw [← hstep.2]
    exact hinv.exec hstep.1.1 hstep.1.2
  have htables := k.tables_lt_pow
  have hshared : ∀ v < 2 ^ 20, ¬ Private (v / 1024) → (UserAccess c.paging.mem a v ↔
      (c.calls = [] ∨ ¬ IsWindowPage v) ∧ (v < ramPages memKb ∨ ∃ b, (b, v) ∈ c.calls)) := by
    intro v hv hnot
    have hi : v / 1024 < 1024 := by omega
    rw [userAccess_of_tableLink (by omega) (h.inv.shared a ha _ hi hnot)]
    exact h.shared v hv hnot
  constructor
  · intro hall v hv hnot hwin hmapped
    exact hall v hv ((hshared v hv hnot).mpr ⟨hwin, hmapped⟩)
  · intro hcond v hv hacc
    by_cases hpriv : Private (v / 1024)
    · rcases h.linked a ha _ hpriv with hzero | ⟨q, hq, hlink⟩
      · obtain ⟨t, ht, _⟩ := hacc
        rw [walk_of_zero hzero] at ht
        cases ht
      · have hlt := h.inv.lt_of_owned (Inv.mem_owned_of_table hq)
        have hbits := (userAccess_of_tableLink hlt hlink).mp hacc
        have hcall := h.own q a _ hq _ hbits.1 (Nat.mod_lt v (by norm_num))
        rwa [show v / 1024 * 1024 + v % 1024 = v by omega] at hcall
    · obtain ⟨hwin, hmapped⟩ := (hshared v hv hpriv).mp hacc
      exact hcond v hv hpriv hwin hmapped

/-- With no RAM in the identity map and one address space, all that ring 3 can access was
mapped for it. -/
theorem supervisorOnly_noRam : ∃ c,
    Run (SafeStep smallImage) (init smallImage (fun _ _ => 0) 5200 0)
      [.create, .mapUser 1281 0x40000000#32 0x514000#32 7#32,
        .mapUser 1281 0xC0000000#32 0x515000#32 7#32] c ∧
    UserAccess c.paging.mem 1281 0x40000 ∧
    ∀ v < 2 ^ 20, UserAccess c.paging.mem 1281 v → (1281, v) ∈ c.calls := by
  obtain ⟨c, hrun, ha, hcalls, hwalk⟩ : ∃ c,
      Run (SafeStep smallImage) (init smallImage (fun _ _ => 0) 5200 0)
        [.create, .mapUser 1281 0x40000000#32 0x514000#32 7#32,
          .mapUser 1281 0xC0000000#32 0x515000#32 7#32] c ∧
      1281 ∈ c.spaces ∧ c.calls = [(1281, 0xC0000), (1281, 0x40000)] ∧
      walk c.paging.mem 1281 0x40000 = some ⟨0x514, true, true⟩ :=
    Run.exists_of_follow_total (by decide +kernel)
  refine ⟨c, hrun, ⟨_, hwalk, rfl⟩, (supervisorOnly hrun ha).mpr fun v hv _ _ hmapped => ?_⟩
  rcases hmapped with hram | ⟨b, hb⟩
  · exact absurd hram (Nat.not_lt_zero v)
  · rw [hcalls] at hb ⊢
    rcases List.mem_cons.mp hb with heq | hb
    · cases heq
      exact List.mem_cons_self
    · cases List.mem_singleton.mp hb
      exact List.mem_cons_of_mem _ List.mem_cons_self

/-- Ring 3 can access the kernel's page at 1 MB in an address space that has nothing mapped. -/
theorem kernel_page_accessible : ∃ c,
    Run (SafeStep smallImage) (init smallImage (fun _ _ => 0) 5200 5200) [.create] c ∧
    1281 ∈ c.spaces ∧ c.calls = [] ∧ walk c.paging.mem 1281 0x100 = some ⟨0x100, true, true⟩ :=
  Run.exists_of_follow_total (by decide +kernel)

end AddressSpaces

end Microkernel
