/-
# What address spaces share

Two consequences of the shared tables.  A page mapped at or above `USER_BASE` in one
address space is mapped in all of them and in the kernel's, so the others keep their
translations only if they had this one already.  And ring 3 reaches every page of the RAM
that `paging_init` mapped, since the kernel's entries have `PAGE_USER`.
-/
import Microkernel.PagingRuns

namespace Microkernel

/-! ## Walks -/

/-- What a present entry of a shared table gives. -/
def entryTranslation (e : BitVec 32) : Option Translation :=
  if hasFlag e pagePresent then some ⟨frameOf e, hasFlag e pageWrite, hasFlag e pageUser⟩ else none

/-- A walk through a link to a table depends on the entry of the table. -/
theorem walk_of_tableLink {m : PageMemory} {pd v q : ℕ} (hq : q < 2 ^ 20)
    (hlink : m pd (v / 1024) = tableLink q) : walk m pd v = entryTranslation (m q (v % 1024)) := by
  unfold walk entryTranslation
  simp only [hlink, frameOf_tableLink hq, hasFlag_present, hasFlag_write, hasFlag_user,
    tableLink_flag (show 0 < 3 by norm_num), tableLink_flag (show 1 < 3 by norm_num),
    tableLink_flag (show 2 < 3 by norm_num), Bool.true_and, true_and]

theorem walk_of_zero {m : PageMemory} {pd v : ℕ} (hzero : m pd (v / 1024) = 0) :
    walk m pd v = none := by
  unfold walk
  simp only [hzero]
  rw [if_neg]
  rintro ⟨h, _⟩
  cases h

namespace Paging

/-- The flags of a user page say that it is there and that ring 3 may use it. -/
theorem finalFlags_getLsbD (virt flags : BitVec 32) :
    (finalFlags virt flags).getLsbD 0 = true ∧ (finalFlags virt flags).getLsbD 2 = true ∧
      (finalFlags virt flags).getLsbD 1 = flags.getLsbD 1 := by
  unfold finalFlags
  simp only
  split_ifs
  · simp [pagePresent, pageUser]
  · simp [pagePresent, pageUser]

theorem entryTranslation_userEntry (virt phys flags : BitVec 32) :
    entryTranslation (userEntry virt phys flags) =
      some ⟨frameOf phys, hasFlag flags pageWrite, true⟩ := by
  obtain ⟨h₀, h₂, h₁⟩ := finalFlags_getLsbD virt flags
  unfold entryTranslation userEntry
  rw [frameOf_entry, hasFlag_present, hasFlag_write, hasFlag_user, hasFlag_write,
    getLsbD_entry (by norm_num), getLsbD_entry (by norm_num), getLsbD_entry (by norm_num), h₀, h₁, h₂,
    if_pos rfl]

end Paging

/-! ## Cross-process isolation -/

/-- The arguments of a call of `paging_map_user`. -/
structure UserCall where
  virt : BitVec 32
  phys : BitVec 32
  flags : BitVec 32

/-- `USER_BASE`. -/
def userBase : BitVec 32 := 0xC0000000#32

/-- The last call for a virtual page. -/
def lastCall (v : ℕ) : List UserCall → Option UserCall
  | [] => none
  | u :: us => (lastCall v us).or (if pageOf u.virt = v then some u else none)

theorem lastCall_concat (v : ℕ) (us : List UserCall) (u : UserCall) :
    lastCall v (us ++ [u]) = if pageOf u.virt = v then some u else lastCall v us := by
  induction us with
  | nil =>
    show (none : Option UserCall).or _ = _
    rw [Option.none_or]
    rfl
  | cons u' us ih =>
    show (lastCall v (us ++ [u])).or _ = _
    rw [ih]
    by_cases hu : pageOf u.virt = v
    · rw [if_pos hu, if_pos hu]
      rfl
    · rw [if_neg hu, if_neg hu]
      rfl

/-- The virtual pages of the two windows. -/
def IsWindowPage (v : ℕ) : Prop := v = 0x3FE00 ∨ v = 0x3FE01

instance (v : ℕ) : Decidable (IsWindowPage v) := by
  unfold IsWindowPage
  infer_instance

theorem isWindow_iff {k : KernelImage} {v : ℕ} :
    Paging.IsWindow k (k.pageTables + v / 1024) (v % 1024) ↔ IsWindowPage v := by
  unfold Paging.IsWindow Paging.windowTable IsWindowPage
  omega

/-- The word of a kernel table that belongs to the address. -/
theorem table_word_iff {k : KernelImage} {v : ℕ} (virt : BitVec 32) :
    (k.pageTables + v / 1024 = k.pageTables + pdIdx virt ∧ v % 1024 = ptIdx virt) ↔
      pageOf virt = v := by
  rw [pdIdx_eq, ptIdx_eq]
  unfold pageOf
  omega

namespace AddressSpaces

variable {k : KernelImage} {c : AddressSpaces}

/-- The calls on one directory, in order. -/
def mapAll (k : KernelImage) (c : AddressSpaces) (a : ℕ) (us : List UserCall) : AddressSpaces :=
  us.foldl (fun c u => c.mapUser k a u.virt u.phys u.flags) c

theorem mapAll_concat (a : ℕ) (us : List UserCall) (u : UserCall) :
    mapAll k c a (us ++ [u]) = (mapAll k c a us).mapUser k a u.virt u.phys u.flags := by
  unfold mapAll
  rw [List.foldl_append]
  rfl

theorem mapAll_spaces (a : ℕ) (us : List UserCall) : (mapAll k c a us).spaces = c.spaces := by
  induction us generalizing c with
  | nil => rfl
  | cons u us ih => exact ih

theorem Inv.after_mapAll (h : Inv k c) {a : ℕ} (ha : a ∈ c.spaces) (us : List UserCall) :
    Inv k (mapAll k c a us) := by
  induction us generalizing c with
  | nil => exact h
  | cons u us ih => exact ih (h.mapUser ha u.virt u.phys u.flags) ha

/-- A call for a shared entry writes in the kernel's table and nowhere else, the windows
apart. -/
theorem Inv.mem_mapUser_of_shared (h : Inv k c) {a : ℕ} (ha : a ∈ c.spaces)
    (virt phys flags : BitVec 32) (hshared : ¬ Private (pdIdx virt)) (f i : ℕ) :
    (c.mapUser k a virt phys flags).paging.mem f i =
      if Paging.IsWindow k f i then 0
      else if f = k.pageTables + pdIdx virt ∧ i = ptIdx virt then Paging.userEntry virt phys flags
      else c.paging.mem f i := by
  obtain ⟨q, new, hq, _, _, hmem⟩ := h.mem_mapUser ha virt phys flags
  have hidx := pdIdx_lt virt
  cases hq with
  | shared _ =>
    rw [hmem]
    congr 2
    by_cases hfa : f = a ∧ i = pdIdx virt
    · rw [if_pos hfa]
      obtain ⟨rfl, rfl⟩ := hfa
      exact (h.shared f ha _ hidx hshared).symm
    · rw [if_neg hfa]
      exact if_neg fun hh => Bool.false_ne_true hh.1
  | own _ hp => exact absurd hp hshared
  | noPage hp => exact absurd hp hshared
  | fresh _ hp => exact absurd hp hshared

theorem pdIdx_of_userBase {virt : BitVec 32} (h : userBase ≤ virt) : ¬ Private (pdIdx virt) := by
  have hle : (0xC0000000 : ℕ) ≤ virt.toNat := h
  have := virt.isLt
  unfold Private
  rw [pdIdx_eq]
  omega

/-- The words after any calls at or above `USER_BASE`. -/
theorem Inv.mem_mapAll (h : Inv k c) {a : ℕ} (ha : a ∈ c.spaces) {us : List UserCall}
    (hus : ∀ u ∈ us, userBase ≤ u.virt) :
    (∀ v, (mapAll k c a us).paging.mem (k.pageTables + v / 1024) (v % 1024) =
      if us ≠ [] ∧ IsWindowPage v then 0
      else match lastCall v us with
        | some u => Paging.userEntry u.virt u.phys u.flags
        | none => c.paging.mem (k.pageTables + v / 1024) (v % 1024)) ∧
    ∀ f i, ¬ (k.pageTables ≤ f ∧ f < k.pageTables + 1024) →
      (mapAll k c a us).paging.mem f i = c.paging.mem f i := by
  induction us using List.reverseRecOn with
  | nil =>
    refine ⟨fun v => ?_, fun f i _ => rfl⟩
    rw [if_neg fun hh => hh.1 rfl]
    rfl
  | append_singleton us u ih =>
    obtain ⟨ih₁, ih₂⟩ := ih fun u hu => hus u (List.mem_append_left _ hu)
    have hu : userBase ≤ u.virt := hus u (List.mem_append_right _ List.mem_cons_self)
    have hinv := h.after_mapAll ha us
    have hidx := pdIdx_lt u.virt
    have hstep := hinv.mem_mapUser_of_shared (by rwa [mapAll_spaces]) u.virt u.phys u.flags
      (pdIdx_of_userBase hu)
    have hne : us ++ [u] ≠ [] := by simp
    refine ⟨fun v => ?_, fun f i hf => ?_⟩
    · rw [mapAll_concat, hstep, lastCall_concat]
      by_cases hwin : IsWindowPage v
      · rw [if_pos (isWindow_iff.mpr hwin), if_pos ⟨hne, hwin⟩]
      · have hnot : ∀ ws : List UserCall, ¬ (ws ≠ [] ∧ IsWindowPage v) := fun _ hh => hwin hh.2
        rw [if_neg fun hh => hwin (isWindow_iff.mp hh), if_neg (hnot _)]
        by_cases hv : pageOf u.virt = v
        · rw [if_pos ((table_word_iff u.virt).mpr hv), if_pos hv]
        · rw [if_neg fun hh => hv ((table_word_iff u.virt).mp hh), if_neg hv, ih₁, if_neg (hnot _)]
    · rw [mapAll_concat, hstep]
      have hwin : ¬ Paging.IsWindow k f i := fun hh => hf (by
        have := hh.1
        unfold Paging.windowTable at this
        omega)
      rw [if_neg hwin, if_neg fun hh => hf (by omega)]
      exact ih₂ f i hf

/-- A walk in the shared part goes through the kernel's table, from every directory. -/
theorem Inv.walk_shared (h : Inv k c) {v : ℕ} (hv : v < 2 ^ 20) :
    walk c.paging.mem k.pageDirectory v =
        entryTranslation (c.paging.mem (k.pageTables + v / 1024) (v % 1024)) ∧
      ∀ b ∈ c.spaces, ¬ Private (v / 1024) → walk c.paging.mem b v =
        entryTranslation (c.paging.mem (k.pageTables + v / 1024) (v % 1024)) := by
  have htables := k.tables_lt_pow
  have hi : v / 1024 < 1024 := by omega
  refine ⟨walk_of_tableLink (by omega) (h.kernelDir _ hi), fun b hb hpriv => ?_⟩
  exact walk_of_tableLink (by omega) (h.shared b hb _ hi hpriv)

/-- A walk in the part that is not shared goes through no kernel table. -/
theorem Inv.walk_private (h : Inv k c) {b v : ℕ} (hb : b ∈ c.spaces) (hpriv : Private (v / 1024))
    {m : PageMemory}
    (hm : ∀ f i, ¬ (k.pageTables ≤ f ∧ f < k.pageTables + 1024) → m f i = c.paging.mem f i) :
    walk m b v = walk c.paging.mem b v := by
  have hbt : ¬ (k.pageTables ≤ b ∧ b < k.pageTables + 1024) := fun hh =>
    h.not_isTable (Inv.mem_owned_of_space hb) (Or.inr hh)
  have hentry := hm b (v / 1024) hbt
  rcases h.own b hb _ hpriv with hzero | hlink | ⟨q, hq, hlink⟩
  · rw [walk_of_zero hzero, walk_of_zero (hentry.trans hzero)]
  · have hge := k.tables_ge
    rw [walk_of_tableLink (by norm_num) hlink, walk_of_tableLink (by norm_num) (hentry.trans hlink),
      hm 0 _ (by omega)]
  · have hown := Inv.mem_owned_of_table hq
    have hlt := h.lt_of_owned hown
    rw [walk_of_tableLink hlt hlink, walk_of_tableLink hlt (hentry.trans hlink),
      hm q _ fun hh => h.not_isTable hown (Or.inr hh)]

/-- **When calls in one address space leave the others alone.**  After any calls of
`paging_map_user` on `a` at or above `USER_BASE`, the translations of another address space
and of the kernel are what they were if and only if the windows were not mapped before and
every page was mapped before as the last call for it maps it. -/
theorem crossProcessIsolation {m : PageMemory} {pmmKb memKb : ℕ} {ops : List PagingOp}
    (hrun : Run (Step k) (init k m pmmKb memKb) ops c) {a b : ℕ} (ha : a ∈ c.spaces)
    (hb : b ∈ c.spaces) (us : List UserCall) (hus : ∀ u ∈ us, userBase ≤ u.virt) :
    (∀ v < 2 ^ 20, walk (mapAll k c a us).paging.mem b v = walk c.paging.mem b v ∧
      walk (mapAll k c a us).paging.mem k.pageDirectory v =
        walk c.paging.mem k.pageDirectory v) ↔
    (us ≠ [] → ∀ v, IsWindowPage v → walk c.paging.mem k.pageDirectory v = none) ∧
    ∀ v u, lastCall v us = some u → walk c.paging.mem k.pageDirectory v =
      some ⟨frameOf u.phys, hasFlag u.flags pageWrite, true⟩ := by
  have h := Inv.of_run hrun
  have h' := h.after_mapAll ha us
  obtain ⟨hword, hother⟩ := h.mem_mapAll ha hus
  have hb' : b ∈ (mapAll k c a us).spaces := by rwa [mapAll_spaces]
  have hlast : ∀ v u, lastCall v us = some u → v < 2 ^ 20 ∧ ¬ IsWindowPage v := by
    intro v u hu
    have hmem : u ∈ us ∧ pageOf u.virt = v := by
      clear hword hother hb' h'
      induction us with
      | nil => cases hu
      | cons u' us ih =>
        have hu' : (lastCall v us).or (if pageOf u'.virt = v then some u' else none) = some u := hu
        rcases Option.or_eq_some_iff.mp hu' with hl | ⟨_, hr⟩
        · obtain ⟨h₁, h₂⟩ := ih (fun u hu => hus u (List.mem_cons_of_mem _ hu)) hl
          exact ⟨List.mem_cons_of_mem _ h₁, h₂⟩
        · split_ifs at hr with hv
          cases hr
          exact ⟨List.mem_cons_self, hv⟩
    have hle : (0xC0000000 : ℕ) ≤ u.virt.toNat := hus u hmem.1
    have hlt := u.virt.isLt
    have hv : u.virt.toNat / 4096 = v := hmem.2
    unfold IsWindowPage
    omega
  constructor
  · intro hsame
    refine ⟨fun hne v hv => ?_, fun v u hu => ?_⟩
    · have hv' : v < 2 ^ 20 := by
        unfold IsWindowPage at hv
        omega
      rw [← (hsame v hv').2, (h'.walk_shared hv').1, hword v, if_pos ⟨hne, hv⟩]
      rfl
    · obtain ⟨hv, hwin⟩ := hlast v u hu
      rw [← (hsame v hv).2, (h'.walk_shared hv).1, hword v, if_neg fun hh => hwin hh.2, hu]
      exact Paging.entryTranslation_userEntry _ _ _
  · rintro ⟨hwin, hcalls⟩ v hv
    -- the entry of the kernel's table is translated as before
    have hentry : entryTranslation ((mapAll k c a us).paging.mem (k.pageTables + v / 1024)
        (v % 1024)) = entryTranslation (c.paging.mem (k.pageTables + v / 1024) (v % 1024)) := by
      have hbefore := (h.walk_shared hv).1
      rw [hword v]
      by_cases hw : us ≠ [] ∧ IsWindowPage v
      · rw [if_pos hw, ← hbefore, hwin hw.1 v hw.2]
        rfl
      · rw [if_neg hw]
        cases hu : lastCall v us with
        | none => rfl
        | some u =>
          rw [← hbefore, hcalls v u hu]
          exact Paging.entryTranslation_userEntry _ _ _
    refine ⟨?_, ?_⟩
    · by_cases hpriv : Private (v / 1024)
      · exact h.walk_private hb hpriv hother
      · rw [(h'.walk_shared hv).2 b hb' hpriv, (h.walk_shared hv).2 b hb hpriv, hentry]
    · rw [(h'.walk_shared hv).1, (h.walk_shared hv).1, hentry]

instance (op : PagingOp) : Decidable (c.Allowed k op) := by
  cases op <;> unfold Allowed KernelImage.IsTable <;> infer_instance

/-- A small kernel: the tables in the pages 256 to 1279 and the directory in page 1280. -/
def smallImage : KernelImage where
  addr := 1281 * 4096
  above := by norm_num
  below := by norm_num
  pageDirectory := 1280
  pageTables := 256
  dir_ge := by norm_num
  dir_lt := by norm_num
  tables_ge := by norm_num
  tables_lt := by norm_num
  apart := by norm_num
  low := by norm_num

/-- A page mapped again as it is changes nothing. -/
theorem crossProcessIsolation_mappedAgain : ∃ c,
    Run (Step smallImage) (init smallImage (fun _ _ => 0) 5200 5200)
      [.create, .create, .mapUser 1281 0xC0000000#32 0x514000#32 7#32] c ∧
    ∀ v < 2 ^ 20, walk (mapAll smallImage c 1281
        [⟨0xC0000000#32, 0x514000#32, 7#32⟩]).paging.mem 1282 v = walk c.paging.mem 1282 v ∧
      walk (mapAll smallImage c 1281 [⟨0xC0000000#32, 0x514000#32, 7#32⟩]).paging.mem 1280 v =
        walk c.paging.mem 1280 v := by
  obtain ⟨c, hrun, ha, hb, h₁, h₂, h₃⟩ : ∃ c,
      Run (Step smallImage) (init smallImage (fun _ _ => 0) 5200 5200)
        [.create, .create, .mapUser 1281 0xC0000000#32 0x514000#32 7#32] c ∧
      1281 ∈ c.spaces ∧ 1282 ∈ c.spaces ∧ walk c.paging.mem 1280 0x3FE00 = none ∧
      walk c.paging.mem 1280 0x3FE01 = none ∧
      walk c.paging.mem 1280 0xC0000 = some ⟨0x514, true, true⟩ :=
    Run.exists_of_follow_total (by decide +kernel)
  refine ⟨c, hrun, (crossProcessIsolation hrun ha hb [⟨0xC0000000#32, 0x514000#32, 7#32⟩] ?_).mpr
    ⟨fun _ v hv => ?_, fun v u hu => ?_⟩⟩
  · intro u hu
    rw [List.mem_singleton.mp hu]
    decide
  · rcases hv with rfl | rfl
    · exact h₁
    · exact h₂
  · have hu' : (if 0xC0000 = v then some (UserCall.mk 0xC0000000#32 0x514000#32 7#32) else none) =
        some u := hu
    split_ifs at hu' with hv
    cases hu'
    subst hv
    exact h₃

/-- A page mapped at `USER_BASE` in one address space appears in another one and in the
kernel's. -/
theorem mapping_seen_by_others : ∃ c,
    Run (Step smallImage) (init smallImage (fun _ _ => 0) 5200 5200) [.create, .create] c ∧
    c.spaces = [1282, 1281] ∧ walk c.paging.mem 1282 0xC0000 = none ∧
    walk c.paging.mem 1280 0xC0000 = none ∧
    walk (mapAll smallImage c 1281 [⟨0xC0000000#32, 0x514000#32, 7#32⟩]).paging.mem 1282 0xC0000 =
      some ⟨0x514, true, true⟩ ∧
    walk (mapAll smallImage c 1281 [⟨0xC0000000#32, 0x514000#32, 7#32⟩]).paging.mem 1280 0xC0000 =
      some ⟨0x514, true, true⟩ :=
  Run.exists_of_follow_total (by decide +kernel)

end AddressSpaces

end Microkernel
