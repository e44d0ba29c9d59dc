/-
# The pages of processes and windows

The account of the pages along a load and while a frame buffer is mapped or given back, with
the entries of the kernel's tables that change.
-/
import Microkernel.Desktop
import Microkernel.KernelEntries

namespace Microkernel

open AddressSpaces (Private)

variable {k : KernelImage} {o : PageOwners} {s s' : Paging} {a : ℕ}

/-! ## One step of a load -/

/-- The entries of the kernel's tables that a step may change: the windows, and the entry of the
page that is mapped. -/
def LoadAct.Touches : LoadAct → ℕ → Prop
  | .segment _ va _, v => IsWindowPage v ∨ v = pageOf (BitVec.ofNat 32 va)
  | .stack va, v => v = 0x3FD00 ∨ IsWindowPage v ∨ v = pageOf (BitVec.ofNat 32 va)
  | .vga va _, v => IsWindowPage v ∨ v = pageOf (BitVec.ofNat 32 va)
  | .noPage, _ => False

/-- What a step leaves: a right account with the same directories and perhaps one page more that
is held, and the entries of the kernel's tables, but for some, as they were. -/
structure Advanced (k : KernelImage) (o : PageOwners) (s : Paging) (touched : ℕ → Prop)
    (o' : PageOwners) (s' : Paging) : Prop where
  kept : Kept k o' s'
  spaces : o'.spaces = o.spaces
  held : ∃ qs, o'.held = qs ++ o.held
  total : s'.pmm.totalPages = s.pmm.totalPages
  entries : ∀ v < 2 ^ 20, ¬ touched v → kernelEntry k s'.mem v = kernelEntry k s.mem v

theorem Advanced.trans {touched : ℕ → Prop} {o₁ o₂ : PageOwners} {s₁ s₂ : Paging}
    (h : Advanced k o s touched o₁ s₁) (h' : Advanced k o₁ s₁ touched o₂ s₂) :
    Advanced k o s touched o₂ s₂ where
  kept := h'.kept
  spaces := h'.spaces.trans h.spaces
  held := by
    obtain ⟨qs, hqs⟩ := h.held
    obtain ⟨qs', hqs'⟩ := h'.held
    exact ⟨qs' ++ qs, by rw [hqs', hqs, List.append_assoc]⟩
  total := h'.total.trans h.total
  entries := fun v hv ht => (h'.entries v hv ht).trans (h.entries v hv ht)

theorem Advanced.mono {touched touched' : ℕ → Prop} {o' : PageOwners}
    (h : Advanced k o s touched o' s') (hsub : ∀ v, touched v → touched' v) :
    Advanced k o s touched' o' s' :=
  ⟨h.kept, h.spaces, h.held, h.total, fun v hv ht => h.entries v hv fun ht' => ht (hsub v ht')⟩

/-- `paging_map_user`. -/
theorem advanced_mapUser (h : Kept k o s) (ha : a ∈ o.spaces) (virt phys flags : BitVec 32) :
    ∃ o', Advanced k o s (fun v => IsWindowPage v ∨ v = pageOf virt) o'
      (s.pagingMapUser k (a * 4096) virt phys flags) ∧ o'.held = o.held := by
  obtain ⟨q, new, hq, heq, hkept⟩ := h.mapUser ha virt phys flags
  have hspaces : (o.afterMap q a (pdIdx virt) new).spaces = o.spaces := by
    unfold PageOwners.afterMap
    split_ifs
    · exact PageOwners.addTable_spaces q a _
    · rfl
  have hheld : (o.afterMap q a (pdIdx virt) new).held = o.held := by
    unfold PageOwners.afterMap
    split_ifs
    · exact PageOwners.addTable_held q a _
    · rfl
  refine ⟨_, ⟨hkept, hspaces, ⟨[], hheld⟩, ?_, fun v hv ht => ?_⟩, hheld⟩
  · rw [heq]
    dsimp only
    split_ifs with hnew
    · rcases h.alloc with ⟨_, htotal, _⟩ | ⟨q, _, _, _, _, halloc, _⟩
      · exact htotal
      · rw [halloc]
        rfl
    · rfl
  · rw [heq, kernelEntry_mappedMem h ha hq phys flags hv, if_neg fun hw => ht (Or.inl hw),
      if_neg fun hh => ht (Or.inr hh.2.symm)]

/-- A page is taken and something is written in it. -/
theorem advanced_fill (h : Kept k o s) (hpage : s.pmm.pmmAllocPage.2 ≠ 0) (touched : ℕ → Prop)
    {m : PageMemory} (hm : ∀ f i, f ≠ s.pmm.pmmAllocPage.2 / 4096 → m f i = s.mem f i) :
    ∃ q, s.pmm.pmmAllocPage.2 = q * 4096 ∧ Pmm.firstPage k.toKernelEnd ≤ q ∧
      Advanced k o s touched (o.hold q) ⟨m, s.pmm.pmmAllocPage.1⟩ := by
  rcases h.alloc with ⟨hnull, _⟩ | ⟨q, _, hfirst, _, _, halloc, hkept⟩
  · exact absurd hnull hpage
  · rw [halloc] at hm ⊢
    dsimp only at hm ⊢
    rw [Nat.mul_div_cancel q (by norm_num)] at hm
    have hheld : q ∈ (o.hold q).held := List.mem_cons_self
    have hown := PageOwners.mem_owned_of_held hheld
    refine ⟨q, rfl, hfirst, hkept.of_page (hkept.ne_dir hown) (hkept.held_ne hheld).1
      hm, rfl, ⟨[q], rfl⟩, rfl, fun v hv _ => ?_⟩
    exact kernelEntry_of_page hv (hkept.not_kernelTable hown) hm

/-- A frame of the account is cleared through the window at `TEMP_MAP_VA`. -/
theorem advanced_clearFrame (h : Kept k o s) {q : ℕ} (hq : q ∈ o.held) :
    Advanced k o s (fun v => v = 0x3FD00) o (LoadAct.clearFrame k s (q * 4096)) := by
  have hown := PageOwners.mem_owned_of_held hq
  have hlt := h.lt_of_owned hown
  have htemp : pageOf tempMapVa = 0x3FD00 := by decide
  have hidx : pdIdx tempMapVa < 1024 := pdIdx_lt _
  -- the window shows the frame
  set s₁ := s.pagingMapPage k tempMapVa (BitVec.ofNat 32 (q * 4096)) (pagePresent ||| pageWrite)
    with hs₁
  have heq₁ : s₁ = s.store (k.pageTables + pdIdx tempMapVa) (ptIdx tempMapVa)
      (windowEntry (BitVec.ofNat 32 (q * 4096))) := Paging.pagingMapPage_eq h.kernelDir _ _ _
  have hk₁ : Kept k o s₁ := heq₁ ▸ h.store_kernel hidx _
  have hview : s₁.viewed k tempMapVa = q := by
    rw [Paging.viewed_eq hk₁.kernelDir, heq₁, Paging.store_same, frameOf_windowEntry,
      frameOf_ofNat hlt]
  have hm : ∀ f i, f ≠ q → s₁.mem.zeroPage q f i = s₁.mem f i := fun f i hf => if_neg hf
  have hk₂ : Kept k o ⟨s₁.mem.zeroPage q, s₁.pmm⟩ :=
    hk₁.of_page (hk₁.ne_dir hown) (hk₁.held_ne hq).1 hm
  have hclear : LoadAct.clearFrame k s (q * 4096) =
      Paging.pagingUnmapPage k ⟨s₁.mem.zeroPage q, s₁.pmm⟩ tempMapVa := by
    unfold LoadAct.clearFrame
    simp only [← hs₁, hview]
  rw [hclear]
  refine ⟨hk₂.store_kernel hidx 0, rfl, ⟨[], rfl⟩, ?_, fun v hv ht => ?_⟩
  · rw [heq₁]
    rfl
  · rw [kernelEntry_unmap, htemp, if_neg fun he => ht he.symm]
    rw [kernelEntry_of_page hv (hk₁.not_kernelTable hown) hm, hs₁, kernelEntry_map h.kernelDir, htemp,
      if_neg fun he => ht he.symm]

/-- **One step of a load.** -/
theorem advanced_loadStep (h : Kept k o s) (ha : a ∈ o.spaces) {act : LoadAct}
    (hstep : LoadAct.Step k (a * 4096) s act s') : ∃ o', Advanced k o s act.Touches o' s' := by
  obtain ⟨hcan, rfl⟩ := hstep
  cases act with
  | segment bytes va flags =>
    obtain ⟨q, haddr, _, hfill⟩ := advanced_fill h hcan (LoadAct.Touches (.segment bytes va flags))
      (m := s.mem.fillPage (s.pmm.pmmAllocPage.2 / 4096) bytes) fun f i hf => if_neg hf
    obtain ⟨o', hmap, _⟩ := advanced_mapUser hfill.kept ha (BitVec.ofNat 32 va)
      (BitVec.ofNat 32 s.pmm.pmmAllocPage.2) flags
    exact ⟨o', hfill.trans hmap⟩
  | stack va =>
    obtain ⟨q, haddr, _, hfill⟩ := advanced_fill h hcan (LoadAct.Touches (.stack va))
      (m := s.mem) fun f i _ => rfl
    have hclear := advanced_clearFrame hfill.kept (q := q) List.mem_cons_self
    rw [← haddr] at hclear
    obtain ⟨o', hmap, _⟩ := advanced_mapUser hclear.kept ha (BitVec.ofNat 32 va)
      (BitVec.ofNat 32 s.pmm.pmmAllocPage.2) (pagePresent ||| pageWrite ||| pageUser)
    exact ⟨o', (hfill.trans (hclear.mono fun v hv => Or.inl hv)).trans
      (hmap.mono fun v hv => Or.inr hv)⟩
  | vga va phys =>
    obtain ⟨o', hmap, _⟩ := advanced_mapUser h ha (BitVec.ofNat 32 va) (BitVec.ofNat 32 phys)
      (pagePresent ||| pageWrite ||| pageUser)
    exact ⟨o', hmap⟩
  | noPage =>
    have hnull : s.pmm.pmmAllocPage.2 = 0 := hcan
    rcases h.alloc with ⟨_, htotal, _, hkept⟩ | ⟨q, _, hfirst, _, _, halloc, _⟩
    · exact ⟨o, hkept, rfl, ⟨[], rfl⟩, htotal, fun _ _ _ => rfl⟩
    · have hpos := k.firstPage_pos
      rw [halloc] at hnull
      dsimp only at hnull
      omega

/-- **A part of a load** touches the windows and the pages it maps. -/
theorem advanced_steps {f : ElfFile} (h : Kept k o s) (ha : a ∈ o.spaces)
    (hsteps : Loader.Steps k f (a * 4096) s s') :
    ∃ o', Advanced k o s (fun v => ∃ act : LoadAct, act.Of f ∧ act.Touches v) o' s' := by
  obtain ⟨acts, hrun, hof⟩ := hsteps
  induction hrun generalizing o with
  | nil s => exact ⟨o, h, rfl, ⟨[], rfl⟩, rfl, fun _ _ _ => rfl⟩
  | cons hstep _ ih =>
    obtain ⟨o₁, hfirst⟩ := advanced_loadStep h ha hstep
    obtain ⟨o₂, hrest⟩ := ih hfirst.kept (hfirst.spaces.symm ▸ ha) fun act hact =>
      hof act (List.mem_cons_of_mem _ hact)
    exact ⟨o₂, (hfirst.mono fun v hv => ⟨_, hof _ List.mem_cons_self, hv⟩).trans hrest⟩

/-! ## The frame buffer of a slot -/

/-- The kernel's virtual page for page `i` of the frame buffer in slot `si`. -/
def kernPage (si : Fin 4) (i : ℕ) : ℕ := 0x22000 + si * 63 + i

theorem pageOf_kernVa (si : Fin 4) {i : ℕ} (hi : i < elfFbPages) :
    pageOf (BitVec.ofNat 32 (kernVa si i)) = kernPage si i := by
  have hsi := si.isLt
  have hpages : elfFbPages = 63 := rfl
  rw [hpages] at hi
  have hva : kernVa si i = (0x22000 + si * 63 + i) * 4096 := by
    unfold kernVa elfFbKvbase
    rw [hpages]
    ring
  rw [pageOf_ofNat (by rw [hva]; omega), hva, Nat.mul_div_cancel _ (by norm_num)]
  rfl

theorem pageOf_userVa {i : ℕ} (hi : i < elfFbPages) :
    pageOf (BitVec.ofNat 32 (userVa i)) = 0xA0000 + i := by
  have hpages : elfFbPages = 63 := rfl
  rw [hpages] at hi
  have hva : userVa i = (0xA0000 + i) * 4096 := by
    unfold userVa elfGuiFbUvaddr
    ring
  rw [pageOf_ofNat (by rw [hva]; omega), hva, Nat.mul_div_cancel _ (by norm_num)]

/-- The pages, from page `i` on, of a frame buffer whose pages have the addresses `p`; those for
which the allocator had no page are left out. -/
def pagesFrom (p : ℕ → ℕ) (i n : ℕ) : List ℕ :=
  ((List.range' i n).map fun j => p j / 4096).filter fun q => q ≠ 0

theorem pagesFrom_succ (p : ℕ → ℕ) (i n : ℕ) : pagesFrom p i (n + 1) =
    if p i / 4096 = 0 then pagesFrom p (i + 1) n else p i / 4096 :: pagesFrom p (i + 1) n := by
  unfold pagesFrom
  rw [List.range'_succ, List.map_cons, List.filter_cons]
  by_cases hzero : p i / 4096 = 0
  · rw [if_pos hzero, if_neg (by simp [hzero])]
  · rw [if_neg hzero, if_pos (by simp [hzero])]

namespace Desktop

variable {d d' : Desktop} {si : Fin 4}

@[simp] theorem setPaging_paging (s : Paging) : (d.setPaging s).paging = s := rfl

@[simp] theorem setPaging_kernel (s : Paging) : (d.setPaging s).kernel = d.kernel := rfl

@[simp] theorem setPaging_gui (s : Paging) : (d.setPaging s).gui = d.gui := rfl

/-- What the loops over a frame buffer leave alone: the tasks, the windows and the pages of the
other slots. -/
structure SameDesktop (d d' : Desktop) (si : Fin 4) : Prop where
  kernel : d'.kernel = d.kernel
  gui : d'.gui = d.gui
  latest : d'.latest = d.latest
  others : ∀ sj, sj ≠ si → d'.physPages sj = d.physPages sj

theorem SameDesktop.refl (d : Desktop) (si : Fin 4) : SameDesktop d d si := ⟨rfl, rfl, rfl, fun _ _ => rfl⟩

theorem SameDesktop.trans {d'' : Desktop} (h : SameDesktop d d' si) (h' : SameDesktop d' d'' si) :
    SameDesktop d d'' si :=
  ⟨h'.kernel.trans h.kernel, h'.gui.trans h.gui, h'.latest.trans h.latest, fun sj hj =>
    (h'.others sj hj).trans (h.others sj hj)⟩

theorem sameDesktop_openFrame (pd : ℕ) (si : Fin 4) (i : ℕ) :
    SameDesktop d (d.openFrame k pd si i) si :=
  ⟨rfl, rfl, rfl, fun _ hj => Function.update_of_ne hj _ _⟩

theorem physPages_openFrame (pd : ℕ) (si : Fin 4) (i : ℕ) :
    (d.openFrame k pd si i).physPages si =
      Function.update (d.physPages si) i d.paging.pmm.pmmAllocPage.2 := Function.update_self _ _ _

theorem paging_openFrame (pd : ℕ) (si : Fin 4) (i : ℕ) : (d.openFrame k pd si i).paging =
    Paging.mapFrameBuffer k ⟨d.paging.mem, d.paging.pmm.pmmAllocPage.1⟩ pd si i
      d.paging.pmm.pmmAllocPage.2 := rfl

/-- The pages touched while the frame buffer in slot `si` is mapped. -/
def FrameTouches (si : Fin 4) (v : ℕ) : Prop :=
  IsWindowPage v ∨ (∃ j < elfFbPages, v = 0xA0000 + j) ∨ ∃ j < elfFbPages, v = kernPage si j

/-- **One page of a new frame buffer**: a page more is held, unless there was none. -/
theorem advanced_openFrame (h : Kept k o d.paging) (ha : a ∈ o.spaces) (si : Fin 4) {i : ℕ}
    (hi : i < elfFbPages) :
    ∃ q o', d.paging.pmm.pmmAllocPage.2 = q * 4096 ∧
      Advanced k o d.paging (FrameTouches si) o' (d.openFrame k (a * 4096) si i).paging ∧
      o'.held = if q = 0 then o.held else q :: o.held := by
  rw [paging_openFrame]
  have hfirst : ∃ q o₁, d.paging.pmm.pmmAllocPage.2 = q * 4096 ∧
      Advanced k o d.paging (FrameTouches si) o₁ ⟨d.paging.mem, d.paging.pmm.pmmAllocPage.1⟩ ∧
      o₁.held = if q = 0 then o.held else q :: o.held := by
    rcases h.alloc with ⟨hnull, htotal, _, hkept⟩ | ⟨q, _, hfirst, _, _, halloc, hkept⟩
    · exact ⟨0, o, by rw [hnull, Nat.zero_mul],
        ⟨hkept, rfl, ⟨[], rfl⟩, htotal, fun _ _ _ => rfl⟩, (if_pos rfl).symm⟩
    · have hpos := k.firstPage_pos
      rw [halloc]
      refine ⟨q, o.hold q, rfl, ⟨hkept, rfl, ⟨[q], rfl⟩, rfl, fun _ _ _ => rfl⟩, ?_⟩
      rw [if_neg (by omega)]
      rfl
  obtain ⟨q, o₁, haddr, hadv₁, hheld₁⟩ := hfirst
  set s₁ : Paging := ⟨d.paging.mem, d.paging.pmm.pmmAllocPage.1⟩ with hs₁
  obtain ⟨o₂, hadv₂, hheld₂⟩ := advanced_mapUser hadv₁.kept (hadv₁.spaces.symm ▸ ha)
    (BitVec.ofNat 32 (userVa i)) (BitVec.ofNat 32 d.paging.pmm.pmmAllocPage.2)
    (pagePresent ||| pageWrite ||| pageUser)
  refine ⟨q, o₂, haddr, ?_, hheld₂.trans hheld₁⟩
  have hk₂ := hadv₂.kept
  have hmono : Advanced k o₁ s₁ (FrameTouches si) o₂ _ := hadv₂.mono fun v hv => by
    rcases hv with hw | hv
    · exact Or.inl hw
    · exact Or.inr (Or.inl ⟨i, hi, hv.trans (pageOf_userVa hi)⟩)
  refine (hadv₁.trans hmono).trans ?_
  unfold Paging.mapFrameBuffer
  refine ⟨?_, rfl, ⟨[], rfl⟩, ?_, fun v hv ht => ?_⟩
  · rw [Paging.pagingMapPage_eq hk₂.kernelDir]
    exact hk₂.store_kernel (pdIdx_lt _) _
  · rw [Paging.pagingMapPage_eq hk₂.kernelDir]
    rfl
  · rw [kernelEntry_map hk₂.kernelDir, pageOf_kernVa si hi,
      if_neg fun he => ht (Or.inr (Or.inr ⟨i, hi, he.symm⟩))]

/-- The frame buffer in slot `si` after its pages from `i` to `i + n` were taken: the pages that
were found are held, and the history knows them. -/
structure Opened (k : KernelImage) (o : PageOwners) (d : Desktop) (si : Fin 4) (i n : ℕ) (o' : PageOwners)
    (d' : Desktop) : Prop where
  advanced : Advanced k o d.paging (FrameTouches si) o' d'.paging
  same : SameDesktop d d' si
  held : ∀ f, o'.held.count f = o.held.count f + (pagesFrom (d'.physPages si) i n).count f
  aligned : ∀ j, i ≤ j → j < i + n → d'.physPages si j % 4096 = 0
  outside : ∀ j, ¬ (i ≤ j ∧ j < i + n) → d'.physPages si j = d.physPages si j
  taken : ∀ f, d'.taken f = d.taken f + (pagesFrom (d'.physPages si) i n).count f
  returned : d'.returned = d.returned

/-- **The loop of `gui_elf_win_open`.** -/
theorem opened_openFrames (h : Kept k o d.paging) (ha : a ∈ o.spaces) (si : Fin 4) {i n : ℕ}
    (hn : i + n ≤ elfFbPages) :
    ∃ o', Opened k o d si i n o' (openFrames k (a * 4096) si d i n) := by
  induction n generalizing d o i with
  | zero =>
    exact ⟨o, ⟨h, rfl, ⟨[], rfl⟩, rfl, fun _ _ _ => rfl⟩, .refl d si, fun _ => rfl,
      fun j h₁ h₂ => absurd h₂ (Nat.not_lt.mpr h₁), fun _ _ => rfl, fun _ => rfl, rfl⟩
  | succ n ih =>
    obtain ⟨q, o₁, haddr, hadv, hheld⟩ := advanced_openFrame h ha si (show i < elfFbPages by omega)
    have hsame₁ := @sameDesktop_openFrame k d (a * 4096) si i
    have hphys₁ := @physPages_openFrame k d (a * 4096) si i
    have htaken₁ : (d.openFrame k (a * 4096) si i).taken =
        if d.paging.pmm.pmmAllocPage.2 = 0 then d.taken
        else count d.taken (d.paging.pmm.pmmAllocPage.2 / 4096) := rfl
    have hreturned₁ : (d.openFrame k (a * 4096) si i).returned = d.returned := rfl
    rw [haddr, Nat.mul_div_cancel q (by norm_num)] at htaken₁
    rw [haddr] at hphys₁
    obtain ⟨o₂, hrest⟩ := ih hadv.kept (hadv.spaces.symm ▸ ha) (i := i + 1) (by omega)
    have hloop : openFrames k (a * 4096) si d i (n + 1) =
        openFrames k (a * 4096) si (d.openFrame k (a * 4096) si i) (i + 1) n := rfl
    rw [hloop]
    generalize d.openFrame k (a * 4096) si i = d₁ at *
    generalize openFrames k (a * 4096) si d₁ (i + 1) n = d₂ at *
    -- the first page is not written again
    have hphys : d₂.physPages si i = q * 4096 := by
      rw [hrest.outside i (by omega), hphys₁, Function.update_self]
    have hpages : ∀ f, (pagesFrom (d₂.physPages si) i (n + 1)).count f =
        (if q = 0 then 0 else if q = f then 1 else 0) +
          (pagesFrom (d₂.physPages si) (i + 1) n).count f := by
      intro f
      rw [pagesFrom_succ, hphys, Nat.mul_div_cancel q (by norm_num)]
      split_ifs with hzero hqf
      · rw [Nat.zero_add]
      · rw [hqf, List.count_cons_self, Nat.add_comm]
      · rw [List.count_cons_of_ne (fun he => hqf he), Nat.zero_add]
    refine ⟨o₂, hadv.trans hrest.advanced, hsame₁.trans hrest.same, fun f => ?_, fun j h₁ h₂ => ?_,
      fun j hj => ?_, fun f => ?_, hrest.returned.trans hreturned₁⟩
    · rw [hrest.held, hheld, hpages]
      split_ifs with hzero hqf
      · omega
      · rw [hqf, List.count_cons_self]
        omega
      · rw [List.count_cons_of_ne fun he => hqf he]
        omega
    · rcases Nat.eq_or_lt_of_le h₁ with rfl | hlt
      · rw [hphys]
        exact Nat.mul_mod_left q 4096
      · exact hrest.aligned j hlt (by omega)
    · rw [hrest.outside j (by omega), hphys₁, Function.update_of_ne (by omega)]
    · rw [hrest.taken, htaken₁, hpages]
      unfold count
      by_cases hzero : q = 0
      · rw [if_pos (by omega), if_pos hzero]
        omega
      · rw [if_neg (by omega), if_neg hzero]
        by_cases hqf : q = f
        · rw [hqf, Function.update_self, if_pos rfl]
          omega
        · rw [Function.update_of_ne (fun he => hqf he.symm), if_neg hqf]
          omega

/-- **One page of a frame buffer is given back.** -/
theorem advanced_closeFrame (h : Kept k o d.paging) (si : Fin 4) {i q : ℕ} (hi : i < elfFbPages)
    (hphys : d.physPages si i = q * 4096) (hq : q = 0 ∨ q ∈ o.held) :
    Kept k (if q = 0 then o else o.release q) (d.closeFrame k si i).paging ∧
    (d.closeFrame k si i).paging.pmm.totalPages = d.paging.pmm.totalPages ∧
    (∀ v < 2 ^ 20, kernelEntry k (d.closeFrame k si i).paging.mem v =
      if v = kernPage si i then 0 else kernelEntry k d.paging.mem v) ∧
    (∀ f, f ≠ 0 → (d.closeFrame k si i).paging.pmm.bitmap.test f =
      (!decide (f = q) && d.paging.pmm.bitmap.test f)) ∧
    ∀ f j, ¬ (k.pageTables ≤ f ∧ f < k.pageTables + 1024) →
      (d.closeFrame k si i).paging.mem f j = d.paging.mem f j := by
  have hpaging : (d.closeFrame k si i).paging = d.paging.freeFrameBuffer k si i (q * 4096) := by
    rw [← hphys]
    rfl
  have hkept : Kept k o (d.paging.pagingUnmapPage k (BitVec.ofNat 32 (kernVa si i))) :=
    h.store_kernel (pdIdx_lt _) 0
  have hpmm : (d.paging.pagingUnmapPage k (BitVec.ofNat 32 (kernVa si i))).pmm = d.paging.pmm := rfl
  rw [hpaging]
  unfold Paging.freeFrameBuffer
  dsimp only
  refine ⟨?_, ?_, fun v hv => ?_, fun f hf => ?_, fun f j hf => ?_⟩
  · rcases hq with rfl | hq
    · rw [if_pos rfl, Nat.zero_mul]
      exact hkept.free_zero
    · rw [if_neg (h.ne_zero (PageOwners.mem_owned_of_held hq))]
      exact hkept.free_held hq
  · rw [hpmm]
    rcases hq with rfl | hq
    · unfold Pmm.pmmFreePage
      split_ifs <;> rfl
    · rw [h.pmmFreePage_eq (PageOwners.mem_owned_of_held hq), Pmm.unmark_totalPages]
  · rw [kernelEntry_unmap, pageOf_kernVa si hi]
    by_cases hvk : v = kernPage si i
    · rw [if_pos hvk, if_pos hvk.symm]
    · rw [if_neg hvk, if_neg fun he => hvk he.symm]
  · rw [hpmm]
    rcases hq with rfl | hq
    · unfold Pmm.pmmFreePage
      split_ifs
      · rw [Pmm.test_unmark, Nat.zero_mul, Nat.zero_div]
      · rw [decide_eq_false hf]
        rfl
    · exact h.test_free (PageOwners.mem_owned_of_held hq)
  · refine Paging.store_other _ _ fun he => hf ?_
    have := pdIdx_lt (BitVec.ofNat 32 (kernVa si i))
    omega

/-- The frame buffer in slot `si` after its pages from `i` to `i + n` were given back: they are
free, and the kernel's window on them is closed. -/
structure Closed (k : KernelImage) (o : PageOwners) (d : Desktop) (si : Fin 4) (i n : ℕ) (o' : PageOwners)
    (d' : Desktop) : Prop where
  kept : Kept k o' d'.paging
  spaces : o'.spaces = o.spaces
  tables : o'.tables = o.tables
  total : d'.paging.pmm.totalPages = d.paging.pmm.totalPages
  held : ∀ f, o'.held.count f + (pagesFrom (d.physPages si) i n).count f = o.held.count f
  same : SameDesktop d d' si
  physPages : d'.physPages = d.physPages
  taken : d'.taken = d.taken
  returned : ∀ f, d'.returned f =
    d.returned f + ((List.range' i n).map fun j => d.physPages si j / 4096).count f
  entries : ∀ v < 2 ^ 20, (∃ j, i ≤ j ∧ j < i + n ∧ v = kernPage si j) ∧
      kernelEntry k d'.paging.mem v = 0 ∨
    (¬ ∃ j, i ≤ j ∧ j < i + n ∧ v = kernPage si j) ∧
      kernelEntry k d'.paging.mem v = kernelEntry k d.paging.mem v
  test : ∀ f, f ≠ 0 → d'.paging.pmm.bitmap.test f =
    (!decide (f ∈ pagesFrom (d.physPages si) i n) && d.paging.pmm.bitmap.test f)
  mem : ∀ f j, ¬ (k.pageTables ≤ f ∧ f < k.pageTables + 1024) →
    d'.paging.mem f j = d.paging.mem f j

/-- **The loop that gives a frame buffer back.** -/
theorem closed_closeFrames (h : Kept k o d.paging) (si : Fin 4) {i n : ℕ} (hn : i + n ≤ elfFbPages)
    (haligned : ∀ j, i ≤ j → j < i + n → d.physPages si j % 4096 = 0)
    (hheld : ∀ f, (pagesFrom (d.physPages si) i n).count f ≤ o.held.count f) :
    ∃ o', Closed k o d si i n o' (closeFrames k si d i n) := by
  induction n generalizing d o i with
  | zero =>
    refine ⟨o, h, rfl, rfl, rfl, fun _ => rfl, .refl d si, rfl, rfl, fun _ => rfl,
      fun v _ => Or.inr ⟨?_, rfl⟩, fun f _ => ?_, fun _ _ _ => rfl⟩
    · rintro ⟨j, h₁, h₂, _⟩
      omega
    · rw [decide_eq_false (by simp [pagesFrom])]
      rfl
  | succ n ih =>
    have hal := haligned i (le_refl i) (by omega)
    set q := d.physPages si i / 4096 with hq
    have hphys : d.physPages si i = q * 4096 := by omega
    have hpages := pagesFrom_succ (d.physPages si) i n
    rw [← hq] at hpages
    have hmem : q = 0 ∨ q ∈ o.held := by
      by_cases hzero : q = 0
      · exact Or.inl hzero
      · rw [if_neg hzero] at hpages
        have hle := hheld q
        rw [hpages, List.count_cons_self] at hle
        exact Or.inr (List.count_pos_iff.mp (by omega))
    obtain ⟨hkept₁, htotal₁, hentries₁, htest₁, hmem₁⟩ :=
      advanced_closeFrame h si (show i < elfFbPages by omega) hphys hmem
    have hsame₁ : SameDesktop d (d.closeFrame k si i) si := ⟨rfl, rfl, rfl, fun _ _ => rfl⟩
    have hphys₁ : (d.closeFrame k si i).physPages = d.physPages := rfl
    have htaken₁ : (d.closeFrame k si i).taken = d.taken := rfl
    have hreturned₁ : (d.closeFrame k si i).returned = count d.returned q := rfl
    set o₁ := if q = 0 then o else o.release q with ho₁
    have hspaces₁ : o₁.spaces = o.spaces := by
      rw [ho₁]
      split_ifs <;> rfl
    have htables₁ : o₁.tables = o.tables := by
      rw [ho₁]
      split_ifs <;> rfl
    have hheld₁ : ∀ f, o₁.held.count f + (if q = 0 then 0 else if q = f then 1 else 0) =
        o.held.count f := by
      intro f
      rw [ho₁]
      by_cases hzero : q = 0
      · rw [if_pos hzero, if_pos hzero, Nat.add_zero]
      · rw [if_neg hzero, if_neg hzero]
        have hperm := (List.perm_cons_erase (hmem.resolve_left hzero)).count_eq f
        rw [hperm, List.count_cons]
        show (o.held.erase q).count f + _ = _
        simp only [beq_iff_eq]
    have hcount : ∀ f, (pagesFrom (d.physPages si) i (n + 1)).count f =
        (if q = 0 then 0 else if q = f then 1 else 0) +
          (pagesFrom (d.physPages si) (i + 1) n).count f := by
      intro f
      rw [hpages]
      by_cases hzero : q = 0
      · rw [if_pos hzero, if_pos hzero, Nat.zero_add]
      · rw [if_neg hzero, if_neg hzero, List.count_cons, Nat.add_comm]
        simp only [beq_iff_eq]
    obtain ⟨o₂, hrest⟩ := ih (d := d.closeFrame k si i) hkept₁ (i := i + 1) (by omega)
      (fun j h₁ h₂ => by
        rw [hphys₁]
        exact haligned j (by omega) (by omega)) fun f => by
          have h₁ := hheld f
          have h₂ := hheld₁ f
          rw [hcount] at h₁
          rw [hphys₁]
          omega
    have hloop : closeFrames k si d i (n + 1) = closeFrames k si (d.closeFrame k si i) (i + 1) n := rfl
    rw [hloop]
    generalize d.closeFrame k si i = d₁ at *
    generalize closeFrames k si d₁ (i + 1) n = d₂ at *
    refine ⟨o₂, hrest.kept, hrest.spaces.trans hspaces₁, hrest.tables.trans htables₁,
      hrest.total.trans htotal₁, fun f => ?_, hsame₁.trans hrest.same, hrest.physPages.trans hphys₁,
      hrest.taken.trans htaken₁, fun f => ?_, fun v hv => ?_, fun f hf => ?_, fun f j hf => ?_⟩
    · have h₁ := hrest.held f
      have h₂ := hheld₁ f
      rw [hphys₁] at h₁
      rw [hcount]
      omega
    · rw [hrest.returned, hreturned₁, hphys₁, List.range'_succ, List.map_cons, List.count_cons, ← hq]
      unfold count
      by_cases hqf : q = f
      · rw [hqf, Function.update_self, if_pos (by simp)]
        omega
      · rw [Function.update_of_ne (fun he => hqf he.symm), if_neg (by simpa using hqf)]
        omega
    · have hfirst := hentries₁ v hv
      rcases hrest.entries v hv with ⟨⟨j, h₁, h₂, hvj⟩, hzero⟩ | ⟨hnot, hsame⟩
      · exact Or.inl ⟨⟨j, by omega, by omega, hvj⟩, hzero⟩
      · by_cases hvi : v = kernPage si i
        · rw [if_pos hvi] at hfirst
          exact Or.inl ⟨⟨i, le_refl i, by omega, hvi⟩, hsame.trans hfirst⟩
        · rw [if_neg hvi] at hfirst
          refine Or.inr ⟨?_, hsame.trans hfirst⟩
          rintro ⟨j, h₁, h₂, hvj⟩
          rcases Nat.eq_or_lt_of_le h₁ with rfl | hlt
          · exact hvi hvj
          · exact hnot ⟨j, hlt, by omega, hvj⟩
    · rw [hrest.test f hf, htest₁ f hf, hphys₁, hpages, ← Bool.and_assoc, ← Bool.not_or,
        ← Bool.decide_or]
      congr 2
      apply decide_eq_decide.mpr
      by_cases hzero : q = 0
      · rw [if_pos hzero]
        exact ⟨fun hh => hh.resolve_right fun he => hf (he.trans hzero), Or.inl⟩
      · rw [if_neg hzero, List.mem_cons, or_comm]
    · exact (hrest.mem f j hf).trans (hmem₁ f j hf)

end Desktop

end Microkernel
