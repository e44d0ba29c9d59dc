/-
# The identity map

`paging_init` maps the RAM one to one in the kernel's tables, and the loader counts on it when it
writes to pages fresh from the allocator.  The same tables hold, at fixed addresses, the windows
of `paging_map_user`, that of `elf_load` and those on frame buffers.  Where no window that is
used lies within the RAM, the map stays whole.
-/
import Microkernel.DesktopRuns

namespace Microkernel

/-- A page that `pmm_alloc_page` can return: it lies after the kernel, or it is free. -/
def Pmm.CanHandOut (e : KernelEnd) (p : Pmm) (q : ℕ) : Prop :=
  q < p.totalPages ∧ (firstPage e ≤ q ∨ p.bitmap.test q = false)

/-- Every page that can be handed out is mapped, and writable, at its own address. -/
def IdentityMapped (k : KernelImage) (s : Paging) : Prop :=
  ∀ q, s.pmm.CanHandOut k.toKernelEnd q →
    ∃ t, walk s.mem k.pageDirectory q = some t ∧ t.frame = q ∧ t.writable = true

/-- An entry that maps the page `v` to itself. -/
structure IdentityEntry (e : BitVec 32) (v : ℕ) : Prop where
  present : hasFlag e pagePresent = true
  writable : hasFlag e pageWrite = true
  frame : frameOf e = v

theorem identityEntry_tableLink {v : ℕ} (hv : v < 2 ^ 20) : IdentityEntry (tableLink v) v := by
  refine ⟨hasFlag_tableLink v, ?_, frameOf_tableLink hv⟩
  rw [hasFlag_write, tableLink_flag (by norm_num)]

/-- **The map is whole**, and the slots in use have their windows above the RAM. -/
structure Clean (k : KernelImage) (d : Desktop) : Prop where
  identity : ∀ v < d.paging.pmm.totalPages, IdentityEntry (kernelEntry k d.paging.mem v) v
  slots : ∀ si, (d.gui.elfGuiSlots si).active = true → d.paging.pmm.totalPages ≤ kernPage si 0

/-! ## The windows that lie above the RAM -/

/-- The step uses no window that lies within the RAM and maps no other page over it. -/
def DesktopEvent.Clear (d : Desktop) : DesktopEvent → Prop
  | .elfLoad f _ => ¬ d.kernel.nextPid.toInt32 < 0 ∧
      ((elfValidate f).2 = none →
        (∀ va, f.MapsAt va → d.paging.pmm.totalPages ≤ 0x3FE00 ∧
          d.paging.pmm.totalPages ≤ pageOf (BitVec.ofNat 32 va)) ∧
        (f.Reaches f.phnum → d.paging.pmm.totalPages ≤ 0x3FD00))
  | .mapUser _ virt phys flags => d.paging.pmm.totalPages ≤ 0x3FE00 ∧
      (d.paging.pmm.totalPages ≤ pageOf virt ∨
        frameOf phys = pageOf virt ∧ hasFlag flags pageWrite = true)
  | .winOpen => d.kernel.current.pageDirectory ≠ 0 → d.gui.findFreeWindow ≠ none →
      ∀ si, d.gui.freeElfSlot = some si → d.paging.pmm.totalPages ≤ kernPage si 0
  | _ => True

/-- A step that keeps the map whole. -/
def Desktop.ClearStep (k : KernelImage) (d : Desktop) (e : DesktopEvent) (d' : Desktop) : Prop :=
  e.Clear d ∧ e.exec k d = some d'

/-! ## One step -/

namespace Clean

variable {k : KernelImage} {o : PageOwners} {pinned : List ℕ} {d d' : Desktop} {pid : UInt32}

/-- The entries of the RAM and the slots are what they were, or slots are no more in use. -/
theorem of_entries (h : Clean k d) (htotal : d'.paging.pmm.totalPages = d.paging.pmm.totalPages)
    (hentries : ∀ v < d.paging.pmm.totalPages,
      kernelEntry k d'.paging.mem v = kernelEntry k d.paging.mem v)
    (hslots : ∀ si, (d'.gui.elfGuiSlots si).active = true →
      (d.gui.elfGuiSlots si).active = true ∨ d.paging.pmm.totalPages ≤ kernPage si 0) :
    Clean k d' where
  identity := fun v hv => by
    rw [htotal] at hv
    rw [hentries v hv]
    exact h.identity v hv
  slots := fun si hsi => by
    rw [htotal]
    exact (hslots si hsi).elim (h.slots si) id

theorem lt_pow (h : DesktopInv k o pinned d) {v : ℕ} (hv : v < d.paging.pmm.totalPages) :
    v < 2 ^ 20 := by
  have hle := h.kept.total_le
  unfold maxPages at hle
  omega

/-- The window of a slot in use is above the RAM. -/
theorem ne_kernPage (h : Clean k d) {v : ℕ} (hv : v < d.paging.pmm.totalPages) :
    ∀ si, (d.gui.elfGuiSlots si).active = true → ∀ j < elfFbPages, v ≠ kernPage si j := by
  intro si hsi j _ he
  have habove := h.slots si hsi
  unfold kernPage at habove he
  omega

theorem closeKilled (h : Clean k d) (hinv : DesktopInv k o pinned d) {g : Gui}
    (hclosed : Desktop.CloseKilled k d pid g d') :
    Clean k d' ∧ ∃ o', DesktopInv k o' pinned d' := by
  obtain ⟨hone, hkill⟩ := hclosed
  obtain ⟨o₁, hinv₁, htotal, hslots, hentries⟩ := hinv.closed hone.slots
  obtain ⟨o₂, l', rfl, hmem, htotal', hinv₂⟩ := hinv₁.taskKill hkill
  refine ⟨h.of_entries (htotal'.trans htotal) (fun v hv => ?_) fun si hsi => Or.inl (hslots si hsi),
    o₂, hinv₂⟩
  refine Eq.trans ?_ (hentries v (lt_pow hinv hv) (h.ne_kernPage hv))
  exact congrArg (kernelEntry k · v) hmem

/-- **A step whose windows lie above the RAM keeps the map whole.** -/
theorem step (h : Clean k d) (hinv : DesktopInv k o pinned d) {e : DesktopEvent}
    (hstep : Desktop.ClearStep k d e d') :
    Clean k d' ∧ ∃ o' pinned', DesktopInv k o' pinned' d' := by
  obtain ⟨hclear, hexec⟩ := hstep
  cases e with
  | elfLoad f args =>
    obtain ⟨hpid, hwindows⟩ := hclear
    obtain ⟨o', qs, l', rfl, _, hinv', htotal, hentries⟩ := hinv.elfLoad hpid hexec
    refine ⟨h.of_entries htotal (fun v hv => ?_) fun si hsi => Or.inl hsi, o', qs ++ pinned, hinv'⟩
    refine hentries v (lt_pow hinv hv) ?_
    rintro ⟨hvalid, act, hof, htouch⟩
    obtain ⟨hmaps, hstack⟩ := hwindows hvalid
    cases act with
    | segment bytes va flags =>
      obtain ⟨h₁, h₂⟩ := hmaps va hof
      rcases htouch with (rfl | rfl) | rfl <;> omega
    | stack va =>
      obtain ⟨hreach, i, hi, rfl⟩ := hof
      have hle := hstack hreach
      rcases htouch with rfl | (rfl | rfl) | rfl
      · omega
      · omega
      · omega
      · have hpage : 0x3FD00 ≤ pageOf (BitVec.ofNat 32 (userStackTop - userStackPages * 4096 + i * 4096)) := by
          unfold userStackPages at hi
          unfold userStackTop userStackPages
          rw [pageOf_ofNat (by omega)]
          omega
        omega
    | vga va phys =>
      obtain ⟨hreach, hva⟩ := hof
      have hle := hstack hreach
      have hpage : 0x3FD00 ≤ pageOf (BitVec.ofNat 32 va) := by
        rcases hva with ⟨rfl, _⟩ | ⟨rfl, _⟩ <;> decide
      rcases htouch with (rfl | rfl) | rfl <;> omega
    | noPage => exact htouch
  | mapUser i virt phys flags =>
    obtain ⟨hwindows, hvirt⟩ := hclear
    unfold DesktopEvent.exec at hexec
    dsimp only at hexec
    split_ifs at hexec with hpd
    obtain rfl := Option.some.inj hexec
    obtain ⟨a, ha, _, hnat⟩ := hinv.dir_toNat hpd
    rw [hnat]
    obtain ⟨o', hadv, hinv'⟩ := hinv.mapUser ha virt phys flags
    obtain ⟨q, new, hq, heq, _⟩ := hinv.kept.mapUser ha virt phys flags
    refine ⟨⟨fun v hv => ?_, fun si hsi => ?_⟩, o', pinned, hinv'⟩
    · have hv' : v < d.paging.pmm.totalPages := hv.trans_eq hadv.total
      show IdentityEntry (kernelEntry k (d.paging.pagingMapUser k (a * 4096) virt phys flags).mem v) v
      rw [heq, kernelEntry_mappedMem hinv.kept ha hq phys flags (lt_pow hinv hv'),
        if_neg (by rintro (rfl | rfl) <;> omega)]
      split_ifs with hshared
      · -- the entry is written again, for the page itself
        obtain ⟨hframe, hwrite⟩ := hvirt.resolve_left (by omega)
        have hentry := Paging.entryTranslation_userEntry virt phys flags
        unfold entryTranslation at hentry
        split_ifs at hentry with hpresent
        obtain ⟨h₁, h₂, _⟩ := Translation.mk.inj (Option.some.inj hentry)
        exact ⟨hpresent, h₂.trans hwrite, h₁.trans (hframe.trans hshared.2)⟩
      · exact h.identity v hv'
    · exact (hadv.total.le).trans (h.slots si hsi)
  | winOpen =>
    unfold DesktopEvent.exec Desktop.sysGuiWinOpen at hexec
    obtain rfl := Option.some.inj hexec
    by_cases hpd : d.kernel.current.pageDirectory = 0
    · rw [if_neg (not_not.mpr hpd)]
      exact ⟨h, o, pinned, hinv⟩
    · rw [if_pos hpd]
      obtain ⟨a, ha, _, hnat⟩ := hinv.dir_toNat hpd
      have hnat' : d.kernel.current.pageDirectory.toNat = a * 4096 := hnat
      rw [hnat']
      rcases hinv.guiElfWinOpen ha d.kernel.current.id with ⟨heq, _⟩ |
        ⟨si, o', g, hslot, hroom, hslots, _, hopen, hinv'⟩
      · rw [heq]
        exact ⟨h, o, pinned, hinv⟩
      · have habove := hclear hpd hroom si hslot
        refine ⟨h.of_entries hopen.advanced.total (fun v hv => ?_) fun sj hj => ?_, o', pinned, hinv'⟩
        · refine hopen.advanced.entries v (lt_pow hinv hv) ?_
          have hlast := si.isLt
          unfold kernPage at habove
          rintro ((rfl | rfl) | ⟨j, _, rfl⟩ | ⟨j, _, rfl⟩)
          · omega
          · omega
          · have := lt_pow hinv hv
            omega
          · unfold kernPage at hv
            omega
        · by_cases hji : sj = si
          · rw [hji]
            exact Or.inr habove
          · left
            rw [hopen.same.gui] at hj
            dsimp only at hj
            rw [hslots, Function.update_of_ne hji] at hj
            exact hj
  | winClose =>
    unfold DesktopEvent.exec at hexec
    obtain rfl := Option.some.inj hexec
    obtain ⟨o', hinv', htotal, hslots, hentries⟩ :=
      hinv.closed (Gui.slots_guiElfWinClose d.gui d.kernel.current.id)
    refine ⟨h.of_entries htotal (fun v hv => ?_) fun si hsi => Or.inl (hslots si hsi), o', pinned, hinv'⟩
    exact hentries v (lt_pow hinv hv) (h.ne_kernPage hv)
  | mouse m =>
    rcases Desktop.handleMouse_cases hexec with ⟨g, hsame, rfl⟩ | ⟨pid, g, hclosed⟩
    · refine ⟨h.of_entries rfl (fun v hv => rfl) fun si hsi => Or.inl ?_, o, pinned,
        hinv.of_slots rfl (fun si => ?_) rfl⟩
      · rw [← hsame.slots]
        exact hsi
      · exact congrArg ElfGuiSlot.active (congrFun hsame.slots si)
    · obtain ⟨hclean, o', hinv'⟩ := h.closeKilled hinv hclosed
      exact ⟨hclean, o', pinned, hinv'⟩
  | render =>
    have hkept := Desktop.cleanUpFrom_invariant
      (I := fun d => Clean k d ∧ ∃ o', DesktopInv k o' pinned d)
      (fun d pid g d' hd _ hclosed => by
        obtain ⟨hd, o₁, hinv₁⟩ := hd
        exact hd.closeKilled hinv₁ hclosed) ⟨h, o, hinv⟩ hexec
    obtain ⟨hclean, o', hinv'⟩ := hkept
    exact ⟨hclean, o', pinned, hinv'⟩
  | taskExit =>
    obtain ⟨l', hexit, rfl⟩ := Option.map_eq_some_iff.mp hexec
    obtain ⟨o', hmem, htotal, hinv'⟩ := hinv.taskExit hexit
    refine ⟨h.of_entries htotal (fun v _ => ?_) fun si hsi => Or.inl hsi, o', pinned, hinv'⟩
    exact congrArg (kernelEntry k · v) hmem
  | taskKill pid =>
    obtain ⟨o', l', rfl, hmem, htotal, hinv'⟩ := hinv.taskKill hexec
    refine ⟨h.of_entries htotal (fun v _ => ?_) fun si hsi => Or.inl hsi, o', pinned, hinv'⟩
    exact congrArg (kernelEntry k · v) hmem
  | switchTo i =>
    obtain rfl := Option.some.inj hexec
    exact ⟨h.of_entries rfl (fun v _ => rfl) fun si hsi => Or.inl hsi, o, pinned, hinv.switchTo i⟩

end Clean

/-! ## From the start -/

/-- The state when the desktop starts: `pmm_init`, the pages of the heap reserved, `paging_init`.
No window was opened. -/
def Desktop.boot (k : KernelImage) (m : PageMemory) (memKb heapStart heapSize : ℕ) (heap : Heap)
    (kern : Kernel) (gfxW gfxH : ℤ) : Desktop where
  loader :=
    { paging :=
        { mem := pagingInit k m memKb
          pmm := (Pmm.pmmInit k.toKernelEnd memKb).pmmReserveRange heapStart heapSize }
      heap := heap
      kernel := kern
      reads := [] }
  gui := Gui.start gfxW gfxH
  physPages := fun _ _ => 0
  taken := fun _ => 0
  returned := fun _ => 0
  latest := fun _ => none

theorem Pmm.initLoop_totalPages (p : Pmm) (i n : ℕ) : (p.initLoop i n).totalPages = p.totalPages := by
  induction n generalizing p i with
  | zero => rfl
  | succ n ih => exact ih (p.unmark i) (i + 1)

/-- Reserving pages only takes them. -/
theorem Pmm.pmmReserveRange_spec {p : Pmm} (h : p.Counted) (startAddr size : ℕ) :
    (p.pmmReserveRange startAddr size).totalPages = p.totalPages ∧
      ∀ q, p.bitmap.test q = true → (p.pmmReserveRange startAddr size).bitmap.test q = true := by
  unfold pmmReserveRange
  dsimp only
  obtain ⟨_, htotal, htest⟩ := @reserveLoop_spec p (startAddr / 4096)
    ((if (startAddr + size + 4095) % 2 ^ 32 / 4096 > p.totalPages then p.totalPages
      else (startAddr + size + 4095) % 2 ^ 32 / 4096) - startAddr / 4096) h (by
        split_ifs <;> omega)
  refine ⟨htotal, fun q hq => ?_⟩
  rw [htest, hq, Bool.or_true]

section Boot

variable {k : KernelImage} {m : PageMemory} {memKb heapStart heapSize : ℕ} {heap : Heap}
  {kern : Kernel} {gfxW gfxH : ℤ}

/-- The entries that `paging_init` writes. -/
theorem kernelEntry_pagingInit {v : ℕ} (hv : v < 2 ^ 20) :
    kernelEntry k (pagingInit k m memKb) v = if v < ramPages memKb then tableLink v else 0 := by
  have hdir : k.pageTables + v / 1024 ≠ k.pageDirectory := k.table_ne_dir (by omega)
  unfold kernelEntry pagingInit
  rw [if_neg hdir, if_pos ⟨by omega, by omega⟩]
  have hpage : (k.pageTables + v / 1024 - k.pageTables) * 1024 + v % 1024 = v := by omega
  rw [hpage]
  rfl

/-- The pages of the allocator. -/
theorem totalPages_boot : (Desktop.boot k m memKb heapStart heapSize heap kern gfxW
    gfxH).paging.pmm.totalPages = if memKb / 4 > maxPages then maxPages else memKb / 4 := by
  have hpages := PageClient.inv_init k.toKernelEnd memKb
  obtain ⟨htotal, _⟩ := Pmm.pmmReserveRange_spec hpages.counted heapStart heapSize
  exact htotal.trans (Pmm.initLoop_totalPages _ _ _)

/-- The tasks have no address spaces yet. -/
theorem desktopInv_boot (hkern : TaskSpaces kern []) : DesktopInv k ⟨[], [], []⟩ []
    (Desktop.boot k m memKb heapStart heapSize heap kern gfxW gfxH) := by
  have hpages := PageClient.inv_init k.toKernelEnd memKb
  obtain ⟨htotal, htest⟩ := Pmm.pmmReserveRange_spec hpages.counted heapStart heapSize
  refine ⟨⟨⟨fun t ht => ?_, ?_, fun q _ hq => ?_, fun f hf => ?_, List.nodup_nil, fun a ha => ?_,
    fun a ha => ?_⟩, fun q a i hq => ?_⟩, hkern, fun f => ?_, fun si hsi => ?_⟩
  · show pagingInit k m memKb k.pageDirectory t = _
    unfold pagingInit
    rw [if_pos rfl]
    rfl
  · exact htotal.trans_le hpages.counted.total_le
  · exact htest q (hpages.kernel q hq)
  · cases hf
  · cases ha
  · cases ha
  · cases hq
  · show 0 = 0 + Desktop.frameCount _ f
    rw [Nat.zero_add]
    exact (Finset.sum_eq_zero fun si _ => if_neg Bool.false_ne_true).symm
  · cases hsi

/-- `paging_init` maps the whole RAM, if its size in bytes fits in 32 bits. -/
theorem clean_boot (hram : (Pmm.pmmInit k.toKernelEnd memKb).totalPages ≤ ramPages memKb) :
    Clean k (Desktop.boot k m memKb heapStart heapSize heap kern gfxW gfxH) := by
  have hpages := PageClient.inv_init k.toKernelEnd memKb
  obtain ⟨htotal, _⟩ := Pmm.pmmReserveRange_spec hpages.counted heapStart heapSize
  refine ⟨fun v hv => ?_, fun si hsi => ?_⟩
  · have hv' : v < (Pmm.pmmInit k.toKernelEnd memKb).totalPages := hv.trans_eq htotal
    have hlt : v < 2 ^ 20 := by
      have hle : (Pmm.pmmInit k.toKernelEnd memKb).totalPages ≤ maxPages := hpages.counted.total_le
      unfold maxPages at hle
      omega
    show IdentityEntry (kernelEntry k (pagingInit k m memKb) v) v
    rw [kernelEntry_pagingInit hlt, if_pos (by omega)]
    exact identityEntry_tableLink hlt
  · cases hsi

/-- **The identity map.**  Where `paging_init` maps all pages of the allocator, every run of loads,
mappings and windows that keeps its windows above the RAM leaves every page that can be handed
out mapped and writable at its own address. -/
theorem identity_kept (hram : (Pmm.pmmInit k.toKernelEnd memKb).totalPages ≤ ramPages memKb)
    (hkern : TaskSpaces kern []) {es : List DesktopEvent} {d : Desktop}
    (hrun : Run (Desktop.ClearStep k)
      (Desktop.boot k m memKb heapStart heapSize heap kern gfxW gfxH) es d) :
    IdentityMapped k d.paging := by
  have hkept : Clean k d ∧ ∃ o pinned, DesktopInv k o pinned d := by
    refine hrun.invariant (I := fun d => Clean k d ∧ ∃ o pinned, DesktopInv k o pinned d)
      (fun d e d' hstep hd => ?_) ⟨clean_boot hram, _, _, desktopInv_boot hkern⟩
    obtain ⟨hclean, o, pinned, hinv⟩ := hd
    exact hclean.step hinv hstep
  obtain ⟨hclean, o, pinned, hinv⟩ := hkept
  intro q hq
  obtain ⟨hpresent, hwrite, hframe⟩ := hclean.identity q hq.1
  refine ⟨_, (walk_kernel hinv.kept.kernelDir (Clean.lt_pow hinv hq.1)).trans (if_pos hpresent),
    hframe, hwrite⟩

end Boot

/-- After `task_init` no task has an address space. -/
theorem taskSpaces_boot (kernelPd : UInt32) : TaskSpaces (Kernel.boot kernelPd) [] := by
  have hother : ∀ i : Slot, i ≠ 0 → (Kernel.boot kernelPd).tasks i = Task.zero := by
    intro i hi
    unfold Kernel.boot
    dsimp only
    rw [Function.update_of_ne hi]
  have hdir : ∀ i : Slot, ((Kernel.boot kernelPd).tasks i).pageDirectory = 0 := by
    intro i
    by_cases hi : i = 0
    · rw [hi]
      rfl
    · rw [hother i hi]
      rfl
  have hactive : ∀ i : Slot, ((Kernel.boot kernelPd).tasks i).active = true → i = 0 := by
    intro i ha
    by_contra hi
    rw [hother i hi] at ha
    cases ha
  refine ⟨⟨rfl, rfl⟩, fun i hpd => absurd (hdir i) hpd, fun i hpd => absurd (hdir i) hpd, nofun,
    fun i j hpd => absurd (hdir i) hpd, fun i j hi hj _ => ?_, fun i hi => ?_⟩
  · rw [hactive i hi, hactive j hj]
  · rw [hactive i hi]
    exact Nat.zero_lt_one

/-- A machine with 1300 pages, of which 19 are free. -/
def smallDesktop : Desktop :=
  Desktop.boot AddressSpaces.smallImage (fun _ _ => 0) 5200 0x600000 0x4000
    (heapInit (fun _ => 0) 0x600000 0x4000) (Kernel.boot 0x500000) 1920 1080

/-- A process is loaded, it runs, and its window is closed. -/
theorem identity_kept_plainFile : ∃ d, Run (Desktop.ClearStep AddressSpaces.smallImage) smallDesktop
      [.elfLoad Loader.plainFile Loader.smallArgs, .switchTo 1, .winClose, .taskExit] d ∧
    IdentityMapped AddressSpaces.smallImage d.paging := by
  have hclear : DesktopEvent.Clear smallDesktop (.elfLoad Loader.plainFile Loader.smallArgs) := by
    have htotal : smallDesktop.paging.pmm.totalPages = 1300 := by decide +kernel
    have hphnum : Loader.plainFile.phnum = 1 := by decide +kernel
    have hpages : (Loader.plainFile.phdr 0).numPages = 1 := by decide +kernel
    have hvaddr : (Loader.plainFile.phdr 0).pageVaddr 0 = 0xC0000000 := by decide +kernel
    refine ⟨by decide +kernel, fun _ => ⟨fun va hva => ?_, fun _ => by rw [htotal]; norm_num⟩⟩
    obtain ⟨i, hi, _, _, j, hj, rfl⟩ := hva
    obtain rfl : i = 0 := by omega
    obtain rfl : j = 0 := by omega
    rw [htotal, hvaddr]
    decide
  obtain ⟨d, hrun⟩ : ∃ d, Run (Desktop.ClearStep AddressSpaces.smallImage) smallDesktop
      [.elfLoad Loader.plainFile Loader.smallArgs, .switchTo 1, .winClose, .taskExit] d := by
    have hsome : (Run.follow (fun d e => DesktopEvent.exec AddressSpaces.smallImage d e) smallDesktop
        [.elfLoad Loader.plainFile Loader.smallArgs, .switchTo 1, .winClose, .taskExit]).isSome =
        true := by decide +kernel
    obtain ⟨d, hd⟩ := Option.isSome_iff_exists.mp hsome
    refine ⟨d, ?_⟩
    cases Run.of_follow hd with
    | cons h₁ hrun =>
      cases hrun with
      | cons h₂ hrun =>
        cases hrun with
        | cons h₃ hrun =>
          cases hrun with
          | cons h₄ hrun =>
            cases hrun
            exact .cons ⟨hclear, h₁⟩ (.cons ⟨trivial, h₂⟩ (.cons ⟨trivial, h₃⟩
              (.cons ⟨trivial, h₄⟩ (.nil d))))
  exact ⟨d, hrun, identity_kept (by decide +kernel) (taskSpaces_boot _) hrun⟩

/-- With 4 GB `paging_init` maps nothing: the size in bytes is 0 in 32 bits.  The allocator has
the pages of 1 GB. -/
theorem identity_missing : ∃ q, Pmm.CanHandOut AddressSpaces.smallImage.toKernelEnd
      (Desktop.boot AddressSpaces.smallImage (fun _ _ => 0) 0x400000 0x600000 0x4000
        (heapInit (fun _ => 0) 0x600000 0x4000) (Kernel.boot 0x500000) 1920 1080).paging.pmm q ∧
    ¬ IdentityMapped AddressSpaces.smallImage
      (Desktop.boot AddressSpaces.smallImage (fun _ _ => 0) 0x400000 0x600000 0x4000
        (heapInit (fun _ => 0) 0x600000 0x4000) (Kernel.boot 0x500000) 1920 1080).paging := by
  set d := Desktop.boot AddressSpaces.smallImage (fun _ _ => 0) 0x400000 0x600000 0x4000
    (heapInit (fun _ => 0) 0x600000 0x4000) (Kernel.boot 0x500000) 1920 1080 with hd
  have hinv : DesktopInv AddressSpaces.smallImage ⟨[], [], []⟩ [] d :=
    desktopInv_boot (taskSpaces_boot 0x500000)
  have hcan : Pmm.CanHandOut AddressSpaces.smallImage.toKernelEnd d.paging.pmm 0x2000 := by
    refine ⟨?_, Or.inl (by decide)⟩
    rw [hd, totalPages_boot]
    decide
  refine ⟨0x2000, hcan, fun hmapped => ?_⟩
  obtain ⟨t, hwalk, _⟩ := hmapped 0x2000 hcan
  rw [walk_kernel hinv.kept.kernelDir (by norm_num)] at hwalk
  have hentry : kernelEntry AddressSpaces.smallImage d.paging.mem 0x2000 = 0 := by
    show kernelEntry AddressSpaces.smallImage
      (pagingInit AddressSpaces.smallImage (fun _ _ => 0) 0x400000) 0x2000 = 0
    rw [kernelEntry_pagingInit (by norm_num)]
    exact if_neg (by norm_num [ramPages])
  rw [hentry] at hwalk
  cases hwalk

end Microkernel
