/-
# The service registry as a map

`ipc_register_service` keeps the first 31 bytes of a name, and both functions of the registry
compare the stored names with a whole name.  A longer name is therefore never found again: the
registry is a map from names to PIDs for the histories whose names fit.
-/
import Microkernel.Ipc

namespace Microkernel

namespace Kernel

/-! ## The entries -/

/-- An entry of the registry is in use and has this name. -/
def AnswersTo (k : Kernel) (i : Fin maxServices) (name : List UInt8) : Prop :=
  (k.services i).active = true ∧ (k.services i).name = name

instance (k : Kernel) (i : Fin maxServices) (name : List UInt8) : Decidable (k.AnswersTo i name) :=
  inferInstanceAs (Decidable (_ ∧ _))

/-- What `strncpy` leaves of a name in an entry. -/
def storedName (name : List UInt8) : List UInt8 := name.take 31

/-- No two entries in use have one name. -/
def NamesDiffer (k : Kernel) : Prop :=
  ∀ i j name, k.AnswersTo i name → k.AnswersTo j name → i = j

variable {k : Kernel} {name : List UInt8} {pid : UInt32} {i : Fin maxServices}

theorem storedName_eq_self (h : name.length ≤ 31) : storedName name = name :=
  List.take_of_length_le h

theorem length_storedName (name : List UInt8) : (storedName name).length ≤ 31 :=
  List.length_take_le 31 name

/-- The test of both loops over the registry. -/
theorem answers_iff (k : Kernel) (i : Fin maxServices) (name : List UInt8) :
    ((k.services i).active && (k.services i).name == name) = true ↔ k.AnswersTo i name := by
  unfold AnswersTo
  rw [Bool.and_eq_true, beq_iff_eq]

theorem answers_of_find (h : ((List.finRange maxServices).find? fun i =>
    (k.services i).active && (k.services i).name == name) = some i) : k.AnswersTo i name := by
  have hfound := List.find?_some h
  exact (answers_iff k i name).mp hfound

theorem not_answers_of_find (h : ((List.finRange maxServices).find? fun i =>
    (k.services i).active && (k.services i).name == name) = none) (i : Fin maxServices) :
    ¬ k.AnswersTo i name := by
  intro hi
  exact List.find?_eq_none.mp h i (List.mem_finRange i) ((answers_iff k i name).mpr hi)

/-- What `ipc_register_service` does: it changes the PID of an entry with this name, else it
fills a free entry, else it fails. -/
theorem ipcRegisterService_cases (k : Kernel) (name : List UInt8) (pid : UInt32) :
    (∃ i, k.AnswersTo i name ∧ k.ipcRegisterService name pid =
      ({ k with services := Function.update k.services i { k.services i with pid := pid } },
        .ret (Int32.ofNat i))) ∨
    ((∀ i, ¬ k.AnswersTo i name) ∧ ∃ i, (k.services i).active = false ∧
      k.ipcRegisterService name pid =
        ({ k with services := Function.update k.services i ⟨true, storedName name, pid⟩ },
          .ret (Int32.ofNat i))) ∨
    ((∀ i, ¬ k.AnswersTo i name) ∧ (∀ i, (k.services i).active = true) ∧
      k.ipcRegisterService name pid = (k, .ret (-1))) := by
  unfold ipcRegisterService
  split
  · next i hfound =>
    exact Or.inl ⟨i, answers_of_find hfound, rfl⟩
  · next hnone =>
    refine Or.inr ?_
    split
    · next i hfree =>
      refine Or.inl ⟨not_answers_of_find hnone, i, ?_, rfl⟩
      have hactive := List.find?_some hfree
      simpa using hactive
    · next hfull =>
      refine Or.inr ⟨not_answers_of_find hnone, fun i => ?_, rfl⟩
      have hactive := List.find?_eq_none.mp hfull i (List.mem_finRange i)
      simpa using hactive

/-- The PID of the entry with a name, when there is only one. -/
theorem ipcLookupService_of_answers (hdiffer : k.NamesDiffer) (h : k.AnswersTo i name) :
    k.ipcLookupService name = (k.services i).pid := by
  unfold ipcLookupService
  split
  · next j hfound =>
    rw [hdiffer j i name (answers_of_find hfound) h]
  · next hnone => exact absurd h (not_answers_of_find hnone i)

theorem ipcLookupService_of_not (h : ∀ i, ¬ k.AnswersTo i name) :
    k.ipcLookupService name = 0 := by
  unfold ipcLookupService
  split
  · next i hfound =>
    exact absurd (answers_of_find hfound) (h i)
  · rfl

/-- The result of a lookup depends on the entries with this name only. -/
theorem ipcLookupService_congr {k' : Kernel}
    (h : ∀ i, (k'.AnswersTo i name ↔ k.AnswersTo i name) ∧
      (k.AnswersTo i name → (k'.services i).pid = (k.services i).pid)) :
    k'.ipcLookupService name = k.ipcLookupService name := by
  have hfind : ((List.finRange maxServices).find? fun i =>
        (k'.services i).active && (k'.services i).name == name) =
      (List.finRange maxServices).find? fun i =>
        (k.services i).active && (k.services i).name == name := by
    congr 1
    funext i
    rw [Bool.eq_iff_iff, answers_iff, answers_iff]
    exact (h i).1
  unfold ipcLookupService
  rw [hfind]
  split
  · next i hfound => exact (h i).2 (answers_of_find hfound)
  · rfl

/-! ## The entries after a call -/

/-- The entries after another PID was written to entry `i`. -/
theorem answers_setPid (j : Fin maxServices) (n : List UInt8) :
    AnswersTo { k with services := Function.update k.services i { k.services i with pid := pid } }
      j n ↔ k.AnswersTo j n := by
  unfold AnswersTo
  by_cases hj : j = i
  · subst hj
    simp
  · simp [hj]

/-- The entries after the free entry `i` was filled. -/
theorem answers_fill (hfree : (k.services i).active = false) (j : Fin maxServices)
    (n : List UInt8) :
    AnswersTo { k with services := Function.update k.services i ⟨true, storedName name, pid⟩ } j n ↔
      k.AnswersTo j n ∨ (j = i ∧ n = storedName name) := by
  unfold AnswersTo
  by_cases hj : j = i
  · subst hj
    simp [hfree, eq_comm]
  · simp [hj]

/-! ## Histories of registrations -/

/-- One call of `ipc_register_service`, with the names registered so far. -/
def registerStep (s : Kernel × List (List UInt8)) (c : List UInt8 × UInt32) :
    Kernel × List (List UInt8) :=
  match s.1.ipcRegisterService c.1 c.2 with
  | (k', .ret slot) => (k', if 0 ≤ slot then c.1 :: s.2 else s.2)
  | (k', _) => (k', s.2)

/-- The state after a sequence of calls, and the names for which a call returned a slot. -/
def registerAll (k : Kernel) (calls : List (List UInt8 × UInt32)) : Kernel × List (List UInt8) :=
  calls.foldl registerStep (k, [])

/-- What a map promises of a call, in a state in which `names` are registered. -/
structure RegisterLaw (k : Kernel) (names : List (List UInt8)) (name : List UInt8)
    (pid : UInt32) : Prop where
  /-- The name is found with its PID after a call that returned a slot. -/
  found : ∀ slot, (k.ipcRegisterService name pid).2 = .ret slot → 0 ≤ slot →
    (k.ipcRegisterService name pid).1.ipcLookupService name = pid
  /-- The lookups of the other registered names are unchanged. -/
  others : ∀ n ∈ names, n ≠ name →
    (k.ipcRegisterService name pid).1.ipcLookupService n = k.ipcLookupService n
  /-- No two entries answer to one name. -/
  differ : (k.ipcRegisterService name pid).1.NamesDiffer
  /-- A call fails only when all entries are used by different names. -/
  fails : ∀ slot, (k.ipcRegisterService name pid).2 = .ret slot → slot < 0 →
    maxServices ≤ names.toFinset.card

/-- **The registry is a map** along a sequence of calls. -/
def RegistryIsMap (k : Kernel) (calls : List (List UInt8 × UInt32)) : Prop :=
  ∀ earlier c later, calls = earlier ++ c :: later →
    RegisterLaw (k.registerAll earlier).1 (k.registerAll earlier).2 c.1 c.2

/-- The call does not register a name that is too long: the name fits, or the registry is full
by now, or the PID is the one `ipc_lookup_service` gives for no entry and no earlier name is
stored in the same way. -/
def NameFits (earlier : List (List UInt8 × UInt32)) (name : List UInt8) (pid : UInt32) : Prop :=
  name.length ≤ 31 ∨
  maxServices ≤ (earlier.map fun c => storedName c.1).toFinset.card ∨
  (pid = 0 ∧ storedName name ∉ earlier.map fun c => storedName c.1)

instance (earlier : List (List UInt8 × UInt32)) (name : List UInt8) (pid : UInt32) :
    Decidable (NameFits earlier name pid) :=
  inferInstanceAs (Decidable (_ ∨ _))

/-! ## What every history keeps -/

/-- The entries of the registry come from the calls so far: each one is the stored form of a
registered name, the names registered come from calls, and every call left an entry with the
stored form of its name unless the registry is full. -/
structure FromCalls (k : Kernel) (names : List (List UInt8))
    (calls : List (List UInt8 × UInt32)) : Prop where
  entries : ∀ i n, k.AnswersTo i n → ∃ m ∈ names, n = storedName m
  names : ∀ m ∈ names, ∃ c ∈ calls, c.1 = m
  calls : ∀ c ∈ calls, (∃ i, k.AnswersTo i (storedName c.1)) ∨ ∀ i, (k.services i).active = true

variable {names : List (List UInt8)} {calls earlier : List (List UInt8 × UInt32)}

/-- The name of an entry fits. -/
theorem FromCalls.length_le (h : k.FromCalls names calls) {n : List UInt8}
    (hi : k.AnswersTo i n) : n.length ≤ 31 := by
  obtain ⟨m, _, rfl⟩ := h.entries i n hi
  exact length_storedName m

/-- The slots are not negative. -/
theorem ofNat_slot_nonneg : ∀ i : Fin maxServices, 0 ≤ Int32.ofNat i := by decide

theorem registerStep_of_ret {s : Kernel × List (List UInt8)} {c : List UInt8 × UInt32}
    {k' : Kernel} {slot : Int32} (h : s.1.ipcRegisterService c.1 c.2 = (k', .ret slot)) :
    registerStep s c = (k', if 0 ≤ slot then c.1 :: s.2 else s.2) := by
  unfold registerStep
  rw [h]

theorem fromCalls_boot (h : ∀ i, (k.services i).active = false) : k.FromCalls [] [] where
  entries i n hi := by
    rw [AnswersTo, h i] at hi
    exact absurd hi.1 Bool.false_ne_true
  names _ hm := absurd hm List.not_mem_nil
  calls _ hc := absurd hc List.not_mem_nil

/-- A call keeps what the entries have to do with the calls. -/
theorem FromCalls.step {c : List UInt8 × UInt32} (h : k.FromCalls names calls) :
    (registerStep (k, names) c).1.FromCalls (registerStep (k, names) c).2 (calls ++ [c]) := by
  have hmem : c ∈ calls ++ [c] := List.mem_append_right _ (List.mem_singleton_self c)
  have hnames : ∀ m ∈ c.1 :: names, ∃ d ∈ calls ++ [c], d.1 = m := by
    intro m hm
    rcases List.mem_cons.mp hm with rfl | hm
    · exact ⟨c, hmem, rfl⟩
    · obtain ⟨d, hd, hdm⟩ := h.names m hm
      exact ⟨d, List.mem_append_left _ hd, hdm⟩
  rcases ipcRegisterService_cases k c.1 c.2 with ⟨i, hi, heq⟩ | ⟨hno, i, hfree, heq⟩ |
      ⟨hno, hfull, heq⟩
  · rw [registerStep_of_ret heq, if_pos (ofNat_slot_nonneg i)]
    have hself : storedName c.1 = c.1 := storedName_eq_self (h.length_le hi)
    refine ⟨fun j n hj => ?_, hnames, fun d hd => ?_⟩
    · obtain ⟨m, hm, hn⟩ := h.entries j n ((answers_setPid j n).mp hj)
      exact ⟨m, List.mem_cons_of_mem _ hm, hn⟩
    · rcases List.mem_append.mp hd with hd | hd
      · rcases h.calls d hd with ⟨j, hj⟩ | hall
        · exact Or.inl ⟨j, (answers_setPid j _).mpr hj⟩
        · refine Or.inr fun j => ?_
          by_cases hj : j = i
          · subst hj
            simpa using hall j
          · simpa [hj] using hall j
      · rw [List.mem_singleton.mp hd, hself]
        exact Or.inl ⟨i, (answers_setPid i _).mpr hi⟩
  · rw [registerStep_of_ret heq, if_pos (ofNat_slot_nonneg i)]
    refine ⟨fun j n hj => ?_, hnames, fun d hd => ?_⟩
    · rcases (answers_fill hfree j n).mp hj with hj | ⟨_, rfl⟩
      · obtain ⟨m, hm, hn⟩ := h.entries j n hj
        exact ⟨m, List.mem_cons_of_mem _ hm, hn⟩
      · exact ⟨c.1, List.mem_cons_self, rfl⟩
    · rcases List.mem_append.mp hd with hd | hd
      · rcases h.calls d hd with ⟨j, hj⟩ | hall
        · exact Or.inl ⟨j, (answers_fill hfree j _).mpr (Or.inl hj)⟩
        · rw [hall i] at hfree
          cases hfree
      · rw [List.mem_singleton.mp hd]
        exact Or.inl ⟨i, (answers_fill hfree i _).mpr (Or.inr ⟨rfl, rfl⟩)⟩
  · rw [registerStep_of_ret heq, if_neg (by decide)]
    refine ⟨h.entries, fun m hm => hnames m (List.mem_cons_of_mem _ hm), fun d hd => ?_⟩
    rcases List.mem_append.mp hd with hd | hd
    · exact h.calls d hd
    · exact Or.inr hfull

theorem registerAll_append (k : Kernel) (calls : List (List UInt8 × UInt32))
    (c : List UInt8 × UInt32) :
    k.registerAll (calls ++ [c]) = registerStep (k.registerAll calls) c := by
  unfold registerAll
  rw [List.foldl_append]
  rfl

theorem fromCalls_registerAll (h : ∀ i, (k.services i).active = false)
    (calls : List (List UInt8 × UInt32)) :
    (k.registerAll calls).1.FromCalls (k.registerAll calls).2 calls := by
  induction calls using List.reverseRecOn with
  | nil => exact fromCalls_boot h
  | append_singleton calls c ih =>
    rw [registerAll_append]
    exact ih.step

/-! ## A full registry -/

/-- The name of each entry comes from a registered name of its own. -/
theorem FromCalls.card_names (h : k.FromCalls names calls) (hdiffer : k.NamesDiffer)
    (hfull : ∀ i, (k.services i).active = true) : maxServices ≤ names.toFinset.card := by
  choose m hm hstored using fun i => h.entries i _ ⟨hfull i, rfl⟩
  have hinj : Function.Injective m := by
    intro i j hij
    refine hdiffer i j (k.services i).name ⟨hfull i, rfl⟩ ⟨hfull j, ?_⟩
    rw [hstored i, hstored j, hij]
  have hcard := Finset.card_le_card (s := Finset.univ.image m) (t := names.toFinset) (by
    intro x hx
    obtain ⟨i, _, rfl⟩ := Finset.mem_image.mp hx
    exact List.mem_toFinset.mpr (hm i))
  rwa [Finset.card_image_of_injective _ hinj, Finset.card_univ, Fintype.card_fin] at hcard

/-- As long as the entries have different names, the registry is full exactly if there were
calls with as many stored names as it has entries. -/
theorem FromCalls.full_iff (h : k.FromCalls names calls) (hdiffer : k.NamesDiffer) :
    (∀ i, (k.services i).active = true) ↔
      maxServices ≤ (calls.map fun c => storedName c.1).toFinset.card := by
  constructor
  · intro hfull
    have hinj : Function.Injective fun i => (k.services i).name :=
      fun i j hij => hdiffer i j _ ⟨hfull i, rfl⟩ ⟨hfull j, hij.symm⟩
    have hsub : Finset.univ.image (fun i => (k.services i).name) ⊆
        (calls.map fun c => storedName c.1).toFinset := by
      intro x hx
      obtain ⟨i, _, rfl⟩ := Finset.mem_image.mp hx
      obtain ⟨m, hm, hstored⟩ := h.entries i _ ⟨hfull i, rfl⟩
      obtain ⟨c, hc, rfl⟩ := h.names m hm
      exact List.mem_toFinset.mpr (List.mem_map.mpr ⟨c, hc, hstored.symm⟩)
    have hcard := Finset.card_le_card hsub
    rwa [Finset.card_image_of_injective _ hinj, Finset.card_univ, Fintype.card_fin] at hcard
  · intro hcard
    by_contra hnot
    -- every stored name has an entry in use, and one entry is not in use
    obtain ⟨i₀, hi₀⟩ := not_forall.mp hnot
    have hsub : (calls.map fun c => storedName c.1).toFinset ⊆
        (Finset.univ.erase i₀).image fun i => (k.services i).name := by
      intro x hx
      obtain ⟨c, hc, rfl⟩ := List.mem_map.mp (List.mem_toFinset.mp hx)
      obtain ⟨i, hi⟩ := (h.calls c hc).resolve_right hnot
      have hne : i ≠ i₀ := by
        rintro rfl
        exact hi₀ hi.1
      exact Finset.mem_image.mpr ⟨i, Finset.mem_erase.mpr ⟨hne, Finset.mem_univ i⟩, hi.2⟩
    have hle := (Finset.card_le_card hsub).trans Finset.card_image_le
    rw [Finset.card_erase_of_mem (Finset.mem_univ i₀), Finset.card_univ, Fintype.card_fin] at hle
    exact absurd (hcard.trans hle) (by decide)

/-! ## The law -/

/-- A call that fills a free entry, where the stored name is new. -/
theorem registerLaw_fill (hdiffer : k.NamesDiffer) (hfree : (k.services i).active = false)
    (heq : k.ipcRegisterService name pid =
      ({ k with services := Function.update k.services i ⟨true, storedName name, pid⟩ },
        .ret (Int32.ofNat i)))
    (hnew : ∀ j, ¬ k.AnswersTo j (storedName name))
    (hfound : name = storedName name ∨ (pid = 0 ∧ ∀ j, ¬ k.AnswersTo j name))
    (hother : ∀ n ∈ names, n ≠ name → n ≠ storedName name) :
    RegisterLaw k names name pid := by
  have hdiffer' : (k.ipcRegisterService name pid).1.NamesDiffer := by
    rw [heq]
    intro a b n ha hb
    rcases (answers_fill hfree a n).mp ha with hka | ⟨hai, hna⟩ <;>
      rcases (answers_fill hfree b n).mp hb with hkb | ⟨hbi, hnb⟩
    · exact hdiffer a b n hka hkb
    · exact absurd (hnb ▸ hka) (hnew a)
    · exact absurd (hna ▸ hkb) (hnew b)
    · exact hai.trans hbi.symm
  refine ⟨fun _ _ _ => ?_, fun n hmem hn => ?_, hdiffer', fun slot hslot hneg => ?_⟩
  · by_cases hself : name = storedName name
    · have hi' : (k.ipcRegisterService name pid).1.AnswersTo i name := by
        rw [heq]
        exact (answers_fill hfree i name).mpr (Or.inr ⟨rfl, hself⟩)
      rw [ipcLookupService_of_answers hdiffer' hi', heq]
      simp
    · obtain ⟨rfl, hno⟩ := hfound.resolve_left hself
      refine ipcLookupService_of_not fun j hj => ?_
      rw [heq] at hj
      rcases (answers_fill hfree j name).mp hj with hj | ⟨_, hj⟩
      · exact hno j hj
      · exact hself hj
  · rw [heq]
    refine ipcLookupService_congr fun j => ⟨?_, fun hj => ?_⟩
    · rw [answers_fill hfree]
      exact or_iff_left fun h => hother n hmem hn h.2
    · have hne : j ≠ i := by
        rintro rfl
        rw [hj.1] at hfree
        cases hfree
      simp [hne]
  · rw [heq] at hslot
    injection hslot with hslot
    rw [← hslot] at hneg
    exact absurd hneg (Int32.not_lt.mpr (ofNat_slot_nonneg i))

/-- **One call.**  A registry whose entries have different names follows the law of a map
exactly for the calls whose name fits. -/
theorem registerLaw_iff (h : k.FromCalls names calls) (hdiffer : k.NamesDiffer) :
    RegisterLaw k names name pid ↔ NameFits calls name pid := by
  have hstored : (∃ j, k.AnswersTo j (storedName name)) →
      storedName name ∈ calls.map fun c => storedName c.1 := by
    rintro ⟨j, hj⟩
    obtain ⟨m, hm, hn⟩ := h.entries j _ hj
    obtain ⟨c, hc, rfl⟩ := h.names m hm
    exact List.mem_map.mpr ⟨c, hc, hn.symm⟩
  rcases ipcRegisterService_cases k name pid with ⟨i, hi, heq⟩ | ⟨hno, i, hfree, heq⟩ |
      ⟨hno, hfull, heq⟩
  · -- the name has an entry, and so it fits
    refine iff_of_true ?_ (Or.inl (h.length_le hi))
    have hdiffer' : (k.ipcRegisterService name pid).1.NamesDiffer := by
      rw [heq]
      intro a b n ha hb
      exact hdiffer a b n ((answers_setPid a n).mp ha) ((answers_setPid b n).mp hb)
    refine ⟨fun _ _ _ => ?_, fun n _ hn => ?_, hdiffer', fun slot hslot hneg => ?_⟩
    · have hi' : (k.ipcRegisterService name pid).1.AnswersTo i name := by
        rw [heq]
        exact (answers_setPid i name).mpr hi
      rw [ipcLookupService_of_answers hdiffer' hi', heq]
      simp
    · rw [heq]
      refine ipcLookupService_congr fun j => ⟨answers_setPid j n, fun hj => ?_⟩
      have hne : j ≠ i := by
        rintro rfl
        exact hn (hj.2.symm.trans hi.2)
      simp [hne]
    · rw [heq] at hslot
      injection hslot with hslot
      rw [← hslot] at hneg
      exact absurd hneg (Int32.not_lt.mpr (ofNat_slot_nonneg i))
  · have hnotfull : ¬ ∀ i, (k.services i).active = true := by
      intro hall
      rw [hall i] at hfree
      cases hfree
    have hcalls : ∀ c ∈ calls, ∃ j, k.AnswersTo j (storedName c.1) :=
      fun c hc => (h.calls c hc).resolve_right hnotfull
    by_cases hshort : name.length ≤ 31
    · -- the name is stored as it is
      have hself := storedName_eq_self hshort
      refine iff_of_true (registerLaw_fill hdiffer hfree heq ?_ (Or.inl hself.symm) ?_)
        (Or.inl hshort)
      · rwa [hself]
      · intro n _ hn
        rwa [hself]
    constructor
    · intro hlaw
      have hself : name ≠ storedName name := by
        intro hself
        exact hshort (hself ▸ length_storedName name)
      refine Or.inr (Or.inr ⟨?_, fun hmem => ?_⟩)
      · -- no entry has the name, and so the lookup gives no PID
        rw [← hlaw.found _ (congrArg Prod.snd heq) (ofNat_slot_nonneg i), heq]
        refine ipcLookupService_of_not fun j hj => ?_
        rcases (answers_fill hfree j name).mp hj with hj | ⟨_, hj⟩
        · exact hno j hj
        · exact hself hj
      · -- the stored name has an entry already, and now a second one
        obtain ⟨c, hc, hcname⟩ := List.mem_map.mp hmem
        obtain ⟨j, hj⟩ := hcalls c hc
        have hji : j = i := by
          refine hlaw.differ j i (storedName name) ?_ ?_ <;> rw [heq]
          · exact (answers_fill hfree j _).mpr (Or.inl (hcname ▸ hj))
          · exact (answers_fill hfree i _).mpr (Or.inr ⟨rfl, rfl⟩)
        rw [hji] at hj
        rw [hj.1] at hfree
        cases hfree
    · intro hfits
      rcases hfits with hfits | hfits | ⟨hpid, hnew⟩
      · exact absurd hfits hshort
      · exact absurd ((h.full_iff hdiffer).mpr hfits) hnotfull
      · refine registerLaw_fill hdiffer hfree heq (fun j hj => hnew (hstored ⟨j, hj⟩))
          (Or.inr ⟨hpid, hno⟩) fun n hn _ hname => ?_
        -- a name registered as the stored form is a stored name of an earlier call
        obtain ⟨c, hc, rfl⟩ := h.names n hn
        refine hnew (List.mem_map.mpr ⟨c, hc, ?_⟩)
        rw [hname]
        exact storedName_eq_self (length_storedName name)
  · -- the registry is full, and the call changes nothing
    refine iff_of_true ⟨fun slot hslot hpos => ?_, fun n _ _ => ?_, ?_, fun _ _ _ => ?_⟩
      (Or.inr (Or.inl ((h.full_iff hdiffer).mp hfull)))
    · rw [heq] at hslot
      injection hslot with hslot
      rw [← hslot] at hpos
      exact absurd hpos (by decide)
    · rw [heq]
    · rwa [heq]
    · exact h.card_names hdiffer hfull

/-- The law of the last call gives different names again. -/
theorem namesDiffer_registerStep {c : List UInt8 × UInt32}
    (hlaw : RegisterLaw k names c.1 c.2) : (registerStep (k, names) c).1.NamesDiffer := by
  have hstep : (registerStep (k, names) c).1 = (k.ipcRegisterService c.1 c.2).1 := by
    unfold registerStep
    split <;> next heq => exact (congrArg Prod.fst heq).symm
  rw [hstep]
  exact hlaw.differ

/-- The entries have different names after calls that all follow the law. -/
theorem namesDiffer_registerAll (hempty : ∀ i, (k.services i).active = false)
    (hlaw : ∀ earlier c later, calls = earlier ++ c :: later →
      RegisterLaw (k.registerAll earlier).1 (k.registerAll earlier).2 c.1 c.2) :
    (k.registerAll calls).1.NamesDiffer := by
  cases calls using List.reverseRecOn with
  | nil =>
    intro i j n hi _
    have hi' : (k.services i).active = true := hi.1
    rw [hempty i] at hi'
    cases hi'
  | append_singleton calls c =>
    rw [registerAll_append]
    exact namesDiffer_registerStep (hlaw calls c [] rfl)

/-- **When the registry is a map.**  From the empty registry, a sequence of calls follows the
law of a map throughout exactly if the name of every call fits. -/
theorem registryIsMap_iff (k : Kernel) (hempty : ∀ i, (k.services i).active = false)
    (calls : List (List UInt8 × UInt32)) :
    k.RegistryIsMap calls ↔
      ∀ earlier c later, calls = earlier ++ c :: later → NameFits earlier c.1 c.2 := by
  constructor
  · intro hmap earlier c later hcalls
    -- the entries differ by the law of the earlier calls
    have hdiffer := @namesDiffer_registerAll k earlier hempty fun e d l he => by
      refine hmap e d (l ++ c :: later) ?_
      rw [hcalls, he, List.append_assoc, List.cons_append]
    exact (registerLaw_iff (fromCalls_registerAll hempty earlier) hdiffer).mp
      (hmap earlier c later hcalls)
  · intro hfits
    -- by induction on the number of earlier calls
    have hlaw : ∀ n earlier c later, earlier.length = n → calls = earlier ++ c :: later →
        RegisterLaw (k.registerAll earlier).1 (k.registerAll earlier).2 c.1 c.2 := by
      intro n
      induction n using Nat.strong_induction_on with
      | _ n ih =>
        intro earlier c later hn hcalls
        have hdiffer := @namesDiffer_registerAll k earlier hempty fun e d l he => by
          refine ih e.length ?_ e d (l ++ c :: later) rfl ?_
          · rw [← hn, he]
            simp
          · rw [hcalls, he, List.append_assoc, List.cons_append]
        exact (registerLaw_iff (fromCalls_registerAll hempty earlier) hdiffer).mpr
          (hfits earlier c later hcalls)
    intro earlier c later hcalls
    exact hlaw _ earlier c later rfl hcalls

/-- The registrations of two names and a new PID for the first. -/
theorem registryIsMap_short :
    RegistryIsMap (boot 0x1000) [([118, 102, 115], 2), ([97, 116, 97], 3), ([118, 102, 115], 4)] := by
  refine (registryIsMap_iff (boot 0x1000) (fun _ => rfl) _).mpr fun earlier c later hcalls => ?_
  have hmem : c ∈ [(([118, 102, 115] : List UInt8), (2 : UInt32)), ([97, 116, 97], 3),
      ([118, 102, 115], 4)] := by
    rw [hcalls]
    exact List.mem_append_right _ List.mem_cons_self
  have hshort : ∀ d ∈ [(([118, 102, 115] : List UInt8), (2 : UInt32)), ([97, 116, 97], 3),
      ([118, 102, 115], 4)], d.1.length ≤ 31 := by decide
  exact Or.inl (hshort c hmem)

/-- A name of 32 bytes is not found after it was registered. -/
theorem long_name_lost :
    ¬ RegistryIsMap (boot 0x1000) [(List.replicate 32 97, 2)] := by
  intro hmap
  have hfound := (hmap [] (List.replicate 32 97, 2) [] rfl).found 0 (by decide) (by decide)
  exact absurd hfound (by decide)

end Kernel

end Microkernel
