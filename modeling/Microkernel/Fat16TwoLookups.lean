/-
# FAT16: two lookups of a name

`navigate_to_dir` in `src/fat16.c` reads up to 128 entries of a directory and compares long names as
they are; `find_entry_in_dir` goes over all entries and ignores case.  When the two agree on a
directory.
-/
import Microkernel.Fat16LongNames

namespace Microkernel

/-! ## The two lookups -/

/-- One step of `navigate_to_dir`: the directory of this name, or `none` for the error. -/
def navigateStep (info : Fat16Info) (fuel : ℕ) (d : Disk) (cluster : ℕ) (component : List UInt8) :
    Option (Option ℕ) :=
  (readDir info fuel d cluster 128).map fun entries =>
    (entries.find? (·.isNamed component)).bind fun e =>
      if e.sfn.isDir then some e.sfn.clusterLo else none

theorem navigateStep_mono {info : Fat16Info} {d : Disk} {fuel fuel' c : ℕ} {name : List UInt8}
    {r : Option ℕ} (hle : fuel ≤ fuel') (h : navigateStep info fuel d c name = some r) :
    navigateStep info fuel' d c name = some r := by
  obtain ⟨es, hes, rfl⟩ := Option.map_eq_some_iff.mp h
  exact Option.map_eq_some_iff.mpr ⟨es, readDir_mono hle hes, rfl⟩

section

variable (info : Fat16Info) (d : Disk) (c : ℕ) (name : List UInt8)

/-- The step returns this cluster. -/
def StepsTo (cluster : ℕ) : Prop := ∃ fuel, navigateStep info fuel d c name = some (some cluster)

/-- `find_entry_in_dir` finds a directory with this cluster. -/
def FindsDir (cluster : ℕ) : Prop :=
  ∃ fuel p s, findEntryInDir info fuel d c name = some (some (p, s)) ∧ s.isDir = true ∧
    s.clusterLo = cluster

/-- The entries of the directory, as far as `k` clusters go. -/
def extEntries (k : ℕ) : List ExtEntry := (dirEntries info d c k).map Prod.snd

/-- The first entry that matches the name. -/
def FirstMatch (e : ExtEntry) : Prop := ∃ k, (extEntries info d c k).find? (·.matches name) = some e

/-- The first entry among 128 with exactly this name. -/
def FirstNamed (e : ExtEntry) : Prop :=
  ∃ k, ((extEntries info d c k).take 128).find? (·.isNamed name) = some e

/-- The two lookups make the same of the entry that matches first: it is also the first with exactly
this name, or neither lookup comes to a directory, or they come to entries of one directory. -/
def LookupsMeet (m : ExtEntry) : Prop :=
  ReadEnds info d c ∧ FirstNamed info d c name m ∨
  m.sfn.isDir = false ∧ (ReadEnds info d c → ∀ n, FirstNamed info d c name n → n.sfn.isDir = false) ∨
  ReadEnds info d c ∧ ∃ n, FirstNamed info d c name n ∧ n.sfn.isDir = true ∧ m.sfn.isDir = true ∧
    n.sfn.clusterLo = m.sfn.clusterLo

end

/-! ## Entries of a directory -/

section

variable {info : Fat16Info} {d : Disk} {c : ℕ} {name : List UInt8} {e m : ExtEntry}

/-- An entry with exactly this name matches it. -/
theorem ExtEntry.matches_of_isNamed (h : e.isNamed name = true) : e.matches name = true := by
  have hrefl : ∀ bs : List UInt8, equalsIgnoringCase bs bs = true := fun bs => beq_self_eq_true _
  unfold ExtEntry.isNamed at h
  unfold ExtEntry.matches
  rw [Bool.or_eq_true] at h ⊢
  rcases h with hshort | hname
  · exact Or.inr hshort
  · have hname := eq_of_beq hname
    unfold ExtEntry.extName at hname
    split_ifs at hname with hlfn
    · right
      unfold strcasecmp83
      rw [← hname]
      exact hrefl _
    · left
      rw [hname] at hlfn ⊢
      rw [hrefl, Bool.and_true]
      exact bne_iff_ne.mpr hlfn

/-- What follows the slots of a directory adds entries at its end only. -/
theorem entriesFrom_grow (l more : List (SlotPos × DirSlot)) : ∀ buf : Option Memory,
    entriesFrom buf l <+: entriesFrom buf (l ++ more) := by
  induction l with
  | nil => exact fun buf => List.nil_prefix
  | cons p l ih =>
    intro buf
    rw [List.cons_append]
    unfold entriesFrom
    split_ifs
    · exact List.prefix_refl _
    · exact ih none
    · exact ih _
    · exact ih none
    · exact (List.prefix_cons_inj _).mpr (ih none)

/-- More clusters add entries at the end only. -/
theorem extEntries_grow {k k' : ℕ} (h : k ≤ k') : extEntries info d c k <+: extEntries info d c k' := by
  obtain ⟨more, hmore⟩ := @dirSlots_append info d c k k' h
  apply List.IsPrefix.map
  unfold dirEntries
  rw [hmore]
  exact entriesFrom_grow _ _ _

theorem FirstMatch.unique {m' : ExtEntry} (h : FirstMatch info d c name m)
    (h' : FirstMatch info d c name m') : m = m' := by
  obtain ⟨k, hk⟩ := h
  obtain ⟨k', hk'⟩ := h'
  have h₁ := (extEntries_grow (Nat.le_max_left k k')).find?_eq_some hk
  have h₂ := (extEntries_grow (Nat.le_max_right k k')).find?_eq_some hk'
  exact Option.some.inj (h₁.symm.trans h₂)

theorem FirstNamed.unique {m' : ExtEntry} (h : FirstNamed info d c name m)
    (h' : FirstNamed info d c name m') : m = m' := by
  obtain ⟨k, hk⟩ := h
  obtain ⟨k', hk'⟩ := h'
  have h₁ := ((extEntries_grow (Nat.le_max_left k k')).take 128).find?_eq_some hk
  have h₂ := ((extEntries_grow (Nat.le_max_right k k')).take 128).find?_eq_some hk'
  exact Option.some.inj (h₁.symm.trans h₂)

/-- If an entry has exactly this name, some entry matches it. -/
theorem FirstNamed.exists_match (h : FirstNamed info d c name e) : ∃ m, FirstMatch info d c name m := by
  obtain ⟨k, hk⟩ := h
  have hmem := List.mem_of_mem_take (List.mem_of_find?_eq_some hk)
  have hnamed : e.isNamed name = true := List.find?_some (p := fun x : ExtEntry => x.isNamed name) hk
  have hmatch := ExtEntry.matches_of_isNamed hnamed
  cases hfind : (extEntries info d c k).find? (·.matches name) with
  | none => exact absurd hmatch (List.find?_eq_none.mp hfind e hmem)
  | some m => exact ⟨m, k, hfind⟩

/-! ## What the lookups give -/

/-- The step gives the directory that is named first. -/
theorem stepsTo_iff {cluster : ℕ} : StepsTo info d c name cluster ↔
    ReadEnds info d c ∧ ∃ n, FirstNamed info d c name n ∧ n.sfn.isDir = true ∧
      n.sfn.clusterLo = cluster := by
  constructor
  · rintro ⟨fuel, h⟩
    obtain ⟨es, hes, h⟩ := Option.map_eq_some_iff.mp h
    obtain ⟨n, hn, hdir⟩ := Option.bind_eq_some_iff.mp h
    split_ifs at hdir with hisDir
    refine ⟨returns_readDir.mp ⟨es, fuel, hes⟩, n, ⟨fuel, ?_⟩, hisDir, Option.some.inj hdir⟩
    rw [readDir_eq_take (by norm_num) hes] at hn
    exact hn
  · rintro ⟨hends, n, ⟨k, hk⟩, hisDir, hcluster⟩
    obtain ⟨es, fuel, hes⟩ := returns_readDir.mpr hends
    have hes' := readDir_mono (Nat.le_max_left fuel k) hes
    have hn : es.find? (·.isNamed name) = some n := by
      rw [readDir_eq_take (by norm_num) hes']
      exact ((extEntries_grow (Nat.le_max_right fuel k)).take 128).find?_eq_some hk
    refine ⟨max fuel k, ?_⟩
    unfold navigateStep
    rw [hes', Option.map_some, hn, Option.bind_some, if_pos hisDir, hcluster]

/-- A search that comes to an entry that matches returns. -/
theorem findEntryInDir_of_find {k : ℕ} {e : SlotPos × ExtEntry}
    (h : (dirEntries info d c k).find? (fun e => e.2.matches name) = some e) :
    findEntryInDir info k d c name = some (some (e.1, e.2.sfn)) := by
  have hfold : ∀ l : List (SlotPos × ExtEntry), l.find? (fun e => e.2.matches name) = some e →
      foldUntil (ρ := Option (SlotPos × DirSlot)) (fun (_ : Unit) (x : SlotPos × ExtEntry) =>
        if x.2.matches name then .inl (some (x.1, x.2.sfn)) else .inr ()) l () =
        .inl (some (e.1, e.2.sfn)) := by
    intro l
    induction l with
    | nil =>
      intro hnil
      cases hnil
    | cons x l ih =>
      intro hx
      rw [foldUntil_cons]
      rw [List.find?_cons] at hx
      cases hmatch : x.2.matches name with
      | true =>
        rw [hmatch] at hx
        obtain rfl := Option.some.inj hx
        rw [if_pos rfl]
        rfl
      | false =>
        rw [hmatch] at hx
        rw [if_neg Bool.false_ne_true]
        exact ih hx
  have hentries := hfold _ h
  unfold findEntryInDir
  rcases foldUntil_visitEntry (ρ := Option (SlotPos × DirSlot)) (fun _ : Unit => none)
      (fun _ p e => if e.matches name then .inl (some (p, e.sfn)) else .inr ())
      (dirSlots info d c k) () none with ⟨r, hr, hvisit⟩ | ⟨t, ht, _⟩
  · rw [scanDir_of_inl hvisit]
    rw [Sum.inl.inj (hr.symm.trans hentries)]
    rfl
  · cases ht.symm.trans hentries

/-- The search finds the entry that matches first. -/
theorem findsDir_iff {cluster : ℕ} : FindsDir info d c name cluster ↔
    ∃ m, FirstMatch info d c name m ∧ m.sfn.isDir = true ∧ m.sfn.clusterLo = cluster := by
  constructor
  · rintro ⟨fuel, p, s, h, hisDir, hcluster⟩
    obtain ⟨e, he, heq⟩ := Option.map_eq_some_iff.mp (findEntryInDir_eq_find h).symm
    obtain ⟨-, rfl⟩ := Prod.mk.inj heq
    refine ⟨e.2, ⟨fuel, ?_⟩, hisDir, hcluster⟩
    unfold extEntries
    rw [List.find?_map]
    exact Option.map_eq_some_iff.mpr ⟨e, he, rfl⟩
  · rintro ⟨m, ⟨k, hk⟩, hisDir, hcluster⟩
    unfold extEntries at hk
    rw [List.find?_map] at hk
    obtain ⟨e, he, rfl⟩ := Option.map_eq_some_iff.mp hk
    exact ⟨k, _, _, findEntryInDir_of_find he, hisDir, hcluster⟩

end

/-- The root directory of the small volume with the long name of a directory, then its entry. -/
def lowerCaseDisk : Disk :=
  writeDirEntries piecesDisk ⟨2, 0⟩ (buildLfnEntries [0x61] 0x7A ++
    [(fun k => if (k : ℕ) < 11 then 0x41 else if (k : ℕ) = 11 then 0x10 else if (k : ℕ) = 26 then 5 else 0 :
      DirSlot)])

end Microkernel
