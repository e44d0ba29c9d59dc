/-
# NTFS: parsing and the buffers

When the functions that parse records stay inside their buffers.  The numbers they add up come
from the disk at every level: the chain of attributes in a record, the header of an attribute, the
value of the index root, the chain of index entries and the name in an entry.  At each level the
code checks some of them against the enclosing one and uses others as they are.
-/
import Microkernel.Ntfs

namespace Microkernel

open Access

/-! ## The chain of attributes -/

/-- `find_attribute` takes what is at `off` for an attribute. -/
structure IsAttr (recSize : ℕ) (m : Memory) (off : ℕ) : Prop where
  header_inside : off + 16 ≤ recSize
  type_ne_end : m.loadLE off 4 ≠ attrEnd
  type_ne_zero : m.loadLE off 4 ≠ 0
  length_pos : 0 < m.loadLE (off + 4) 4
  length_le : m.loadLE (off + 4) 4 ≤ recSize - off

/-- The offsets that `find_attribute` comes to if it passes over the types `passed`. -/
inductive AttrAt (recSize : ℕ) (m : Memory) (passed : ℕ → Prop) : ℕ → Prop
  | first : AttrAt recSize m passed (m.loadLE 20 2)
  | next {off : ℕ} (h : AttrAt recSize m passed off) (ha : IsAttr recSize m off)
    (hp : passed (m.loadLE off 4)) : AttrAt recSize m passed (off + m.loadLE (off + 4) 4)

/-- The attributes of a record. -/
def AttrOf (recSize : ℕ) (m : Memory) (attr : ℕ) : Prop :=
  AttrAt recSize m (fun _ => True) attr ∧ IsAttr recSize m attr

/-- The first attribute of a type. -/
def FirstOf (recSize : ℕ) (m : Memory) (type attr : ℕ) : Prop :=
  AttrAt recSize m (· ≠ type) attr ∧ IsAttr recSize m attr ∧ m.loadLE attr 4 = type

/-- The attributes that some sequence of calls of `find_attribute` gives. -/
inductive Found (recSize : ℕ) (b : Buffer) : ℕ → Prop
  | first {type attr : ℕ} (h : findAttribute recSize b type none = .ok (some attr)) :
    Found recSize b attr
  | next {type prev attr : ℕ} (hprev : Found recSize b prev)
    (h : findAttribute recSize b type (some prev) = .ok (some attr)) : Found recSize b attr

section

variable {recSize : ℕ} {m : Memory}

/-- One round of `find_attribute` at an attribute. -/
theorem findAttributeLoop_of_isAttr {type n off : ℕ} (ha : IsAttr recSize m off) :
    findAttributeLoop recSize ⟨recSize, m⟩ type (n + 1) off =
      if m.loadLE off 4 = type then .ok (some off)
      else findAttributeLoop recSize ⟨recSize, m⟩ type n (off + m.loadLE (off + 4) 4) := by
  have hin := ha.header_inside
  have htype : ¬ (m.loadLE off 4 = attrEnd ∨ m.loadLE off 4 = 0) :=
    not_or.mpr ⟨ha.type_ne_end, ha.type_ne_zero⟩
  have hlen : ¬ (m.loadLE (off + 4) 4 = 0 ∨ m.loadLE (off + 4) 4 > recSize - off) :=
    not_or.mpr ⟨ha.length_pos.ne', Nat.not_lt.mpr ha.length_le⟩
  rw [findAttributeLoop, if_pos hin, Buffer.load_of_le _ (by show off + 4 ≤ recSize; omega),
    ok_bind, if_neg htype, Buffer.load_of_le _ (by show off + 4 + 4 ≤ recSize; omega), ok_bind,
    if_neg hlen]

/-- One round elsewhere: the search ends. -/
theorem findAttributeLoop_of_not_isAttr {type n off : ℕ} (ha : ¬ IsAttr recSize m off) :
    findAttributeLoop recSize ⟨recSize, m⟩ type (n + 1) off = .ok none := by
  rw [findAttributeLoop]
  by_cases hin : off + 16 ≤ recSize
  · rw [if_pos hin, Buffer.load_of_le _ (by show off + 4 ≤ recSize; omega), ok_bind]
    by_cases htype : m.loadLE off 4 = attrEnd ∨ m.loadLE off 4 = 0
    · rw [if_pos htype]
    · rw [if_neg htype, Buffer.load_of_le _ (by show off + 4 + 4 ≤ recSize; omega), ok_bind]
      by_cases hlen : m.loadLE (off + 4) 4 = 0 ∨ m.loadLE (off + 4) 4 > recSize - off
      · rw [if_pos hlen]
      · refine absurd ?_ ha
        rw [not_or] at htype hlen
        exact ⟨hin, htype.1, htype.2, Nat.pos_of_ne_zero hlen.1, Nat.not_lt.mp hlen.2⟩
  · rw [if_neg hin]

/-- The search stays inside the record and does not run out of rounds: each of them goes at least
one byte ahead. -/
theorem inside_findAttributeLoop {type : ℕ} (n : ℕ) :
    ∀ off, 1 ≤ n → recSize < n + off →
      Inside (findAttributeLoop recSize ⟨recSize, m⟩ type n off) := by
  induction n with
  | zero => intro off h; omega
  | succ n ih =>
    intro off _ hn
    by_cases ha : IsAttr recSize m off
    · rw [findAttributeLoop_of_isAttr ha]
      split_ifs
      · exact inside_ok _
      · have hin := ha.header_inside
        have hlen := ha.length_pos
        exact ih _ (by omega) (by omega)
    · rw [findAttributeLoop_of_not_isAttr ha]
      exact inside_ok _

/-- What a search gives is an attribute of the chain it walks. -/
theorem isAttr_of_findAttributeLoop {passed : ℕ → Prop} {type attr : ℕ}
    (hpassed : ∀ t, t ≠ type → passed t) (n : ℕ) :
    ∀ off, AttrAt recSize m passed off →
      findAttributeLoop recSize ⟨recSize, m⟩ type n off = .ok (some attr) →
      AttrAt recSize m passed attr ∧ IsAttr recSize m attr ∧ m.loadLE attr 4 = type := by
  induction n with
  | zero => intro off _ h; cases h
  | succ n ih =>
    intro off hoff h
    by_cases ha : IsAttr recSize m off
    · rw [findAttributeLoop_of_isAttr ha] at h
      split_ifs at h with htype
      · cases h
        exact ⟨hoff, ha, htype⟩
      · exact ih _ (.next hoff ha (hpassed _ htype)) h
    · rw [findAttributeLoop_of_not_isAttr ha] at h
      cases h

/-- Where a search begins that goes on after an attribute. -/
theorem attributeStart_of_isAttr {off : ℕ} (ha : IsAttr recSize m off) :
    attributeStart ⟨recSize, m⟩ (some off) = .ok (off + m.loadLE (off + 4) 4) := by
  have hin := ha.header_inside
  rw [attributeStart, Buffer.load_of_le _ (by show off + 4 + 4 ≤ recSize; omega)]
  rfl

theorem attributeStart_none (h : 22 ≤ recSize) :
    attributeStart ⟨recSize, m⟩ none = .ok (m.loadLE 20 2) :=
  Buffer.load_of_le _ h

/-- **The attributes that are found** are those of the record. -/
theorem found_iff (h : 22 ≤ recSize) {attr : ℕ} :
    Found recSize ⟨recSize, m⟩ attr ↔ AttrOf recSize m attr := by
  constructor
  · intro hfound
    induction hfound with
    | first hf =>
      rw [findAttribute, attributeStart_none h, ok_bind] at hf
      obtain ⟨hat, ha, -⟩ := isAttr_of_findAttributeLoop (fun _ _ => trivial) _ _ .first hf
      exact ⟨hat, ha⟩
    | next _ hf ih =>
      rw [findAttribute, attributeStart_of_isAttr ih.2, ok_bind] at hf
      obtain ⟨hat, ha, -⟩ :=
        isAttr_of_findAttributeLoop (fun _ _ => trivial) _ _ (.next ih.1 ih.2 trivial) hf
      exact ⟨hat, ha⟩
  · rintro ⟨hat, ha⟩
    induction hat with
    | first =>
      refine @Found.first _ _ (m.loadLE (m.loadLE 20 2) 4) _ ?_
      rw [findAttribute, attributeStart_none h, ok_bind, findAttributeLoop_of_isAttr ha, if_pos rfl]
    | @next off _ hoff _ ih =>
      refine @Found.next _ _ (m.loadLE (off + m.loadLE (off + 4) 4) 4) _ _ (ih hoff) ?_
      rw [findAttribute, attributeStart_of_isAttr hoff, ok_bind, findAttributeLoop_of_isAttr ha,
        if_pos rfl]

/-- The first attribute of a type is what a search for it gives. -/
theorem findAttribute_eq_iff (h : 22 ≤ recSize) {type attr : ℕ} :
    findAttribute recSize ⟨recSize, m⟩ type none = .ok (some attr) ↔
      FirstOf recSize m type attr := by
  rw [findAttribute, attributeStart_none h, ok_bind]
  constructor
  · exact isAttr_of_findAttributeLoop (fun _ ht => ht) _ _ .first
  · rintro ⟨hat, ha, htype⟩
    -- the search comes to every attribute before the first of the type, with rounds left
    have hrun : ∀ off, AttrAt recSize m (· ≠ type) off → ∃ n, 1 ≤ n ∧ recSize < n + off ∧
        findAttributeLoop recSize ⟨recSize, m⟩ type (recSize + 1) (m.loadLE 20 2) =
          findAttributeLoop recSize ⟨recSize, m⟩ type n off := by
      intro off hoff
      induction hoff with
      | first => exact ⟨recSize + 1, by omega, by omega, rfl⟩
      | @next off _ hoff hp ih =>
        obtain ⟨n, hn, hsize, heq⟩ := ih
        obtain ⟨k, rfl⟩ : ∃ k, n = k + 1 := ⟨n - 1, by omega⟩
        rw [findAttributeLoop_of_isAttr hoff, if_neg hp] at heq
        have hin := hoff.header_inside
        have hlen := hoff.length_pos
        exact ⟨k, by omega, by omega, heq⟩
    obtain ⟨n, hn, -, heq⟩ := hrun attr hat
    obtain ⟨k, rfl⟩ : ∃ k, n = k + 1 := ⟨n - 1, by omega⟩
    rw [heq, findAttributeLoop_of_isAttr ha, if_pos htype]

theorem inside_findAttribute_none (type : ℕ) :
    Inside (findAttribute recSize ⟨recSize, m⟩ type none) ↔ 22 ≤ recSize := by
  unfold findAttribute attributeStart
  rw [Buffer.inside_load_bind]
  constructor
  · exact fun h => h.1
  · exact fun h => ⟨h, inside_findAttributeLoop _ _ (by omega) (by omega)⟩

theorem inside_findAttribute_some (type : ℕ) {prev : ℕ} (ha : IsAttr recSize m prev) :
    Inside (findAttribute recSize ⟨recSize, m⟩ type (some prev)) := by
  rw [findAttribute, attributeStart_of_isAttr ha, ok_bind]
  exact inside_findAttributeLoop _ _ (by omega) (by omega)

end

/-! ## The header of an attribute -/

/-- The fields that the code reads beyond the common header lie in the record. -/
def AttrFits (recSize : ℕ) (m : Memory) (attr : ℕ) : Prop :=
  if m.loadLE (attr + 8) 1 = 0 then attr + 22 ≤ recSize else attr + 34 ≤ recSize

section

variable {recSize : ℕ} {m : Memory}

theorem nonResident_of_isAttr {attr : ℕ} (ha : IsAttr recSize m attr) :
    nonResident ⟨recSize, m⟩ attr = .ok (m.loadLE (attr + 8) 1 != 0) := by
  have hin := ha.header_inside
  unfold nonResident
  rw [Buffer.load_of_le _ (by show attr + 8 + 1 ≤ recSize; omega)]
  rfl

theorem inside_getResidentData {attr : ℕ} (ha : IsAttr recSize m attr) :
    Inside (getResidentData ⟨recSize, m⟩ attr) ↔
      (m.loadLE (attr + 8) 1 = 0 → attr + 22 ≤ recSize) := by
  unfold getResidentData
  rw [nonResident_of_isAttr ha, ok_bind]
  by_cases h : m.loadLE (attr + 8) 1 = 0
  · simp only [h, bne_self_eq_false, Bool.false_eq_true, if_false, true_implies,
      Buffer.inside_load_bind]
    constructor
    · rintro ⟨_, h22, _⟩
      exact h22
    · intro h22
      exact ⟨by show attr + 16 + 4 ≤ recSize; omega, h22, inside_ok _⟩
  · simp only [bne_iff_ne, ne_eq, h, not_false_eq_true, if_true, false_implies, iff_true]
    exact inside_ok _

/-- The loop over the runs stays before the end of the attribute. -/
theorem inside_parseRunsLoop {b : Buffer} {re : ℕ} (hre : re ≤ b.size) (n : ℕ) :
    ∀ rd prev runs, re < n + rd → 1 ≤ n → Inside (parseRunsLoop b re n rd prev runs) := by
  induction n with
  | zero => intro rd prev runs _ h; omega
  | succ n ih =>
    intro rd prev runs hn _
    rw [parseRunsLoop]
    split_ifs with hrd
    · rw [Buffer.inside_load_bind]
      refine ⟨by omega, ?_⟩
      generalize b.mem.loadLE rd 1 = hdr
      dsimp only
      by_cases hstop : hdr = 0 ∨ maxDataRuns ≤ runs.length
      · rw [if_pos hstop]
        exact inside_ok _
      by_cases hroom : hdr % 16 = 0 ∨ rd + 1 + hdr % 16 + hdr / 16 > re
      · rw [if_neg hstop, if_pos hroom]
        exact inside_ok _
      rw [if_neg hstop, if_neg hroom]
      rw [not_or] at hroom
      -- the bytes of the run lie before the end of the attribute
      have hlen : b.bytes (rd + 1) (hdr % 16) = .ok _ := if_pos (Or.inr (by omega))
      have hofs : b.bytes (rd + 1 + hdr % 16) (hdr / 16) = .ok _ := if_pos (Or.inr (by omega))
      rw [hlen, ok_bind, hofs, ok_bind]
      split_ifs
      · exact ih _ _ _ (by omega) (by omega)
      · exact ih _ _ _ (by omega) (by omega)
    · exact inside_ok _

theorem inside_parseDataRuns {attr : ℕ} (ha : IsAttr recSize m attr) :
    Inside (parseDataRuns ⟨recSize, m⟩ attr) ↔
      (m.loadLE (attr + 8) 1 ≠ 0 → attr + 34 ≤ recSize) := by
  have hin := ha.header_inside
  have hlen := ha.length_le
  unfold parseDataRuns
  rw [nonResident_of_isAttr ha, ok_bind]
  by_cases h : m.loadLE (attr + 8) 1 = 0
  · simp only [h, bne_self_eq_false, Bool.false_eq_true, if_false, ne_eq, not_true, false_implies,
      iff_true]
    exact inside_ok _
  · simp only [bne_iff_ne, ne_eq, h, not_false_eq_true, if_true, true_implies,
      Buffer.inside_load_bind]
    constructor
    · exact fun hr => hr.1
    · intro h34
      refine ⟨h34, by show attr + 4 + 4 ≤ recSize; omega, ?_⟩
      exact inside_parseRunsLoop (by show attr + m.loadLE (attr + 4) 4 ≤ recSize; omega) _ _ _ _
        (by omega) (by omega)

/-- An attribute is read inside the record exactly if its fields lie there. -/
theorem attrFits_iff {attr : ℕ} (ha : IsAttr recSize m attr) :
    AttrFits recSize m attr ↔
      Inside (getResidentData ⟨recSize, m⟩ attr) ∧ Inside (parseDataRuns ⟨recSize, m⟩ attr) := by
  rw [inside_getResidentData ha, inside_parseDataRuns ha]
  unfold AttrFits
  split_ifs with h
  · simp [h]
  · simp [h]

end

/-! ## The chain of index entries -/

/-- The length of the entry at `ie`, its flags and the length of what it holds. -/
def entryLength (m : Memory) (ie : ℕ) : ℕ := m.loadLE (u32 (ie + 8)) 2

def entryFlags (m : Memory) (ie : ℕ) : ℕ := m.loadLE (u32 (ie + 12)) 4

def entryContent (m : Memory) (ie : ℕ) : ℕ := m.loadLE (u32 (ie + 10)) 2

/-- The walk goes on after the entry at `off`. -/
structure GoesOn (m : Memory) (base size off : ℕ) : Prop where
  header_le : u32 (off + 16) ≤ size
  length_ne : entryLength m (base + off) ≠ 0
  length_le : u32 (off + entryLength m (base + off)) ≤ size
  not_last : (entryFlags m (base + off)).testBit 1 = false

/-- The offsets of the entries of an index. -/
inductive EntryAt (m : Memory) (base size : ℕ) : ℕ → Prop
  | first : EntryAt m base size 0
  | next {off : ℕ} (h : EntryAt m base size off) (hgo : GoesOn m base size off) :
    EntryAt m base size (u32 (off + entryLength m (base + off)))

/-- The name in the entry at `ie` lies in a buffer of `n` bytes, unless it is a DOS name, of which
only the type is read. -/
def NameInside (n : ℕ) (m : Memory) (ie : ℕ) : Prop :=
  u32 (ie + 81) < n ∧
    (m.loadLE (u32 (ie + 81)) 1 ≠ 2 →
      u32 ie + 8 ≤ n ∧
        (m.loadLE (u32 (ie + 80)) 1 = 0 ∨
          u32 (ie + 82) + 2 * min (m.loadLE (u32 (ie + 80)) 1) 255 ≤ n))

/-- The entry at `off` lies in a buffer of `n` bytes, as far as the code reads it. -/
structure EntryInside (n : ℕ) (m : Memory) (base size off : ℕ) : Prop where
  length_inside : u32 (off + 16) ≤ size → u32 (base + off + 8) + 2 ≤ n
  flags_inside : u32 (off + 16) ≤ size → entryLength m (base + off) ≠ 0 →
    u32 (off + entryLength m (base + off)) ≤ size → u32 (base + off + 12) + 4 ≤ n
  content_inside : GoesOn m base size off → u32 (base + off + 10) + 2 ≤ n
  name_inside : GoesOn m base size off → 66 ≤ entryContent m (base + off) →
    NameInside n m (base + off)

/-- The callbacks that list and look up read the entry at `ie` inside the buffer. -/
def CallbacksInside (b : Buffer) (ie : ℕ) : Prop :=
  (∀ name found, Inside (dirLookupCallback name b ie found)) ∧
    ∀ max entries, Inside (dirListCallback max b ie entries)

/-- A callback that notes the entries it is given. -/
def noteEntry (_ : Buffer) (ie : ℕ) (ies : List ℕ) : Access (Bool × List ℕ) :=
  .ok (true, ies ++ [ie])

/-- `walk_index_entries` stays inside the buffer with either callback, and so do the callbacks at
every entry it has for them. -/
structure WalksInside (b : Buffer) (base size : ℕ) : Prop where
  callbacks : ∃ ies, walkIndexEntries noteEntry b base size [] = .ok ies ∧
    ∀ ie ∈ ies, CallbacksInside b ie
  lookup : ∀ name found, Inside (walkIndexEntries (dirLookupCallback name) b base size found)
  list : ∀ max entries, Inside (walkIndexEntries (dirListCallback max) b base size entries)

/-- The characters of a name are inside. -/
theorem inside_utf16leToAscii {b : Buffer} {addr len : ℕ} :
    Inside (utf16leToAscii b addr len ntfsMaxName) ↔
      len = 0 ∨ addr + 2 * min len 255 ≤ b.size := by
  unfold utf16leToAscii ntfsMaxName
  dsimp only
  split_ifs with h
  · refine ⟨fun _ => ?_, fun _ => inside_ok _⟩
    omega
  · refine ⟨fun hin => absurd hin (not_inside_error _), fun hn => absurd ?_ h⟩
    omega

theorem strcaseeq_self (a : List UInt8) : strcaseeq a a = true := by
  simp [strcaseeq, equalsIgnoringCase]

section

variable {b : Buffer} {ie : ℕ}

/-- If every lookup stays inside, the name does: one of them is for this name. -/
theorem nameInside_of_lookup (h : ∀ name, Inside (dirLookupCallback name b ie none)) :
    NameInside b.size b.mem ie := by
  unfold dirLookupCallback at h
  simp only [Buffer.inside_load_bind, Nat.add_assoc, Nat.reduceAdd] at h
  refine ⟨(h []).1, fun htype => ?_⟩
  simp only [if_neg htype, Buffer.inside_load_bind] at h
  obtain ⟨nm, hnm, -⟩ := inside_bind.mp (h []).2.2
  obtain ⟨nm', hnm', href⟩ := inside_bind.mp (h nm).2.2
  rw [hnm] at hnm'
  cases hnm'
  rw [if_pos (strcaseeq_self nm), Buffer.inside_load_bind] at href
  exact ⟨href.1, inside_utf16leToAscii.mp ⟨nm, hnm⟩⟩

variable (hsize : b.size ≤ 2 ^ 31) (hname : NameInside b.size b.mem ie)
include hsize hname

theorem inside_dirLookupCallback (name : List UInt8) (found : Option Lookup) :
    Inside (dirLookupCallback name b ie found) := by
  unfold dirLookupCallback
  simp only [Buffer.inside_load_bind, Nat.add_assoc, Nat.reduceAdd]
  refine ⟨hname.1, ?_⟩
  by_cases htype : b.mem.loadLE (u32 (ie + 81)) 1 = 2
  · rw [if_pos htype]
    exact inside_ok _
  obtain ⟨href, hchars⟩ := hname.2 htype
  have hlast := hname.1
  unfold u32 at href hlast
  rw [if_neg htype, Buffer.inside_load_bind, inside_bind]
  obtain ⟨nm, hnm⟩ := inside_utf16leToAscii.mpr hchars
  refine ⟨by unfold u32; omega, nm, hnm, ?_⟩
  split_ifs
  · rw [Buffer.inside_load_bind, Buffer.inside_load_bind]
    exact ⟨by unfold u32; omega, by unfold u32; omega, inside_ok _⟩
  · exact inside_ok _

theorem inside_dirListCallback (max : ℕ) (entries : List NtfsDirent) :
    Inside (dirListCallback max b ie entries) := by
  unfold dirListCallback
  split_ifs
  · exact inside_ok _
  simp only [Buffer.inside_load_bind, Nat.add_assoc, Nat.reduceAdd]
  refine ⟨hname.1, ?_⟩
  by_cases htype : b.mem.loadLE (u32 (ie + 81)) 1 = 2
  · rw [if_pos htype]
    exact inside_ok _
  obtain ⟨href, hchars⟩ := hname.2 htype
  have hlast := hname.1
  unfold u32 at href hlast
  rw [if_neg htype, Buffer.inside_load_bind, inside_bind]
  obtain ⟨nm, hnm⟩ := inside_utf16leToAscii.mpr hchars
  refine ⟨by unfold u32; omega, nm, hnm, ?_⟩
  split_ifs
  · exact inside_ok _
  · simp only [Buffer.inside_load_bind]
    exact ⟨by unfold u32; omega, by unfold u32; omega, by unfold u32; omega, by unfold u32; omega,
      inside_ok _⟩

omit hname in
/-- **The callbacks** read inside the buffer exactly if the name lies there. -/
theorem callbacksInside_iff : CallbacksInside b ie ↔ NameInside b.size b.mem ie := by
  constructor
  · exact fun h => nameInside_of_lookup fun name => h.1 name none
  · exact fun h => ⟨inside_dirLookupCallback hsize h, inside_dirListCallback hsize h⟩

end

/-! ## The walk over the entries -/

section

variable {b : Buffer} {base size : ℕ}

/-- The notes of a walk begin with those it was given. -/
theorem mem_walk_of_mem {ie : ℕ} (n : ℕ) :
    ∀ off ies ies', walkEntriesLoop noteEntry b base size n off ies = .ok ies' → ie ∈ ies →
      ie ∈ ies' := by
  induction n with
  | zero => intro off ies ies' h; cases h
  | succ n ih =>
    intro off ies ies' h hmem
    rw [walkEntriesLoop] at h
    split_ifs at h with hsize
    · obtain ⟨len, -, h⟩ := bind_eq_ok.mp h
      split_ifs at h
      · cases h
        exact hmem
      obtain ⟨flags, -, h⟩ := bind_eq_ok.mp h
      split_ifs at h
      · cases h
        exact hmem
      obtain ⟨content, -, h⟩ := bind_eq_ok.mp h
      split_ifs at h
      · exact ih _ _ _ h (List.mem_append_left _ hmem)
      · exact ih _ _ _ h hmem
    · cases h
      exact hmem

/-- The first round of a walk that stays inside: the entry is inside, and if the walk goes on, the
rest is a walk with the same result. -/
theorem walk_step {n off : ℕ} {ies ies' : List ℕ}
    (h : walkEntriesLoop noteEntry b base size n off ies = .ok ies')
    (hcb : ∀ ie ∈ ies', NameInside b.size b.mem ie) :
    EntryInside b.size b.mem base size off ∧
      (GoesOn b.mem base size off → ∃ n ies,
        walkEntriesLoop noteEntry b base size n
          (u32 (off + entryLength b.mem (base + off))) ies = .ok ies') := by
  cases n with
  | zero => cases h
  | succ n =>
    rw [walkEntriesLoop] at h
    by_cases hsize : u32 (off + 16) ≤ size
    · rw [if_pos hsize] at h
      dsimp only at h
      obtain ⟨len, hload, h⟩ := bind_eq_ok.mp h
      obtain ⟨hlen, rfl⟩ := b.load_eq_ok.mp hload
      clear hload
      change (if entryLength b.mem (base + off) = 0 ∨
        u32 (off + entryLength b.mem (base + off)) > size then _ else _) = _ at h
      by_cases hstop : entryLength b.mem (base + off) = 0 ∨
          u32 (off + entryLength b.mem (base + off)) > size
      · refine ⟨⟨fun _ => hlen, fun _ h₀ h₁ => ?_, fun hgo => ?_, fun hgo => ?_⟩, fun hgo => ?_⟩
        · omega
        all_goals
          have h₀ := hgo.length_ne
          have h₁ := hgo.length_le
          omega
      rw [if_neg hstop] at h
      obtain ⟨flags, hload, h⟩ := bind_eq_ok.mp h
      obtain ⟨hflags, rfl⟩ := b.load_eq_ok.mp hload
      clear hload
      by_cases hlast : (entryFlags b.mem (base + off)).testBit 1 = true
      · refine ⟨⟨fun _ => hlen, fun _ _ _ => hflags, fun hgo => ?_, fun hgo => ?_⟩, fun hgo => ?_⟩
        all_goals
          rw [hgo.not_last] at hlast
          cases hlast
      change (if (entryFlags b.mem (base + off)).testBit 1 = true then _ else _) = _ at h
      rw [if_neg hlast] at h
      obtain ⟨content, hload, h⟩ := bind_eq_ok.mp h
      obtain ⟨hcontent, rfl⟩ := b.load_eq_ok.mp hload
      clear hload
      change (if 66 ≤ entryContent b.mem (base + off) then _ else _) = _ at h
      refine ⟨⟨fun _ => hlen, fun _ _ _ => hflags, fun _ => hcontent, fun _ h66 => ?_⟩,
        fun _ => ?_⟩
      · -- the entry is among the notes
        rw [if_pos h66] at h
        exact hcb _ (mem_walk_of_mem _ _ _ _ h (List.mem_append_right _ (List.mem_singleton_self _)))
      · split_ifs at h
        · exact ⟨_, _, h⟩
        · exact ⟨_, _, h⟩
    · refine ⟨⟨fun hs => absurd hs hsize, fun hs => absurd hs hsize, fun hgo => ?_,
        fun hgo => ?_⟩, fun hgo => ?_⟩
      all_goals exact absurd hgo.header_le hsize

/-- A walk that stays inside has every entry inside. -/
theorem entryInside_of_walk {n : ℕ} {ies ies' : List ℕ}
    (h : walkEntriesLoop noteEntry b base size n 0 ies = .ok ies')
    (hcb : ∀ ie ∈ ies', NameInside b.size b.mem ie) {off : ℕ} (hoff : EntryAt b.mem base size off) :
    EntryInside b.size b.mem base size off := by
  have hrun : ∃ n ies, walkEntriesLoop noteEntry b base size n off ies = .ok ies' := by
    induction hoff with
    | first => exact ⟨n, ies, h⟩
    | next _ hgo ih =>
      obtain ⟨n, ies, hrun⟩ := ih
      exact (walk_step hrun hcb).2 hgo
  obtain ⟨n, ies, hrun⟩ := hrun
  exact (walk_step hrun hcb).1

/-- The address of the next entry, if this one is inside. -/
theorem next_address {off : ℕ} (hsize : b.size ≤ 2 ^ 31) (hin : u32 (base + off + 8) + 2 ≤ b.size) :
    u32 (base + u32 (off + entryLength b.mem (base + off)) + 8) =
      u32 (base + off + 8) + entryLength b.mem (base + off) := by
  have hlen : entryLength b.mem (base + off) < 2 ^ (8 * 2) := b.mem.loadLE_lt _ _
  generalize entryLength b.mem (base + off) = len at *
  unfold u32 at *
  omega

/-- If every entry is inside, the walk is, with a callback that is inside at the entries it is
given and keeps `P`; the addresses of the entries grow, so that it does not run out of rounds. -/
theorem walk_of_entryInside {σ : Type} {cb : Buffer → ℕ → σ → Access (Bool × σ)} {P : σ → Prop}
    (hsize : b.size ≤ 2 ^ 31)
    (hall : ∀ off, EntryAt b.mem base size off → EntryInside b.size b.mem base size off)
    (hcb : ∀ ie ctx, NameInside b.size b.mem ie → P ctx →
      ∃ goOn ctx', cb b ie ctx = .ok (goOn, ctx') ∧ P ctx') (n : ℕ) :
    ∀ off ctx, EntryAt b.mem base size off → 1 ≤ n → b.size < n + u32 (base + off + 8) → P ctx →
      ∃ ctx', walkEntriesLoop cb b base size n off ctx = .ok ctx' ∧ P ctx' := by
  induction n with
  | zero => intro off ctx _ h; omega
  | succ n ih =>
    intro off ctx hoff _ hn hctx
    have hentry := hall off hoff
    rw [walkEntriesLoop]
    by_cases hle : u32 (off + 16) ≤ size
    · have hlen := hentry.length_inside hle
      rw [if_pos hle]
      dsimp only
      rw [Buffer.load_of_le _ hlen, ok_bind]
      change ∃ ctx', (if entryLength b.mem (base + off) = 0 ∨
        u32 (off + entryLength b.mem (base + off)) > size then _ else _) = _ ∧ _
      by_cases hstop : entryLength b.mem (base + off) = 0 ∨
          u32 (off + entryLength b.mem (base + off)) > size
      · rw [if_pos hstop]
        exact ⟨ctx, rfl, hctx⟩
      rw [if_neg hstop]
      rw [not_or, Nat.not_lt] at hstop
      rw [Buffer.load_of_le _ (hentry.flags_inside hle hstop.1 hstop.2), ok_bind]
      change ∃ ctx', (if (entryFlags b.mem (base + off)).testBit 1 = true then _ else _) = _ ∧ _
      by_cases hlast : (entryFlags b.mem (base + off)).testBit 1 = true
      · rw [if_pos hlast]
        exact ⟨ctx, rfl, hctx⟩
      have hgo : GoesOn b.mem base size off :=
        ⟨hle, hstop.1, hstop.2, Bool.eq_false_iff.mpr hlast⟩
      have hnext : b.size < n + u32 (base + u32 (off + entryLength b.mem (base + off)) + 8) := by
        have hpos := Nat.pos_of_ne_zero hstop.1
        rw [next_address hsize hlen]
        omega
      rw [if_neg hlast, Buffer.load_of_le _ (hentry.content_inside hgo), ok_bind]
      change ∃ ctx', (if 66 ≤ entryContent b.mem (base + off) then _ else _) = _ ∧ _
      by_cases h66 : 66 ≤ entryContent b.mem (base + off)
      · rw [if_pos h66]
        obtain ⟨goOn, ctx', hrun, hctx'⟩ := hcb _ ctx (hentry.name_inside hgo h66) hctx
        rw [hrun, ok_bind]
        cases goOn with
        | false => exact ⟨ctx', rfl, hctx'⟩
        | true => exact ih _ _ (.next hoff hgo) (by omega) hnext hctx'
      · rw [if_neg h66]
        exact ih _ _ (.next hoff hgo) (by omega) hnext hctx
    · rw [if_neg hle]
      exact ⟨ctx, rfl, hctx⟩

/-- **The walk over an index** stays inside the buffer exactly if its entries do. -/
theorem walksInside_iff (hsize : b.size ≤ 2 ^ 31) :
    WalksInside b base size ↔
      ∀ off, EntryAt b.mem base size off → EntryInside b.size b.mem base size off := by
  constructor
  · intro h off hoff
    obtain ⟨ies, hwalk, hcb⟩ := h.callbacks
    exact entryInside_of_walk hwalk (fun ie hie => (callbacksInside_iff hsize).mp (hcb ie hie)) hoff
  · intro hall
    have hany : ∀ {σ : Type} (cb : Buffer → ℕ → σ → Access (Bool × σ)) (ctx : σ),
        (∀ ie ctx, NameInside b.size b.mem ie → Inside (cb b ie ctx)) →
        Inside (walkIndexEntries cb b base size ctx) := by
      intro σ cb ctx hcb
      obtain ⟨ctx', hwalk, -⟩ := @walk_of_entryInside b base size σ cb (fun _ => True) hsize hall
        (fun ie ctx hie _ => by
          obtain ⟨⟨goOn, ctx'⟩, hrun⟩ := hcb ie ctx hie
          exact ⟨goOn, ctx', hrun, trivial⟩)
        (b.size + 1) 0 ctx .first (by omega) (by omega) trivial
      exact ⟨ctx', hwalk⟩
    refine ⟨?_, fun name found => hany _ _ fun ie ctx hie => ?_,
      fun max entries => hany _ _ fun ie ctx hie => ?_⟩
    · obtain ⟨ies, hwalk, hies⟩ := @walk_of_entryInside b base size _ noteEntry
        (fun ies => ∀ ie ∈ ies, NameInside b.size b.mem ie) hsize hall
        (fun ie ies hie hies => by
          refine ⟨true, ies ++ [ie], rfl, fun ie' hmem => ?_⟩
          rcases List.mem_append.mp hmem with hmem | hmem
          · exact hies ie' hmem
          · rw [List.mem_singleton.mp hmem]
            exact hie)
        (b.size + 1) 0 [] .first (by omega) (by omega) (fun ie hie => absurd hie List.not_mem_nil)
      exact ⟨ies, hwalk, fun ie hie => (callbacksInside_iff hsize).mpr (hies ie hie)⟩
    · exact inside_dirLookupCallback hsize hie name ctx
    · exact inside_dirListCallback hsize hie max ctx

end

/-! ## Reading a record -/

section

variable {env : NtfsEnv} {d : Disk} {lba : ℕ}

/-- The sectors that fit are stored. -/
theorem readSectorsInto_ok (n : ℕ) :
    ∀ i b, 512 * (i + n) ≤ b.size → ∃ ok b', readSectorsInto env d lba n i b = .ok (ok, b') ∧
      b'.size = b.size := by
  induction n with
  | zero => exact fun i b _ => ⟨true, b, rfl, rfl⟩
  | succ n ih =>
    intro i b hb
    rw [readSectorsInto]
    split_ifs
    · unfold Buffer.storeSector
      rw [if_pos (by omega), ok_bind]
      refine ih (i + 1) _ ?_
      dsimp only
      omega
    · exact ⟨false, b, rfl, rfl⟩

/-- If the drive transfers every sector, one that does not fit is stored outside. -/
theorem readSectorsInto_error (henv : ∀ s, env.responds s = true) (n : ℕ) :
    ∀ i b, 512 * i ≤ b.size → b.size < 512 * (i + n) →
      readSectorsInto env d lba n i b = .error .write := by
  induction n with
  | zero => intro i b h₁ h₂; omega
  | succ n ih =>
    intro i b h₁ h₂
    rw [readSectorsInto, if_pos (henv _)]
    unfold Buffer.storeSector
    split_ifs with hroom
    · rw [ok_bind]
      refine ih (i + 1) _ ?_ ?_
      · dsimp only
        omega
      · dsimp only
        omega
    · rfl

theorem writesInside_load_bind {α : Type} {b : Buffer} {off w : ℕ} {f : ℕ → Access α}
    (h : off + w ≤ b.size → ∀ v, WritesInside (f v)) : WritesInside ((b.load off w).bind f) := by
  unfold Buffer.load
  split_ifs with hle
  · exact h hle _
  · intro hw
    cases hw

/-- The fixups are stored where the code has just read. -/
theorem writesInside_fixupLoop {uso sv recSize : ℕ} (n : ℕ) :
    ∀ i b, WritesInside (fixupLoop uso sv recSize n i b) := by
  induction n with
  | zero =>
    intro i b hw
    cases hw
  | succ n ih =>
    intro i b
    rw [fixupLoop]
    split_ifs
    · intro hw
      cases hw
    · refine writesInside_load_bind fun hle s => ?_
      split_ifs
      · intro hw
        cases hw
      · refine writesInside_load_bind fun _ v => ?_
        unfold Buffer.store
        rw [if_pos hle, ok_bind]
        exact ih _ _

theorem writesInside_applyFixup {b : Buffer} {recSize : ℕ} : WritesInside (applyFixup b recSize) := by
  refine writesInside_load_bind fun _ uso => writesInside_load_bind fun _ usc => ?_
  split_ifs
  · intro hw
    cases hw
  · exact writesInside_load_bind fun _ sv => writesInside_fixupLoop _ _ _

theorem writesInside_beginsWith_bind {α : Type} {b : Buffer} {f : Bool → Access α}
    (h : ∀ v, WritesInside (f v)) (text : List UInt8) :
    ∀ off, WritesInside ((b.beginsWith off text).bind f) := by
  induction text with
  | nil => exact fun off => h true
  | cons c cs ih =>
    intro off
    unfold Buffer.beginsWith Buffer.load
    split_ifs with hle
    · show WritesInside ((if b.mem.loadLE off 1 = c.toNat then _ else _ : Access Bool).bind f)
      split_ifs
      · exact ih (off + 1)
      · exact h false
    · intro hw
      cases hw

end

/-- **`read_mft_record`** writes inside `mft_buf`, whatever the disk holds, exactly if a record is
not larger. -/
theorem writesInside_readMftRecord_iff {info : NtfsInfo} :
    (∀ env d rn buf, buf.size = mftBufSize → WritesInside (readMftRecord env info d rn buf)) ↔
      512 * info.recordSectors ≤ mftBufSize := by
  constructor
  · intro h
    by_contra hbig
    refine h ⟨⟨fun _ => none, fun n b hb => by cases hb⟩, fun _ => true⟩ (fun _ _ => 0) 0
      ⟨mftBufSize, fun _ => 0⟩ rfl ?_
    unfold readMftRecord
    have hroom : mftBufSize < 512 * (0 + info.recordSectors) := by omega
    rw [readSectorsInto_error (fun _ => rfl) _ 0 ⟨mftBufSize, _⟩ (Nat.zero_le _) hroom]
    rfl
  · intro hle env d rn buf hbuf
    obtain ⟨ok, buf', hread, -⟩ :=
      @readSectorsInto_ok env d (info.recordLba rn) info.recordSectors 0 buf (by omega)
    unfold readMftRecord
    rw [hread, ok_bind]
    cases ok with
    | false =>
      intro hw
      cases hw
    | true =>
      refine writesInside_beginsWith_bind (fun v => ?_) _ 0
      cases v with
      | false =>
        intro hw
        cases hw
      | true => exact writesInside_applyFixup

/-! ## The sizes in the boot sector -/

/-- A record larger than `mft_buf` has more sectors than fit in it. -/
theorem recordSize_of_gt {spc field : ℕ} (h : mftBufSize < recordSize (512 * spc) field) :
    mftBufSize < 512 * (recordSize (512 * spc) field / 512) := by
  unfold recordSize mftBufSize at *
  split_ifs at h ⊢
  · have hmul : field * (512 * spc) = 512 * (field * spc) := by ring
    rw [hmul] at h ⊢
    omega
  · -- a power of two above 1024 is a multiple of 512
    have hlt : (256 - field) % 256 % 32 < 32 := Nat.mod_lt _ (by omega)
    generalize (256 - field) % 256 % 32 = k at *
    interval_cases k <;> omega

theorem recordSize_le {spc field : ℕ} (hspc : 512 * spc ≤ 65536) :
    recordSize (512 * spc) field ≤ 2 ^ 31 := by
  unfold recordSize
  split_ifs with h
  · calc field * (512 * spc) ≤ 128 * 65536 := Nat.mul_le_mul (by omega) hspc
      _ ≤ 2 ^ 31 := by omega
  · exact Nat.pow_le_pow_right (by omega) (by omega)

/-- What `ntfs_mount` accepts. -/
theorem ntfsInfo_sizes {boot : Memory} {info : NtfsInfo} (h : ntfsInfo boot = some info) :
    ∃ spc, 512 * spc ≤ 65536 ∧ info.mftRecordSize = recordSize (512 * spc) (boot.loadLE 64 1) ∧
      info.indexRecordSize = recordSize (512 * spc) (boot.loadLE 68 1) ∧
      info.mftRecordSize ≤ 4096 := by
  unfold ntfsInfo at h
  dsimp only at h
  split_ifs at h with hname hsize hrec
  cases h
  simp only [not_or, not_lt, ne_eq, not_not] at hsize hrec
  refine ⟨boot.loadLE 13 1, ?_, ?_, ?_, hrec.2.1⟩
  · rw [← hsize.1]
    exact hsize.2.2
  · rw [hsize.1]
  · rw [hsize.1]

/-! ## Everything together -/

/-- The functions stay inside, for a record and an index record with the contents `rec` and
`index`. -/
structure ParsesInside (info : NtfsInfo) (rec index : Memory) : Prop where
  readMftRecord_writes : ∀ env d rn buf, buf.size = mftBufSize →
    WritesInside (readMftRecord env info d rn buf)
  findAttribute_first : ∀ type,
    Inside (findAttribute info.mftRecordSize ⟨info.mftRecordSize, rec⟩ type none)
  findAttribute_next : ∀ type prev, Found info.mftRecordSize ⟨info.mftRecordSize, rec⟩ prev →
    Inside (findAttribute info.mftRecordSize ⟨info.mftRecordSize, rec⟩ type (some prev))
  attrs : ∀ attr, Found info.mftRecordSize ⟨info.mftRecordSize, rec⟩ attr →
    Inside (getResidentData ⟨info.mftRecordSize, rec⟩ attr) ∧
      Inside (parseDataRuns ⟨info.mftRecordSize, rec⟩ attr)
  indexRoot : ∀ ira ir irl,
    findAttribute info.mftRecordSize ⟨info.mftRecordSize, rec⟩ attrIndexRoot none = .ok (some ira) →
    getResidentData ⟨info.mftRecordSize, rec⟩ ira = .ok (some (ir, irl)) → 32 ≤ irl →
    ir + 32 ≤ info.mftRecordSize ∧
      WalksInside ⟨info.mftRecordSize, rec⟩ (ir + 16 + rec.loadLE (ir + 16) 4)
        (rec.loadLE (ir + 20) 4)
  indexRecord : 32 ≤ info.indexRecordSize ∧
    WalksInside ⟨info.indexRecordSize, index⟩ (24 + index.loadLE 24 4) (index.loadLE 28 4)

/-- Each level lies in the enclosing one, as far as the code reads it. -/
structure WellNested (info : NtfsInfo) (rec index : Memory) : Prop where
  /-- A record fits in `mft_buf`. -/
  record_le : info.mftRecordSize ≤ mftBufSize
  /-- The header has its field `first_attr_offset`. -/
  header_le : 22 ≤ info.mftRecordSize
  attrs : ∀ attr, AttrOf info.mftRecordSize rec attr → AttrFits info.mftRecordSize rec attr
  indexRoot : ∀ ira, FirstOf info.mftRecordSize rec attrIndexRoot ira →
    rec.loadLE (ira + 8) 1 = 0 → 32 ≤ rec.loadLE (ira + 16) 4 →
    let ir := ira + rec.loadLE (ira + 20) 2
    ir + 32 ≤ info.mftRecordSize ∧
      ∀ off, EntryAt rec (ir + 16 + rec.loadLE (ir + 16) 4) (rec.loadLE (ir + 20) 4) off →
        EntryInside info.mftRecordSize rec (ir + 16 + rec.loadLE (ir + 16) 4)
          (rec.loadLE (ir + 20) 4) off
  indexRecord : 32 ≤ info.indexRecordSize ∧
    ∀ off, EntryAt index (24 + index.loadLE 24 4) (index.loadLE 28 4) off →
      EntryInside info.indexRecordSize index (24 + index.loadLE 24 4) (index.loadLE 28 4) off

/-- What `get_resident_data` gives for a resident attribute. -/
theorem getResidentData_eq_iff {recSize : ℕ} {m : Memory} {attr ir irl : ℕ}
    (ha : IsAttr recSize m attr) (hfits : AttrFits recSize m attr) :
    getResidentData ⟨recSize, m⟩ attr = .ok (some (ir, irl)) ↔
      m.loadLE (attr + 8) 1 = 0 ∧ ir = attr + m.loadLE (attr + 20) 2 ∧
        irl = m.loadLE (attr + 16) 4 := by
  unfold getResidentData
  rw [nonResident_of_isAttr ha, ok_bind]
  by_cases h : m.loadLE (attr + 8) 1 = 0
  · unfold AttrFits at hfits
    rw [if_pos h] at hfits
    rw [Buffer.load_of_le _ (by show attr + 16 + 4 ≤ recSize; omega), ok_bind,
      Buffer.load_of_le _ (by show attr + 20 + 2 ≤ recSize; omega), ok_bind]
    simp [h, eq_comm]
  · simp [h]

/-- **Parsing stays inside the buffers** exactly if each level lies in the enclosing one. -/
theorem parsesInside_iff {boot : Memory} {info : NtfsInfo} (hinfo : ntfsInfo boot = some info)
    (rec index : Memory) : ParsesInside info rec index ↔ WellNested info rec index := by
  obtain ⟨spc, hspc, hrec, hidx, hmax⟩ := ntfsInfo_sizes hinfo
  have hrecLe : info.mftRecordSize ≤ 2 ^ 31 := by omega
  have hidxLe : info.indexRecordSize ≤ 2 ^ 31 := hidx ▸ recordSize_le hspc
  have hfirst := @inside_findAttribute_none info.mftRecordSize rec
  constructor
  · intro h
    have h22 : 22 ≤ info.mftRecordSize := (hfirst attrData).mp (h.findAttribute_first attrData)
    have hfits : ∀ attr, AttrOf info.mftRecordSize rec attr →
        AttrFits info.mftRecordSize rec attr := fun attr hattr =>
      (attrFits_iff hattr.2).mpr (h.attrs attr ((found_iff h22).mpr hattr))
    refine ⟨?_, h22, hfits, fun ira hira hres hlen => ?_, h.indexRecord.1,
      (walksInside_iff hidxLe).mp h.indexRecord.2⟩
    · have hroom := writesInside_readMftRecord_iff.mp h.readMftRecord_writes
      by_contra hbig
      rw [hrec] at hbig
      have := recordSize_of_gt (Nat.not_le.mp hbig)
      unfold NtfsInfo.recordSectors at hroom
      rw [hrec] at hroom
      omega
    · have hfound := (findAttribute_eq_iff h22).mpr hira
      have hattr : AttrOf info.mftRecordSize rec ira := (found_iff h22).mp (.first hfound)
      obtain ⟨hle, hwalk⟩ := h.indexRoot ira _ _ hfound
        ((getResidentData_eq_iff hattr.2 (hfits ira hattr)).mpr ⟨hres, rfl, rfl⟩) hlen
      exact ⟨hle, (walksInside_iff hrecLe).mp hwalk⟩
  · intro h
    have h22 := h.header_le
    refine ⟨?_, fun type => (hfirst type).mpr h22, fun type prev hprev => ?_, fun attr hattr => ?_,
      fun ira ir irl hfound hdata hlen => ?_, h.indexRecord.1,
      (walksInside_iff hidxLe).mpr h.indexRecord.2⟩
    · refine writesInside_readMftRecord_iff.mpr ?_
      have := h.record_le
      unfold NtfsInfo.recordSectors
      omega
    · exact inside_findAttribute_some type ((found_iff h22).mp hprev).2
    · have hof := (found_iff h22).mp hattr
      exact (attrFits_iff hof.2).mp (h.attrs attr hof)
    · have hof := (found_iff h22).mp (.first hfound)
      obtain ⟨hres, rfl, rfl⟩ := (getResidentData_eq_iff hof.2 (h.attrs ira hof)).mp hdata
      obtain ⟨hle, hwalk⟩ := h.indexRoot ira ((findAttribute_eq_iff h22).mp hfound) hres hlen
      exact ⟨hle, (walksInside_iff hrecLe).mpr hwalk⟩

/-- A boot sector with clusters of eight sectors and the given sizes of records. -/
def bootWith (clustersPerMft clustersPerIndex : ℕ) : Memory :=
  let b : Memory := fun _ => 0
  let b := b.storeBytes 3 "NTFS    ".toUTF8.toList
  let b := b.storeLE 11 512 2
  let b := b.storeLE 13 8 1
  let b := b.storeLE 40 8192 8
  let b := b.storeLE 48 4 8
  let b := b.storeLE 64 clustersPerMft 1
  b.storeLE 68 clustersPerIndex 1

/-- A volume with records of `size` bytes and index records of one cluster. -/
def infoWith (size : ℕ) : NtfsInfo := ⟨8, 4096, 4, size, 4096, 1024⟩

/-- On a volume with records of 1024 bytes, a record and an index record of zeros are parsed
inside the buffers. -/
theorem parsesInside_zeros :
    ntfsInfo (bootWith 0xF6 1) = some (infoWith 1024) ∧
      ParsesInside (infoWith 1024) (fun _ => 0) fun _ => 0 := by
  have hinfo : ntfsInfo (bootWith 0xF6 1) = some (infoWith 1024) := by decide +kernel
  have hno : ∀ {passed : ℕ → Prop} {attr : ℕ}, AttrAt 1024 (fun _ => 0) passed attr →
      ¬ IsAttr 1024 (fun _ => 0) attr := by
    intro passed attr hat ha
    exact ha.type_ne_zero (by simp [Memory.loadLE])
  refine ⟨hinfo, (parsesInside_iff hinfo _ _).mpr ⟨by decide, by decide, fun attr hattr => ?_,
    fun ira hira => ?_, by decide, fun off hoff => ?_⟩⟩
  · exact absurd hattr.2 (hno hattr.1)
  · exact absurd hira.2.1 (hno hira.1)
  · cases hoff with
    | first =>
      have hstop : ¬ u32 (0 + 16) ≤ Memory.loadLE (fun _ => 0) 28 4 := by decide
      exact ⟨fun h => absurd h hstop, fun h => absurd h hstop,
        fun h => absurd h.header_le hstop, fun h => absurd h.header_le hstop⟩
    | next _ hgo => exact absurd (by simp [entryLength, Memory.loadLE]) hgo.length_ne

/-- A volume with records of 4096 bytes is mounted, and `read_mft_record` writes beyond `mft_buf`. -/
theorem large_record_overflows :
    ntfsInfo (bootWith 1 1) = some (infoWith 4096) ∧
      ¬ ParsesInside (infoWith 4096) (fun _ => 0) fun _ => 0 := by
  refine ⟨by decide +kernel, fun h => ?_⟩
  have hroom := writesInside_readMftRecord_iff.mp h.readMftRecord_writes
  revert hroom
  decide

end Microkernel
