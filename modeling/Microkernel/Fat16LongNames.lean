/-
# FAT16: long names there and back

`build_lfn_entries` cuts a long name into pieces of 13 characters, the last piece first;
`read_root_dir`, `read_subdir` and `find_entry_in_dir` put the pieces before an entry together
again.  All three go over the same entries, and an entry that follows the pieces of a name has
exactly this name, whatever comes before.
-/
import Microkernel.Fat16DirSlots

namespace Microkernel

/-! ## The entries of a directory -/

/-- The entries among the slots of a directory, each with the long name collected before it. -/
def entriesFrom : Option Memory → List (SlotPos × DirSlot) → List (SlotPos × ExtEntry)
  | _, [] => []
  | buf, p :: ps =>
    if p.2.isEnd then []
    else if p.2.isDeleted then entriesFrom none ps
    else if p.2.isLfn then entriesFrom (collectLfn buf p.2) ps
    else if p.2.isVolume then entriesFrom none ps
    else (p.1, ⟨p.2, longName buf⟩) :: entriesFrom none ps

/-- The entries of a directory, as far as its first `k` clusters go. -/
def dirEntries (info : Fat16Info) (d : Disk) (c k : ℕ) : List (SlotPos × ExtEntry) :=
  entriesFrom none (dirSlots info d c k)

section

variable {info : Fat16Info} {d : Disk} {c k fuel : ℕ}

theorem foldUntil_cons {α ρ σ : Type} (visit : σ → α → ρ ⊕ σ) (a : α) (l : List α) (st : σ) :
    foldUntil visit (a :: l) st = (visit st a).elim .inl (foldUntil visit l) := by
  rw [foldUntil]
  cases visit st a <;> rfl

theorem visitEntry_eq {ρ τ : Type} (ended : τ → ρ) (found : τ → SlotPos → ExtEntry → ρ ⊕ τ) (t : τ)
    (buf : Option Memory) (p : SlotPos × DirSlot) : visitEntry ended found (t, buf) p =
      if p.2.isEnd then .inl (ended t)
      else if p.2.isDeleted then .inr (t, none)
      else if p.2.isLfn then .inr (t, collectLfn buf p.2)
      else if p.2.isVolume then .inr (t, none)
      else (found t p.1 ⟨p.2, longName buf⟩).elim .inl fun t => .inr (t, none) := by
  unfold visitEntry
  dsimp only
  cases found t p.1 ⟨p.2, longName buf⟩ <;> rfl

/-- A reader that visits the slots visits the entries, up to the end of the directory. -/
theorem foldUntil_visitEntry {ρ τ : Type} (ended : τ → ρ) (found : τ → SlotPos → ExtEntry → ρ ⊕ τ)
    (l : List (SlotPos × DirSlot)) : ∀ (t : τ) (buf : Option Memory),
      (∃ r, foldUntil (fun t e => found t e.1 e.2) (entriesFrom buf l) t = .inl r ∧
        foldUntil (visitEntry ended found) l (t, buf) = .inl r) ∨
      ∃ t', foldUntil (fun t e => found t e.1 e.2) (entriesFrom buf l) t = .inr t' ∧
        (foldUntil (visitEntry ended found) l (t, buf) = .inl (ended t') ∨
          ∃ buf', foldUntil (visitEntry ended found) l (t, buf) = .inr (t', buf')) := by
  induction l with
  | nil => exact fun t buf => Or.inr ⟨t, rfl, Or.inr ⟨buf, rfl⟩⟩
  | cons p l ih =>
    intro t buf
    unfold entriesFrom
    rw [foldUntil_cons, visitEntry_eq]
    split_ifs
    · exact Or.inr ⟨t, rfl, Or.inl rfl⟩
    · exact ih t none
    · exact ih t _
    · exact ih t none
    · rw [foldUntil_cons]
      cases found t p.1 ⟨p.2, longName buf⟩ with
      | inl r => exact Or.inl ⟨r, rfl, rfl⟩
      | inr t' => exact ih t' none

theorem elim_visitEntry {ρ τ : Type} (out : τ → ρ) (found : τ → SlotPos → ExtEntry → ρ ⊕ τ)
    (l : List (SlotPos × DirSlot)) (t : τ) (buf : Option Memory) :
    (foldUntil (visitEntry out found) l (t, buf)).elim id (fun st => out st.1) =
      (foldUntil (fun t e => found t e.1 e.2) (entriesFrom buf l) t).elim id out := by
  rcases foldUntil_visitEntry out found l t buf with ⟨r, h, h'⟩ | ⟨t', h, h' | ⟨buf', h'⟩⟩ <;>
    rw [h, h'] <;> rfl

/-- `read_root_dir` and `read_subdir` give the first entries. -/
theorem readDir_eq_take {max : ℕ} {es : List ExtEntry} (hmax : 0 < max)
    (h : readDir info fuel d c max = some es) :
    es = ((dirEntries info d c fuel).map Prod.snd).take max := by
  obtain ⟨r, hr, rfl⟩ := Option.map_eq_some_iff.mp h
  have hfold := foldUntil_dirSlots hr
  have hentries := elim_visitEntry (ρ := List ExtEntry) id (fun es _ e =>
    if max ≤ es.length + 1 then .inl (es ++ [e]) else .inr (es ++ [e]))
    (dirSlots info d c fuel) [] none
  rw [hfold] at hentries
  refine hentries.trans ?_
  show _ = ((dirEntries info d c fuel).map Prod.snd).take max
  unfold dirEntries
  generalize entriesFrom none (dirSlots info d c fuel) = l
  suffices hall : ∀ es : List ExtEntry, es.length < max →
      (foldUntil (ρ := List ExtEntry) (fun es (e : SlotPos × ExtEntry) =>
        if max ≤ es.length + 1 then .inl (es ++ [e.2]) else .inr (es ++ [e.2])) l es).elim id id =
        (es ++ l.map Prod.snd).take max from hall [] hmax
  induction l with
  | nil =>
    intro es hes
    rw [List.map_nil, List.append_nil, List.take_of_length_le (Nat.le_of_lt hes)]
    rfl
  | cons e l ih =>
    intro es hes
    have hlen : (es ++ [e.2]).length = es.length + 1 := by
      rw [List.length_append, List.length_singleton]
    have happend : es ++ (e :: l).map Prod.snd = es ++ [e.2] ++ l.map Prod.snd := by
      rw [List.append_assoc]
      rfl
    rw [happend, foldUntil_cons]
    split_ifs with hfull
    · rw [List.take_append_of_le_length (by omega), List.take_of_length_le (by omega)]
      rfl
    · exact ih _ (by omega)

/-- `find_entry_in_dir` gives the first entry that matches. -/
theorem findEntryInDir_eq_find {name : List UInt8} {r : Option (SlotPos × DirSlot)}
    (h : findEntryInDir info fuel d c name = some r) :
    r = ((dirEntries info d c fuel).find? fun e => e.2.matches name).map fun e => (e.1, e.2.sfn) := by
  obtain ⟨s, hs, rfl⟩ := Option.map_eq_some_iff.mp h
  have hfold := foldUntil_dirSlots hs
  have hentries := elim_visitEntry (ρ := Option (SlotPos × DirSlot)) (fun _ : Unit => none)
    (fun _ p e => if e.matches name then .inl (some (p, e.sfn)) else .inr ())
    (dirSlots info d c fuel) () none
  rw [hfold] at hentries
  refine hentries.trans ?_
  unfold dirEntries
  generalize entriesFrom none (dirSlots info d c fuel) = l
  induction l with
  | nil => rfl
  | cons e l ih =>
    rw [foldUntil_cons]
    cases hmatch : e.2.matches name with
    | true =>
      have hfind : (e :: l).find? (fun e => e.2.matches name) = some e :=
        List.find?_cons_of_pos hmatch
      rw [hfind, if_pos rfl]
      rfl
    | false =>
      have hfind : (e :: l).find? (fun e => e.2.matches name) =
          l.find? fun e => e.2.matches name :=
        List.find?_cons_of_neg (by rw [hmatch]; exact Bool.false_ne_true)
      rw [hfind, if_neg Bool.false_ne_true]
      exact ih

end

/-! ## The pieces of a name -/

/-- What the pieces with numbers above `j` leave in the buffer. -/
def nameBuffer (name : List UInt8) (j : ℕ) : Memory := fun i => if j * 13 ≤ i then name.getD i 0 else 0

/-- The characters of a long name: not the terminator, and not the padding. -/
def LongNameChars (name : List UInt8) : Prop := ∀ c ∈ name, c ≠ 0 ∧ c ≠ 0xFF

variable {name : List UInt8} {checksum : UInt8} {seq : ℕ} {last : Bool}

theorem lfnExtractChars_lfnSlot : lfnExtractChars (lfnSlot name checksum seq last) =
    (List.range 13).map fun i => (lfnChar name ((seq - 1) * 13 + i)).1 := by
  rfl

/-- The characters of a piece, up to the terminator. -/
theorem takeWhile_piece (hchars : LongNameChars name) (n : ℕ) : ∀ base,
    ((List.range n).map fun i => (lfnChar name (base + i)).1).takeWhile
      (fun c => c != 0 && c != 0xFF) = (name.drop base).take n := by
  induction n with
  | zero => exact fun _ => rfl
  | succ n ih =>
    intro base
    have hshift : ((List.range n).map Nat.succ).map (fun i => (lfnChar name (base + i)).1) =
        (List.range n).map fun i => (lfnChar name (base + 1 + i)).1 := by
      rw [List.map_map]
      apply List.map_congr_left
      intro i _
      show (lfnChar name (base + (i + 1))).1 = _
      rw [Nat.add_right_comm base 1 i, Nat.add_assoc]
    rw [List.range_succ_eq_map, List.map_cons, hshift, Nat.add_zero]
    by_cases hbase : base < name.length
    · have hchar : (lfnChar name base).1 = name[base] := by
        unfold lfnChar
        rw [List.getElem?_eq_getElem hbase]
      obtain ⟨h₁, h₂⟩ := hchars name[base] (List.getElem_mem hbase)
      rw [hchar, List.takeWhile_cons_of_pos (by simp [h₁, h₂]), ih, List.drop_eq_getElem_cons hbase,
        List.take_succ_cons]
    · -- The terminator or the padding.
      have hstop : ((lfnChar name base).1 != 0 && (lfnChar name base).1 != 0xFF) = false := by
        unfold lfnChar
        rw [List.getElem?_eq_none (by omega)]
        dsimp only
        split_ifs <;> rfl
      rw [List.takeWhile_cons_of_neg (by rw [hstop]; exact Bool.false_ne_true),
        List.drop_eq_nil_of_le (by omega), List.take_nil]

/-- The fields of a piece that the readers look at. -/
theorem lfnSlot_fields (hseq : 1 ≤ seq ∧ seq ≤ 20) :
    (lfnSlot name checksum seq last).isEnd = false ∧
    (lfnSlot name checksum seq last).isDeleted = false ∧
    (lfnSlot name checksum seq last).isLfn = true ∧
    (lfnSlot name checksum seq last 0 &&& 0x40 ≠ 0 ↔ last = true) ∧
    (lfnSlot name checksum seq last 0 &&& 0x1F).toNat = seq := by
  have hall : ∀ n : Fin 21, ∀ b : Bool, 1 ≤ n.val →
      (UInt8.ofNat n ||| (if b then 0x40 else 0) : UInt8) ≠ 0 ∧
      (UInt8.ofNat n ||| (if b then 0x40 else 0) : UInt8) ≠ 0xE5 ∧
      ((UInt8.ofNat n ||| (if b then 0x40 else 0) : UInt8) &&& 0x40 ≠ 0 ↔ b = true) ∧
      ((UInt8.ofNat n ||| (if b then 0x40 else 0) : UInt8) &&& 0x1F).toNat = n := by
    decide +kernel
  obtain ⟨h₁, h₂, h₃, h₄⟩ := hall ⟨seq, by omega⟩ last hseq.1
  exact ⟨beq_eq_false_iff_ne.mpr h₁, beq_eq_false_iff_ne.mpr h₂, rfl, h₃, h₄⟩

/-- The next piece fills its part of the buffer. -/
theorem collectLfn_lfnSlot {buf : Option Memory} (hchars : LongNameChars name)
    (hlen : name.length ≤ 127) (hseq : 1 ≤ seq ∧ seq ≤ 20)
    (hbuf : (if last = true then some fun _ => 0 else buf) = some (nameBuffer name seq)) :
    collectLfn buf (lfnSlot name checksum seq last) = some (nameBuffer name (seq - 1)) := by
  obtain ⟨_, _, _, hlast, hnum⟩ := @lfnSlot_fields name checksum seq last hseq
  unfold collectLfn
  dsimp only
  rw [hnum, lfnExtractChars_lfnSlot, takeWhile_piece hchars]
  have hstart : (if lfnSlot name checksum seq last 0 &&& 0x40 ≠ 0 then some fun _ => 0 else buf) =
      some (nameBuffer name seq) := by
    rw [← hbuf]
    exact if_congr hlast rfl rfl
  rw [hstart, Option.map_some, if_pos hseq]
  congr 1
  have hcut : ((name.drop ((seq - 1) * 13)).take 13).take (127 - (seq - 1) * 13) =
      (name.drop ((seq - 1) * 13)).take 13 := by
    rw [List.take_of_length_le]
    rw [List.length_take, List.length_drop]
    omega
  rw [hcut]
  have hpiece : ((name.drop ((seq - 1) * 13)).take 13).length = min 13 (name.length - (seq - 1) * 13) := by
    rw [List.length_take, List.length_drop]
  funext i
  by_cases hin : (seq - 1) * 13 ≤ i ∧ i < (seq - 1) * 13 + ((name.drop ((seq - 1) * 13)).take 13).length
  · obtain ⟨j, rfl⟩ : ∃ j, i = (seq - 1) * 13 + j := ⟨i - (seq - 1) * 13, by omega⟩
    have hj : j < ((name.drop ((seq - 1) * 13)).take 13).length := by omega
    have hname : (seq - 1) * 13 + j < name.length := by omega
    rw [Memory.storeBytes_of_inside _ hj]
    unfold nameBuffer
    rw [if_pos (by omega), List.getElem_take, List.getElem_drop, List.getD_eq_getElem _ _ hname]
  · have hout : i < (seq - 1) * 13 ∨
        (seq - 1) * 13 + ((name.drop ((seq - 1) * 13)).take 13).length ≤ i := by omega
    rw [Memory.storeBytes_of_outside _ hout]
    rw [hpiece] at hin
    unfold nameBuffer
    by_cases hlow : (seq - 1) * 13 ≤ i
    · rw [if_pos hlow]
      split_ifs with hhigh
      · rfl
      · rw [List.getD_eq_default _ _ (by omega)]
    · rw [if_neg hlow, if_neg (by omega)]

/-- The string in the full buffer is the name. -/
theorem lfnString_nameBuffer (hchars : LongNameChars name) (hlen : name.length ≤ 127) :
    lfnString (nameBuffer name 0) = name := by
  have hbuf : nameBuffer name 0 = fun i => name.getD i 0 := by
    funext i
    exact if_pos (by omega)
  have hrange : (List.range 127).map (fun i => name.getD i 0) =
      name ++ List.replicate (127 - name.length) 0 := by
    apply List.ext_getElem
    · rw [List.length_map, List.length_range, List.length_append, List.length_replicate]
      omega
    · intro i _ _
      rw [List.getElem_map, List.getElem_range, List.getElem_append]
      split_ifs with hi
      · exact List.getD_eq_getElem _ _ hi
      · rw [List.getElem_replicate]
        exact List.getD_eq_default _ _ (by omega)
  have hall : ∀ c ∈ name, (c != 0 && c != 0xFF) = true := by
    intro c hc
    obtain ⟨h₁, h₂⟩ := hchars c hc
    simp [h₁, h₂]
  unfold lfnString
  rw [hbuf, hrange, List.takeWhile_append_of_pos hall]
  have hpad : (List.replicate (127 - name.length) (0 : UInt8)).takeWhile (fun c => c != 0 && c != 0xFF) =
      [] := by
    cases 127 - name.length <;> rfl
  rw [hpad, List.append_nil]

/-- After the first `k` pieces of a name, whatever was collected before. -/
theorem entriesFrom_pieces (hchars : LongNameChars name) (hlen : name.length ≤ 127)
    (k : ℕ) : ∀ (pieces rest : List (SlotPos × DirSlot)) (buf : Option Memory), 1 ≤ k →
      k ≤ lfnCount name → pieces.map Prod.snd =
        (List.range k).map (fun n => lfnSlot name checksum (lfnCount name - n) (n == 0)) →
      entriesFrom buf (pieces ++ rest) = entriesFrom (some (nameBuffer name (lfnCount name - k))) rest := by
  have hcount : lfnCount name ≤ 10 := by
    unfold lfnCount
    omega
  induction k with
  | zero => exact fun _ _ _ h => absurd h (by decide)
  | succ k ih =>
    intro pieces rest buf _ hk hpieces
    rw [List.range_succ, List.map_append] at hpieces
    obtain ⟨before, final, rfl, hbefore, hfinal⟩ := List.map_eq_append_iff.mp hpieces
    obtain ⟨p, rfl⟩ : ∃ p, final = [p] := by
      rw [← List.length_eq_one_iff, ← List.length_map Prod.snd, hfinal]
      rfl
    have hslot : p.2 = lfnSlot name checksum (lfnCount name - k) (k == 0) := by
      simpa using hfinal
    have hseq : 1 ≤ lfnCount name - k ∧ lfnCount name - k ≤ 20 := by omega
    obtain ⟨hend, hdeleted, hlfn, _, _⟩ := @lfnSlot_fields name checksum (lfnCount name - k) (k == 0) hseq
    rw [← hslot] at hend hdeleted hlfn
    have hstep : ∀ b, (if (k == 0) = true then some fun _ => 0 else b) =
          some (nameBuffer name (lfnCount name - k)) →
        entriesFrom b ([p] ++ rest) = entriesFrom (some (nameBuffer name (lfnCount name - (k + 1)))) rest := by
      intro b hb
      rw [List.singleton_append, entriesFrom, hend, hdeleted, hlfn, hslot, collectLfn_lfnSlot hchars hlen hseq hb]
      rfl
    rw [List.append_assoc]
    by_cases hzero : k = 0
    · subst hzero
      obtain rfl : before = [] := by simpa using hbefore
      refine hstep buf ?_
      -- The first piece clears the buffer, and there is nothing above it.
      show some (fun _ => 0) = _
      congr 1
      funext i
      unfold nameBuffer
      split_ifs with hi
      · rw [List.getD_eq_default]
        unfold lfnCount at hi
        omega
      · rfl
    · rw [ih before ([p] ++ rest) buf (by omega) (by omega) hbefore]
      refine hstep _ ?_
      rw [if_neg (by simpa using hzero)]

/-- Slots before the end of the directory only change what is collected. -/
theorem entriesFrom_append {before : List (SlotPos × DirSlot)}
    (hend : ∀ p ∈ before, p.2.isEnd = false) : ∀ buf : Option Memory,
      ∃ buf', ∀ l, entriesFrom buf (before ++ l) = entriesFrom buf before ++ entriesFrom buf' l := by
  induction before with
  | nil => exact fun buf => ⟨buf, fun _ => rfl⟩
  | cons p before ih =>
    intro buf
    have hp := hend p List.mem_cons_self
    have ih := ih fun q hq => hend q (List.mem_cons_of_mem _ hq)
    have hstep : ∀ l, entriesFrom buf (p :: l) =
        if p.2.isDeleted then entriesFrom none l
        else if p.2.isLfn then entriesFrom (collectLfn buf p.2) l
        else if p.2.isVolume then entriesFrom none l
        else (p.1, ⟨p.2, longName buf⟩) :: entriesFrom none l := by
      intro l
      rw [entriesFrom, hp, if_neg Bool.false_ne_true]
    obtain ⟨buf₁, h₁⟩ := ih none
    obtain ⟨buf₂, h₂⟩ := ih (collectLfn buf p.2)
    simp only [List.cons_append, hstep]
    split_ifs
    · exact ⟨buf₁, h₁⟩
    · exact ⟨buf₂, h₂⟩
    · exact ⟨buf₁, h₁⟩
    · refine ⟨buf₁, fun l => ?_⟩
      rw [h₁]
      rfl

/-- An entry behind the pieces of a name has this name. -/
theorem entriesFrom_named (hchars : LongNameChars name) (hlen : 1 ≤ name.length ∧ name.length ≤ 127)
    {before pieces rest : List (SlotPos × DirSlot)} {e : SlotPos × DirSlot}
    (hend : ∀ p ∈ before, p.2.isEnd = false)
    (hpieces : pieces.map Prod.snd = buildLfnEntries name checksum) (he : e.2.isEntry = true) :
    entriesFrom none (before ++ pieces ++ e :: rest) =
      entriesFrom none before ++ (e.1, ⟨e.2, name⟩) :: entriesFrom none rest := by
  have hcount : 1 ≤ lfnCount name ∧ ¬ 20 < lfnCount name := by
    unfold lfnCount
    omega
  obtain ⟨buf, hbuf⟩ := entriesFrom_append hend none
  unfold buildLfnEntries at hpieces
  dsimp only at hpieces
  rw [if_neg hcount.2] at hpieces
  rw [List.append_assoc, hbuf,
    entriesFrom_pieces hchars hlen.2 (lfnCount name) pieces (e :: rest) buf hcount.1 le_rfl hpieces,
    Nat.sub_self, entriesFrom]
  unfold DirSlot.isEntry DirSlot.isFree at he
  simp only [Bool.and_eq_true, Bool.not_eq_true', Bool.or_eq_false_iff] at he
  obtain ⟨⟨⟨h₁, h₂⟩, h₃⟩, h₄⟩ := he
  rw [h₁, h₂, h₃, h₄]
  show _ ++ (e.1, ExtEntry.mk e.2 (lfnString (nameBuffer name 0))) :: _ = _
  rw [lfnString_nameBuffer hchars hlen.2]

/-! ## Reading -/

section

variable {info : Fat16Info} {d : Disk} {c k : ℕ}

/-- More clusters only add slots. -/
theorem dirSlots_append {k' : ℕ} (h : k ≤ k') :
    ∃ more, dirSlots info d c k' = dirSlots info d c k ++ more := by
  unfold dirSlots
  split_ifs with hc
  · exact ⟨[], (List.append_nil _).symm⟩
  · clear hc
    induction k generalizing c k' with
    | zero => exact ⟨_, rfl⟩
    | succ k ih =>
      obtain ⟨k', rfl⟩ : ∃ j, k' = j + 1 := ⟨k' - 1, by omega⟩
      obtain ⟨more, hmore⟩ := @ih (fatReadEntry info d c) k' (by omega)
      unfold slotsAlong
      split_ifs
      · exact ⟨more, by rw [hmore, List.append_assoc]⟩
      · exact ⟨[], rfl⟩

/-- A scan that is ended by a slot returns. -/
theorem scanDir_of_inl {ρ σ : Type} {visit : σ → SlotPos × DirSlot → ρ ⊕ σ} {st : σ} {r : ρ}
    (h : foldUntil visit (dirSlots info d c k) st = .inl r) :
    scanDir visit info d k c st = some (.inl r) := by
  unfold dirSlots at h
  unfold scanDir
  split_ifs at h ⊢ with hc
  · rw [← foldUntil_map] at h
    exact congrArg some h
  · clear hc
    induction k generalizing c st with
    | zero => cases h
    | succ k ih =>
      unfold slotsAlong at h
      split_ifs at h with hchained
      · rw [foldUntil_append] at h
        rw [scanChain_succ hchained]
        cases hslots : foldUntil visit (clusterSlots info d c) st with
        | inl r' =>
          rw [hslots] at h
          cases h
          rfl
        | inr st' =>
          rw [hslots] at h
          exact ih h
      · cases h

/-- **The entry is read with its name**: by the readers of a directory, which return when they have
come to it, and by the search for a name, which compares with this name. -/
structure ReadAs (info : Fat16Info) (d : Disk) (c : ℕ) (before : List (SlotPos × ExtEntry))
    (e : SlotPos × DirSlot) (name : List UInt8) : Prop where
  read : ∀ max fuel es, before.length < max → readDir info fuel d c max = some es →
    ∃ rest, es = before.map Prod.snd ++ ⟨e.2, name⟩ :: rest
  readReturns : ∃ fuel, readDir info fuel d c (before.length + 1) =
    some (before.map Prod.snd ++ [⟨e.2, name⟩])
  found : ∀ wanted fuel r, findEntryInDir info fuel d c wanted = some r →
    ∃ rest, r = ((before ++ (e.1, ExtEntry.mk e.2 name) :: rest).find? fun x =>
      x.2.matches wanted).map fun x => (x.1, x.2.sfn)
  foundReturns : ∀ wanted, (∀ b ∈ before, b.2.matches wanted = false) →
    ExtEntry.matches ⟨e.2, name⟩ wanted = true → ∃ fuel, findEntryInDir info fuel d c wanted = some (some e)

/-- What the readers give follows from the entries. -/
theorem readAs_of_entries {before : List (SlotPos × ExtEntry)} {e : SlotPos × DirSlot}
    (h : ∀ k', k ≤ k' → ∃ rest, dirEntries info d c k' = before ++ (e.1, ⟨e.2, name⟩) :: rest) :
    ReadAs info d c before e name where
  read := by
    intro max fuel es hmax hread
    obtain ⟨rest, hrest⟩ := h (Nat.max fuel k) (Nat.le_max_right fuel k)
    have hread' := readDir_eq_take (by omega) (readDir_mono (Nat.le_max_left fuel k) hread)
    have hlen : (before.map Prod.snd).length = before.length := by rw [List.length_map]
    rw [hrest, List.map_append, List.map_cons, List.take_append, hlen,
      List.take_of_length_le (by omega)] at hread'
    obtain ⟨n, hn⟩ : ∃ n, max - before.length = n + 1 := ⟨max - before.length - 1, by omega⟩
    rw [hn, List.take_succ_cons] at hread'
    exact ⟨_, hread'⟩
  readReturns := by
    obtain ⟨rest, hrest⟩ := h k le_rfl
    refine ⟨k, ?_⟩
    have hfold : ∀ (b : List (SlotPos × ExtEntry)) (es : List ExtEntry),
        es.length + b.length = before.length →
        foldUntil (ρ := List ExtEntry) (fun es (x : SlotPos × ExtEntry) =>
          if before.length + 1 ≤ es.length + 1 then .inl (es ++ [x.2]) else .inr (es ++ [x.2]))
          (b ++ (e.1, ⟨e.2, name⟩) :: rest) es = .inl (es ++ b.map Prod.snd ++ [⟨e.2, name⟩]) := by
      intro b
      induction b with
      | nil =>
        intro es hes
        rw [List.length_nil] at hes
        rw [List.nil_append, foldUntil_cons, if_pos (by omega), List.map_nil, List.append_nil]
        rfl
      | cons x b ih =>
        intro es hes
        rw [List.length_cons] at hes
        rw [List.cons_append, foldUntil_cons, if_neg (by omega)]
        refine (ih (es ++ [x.2]) ?_).trans ?_
        · rw [List.length_append, List.length_singleton]
          omega
        · rw [List.map_cons, List.append_assoc es, List.singleton_append]
    have hentries := hfold before [] (by rw [List.length_nil, Nat.zero_add])
    rw [← hrest] at hentries
    unfold readDir
    rcases foldUntil_visitEntry (ρ := List ExtEntry) id (fun es _ e =>
        if before.length + 1 ≤ es.length + 1 then .inl (es ++ [e]) else .inr (es ++ [e]))
        (dirSlots info d c k) [] none with ⟨r, hr, hvisit⟩ | ⟨t, ht, _⟩
    · rw [scanDir_of_inl hvisit]
      have heq := hr.symm.trans hentries
      rw [Sum.inl.inj heq]
      rfl
    · have heq := ht.symm.trans hentries
      cases heq
  found := by
    intro wanted fuel r hfind
    obtain ⟨rest, hrest⟩ := h (Nat.max fuel k) (Nat.le_max_right fuel k)
    have hfind' := findEntryInDir_eq_find (findEntryInDir_mono (Nat.le_max_left fuel k) hfind)
    rw [hrest] at hfind'
    exact ⟨rest, hfind'⟩
  foundReturns := by
    intro wanted hbefore hmatch
    obtain ⟨rest, hrest⟩ := h k le_rfl
    refine ⟨k, ?_⟩
    have hfold : ∀ b : List (SlotPos × ExtEntry), (∀ x ∈ b, x.2.matches wanted = false) →
        foldUntil (ρ := Option (SlotPos × DirSlot)) (fun (_ : Unit) (x : SlotPos × ExtEntry) =>
          if x.2.matches wanted then .inl (some (x.1, x.2.sfn)) else .inr ())
          (b ++ (e.1, ⟨e.2, name⟩) :: rest) () = .inl (some e) := by
      intro b
      induction b with
      | nil =>
        intro _
        rw [List.nil_append, foldUntil_cons, if_pos hmatch]
        rfl
      | cons x b ih =>
        intro hb
        rw [List.cons_append, foldUntil_cons, hb x List.mem_cons_self, if_neg Bool.false_ne_true]
        exact ih fun y hy => hb y (List.mem_cons_of_mem _ hy)
    have hentries := hfold before hbefore
    rw [← hrest] at hentries
    unfold findEntryInDir
    rcases foldUntil_visitEntry (ρ := Option (SlotPos × DirSlot)) (fun _ : Unit => none)
        (fun _ p e => if e.matches wanted then .inl (some (p, e.sfn)) else .inr ())
        (dirSlots info d c k) () none with ⟨r, hr, hvisit⟩ | ⟨t, ht, _⟩
    · rw [scanDir_of_inl hvisit]
      have heq := hr.symm.trans hentries
      rw [Sum.inl.inj heq]
      rfl
    · have heq := ht.symm.trans hentries
      cases heq

/-- **Long names there and back.**  When the slots of a directory are some slots that do not end it,
the pieces of a name and then an entry, all readers give the entry exactly this name. -/
theorem longName_roundTrip (info : Fat16Info) (d : Disk) (c k : ℕ) (name : List UInt8)
    (checksum : UInt8) (before pieces rest : List (SlotPos × DirSlot)) (e : SlotPos × DirSlot)
    (hlen : 1 ≤ name.length ∧ name.length ≤ 127) (hchars : ∀ b ∈ name, 1 ≤ b ∧ b ≤ 0xFE)
    (hslots : dirSlots info d c k = before ++ pieces ++ e :: rest)
    (hend : ∀ p ∈ before, p.2.isEnd = false)
    (hpieces : pieces.map Prod.snd = buildLfnEntries name checksum) (he : e.2.isEntry = true) :
    ReadAs info d c (entriesFrom none before) e name := by
  have hchars' : LongNameChars name := by
    intro b hb
    obtain ⟨h₁, h₂⟩ := hchars b hb
    constructor
    · rintro rfl
      exact absurd h₁ (by decide)
    · rintro rfl
      exact absurd h₂ (by decide)
  apply readAs_of_entries
  intro k' hk
  obtain ⟨more, hmore⟩ := @dirSlots_append info d c k k' hk
  refine ⟨entriesFrom none (rest ++ more), ?_⟩
  unfold dirEntries
  rw [hmore, hslots, List.append_assoc, List.cons_append]
  exact entriesFrom_named hchars' hlen hend hpieces he

end

/-- The root directory of the small volume after a deleted entry, with the long name of a file
written over it. -/
def namedDisk : Disk :=
  writeDirEntries (writeSlot piecesDisk ⟨2, 0⟩ fun k => if k = 0 then 0xE5 else 0) ⟨2, 32⟩
    (buildLfnEntries [0x61] 0x7A ++ [(fun k => if (k : ℕ) < 11 then 0x41 else 0 : DirSlot)])

/-- The slots of this root directory. -/
theorem dirSlots_namedDisk : dirSlots piecesInfo namedDisk 0 0 =
    (List.range 16).map fun i => (slotPos 2 i, slotAt namedDisk (slotPos 2 i)) := by
  have hsectors : piecesInfo.rootDirSectors = 1 := by decide
  have hlba : piecesInfo.rootDirLba = 2 := by decide
  unfold dirSlots
  rw [if_pos rfl, hsectors, hlba]

/-- A name of one letter, written after a deleted entry, is read back. -/
theorem longName_roundTrip_root :
    ReadAs piecesInfo namedDisk 0 (entriesFrom none [(⟨2, 0⟩, slotAt namedDisk ⟨2, 0⟩)])
      (⟨2, 64⟩, slotAt namedDisk ⟨2, 64⟩) [0x61] :=
  longName_roundTrip piecesInfo namedDisk 0 0 [0x61] 0x7A
    [(⟨2, 0⟩, slotAt namedDisk ⟨2, 0⟩)] [(⟨2, 32⟩, slotAt namedDisk ⟨2, 32⟩)]
    ((List.range' 3 13).map fun i => (slotPos 2 i, slotAt namedDisk (slotPos 2 i)))
    (⟨2, 64⟩, slotAt namedDisk ⟨2, 64⟩)
    (by decide) (by simp) dirSlots_namedDisk (by decide) (by decide) (by decide)

end Microkernel
