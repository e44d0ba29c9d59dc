/-
# Opening and saving a file

What the array of the editor holds after a file is loaded, and what is saved of it.
-/
import Microkernel.EditorRuns

open Access Buffer TextLines

namespace Microkernel

/-- The array has these rows of bytes with nothing but zeros behind each of them. -/
structure Renders (b : Buffer) (rows : List (List UInt8)) : Prop where
  size_eq : b.size = editorMaxLines * editorLineLen
  byte : ∀ i < editorMaxLines, ∀ j < editorLineLen,
    b.mem (lineAddr i + j) = (rows.getD i []).getD j 0
  short : ∀ row ∈ rows, row.length < editorLineLen

variable {b b' : Buffer} {rows : List (List UInt8)} {p data : List UInt8}

/-- Bytes with a zero behind them are a string, which ends at the first zero. -/
theorem holdsString_of_bytes {a : ℕ} {row : List UInt8} (hlen : a + row.length < b.size)
    (h : ∀ j ≤ row.length, b.mem (a + j) = row.getD j 0) :
    b.HoldsString a (row.takeWhile (· != 0)) := by
  induction row generalizing a with
  | nil => exact holdsString_nil.mpr ⟨hlen, h 0 (le_refl _)⟩
  | cons c row ih =>
    rw [List.length_cons] at hlen h
    have hfirst : b.mem a = c := h 0 (Nat.zero_le _)
    by_cases hc : c = 0
    · rw [List.takeWhile_cons_of_neg (by simp [hc])]
      exact holdsString_nil.mpr ⟨by omega, hfirst.trans hc⟩
    · rw [List.takeWhile_cons_of_pos (by simp [hc])]
      refine holdsString_cons.mpr ⟨hc, holds_singleton.mpr ⟨by omega, hfirst⟩, ih (by omega) ?_⟩
      intro j hj
      have hbyte := h (j + 1) (by omega)
      rw [List.getD_cons_succ] at hbyte
      rw [← hbyte, Nat.add_assoc, Nat.add_comm 1 j]

/-- Rows of bytes are lines, each up to its first zero. -/
theorem Renders.shows (h : Renders b rows) :
    ShowsLines b fun i => (rows.getD i []).takeWhile (· != 0) := by
  have hlen : ∀ i, (rows.getD i []).length < editorLineLen := by
    intro i
    rcases Nat.lt_or_ge i rows.length with hi | hi
    · rw [List.getD_eq_getElem _ _ hi]
      exact h.short _ (List.getElem_mem hi)
    · rw [List.getD_eq_default _ _ hi]
      decide
  refine ⟨h.size_eq, fun i hi => ?_, fun i _ => ?_⟩
  · refine holdsString_of_bytes ?_ fun j hj => h.byte i hi j (lt_of_le_of_lt hj (hlen i))
    rw [h.size_eq]
    exact lineAddr_lt hi (hlen i)
  · exact lt_of_le_of_lt (List.takeWhile_prefix _).length_le (hlen i)

theorem renders_empty (filename : List UInt8) : Renders (Editor.empty filename).lines [] :=
  ⟨rfl, fun _ _ _ _ => rfl, fun _ hrow => absurd hrow List.not_mem_nil⟩

/-! ## Loading -/

/-- The list with one more at its end. -/
theorem getD_append_singleton {α : Type} (l : List α) (x d : α) (i : ℕ) :
    (l ++ [x]).getD i d = if i = l.length then x else l.getD i d := by
  rcases Nat.lt_trichotomy i l.length with hlt | rfl | hgt
  · rw [List.getD_append _ _ _ _ hlt, if_neg hlt.ne]
  · rw [List.getD_append_right _ _ _ _ (le_refl _), Nat.sub_self, if_pos rfl]
    rfl
  · have hle : (l ++ [x]).length ≤ i := by
      rw [List.length_append]
      exact hgt
    rw [List.getD_eq_default _ _ hle, List.getD_eq_default _ _ hgt.le, if_neg hgt.ne']

theorem getD_append_nil (rows : List (List UInt8)) (i : ℕ) :
    (rows ++ [[]]).getD i [] = rows.getD i [] := by
  rw [getD_append_singleton]
  split_ifs with hlast
  · rw [hlast, List.getD_eq_default _ _ (le_refl _)]
  · rfl

/-- An empty row behind the others changes nothing. -/
theorem renders_next : Renders b (rows ++ [[]]) ↔ Renders b rows := by
  constructor
  · intro h
    refine ⟨h.size_eq, fun i hi j hj => ?_,
      fun row hrow => h.short row (List.mem_append_left _ hrow)⟩
    rw [h.byte i hi j hj, getD_append_nil]
  · intro h
    refine ⟨h.size_eq, fun i hi j hj => ?_, fun row hrow => ?_⟩
    · rw [h.byte i hi j hj, getD_append_nil]
    · rcases List.mem_append.mp hrow with hold | hnew
      · exact h.short row hold
      · rw [List.mem_singleton.mp hnew]
        decide

/-- Places in lines are different in the array. -/
theorem lineAddr_inj {i j n k : ℕ} (hj : j < editorLineLen) (hk : k < editorLineLen)
    (h : lineAddr i + j = lineAddr n + k) : i = n ∧ j = k := by
  unfold lineAddr editorLineLen at *
  omega

/-- **A byte is stored behind the last row.**  A zero changes nothing there. -/
theorem Renders.store (h : Renders b (rows ++ [p])) (hrows : rows.length < editorMaxLines)
    (c : UInt8) :
    ∃ b', b.storeBytes (lineAddr rows.length + p.length) [c] = .ok b' ∧
      (c = 0 → Renders b' (rows ++ [p])) ∧
      (p.length < editorLineLen - 1 → Renders b' (rows ++ [p ++ [c]])) := by
  have hp : p.length < editorLineLen := h.short p (List.mem_append_right _ List.mem_cons_self)
  have hlt : lineAddr rows.length + p.length < b.size := by
    rw [h.size_eq]
    exact lineAddr_lt hrows hp
  obtain ⟨b', hstore, hholds, hsame⟩ := storeBytes_byte hlt c
  have hbyte := (holds_singleton.mp hholds).2
  have hother : ∀ i j, j < editorLineLen → ¬ (i = rows.length ∧ j = p.length) →
      b'.mem (lineAddr i + j) = b.mem (lineAddr i + j) := by
    intro i j hj hne
    refine hsame.mem_eq _ ?_
    have hplace : lineAddr i + j ≠ lineAddr rows.length + p.length :=
      fun heq => hne (lineAddr_inj hj hp heq)
    omega
  refine ⟨b', hstore, ?_, ?_⟩
  · rintro rfl
    refine ⟨hsame.size_eq.trans h.size_eq, fun i hi j hj => ?_, h.short⟩
    by_cases hplace : i = rows.length ∧ j = p.length
    · rw [hplace.1, hplace.2, hbyte, getD_append_singleton, if_pos rfl,
        List.getD_eq_default _ _ (le_refl _)]
    · rw [hother i j hj hplace, h.byte i hi j hj]
  · intro hroom
    refine ⟨hsame.size_eq.trans h.size_eq, fun i hi j hj => ?_, fun row hrow => ?_⟩
    · by_cases hplace : i = rows.length ∧ j = p.length
      · rw [hplace.1, hplace.2, hbyte, getD_append_singleton, if_pos rfl, getD_append_singleton,
          if_pos rfl]
      · have hsame' : ((rows ++ [p ++ [c]]).getD i []).getD j 0 =
            ((rows ++ [p]).getD i []).getD j 0 := by
          rw [getD_append_singleton, getD_append_singleton]
          by_cases hi' : i = rows.length
          · rw [if_pos hi', if_pos hi', getD_append_singleton,
              if_neg fun hj' => hplace ⟨hi', hj'⟩]
          · rw [if_neg hi', if_neg hi']
        rw [hother i j hj hplace, h.byte i hi j hj, hsame']
    · rcases List.mem_append.mp hrow with hold | hnew
      · exact h.short row (List.mem_append_left _ hold)
      · rw [List.mem_singleton.mp hnew, List.length_append, List.length_singleton]
        omega

/-- **The loop over a line** puts as much of it as fits behind what is there. -/
theorem loadLoop_line {line : List UInt8} (h : Renders b (rows ++ [p]))
    (hrows : rows.length < editorMaxLines) (hline : newline ∉ line) (rest : List UInt8) :
    ∃ b', Renders b' (rows ++ [(p ++ line).take (editorLineLen - 1)]) ∧
      loadLoop (line ++ rest) b rows.length p.length =
        loadLoop rest b' rows.length ((p ++ line).take (editorLineLen - 1)).length := by
  have hp : p.length < editorLineLen := h.short p (List.mem_append_right _ List.mem_cons_self)
  have hfull : p.take (editorLineLen - 1) = p := List.take_of_length_le (Nat.le_sub_one_of_lt hp)
  induction line generalizing b p with
  | nil =>
    rw [List.append_nil, hfull]
    exact ⟨b, h, rfl⟩
  | cons c line ih =>
    have hc := (List.ne_of_not_mem_cons hline).symm
    have hrest := List.not_mem_of_not_mem_cons hline
    rw [List.cons_append, loadLoop, if_pos hrows, if_neg hc]
    by_cases hroom : p.length < editorLineLen - 1
    · obtain ⟨b₁, hstore, -, hrenders⟩ := h.store hrows c
      have hlen : (p ++ [c]).length = p.length + 1 := by
        rw [List.length_append, List.length_singleton]
      have hp₁ : (p ++ [c]).length < editorLineLen := by omega
      obtain ⟨b', hb', hloop⟩ := ih (hrenders hroom) hrest hp₁
        (List.take_of_length_le (Nat.le_sub_one_of_lt hp₁))
      rw [hlen, List.append_assoc, List.singleton_append] at hloop
      rw [List.append_assoc, List.singleton_append] at hb'
      rw [if_pos hroom, hstore, ok_bind, hloop]
      exact ⟨b', hb', rfl⟩
    · obtain ⟨b', hb', hloop⟩ := ih h hrest hp hfull
      have htake : (p ++ c :: line).take (editorLineLen - 1) =
          (p ++ line).take (editorLineLen - 1) := by
        rw [List.take_append_of_le_length (by omega), List.take_append_of_le_length (by omega)]
      rw [if_neg hroom, htake]
      exact ⟨b', hb', hloop⟩

/-- The rows that are loaded of a file, behind those that there are. -/
def loadedRows (rows : List (List UInt8)) (data : List UInt8) : List (List UInt8) :=
  (rows ++ (linesOf newline data).map (List.take (editorLineLen - 1))).take editorMaxLines

theorem loadedRows_of_full (h : rows.length = editorMaxLines) (data : List UInt8) :
    loadedRows rows data = rows := by
  rw [loadedRows, List.take_append_of_le_length h.ge, List.take_of_length_le h.le]

/-- What the loop over a file leaves: whole rows, and a row that is not finished. -/
structure Loaded (b : Buffer) (rows : List (List UInt8)) (p : List UInt8)
    (all : List (List UInt8)) : Prop where
  renders : Renders b (rows ++ [p])
  rows_le : rows.length ≤ editorMaxLines
  all_eq : all = if p = [] then rows else rows ++ [p]
  unfinished : p ≠ [] → rows.length < editorMaxLines

/-- **The loop over a file**, by induction on its lines. -/
theorem loadLoop_eq (h : Renders b rows) (hrows : rows.length ≤ editorMaxLines)
    (data : List UInt8) :
    ∃ b' rows' p, loadLoop data b rows.length 0 = .ok (b', rows'.length, p.length) ∧
      Loaded b' rows' p (loadedRows rows data) := by
  have hnothing : ∀ {b : Buffer} {rows : List (List UInt8)}, Renders b rows →
      rows.length ≤ editorMaxLines → Loaded b rows [] rows := fun hr hl =>
    ⟨renders_next.mpr hr, hl, (if_pos rfl).symm, fun hne => absurd rfl hne⟩
  induction data using lines_induction (e := newline) generalizing b rows with
  | nil =>
    have hall : loadedRows rows [] = rows := by
      rw [loadedRows, linesOf_nil, List.map_nil, List.append_nil, List.take_of_length_le hrows]
    rw [hall]
    exact ⟨b, rows, [], rfl, hnothing h hrows⟩
  | last line hnot hne =>
    by_cases hfull : rows.length < editorMaxLines
    · obtain ⟨b', hb', hloop⟩ := loadLoop_line (p := []) (renders_next.mpr h) hfull hnot []
      rw [List.append_nil, List.nil_append] at hloop
      rw [List.nil_append] at hb'
      have hne' : line.take (editorLineLen - 1) ≠ [] := by
        intro hnil
        rcases List.take_eq_nil_iff.mp hnil with hzero | hnil
        · exact absurd hzero (by decide)
        · exact hne hnil
      have hall : loadedRows rows line = rows ++ [line.take (editorLineLen - 1)] := by
        rw [loadedRows, linesOf_notMem hnot hne, List.map_singleton, List.take_of_length_le]
        rw [List.length_append, List.length_singleton]
        exact hfull
      rw [hall]
      exact ⟨b', rows, _, hloop, hb', hfull.le, (if_neg hne').symm, fun _ => hfull⟩
    · rw [loadedRows_of_full (by omega)]
      obtain ⟨c, line, rfl⟩ := List.exists_cons_of_ne_nil hne
      refine ⟨b, rows, [], ?_, hnothing h hrows⟩
      rw [loadLoop, if_neg hfull]
      rfl
  | cons line rest hnot ih =>
    by_cases hfull : rows.length < editorMaxLines
    · obtain ⟨b₁, hb₁, hloop⟩ :=
        loadLoop_line (p := []) (renders_next.mpr h) hfull hnot (newline :: rest)
      rw [List.nil_append] at hb₁ hloop
      obtain ⟨b₂, hstore, hzero, -⟩ := hb₁.store hfull 0
      have hlen : (rows ++ [line.take (editorLineLen - 1)]).length = rows.length + 1 := by
        rw [List.length_append, List.length_singleton]
      obtain ⟨b', rows', p, hrun, hloaded⟩ := ih (hzero rfl) (by omega)
      have hall : loadedRows (rows ++ [line.take (editorLineLen - 1)]) rest =
          loadedRows rows (line ++ newline :: rest) := by
        rw [loadedRows, loadedRows, linesOf_append_cons hnot, List.map_cons, List.append_assoc,
          List.singleton_append]
      rw [hall] at hloaded
      rw [hlen] at hrun
      refine ⟨b', rows', p, ?_, hloaded⟩
      have hzero : ([] : List UInt8).length = 0 := rfl
      rw [hzero] at hloop
      rw [hloop, loadLoop, if_pos hfull, if_pos rfl, hstore, ok_bind, hrun]
    · rw [loadedRows_of_full (by omega)]
      refine ⟨b, rows, [], ?_, hnothing h hrows⟩
      cases line with
      | nil =>
        rw [List.nil_append, loadLoop, if_neg hfull]
        rfl
      | cons c line =>
        rw [List.cons_append, loadLoop, if_neg hfull]
        rfl

/-- The lines that the editor has of a file, each cut to its length. -/
def fileRows (data : List UInt8) : List (List UInt8) := loadedRows [] data

theorem fileRows_eq (data : List UInt8) :
    fileRows data =
      ((linesOf newline data).map (List.take (editorLineLen - 1))).take editorMaxLines := rfl

theorem length_fileRows (data : List UInt8) :
    (fileRows data).length = min editorMaxLines (linesOf newline data).length := by
  rw [fileRows_eq, List.length_take, List.length_map]

theorem length_fileRows_pos (h : data ≠ []) : 0 < (fileRows data).length := by
  have hpos := List.length_pos_iff.mpr (linesOf_ne_nil (e := newline) h)
  have hmax : 0 < editorMaxLines := by decide
  rw [length_fileRows]
  omega

/-! ## Opening -/

/-- **What `editor_open` makes of a file** that is not empty. -/
theorem editorOpen_eq (filename : List UInt8) (h : data ≠ []) :
    ∃ s, editorOpen filename (some data) = .ok s ∧ Renders s.lines (fileRows data) ∧
      s.numLines = (fileRows data).length ∧ s.cursorRow = 0 ∧ s.cursorCol = 0 ∧
      s.editFilename = filename.take 63 := by
  obtain ⟨b, rows, p, hloop, hloaded⟩ := loadLoop_eq (renders_empty filename) (Nat.zero_le _) data
  have hpos := length_fileRows_pos h
  have hall : fileRows data = if p = [] then rows else rows ++ [p] := hloaded.all_eq
  have hmem : ∀ {b : Buffer} {rows : List (List UInt8)}, Renders b rows →
      Renders (linesBuffer b.mem) rows := fun hr => ⟨rfl, hr.byte, hr.short⟩
  obtain ⟨c, cs, rfl⟩ := List.exists_cons_of_ne_nil h
  have hopen : editorOpen filename (some (c :: cs)) =
      (loadLoop (c :: cs) (Editor.empty filename).lines 0 0).bind fun r =>
        if 0 < r.2.2 ∨ r.2.1 = 0 then
          (r.1.storeBytes (lineAddr r.2.1 + r.2.2) [0]).bind fun b =>
            .ok { Editor.empty filename with mem := b.mem, numLines := r.2.1 + 1 }
        else .ok { Editor.empty filename with mem := r.1.mem, numLines := r.2.1 } := rfl
  have hloop' : loadLoop (c :: cs) (Editor.empty filename).lines 0 0 =
      .ok (b, rows.length, p.length) := hloop
  rw [hopen, hloop', ok_bind]
  dsimp only
  by_cases hp : p = []
  · rw [if_pos hp] at hall
    rw [hall] at hpos ⊢
    have hrenders := hloaded.renders
    rw [hp, renders_next] at hrenders
    rw [hp, List.length_nil, if_neg (by omega)]
    exact ⟨_, rfl, hmem hrenders, rfl, rfl, rfl, rfl⟩
  · have hlen := List.length_pos_iff.mpr hp
    obtain ⟨b', hstore, hrenders, -⟩ := hloaded.renders.store (hloaded.unfinished hp) 0
    rw [if_neg hp] at hall
    rw [hall, if_pos (Or.inl hlen), hstore, ok_bind]
    refine ⟨_, rfl, hmem (hrenders rfl), ?_, rfl, rfl, rfl⟩
    rw [List.length_append, List.length_singleton]

/-- The lines that the editor shows of a file. -/
def fileLines (data : List UInt8) (i : ℕ) : List UInt8 :=
  ((fileRows data).getD i []).takeWhile (· != 0)

theorem edits_editorOpen (filename : List UInt8) (h : data ≠ []) :
    ∃ s, editorOpen filename (some data) = .ok s ∧ Edits s (fileLines data) ∧
      s.numLines = (fileRows data).length ∧ s.editFilename = filename.take 63 := by
  obtain ⟨s, hopen, hrenders, hnum, hrow, hcol, hname⟩ := editorOpen_eq filename h
  have hpos := length_fileRows_pos h
  have hlen := length_fileRows data
  refine ⟨s, hopen, ⟨hrenders.shows, by omega, by omega, by omega, ?_⟩, hnum, hname⟩
  rw [hcol]
  exact Nat.zero_le _

theorem edits_empty (filename : List UInt8) : Edits (Editor.empty filename) fun _ => [] :=
  ⟨(renders_empty filename).shows, le_refl _, (by decide : 1 ≤ editorMaxLines), Nat.one_pos,
    Nat.zero_le _⟩

/-- **Every file is opened well formed.** -/
theorem editorInv_editorOpen (filename : List UInt8) (file : Option (List UInt8)) :
    ∃ s, editorOpen filename file = .ok s ∧ EditorInv s := by
  rcases file with _ | data
  · exact ⟨_, rfl, (edits_empty filename).inv⟩
  · by_cases h : data = []
    · rw [h]
      exact ⟨_, rfl, (edits_empty filename).inv⟩
    · obtain ⟨s, hopen, hedits, -⟩ := edits_editorOpen filename h
      exact ⟨s, hopen, hedits.inv⟩

/-- **The editor stays well formed**, for every file and every sequence of keys, exactly if every
page key is pressed where the line it leads to is not shorter than the column of the cursor. -/
theorem editor_wellFormed_iff (filename : List UInt8) (file : Option (List UInt8))
    (keys : List UInt8) :
    (∃ s, editorOpen filename file = .ok s ∧ StaysWellFormed s keys) ↔
      ∀ s, editorOpen filename file = .ok s → PagesInside s keys := by
  obtain ⟨s, hopen, hinv⟩ := editorInv_editorOpen filename file
  constructor
  · rintro ⟨s', hopen', hstays⟩ s'' hopen''
    obtain rfl := Except.ok.inj (hopen'.symm.trans hopen'')
    obtain rfl := Except.ok.inj (hopen.symm.trans hopen')
    exact (staysWellFormed_iff hinv keys).mp hstays
  · intro hpages
    exact ⟨s, hopen, (staysWellFormed_iff hinv keys).mpr (hpages s hopen)⟩

/-- End and then Page Down, from the line "ab" to an empty one, leave the cursor behind its end. -/
theorem not_staysWellFormed_pageDown :
    ¬ ∃ s, editorOpen [] (some [0x61, 0x62, newline, newline]) = .ok s ∧
      StaysWellFormed s [keyEnd, keyPgdown] := by
  have hne : [0x61, 0x62, newline, newline] ≠ [] := List.cons_ne_nil _ _
  obtain ⟨s, hopen, hrenders, hnum, hrow, -⟩ := editorOpen_eq [] hne
  have hrows : fileRows [0x61, 0x62, newline, newline] = [[0x61, 0x62], []] := by decide
  rw [hrows] at hrenders hnum
  have hline := strlen_eq (hrenders.shows.line 0 (by decide))
  have hnext := strlen_eq (hrenders.shows.line 1 (by decide))
  have hkey : editorKey keyEnd s = .ok { s with cursorCol := 2 } := by
    have hend : editorKey keyEnd s =
      (s.lines.strlen (lineAddr s.cursorRow)).map fun len => { s with cursorCol := len } := rfl
    rw [hend, hrow, hline]
    rfl
  have hdown : ({ s with cursorCol := 2 } : Editor).pageDown = 1 := by
    unfold Editor.pageDown
    dsimp only
    rw [hnum, hrow]
    rfl
  rintro ⟨s', hopen', hstays⟩
  obtain rfl := Except.ok.inj (hopen.symm.trans hopen')
  obtain ⟨s', hs', hinv⟩ := editorInv_editorOpen [] (some [0x61, 0x62, newline, newline])
  obtain rfl := Except.ok.inj (hopen.symm.trans hs')
  obtain hquit | ⟨-, hrest⟩ := (staysWellFormed_iff hinv _).mp hstays
  · exact absurd hquit (by decide)
  obtain hquit | ⟨⟨-, hpage⟩, -⟩ := hrest _ hkey
  · exact absurd hquit (by decide)
  obtain ⟨len, hlen, hle⟩ := hpage rfl
  rw [hdown] at hlen
  obtain rfl := Except.ok.inj (hnext.symm.trans hlen)
  exact Nat.not_succ_le_zero 1 hle

/-! ## Saving -/

/-- A file that is saved as soon as it is opened is written as it was read. -/
def SavesBack (filename data : List UInt8) : Prop :=
  ∃ s, editorOpen filename (some data) = .ok s ∧ editorSave s = .ok (filename, data)

theorem map_getD_range' {α : Type} (l : List α) (d : α) :
    (List.range' 0 l.length).map (fun i => l.getD i d) = l := by
  refine List.ext_getElem ?_ fun i hi hi' => ?_
  · rw [List.length_map, List.length_range']
  · rw [List.getElem_map, List.getElem_range', Nat.zero_add, Nat.one_mul, List.getD_eq_getElem]

/-- A row is a short part of the file without a line end. -/
theorem mem_fileRows {row : List UInt8} (hrow : row ∈ fileRows data) :
    row.length < editorLineLen ∧ newline ∉ row ∧ row ⊆ data := by
  rw [fileRows_eq] at hrow
  obtain ⟨line, hline, rfl⟩ := List.mem_map.mp (List.mem_of_mem_take hrow)
  refine ⟨?_, ?_, ?_⟩
  · have hlen := List.length_take_le (editorLineLen - 1) line
    exact lt_of_le_of_lt hlen (by decide)
  · exact fun hmem => notMem_of_mem_linesOf data line hline (List.mem_of_mem_take hmem)
  · exact fun c hc => subset_of_mem_linesOf data line hline (List.mem_of_mem_take hc)

theorem fileRows_eq_linesOf_iff (data : List UInt8) :
    fileRows data = linesOf newline data ↔
      (linesOf newline data).length ≤ editorMaxLines ∧
        ∀ line ∈ linesOf newline data, line.length < editorLineLen := by
  constructor
  · intro h
    refine ⟨?_, fun line hline => ?_⟩
    · have hlen := length_fileRows data
      rw [h] at hlen
      omega
    · rw [← h] at hline
      exact (mem_fileRows hline).1
  · rintro ⟨hmany, hlong⟩
    have hself : (linesOf newline data).map (List.take (editorLineLen - 1)) =
        linesOf newline data := by
      refine (List.map_congr_left fun line hline => ?_).trans (List.map_id _)
      exact List.take_of_length_le (Nat.le_sub_one_of_lt (hlong line hline))
    rw [fileRows_eq, hself, List.take_of_length_le hmany]

/-- **What is saved of a file** that is not empty and has no NUL. -/
theorem saved_eq (filename : List UInt8) (h : data ≠ []) (hnul : 0 ∉ data) :
    ∃ s, editorOpen filename (some data) = .ok s ∧
      editorSave s = .ok (filename.take 63, ofLines newline (fileRows data)) := by
  obtain ⟨s, hopen, hedits, hnum, hname⟩ := edits_editorOpen filename h
  refine ⟨s, hopen, ?_⟩
  have hlines : ∀ i, fileLines data i = (fileRows data).getD i [] := by
    intro i
    refine List.takeWhile_eq_self_iff.mpr fun c hc => bne_iff_ne.mpr ?_
    rintro rfl
    rcases Nat.lt_or_ge i (fileRows data).length with hi | hi
    · rw [List.getD_eq_getElem _ _ hi] at hc
      exact hnul ((mem_fileRows (List.getElem_mem hi)).2.2 hc)
    · rw [List.getD_eq_default _ _ hi] at hc
      exact absurd hc List.not_mem_nil
  rw [hedits.save, hname, hnum, funext hlines, map_getD_range']

/-- **A file comes back as it was** exactly if the path fits, the last line has its end, and there
are neither too many lines nor too long ones. -/
theorem savesBack_iff (filename : List UInt8) (hnul : 0 ∉ data) :
    SavesBack filename data ↔ filename.length ≤ 63 ∧ data.getLast? = some newline ∧
      (linesOf newline data).length ≤ editorMaxLines ∧
      ∀ line ∈ linesOf newline data, line.length < editorLineLen := by
  by_cases h : data = []
  · -- An empty file comes back as an empty line.
    have hsave : ∀ s, editorOpen filename (some []) = .ok s →
        editorSave s = .ok (filename.take 63, [newline]) := by
      rintro _ ⟨⟩
      exact (edits_empty filename).save
    rw [h]
    constructor
    · rintro ⟨s, hopen, hback⟩
      rw [hsave s hopen] at hback
      exact absurd (congrArg Prod.snd (Except.ok.inj hback)) (List.cons_ne_nil _ _)
    · rintro ⟨-, hlast, -⟩
      cases hlast
  · obtain ⟨s, hopen, hsave⟩ := saved_eq filename h hnul
    have hiff : SavesBack filename data ↔
        filename.take 63 = filename ∧ ofLines newline (fileRows data) = data := by
      rw [← Prod.mk.injEq, ← Except.ok.injEq, ← hsave]
      constructor
      · rintro ⟨s', hopen', hback⟩
        rwa [Except.ok.inj (hopen.symm.trans hopen')]
      · exact fun hback => ⟨s, hopen, hback⟩
    rw [hiff, List.take_eq_self_iff]
    refine and_congr_right fun _ => ?_
    constructor
    · intro hback
      have hrows : fileRows data = linesOf newline data := by
        conv_rhs => rw [← hback]
        exact (linesOf_ofLines fun row hrow => (mem_fileRows hrow).2.1).symm
      rw [hrows] at hback
      exact ⟨((ofLines_linesOf_iff data).mp hback).resolve_left h,
        (fileRows_eq_linesOf_iff data).mp hrows⟩
    · rintro ⟨hlast, hfits⟩
      rw [(fileRows_eq_linesOf_iff data).mpr hfits]
      exact (ofLines_linesOf_iff data).mpr (Or.inr hlast)

theorem savesBack_iff_twoLines :
    0 ∉ [0x61, newline, newline] ∧ SavesBack [0x66] [0x61, newline, newline] :=
  ⟨by decide, (savesBack_iff [0x66] (by decide)).mpr ⟨by decide, rfl, by decide, by decide⟩⟩

/-- The file "a" is saved with a line end. -/
theorem not_savesBack_noLineEnd : ¬ SavesBack [0x66] [0x61] := by
  obtain ⟨s, hopen, hsave⟩ := saved_eq [0x66] (List.cons_ne_nil 0x61 []) (by decide)
  rintro ⟨s', hopen', hback⟩
  obtain rfl := Except.ok.inj (hopen.symm.trans hopen')
  rw [hsave] at hback
  exact absurd (congrArg Prod.snd (Except.ok.inj hback)) (by decide)

end Microkernel
