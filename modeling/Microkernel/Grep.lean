/-
# Searching lines

`cmd_grep` in `src/shell.c`, and the `grep` that `execute_command` runs itself behind a pipe.  A
string is the list of its bytes before the terminator.  Both loops may run for ever, so they are
given a number of rounds.
-/
import Microkernel.Rounds
import Microkernel.TextLines
import Microkernel.Ramfs
import Microkernel.Keyboard

open Rounds TextLines

namespace Microkernel

/-- The loop that looks for the pattern at each place of a line but its end. -/
def foundIn (pattern : List UInt8) : List UInt8 → Bool
  | [] => false
  | c :: line => pattern.isPrefixOf (c :: line) || foundIn pattern line

/-- A character on the screen, with the colour of `terminal_print_colored`. -/
structure Shown where
  char : UInt8
  color : Option UInt8
  deriving DecidableEq

def highlighted (c : UInt8) : Shown := ⟨c, some 0x0C⟩

def plain (c : UInt8) : Shown := ⟨c, none⟩

/-- The loop of `cmd_grep` that prints a line with what it finds highlighted, from the place `p` of
the line on. -/
def highlightLoop (pattern line : List UInt8) : ℕ → UInt32 → Option (List Shown)
  | 0, _ => none
  | n + 1, p =>
    match line.drop p.toNat with
    | [] => some []
    | c :: rest =>
      let plen := UInt32.ofNat pattern.length
      if pattern.isPrefixOf (c :: rest) then
        (highlightLoop pattern line n (p + (plen - 1) + 1)).map (pattern.map highlighted ++ ·)
      else (highlightLoop pattern line n (p + 1)).map (plain c :: ·)

/-- The loop over the lines of a text that both share: what `visit` prints for a line in which the
pattern is found. -/
def grepLoop {β : Type} (pattern : List UInt8) (visit : ℕ → List UInt8 → Option (List β)) :
    ℕ → List UInt8 → Option (List β)
  | 0, _ => none
  | n + 1, text =>
    if text = [] then some []
    else
      let line := text.takeWhile (· != newline)
      (if foundIn pattern line then visit n line else some []).bind fun out =>
        match text.dropWhile (· != newline) with
        | [] => some out
        | _ :: rest => (grepLoop pattern visit n rest).map (out ++ ·)

/-- What `cmd_grep` prints for a line. -/
def printHighlighted (pattern : List UInt8) (n : ℕ) (line : List UInt8) : Option (List Shown) :=
  (highlightLoop pattern line n 0).map (· ++ [plain newline])

/-- The string that bytes with a NUL behind them are. -/
def terminated (bytes : List UInt8) : List UInt8 := bytes.takeWhile (· != 0)

/-- The name of the file that holds the output of the command before a pipe. -/
def pipeFile : List UInt8 := "/tmp/.pipe".toUTF8.toList

/-- `cmd_grep`, with what `ramfs_read` gives for a path and a limit. -/
def cmdGrep (read : List UInt8 → ℕ → Option (List UInt8)) (argv : List (List UInt8)) (n : ℕ) :
    Option (List Shown) :=
  match argv with
  | _ :: pattern :: file :: _ =>
    match read file ramfsMaxData with
    | none => some (("grep: ".toUTF8.toList ++ file ++ ": not found\n".toUTF8.toList).map plain)
    | some text => grepLoop pattern (printHighlighted pattern) n (terminated text)
  | [_, pattern] =>
    match read pipeFile ramfsMaxData with
    | none => some ("Usage: grep <pattern> <file>\n".toUTF8.toList.map plain)
    | some text => grepLoop pattern (printHighlighted pattern) n (terminated text)
  | _ => some ("Usage: grep <pattern> [file]\n".toUTF8.toList.map plain)

/-- The `grep` of a pipeline, on the captured output. -/
def pipeGrep (pattern text : List UInt8) (n : ℕ) : Option (List UInt8) :=
  grepLoop pattern (fun _ line => some (line ++ [newline])) n (terminated text)

/-- The lines of a text that contain the pattern, each with its end. -/
def selectedLines (pattern text : List UInt8) : List UInt8 :=
  ofLines newline ((linesOf newline text).filter (pattern <:+: ·))

/-- `cmd_grep` of a file, or of what the pipe file holds, returns and prints the lines of the text
that contain the pattern, and the `grep` of a pipeline selects the same. -/
structure GrepSelects (read : List UInt8 → ℕ → Option (List UInt8)) (pattern text : List UInt8)
    (files : List (List UInt8)) : Prop where
  command : ∀ name, ∃ shown, Gives (cmdGrep read (name :: pattern :: files)) shown ∧
    shown.map Shown.char = selectedLines pattern text
  pipe : Gives (pipeGrep pattern text) (selectedLines pattern text)

/-! ## The search in a line -/

variable {pattern line text : List UInt8}

theorem foundIn_iff (hne : pattern ≠ []) : foundIn pattern line = true ↔ pattern <:+: line := by
  induction line with
  | nil => simp [foundIn, hne]
  | cons c line ih =>
    rw [foundIn, Bool.or_eq_true, ih, List.isPrefixOf_iff_prefix, List.infix_cons_iff]

/-- The empty pattern is found at the first place of a line. -/
theorem foundIn_nil : foundIn [] line = !line.isEmpty := by
  cases line with
  | nil => rfl
  | cons c line => rfl

/-! ## The highlighting of a line -/

theorem advance_eq (p plen : UInt32) : p + (plen - 1) + 1 = p + plen := by
  rw [add_assoc, sub_add_cancel]

theorem highlightLoop_succ {n : ℕ} {p : UInt32} {shown : List Shown}
    (h : highlightLoop pattern line n p = some shown) :
    highlightLoop pattern line (n + 1) p = some shown := by
  induction n generalizing p shown with
  | zero => cases h
  | succ n ih =>
    unfold highlightLoop at h ⊢
    split at h
    · exact h
    · dsimp only at h ⊢
      split_ifs at h ⊢
      · obtain ⟨out, hout, rfl⟩ := Option.map_eq_some_iff.mp h
        rw [ih hout, Option.map_some]
      · obtain ⟨out, hout, rfl⟩ := Option.map_eq_some_iff.mp h
        rw [ih hout, Option.map_some]

theorem steady_highlightLoop (p : UInt32) : Steady (highlightLoop pattern line · p) :=
  steady_of_succ fun _ _ h => highlightLoop_succ h

/-- With the empty pattern the loop stays where it is. -/
theorem highlightLoop_nil {p : UInt32} (hne : line.drop p.toNat ≠ []) (n : ℕ) :
    highlightLoop [] line n p = none := by
  induction n with
  | zero => rfl
  | succ n ih =>
    obtain ⟨c, rest, hdrop⟩ := List.exists_cons_of_ne_nil hne
    unfold highlightLoop
    rw [hdrop]
    dsimp only
    rw [if_pos List.isPrefixOf_nil_left, advance_eq]
    have hsame : p + UInt32.ofNat ([] : List UInt8).length = p := add_zero p
    rw [hsame, ih, Option.map_none]

theorem printHighlighted_nil (hne : line ≠ []) (n : ℕ) : printHighlighted [] n line = none := by
  have hdrop : line.drop (0 : UInt32).toNat ≠ [] := hne
  rw [printHighlighted, highlightLoop_nil hdrop, Option.map_none]

/-- A step of the loop stays in the line. -/
theorem toNat_advance {p : UInt32} {k : ℕ} (hlen : line.length < 2 ^ 32)
    (hle : p.toNat + k ≤ line.length) : (p + UInt32.ofNat k).toNat = p.toNat + k := by
  rw [UInt32.toNat_add, UInt32.toNat_ofNat', Nat.mod_eq_of_lt (by omega : k < 2 ^ 32),
    Nat.mod_eq_of_lt (by omega)]

/-- **The highlighted line is the line**: with a pattern of at least one letter the loop comes to
the end of the line, and prints its letters. -/
theorem gives_highlightLoop (hne : pattern ≠ []) (hlen : line.length < 2 ^ 32) (p : UInt32) :
    ∃ shown, Gives (highlightLoop pattern line · p) shown ∧
      shown.map Shown.char = line.drop p.toNat := by
  induction hk : line.length - p.toNat using Nat.strong_induction_on generalizing p with
  | _ k ih =>
    cases hdrop : line.drop p.toNat with
    | nil => exact ⟨[], ⟨1, by dsimp only; unfold highlightLoop; rw [hdrop]⟩, rfl⟩
    | cons c rest =>
      have hinside : p.toNat < line.length := by
        by_contra hnot
        rw [List.drop_eq_nil_of_le (by omega)] at hdrop
        cases hdrop
      have hcount : rest.length + 1 = line.length - p.toNat := by
        rw [← List.length_cons, ← hdrop, List.length_drop]
      by_cases hhere : pattern.isPrefixOf (c :: rest) = true
      · obtain ⟨behind, happ⟩ := List.isPrefixOf_iff_prefix.mp hhere
        have hpos : 0 < pattern.length := List.length_pos_iff.mpr hne
        have hplen : pattern.length + behind.length = rest.length + 1 := by
          rw [← List.length_append, happ, List.length_cons]
        have hadvance : (p + UInt32.ofNat pattern.length).toNat = p.toNat + pattern.length :=
          toNat_advance hlen (by omega)
        obtain ⟨shown, hgives, hshown⟩ := ih _ (by omega) (p + UInt32.ofNat pattern.length) rfl
        refine ⟨pattern.map highlighted ++ shown, ?_, ?_⟩
        · refine (hgives.map (pattern.map highlighted ++ ·)).of_succ fun n => ?_
          rw [highlightLoop, hdrop]
          dsimp only
          rw [if_pos hhere, advance_eq]
        · have hchars : (pattern.map highlighted).map Shown.char = pattern := by
            rw [List.map_map]
            exact List.map_id pattern
          rw [List.map_append, hchars, hshown, hadvance, ← List.drop_drop, hdrop, ← happ,
            List.drop_left]
      · have hadvance : (p + UInt32.ofNat 1).toNat = p.toNat + 1 := toNat_advance hlen (by omega)
        obtain ⟨shown, hgives, hshown⟩ := ih _ (by omega) (p + UInt32.ofNat 1) rfl
        refine ⟨plain c :: shown, ?_, ?_⟩
        · refine (hgives.map (plain c :: ·)).of_succ fun n => ?_
          rw [highlightLoop, hdrop]
          dsimp only
          rw [if_neg hhere]
          rfl
        · rw [List.map_cons, hshown, hadvance, ← List.drop_drop, hdrop]
          rfl

theorem steady_printHighlighted (line : List UInt8) :
    Steady (printHighlighted pattern · line) :=
  (steady_highlightLoop 0).map (· ++ [plain newline])

theorem gives_printHighlighted (hne : pattern ≠ []) (hlen : line.length < 2 ^ 32) :
    ∃ shown, Gives (printHighlighted pattern · line) shown ∧
      shown.map Shown.char = line ++ [newline] := by
  obtain ⟨shown, hgives, hshown⟩ := gives_highlightLoop hne hlen 0
  refine ⟨shown ++ [plain newline], hgives.map (· ++ [plain newline]), ?_⟩
  rw [List.map_append, hshown]
  rfl

/-! ## The loop over the lines -/

section

variable {β : Type} {visit : ℕ → List UInt8 → Option (List β)}

/-- The first line of a text with a line end. -/
theorem takeWhile_line (h : newline ∉ line) (rest : List UInt8) :
    (line ++ newline :: rest).takeWhile (· != newline) = line ∧
      (line ++ newline :: rest).dropWhile (· != newline) = newline :: rest := by
  have hall : ∀ c ∈ line, (c != newline) = true := by
    intro c hc
    exact bne_iff_ne.mpr fun heq => h (heq ▸ hc)
  rw [List.takeWhile_append_of_pos hall, List.dropWhile_append_of_pos hall,
    List.takeWhile_cons_of_neg (by simp), List.dropWhile_cons_of_neg (by simp), List.append_nil]
  exact ⟨rfl, rfl⟩

/-- A text without a line end is its own first line. -/
theorem takeWhile_last (h : newline ∉ line) :
    line.takeWhile (· != newline) = line ∧ line.dropWhile (· != newline) = [] := by
  have hall : ∀ c ∈ line, (c != newline) = true := by
    intro c hc
    exact bne_iff_ne.mpr fun heq => h (heq ▸ hc)
  exact ⟨List.takeWhile_eq_self_iff.mpr hall, List.dropWhile_eq_nil_iff.mpr hall⟩

@[simp] theorem grepLoop_nil (n : ℕ) : grepLoop pattern visit (n + 1) [] = some [] := rfl

theorem grepLoop_last (h : newline ∉ line) (hne : line ≠ []) (n : ℕ) :
    grepLoop pattern visit (n + 1) line =
      if foundIn pattern line then visit n line else some [] := by
  obtain ⟨htake, hdrop⟩ := takeWhile_last h
  rw [grepLoop, if_neg hne, htake, hdrop]
  exact Option.bind_fun_some _

theorem grepLoop_cons (h : newline ∉ line) (rest : List UInt8) (n : ℕ) :
    grepLoop pattern visit (n + 1) (line ++ newline :: rest) =
      (if foundIn pattern line then visit n line else some []).bind fun out =>
        (grepLoop pattern visit n rest).map (out ++ ·) := by
  obtain ⟨htake, hdrop⟩ := takeWhile_line h rest
  have hne : line ++ newline :: rest ≠ [] :=
    List.append_ne_nil_of_right_ne_nil _ (List.cons_ne_nil _ _)
  rw [grepLoop, if_neg hne, htake, hdrop]

/-- What a line makes the loop print. -/
theorem steady_line (hsteady : ∀ line, Steady (visit · line)) (line : List UInt8) :
    Steady fun n => if foundIn pattern line then visit n line else some [] :=
  steady_ite (hsteady line) (steady_const _)

theorem steady_grepLoop (hsteady : ∀ line, Steady (visit · line)) (text : List UInt8) :
    Steady (grepLoop pattern visit · text) := by
  refine steady_of_succ fun n => ?_
  induction n generalizing text with
  | zero => exact fun out h => nomatch h
  | succ n ih =>
    intro out h
    induction text using lines_induction (e := newline) with
    | nil => exact h
    | last line hnot hne =>
      rw [grepLoop_last hnot hne] at h ⊢
      exact steady_line hsteady line n (n + 1) out n.le_succ h
    | cons line rest hnot _ =>
      rw [grepLoop_cons hnot] at h ⊢
      obtain ⟨first, hfirst, hrest⟩ := Option.bind_eq_some_iff.mp h
      obtain ⟨others, hothers, rfl⟩ := Option.map_eq_some_iff.mp hrest
      refine Option.bind_eq_some_iff.mpr ⟨first, ?_, ?_⟩
      · exact steady_line hsteady line n (n + 1) first n.le_succ hfirst
      · rw [ih rest others hothers, Option.map_some]

/-- **The loop prints the lines with the pattern**, by induction on the lines, if every visit of a
line returns and prints the line with its end. -/
theorem gives_grepLoop (hpattern : pattern ≠ []) (hsteady : ∀ line, Steady (visit · line))
    {f : β → UInt8} (hvisit : ∀ line ∈ linesOf newline text, ∃ out, Gives (visit · line) out ∧
      out.map f = line ++ [newline]) :
    ∃ out, Gives (grepLoop pattern visit · text) out ∧
      out.map f = selectedLines pattern text := by
  have hline : ∀ line, (∃ out, Gives (visit · line) out ∧ out.map f = line ++ [newline]) →
      ∃ out, Gives (fun n => if foundIn pattern line then visit n line else some []) out ∧
        out.map f = ofLines newline ([line].filter (pattern <:+: ·)) := by
    rintro line ⟨out, hgives, hout⟩
    by_cases hfound : foundIn pattern line = true
    · refine ⟨out, ?_, ?_⟩
      · simpa only [if_pos hfound] using hgives
      · rw [hout, List.filter_cons_of_pos (by simpa using (foundIn_iff hpattern).mp hfound),
          List.filter_nil, ofLines_cons, ofLines_nil]
    · refine ⟨[], ?_, ?_⟩
      · simpa only [if_neg hfound] using gives_some.mpr rfl
      · rw [List.filter_cons_of_neg (by simpa using (foundIn_iff hpattern).not.mp hfound),
          List.filter_nil, ofLines_nil]
        rfl
  induction text using lines_induction (e := newline) with
  | nil => exact ⟨[], ⟨1, rfl⟩, rfl⟩
  | last line hnot hne =>
    unfold selectedLines
    rw [linesOf_notMem hnot hne] at hvisit ⊢
    obtain ⟨out, hgives, hout⟩ := hline line (hvisit line List.mem_cons_self)
    exact ⟨out, hgives.of_succ fun n => grepLoop_last hnot hne n, hout⟩
  | cons line rest hnot ih =>
    rw [linesOf_append_cons hnot] at hvisit
    obtain ⟨first, hfirst, hchars⟩ := hline line (hvisit line List.mem_cons_self)
    obtain ⟨others, hothers, hchars'⟩ := ih fun l hl => hvisit l (List.mem_cons_of_mem _ hl)
    refine ⟨first ++ others, ?_, ?_⟩
    · refine Gives.of_succ ?_ fun n => grepLoop_cons hnot rest n
      exact (steady_line hsteady line).gives_bind
        ((steady_grepLoop hsteady rest).map (first ++ ·)) hfirst (hothers.map (first ++ ·))
    · rw [List.map_append, hchars, hchars']
      have hcons : line :: linesOf newline rest = [line] ++ linesOf newline rest := rfl
      unfold selectedLines
      rw [linesOf_append_cons hnot, hcons, List.filter_append, ofLines_append]

end

/-! ## Both searches -/

theorem terminated_eq (h : 0 ∉ text) : terminated text = text := by
  refine List.takeWhile_eq_self_iff.mpr fun c hc => bne_iff_ne.mpr ?_
  rintro rfl
  exact h hc

section

variable {read : List UInt8 → ℕ → Option (List UInt8)} {files : List (List UInt8)}

/-- `cmd_grep` with something to read. -/
theorem cmdGrep_eq (hread : read (files.head?.getD pipeFile) ramfsMaxData = some text)
    (hnul : 0 ∉ text) (name pattern : List UInt8) :
    cmdGrep read (name :: pattern :: files) =
      (grepLoop pattern (printHighlighted pattern) · text) := by
  funext n
  cases files with
  | nil =>
    show (match read pipeFile ramfsMaxData with | none => _ | some text => _) = _
    rw [List.head?_nil, Option.getD_none] at hread
    rw [hread]
    dsimp only
    rw [terminated_eq hnul]
  | cons file files =>
    show (match read file ramfsMaxData with | none => _ | some text => _) = _
    rw [List.head?_cons, Option.getD_some] at hread
    rw [hread]
    dsimp only
    rw [terminated_eq hnul]

theorem pipeGrep_eq (hnul : 0 ∉ text) (pattern : List UInt8) :
    pipeGrep pattern text =
      (grepLoop pattern (fun _ line => some (line ++ [newline])) · text) := by
  funext n
  rw [pipeGrep, terminated_eq hnul]

theorem grepSelects_of_ne (hread : read (files.head?.getD pipeFile) ramfsMaxData = some text)
    (hnul : 0 ∉ text) (hlen : text.length < 2 ^ 32) (hpattern : pattern ≠ []) :
    GrepSelects read pattern text files := by
  refine ⟨fun name => ?_, ?_⟩
  · rw [cmdGrep_eq hread hnul]
    refine gives_grepLoop hpattern steady_printHighlighted fun line hline => ?_
    have hle := length_le_of_mem_linesOf text line hline
    exact gives_printHighlighted hpattern (by omega)
  · have hvisit : ∀ line ∈ linesOf newline text, ∃ out : List UInt8,
        Gives (fun _ => some (line ++ [newline])) out ∧ out.map id = line ++ [newline] :=
      fun line _ => ⟨line ++ [newline], gives_some.mpr rfl, List.map_id _⟩
    rw [pipeGrep_eq hnul]
    obtain ⟨out, hgives, hout⟩ := gives_grepLoop (f := id) hpattern
      (fun line => steady_const (some (line ++ [newline]))) hvisit
    rw [List.map_id] at hout
    exact hout ▸ hgives

end

/-- With the empty pattern `cmd_grep` prints nothing, if it returns: it does not return from the
first line that has a letter. -/
theorem grepLoop_empty {n : ℕ} {shown : List Shown}
    (h : grepLoop [] (printHighlighted []) n text = some shown) : shown = [] := by
  induction n generalizing text shown with
  | zero => cases h
  | succ n ih =>
    induction text using lines_induction (e := newline) with
    | nil =>
      cases h
      rfl
    | last line hnot hne =>
      have hfound : foundIn [] line = true := by
        rw [foundIn_nil, List.isEmpty_eq_false_iff.mpr hne]
        rfl
      rw [grepLoop_last hnot hne, if_pos hfound, printHighlighted_nil hne] at h
      cases h
    | cons line rest hnot _ =>
      rw [grepLoop_cons hnot] at h
      by_cases hne : line = []
      · obtain ⟨first, hfirst, hrest⟩ := Option.bind_eq_some_iff.mp h
        obtain ⟨others, hothers, rfl⟩ := Option.map_eq_some_iff.mp hrest
        rw [hne, if_neg (by decide)] at hfirst
        rw [ih hothers, ← Option.some.inj hfirst]
        rfl
      · have hfound : foundIn [] line = true := by
          rw [foundIn_nil, List.isEmpty_eq_false_iff.mpr hne]
          rfl
        rw [if_pos hfound, printHighlighted_nil hne] at h
        cases h

/-- Each line of a text contains the empty pattern. -/
theorem selectedLines_nil_ne (hne : text ≠ []) : selectedLines [] text ≠ [] := by
  unfold selectedLines
  rw [List.filter_eq_self.mpr fun line _ => decide_eq_true (List.nil_infix)]
  obtain ⟨line, lines, hlines⟩ := List.exists_cons_of_ne_nil (linesOf_ne_nil (e := newline) hne)
  rw [hlines, ofLines_cons]
  exact List.append_ne_nil_of_right_ne_nil _ (List.cons_ne_nil _ _)

theorem not_grepSelects_nil {read : List UInt8 → ℕ → Option (List UInt8)}
    {files : List (List UInt8)} (hread : read (files.head?.getD pipeFile) ramfsMaxData = some text)
    (hnul : 0 ∉ text) (hne : text ≠ []) : ¬ GrepSelects read [] text files := by
  intro h
  obtain ⟨shown, hgives, hshown⟩ := h.command []
  rw [cmdGrep_eq hread hnul] at hgives
  obtain ⟨n, hgives⟩ := hgives
  rw [grepLoop_empty hgives] at hshown
  exact selectedLines_nil_ne hne hshown.symm

/-- **`grep` selects the lines that contain its pattern**, in every text without a NUL that can be
read, exactly if the pattern is not empty or there is no line. -/
theorem grepSelects_iff {read : List UInt8 → ℕ → Option (List UInt8)} {pattern text : List UInt8}
    {files : List (List UInt8)} (hread : read (files.head?.getD pipeFile) ramfsMaxData = some text)
    (hnul : 0 ∉ text) (hlen : text.length ≤ ramfsMaxData) :
    GrepSelects read pattern text files ↔ pattern ≠ [] ∨ text = [] := by
  constructor
  · intro h
    by_contra hnot
    rw [not_or, not_not] at hnot
    obtain ⟨rfl, hne⟩ := hnot
    exact not_grepSelects_nil hread hnul hne h
  · intro hor
    have hmax : ramfsMaxData < 2 ^ 32 := by decide
    by_cases hpattern : pattern = []
    · obtain rfl := hor.resolve_left (not_not.mpr hpattern)
      refine ⟨fun name => ⟨[], ?_, rfl⟩, ⟨1, rfl⟩⟩
      rw [cmdGrep_eq hread hnul]
      exact ⟨1, rfl⟩
    · exact grepSelects_of_ne hread hnul (lt_of_le_of_lt hlen hmax) hpattern

/-- A file with the lines `ab` and `b`, the second without an end. -/
def twoLines : List UInt8 := [0x61, 0x62, 0x0A, 0x62]

theorem grepSelects_iff_twoLines :
    0 ∉ twoLines ∧ GrepSelects (fun _ max => some (twoLines.take max)) [0x62] twoLines [[0x66]] := by
  have hlen : twoLines.length ≤ ramfsMaxData := by decide
  have hread : some (twoLines.take ramfsMaxData) = some twoLines :=
    congrArg some (List.take_of_length_le hlen)
  refine ⟨by decide, (grepSelects_iff hread (by decide) hlen).mpr (Or.inl ?_)⟩
  exact List.cons_ne_nil _ _

/-- An empty pattern in a file that holds one letter: nothing is ever printed. -/
theorem not_grepSelects_letter :
    ¬ GrepSelects (fun _ max => some ([0x61].take max)) [] [0x61] [[0x66]] := by
  have hlen : [(0x61 : UInt8)].length ≤ ramfsMaxData := by decide
  exact not_grepSelects_nil (congrArg some (List.take_of_length_le hlen)) (by decide)
    (List.cons_ne_nil _ _)

end Microkernel
