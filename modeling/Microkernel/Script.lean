/-
# Scripts

`cmd_sh` in `src/shell.c`, and the text that `execute_command` parses.  Running a command may change
the environment.
-/
import Microkernel.EnvExpand
import Microkernel.Readline

open CutText

namespace Microkernel

/-- The string in a buffer of `CMD_MAX` bytes after `env_expand`, without its terminator. -/
def expandCommand (env : Env) (cmdline : List UInt8) : List UInt8 :=
  (envExpand env cmdline cmdMax).dropLast

/-- The text that `execute_command` parses. -/
def commandText (env : Env) (cmdline : List UInt8) : List UInt8 := expandCommand env cmdline

/-- What `cmd_sh` copies of its script into `cmd`, and where it goes on. -/
def takeCommand (script : List UInt8) : List UInt8 × List UInt8 :=
  let cmd := (script.takeWhile (· != newline)).take (cmdMax - 1)
  let rest := script.drop cmd.length
  (cmd, if rest.head? = some newline then rest.tail else rest)

/-- What `cmd_sh` gives to `execute_command` for a line; `none` if the line is skipped. -/
def scriptLine (env : Env) (cmd : List UInt8) : Option (List UInt8) :=
  let p := cmd.dropWhile fun c => c == blank || c == tab
  if p = [] ∨ p.head? = some 0x23 then none else some (expandCommand env p)

theorem takeCommand_length_lt {script : List UInt8} (h : script ≠ []) :
    (takeCommand script).2.length < script.length := by
  obtain ⟨c, rest, rfl⟩ := List.exists_cons_of_ne_nil h
  by_cases hc : c = newline
  · have htake : (c :: rest).takeWhile (· != newline) = [] := by
      rw [List.takeWhile_cons_of_neg (by simp [hc])]
    unfold takeCommand
    dsimp only
    rw [htake, List.take_nil, List.length_nil, List.drop_zero, List.head?_cons, hc, if_pos rfl]
    exact Nat.lt_succ_self _
  · have htake : (c :: rest).takeWhile (· != newline) = c :: rest.takeWhile (· != newline) :=
      List.takeWhile_cons_of_pos (by simp [hc])
    unfold takeCommand
    dsimp only
    rw [htake, cmdMax, List.take_succ_cons, List.length_cons, List.drop_succ_cons]
    split_ifs
    · rw [List.length_tail, List.length_drop, List.length_cons]
      omega
    · rw [List.length_drop, List.length_cons]
      omega

/-- The loop of `cmd_sh`: the texts that are parsed, in order.  Running the command with such a text
changes the environment by `exec`. -/
def cmdSh (exec : Env → List UInt8 → Env) : Env → List UInt8 → List (List UInt8)
  | _, [] => []
  | env, c :: script =>
    match scriptLine env (takeCommand (c :: script)).1 with
    | none => cmdSh exec env (takeCommand (c :: script)).2
    | some expanded =>
      let text := commandText env expanded
      text :: cmdSh exec (exec env text) (takeCommand (c :: script)).2
  termination_by _ script => script.length
  decreasing_by
  · exact takeCommand_length_lt (List.cons_ne_nil c script)
  · exact takeCommand_length_lt (List.cons_ne_nil c script)

/-- A command line that can be typed or stand in a script, not blank and no comment, and without
leading blanks. -/
structure IsCommand (line : List UInt8) : Prop where
  short : line.length < cmdMax
  oneLine : newline ∉ line
  notBlank : line ≠ []
  noLeading : ∀ c ∈ line.head?, c ≠ blank ∧ c ≠ tab ∧ c ≠ 0x23

/-- As a line of a script the command is parsed from the same text as at the prompt. -/
def ScriptAgrees (env : Env) (line : List UInt8) : Prop :=
  ∀ exec rest, rest = [] ∨ rest.head? = some newline →
    (cmdSh exec env (line ++ rest)).head? = some (commandText env line)

/-! ## The two texts -/

variable {env : Env} {line : List UInt8}

theorem commandText_eq (env : Env) (cmdline : List UInt8) :
    commandText env cmdline = (expandedText env cmdline).take (cmdMax - 1) := by
  rw [commandText, expandCommand, envExpand_eq, List.dropLast_concat]

/-- A command line is taken from the script as it stands there. -/
theorem takeCommand_line (h : IsCommand line) {rest : List UInt8}
    (hrest : rest = [] ∨ rest.head? = some newline) : (takeCommand (line ++ rest)).1 = line := by
  have hall : ∀ c ∈ line, (c != newline) = true :=
    fun c hc => bne_iff_ne.mpr fun heq => h.oneLine (heq ▸ hc)
  have hnone : rest.takeWhile (· != newline) = [] := by
    rcases hrest with rfl | hhead
    · rfl
    · obtain ⟨rest, rfl⟩ := List.head?_eq_some_iff.mp hhead
      exact List.takeWhile_cons_of_neg (by simp)
  have hle : line.length ≤ cmdMax - 1 := Nat.le_sub_one_of_lt h.short
  unfold takeCommand
  dsimp only
  rw [List.takeWhile_append_of_pos hall, hnone, List.append_nil, List.take_of_length_le hle]

theorem scriptLine_line (h : IsCommand line) :
    scriptLine env line = some (expandCommand env line) := by
  obtain ⟨c, cs, hline⟩ := List.exists_cons_of_ne_nil h.notBlank
  obtain ⟨hblank, htab, hcomment⟩ := h.noLeading c (by rw [hline]; rfl)
  have hdrop : line.dropWhile (fun c => c == blank || c == tab) = line := by
    rw [hline]
    exact List.dropWhile_cons_of_neg (by simp [hblank, htab])
  unfold scriptLine
  dsimp only
  rw [hdrop, if_neg]
  rw [hline]
  rintro (hnil | hhead)
  · cases hnil
  · exact hcomment (Option.some.inj hhead)

/-- In a script the text is expanded twice. -/
theorem scriptAgrees_iff (h : IsCommand line) :
    ScriptAgrees env line ↔ commandText env (commandText env line) = commandText env line := by
  have hfirst : ∀ exec rest, rest = [] ∨ rest.head? = some newline →
      (cmdSh exec env (line ++ rest)).head? = some (commandText env (commandText env line)) := by
    intro exec rest hrest
    have hne : line ++ rest ≠ [] := List.append_ne_nil_of_left_ne_nil h.notBlank rest
    obtain ⟨c, script, hscript⟩ := List.exists_cons_of_ne_nil hne
    rw [hscript, cmdSh, ← hscript, takeCommand_line h hrest, scriptLine_line h]
    rfl
  constructor
  · intro hagrees
    have hhead := hagrees (fun env _ => env) [] (Or.inl rfl)
    rw [hfirst _ _ (Or.inl rfl)] at hhead
    exact Option.some.inj hhead
  · intro heq exec rest hrest
    rw [hfirst exec rest hrest, heq]

/-! ## Dollar signs that are left -/

/-- Among the first `room` bytes of the expansion, the value of a variable that the input names puts
a dollar sign. -/
def PutsDollar (env : Env) : ℕ → List UInt8 → Prop
  | _, [] => False
  | room, c :: input =>
    if c = dollar then
      dollar ∈ (valueOf env (readName input).1).take room ∨
        PutsDollar env (room - (valueOf env (readName input).1).length) (readName input).2
    else PutsDollar env (room - 1) input
  termination_by _ input => input.length
  decreasing_by
  · exact Nat.lt_succ_of_le (readName_length_le input)
  · exact Nat.lt_succ_self _

/-- Only values put dollar signs into the expansion. -/
theorem putsDollar_iff (env : Env) (room : ℕ) (input : List UInt8) :
    PutsDollar env room input ↔ dollar ∈ (expandedText env input).take room := by
  induction hlen : input.length using Nat.strong_induction_on generalizing input room with
  | _ k ih =>
    cases input with
    | nil =>
      rw [PutsDollar, expandedText_nil, List.take_nil]
      exact ⟨False.elim, fun h => absurd h List.not_mem_nil⟩
    | cons c input =>
      rw [List.length_cons] at hlen
      rw [PutsDollar]
      by_cases hc : c = dollar
      · have hle := readName_length_le input
        rw [if_pos hc, hc, expandedText_dollar, List.take_append, List.mem_append,
          ih _ (by omega) _ _ rfl]
      · rw [if_neg hc, expandedText_of_ne env hc, ih _ (by omega) _ _ rfl]
        cases room with
        | zero => rfl
        | succ room =>
          rw [List.take_succ_cons, List.mem_cons, Nat.add_sub_cancel]
          exact ⟨Or.inr, fun h => h.resolve_left (Ne.symm hc)⟩

/-- Without a dollar sign that is left, the second expansion changes nothing. -/
theorem scriptAgrees_of_not_putsDollar (h : IsCommand line)
    (hnone : ¬ PutsDollar env (cmdMax - 1) line) : ScriptAgrees env line := by
  rw [putsDollar_iff, ← commandText_eq] at hnone
  have hcopied := expandedText_append_of_notMem env hnone []
  rw [List.append_nil, expandedText_nil, List.append_nil] at hcopied
  rw [scriptAgrees_iff h, commandText_eq env (commandText env line), hcopied]
  refine List.take_of_length_le ?_
  rw [commandText_eq]
  exact List.length_take_le _ _

/-- Where a dollar sign is left and the second expansion puts none, the texts differ. -/
theorem not_scriptAgrees_of_putsDollar (h : IsCommand line)
    (hdollar : PutsDollar env (cmdMax - 1) line)
    (hnone : ¬ PutsDollar env (cmdMax - 1) (commandText env line)) : ¬ ScriptAgrees env line := by
  rw [putsDollar_iff, ← commandText_eq] at hdollar hnone
  rw [scriptAgrees_iff h]
  intro heq
  rw [heq] at hnone
  exact hnone hdollar

/-- **Script and prompt agree** on a command line if no variable that it names puts a dollar sign
into the text; and where one does, they differ if the second expansion puts none. -/
theorem script_agrees (env : Env) {line : List UInt8} (h : IsCommand line) :
    (¬ PutsDollar env (cmdMax - 1) line → ScriptAgrees env line) ∧
      (PutsDollar env (cmdMax - 1) line → ¬ PutsDollar env (cmdMax - 1) (commandText env line) →
        ¬ ScriptAgrees env line) :=
  ⟨scriptAgrees_of_not_putsDollar h, not_scriptAgrees_of_putsDollar h⟩

/-- The command line `$PS1`. -/
def prompt : List UInt8 := [dollar, 0x50, 0x53, 0x31]

theorem isCommand_prompt : IsCommand prompt :=
  ⟨by decide, by decide, List.cons_ne_nil _ _, by decide +kernel⟩

theorem script_agrees_prompt : IsCommand prompt ∧
    (¬ PutsDollar envInit (cmdMax - 1) prompt → ScriptAgrees envInit prompt) ∧
      (PutsDollar envInit (cmdMax - 1) prompt →
        ¬ PutsDollar envInit (cmdMax - 1) (commandText envInit prompt) →
          ¬ ScriptAgrees envInit prompt) :=
  ⟨isCommand_prompt, script_agrees envInit isCommand_prompt⟩

/-- The value of `PS1` up to the dollar sign. -/
def promptStart : List UInt8 := "\\u@\\h:\\w".toUTF8.toList

/-- At the prompt `$PS1` is the text of the variable with its dollar sign, which is lost in a
script. -/
theorem not_scriptAgrees_prompt :
    commandText envInit prompt = promptStart ++ [dollar, blank] ∧
      commandText envInit (commandText envInit prompt) = promptStart ++ [blank] ∧
      ¬ ScriptAgrees envInit prompt := by
  have hvalue : valueOf envInit [0x50, 0x53, 0x31] = promptStart ++ [dollar, blank] := by
    with_unfolding_all decide
  have hempty : valueOf envInit [] = [] := by with_unfolding_all decide
  have hplain : dollar ∉ promptStart := by with_unfolding_all decide
  have hread : readName [0x50, 0x53, 0x31] = ([0x50, 0x53, 0x31], []) := by decide
  have hlone : readName [blank] = ([], [blank]) := by decide
  have hfirst : commandText envInit prompt = promptStart ++ [dollar, blank] := by
    rw [commandText_eq, prompt, expandedText_dollar, hread, hvalue, expandedText_nil]
    with_unfolding_all decide
  have hsecond : commandText envInit (promptStart ++ [dollar, blank]) = promptStart ++ [blank] := by
    rw [commandText_eq, expandedText_append_of_notMem envInit hplain, expandedText_dollar, hlone,
      hempty, List.nil_append, expandedText_of_ne envInit (by decide), expandedText_nil]
    with_unfolding_all decide
  refine ⟨hfirst, ?_, ?_⟩
  · rw [hfirst, hsecond]
  · rw [scriptAgrees_iff isCommand_prompt, hfirst, hsecond]
    with_unfolding_all decide

end Microkernel
