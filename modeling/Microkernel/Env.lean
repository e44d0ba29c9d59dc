/-
# The environment

The variables of `src/env.c` and `env_expand`.  A string is the list of its bytes before the
terminator.
-/
import Microkernel.CutText
import Microkernel.Procfs

open CutText

namespace Microkernel

/-- `ENV_MAX_VARS`. -/
abbrev envMaxVars : ℕ := 64

/-- `ENV_KEY_LEN`. -/
def envKeyLen : ℕ := 32

/-- `ENV_VAL_LEN`. -/
def envValLen : ℕ := 128

/-- A variable: the last byte of both buffers is never written. -/
structure EnvVar where
  key : List UInt8
  val : List UInt8
  active : Bool
  key_le : key.length ≤ envKeyLen - 1
  val_le : val.length ≤ envValLen - 1

/-- `vars`. -/
abbrev Env := Fin envMaxVars → EnvVar

/-- `strncpy` into one of the buffers of a variable. -/
def EnvVar.setVal (v : EnvVar) (value : List UInt8) : EnvVar :=
  { v with val := value.take (envValLen - 1), val_le := List.length_take_le _ _ }

def EnvVar.make (key value : List UInt8) : EnvVar :=
  ⟨key.take (envKeyLen - 1), value.take (envValLen - 1), true, List.length_take_le _ _,
    List.length_take_le _ _⟩

/-- The first active variable with this name. -/
def envFind (env : Env) (key : List UInt8) : Option (Fin envMaxVars) :=
  (List.finRange envMaxVars).find? fun i => (env i).active && (env i).key == key

/-- `env_get`. -/
def envGet (env : Env) (key : List UInt8) : Option (List UInt8) :=
  (envFind env key).map fun i => (env i).val

/-- `env_set`. -/
def envSet (env : Env) (key value : List UInt8) : Env :=
  match envFind env key with
  | some i => Function.update env i ((env i).setVal value)
  | none =>
    match (List.finRange envMaxVars).find? fun i => !(env i).active with
    | some i => Function.update env i (EnvVar.make key value)
    | none => env

/-- `env_unset`. -/
def envUnset (env : Env) (key : List UInt8) : Env :=
  match envFind env key with
  | some i => Function.update env i { env i with active := false }
  | none => env

/-- `memset(vars, 0, sizeof(vars))`. -/
def Env.empty : Env := fun _ => ⟨[], [], false, Nat.zero_le _, Nat.zero_le _⟩

/-- `env_init`. -/
def envInit : Env :=
  [("PATH", "/bin"), ("HOME", "/home"), ("USER", "root"), ("HOSTNAME", "microkernel"),
    ("SHELL", "/bin/sh"), ("PS1", "\\u@\\h:\\w$ "), ("TERM", "vga"), ("EDITOR", "edit"),
    ("VERSION", "0.2.0")].foldl
    (fun env v => envSet env v.1.toUTF8.toList v.2.toUTF8.toList) Env.empty

theorem envGet_empty (key : List UInt8) : envGet Env.empty key = none := by
  have hnone : envFind Env.empty key = none :=
    List.find?_eq_none.mpr fun i _ => Bool.false_ne_true
  rw [envGet, hnone, Option.map_none]

/-- A name that does not fit in the buffer of a name is not set. -/
theorem envGet_of_long (env : Env) {key : List UInt8} (h : envKeyLen - 1 < key.length) :
    envGet env key = none := by
  have hnone : envFind env key = none := by
    refine List.find?_eq_none.mpr fun i _ hi => ?_
    have hle := (env i).key_le
    obtain ⟨-, hkey⟩ := Bool.and_eq_true_iff.mp hi
    rw [beq_iff_eq.mp hkey] at hle
    omega
  rw [envGet, hnone, Option.map_none]

/-! ## Expansion -/

def dollar : UInt8 := 0x24

def openBrace : UInt8 := 0x7B

def closeBrace : UInt8 := 0x7D

/-- `isalpha`. -/
def isAlpha (c : UInt8) : Bool := (0x61 ≤ c && c ≤ 0x7A) || (0x41 ≤ c && c ≤ 0x5A)

/-- What a name without braces is made of. -/
def isNameChar (c : UInt8) : Bool := isAlpha c || c == 0x5F || isDigit c

/-- The loop that reads a name into a buffer with room for some bytes: the name, and the input
behind it. -/
def scanName (braced : Bool) : ℕ → List UInt8 → List UInt8 × List UInt8
  | 0, input => ([], input)
  | _ + 1, [] => ([], [])
  | room + 1, c :: input =>
    if braced && c == closeBrace then ([], input)
    else if !braced && !isNameChar c then ([], c :: input)
    else
      let r := scanName braced room input
      (c :: r.1, r.2)

/-- The name behind a dollar sign. -/
def readName : List UInt8 → List UInt8 × List UInt8
  | [] => ([], [])
  | c :: input =>
    if c = openBrace then scanName true (envKeyLen - 1) input
    else scanName false (envKeyLen - 1) (c :: input)

theorem scanName_length_le (braced : Bool) (room : ℕ) (input : List UInt8) :
    (scanName braced room input).2.length ≤ input.length := by
  induction input generalizing room with
  | nil => cases room <;> exact le_refl _
  | cons c input ih =>
    cases room with
    | zero => exact le_refl _
    | succ room =>
      have hle := ih room
      rw [scanName, List.length_cons]
      split_ifs
      · exact Nat.le_succ _
      · exact le_refl _
      · dsimp only
        omega

theorem readName_length_le (input : List UInt8) : (readName input).2.length ≤ input.length := by
  cases input with
  | nil => exact le_refl _
  | cons c input =>
    rw [readName]
    split_ifs
    · exact (scanName_length_le _ _ _).trans (Nat.le_succ _)
    · exact scanName_length_le _ _ _

/-- The loop of `env_expand`. -/
def envExpandLoop (env : Env) (room : ℕ) : List UInt8 → List UInt8 → List UInt8
  | [], out => out
  | c :: input, out =>
    if out.length < room then
      if c = dollar then
        let r := readName input
        envExpandLoop env room r.2 (puts room out ((envGet env r.1).getD []))
      else envExpandLoop env room input (out ++ [c])
    else out
  termination_by input => input.length
  decreasing_by
  · exact Nat.lt_succ_of_le (readName_length_le input)
  · exact Nat.lt_succ_self _

/-- `env_expand` into a buffer of `max` bytes, which is not 0. -/
def envExpand (env : Env) (input : List UInt8) (max : ℕ) : List UInt8 :=
  envExpandLoop env (max - 1) input [] ++ [0]

/-! ## What is expanded -/

/-- The value of a variable, which is nothing if it is not set. -/
def valueOf (env : Env) (n : List UInt8) : List UInt8 := (envGet env n).getD []

/-- The text that the code would write with room for everything. -/
def expandedText (env : Env) : List UInt8 → List UInt8
  | [] => []
  | c :: input =>
    if c = dollar then valueOf env (readName input).1 ++ expandedText env (readName input).2
    else c :: expandedText env input
  termination_by input => input.length
  decreasing_by
  · exact Nat.lt_succ_of_le (readName_length_le input)
  · exact Nat.lt_succ_self _

theorem expandedText_nil (env : Env) : expandedText env [] = [] := by
  rw [expandedText]

theorem expandedText_dollar (env : Env) (input : List UInt8) :
    expandedText env (dollar :: input) =
      valueOf env (readName input).1 ++ expandedText env (readName input).2 := by
  rw [expandedText, if_pos rfl]

theorem expandedText_of_ne (env : Env) {c : UInt8} (h : c ≠ dollar) (input : List UInt8) :
    expandedText env (c :: input) = c :: expandedText env input := by
  rw [expandedText, if_neg h]

/-- **The loop writes the text, cut to what fits.** -/
theorem envExpandLoop_take (env : Env) (room : ℕ) (input t : List UInt8) :
    envExpandLoop env room input (t.take room) = (t ++ expandedText env input).take room := by
  induction hlen : input.length using Nat.strong_induction_on generalizing input t with
  | _ n ih =>
    cases input with
    | nil => rw [envExpandLoop, expandedText_nil, List.append_nil]
    | cons c input =>
      rw [List.length_cons] at hlen
      rw [envExpandLoop]
      by_cases hroom : t.length < room
      · rw [if_pos ((length_take_lt_iff t).mpr hroom)]
        by_cases hc : c = dollar
        · have hle := readName_length_le input
          rw [if_pos hc]
          dsimp only
          rw [puts_take, ih _ (by omega) _ _ rfl, hc, expandedText_dollar, List.append_assoc]
          rfl
        · rw [if_neg hc, take_append_singleton hroom, ih _ (by omega) _ _ rfl,
            expandedText_of_ne env hc, List.append_assoc]
          rfl
      · rw [if_neg ((length_take_lt_iff t).not.mpr hroom), take_append_of_full hroom]

theorem envExpand_eq (env : Env) (input : List UInt8) (max : ℕ) :
    envExpand env input max = (expandedText env input).take (max - 1) ++ [0] := by
  have hloop := envExpandLoop_take env (max - 1) input []
  rw [List.take_nil, List.nil_append] at hloop
  rw [envExpand, hloop]

end Microkernel
