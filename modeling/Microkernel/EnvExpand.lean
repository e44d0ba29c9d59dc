/-
# Variable expansion

What `env_expand` should write: each name behind a dollar sign, with the longest run of its
characters or up to the closing brace, is replaced by the value of the variable, and all other
characters are copied.
-/
import Microkernel.Env

namespace Microkernel

/-! ## The reference -/

/-- A character that is copied, or a name in one of the two forms. -/
inductive EnvToken
  | char (c : UInt8)
  | name (n : List UInt8)
  | braced (n : List UInt8)
  deriving DecidableEq

/-- What stands in the expansion for a token. -/
def EnvToken.value (env : Env) : EnvToken → List UInt8
  | .char c => [c]
  | .name n => valueOf env n
  | .braced n => valueOf env n

/-- The name behind a dollar sign, if there is one, and what stands behind it. -/
def referenceName : List UInt8 → Option (EnvToken × List UInt8)
  | [] => none
  | c :: input =>
    if c = openBrace then
      if closeBrace ∈ input then
        some (.braced (input.takeWhile (· != closeBrace)),
          (input.dropWhile (· != closeBrace)).tail)
      else none
    else if isNameChar c then
      some (.name ((c :: input).takeWhile isNameChar), (c :: input).dropWhile isNameChar)
    else none

/-- The first token of an input that begins with `c`, and what stands behind it. -/
def firstToken (c : UInt8) (input : List UInt8) : EnvToken × List UInt8 :=
  if c = dollar then (referenceName input).getD (.char c, input) else (.char c, input)

/-- An input begins with this token, and the rest stands behind it. -/
inductive Begins : List UInt8 → EnvToken → List UInt8 → Prop
  | char {c : UInt8} (h : c ≠ dollar) (r : List UInt8) : Begins (c :: r) (.char c) r
  | lone (r : List UInt8) : Begins (dollar :: r) (.char dollar) r
  | name {n r : List UInt8} (hne : n ≠ []) (hall : ∀ c ∈ n, isNameChar c = true)
      (hstop : ∀ c ∈ r.head?, isNameChar c = false) :
      Begins (dollar :: (n ++ r)) (.name n) r
  | braced {n : List UInt8} (h : closeBrace ∉ n) (r : List UInt8) :
      Begins (dollar :: openBrace :: (n ++ closeBrace :: r)) (.braced n) r

theorem begins_referenceName {input r : List UInt8} {t : EnvToken}
    (h : referenceName input = some (t, r)) : Begins (dollar :: input) t r := by
  cases input with
  | nil => cases h
  | cons c input =>
    unfold referenceName at h
    dsimp only at h
    split_ifs at h with hopen hclose hname
    · obtain ⟨n, r', hinput, hnot⟩ := List.eq_append_cons_of_mem hclose
      have hall : ∀ c ∈ n, (c != closeBrace) = true :=
        fun c hc => bne_iff_ne.mpr fun heq => hnot (heq ▸ hc)
      rw [hinput, List.takeWhile_append_of_pos hall, List.dropWhile_append_of_pos hall,
        List.takeWhile_cons_of_neg (by simp), List.dropWhile_cons_of_neg (by simp),
        List.append_nil, List.tail_cons] at h
      cases h
      rw [hopen, hinput]
      exact .braced hnot _
    · obtain ⟨rfl, rfl⟩ := Prod.mk.inj (Option.some.inj h)
      have hsplit := List.takeWhile_append_dropWhile (l := c :: input) (p := isNameChar)
      have hbegins : Begins (dollar :: ((c :: input).takeWhile isNameChar ++
          (c :: input).dropWhile isNameChar)) (.name ((c :: input).takeWhile isNameChar))
          ((c :: input).dropWhile isNameChar) := by
        refine .name ?_ (fun d hd => List.mem_takeWhile_imp hd) ?_
        · rw [List.takeWhile_cons_of_pos hname]
          exact List.cons_ne_nil _ _
        · intro d hd
          have hhead := List.head?_dropWhile_not isNameChar (c :: input)
          rw [Option.mem_def.mp hd] at hhead
          simpa using hhead
      rwa [hsplit] at hbegins

theorem begins_firstToken (c : UInt8) (input : List UInt8) :
    Begins (c :: input) (firstToken c input).1 (firstToken c input).2 := by
  unfold firstToken
  by_cases hc : c = dollar
  · rw [if_pos hc, hc]
    cases hname : referenceName input with
    | none => exact .lone input
    | some p => exact begins_referenceName hname
  · rw [if_neg hc]
    exact .char hc input

theorem Begins.length_lt {input r : List UInt8} {t : EnvToken} (h : Begins input t r) :
    r.length < input.length := by
  cases h with
  | char h r => exact Nat.lt_succ_self _
  | lone r => exact Nat.lt_succ_self _
  | name hne hall hstop =>
    rw [List.length_cons, List.length_append]
    omega
  | braced h r =>
    rw [List.length_cons, List.length_cons, List.length_append, List.length_cons]
    omega

/-- The tokens of an input. -/
def referenceTokens : List UInt8 → List EnvToken
  | [] => []
  | c :: input => (firstToken c input).1 :: referenceTokens (firstToken c input).2
  termination_by input => input.length
  decreasing_by exact (begins_firstToken c input).length_lt

/-- The expansion of an input. -/
def referenceText (env : Env) (input : List UInt8) : List UInt8 :=
  (referenceTokens input).flatMap (EnvToken.value env)

/-- `env_expand` writes what fits of the expansion of its input, with a terminator. -/
def ExpandsRight (env : Env) (input : List UInt8) (max : ℕ) : Prop :=
  ∃ out : List UInt8, envExpand env input max = out ++ [0] ∧ out.length ≤ max - 1 ∧
    out = (referenceText env input).take (max - 1)

/-- A token that the code reads as it should: no dollar sign that is copied, and a name that fits in
the buffer with the brace behind it. -/
def EnvToken.Plain : EnvToken → Prop
  | .char c => c ≠ dollar
  | .name n => n.length ≤ envKeyLen - 1
  | .braced n => n.length < envKeyLen - 1

/-! ## What the code reads -/

variable {n r input : List UInt8} {t : EnvToken}

/-- The scan of a name without braces. -/
theorem scanName_name (hall : ∀ c ∈ n, isNameChar c = true)
    (hstop : ∀ c ∈ r.head?, isNameChar c = false) (room : ℕ) :
    scanName false room (n ++ r) = (n.take room, n.drop room ++ r) := by
  induction n generalizing room with
  | nil =>
    cases room with
    | zero => rfl
    | succ room =>
      cases r with
      | nil => rfl
      | cons c r =>
        have hc := hstop c rfl
        rw [List.nil_append, scanName, if_neg (by simp), if_pos (by simp [hc])]
        rfl
  | cons c n ih =>
    cases room with
    | zero => rfl
    | succ room =>
      obtain ⟨hc, hn⟩ := List.forall_mem_cons.mp hall
      rw [List.cons_append, scanName, if_neg (by simp), if_neg (by simp [hc]), ih hn]
      rfl

/-- The scan of a name in braces: it takes the brace behind it only if there is room for a byte
more. -/
theorem scanName_braced (h : closeBrace ∉ n) (r : List UInt8) (room : ℕ) :
    scanName true room (n ++ closeBrace :: r) =
      if n.length < room then (n, r) else (n.take room, n.drop room ++ closeBrace :: r) := by
  induction n generalizing room with
  | nil =>
    cases room with
    | zero => rfl
    | succ room =>
      rw [List.nil_append, scanName, if_pos (by simp)]
      exact (if_pos (Nat.succ_pos room)).symm
  | cons c n ih =>
    cases room with
    | zero => rfl
    | succ room =>
      have hc := List.ne_of_not_mem_cons h
      have hn := List.not_mem_of_not_mem_cons h
      rw [List.cons_append, scanName, if_neg (by simpa using Ne.symm hc), if_neg (by simp), ih hn,
        List.length_cons]
      split_ifs
      · rfl
      · omega
      · omega
      · rfl

/-- A scan without braces does not pass a character that is in no name. -/
theorem scanName_before {x : UInt8} (hx : isNameChar x = false) (n r : List UInt8) (room : ℕ) :
    ∃ j, (scanName false room (n ++ x :: r)).2 = n.drop j ++ x :: r := by
  induction n generalizing room with
  | nil =>
    refine ⟨0, ?_⟩
    cases room with
    | zero => rfl
    | succ room =>
      rw [List.nil_append, scanName, if_neg (by simp), if_pos (by simp [hx])]
      rfl
  | cons c n ih =>
    cases room with
    | zero => exact ⟨0, rfl⟩
    | succ room =>
      rw [List.cons_append, scanName, if_neg (by simp)]
      split_ifs
      · exact ⟨0, rfl⟩
      · obtain ⟨j, hj⟩ := ih room
        exact ⟨j + 1, hj⟩

variable (env : Env)

theorem expandedText_name (hne : n ≠ []) (hall : ∀ c ∈ n, isNameChar c = true)
    (hstop : ∀ c ∈ r.head?, isNameChar c = false) :
    expandedText env (dollar :: (n ++ r)) =
      valueOf env (n.take (envKeyLen - 1)) ++ expandedText env (n.drop (envKeyLen - 1) ++ r) := by
  obtain ⟨c, n', rfl⟩ := List.exists_cons_of_ne_nil hne
  have hc : c ≠ openBrace := by
    rintro rfl
    exact absurd (hall _ List.mem_cons_self) (by decide)
  have hread : readName (c :: n' ++ r) =
      ((c :: n').take (envKeyLen - 1), (c :: n').drop (envKeyLen - 1) ++ r) := by
    rw [← scanName_name hall hstop]
    exact if_neg hc
  rw [expandedText_dollar, hread]

theorem expandedText_braced (h : closeBrace ∉ n) (r : List UInt8) :
    expandedText env (dollar :: openBrace :: (n ++ closeBrace :: r)) =
      if n.length < envKeyLen - 1 then valueOf env n ++ expandedText env r
      else valueOf env (n.take (envKeyLen - 1)) ++
        expandedText env (n.drop (envKeyLen - 1) ++ closeBrace :: r) := by
  have hread : readName (openBrace :: (n ++ closeBrace :: r)) =
      scanName true (envKeyLen - 1) (n ++ closeBrace :: r) := by
    rw [readName, if_pos rfl]
  rw [expandedText_dollar, hread, scanName_braced h]
  split_ifs
  · rfl
  · rfl

/-- **A plain token is expanded as it should be.** -/
theorem Begins.expandedText_eq (h : Begins input t r) (hplain : t.Plain) :
    expandedText env input = t.value env ++ expandedText env r := by
  cases h with
  | char h r => exact expandedText_of_ne env h r
  | lone r => exact absurd rfl hplain
  | name hne hall hstop =>
    have hle : _ ≤ envKeyLen - 1 := hplain
    rw [expandedText_name env hne hall hstop, List.take_of_length_le hle,
      List.drop_eq_nil_of_le hle]
    rfl
  | @braced n h r =>
    have hlt : n.length < envKeyLen - 1 := hplain
    rw [expandedText_braced env h, if_pos hlt]
    rfl

theorem expandedText_of_plain (h : ∀ t ∈ referenceTokens input, t.Plain) :
    expandedText env input = referenceText env input := by
  induction hlen : input.length using Nat.strong_induction_on generalizing input with
  | _ k ih =>
    cases input with
    | nil =>
      rw [expandedText_nil, referenceText, referenceTokens]
      rfl
    | cons c input =>
      have hbegins := begins_firstToken c input
      have hlt := hbegins.length_lt
      unfold referenceText
      rw [referenceTokens] at h ⊢
      obtain ⟨hplain, hrest⟩ := List.forall_mem_cons.mp h
      rw [hbegins.expandedText_eq env hplain, ih _ (by omega) hrest rfl]
      rfl

/-! ## Tokens that are not plain -/

/-- Without any variables the code writes no dollar sign. -/
theorem dollar_notMem_expandedText (input : List UInt8) :
    dollar ∉ expandedText Env.empty input := by
  induction hlen : input.length using Nat.strong_induction_on generalizing input with
  | _ k ih =>
    cases input with
    | nil =>
      rw [expandedText_nil]
      exact List.not_mem_nil
    | cons c input =>
      rw [List.length_cons] at hlen
      by_cases hc : c = dollar
      · have hle := readName_length_le input
        have hvalue : valueOf Env.empty (readName input).1 = [] := by
          rw [valueOf, envGet_empty, Option.getD_none]
        rw [hc, expandedText_dollar, hvalue, List.nil_append]
        exact ih _ (by omega) _ rfl
      · rw [expandedText_of_ne _ hc]
        rintro (_ | ⟨_, hmem⟩)
        · exact hc rfl
        · exact ih _ (by omega) _ rfl hmem

/-- Characters that are copied. -/
theorem expandedText_append_of_notMem (h : dollar ∉ n) (r : List UInt8) :
    expandedText env (n ++ r) = n ++ expandedText env r := by
  induction n with
  | nil => rfl
  | cons c n ih =>
    rw [List.cons_append, expandedText_of_ne env (Ne.symm (List.ne_of_not_mem_cons h)),
      ih (List.not_mem_of_not_mem_cons h), List.cons_append]

/-- **The code comes back into step** at the latest behind a closing brace: whatever stands in front
of it, what is written for the rest is not lost. -/
theorem length_expandedText_behind (h : closeBrace ∉ n) (r : List UInt8) :
    (expandedText env r).length ≤ (expandedText env (n ++ closeBrace :: r)).length := by
  induction hlen : n.length using Nat.strong_induction_on generalizing n with
  | _ k ih =>
    have hbrace : (expandedText env r).length ≤ (expandedText env (closeBrace :: r)).length := by
      rw [expandedText_of_ne env (by decide), List.length_cons]
      exact Nat.le_succ _
    have hdrop : ∀ (l : List UInt8) (j : ℕ), closeBrace ∉ l → l.length < k →
        (expandedText env r).length ≤ (expandedText env (l.drop j ++ closeBrace :: r)).length := by
      intro l j hl hlt
      refine ih (l.drop j).length ?_ (fun hmem => hl (List.mem_of_mem_drop hmem)) rfl
      rw [List.length_drop]
      omega
    cases n with
    | nil => exact hbrace
    | cons c n =>
      have hn := List.not_mem_of_not_mem_cons h
      rw [List.length_cons] at hlen
      by_cases hc : c = dollar
      · rw [hc, List.cons_append]
        cases n with
        | nil =>
          have hread : readName (closeBrace :: r) = ([], closeBrace :: r) := by
            have hscan := scanName_name (n := []) (r := closeBrace :: r)
              (fun c hc => absurd hc List.not_mem_nil) (fun c hc => by cases hc; decide)
              (envKeyLen - 1)
            rw [readName, if_neg (by decide)]
            exact hscan
          rw [List.nil_append, expandedText_dollar, hread, List.length_append]
          exact hbrace.trans (Nat.le_add_left _ _)
        | cons d n =>
          rw [List.length_cons] at hlen
          by_cases hd : d = openBrace
          · rw [hd, List.cons_append,
              expandedText_braced env (List.not_mem_of_not_mem_cons hn)]
            split_ifs
            · rw [List.length_append]
              exact Nat.le_add_left _ _
            · rw [List.length_append]
              have hrest := hdrop n (envKeyLen - 1) (List.not_mem_of_not_mem_cons hn) (by omega)
              exact hrest.trans (Nat.le_add_left _ _)
          · have hbrace : isNameChar closeBrace = false := by decide
            obtain ⟨j, hj⟩ := scanName_before hbrace (d :: n) r (envKeyLen - 1)
            have hread : (readName (d :: n ++ closeBrace :: r)).2 =
                (d :: n).drop j ++ closeBrace :: r := by
              rw [← hj, List.cons_append, readName, if_neg hd]
            rw [expandedText_dollar, hread, List.length_append]
            have hrest := hdrop (d :: n) j hn (by rw [List.length_cons]; omega)
            exact hrest.trans (Nat.le_add_left _ _)
      · rw [List.cons_append, expandedText_of_ne env hc, List.length_cons]
        exact (ih n.length (by omega) hn rfl).trans (Nat.le_succ _)

/-- The name of a token. -/
def EnvToken.text : EnvToken → List UInt8
  | .char c => [c]
  | .name n => n
  | .braced n => n

theorem valueOf_of_long (h : envKeyLen - 1 < n.length) : valueOf env n = [] := by
  rw [valueOf, envGet_of_long env h, Option.getD_none]

/-- **Nothing is lost at a token that is no dollar sign**, and at a name that is too long something
is added, if the part of it that fits in the buffer has a value. -/
theorem Begins.length_le (h : Begins input t r) (ht : t ≠ .char dollar) :
    (t.value env).length + (expandedText env r).length ≤ (expandedText env input).length ∧
      (¬ t.Plain → valueOf env (t.text.take (envKeyLen - 1)) ≠ [] →
        (t.value env).length + (expandedText env r).length < (expandedText env input).length) := by
  by_cases hplain : t.Plain
  · rw [h.expandedText_eq env hplain, List.length_append]
    exact ⟨le_refl _, fun hnot => absurd hplain hnot⟩
  · cases h with
    | char h r => exact absurd h hplain
    | lone r => exact absurd rfl ht
    | @name n r hne hall hstop =>
      have hlong : envKeyLen - 1 < n.length := not_le.mp hplain
      have hrest : dollar ∉ n.drop (envKeyLen - 1) := by
        intro hmem
        exact absurd (hall _ (List.mem_of_mem_drop hmem)) (by decide)
      have hdrop : 0 < (n.drop (envKeyLen - 1)).length := by
        rw [List.length_drop]
        omega
      have hvalue : (EnvToken.name n).value env = [] := valueOf_of_long env hlong
      rw [expandedText_name env hne hall hstop, expandedText_append_of_notMem env hrest, hvalue,
        List.length_append, List.length_append, List.length_nil]
      constructor
      · omega
      · intro _ _
        omega
    | @braced n h r =>
      have hlong : envKeyLen - 1 ≤ n.length := not_lt.mp hplain
      rw [expandedText_braced env h, if_neg (not_lt.mpr hlong), List.length_append]
      by_cases hlen : n.length = envKeyLen - 1
      · have hvalue : (EnvToken.braced n).value env = valueOf env (n.take (envKeyLen - 1)) := by
          rw [List.take_of_length_le hlen.le]
          rfl
        rw [List.drop_eq_nil_of_le hlen.le, List.nil_append, hvalue,
          expandedText_of_ne env (by decide), List.length_cons]
        constructor
        · omega
        · intro _ _
          omega
      · have hvalue : (EnvToken.braced n).value env = [] := valueOf_of_long env (by omega)
        have hbehind := length_expandedText_behind env
          (fun hmem => h (List.mem_of_mem_drop hmem) : closeBrace ∉ n.drop (envKeyLen - 1)) r
        rw [hvalue, List.length_nil]
        constructor
        · omega
        · intro _ hne
          have hpos := List.length_pos_iff.mpr hne
          change 0 < (valueOf env (n.take (envKeyLen - 1))).length at hpos
          omega

theorem length_referenceText_le (hnone : EnvToken.char dollar ∉ referenceTokens input) :
    (referenceText env input).length ≤ (expandedText env input).length ∧
      ∀ t ∈ referenceTokens input, ¬ t.Plain → valueOf env (t.text.take (envKeyLen - 1)) ≠ [] →
        (referenceText env input).length < (expandedText env input).length := by
  induction hlen : input.length using Nat.strong_induction_on generalizing input with
  | _ k ih =>
    cases input with
    | nil =>
      have htext : referenceText env [] = [] := by
        rw [referenceText, referenceTokens]
        rfl
      rw [htext, referenceTokens]
      exact ⟨Nat.zero_le _, fun t ht => absurd ht List.not_mem_nil⟩
    | cons c input =>
      have hbegins := begins_firstToken c input
      have hlt := hbegins.length_lt
      have htext : (referenceText env (c :: input)).length =
          ((firstToken c input).1.value env).length +
            (referenceText env (firstToken c input).2).length := by
        rw [referenceText, referenceTokens, List.flatMap_cons, List.length_append]
        rfl
      rw [referenceTokens] at hnone ⊢
      obtain ⟨hrest, hrest'⟩ := ih _ (by omega) (List.not_mem_of_not_mem_cons hnone) rfl
      obtain ⟨hfirst, hfirst'⟩ :=
        hbegins.length_le env (Ne.symm (List.ne_of_not_mem_cons hnone))
      rw [htext]
      refine ⟨by omega, ?_⟩
      rintro t (_ | ⟨_, hmem⟩) hplain hvalue
      · have hless := hfirst' hplain hvalue
        omega
      · have hless := hrest' t hmem hplain hvalue
        omega

/-- One variable with a value of one letter. -/
def oneVar (key : List UInt8) : Env := envSet Env.empty key [0x78]

theorem valueOf_oneVar {key : List UInt8} (h : key.length ≤ envKeyLen - 1) :
    valueOf (oneVar key) key = [0x78] := by
  have hnone : envFind Env.empty key = none :=
    List.find?_eq_none.mpr fun i _ => Bool.false_ne_true
  have hfree : (List.finRange envMaxVars).find? (fun i => !(Env.empty i).active) = some 0 := by
    decide
  have hset : oneVar key = Function.update Env.empty 0 (EnvVar.make key [0x78]) := by
    rw [oneVar, envSet, hnone]
    dsimp only
    rw [hfree]
  have hfind : envFind (oneVar key) key = some 0 := by
    have hzero : (oneVar key) 0 = EnvVar.make key [0x78] := by
      rw [hset, Function.update_self]
    rw [envFind, List.finRange_succ, List.find?_cons_of_pos]
    rw [hzero]
    exact Bool.and_eq_true_iff.mpr ⟨rfl, beq_iff_eq.mpr (List.take_of_length_le h)⟩
  rw [valueOf, envGet, hfind, Option.map_some, Option.getD_some, hset, Function.update_self]
  rfl

/-! ## The expansion -/

theorem expandsRight_iff (input : List UInt8) :
    (∀ max ≥ 1, ExpandsRight env input max) ↔ expandedText env input = referenceText env input := by
  constructor
  · intro h
    obtain ⟨out, hout, -, hstart⟩ := h
      ((expandedText env input).length + (referenceText env input).length + 1) (Nat.succ_pos _)
    rw [envExpand_eq] at hout
    have heq := List.append_cancel_right hout
    rw [hstart, Nat.add_sub_cancel, List.take_of_length_le (Nat.le_add_right _ _),
      List.take_of_length_le (Nat.le_add_left _ _)] at heq
    exact heq
  · intro h max _
    refine ⟨_, envExpand_eq env input max, List.length_take_le _ _, ?_⟩
    rw [h]

/-- **`env_expand` expands as it should**, in every environment and with every room for at least one
byte, exactly if each token of its input is plain: no dollar sign is to be copied, a name without
braces has at most 31 bytes, and a name in braces at most 30. -/
theorem envExpand_right_iff (input : List UInt8) :
    (∀ env, ∀ max ≥ 1, ExpandsRight env input max) ↔ ∀ t ∈ referenceTokens input, t.Plain := by
  constructor
  · intro h t ht
    by_contra hplain
    by_cases hnone : EnvToken.char dollar ∈ referenceTokens input
    · have htext := (expandsRight_iff Env.empty input).mp (h Env.empty)
      refine dollar_notMem_expandedText input ?_
      rw [htext]
      exact List.mem_flatMap.mpr ⟨_, hnone, List.mem_singleton_self _⟩
    · let key := t.text.take (envKeyLen - 1)
      have hvalue : valueOf (oneVar key) key ≠ [] := by
        rw [valueOf_oneVar (List.length_take_le _ _)]
        exact List.cons_ne_nil _ _
      have htext := (expandsRight_iff (oneVar key) input).mp (h (oneVar key))
      have hless := (length_referenceText_le (oneVar key) hnone).2 t ht hplain hvalue
      rw [htext] at hless
      exact lt_irrefl _ hless
  · intro h env
    exact (expandsRight_iff env input).mpr (expandedText_of_plain env h)

/-- The dollar sign of `5$` is lost. -/
theorem not_expandsRight_lone :
    envExpand Env.empty [0x35, dollar] 256 = [0x35, 0] ∧
      ¬ ExpandsRight Env.empty [0x35, dollar] 256 := by
  have hread : readName [] = ([], []) := rfl
  have hvalue : valueOf Env.empty [] = [] := by
    rw [valueOf, envGet_empty, Option.getD_none]
  have hout : envExpand Env.empty [0x35, dollar] 256 = [0x35, 0] := by
    rw [envExpand_eq, expandedText_of_ne _ (by decide), expandedText_dollar, hread, hvalue,
      expandedText_nil]
    rfl
  have hfirst : firstToken 0x35 [dollar] = (.char 0x35, [dollar]) := by decide
  have hsecond : firstToken dollar [] = (.char dollar, []) := by decide
  have htext : referenceText Env.empty [0x35, dollar] = [0x35, dollar] := by
    rw [referenceText, referenceTokens, hfirst, referenceTokens, hsecond, referenceTokens]
    rfl
  refine ⟨hout, ?_⟩
  rintro ⟨out, hexpand, -, hstart⟩
  rw [hout, hstart, htext] at hexpand
  exact absurd hexpand (by decide)

end Microkernel
