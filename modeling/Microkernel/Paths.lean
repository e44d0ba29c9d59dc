/-
# Paths

Paths as lists of bytes: cutting a path into components of a limited length, and at its last
slash, and joining components.  Nothing here is about a file system.
-/
import Mathlib

/-- The slash. -/
def slash : UInt8 := 0x2F

namespace Path

/-- The next component, at most `max` bytes, and what is left after it and the slash that ends
it; a longer component is cut. -/
def cutComponent (max : ℕ) (p : List UInt8) : List UInt8 × List UInt8 :=
  let component := (p.takeWhile (· != slash)).take max
  let rest := p.drop component.length
  (component, if rest.head? = some slash then rest.tail else rest)

/-- Cut off components for `n` rounds at most. -/
def cutLoop (max : ℕ) : ℕ → List UInt8 → List (List UInt8)
  | 0, _ => []
  | n + 1, p =>
    if p = [] then [] else (cutComponent max p).1 :: cutLoop max n (cutComponent max p).2

/-- The components of a path; each round uses up at least one byte. -/
def components (max : ℕ) (p : List UInt8) : List (List UInt8) := cutLoop max p.length p

/-- What follows the last slash. -/
def fileName (p : List UInt8) : List UInt8 := p.rtakeWhile (· != slash)

/-- What comes before the last slash, if there is one. -/
def dirName (p : List UInt8) : List UInt8 := p.take (p.length - (fileName p).length - 1)

variable {max : ℕ} {n p : List UInt8}

/-! ## The last slash -/

theorem slash_notMem_fileName (p : List UInt8) : slash ∉ fileName p := by
  intro h
  have hne := List.mem_rtakeWhile_imp h
  exact absurd hne (by decide)

/-- A path with a slash is what comes before the last one, and the name after it. -/
theorem dirName_append_fileName (h : slash ∈ p) : p = dirName p ++ slash :: fileName p := by
  have hsplit : p.rdropWhile (· != slash) ++ fileName p = p :=
    List.rdropWhile_append_rtakeWhile ..
  have hne : p.rdropWhile (· != slash) ≠ [] := by
    intro hnil
    rw [hnil, List.nil_append] at hsplit
    rw [← hsplit] at h
    exact slash_notMem_fileName p h
  have hlast : (p.rdropWhile (· != slash)).getLast hne = slash := by
    have hnot := List.rdropWhile_last_not (· != slash) p hne
    simpa using hnot
  have hdir : p.rdropWhile (· != slash) = dirName p ++ [slash] := by
    rw [← List.dropLast_append_getLast hne, hlast]
    congr 1
    unfold dirName
    have hlen := congrArg List.length hsplit
    rw [List.length_append] at hlen
    have htake : p.take (p.rdropWhile (· != slash)).length = p.rdropWhile (· != slash) :=
      (List.prefix_iff_eq_take.mp ⟨_, hsplit⟩).symm
    rw [List.dropLast_eq_take, ← htake, List.take_take, htake]
    congr 1
    omega
  rw [List.append_cons, ← hdir, hsplit]

/-! ## Components -/

/-- The first component is short. -/
theorem cutComponent_length_lt (hmax : 0 < max) (hp : p ≠ []) :
    (cutComponent max p).2.length < p.length := by
  unfold cutComponent
  dsimp only
  cases p with
  | nil => exact absurd rfl hp
  | cons x xs =>
    by_cases hx : x = slash
    · subst hx
      simp
    · have hpos : 0 < ((List.takeWhile (· != slash) (x :: xs)).take max).length := by
        rw [List.takeWhile_cons_of_pos (by simpa using hx), List.length_take, List.length_cons]
        omega
      split_ifs
      · rw [List.length_tail, List.length_drop, List.length_cons]
        omega
      · rw [List.length_drop, List.length_cons]
        omega

/-- More rounds than bytes do nothing. -/
theorem cutLoop_eq (hmax : 0 < max) {i j : ℕ} (hi : p.length ≤ i) (hj : p.length ≤ j) :
    cutLoop max i p = cutLoop max j p := by
  induction i generalizing j p with
  | zero =>
    obtain rfl := List.eq_nil_of_length_eq_zero (Nat.le_zero.mp hi)
    cases j with
    | zero => rfl
    | succ j => exact (if_pos rfl).symm
  | succ i ih =>
    by_cases hp : p = []
    · subst hp
      cases j with
      | zero => exact if_pos rfl
      | succ j => exact (if_pos rfl).trans (if_pos rfl).symm
    · have hlt := cutComponent_length_lt hmax hp
      have hpos := List.length_pos_iff.mpr hp
      obtain ⟨j, rfl⟩ : ∃ j', j = j' + 1 := ⟨j - 1, by omega⟩
      unfold cutLoop
      rw [if_neg hp, if_neg hp, @ih _ j (by omega) (by omega)]

@[simp] theorem components_nil : components max [] = [] := rfl

/-- Component by component. -/
theorem components_of_ne_nil (hmax : 0 < max) (hp : p ≠ []) :
    components max p = (cutComponent max p).1 :: components max (cutComponent max p).2 := by
  have hlt := cutComponent_length_lt hmax hp
  have hpos := List.length_pos_iff.mpr hp
  unfold components
  rw [cutLoop_eq hmax (le_refl _) (by omega : p.length ≤ p.length - 1 + 1)]
  nth_rewrite 1 [cutLoop]
  rw [if_neg hp, cutLoop_eq hmax (by omega) (le_refl _)]

/-- A slash at the front ends an empty component. -/
theorem components_slash (hmax : 0 < max) (p : List UInt8) :
    components max (slash :: p) = [] :: components max p := by
  rw [components_of_ne_nil hmax (List.cons_ne_nil _ _)]
  simp [cutComponent]

/-- A short name is one component. -/
theorem components_name (hn : n ≠ []) (hslash : slash ∉ n) (hlen : n.length ≤ max) :
    components max n = [n] := by
  have hpos := List.length_pos_iff.mpr hn
  have hall : n.takeWhile (· != slash) = n := by
    rw [List.takeWhile_eq_self_iff]
    intro x hx
    rw [bne_iff_ne]
    rintro rfl
    exact hslash hx
  rw [components_of_ne_nil (by omega) hn]
  simp [cutComponent, hall, List.take_of_length_le hlen]

/-- Induction along the components of a path. -/
theorem components_induction {P : List UInt8 → Prop} (hmax : 0 < max) (hnil : P [])
    (hcut : ∀ d, d ≠ [] → P (cutComponent max d).2 → P d) (d : List UInt8) : P d := by
  induction hlen : d.length using Nat.strong_induction_on generalizing d with
  | _ len ih =>
    by_cases hd : d = []
    · rw [hd]
      exact hnil
    · have hlt := cutComponent_length_lt hmax hd
      exact hcut d hd (ih _ (by omega) _ rfl)

/-- A slash and more after a path: the first component is the same, and the rest goes on with the
slash, unless it was all of the path. -/
theorem cutComponent_append (d p : List UInt8) :
    ((cutComponent max d).2 = [] ∧
      cutComponent max (d ++ slash :: p) = ((cutComponent max d).1, p)) ∨
    (cutComponent max (d ++ slash :: p) =
        ((cutComponent max d).1, (cutComponent max d).2 ++ slash :: p) ∧
      (d.getLast? ≠ some slash →
        (cutComponent max d).2 ≠ [] ∧ (cutComponent max d).2.getLast? ≠ some slash)) := by
  have htake : (d ++ slash :: p).takeWhile (· != slash) = d.takeWhile (· != slash) := by
    induction d with
    | nil => simp
    | cons x xs ih =>
      by_cases hx : x = slash
      · subst hx
        simp
      · rw [List.cons_append, List.takeWhile_cons_of_pos (by simpa using hx),
          List.takeWhile_cons_of_pos (by simpa using hx), ih]
  have hlen : ((d.takeWhile (· != slash)).take max).length ≤ d.length :=
    (List.length_take_le' _ _).trans (List.takeWhile_prefix _).length_le
  have hend : ∀ e, d.drop ((d.takeWhile (· != slash)).take max).length = e → e ≠ [] →
      e.getLast? = d.getLast? := by
    rintro e rfl hne
    rw [List.getLast?_drop, if_neg]
    exact fun hle => hne (List.drop_eq_nil_of_le hle)
  unfold cutComponent
  dsimp only
  rw [htake, List.drop_append_of_le_length hlen]
  generalize d.drop ((d.takeWhile (· != slash)).take max).length = e at hend ⊢
  have hend := hend e rfl
  cases e with
  | nil => exact Or.inl ⟨rfl, by simp⟩
  | cons x xs =>
    rw [← hend (List.cons_ne_nil _ _)]
    right
    by_cases hx : x = slash
    · subst hx
      refine ⟨by simp, fun hlast => ?_⟩
      have hxs : xs ≠ [] := by
        rintro rfl
        exact hlast rfl
      rw [List.getLast?_cons_of_ne_nil hxs] at hlast
      exact ⟨hxs, hlast⟩
    · have hhead : ¬ (x :: xs).head? = some slash := by simpa using hx
      have hhead' : ¬ (x :: xs ++ slash :: p).head? = some slash := by simpa using hx
      rw [if_neg hhead, if_neg hhead']
      exact ⟨rfl, fun hlast => ⟨List.cons_ne_nil _ _, hlast⟩⟩

/-- **One more component**: a path that does not end with a slash, a slash, and the rest. -/
theorem components_append {d : List UInt8} (hmax : 0 < max) (hd : d ≠ [])
    (hlast : d.getLast? ≠ some slash) :
    components max (d ++ slash :: p) = components max d ++ components max p := by
  induction d using components_induction hmax with
  | hnil => exact absurd rfl hd
  | hcut d _ ih =>
    rw [components_of_ne_nil hmax hd,
      components_of_ne_nil hmax (List.append_ne_nil_of_left_ne_nil hd _), List.cons_append]
    rcases @cutComponent_append max d p with ⟨hnil, heq⟩ | ⟨heq, hrest⟩
    · rw [heq, hnil]
      rfl
    · obtain ⟨hne, hlast'⟩ := hrest hlast
      rw [heq, ih hne hlast']

/-- Two slashes in a row have an empty component between them. -/
theorem nil_mem_components (hmax : 0 < max) (d p : List UInt8) :
    [] ∈ components max (d ++ slash :: slash :: p) := by
  induction d using components_induction hmax with
  | hnil =>
    rw [List.nil_append, components_slash hmax]
    exact List.mem_cons_self
  | hcut d hd ih =>
    rw [components_of_ne_nil hmax (List.append_ne_nil_of_left_ne_nil hd _)]
    apply List.mem_cons_of_mem
    rcases @cutComponent_append max d (slash :: p) with ⟨_, heq⟩ | ⟨heq, _⟩
    · rw [heq, components_slash hmax]
      exact List.mem_cons_self
    · rw [heq]
      exact ih

/-! ## Absolute paths -/

/-- An absolute path of some components: each with a slash before it. -/
def join (cs : List (List UInt8)) : List UInt8 := cs.flatMap (slash :: ·)

@[simp] theorem join_nil : join [] = [] := rfl

theorem join_cons (c : List UInt8) (cs : List (List UInt8)) :
    join (c :: cs) = slash :: c ++ join cs := List.flatMap_cons

theorem join_append (cs ds : List (List UInt8)) : join (cs ++ ds) = join cs ++ join ds :=
  List.flatMap_append

theorem join_snoc (cs : List (List UInt8)) (c : List UInt8) :
    join (cs ++ [c]) = join cs ++ slash :: c := by
  rw [join_append, join_cons, join_nil, List.append_nil]

/-- A name that may be a component: not empty, without a slash, and short. -/
structure IsName (max : ℕ) (n : List UInt8) : Prop where
  ne_nil : n ≠ []
  slash_notMem : slash ∉ n
  length_le : n.length ≤ max

theorem IsName.getLast?_ne (h : IsName max n) : n.getLast? ≠ some slash :=
  fun hlast => h.slash_notMem (List.mem_of_getLast? hlast)

/-- **Joining and cutting**: the components of a joined path are what was joined. -/
theorem components_join {cs : List (List UInt8)} (h : ∀ c ∈ cs, IsName max c) :
    components max (join cs).tail = cs := by
  have hmax : cs ≠ [] → 0 < max := by
    intro hcs
    obtain ⟨c, hc⟩ := List.exists_mem_of_ne_nil cs hcs
    have hname := h c hc
    exact (List.length_pos_iff.mpr hname.ne_nil).trans_le hname.length_le
  induction cs with
  | nil => rfl
  | cons c cs ih =>
    have hc := h c List.mem_cons_self
    have hpos := hmax (List.cons_ne_nil _ _)
    have ih := ih (fun x hx => h x (List.mem_cons_of_mem _ hx)) fun _ => hpos
    have hname := components_name hc.ne_nil hc.slash_notMem hc.length_le
    rw [join_cons, List.cons_append, List.tail_cons]
    cases cs with
    | nil =>
      rw [join_nil, List.append_nil]
      exact hname
    | cons d cs =>
      rw [join_cons, List.cons_append, List.tail_cons] at ih
      rw [join_cons, List.cons_append, components_append hpos hc.ne_nil hc.getLast?_ne, ih, hname]
      rfl

/-- A joined path does not end with a slash. -/
theorem join_getLast?_ne {cs : List (List UInt8)} (h : ∀ c ∈ cs, IsName max c) :
    (join cs).getLast? ≠ some slash := by
  rcases List.eq_nil_or_concat' cs with rfl | ⟨ds, c, rfl⟩
  · exact nofun
  · have hc := h c (List.mem_append_right _ (List.mem_singleton_self c))
    rw [join_snoc, List.getLast?_append, List.getLast?_cons_of_ne_nil hc.ne_nil]
    have hlast := hc.getLast?_ne
    cases hl : c.getLast? with
    | none => exact absurd (List.getLast?_eq_none_iff.mp hl) hc.ne_nil
    | some x =>
      rw [hl] at hlast
      exact hlast

end Path
