/-
# FAT16: short names there and back

`needs_lfn` decides which names are kept as short names; `encode_83_name` cuts such a name into
the two padded fields, and `decode_83_name` and `strcasecmp83` put the fields together again.
They are inverse up to the case of letters, but for one kind of name: a dot at the end is not
kept, since an empty extension is stored like none.
-/
import Microkernel.Fat16Names

namespace Microkernel

/-! ## Letters and blanks -/

theorem toLower_toUpper (c : UInt8) : toLower (toUpper c) = toLower c := by
  revert c
  decide +kernel

theorem toUpper_eq_blank {c : UInt8} : toUpper c = 0x20 ↔ c = 0x20 := by
  revert c
  decide +kernel

theorem map_toLower_toUpper (l : List UInt8) : (l.map toUpper).map toLower = l.map toLower := by
  rw [List.map_map]
  apply List.map_congr_left
  intro c _
  exact toLower_toUpper c

theorem length_padTo (n : ℕ) (l : List UInt8) : (padTo n l).length = n := by
  unfold padTo
  rw [List.length_append, List.length_take, List.length_replicate]
  omega

/-- Without its padding a field is what was stored in it. -/
theorem takeWhile_padTo {n : ℕ} {l : List UInt8} (hlen : l.length ≤ n) (hblank : 0x20 ∉ l) :
    (padTo n l).takeWhile (· != 0x20) = l := by
  have hall : ∀ c ∈ l, (c != 0x20) = true := by
    intro c hc
    rw [bne_iff_ne]
    rintro rfl
    exact hblank hc
  unfold padTo
  rw [List.take_of_length_le hlen, List.takeWhile_append_of_pos hall]
  have hpad : (List.replicate (n - l.length) (0x20 : UInt8)).takeWhile (· != 0x20) = [] := by
    cases n - l.length <;> rfl
  rw [hpad, List.append_nil]

/-! ## The last dot -/

/-- A name has no dot, or it is cut at its last one. -/
theorem splitDot_cases (name : List UInt8) :
    (0x2E ∉ name ∧ splitDot name = (name, none)) ∨
    ∃ base ext, name = base ++ 0x2E :: ext ∧ 0x2E ∉ ext ∧ splitDot name = (base, some ext) := by
  have hsplit : name.rdropWhile (· != 0x2E) ++ name.rtakeWhile (· != 0x2E) = name :=
    List.rdropWhile_append_rtakeWhile ..
  have hext : (0x2E : UInt8) ∉ name.rtakeWhile (· != 0x2E) := by
    intro h
    exact absurd (List.mem_rtakeWhile_imp h) (by decide)
  have hlen := congrArg List.length hsplit
  rw [List.length_append] at hlen
  unfold splitDot
  dsimp only
  by_cases hnil : name.rdropWhile (· != 0x2E) = []
  · rw [hnil, List.nil_append] at hsplit
    rw [hsplit, if_pos rfl]
    rw [hsplit] at hext
    exact Or.inl ⟨hext, rfl⟩
  · right
    have hpos := List.length_pos_iff.mpr hnil
    rw [if_neg (by omega)]
    have hlast : (name.rdropWhile (· != 0x2E)).getLast hnil = 0x2E := by
      have hnot := List.rdropWhile_last_not (· != 0x2E) name hnil
      simpa using hnot
    have hbase : name.rdropWhile (· != 0x2E) =
        (name.rdropWhile (· != 0x2E)).dropLast ++ [0x2E] := by
      nth_rewrite 1 [← List.dropLast_append_getLast hnil]
      rw [hlast]
    have hname : name =
        (name.rdropWhile (· != 0x2E)).dropLast ++ 0x2E :: name.rtakeWhile (· != 0x2E) := by
      nth_rewrite 1 [← hsplit, hbase]
      rw [List.append_assoc, List.singleton_append]
    refine ⟨_, _, hname, hext, ?_⟩
    congr 1
    generalize (name.rdropWhile (· != 0x2E)).dropLast = base at hname ⊢
    generalize name.rtakeWhile (· != 0x2E) = ext at hname ⊢
    rw [hname]
    apply List.take_left'
    rw [List.length_append, List.length_cons]
    omega

/-- What `needs_lfn` has checked of a name that it accepts. -/
structure Fits83 (name : List UInt8) : Prop where
  chars : ∀ c ∈ name, isLongChar c = false
  dots : name.count 0x2E ≤ 1
  base : 1 ≤ (splitDot name).1.length ∧ (splitDot name).1.length ≤ 8
  ext : ((splitDot name).2.getD []).length ≤ 3

theorem needsLfn_eq_false {name : List UInt8} (h : needsLfn name = false) : Fits83 name := by
  unfold needsLfn at h
  simp only [Bool.or_eq_false_iff, decide_eq_false_iff_not, List.any_eq_false] at h
  obtain ⟨⟨⟨⟨hchars, hdots⟩, hlong⟩, hext⟩, hempty⟩ := h
  refine ⟨fun c hc => Bool.eq_false_iff.mpr (hchars c hc), ?_, ?_, ?_⟩ <;> omega

/-- A short name has no blank. -/
theorem Fits83.blank {name : List UInt8} (h : Fits83 name) : 0x20 ∉ name := by
  intro hmem
  exact absurd (h.chars _ hmem) (by decide)

theorem blank_notMem_map {l : List UInt8} (h : 0x20 ∉ l) : 0x20 ∉ l.map toUpper := by
  intro hmem
  obtain ⟨c, hc, heq⟩ := List.mem_map.mp hmem
  rw [toUpper_eq_blank.mp heq] at hc
  exact h hc

/-- The text of the fields of a short name: an empty extension loses its dot. -/
theorem text83_encode83Name {name : List UInt8} (h : Fits83 name) :
    text83 (encode83Name name) =
      if name.getLast? = some 0x2E then name.dropLast.map toUpper else name.map toUpper := by
  obtain ⟨hbase, hext⟩ := And.intro h.base h.ext
  have hblank := h.blank
  unfold text83 encode83Name
  have htake : ∀ b e : List UInt8, (padTo 8 b ++ e).take 8 = padTo 8 b := by
    intro b e
    rw [List.take_append_of_le_length (length_padTo 8 b).ge]
    exact List.take_of_length_le (length_padTo 8 b).le
  have hdrop : ∀ b e : List UInt8, (padTo 8 b ++ e).drop 8 = e := by
    intro b e
    exact List.drop_left' (length_padTo 8 b)
  dsimp only
  rw [htake, hdrop]
  rcases splitDot_cases name with ⟨hdot, hsplit⟩ | ⟨base, ext, hname, _, hsplit⟩
  · rw [hsplit] at hbase ⊢
    have hlast : name.getLast? ≠ some 0x2E := fun heq => hdot (List.mem_of_getLast? heq)
    rw [if_neg hlast, takeWhile_padTo (by rw [List.length_map]; exact hbase.2) (blank_notMem_map hblank)]
    rfl
  · rw [hsplit] at hbase hext ⊢
    dsimp only [Option.getD_some] at hbase hext ⊢
    rw [hname, List.mem_append, List.mem_cons, not_or, not_or] at hblank
    have hbase' : (padTo 8 (base.map toUpper)).takeWhile (· != 0x20) = base.map toUpper :=
      takeWhile_padTo (by rw [List.length_map]; exact hbase.2) (blank_notMem_map hblank.1)
    have hext' : (padTo 3 (ext.map toUpper)).takeWhile (· != 0x20) = ext.map toUpper :=
      takeWhile_padTo (by rw [List.length_map]; exact hext) (blank_notMem_map hblank.2.2)
    simp only [hbase', hext', List.map_eq_nil_iff, hname]
    cases ext with
    | nil => simp
    | cons c cs =>
      have hlast : (base ++ 0x2E :: c :: cs).getLast? ≠ some 0x2E := by
        intro heq
        rw [List.getLast?_append, List.getLast?_cons_cons] at heq
        have hmem : (0x2E : UInt8) ∈ c :: cs := by
          cases hcs : (c :: cs).getLast? with
          | none => exact absurd (List.getLast?_eq_none_iff.mp hcs) (List.cons_ne_nil c cs)
          | some x =>
            rw [hcs] at heq
            rw [← Option.some.inj heq]
            exact List.mem_of_getLast? hcs
        have hcount := h.dots
        rw [hname, List.count_append, List.count_cons_self] at hcount
        have hpos := List.count_pos_iff.mpr hmem
        omega
      rw [if_neg hlast]
      simp [toUpper]

/-! ## There and back -/

/-- **The short name stands for the name**: it is decoded to the name in small letters, and it is
matched by the spellings of the name and by nothing else. -/
structure RoundTrip83 (name : List UInt8) : Prop where
  decoded : decode83Name (encode83Name name) = name.map toLower
  matched : ∀ other, equalsIgnoringCase other name = true → strcasecmp83 (encode83Name name) other = true
  only : ∀ other, strcasecmp83 (encode83Name name) other = true → equalsIgnoringCase other name = true

theorem toLower_toLower (c : UInt8) : toLower (toLower c) = toLower c := by
  revert c
  decide +kernel

/-- `strcasecmp83` compares with the decoded name. -/
theorem strcasecmp83_iff (name11 other : List UInt8) :
    strcasecmp83 name11 other = true ↔ decode83Name name11 = other.map toLower := by
  unfold strcasecmp83 equalsIgnoringCase decode83Name
  rw [beq_iff_eq, List.map_map]
  have hlower : toLower ∘ toLower = toLower := by
    funext c
    exact toLower_toLower c
  rw [hlower]

/-- **Which short names stand for their names**: those without a dot at the end. -/
theorem roundTrip83_iff (name : List UInt8) (h : needsLfn name = false) :
    RoundTrip83 name ↔ name.getLast? ≠ some 0x2E := by
  have hfits := needsLfn_eq_false h
  have htext := text83_encode83Name hfits
  constructor
  · intro hround hlast
    have hdecoded := hround.decoded
    unfold decode83Name at hdecoded
    rw [htext, if_pos hlast, map_toLower_toUpper] at hdecoded
    have hlen := congrArg List.length hdecoded
    rw [List.length_map, List.length_map, List.length_dropLast] at hlen
    have hne : name ≠ [] := by
      rintro rfl
      cases hlast
    have hpos := List.length_pos_iff.mpr hne
    omega
  · intro hlast
    have hdecoded : decode83Name (encode83Name name) = name.map toLower := by
      unfold decode83Name
      rw [htext, if_neg hlast, map_toLower_toUpper]
    refine ⟨hdecoded, fun other hother => ?_, fun other hother => ?_⟩
    · unfold equalsIgnoringCase at hother
      rw [strcasecmp83_iff, hdecoded]
      exact (beq_iff_eq.mp hother).symm
    · rw [strcasecmp83_iff, hdecoded] at hother
      unfold equalsIgnoringCase
      rw [hother]
      exact beq_self_eq_true _

/-- The name `A.TXT` goes there and back. -/
theorem roundTrip83_aTxt : RoundTrip83 [0x41, 0x2E, 0x54, 0x58, 0x54] :=
  (roundTrip83_iff _ (by decide +kernel)).mpr (by decide)

/-- The name `AB.` is taken for a short name, comes back as `ab`, and does not match itself. -/
theorem dot_lost :
    needsLfn [0x41, 0x42, 0x2E] = false ∧
    decode83Name (encode83Name [0x41, 0x42, 0x2E]) = [0x61, 0x62] ∧
    strcasecmp83 (encode83Name [0x41, 0x42, 0x2E]) [0x41, 0x42, 0x2E] = false ∧
    ¬ RoundTrip83 [0x41, 0x42, 0x2E] := by
  have hcompare : strcasecmp83 (encode83Name [0x41, 0x42, 0x2E]) [0x41, 0x42, 0x2E] = false := by
    decide +kernel
  refine ⟨by decide +kernel, by decide +kernel, hcompare, fun h => ?_⟩
  have hmatched := h.matched [0x41, 0x42, 0x2E] (by decide)
  rw [hcompare] at hmatched
  cases hmatched

end Microkernel
