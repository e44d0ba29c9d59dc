/-
# Tables of slots

A table with a fixed number of slots, each of them free or with a key and a value, that is searched from
its start.  As long as no key is in two slots, it is a map with room for as many keys as there are
slots.  Keys and values are arbitrary.
-/
import Mathlib

/-! ## Maps with bounded room -/

/-- A map with at most `n` keys. -/
structure BoundedMap (n : ℕ) (κ β : Type*) where
  lookup : κ → Option β
  keys : Finset κ
  mem_keys : ∀ k, k ∈ keys ↔ lookup k ≠ none
  card_le : keys.card ≤ n

namespace BoundedMap

variable {κ β : Type*} [DecidableEq κ] {n : ℕ} {m : BoundedMap n κ β} {k : κ} {v : β}

theorem mem_keys_update (m : BoundedMap n κ β) (k : κ) (v : β) (k' : κ) :
    k' ∈ insert k m.keys ↔ Function.update m.lookup k (some v) k' ≠ none := by
  rw [Finset.mem_insert, m.mem_keys]
  by_cases hk : k' = k
  · subst hk
    simp
  · simp [hk]

theorem mem_keys_erase (m : BoundedMap n κ β) (k k' : κ) :
    k' ∈ m.keys.erase k ↔ Function.update m.lookup k none k' ≠ none := by
  rw [Finset.mem_erase, m.mem_keys]
  by_cases hk : k' = k
  · subst hk
    simp
  · simp [hk]

theorem card_insert_le (m : BoundedMap n κ β) (h : k ∈ m.keys ∨ m.keys.card < n) :
    (insert k m.keys).card ≤ n := by
  rcases h with hmem | hroom
  · rw [Finset.insert_eq_of_mem hmem]
    exact m.card_le
  · exact (Finset.card_insert_le k m.keys).trans hroom

/-- A new value for a key that is there or for which there is room. -/
def put (k : κ) (v : β) (m : BoundedMap n κ β) : BoundedMap n κ β :=
  if h : k ∈ m.keys ∨ m.keys.card < n then
    ⟨Function.update m.lookup k (some v), insert k m.keys, m.mem_keys_update k v,
      m.card_insert_le h⟩
  else m

/-- A new key, if it is not there and there is room for it. -/
def add (k : κ) (v : β) (m : BoundedMap n κ β) : BoundedMap n κ β :=
  if k ∈ m.keys then m else m.put k v

/-- Take a key out. -/
def remove (k : κ) (m : BoundedMap n κ β) : BoundedMap n κ β :=
  ⟨Function.update m.lookup k none, m.keys.erase k, m.mem_keys_erase k,
    (Finset.card_erase_le).trans m.card_le⟩

/-- The map without keys. -/
def empty (n : ℕ) (κ β : Type*) : BoundedMap n κ β :=
  ⟨fun _ => none, ∅, fun _ => iff_of_false (Finset.notMem_empty _) (not_not_intro rfl),
    Nat.zero_le n⟩

end BoundedMap

/-! ## Tables -/

/-- Slots that are free or have a key and a value. -/
abbrev SlotTable (n : ℕ) (κ β : Type*) := Fin n → Option (κ × β)

namespace SlotTable

variable {κ β : Type*} {n : ℕ} {t : SlotTable n κ β} {k : κ} {v : β} {i : Fin n}

/-- The first slot with a key. -/
def find [DecidableEq κ] (t : SlotTable n κ β) (k : κ) : Option (Fin n) :=
  (List.finRange n).find? fun i => (t i).any fun e => decide (e.1 = k)

/-- The first free slot. -/
def free (t : SlotTable n κ β) : Option (Fin n) := (List.finRange n).find? fun i => (t i).isNone

/-- The value of a key. -/
def get [DecidableEq κ] (t : SlotTable n κ β) (k : κ) : Option β :=
  ((t.find k).bind t).map Prod.snd

/-- A new value in the slot of the key, or in the first free slot. -/
def put [DecidableEq κ] (k : κ) (v : β) (t : SlotTable n κ β) : SlotTable n κ β :=
  match t.find k with
  | some i => Function.update t i (some (k, v))
  | none =>
    match t.free with
    | some i => Function.update t i (some (k, v))
    | none => t

/-- The slot of the key becomes free. -/
def remove [DecidableEq κ] (k : κ) (t : SlotTable n κ β) : SlotTable n κ β :=
  match t.find k with
  | some i => Function.update t i none
  | none => t

/-- The number of slots that are not free. -/
def count (t : SlotTable n κ β) : ℕ := (List.finRange n).countP fun i => (t i).isSome

/-- No key is in two slots. -/
def Unique (t : SlotTable n κ β) : Prop :=
  ∀ i j k v v', t i = some (k, v) → t j = some (k, v') → i = j

/-- The table has what the map has. -/
def Represents (t : SlotTable n κ β) (m : BoundedMap n κ β) : Prop :=
  t.Unique ∧ ∀ k v, m.lookup k = some v ↔ ∃ i, t i = some (k, v)

/-! ### Searching -/

theorem find_eq_some [DecidableEq κ] (h : t.find k = some i) : ∃ v, t i = some (k, v) := by
  have hi := List.find?_some h
  obtain ⟨⟨k', v⟩, he, hk⟩ := (Option.any_eq_true _ _).mp hi
  exact ⟨v, by rw [he, ← of_decide_eq_true hk]⟩

theorem find_eq_none [DecidableEq κ] : t.find k = none ↔ ∀ i v, t i ≠ some (k, v) := by
  unfold find
  rw [List.find?_eq_none]
  constructor
  · intro h i v he
    exact h i (List.mem_finRange i) (by rw [he]; exact decide_eq_true rfl)
  · intro h i _ hany
    obtain ⟨⟨k', v⟩, he, hk⟩ := (Option.any_eq_true _ _).mp hany
    exact h i v (by rw [he, ← of_decide_eq_true hk])

/-- Where every key is in one slot, the search finds it. -/
theorem find_eq_of_unique [DecidableEq κ] (hu : t.Unique) (h : t i = some (k, v)) : t.find k = some i := by
  cases hfind : t.find k with
  | none => exact absurd h (find_eq_none.mp hfind i v)
  | some j =>
    obtain ⟨v', hj⟩ := find_eq_some hfind
    rw [hu i j k v v' h hj]

theorem get_eq_some [DecidableEq κ] (hu : t.Unique) : t.get k = some v ↔ ∃ i, t i = some (k, v) := by
  unfold get
  constructor
  · intro h
    obtain ⟨⟨k', v'⟩, hbind, hv⟩ := Option.map_eq_some_iff.mp h
    obtain ⟨i, hfind, hi⟩ := Option.bind_eq_some_iff.mp hbind
    obtain ⟨w, hw⟩ := find_eq_some hfind
    rw [hi] at hw
    cases hw
    cases hv
    exact ⟨i, hi⟩
  · rintro ⟨i, hi⟩
    rw [find_eq_of_unique hu hi, Option.bind_some, hi]
    rfl

theorem free_eq_some (h : t.free = some i) : t i = none :=
  Option.isNone_iff_eq_none.mp (List.find?_some (p := fun i => (t i).isNone) h)

theorem free_eq_none : t.free = none ↔ ∀ i, t i ≠ none := by
  unfold free
  rw [List.find?_eq_none]
  constructor
  · intro h i hi
    exact h i (List.mem_finRange i) (by rw [hi]; rfl)
  · intro h i _ hi
    exact h i (Option.isNone_iff_eq_none.mp hi)

namespace Represents

variable {m : BoundedMap n κ β}

/-- **A lookup** gives what the map has. -/
theorem get_eq [DecidableEq κ] (h : Represents t m) (k : κ) : t.get k = m.lookup k := by
  apply Option.ext
  intro v
  rw [get_eq_some h.1, h.2]

theorem mem_keys (h : Represents t m) : k ∈ m.keys ↔ ∃ i v, t i = some (k, v) := by
  rw [m.mem_keys, Option.ne_none_iff_exists']
  constructor
  · rintro ⟨v, hv⟩
    obtain ⟨i, hi⟩ := (h.2 k v).mp hv
    exact ⟨i, v, hi⟩
  · rintro ⟨i, v, hi⟩
    exact ⟨v, (h.2 k v).mpr ⟨i, hi⟩⟩

/-- **Every key has one slot**: there are as many of these as of the keys. -/
theorem count_eq (h : Represents t m) : t.count = m.keys.card := by
  have hcount : t.count = (Finset.univ.filter fun i => (t i).isSome).card := by
    unfold count
    rw [List.countP_eq_length_filter, Finset.card_def, Finset.filter_val, Fin.univ_def,
      Multiset.filter_coe, Multiset.coe_card]
    simp only [Bool.decide_eq_true]
  rw [hcount]
  refine Finset.card_bij (fun i hi => ((t i).get (Finset.mem_filter.mp hi).2).1) ?_ ?_ ?_
  · intro i hi
    exact h.mem_keys.mpr ⟨i, _, (Option.some_get (Finset.mem_filter.mp hi).2).symm⟩
  · intro i hi j hj heq
    obtain ⟨⟨k, v⟩, hti⟩ := Option.isSome_iff_exists.mp (Finset.mem_filter.mp hi).2
    obtain ⟨⟨k', v'⟩, htj⟩ := Option.isSome_iff_exists.mp (Finset.mem_filter.mp hj).2
    simp only [hti, htj, Option.get_some] at heq
    rw [← heq] at htj
    exact h.1 i j k v v' hti htj
  · intro k hk
    obtain ⟨i, v, hi⟩ := h.mem_keys.mp hk
    have hsome : (t i).isSome = true := by
      rw [hi]
      rfl
    refine ⟨i, Finset.mem_filter.mpr ⟨Finset.mem_univ i, hsome⟩, ?_⟩
    simp only [hi, Option.get_some]

/-- There is a free slot exactly if there is room in the map. -/
theorem free_eq_none_iff (h : Represents t m) : t.free = none ↔ ¬ m.keys.card < n := by
  rw [free_eq_none, ← h.count_eq]
  unfold count
  have hle := List.countP_le_length (p := fun i => (t i).isSome) (l := List.finRange n)
  rw [List.length_finRange] at hle
  constructor
  · intro hall hlt
    have heq : (List.finRange n).countP (fun i => (t i).isSome) = (List.finRange n).length :=
      List.countP_eq_length.mpr fun i _ => Option.isSome_iff_ne_none.mpr (hall i)
    rw [List.length_finRange] at heq
    omega
  · intro hfull i hi
    have heq : (List.finRange n).countP (fun i => (t i).isSome) = (List.finRange n).length := by
      rw [List.length_finRange]
      omega
    have hsome := List.countP_eq_length.mp heq i (List.mem_finRange i)
    rw [hi] at hsome
    exact absurd hsome Bool.false_ne_true

/-- A slot that is free or has the key gets an entry for the key. -/
theorem update [DecidableEq κ] (h : Represents t m) (hslot : ∀ k' v', t i = some (k', v') → k' = k)
    (hother : ∀ j v', t j = some (k, v') → j = i)
    {m' : BoundedMap n κ β} (hm' : m'.lookup = Function.update m.lookup k (some v)) :
    Represents (Function.update t i (some (k, v))) m' := by
  -- Which entries there are afterwards.
  have hentry : ∀ j k' v', Function.update t i (some (k, v)) j = some (k', v') ↔
      (j = i ∧ k' = k ∧ v' = v) ∨ (k' ≠ k ∧ t j = some (k', v')) := by
    intro j k' v'
    by_cases hj : j = i
    · subst hj
      rw [Function.update_self, Option.some.injEq, Prod.mk.injEq]
      constructor
      · rintro ⟨rfl, rfl⟩
        exact Or.inl ⟨rfl, rfl, rfl⟩
      · rintro (⟨-, rfl, rfl⟩ | ⟨hne, he⟩)
        · exact ⟨rfl, rfl⟩
        · exact absurd (hslot k' v' he) hne
    · rw [Function.update_of_ne hj]
      constructor
      · intro he
        refine Or.inr ⟨?_, he⟩
        rintro rfl
        exact hj (hother j v' he)
      · rintro (⟨heq, -⟩ | ⟨-, he⟩)
        · exact absurd heq hj
        · exact he
  refine ⟨?_, ?_⟩
  · intro j j' k' v₁ v₂ h₁ h₂
    rcases (hentry j k' v₁).mp h₁ with ⟨rfl, rfl, -⟩ | ⟨hne, he⟩
    · rcases (hentry j' k' v₂).mp h₂ with ⟨rfl, -⟩ | ⟨hne, -⟩
      · rfl
      · exact absurd rfl hne
    · rcases (hentry j' k' v₂).mp h₂ with ⟨-, heq, -⟩ | ⟨-, he'⟩
      · exact absurd heq hne
      · exact h.1 j j' k' v₁ v₂ he he'
  · intro k' v'
    rw [hm']
    by_cases hk : k' = k
    · subst hk
      rw [Function.update_self]
      constructor
      · intro heq
        cases heq
        exact ⟨i, (hentry i k' v).mpr (Or.inl ⟨rfl, rfl, rfl⟩)⟩
      · rintro ⟨j, hj⟩
        rcases (hentry j k' v').mp hj with ⟨-, -, rfl⟩ | ⟨hne, -⟩
        · rfl
        · exact absurd rfl hne
    · rw [Function.update_of_ne hk, h.2]
      constructor
      · rintro ⟨j, hj⟩
        exact ⟨j, (hentry j k' v').mpr (Or.inr ⟨hk, hj⟩)⟩
      · rintro ⟨j, hj⟩
        rcases (hentry j k' v').mp hj with ⟨-, heq, -⟩ | ⟨-, he⟩
        · exact absurd heq hk
        · exact ⟨j, he⟩

/-- **Putting** a key and a value in the table puts them in the map. -/
theorem put [DecidableEq κ] (h : Represents t m) (k : κ) (v : β) : Represents (t.put k v) (m.put k v) := by
  unfold SlotTable.put BoundedMap.put
  cases hfind : t.find k with
  | some i =>
    obtain ⟨w, hi⟩ := find_eq_some hfind
    have hmem : k ∈ m.keys := h.mem_keys.mpr ⟨i, w, hi⟩
    rw [dif_pos (Or.inl hmem)]
    refine h.update ?_ ?_ rfl
    · intro k' v' he
      rw [hi] at he
      cases he
      rfl
    · intro j v' hj
      exact h.1 j i k v' w hj hi
  | none =>
    have hnone := find_eq_none.mp hfind
    have hmem : k ∉ m.keys := by
      intro hmem
      obtain ⟨i, w, hi⟩ := h.mem_keys.mp hmem
      exact hnone i w hi
    cases hfree : t.free with
    | some i =>
      have hi := free_eq_some hfree
      have hroom : m.keys.card < n := by
        by_contra hfull
        rw [h.free_eq_none_iff.mpr hfull] at hfree
        cases hfree
      rw [dif_pos (Or.inr hroom)]
      refine h.update ?_ ?_ rfl
      · intro k' v' he
        rw [hi] at he
        cases he
      · intro j v' hj
        exact absurd hj (hnone j v')
    | none =>
      have hfull := h.free_eq_none_iff.mp hfree
      rw [dif_neg (not_or.mpr ⟨hmem, hfull⟩)]
      exact h

/-- **Taking a key out** of the table takes it out of the map. -/
theorem remove [DecidableEq κ] (h : Represents t m) (k : κ) : Represents (t.remove k) (m.remove k) := by
  unfold SlotTable.remove BoundedMap.remove
  cases hfind : t.find k with
  | none =>
    refine ⟨h.1, fun k' v' => ?_⟩
    show Function.update m.lookup k none k' = some v' ↔ _
    by_cases hk : k' = k
    · subst hk
      rw [Function.update_self]
      constructor
      · intro heq
        cases heq
      · rintro ⟨i, hi⟩
        exact absurd hi (find_eq_none.mp hfind i v')
    · rw [Function.update_of_ne hk]
      exact h.2 k' v'
  | some i =>
    obtain ⟨w, hi⟩ := find_eq_some hfind
    have hentry : ∀ j k' v', Function.update t i none j = some (k', v') ↔
        k' ≠ k ∧ t j = some (k', v') := by
      intro j k' v'
      by_cases hj : j = i
      · subst hj
        rw [Function.update_self]
        constructor
        · intro heq
          cases heq
        · rintro ⟨hne, he⟩
          rw [hi] at he
          cases he
          exact absurd rfl hne
      · rw [Function.update_of_ne hj]
        constructor
        · intro he
          refine ⟨?_, he⟩
          rintro rfl
          exact hj (h.1 j i k' v' w he hi)
        · rintro ⟨-, he⟩
          exact he
    refine ⟨?_, ?_⟩
    · intro j j' k' v₁ v₂ h₁ h₂
      exact h.1 j j' k' v₁ v₂ ((hentry j k' v₁).mp h₁).2 ((hentry j' k' v₂).mp h₂).2
    · intro k' v'
      show Function.update m.lookup k none k' = some v' ↔ _
      by_cases hk : k' = k
      · subst hk
        rw [Function.update_self]
        constructor
        · intro heq
          cases heq
        · rintro ⟨j, hj⟩
          exact absurd rfl ((hentry j k' v').mp hj).1
      · rw [Function.update_of_ne hk, h.2]
        constructor
        · rintro ⟨j, hj⟩
          exact ⟨j, (hentry j k' v').mpr ⟨hk, hj⟩⟩
        · rintro ⟨j, hj⟩
          exact ⟨j, ((hentry j k' v').mp hj).2⟩

end Represents

/-- A table without entries is the map without keys. -/
theorem represents_empty : Represents (fun _ => none : SlotTable n κ β) (BoundedMap.empty n κ β) := by
  refine ⟨?_, ?_⟩
  · intro i j k v v' h
    cases h
  · intro k v
    constructor
    · intro h
      cases h
    · rintro ⟨i, hi⟩
      cases hi

end SlotTable
