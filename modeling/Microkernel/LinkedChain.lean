/-
# Linked chains and reachability

Chains of cells given by a successor function, as the list of their cells, how a chain is linked in a
table, ways along a relation when a point is moved, and the cells that links lead to.  Nothing here
is about a file system.
-/
import Mathlib

/-! ## Chains -/

/-- The cells from `c` on in order; the successor of the last one ends the chain. -/
inductive LinkedChain (next : ℕ → ℕ) (ended : ℕ → Prop) : ℕ → List ℕ → Prop
  | last {c : ℕ} : ended (next c) → LinkedChain next ended c [c]
  | cons {c : ℕ} {l : List ℕ} :
      ¬ ended (next c) → LinkedChain next ended (next c) l → LinkedChain next ended c (c :: l)

namespace LinkedChain

variable {next next' : ℕ → ℕ} {ended : ℕ → Prop} {c x : ℕ} {l l' : List ℕ}

/-- A chain begins with its first cell. -/
theorem head_mem (h : LinkedChain next ended c l) : c ∈ l := by
  cases h <;> exact List.mem_cons_self

/-- A cell is the start of one chain only. -/
theorem unique (h : LinkedChain next ended c l) (h' : LinkedChain next ended c l') : l = l' := by
  induction h generalizing l' with
  | last hend =>
    cases h' with
    | last => rfl
    | cons hne => exact absurd hend hne
  | cons hne _ ih =>
    cases h' with
    | last hend => exact absurd hend hne
    | cons _ h' => rw [ih h']

/-- The part of a chain from one of its cells on. -/
theorem suffix (h : LinkedChain next ended c l) (hx : x ∈ l) :
    ∃ l', l' <:+ l ∧ LinkedChain next ended x l' := by
  induction h with
  | last hend =>
    obtain rfl : x = _ := List.mem_singleton.mp hx
    exact ⟨_, List.suffix_refl _, last hend⟩
  | cons hne hl ih =>
    rcases List.mem_cons.mp hx with rfl | hx
    · exact ⟨_, List.suffix_refl _, cons hne hl⟩
    · obtain ⟨l', hsuffix, hl'⟩ := ih hx
      exact ⟨l', hsuffix.trans (List.suffix_cons _ _), hl'⟩

/-- No cell comes twice: a chain that came back to a cell would have no end. -/
theorem nodup (h : LinkedChain next ended c l) : l.Nodup := by
  induction h with
  | last => exact List.nodup_singleton _
  | @cons c l hne hl ih =>
    refine List.nodup_cons.mpr ⟨?_, ih⟩
    intro hc
    obtain ⟨l', hsuffix, hl'⟩ := hl.suffix hc
    have hsame : l' = c :: l := hl'.unique (cons hne hl)
    have hlen := hsuffix.length_le
    rw [hsame, List.length_cons] at hlen
    omega

/-- A chain depends on the successors of its cells only. -/
theorem congr (h : LinkedChain next ended c l) (heq : ∀ x ∈ l, next' x = next x) :
    LinkedChain next' ended c l := by
  induction h with
  | last hend =>
    refine last ?_
    rw [heq _ List.mem_cons_self]
    exact hend
  | @cons c l hne _ ih =>
    have hc := heq c List.mem_cons_self
    have ih := ih fun x hx => heq x (List.mem_cons_of_mem _ hx)
    rw [← hc] at hne ih
    exact cons hne ih

/-- A chain with another way to say that it ends. -/
theorem congr_ended {ended' : ℕ → Prop} (h : LinkedChain next ended c l)
    (heq : ∀ x ∈ l, ended' (next x) ↔ ended (next x)) : LinkedChain next ended' c l := by
  induction h with
  | last hend => exact last ((heq _ List.mem_cons_self).mpr hend)
  | @cons c l hne _ ih =>
    refine cons (fun hend => hne ((heq c List.mem_cons_self).mp hend)) (ih fun x hx => ?_)
    exact heq x (List.mem_cons_of_mem _ hx)

end LinkedChain

/-! ## Chains in a table -/

/-- The table with the cells of a list linked one after the other and `stop` behind the last. -/
def linkCells (t : ℕ → ℕ) (stop : ℕ) : List ℕ → ℕ → ℕ
  | [] => t
  | c :: l => Function.update (linkCells t stop l) c (l.headD stop)

section LinkCells

variable {t : ℕ → ℕ} {stop c p q x : ℕ} {l : List ℕ}

theorem linkCells_of_not_mem (h : x ∉ l) : linkCells t stop l x = t x := by
  induction l with
  | nil => rfl
  | cons c l ih =>
    rw [List.mem_cons, not_or] at h
    obtain ⟨hc, hl⟩ := h
    unfold linkCells
    rw [Function.update_of_ne hc]
    exact ih hl

/-- The entry of a linked cell is another one or the end. -/
theorem linkCells_of_mem (h : x ∈ l) : linkCells t stop l x = stop ∨ linkCells t stop l x ∈ l := by
  induction l with
  | nil => cases h
  | cons c l ih =>
    unfold linkCells
    by_cases hc : x = c
    · rw [hc, Function.update_self]
      cases l with
      | nil => exact Or.inl rfl
      | cons b l => exact Or.inr (List.mem_cons_of_mem _ List.mem_cons_self)
    · rw [Function.update_of_ne hc]
      have hl := (List.mem_cons.mp h).resolve_left hc
      exact (ih hl).imp id (List.mem_cons_of_mem _)

/-- The linked cells are a chain. -/
theorem linkedChain_linkCells (h : (c :: l).Nodup) (hstop : stop ∉ c :: l) :
    LinkedChain (linkCells t stop (c :: l)) (· = stop) c (c :: l) := by
  induction l generalizing c with
  | nil =>
    apply LinkedChain.last
    exact Function.update_self ..
  | cons b l ih =>
    obtain ⟨hc, hl⟩ := List.nodup_cons.mp h
    have hnext : linkCells t stop (c :: b :: l) c = b := Function.update_self ..
    have hrest := ih hl fun hmem => hstop (List.mem_cons_of_mem _ hmem)
    apply LinkedChain.cons
    · rw [hnext]
      rintro rfl
      exact hstop (List.mem_cons_of_mem _ List.mem_cons_self)
    · rw [hnext]
      refine hrest.congr fun x hx => Function.update_of_ne ?_ ..
      rintro rfl
      exact hc hx

/-- A new last cell: it gets the end, and the cell before it the link. -/
theorem linkCells_snoc (h : (l ++ [p] ++ [q]).Nodup) :
    linkCells t stop (l ++ [p] ++ [q]) =
      Function.update (Function.update (linkCells t stop (l ++ [p])) q stop) p q := by
  induction l with
  | nil =>
    have hne : p ≠ q := by
      rintro rfl
      simp at h
    show Function.update (Function.update t q stop) p q =
      Function.update (Function.update (Function.update t p stop) q stop) p q
    rw [Function.update_comm hne, Function.update_idem]
  | cons a l ih =>
    have ih := ih (List.nodup_cons.mp h).2
    have hq : a ≠ q := by
      rintro rfl
      simp at h
    have hp : a ≠ p := by
      rintro rfl
      simp at h
    have hhead : (l ++ [p] ++ [q]).headD stop = (l ++ [p]).headD stop := by
      cases l <;> rfl
    show Function.update (linkCells t stop (l ++ [p] ++ [q])) a ((l ++ [p] ++ [q]).headD stop) =
      Function.update (Function.update
        (Function.update (linkCells t stop (l ++ [p])) a ((l ++ [p]).headD stop)) q stop) p q
    rw [ih, hhead, Function.update_comm hp.symm, Function.update_comm hq.symm]

end LinkCells

/-! ## Reachability -/

namespace Relation

variable {α : Type}

/-- Moving a point under one from which it is not reached keeps all ways up to the root. -/
theorem reflTransGen_move {up up' : α → Option α} {s q root i : α}
    (hother : ∀ j, j ≠ s → up' j = up j) (hs : up' s = some q)
    (hq : ReflTransGen (fun j p => up j = some p) q root)
    (hns : ¬ ReflTransGen (fun j p => up j = some p) q s)
    (hi : ReflTransGen (fun j p => up j = some p) i root) :
    ReflTransGen (fun j p => up' j = some p) i root := by
  -- The way up from the new place does not come by the point that moves.
  have hway : ∀ j, ReflTransGen (fun j p => up j = some p) j root →
      ReflTransGen (fun j p => up j = some p) q j →
      ReflTransGen (fun j p => up' j = some p) j root := by
    intro j hj
    induction hj using ReflTransGen.head_induction_on with
    | refl => exact fun _ => .refl
    | @head j k hjk _ ih =>
      intro hqj
      have hne : j ≠ s := by
        rintro rfl
        exact hns hqj
      exact .head ((hother j hne).trans hjk) (ih (hqj.tail hjk))
  induction hi using ReflTransGen.head_induction_on with
  | refl => exact .refl
  | @head j k hjk _ ih =>
    by_cases hj : j = s
    · subst hj
      exact .head hs (hway q hq .refl)
    · exact .head ((hother j hj).trans hjk) ih

end Relation

/-! ## Following links -/

section LinkReach

variable {α : Type} {next : α → α} {link : α → Prop} {c x : α}

/-- The cells that the links from `c` on lead to; the way ends where there is no link. -/
def LinkReach (next : α → α) (link : α → Prop) (c x : α) : Prop :=
  link c ∧ Relation.ReflTransGen (fun a b => next a = b ∧ link b) c x

theorem not_linkReach (h : ¬ link c) : ¬ LinkReach next link c x := fun hreach => h hreach.1

/-- A cell on the way is a link. -/
theorem LinkReach.is_link (h : LinkReach next link c x) : link x := by
  obtain ⟨hc, hway⟩ := h
  cases hway with
  | refl => exact hc
  | tail _ hstep => exact hstep.2

/-- **One link further**: when the first cell is unlinked, the others are reached from the second
one, also when the way comes back to the first. -/
theorem linkReach_update [DecidableEq α] {stop : α} (hstop : ¬ link stop) (hc : link c) :
    LinkReach next link c x ↔ x = c ∨ LinkReach (Function.update next c stop) link (next c) x := by
  constructor
  · rintro ⟨-, hway⟩
    induction hway with
    | refl => exact Or.inl rfl
    | @tail a b _ hstep ih =>
      obtain ⟨rfl, hlink⟩ := hstep
      refine Or.inr ?_
      rcases ih with rfl | ⟨hnext, hway⟩
      · exact ⟨hlink, .refl⟩
      · by_cases ha : a = c
        · rw [ha] at hlink ⊢
          exact ⟨hlink, .refl⟩
        · exact ⟨hnext, hway.tail ⟨Function.update_of_ne ha _ _, hlink⟩⟩
  · rintro (rfl | ⟨hnext, hway⟩)
    · exact ⟨hc, .refl⟩
    · refine ⟨hc, ?_⟩
      induction hway with
      | refl => exact .single ⟨rfl, hnext⟩
      | @tail a b _ hstep ih =>
        obtain ⟨heq, hlink⟩ := hstep
        by_cases ha : a = c
        · -- the first cell has no link any more
          rw [ha, Function.update_self] at heq
          exact absurd (heq ▸ hlink) hstop
        · rw [Function.update_of_ne ha] at heq
          exact ih.tail ⟨heq, hlink⟩

end LinkReach
