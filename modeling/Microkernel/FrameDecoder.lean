/-
# Decoders of frames

A decoder gets a stream item by item.  It collects frames of `k` items and acts on each complete one; an
item that cannot be the first of a frame is skipped where a frame should begin.  What it does is what
it would do with the whole stream cut into frames.  Items, frames and actions are arbitrary.
-/
import Mathlib

namespace FrameDecoder

variable {α σ : Type*} (k : ℕ) (ok : α → Bool) (act : σ → List α → σ)

/-- One item, on the items collected so far and the state. -/
def step (p : List α × σ) (a : α) : List α × σ :=
  if p.1 = [] ∧ ok a = false then p
  else if p.1.length + 1 = k then ([], act p.2 (p.1 ++ [a]))
  else (p.1 ++ [a], p.2)

/-- The frames of a stream, and what is left at its end. -/
def frames : List α → List (List α) × List α
  | [] => ([], [])
  | a :: as =>
    if ok a = false then frames as
    else if _hfull : k ≤ (a :: as).length ∧ 0 < k then
      let rest := frames ((a :: as).drop k)
      ((a :: as).take k :: rest.1, rest.2)
    else ([], a :: as)
termination_by as => as.length
decreasing_by
  · exact Nat.lt_succ_self _
  · rw [List.length_drop]
    exact Nat.sub_lt (Nat.succ_pos _) _hfull.2

variable {k ok act}

/-- Items behind the first of a frame are collected, until the frame is complete. -/
theorem foldl_step_pending {as q : List α} (s : σ) (hq : q ≠ []) (hlen : q.length + as.length < k) :
    as.foldl (step k ok act) (q, s) = (q ++ as, s) := by
  induction as generalizing q with
  | nil => rw [List.foldl_nil, List.append_nil]
  | cons a as ih =>
    rw [List.length_cons] at hlen
    have hstep : step k ok act (q, s) a = (q ++ [a], s) := by
      unfold step
      dsimp only
      rw [if_neg fun h => hq h.1, if_neg (by omega)]
    rw [List.foldl_cons, hstep, ih (List.append_ne_nil_of_right_ne_nil _ (List.cons_ne_nil _ _)),
      List.append_assoc, List.singleton_append]
    rw [List.length_append, List.length_singleton]
    omega

/-- A frame is acted on when its last item comes. -/
theorem foldl_step_frame {a : α} {as : List α} (s : σ) (ha : ok a = true)
    (hlen : as.length + 1 = k) : (a :: as).foldl (step k ok act) ([], s) = ([], act s (a :: as)) := by
  have hfirst : ¬ (([] : List α) = [] ∧ ok a = false) := by
    rw [ha]
    exact fun h => Bool.false_ne_true h.2.symm
  rw [List.foldl_cons]
  rcases List.eq_nil_or_concat as with rfl | ⟨init, b, rfl⟩
  · have hstep : step k ok act ([], s) a = ([], act s [a]) := by
      unfold step
      rw [if_neg hfirst, if_pos hlen]
      rfl
    rw [hstep, List.foldl_nil]
  · rw [List.length_concat] at hlen
    have hstep : step k ok act ([], s) a = ([a], s) := by
      unfold step
      rw [if_neg hfirst, if_neg (by rw [List.length_nil]; omega)]
      rfl
    rw [hstep, List.concat_eq_append, List.foldl_append,
      foldl_step_pending s (List.cons_ne_nil _ _) (by rw [List.length_singleton]; omega),
      List.foldl_cons, List.foldl_nil]
    unfold step
    dsimp only
    rw [if_neg fun h => absurd h.1 (List.cons_ne_nil _ _), if_pos (by
      rw [List.length_append, List.length_singleton]
      omega)]
    rfl

/-- **The decoder does what the frames of the stream say**, by induction on the stream. -/
theorem foldl_step_eq (hk : 0 < k) (stream : List α) (s : σ) :
    stream.foldl (step k ok act) ([], s) =
      ((frames k ok stream).2, (frames k ok stream).1.foldl act s) := by
  induction hlen : stream.length using Nat.strong_induction_on generalizing stream s with
  | _ n ih =>
    cases stream with
    | nil =>
      unfold frames
      rfl
    | cons a as =>
      rw [List.length_cons] at hlen
      unfold frames
      by_cases ha : ok a = false
      · have hstep : step k ok act ([], s) a = ([], s) := if_pos ⟨rfl, ha⟩
        rw [if_pos ha, List.foldl_cons, hstep, ih as.length (by omega) as s rfl]
      · have ha' : ok a = true := Bool.eq_true_of_not_eq_false ha
        rw [if_neg ha]
        by_cases hfull : k ≤ (a :: as).length ∧ 0 < k
        · -- The first `k` items are a frame.
          rw [dif_pos hfull]
          obtain ⟨j, rfl⟩ : ∃ j, k = j + 1 := ⟨k - 1, by omega⟩
          have hsplit : a :: as = a :: as.take j ++ (a :: as).drop (j + 1) := by
            rw [List.drop_succ_cons, List.cons_append, List.take_append_drop]
          have htake : (as.take j).length + 1 = j + 1 := by
            rw [List.length_take_of_le (Nat.le_of_succ_le_succ hfull.1)]
          have hshort : ((a :: as).drop (j + 1)).length < n := by
            rw [List.length_drop, List.length_cons]
            omega
          rw [hsplit, List.foldl_append, foldl_step_frame s ha' htake, ← hsplit,
            ih _ hshort _ _ rfl]
          rfl
        · -- The stream ends in the middle of a frame.
          rw [dif_neg hfull]
          have hlt : as.length + 1 < k := by
            rw [List.length_cons] at hfull
            omega
          have hstep : step k ok act ([], s) a = ([a], s) := by
            unfold step
            rw [if_neg fun h => ha h.2, if_neg (by rw [List.length_nil]; omega)]
            rfl
          rw [List.foldl_cons, hstep, foldl_step_pending s (List.cons_ne_nil _ _)
            (by rw [List.length_singleton]; omega)]
          rfl

/-- Frames one behind the other are the frames of their stream. -/
theorem frames_flatten (hk : 0 < k) {fs : List (List α)}
    (h : ∀ f ∈ fs, f.length = k ∧ ∀ a ∈ f.head?, ok a = true) :
    frames k ok fs.flatten = (fs, []) := by
  induction fs with
  | nil =>
    rw [List.flatten_nil]
    unfold frames
    rfl
  | cons f fs ih =>
    obtain ⟨hlen, hfirst⟩ := h f List.mem_cons_self
    cases f with
    | nil => exact absurd hlen.symm hk.ne'
    | cons a as =>
      have ha : ok a = true := hfirst a rfl
      have hfull : k ≤ (a :: (as ++ fs.flatten)).length ∧ 0 < k := by
        rw [← List.cons_append, List.length_append, hlen]
        exact ⟨Nat.le_add_right _ _, hk⟩
      rw [List.flatten_cons, List.cons_append]
      unfold frames
      rw [ha, if_neg (fun h => Bool.false_ne_true h.symm), dif_pos hfull, ← List.cons_append, ← hlen,
        List.drop_left, List.take_left, hlen, ih fun f hf => h f (List.mem_cons_of_mem _ hf)]

end FrameDecoder
