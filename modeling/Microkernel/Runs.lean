/-
# Runs of labelled transition systems

General facts about finite runs: a run is a list of labels that leads from one state
to another, and what every step preserves every run preserves.  Nothing here is
about the kernel.
-/
import Mathlib

variable {σ α : Type*}

/-- `Run R s as t`: the steps labelled `as` lead from `s` to `t`. -/
inductive Run (R : σ → α → σ → Prop) : σ → List α → σ → Prop where
  | nil (s : σ) : Run R s [] s
  | cons {s t u : σ} {a : α} {as : List α} : R s a t → Run R t as u → Run R s (a :: as) u

namespace Run

variable {R R' : σ → α → σ → Prop} {s t u : σ} {a : α} {as bs : List α}

/-- **The invariant rule.**  What every step preserves holds at the end of every run
that starts with it. -/
theorem invariant {I : σ → Prop} (hstep : ∀ s a t, R s a t → I s → I t)
    (h : Run R s as t) (hs : I s) : I t := by
  induction h with
  | nil s => exact hs
  | cons hR _ ih => exact ih (hstep _ _ _ hR hs)

theorem append (h₁ : Run R s as t) (h₂ : Run R t bs u) : Run R s (as ++ bs) u := by
  induction h₁ with
  | nil s => exact h₂
  | cons hR _ ih => exact .cons hR (ih h₂)

theorem snoc (h : Run R s as t) (hR : R t a u) : Run R s (as ++ [a]) u :=
  h.append (.cons hR (.nil u))

/-- Induction on the last step of a run, for statements about the run so far. -/
theorem induction_snoc {C : List α → σ → Prop} (hnil : C [] s)
    (hsnoc : ∀ as t a u, Run R s as t → R t a u → C as t → C (as ++ [a]) u)
    (h : Run R s as t) : C as t := by
  have hgen : ∀ {bs t v}, Run R t bs v → ∀ cs, Run R s cs t → C cs t → C (cs ++ bs) v := by
    intro bs t v h
    induction h with
    | nil t =>
      intro cs _ hc
      rw [List.append_nil]
      exact hc
    | cons hR _ ih =>
      intro cs hrun hc
      rw [List.append_cons]
      exact ih _ (hrun.snoc hR) (hsnoc _ _ _ _ hrun hR hc)
  exact hgen h [] (.nil s) hnil

/-- Runs of a system are runs of every system with more steps. -/
theorem mono (hR : ∀ s a t, R s a t → R' s a t) (h : Run R s as t) : Run R' s as t := by
  induction h with
  | nil s => exact .nil s
  | cons hst _ ih => exact .cons (hR _ _ _ hst) ih

/-- **The simulation rule.**  When every step of a system is seen as a step of another one, or is
not seen there, its runs are seen as runs of the other one. -/
theorem simulates {τ β : Type*} {Q : τ → β → τ → Prop} {I : σ → Prop} (view : σ → τ)
    (label : α → Option β) (hkeep : ∀ s a t, R s a t → I s → I t)
    (hview : ∀ s a t, R s a t → I s → (label a = none ∧ view t = view s) ∨
      ∃ b, label a = some b ∧ Q (view s) b (view t))
    (h : Run R s as t) (hs : I s) : Run Q (view s) (as.filterMap label) (view t) := by
  induction h with
  | nil s => exact .nil (view s)
  | @cons s t u a as hR _ ih =>
    have ht := hkeep s a t hR hs
    rcases hview s a t hR hs with ⟨hnone, hsame⟩ | ⟨b, hsome, hQ⟩
    · rw [List.filterMap_cons_none hnone, ← hsame]
      exact ih ht
    · rw [List.filterMap_cons_some hsome]
      exact .cons hQ (ih ht)

/-- A run along an appended list passes through a state between the two parts. -/
theorem append_inv (h : Run R s (as ++ bs) u) : ∃ t, Run R s as t ∧ Run R t bs u := by
  induction as generalizing s with
  | nil => exact ⟨s, .nil s, h⟩
  | cons a as ih =>
    cases h with
    | cons hR h' =>
      obtain ⟨t, h₁, h₂⟩ := ih h'
      exact ⟨t, .cons hR h₁, h₂⟩

/-! ## Systems given by a step function -/

/-- Follow the labels with a partial step function. -/
def follow (step : σ → α → Option σ) : σ → List α → Option σ
  | s, [] => some s
  | s, a :: as => (step s a).bind fun t => follow step t as

/-- What `follow` computes is a run. -/
theorem of_follow {step : σ → α → Option σ} (h : follow step s as = some t) :
    Run (fun s a t => step s a = some t) s as t := by
  induction as generalizing s with
  | nil =>
    cases h
    exact .nil _
  | cons a as ih =>
    rw [follow, Option.bind_eq_some_iff] at h
    obtain ⟨u, hu, h⟩ := h
    exact .cons hu (ih h)

/-- What `follow` computes with the steps that meet a condition is a run of these steps. -/
theorem exists_of_follow {P : σ → α → Prop} [∀ s a, Decidable (P s a)] {step : σ → α → Option σ}
    {Q : σ → Prop} [DecidablePred Q]
    (h : (follow (fun s a => if P s a then step s a else none) s as).any
      (fun t => decide (Q t)) = true) :
    ∃ t, Run (fun s a t => P s a ∧ step s a = some t) s as t ∧ Q t := by
  obtain ⟨t, ht, hQ⟩ := (Option.any_eq_true _ _).mp h
  refine ⟨t, (of_follow ht).mono fun s a t hst => ?_, of_decide_eq_true hQ⟩
  split_ifs at hst with hP
  exact ⟨hP, hst⟩

/-- The same for a step function that is total. -/
theorem exists_of_follow_total {P : σ → α → Prop} [∀ s a, Decidable (P s a)] {f : σ → α → σ}
    {Q : σ → Prop} [DecidablePred Q]
    (h : (follow (fun s a => if P s a then some (f s a) else none) s as).any
      (fun t => decide (Q t)) = true) :
    ∃ t, Run (fun s a t => P s a ∧ f s a = t) s as t ∧ Q t := by
  obtain ⟨t, hrun, hQ⟩ := exists_of_follow h
  exact ⟨t, hrun.mono fun s a t hst => ⟨hst.1, Option.some.inj hst.2⟩, hQ⟩

end Run
