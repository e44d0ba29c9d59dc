/-
# Machines with results

A machine takes one call after the other; each changes its state and has a result.  A machine that
simulates another one call by call has the same results in every run.  Nothing here is about a program.
-/
import Mathlib

namespace Machine

variable {σ τ α β : Type*}

/-- The results of a list of calls, and the state that they lead to. -/
def results (step : σ → α → σ × β) : σ → List α → List β × σ
  | s, [] => ([], s)
  | s, a :: as =>
    let rest := results step (step s a).1 as
    ((step s a).2 :: rest.1, rest.2)

/-- `f` simulates `g` under `R`, for the calls with `P`. -/
def Simulates (P : α → Prop) (R : σ → τ → Prop) (f : σ → α → σ × β) (g : τ → α → τ × β) : Prop :=
  ∀ s t a, P a → R s t → (f s a).2 = (g t a).2 ∧ R (f s a).1 (g t a).1

variable {P : α → Prop} {R : σ → τ → Prop} {f : σ → α → σ × β} {g : τ → α → τ × β}

/-- **A simulation has the same results**, by induction on the calls. -/
theorem Simulates.results_eq (h : Simulates P R f g) {s : σ} {t : τ} (hR : R s t) {as : List α}
    (hP : ∀ a ∈ as, P a) :
    (results f s as).1 = (results g t as).1 ∧ R (results f s as).2 (results g t as).2 := by
  induction as generalizing s t with
  | nil => exact ⟨rfl, hR⟩
  | cons a as ih =>
    obtain ⟨hresult, hnext⟩ := h s t a (hP a List.mem_cons_self) hR
    obtain ⟨hrest, hend⟩ := ih hnext fun b hb => hP b (List.mem_cons_of_mem _ hb)
    unfold results
    exact ⟨congrArg₂ _ hresult hrest, hend⟩

/-- What every call preserves holds after every run. -/
theorem results_invariant {I : σ → Prop} (hstep : ∀ s a, P a → I s → I (f s a).1) {s : σ} (hs : I s)
    {as : List α} (hP : ∀ a ∈ as, P a) : I (results f s as).2 := by
  induction as generalizing s with
  | nil => exact hs
  | cons a as ih =>
    exact ih (hstep s a (hP a List.mem_cons_self) hs) fun b hb => hP b (List.mem_cons_of_mem _ hb)

end Machine
