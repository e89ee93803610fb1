import Mathlib.Data.Nat.Notation

namespace AgentGpu.Foundation

variable {σ ρ α β γ δ : Type}

def trace (step : σ → α → σ × γ) : σ → List α → List (α × γ)
  | _, [] => []
  | s, a :: as => (a, (step s a).2) :: trace step (step s a).1 as

/-- What an observer gets to see of a run, who only sees the outputs `out` lets through. -/
def outputs (step : σ → α → σ × γ) (out : α → γ → Option δ) (s : σ) (as : List α) : List δ :=
  (trace step s as).filterMap fun p ↦ out p.1 p.2

section

variable {step : σ → α → σ × γ} {out : α → γ → Option δ} {s : σ} {a : α} {as : List α}

theorem outputs_cons_of_none (h : out a (step s a).2 = none) :
    outputs step out s (a :: as) = outputs step out (step s a).1 as := by
  simp [outputs, trace, h]

theorem outputs_cons (step : σ → α → σ × γ) (out : α → γ → Option δ) (s : σ) (a : α)
    (as : List α) : outputs step out s (a :: as) =
      (out a (step s a).2).toList ++ outputs step out (step s a).1 as := by
  cases h : out a (step s a).2 <;> simp [outputs, trace, h]

end

/-- A system of its own shows the observer what the shared one shows, if operations that
are hidden from the observer keep the two related and the others take both along. -/
theorem outputs_eq_of_simulates {step : σ → α → σ × γ} {own : ρ → β → ρ × γ}
    {out : α → γ → Option δ} {out' : β → γ → Option δ} {see : α → Option β} {good : α → Prop}
    (R : σ → ρ → Prop)
    (hidden : ∀ s r a, R s r → good a → see a = none →
      R (step s a).1 r ∧ out a (step s a).2 = none)
    (seen : ∀ s r a b, R s r → good a → see a = some b →
      R (step s a).1 (own r b).1 ∧ out a (step s a).2 = out' b (own r b).2)
    {s : σ} {r : ρ} (h : R s r) {as : List α} (hgood : ∀ a ∈ as, good a) :
    outputs step out s as = outputs own out' r (as.filterMap see) := by
  induction as generalizing s r with
  | nil => rfl
  | cons a as ih =>
    have ha := hgood a List.mem_cons_self
    have has : ∀ a ∈ as, good a := fun a ha ↦ hgood a (List.mem_cons_of_mem _ ha)
    cases hsee : see a with
    | none =>
      obtain ⟨hnext, hout⟩ := hidden s r a h ha hsee
      rw [outputs_cons_of_none hout, List.filterMap_cons_none hsee]
      exact ih hnext has
    | some b =>
      obtain ⟨hnext, hout⟩ := seen s r a b h ha hsee
      rw [List.filterMap_cons_some hsee, outputs_cons, outputs_cons, hout, ih hnext has]

end AgentGpu.Foundation
