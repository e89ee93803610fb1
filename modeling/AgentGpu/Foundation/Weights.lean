import Mathlib.Data.Prod.Lex
import Mathlib.Tactic.Linarith

namespace AgentGpu.Foundation

variable {α β γ : Type*} [LinearOrder β] [LinearOrder γ] {S : Set α} {v r : α → ℤ} {k : α → γ}
  {key : α → β} {a b : α}

def Orders (S : Set α) (r : α → ℤ) (key : α → β) : Prop :=
  ∀ a ∈ S, ∀ b ∈ S, r a < r b ↔ key a < key b

theorem Orders.eq_iff (h : Orders S r key) (ha : a ∈ S) (hb : b ∈ S) : r a = r b ↔ key a = key b := by
  rw [le_antisymm_iff, le_antisymm_iff, ← not_lt, ← not_lt, ← not_lt, ← not_lt, h a ha b hb, h b hb a ha]

theorem Orders.weigh (hv : Orders S v k) (hr : Orders S r key) (W : ℤ)
    (hW : ∀ a ∈ S, ∀ b ∈ S, r a - r b < W) :
    Orders S (fun a ↦ v a * W + r a) fun a ↦ toLex (k a, key a) := by
  intro a ha b hb
  have hab := hW a ha b hb
  have hba := hW b hb a ha
  rw [Prod.Lex.lt_iff]
  simp only [ofLex_toLex, ← hv a ha b hb, ← hv.eq_iff ha hb, ← hr a ha b hb]
  rcases lt_trichotomy (v a) (v b) with hlt | heq | hgt
  · have hstep : v a * W + W ≤ v b * W := by nlinarith
    exact iff_of_true (by linarith) (.inl hlt)
  · simp [heq]
  · have hstep : v b * W + W ≤ v a * W := by nlinarith
    exact iff_of_false (by linarith) (by omega)

end AgentGpu.Foundation
