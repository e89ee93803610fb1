import Mathlib.Data.List.Basic

namespace AgentGpu.Foundation

variable {α : Type*} {p q : List α → Bool} {l l' : List α}

/-- Drops from the front until the rest passes, but never the last element. -/
def keepSuffix (p : List α → Bool) : List α → List α
  | a :: b :: l => if p (a :: b :: l) then a :: b :: l else keepSuffix p (b :: l)
  | l => l

def SublistClosed (p : List α → Bool) : Prop := ∀ ⦃l l' : List α⦄, l.Sublist l' → p l' → p l

theorem SublistClosed.and (hp : SublistClosed p) (hq : SublistClosed q) :
    SublistClosed fun l ↦ p l && q l := by
  intro l l' hl hpass
  rw [Bool.and_eq_true] at hpass ⊢
  exact ⟨hp hl hpass.1, hq hl hpass.2⟩

theorem keepSuffix_of_pass (h : p l) : keepSuffix p l = l := by
  match l with
  | [] | [_] => rfl
  | a :: b :: l => exact if_pos h

theorem keepSuffix_suffix (p : List α → Bool) (l : List α) : keepSuffix p l <:+ l := by
  induction l with
  | nil => exact List.suffix_rfl
  | cons a l ih =>
    cases l with
    | nil => exact List.suffix_rfl
    | cons b l =>
      rw [keepSuffix]
      split_ifs
      · exact List.suffix_rfl
      · exact ih.trans (List.suffix_cons a (b :: l))

theorem keepSuffix_ne_nil (h : l ≠ []) : keepSuffix p l ≠ [] := by
  induction l with
  | nil => exact absurd rfl h
  | cons a l ih =>
    cases l with
    | nil => exact h
    | cons b l =>
      rw [keepSuffix]
      split_ifs
      · exact h
      · exact ih (List.cons_ne_nil b l)

theorem keepSuffix_pass_or (p : List α → Bool) (l : List α) :
    p (keepSuffix p l) ∨ (keepSuffix p l).length ≤ 1 := by
  induction l with
  | nil => exact .inr (Nat.zero_le 1)
  | cons a l ih =>
    cases l with
    | nil => exact .inr (Nat.le_refl 1)
    | cons b l =>
      rw [keepSuffix]
      split_ifs with h
      · exact .inl h
      · exact ih

theorem length_le_keepSuffix (hl : l' <:+ l) (hpass : p l') : l'.length ≤ (keepSuffix p l).length := by
  induction l with
  | nil => exact hl.length_le
  | cons a l ih =>
    cases l with
    | nil => exact hl.length_le
    | cons b l =>
      rw [keepSuffix]
      split_ifs with h
      · exact hl.length_le
      · rcases List.suffix_cons_iff.mp hl with rfl | hl
        · exact absurd hpass h
        · exact ih hl

theorem keepSuffix_keepSuffix (hp : SublistClosed p) (l : List α) :
    keepSuffix q (keepSuffix p l) = keepSuffix (fun l ↦ p l && q l) l := by
  induction l with
  | nil => rfl
  | cons a l ih =>
    cases l with
    | nil => rfl
    | cons b l =>
      rw [keepSuffix, keepSuffix]
      by_cases hpass : p (a :: b :: l)
      · have hrest : p (b :: l) := hp (List.sublist_cons_self a (b :: l)) hpass
        rw [if_pos hpass, keepSuffix, ← ih, keepSuffix_of_pass hrest, hpass, Bool.true_and]
      · rw [if_neg hpass, if_neg fun h ↦ hpass (Bool.and_eq_true_iff.mp h).1, ih]

theorem keepSuffix_concat (hp : SublistClosed p) (l : List α) (b : α) :
    keepSuffix p (keepSuffix p l ++ [b]) = keepSuffix p (l ++ [b]) := by
  induction l with
  | nil => rfl
  | cons a l ih =>
    cases l with
    | nil => rfl
    | cons a' l =>
      rw [keepSuffix]
      split_ifs with h
      · rfl
      · have hover : ¬p (a :: a' :: (l ++ [b])) := fun hpass ↦
          h (hp (((List.sublist_append_left l [b]).cons_cons a').cons_cons a) hpass)
        exact ih.trans (if_neg hover).symm

end AgentGpu.Foundation
