import Mathlib.Algebra.BigOperators.Group.List.Basic
import Mathlib.Order.Monotone.Basic
import Mathlib.Tactic.SplitIfs

namespace AgentGpu.Foundation

variable {τ ω M : Type}

/-- A sum that belongs to one window. It is only reset when the next access finds that
another window has begun. -/
structure Tally (ω M : Type) where
  window : ω
  value : M

namespace Tally

section

variable [DecidableEq ω] [Zero M]

def roll (c : Tally ω M) (w : ω) : Tally ω M := if c.window = w then c else ⟨w, 0⟩

@[simp] theorem roll_window (c : Tally ω M) (w : ω) : (c.roll w).window = w := by
  unfold roll
  split <;> trivial

theorem roll_of_eq {c : Tally ω M} {w : ω} (h : c.window = w) : c.roll w = c := if_pos h

theorem roll_roll_of_le [Preorder τ] {ω : Type} [PartialOrder ω] [DecidableEq ω] {window : τ → ω}
    (hmono : Monotone window) {c : Tally ω M} {last t now : τ} (hc : c.window = window last)
    (hlast : last ≤ t) (hle : t ≤ now) :
    (c.roll (window t)).roll (window now) = c.roll (window now) := by
  by_cases hw : c.window = window now
  · have hsame : window t = window now :=
      le_antisymm (hmono hle) (hw ▸ hc ▸ hmono hlast)
    rw [roll_of_eq (hw.trans hsame.symm)]
  · by_cases ht : c.window = window t
    · rw [roll_of_eq ht]
    · rw [roll, roll, roll, if_neg ht, if_neg hw]
      split_ifs with hsame
      · exact congrArg (Tally.mk · 0) hsame
      · rfl

end

variable [AddMonoid M]

def add (c : Tally ω M) (m : M) : Tally ω M := ⟨c.window, c.value + m⟩

def total [DecidableEq ω] (window : τ → ω) (events : List (τ × M)) (w : ω) : M :=
  ((events.filter fun p ↦ window p.1 = w).map Prod.snd).sum

section

variable [DecidableEq ω] {window : τ → ω} {events : List (τ × M)} {w : ω}

theorem total_append_self (t : τ) (m : M) :
    total window (events ++ [(t, m)]) (window t) = total window events (window t) + m := by
  simp [total, List.filter_append]

theorem total_eq_zero (h : ∀ p ∈ events, window p.1 ≠ w) : total window events w = 0 := by
  have hnone : events.filter (fun p ↦ window p.1 = w) = [] := by simpa using h
  rw [total, hnone]
  rfl

end

variable [Preorder τ] [DecidableEq ω] {window : τ → ω} {events : List (τ × M)}
  {last now : τ} {c : Tally ω M}

/-- The tally holds the total of its window, and no event is later than `last`, which lies
in that window unless there are no events at all. -/
structure Exact (window : τ → ω) (events : List (τ × M)) (last : τ) (c : Tally ω M) : Prop where
  past : ∀ p ∈ events, p.1 ≤ last
  current : events = [] ∨ c.window = window last
  value : c.value = total window events c.window

theorem Exact.of_nil (last : τ) (w : ω) : Exact window [] last (⟨w, 0⟩ : Tally ω M) :=
  ⟨by simp, .inl rfl, rfl⟩

/-- Rolling is right because windows do not come back: an event of the window that begins
at `now` would have to lie in the window of `last` too. -/
theorem Exact.roll [PartialOrder ω] {window : τ → ω} (h : Exact window events last c)
    (hmono : Monotone window) (hle : last ≤ now) :
    Exact window events now (c.roll (window now)) := by
  refine ⟨fun p hp ↦ (h.past p hp).trans hle, .inr (roll_window ..), ?_⟩
  rw [roll_window]
  by_cases hw : c.window = window now
  · rw [roll_of_eq hw, h.value, hw]
  · rw [Tally.roll, if_neg hw]
    refine (total_eq_zero fun p hp heq ↦ hw ?_).symm
    have hcur := h.current.resolve_left (List.ne_nil_of_mem hp)
    rw [hcur]
    exact le_antisymm (hmono hle) (heq ▸ hmono (h.past p hp))

theorem Exact.add (h : Exact window events now c) (hw : c.window = window now) (m : M) :
    Exact window (events ++ [(now, m)]) now (c.add m) := by
  refine ⟨?_, .inr hw, ?_⟩
  · simpa [or_imp, forall_and] using h.past
  · show c.value + m = total window (events ++ [(now, m)]) c.window
    rw [hw, total_append_self, ← hw, h.value]

end Tally

end AgentGpu.Foundation
