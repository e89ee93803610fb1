import Mathlib.Order.Interval.Set.Basic
import Mathlib.Order.Monotone.Basic
import Mathlib.Tactic.Linarith

namespace AgentGpu.Foundation

/-- A division of a line into intervals, each with its start but without its stop. Both are the
same from everywhere in the interval. -/
structure Tiling (τ : Type) [LinearOrder τ] where
  start : τ → τ
  stop : τ → τ
  start_le : ∀ t, start t ≤ t
  lt_stop : ∀ t, t < stop t
  same : ∀ {t t'}, start t ≤ t' → t' < stop t → start t' = start t ∧ stop t' = stop t

namespace Tiling

section

variable {τ : Type} [LinearOrder τ] (T : Tiling τ)

theorem stop_start (t : τ) : T.stop (T.start t) = T.stop t :=
  (T.same le_rfl ((T.start_le t).trans_lt (T.lt_stop t))).2

theorem start_mono : Monotone T.start := by
  intro t t' h
  by_contra hlt
  rw [not_le] at hlt
  -- then `t` lies in the interval of `t'`, and has its start
  have hsame := (T.same (hlt.le.trans (T.start_le t)) (h.trans_lt (T.lt_stop t'))).1
  exact hlt.ne hsame.symm

theorem start_stop (t : τ) : T.start (T.stop t) = T.stop t := by
  refine (T.start_le _).eq_of_not_lt fun hlt ↦ ?_
  have hbegin : T.start t ≤ T.start (T.stop t) := T.start_mono (T.lt_stop t).le
  -- the start of the next interval would lie in this one, and stop with both
  have hthis : T.stop (T.start (T.stop t)) = T.stop t := (T.same hbegin hlt).2
  have hnext : T.stop (T.start (T.stop t)) = T.stop (T.stop t) := T.stop_start _
  exact (T.lt_stop (T.stop t)).ne (hthis.symm.trans hnext)

theorem Ico_subset {fine coarse : Tiling τ} (h : ∀ t, fine.start (coarse.start t) = coarse.start t)
    (t : τ) : Set.Ico (fine.start t) (fine.stop t) ⊆ Set.Ico (coarse.start t) (coarse.stop t) := by
  have hstart : coarse.start t ≤ fine.start t := by
    have hmono := fine.start_mono (coarse.start_le t)
    rwa [h] at hmono
  have hstop : fine.stop t ≤ coarse.stop t := by
    by_contra hlt
    rw [not_le] at hlt
    have hle := (fine.start_le t).trans (coarse.lt_stop t).le
    have hboundary := h (coarse.stop t)
    rw [coarse.start_stop, (fine.same hle hlt).1] at hboundary
    exact ((fine.start_le t).trans_lt (coarse.lt_stop t)).ne hboundary
  exact Set.Ico_subset_Ico hstart hstop

end

def units : Tiling ℤ where
  start t := t
  stop t := t + 1
  start_le _ := le_rfl
  lt_stop t := lt_add_one t
  same h h' := by
    obtain rfl := le_antisymm (Int.lt_add_one_iff.mp h') h
    exact ⟨rfl, rfl⟩

def scale (T : Tiling ℤ) (m : ℤ) (hm : 0 < m) : Tiling ℤ where
  start t := T.start (t / m) * m
  stop t := T.stop (t / m) * m
  start_le t := (Int.le_ediv_iff_mul_le hm).mp (T.start_le (t / m))
  lt_stop t := (Int.ediv_lt_iff_lt_mul hm).mp (T.lt_stop (t / m))
  same h h' := by
    obtain ⟨hstart, hstop⟩ :=
      T.same ((Int.le_ediv_iff_mul_le hm).mpr h) ((Int.ediv_lt_iff_lt_mul hm).mpr h')
    rw [hstart, hstop]
    exact ⟨rfl, rfl⟩

theorem start_units_scale {m n : ℤ} (hm : 0 < m) (h : m ∣ n) : (units.scale m hm).start n = n :=
  Int.ediv_mul_cancel h

end Tiling

end AgentGpu.Foundation
