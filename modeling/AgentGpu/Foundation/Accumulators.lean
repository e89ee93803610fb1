import AgentGpu.Foundation.History
import Mathlib.Algebra.Order.BigOperators.Group.Multiset
import Mathlib.Algebra.Order.Group.Nat
import Mathlib.Data.List.GetD
import Mathlib.Data.Multiset.Lattice
import Mathlib.Order.Lattice.Nat

namespace AgentGpu.Foundation

/-- What is kept of observations: their number, sum and maximum, and how many of them are at or
below each bound. -/
structure Histogram where
  count : ℕ
  sum : ℕ
  max : ℕ
  buckets : List ℕ
  deriving DecidableEq

def tally (bounds : List ℕ) (xs : Multiset ℕ) : Histogram :=
  ⟨xs.card, xs.sum, xs.sup, bounds.map fun b ↦ xs.countP (· ≤ b)⟩

namespace Histogram

def add (bounds : List ℕ) (t : Histogram) (x : ℕ) : Histogram :=
  ⟨t.count + 1, t.sum + x, if x > t.max then x else t.max,
    List.zipWith (fun b n ↦ if x ≤ b then n + 1 else n) bounds t.buckets⟩

def empty (bounds : List ℕ) : Histogram := ⟨0, 0, 0, bounds.map fun _ ↦ 0⟩

end Histogram

section Histogram

variable {bounds : List ℕ} {xs ys : Multiset ℕ}

theorem tally_cons (x : ℕ) : tally bounds (x ::ₘ xs) = (tally bounds xs).add bounds x := by
  have hmax : (x ::ₘ xs).sup = if x > xs.sup then x else xs.sup := by
    rw [Multiset.sup_cons]
    rcases lt_or_ge xs.sup x with hx | hx
    · rw [if_pos hx, sup_eq_left.mpr hx.le]
    · rw [if_neg hx.not_gt, sup_eq_right.mpr hx]
  have hbuckets : (tally bounds (x ::ₘ xs)).buckets =
      List.zipWith (fun b n ↦ if x ≤ b then n + 1 else n) bounds (tally bounds xs).buckets := by
    rw [tally, tally, List.zipWith_map_right, List.zipWith_self]
    exact List.map_congr_left fun b _ ↦ by rw [Multiset.countP_cons]; split_ifs <;> rfl
  rw [Histogram.add, ← hbuckets, tally, Histogram.mk.injEq]
  exact ⟨Multiset.card_cons x xs, (Multiset.sum_cons x xs).trans (add_comm x _), hmax, rfl⟩

theorem getD_tally_buckets {j b : ℕ} (hj : bounds[j]? = some b) (xs : Multiset ℕ) :
    (tally bounds xs).buckets.getD j 0 = xs.countP (· ≤ b) := by
  simp [tally, List.getD_eq_getElem?_getD, hj]

theorem tally_buckets_pairwise (hbounds : bounds.Pairwise (· ≤ ·)) (xs : Multiset ℕ) :
    ((tally bounds xs).buckets ++ [(tally bounds xs).count]).Pairwise (· ≤ ·) := by
  refine List.pairwise_append.mpr ⟨?_, List.pairwise_singleton _ _, fun n hn m hm ↦ ?_⟩
  · refine List.pairwise_map.mpr (hbounds.imp fun hle ↦ ?_)
    rw [Multiset.countP_eq_card_filter, Multiset.countP_eq_card_filter]
    exact Multiset.card_le_card (Multiset.monotone_filter_right xs fun _ hx ↦ hx.trans hle)
  · obtain ⟨b, -, rfl⟩ := List.mem_map.mp hn
    rw [List.mem_singleton.mp hm]
    exact Multiset.countP_le_card _ _

theorem tally_map_le {α : Type} {ts : Multiset α} {f g : α → ℕ} (h : ∀ t ∈ ts, f t ≤ g t) :
    (tally bounds (ts.map f)).sum ≤ (tally bounds (ts.map g)).sum ∧
      (tally bounds (ts.map f)).max ≤ (tally bounds (ts.map g)).max ∧
      ∀ j, (tally bounds (ts.map g)).buckets.getD j 0 ≤ (tally bounds (ts.map f)).buckets.getD j 0 := by
  refine ⟨Multiset.sum_map_le_sum_map f g h, Multiset.sup_le.mpr fun n hn ↦ ?_, fun j ↦ ?_⟩
  · obtain ⟨t, ht, rfl⟩ := Multiset.mem_map.mp hn
    exact (h t ht).trans (Multiset.le_sup (Multiset.mem_map_of_mem g ht))
  · cases hj : bounds[j]? with
    | none => simp [tally, List.getD_eq_getElem?_getD, hj]
    | some b =>
      rw [getD_tally_buckets hj, getD_tally_buckets hj, Multiset.countP_map, Multiset.countP_map]
      exact Multiset.card_le_card (Multiset.le_filter.mpr ⟨Multiset.filter_le _ ts, fun t ht ↦
        (h t (Multiset.mem_filter.mp ht).1).trans (Multiset.mem_filter.mp ht).2⟩)

end Histogram

section Played

variable {σ ι χ : Type} (M : Machine σ ι χ) (G : Config σ ι → ι → χ → Prop) [∀ c i x, Decidable (G c i x)]

/-- Where a schedule leads, if it can be played to its end. -/
def Machine.played (c : Config σ ι) (schedule : List (ℕ × χ)) : Config σ ι :=
  (M.play G c schedule).getD c

theorem Machine.runs_played (c : Config σ ι) (schedule : List (ℕ × χ)) :
    M.Runs G c (M.played G c schedule) := by
  unfold Machine.played
  cases hplay : M.play G c schedule with
  | none => exact .start
  | some d => exact Machine.runs_of_play .start hplay

theorem Machine.reaches_played (c : Config σ ι) (schedule : List (ℕ × χ)) :
    M.Reaches c (M.played (fun _ _ _ ↦ True) c schedule) :=
  M.runs_played _ c schedule

end Played

section Conservation

variable {σ ι χ L A : Type} [AddCancelCommMonoid A] {M : Machine σ ι χ} {note : σ → ι → χ → L → L}
  {G : Config (σ × L) ι → ι → χ → Prop} {c₀ c : Config (σ × L) ι}

/-- What an accumulator holds and what is still owed to it make up what the history says, if
every step settles what it owed by adding it or by passing it on. -/
theorem Machine.Runs.conserved (value : σ → L → A) (owed : ι → A) (total : σ → L → A)
    (hstart : value c₀.shared.1 c₀.shared.2 + (c₀.soup.map owed).sum = total c₀.shared.1 c₀.shared.2)
    (hstep : ∀ s i x l e, M.exec s i x = some e →
      value e.shared (note s i x l) + (e.fresh.map owed).sum + total s l =
        value s l + owed i + total e.shared (note s i x l))
    (h : (M.record note).Runs G c₀ c) :
    value c.shared.1 c.shared.2 + (c.soup.map owed).sum = total c.shared.1 c.shared.2 := by
  refine h.record_invariant (fun s l S ↦ value s l + (S.map owed).sum = total s l) hstart ?_
  intro c i x R e _ hI _ he
  have hbalance := hstep c.shared.1 i x c.shared.2 e he
  rw [Multiset.map_cons, Multiset.sum_cons] at hI
  rw [Multiset.map_add, Multiset.sum_add]
  refine add_right_cancel (b := total c.shared.1 c.shared.2) ?_
  calc value e.shared _ + ((e.fresh.map owed).sum + (R.map owed).sum) + total c.shared.1 c.shared.2
      = value e.shared _ + (e.fresh.map owed).sum + total c.shared.1 c.shared.2 + (R.map owed).sum := by abel
    _ = value c.shared.1 c.shared.2 + owed i + total e.shared _ + (R.map owed).sum := by rw [hbalance]
    _ = total e.shared _ + (value c.shared.1 c.shared.2 + (owed i + (R.map owed).sum)) := by abel
    _ = total e.shared _ + total c.shared.1 c.shared.2 := by rw [hI]

end Conservation

end AgentGpu.Foundation
