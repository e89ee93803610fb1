import Mathlib.Data.List.Sort

namespace AgentGpu.Foundation

/-! Lists sorted by a key of their elements. -/

variable {α κ : Type} [LinearOrder κ] {key : α → κ} {l l' : List α}

theorem eq_of_perm_sorted (hkeys : (l.map key).Nodup) (hperm : l.Perm l')
    (h : l.Pairwise (key · ≤ key ·)) (h' : l'.Pairwise (key · ≤ key ·)) : l = l' := by
  refine hperm.eq_of_pairwise (fun a b ha hb hab hba ↦ ?_) h h'
  exact List.inj_on_of_nodup_map hkeys ha (hperm.mem_iff.mpr hb) (le_antisymm hab hba)

/-- A sort by a key. What it does with elements of the same key is left open. -/
structure KeySorter (key : α → κ) where
  sort : List α → List α
  perm : ∀ l, (sort l).Perm l
  sorted : ∀ l, (sort l).Pairwise (key · ≤ key ·)

namespace KeySorter

variable (s : KeySorter key)

theorem nodup_sort (hkeys : (l.map key).Nodup) : ((s.sort l).map key).Nodup :=
  ((s.perm l).map key).nodup_iff.mpr hkeys

theorem pairwise_lt_sort (hkeys : (l.map key).Nodup) : (s.sort l).Pairwise (key · < key ·) := by
  have hne := List.pairwise_map.mp (s.nodup_sort hkeys)
  exact ((s.sorted l).and hne).imp fun ⟨hle, hne⟩ ↦ lt_of_le_of_ne hle hne

theorem sort_eq_of_perm (s' : KeySorter key) (hkeys : (l.map key).Nodup) (h : l.Perm l') :
    s.sort l = s'.sort l' :=
  eq_of_perm_sorted (s.nodup_sort hkeys) ((s.perm l).trans (h.trans (s'.perm l').symm)) (s.sorted l)
    (s'.sorted l')

end KeySorter

variable [DecidableRel fun a b : α ↦ key a ≤ key b]

theorem pairwise_insertionSort_key (l : List α) :
    (l.insertionSort (key · ≤ key ·)).Pairwise (key · ≤ key ·) := by
  have : Std.Total fun a b : α ↦ key a ≤ key b := ⟨fun a b ↦ le_total (key a) (key b)⟩
  have : IsTrans α fun a b ↦ key a ≤ key b := ⟨fun _ _ _ ↦ le_trans⟩
  exact List.pairwise_insertionSort _ l

def KeySorter.insertion : KeySorter key where
  sort l := l.insertionSort (key · ≤ key ·)
  perm := List.perm_insertionSort _
  sorted := pairwise_insertionSort_key

theorem pairwise_lt_insertionSort_key (hkeys : (l.map key).Nodup) :
    (l.insertionSort (key · ≤ key ·)).Pairwise (key · < key ·) :=
  KeySorter.insertion.pairwise_lt_sort hkeys

def KeySorter.merge : KeySorter key where
  sort l := l.mergeSort fun a b ↦ decide (key a ≤ key b)
  perm l := List.mergeSort_perm l _
  sorted l := by
    have hsorted : (l.mergeSort fun a b ↦ decide (key a ≤ key b)).Pairwise
        fun a b ↦ decide (key a ≤ key b) = true :=
      List.pairwise_mergeSort (by simpa using fun _ _ _ ↦ le_trans)
        (by simpa using fun a b ↦ le_total (key a) (key b)) l
    simpa only [decide_eq_true_eq] using hsorted

theorem mergeSort_key_eq (hkeys : (l.map key).Nodup) :
    l.mergeSort (fun a b ↦ decide (key a ≤ key b)) = l.insertionSort (key · ≤ key ·) :=
  KeySorter.merge.sort_eq_of_perm .insertion hkeys (.refl l)

end AgentGpu.Foundation
