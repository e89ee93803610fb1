import Mathlib.Data.List.DropRight
import Mathlib.Data.Nat.ModEq

namespace AgentGpu.Foundation

section LastElements

variable {α : Type*}

theorem rtake_rtake (l : List α) (m n : ℕ) : (l.rtake n).rtake m = l.rtake (min m n) := by
  rw [List.rtake, List.rtake, List.rtake, List.drop_drop, List.length_drop]
  congr 1
  omega

theorem rtake_append_of_le {l : List α} (l' : List α) {n : ℕ} (h : n ≤ l.length) :
    (l' ++ l).rtake n = l.rtake n := by
  rw [List.rtake, List.rtake, List.drop_append, List.length_append, List.drop_eq_nil_of_le (by omega),
    List.nil_append]
  congr 1
  omega

theorem length_rtake (l : List α) (n : ℕ) : (l.rtake n).length = min n l.length := by
  rw [List.rtake, List.length_drop]
  omega

theorem rtake_of_length_le {l : List α} {n : ℕ} (h : l.length ≤ n) : l.rtake n = l := by
  rw [List.rtake, Nat.sub_eq_zero_of_le h, List.drop_zero]

theorem rtake_rtake_append (l l' : List α) (n : ℕ) :
    ((l ++ l').rtake n).rtake l'.length = l'.rtake n :=
  calc ((l ++ l').rtake n).rtake l'.length
    _ = (l ++ l').rtake (min l'.length n) := rtake_rtake _ _ _
    _ = l'.rtake (min l'.length n) := rtake_append_of_le l (Nat.min_le_left _ _)
    _ = (l'.rtake n).rtake l'.length := (rtake_rtake _ _ _).symm
    _ = l'.rtake n := rtake_of_length_le (length_rtake l' n ▸ Nat.min_le_right _ _)

theorem rtake_append_rtake (l l' : List α) (n : ℕ) : (l.rtake n ++ l').rtake n = (l ++ l').rtake n := by
  have hsplit : l = l.take (l.length - n) ++ l.rtake n := (List.take_append_drop _ l).symm
  by_cases hl : l.length ≤ n
  · rw [rtake_of_length_le hl]
  · have hle : n ≤ (l.rtake n ++ l').length := by
      rw [List.length_append, length_rtake]
      omega
    conv_rhs => rw [hsplit, List.append_assoc]
    exact (rtake_append_of_le _ hle).symm

end LastElements

/-- An array of `cap` cells that is written around. With no cells, nothing is kept. -/
structure RingBuffer (α : Type*) where
  buf : List α := []
  next : ℕ := 0
  full : Bool := false
  cap : ℕ
  count : ℕ := 0

namespace RingBuffer

variable {α : Type*}

def new [Inhabited α] (capacity : ℤ) : RingBuffer α :=
  if capacity ≤ 0 then { cap := 0 }
  else { buf := List.replicate capacity.toNat default, cap := capacity.toNat }

def append (r : RingBuffer α) (a : α) : RingBuffer α :=
  if r.cap = 0 then r
  else
    let next := (r.next + 1) % r.cap
    { r with
      buf := r.buf.set r.next a
      next
      full := r.full || next = 0
      count := r.count + 1 }

def snapshot [Inhabited α] (r : RingBuffer α) : List α :=
  if r.cap = 0 then []
  else if r.full then (List.range r.cap).map fun i ↦ r.buf.getD ((r.next + i) % r.cap) default
  else r.buf.take r.next

/-- The buffer after `l` was appended: cell `i % cap` has the `i`-th element, as long as it is
one of the last `cap` elements. -/
structure Retains (r : RingBuffer α) (l : List α) : Prop where
  cap_pos : 0 < r.cap
  length_buf : r.buf.length = r.cap
  next_eq : r.next = l.length % r.cap
  full_eq : r.full = decide (r.cap ≤ l.length)
  count_eq : r.count = l.length
  getElem?_buf : ∀ i < l.length, l.length ≤ i + r.cap → r.buf[i % r.cap]? = l[i]?

variable {r : RingBuffer α} {l : List α}

section

variable [Inhabited α] {capacity : ℤ}

theorem retains_new (h : 0 < capacity) : (new capacity : RingBuffer α).Retains [] := by
  rw [new, if_neg (by omega)]
  exact
    { cap_pos := by dsimp only; omega
      length_buf := List.length_replicate
      next_eq := (Nat.zero_mod _).symm
      full_eq := by
        rw [eq_comm, decide_eq_false_iff_not, List.length_nil]
        dsimp only
        omega
      count_eq := rfl
      getElem?_buf := fun i hi ↦ absurd hi (Nat.not_lt_zero i) }

@[simp] theorem cap_new (capacity : ℤ) : (new capacity : RingBuffer α).cap = capacity.toNat := by
  unfold new
  split_ifs with h
  · exact (Int.toNat_of_nonpos h).symm
  · rfl

theorem foldl_append_of_nonpos (h : capacity ≤ 0) (l : List α) :
    l.foldl append (new capacity) = { cap := 0 } := by
  rw [new, if_pos h]
  induction l with
  | nil => rfl
  | cons a l ih => exact ih

end

@[simp] theorem cap_append (a : α) : (r.append a).cap = r.cap := by
  unfold append
  split_ifs <;> rfl

theorem cap_foldl_append (l : List α) (r : RingBuffer α) : (l.foldl append r).cap = r.cap := by
  induction l generalizing r with
  | nil => rfl
  | cons a l ih => rw [List.foldl_cons, ih, cap_append]

theorem mod_ne_mod {i n c : ℕ} (hlt : i < n) (hle : n < i + c) : i % c ≠ n % c := by
  intro h
  have hdvd : c ∣ n - i := (Nat.modEq_iff_dvd' hlt.le).mp h
  have hc := Nat.le_of_dvd (Nat.sub_pos_of_lt hlt) hdvd
  omega

theorem Retains.append (h : r.Retains l) (a : α) : (r.append a).Retains (l ++ [a]) := by
  have hcap := h.cap_pos
  have hmod := Nat.mod_lt l.length hcap
  rw [RingBuffer.append, if_neg hcap.ne']
  refine ⟨hcap, ?_, ?_, ?_, ?_, ?_⟩
  · rw [List.length_set, h.length_buf]
  · rw [h.next_eq, List.length_append, List.length_singleton, Nat.mod_add_mod]
  · -- the array is full for the first time when its last cell is written
    simp only [h.next_eq, h.full_eq, List.length_append, List.length_singleton, Nat.mod_add_mod]
    rcases Nat.lt_or_ge l.length r.cap with hlt | hge
    · rcases Nat.lt_or_ge (l.length + 1) r.cap with hlt' | hge'
      · rw [Nat.mod_eq_of_lt hlt']
        simp [hlt.not_ge, hlt'.not_ge]
      · have hlast : l.length + 1 = r.cap := by omega
        simp [hlast]
    · simp [hge, hge.trans (Nat.le_succ _)]
  · rw [h.count_eq, List.length_append, List.length_singleton]
  · intro i hi hkept
    rw [List.length_append, List.length_singleton] at hi hkept
    dsimp only at hkept ⊢
    rw [h.next_eq]
    rcases Nat.lt_succ_iff_lt_or_eq.mp hi with hold | rfl
    · rw [List.getElem?_set_ne (mod_ne_mod hold (by omega)).symm, List.getElem?_append_left hold]
      exact h.getElem?_buf i hold (by omega)
    · rw [List.getElem?_set_self (h.length_buf ▸ hmod), List.getElem?_concat_length]

theorem Retains.foldl_append (h : r.Retains l) (l' : List α) :
    (l'.foldl RingBuffer.append r).Retains (l ++ l') := by
  induction l' generalizing r l with
  | nil => rwa [List.append_nil]
  | cons a l' ih =>
    rw [List.append_cons]
    exact ih (h.append a)

theorem Retains.snapshot [Inhabited α] (h : r.Retains l) : r.snapshot = l.rtake r.cap := by
  have hcap := h.cap_pos
  rw [RingBuffer.snapshot, if_neg hcap.ne', h.full_eq, h.next_eq]
  rcases Nat.lt_or_ge l.length r.cap with hlt | hge
  · rw [if_neg (by simpa using hlt), Nat.mod_eq_of_lt hlt, rtake_of_length_le hlt.le]
    refine List.ext_getElem? fun i ↦ ?_
    rcases Nat.lt_or_ge i l.length with hi | hi
    · have hget := h.getElem?_buf i hi (by omega)
      rwa [Nat.mod_eq_of_lt (hi.trans hlt), ← List.getElem?_take_of_lt hi] at hget
    · rw [List.getElem?_eq_none hi, List.getElem?_take_eq_none hi]
  · rw [if_pos (by simpa using hge), List.rtake]
    refine List.ext_getElem (by simp; omega) fun j hj hj' ↦ ?_
    rw [List.length_map, List.length_range] at hj
    -- the oldest element is `l.length - r.cap`, in the cell that is written next
    have hcell : (l.length % r.cap + j) % r.cap = (l.length - r.cap + j) % r.cap := by
      rw [Nat.mod_add_mod, ← Nat.add_mod_right (l.length - r.cap + j)]
      congr 1
      omega
    have hget := h.getElem?_buf (l.length - r.cap + j) (by omega) (by omega)
    rw [List.getElem_map, List.getElem_range, hcell, List.getD_eq_getElem?_getD, hget,
      List.getElem_drop, List.getElem?_eq_getElem (by omega), Option.getD_some]

theorem snapshot_foldl_append [Inhabited α] (capacity : ℤ) (l : List α) :
    (l.foldl append (new capacity)).snapshot = l.rtake capacity.toNat := by
  rcases lt_or_ge 0 capacity with hpos | hneg
  · have h := ((retains_new hpos).foldl_append l).snapshot
    rwa [cap_foldl_append, cap_new, List.nil_append] at h
  · rw [foldl_append_of_nonpos hneg, Int.toNat_of_nonpos hneg, List.rtake_zero]
    rfl

theorem count_foldl_append [Inhabited α] (capacity : ℤ) (l : List α) :
    (l.foldl append (new capacity)).count = if 0 < capacity then l.length else 0 := by
  split_ifs with h
  · exact ((retains_new h).foldl_append l).count_eq
  · rw [foldl_append_of_nonpos (not_lt.mp h)]

end RingBuffer

end AgentGpu.Foundation
