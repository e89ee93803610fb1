import Mathlib.Data.List.Basic
import Mathlib.Algebra.Order.Group.Nat

namespace AgentGpu.Foundation

abbrev Memory (α : Type*) := List (List α)

/-- A slice header: an array, where the slice starts in it, its length and its capacity. -/
structure Slice where
  array : ℕ
  start : ℕ
  length : ℕ
  capacity : ℕ

namespace Slice

/-- The slice without an array. -/
def nil : Slice := ⟨0, 0, 0, 0⟩

/-- `s[n:]`. -/
def drop (s : Slice) (n : ℕ) : Slice := ⟨s.array, s.start + n, s.length - n, s.capacity - n⟩

end Slice

def overwrite {α : Type*} (k : ℕ) (xs cells : List α) : List α :=
  cells.take k ++ (xs ++ cells.drop (k + xs.length))

namespace Memory

variable {α : Type*} {mem : Memory α} {s t : Slice} {xs : List α} {spare : ℕ}

def cells (mem : Memory α) (s : Slice) : List α := mem.getD s.array []

def read (mem : Memory α) (s : Slice) : List α := ((mem.cells s).drop s.start).take s.length

def write (mem : Memory α) (s : Slice) (xs : List α) : Memory α :=
  mem.modify s.array (overwrite (s.start + s.length) xs)

section Append

variable [Inhabited α]

def alloc (mem : Memory α) (xs : List α) (spare : ℕ) : Memory α × Slice :=
  (mem ++ [xs ++ List.replicate spare default], ⟨mem.length, 0, xs.length, xs.length + spare⟩)

/-- `append(s, xs...)` writes behind the slice if its capacity allows it, and moves to a new
array otherwise. How much that one has to spare is up to the runtime. -/
def append (mem : Memory α) (s : Slice) (xs : List α) (spare : ℕ) : Memory α × Slice :=
  if s.length + xs.length ≤ s.capacity then
    (mem.write s xs, { s with length := s.length + xs.length })
  else mem.alloc (mem.read s ++ xs) spare

end Append

structure Holds (mem : Memory α) (s : Slice) : Prop where
  array_lt : s.array < mem.length
  length_le : s.length ≤ s.capacity
  fits : s.start + s.capacity ≤ (mem.cells s).length

@[simp] theorem read_nil (mem : Memory α) : mem.read .nil = [] := List.take_zero

theorem length_read (h : mem.Holds s) : (mem.read s).length = s.length := by
  have hlength := h.length_le
  have hfits := h.fits
  rw [read, List.length_take, List.length_drop]
  omega

theorem read_drop (mem : Memory α) (s : Slice) (n : ℕ) : mem.read (s.drop n) = (mem.read s).drop n := by
  simp only [read, cells, Slice.drop, List.drop_take, List.drop_drop]

section Modify

variable {k : ℕ} {cells : List α}

theorem length_overwrite (h : k + xs.length ≤ cells.length) :
    (overwrite k xs cells).length = cells.length := by
  simp only [overwrite, List.length_append, List.length_take, List.length_drop]
  omega

theorem take_overwrite {n : ℕ} (h : k + xs.length ≤ cells.length) (hn : n ≤ k) :
    (overwrite k xs cells).take n = cells.take n := by
  rw [overwrite, List.take_append_of_le_length (by rw [List.length_take]; omega), List.take_take,
    Nat.min_eq_left hn]

theorem take_overwrite_end (h : k + xs.length ≤ cells.length) :
    (overwrite k xs cells).take (k + xs.length) = cells.take k ++ xs := by
  rw [overwrite, ← List.append_assoc]
  refine List.take_left' ?_
  rw [List.length_append, List.length_take]
  omega

end Modify

def Keeps (mem mem' : Memory α) (t : Slice) : Prop := mem'.Holds t ∧ mem'.read t = mem.read t

section Write

theorem cells_write (ht : t.array < mem.length) :
    (mem.write s xs).cells t =
      if t.array = s.array then overwrite (s.start + s.length) xs (mem.cells t) else mem.cells t := by
  simp only [write, cells, List.getD_eq_getElem?_getD, List.getElem?_modify, List.getElem?_eq_getElem ht,
    eq_comm (a := s.array)]
  split_ifs <;> rfl

variable (hs : mem.Holds s) (hroom : s.length + xs.length ≤ s.capacity)
include hs hroom

theorem cells_write_room : s.start + s.length + xs.length ≤ (mem.cells s).length := by
  have hfits := hs.fits
  omega

theorem write_keeps (ht : mem.Holds t)
    (hbehind : t.array = s.array → t.start + t.length ≤ s.start + s.length) :
    mem.Keeps (mem.write s xs) t := by
  have hroom' := cells_write_room hs hroom
  have hlength : mem.length = (mem.write s xs).length := (List.length_modify _ _ _).symm
  by_cases harray : t.array = s.array
  · have hcells : (mem.write s xs).cells t = overwrite (s.start + s.length) xs (mem.cells t) := by
      rw [cells_write ht.array_lt, if_pos harray]
    have hsame : mem.cells t = mem.cells s := by rw [cells, cells, harray]
    rw [← hsame] at hroom'
    refine ⟨⟨hlength ▸ ht.array_lt, ht.length_le, ?_⟩, ?_⟩
    · rw [hcells, length_overwrite hroom']
      exact ht.fits
    · rw [read, read, hcells, List.take_drop, List.take_drop, take_overwrite hroom' (hbehind harray)]
  · have hcells : (mem.write s xs).cells t = mem.cells t := by
      rw [cells_write ht.array_lt, if_neg harray]
    refine ⟨⟨hlength ▸ ht.array_lt, ht.length_le, hcells ▸ ht.fits⟩, ?_⟩
    rw [read, read, hcells]

theorem holds_write : (mem.write s xs).Holds { s with length := s.length + xs.length } := by
  obtain ⟨hkept, -⟩ := write_keeps hs hroom hs fun _ ↦ le_rfl
  exact ⟨hkept.array_lt, hroom, hkept.fits⟩

theorem read_write :
    (mem.write s xs).read { s with length := s.length + xs.length } = mem.read s ++ xs := by
  have hroom' := cells_write_room hs hroom
  have hlength : s.start ≤ ((mem.cells s).take (s.start + s.length)).length := by
    rw [List.length_take]
    omega
  have hcells : (mem.write s xs).cells { s with length := s.length + xs.length } =
      overwrite (s.start + s.length) xs (mem.cells s) :=
    (cells_write hs.array_lt).trans (if_pos rfl)
  rw [read, hcells, List.take_drop, ← Nat.add_assoc, take_overwrite_end hroom',
    List.drop_append_of_le_length hlength, read, List.take_drop]

end Write

section Alloc

variable [Inhabited α]

theorem read_alloc (mem : Memory α) (xs : List α) (spare : ℕ) :
    (mem.alloc xs spare).1.read (mem.alloc xs spare).2 = xs := by
  simp [alloc, read, cells]

theorem holds_alloc (mem : Memory α) (xs : List α) (spare : ℕ) :
    (mem.alloc xs spare).1.Holds (mem.alloc xs spare).2 := by
  refine ⟨by simp [alloc], Nat.le_add_right _ _, ?_⟩
  simp [alloc, cells]

theorem alloc_keeps (ht : mem.Holds t) (xs : List α) (spare : ℕ) :
    mem.Keeps (mem.alloc xs spare).1 t := by
  have hcells : (mem.alloc xs spare).1.cells t = mem.cells t := by
    simp only [alloc, cells, List.getD_eq_getElem?_getD, List.getElem?_append_left ht.array_lt]
  refine ⟨⟨?_, ht.length_le, hcells ▸ ht.fits⟩, ?_⟩
  · exact ht.array_lt.trans_le (by simp [alloc])
  · rw [read, read, hcells]

theorem append_nil (hne : xs ≠ []) : mem.append .nil xs spare = mem.alloc xs spare := by
  have hpos := List.length_pos_iff.mpr hne
  rw [append, if_neg (by simp only [Slice.nil]; omega), read_nil, List.nil_append]

variable (hs : mem.Holds s)
include hs

theorem holds_append : (mem.append s xs spare).1.Holds (mem.append s xs spare).2 := by
  rw [append]
  split_ifs with hroom
  · exact holds_write hs hroom
  · exact holds_alloc mem _ spare

theorem read_append : (mem.append s xs spare).1.read (mem.append s xs spare).2 = mem.read s ++ xs := by
  rw [append]
  split_ifs with hroom
  · exact read_write hs hroom
  · exact read_alloc mem _ spare

theorem append_keeps (ht : mem.Holds t)
    (hbehind : t.array = s.array → t.start + t.length ≤ s.start + s.length) :
    mem.Keeps (mem.append s xs spare).1 t := by
  rw [append]
  split_ifs with hroom
  · exact write_keeps hs hroom ht hbehind
  · exact alloc_keeps ht _ spare

omit hs in
theorem array_append (mem : Memory α) (s : Slice) (xs : List α) (spare : ℕ) :
    (mem.append s xs spare).2.array = s.array ∨ (mem.append s xs spare).2.array = mem.length := by
  rw [append]
  split_ifs
  · exact .inl rfl
  · exact .inr rfl

end Alloc

end Memory
end AgentGpu.Foundation
