import AgentGpu.Foundation.Tables
import Mathlib.Algebra.BigOperators.Group.List.Basic
import Mathlib.Algebra.GroupWithZero.Nat
import Mathlib.Data.List.Induction

namespace AgentGpu.Foundation

/-! Elements of a list that are gathered in a table by their keys. -/

section

variable {α κ σ : Type} [DecidableEq κ]

/-- Adds an element to the entry of its key. A new entry starts from `init`. -/
def Table.addTo (key : α → κ) (init : κ → σ) (add : σ → α → σ) (t : Table κ σ) (a : α) : Table κ σ :=
  t.insert (key a) (add ((t.lookup (key a)).getD (init (key a))) a)

variable {key : α → κ} {init : κ → σ} {add : σ → α → σ} {l l' : List α}

theorem getD_ite_mem_keys (l : List α) (k : κ) :
    (if k ∈ l.map key then some ((l.filter (key · = k)).foldl add (init k)) else none).getD (init k) =
      (l.filter (key · = k)).foldl add (init k) := by
  split_ifs with hmem
  · rfl
  · have hnone : l.filter (key · = k) = [] := by
      rw [List.filter_eq_nil_iff]
      intro b hb heq
      exact hmem (List.mem_map.mpr ⟨b, hb, of_decide_eq_true heq⟩)
    rw [hnone]
    rfl

theorem Table.lookup_foldl_addTo (l : List α) (k : κ) :
    (l.foldl (Table.addTo key init add) ∅).lookup k =
      if k ∈ l.map key then some ((l.filter (key · = k)).foldl add (init k)) else none := by
  induction l using List.reverseRecOn with
  | nil => exact AList.lookup_empty k
  | append_singleton l a ih =>
    rw [List.foldl_append, List.map_append, List.filter_append]
    simp only [List.foldl_cons, List.foldl_nil, Table.addTo, List.map_cons, List.map_nil,
      List.mem_append, List.mem_singleton]
    by_cases hkey : k = key a
    · have hentry : ((l.foldl (Table.addTo key init add) ∅).lookup k).getD (init k) =
          (l.filter (key · = k)).foldl add (init k) := by
        rw [ih, getD_ite_mem_keys]
      have hlast : [a].filter (key · = k) = [a] := List.filter_cons_of_pos (by simp [hkey])
      rw [if_pos (.inr hkey), hlast, List.foldl_append, ← hentry, hkey, AList.lookup_insert]
      rfl
    · have hlast : [a].filter (key · = k) = [] := List.filter_cons_of_neg (by simp [Ne.symm hkey])
      rw [AList.lookup_insert_ne hkey, ih, hlast, List.append_nil]
      simp only [hkey, or_false]

theorem Table.getD_lookup_foldl_addTo (l : List α) (k : κ) :
    ((l.foldl (Table.addTo key init add) ∅).lookup k).getD (init k) =
      (l.filter (key · = k)).foldl add (init k) := by
  rw [Table.lookup_foldl_addTo, getD_ite_mem_keys]

theorem Table.mem_keys_foldl_addTo {k : κ} :
    k ∈ (l.foldl (Table.addTo key init add) ∅).keys ↔ k ∈ l.map key := by
  rw [← AList.mem_keys, ← AList.lookup_isSome, Table.lookup_foldl_addTo]
  split_ifs with hmem <;> simp [hmem]

theorem Table.values_foldl_addTo (l : List α) :
    (l.foldl (Table.addTo key init add) ∅).entries.map (fun e ↦ e.2) =
      (l.foldl (Table.addTo key init add) ∅).keys.map
        fun k ↦ (l.filter (key · = k)).foldl add (init k) := by
  rw [AList.keys, List.keys, List.map_map]
  refine List.map_congr_left fun e he ↦ ?_
  have hlookup : (l.foldl (Table.addTo key init add) ∅).lookup e.1 = some e.2 :=
    AList.mem_lookup_iff.mpr he
  rw [Table.lookup_foldl_addTo] at hlookup
  split_ifs at hlookup
  exact (Option.some.inj hlookup).symm

theorem Table.foldl_addTo_perm [RightCommutative add] (h : l.Perm l') :
    (l.foldl (Table.addTo key init add) ∅).entries.Perm
      (l'.foldl (Table.addTo key init add) ∅).entries := by
  refine List.lookup_ext (AList.nodupKeys _) (AList.nodupKeys _) fun k v ↦ ?_
  have hlookup : (l.foldl (Table.addTo key init add) ∅).lookup k =
      (l'.foldl (Table.addTo key init add) ∅).lookup k := by
    rw [Table.lookup_foldl_addTo, Table.lookup_foldl_addTo, (h.filter _).foldl_eq]
    simp only [(h.map key).mem_iff]
  exact iff_of_eq (congrArg (v ∈ ·) hlookup)

theorem sum_map_sum_filter {M : Type} [AddCommMonoid M] (f : α → M) {ks : List κ} (hks : ks.Nodup)
    (h : ∀ a ∈ l, key a ∈ ks) :
    (ks.map fun k ↦ ((l.filter (key · = k)).map f).sum).sum = (l.map f).sum := by
  induction l with
  | nil => simp
  | cons a l ih =>
    obtain ⟨ha, hl⟩ := List.forall_mem_cons.mp h
    have hsplit (k : κ) : (((a :: l).filter (key · = k)).map f).sum =
        (if key a = k then f a else 0) + ((l.filter (key · = k)).map f).sum := by
      by_cases hk : key a = k <;> simp [hk]
    have hsingle : (ks.map fun k ↦ if key a = k then f a else 0).sum = f a := by
      rw [List.sum_map_eq_nsmul_single (key a) _ fun k hk _ ↦ if_neg (Ne.symm hk),
        List.count_eq_one_of_mem hks ha, one_nsmul, if_pos rfl]
    simp only [hsplit]
    rw [List.sum_map_add, hsingle, ih hl, List.map_cons, List.sum_cons]

end

/-! Sums in 64 bits. -/

section

variable {α : Type} (f : α → UInt64) {l l' : List α}

theorem foldl_add_perm (h : l.Perm l') (init : UInt64) :
    l.foldl (fun sum a ↦ sum + f a) init = l'.foldl (fun sum a ↦ sum + f a) init :=
  h.foldl_eq' (fun a _ b _ sum ↦ by ac_rfl) init

theorem toNat_foldl_add_mod (l : List α) (init : UInt64) :
    (l.foldl (fun sum a ↦ sum + f a) init).toNat =
      (init.toNat + (l.map fun a ↦ (f a).toNat).sum) % 2 ^ 64 := by
  induction l generalizing init with
  | nil => exact (Nat.mod_eq_of_lt init.toNat_lt).symm
  | cons a l ih =>
    rw [List.foldl_cons, ih, UInt64.toNat_add, Nat.mod_add_mod, List.map_cons, List.sum_cons,
      Nat.add_assoc]

theorem toNat_foldl_add_of_lt (h : (l.map fun a ↦ (f a).toNat).sum < 2 ^ 64) :
    (l.foldl (fun sum a ↦ sum + f a) 0).toNat = (l.map fun a ↦ (f a).toNat).sum := by
  rw [toNat_foldl_add_mod, UInt64.toNat_zero, Nat.zero_add, Nat.mod_eq_of_lt h]

end

end AgentGpu.Foundation
