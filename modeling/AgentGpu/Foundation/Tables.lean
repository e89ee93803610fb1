import Mathlib.Data.List.AList

namespace AgentGpu.Foundation

abbrev Table (α β : Type) := AList fun _ : α ↦ β

variable {α β : Type}

def Table.tally (t : Table α β) (p : β → Bool) : ℕ := t.entries.countP fun e ↦ p e.2

variable [DecidableEq α] {t : Table α β} {a : α} {b b' : β} {p : β → Bool}

theorem Table.lookup_of_erase {a' : α} (h : (t.erase a).lookup a' = some b) :
    t.lookup a' = some b := by
  by_cases ha : a' = a
  · subst ha
    simp at h
  · rwa [AList.lookup_erase_ne ha] at h

theorem Table.lookup_insert_cases {a' : α} (h : (t.insert a b).lookup a' = some b') :
    (a' = a ∧ b' = b) ∨ t.lookup a' = some b' := by
  by_cases ha : a' = a
  · subst ha
    rw [AList.lookup_insert] at h
    exact .inl ⟨rfl, (Option.some.inj h).symm⟩
  · exact .inr (by rwa [AList.lookup_insert_ne ha] at h)

theorem Table.tally_erase (h : t.lookup a = some b) :
    Table.tally (t.erase a) p + (if p b then 1 else 0) = Table.tally t p := by
  have hmem : a ∈ t.keys := AList.lookup_isSome.mp (by rw [h]; rfl)
  obtain ⟨b₁, before, behind, hnot, hsplit, herase⟩ := List.exists_of_kerase hmem
  have hb : b₁ = b := by
    have hin : (⟨a, b₁⟩ : Sigma fun _ : α ↦ β) ∈ t.entries := by rw [hsplit]; simp
    have hlook : t.lookup a = some b₁ := AList.mem_lookup_iff.mpr hin
    exact Option.some.inj (hlook.symm.trans h)
  subst hb
  have hentries : (t.erase a).entries = before ++ behind := herase
  simp only [Table.tally, hentries, hsplit, List.countP_append, List.countP_cons]
  omega

theorem Table.tally_insert_of_notMem (h : a ∉ t) :
    Table.tally (t.insert a b) p = Table.tally t p + if p b then 1 else 0 := by
  rw [Table.tally, AList.entries_insert_of_notMem h, List.countP_cons]
  rfl

theorem Table.tally_insert_of_eq (h : t.lookup a = some b') (hp : p b = p b') :
    Table.tally (t.insert a b) p = Table.tally t p := by
  have hold := Table.tally_erase (p := p) h
  have hentries : (t.insert a b).entries = ⟨a, b⟩ :: (t.erase a).entries := AList.entries_insert
  rw [← hold, Table.tally, hentries, List.countP_cons, hp]
  rfl

theorem Table.tally_insert_le :
    Table.tally (t.insert a b) p ≤ Table.tally t p + if p b then 1 else 0 := by
  have hsub : List.Sublist (t.erase a).entries t.entries := List.kerase_sublist a t.entries
  have hentries : (t.insert a b).entries = ⟨a, b⟩ :: (t.erase a).entries := AList.entries_insert
  rw [Table.tally, hentries, List.countP_cons]
  exact Nat.add_le_add_right (hsub.countP_le (p := fun e ↦ p e.2)) _

theorem Table.tally_mono {t' : Table α β}
    (h : ∀ a b, t.lookup a = some b → p b → t'.lookup a = some b) :
    Table.tally t p ≤ Table.tally t' p := by
  have hsub : t.entries.filter (fun e ↦ p e.2) ⊆ t'.entries.filter (fun e ↦ p e.2) := by
    rintro ⟨a, b⟩ hab
    obtain ⟨hab, hp⟩ := List.mem_filter.mp hab
    exact List.mem_filter.mpr
      ⟨AList.mem_lookup_iff.mp (h a b (AList.mem_lookup_iff.mpr hab) hp), hp⟩
  rw [Table.tally, Table.tally, List.countP_eq_length_filter, List.countP_eq_length_filter]
  exact (List.subperm_of_subset (t.nodupKeys.nodup.filter _) hsub).length_le

theorem Table.tally_pos_iff : 0 < Table.tally t p ↔ ∃ a b, t.lookup a = some b ∧ p b := by
  rw [Table.tally, List.countP_pos_iff]
  constructor
  · rintro ⟨⟨a, b⟩, hab, hp⟩
    exact ⟨a, b, AList.mem_lookup_iff.mpr hab, hp⟩
  · rintro ⟨a, b, hab, hp⟩
    exact ⟨⟨a, b⟩, AList.mem_lookup_iff.mp hab, hp⟩

def Table.restrict (t : Table α β) (p : β → Bool) : Table α β where
  entries := t.entries.filter fun e ↦ p e.2
  nodupKeys := t.nodupKeys.sublist List.filter_sublist

theorem Table.lookup_restrict (t : Table α β) (p : β → Bool) (a : α) :
    (Table.restrict t p).lookup a = (t.lookup a).filter p := by
  ext b
  rw [Option.filter_eq_some_iff]
  have hentry : (Table.restrict t p).lookup a = some b ↔
      (⟨a, b⟩ : Sigma fun _ : α ↦ β) ∈ t.entries.filter (fun e ↦ p e.2) := AList.mem_lookup_iff
  rw [hentry, List.mem_filter]
  exact and_congr_left' AList.mem_lookup_iff.symm

theorem Table.walk_perm {γ : Type} {l : List α} (hl : l.Perm t.keys) (f : α → β → γ) :
    (l.filterMap fun a ↦ (t.lookup a).map (f a)).Perm (t.entries.map fun e ↦ f e.1 e.2) := by
  refine (hl.filterMap _).trans (List.Perm.of_eq ?_)
  have hlook : ∀ e ∈ t.entries, t.lookup e.1 = some e.2 := by
    rintro ⟨a, b⟩ hab
    exact AList.mem_lookup_iff.mpr hab
  rw [AList.keys, List.keys, List.filterMap_map, ← List.filterMap_eq_map]
  refine List.filterMap_congr fun e he ↦ ?_
  simp [hlook e he]

end AgentGpu.Foundation
