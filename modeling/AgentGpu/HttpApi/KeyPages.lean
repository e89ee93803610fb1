import AgentGpu.Foundation.Sorting
import AgentGpu.HttpApi.Admin
import AgentGpu.HttpApi.Pagination
import Mathlib.Data.String.Basic

namespace AgentGpu.HttpApi

open Foundation Auth

section Positions

variable {α : Type} [DecidableEq α] {l : List α} {a : α}

theorem count_take_of_nodup (h : l.Nodup) (ha : a ∈ l) (n : ℕ) :
    (l.take n).count a = if l.idxOf a < n then 1 else 0 := by
  split_ifs with hlt
  · exact List.count_eq_one_of_mem (h.sublist (List.take_sublist n l))
      ((List.mem_take_iff_idxOf_lt ha).mpr hlt)
  · exact List.count_eq_zero_of_not_mem fun hmem ↦ hlt ((List.mem_take_iff_idxOf_lt ha).mp hmem)

theorem count_page_of_nodup (h : l.Nodup) (ha : a ∈ l) (offset size : ℕ) :
    ((l.drop offset).take size).count a + (if l.idxOf a < offset then 1 else 0) =
      if l.idxOf a < offset + size then 1 else 0 := by
  rw [← count_take_of_nodup h ha offset, ← count_take_of_nodup h ha (offset + size), List.take_add,
    List.count_append, Nat.add_comm]

end Positions

inductive KeyChange
  | put (k : APIKey)
  | delete (id : String)

def KeyChange.apply (keys : KeyStore) : KeyChange → KeyStore
  | .put k => keys.put k
  | .delete id => keys.erase id

def listedKeys (keys : KeyStore) : List APIKey :=
  (keys.entries.map fun e ↦ e.2).insertionSort (·.id ≤ ·.id)

structure PageRound where
  limit : String
  changes : List KeyChange := []

def PageRound.after (round : PageRound) (keys : KeyStore) : KeyStore :=
  round.changes.foldl KeyChange.apply keys

/-- The answers to a client that follows the next cursors of `GET /v1/admin/keys`. -/
def walkKeys (keys : KeyStore) (cursor : String) : List PageRound → List (ListEnvelope APIKey)
  | [] => []
  | round :: rounds =>
    let page := listPage (listedKeys keys) ⟨round.limit, cursor⟩
    page :: match page.nextCursor with
      | none => []
      | some next => walkKeys (round.after keys) next rounds

def ends (keys : KeyStore) (cursor : String) : List PageRound → Bool
  | [] => false
  | round :: rounds =>
    match (listPage (listedKeys keys) ⟨round.limit, cursor⟩).nextCursor with
    | none => rounds.isEmpty
    | some next => ends (round.after keys) next rounds

def keptThrough (id : String) : KeyStore → List KeyChange → Bool
  | keys, [] => (keys.lookup id).isSome
  | keys, c :: changes => (keys.lookup id).isSome && keptThrough id (c.apply keys) changes

def kept (id : String) : KeyStore → List PageRound → Bool
  | keys, round :: next :: rounds =>
    keptThrough id keys round.changes && kept id (round.after keys) (next :: rounds)
  | keys, _ => (keys.lookup id).isSome

def behind (keys : KeyStore) (id : String) (offset : ℕ) : Bool :=
  ((listedKeys keys).map (·.id)).idxOf id < offset

/-- How often the changes move the key over the position up to which the pages have come: from
behind it if `back`, else from ahead of it. The position is the sum of the page sizes. -/
def crossings (back : Bool) (id : String) : KeyStore → ℕ → List PageRound → ℕ
  | keys, offset, round :: next :: rounds =>
    let offset := offset + pageSize round.limit
    (if behind keys id offset = back ∧ behind (round.after keys) id offset = !back then 1 else 0) +
      crossings back id (round.after keys) offset (next :: rounds)
  | _, _, _ => 0

def found (keys : KeyStore) : List PageRound → List KeyStore
  | [] => []
  | round :: rounds => keys :: found (round.after keys) rounds

def KeysKeyed (keys : KeyStore) : Prop := ∀ e ∈ keys.entries, e.2.id = e.1

structure KeyWalk where
  keys : KeyStore
  rounds : List PageRound
  keyed : KeysKeyed keys
  fits : ∀ store ∈ found keys rounds, store.entries.length < 2 ^ 63
  ends : ends keys "" rounds = true

namespace KeyWalk

variable (w : KeyWalk) (id : String)

def kept : Bool := HttpApi.kept id w.keys w.rounds

def returned : ℕ :=
  (((walkKeys w.keys "" w.rounds).flatMap ListEnvelope.data).map (·.id)).count id

def crossings (back : Bool) : ℕ := HttpApi.crossings back id w.keys 0 w.rounds

end KeyWalk

section

variable {keys : KeyStore} {id : String}

theorem KeysKeyed.apply (h : KeysKeyed keys) (c : KeyChange) : KeysKeyed (c.apply keys) := by
  have herase (id : String) : KeysKeyed (keys.erase id) := fun e he ↦
    h e ((List.kerase_sublist id keys.entries).subset he)
  cases c with
  | put k =>
    intro e he
    have hentries : (keys.insert k.id k).entries = ⟨k.id, k⟩ :: (keys.erase k.id).entries :=
      AList.entries_insert
    rcases List.mem_cons.mp (hentries ▸ he) with rfl | hold
    · rfl
    · exact herase k.id e hold
  | delete id => exact herase id

theorem KeysKeyed.after (h : KeysKeyed keys) (round : PageRound) : KeysKeyed (round.after keys) := by
  unfold PageRound.after
  induction round.changes generalizing keys with
  | nil => exact h
  | cons c changes ih => exact ih (h.apply c)

theorem listedKeys_perm : (listedKeys keys).Perm (keys.entries.map fun e ↦ e.2) :=
  List.perm_insertionSort _ _

theorem length_listedKeys : (listedKeys keys).length = keys.entries.length := by
  rw [listedKeys_perm.length_eq, List.length_map]

theorem KeysKeyed.ids_perm (h : KeysKeyed keys) : ((listedKeys keys).map (·.id)).Perm keys.keys := by
  have hids : (keys.entries.map fun e ↦ e.2).map (·.id) = keys.keys := by
    rw [List.map_map]
    exact List.map_congr_left h
  exact hids ▸ listedKeys_perm.map _

theorem KeysKeyed.nodup_ids (h : KeysKeyed keys) : ((listedKeys keys).map (·.id)).Nodup :=
  h.ids_perm.nodup_iff.mpr keys.nodupKeys

theorem KeysKeyed.mem_ids (h : KeysKeyed keys) (hid : (keys.lookup id).isSome) :
    id ∈ (listedKeys keys).map (·.id) :=
  h.ids_perm.mem_iff.mpr (AList.lookup_isSome.mp hid)

theorem handleAdminListKeys_eq (h : KeysKeyed keys) :
    handleAdminListKeys keys = ⟨200, .keyList (listedKeys keys)⟩ := by
  have hnodup := (listedKeys_perm.map _).nodup_iff.mp h.nodup_ids
  rw [handleAdminListKeys, mergeSort_key_eq hnodup, listedKeys]

theorem present_of_keptThrough {changes : List KeyChange} (h : keptThrough id keys changes = true) :
    (keys.lookup id).isSome := by
  cases changes with
  | nil => exact h
  | cons c changes => exact (Bool.and_eq_true_iff.mp h).1

theorem present_of_kept {rounds : List PageRound} (h : kept id keys rounds = true) :
    (keys.lookup id).isSome := by
  match rounds with
  | [] | [_] => exact h
  | round :: next :: rounds => exact present_of_keptThrough (Bool.and_eq_true_iff.mp h).1

theorem count_listPage (h : KeysKeyed keys) (hid : (keys.lookup id).isSome) (limit : String)
    {cursor : String} {offset : ℕ} (hcursor : decodeCursor cursor = offset) :
    ((listPage (listedKeys keys) ⟨limit, cursor⟩).data.map (·.id)).count id +
        (if behind keys id offset then 1 else 0) =
      if behind keys id (offset + pageSize limit) then 1 else 0 := by
  simp only [listPage_eq hcursor, List.map_take, List.map_drop, behind, decide_eq_true_eq]
  exact count_page_of_nodup h.nodup_ids (h.mem_ids hid) offset (pageSize limit)

theorem behind_of_last (h : KeysKeyed keys) (hid : (keys.lookup id).isSome) {limit cursor : String}
    {offset : ℕ} (hcursor : decodeCursor cursor = offset)
    (hlast : (listPage (listedKeys keys) ⟨limit, cursor⟩).nextCursor = none) :
    behind keys id (offset + pageSize limit) = true := by
  have hend := listPage_last hcursor hlast
  have hpos := List.idxOf_lt_length_of_mem (h.mem_ids hid)
  rw [List.length_map] at hpos
  exact decide_eq_true (hpos.trans_le hend)

theorem count_walkKeys {rounds : List PageRound} {cursor : String} {offset : ℕ} (h : KeysKeyed keys)
    (hfits : ∀ store ∈ found keys rounds, store.entries.length < 2 ^ 63)
    (hcursor : decodeCursor cursor = offset) (hends : ends keys cursor rounds = true)
    (hkept : kept id keys rounds = true) :
    (((walkKeys keys cursor rounds).flatMap ListEnvelope.data).map (·.id)).count id +
        (if behind keys id offset then 1 else 0) + crossings false id keys offset rounds =
      1 + crossings true id keys offset rounds := by
  induction rounds generalizing keys cursor offset with
  | nil => cases hends
  | cons round rounds ih =>
    have hid := present_of_kept hkept
    have hpage := count_listPage h hid round.limit hcursor
    have hlen : (listedKeys keys).length < 2 ^ 63 := by
      rw [length_listedKeys]
      exact hfits keys List.mem_cons_self
    rw [walkKeys]
    rw [ends] at hends
    cases hnext : (listPage (listedKeys keys) ⟨round.limit, cursor⟩).nextCursor with
    | none =>
      rw [hnext] at hends
      obtain rfl := List.isEmpty_iff.mp hends
      rw [if_pos (behind_of_last h hid hcursor hnext)] at hpage
      simpa only [hnext, List.flatMap_singleton, crossings, Nat.add_zero] using hpage
    | some next =>
      obtain ⟨-, hstop⟩ := listPage_nextCursor hlen hcursor hnext
      rw [hnext] at hends
      obtain ⟨next', rounds, rfl⟩ : ∃ next' rounds', rounds = next' :: rounds' :=
        List.exists_cons_of_ne_nil (by rintro rfl; cases hends)
      have hrest := ih (h.after round) (fun store hstore ↦ hfits store (List.mem_cons_of_mem _ hstore))
        hstop hends (Bool.and_eq_true_iff.mp hkept).2
      simp only [List.flatMap_cons, List.map_append, List.count_append, crossings]
      -- the page brings the key from its side of `offset` to that of the page's end, and the
      -- changes bring it from there to the side that the rest of the walk starts from
      generalize behind keys id (offset + pageSize round.limit) = before at hpage ⊢
      generalize behind (round.after keys) id (offset + pageSize round.limit) = afterwards at hrest ⊢
      generalize (if behind keys id offset then 1 else 0) = started at hpage ⊢
      cases before <;> cases afterwards <;>
        simp only [Bool.false_eq_true, Bool.not_true, Bool.not_false, ↓reduceIte, and_true, and_false,
          reduceCtorEq] at hpage hrest ⊢ <;> omega

/-- A walk over keys that change returns each key that stays exactly once if and only if the changes
move it over the position of the pages as often backward as forward. -/
theorem cursor_stable_iff (w : KeyWalk) :
    (∀ id, w.kept id = true → w.returned id = 1) ↔
      ∀ id, w.kept id = true → w.crossings id false = w.crossings id true := by
  refine forall₂_congr fun id hkept ↦ ?_
  have hcount := count_walkKeys w.keyed w.fits decodeCursor_empty w.ends hkept
  rw [if_neg (by simp [behind])] at hcount
  simp only [KeyWalk.returned, KeyWalk.crossings]
  omega

def insertionWalk : KeyWalk where
  keys := .put (.put ∅ { id := "b", secretHash := [], salt := [], createdAt := 0 })
    { id := "c", secretHash := [], salt := [], createdAt := 0 }
  rounds := [⟨"1", [.put { id := "a", secretHash := [], salt := [], createdAt := 0 }]⟩, ⟨"1", []⟩,
    ⟨"1", []⟩]
  keyed := by unfold KeysKeyed; decide +kernel
  fits := by decide +kernel
  ends := by decide +kernel

theorem insertionWalk_returns_twice :
    insertionWalk.kept "b" = true ∧ insertionWalk.returned "b" = 2 := by
  decide +kernel

end

end AgentGpu.HttpApi
