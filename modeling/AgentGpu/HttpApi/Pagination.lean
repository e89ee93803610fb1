import AgentGpu.Foundation.Text
import Mathlib.Data.List.Basic

namespace AgentGpu.HttpApi

open Foundation

def defaultPageSize : ℤ := 50

def maxPageSize : ℤ := 200

/-- The query parameters of a list request; an absent one is empty. -/
structure PageQuery where
  limit : String := ""
  cursor : String := ""

def encodeCursor (offset : ℤ) : String :=
  String.ofList (RawURL.encode (toBytes (itoa offset)))

def decodeCursor (cursor : String) : ℤ :=
  if cursor = "" then 0
  else
    match RawURL.decode cursor.toList with
    | none => 0
    | some raw =>
      match atoi (ofBytes raw) with
      | none => 0
      | some n => if n < 0 then 0 else n

def parsePageParams (r : PageQuery) : ℤ × ℤ :=
  let limit :=
    if r.limit ≠ "" then
      match atoi r.limit.toList with
      | some n => if n > 0 then n else defaultPageSize
      | none => defaultPageSize
    else defaultPageSize
  let limit := if limit > maxPageSize then maxPageSize else limit
  (limit, decodeCursor r.cursor)

section

variable {α : Type}

def paginate (items : List α) (limit offset : ℤ) : List α × Option String :=
  let n : ℤ := items.length
  let offset := if offset < 0 then 0 else offset
  if offset ≥ n then ([], none)
  else
    let stop := offset + limit
    let stop := if stop > n then n else stop
    ((items.take stop.toNat).drop offset.toNat, if stop < n then some (encodeCursor stop) else none)

structure ListEnvelope (α : Type) where
  data : List α
  nextCursor : Option String
  hasMore : Bool
  deriving DecidableEq

def writeList (items : List α) (limit offset : ℤ) : ListEnvelope α :=
  let (page, next) := paginate items limit offset
  ⟨page, next, next.isSome⟩

/-- The last lines of each list handler. -/
def listPage (items : List α) (r : PageQuery) : ListEnvelope α :=
  let (limit, offset) := parsePageParams r
  writeList items limit offset

/-- The requests of a client that follows the next cursors, with a limit of its own for each
page, while there is a next cursor. -/
def walk (items : List α) (cursor : String) : List String → List (ListEnvelope α)
  | [] => []
  | limit :: limits =>
    let page := listPage items ⟨limit, cursor⟩
    page :: match page.nextCursor with
      | none => []
      | some next => walk items next limits

end

def WellFormed (cursor : String) : Prop :=
  ∃ raw n, RawURL.decode cursor.toList = some raw ∧ atoi (ofBytes raw) = some n ∧ 0 ≤ n

theorem decodeCursor_empty : decodeCursor "" = ((0 : ℕ) : ℤ) := rfl

theorem decodeCursor_of_malformed {cursor : String} (h : ¬WellFormed cursor) :
    decodeCursor cursor = 0 := by
  unfold decodeCursor
  split_ifs
  · rfl
  · split
    · rfl
    · next raw hraw =>
      split
      · rfl
      · next n hn => exact if_pos (Int.not_le.mp fun h0 ↦ h ⟨raw, n, hraw, hn, h0⟩)

theorem decodeCursor_encodeCursor {offset : ℕ} (h : offset < 2 ^ 63) :
    decodeCursor (encodeCursor offset) = offset := by
  have hraw : RawURL.decode (encodeCursor offset).toList = some (toBytes (itoa offset)) := by
    rw [encodeCursor, String.toList_ofList, RawURL.decode_encode]
  have htext : ofBytes (toBytes (itoa offset)) = itoa offset :=
    ofBytes_toBytes fun _ ↦ toNat_lt_of_mem_itoa
  unfold decodeCursor
  split_ifs with hempty
  · rw [hempty] at hraw
    have hnil : toBytes (itoa offset) = [] := (Option.some.inj hraw).symm
    exact absurd (List.map_eq_nil_iff.mp hnil) Nat.toDigits_ne_nil
  · simp only [hraw, htext, atoi_itoa h, Int.natCast_nonneg, Int.not_lt.mpr, if_false]

def pageSize (limit : String) : ℕ := (parsePageParams ⟨limit, ""⟩).1.toNat

theorem pageSize_bounds (limit : String) : 1 ≤ pageSize limit ∧ pageSize limit ≤ 200 := by
  obtain ⟨n, hn, hparsed⟩ : ∃ n : ℤ, 1 ≤ n ∧
      (parsePageParams ⟨limit, ""⟩).1 = if n > maxPageSize then maxPageSize else n := by
    refine ⟨_, ?_, rfl⟩
    dsimp only
    split_ifs
    · split
      · next n _ =>
        split_ifs
        · omega
        · decide
      · decide
    · decide
  unfold pageSize
  rw [hparsed, maxPageSize]
  split_ifs <;> omega

section

variable {α : Type} {items : List α}

theorem paginate_natCast (limit offset : ℕ) :
    paginate items limit offset =
      ((items.drop offset).take limit,
        if offset + limit < items.length then some (encodeCursor ↑(offset + limit)) else none) := by
  unfold paginate
  dsimp only
  rw [if_neg (Int.not_lt.mpr (Int.natCast_nonneg offset))]
  by_cases hend : items.length ≤ offset
  · rw [if_pos (Int.ofNat_le.mpr hend), List.drop_eq_nil_of_le hend, List.take_nil, if_neg (by omega)]
  · rw [if_neg (by omega)]
    by_cases hstop : offset + limit < items.length
    · have hsum : ((offset : ℤ) + limit).toNat = offset + limit := by omega
      rw [if_neg (by omega), if_pos (by omega), if_pos hstop, hsum, List.drop_take,
        Int.toNat_natCast, Nat.add_sub_cancel_left, Int.natCast_add]
    · have hrest : (items.drop offset).take limit = items.drop offset :=
        List.take_of_length_le (by rw [List.length_drop]; omega)
      have hclamp : (if (offset : ℤ) + limit > items.length then (items.length : ℤ)
          else offset + limit) = items.length := by
        split_ifs <;> omega
      rw [hclamp, if_neg (Int.lt_irrefl _), if_neg hstop, hrest, Int.toNat_natCast, Int.toNat_natCast,
        List.take_length]

theorem listPage_eq {limit cursor : String} {offset : ℕ} (h : decodeCursor cursor = offset) :
    listPage items ⟨limit, cursor⟩ =
      ⟨(items.drop offset).take (pageSize limit),
        if offset + pageSize limit < items.length then some (encodeCursor ↑(offset + pageSize limit))
          else none,
        offset + pageSize limit < items.length⟩ := by
  have hparams : parsePageParams ⟨limit, cursor⟩ = (↑(pageSize limit), ↑offset) := by
    have hpos := (pageSize_bounds limit).1
    have hlimit : (parsePageParams ⟨limit, cursor⟩).1 = (parsePageParams ⟨limit, ""⟩).1 := rfl
    refine Prod.ext ?_ h
    unfold pageSize at hpos ⊢
    omega
  simp only [listPage, hparams, writeList, paginate_natCast]
  split_ifs with hmore <;> simp [hmore]

theorem listPage_nextCursor (hlen : items.length < 2 ^ 63) {limit cursor next : String} {offset : ℕ}
    (h : decodeCursor cursor = offset)
    (hnext : (listPage items ⟨limit, cursor⟩).nextCursor = some next) :
    offset + pageSize limit < items.length ∧ decodeCursor next = ↑(offset + pageSize limit) := by
  rw [listPage_eq h] at hnext
  dsimp only at hnext
  split_ifs at hnext with hmore
  obtain rfl := Option.some.inj hnext
  exact ⟨hmore, decodeCursor_encodeCursor (by omega)⟩

theorem listPage_last {limit cursor : String} {offset : ℕ} (h : decodeCursor cursor = offset)
    (hnext : (listPage items ⟨limit, cursor⟩).nextCursor = none) :
    items.length ≤ offset + pageSize limit := by
  rw [listPage_eq h] at hnext
  dsimp only at hnext
  split_ifs at hnext with hmore
  exact Nat.le_of_not_lt hmore

/-- The pages of a walk: one after the other they are the items, none is empty, and all but the
last say that there are more. -/
structure Partitions (items : List α) (pages : List (ListEnvelope α)) : Prop where
  concat : (pages.map ListEnvelope.data).flatten = items
  nonempty : ∀ page ∈ pages, page.data ≠ []
  hasMore : ∀ page ∈ pages.dropLast, page.hasMore = true
  last : ∃ page, pages.getLast? = some page ∧ page.nextCursor = none ∧ page.hasMore = false

theorem Partitions.cons {rest data : List α} {pages : List (ListEnvelope α)} (next : Option String)
    (h : Partitions rest pages) (hdata : data ≠ []) :
    Partitions (data ++ rest) (⟨data, next, true⟩ :: pages) := by
  obtain ⟨last, hlast, hend⟩ := h.last
  have hpages : pages ≠ [] := by
    rintro rfl
    cases hlast
  refine ⟨?_, ?_, ?_, last, ?_, hend⟩
  · rw [List.map_cons, List.flatten_cons, h.concat]
  · exact List.forall_mem_cons.mpr ⟨hdata, h.nonempty⟩
  · rw [List.dropLast_cons_of_ne_nil hpages]
    exact List.forall_mem_cons.mpr ⟨rfl, h.hasMore⟩
  · rw [List.getLast?_cons_of_ne_nil hpages, hlast]

theorem partitions_singleton {data : List α} (hdata : data ≠ []) :
    Partitions data [⟨data, none, false⟩] :=
  ⟨by simp, by simpa using hdata, by simp, _, rfl, rfl, rfl⟩

theorem walk_partitions_drop (hlen : items.length < 2 ^ 63) {cursor : String} {offset : ℕ}
    (h : decodeCursor cursor = offset) (hoff : offset < items.length) {limits : List String}
    (hfuel : items.length ≤ offset + limits.length) :
    Partitions (items.drop offset) (walk items cursor limits) := by
  induction limits generalizing cursor offset with
  | nil =>
    rw [List.length_nil] at hfuel
    omega
  | cons limit limits ih =>
    have hpos := (pageSize_bounds limit).1
    have hdata : (items.drop offset).take (pageSize limit) ≠ [] := by
      rw [ne_eq, List.take_eq_nil_iff, List.drop_eq_nil_iff]
      omega
    rw [walk, listPage_eq h]
    by_cases hmore : offset + pageSize limit < items.length
    · -- the next cursor is decoded to where this page has stopped
      have hnext := decodeCursor_encodeCursor (show offset + pageSize limit < 2 ^ 63 by omega)
      have hrest := ih hnext hmore (by rw [List.length_cons] at hfuel; omega)
      have hsplit : (items.drop offset).take (pageSize limit) ++ items.drop (offset + pageSize limit) =
          items.drop offset := by
        rw [← List.drop_drop, List.take_append_drop]
      have hpages := hrest.cons (some (encodeCursor ↑(offset + pageSize limit))) hdata
      rw [hsplit] at hpages
      simpa only [if_pos hmore, decide_eq_true hmore] using hpages
    · have hall : (items.drop offset).take (pageSize limit) = items.drop offset :=
        List.take_of_length_le (by rw [List.length_drop]; omega)
      rw [hall] at hdata ⊢
      simp only [if_neg hmore, decide_eq_false hmore]
      exact partitions_singleton hdata

/-- With any limits, at most as many requests as there are items visit all of them, and a
malformed cursor is answered with the first page. -/
theorem cursor_walk_partitions (items : List α) (hne : items ≠ []) (hlen : items.length < 2 ^ 63) :
    (∀ limits : ℕ → String,
      Partitions items (walk items "" ((List.range items.length).map limits))) ∧
      ∀ limit cursor, ¬WellFormed cursor →
        listPage items ⟨limit, cursor⟩ = listPage items ⟨limit, ""⟩ := by
  refine ⟨fun limits ↦ ?_, fun limit cursor h ↦ ?_⟩
  · have hwalk := walk_partitions_drop hlen decodeCursor_empty (List.length_pos_iff.mpr hne)
      (show items.length ≤ 0 + ((List.range items.length).map limits).length by simp)
    rwa [List.drop_zero] at hwalk
  · have hzero : decodeCursor cursor = ((0 : ℕ) : ℤ) := decodeCursor_of_malformed h
    rw [listPage_eq hzero, listPage_eq rfl]

theorem cursor_walk_partitions_three :
    walk [7, 8, 9] "" ["2", "x", "1"] = [⟨[7, 8], some "Mg", true⟩, ⟨[9], none, false⟩] ∧
      Partitions [7, 8, 9] (walk [7, 8, 9] "" ["2", "x", "1"]) := by
  refine ⟨by decide +kernel, ?_⟩
  exact (cursor_walk_partitions [7, 8, 9] (by decide) (by decide)).1 (["2", "x", "1"].getD · "")

end

end AgentGpu.HttpApi
