import AgentGpu.Foundation.Suffixes
import AgentGpu.Sessions.Store
import Mathlib.Algebra.Order.BigOperators.Group.List
import Mathlib.Algebra.Order.Group.Nat
import Mathlib.Data.List.Induction

namespace AgentGpu.Sessions

open Foundation

variable {cost : Message → ℕ} {budget : ℤ} {turns turns' : List Message} {caps : HistoryCaps}

/-- One cap; a non-positive one is none. -/
def within (cost : Message → ℕ) (budget : ℤ) (turns : List Message) : Bool :=
  decide (budget > 0 → total cost turns ≤ budget)

theorem total_sublist (h : turns.Sublist turns') : total cost turns ≤ total cost turns' :=
  (h.map cost).sum_le_sum fun _ _ ↦ Nat.zero_le _

theorem within_closed (cost : Message → ℕ) (budget : ℤ) : SublistClosed (within cost budget) := by
  intro turns turns' hsub hfits
  have htotal : total cost turns ≤ total cost turns' := total_sublist hsub
  simp only [within, decide_eq_true_eq] at hfits ⊢
  omega

theorem total_one (turns : List Message) : total (fun _ ↦ 1) turns = turns.length := by
  simp [total]

theorem not_exceedsCap (caps : HistoryCaps) (turns : List Message) :
    (!exceedsCap caps turns) = (within (fun _ ↦ 1) caps.maxTurns turns &&
      (within turnBytes caps.maxBytes turns && within turnTokens caps.maxTokens turns)) := by
  rw [Bool.eq_iff_iff]
  simp only [exceedsCap, within, total_one, Bool.not_eq_true', decide_eq_false_iff_not,
    Bool.and_eq_true, decide_eq_true_eq]
  omega

theorem exceedsCap_nil (caps : HistoryCaps) : exceedsCap caps [] = false := by
  rw [← Bool.not_eq_true', not_exceedsCap]
  simp only [within, total, List.map_nil, List.sum_nil, Bool.and_eq_true, decide_eq_true_eq]
  exact ⟨le_of_lt, le_of_lt, le_of_lt⟩

theorem ite_dropOver_eq (cost : Message → ℕ) (budget : ℤ) (turns : List Message) :
    (if budget > 0 then dropOver cost budget (total cost turns) turns else turns) =
      keepSuffix (within cost budget) turns := by
  split_ifs with hpos
  · induction turns with
    | nil => rfl
    | cons first rest ih =>
      cases rest with
      | nil => rfl
      | cons second rest =>
        have hrest : total cost (first :: second :: rest) - cost first = total cost (second :: rest) := by
          simp [total]
        rw [dropOver, keepSuffix, hrest, ih]
        by_cases hover : (total cost (first :: second :: rest) : ℤ) > budget
        · rw [if_pos hover, if_neg]
          simp [within, hpos, hover]
        · rw [if_neg hover, if_pos]
          simp [within, not_lt.mp hover]
  · exact (keepSuffix_of_pass (by simp [within, hpos])).symm

theorem ite_drop_eq (maxTurns : ℤ) (turns : List Message) :
    (if maxTurns > 0 ∧ turns.length > maxTurns then turns.drop (turns.length - maxTurns.toNat) else turns) =
      keepSuffix (within (fun _ ↦ 1) maxTurns) turns := by
  induction turns with
  | nil => simp [keepSuffix]
  | cons first rest ih =>
    cases rest with
    | nil =>
      rw [if_neg (by simp; omega)]
      rfl
    | cons second rest =>
      rw [keepSuffix]
      by_cases hover : maxTurns > 0 ∧ ((first :: second :: rest).length : ℤ) > maxTurns
      · have hfits : ¬within (fun _ ↦ 1) maxTurns (first :: second :: rest) := by
          simpa [within, total_one] using hover
        have hlength : (first :: second :: rest).length - maxTurns.toNat =
            (second :: rest).length - maxTurns.toNat + 1 := by
          simp only [List.length_cons] at hover ⊢
          omega
        rw [if_pos hover, if_neg hfits, ← ih, hlength, List.drop_succ_cons]
        split_ifs with hstill
        · rfl
        · rw [Nat.sub_eq_zero_of_le (by omega), List.drop_zero]
      · have hfits : within (fun _ ↦ 1) maxTurns (first :: second :: rest) := by
          simpa [within, total_one, imp_iff_not_or] using hover
        rw [if_neg hover, if_pos hfits]

theorem trim_eq (caps : HistoryCaps) (turns : List Message) :
    trim caps turns = keepSuffix (fun turns ↦ !exceedsCap caps turns) turns := by
  simp only [trim, not_exceedsCap]
  rw [ite_drop_eq, ite_dropOver_eq, ite_dropOver_eq, keepSuffix_keepSuffix (within_closed _ _),
    keepSuffix_keepSuffix (within_closed _ _)]

theorem trim_of_not_exceedsCap (h : exceedsCap caps turns = false) : trim caps turns = turns := by
  rw [trim_eq]
  exact keepSuffix_of_pass (by simp [h])

theorem fitting_closed (caps : HistoryCaps) : SublistClosed fun turns ↦ !exceedsCap caps turns := by
  simp only [not_exceedsCap]
  exact (within_closed _ _).and ((within_closed _ _).and (within_closed _ _))

def LongestFitting (caps : HistoryCaps) (turns kept : List Message) : Prop :=
  (kept ≠ [] ∧ kept <:+ turns ∧ exceedsCap caps kept = false ∧
    ∀ s, s <:+ turns → exceedsCap caps s = false → s.length ≤ kept.length) ∨
  ∃ last, kept = [last] ∧ [last] <:+ turns ∧ exceedsCap caps [last]

theorem trim_longest (hne : turns ≠ []) : LongestFitting caps turns (trim caps turns) := by
  rw [trim_eq]
  set kept := keepSuffix (fun turns ↦ !exceedsCap caps turns) turns with hkept
  have hne : kept ≠ [] := keepSuffix_ne_nil hne
  have hsuffix : kept <:+ turns := keepSuffix_suffix _ turns
  by_cases hfits : exceedsCap caps kept = false
  · refine .inl ⟨hne, hsuffix, hfits, fun s hs hsfits ↦ ?_⟩
    exact length_le_keepSuffix hs (by simp [hsfits])
  · have hlength : kept.length ≤ 1 := by
      refine (keepSuffix_pass_or _ turns).resolve_left fun hpass ↦ hfits ?_
      simpa using hpass
    obtain ⟨last, hlast⟩ : ∃ last, kept = [last] :=
      List.length_eq_one_iff.mp (le_antisymm hlength (List.length_pos_iff.mpr hne))
    rw [hlast] at hsuffix hfits
    exact .inr ⟨last, hlast, hsuffix, Bool.not_eq_false _ ▸ hfits⟩

theorem trim_concat (caps : HistoryCaps) (turns : List Message) (turn : Message) :
    trim caps (trim caps turns ++ [turn]) = trim caps (turns ++ [turn]) := by
  simp only [trim_eq]
  exact keepSuffix_concat (fitting_closed caps) turns turn

namespace History

variable {h : History} {id : String}

theorem get_update (h : History) (id : String) (turns : List Message) :
    get (Function.update h id (some turns)) id = turns := by
  simp [get]

theorem appendBatch_eq_none :
    h.appendBatch caps id turns = none ↔
      caps.policy = .reject ∧ turns ≠ [] ∧ exceedsCap caps (h.get id ++ turns) := by
  rw [appendBatch]
  by_cases hempty : turns = []
  · simp [hempty]
  · simp [hempty]

theorem appendBatch_frame {h' : History} (ha : h.appendBatch caps id turns = some h') {id' : String}
    (hid : id' ≠ id) : h' id' = h id' := by
  simp only [appendBatch] at ha
  split_ifs at ha <;> cases ha
  · rfl
  · exact Function.update_of_ne hid _ _

theorem appendBatch_congr {p : History} (hid : p id = h id) :
    (p.appendBatch caps id turns).map (· id) = (h.appendBatch caps id turns).map (· id) := by
  have hget : p.get id = h.get id := congrArg (·.getD []) hid
  simp only [appendBatch, hget]
  split_ifs <;> simp [hid]

theorem appendBatch_within {h' : History} (hpolicy : caps.policy = .reject)
    (hfits : ∀ id turns, h id = some turns → exceedsCap caps turns = false)
    (ha : h.appendBatch caps id turns = some h') (id' : String) (turns' : List Message)
    (hstored : h' id' = some turns') : exceedsCap caps turns' = false := by
  simp only [appendBatch] at ha
  split_ifs at ha with hempty hreject <;> cases ha
  · exact hfits id' turns' hstored
  · by_cases hid : id' = id
    · subst hid
      rw [Function.update_self] at hstored
      cases hstored
      have hpass : exceedsCap caps (h.get id' ++ turns) = false := by
        simpa [hpolicy] using hreject
      rw [trim_of_not_exceedsCap hpass, hpass]
    · rw [Function.update_of_ne hid] at hstored
      exact hfits id' turns' hstored

theorem append_of_trim (hpolicy : caps.policy = .trim) (turn : Message) :
    h.append caps id turn = some (Function.update h id (some (trim caps (h.get id ++ [turn])))) :=
  if_neg fun hreject ↦ by simp [hpolicy] at hreject

theorem appendBatch_of_trim (hpolicy : caps.policy = .trim) (hne : turns ≠ []) :
    h.appendBatch caps id turns = some (Function.update h id (some (trim caps (h.get id ++ turns)))) := by
  rw [appendBatch, if_neg (by simpa using hne)]
  exact if_neg fun hreject ↦ by simp [hpolicy] at hreject

theorem foldlM_append (hpolicy : caps.policy = .trim) (hne : turns ≠ []) :
    turns.foldlM (fun h turn ↦ h.append caps id turn) h =
      some (Function.update h id (some (trim caps (h.get id ++ turns)))) := by
  induction turns using List.reverseRecOn with
  | nil => exact absurd rfl hne
  | append_singleton turns turn ih =>
    rw [List.foldlM_append]
    by_cases hempty : turns = []
    · subst hempty
      simp [append_of_trim hpolicy]
    · rw [ih hempty]
      simp [append_of_trim hpolicy, get_update, trim_concat]

end History

/-- Under the trim policy a batch leaves the longest suffix that is within the caps, as its
turns do when they come one at a time. -/
theorem appendBatch_keeps_longest (h : History) (caps : HistoryCaps) (hpolicy : caps.policy = .trim)
    (id : String) (turns : List Message) (hne : turns ≠ []) :
    ∃ kept, h.appendBatch caps id turns = some (Function.update h id (some kept)) ∧
      LongestFitting caps (h.get id ++ turns) kept ∧
      turns.foldlM (fun h turn ↦ h.append caps id turn) h = some (Function.update h id (some kept)) :=
  ⟨trim caps (h.get id ++ turns), History.appendBatch_of_trim hpolicy hne,
    trim_longest (List.append_ne_nil_of_right_ne_nil _ hne), History.foldlM_append hpolicy hne⟩

/-- A cap of five bytes lets the last two turns of a batch of three stay. -/
theorem appendBatch_keeps_longest_two :
    ∃ kept, History.appendBatch (fun _ ↦ none) { maxBytes := 5 } "sess_0"
        [{ content := "abc" }, { content := "de" }, { content := "fg" }] =
          some (Function.update (fun _ ↦ none) "sess_0" (some kept)) ∧
      kept = [{ content := "de" }, { content := "fg" }] := by
  obtain ⟨kept, hstored, -, -⟩ := appendBatch_keeps_longest (fun _ ↦ none) { maxBytes := 5 } rfl "sess_0"
    [{ content := "abc" }, { content := "de" }, { content := "fg" }] (List.cons_ne_nil _ _)
  refine ⟨kept, hstored, ?_⟩
  have hkept := congrFun (Option.some.inj hstored) "sess_0"
  rw [Function.update_self] at hkept
  exact Option.some.inj (hkept.symm.trans (by decide +kernel))

end AgentGpu.Sessions
