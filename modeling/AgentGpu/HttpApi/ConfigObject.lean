import AgentGpu.HttpApi.Config
import Mathlib.Data.List.Sort

namespace AgentGpu.HttpApi

open Sessions

def Field.key : Field → String
  | .heartbeatTimeout => "heartbeat_timeout"
  | .logLevel => "log_level"
  | .modelWarmMax => "model_warm_max"
  | .quotaDefaultDailyTokens => "quota_default_daily_tokens"
  | .quotaDefaultMonthlyTokens => "quota_default_monthly_tokens"
  | .quotaDefaultRPM => "quota_default_rpm"
  | .quotaDefaultTPM => "quota_default_tpm"
  | .quotaGlobalRPM => "quota_global_rpm"
  | .quotaGlobalTPM => "quota_global_tpm"
  | .sessionMaxBytes => "session_max_bytes"
  | .sessionMaxContextTokens => "session_max_context_tokens"
  | .sessionMaxSessionsPerKey => "session_max_sessions_per_key"
  | .sessionMaxTurns => "session_max_turns"
  | .sessionOverflowPolicy => "session_overflow_policy"
  | .sessionTTL => "session_ttl"

def isTunableField (key : String) : Bool := Field.all.any (·.key = key)

/-- A JSON value. Strings are told apart as in `Raw`, and numbers by their spelling: `integer`
is one without fraction and exponent. -/
inductive Json
  | null
  | text (s : String)
  | span (d : Duration)
  | integer (minus : Bool) (n : ℕ)
  | other
  deriving DecidableEq

/-- The value as the decoder of a field sees it. An unsigned integer takes no sign, not even
that of `-0`. -/
def Json.raw : Kind → Json → Raw
  | _, .null => .null
  | _, .text s => .text s
  | _, .span d => .span d
  | .limit, .integer true _ => .other
  | _, .integer true n => .int (-n)
  | _, .integer false n => .int n
  | _, .other => .other

abbrev JsonObject := List (String × Json)

/-- Of several members with one key the map has the last. -/
def member (o : JsonObject) (key : String) : Option Json :=
  (o.reverse.find? (·.1 = key)).map (·.2)

def overridesOf (o : JsonObject) : Overrides := fun f ↦ (member o f.key).map (·.raw f.kind)

def patchOf (o : JsonObject) : Patch where
  fields := overridesOf o
  others := ((o.map (·.1)).filter (!isTunableField ·)).insertionSort (· ≤ ·)

/-- What a value of the documented kind says: a listed name up to case and blanks, a
non-negative integer in range, a positive duration. -/
def Json.meaning : (k : Kind) → Json → Option k.Value
  | .level, .text s => if normalize s ∈ levelNames then some (normalize s) else none
  | .limit, .integer false n => if n < 2 ^ 64 then some (UInt64.ofNat n) else none
  | .cap, .integer false n => if n < 2 ^ 63 then some (n : ℤ) else none
  | .policy, .text s =>
    if normalize s = "trim" then some OverflowPolicy.trim
    else if normalize s = "reject" then some OverflowPolicy.reject
    else none
  | .span, .span d => if 0 < d then some d else none
  | _, _ => none

/-- The values that a decoder takes for zero though they are not of the documented kind. -/
def Json.slips : Kind → Json → Bool
  | .limit, .null | .cap, .null | .cap, .integer true 0 => true
  | _, _ => false

section

variable {f : Field} {k : Kind} {j : Json} {v : k.Value} {o : JsonObject}

theorem decodeUint_natCast {n : ℕ} (hn : n < 2 ^ 64) : decodeUint f (.int n) = .ok (.ofNat n) := by
  have hlt : (n : ℤ) < 2 ^ 64 := by exact_mod_cast hn
  simp only [decodeUint]
  rw [if_pos ⟨Int.natCast_nonneg n, hlt⟩, Int.toNat_natCast]

theorem decodeUint_natCast_error {n : ℕ} (hn : ¬ n < 2 ^ 64) :
    decodeUint f (.int n) = .error (.notInteger f) := by
  have hlt : ¬ (n : ℤ) < 2 ^ 64 := by exact_mod_cast hn
  simp only [decodeUint]
  rw [if_neg fun hrange ↦ hlt hrange.2]

theorem decodeNonNegInt_error {n : ℤ} (hn : ¬ (0 ≤ n ∧ n < 2 ^ 63)) :
    ∃ err, decodeNonNegInt f (.int n) = .error err := by
  simp only [decodeNonNegInt]
  split_ifs with hrange hneg
  · exact ⟨_, rfl⟩
  · omega
  · exact ⟨_, rfl⟩

theorem decodeField_level_text (s : String) :
    decodeField f (Json.raw .level (.text s)) .level =
      if normalize s ∈ levelNames then .ok (normalize s)
      else .error (.invalidLevel f (.text s)) := by
  simp only [decodeField, Json.raw, decodeName, validLogLevel, bind, Except.bind,
    decide_eq_true_eq]

theorem decodeField_of_meaning (h : j.meaning k = some v) : decodeField f (j.raw k) k = .ok v := by
  unfold Json.meaning at h
  split at h
  · next s =>
    split_ifs at h with hlevel
    rw [decodeField_level_text, if_pos hlevel, Option.some.inj h]
  · next n =>
    split_ifs at h with hn
    cases h
    simp only [decodeField, Json.raw]
    exact decodeUint_natCast hn
  · next n =>
    split_ifs at h with hn
    cases h
    simp only [decodeField, Json.raw]
    exact decodeNonNegInt_int ⟨Int.natCast_nonneg n, by exact_mod_cast hn⟩
  · next s =>
    simp only [decodeField, Json.raw, decodeName, bind, Except.bind]
    split_ifs at h ⊢ <;> cases h <;> rfl
  · split_ifs at h with hd
    cases h
    exact if_neg (Int.not_le.mpr hd)
  · cases h

theorem decodeField_of_slips (h : j.slips k) :
    j.meaning k = none ∧ ∃ v, decodeField f (j.raw k) k = .ok v := by
  unfold Json.slips at h
  split at h
  · exact ⟨rfl, _, rfl⟩
  · exact ⟨rfl, _, rfl⟩
  · exact ⟨rfl, _, decodeNonNegInt_int (f := f) (n := 0) (by decide)⟩
  · cases h

theorem decodeField_error (hm : j.meaning k = none) (hs : j.slips k = false) :
    ∃ err, decodeField f (j.raw k) k = .error err := by
  cases k with
  | level =>
    cases j with
    | text s =>
      have hs : normalize s ∉ levelNames := by simpa [Json.meaning] using hm
      rw [decodeField_level_text, if_neg hs]
      exact ⟨_, rfl⟩
    | integer minus n => cases minus <;> exact ⟨_, rfl⟩
    | _ => exact ⟨_, rfl⟩
  | limit =>
    cases j with
    | null => cases hs
    | integer minus n =>
      cases minus with
      | true => exact ⟨_, rfl⟩
      | false =>
        have hn : ¬ n < 2 ^ 64 := by simpa [Json.meaning] using hm
        simp only [decodeField, Json.raw]
        exact ⟨_, decodeUint_natCast_error hn⟩
    | _ => exact ⟨_, rfl⟩
  | cap =>
    cases j with
    | null => cases hs
    | integer minus n =>
      cases minus with
      | true =>
        have hn : n ≠ 0 := by
          rintro rfl
          cases hs
        simp only [decodeField, Json.raw]
        exact decodeNonNegInt_error (by omega)
      | false =>
        have hn : ¬ n < 2 ^ 63 := by simpa [Json.meaning] using hm
        simp only [decodeField, Json.raw]
        exact decodeNonNegInt_error (by omega)
    | _ => exact ⟨_, rfl⟩
  | policy =>
    cases j with
    | text s =>
      simp only [Json.meaning] at hm
      simp only [decodeField, Json.raw, decodeName, bind, Except.bind]
      split_ifs at hm ⊢
      exact ⟨_, rfl⟩
    | integer minus n => cases minus <;> exact ⟨_, rfl⟩
    | _ => exact ⟨_, rfl⟩
  | span =>
    cases j with
    | span d =>
      have hd : d ≤ 0 := by simpa [Json.meaning] using hm
      exact ⟨_, if_pos hd⟩
    | integer minus n => cases minus <;> exact ⟨_, rfl⟩
    | _ => exact ⟨_, rfl⟩

theorem isTunableField_iff {key : String} : isTunableField key ↔ ∃ f : Field, f.key = key := by
  simp [isTunableField, Field.mem_all]

theorem check_patchOf_iff : (patchOf o).check = .ok () ↔ ∀ m ∈ o, isTunableField m.1 := by
  have hothers : (patchOf o).others = [] ↔ ∀ m ∈ o, isTunableField m.1 := by
    simp [List.eq_nil_iff_forall_not_mem, patchOf]
  rw [← hothers, Patch.check]
  split <;> simp_all

theorem member_isSome {m : String × Json} (hm : m ∈ o) : (member o m.1).isSome := by
  simp only [member, Option.isSome_map, List.find?_isSome]
  exact ⟨m, List.mem_reverse.mpr hm, decide_eq_true rfl⟩

variable {dst next : ConfigSettings}

theorem next_of_absent (hnext : applyConfigPatch dst (overridesOf o) = .ok next)
    (hj : member o f.key = none) : next f = dst f := by
  have htakes := applyConfigPatch_eq_ok_iff.mp hnext f
  simpa only [Takes, overridesOf, hj, Option.map_none] using htakes

theorem decoded_of_member (hnext : applyConfigPatch dst (overridesOf o) = .ok next)
    (hj : member o f.key = some j) : decodeField f (j.raw f.kind) f.kind = .ok (next f) := by
  have htakes := applyConfigPatch_eq_ok_iff.mp hnext f
  simpa only [Takes, overridesOf, hj, Option.map_some] using htakes

theorem meaning_of_next (hnext : applyConfigPatch dst (overridesOf o) = .ok next)
    (hj : member o f.key = some j) (hm : (j.meaning f.kind).isSome) :
    j.meaning f.kind = some (next f) := by
  obtain ⟨v, hv⟩ := Option.isSome_iff_exists.mp hm
  have hdecoded := (decodeField_of_meaning hv).symm.trans (decoded_of_member hnext hj)
  rw [hv, Except.ok.inj hdecoded]

theorem exists_next_iff : (∃ next, applyConfigPatch dst (overridesOf o) = .ok next) ↔
    ∀ (f : Field) (j : Json), member o f.key = some j → (j.meaning f.kind).isSome ∨ j.slips f.kind := by
  constructor
  · rintro ⟨next, hnext⟩ f j hj
    cases hm : j.meaning f.kind with
    | some v => exact .inl rfl
    | none =>
      cases hs : j.slips f.kind with
      | true => exact .inr rfl
      | false =>
        obtain ⟨err, herr⟩ := decodeField_error (f := f) hm hs
        rw [decoded_of_member hnext hj] at herr
        cases herr
  · intro hall
    have hvalue (f : Field) : ∃ next, Takes dst (overridesOf o) next f := by
      cases hj : member o f.key with
      | none => exact ⟨dst, by simp [Takes, overridesOf, hj]⟩
      | some j =>
        obtain ⟨v, hv⟩ : ∃ v, decodeField f (j.raw f.kind) f.kind = .ok v := by
          rcases hall f j hj with hm | hs
          · obtain ⟨v, hv⟩ := Option.isSome_iff_exists.mp hm
            exact ⟨v, decodeField_of_meaning hv⟩
          · exact (decodeField_of_slips hs).2
        exact ⟨Function.update dst f v, by simp [Takes, overridesOf, hj, hv]⟩
    choose next hnext using hvalue
    exact ⟨fun f ↦ next f f, applyConfigPatch_eq_ok_iff.mpr hnext⟩

end

end AgentGpu.HttpApi
