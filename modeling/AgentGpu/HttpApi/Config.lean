import AgentGpu.Sessions.Store
import Mathlib.Tactic.SplitIfs

namespace AgentGpu.HttpApi

open Sessions

inductive Field
  | heartbeatTimeout
  | logLevel
  | modelWarmMax
  | quotaDefaultDailyTokens
  | quotaDefaultMonthlyTokens
  | quotaDefaultRPM
  | quotaDefaultTPM
  | quotaGlobalRPM
  | quotaGlobalTPM
  | sessionMaxBytes
  | sessionMaxContextTokens
  | sessionMaxSessionsPerKey
  | sessionMaxTurns
  | sessionOverflowPolicy
  | sessionTTL
  deriving DecidableEq

def Field.all : List Field :=
  [.heartbeatTimeout, .logLevel, .modelWarmMax, .quotaDefaultDailyTokens,
    .quotaDefaultMonthlyTokens, .quotaDefaultRPM, .quotaDefaultTPM, .quotaGlobalRPM,
    .quotaGlobalTPM, .sessionMaxBytes, .sessionMaxContextTokens, .sessionMaxSessionsPerKey,
    .sessionMaxTurns, .sessionOverflowPolicy, .sessionTTL]

theorem Field.mem_all (f : Field) : f ∈ all := by
  cases f <;> decide

theorem Field.nodup_all : all.Nodup := by
  decide

inductive Kind
  | level
  | limit
  | cap
  | policy
  | span

def Kind.Value : Kind → Type
  | .level => String
  | .limit => UInt64
  | .cap => ℤ
  | .policy => OverflowPolicy
  | .span => Duration

def Field.kind : Field → Kind
  | .logLevel => .level
  | .quotaDefaultDailyTokens | .quotaDefaultMonthlyTokens | .quotaDefaultRPM | .quotaDefaultTPM
  | .quotaGlobalRPM | .quotaGlobalTPM => .limit
  | .sessionMaxBytes | .sessionMaxContextTokens | .sessionMaxSessionsPerKey
  | .sessionMaxTurns => .cap
  | .sessionOverflowPolicy => .policy
  | .heartbeatTimeout | .modelWarmMax | .sessionTTL => .span

abbrev ConfigSettings := (f : Field) → f.kind.Value

def readOnlyFields : List String :=
  ["log_format", "log_output", "quota_path", "server_http_listen", "server_listen",
    "server_metrics_listen", "session_path"]

/-- The JSON value of a field. A string in duration syntax is given by the duration it reads
as, `text` is any other string and `other` any other value. -/
inductive Raw
  | null
  | text (s : String)
  | span (d : Duration)
  | int (n : ℤ)
  | other
  deriving DecidableEq

inductive ConfigError
  | readOnly (key : String)
  | unknownField (key : String)
  | notString (f : Field)
  | invalidLevel (f : Field) (value : Raw)
  | invalidPolicy (f : Field) (value : Raw)
  | notInteger (f : Field)
  | negative (f : Field) (n : ℤ)
  | notDuration (f : Field) (value : Raw)
  | notPositive (f : Field) (d : Duration)
  deriving DecidableEq

/-- `strings.ToLower(strings.TrimSpace(s))`, as far as it is compared with names. -/
def normalize (s : String) : String :=
  let cs := ((s.toList.dropWhile isSpace).reverse.dropWhile isSpace).reverse
  String.ofList (cs.map toLower)

def levelNames : List String := ["debug", "info", "warn", "warning", "error"]

def validLogLevel (name : String) : Bool := normalize name ∈ levelNames

/-- No duration is a name, and `null` decodes as the zero value. -/
def decodeName (f : Field) : Raw → Except ConfigError String
  | .null | .span _ => .ok ""
  | .text s => .ok s
  | _ => .error (.notString f)

def decodeUint (f : Field) : Raw → Except ConfigError UInt64
  | .null => .ok 0
  | .int n => if 0 ≤ n ∧ n < 2 ^ 64 then .ok (.ofNat n.toNat) else .error (.notInteger f)
  | _ => .error (.notInteger f)

def decodeNonNegInt (f : Field) : Raw → Except ConfigError ℤ
  | .null => .ok 0
  | .int n =>
    if -2 ^ 63 ≤ n ∧ n < 2 ^ 63 then
      if n < 0 then .error (.negative f n) else .ok n
    else .error (.notInteger f)
  | _ => .error (.notInteger f)

def decodeDuration (f : Field) : Raw → Except ConfigError Duration
  | .span d => .ok d
  | raw => .error (.notDuration f raw)

def decodeField (f : Field) (raw : Raw) : (k : Kind) → Except ConfigError k.Value
  | .level => do
    let v ← decodeName f raw
    if validLogLevel v then .ok (normalize v) else .error (.invalidLevel f raw)
  | .limit => decodeUint f raw
  | .cap => decodeNonNegInt f raw
  | .policy => do
    let v ← decodeName f raw
    if normalize v = "trim" then .ok OverflowPolicy.trim
    else if normalize v = "reject" then .ok OverflowPolicy.reject
    else .error (.invalidPolicy f raw)
  | .span => do
    let d ← decodeDuration f raw
    if d ≤ 0 then .error (.notPositive f d) else .ok d

abbrev Overrides := Field → Option Raw

def patchField (raw : Overrides) (dst : ConfigSettings) (f : Field) :
    Except ConfigError ConfigSettings :=
  match raw f with
  | none => .ok dst
  | some msg => (decodeField f msg f.kind).map (Function.update dst f)

def applyConfigPatch (dst : ConfigSettings) (raw : Overrides) :
    Except ConfigError ConfigSettings :=
  Field.all.foldlM (patchField raw) dst

structure RuntimeConfig where
  cur : ConfigSettings
  persisted : Field → Bool := fun _ ↦ false

namespace RuntimeConfig

/-- The end of `apply`, after the appliers have taken the values. -/
def commit (rc : RuntimeConfig) (next : ConfigSettings) (raw : Overrides) : RuntimeConfig where
  cur := next
  persisted f := rc.persisted f || (raw f).isSome

def encode : (k : Kind) → k.Value → Raw
  | .level, s => .text s
  | .limit, n => .int n.toNat
  | .cap, n => .int n
  | .policy, .trim => .text "trim"
  | .policy, .reject => .text "reject"
  | .span, d => .span d

def checkpoint (rc : RuntimeConfig) : Overrides :=
  fun f ↦ if rc.persisted f then some (encode f.kind (rc.cur f)) else none

end RuntimeConfig

/-- A body of `PUT /v1/admin/config`; `others` are its other keys, sorted. -/
structure Patch where
  fields : Overrides
  others : List String := []

def Patch.check (patch : Patch) : Except ConfigError Unit :=
  match patch.others with
  | [] => .ok ()
  | key :: _ => .error (if key ∈ readOnlyFields then .readOnly key else .unknownField key)

section Patch

variable {dst next initial : ConfigSettings} {raw : Overrides} {f : Field}

def Takes (dst : ConfigSettings) (raw : Overrides) (next : ConfigSettings) (f : Field) : Prop :=
  match raw f with
  | none => next f = dst f
  | some msg => decodeField f msg f.kind = .ok (next f)

theorem takes_update_of_ne {g : Field} (hg : g ≠ f) {v : f.kind.Value} :
    Takes (Function.update dst f v) raw next g ↔ Takes dst raw next g := by
  rw [Takes, Takes, Function.update_of_ne hg]

theorem foldlM_patchField {fs : List Field} (hfs : fs.Nodup) :
    fs.foldlM (patchField raw) dst = .ok next ↔
      (∀ f ∈ fs, Takes dst raw next f) ∧ ∀ f ∉ fs, next f = dst f := by
  induction fs generalizing dst with
  | nil =>
    simp only [List.foldlM_nil, List.not_mem_nil, false_imp_iff, implies_true, true_and,
      not_false_eq_true, true_imp_iff]
    exact ⟨fun h f ↦ congrFun (Except.ok.inj h).symm f, fun h ↦ congrArg _ (funext h).symm⟩
  | cons f fs ih =>
    obtain ⟨hf, hfs⟩ := List.nodup_cons.mp hfs
    have hne {g : Field} (hg : g ∈ fs) : g ≠ f := fun h ↦ hf (h ▸ hg)
    rw [List.foldlM_cons, List.forall_mem_cons]
    cases hraw : raw f with
    | none =>
      have hstep : patchField raw dst f = .ok dst := by simp [patchField, hraw]
      have htakes : Takes dst raw next f ↔ next f = dst f := by simp [Takes, hraw]
      rw [hstep, htakes]
      refine (ih hfs).trans ⟨fun h ↦ ⟨⟨h.2 f hf, h.1⟩, fun g hg ↦ ?_⟩, fun h ↦ ⟨h.1.2, fun g hg ↦ ?_⟩⟩
      · exact h.2 g fun hg' ↦ hg (List.mem_cons_of_mem f hg')
      · by_cases hgf : g = f
        · exact hgf ▸ h.1.1
        · exact h.2 g (List.not_mem_cons_of_ne_of_not_mem hgf hg)
    | some msg =>
      have htakes : Takes dst raw next f ↔ decodeField f msg f.kind = .ok (next f) := by
        simp [Takes, hraw]
      rw [htakes]
      cases hv : decodeField f msg f.kind with
      | error err =>
        have hstep : patchField raw dst f = .error err := by simp [patchField, hraw, hv, Except.map]
        rw [hstep]
        constructor
        · exact nofun
        · rintro ⟨⟨h, -⟩, -⟩
          cases h
      | ok v =>
        have hstep : patchField raw dst f = .ok (Function.update dst f v) := by
          simp [patchField, hraw, hv, Except.map]
        rw [hstep, Except.ok.injEq]
        refine (ih hfs).trans ?_
        constructor
        · rintro ⟨htakes, hrest⟩
          refine ⟨⟨?_, fun g hg ↦ (takes_update_of_ne (hne hg)).mp (htakes g hg)⟩, fun g hg ↦ ?_⟩
          · rw [hrest f hf, Function.update_self]
          · obtain ⟨hgf, hg⟩ := List.ne_and_not_mem_of_not_mem_cons hg
            rw [hrest g hg, Function.update_of_ne hgf]
        · rintro ⟨⟨hnext, htakes⟩, hrest⟩
          refine ⟨fun g hg ↦ (takes_update_of_ne (hne hg)).mpr (htakes g hg), fun g hg ↦ ?_⟩
          by_cases hgf : g = f
          · subst hgf
            rw [Function.update_self, hnext]
          · rw [Function.update_of_ne hgf]
            exact hrest g (List.not_mem_cons_of_ne_of_not_mem hgf hg)

theorem applyConfigPatch_eq_ok_iff :
    applyConfigPatch dst raw = .ok next ↔ ∀ f, Takes dst raw next f := by
  rw [applyConfigPatch, foldlM_patchField Field.nodup_all]
  simp [Field.mem_all]

def Kind.Valid : (k : Kind) → k.Value → Prop
  | .level => fun s : String ↦ s ∈ levelNames
  | .cap => fun n : ℤ ↦ 0 ≤ n ∧ n < 2 ^ 63
  | .span => fun d : ℤ ↦ 0 < d
  | .limit | .policy => fun _ ↦ True

theorem decodeNonNegInt_valid {msg : Raw} {n : ℤ} (h : decodeNonNegInt f msg = .ok n) :
    0 ≤ n ∧ n < 2 ^ 63 := by
  unfold decodeNonNegInt at h
  split at h
  · cases h
    omega
  · split_ifs at h
    cases h
    omega
  · cases h

theorem decodeField_valid {msg : Raw} {k : Kind} {v : k.Value} (h : decodeField f msg k = .ok v) :
    k.Valid v := by
  cases k with
  | level =>
    simp only [decodeField, bind, Except.bind] at h
    split at h
    · cases h
    · split_ifs at h with hlevel
      cases h
      exact of_decide_eq_true (p := normalize _ ∈ levelNames) hlevel
  | cap => exact decodeNonNegInt_valid h
  | span =>
    simp only [decodeField, bind, Except.bind] at h
    split at h
    · cases h
    · split_ifs at h with hpos
      cases h
      exact Int.not_le.mp hpos
  | limit | policy => trivial

theorem validLogLevel_of_mem : ∀ s ∈ levelNames, validLogLevel s ∧ normalize s = s := by
  decide

theorem decodeUint_toNat (n : UInt64) : decodeUint f (.int n.toNat) = .ok n := by
  have hlt : (n.toNat : ℤ) < 2 ^ 64 := by exact_mod_cast n.toNat_lt
  simp only [decodeUint]
  rw [if_pos ⟨Int.natCast_nonneg _, hlt⟩, Int.toNat_natCast, UInt64.ofNat_toNat]

theorem decodeNonNegInt_int {n : ℤ} (hn : 0 ≤ n ∧ n < 2 ^ 63) : decodeNonNegInt f (.int n) = .ok n := by
  have hrange : -2 ^ 63 ≤ n ∧ n < 2 ^ 63 := by omega
  simp only [decodeNonNegInt]
  rw [if_pos hrange, if_neg (Int.not_lt.mpr hn.1)]

theorem decodeField_policy (p : OverflowPolicy) :
    decodeField f (RuntimeConfig.encode .policy p) .policy = .ok p := by
  have htrim : normalize "trim" = "trim" := by decide
  have hreject : normalize "reject" = "reject" := by decide
  cases p <;> simp [decodeField, RuntimeConfig.encode, decodeName, bind, Except.bind, htrim, hreject]

theorem decodeField_encode {k : Kind} {v : k.Value} (hv : k.Valid v) :
    decodeField f (RuntimeConfig.encode k v) k = .ok v := by
  cases k with
  | level =>
    obtain ⟨hlevel, hnorm⟩ := validLogLevel_of_mem v hv
    simp only [decodeField, RuntimeConfig.encode, decodeName, bind, Except.bind]
    rw [if_pos hlevel, hnorm]
  | limit =>
    rw [decodeField, RuntimeConfig.encode]
    exact decodeUint_toNat v
  | cap => exact decodeNonNegInt_int hv
  | policy => exact decodeField_policy v
  | span => exact if_neg (Int.not_le.mpr hv)

namespace RuntimeConfig

variable {rc : RuntimeConfig}

def Tracks (initial : ConfigSettings) (rc : RuntimeConfig) : Prop :=
  ∀ f, if rc.persisted f then f.kind.Valid (rc.cur f) else rc.cur f = initial f

theorem Tracks.commit (h : Tracks initial rc) (hnext : applyConfigPatch rc.cur raw = .ok next) :
    Tracks initial (rc.commit next raw) := by
  intro f
  have hf := applyConfigPatch_eq_ok_iff.mp hnext f
  have hold := h f
  unfold Takes at hf
  cases hraw : raw f with
  | none =>
    simp only [hraw] at hf
    simpa [RuntimeConfig.commit, hraw, hf] using hold
  | some msg =>
    simp only [hraw] at hf
    simpa [RuntimeConfig.commit, hraw] using decodeField_valid hf

theorem Tracks.restore (h : Tracks initial rc) :
    applyConfigPatch initial rc.checkpoint = .ok rc.cur := by
  rw [applyConfigPatch_eq_ok_iff]
  intro f
  have hf := h f
  unfold Takes checkpoint
  by_cases hp : rc.persisted f
  · simp only [hp, if_true] at hf ⊢
    exact decodeField_encode hf
  · simp only [hp] at hf ⊢
    exact hf

end RuntimeConfig

end Patch

end AgentGpu.HttpApi
