import AgentGpu.Cmd.Coherence
import AgentGpu.HttpApi.ConfigObject

namespace AgentGpu.Cmd

open Sessions HttpApi

inductive Setting
  | level (l : Level)
  | limit (n : UInt64)
  | count (n : ℤ)
  | policy (p : OverflowPolicy)
  | span (d : Duration)
  deriving DecidableEq

def setting : (f : Field) → f.kind.Value → Setting
  | .logLevel, name => .level (parseLevel name).1
  | .quotaDefaultDailyTokens, n | .quotaDefaultMonthlyTokens, n | .quotaDefaultRPM, n
  | .quotaDefaultTPM, n | .quotaGlobalRPM, n | .quotaGlobalTPM, n => .limit n
  | .sessionMaxBytes, n | .sessionMaxContextTokens, n | .sessionMaxTurns, n => .count n
  | .sessionMaxSessionsPerKey, n => .count (Int.toNat n)
  | .sessionOverflowPolicy, policy => .policy policy
  | .heartbeatTimeout, d | .modelWarmMax, d | .sessionTTL, d => .span d

def grouped : Field → Bool
  | .logLevel | .sessionTTL | .modelWarmMax | .heartbeatTimeout => false
  | _ => true

namespace Plane

def inForce (p : Plane) : Field → Setting
  | .logLevel => .level p.level
  | .quotaDefaultDailyTokens => .limit p.quota.defaults.dailyTokens
  | .quotaDefaultMonthlyTokens => .limit p.quota.defaults.monthlyTokens
  | .quotaDefaultRPM => .limit p.quota.defaults.rpm
  | .quotaDefaultTPM => .limit p.quota.defaults.tpm
  | .quotaGlobalRPM => .limit p.quota.global.rpm
  | .quotaGlobalTPM => .limit p.quota.global.tpm
  | .sessionMaxBytes => .count p.manager.caps.maxBytes
  | .sessionMaxContextTokens => .count p.manager.caps.maxTokens
  | .sessionMaxTurns => .count p.manager.caps.maxTurns
  | .sessionMaxSessionsPerKey => .count p.manager.maxPerKey
  | .sessionOverflowPolicy => .policy p.manager.caps.policy
  | .heartbeatTimeout => .span p.server.heartbeatTimeout
  | .modelWarmMax => .span p.modelWarmMax
  | .sessionTTL => .span p.manager.ttl

variable {p : Plane} {next : ConfigSettings} {raw : Overrides} {f : Field}

theorem inForce_of_present (hf : (raw f).isSome) :
    (p.applied next raw).inForce f = setting f (next f) := by
  cases f <;> simp [applied, inForce, setting, hf, quotaDefaultsChanged, quotaGlobalChanged,
    sessionCapsChanged, quotaDefaults, quotaGlobal, historyCaps]

theorem inForce_of_absent (hf : raw f = none) :
    (p.applied next raw).inForce f = p.inForce f ∨
      grouped f ∧ (p.applied next raw).inForce f = setting f (next f) := by
  cases f with
  | logLevel | sessionTTL | modelWarmMax | heartbeatTimeout => exact .inl (by simp [applied, inForce, hf])
  | quotaDefaultDailyTokens | quotaDefaultMonthlyTokens | quotaDefaultRPM | quotaDefaultTPM =>
    by_cases hraw : quotaDefaultsChanged raw <;>
      simp [applied, inForce, setting, grouped, hraw, quotaDefaults]
  | quotaGlobalRPM | quotaGlobalTPM =>
    by_cases hraw : quotaGlobalChanged raw <;>
      simp [applied, inForce, setting, grouped, hraw, quotaGlobal]
  | sessionMaxBytes | sessionMaxContextTokens | sessionMaxTurns | sessionMaxSessionsPerKey
  | sessionOverflowPolicy =>
    by_cases hraw : sessionCapsChanged raw <;>
      simp [applied, inForce, setting, grouped, hraw, historyCaps]

end Plane

theorem newManager_maxPerKey (initial : ConfigSettings) (files : Files) (now : Time) :
    (newManager initial files now).maxPerKey = Int.toNat (initial .sessionMaxSessionsPerKey) := by
  have hboot (m : Manager) (d : Duration) : (Sessions.boot (setTTL m d)).maxPerKey = m.maxPerKey := by
    obtain ⟨ttl, httl⟩ := setTTL_eq m d
    rw [httl]
    rfl
  exact hboot _ _

theorem inForce_newPlane (initial : ConfigSettings) (saved : Saved) (now : Time) {f : Field}
    (hf : grouped f) : (newPlane initial saved now).inForce f = setting f (initial f) := by
  have hcaps := (newManager_eq initial ⟨saved.sessions, saved.history, fun _ ↦ none⟩ now).2.2.1
  have hmax := newManager_maxPerKey initial ⟨saved.sessions, saved.history, fun _ ↦ none⟩ now
  cases f with
  | logLevel | sessionTTL | modelWarmMax | heartbeatTimeout => cases hf
  | sessionMaxBytes | sessionMaxContextTokens | sessionMaxTurns | sessionOverflowPolicy =>
    simp [Plane.inForce, newPlane, hcaps, historyCaps, setting]
  | sessionMaxSessionsPerKey => simp [Plane.inForce, newPlane, hmax, setting]
  | _ => rfl

section Put

/-- Every member has a tunable field's key and a value of its documented kind. -/
def Documented (o : JsonObject) : Prop :=
  (∀ m ∈ o, isTunableField m.1) ∧
    ∀ (f : Field) (j : Json), member o f.key = some j → (j.meaning f.kind).isSome

/-- What a request leaves of a field: the documented meaning of its value, reported and in
force, or what was reported before. -/
def TakenFrom (o : JsonObject) (h h' : Host) (f : Field) : Prop :=
  match member o f.key with
  | none => h'.plane.config.cur f = h.plane.config.cur f
  | some j => j.meaning f.kind = some (h'.plane.config.cur f) ∧
      h'.plane.inForce f = setting f (h'.plane.config.cur f)

/-- A body that is not as documented is refused and leaves everything as it was; of any other
body every member is taken. -/
structure AllOrNothing (h : Host) (o : JsonObject) : Prop where
  refused : ¬ Documented o → ∃ err, h.step (.put (patchOf o)) = (h, .invalid err)
  taken : Documented o → (h.step (.put (patchOf o))).2 = (if o = [] then .unchanged else .applied) ∧
    ∀ f, TakenFrom o h (h.step (.put (patchOf o))).1 f

variable {h : Host} {o : JsonObject}

theorem unchanged_overridesOf (hkeys : ∀ m ∈ o, isTunableField m.1) :
    Process.unchanged (overridesOf o) ↔ o = [] := by
  rw [unchanged_iff]
  constructor
  · intro hnone
    cases o with
    | nil => rfl
    | cons m o =>
      obtain ⟨f, hf⟩ := isTunableField_iff.mp (hkeys m List.mem_cons_self)
      have hsome := member_isSome (o := m :: o) List.mem_cons_self
      rw [← hf, ← Option.isSome_map, show (member (m :: o) f.key).map (·.raw f.kind) = none from hnone f]
        at hsome
      cases hsome
  · rintro rfl f
    rfl

theorem step_put (hkeys : ∀ m ∈ o, isTunableField m.1) :
    h.step (.put (patchOf o)) = h.update (overridesOf o) := by
  unfold Host.step
  dsimp only
  rw [check_patchOf_iff.mpr hkeys]
  rfl

def Spoilt (o : JsonObject) : Prop :=
  (∃ m ∈ o, isTunableField m.1 = false) ∨
    ∃ (f : Field) (j : Json), member o f.key = some j ∧ j.meaning f.kind = none ∧ j.slips f.kind = false

theorem not_documented_of_spoilt (hbad : Spoilt o) : ¬ Documented o := by
  rintro ⟨hkeys, hvalues⟩
  rcases hbad with ⟨m, hm, hkey⟩ | ⟨f, j, hj, hmeaning, -⟩
  · simp [hkeys m hm] at hkey
  · simpa [hmeaning] using hvalues f j hj

theorem exists_next_of_not_spoilt (hgood : ¬ Spoilt o) (dst : ConfigSettings) :
    (∀ m ∈ o, isTunableField m.1) ∧ ∃ next, applyConfigPatch dst (overridesOf o) = .ok next := by
  rw [Spoilt, not_or] at hgood
  push Not at hgood
  refine ⟨fun m hm ↦ by simpa using hgood.1 m hm, exists_next_iff.mpr fun f j hj ↦ ?_⟩
  cases hm : j.meaning f.kind with
  | some v => exact .inl rfl
  | none => exact .inr (by simpa using hgood.2 f j hj hm)

theorem put_refused (hbad : Spoilt o) :
    ∃ err, h.step (.put (patchOf o)) = (h, .invalid err) := by
  cases hcheck : (patchOf o).check with
  | error err => exact ⟨err, by simp [Host.step, hcheck]⟩
  | ok u =>
    have hkeys := check_patchOf_iff.mp hcheck
    rcases hbad with ⟨m, hm, hkey⟩ | ⟨f, j, hj, hmeaning, hslips⟩
    · simp [hkeys m hm] at hkey
    · have hnone : ¬ ∃ next, applyConfigPatch h.plane.config.cur (overridesOf o) = .ok next := by
        rw [exists_next_iff]
        intro hall
        have hbad := hall f j hj
        simp [hmeaning, hslips] at hbad
      cases hnext : applyConfigPatch h.plane.config.cur (overridesOf o) with
      | ok next => exact absurd ⟨next, hnext⟩ hnone
      | error err => exact ⟨err, by rw [step_put hkeys, Host.update, hnext]⟩

theorem put_accepted (hkeys : ∀ m ∈ o, isTunableField m.1) {next : ConfigSettings}
    (hnext : applyConfigPatch h.plane.config.cur (overridesOf o) = .ok next) :
    h.step (.put (patchOf o)) = if o = [] then (h, .unchanged)
      else (⟨h.plane.applied next (overridesOf o),
        (h.plane.config.commit next (overridesOf o)).checkpoint⟩, .applied) := by
  rw [step_put hkeys, Host.update, hnext]
  dsimp only
  by_cases ho : o = []
  · rw [if_pos ho, if_pos ((unchanged_overridesOf hkeys).mpr ho)]
  · rw [if_neg ho, if_neg (mt (unchanged_overridesOf hkeys).mp ho), Plane.apply_eq hnext]
    rfl

theorem AllOrNothing.of_documented (hD : Documented o) : AllOrNothing h o := by
  refine ⟨absurd hD, fun _ ↦ ?_⟩
  obtain ⟨hkeys, hvalues⟩ := hD
  obtain ⟨next, hnext⟩ : ∃ next, applyConfigPatch h.plane.config.cur (overridesOf o) = .ok next :=
    exists_next_iff.mpr fun f j hj ↦ .inl (hvalues f j hj)
  rw [put_accepted hkeys hnext]
  by_cases ho : o = []
  · subst ho
    exact ⟨rfl, fun f ↦ rfl⟩
  · rw [if_neg ho, if_neg ho]
    refine ⟨rfl, fun f ↦ ?_⟩
    unfold TakenFrom
    split
    · next hj => exact next_of_absent hnext hj
    · next j hj =>
      refine ⟨meaning_of_next hnext hj (hvalues f j hj), Plane.inForce_of_present ?_⟩
      simp [overridesOf, hj]

/-- A config update is all or nothing exactly if no limit or cap is `null` and no cap is `-0`,
or something else in the body makes it be refused. -/
theorem put_all_or_nothing_iff (h : Host) (o : JsonObject) :
    AllOrNothing h o ↔
      (∀ (f : Field) (j : Json), member o f.key = some j → j.slips f.kind = false) ∨ Spoilt o := by
  by_cases hbad : Spoilt o
  · exact iff_of_true ⟨fun _ ↦ put_refused hbad, fun hD ↦ absurd hD (not_documented_of_spoilt hbad)⟩
      (.inr hbad)
  · obtain ⟨hkeys, next, hnext⟩ := exists_next_of_not_spoilt hbad h.plane.config.cur
    constructor
    · intro hall
      refine .inl fun f j hj ↦ Bool.eq_false_iff.mpr fun hs ↦ ?_
      -- the member is taken for zero and not of its kind, and still the body is accepted
      have hD : ¬ Documented o := fun hD ↦ by
        have hsome := hD.2 f j hj
        rw [(decodeField_of_slips (f := f) hs).1] at hsome
        cases hsome
      obtain ⟨err, herr⟩ := hall.refused hD
      rw [put_accepted hkeys hnext] at herr
      split_ifs at herr <;> simp at herr
    · rintro (hclean | hbad')
      · refine .of_documented ⟨hkeys, fun f j hj ↦ ?_⟩
        have hok := exists_next_iff.mp ⟨next, hnext⟩ f j hj
        simpa [hclean f j hj] using hok
      · exact absurd hbad' hbad

/-- `null` for a limit of sixty requests a minute is accepted and lifts the limit. -/
theorem null_lifts_limit :
    let h : Host := ⟨newPlane (Function.update defaultFlags .quotaDefaultRPM (60 : UInt64)) {} 0, fun _ ↦ none⟩
    let (h', res) := h.step (.put (patchOf [("quota_default_rpm", .null)]))
    res = .applied ∧ h.plane.inForce .quotaDefaultRPM = .limit 60 ∧
      h'.plane.inForce .quotaDefaultRPM = .limit 0 := by
  decide +kernel

end Put

section Load

inductive CheckpointFile
  | missing
  | unreadable
  | empty
  | malformed
  | object (o : JsonObject)

inductive LoadError
  | read
  | parse
  deriving DecidableEq

def Plane.loadConfigFile (p : Plane) : CheckpointFile → Plane × Option LoadError
  | .missing | .empty => (p, none)
  | .unreadable => (p, some .read)
  | .malformed => (p, some .parse)
  | .object o => (p.loadConfigCheckpoint (overridesOf o), none)

structure Overridden (q : Plane) (f : Field) (v : f.kind.Value) : Prop where
  reported : q.config.cur f = v
  inForce : q.inForce f = setting f v
  persisted : q.config.persisted f = true

structure AtBoot (p q : Plane) (f : Field) : Prop where
  reported : q.config.cur f = p.config.cur f
  inForce : q.inForce f = p.inForce f
  persisted : q.config.persisted f = false

/-- The load returns no error, applies the entries that name a tunable field with a valid value
and leaves the other fields at their boot values. -/
def SkipsOnlyBad (p : Plane) (o : JsonObject) : Prop :=
  (p.loadConfigFile (.object o)).2 = none ∧
    ∀ f, match (member o f.key).bind (·.meaning f.kind) with
      | some v => Overridden (p.loadConfigFile (.object o)).1 f v
      | none => AtBoot p (p.loadConfigFile (.object o)).1 f

variable {p : Plane} {o : JsonObject} {initial : ConfigSettings} {saved : Saved} {now : Time}

theorem load_dropped {f : Field} {j : Json} (hj : member o f.key = some j)
    (hmeaning : j.meaning f.kind = none) (hslips : j.slips f.kind = false) :
    p.loadConfigCheckpoint (overridesOf o) = p := by
  unfold Plane.loadConfigCheckpoint
  split_ifs
  · rfl
  · split
    · rfl
    · next next hnext =>
      have hok := exists_next_iff.mp ⟨next, hnext⟩ f j hj
      simp [hmeaning, hslips] at hok

theorem load_applied {next : ConfigSettings} (hnext : applyConfigPatch p.config.cur (overridesOf o) = .ok next)
    {f : Field} {j : Json} (hj : member o f.key = some j) :
    p.loadConfigCheckpoint (overridesOf o) = p.applied next (overridesOf o) := by
  have hchanged : ¬ Process.unchanged (overridesOf o) := fun hnone ↦ by
    have hf := unchanged_iff.mp hnone f
    simp [overridesOf, hj] at hf
  unfold Plane.loadConfigCheckpoint
  rw [if_neg hchanged, hnext]
  dsimp only
  rw [Plane.apply_eq hnext]

theorem atBoot_refl (f : Field) : AtBoot (newPlane initial saved now) (newPlane initial saved now) f :=
  ⟨rfl, rfl, rfl⟩

theorem atBoot_of_absent {next : ConfigSettings}
    (hnext : applyConfigPatch initial (overridesOf o) = .ok next) {f : Field}
    (hj : member o f.key = none) :
    AtBoot (newPlane initial saved now) ((newPlane initial saved now).applied next (overridesOf o)) f := by
  have hnone : overridesOf o f = none := by simp [overridesOf, hj]
  have hsame : next f = initial f := next_of_absent hnext hj
  refine ⟨hsame, ?_, ?_⟩
  · let p := newPlane initial saved now
    have hcases : (p.applied next (overridesOf o)).inForce f = p.inForce f ∨
        grouped f ∧ (p.applied next (overridesOf o)).inForce f = setting f (next f) :=
      Plane.inForce_of_absent hnone
    rcases hcases with hkept | ⟨hgroup, hset⟩
    · exact hkept
    · rw [hset, hsame, inForce_newPlane initial saved now hgroup]
  · simp [Plane.applied, RuntimeConfig.commit, newPlane, hnone]

theorem persisted_of_member {next : ConfigSettings} {f : Field} {j : Json} (hj : member o f.key = some j) :
    (p.applied next (overridesOf o)).config.persisted f = true := by
  simp [Plane.applied, RuntimeConfig.commit, overridesOf, hj]

theorem overridden_of_member {next : ConfigSettings}
    (hnext : applyConfigPatch p.config.cur (overridesOf o) = .ok next) {f : Field} {j : Json}
    {v : f.kind.Value} (hj : member o f.key = some j) (hv : j.meaning f.kind = some v) :
    Overridden (p.applied next (overridesOf o)) f v := by
  have hsome : (overridesOf o f).isSome := by simp [overridesOf, hj]
  obtain rfl : next f = v :=
    Option.some.inj ((meaning_of_next hnext hj (by simp [hv])).symm.trans hv)
  exact ⟨rfl, Plane.inForce_of_present hsome, persisted_of_member hj⟩

theorem skipsOnlyBad_of_dropped (hload : (newPlane initial saved now).loadConfigCheckpoint (overridesOf o) =
      newPlane initial saved now) :
    SkipsOnlyBad (newPlane initial saved now) o ↔
      ∀ (f : Field) (j : Json), member o f.key = some j → j.meaning f.kind = none := by
  simp only [SkipsOnlyBad, Plane.loadConfigFile, hload, true_and]
  constructor
  · intro hall f j hj
    have hf := hall f
    rw [hj, Option.bind_some] at hf
    split at hf
    · cases hf.persisted
    · assumption
  · intro hnone f
    have hbind : (member o f.key).bind (·.meaning f.kind) = none :=
      Option.bind_eq_none_iff.mpr fun j hj ↦ hnone f j hj
    rw [hbind]
    exact atBoot_refl f

theorem skipsOnlyBad_of_decoded {next : ConfigSettings}
    (hnext : applyConfigPatch initial (overridesOf o) = .ok next) :
    SkipsOnlyBad (newPlane initial saved now) o ↔
      ∀ (f : Field) (j : Json), member o f.key = some j → (j.meaning f.kind).isSome := by
  by_cases hany : ∃ (f : Field) (j : Json), member o f.key = some j
  · obtain ⟨f₀, j₀, hj₀⟩ := hany
    have hload := load_applied (p := newPlane initial saved now) hnext hj₀
    simp only [SkipsOnlyBad, Plane.loadConfigFile, hload, true_and]
    constructor
    · intro hall f j hj
      have hf := hall f
      rw [hj, Option.bind_some] at hf
      split at hf
      · next hv => simp [hv]
      · cases (persisted_of_member hj).symm.trans hf.persisted
    · intro hall f
      cases hj : member o f.key with
      | none => exact atBoot_of_absent hnext hj
      | some j =>
        obtain ⟨v, hv⟩ := Option.isSome_iff_exists.mp (hall f j hj)
        rw [Option.bind_some, hv]
        exact overridden_of_member hnext hj hv
  · push Not at hany
    have hunchanged : Process.unchanged (overridesOf o) := unchanged_iff.mpr fun f ↦ by
      simpa [overridesOf, Option.eq_none_iff_forall_ne_some] using hany f
    have hload : (newPlane initial saved now).loadConfigCheckpoint (overridesOf o) =
        newPlane initial saved now := if_pos hunchanged
    refine iff_of_true ((skipsOnlyBad_of_dropped hload).mpr fun f j hj ↦ absurd hj (hany f j)) ?_
    exact fun f j hj ↦ absurd hj (hany f j)

/-- At every boot, a checkpoint that is a JSON object is reloaded entry by entry exactly if
all its tunable entries have values of their documented kinds, or none has and one of them is
also not taken for zero. -/
theorem reload_skips_only_bad_iff (initial : ConfigSettings) (saved : Saved) (now : Time) (o : JsonObject) :
    SkipsOnlyBad (newPlane initial saved now) o ↔
      (∀ (f : Field) (j : Json), member o f.key = some j → (j.meaning f.kind).isSome) ∨
      (∀ (f : Field) (j : Json), member o f.key = some j → j.meaning f.kind = none) ∧
        ∃ (f : Field) (j : Json), member o f.key = some j ∧ j.slips f.kind = false := by
  by_cases hbad : ∃ (f : Field) (j : Json), member o f.key = some j ∧ j.meaning f.kind = none ∧
      j.slips f.kind = false
  · obtain ⟨f, j, hj, hmeaning, hslips⟩ := hbad
    rw [skipsOnlyBad_of_dropped (load_dropped hj hmeaning hslips)]
    constructor
    · exact fun hnone ↦ .inr ⟨hnone, f, j, hj, hslips⟩
    · rintro (hall | ⟨hnone, -⟩)
      · have hsome := hall f j hj
        rw [hmeaning] at hsome
        cases hsome
      · exact hnone
  · push Not at hbad
    obtain ⟨next, hnext⟩ : ∃ next, applyConfigPatch initial (overridesOf o) = .ok next := by
      refine exists_next_iff.mpr fun f j hj ↦ ?_
      cases hm : j.meaning f.kind with
      | some v => exact .inl rfl
      | none => exact .inr (by simpa using hbad f j hj hm)
    rw [skipsOnlyBad_of_decoded hnext]
    refine ⟨.inl, ?_⟩
    rintro (hall | ⟨hnone, f, j, hj, hslips⟩)
    · exact hall
    · exact absurd hslips (hbad f j hj (hnone f j hj))

/-- A checkpoint with a valid cap and a TTL that is not positive: the cap is lost as well. -/
theorem bad_entry_drops_good_one :
    let p := newPlane defaultFlags {} 0
    let o : JsonObject := [("session_max_turns", .integer false 50), ("session_ttl", .span (-5 * minute))]
    let (q, err) := p.loadConfigFile (.object o)
    err = none ∧ Json.meaning .cap (.integer false 50) = some (50 : ℤ) ∧
      q.inForce .sessionMaxTurns = .count 200 ∧ q.config.persisted .sessionMaxTurns = false := by
  refine ⟨rfl, rfl, ?_, ?_⟩ <;> decide +kernel

end Load

end AgentGpu.Cmd
