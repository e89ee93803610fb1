import AgentGpu.Cmd.Restart
import AgentGpu.ControlPlane.Machine
import AgentGpu.HttpApi.Settings
import AgentGpu.Quota.Engine

namespace AgentGpu.Cmd

open Foundation Sessions HttpApi

inductive Level
  | debug
  | info
  | warn
  | error
  deriving DecidableEq

/-- An unrecognized name falls back to `info`. -/
def parseLevel (name : String) : Level × Bool :=
  match normalize name with
  | "debug" => (.debug, true)
  | "info" | "" => (.info, true)
  | "warn" | "warning" => (.warn, true)
  | "error" => (.error, true)
  | _ => (.info, false)

/-- `OverflowPolicy.String`. -/
def policyName : OverflowPolicy → String
  | .reject => "reject"
  | .trim => "trim"

def parseOverflowPolicy (s : String) : OverflowPolicy × Bool :=
  match normalize s with
  | "" | "trim" => (.trim, true)
  | "reject" => (.reject, true)
  | _ => (.trim, false)

/-- The running control plane: the subsystems that a config update reaches, and the holder of
the reported settings. -/
structure Plane extends Process where
  level : Level
  quota : Quota.Engine
  server : ControlPlane.Server
  modelWarmMax : Duration

inductive ApplierError
  | logLevel (level : String)
  | overflowPolicy (policy : String)
  deriving DecidableEq

def quotaDefaults (c : ConfigSettings) : Quota.Limits where
  rpm := c .quotaDefaultRPM
  tpm := c .quotaDefaultTPM
  dailyTokens := c .quotaDefaultDailyTokens
  monthlyTokens := c .quotaDefaultMonthlyTokens

def quotaGlobal (c : ConfigSettings) : Quota.Limits where
  rpm := c .quotaGlobalRPM
  tpm := c .quotaGlobalTPM

def quotaDefaultsChanged (raw : Overrides) : Bool :=
  (raw .quotaDefaultRPM).isSome || (raw .quotaDefaultTPM).isSome ||
    (raw .quotaDefaultDailyTokens).isSome || (raw .quotaDefaultMonthlyTokens).isSome

def quotaGlobalChanged (raw : Overrides) : Bool :=
  (raw .quotaGlobalRPM).isSome || (raw .quotaGlobalTPM).isSome

namespace Plane

-- the appliers of `buildConfigAppliers`

def setLogLevel (p : Plane) (level : String) : Except ApplierError Plane :=
  match parseLevel level with
  | (lvl, true) => .ok { p with level := lvl }
  | (_, false) => .error (.logLevel level)

def setQuotaDefaults (p : Plane) (limits : Quota.Limits) : Plane :=
  { p with quota := { p.quota with defaults := limits } }

def setQuotaGlobal (p : Plane) (limits : Quota.Limits) : Plane :=
  { p with quota := { p.quota with global := limits } }

def setSessionTTL (p : Plane) (d : Duration) : Plane := { p with manager := setTTL p.manager d }

def setSessionCaps (p : Plane) (maxTurns maxBytes maxCtxTokens maxPerKey : ℤ) (overflow : String) :
    Except ApplierError Plane :=
  match parseOverflowPolicy overflow with
  | (policy, true) =>
    .ok { p with manager := { p.manager with
      caps := ⟨maxTurns, maxBytes, maxCtxTokens, policy⟩
      maxPerKey := Int.toNat maxPerKey } }
  | (_, false) => .error (.overflowPolicy overflow)

def setModelWarmMax (p : Plane) (d : Duration) : Plane :=
  if d ≤ 0 then p else { p with modelWarmMax := d }

def setHeartbeatTimeout (p : Plane) (d : Duration) : Plane :=
  if d ≤ 0 then p else { p with server := { p.server with heartbeatTimeout := d } }

/-- `apply`. What was applied before an error stays applied. -/
def apply (p : Plane) (next : ConfigSettings) (raw : Overrides) : Plane × Option ApplierError :=
  match if (raw .logLevel).isSome then p.setLogLevel (next .logLevel) else .ok p with
  | .error err => (p, some err)
  | .ok p =>
    let p := if quotaDefaultsChanged raw then p.setQuotaDefaults (quotaDefaults next) else p
    let p := if quotaGlobalChanged raw then p.setQuotaGlobal (quotaGlobal next) else p
    let p := if (raw .sessionTTL).isSome then p.setSessionTTL (next .sessionTTL) else p
    match if sessionCapsChanged raw then
        p.setSessionCaps (next .sessionMaxTurns) (next .sessionMaxBytes)
          (next .sessionMaxContextTokens) (next .sessionMaxSessionsPerKey)
          (policyName (next .sessionOverflowPolicy))
      else .ok p with
    | .error err => (p, some err)
    | .ok p =>
      let p := if (raw .modelWarmMax).isSome then p.setModelWarmMax (next .modelWarmMax) else p
      let p :=
        if (raw .heartbeatTimeout).isSome then p.setHeartbeatTimeout (next .heartbeatTimeout) else p
      ({ p with config := p.config.commit next raw }, none)

/-- An override that does not decode, or that an applier refuses, leaves the boot values. -/
def loadConfigCheckpoint (p : Plane) (raw : Overrides) : Plane :=
  if Process.unchanged raw then p
  else
    match applyConfigPatch p.config.cur raw with
    | .error _ => p
    | .ok next => (p.apply next raw).1

end Plane

structure Saved where
  sessions : List Session := []
  history : History := fun _ ↦ none
  counters : Quota.CounterStore := fun _ ↦ none

def newPlane (initial : ConfigSettings) (saved : Saved) (now : Time) : Plane where
  manager := newManager initial ⟨saved.sessions, saved.history, fun _ ↦ none⟩ now
  config := { cur := initial }
  level := (parseLevel (initial .logLevel)).1
  quota :=
    { store := saved.counters
      defaults := quotaDefaults initial
      global := quotaGlobal initial
      clock := now }
  server := ControlPlane.new now (initial .heartbeatTimeout) 0
  modelWarmMax :=
    let d : ℤ := initial .modelWarmMax
    if d > 0 then d else 60 * minute

structure Host where
  plane : Plane
  file : Overrides := fun _ ↦ none

inductive Response
  | invalid (err : ConfigError)
  | badForm (err : FormError)
  | applierFailed (err : ApplierError)
  | unchanged
  | applied
  | restarted
  deriving DecidableEq

inductive Update
  | put (patch : Patch)
  | form (entries : List (FormKey × Posted))
  | restart (initial : ConfigSettings) (saved : Saved) (now : Time)

namespace Host

def update (h : Host) (raw : Overrides) : Host × Response :=
  match applyConfigPatch h.plane.config.cur raw with
  | .error err => (h, .invalid err)
  | .ok next =>
    if Process.unchanged raw then (h, .unchanged)
    else
      match h.plane.apply next raw with
      | (p, some err) => ({ h with plane := p }, .applierFailed err)
      | (p, none) => ({ plane := p, file := p.config.checkpoint }, .applied)

def step (h : Host) : Update → Host × Response
  | .put patch =>
    match patch.check with
    | .error err => (h, .invalid err)
    | .ok _ => h.update patch.fields
  | .form entries =>
    match settingsFormToPatch entries with
    | .error err => (h, .badForm err)
    | .ok raw => h.update raw
  | .restart initial saved now =>
    ({ h with plane := (newPlane initial saved now).loadConfigCheckpoint h.file }, .restarted)

def run (h : Host) (updates : List Update) : Host := updates.foldl (fun h u ↦ (h.step u).1) h

end Host

/-- The reported settings are the values in force in the logger, the quota engine, the session
manager, the history store and the server. -/
structure Plane.Agrees (p : Plane) : Prop where
  level : parseLevel (p.config.cur .logLevel) = (p.level, true)
  defaults : p.quota.defaults = quotaDefaults p.config.cur
  global : p.quota.global = quotaGlobal p.config.cur
  ttl : p.manager.ttl = p.config.cur .sessionTTL
  caps : p.manager.caps = historyCaps p.config.cur
  maxPerKey : (p.manager.maxPerKey : ℤ) = p.config.cur .sessionMaxSessionsPerKey
  modelWarmMax : p.modelWarmMax = p.config.cur .modelWarmMax
  heartbeatTimeout : p.server.heartbeatTimeout = p.config.cur .heartbeatTimeout

theorem parseLevel_of_mem : ∀ s ∈ levelNames, (parseLevel s).2 = true := by
  decide

theorem parseLevel_eq {name : String} (h : (parseLevel name).2 = true) :
    parseLevel name = ((parseLevel name).1, true) := by
  rw [← h]

theorem parseOverflowPolicy_policyName (policy : OverflowPolicy) :
    parseOverflowPolicy (policyName policy) = (policy, true) := by
  cases policy <;> decide

theorem setTTL_of_pos (m : Manager) {d : Duration} (hd : 0 < d) : setTTL m d = { m with ttl := d } :=
  if_neg (Int.not_le.mpr hd)

namespace Plane

variable (p : Plane)

theorem setLogLevel_of_parse {level : String} {lvl : Level} (h : parseLevel level = (lvl, true)) :
    p.setLogLevel level = .ok { p with level := lvl } := by
  unfold setLogLevel
  rw [h]

theorem setSessionCaps_policyName (maxTurns maxBytes maxCtxTokens maxPerKey : ℤ)
    (policy : OverflowPolicy) :
    p.setSessionCaps maxTurns maxBytes maxCtxTokens maxPerKey (policyName policy) =
      .ok { p with manager := { p.manager with
        caps := ⟨maxTurns, maxBytes, maxCtxTokens, policy⟩
        maxPerKey := Int.toNat maxPerKey } } := by
  unfold setSessionCaps
  rw [parseOverflowPolicy_policyName]

variable {d : Duration} (hd : 0 < d)

include hd

theorem setSessionTTL_of_pos : p.setSessionTTL d = { p with manager := { p.manager with ttl := d } } := by
  rw [setSessionTTL, setTTL_of_pos _ hd]

theorem setModelWarmMax_of_pos : p.setModelWarmMax d = { p with modelWarmMax := d } :=
  if_neg (Int.not_le.mpr hd)

theorem setHeartbeatTimeout_of_pos :
    p.setHeartbeatTimeout d = { p with server := { p.server with heartbeatTimeout := d } } :=
  if_neg (Int.not_le.mpr hd)

end Plane

section Apply

variable {p : Plane} {next : ConfigSettings} {raw : Overrides}
  (hp : p.Agrees) (hnext : applyConfigPatch p.config.cur raw = .ok next)

include hnext in
theorem next_of_none {f : Field} (hf : raw f = none) : next f = p.config.cur f := by
  have htakes := applyConfigPatch_eq_ok_iff.mp hnext f
  simpa only [Takes, hf] using htakes

include hnext in
theorem next_valid {f : Field} (hf : (raw f).isSome) : f.kind.Valid (next f) := by
  have htakes := applyConfigPatch_eq_ok_iff.mp hnext f
  obtain ⟨msg, hmsg⟩ := Option.isSome_iff_exists.mp hf
  simp only [Takes, hmsg] at htakes
  exact decodeField_valid htakes

include hnext in
theorem none_of_not_changed {f : Field} (hf : ¬(raw f).isSome) : next f = p.config.cur f :=
  next_of_none hnext (by simpa using hf)

section

-- An applier that is called only for a changed group, as an update of what it sets.

variable (q : Plane) (changed : Bool)

theorem setLogLevel_ite {name : String} (hname : changed → (parseLevel name).2 = true) :
    (if changed then q.setLogLevel name else .ok q) =
      .ok { q with level := if changed then (parseLevel name).1 else q.level } := by
  cases changed
  · simp only [Bool.false_eq_true, if_false]
  · simp only [if_true]
    exact q.setLogLevel_of_parse (parseLevel_eq (hname rfl))

theorem setQuotaDefaults_ite (limits : Quota.Limits) :
    (if changed then q.setQuotaDefaults limits else q) =
      { q with quota := { q.quota with defaults := if changed then limits else q.quota.defaults } } := by
  cases changed <;> rfl

theorem setQuotaGlobal_ite (limits : Quota.Limits) :
    (if changed then q.setQuotaGlobal limits else q) =
      { q with quota := { q.quota with global := if changed then limits else q.quota.global } } := by
  cases changed <;> rfl

theorem setSessionTTL_ite {d : Duration} (hd : changed → 0 < d) :
    (if changed then q.setSessionTTL d else q) =
      { q with manager := { q.manager with ttl := if changed then d else q.manager.ttl } } := by
  cases changed
  · rfl
  · exact q.setSessionTTL_of_pos (hd rfl)

theorem setSessionCaps_ite (next : ConfigSettings) :
    (if changed then
        q.setSessionCaps (next .sessionMaxTurns) (next .sessionMaxBytes)
          (next .sessionMaxContextTokens) (next .sessionMaxSessionsPerKey)
          (policyName (next .sessionOverflowPolicy))
      else .ok q) =
      .ok { q with manager := { q.manager with
        caps := if changed then historyCaps next else q.manager.caps
        maxPerKey := if changed then Int.toNat (next .sessionMaxSessionsPerKey)
          else q.manager.maxPerKey } } := by
  cases changed
  · simp only [Bool.false_eq_true, if_false]
  · simp only [if_true]
    exact q.setSessionCaps_policyName ..

theorem setModelWarmMax_ite {d : Duration} (hd : changed → 0 < d) :
    (if changed then q.setModelWarmMax d else q) =
      { q with modelWarmMax := if changed then d else q.modelWarmMax } := by
  cases changed
  · rfl
  · exact q.setModelWarmMax_of_pos (hd rfl)

theorem setHeartbeatTimeout_ite {d : Duration} (hd : changed → 0 < d) :
    (if changed then q.setHeartbeatTimeout d else q) =
      { q with server := { q.server with
        heartbeatTimeout := if changed then d else q.server.heartbeatTimeout } } := by
  cases changed
  · rfl
  · exact q.setHeartbeatTimeout_of_pos (hd rfl)

end

def Plane.applied (p : Plane) (next : ConfigSettings) (raw : Overrides) : Plane :=
  { p with
    level := if (raw .logLevel).isSome then (parseLevel (next .logLevel)).1 else p.level
    quota := { p.quota with
      defaults := if quotaDefaultsChanged raw then quotaDefaults next else p.quota.defaults
      global := if quotaGlobalChanged raw then quotaGlobal next else p.quota.global }
    manager := { p.manager with
      ttl := if (raw .sessionTTL).isSome then next .sessionTTL else p.manager.ttl
      caps := if sessionCapsChanged raw then historyCaps next else p.manager.caps
      maxPerKey := if sessionCapsChanged raw then Int.toNat (next .sessionMaxSessionsPerKey)
        else p.manager.maxPerKey }
    modelWarmMax := if (raw .modelWarmMax).isSome then next .modelWarmMax else p.modelWarmMax
    server := { p.server with
      heartbeatTimeout := if (raw .heartbeatTimeout).isSome then next .heartbeatTimeout
        else p.server.heartbeatTimeout }
    config := p.config.commit next raw }

include hnext in
theorem Plane.apply_eq : p.apply next raw = (p.applied next raw, none) := by
  have hlevel : (raw .logLevel).isSome → (parseLevel (next .logLevel)).2 = true :=
    fun hraw ↦ parseLevel_of_mem _ (next_valid hnext hraw)
  have httl : (raw .sessionTTL).isSome → (0 : ℤ) < next .sessionTTL := fun hraw ↦ next_valid hnext hraw
  have hwarm : (raw .modelWarmMax).isSome → (0 : ℤ) < next .modelWarmMax := fun hraw ↦ next_valid hnext hraw
  have htimeout : (raw .heartbeatTimeout).isSome → (0 : ℤ) < next .heartbeatTimeout :=
    fun hraw ↦ next_valid hnext hraw
  unfold Plane.apply
  rw [setLogLevel_ite _ _ hlevel]
  dsimp only
  rw [setQuotaDefaults_ite, setQuotaGlobal_ite, setSessionTTL_ite _ _ httl, setSessionCaps_ite]
  dsimp only
  rw [setModelWarmMax_ite _ _ hwarm, setHeartbeatTimeout_ite _ _ htimeout]
  rfl

-- Whether a group was changed or not, its subsystem ends up with the values of `next`: an
-- applier that is not called would have changed nothing.

include hp hnext in
theorem logLevel_applied : parseLevel (next .logLevel) = ((p.applied next raw).level, true) := by
  by_cases hraw : (raw .logLevel).isSome
  · rw [show (p.applied next raw).level = _ from if_pos hraw]
    exact parseLevel_eq (parseLevel_of_mem _ (next_valid hnext hraw))
  · rw [show (p.applied next raw).level = _ from if_neg hraw, none_of_not_changed hnext hraw, hp.level]

include hp hnext in
theorem quotaDefaults_applied : (p.applied next raw).quota.defaults = quotaDefaults next := by
  refine ite_eq_left_iff.mpr fun hraw ↦ ?_
  simp only [quotaDefaultsChanged, Bool.or_eq_true, not_or] at hraw
  obtain ⟨⟨⟨hrpm, htpm⟩, hdaily⟩, hmonthly⟩ := hraw
  rw [hp.defaults, quotaDefaults, quotaDefaults, none_of_not_changed hnext hrpm,
    none_of_not_changed hnext htpm, none_of_not_changed hnext hdaily,
    none_of_not_changed hnext hmonthly]

include hp hnext in
theorem quotaGlobal_applied : (p.applied next raw).quota.global = quotaGlobal next := by
  refine ite_eq_left_iff.mpr fun hraw ↦ ?_
  simp only [quotaGlobalChanged, Bool.or_eq_true, not_or] at hraw
  rw [hp.global, quotaGlobal, quotaGlobal, none_of_not_changed hnext hraw.1,
    none_of_not_changed hnext hraw.2]

include hp hnext in
theorem sessionTTL_applied : (p.applied next raw).manager.ttl = next .sessionTTL := by
  refine ite_eq_left_iff.mpr fun hraw ↦ ?_
  rw [hp.ttl, none_of_not_changed hnext hraw]

include hp hnext in
theorem sessionCaps_applied : (p.applied next raw).manager.caps = historyCaps next := by
  refine ite_eq_left_iff.mpr fun hraw ↦ ?_
  simp only [sessionCapsChanged, Bool.or_eq_true, not_or] at hraw
  obtain ⟨⟨⟨⟨hturns, hbytes⟩, htokens⟩, -⟩, hpolicy⟩ := hraw
  rw [hp.caps, historyCaps, historyCaps, none_of_not_changed hnext hturns,
    none_of_not_changed hnext hbytes, none_of_not_changed hnext htokens,
    none_of_not_changed hnext hpolicy]

include hp hnext in
theorem maxPerKey_applied :
    ((p.applied next raw).manager.maxPerKey : ℤ) = next .sessionMaxSessionsPerKey := by
  have hnonneg : (0 : ℤ) ≤ next .sessionMaxSessionsPerKey := by
    by_cases hraw : (raw .sessionMaxSessionsPerKey).isSome
    · exact (next_valid hnext hraw).1
    · rw [none_of_not_changed hnext hraw, ← hp.maxPerKey]
      exact Int.natCast_nonneg _
  by_cases hraw : sessionCapsChanged raw
  · rw [show (p.applied next raw).manager.maxPerKey = _ from if_pos hraw]
    exact Int.toNat_of_nonneg hnonneg
  · rw [show (p.applied next raw).manager.maxPerKey = _ from if_neg hraw, hp.maxPerKey]
    simp only [sessionCapsChanged, Bool.or_eq_true, not_or] at hraw
    exact (none_of_not_changed hnext hraw.1.2).symm

include hp hnext in
theorem modelWarmMax_applied : (p.applied next raw).modelWarmMax = next .modelWarmMax := by
  refine ite_eq_left_iff.mpr fun hraw ↦ ?_
  rw [hp.modelWarmMax, none_of_not_changed hnext hraw]

include hp hnext in
theorem heartbeatTimeout_applied :
    (p.applied next raw).server.heartbeatTimeout = next .heartbeatTimeout := by
  refine ite_eq_left_iff.mpr fun hraw ↦ ?_
  rw [hp.heartbeatTimeout, none_of_not_changed hnext hraw]

include hp hnext in
theorem Plane.Agrees.apply : ∃ q, p.apply next raw = (q, none) ∧ q.Agrees ∧
    q.config = p.config.commit next raw := by
  refine ⟨_, Plane.apply_eq hnext, ?_, rfl⟩
  exact
    { level := logLevel_applied hp hnext
      defaults := quotaDefaults_applied hp hnext
      global := quotaGlobal_applied hp hnext
      ttl := sessionTTL_applied hp hnext
      caps := sessionCaps_applied hp hnext
      maxPerKey := maxPerKey_applied hp hnext
      modelWarmMax := modelWarmMax_applied hp hnext
      heartbeatTimeout := heartbeatTimeout_applied hp hnext }

end Apply

namespace Plane

variable (p : Plane) {q : Plane} {next : ConfigSettings} {raw : Overrides}

theorem toProcess_of_setLogLevel {level : String} (h : p.setLogLevel level = .ok q) :
    q.toProcess = p.toProcess := by
  unfold setLogLevel at h
  split at h <;> cases h
  rfl

theorem toProcess_of_setSessionCaps (h : p.setSessionCaps (next .sessionMaxTurns)
      (next .sessionMaxBytes) (next .sessionMaxContextTokens) (next .sessionMaxSessionsPerKey)
      (policyName (next .sessionOverflowPolicy)) = .ok q) :
    q.toProcess = { p.toProcess with manager := Cmd.setSessionCaps p.manager next } := by
  cases (p.setSessionCaps_policyName _ _ _ _ _).symm.trans h
  rfl

theorem setQuota_toProcess (defaults global : Bool) (l₁ l₂ : Quota.Limits) :
    (let p := if defaults then p.setQuotaDefaults l₁ else p
    if global then p.setQuotaGlobal l₂ else p).toProcess = p.toProcess := by
  cases defaults <;> cases global <;> rfl

theorem setServer_toProcess (warm heartbeat : Bool) (d₁ d₂ : Duration) :
    (let p := if warm then p.setModelWarmMax d₁ else p
    if heartbeat then p.setHeartbeatTimeout d₂ else p).toProcess = p.toProcess := by
  simp only [setModelWarmMax, setHeartbeatTimeout]
  split_ifs <;> rfl

theorem apply_toProcess (h : p.apply next raw = (q, none)) :
    q.toProcess = p.toProcess.apply next raw := by
  unfold apply at h
  split at h
  · cases h
  · rename_i p₁ h₁
    have hp₁ : p₁.toProcess = p.toProcess := by
      split_ifs at h₁
      · exact p.toProcess_of_setLogLevel h₁
      · cases h₁
        rfl
    have hquota := p₁.setQuota_toProcess (quotaDefaultsChanged raw) (quotaGlobalChanged raw)
      (quotaDefaults next) (quotaGlobal next)
    dsimp only at h hquota
    generalize (if quotaGlobalChanged raw = true then _ else _ : Plane) = p₂ at h hquota
    rw [hp₁] at hquota
    split at h
    · cases h
    · rename_i p₃ h₃
      have hp₃ : p₃.toProcess = { p.toProcess.apply next raw with config := p.config } := by
        rw [← hquota, Process.apply]
        split_ifs at h₃ ⊢
        · exact toProcess_of_setSessionCaps _ h₃
        · exact toProcess_of_setSessionCaps _ h₃
        · cases h₃
          rfl
        · cases h₃
          rfl
      have hserver := p₃.setServer_toProcess (raw .modelWarmMax).isSome
        (raw .heartbeatTimeout).isSome (next .modelWarmMax) (next .heartbeatTimeout)
      rw [hp₃] at hserver
      cases h
      exact congrArg (fun o : Process ↦ { o with config := o.config.commit next raw }) hserver

end Plane

structure ValidFlags (c : ConfigSettings) : Prop where
  level : (parseLevel (c .logLevel)).2 = true
  ttl : (0 : ℤ) < c .sessionTTL
  maxPerKey : (0 : ℤ) ≤ c .sessionMaxSessionsPerKey
  modelWarmMax : (0 : ℤ) < c .modelWarmMax
  heartbeatTimeout : (0 : ℤ) < c .heartbeatTimeout

theorem agrees_newPlane {initial : ConfigSettings} (h : ValidFlags initial) (saved : Saved)
    (now : Time) : (newPlane initial saved now).Agrees where
  level := by
    dsimp only [newPlane]
    exact parseLevel_eq h.level
  defaults := rfl
  global := rfl
  ttl := congrArg (fun m ↦ (Sessions.boot m).ttl) (setTTL_of_pos _ h.ttl)
  caps := (newManager_eq initial ⟨saved.sessions, saved.history, fun _ ↦ none⟩ now).2.2.1
  maxPerKey := by
    refine Eq.trans ?_ (Int.toNat_of_nonneg h.maxPerKey)
    exact congrArg (fun m ↦ ((Sessions.boot m).maxPerKey : ℤ)) (setTTL_of_pos _ h.ttl)
  modelWarmMax := if_pos h.modelWarmMax
  heartbeatTimeout := if_pos h.heartbeatTimeout

def defaultFlags : ConfigSettings
  | .logLevel => "info"
  | .quotaDefaultDailyTokens | .quotaDefaultMonthlyTokens | .quotaDefaultRPM | .quotaDefaultTPM
  | .quotaGlobalRPM | .quotaGlobalTPM => (0 : UInt64)
  | .sessionTTL => (30 * minute : ℤ)
  | .sessionMaxTurns => (200 : ℤ)
  | .sessionMaxBytes => (2 ^ 20 : ℤ)
  | .sessionMaxContextTokens | .sessionMaxSessionsPerKey => (0 : ℤ)
  | .sessionOverflowPolicy => OverflowPolicy.trim
  | .modelWarmMax => (60 * minute : ℤ)
  | .heartbeatTimeout => (45 * second : ℤ)

theorem validFlags_default : ValidFlags defaultFlags where
  level := by decide
  ttl := show (0 : ℤ) < 30 * minute by decide
  maxPerKey := Int.le_refl 0
  modelWarmMax := show (0 : ℤ) < 60 * minute by decide
  heartbeatTimeout := show (0 : ℤ) < 45 * second by decide

def Update.value (u : Update) (f : Field) : Option f.kind.Value :=
  let raw? : Option Overrides :=
    match u with
    | .put patch => some patch.fields
    | .form entries => (settingsFormToPatch entries).toOption
    | .restart .. => none
  raw?.bind fun raw ↦ (raw f).bind fun msg ↦ (decodeField f msg f.kind).toOption

def lastAccepted (h : Host) : List Update → (f : Field) → Option f.kind.Value
  | [], _ => none
  | u :: us, f =>
    (lastAccepted (h.step u).1 us f).or (if (h.step u).2 = .applied then u.value f else none)

def bootFlags (flags : ConfigSettings) : List Update → ConfigSettings
  | [] => flags
  | .restart initial _ _ :: us => bootFlags initial us
  | _ :: us => bootFlags flags us

def Update.Valid : Update → Prop
  | .restart initial _ _ => ValidFlags initial
  | _ => True

/-- What holds between updates: the settings agree with the subsystems, the holder knows which
fields were updated and the file has their values. -/
structure Coherent (flags : ConfigSettings) (accepted : (f : Field) → Option f.kind.Value)
    (h : Host) : Prop where
  agrees : h.plane.Agrees
  tracks : RuntimeConfig.Tracks flags h.plane.config
  accepted : ∀ f, accepted f = if h.plane.config.persisted f then some (h.plane.config.cur f) else none
  file : h.file = h.plane.config.checkpoint

section Host

variable {flags : ConfigSettings} {accepted : (f : Field) → Option f.kind.Value} {h : Host}

theorem Coherent.cur_eq (hC : Coherent flags accepted h) (f : Field) :
    h.plane.config.cur f = (accepted f).getD (flags f) := by
  have htracks := hC.tracks f
  rw [hC.accepted f]
  split_ifs at htracks ⊢
  · rfl
  · exact htracks

theorem Coherent.update (hC : Coherent flags accepted h) (raw : Overrides) :
    (∃ err, h.update raw = (h, .invalid err)) ∨ h.update raw = (h, .unchanged) ∨
    ∃ q, h.update raw = (q, .applied) ∧ Coherent flags (fun f ↦
      ((raw f).bind fun msg ↦ (decodeField f msg f.kind).toOption).or (accepted f)) q := by
  unfold Host.update
  cases hnext : applyConfigPatch h.plane.config.cur raw with
  | error err => exact .inl ⟨err, rfl⟩
  | ok next =>
    dsimp only
    split_ifs with hraw
    · exact .inr (.inl rfl)
    · obtain ⟨q, hq, hagrees, hconfig⟩ := hC.agrees.apply hnext
      rw [hq]
      refine .inr (.inr ⟨_, rfl, hagrees, ?_, fun f ↦ ?_, rfl⟩)
      · rw [hconfig]
        exact hC.tracks.commit hnext
      · have htakes := applyConfigPatch_eq_ok_iff.mp hnext f
        have hold := hC.accepted f
        unfold Takes at htakes
        dsimp only
        rw [hconfig]
        cases hmsg : raw f with
        | none =>
          simp only [hmsg] at htakes
          simp [RuntimeConfig.commit, hmsg, hold, htakes]
        | some msg =>
          simp only [hmsg] at htakes
          simp [RuntimeConfig.commit, hmsg, htakes, Except.toOption]

theorem restored {rc : RuntimeConfig} (htracks : RuntimeConfig.Tracks flags rc)
    (initial : ConfigSettings) : ∃ next, applyConfigPatch initial rc.checkpoint = .ok next ∧
      ∀ f, next f = if rc.persisted f then rc.cur f else initial f := by
  refine ⟨fun f ↦ if rc.persisted f then rc.cur f else initial f, ?_, fun f ↦ rfl⟩
  rw [applyConfigPatch_eq_ok_iff]
  intro f
  have hf := htracks f
  unfold Takes RuntimeConfig.checkpoint
  by_cases hp : rc.persisted f
  · simp only [hp, if_true] at hf ⊢
    exact decodeField_encode hf
  · simp [hp]

theorem Coherent.restart (hC : Coherent flags accepted h) {initial : ConfigSettings}
    (hvalid : ValidFlags initial) (saved : Saved) (now : Time) :
    Coherent initial accepted (h.step (.restart initial saved now)).1 := by
  have hagrees := agrees_newPlane hvalid saved now
  have hsome (f : Field) : (h.plane.config.checkpoint f).isSome = h.plane.config.persisted f := by
    cases hp : h.plane.config.persisted f <;> simp [RuntimeConfig.checkpoint, hp]
  obtain ⟨next, hnext, hvalues⟩ := restored hC.tracks initial
  simp only [Host.step, hC.file, Plane.loadConfigCheckpoint]
  split_ifs with hraw
  · have hnone (f : Field) : h.plane.config.persisted f = false := by
      rw [← hsome, unchanged_iff.mp hraw f]
      rfl
    refine ⟨hagrees, fun f ↦ rfl, fun f ↦ ?_, funext fun f ↦ ?_⟩
    · rw [hC.accepted f, hnone]
      rfl
    · exact unchanged_iff.mp hraw f
  · have hcur : applyConfigPatch (newPlane initial saved now).config.cur
        h.plane.config.checkpoint = .ok next := hnext
    obtain ⟨q, hq, hagrees', hconfig⟩ := hagrees.apply hcur
    have hpersisted (f : Field) : q.config.persisted f = h.plane.config.persisted f := by
      rw [hconfig, ← hsome]
      exact Bool.false_or _
    rw [hcur]
    dsimp only
    rw [hq]
    refine ⟨hagrees', ?_, fun f ↦ ?_, funext fun f ↦ ?_⟩
    · rw [hconfig]
      exact RuntimeConfig.Tracks.commit (fun f ↦ rfl) hcur
    · rw [hC.accepted f, hpersisted f, hconfig]
      split_ifs with hp
      · exact congrArg some ((hvalues f).trans (if_pos hp)).symm
      · rfl
    · simp only [RuntimeConfig.checkpoint, hpersisted f]
      split_ifs with hp
      · rw [hconfig]
        exact congrArg (some ∘ RuntimeConfig.encode f.kind) ((hvalues f).trans (if_pos hp)).symm
      · rfl

def afterStep (h : Host) (u : Update) (accepted : (f : Field) → Option f.kind.Value) (f : Field) :
    Option f.kind.Value :=
  (if (h.step u).2 = .applied then u.value f else none).or (accepted f)

theorem afterStep_of_ne {u : Update} (hu : (h.step u).2 ≠ .applied) :
    afterStep h u accepted = accepted := by
  funext f
  rw [afterStep, if_neg hu, Option.none_or]

theorem Coherent.step_update (hC : Coherent flags accepted h) {u : Update} {raw : Overrides}
    (hstep : h.step u = h.update raw)
    (hvalue : ∀ f, u.value f = (raw f).bind fun msg ↦ (decodeField f msg f.kind).toOption) :
    (∀ err, (h.step u).2 ≠ .applierFailed err) ∧
      Coherent flags (afterStep h u accepted) (h.step u).1 := by
  rcases hC.update raw with ⟨err, hq⟩ | hq | ⟨q, hq, hcoherent⟩ <;> rw [hq] at hstep
  · rw [afterStep_of_ne (by simp [hstep]), hstep]
    exact ⟨nofun, hC⟩
  · rw [afterStep_of_ne (by simp [hstep]), hstep]
    exact ⟨nofun, hC⟩
  · have hafter : afterStep h u accepted = fun f ↦
        ((raw f).bind fun msg ↦ (decodeField f msg f.kind).toOption).or (accepted f) := by
      funext f
      rw [afterStep, hstep, if_pos rfl, hvalue]
    rw [hafter, hstep]
    exact ⟨nofun, hcoherent⟩

theorem Coherent.step (hC : Coherent flags accepted h) {u : Update} (hu : u.Valid) :
    (∀ err, (h.step u).2 ≠ .applierFailed err) ∧
      Coherent (bootFlags flags [u]) (afterStep h u accepted) (h.step u).1 := by
  cases u with
  | put patch =>
    cases hcheck : patch.check with
    | error err =>
      have hstep : h.step (.put patch) = (h, .invalid err) := by simp only [Host.step, hcheck]
      rw [afterStep_of_ne (by simp [hstep]), hstep]
      exact ⟨nofun, hC⟩
    | ok _ => exact hC.step_update (by simp only [Host.step, hcheck]) fun f ↦ rfl
  | form entries =>
    cases hform : settingsFormToPatch entries with
    | error err =>
      have hstep : h.step (.form entries) = (h, .badForm err) := by simp only [Host.step, hform]
      rw [afterStep_of_ne (by simp [hstep]), hstep]
      exact ⟨nofun, hC⟩
    | ok raw =>
      have hstep : h.step (.form entries) = h.update raw := by simp only [Host.step, hform]
      refine hC.step_update hstep fun f ↦ ?_
      simp only [Update.value, hform]
      rfl
  | restart initial saved now =>
    rw [afterStep_of_ne (by simp [Host.step])]
    exact ⟨nofun, hC.restart hu saved now⟩

theorem bootFlags_cons (u : Update) (us : List Update) :
    bootFlags flags (u :: us) = bootFlags (bootFlags flags [u]) us := by
  cases u <;> rfl

theorem Coherent.run (hC : Coherent flags accepted h) {us : List Update}
    (hus : ∀ u ∈ us, u.Valid) : Coherent (bootFlags flags us)
      (fun f ↦ (lastAccepted h us f).or (accepted f)) (h.run us) := by
  induction us generalizing flags accepted h with
  | nil => exact hC
  | cons u us ih =>
    have hstep := (hC.step (hus u List.mem_cons_self)).2
    have hrun := ih hstep fun u' hu' ↦ hus u' (List.mem_cons_of_mem _ hu')
    have hassoc : (fun f ↦ (lastAccepted h (u :: us) f).or (accepted f)) = fun f ↦
        (lastAccepted (h.step u).1 us f).or (afterStep h u accepted f) :=
      funext fun f ↦ Option.or_assoc
    rw [bootFlags_cons, hassoc]
    exact hrun

end Host

/-- From a boot whose settings are those in force, whatever the updates and restarts so far:
the settings still are those in force, every field has its last accepted value or else that of
the last boot's flags, and no applier refuses what comes next. -/
theorem config_coherent (p : Plane) (hp : p.Agrees) (hnew : p.config.persisted = fun _ ↦ false)
    (us : List Update) (hus : ∀ u ∈ us, u.Valid) :
    let h : Host := { plane := p }
    let q := h.run us
    q.plane.Agrees ∧
      (∀ f, q.plane.config.cur f = (lastAccepted h us f).getD (bootFlags p.config.cur us f)) ∧
      ∀ u, u.Valid → ∀ err, (q.step u).2 ≠ .applierFailed err := by
  intro h q
  have hboot : Coherent p.config.cur (fun _ ↦ none) h := by
    refine ⟨hp, fun f ↦ ?_, fun f ↦ ?_, funext fun f ↦ ?_⟩
    · simp [h, hnew]
    · simp [h, hnew]
    · simp [h, hnew, RuntimeConfig.checkpoint]
  have hrun : Coherent (bootFlags p.config.cur us) (lastAccepted h us) q := by
    simpa only [Option.or_none] using hboot.run hus
  exact ⟨hrun.agrees, hrun.cur_eq, fun u hu ↦ (hrun.step hu).1⟩

def otherFlags : ConfigSettings :=
  Function.update (Function.update defaultFlags .logLevel "error") .sessionMaxBytes (5 : ℤ)

def putFormRestart : List Update :=
  [.put { fields := fun f ↦ if f = .logLevel then some (.text " Debug") else none },
    .form [(.field .sessionMaxTurns, .text " 12 ")], .restart otherFlags {} 60]

theorem config_coherent_restart :
    let q := Host.run { plane := newPlane defaultFlags {} 0 } putFormRestart
    let reported f := RuntimeConfig.encode f.kind (q.plane.config.cur f)
    q.plane.Agrees ∧ reported .logLevel = .text "debug" ∧ reported .sessionMaxTurns = .int 12 ∧
      reported .sessionMaxBytes = .int 5 := by
  intro q reported
  have hflags : ValidFlags otherFlags :=
    ⟨by decide, validFlags_default.ttl, validFlags_default.maxPerKey,
      validFlags_default.modelWarmMax, validFlags_default.heartbeatTimeout⟩
  have hvalid : ∀ u ∈ putFormRestart, u.Valid := by
    simpa [putFormRestart, Update.Valid] using hflags
  obtain ⟨hagrees, hcur, _⟩ := config_coherent _ (agrees_newPlane validFlags_default {} 0) rfl
    putFormRestart hvalid
  have hreported (f : Field) : reported f = RuntimeConfig.encode f.kind
      ((lastAccepted { plane := newPlane defaultFlags {} 0 } putFormRestart f).getD
        (bootFlags defaultFlags putFormRestart f)) :=
    congrArg (RuntimeConfig.encode f.kind) (hcur f)
  exact ⟨hagrees, (hreported .logLevel).trans (by decide +kernel),
    (hreported .sessionMaxTurns).trans (by decide +kernel),
    (hreported .sessionMaxBytes).trans (by decide +kernel)⟩

end AgentGpu.Cmd
