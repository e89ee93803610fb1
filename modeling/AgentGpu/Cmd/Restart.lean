import AgentGpu.HttpApi.Config
import AgentGpu.Sessions.Checkpoint

namespace AgentGpu.Cmd

open Foundation Sessions HttpApi

def historyCaps (c : ConfigSettings) : HistoryCaps where
  maxTurns := c .sessionMaxTurns
  maxBytes := c .sessionMaxBytes
  maxTokens := c .sessionMaxContextTokens
  policy := c .sessionOverflowPolicy

def setTTL (m : Manager) (d : Duration) : Manager := if d ≤ 0 then m else { m with ttl := d }

def setSessionCaps (m : Manager) (c : ConfigSettings) : Manager :=
  { m with caps := historyCaps c, maxPerKey := Int.toNat (c .sessionMaxSessionsPerKey) }

def sessionCapsChanged (raw : Overrides) : Bool :=
  (raw .sessionMaxTurns).isSome || (raw .sessionMaxBytes).isSome ||
    (raw .sessionMaxContextTokens).isSome || (raw .sessionMaxSessionsPerKey).isSome ||
    (raw .sessionOverflowPolicy).isSome

structure Process where
  manager : Manager
  config : RuntimeConfig

structure Files where
  sessions : List Session := []
  history : History := fun _ ↦ none
  overrides : Overrides := fun _ ↦ none

namespace Process

/-- `apply`. The appliers for other subsystems do not reach the session manager. -/
def apply (p : Process) (next : ConfigSettings) (raw : Overrides) : Process :=
  let m := if (raw .sessionTTL).isSome then setTTL p.manager (next .sessionTTL) else p.manager
  { manager := if sessionCapsChanged raw then setSessionCaps m next else m
    config := p.config.commit next raw }

def unchanged (raw : Overrides) : Bool := Field.all.all fun f ↦ (raw f).isNone

def putConfig (p : Process) (patch : Patch) : Except ConfigError Process := do
  patch.check
  let next ← applyConfigPatch p.config.cur patch.fields
  if unchanged patch.fields then .ok p else .ok (p.apply next patch.fields)

/-- An override that does not decode leaves all boot values in place. -/
def loadConfigCheckpoint (p : Process) (raw : Overrides) : Process :=
  if unchanged raw then p
  else
    match applyConfigPatch p.config.cur raw with
    | .error _ => p
    | .ok next => p.apply next raw

/-- All checkpoints at once; `order` is the order in which the session map is walked. -/
def checkpoint (p : Process) (order : List String) : Files where
  sessions := p.manager.listed order
  history := p.manager.history
  overrides := p.config.checkpoint

end Process

/-- The manager that `serveControlPlane` makes from the resolved flags and the session and
history files. The histories are cut to the caps of the flags. -/
def newManager (initial : ConfigSettings) (files : Files) (now : Time) : Manager :=
  let sessions := loadSessions now files.sessions
  let m : Manager :=
    { sessions
      history := files.history.load (historyCaps initial) fun id ↦ (sessions.lookup id).isSome
      caps := historyCaps initial
      maxPerKey := Int.toNat (initial .sessionMaxSessionsPerKey)
      clock := now
      obs := true }
  Sessions.boot (setTTL m (initial .sessionTTL))

/-- `serveControlPlane` up to the end of `LoadConfigCheckpoint`. -/
def boot (initial : ConfigSettings) (files : Files) (now : Time) : Process :=
  { manager := newManager initial files now, config := { cur := initial } : Process }
    |>.loadConfigCheckpoint files.overrides

inductive Act
  | session (op : Sessions.Op)
  | putConfig (patch : Patch)
  | restart (order : List String) (now : Time)

def Process.step (initial : ConfigSettings) (p : Process) : Act → Process
  | .session op => { p with manager := (p.manager.apply op).1 }
  | .putConfig patch => (p.putConfig patch).toOption.getD p
  | .restart order now => boot initial (p.checkpoint order) now

def Process.run (initial : ConfigSettings) (p : Process) (acts : List Act) : Process :=
  acts.foldl (step initial) p

/-- An override of a history cap that is at least as tight as the flag, if it is valid. -/
def CapAsTight (flag : ℤ) (f : Field) (raw : Overrides) : Prop :=
  ∀ msg ∈ raw f, ∀ n, decodeNonNegInt f msg = .ok n → AsTight flag n

structure Tightens (initial : ConfigSettings) (raw : Overrides) : Prop where
  turns : CapAsTight (initial .sessionMaxTurns) .sessionMaxTurns raw
  bytes : CapAsTight (initial .sessionMaxBytes) .sessionMaxBytes raw
  tokens : CapAsTight (initial .sessionMaxContextTokens) .sessionMaxContextTokens raw

def Act.Tightens (initial : ConfigSettings) : Act → Prop
  | .putConfig patch => Cmd.Tightens initial patch.fields
  | .session _ | .restart .. => True

/-- What holds of a process all of whose cap changes tighten the flags. -/
structure Sound (initial : ConfigSettings) (p : Process) : Prop where
  kept : Kept (historyCaps initial) p.manager
  unlocked : p.manager.countMu = false
  caps : p.manager.caps = historyCaps p.config.cur
  tracks : RuntimeConfig.Tracks initial p.config

section Run

variable {initial next : ConfigSettings} {p : Process} {raw : Overrides}

theorem setTTL_eq (m : Manager) (d : Duration) : ∃ ttl, setTTL m d = { m with ttl := ttl } := by
  unfold setTTL
  split_ifs
  · exact ⟨m.ttl, rfl⟩
  · exact ⟨d, rfl⟩

theorem apply_manager (hcaps : p.manager.caps = historyCaps p.config.cur)
    (hnext : applyConfigPatch p.config.cur raw = .ok next) :
    ∃ ttl maxPerKey, (p.apply next raw).manager =
      { p.manager with caps := historyCaps next, ttl := ttl, maxPerKey := maxPerKey } := by
  have hkeep (f : Field) (hf : raw f = none) : next f = p.config.cur f := by
    have htakes := applyConfigPatch_eq_ok_iff.mp hnext f
    simpa only [Takes, hf] using htakes
  obtain ⟨ttl, httl⟩ : ∃ ttl, (if (raw .sessionTTL).isSome then setTTL p.manager (next .sessionTTL)
      else p.manager) = { p.manager with ttl := ttl } := by
    split_ifs
    · exact setTTL_eq _ _
    · exact ⟨p.manager.ttl, rfl⟩
  simp only [Process.apply, httl]
  split_ifs with hchanged
  · exact ⟨ttl, _, rfl⟩
  · have hsame : historyCaps next = p.manager.caps := by
      simp only [sessionCapsChanged, Bool.or_eq_true, Option.isSome_iff_ne_none, not_or,
        not_not] at hchanged
      obtain ⟨⟨⟨⟨hturns, hbytes⟩, htokens⟩, -⟩, hpolicy⟩ := hchanged
      rw [hcaps, historyCaps, historyCaps, hkeep _ hturns, hkeep _ hbytes, hkeep _ htokens,
        hkeep _ hpolicy]
    exact ⟨ttl, p.manager.maxPerKey, by rw [hsame]⟩

theorem CapAsTight.takes {flag cur new : ℤ} {f : Field} (hraw : CapAsTight flag f raw)
    (htakes : match raw f with | none => new = cur | some msg => decodeNonNegInt f msg = .ok new)
    (hcur : AsTight flag cur) : AsTight flag new := by
  split at htakes
  · rwa [htakes]
  · next msg hmsg => exact hraw msg hmsg new htakes

theorem Sound.apply (h : Sound initial p) (hraw : Tightens initial raw)
    (hnext : applyConfigPatch p.config.cur raw = .ok next) : Sound initial (p.apply next raw) := by
  obtain ⟨ttl, maxPerKey, hmanager⟩ := apply_manager h.caps hnext
  have htakes := applyConfigPatch_eq_ok_iff.mp hnext
  have hcur : (historyCaps initial).AsTight (historyCaps p.config.cur) := h.caps ▸ h.kept.tight
  have htight : (historyCaps initial).AsTight (historyCaps next) :=
    { turns := hraw.turns.takes (htakes .sessionMaxTurns) hcur.turns
      bytes := hraw.bytes.takes (htakes .sessionMaxBytes) hcur.bytes
      tokens := hraw.tokens.takes (htakes .sessionMaxContextTokens) hcur.tokens }
  refine ⟨?_, ?_, ?_, h.tracks.commit hnext⟩
  · rw [hmanager]
    exact ⟨h.kept.keyed, htight, h.kept.fits⟩
  · rw [hmanager]
    exact h.unlocked
  · rw [hmanager]
    rfl

theorem Sound.putConfig {patch : Patch} {q : Process} (h : Sound initial p)
    (hraw : Tightens initial patch.fields) (hput : p.putConfig patch = .ok q) : Sound initial q := by
  unfold Process.putConfig at hput
  cases hcheck : patch.check with
  | error err => simp [hcheck, bind, Except.bind] at hput
  | ok _ =>
    cases hnext : applyConfigPatch p.config.cur patch.fields with
    | error err => simp [hcheck, hnext, bind, Except.bind] at hput
    | ok next =>
      simp only [hcheck, hnext, bind, Except.bind] at hput
      split_ifs at hput
      · cases hput
        exact h
      · cases hput
        exact h.apply hraw hnext

theorem Sound.loadConfigCheckpoint (h : Sound initial p) (hraw : Tightens initial raw) :
    Sound initial (p.loadConfigCheckpoint raw) := by
  unfold Process.loadConfigCheckpoint
  split_ifs
  · exact h
  · split
    · exact h
    · next next hnext => exact h.apply hraw hnext

theorem newManager_eq (initial : ConfigSettings) (files : Files) (now : Time) :
    (newManager initial files now).sessions = loadSessions now files.sessions ∧
      (newManager initial files now).history = files.history.load (historyCaps initial)
        (fun id ↦ ((loadSessions now files.sessions).lookup id).isSome) ∧
      (newManager initial files now).caps = historyCaps initial ∧
      (newManager initial files now).countMu = false := by
  unfold newManager
  dsimp only
  obtain ⟨ttl, httl⟩ := setTTL_eq
    { sessions := loadSessions now files.sessions
      history := files.history.load (historyCaps initial) fun id ↦
        ((loadSessions now files.sessions).lookup id).isSome
      caps := historyCaps initial
      maxPerKey := Int.toNat (initial .sessionMaxSessionsPerKey)
      clock := now
      obs := true } (initial .sessionTTL)
  rw [httl]
  exact ⟨rfl, rfl, rfl, rfl⟩

theorem sound_newManager (initial : ConfigSettings) (files : Files) (now : Time) :
    Sound initial { manager := newManager initial files now, config := { cur := initial } } := by
  obtain ⟨hsessions, hhistory, hcaps, hmu⟩ := newManager_eq initial files now
  refine ⟨⟨?_, ?_, ?_⟩, hmu, hcaps, fun f ↦ rfl⟩
  · intro id s hs
    rw [hsessions] at hs
    exact (loadSessions_keyed hs).1
  · rw [hcaps]
    exact ⟨.refl _, .refl _, .refl _⟩
  · intro id turns hid
    rw [hhistory, History.load] at hid
    split_ifs at hid
    obtain ⟨all, -, rfl⟩ := Option.map_eq_some_iff.mp hid
    exact trim_fits _ _

theorem sound_boot {files : Files} (hfiles : Tightens initial files.overrides) (now : Time) :
    Sound initial (boot initial files now) :=
  (sound_newManager initial files now).loadConfigCheckpoint hfiles

theorem unchanged_iff : Process.unchanged raw ↔ ∀ f, raw f = none := by
  simp [Process.unchanged, Field.mem_all]

theorem loadConfigCheckpoint_ok (hcaps : p.manager.caps = historyCaps p.config.cur)
    (hnext : applyConfigPatch p.config.cur raw = .ok next) :
    (p.loadConfigCheckpoint raw).config.cur = next ∧
      (p.loadConfigCheckpoint raw).manager.sessions = p.manager.sessions ∧
      (p.loadConfigCheckpoint raw).manager.history = p.manager.history := by
  unfold Process.loadConfigCheckpoint
  split_ifs with hraw
  · refine ⟨funext fun f ↦ ?_, rfl, rfl⟩
    have htakes := applyConfigPatch_eq_ok_iff.mp hnext f
    simp only [Takes, unchanged_iff.mp hraw f] at htakes
    exact htakes.symm
  · rw [hnext]
    obtain ⟨ttl, maxPerKey, hmanager⟩ := apply_manager hcaps hnext
    refine ⟨rfl, ?_, ?_⟩
    · rw [hmanager]
    · rw [hmanager]

theorem Sound.tightens_checkpoint (h : Sound initial p) : Tightens initial p.config.checkpoint := by
  have htakes := applyConfigPatch_eq_ok_iff.mp h.tracks.restore
  have hcur : (historyCaps initial).AsTight (historyCaps p.config.cur) := h.caps ▸ h.kept.tight
  have hcap {flag cur new : ℤ} {f : Field} (hcur : AsTight flag cur)
      (htakes : match p.config.checkpoint f with
        | none => cur = new | some msg => decodeNonNegInt f msg = .ok cur) :
      CapAsTight flag f p.config.checkpoint := by
    intro msg hmsg n hn
    rw [Option.mem_def] at hmsg
    rw [hmsg] at htakes
    cases htakes.symm.trans hn
    exact hcur
  exact
    { turns := hcap hcur.turns (htakes .sessionMaxTurns)
      bytes := hcap hcur.bytes (htakes .sessionMaxBytes)
      tokens := hcap hcur.tokens (htakes .sessionMaxContextTokens) }

theorem Sound.restart (h : Sound initial p) (order : List String) (now : Time) :
    (∀ id s, (boot initial (p.checkpoint order) now).manager.sessions.lookup id = some s ↔
      p.manager.sessions.lookup id = some s ∧ ¬s.expired now) ∧
    (∀ id s, p.manager.sessions.lookup id = some s → ¬s.expired now →
      (boot initial (p.checkpoint order) now).manager.history id = p.manager.history id) ∧
    (boot initial (p.checkpoint order) now).config.cur = p.config.cur := by
  obtain ⟨hsessions, hhistory, hcaps, -⟩ := newManager_eq initial (p.checkpoint order) now
  obtain ⟨hcur, hsessions', hhistory'⟩ := loadConfigCheckpoint_ok
    (sound_newManager initial (p.checkpoint order) now).caps h.tracks.restore
  have hrows (id : String) (s : Session) :
      (loadSessions now (p.checkpoint order).sessions).lookup id = some s ↔
        p.manager.sessions.lookup id = some s ∧ ¬s.expired now :=
    lookup_restored h.kept.keyed order
  refine ⟨fun id s ↦ ?_, fun id s hs hexp ↦ ?_, hcur⟩
  · have hboot : (boot initial (p.checkpoint order) now).manager.sessions =
        loadSessions now (p.checkpoint order).sessions := hsessions'.trans hsessions
    rw [hboot, hrows]
  · have hboot : (boot initial (p.checkpoint order) now).manager.history id =
        (p.manager.history id).map (trim (historyCaps initial)) := by
      refine (congrFun (hhistory'.trans hhistory) id).trans (if_pos ?_)
      exact Option.isSome_of_eq_some ((hrows id s).mpr ⟨hs, hexp⟩)
    rw [hboot]
    cases hturns : p.manager.history id with
    | none => rfl
    | some turns => exact congrArg some (trim_eq_self (h.kept.fits id turns hturns))

theorem Sound.step (h : Sound initial p) {act : Act} (hact : act.Tightens initial) :
    Sound initial (p.step initial act) := by
  cases act with
  | session op =>
    exact ⟨h.kept.apply h.unlocked op, (apply_countMu op).trans h.unlocked,
      (apply_caps h.unlocked op).trans h.caps, h.tracks⟩
  | putConfig patch =>
    cases hput : p.putConfig patch with
    | error err =>
      rw [Process.step, hput]
      exact h
    | ok q =>
      rw [Process.step, hput]
      exact h.putConfig hact hput
  | restart order now => exact sound_boot h.tightens_checkpoint now

theorem Sound.run (h : Sound initial p) {acts : List Act} (hacts : ∀ act ∈ acts, act.Tightens initial) :
    Sound initial (p.run initial acts) := by
  induction acts generalizing p with
  | nil => exact h
  | cons act acts ih =>
    obtain ⟨hact, hacts⟩ := List.forall_mem_cons.mp hacts
    exact ih (h.step hact) hacts

end Run

/-- Booted from any files, as long as every history cap that an override sets is at least as
tight as the flag's, a process that is checkpointed and restarted with the same flags keeps
the sessions that have not expired, their histories and the history caps. -/
theorem restart_keeps_conversations (initial : ConfigSettings) (files : Files) (start : Time)
    (acts : List Act) (order : List String) (now : Time)
    (hfiles : Tightens initial files.overrides) (hacts : ∀ act ∈ acts, act.Tightens initial) :
    let p := (boot initial files start).run initial acts
    let q := boot initial (p.checkpoint order) now
    (∀ id s, p.manager.sessions.lookup id = some s → ¬s.expired now →
      q.manager.sessions.lookup id = some s ∧
        q.manager.history.get id = p.manager.history.get id) ∧
      q.manager.caps = p.manager.caps := by
  intro p q
  have hp : Sound initial p := (sound_boot hfiles start).run hacts
  obtain ⟨hrows, hhistory, hcur⟩ := hp.restart order now
  have hq : Sound initial q := sound_boot hp.tightens_checkpoint now
  constructor
  · intro id s hs hexp
    refine ⟨(hrows id s).mpr ⟨hs, hexp⟩, ?_⟩
    rw [History.get, History.get, hhistory id s hs hexp]
  · rw [hq.caps, hp.caps, hcur]

def turnFlags (turns : ℤ) : ConfigSettings
  | .sessionMaxTurns => turns
  | .sessionMaxBytes | .sessionMaxContextTokens | .sessionMaxSessionsPerKey => (0 : ℤ)
  | .heartbeatTimeout | .modelWarmMax | .sessionTTL => (0 : ℤ)
  | .quotaDefaultDailyTokens | .quotaDefaultMonthlyTokens | .quotaDefaultRPM | .quotaDefaultTPM
  | .quotaGlobalRPM | .quotaGlobalTPM => (0 : UInt64)
  | .logLevel => "info"
  | .sessionOverflowPolicy => OverflowPolicy.trim

def twoTurns (turns : ℤ) : List Act :=
  [.putConfig { fields := fun f ↦ if f = .sessionMaxTurns then some (.int turns) else none },
    .session (.create "key" "m" (some "s") 0),
    .session (.touch (.appendTurns [{ content := "a" }, { content := "b" }]) "s" "key" 0)]

theorem restart_keeps_conversations_capTwo :
    let p := (boot (turnFlags 3) {} 0).run (turnFlags 3) (twoTurns 2)
    let q := boot (turnFlags 3) (p.checkpoint ["s"]) 1
    (∀ id s, p.manager.sessions.lookup id = some s → ¬s.expired 1 →
      q.manager.sessions.lookup id = some s ∧
        q.manager.history.get id = p.manager.history.get id) ∧
      q.manager.caps = p.manager.caps := by
  refine restart_keeps_conversations (turnFlags 3) {} 0 (twoTurns 2) ["s"] 1 ⟨nofun, nofun, nofun⟩ ?_
  have hturns : CapAsTight 3 .sessionMaxTurns fun f ↦
      if f = .sessionMaxTurns then some (.int 2) else none := by
    rintro msg hmsg n hn
    cases hmsg
    cases hn
    exact .inr ⟨by decide, by decide⟩
  simp only [twoTurns, List.forall_mem_cons, List.not_mem_nil, false_imp_iff, implies_true, and_true]
  exact ⟨⟨hturns, nofun, nofun⟩, trivial, trivial⟩

/-- The flag caps a session at one turn, an override at two. The second turn is stored, and
the next boot drops the first one before it puts the override back in force. -/
theorem restart_drops_turn :
    let p := (boot (turnFlags 1) {} 0).run (turnFlags 1) (twoTurns 2)
    let q := boot (turnFlags 1) (p.checkpoint ["s"]) 1
    (p.manager.sessions.lookup "s").map (·.expired 1) = some false ∧
      (p.manager.history.get "s").map Message.content = ["a", "b"] ∧
      (q.manager.history.get "s").map Message.content = ["b"] ∧
      p.manager.caps.maxTurns = 2 ∧ q.manager.caps.maxTurns = 2 := by
  decide +kernel

/-- Whatever the session and history files hold, the manager starts with sessions that have not
expired, with histories of those only, each within the caps or one turn long, and with tallies
that count the sessions. -/
theorem boot_restore_consistent (initial : ConfigSettings) (files : Files) (now : Time) :
    (∀ id s, (newManager initial files now).sessions.lookup id = some s → s.expired now = false) ∧
    (∀ id turns, (newManager initial files now).history id = some turns →
      id ∈ (newManager initial files now).sessions ∧
        (exceedsCap (newManager initial files now).caps turns = false ∨ turns.length = 1)) ∧
    (∀ order, (newManager initial files now).counts =
      Manager.tallies ((newManager initial files now).listed order)) ∧
    ∀ o, (newManager initial files now).counts o =
      Manager.countOf (newManager initial files now).sessions o := by
  obtain ⟨hsessions, hhistory, hcaps, -⟩ := newManager_eq initial files now
  refine ⟨fun id s hs ↦ ?_, fun id turns hturns ↦ ?_, fun order ↦ (tallies_listed _ order).symm, fun o ↦ rfl⟩
  · rw [hsessions] at hs
    exact (loadSessions_keyed hs).2
  · rw [hhistory, History.load] at hturns
    split_ifs at hturns with hkeep
    obtain ⟨all, -, rfl⟩ := Option.map_eq_some_iff.mp hturns
    rw [hsessions, hcaps]
    refine ⟨AList.lookup_isSome.mp hkeep, ?_⟩
    rcases fits_iff.mp (trim_fits (historyCaps initial) all) with hfits | hlength
    · exact .inl hfits
    · rcases Nat.le_one_iff_eq_zero_or_eq_one.mp hlength with hzero | hone
      · rw [List.length_eq_zero_iff.mp hzero]
        exact .inl (exceedsCap_nil _)
      · exact .inr hone

end AgentGpu.Cmd
