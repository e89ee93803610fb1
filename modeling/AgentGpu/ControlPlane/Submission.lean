import AgentGpu.Auth.Scopes
import AgentGpu.ControlPlane.Placement
import AgentGpu.ControlPlane.Ranking
import AgentGpu.Quota.Engine
import AgentGpu.Sessions.Manager

namespace AgentGpu.ControlPlane

open Foundation Auth

structure Submission where
  job : Job
  sessionID : String := ""

inductive SubmitError
  | missingID
  | missingModel
  | forbidden
  | quotaExceeded
  | modelUnavailable
  | queueFull
  | shuttingDown
  deriving DecidableEq

/-- Where a submit call stands when it has chosen a way for its job. -/
inductive Submitted
  | refused (err : SubmitError)
  | dispatched (h : ℕ) (keepAliveSeconds : ℤ)
  | queued (priority : ℤ) (keepAliveSeconds : ℤ)
  deriving DecidableEq

/-- What the submit calls read: the fleet with the queue, the quota engine, the session manager
if there is one, and the cap on model warmth. -/
structure Gateway where
  server : Server
  quota : Quota.Engine
  sessionMgr : Option Sessions.Manager := none
  modelWarmMax : Duration := 60 * minute

def Job.validate (job : Job) : Option SubmitError :=
  if job.id = "" then some .missingID else if job.model = "" then some .missingModel else none

def warmWindowSeconds (ttl max : Duration) : ℤ :=
  let window := if ttl ≤ 0 ∨ (max > 0 ∧ ttl > max) then max else ttl
  let secs := window.tdiv second
  if secs < 1 then 1 else secs

/-- PriorityHigh for admins, PriorityNormal for users, PriorityLow for all others. -/
def priorityForRoles (roles : List String) : ℤ :=
  roles.foldl (fun best r ↦
    if r = roleAdmin then (if 2 > best then 2 else best)
    else if r = roleUser then (if 1 > best then 1 else best)
    else best) 0

namespace Gateway

variable (g : Gateway) (key : APIKey) (sub : Submission)

def sessionDispatchHints (keyID : String) : String × ℤ :=
  match g.sessionMgr with
  | none => ("", 0)
  | some m =>
    if sub.sessionID = "" ∨ keyID = "" then ("", 0)
    else
      match m.ownedActive sub.sessionID keyID m.clock with
      | none => ("", 0)
      | some sess => (sess.boundWorkerID, warmWindowSeconds sess.ttl g.modelWarmMax)

/-- `CheckAndReserve` on the counters of the key. -/
def checkAndReserve : Gateway × Option SubmitError :=
  let lim := key.limits.getD g.quota.defaults
  match g.quota.store.reserve key.id g.quota.clock (Quota.check lim) with
  | (store, denial) =>
    ({ g with quota := { g.quota with store := store } }, denial.map fun _ ↦ .quotaExceeded)

def gate : Gateway × Option SubmitError :=
  match sub.job.validate with
  | some err => (g, some err)
  | none =>
    if !(Action.decide .infer key sub.job.model).allowed then (g, some .forbidden)
    else g.checkAndReserve key

def submit (keyID : String) (priority : ℤ) : Submitted :=
  match sub.job.validate with
  | some err => .refused err
  | none =>
    let (preferred, keepAlive) := g.sessionDispatchHints sub keyID
    if !modelServed g.server sub.job.model then .refused .modelUnavailable
    else
      match pickWorker g.server sub.job.model preferred with
      | some h => .dispatched h keepAlive
      | none =>
        if g.server.queueClosed then .refused .shuttingDown
        else if g.server.maxDepth > 0 ∧ g.server.queue.length ≥ g.server.maxDepth then
          .refused .queueFull
        else .queued priority keepAlive

def submitAuthorizedJob : Gateway × Submitted :=
  match g.gate key sub with
  | (g, some err) => (g, .refused err)
  | (g, none) => (g, g.submit sub key.id (priorityForRoles key.roles))

def submitAuthorizedJobStream : Gateway × Submitted :=
  match g.gate key sub with
  | (g, some err) => (g, .refused err)
  | (g, none) =>
    let (preferred, keepAlive) := g.sessionDispatchHints sub key.id
    match pickWorker g.server sub.job.model preferred with
    | some h => (g, .dispatched h keepAlive)
    | none =>
      if !modelServed g.server sub.job.model then (g, .refused .modelUnavailable)
      else (g, .refused .queueFull)

structure Admits : Prop where
  id : sub.job.id ≠ ""
  model : sub.job.model ≠ ""
  authorized : (Action.decide .infer key sub.job.model).allowed
  quota : Quota.check (key.limits.getD g.quota.defaults)
    ((g.quota.store.lookup key.id).roll g.quota.clock) = none

theorem admits_or_refuses :
    (g.Admits key sub ∧ ∃ quota, g.gate key sub = ({ g with quota := quota }, none)) ∨
      (¬g.Admits key sub ∧ ∃ g' err, g.gate key sub = (g', some err) ∧ err ≠ .modelUnavailable) := by
  by_cases hid : sub.job.id = ""
  · exact .inr ⟨fun h ↦ h.id hid, g, .missingID, by simp [gate, Job.validate, hid], by decide⟩
  by_cases hmodel : sub.job.model = ""
  · exact .inr ⟨fun h ↦ h.model hmodel, g, .missingModel,
      by simp [gate, Job.validate, hid, hmodel], by decide⟩
  have hvalid : sub.job.validate = none := by simp [Job.validate, hid, hmodel]
  cases hauth : (Action.decide .infer key sub.job.model).allowed with
  | false =>
    exact .inr ⟨fun h ↦ by simp [h.authorized] at hauth, g, .forbidden,
      by simp [gate, hvalid, hauth], by decide⟩
  | true =>
    have hgate : g.gate key sub = g.checkAndReserve key := by simp [gate, hvalid, hauth]
    rw [hgate, checkAndReserve, Quota.CounterStore.reserve]
    cases hquota : Quota.check (key.limits.getD g.quota.defaults)
      ((g.quota.store.lookup key.id).roll g.quota.clock) with
    | none => exact .inl ⟨⟨hid, hmodel, hauth, hquota⟩, _, rfl⟩
    | some denial => exact .inr ⟨fun h ↦ by simp [h.quota] at hquota, _, _, rfl, by simp⟩

end Gateway

namespace Server

/-- The worker of session `h` is registered and advertises the model. -/
def Advertises (s : Server) (model : String) (h : ℕ) : Prop :=
  (∃ id, s.workers.lookup id = some h) ∧
    ((s.worker h).snapshot s.clock s.heartbeatTimeout).hasModel model

def pastTimeout (s : Server) (h : ℕ) : Bool := (s.worker h).isStale s.clock s.heartbeatTimeout

/-- A registered worker that was heard of within the timeout advertises the model. -/
def Live (s : Server) (model : String) : Prop := ∃ h, s.Advertises model h ∧ ¬s.pastTimeout h

end Server

section Fleet

variable {s : Server} {model preferredWorkerID : String}

theorem status_ne_stale_iff (w : Worker) (now : Time) (timeout : Duration) :
    (w.snapshot now timeout).status ≠ .stale ↔ w.draining ∨ ¬w.isStale now timeout := by
  unfold Worker.snapshot
  cases w.draining <;> cases w.isStale now timeout <;> simp

theorem modelServed_iff :
    modelServed s model ↔ ∃ h, s.Advertises model h ∧ ((s.worker h).draining ∨ ¬s.pastTimeout h) := by
  simp only [modelServed, List.any_eq_true, Bool.and_eq_true, decide_eq_true_eq]
  constructor
  · rintro ⟨w, hw, hstatus, hmodel⟩
    obtain ⟨⟨id, h⟩, hentry, rfl⟩ := List.mem_map.mp hw
    exact ⟨h, ⟨⟨id, AList.mem_lookup_iff.mpr hentry⟩, hmodel⟩, (status_ne_stale_iff ..).mp hstatus⟩
  · rintro ⟨h, ⟨⟨id, hid⟩, hmodel⟩, hlive⟩
    have hentry : ⟨id, h⟩ ∈ s.workers.entries := AList.mem_lookup_iff.mp hid
    exact ⟨_, List.mem_map_of_mem hentry, (status_ne_stale_iff ..).mpr hlive, hmodel⟩

theorem modelServed_of_live (h : s.Live model) : modelServed s model := by
  obtain ⟨h, hholds, hlive⟩ := h
  exact modelServed_iff.mpr ⟨h, hholds, .inr hlive⟩

theorem modelServed_eq_false_iff (hnone : ¬s.Live model) :
    modelServed s model = false ↔ ∀ h, s.Advertises model h → (s.worker h).draining = false := by
  rw [Bool.eq_false_iff, ne_eq, modelServed_iff]
  constructor
  · intro hun h hholds
    exact Bool.eq_false_iff.mpr fun hdraining ↦ hun ⟨h, hholds, .inl hdraining⟩
  · rintro hidle ⟨h, hholds, hdraining | hlive⟩
    · cases hdraining.symm.trans (hidle h hholds)
    · exact hnone ⟨h, hholds, hlive⟩

theorem mem_of_pickPreferring {workers : List Snapshot} {id : String}
    (h : pickPreferring workers model preferredWorkerID = some id) :
    ∃ w ∈ workers, w.runnable model ∧ w.id = id := by
  unfold pickPreferring at h
  split at h
  · cases h
  · next w rest hcons =>
    obtain ⟨hin, hrun⟩ := mem_candidates.mp (hcons ▸ bestOf_mem)
    exact ⟨_, hin, hrun, Option.some.inj h⟩

theorem available_of_runnable {w : Worker} {now : Time} {timeout : Duration}
    (h : (w.snapshot now timeout).runnable model) : w.available now timeout := by
  unfold Snapshot.runnable Worker.snapshot at h
  unfold Worker.available
  cases hdraining : w.draining <;> cases hstale : w.isStale now timeout <;>
    simp [hdraining, hstale] at h ⊢

theorem pickWorker_eq_none (hkeyed : RegistryKeyed s) :
    pickWorker s model preferredWorkerID = none ↔ ∀ w ∈ s.fleet, w.runnable model = false := by
  rw [← pickPreferring_eq_none]
  unfold pickWorker
  cases hpick : pickPreferring s.fleet model preferredWorkerID with
  | none => simp
  | some id =>
    obtain ⟨w, hw, hrun, rfl⟩ := mem_of_pickPreferring hpick
    obtain ⟨⟨id, h⟩, hentry, rfl⟩ := List.mem_map.mp hw
    have hlookup : s.workers.lookup id = some h := AList.mem_lookup_iff.mpr hentry
    have hid : (s.worker h).id = id := hkeyed id h hlookup
    have hfound : s.workers.lookup ((s.worker h).snapshot s.clock s.heartbeatTimeout).id = some h :=
      (congrArg s.workers.lookup hid).trans hlookup
    have hav := available_of_runnable hrun
    simp only [Option.bind_eq_bind, Option.bind_some, hfound, hav, if_true, reduceCtorEq]

theorem runnable_eq_false_of_unserved {w : Snapshot} (hserved : modelServed s model = false)
    (hw : w ∈ s.fleet) :
    w.runnable model = false ↔ (w.status = .online → w.freeVRAM = 0) := by
  have hlive := List.any_eq_false.mp hserved w hw
  unfold Snapshot.runnable
  cases hstatus : w.status with
  | online =>
    have hmodel : w.hasModel model = false := by simpa [hstatus] using hlive
    simp [hmodel, UInt64.pos_iff_ne_zero]
  | draining | stale => simp

theorem pickWorker_eq_none_of_unserved (hkeyed : RegistryKeyed s)
    (hserved : modelServed s model = false) (preferredWorkerID : String) :
    pickWorker s model preferredWorkerID = none ↔
      ∀ w ∈ s.fleet, w.status = .online → w.freeVRAM = 0 := by
  rw [pickWorker_eq_none hkeyed]
  exact forall₂_congr fun w hw ↦ runnable_eq_false_of_unserved hserved hw

end Fleet

section Diagnosis

variable {g : Gateway} {key : APIKey} {sub : Submission}

theorem Gateway.Admits.validate (h : g.Admits key sub) : sub.job.validate = none := by
  simp [Job.validate, h.id, h.model]

theorem Gateway.submit_unserved (hvalid : sub.job.validate = none)
    (hserved : modelServed g.server sub.job.model = false) (keyID : String) (priority : ℤ) :
    g.submit sub keyID priority = .refused .modelUnavailable := by
  simp [Gateway.submit, hvalid, hserved]

theorem Gateway.submit_served_ne (hvalid : sub.job.validate = none)
    (hserved : modelServed g.server sub.job.model = true) {err : SubmitError}
    (hclosed : err ≠ .shuttingDown) (hfull : err ≠ .queueFull) (keyID : String) (priority : ℤ) :
    g.submit sub keyID priority ≠ .refused err := by
  simp only [Gateway.submit, hvalid, hserved, Bool.not_true, Bool.false_eq_true, if_false]
  cases pickWorker g.server sub.job.model (g.sessionDispatchHints sub keyID).1 with
  | some h => simp
  | none =>
    dsimp only
    split_ifs <;> simp [hclosed.symm, hfull.symm]

theorem Gateway.submit_served (hvalid : sub.job.validate = none)
    (hserved : modelServed g.server sub.job.model = true) (keyID : String) (priority : ℤ) :
    g.submit sub keyID priority ≠ .refused .modelUnavailable :=
  g.submit_served_ne hvalid hserved (by decide) (by decide) keyID priority

theorem Gateway.gate_ne_forbidden (h : (Action.decide .infer key sub.job.model).allowed) :
    (g.gate key sub).2 ≠ some .forbidden := by
  unfold Gateway.gate
  simp only [h, Bool.not_true, Bool.false_eq_true, if_false]
  unfold Job.validate
  split_ifs <;> simp [Gateway.checkAndReserve]

theorem Gateway.not_refused (hallowed : (Action.decide .infer key sub.job.model).allowed)
    (hserved : modelServed g.server sub.job.model = true) {err : SubmitError}
    (herr : err = .forbidden ∨ err = .modelUnavailable) :
    (g.submitAuthorizedJob key sub).2 ≠ .refused err ∧
      (g.submitAuthorizedJobStream key sub).2 ≠ .refused err := by
  have hclosed : err ≠ .shuttingDown := by rcases herr with rfl | rfl <;> decide
  have hfull : err ≠ .queueFull := by rcases herr with rfl | rfl <;> decide
  rcases g.admits_or_refuses key sub with ⟨hadmits, quota, hgate⟩ | ⟨-, g', err', hgate, hne⟩
  · obtain ⟨g', hg'⟩ : ∃ g', g' = { g with quota := quota } := ⟨_, rfl⟩
    have hserved' : modelServed g'.server sub.job.model = true := hg' ▸ hserved
    rw [Gateway.submitAuthorizedJob, Gateway.submitAuthorizedJobStream, hgate, ← hg']
    refine ⟨g'.submit_served_ne hadmits.validate hserved' hclosed hfull _ _, ?_⟩
    simp only [hserved', Bool.not_true, Bool.false_eq_true, if_false]
    cases pickWorker g'.server sub.job.model (g'.sessionDispatchHints sub key.id).1 with
    | some h => simp
    | none => simp [hfull.symm]
  · have hforbidden := g.gate_ne_forbidden hallowed
    rw [hgate] at hforbidden
    have herr' : err' ≠ err := by
      rcases herr with rfl | rfl
      · exact fun h ↦ hforbidden (congrArg some h)
      · exact hne
    simp [Gateway.submitAuthorizedJob, Gateway.submitAuthorizedJobStream, hgate, herr']

def Submitted.choice : Submitted → Choice
  | .dispatched h _ => .worker h
  | .refused .modelUnavailable => .unserved
  | .refused _ | .queued .. => .noWorker 0

theorem Gateway.picks_submit (hmgr : g.sessionMgr = none) (hvalid : sub.job.validate = none)
    (keyID : String) (priority : ℤ) :
    Picks g.server (.pick .fast sub.job) (g.submit sub keyID priority).choice := by
  have hhints : g.sessionDispatchHints sub keyID = ("", 0) := by
    simp [Gateway.sessionDispatchHints, hmgr]
  simp only [Gateway.submit, hvalid, hhints]
  cases hserved : modelServed g.server sub.job.model with
  | false => simp [Submitted.choice, Picks, PicksFor, hserved]
  | true =>
    cases hpick : pickWorker g.server sub.job.model "" with
    | some h => simp [Submitted.choice, Picks, PicksFor, hserved, hpick]
    | none =>
      simp only [Bool.not_true, Bool.false_eq_true, if_false]
      split_ifs <;> simp [Submitted.choice, Picks, PicksFor, hserved, hpick]

/-- The two submit calls give one diagnosis, and both refuse a model that no live worker
advertises, exactly when a live worker advertises the model, or no draining worker does and no
online worker reports free VRAM. -/
theorem submit_diagnoses_agree (g : Gateway) (key : APIKey) (sub : Submission)
    (hkeyed : RegistryKeyed g.server) :
    let stream := (g.submitAuthorizedJobStream key sub).2
    let plain := (g.submitAuthorizedJob key sub).2
    ((stream = .refused .modelUnavailable ↔ plain = .refused .modelUnavailable) ∧
      (¬g.server.Live sub.job.model →
        (∀ h k, stream ≠ .dispatched h k ∧ plain ≠ .dispatched h k) ∧
        (g.Admits key sub →
          stream = .refused .modelUnavailable ∧ plain = .refused .modelUnavailable))) ↔
    (g.Admits key sub → g.server.Live sub.job.model ∨
      ((∀ h, g.server.Advertises sub.job.model h → (g.server.worker h).draining = false) ∧
        ∀ w ∈ g.server.fleet, w.status = .online → w.freeVRAM = 0)) := by
  intro stream plain
  rcases g.admits_or_refuses key sub with
    ⟨hadmits, quota, hgate⟩ | ⟨hnot, g', err, hgate, herr⟩
  · obtain ⟨g', hg'⟩ : ∃ g', g' = { g with quota := quota } := ⟨_, rfl⟩
    obtain ⟨preferred, keepAlive, hhints⟩ :
        ∃ preferred keepAlive, g'.sessionDispatchHints sub key.id = (preferred, keepAlive) := ⟨_, _, rfl⟩
    have hserver : g'.server = g.server := by rw [hg']
    have hplain : plain = g'.submit sub key.id (priorityForRoles key.roles) := by
      simp [plain, Gateway.submitAuthorizedJob, hgate, hg']
    have hstream : stream = match pickWorker g.server sub.job.model preferred with
        | some h => .dispatched h keepAlive
        | none => if modelServed g.server sub.job.model then .refused .queueFull
          else .refused .modelUnavailable := by
      simp only [stream, Gateway.submitAuthorizedJobStream, hgate, ← hg', hhints, hserver]
      cases pickWorker g.server sub.job.model preferred <;>
        cases modelServed g.server sub.job.model <;> rfl
    cases hserved : modelServed g.server sub.job.model with
    | true =>
      have hne := g'.submit_served hadmits.validate (hserver.symm ▸ hserved) key.id
        (priorityForRoles key.roles)
      have hne' : stream ≠ .refused .modelUnavailable := by
        rw [hstream, hserved]
        split <;> simp
      -- a draining worker past the timeout may be what it is served by
      by_cases hlive : g.server.Live sub.job.model
      · simp [hplain, hne, hne', hlive]
      · have hdraining := mt (modelServed_eq_false_iff hlive).mpr (by simp [hserved])
        simp [hne', hlive, hadmits, hdraining]
    | false =>
      have hlive : ¬g.server.Live sub.job.model := fun h ↦ by
        simp [modelServed_of_live h] at hserved
      have hun := g'.submit_unserved hadmits.validate (hserver.symm ▸ hserved) key.id
        (priorityForRoles key.roles)
      rw [← modelServed_eq_false_iff hlive, ← pickWorker_eq_none_of_unserved hkeyed hserved preferred,
        hplain, hun, hstream, hserved]
      cases pickWorker g.server sub.job.model preferred <;> simp [hadmits, hlive]
  · have hstream : stream = .refused err := by simp [stream, Gateway.submitAuthorizedJobStream, hgate]
    have hplain : plain = .refused err := by simp [plain, Gateway.submitAuthorizedJob, hgate]
    simp [hstream, hplain, hnot]

/-- A worker that serves another model and has room for this one takes the streaming job; the
other call is told that no worker serves it. -/
theorem stream_dispatches_unserved :
    ∃ c, controlPlane.Reaches (boot (new 0 0 0)) c ∧
      let g : Gateway := { server := c.shared, quota := { clock := 0 } }
      let key : APIKey :=
        { id := "a1", secretHash := [], salt := [], createdAt := 0, roles := [roleAdmin] }
      let sub : Submission := ⟨⟨"id", "m", 0⟩, ""⟩
      ¬g.server.Live "m" ∧
        (g.submitAuthorizedJobStream key sub).2 = .dispatched 1 0 ∧
        (g.submitAuthorizedJob key sub).2 = .refused .modelUnavailable := by
  have hrun : ∃ c, controlPlane.Reaches (boot (new 0 0 0)) c ∧
      modelServed c.shared "m" = false ∧
      (Gateway.submitAuthorizedJobStream { server := c.shared, quota := { clock := 0 } }
        { id := "a1", secretHash := [], salt := [], createdAt := 0, roles := [roleAdmin] }
        ⟨⟨"id", "m", 0⟩, ""⟩).2 = .dispatched 1 0 ∧
      (Gateway.submitAuthorizedJob { server := c.shared, quota := { clock := 0 } }
        { id := "a1", secretHash := [], salt := [], createdAt := 0, roles := [roleAdmin] }
        ⟨⟨"id", "m", 0⟩, ""⟩).2 = .refused .modelUnavailable := by
    apply Machine.exists_run [(0, .connect "w" [⟨"other", ""⟩]), (3, .go), (3, .go),
      (3, .message (.heartbeat { freeVRAM := 1 }))]
    decide +kernel
  obtain ⟨c, hc, hserved, hsubmitted⟩ := hrun
  exact ⟨c, hc, fun hlive ↦ by simp [modelServed_of_live hlive] at hserved, hsubmitted⟩

theorem submit_diagnoses_agree_fullWorker :
    ∃ c, controlPlane.Reaches (boot (new 0 0 0)) c ∧
      let g : Gateway := { server := c.shared, quota := { clock := 0 } }
      let key : APIKey :=
        { id := "a1", secretHash := [], salt := [], createdAt := 0, roles := [roleAdmin] }
      let sub : Submission := ⟨⟨"id", "m", 0⟩, ""⟩
      ¬g.server.Live "m" ∧
        (g.submitAuthorizedJob key sub).2 = .refused .modelUnavailable ∧
        (g.submitAuthorizedJobStream key sub).2 = .refused .modelUnavailable := by
  have hrun : ∃ c, controlPlane.Reaches (boot (new 0 0 0)) c ∧
      modelServed c.shared "m" = false ∧
      (∀ w ∈ c.shared.fleet, w.status = .online → w.freeVRAM = 0) ∧
      (Gateway.submitAuthorizedJob { server := c.shared, quota := { clock := 0 } }
        { id := "a1", secretHash := [], salt := [], createdAt := 0, roles := [roleAdmin] }
        ⟨⟨"id", "m", 0⟩, ""⟩).2 = .refused .modelUnavailable := by
    apply Machine.exists_run [(0, .connect "w" [⟨"other", ""⟩]), (3, .go), (3, .go)]
    decide +kernel
  obtain ⟨c, hc, hserved, hfull, hplain⟩ := hrun
  have hlive : ¬c.shared.Live "m" := fun hlive ↦ by simp [modelServed_of_live hlive] at hserved
  have hagree := submit_diagnoses_agree { server := c.shared, quota := { clock := 0 } }
    { id := "a1", secretHash := [], salt := [], createdAt := 0, roles := [roleAdmin] }
    ⟨⟨"id", "m", 0⟩, ""⟩ (registryKeyed_of_reaches hc)
  have hidle := (modelServed_eq_false_iff hlive).mp hserved
  exact ⟨c, hc, hlive, hplain, (hagree.mpr fun _ ↦ .inr ⟨hidle, hfull⟩).1.mpr hplain⟩

end Diagnosis

end AgentGpu.ControlPlane
