import AgentGpu.ControlPlane.Submission
import AgentGpu.Foundation.Accumulators
import AgentGpu.HttpApi.GpuInventory
import AgentGpu.Sessions.Privacy
import AgentGpu.Sessions.Updates

namespace AgentGpu.ControlPlane.Affinity

open Foundation

def waitBucketBounds : List ℕ := [10, 100, 1000, 10000]

/-- A registry keyed by its workers' ids, as every registry the server reaches is. -/
abbrev Registry := {r : Server // RegistryKeyed r}

structure Turn where
  sessionID : String
  keyID : String
  model : String
  deriving DecidableEq

def Turn.sessionless (turn : Turn) : Bool := turn.sessionID = "" ∨ turn.keyID = ""

/-- Who places the turn: a streaming call, the fast path of `submit`, or the placement loop. -/
inductive Path
  | stream
  | fast
  | queued (enqueuedAt : Time)
  deriving DecidableEq

structure State where
  manager : Sessions.Manager
  registry : Registry
  affinityHits : ℕ := 0
  affinityMisses : ℕ := 0
  affinityRebinds : ℕ := 0
  waits : Histogram := .empty waitBucketBounds

def State.now (s : State) : Time := s.manager.clock

inductive Instr
  | clients
  | manager (i : Sessions.Instr)
  -- sessionDispatchHints and affinityFor
  | affinityFor (turn : Turn) (path : Path)
  | get (turn : Turn) (path : Path) (now : Time)
  | modelServed (turn : Turn) (preferred : String)
  -- pickWorker: the choice from a snapshot, then the handle
  | pick (turn : Turn) (path : Path) (preferred : String)
  | handle (turn : Turn) (path : Path) (preferred id : String)
  | unplaced (turn : Turn) (path : Path)
  | dispatchTo (turn : Turn) (path : Path) (preferred chosen : String) (placedAt : Time)
  | recordAffinity (turn : Turn) (preferred chosen : String)
  | recordWait (enqueuedAt placedAt : Time)

inductive Choice
  | go
  | stop
  | elapse (d : ℕ)
  | registry (r : Registry)
  | session (call : Sessions.Call)
  | submit (turn : Turn)
  | stream (turn : Turn)
  | manager (x : Sessions.Choice)

/-- `Bind` has no caller but `recordAffinity`. -/
def isBind : Sessions.Call → Bool
  | .touch (.bind _) _ _ => true
  | _ => false

def resolved (turn : Turn) (preferred : String) : Path → Instr
  | .fast => .modelServed turn preferred
  | path => .pick turn path preferred

/-- What follows when a worker is committed: a stream records its binding at once, the others
when their dispatch has succeeded. -/
def committed (turn : Turn) (preferred chosen : String) (now : Time) : Path → Instr
  | .stream => .recordAffinity turn preferred chosen
  | path => .dispatchTo turn path preferred chosen now

def unplaced (turn : Turn) (now : Time) : Path → List Instr
  | .stream => []
  | .fast => [.affinityFor turn (.queued now)]
  | .queued enqueuedAt => [.affinityFor turn (.queued enqueuedAt)]

def recordings (turn : Turn) (preferred chosen : String) (placedAt : Time) : Path → List Instr
  | .queued enqueuedAt => [.recordAffinity turn preferred chosen, .recordWait enqueuedAt placedAt]
  | _ => [.recordAffinity turn preferred chosen]

def Registry.handle (r : Registry) (id : String) : Option String := do
  let h ← r.1.workers.lookup id
  if (r.1.worker h).available r.1.clock r.1.heartbeatTimeout then some (r.1.worker h).id else none

def State.preferred (s : State) (turn : Turn) (now : Time) : String :=
  match s.manager.ownedActive turn.sessionID turn.keyID now with
  | none => ""
  | some sess => sess.boundWorkerID

def State.recordAffinity (s : State) (turn : Turn) (preferred chosen : String) : Effect State Instr :=
  let bind : Instr := .manager (.touch (.bind chosen) turn.sessionID turn.keyID)
  if turn.sessionless then ⟨s, [], []⟩
  else if preferred = "" then ⟨s, [bind], []⟩
  else if chosen = preferred then ⟨{ s with affinityHits := s.affinityHits + 1 }, [], []⟩
  else
    ⟨{ s with
      affinityMisses := s.affinityMisses + 1
      affinityRebinds := s.affinityRebinds + 1 }, [bind], []⟩

def State.lift (s : State) (e : Effect Sessions.Manager Sessions.Instr) : Effect State Instr :=
  ⟨{ s with manager := e.shared }, e.next.map .manager, e.spawned.map (·.map .manager)⟩

def waitMs (d : Duration) : ℕ := (d.tdiv 1000000).toNat

def State.recordWait (s : State) (d : Duration) : State :=
  { s with waits := s.waits.add waitBucketBounds (waitMs d) }

def exec (s : State) : Instr → Choice → Option (Effect State Instr)
  | .clients, .elapse d =>
    some ⟨{ s with manager := { s.manager with clock := s.manager.clock + d } }, [.clients], []⟩
  | .clients, .registry r => some ⟨{ s with registry := r }, [.clients], []⟩
  | .clients, .session call =>
    if isBind call then none else some ⟨s, [.clients], [[.manager (Sessions.entry call)]]⟩
  | .clients, .submit turn => some ⟨s, [.clients], [[.affinityFor turn .fast]]⟩
  | .clients, .stream turn => some ⟨s, [.clients], [[.affinityFor turn .stream]]⟩
  | .manager i, .manager x => (Sessions.exec s.manager i x).map s.lift
  | .affinityFor turn path, .go =>
    if turn.sessionless then some ⟨s, [resolved turn "" path], []⟩
    else some ⟨s, [.get turn path s.now], []⟩
  | .get turn path now, .go => some ⟨s, [resolved turn (s.preferred turn now) path], []⟩
  | .modelServed turn preferred, .go =>
    if ControlPlane.modelServed s.registry turn.model then some ⟨s, [.pick turn .fast preferred], []⟩
    else some ⟨s, [], []⟩
  | .pick turn path preferred, .go =>
    match pickPreferring s.registry.1.fleet turn.model preferred with
    | none => some ⟨s, [.unplaced turn path], []⟩
    | some id => some ⟨s, [.handle turn path preferred id], []⟩
  | .handle turn path preferred id, .go =>
    match s.registry.handle id with
    | none => some ⟨s, [.unplaced turn path], []⟩
    | some chosen => some ⟨s, [committed turn preferred chosen s.now path], []⟩
  | .unplaced turn path, .go => some ⟨s, unplaced turn s.now path, []⟩
  -- the queue is full or closed, or the placement loop stops
  | .unplaced _ _, .stop => some ⟨s, [], []⟩
  | .dispatchTo turn path preferred chosen placedAt, .go =>
    some ⟨s, recordings turn preferred chosen placedAt path, []⟩
  | .dispatchTo _ _ _ _ _, .stop => some ⟨s, [], []⟩
  | .recordAffinity turn preferred chosen, .go => some (s.recordAffinity turn preferred chosen)
  | .recordWait enqueuedAt _, .go => some ⟨s.recordWait (s.now.sub enqueuedAt), [], []⟩
  | _, _ => none

def machine : Machine State Instr Choice := ⟨exec⟩

def start (s : State) : Config State Instr := ⟨s, [[.clients]]⟩

structure WaitBucket where
  leMs : ℕ
  count : ℕ
  deriving DecidableEq

structure WaitTimeStats where
  count : ℕ
  sumMs : ℕ
  maxMs : ℕ
  buckets : List WaitBucket
  deriving DecidableEq

def State.waitTimeStats (s : State) : WaitTimeStats where
  count := s.waits.count
  sumMs := s.waits.sum
  maxMs := s.waits.max
  buckets := List.zipWith WaitBucket.mk waitBucketBounds s.waits.buckets ++ [⟨0, s.waits.count⟩]

theorem bind_handle (r : Registry) (model preferred : String) :
    (pickPreferring r.1.fleet model preferred).bind r.handle =
      (pickWorker r.1 model preferred).map fun h ↦ (r.1.worker h).id := by
  unfold pickWorker Registry.handle
  cases pickPreferring r.1.fleet model preferred with
  | none => rfl
  | some id =>
    simp only [Option.bind_eq_bind, Option.bind_some]
    cases r.1.workers.lookup id with
    | none => rfl
    | some h =>
      simp only [Option.bind_some]
      split_ifs <;> rfl

theorem preferred_eq (g : Gateway) (s : State) (hmgr : g.sessionMgr = some s.manager) (job : Job)
    (turn : Turn) : (g.sessionDispatchHints ⟨job, turn.sessionID⟩ turn.keyID).1 =
      if turn.sessionless then "" else s.preferred turn s.now := by
  unfold Gateway.sessionDispatchHints State.preferred State.now Turn.sessionless
  simp only [hmgr, decide_eq_true_eq]
  split_ifs
  · rfl
  · cases s.manager.ownedActive turn.sessionID turn.keyID s.manager.clock <;> rfl

section Rows

variable {m : Sessions.Manager} {i : Sessions.Instr} {x : Sessions.Choice}
  {e : Effect Sessions.Manager Sessions.Instr} {P : Sessions.Session → Prop}

def RowsSatisfy (P : Sessions.Session → Prop) (m : Sessions.Manager) : Prop :=
  ∀ id r, m.sessions.lookup id = some r → r.id = id ∧ P r

def Stores (P : Sessions.Session → Prop) : Sessions.Instr → Prop
  | .serve => False
  | .putNew r | .putBack r => P r
  | .touch t id o | .ownedActive t id o _ =>
    ∀ r now, r.id = id → r.ownerKeyID = o → P r → P (t.update r now)
  | .append t _ r now => P (t.update r now)
  | _ => True

theorem RowsSatisfy.put (h : RowsSatisfy P m) {r : Sessions.Session} (hr : P r) :
    RowsSatisfy P (m.put r) := by
  intro id r' hl
  rw [Sessions.Manager.lookup_put] at hl
  split_ifs at hl with hid
  · cases hl
    exact ⟨hid.symm, hr⟩
  · exact h id r' hl

theorem ownedActive_of_exec {t : Sessions.Touch} {id o : String} {now : Time} {r : Sessions.Session}
    (he : Sessions.exec m (.ownedActive t id o now) x = some ⟨m, [.append t id r now], []⟩) :
    m.ownedActive id o now = some r := by
  cases x <;> simp only [Sessions.exec, reduceCtorEq] at he
  split at he
  · cases he
  · next r' hr =>
    cases he
    exact hr

theorem Stores.step (he : Sessions.exec m i x = some e) (hm : RowsSatisfy P m) (hi : Stores P i)
    (hnew : ∀ r, .putNew r ∈ e.fresh → P r) :
    RowsSatisfy P e.shared ∧ ∀ k ∈ e.fresh, Stores P k := by
  induction Sessions.step_of_exec he with
  | elapse | call => exact hi.elim
  | reserved hmu hr =>
    obtain ⟨rfl, -⟩ := Sessions.Manager.reserveSlot_some hr
    exact ⟨hm, Effect.forall_fresh_singleton trivial⟩
  | minted => exact ⟨hm, Effect.forall_fresh_singleton (hnew _ (by simp))⟩
  | putNew | putBack => exact ⟨hm.put hi, Effect.forall_fresh_nil⟩
  | touch t id o => exact ⟨hm, Effect.forall_fresh_singleton hi⟩
  | owned hl =>
    obtain ⟨hid, hr⟩ := hm _ _ hl
    have howner := Sessions.Sees.owner_of_ownedActive (ownedActive_of_exec he)
    exact ⟨hm, Effect.forall_fresh_singleton (hi _ _ hid howner hr)⟩
  | appended history => exact ⟨hm, Effect.forall_fresh_singleton hi⟩
  | dropRow id =>
    exact ⟨fun id' r hl ↦ hm id' r (Table.lookup_of_erase hl), Effect.forall_fresh_singleton trivial⟩
  | settle id o reason st => exact ⟨hm, by cases st <;> simp [Stores]⟩
  | list listed =>
    refine ⟨hm, fun k hk ↦ ?_⟩
    obtain ⟨r, -, rfl⟩ := Sessions.mem_reap (by simpa using hk)
    trivial
  | _ =>
    refine ⟨hm, ?_⟩
    first
    | exact Effect.forall_fresh_singleton trivial
    | exact Effect.forall_fresh_nil

theorem eq_of_putNew (he : Sessions.exec m i x = some e) {r : Sessions.Session}
    (hr : .putNew r ∈ e.fresh) :
    x = .mint (some r.id) ∧ r.boundWorkerID = "" := by
  induction Sessions.step_of_exec he with
  | call call => cases call <;> simp [Sessions.entry] at hr
  | minted o model id =>
    obtain rfl : r = ⟨id, o, model, "", m.clock, m.clock, m.ttl, .active⟩ := by simpa using hr
    refine ⟨?_, rfl⟩
    cases x with
    | mint drawn => cases drawn <;> simp_all [Sessions.exec]
    | _ => simp [Sessions.exec] at he
  | settle id o reason st => cases st <;> simp at hr
  | list listed =>
    obtain ⟨r', -, hr'⟩ := Sessions.mem_reap (by simpa using hr)
    cases hr'
  | _ => simp at hr

end Rows

inductive Step (s : State) : Instr → Choice → Effect State Instr → Prop
  | elapse (d : ℕ) :
      Step s .clients (.elapse d)
        ⟨{ s with manager := { s.manager with clock := s.manager.clock + d } }, [.clients], []⟩
  | registry (r : Registry) : Step s .clients (.registry r) ⟨{ s with registry := r }, [.clients], []⟩
  | session {call : Sessions.Call} (h : isBind call = false) :
      Step s .clients (.session call) ⟨s, [.clients], [[.manager (Sessions.entry call)]]⟩
  | submit (turn : Turn) : Step s .clients (.submit turn) ⟨s, [.clients], [[.affinityFor turn .fast]]⟩
  | stream (turn : Turn) : Step s .clients (.stream turn) ⟨s, [.clients], [[.affinityFor turn .stream]]⟩
  | manager {i : Sessions.Instr} {x : Sessions.Choice} {e : Effect Sessions.Manager Sessions.Instr}
      (h : Sessions.exec s.manager i x = some e) : Step s (.manager i) (.manager x) (s.lift e)
  | noSession {turn : Turn} (path : Path) (h : turn.sessionless) :
      Step s (.affinityFor turn path) .go ⟨s, [resolved turn "" path], []⟩
  | affinityFor (turn : Turn) (path : Path) :
      Step s (.affinityFor turn path) .go ⟨s, [.get turn path s.now], []⟩
  | get (turn : Turn) (path : Path) (now : Time) :
      Step s (.get turn path now) .go ⟨s, [resolved turn (s.preferred turn now) path], []⟩
  | unserved (turn : Turn) (preferred : String) : Step s (.modelServed turn preferred) .go ⟨s, [], []⟩
  | served (turn : Turn) (preferred : String) :
      Step s (.modelServed turn preferred) .go ⟨s, [.pick turn .fast preferred], []⟩
  | noPick (turn : Turn) (path : Path) (preferred : String) :
      Step s (.pick turn path preferred) .go ⟨s, [.unplaced turn path], []⟩
  | picked {turn : Turn} {preferred id : String} (path : Path)
      (h : pickPreferring s.registry.1.fleet turn.model preferred = some id) :
      Step s (.pick turn path preferred) .go ⟨s, [.handle turn path preferred id], []⟩
  | noHandle (turn : Turn) (path : Path) (preferred id : String) :
      Step s (.handle turn path preferred id) .go ⟨s, [.unplaced turn path], []⟩
  | handled (turn : Turn) (path : Path) (preferred : String) {id chosen : String}
      (h : s.registry.handle id = some chosen) :
      Step s (.handle turn path preferred id) .go ⟨s, [committed turn preferred chosen s.now path], []⟩
  | unplaced (turn : Turn) (path : Path) :
      Step s (.unplaced turn path) .go ⟨s, unplaced turn s.now path, []⟩
  | refused (turn : Turn) (path : Path) : Step s (.unplaced turn path) .stop ⟨s, [], []⟩
  | dispatched (turn : Turn) (path : Path) (preferred chosen : String) (placedAt : Time) :
      Step s (.dispatchTo turn path preferred chosen placedAt) .go
        ⟨s, recordings turn preferred chosen placedAt path, []⟩
  | failed (turn : Turn) (path : Path) (preferred chosen : String) (placedAt : Time) :
      Step s (.dispatchTo turn path preferred chosen placedAt) .stop ⟨s, [], []⟩
  | recordAffinity (turn : Turn) (preferred chosen : String) :
      Step s (.recordAffinity turn preferred chosen) .go (s.recordAffinity turn preferred chosen)
  | recordWait (enqueuedAt placedAt : Time) :
      Step s (.recordWait enqueuedAt placedAt) .go ⟨s.recordWait (s.now.sub enqueuedAt), [], []⟩

theorem step_of_exec {s : State} {i : Instr} {x : Choice} {e : Effect State Instr}
    (h : exec s i x = some e) : Step s i x e := by
  cases i with
  | clients =>
    cases x with
    | session call =>
      simp only [exec] at h
      split_ifs at h with hbind
      cases h
      exact .session (by simpa using hbind)
    | _ => cases h <;> constructor
  | manager i =>
    cases x with
    | manager x =>
      obtain ⟨e', he', rfl⟩ := Option.map_eq_some_iff.mp h
      exact .manager he'
    | _ => cases h
  | affinityFor turn path =>
    cases x <;> simp only [exec, reduceCtorEq] at h
    split_ifs at h with hless <;> cases h
    · exact .noSession path hless
    · exact .affinityFor turn path
  | modelServed turn preferred =>
    cases x <;> simp only [exec, reduceCtorEq] at h
    split_ifs at h <;> cases h
    · exact .served turn preferred
    · exact .unserved turn preferred
  | pick turn path preferred =>
    cases x <;> simp only [exec, reduceCtorEq] at h
    split at h <;> cases h
    · exact .noPick turn path preferred
    · next id hid => exact .picked path hid
  | handle turn path preferred id =>
    cases x <;> simp only [exec, reduceCtorEq] at h
    split at h <;> cases h
    · exact .noHandle turn path preferred id
    · next chosen hchosen => exact .handled turn path preferred hchosen
  | get | unplaced | dispatchTo | recordAffinity | recordWait => cases x <;> cases h <;> constructor

theorem mem_fresh_lift {s : State} {e : Effect Sessions.Manager Sessions.Instr} {k : Instr} :
    k ∈ (s.lift e).fresh ↔ ∃ j ∈ e.fresh, Instr.manager j = k := by
  simp only [State.lift, Effect.mem_fresh, List.mem_map]
  constructor
  · intro h
    rcases h with ⟨j, hj, rfl⟩ | ⟨_, ⟨th, hth, rfl⟩, hk⟩
    · exact ⟨j, .inl hj, rfl⟩
    · obtain ⟨j, hj, rfl⟩ := List.mem_map.mp hk
      exact ⟨j, .inr ⟨th, hth, hj⟩, rfl⟩
  · intro h
    obtain ⟨j, hj, rfl⟩ := h
    rcases hj with hj | ⟨th, hth, hj⟩
    · exact .inl ⟨j, hj, rfl⟩
    · exact .inr ⟨_, ⟨th, hth, rfl⟩, List.mem_map_of_mem hj⟩

def Choice.drawn : Choice → Option String
  | .manager (.mint id) => id
  | _ => none

theorem manager_recordAffinity (s : State) (turn : Turn) (preferred chosen : String) :
    (s.recordAffinity turn preferred chosen).shared.manager = s.manager := by
  unfold State.recordAffinity
  split_ifs <;> rfl

theorem mem_fresh_recordAffinity {s : State} {turn : Turn} {preferred chosen : String} {k : Instr}
    (h : k ∈ (s.recordAffinity turn preferred chosen).fresh) :
    k = .manager (.touch (.bind chosen) turn.sessionID turn.keyID) := by
  unfold State.recordAffinity at h
  split_ifs at h <;> simp at h <;> exact h

theorem stores_entry {P : Sessions.Session → Prop} {call : Sessions.Call} (h : isBind call = false)
    (hkeep : ∀ r now status, P r → P { r with lastActiveAt := now, status := status }) :
    Stores P (Sessions.entry call) := by
  cases call with
  | touch t id o =>
    cases t with
    | bind => cases h
    | resume => exact fun r now _ _ ↦ hkeep r now .active
    | appendTurn | appendTurns => exact fun r now _ _ ↦ hkeep r now r.status
  | _ => trivial

theorem Step.stores {s : State} {i : Instr} {x : Choice} {e : Effect State Instr}
    {P : Sessions.Session → Prop} (hs : Step s i x e) (hm : RowsSatisfy P s.manager)
    (hi : ∀ j, i = .manager j → Stores P j)
    (hkeep : ∀ r now status, P r → P { r with lastActiveAt := now, status := status })
    (hnew : ∀ r, x.drawn = some r.id → r.boundWorkerID = "" → P r)
    (hbind : ∀ turn preferred chosen, i = .recordAffinity turn preferred chosen →
      Stores P (.touch (.bind chosen) turn.sessionID turn.keyID)) :
    RowsSatisfy P e.shared.manager ∧ ∀ j, .manager j ∈ e.fresh → Stores P j := by
  cases hs with
  | elapse d => exact ⟨hm, fun j hj ↦ by simp at hj⟩
  | session h =>
    refine ⟨hm, fun j hj ↦ ?_⟩
    obtain rfl : j = Sessions.entry _ := by simpa using hj
    exact stores_entry h hkeep
  | @manager i x e h =>
    have hnew' (r : Sessions.Session) (hr : .putNew r ∈ e.fresh) : P r := by
      obtain ⟨rfl, hbound⟩ := eq_of_putNew h hr
      exact hnew r rfl hbound
    obtain ⟨hrows, hfresh⟩ := Stores.step h hm (hi i rfl) hnew'
    refine ⟨hrows, fun j hj ↦ ?_⟩
    obtain ⟨j', hj', hjj⟩ := mem_fresh_lift.mp hj
    exact Instr.manager.inj hjj ▸ hfresh j' hj'
  | recordAffinity turn preferred chosen =>
    rw [manager_recordAffinity]
    refine ⟨hm, fun j hj ↦ ?_⟩
    rw [Instr.manager.inj (mem_fresh_recordAffinity hj)]
    exact hbind turn preferred chosen rfl
  | noSession path | get turn path | handled turn path | unplaced turn path | dispatched turn path =>
    refine ⟨hm, fun j hj ↦ ?_⟩
    cases path <;> simp [resolved, committed, Affinity.unplaced, recordings] at hj
  | _ => exact ⟨hm, fun j hj ↦ by simp at hj⟩

/-- A turn whose worker was recorded, with the worker its session was bound to before. -/
structure Committed where
  turn : Turn
  preferred : String
  chosen : String
  deriving DecidableEq

/-- A turn from the queue: when it was queued, given to a worker, and counted. -/
structure Waited where
  enqueuedAt : Time
  placedAt : Time
  countedAt : Time
  deriving DecidableEq

structure Log where
  committed : List Committed := []
  waited : List Waited := []

def note (s : State) (i : Instr) (_ : Choice) (l : Log) : Log :=
  match i with
  | .recordAffinity turn preferred chosen =>
    { l with committed := ⟨turn, preferred, chosen⟩ :: l.committed }
  | .recordWait enqueuedAt placedAt => { l with waited := ⟨enqueuedAt, placedAt, s.now⟩ :: l.waited }
  | _ => l

theorem committed_subset_note (s : State) (i : Instr) (x : Choice) (l : Log) :
    l.committed ⊆ (note s i x l).committed := by
  cases i with
  | recordAffinity => exact List.subset_cons_self _ _
  | _ => exact List.Subset.refl _

def Instr.turn? : Instr → Option Turn
  | .affinityFor turn _ | .get turn _ _ | .modelServed turn _ | .pick turn _ _ | .handle turn _ _ _
  | .unplaced turn _ | .dispatchTo turn _ _ _ _ | .recordAffinity turn _ _ => some turn
  | _ => none

def Instr.workers : Instr → List String
  | .modelServed _ preferred | .pick _ _ preferred => [preferred]
  | .handle _ _ preferred id => [preferred, id]
  | .dispatchTo _ _ preferred chosen _ | .recordAffinity _ preferred chosen => [preferred, chosen]
  | _ => []

section Stickiness

variable {sid key w : String} {s : State} {l : Log} {i : Instr} {x : Choice} {e : Effect State Instr}

/-- The worker is connected and has the model, and no worker is beyond the range of the weights. -/
structure Attends (r : Registry) (model w : String) : Prop where
  inRange : ∀ v ∈ r.1.fleet, v.InRange
  present : ∃ v ∈ r.1.fleet, v.id = w ∧ v.status = .online ∧ v.hasModel model

/-- The turns of the owner find the session alive and its worker attending, and no other
session is given its id. -/
def Undisturbed (sid key w : String) (s : State) (i : Instr) (x : Choice) : Prop :=
  match i with
  | .get turn _ now =>
    turn.sessionID = sid → turn.keyID = key → (s.manager.ownedActive sid key now).isSome
  | .pick turn _ _ => turn.sessionID = sid → turn.keyID = key → Attends s.registry turn.model w
  | .manager _ => x.drawn ≠ some sid
  | _ => True

def Instr.idle (sid : String) : Instr → Bool
  | .manager .serve => false
  | .manager (.touch _ id _) | .manager (.ownedActive _ id _ _) => id ≠ sid
  | .manager (.append _ _ r _) | .manager (.putBack r) | .manager (.putNew r) => r.id ≠ sid
  | i => i.turn?.all (·.sessionID ≠ sid)

instance (r : Registry) (model w : String) : Decidable (Attends r model w) :=
  decidable_of_iff
    ((∀ v ∈ r.1.fleet, v.load.toNat ≤ 100 ∧ v.activeJobs.toNat ≤ 49 ∧ v.freeVRAM.toNat < 10000 * 2 ^ 30) ∧
      ∃ v ∈ r.1.fleet, v.id = w ∧ v.status = .online ∧ v.hasModel model)
    ⟨fun ⟨h, h'⟩ ↦ ⟨fun v hv ↦ ⟨(h v hv).1, (h v hv).2.1, (h v hv).2.2⟩, h'⟩,
      fun h ↦ ⟨fun v hv ↦ ⟨(h.inRange v hv).load, (h.inRange v hv).activeJobs, (h.inRange v hv).freeVRAM⟩,
        h.present⟩⟩

instance (sid key w : String) (s : State) (i : Instr) (x : Choice) :
    Decidable (Undisturbed sid key w s i x) := by
  delta Undisturbed
  induction i using Instr.casesOn <;> infer_instance

def idleOnly : Registry where
  val :=
    { workers := (∅ : Table String ℕ).insert "w1" 0
      worker := fun _ ↦ { id := "w1", models := [⟨"m", ""⟩], freeVRAM := 21474836480 } }
  property id h hl := by
    rcases Table.lookup_insert_cases hl with ⟨rfl, rfl⟩ | hl
    · rfl
    · cases hl

def oneSession : Sessions.Manager :=
  Sessions.Manager.put {} ⟨"s", "k", "m", "w2", 0, 0, 0, .active⟩

end Stickiness

section Provenance

variable {m₀ : Sessions.Manager} {s : State} {l l' : Log} {i : Instr} {x : Choice} {e : Effect State Instr}

/-- A row's worker is none, the one it started with, or one chosen for a turn of its owner. -/
def Traced (m₀ : Sessions.Manager) (l : Log) (r : Sessions.Session) : Prop :=
  r.boundWorkerID = "" ∨
    (∃ r₀, m₀.sessions.lookup r.id = some r₀ ∧ r₀.boundWorkerID = r.boundWorkerID) ∨
    ∃ t ∈ l.committed, t.turn.sessionID = r.id ∧ t.turn.keyID = r.ownerKeyID ∧ t.chosen = r.boundWorkerID

theorem Traced.mono {r : Sessions.Session} (hl : l.committed ⊆ l'.committed) (h : Traced m₀ l r) :
    Traced m₀ l' r :=
  h.imp_right fun h ↦ h.imp_right fun ⟨t, ht, hr⟩ ↦ ⟨t, hl ht, hr⟩

def StoresTraced (m₀ : Sessions.Manager) (l : Log) (k : Instr) : Prop :=
  ∀ j, k = .manager j → ∀ l' : Log, l.committed ⊆ l'.committed → Stores (Traced m₀ l') j

theorem Step.traced (hs : Step s i x e) (hm : RowsSatisfy (Traced m₀ l) s.manager)
    (hi : StoresTraced m₀ l i) (hl : (note s i x l).committed ⊆ l'.committed) :
    RowsSatisfy (Traced m₀ l') e.shared.manager ∧
      ∀ j, .manager j ∈ e.fresh → Stores (Traced m₀ l') j := by
  have hgrown := List.Subset.trans (committed_subset_note s i x l) hl
  refine hs.stores (fun id r hr ↦ (hm id r hr).imp_right (.mono hgrown)) (fun j hj ↦ hi j hj l' hgrown)
    (fun _ _ _ hr ↦ hr) (fun r _ hbound ↦ .inl hbound) fun turn preferred chosen hrec ↦ ?_
  subst hrec
  intro r now hid howner _
  exact .inr (.inr ⟨_, hl List.mem_cons_self, hid.symm, howner.symm, rfl⟩)

/-- A session is only ever bound to a worker that was chosen for one of its owner's turns. -/
theorem bindings_traced {c : Config (State × Log) Instr} (hkeyed : Sessions.RowsKeyed s.manager)
    (hrun : (machine.record note).Reaches ((start s).logging {}) c) {id : String} {r : Sessions.Session}
    (hr : c.shared.1.manager.sessions.lookup id = some r) :
    r.boundWorkerID = "" ∨
      (∃ r₀, s.manager.sessions.lookup id = some r₀ ∧ r₀.boundWorkerID = r.boundWorkerID) ∨
      ∃ t ∈ c.shared.2.committed,
        t.turn.sessionID = id ∧ t.turn.keyID = r.ownerKeyID ∧ t.chosen = r.boundWorkerID := by
  have hinv := hrun.local_invariant (fun p ↦ RowsSatisfy (Traced s.manager p.2) p.1.manager)
    (fun p ↦ StoresTraced s.manager p.2) ?_ ?_ ?_ ?_
  · obtain ⟨rfl, htraced⟩ := hinv.1 id r hr
    exact htraced
  · intro id r hr
    obtain rfl := hkeyed id r hr
    exact ⟨rfl, .inr (.inl ⟨r, hr, rfl⟩)⟩
  · intro i hi j hj
    subst hj
    simp [start, Config.logging, Config.soup] at hi
  · intro c i x e hm hi _ he
    obtain ⟨e', he', rfl⟩ := Machine.exec_record he
    refine ⟨((step_of_exec he').traced hm hi (List.Subset.refl _)).1, fun k hk j hj l' hl' ↦ ?_⟩
    subst hj
    exact ((step_of_exec he').traced hm hi hl').2 j hk
  · intro c i x e _ _ _ he k _ hk j hj l' hl'
    obtain ⟨e', he', rfl⟩ := Machine.exec_record he
    exact hk j hj l' (List.Subset.trans (committed_subset_note _ i x _) hl')

def firstTurn : List (ℕ × Choice) :=
  [(0, .session (.create "k" "m")), (1, .manager .go), (1, .manager (.mint (some "s"))), (1, .manager .go),
    (0, .submit ⟨"s", "k", "m"⟩), (2, .go), (2, .go), (2, .go), (2, .go), (2, .go), (2, .go), (2, .go),
    (2, .manager .go), (2, .manager .go), (2, .manager .go), (2, .manager .go)]

theorem bindings_traced_firstTurn :
    ∃ (c : Config (State × Log) Instr) (r : Sessions.Session),
      c.shared.1.manager.sessions.lookup "s" = some r ∧ r.boundWorkerID = "w1" ∧
      ∃ t ∈ c.shared.2.committed,
        t.turn.sessionID = "s" ∧ t.turn.keyID = r.ownerKeyID ∧ t.chosen = r.boundWorkerID := by
  have hrow : (AList.lookup "s" ((machine.record note).played (fun _ _ _ ↦ True)
      ((start { manager := {}, registry := idleOnly }).logging {}) firstTurn).shared.1.manager.sessions) =
      some ⟨"s", "k", "m", "w1", 0, 0, 30 * minute, .active⟩ := by decide +kernel
  have h := bindings_traced (fun id r hr ↦ by cases hr) (Machine.reaches_played _ _ _) hrow
  exact ⟨_, _, hrow, rfl, h.resolve_left (by decide) |>.resolve_left fun ⟨_, hr, _⟩ ↦ by cases hr⟩

end Provenance

section Waits

variable {s : State} {i k : Instr} {x : Choice} {e : Effect State Instr}

def Path.instants : Path → List Time
  | .queued enqueuedAt => [enqueuedAt]
  | _ => []

def Instr.instants : Instr → List Time
  | .affinityFor _ path | .get _ path _ | .pick _ path _ | .handle _ path _ _ | .unplaced _ path =>
    path.instants
  | .dispatchTo _ path _ _ placedAt => path.instants ++ [placedAt]
  | .recordWait enqueuedAt placedAt => [enqueuedAt, placedAt]
  | _ => []

theorem Step.now_le (hs : Step s i x e) : s.now ≤ e.shared.now := by
  cases hs with
  | elapse d => exact Int.le_add_of_nonneg_right (Int.natCast_nonneg d)
  | manager h => exact (Sessions.step_of_exec h).clock_le
  | recordAffinity turn preferred chosen =>
    rw [State.now, State.now, manager_recordAffinity]
  | _ => exact le_rfl

theorem instants_resolved (turn : Turn) (preferred : String) (path : Path) :
    (resolved turn preferred path).instants = path.instants := by
  cases path <;> rfl

theorem instants_committed (turn : Turn) (preferred chosen : String) (now : Time) (path : Path) :
    (committed turn preferred chosen now path).instants.Sublist (path.instants ++ [now]) := by
  cases path with
  | stream => exact List.nil_sublist _
  | _ => exact .refl _

theorem instants_unplaced (turn : Turn) (now : Time) (path : Path) :
    ∀ k ∈ unplaced turn now path, k.instants.Sublist (path.instants ++ [now]) := by
  cases path with
  | stream => exact List.forall_mem_nil _
  | fast => exact List.forall_mem_singleton.mpr (.refl _)
  | queued => exact List.forall_mem_singleton.mpr (List.sublist_append_left _ _)

theorem instants_recordings (turn : Turn) (preferred chosen : String) (placedAt : Time) (path : Path) :
    ∀ k ∈ recordings turn preferred chosen placedAt path,
      k.instants.Sublist (path.instants ++ [placedAt]) := by
  cases path with
  | queued =>
    exact List.forall_mem_cons.mpr ⟨List.nil_sublist _, List.forall_mem_singleton.mpr (.refl _)⟩
  | _ => exact List.forall_mem_singleton.mpr (List.nil_sublist _)

theorem Step.instants (hs : Step s i x e) : ∀ k ∈ e.fresh, k.instants.Sublist (i.instants ++ [s.now]) := by
  cases hs with
  | manager h =>
    intro k hk
    obtain ⟨j, -, rfl⟩ := mem_fresh_lift.mp hk
    exact List.nil_sublist _
  | recordAffinity turn preferred chosen =>
    intro k hk
    rw [mem_fresh_recordAffinity hk]
    exact List.nil_sublist _
  | noSession path | get turn path =>
    refine Effect.forall_fresh_singleton ?_
    rw [instants_resolved]
    exact List.sublist_append_left _ _
  | affinityFor | noPick | picked | noHandle =>
    exact Effect.forall_fresh_singleton (List.sublist_append_left _ _)
  | handled turn path => exact Effect.forall_fresh_singleton (instants_committed ..)
  | unplaced turn path => exact Effect.forall_fresh_next (instants_unplaced turn s.now path)
  | dispatched turn path =>
    exact Effect.forall_fresh_next fun k hk ↦
      (instants_recordings _ _ _ _ _ k hk).trans (List.sublist_append_left _ _)
  | session | submit | stream => exact Effect.forall_fresh_spawn (List.nil_sublist _) (List.nil_sublist _)
  | elapse | registry | served => exact Effect.forall_fresh_singleton (List.nil_sublist _)
  | unserved | refused | failed | recordWait => exact Effect.forall_fresh_nil

def Waited.queueMs (t : Waited) : ℕ := waitMs (t.placedAt.sub t.enqueuedAt)

def Waited.recordedMs (t : Waited) : ℕ := waitMs (t.countedAt.sub t.enqueuedAt)

def Chronological (now : Time) (k : Instr) : Prop := (k.instants ++ [now]).Pairwise (· ≤ ·)

theorem Chronological.of_sublist {now now' : Time} (h : Chronological now i)
    (hsub : k.instants.Sublist (i.instants ++ [now])) (hle : now ≤ now') : Chronological now' k := by
  refine List.pairwise_append.mpr ⟨List.Pairwise.sublist hsub h, List.pairwise_singleton _ _, ?_⟩
  intro t ht t' ht'
  rw [List.mem_singleton.mp ht']
  rcases List.mem_append.mp (hsub.subset ht) with ht | ht
  · exact ((List.pairwise_append.mp h).2.2 t ht now (List.mem_singleton_self now)).trans hle
  · exact (List.mem_singleton.mp ht).trans_le hle

theorem chronological_of_reaches {c : Config (State × Log) Instr}
    (hrun : (machine.record note).Reaches ((start s).logging {}) c) :
    ∀ k ∈ c.soup, Chronological c.shared.1.now k := by
  refine (hrun.local_invariant (fun _ ↦ True) (fun p ↦ Chronological p.1.now) trivial
    (by simp [start, Config.logging, Config.soup, Chronological, Instr.instants]) ?_ ?_).2
  · intro c i x e _ hi _ he
    obtain ⟨e', he', rfl⟩ := Machine.exec_record he
    have hs := step_of_exec he'
    exact ⟨trivial, fun k hk ↦ hi.of_sublist (hs.instants k hk) hs.now_le⟩
  · intro c i x e _ _ _ he k _ hk
    obtain ⟨e', he', rfl⟩ := Machine.exec_record he
    exact hk.of_sublist (List.sublist_append_left _ _) (step_of_exec he').now_le

theorem time_sub_le_sub {t t' : Time} (h : t ≤ t') (u : Time) : t.sub u ≤ t'.sub u :=
  max_le_max le_rfl (min_le_min le_rfl (Int.sub_le_sub_right h u))

theorem waitMs_mono {d d' : Duration} (h : d ≤ d') : waitMs d ≤ waitMs d' :=
  Int.toNat_le_toNat (Int.tdiv_le_tdiv (by decide) h)

def WaitTimeStats.tally (stats : WaitTimeStats) : Histogram :=
  ⟨stats.count, stats.sumMs, stats.maxMs, (stats.buckets.map WaitBucket.count).dropLast⟩

theorem State.tally_waitTimeStats {ts : Multiset ℕ} (h : s.waits = Foundation.tally waitBucketBounds ts) :
    s.waitTimeStats.tally = s.waits ∧
      s.waitTimeStats.buckets.map WaitBucket.count = s.waits.buckets ++ [s.waits.count] := by
  have hlength : s.waits.buckets.length = waitBucketBounds.length := by
    rw [h]
    exact List.length_map _
  have hcounts : s.waitTimeStats.buckets.map WaitBucket.count = s.waits.buckets ++ [s.waits.count] := by
    rw [State.waitTimeStats, List.map_append, List.map_zipWith]
    refine congrArg (· ++ _) (List.ext_getElem (by simp [hlength]) fun j _ _ ↦ List.getElem_zipWith)
  exact ⟨by rw [WaitTimeStats.tally, hcounts, List.dropLast_concat]; rfl, hcounts⟩

theorem waits_of_reaches {c : Config (State × Log) Instr} (hempty : s.waits = .empty waitBucketBounds)
    (hrun : (machine.record note).Reaches ((start s).logging {}) c) :
    c.shared.1.waits = tally waitBucketBounds (c.shared.2.waited.map Waited.recordedMs) ∧
      ∀ t ∈ c.shared.2.waited, t.enqueuedAt ≤ t.placedAt ∧ t.placedAt ≤ t.countedAt := by
  refine (hrun.refine (fun _ ↦ chronological_of_reaches) fun _ i _ hi hsoup _ ↦ hsoup i hi).shared_invariant
    (fun p ↦ p.1.waits = tally waitBucketBounds (p.2.waited.map Waited.recordedMs) ∧
      ∀ t ∈ p.2.waited, t.enqueuedAt ≤ t.placedAt ∧ t.placedAt ≤ t.countedAt)
    ⟨hempty, fun t ht ↦ by cases ht⟩ ?_
  intro c i x e hI hi he
  obtain ⟨e', he', rfl⟩ := Machine.exec_record he
  obtain ⟨hwaits, hordered⟩ := hI
  cases step_of_exec he' with
  | recordWait enqueuedAt placedAt =>
    refine ⟨?_, List.forall_mem_cons.mpr ⟨?_, hordered⟩⟩
    · rw [State.recordWait, hwaits]
      exact (tally_cons _).symm
    · have hi : [enqueuedAt, placedAt, c.shared.1.now].Pairwise (· ≤ ·) := hi
      simp only [List.pairwise_cons, List.mem_cons, List.not_mem_nil, or_false] at hi
      exact ⟨hi.1 _ (.inl rfl), hi.2.1 _ rfl⟩
  | recordAffinity turn preferred chosen =>
    refine ⟨?_, hordered⟩
    simp only [State.recordAffinity]
    split_ifs <;> exact hwaits
  | _ => exact ⟨hwaits, hordered⟩

/-- `WaitTimeStats` are those of the times from the queue to the result, since `recordWait` comes
after `dispatchTo` has returned. Of the jobs' times in the queue alone, the count is the same,
sum and maximum are no greater, and no bucket holds fewer. -/
theorem waitTimeStats_until_result {c : Config (State × Log) Instr}
    (hempty : s.waits = .empty waitBucketBounds)
    (hrun : (machine.record note).Reaches ((start s).logging {}) c) :
    let stats := c.shared.1.waitTimeStats
    let inQueue := tally waitBucketBounds (c.shared.2.waited.map Waited.queueMs)
    stats.tally = tally waitBucketBounds (c.shared.2.waited.map Waited.recordedMs) ∧
      (stats.buckets.map WaitBucket.count).Pairwise (· ≤ ·) ∧
      (∀ t ∈ c.shared.2.waited, t.enqueuedAt ≤ t.placedAt ∧ t.placedAt ≤ t.countedAt) ∧
      inQueue.count = stats.count ∧ inQueue.sum ≤ stats.sumMs ∧ inQueue.max ≤ stats.maxMs ∧
      ∀ j, stats.tally.buckets.getD j 0 ≤ inQueue.buckets.getD j 0 := by
  intro stats inQueue
  obtain ⟨hwaits, hordered⟩ := waits_of_reaches hempty hrun
  have hle (t : Waited) (ht : t ∈ c.shared.2.waited) : t.queueMs ≤ t.recordedMs :=
    waitMs_mono (time_sub_le_sub (hordered t ht).2 _)
  obtain ⟨hsum, hmax, hbuckets⟩ := @tally_map_le waitBucketBounds Waited c.shared.2.waited
    Waited.queueMs Waited.recordedMs hle
  obtain ⟨htally, hcounts⟩ := State.tally_waitTimeStats hwaits
  rw [hwaits] at htally hcounts
  have hcount : inQueue.count = stats.tally.count := by simp [stats, htally, tally, inQueue]
  refine ⟨htally, hcounts ▸ tally_buckets_pairwise (by decide) _, hordered, hcount, ?_⟩
  change inQueue.sum ≤ stats.tally.sum ∧ inQueue.max ≤ stats.tally.max ∧ _
  rw [show stats.tally = _ from htally]
  exact ⟨hsum, hmax, hbuckets⟩

/-- The worker leaves before its handle is resolved, and comes back two seconds later; the job
then runs for thirty. -/
def queuedRun : List (ℕ × Choice) :=
  [(0, .submit ⟨"", "", "m"⟩), (1, .go), (1, .go), (1, .go), (0, .registry ⟨{}, fun id h hl ↦ by cases hl⟩),
    (1, .go), (1, .go), (0, .elapse 2000000000), (0, .registry idleOnly), (1, .go), (1, .go), (1, .go),
    (0, .elapse 30000000000), (1, .go), (1, .go), (1, .go)]

theorem waitTimeStats_until_result_queuedRun :
    ∃ c : Config (State × Log) Instr,
      (c.shared.2.waited.map fun t ↦ (t.queueMs, t.recordedMs)) = [(2000, 32000)] ∧
      c.shared.1.waitTimeStats.tally =
        tally waitBucketBounds (c.shared.2.waited.map Waited.recordedMs) := by
  have h := waitTimeStats_until_result (s := { manager := {}, registry := idleOnly }) rfl
    (Machine.reaches_played _ _ queuedRun)
  exact ⟨_, by decide +kernel, h.1⟩

end Waits

end AgentGpu.ControlPlane.Affinity
