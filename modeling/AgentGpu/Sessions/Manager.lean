import AgentGpu.Foundation.Goroutines
import AgentGpu.Sessions.Store
import Mathlib.Tactic.SplitIfs

namespace AgentGpu.Sessions

open Foundation

inductive EndReason
  | deleted
  | expired
  deriving DecidableEq

inductive SessionError
  | emptyOwner
  | notFound
  | limitExceeded
  | idFailed
  deriving DecidableEq

/-- What a `Delete` call has returned; no error is nil. -/
structure DeleteReturn where
  id : String
  ownerKeyID : String
  err : Option SessionError
  deriving DecidableEq

structure SessionEndStats where
  turns : ℕ
  duration : Duration
  reason : EndReason
  deriving DecidableEq

/-- The manager with its two in-memory stores. `countMu` is held by a removal; `observed`
is what the end observer was called with. `born` (the first owner stored under an id),
`returned` (what the `Delete` calls have returned) and `swept` (the sessions that sweeps have
removed), both latest first, are kept for the statements. -/
structure Manager where
  sessions : SessionTable := ∅
  history : History := fun _ ↦ none
  caps : HistoryCaps := {}
  counts : String → ℕ := fun _ ↦ 0
  maxPerKey : ℕ := 0
  countMu : Bool := false
  ttl : Duration := 30 * minute
  clock : Time := 0
  obs : Bool := false
  observed : List SessionEndStats := []
  born : String → Option String := fun _ ↦ none
  returned : List DeleteReturn := []
  swept : List String := []

namespace Manager

/-- The sessions that a `Delete` returned nil for or a sweep removed. -/
def gone (m : Manager) : List String :=
  (m.returned.filter (·.err = none)).map DeleteReturn.id ++ m.swept

def fail (m : Manager) (id ownerKeyID : String) (err : SessionError) : Manager :=
  { m with returned := ⟨id, ownerKeyID, some err⟩ :: m.returned }

def returnedAfter (m : Manager) (id ownerKeyID : String) (reason : EndReason) : List DeleteReturn :=
  if reason = .deleted then ⟨id, ownerKeyID, none⟩ :: m.returned else m.returned

def sweptAfter (m : Manager) (id : String) (reason : EndReason) : List String :=
  if reason = .deleted then m.swept else id :: m.swept

def countOf (sessions : SessionTable) (ownerKeyID : String) : ℕ :=
  sessions.tally fun s ↦ s.ownerKeyID = ownerKeyID

def reconcileCounts (sessions : SessionTable) : String → ℕ := countOf sessions

/-- `none` when the owner is at its cap. -/
def reserveSlot (m : Manager) (ownerKeyID : String) : Option Manager :=
  if m.maxPerKey > 0 ∧ m.counts ownerKeyID ≥ m.maxPerKey then none
  else some { m with counts := Function.update m.counts ownerKeyID (m.counts ownerKeyID + 1) }

theorem reserveSlot_some {m m' : Manager} {o : String} (h : m.reserveSlot o = some m') :
    m' = { m with counts := Function.update m.counts o (m.counts o + 1) } ∧
      (0 < m.maxPerKey → m.counts o < m.maxPerKey) := by
  unfold reserveSlot at h
  split_ifs at h with hcap
  cases h
  exact ⟨rfl, fun hpos ↦ Nat.not_le.mp fun hge ↦ hcap ⟨hpos, hge⟩⟩

def releaseSlot (m : Manager) (ownerKeyID : String) : Manager :=
  let n := m.counts ownerKeyID
  { m with counts := Function.update m.counts ownerKeyID (if n > 1 then n - 1 else 0) }

def put (m : Manager) (s : Session) : Manager := { m with sessions := m.sessions.insert s.id s }

theorem lookup_put (m : Manager) (s : Session) (id : String) :
    (m.put s).sessions.lookup id = if id = s.id then some s else m.sessions.lookup id := by
  split_ifs with h
  · subst h
    exact AList.lookup_insert _
  · exact AList.lookup_insert_ne h

/-- The `Put` of a new session, with its owner recorded as the first one of the id. -/
def putNew (m : Manager) (s : Session) : Manager :=
  { m with
    sessions := m.sessions.insert s.id s
    born := Function.update m.born s.id (some s.ownerKeyID) }

@[simp] theorem put_counts (m : Manager) (s : Session) : (m.put s).counts = m.counts := rfl

@[simp] theorem put_countMu (m : Manager) (s : Session) : (m.put s).countMu = m.countMu := rfl

@[simp] theorem putNew_counts (m : Manager) (s : Session) : (m.putNew s).counts = m.counts := rfl

@[simp] theorem putNew_countMu (m : Manager) (s : Session) : (m.putNew s).countMu = m.countMu := rfl

@[simp] theorem fail_sessions (m : Manager) (id o : String) (err : SessionError) :
    (m.fail id o err).sessions = m.sessions := rfl

@[simp] theorem fail_counts (m : Manager) (id o : String) (err : SessionError) :
    (m.fail id o err).counts = m.counts := rfl

@[simp] theorem fail_countMu (m : Manager) (id o : String) (err : SessionError) :
    (m.fail id o err).countMu = m.countMu := rfl

@[simp] theorem releaseSlot_countMu (m : Manager) (o : String) :
    (m.releaseSlot o).countMu = m.countMu := rfl

@[simp] theorem releaseSlot_sessions (m : Manager) (o : String) :
    (m.releaseSlot o).sessions = m.sessions := rfl

def ownedActive (m : Manager) (id ownerKeyID : String) (now : Time) : Option Session :=
  match m.sessions.lookup id with
  | none => none
  | some s => if s.ownerKeyID ≠ ownerKeyID then none else if s.expired now then none else some s

def endStats (m : Manager) (id : String) (s : Session) (reason : EndReason) :
    Option SessionEndStats :=
  if m.obs then
    some ⟨(m.history.get id).length, max 0 (Time.sub m.clock s.createdAt), reason⟩
  else none

end Manager

inductive Touch
  | resume
  | bind (workerID : String)
  | appendTurn (turn : Message)
  | appendTurns (turns : List Message)
  deriving DecidableEq

def Touch.update (t : Touch) (s : Session) (now : Time) : Session :=
  match t with
  | .resume => { s with lastActiveAt := now, status := .active }
  | .bind workerID => { s with boundWorkerID := workerID, lastActiveAt := now }
  | .appendTurn _ | .appendTurns _ => { s with lastActiveAt := now }

@[simp] theorem touch_update_id (t : Touch) (s : Session) (now : Time) : (t.update s now).id = s.id := by
  cases t <;> rfl

@[simp] theorem touch_update_owner (t : Touch) (s : Session) (now : Time) :
    (t.update s now).ownerKeyID = s.ownerKeyID := by
  cases t <;> rfl

def Touch.append? (t : Touch) (caps : HistoryCaps) (h : History) (id : String) :
    Option (Option History) :=
  match t with
  | .resume | .bind _ => none
  | .appendTurn turn => some (h.append caps id turn)
  | .appendTurns turns => some (h.appendBatch caps id turns)

inductive Call
  | create (ownerKeyID model : String)
  | touch (t : Touch) (id ownerKeyID : String)
  | delete (id ownerKeyID : String)
  | sweepExpired

/-- One store call, or one section under `countMu`, each. From `recheck` to `settle` a
removal holds `countMu`. -/
inductive Instr
  | serve
  | reserveSlot (ownerKeyID model : String)
  | newID (ownerKeyID model : String)
  | releaseSlot (ownerKeyID : String)
  | putNew (s : Session)
  | touch (t : Touch) (id ownerKeyID : String)
  | ownedActive (t : Touch) (id ownerKeyID : String) (now : Time)
  | append (t : Touch) (id : String) (s : Session) (now : Time)
  | putBack (s : Session)
  | deleteGet (id ownerKeyID : String)
  | lock (id ownerKeyID : String) (reason : EndReason)
  | recheck (id ownerKeyID : String) (reason : EndReason)
  | endStats (id ownerKeyID : String) (reason : EndReason) (s : Session)
  | dropRow (id ownerKeyID : String) (reason : EndReason) (stats : Option SessionEndStats)
  | dropHistory (id ownerKeyID : String) (reason : EndReason) (stats : Option SessionEndStats)
  | settle (id ownerKeyID : String) (reason : EndReason) (stats : Option SessionEndStats)
  | observe (stats : SessionEndStats)
  | sweep
  | list (now : Time)
  deriving DecidableEq

inductive Choice
  | go
  | elapse (d : ℕ)
  | call (call : Call)
  | mint (id : Option String)
  | order (ids : List String)

def entry : Call → Instr
  | .create ownerKeyID model => .reserveSlot ownerKeyID model
  | .touch t id ownerKeyID => .touch t id ownerKeyID
  | .delete id ownerKeyID => .deleteGet id ownerKeyID
  | .sweepExpired => .sweep

/-- The removals a sweep still has to make: the listed sessions idle at its clock reading. -/
def reap (now : Time) (listed : List Session) : List Instr :=
  (listed.filter (·.expired now)).map fun s ↦ .lock s.id s.ownerKeyID .expired

def exec (m : Manager) : Instr → Choice → Option (Effect Manager Instr)
  | .serve, .elapse d => some ⟨{ m with clock := m.clock + d }, [.serve], []⟩
  | .serve, .call call => some ⟨m, [.serve], [[entry call]]⟩
  | .reserveSlot ownerKeyID model, .go =>
    if ownerKeyID = "" then some ⟨m, [], []⟩
    else if m.countMu then none
    else
      match m.reserveSlot ownerKeyID with
      | none => some ⟨m, [], []⟩
      | some m' => some ⟨m', [.newID ownerKeyID model], []⟩
  | .newID ownerKeyID _, .mint none => some ⟨m, [.releaseSlot ownerKeyID], []⟩
  | .newID ownerKeyID model, .mint (some id) =>
    some ⟨m, [.putNew ⟨id, ownerKeyID, model, "", m.clock, m.clock, m.ttl, .active⟩], []⟩
  | .releaseSlot ownerKeyID, .go => if m.countMu then none else some ⟨m.releaseSlot ownerKeyID, [], []⟩
  | .putNew s, .go => some ⟨m.putNew s, [], []⟩
  | .touch t id ownerKeyID, .go => some ⟨m, [.ownedActive t id ownerKeyID m.clock], []⟩
  | .ownedActive t id ownerKeyID now, .go =>
    match m.ownedActive id ownerKeyID now with
    | none => some ⟨m, [], []⟩
    | some s => some ⟨m, [.append t id s now], []⟩
  | .append t id s now, .go =>
    match t.append? m.caps m.history id with
    | none => some ⟨m, [.putBack (t.update s now)], []⟩
    | some none => some ⟨m, [], []⟩
    | some (some history) => some ⟨{ m with history := history }, [.putBack (t.update s now)], []⟩
  | .putBack s, .go => some ⟨m.put s, [], []⟩
  | .deleteGet id ownerKeyID, .go =>
    match m.sessions.lookup id with
    | none => some ⟨m.fail id ownerKeyID .notFound, [], []⟩
    | some s =>
      if s.ownerKeyID ≠ ownerKeyID then some ⟨m.fail id ownerKeyID .notFound, [], []⟩
      else some ⟨m, [.lock id s.ownerKeyID .deleted], []⟩
  | .lock id ownerKeyID reason, .go =>
    if m.countMu then none else some ⟨{ m with countMu := true }, [.recheck id ownerKeyID reason], []⟩
  | .recheck id ownerKeyID reason, .go =>
    match m.sessions.lookup id with
    | none =>
      -- already gone: `Delete` returns nil as well, a sweep goes on to its next session
      some ⟨{ m with countMu := false, returned := m.returnedAfter id ownerKeyID reason }, [], []⟩
    | some s => some ⟨m, [.endStats id ownerKeyID reason s], []⟩
  | .endStats id ownerKeyID reason s, .go =>
    some ⟨m, [.dropRow id ownerKeyID reason (m.endStats id s reason)], []⟩
  | .dropRow id ownerKeyID reason stats, .go =>
    some ⟨{ m with sessions := m.sessions.erase id }, [.dropHistory id ownerKeyID reason stats], []⟩
  | .dropHistory id ownerKeyID reason stats, .go =>
    some ⟨{ m with history := m.history.deleteBySession id }, [.settle id ownerKeyID reason stats], []⟩
  | .settle id ownerKeyID reason stats, .go =>
    let m' := { m.releaseSlot ownerKeyID with
      countMu := false
      returned := m.returnedAfter id ownerKeyID reason
      swept := m.sweptAfter id reason }
    some ⟨m', (stats.map Instr.observe).toList, []⟩
  | .observe stats, .go => some ⟨{ m with observed := stats :: m.observed }, [], []⟩
  | .sweep, .go => some ⟨m, [.list m.clock], []⟩
  | .list now, .order ids =>
    if ids.Perm m.sessions.keys then
      some ⟨m, reap now (ids.filterMap m.sessions.lookup), []⟩
    else none
  | _, _ => none

def machine : Machine Manager Instr Choice := ⟨exec⟩

def start (m : Manager) : Config Manager Instr := ⟨m, [[.serve]]⟩

/-- `NewManager` over stores restored at boot. -/
def boot (m : Manager) : Manager :=
  { m with
    counts := Manager.reconcileCounts m.sessions
    countMu := false
    observed := []
    born := fun id ↦ (m.sessions.lookup id).map Session.ownerKeyID
    returned := []
    swept := [] }

end AgentGpu.Sessions
