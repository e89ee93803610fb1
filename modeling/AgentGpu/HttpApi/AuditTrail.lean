import AgentGpu.Auth.Persistence
import AgentGpu.Foundation.Accumulators
import AgentGpu.Foundation.Doubles
import AgentGpu.Foundation.RingBuffer

namespace AgentGpu.HttpApi.AuditTrail

open Foundation Auth

inductive Outcome
  | success
  | failure
  deriving DecidableEq

inductive Value
  | string (s : String)
  | strings (l : List String)
  | bool (b : Bool)
  | number (n : ℤ)
  | numbers (fields : List (String × ℤ))
  deriving DecidableEq

abbrev RedactedValues := List (String × Value)

structure Entry where
  time : Time := zeroTime
  actor : String
  op : String
  target : String
  before : Option RedactedValues
  after : Option RedactedValues
  requestID : String
  outcome : Outcome

def auditOpKeyCreate : String := "key.create"
def auditOpKeyRevoke : String := "key.revoke"
def auditOpKeyRotate : String := "key.rotate"
def auditOpKeyPermissions : String := "key.permissions"
def auditOpKeyQuota : String := "key.quota"

/-- The operations on keys; those on workers, models and the configuration have other names. -/
def keyOps : List String :=
  [auditOpKeyCreate, auditOpKeyRevoke, auditOpKeyRotate, auditOpKeyPermissions, auditOpKeyQuota]

def auditLimits (l : Quota.Limits) : Value :=
  .numbers [("rpm", l.rpm.toNat), ("tpm", l.tpm.toNat), ("daily_tokens", l.dailyTokens.toNat),
    ("monthly_tokens", l.monthlyTokens.toNat)]

def auditLabel (name value : String) : RedactedValues :=
  if value ≠ "" then [(name, .string value)] else []

def auditKeyValues (k : APIKey) : Option RedactedValues :=
  if k.id = "" then none
  else
    let v : RedactedValues :=
      [("id", .string k.id), ("name", .string k.name), ("roles", .strings k.roles),
        ("admin_scopes", .strings k.adminScopes), ("allow_models", .strings k.allowModels),
        ("deny_models", .strings k.denyModels), ("revoked", .bool k.revoked)]
    let labels : RedactedValues :=
      auditLabel "owner" k.owner ++ auditLabel "team" k.team ++ auditLabel "created_by" k.createdBy
    let expiry : RedactedValues := (k.expiresAt.map fun t ↦ ("expires_at", .number (t / second))).toList
    let limits : RedactedValues := (k.limits.map fun l ↦ ("limits", auditLimits l)).toList
    some (v ++ labels ++ expiry ++ limits)

/-- The newest entries, as many as the cap allows; a cap that is not positive is none. -/
def window (max : ℤ) (entries : List Entry) : List Entry :=
  if 0 < max ∧ max < entries.length then entries.drop (entries.length - max.toNat) else entries

structure MemoryStore where
  entries : List Entry := []
  max : ℤ

def MemoryStore.append (m : MemoryStore) (e : Entry) : MemoryStore :=
  { m with entries := window m.max (m.entries ++ [e]) }

/-- A number comes back from the file as a `float64`. -/
def Value.reload : Value → Value
  | .number n => .number (toDouble n)
  | .numbers fields => .numbers (fields.map fun f ↦ (f.1, toDouble f.2))
  | v => v

/-- Empty values are omitted from the file. -/
def reloadValues : Option RedactedValues → Option RedactedValues
  | none | some [] => none
  | some values => some (values.map fun v ↦ (v.1, v.2.reload))

def Entry.reload (e : Entry) : Entry :=
  { e with before := reloadValues e.before, after := reloadValues e.after }

/-- A missing file leaves the store empty. -/
def MemoryStore.loadCheckpoint (m : MemoryStore) : Option (List Entry) → MemoryStore
  | none => m
  | some saved => { m with entries := window m.max (saved.map Entry.reload) }

/-- What outlives the process: the keys file and the file of the audit log. -/
structure Disk where
  keys : List APIKey := []
  audit : Option (List Entry) := none

structure State where
  file : File
  log : MemoryStore
  checkpoint : Option (List Entry)

def State.disk (s : State) : Disk := ⟨s.file.disk, s.checkpoint⟩

def boot (max : ℤ) (d : Disk) : State :=
  ⟨.newFile d.keys, MemoryStore.loadCheckpoint { max } d.audit, d.audit⟩

def auditOp : Op → String
  | .create .. => auditOpKeyCreate
  | .revoke .. => auditOpKeyRevoke
  | .rotate .. => auditOpKeyRotate
  | .setPermissions .. => auditOpKeyPermissions
  | .setLimits .. => auditOpKeyQuota
  | .authenticate .. => ""

/-- A write on the keys that has passed the checks before it, with its request's key and id. -/
structure Write where
  op : Op
  actor : String
  requestID : String
  writes : auditOp op ∈ keyOps := by decide

def pathID : Op → String
  | .setPermissions id _ | .setLimits id _ | .rotate _ id | .revoke _ id => id
  | .create .. | .authenticate .. => ""

def Write.entry (w : Write) (target : String) (outcome : Outcome)
    (before after : Option RedactedValues) : Entry :=
  { actor := w.actor, op := auditOp w.op, target, before, after, requestID := w.requestID, outcome }

/-- Where a handler stands: before its first look at the key, its call of the key service, its
second look, or in `Append`, before the time is taken and before the lock. -/
inductive Instr
  | serve
  | get (w : Write)
  | call (w : Write) (before : Option RedactedValues)
  | getAfter (w : Write) (before : Option RedactedValues)
  | stamp (e : Entry)
  | append (e : Entry)

/-- Outside, writes and other requests arrive, handlers of other resources record their entries,
and the audit log is written to its file. -/
inductive Choice
  | go
  | now (t : Time)
  | flush (fault : Option FlushStage)
  | write (w : Write)
  | authenticate (now : Time) (token : String) (fault : Option FlushStage)
  | record (e : Entry)
  | checkpoint

def State.keyValues (s : State) (id : String) : Option RedactedValues :=
  (s.file.keys.lookup id).bind auditKeyValues

def State.stored (s : State) (op : Op) : Option APIKey := ((plan s.file.keys op).toOption).bind Prod.fst

def State.target (s : State) (op : Op) : String :=
  match op with
  | .create .. => ((s.stored op).map APIKey.id).getD ""
  | _ => pathID op

def State.succeeded (s : State) (w : Write) (before : Option RedactedValues) : Instr :=
  match w.op with
  | .revoke .. => .getAfter w before
  | .rotate .. => .stamp (w.entry (s.target w.op) .success none none)
  | _ => .stamp (w.entry (s.target w.op) .success before ((s.stored w.op).bind auditKeyValues))

def State.call (s : State) (w : Write) (before : Option RedactedValues) (fault : Option FlushStage) :
    State × Instr :=
  let (file, result) := s.file.call w.op fault
  ({ s with file },
    match result with
    | .error _ => .stamp (w.entry (pathID w.op) .failure before none)
    | .ok _ => s.succeeded w before)

def looksFirst : Op → Bool
  | .revoke .. | .setPermissions .. | .setLimits .. => true
  | _ => false

def handler (w : Write) : Instr := if looksFirst w.op then .get w else .call w none

def exec (s : State) : Instr → Choice → Option (Effect State Instr)
  | .serve, .write w => some ⟨s, [.serve], [[handler w]]⟩
  | .serve, .authenticate now token fault =>
    some ⟨{ s with file := (s.file.call (.authenticate now token) fault).1 }, [.serve], []⟩
  | .serve, .record e => if e.op ∈ keyOps then none else some ⟨s, [.serve], [[.stamp e]]⟩
  | .serve, .checkpoint => some ⟨{ s with checkpoint := some s.log.entries }, [.serve], []⟩
  | .get w, .go => some ⟨s, [.call w (s.keyValues (pathID w.op))], []⟩
  | .call w before, .flush fault => some ⟨(s.call w before fault).1, [(s.call w before fault).2], []⟩
  | .getAfter w before, .go =>
    some ⟨s, [.stamp (w.entry (pathID w.op) .success before (s.keyValues (pathID w.op)))], []⟩
  | .stamp e, .now t => some ⟨s, [.append { e with time := if e.time = zeroTime then t else e.time }], []⟩
  | .append e, .go => some ⟨{ s with log := s.log.append e }, [], []⟩
  | _, _ => none

def machine : Machine State Instr Choice := ⟨exec⟩

structure Receipt where
  actor : String
  requestID : String
  op : String
  target : String
  outcome : Outcome
  deriving DecidableEq

def Entry.receipt (e : Entry) : Receipt := ⟨e.actor, e.requestID, e.op, e.target, e.outcome⟩

def Write.receipt (s : State) (w : Write) (fault : Option FlushStage) : Receipt :=
  match (s.file.call w.op fault).2 with
  | .ok _ => ⟨w.actor, w.requestID, auditOp w.op, s.target w.op, .success⟩
  | .error _ => ⟨w.actor, w.requestID, auditOp w.op, pathID w.op, .failure⟩

/-- The entries appended in this life of the process, the calls made on the keys, those of them
that stored a record without its reaching the disk, with the record, and how many entries had
been appended at the last checkpoint. -/
structure Log where
  appended : List Entry := []
  calls : Multiset Receipt := 0
  unflushed : Multiset (Receipt × APIKey) := 0
  saved : ℕ := 0

def note (s : State) (i : Instr) (x : Choice) (l : Log) : Log :=
  match i, x with
  | .call w _, .flush fault =>
    { l with
      calls := w.receipt s fault ::ₘ l.calls
      unflushed :=
        match s.stored w.op, fault with
        | some k, some _ => (w.receipt s fault, k) ::ₘ l.unflushed
        | _, _ => l.unflushed }
  | .append e, .go => { l with appended := l.appended ++ [e] }
  | .serve, .checkpoint => { l with saved := l.appended.length }
  | _, _ => l

def start (max : ℤ) (d : Disk) : Config (State × Log) Instr := ⟨(boot max d, {}), [[.serve]]⟩

inductive Step (s : State) : Instr → Choice → Effect State Instr → Prop
  | write (w : Write) : Step s .serve (.write w) ⟨s, [.serve], [[handler w]]⟩
  | authenticate (now : Time) (token : String) (fault : Option FlushStage) :
      Step s .serve (.authenticate now token fault)
        ⟨{ s with file := (s.file.call (.authenticate now token) fault).1 }, [.serve], []⟩
  | record {e : Entry} : e.op ∉ keyOps → Step s .serve (.record e) ⟨s, [.serve], [[.stamp e]]⟩
  | checkpoint : Step s .serve .checkpoint ⟨{ s with checkpoint := some s.log.entries }, [.serve], []⟩
  | get (w : Write) : Step s (.get w) .go ⟨s, [.call w (s.keyValues (pathID w.op))], []⟩
  | call (w : Write) (before : Option RedactedValues) (fault : Option FlushStage) :
      Step s (.call w before) (.flush fault) ⟨(s.call w before fault).1, [(s.call w before fault).2], []⟩
  | getAfter (w : Write) (before : Option RedactedValues) :
      Step s (.getAfter w before) .go
        ⟨s, [.stamp (w.entry (pathID w.op) .success before (s.keyValues (pathID w.op)))], []⟩
  | stamp (e : Entry) (t : Time) :
      Step s (.stamp e) (.now t) ⟨s, [.append { e with time := if e.time = zeroTime then t else e.time }], []⟩
  | append (e : Entry) : Step s (.append e) .go ⟨{ s with log := s.log.append e }, [], []⟩

theorem step_of_exec {s : State} {i : Instr} {x : Choice} {e : Effect State Instr}
    (h : machine.exec s i x = some e) : Step s i x e := by
  cases i with
  | serve =>
    cases x with
    | write w => cases h; exact .write w
    | authenticate now token fault => cases h; exact .authenticate now token fault
    | record e =>
      simp only [machine, exec] at h
      split_ifs at h with hop
      cases h
      exact .record hop
    | checkpoint => cases h; exact .checkpoint
    | go | now | flush => cases h
  | get w =>
    cases x with
    | go => cases h; exact .get w
    | _ => cases h
  | call w before =>
    cases x with
    | flush fault => cases h; exact .call w before fault
    | _ => cases h
  | getAfter w before =>
    cases x with
    | go => cases h; exact .getAfter w before
    | _ => cases h
  | stamp e =>
    cases x with
    | now t => cases h; exact .stamp e t
    | _ => cases h
  | append e =>
    cases x with
    | go => cases h; exact .append e
    | _ => cases h

def Instr.idle : Instr → Bool
  | .serve => true
  | _ => false

section Calls

variable {s : State} {op : Op} {k : APIKey}

def Keyed (keys : KeyStore) : Prop := ∀ id k, keys.lookup id = some k → k.id = id

theorem Keyed.put {keys : KeyStore} (h : Keyed keys) (k : APIKey) : Keyed (keys.put k) := by
  intro id k' hl
  rw [KeyStore.lookup_put] at hl
  split_ifs at hl with hid
  · cases hl
    exact hid.symm
  · exact h id k' hl

theorem Keyed.lookup_self {keys : KeyStore} (h : Keyed keys) {id : String} {k : APIKey}
    (hl : keys.lookup id = some k) : keys.lookup k.id = some k := by
  rwa [h id k hl]

theorem keys_call (s : State) (op : Op) (fault : Option FlushStage) :
    (s.file.call op fault).1.keys = (s.stored op).elim s.file.keys s.file.keys.put := by
  unfold File.call State.stored
  cases plan s.file.keys op with
  | error err => rfl
  | ok p =>
    obtain ⟨k?, event⟩ := p
    cases k? with
    | none => rfl
    | some k => cases fault <;> rfl

/-- The entry shows the key as it is, or is that of a failed call which stored it so without its
reaching the disk. -/
def Entry.Explains (unflushed : Multiset (Receipt × APIKey)) (id : String) (k : APIKey) (e : Entry) :
    Prop :=
  e.outcome = .success ∧ e.target = id ∧ e.after = auditKeyValues k ∨
    e.outcome = .failure ∧ ∃ stored, (e.receipt, stored) ∈ unflushed ∧ stored.id = id ∧
      auditKeyValues stored = auditKeyValues k

def Instr.Explains (unflushed : Multiset (Receipt × APIKey)) (id : String) (k : APIKey) : Instr → Prop
  | .stamp e | .append e => e.Explains unflushed id k
  | .getAfter w _ => pathID w.op = id
  | _ => False

section Explains

variable {U U' : Multiset (Receipt × APIKey)} {id : String} {k k' : APIKey} {i : Instr}

theorem Entry.Explains.imp {e : Entry} (hU : U ⊆ U') (hk : auditKeyValues k = auditKeyValues k')
    (h : e.Explains U id k) : e.Explains U' id k' := by
  rcases h with ⟨hsuccess, htarget, hafter⟩ | ⟨hfailure, stored, hin, hid, hstored⟩
  · exact .inl ⟨hsuccess, htarget, hafter.trans hk⟩
  · exact .inr ⟨hfailure, stored, hU hin, hid, hstored.trans hk⟩

theorem Instr.Explains.imp (hU : U ⊆ U') (hk : auditKeyValues k = auditKeyValues k')
    (h : i.Explains U id k) : i.Explains U' id k' := by
  cases i with
  | stamp e | append e => exact Entry.Explains.imp hU hk h
  | getAfter w before => exact h
  | serve | get | call => exact h

end Explains

theorem result_of_stored (h : s.stored op = some k) (fault : Option FlushStage) :
    fault = none ∧ (∃ event, (s.file.call op fault).2 = .ok event) ∨
      fault.isSome ∧ ∃ err, (s.file.call op fault).2 = .error err := by
  unfold State.stored at h
  unfold File.call
  cases hplan : plan s.file.keys op with
  | error err => simp [hplan, Except.toOption] at h
  | ok p =>
    obtain ⟨k?, event⟩ := p
    obtain rfl : k? = some k := by simpa [hplan, Except.toOption] using h
    cases fault with
    | none => exact .inl ⟨rfl, event, rfl⟩
    | some stage => exact .inr ⟨rfl, _, rfl⟩

theorem stored_cases (hkeyed : Keyed s.file.keys) (h : s.stored op = some k) :
    (∃ k₀, s.file.keys.lookup k.id = some k₀ ∧ auditKeyValues k₀ = auditKeyValues k) ∨
      (∃ now draws name perms, op = .create now draws name perms) ∨ looksFirst op ∧ k.id = pathID op := by
  unfold State.stored at h
  cases op with
  | create now draws name perms => exact .inr (.inl ⟨now, draws, name, perms, rfl⟩)
  | setPermissions id _ | setLimits id _ =>
    simp only [plan, setPermissions, setLimits] at h
    cases hl : s.file.keys.lookup id with
    | none => simp [hl, Except.toOption] at h
    | some k₀ =>
      simp only [hl, Except.toOption, Option.bind_some, Option.some.injEq] at h
      subst h
      exact .inr (.inr ⟨rfl, hkeyed id k₀ hl⟩)
  | rotate draws id =>
    simp only [plan] at h
    cases hl : s.file.keys.lookup id with
    | none => simp [hl, Except.toOption] at h
    | some k₀ =>
      simp only [hl] at h
      split_ifs at h
      · simp [Except.toOption] at h
      · cases hmint : mintSecret draws.toEntropy with
        | error err => simp [hmint, Except.toOption] at h
        | ok m =>
          simp only [hmint, Except.toOption, Option.bind_some, Option.some.injEq] at h
          subst h
          exact .inl ⟨k₀, hkeyed.lookup_self hl, rfl⟩
  | revoke now id =>
    simp only [plan] at h
    cases hl : s.file.keys.lookup id with
    | none => simp [hl, Except.toOption] at h
    | some k₀ =>
      simp only [hl] at h
      split_ifs at h
      · simp [Except.toOption] at h
      · simp only [Except.toOption, Option.bind_some, Option.some.injEq] at h
        subst h
        exact .inr (.inr ⟨rfl, hkeyed id k₀ hl⟩)
  | authenticate now token =>
    simp only [plan] at h
    cases hauth : authenticate s.file.keys now token with
    | error err => simp [hauth, Except.toOption] at h
    | ok p =>
      obtain ⟨id, -, k₀, -, hl, hk, -⟩ := authenticate_ok hauth
      simp only [hauth, Except.toOption, Option.bind_some, Option.some.injEq] at h
      rw [← h, hk]
      exact .inl ⟨k₀, hkeyed.lookup_self hl, rfl⟩

theorem call_of_ok {w : Write} {fault : Option FlushStage} {event : Option Event}
    (h : (s.file.call w.op fault).2 = .ok event) (before : Option RedactedValues) :
    (s.call w before fault).2 = s.succeeded w before := by
  simp only [State.call, h]

theorem call_of_error {w : Write} {fault : Option FlushStage} {err : CallError}
    (h : (s.file.call w.op fault).2 = .error err) (before : Option RedactedValues) :
    (s.call w before fault).2 = .stamp (w.entry (pathID w.op) .failure before none) := by
  simp only [State.call, h]

theorem receipt_of_error {w : Write} {fault : Option FlushStage} {err : CallError}
    (h : (s.file.call w.op fault).2 = .error err) (before after : Option RedactedValues) :
    (w.entry (pathID w.op) .failure before after).receipt = w.receipt s fault := by
  simp only [Entry.receipt, Write.entry, Write.receipt, h]

theorem call_explains {w : Write} (hkeyed : Keyed s.file.keys) (h : s.stored w.op = some k)
    (before : Option RedactedValues) (fault : Option FlushStage) (l : Log) :
    (∃ k₀, s.file.keys.lookup k.id = some k₀ ∧ auditKeyValues k₀ = auditKeyValues k) ∨
      (s.call w before fault).2.Explains (note s (.call w before) (.flush fault) l).unflushed k.id k := by
  refine (stored_cases hkeyed h).imp_right fun hop ↦ ?_
  rcases result_of_stored h fault with ⟨hfault, event, hok⟩ | ⟨hfault, err, herr⟩
  · rw [call_of_ok hok]
    unfold State.succeeded State.target
    rcases hop with ⟨now, draws, name, perms, hop⟩ | ⟨hlooks, hid⟩
    · rw [hop] at h ⊢
      rw [h]
      exact .inl ⟨rfl, rfl, rfl⟩
    · rw [h, hid]
      cases hw : w.op with
      | setPermissions | setLimits => exact .inl ⟨rfl, rfl, rfl⟩
      | revoke now id => exact congrArg pathID hw
      | create | rotate | authenticate => simp [looksFirst, hw] at hlooks
  · rw [call_of_error herr]
    obtain ⟨stage, rfl⟩ := Option.isSome_iff_exists.mp hfault
    refine .inr ⟨rfl, k, ?_, rfl, rfl⟩
    simp only [note, h, receipt_of_error herr]
    exact Multiset.mem_cons_self _ _

end Calls

section Explanations

variable {d : Disk} {max : ℤ} {c : Config (State × Log) Instr} {keys keys₀ : KeyStore} {l l' : Log}
  {R S : Multiset Instr} {i : Instr} {id : String} {k k' : APIKey}

/-- Somewhere in the history or in a handler under way stands an explanation of the key. -/
def Told (l : Log) (S : Multiset Instr) (id : String) (k : APIKey) : Prop :=
  (∃ e ∈ l.appended, e.Explains l.unflushed id k) ∨ ∃ i ∈ S, i.Explains l.unflushed id k

def Explained (keys₀ : KeyStore) (l : Log) (S : Multiset Instr) (id : String) (k : APIKey) : Prop :=
  (∃ k₀, keys₀.lookup id = some k₀ ∧ auditKeyValues k₀ = auditKeyValues k) ∨ Told l S id k

theorem Explained.congr (hk : auditKeyValues k = auditKeyValues k') (h : Explained keys₀ l S id k) :
    Explained keys₀ l S id k' := by
  rcases h with ⟨k₀, hl, hk₀⟩ | ⟨e, he, hx⟩ | ⟨i, hi, hx⟩
  · exact .inl ⟨k₀, hl, hk₀.trans hk⟩
  · exact .inr (.inl ⟨e, he, hx.imp (Multiset.Subset.refl _) hk⟩)
  · exact .inr (.inr ⟨i, hi, hx.imp (Multiset.Subset.refl _) hk⟩)

theorem Told.add_right (h : Told l S id k) (R : Multiset Instr) : Told l (S + R) id k := by
  refine h.imp_right fun h ↦ ?_
  obtain ⟨j, hj, hx⟩ := h
  exact ⟨j, Multiset.mem_add.mpr (.inl hj), hx⟩

theorem Told.of_next {s : State} (h : i.Explains l.unflushed id k) :
    Told l (⟨s, [i], []⟩ : Effect State Instr).fresh id k :=
  .inr ⟨i, by simp [Effect.fresh], h⟩

theorem note_subset (s : State) (i : Instr) (x : Choice) (l : Log) :
    l.appended ⊆ (note s i x l).appended ∧ l.unflushed ⊆ (note s i x l).unflushed := by
  unfold note
  split
  · refine ⟨List.Subset.refl _, ?_⟩
    dsimp only
    split
    · exact Multiset.subset_cons _ _
    · exact Multiset.Subset.refl _
  · exact ⟨List.subset_append_left _ _, Multiset.Subset.refl _⟩
  · exact ⟨List.Subset.refl _, Multiset.Subset.refl _⟩
  · exact ⟨List.Subset.refl _, Multiset.Subset.refl _⟩

theorem Explained.step (hl : l.appended ⊆ l'.appended ∧ l.unflushed ⊆ l'.unflushed)
    (hi : i.Explains l'.unflushed id k → Told l' S id k) (h : Explained keys₀ l (i ::ₘ R) id k) :
    Explained keys₀ l' (S + R) id k := by
  refine h.imp_right fun h ↦ ?_
  rcases h with ⟨e, he, hx⟩ | ⟨j, hj, hx⟩
  · exact .inl ⟨e, hl.1 he, hx.imp hl.2 rfl⟩
  · rcases Multiset.mem_cons.mp hj with rfl | hj
    · exact (hi (hx.imp hl.2 rfl)).add_right R
    · exact .inr ⟨j, Multiset.mem_add.mpr (.inr hj), hx.imp hl.2 rfl⟩

theorem Explained.put
    (hkeep : ∀ id k, keys.lookup id = some k → Explained keys₀ l (S + R) id k)
    (hk' : (∃ k₀, keys.lookup k'.id = some k₀ ∧ auditKeyValues k₀ = auditKeyValues k') ∨
      Told l S k'.id k') :
    ∀ id k, (keys.put k').lookup id = some k → Explained keys₀ l (S + R) id k := by
  intro id k hl
  rw [KeyStore.lookup_put] at hl
  split_ifs at hl with hid
  · cases hl
    subst hid
    rcases hk' with ⟨k₀, hl₀, hk₀⟩ | htold
    · exact (hkeep _ k₀ hl₀).congr hk₀
    · exact .inr (htold.add_right R)
  · exact hkeep id k hl

theorem explained_invariant (h : (machine.record note).Reaches (start max d) c) :
    Keyed c.shared.1.file.keys ∧ ∀ id k, c.shared.1.file.keys.lookup id = some k →
      Explained (File.load d.keys) c.shared.2 c.soup id k := by
  refine h.record_invariant (fun s l S ↦ Keyed s.file.keys ∧ ∀ id k, s.file.keys.lookup id = some k →
    Explained (File.load d.keys) l S id k) ?_ ?_
  · exact ⟨load_ids d.keys, fun id k hl ↦ .inl ⟨k, hl, rfl⟩⟩
  · intro c i x R e _ hI _ he
    obtain ⟨hkeyed, hexplained⟩ := hI
    have hnote := note_subset c.shared.1 i x c.shared.2
    have hkeep (hi : ∀ U id k, ¬ i.Explains U id k) :
        ∀ id k, c.shared.1.file.keys.lookup id = some k →
          Explained (File.load d.keys) (note c.shared.1 i x c.shared.2) (e.fresh + R) id k :=
      fun id k hl ↦ (hexplained id k hl).step hnote fun hx ↦ absurd hx (hi _ id k)
    cases step_of_exec he with
    | write | record | checkpoint | get => exact ⟨hkeyed, hkeep fun _ _ _ ↦ id⟩
    | authenticate now token fault =>
      simp only [keys_call]
      cases hk : c.shared.1.stored (.authenticate now token) with
      | none => exact ⟨hkeyed, hkeep fun _ _ _ ↦ id⟩
      | some k' =>
        refine ⟨hkeyed.put k', Explained.put (hkeep fun _ _ _ ↦ id) (.inl ?_)⟩
        rcases stored_cases hkeyed hk with hsame | hnew | ⟨hlooks, -⟩
        · exact hsame
        · simp at hnew
        · cases hlooks
    | call w before fault =>
      have hkeys : (c.shared.1.call w before fault).1.file.keys =
        (c.shared.1.stored w.op).elim c.shared.1.file.keys c.shared.1.file.keys.put := keys_call ..
      rw [hkeys]
      cases hk : c.shared.1.stored w.op with
      | none => exact ⟨hkeyed, hkeep fun _ _ _ ↦ id⟩
      | some k' =>
        exact ⟨hkeyed.put k', Explained.put (hkeep fun _ _ _ ↦ id)
          ((call_explains hkeyed hk before fault c.shared.2).imp_right Told.of_next)⟩
    | getAfter w before =>
      refine ⟨hkeyed, fun id k hl ↦ (hexplained id k hl).step hnote fun hx ↦ ?_⟩
      -- The entry shows what is stored now, which may be more than this revocation
      refine Told.of_next (.inl ⟨rfl, hx, ?_⟩)
      rw [Write.entry, State.keyValues, show pathID w.op = id from hx, hl]
      rfl
    | stamp e t =>
      refine ⟨hkeyed, fun id k hl ↦ (hexplained id k hl).step hnote fun hx ↦ ?_⟩
      exact Told.of_next hx
    | append e =>
      refine ⟨hkeyed, fun id k hl ↦ (hexplained id k hl).step hnote fun hx ↦ ?_⟩
      exact .inl ⟨e, List.mem_append_right _ List.mem_cons_self, hx⟩

/-- While no handler is under way, a key shows in every audited field what it had in the keys file
at the start, or an entry appended since shows it as it is, or one says that a call failed, and
this call stored the key as it is without its reaching the disk. -/
theorem keys_explained (h : (machine.record note).Reaches (start max d) c)
    (hquiet : ∀ i ∈ c.soup, i.idle) (hk : c.shared.1.file.keys.lookup id = some k) :
    (∃ k₀, (File.load d.keys).lookup id = some k₀ ∧ auditKeyValues k₀ = auditKeyValues k) ∨
      (∃ e ∈ c.shared.2.appended, e.outcome = .success ∧ e.target = id ∧ e.after = auditKeyValues k) ∨
      ∃ e ∈ c.shared.2.appended, e.outcome = .failure ∧
        ∃ stored, (e.receipt, stored) ∈ c.shared.2.unflushed ∧ stored.id = id ∧
          auditKeyValues stored = auditKeyValues k := by
  refine ((explained_invariant h).2 id k hk).imp_right fun htold ↦ ?_
  rcases htold with ⟨e, he, hx⟩ | ⟨i, hi, hx⟩
  · exact Or.imp (fun hx ↦ ⟨e, he, hx⟩) (fun hx ↦ ⟨e, he, hx⟩) hx
  · cases i with
    | serve => exact hx.elim
    | _ => cases hquiet _ hi

def oneKey : Disk := { keys := [{ id := "a", secretHash := [], salt := [], createdAt := 0 }] }

def grant : Write := ⟨.setPermissions "a" { roles := ["admin"] }, "root", "r1", by decide⟩

def overlapping : List (ℕ × Choice) :=
  [(0, .write grant), (0, .write ⟨.revoke 5 "a", "root", "r2", by decide⟩), (1, .go), (2, .go),
    (2, .flush none), (1, .flush none), (2, .go), (1, .now 7), (1, .go), (2, .now 6), (2, .go)]

def grantedAndRevoked : APIKey :=
  { id := "a", secretHash := [], salt := [], createdAt := 0, roles := ["admin"], revokedAt := some 5 }

theorem keys_explained_overlapping :
    ∃ c : Config (State × Log) Instr, c.shared.1.file.keys.lookup "a" = some grantedAndRevoked ∧
      ((∃ k₀, (File.load oneKey.keys).lookup "a" = some k₀ ∧
          auditKeyValues k₀ = auditKeyValues grantedAndRevoked) ∨
        (∃ e ∈ c.shared.2.appended, e.outcome = .success ∧ e.target = "a" ∧
          e.after = auditKeyValues grantedAndRevoked) ∨
        ∃ e ∈ c.shared.2.appended, e.outcome = .failure ∧
          ∃ stored, (e.receipt, stored) ∈ c.shared.2.unflushed ∧ stored.id = "a" ∧
            auditKeyValues stored = auditKeyValues grantedAndRevoked) := by
  have hk : ((machine.record note).played (fun _ _ _ ↦ True) (start 10 oneKey)
      overlapping).shared.1.file.keys.lookup "a" = some grantedAndRevoked := by decide +kernel
  have h := keys_explained (Machine.reaches_played _ (start 10 oneKey) overlapping) (by decide +kernel) hk
  exact ⟨_, hk, h⟩

end Explanations

section Receipts

variable {d : Disk} {max : ℤ} {c : Config (State × Log) Instr}

def keyReceipts (entries : List Entry) : Multiset Receipt :=
  ((entries.filter (·.op ∈ keyOps)).map Entry.receipt : List Receipt)

def owed : Instr → Multiset Receipt
  | .getAfter w _ => {⟨w.actor, w.requestID, auditOp w.op, pathID w.op, .success⟩}
  | .stamp e | .append e => keyReceipts [e]
  | _ => 0

theorem keyReceipts_concat (entries : List Entry) (e : Entry) :
    keyReceipts (entries ++ [e]) = keyReceipts entries + keyReceipts [e] := by
  simp [keyReceipts]

theorem keyReceipts_time (e : Entry) (t : Time) : keyReceipts [{ e with time := t }] = keyReceipts [e] := by
  unfold keyReceipts
  by_cases hop : e.op ∈ keyOps
  · simp [hop, Entry.receipt]
  · simp [hop]

theorem keyReceipts_entry (w : Write) (target : String) (outcome : Outcome)
    (before after : Option RedactedValues) :
    keyReceipts [w.entry target outcome before after] =
      {⟨w.actor, w.requestID, auditOp w.op, target, outcome⟩} := by
  simp [keyReceipts, Write.entry, Entry.receipt, w.writes]

theorem owed_call (s : State) (w : Write) (before : Option RedactedValues) (fault : Option FlushStage) :
    owed (s.call w before fault).2 = {w.receipt s fault} := by
  unfold Write.receipt
  cases hresult : (s.file.call w.op fault).2 with
  | error err =>
    rw [call_of_error hresult]
    exact keyReceipts_entry ..
  | ok event =>
    rw [call_of_ok hresult]
    unfold State.succeeded
    split
    · next hop => simp [owed, State.target, hop, pathID]
    · exact keyReceipts_entry ..
    · exact keyReceipts_entry ..

theorem owed_handler (w : Write) : owed (handler w) = 0 := by
  unfold handler
  split_ifs <;> rfl

/-- Every call on the keys has one entry, or the handler that made it is about to record it. -/
theorem calls_recorded (h : (machine.record note).Reaches (start max d) c) :
    keyReceipts c.shared.2.appended + (c.soup.map owed).sum = c.shared.2.calls := by
  refine h.conserved (fun _ l ↦ keyReceipts l.appended) owed (fun _ l ↦ l.calls) rfl ?_
  intro s i x l e he
  cases step_of_exec he with
  | write w =>
    have hnone := owed_handler w
    simp only [owed] at hnone
    simp [Effect.fresh, note, owed, hnone]
  | record hop => simp [Effect.fresh, note, owed, keyReceipts, hop]
  | authenticate | checkpoint | get => simp [Effect.fresh, note, owed]
  | call w before fault =>
    simp only [Effect.fresh, List.flatten_nil, List.append_nil, Multiset.coe_singleton, Multiset.map_singleton,
      Multiset.sum_singleton, owed_call, note]
    rw [add_assoc, Multiset.singleton_add, show owed (.call w before) = 0 from rfl, add_zero]
  | getAfter w before => simp [Effect.fresh, note, owed, keyReceipts_entry]
  | stamp e t => simp [Effect.fresh, note, owed, keyReceipts_time]
  | append e => simp [Effect.fresh, note, owed, keyReceipts_concat]

theorem calls_recorded_overlapping :
    ∃ c : Config (State × Log) Instr, c.shared.2.calls.card = 2 ∧
      keyReceipts c.shared.2.appended + (c.soup.map owed).sum = c.shared.2.calls := by
  have h := calls_recorded (Machine.reaches_played _ (start 10 oneKey) overlapping)
  exact ⟨_, by decide +kernel, h⟩

end Receipts

section Crashes

variable {d : Disk} {max : ℤ} {c : Config (State × Log) Instr} {kept l l' : List Entry}

theorem window_eq_rtake (h : 0 < max) (l : List Entry) : window max l = l.rtake max.toNat := by
  unfold window
  split_ifs with hcap
  · rfl
  · exact (rtake_of_length_le (by omega)).symm

theorem window_of_nonpos (h : ¬ 0 < max) (l : List Entry) : window max l = l := if_neg fun hcap ↦ h hcap.1

theorem window_append (max : ℤ) (l l' : List Entry) :
    window max (window max l ++ l') = window max (l ++ l') := by
  by_cases h : 0 < max
  · rw [window_eq_rtake h, window_eq_rtake h, window_eq_rtake h, rtake_append_rtake]
  · rw [window_of_nonpos h l]

theorem window_window (max : ℤ) (l : List Entry) : window max (window max l) = window max l := by
  simpa using window_append max l []

theorem window_map (f : Entry → Entry) (max : ℤ) (l : List Entry) :
    window max (l.map f) = (window max l).map f := by
  unfold window
  rw [List.length_map]
  split_ifs
  · rw [List.map_drop]
  · rfl

theorem Value.reload_reload (v : Value) : v.reload.reload = v.reload := by
  cases v with
  | number n => exact congrArg Value.number (toDouble_toDouble n)
  | numbers fields =>
    simp only [Value.reload, List.map_map]
    congr 2
    funext f
    simp [toDouble_toDouble]
  | string | strings | bool => rfl

theorem reloadValues_reloadValues (values : Option RedactedValues) :
    reloadValues (reloadValues values) = reloadValues values := by
  cases values with
  | none => rfl
  | some values =>
    cases values with
    | nil => rfl
    | cons v values =>
      simp only [reloadValues, List.map_cons, List.map_map, Value.reload_reload]
      congr 3
      funext f
      simp [Value.reload_reload]

theorem Entry.reload_reload (e : Entry) : e.reload.reload = e.reload := by
  simp only [Entry.reload, reloadValues_reloadValues]

theorem map_reload_reload (l : List Entry) : (l.map Entry.reload).map Entry.reload = l.map Entry.reload := by
  rw [List.map_map]
  exact List.map_congr_left fun e _ ↦ e.reload_reload

/-- Lives of the process on one disk, each of which ended in a crash or a shutdown, and the entries
that had been appended in each of them before its last checkpoint. -/
inductive Lives (max : ℤ) : List Entry → Disk → Prop
  | first (keys : List APIKey) : Lives max [] ⟨keys, none⟩
  | crash {kept : List Entry} {d : Disk} {c : Config (State × Log) Instr} :
      Lives max kept d → (machine.record note).Reaches (start max d) c →
      Lives max (kept ++ c.shared.2.appended.take c.shared.2.saved) c.shared.1.disk

def loaded (max : ℤ) (d : Disk) : List Entry := (MemoryStore.loadCheckpoint { max } d.audit).entries

structure Kept (max : ℤ) (d : Disk) (s : State) (l : Log) : Prop where
  cap : s.log.max = max
  entries : s.log.entries = window max (loaded max d ++ l.appended)
  saved : l.saved ≤ l.appended.length
  checkpoint : l.saved = 0 ∧ s.checkpoint = d.audit ∨
    s.checkpoint = some (window max (loaded max d ++ l.appended.take l.saved))

theorem window_loaded (max : ℤ) (d : Disk) : window max (loaded max d) = loaded max d := by
  unfold loaded MemoryStore.loadCheckpoint
  cases d.audit with
  | none => simp [window]
  | some saved => exact window_window max _

theorem kept_invariant (h : (machine.record note).Reaches (start max d) c) :
    Kept max d c.shared.1 c.shared.2 := by
  refine h.record_invariant (fun s l _ ↦ Kept max d s l) ?_ ?_
  · refine ⟨?_, ?_, le_rfl, .inl ⟨rfl, rfl⟩⟩
    · unfold start boot MemoryStore.loadCheckpoint
      cases d.audit <;> rfl
    · exact (window_loaded max d).symm.trans (congrArg _ (List.append_nil _).symm)
  · intro c i x R e _ hI _ he
    cases step_of_exec he with
    | write | record | authenticate | get | call | getAfter | stamp =>
      exact ⟨hI.cap, hI.entries, hI.saved, hI.checkpoint⟩
    | checkpoint =>
      refine ⟨hI.cap, hI.entries, le_rfl, .inr (congrArg some ?_)⟩
      rw [hI.entries]
      simp [note]
    | append e =>
      refine ⟨hI.cap, ?_, ?_, ?_⟩
      · simp only [MemoryStore.append, hI.cap, hI.entries, note]
        rw [window_append, List.append_assoc]
      · simp only [note, List.length_append]
        exact hI.saved.trans (Nat.le_add_right _ _)
      · simp only [note, List.take_append_of_le_length hI.saved]
        exact hI.checkpoint

theorem loaded_of_lives (h : Lives max kept d) : loaded max d = window max (kept.map Entry.reload) := by
  induction h with
  | first keys => simp [loaded, MemoryStore.loadCheckpoint, window]
  | @crash kept d c _ hrun ih =>
    have hkept := kept_invariant hrun
    rcases hkept.checkpoint with ⟨hsaved, hfile⟩ | hfile
    · rw [hsaved, List.take_zero, List.append_nil, ← ih, loaded, State.disk, hfile]
      rfl
    · have hloaded : loaded max c.shared.1.disk = window max
          ((window max (loaded max d ++ c.shared.2.appended.take c.shared.2.saved)).map Entry.reload) := by
        rw [loaded, State.disk, hfile]
        rfl
      rw [hloaded, ← window_map, window_window, List.map_append, ih, ← window_map, map_reload_reload,
        window_append, List.map_append]

/-- The log is the newest part of what each earlier life had appended before its last checkpoint,
with its numbers rounded, and of all that this life has appended. -/
theorem log_after_crashes (hlives : Lives max kept d) (h : (machine.record note).Reaches (start max d) c) :
    c.shared.1.log.entries = window max (kept.map Entry.reload ++ c.shared.2.appended) := by
  rw [(kept_invariant h).entries, loaded_of_lives hlives, window_append]

def firstLife : List (ℕ × Choice) :=
  [(0, .write ⟨.setLimits "a" (some { rpm := 9007199254740993 }), "root", "r0", by decide⟩), (1, .go),
    (1, .flush none), (1, .now 3), (1, .go), (0, .checkpoint), (0, .write grant), (2, .go),
    (2, .flush none), (2, .now 4), (2, .go)]

def secondLife : List (ℕ × Choice) :=
  [(0, .write ⟨.revoke 5 "a", "root", "r2", by decide⟩), (1, .go), (1, .flush none), (1, .go),
    (1, .now 6), (1, .go)]

def crashed : Config (State × Log) Instr :=
  (machine.record note).played (fun _ _ _ ↦ True) (start 10 oneKey) firstLife

/-- The entry of the grant is lost, though the grant itself is on the disk, and the quota is not
shown as it was set. -/
theorem log_after_crashes_twoLives :
    ∃ c : Config (State × Log) Instr,
      c.shared.1.log.entries.map (·.op) = [auditOpKeyQuota, auditOpKeyRevoke] ∧
      (c.shared.1.file.keys.lookup "a").map APIKey.roles = some ["admin"] ∧
      (c.shared.1.log.entries.head?.bind fun e ↦ e.after.bind (·.lookup "limits")) = some (.numbers
        [("rpm", 9007199254740992), ("tpm", 0), ("daily_tokens", 0), ("monthly_tokens", 0)]) ∧
      c.shared.1.log.entries = window 10
        ((crashed.shared.2.appended.take crashed.shared.2.saved).map Entry.reload ++ c.shared.2.appended) := by
  have h := log_after_crashes (.crash (.first oneKey.keys) (Machine.reaches_played _ _ firstLife))
    (Machine.reaches_played _ (start 10 crashed.shared.1.disk) secondLife)
  exact ⟨_, by decide +kernel, by decide +kernel, by decide +kernel, h⟩

end Crashes

end AgentGpu.HttpApi.AuditTrail
