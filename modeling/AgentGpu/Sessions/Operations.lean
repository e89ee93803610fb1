import AgentGpu.Sessions.Steps

namespace AgentGpu.Sessions

open Foundation

inductive Reply
  | session (s : Session)
  | turns (turns : List Message)
  | done
  deriving DecidableEq

abbrev Outcome := Except SessionError Reply

def History.wouldReject (h : History) (caps : HistoryCaps) (id : String) (turns : List Message) :
    Bool :=
  if caps.policy ≠ .reject ∨ turns.isEmpty then false else exceedsCap caps (h.get id ++ turns)

/-- `Resume` and `Bind` return the session, the appends only an error. -/
def Touch.reply (t : Touch) (s : Session) : Reply :=
  match t with
  | .resume | .bind _ => .session s
  | .appendTurn _ | .appendTurns _ => .done

namespace Manager

variable (m : Manager)

def create (ownerKeyID model : String) (minted : Option String) : Manager × Outcome :=
  if ownerKeyID = "" then (m, .error .emptyOwner)
  else
    match m.reserveSlot ownerKeyID with
    | none => (m, .error .limitExceeded)
    | some m =>
      match minted with
      | none => (m.releaseSlot ownerKeyID, .error .idFailed)
      | some id =>
        let s : Session := ⟨id, ownerKeyID, model, "", m.clock, m.clock, m.ttl, .active⟩
        (m.putNew s, .ok (.session s))

def touch (t : Touch) (id ownerKeyID : String) : Manager × Outcome :=
  match m.ownedActive id ownerKeyID m.clock with
  | none => (m, .error .notFound)
  | some s =>
    let s' := t.update s m.clock
    match t.append? m.caps m.history id with
    | none => (m.put s', .ok (t.reply s'))
    | some none => (m, .error .limitExceeded)
    | some (some history) => ({ m with history := history }.put s', .ok (t.reply s'))

def get (id ownerKeyID : String) : Outcome :=
  match m.ownedActive id ownerKeyID m.clock with
  | none => .error .notFound
  | some s => .ok (.session s)

def historyOf (id ownerKeyID : String) : Outcome :=
  match m.ownedActive id ownerKeyID m.clock with
  | none => .error .notFound
  | some _ => .ok (.turns (m.history.get id))

def checkAppendable (id ownerKeyID : String) (turns : List Message) : Outcome :=
  match m.ownedActive id ownerKeyID m.clock with
  | none => .error .notFound
  | some _ => if m.history.wouldReject m.caps id turns then .error .limitExceeded else .ok .done

def deleteSession (id ownerKeyID : String) (reason : EndReason) : Manager :=
  match m.sessions.lookup id with
  | none => { m with returned := m.returnedAfter id ownerKeyID reason }
  | some s =>
    { m.releaseSlot ownerKeyID with
      sessions := m.sessions.erase id
      history := m.history.deleteBySession id
      returned := m.returnedAfter id ownerKeyID reason
      swept := m.sweptAfter id reason
      observed := (m.endStats id s reason).toList ++ m.observed }

def delete (id ownerKeyID : String) : Manager × Outcome :=
  match m.sessions.lookup id with
  | none => (m.fail id ownerKeyID .notFound, .error .notFound)
  | some s =>
    if s.ownerKeyID ≠ ownerKeyID then (m.fail id ownerKeyID .notFound, .error .notFound)
    else (m.deleteSession id s.ownerKeyID .deleted, .ok .done)

def reapAll (sessions : List Session) : Manager :=
  sessions.foldl (fun m s ↦ m.deleteSession s.id s.ownerKeyID .expired) m

/-- The stored sessions as `List` returns them. The table has no order of its own: `order`
is the one in which this call happens to walk it. -/
def listed (order : List String) : List Session :=
  (if order.Perm m.sessions.keys then order else m.sessions.keys).filterMap m.sessions.lookup

theorem walk_order (order : List String) :
    (if order.Perm m.sessions.keys then order else m.sessions.keys).Perm m.sessions.keys := by
  split_ifs with h
  · exact h
  · exact .refl _

def sweepExpired (order : List String) : Manager :=
  m.reapAll ((m.listed order).filter (·.expired m.clock))

end Manager

/-- A whole operation, with its clock reading and, for `Create`, the generated id. -/
inductive Op
  | create (ownerKeyID model : String) (minted : Option String) (now : Time)
  | touch (t : Touch) (id ownerKeyID : String) (now : Time)
  | get (id ownerKeyID : String) (now : Time)
  | historyOf (id ownerKeyID : String) (now : Time)
  | checkAppendable (id ownerKeyID : String) (turns : List Message) (now : Time)
  | delete (id ownerKeyID : String) (now : Time)
  | sweepExpired (now : Time) (order : List String)

namespace Op

def now : Op → Time
  | .create _ _ _ t | .touch _ _ _ t | .get _ _ t | .historyOf _ _ t | .checkAppendable _ _ _ t
  | .delete _ _ t | .sweepExpired t _ => t

def key? : Op → Option String
  | .create o _ _ _ | .touch _ _ o _ | .get _ o _ | .historyOf _ o _ | .checkAppendable _ o _ _
  | .delete _ o _ => some o
  | .sweepExpired .. => none

end Op

def Manager.apply (m : Manager) (op : Op) : Manager × Outcome :=
  let m := { m with clock := op.now }
  match op with
  | .create o model minted _ => m.create o model minted
  | .touch t id o _ => m.touch t id o
  | .get id o _ => (m, m.get id o)
  | .historyOf id o _ => (m, m.historyOf id o)
  | .checkAppendable id o turns _ => (m, m.checkAppendable id o turns)
  | .delete id o _ => m.delete id o
  | .sweepExpired _ order => (m.sweepExpired order, .ok .done)

def Op.call? : Op → Option Call
  | .create o model _ _ => some (.create o model)
  | .touch t id o _ => some (.touch t id o)
  | .delete id o _ => some (.delete id o)
  | .sweepExpired .. => some .sweepExpired
  | .get .. | .historyOf .. | .checkAppendable .. => none

section Alone

variable {m : Manager}

theorem deleteSession_alone (hmu : m.countMu = false) (id o : String) (r : EndReason) :
    machine.Alone m [.lock id o r] (m.deleteSession id o r) := by
  have hlock : machine.exec m (.lock id o r) .go =
      some ⟨{ m with countMu := true }, [.recheck id o r], []⟩ := if_neg (by simp [hmu])
  refine .step hlock ?_
  cases hl : m.sessions.lookup id with
  | none =>
    have hgone : machine.exec { m with countMu := true } (.recheck id o r) .go =
        some ⟨m.deleteSession id o r, [], []⟩ := by
      simp [machine, exec, Manager.deleteSession, Manager.returnedAfter, hl, ← hmu]
    exact .step hgone .done
  | some s =>
    have hpresent : machine.exec { m with countMu := true } (.recheck id o r) .go =
        some ⟨{ m with countMu := true }, [.endStats id o r s], []⟩ := by
      simp [machine, exec, hl]
    refine .step hpresent (.step (x := .go) rfl (.step (x := .go) rfl (.step (x := .go) rfl
      (.step (x := .go) rfl ?_))))
    have hobserve (stats : Option SessionEndStats) (m' : Manager) :
        machine.Alone m' (stats.map Instr.observe).toList
          { m' with observed := stats.toList ++ m'.observed } := by
      cases stats with
      | none => exact .done
      | some st => exact .step (x := .go) rfl .done
    have hdelete : m.deleteSession id o r =
        { m.releaseSlot o with
          sessions := m.sessions.erase id
          history := m.history.deleteBySession id
          countMu := false
          returned := m.returnedAfter id o r
          swept := m.sweptAfter id r
          observed := (m.endStats id s r).toList ++ m.observed } := by
      simp [Manager.deleteSession, hl, ← hmu, Manager.releaseSlot]
    rw [hdelete]
    exact (hobserve _ _).trans .done

theorem deleteSession_countMu (id o : String) (r : EndReason) :
    (m.deleteSession id o r).countMu = m.countMu := by
  unfold Manager.deleteSession
  split <;> rfl

theorem reapAll_alone (hmu : m.countMu = false) (sessions : List Session) :
    machine.Alone m (sessions.map fun s ↦ .lock s.id s.ownerKeyID .expired) (m.reapAll sessions) := by
  induction sessions generalizing m with
  | nil => exact .done
  | cons s sessions ih =>
    have hfirst := deleteSession_alone hmu s.id s.ownerKeyID .expired
    exact hfirst.trans (ih ((deleteSession_countMu ..).trans hmu))

theorem create_alone (hmu : m.countMu = false) (o model : String) (minted : Option String) :
    machine.Alone m [.reserveSlot o model] (m.create o model minted).1 := by
  unfold Manager.create
  split_ifs with ho
  · have hempty : machine.exec m (.reserveSlot o model) .go = some ⟨m, [], []⟩ := if_pos ho
    exact .step hempty .done
  cases hslot : m.reserveSlot o with
  | none =>
    have hfull : machine.exec m (.reserveSlot o model) .go = some ⟨m, [], []⟩ := by
      simp [machine, exec, ho, hmu, hslot]
    exact .step hfull .done
  | some m' =>
    have hreserved : machine.exec m (.reserveSlot o model) .go =
        some ⟨m', [.newID o model], []⟩ := by
      simp [machine, exec, ho, hmu, hslot]
    have hmu' : m'.countMu = false := by rw [(Manager.reserveSlot_some hslot).1, ← hmu]
    refine .step hreserved ?_
    cases minted with
    | none => exact .step (x := .mint none) rfl (.step (x := .go) (if_neg (by simp [hmu'])) .done)
    | some id => exact .step (x := .mint (some id)) rfl (.step (x := .go) rfl .done)

theorem touch_alone (t : Touch) (id o : String) :
    machine.Alone m [.touch t id o] (m.touch t id o).1 := by
  refine .step (x := .go) rfl ?_
  unfold Manager.touch
  cases howned : m.ownedActive id o m.clock with
  | none =>
    have hexec : machine.exec m (.ownedActive t id o m.clock) .go = some ⟨m, [], []⟩ := by
      simp [machine, exec, howned]
    exact .step hexec .done
  | some s =>
    have hexec : machine.exec m (.ownedActive t id o m.clock) .go =
        some ⟨m, [.append t id s m.clock], []⟩ := by
      simp [machine, exec, howned]
    refine .step hexec ?_
    cases happend : t.append? m.caps m.history id with
    | none =>
      have hexec : machine.exec m (.append t id s m.clock) .go =
          some ⟨m, [.putBack (t.update s m.clock)], []⟩ := by
        simp [machine, exec, happend]
      exact .step hexec (.step (x := .go) rfl .done)
    | some result =>
      cases result with
      | none =>
        have hexec : machine.exec m (.append t id s m.clock) .go = some ⟨m, [], []⟩ := by
          simp [machine, exec, happend]
        exact .step hexec .done
      | some history =>
        have hexec : machine.exec m (.append t id s m.clock) .go =
            some ⟨{ m with history := history }, [.putBack (t.update s m.clock)], []⟩ := by
          simp [machine, exec, happend]
        exact .step hexec (.step (x := .go) rfl .done)

theorem delete_alone (hmu : m.countMu = false) (id o : String) :
    machine.Alone m [.deleteGet id o] (m.delete id o).1 := by
  unfold Manager.delete
  cases hl : m.sessions.lookup id with
  | none =>
    have hexec : machine.exec m (.deleteGet id o) .go = some ⟨m.fail id o .notFound, [], []⟩ := by
      simp [machine, exec, hl]
    exact .step hexec .done
  | some s =>
    dsimp only
    split_ifs with ho
    · have hexec : machine.exec m (.deleteGet id o) .go = some ⟨m.fail id o .notFound, [], []⟩ := by
        simp [machine, exec, hl, ho]
      exact .step hexec .done
    · have hexec : machine.exec m (.deleteGet id o) .go =
          some ⟨m, [.lock id s.ownerKeyID .deleted], []⟩ := by
        simp only [machine, exec, hl]
        exact if_neg ho
      exact .step hexec (deleteSession_alone hmu id s.ownerKeyID .deleted)

theorem sweepExpired_alone (hmu : m.countMu = false) (order : List String) :
    machine.Alone m [.sweep] (m.sweepExpired order) := by
  have hlist : machine.exec m (.list m.clock)
      (.order (if order.Perm m.sessions.keys then order else m.sessions.keys)) =
        some ⟨m, reap m.clock (m.listed order), []⟩ := if_pos (m.walk_order order)
  refine .step (x := .go) rfl (.step hlist ?_)
  exact (reapAll_alone hmu _).trans .done

theorem apply_alone (hmu : m.countMu = false) {op : Op} {call : Call} (hcall : op.call? = some call) :
    machine.Alone { m with clock := op.now } [entry call] (m.apply op).1 := by
  have hmu' : ({ m with clock := op.now } : Manager).countMu = false := hmu
  cases op with
  | create o model minted now =>
    cases hcall
    exact create_alone hmu' o model minted
  | touch t id o now =>
    cases hcall
    exact touch_alone t id o
  | delete id o now =>
    cases hcall
    exact delete_alone hmu' id o
  | sweepExpired now order =>
    cases hcall
    exact sweepExpired_alone hmu' order
  | get | historyOf | checkAppendable => cases hcall

end Alone

end AgentGpu.Sessions
