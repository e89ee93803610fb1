import AgentGpu.Sessions.Manager

namespace AgentGpu.Sessions

open Foundation

inductive Step (m : Manager) : Instr → Effect Manager Instr → Prop
  | elapse (d : ℕ) : Step m .serve ⟨{ m with clock := m.clock + d }, [.serve], []⟩
  | call (call : Call) : Step m .serve ⟨m, [.serve], [[entry call]]⟩
  | refused (o model : String) : Step m (.reserveSlot o model) ⟨m, [], []⟩
  | reserved {o model : String} {m' : Manager} (hmu : m.countMu = false)
      (h : m.reserveSlot o = some m') : Step m (.reserveSlot o model) ⟨m', [.newID o model], []⟩
  | mintFailed (o model : String) : Step m (.newID o model) ⟨m, [.releaseSlot o], []⟩
  | minted (o model id : String) :
      Step m (.newID o model) ⟨m, [.putNew ⟨id, o, model, "", m.clock, m.clock, m.ttl, .active⟩], []⟩
  | released {o : String} (hmu : m.countMu = false) :
      Step m (.releaseSlot o) ⟨m.releaseSlot o, [], []⟩
  | putNew (s : Session) : Step m (.putNew s) ⟨m.putNew s, [], []⟩
  | touch (t : Touch) (id o : String) : Step m (.touch t id o) ⟨m, [.ownedActive t id o m.clock], []⟩
  | notOwned (t : Touch) (id o : String) (now : Time) : Step m (.ownedActive t id o now) ⟨m, [], []⟩
  | owned {t : Touch} {id o : String} {now : Time} {s : Session} (h : m.sessions.lookup id = some s) :
      Step m (.ownedActive t id o now) ⟨m, [.append t id s now], []⟩
  | rejected (t : Touch) (id : String) (s : Session) (now : Time) :
      Step m (.append t id s now) ⟨m, [], []⟩
  | appended {t : Touch} {id : String} {s : Session} {now : Time} (history : History)
      (h : ∀ k ≠ id, history k = m.history k) :
      Step m (.append t id s now) ⟨{ m with history := history }, [.putBack (t.update s now)], []⟩
  | putBack (s : Session) : Step m (.putBack s) ⟨m.put s, [], []⟩
  | notFound (id o : String) : Step m (.deleteGet id o) ⟨m.fail id o .notFound, [], []⟩
  | found {id o : String} {s : Session} (h : m.sessions.lookup id = some s) :
      Step m (.deleteGet id o) ⟨m, [.lock id s.ownerKeyID .deleted], []⟩
  | lock {id o : String} {r : EndReason} (hmu : m.countMu = false) :
      Step m (.lock id o r) ⟨{ m with countMu := true }, [.recheck id o r], []⟩
  | alreadyGone {id o : String} {r : EndReason} (h : m.sessions.lookup id = none) :
      Step m (.recheck id o r)
        ⟨{ m with countMu := false, returned := m.returnedAfter id o r }, [], []⟩
  | present {id o : String} {r : EndReason} {s : Session} (h : m.sessions.lookup id = some s) :
      Step m (.recheck id o r) ⟨m, [.endStats id o r s], []⟩
  | endStats (id o : String) (r : EndReason) (s : Session) :
      Step m (.endStats id o r s) ⟨m, [.dropRow id o r (m.endStats id s r)], []⟩
  | dropRow (id o : String) (r : EndReason) (st : Option SessionEndStats) :
      Step m (.dropRow id o r st)
        ⟨{ m with sessions := m.sessions.erase id }, [.dropHistory id o r st], []⟩
  | dropHistory (id o : String) (r : EndReason) (st : Option SessionEndStats) :
      Step m (.dropHistory id o r st)
        ⟨{ m with history := m.history.deleteBySession id }, [.settle id o r st], []⟩
  | settle (id o : String) (r : EndReason) (st : Option SessionEndStats) :
      Step m (.settle id o r st)
        ⟨{ m.releaseSlot o with
            countMu := false
            returned := m.returnedAfter id o r
            swept := m.sweptAfter id r },
          (st.map Instr.observe).toList, []⟩
  | observe (st : SessionEndStats) :
      Step m (.observe st) ⟨{ m with observed := st :: m.observed }, [], []⟩
  | sweep : Step m .sweep ⟨m, [.list m.clock], []⟩
  | list {now : Time} (listed : List Session) (h : ∀ s ∈ listed, ∃ id, m.sessions.lookup id = some s) :
      Step m (.list now) ⟨m, reap now listed, []⟩

theorem ownedActive_some {m : Manager} {id o : String} {now : Time} {s : Session}
    (h : m.ownedActive id o now = some s) : m.sessions.lookup id = some s := by
  unfold Manager.ownedActive at h
  split at h
  · cases h
  · next s' hs =>
    split_ifs at h
    cases h
    exact hs

theorem append?_frame {t : Touch} {caps : HistoryCaps} {h h' : History} {id : String}
    (ha : t.append? caps h id = some (some h')) (k : String) (hk : k ≠ id) : h' k = h k := by
  cases t with
  | resume => cases ha
  | bind w => cases ha
  | appendTurn turn =>
    simp only [Touch.append?, History.append, Option.some.injEq] at ha
    split_ifs at ha
    cases ha
    exact Function.update_of_ne hk _ _
  | appendTurns turns =>
    simp only [Touch.append?, History.appendBatch, Option.some.injEq] at ha
    split_ifs at ha
    · cases ha
      rfl
    · cases ha
      exact Function.update_of_ne hk _ _

theorem step_of_exec {m : Manager} {i : Instr} {x : Choice} {e : Effect Manager Instr}
    (h : exec m i x = some e) : Step m i e := by
  cases i with
  | serve =>
    cases x <;> cases h
    · exact .elapse _
    · exact .call _
  | reserveSlot o model =>
    cases x <;> simp only [exec, reduceCtorEq] at h
    split_ifs at h
    · cases h
      exact .refused o model
    · next hmu =>
      cases hr : m.reserveSlot o with
      | none =>
        simp only [hr] at h
        cases h
        exact .refused o model
      | some m' =>
        simp only [hr] at h
        cases h
        exact .reserved (by simpa using hmu) hr
  | newID o model =>
    cases x with
    | mint id =>
      cases id <;> cases h
      · exact .mintFailed o model
      · exact .minted o model _
    | _ => cases h
  | releaseSlot o =>
    cases x <;> simp only [exec, reduceCtorEq] at h
    split_ifs at h with hmu
    cases h
    exact .released (by simpa using hmu)
  | putNew s =>
    cases x <;> cases h
    exact .putNew s
  | touch t id o =>
    cases x <;> cases h
    exact .touch t id o
  | ownedActive t id o now =>
    cases x <;> simp only [exec, reduceCtorEq] at h
    split at h <;> cases h
    · exact .notOwned t id o now
    · next s hs => exact .owned (ownedActive_some hs)
  | append t id s now =>
    cases x <;> simp only [exec, reduceCtorEq] at h
    split at h <;> cases h
    · exact .appended m.history fun _ _ ↦ rfl
    · exact .rejected t id s now
    · next history hh => exact .appended history (append?_frame hh)
  | putBack s =>
    cases x <;> cases h
    exact .putBack s
  | deleteGet id o =>
    cases x <;> simp only [exec, reduceCtorEq] at h
    split at h
    · cases h
      exact .notFound id o
    · next s hs =>
      split_ifs at h <;> cases h
      · exact .notFound id o
      · exact .found hs
  | lock id o r =>
    cases x <;> simp only [exec, reduceCtorEq] at h
    split_ifs at h with hmu
    cases h
    exact .lock (by simpa using hmu)
  | recheck id o r =>
    cases x <;> simp only [exec, reduceCtorEq] at h
    split at h <;> cases h
    · next hs => exact .alreadyGone hs
    · next s hs => exact .present hs
  | endStats id o r s =>
    cases x <;> cases h
    exact .endStats id o r s
  | dropRow id o r st =>
    cases x <;> cases h
    exact .dropRow id o r st
  | dropHistory id o r st =>
    cases x <;> cases h
    exact .dropHistory id o r st
  | settle id o r st =>
    cases x <;> cases h
    exact .settle id o r st
  | observe st =>
    cases x <;> cases h
    exact .observe st
  | sweep =>
    cases x <;> cases h
    exact .sweep
  | list now =>
    cases x <;> simp only [exec, reduceCtorEq] at h
    split_ifs at h
    cases h
    refine .list _ fun s hs ↦ ?_
    obtain ⟨id, -, hid⟩ := List.mem_filterMap.mp hs
    exact ⟨id, hid⟩

end AgentGpu.Sessions
