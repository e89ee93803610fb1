import AgentGpu.Sessions.Lifecycle
import AgentGpu.Sessions.Overflow
import AgentGpu.Sessions.Privacy

namespace AgentGpu.Sessions

open Foundation

/-- `LoadCheckpoint` of the session store. -/
def loadSessions (now : Time) (loaded : List Session) : SessionTable :=
  loaded.foldl (fun t s ↦ if s.expired now then t else t.insert s.id s) ∅

/-- `LoadCheckpoint` of the history store, under the caps the store was made with. -/
def History.load (caps : HistoryCaps) (keep : String → Bool) (loaded : History) : History :=
  fun id ↦ if keep id then (loaded id).map (trim caps) else none

section Load

variable {now : Time}

theorem lookup_loadSessions {loaded : List Session} (hnodup : (loaded.map Session.id).Nodup)
    {id : String} {s : Session} :
    (loadSessions now loaded).lookup id = some s ↔ s ∈ loaded ∧ s.id = id ∧ ¬s.expired now := by
  induction loaded using List.reverseRecOn with
  | nil =>
    have hnone : (∅ : SessionTable).lookup id = none := AList.lookup_empty id
    simp [loadSessions, hnone]
  | append_singleton loaded s' ih =>
    simp only [List.map_append, List.map_singleton, List.nodup_append, List.mem_singleton,
      forall_eq] at hnodup
    have hother (s) (hs : s ∈ loaded) : s.id ≠ s'.id := hnodup.2.2 _ (List.mem_map_of_mem hs)
    replace ih := ih hnodup.1
    simp only [loadSessions, List.foldl_append, List.foldl_cons, List.foldl_nil] at ih ⊢
    simp only [List.mem_append, List.mem_singleton]
    split_ifs with hexp
    · rw [ih]
      constructor
      · rintro ⟨hs, h⟩
        exact ⟨.inl hs, h⟩
      · rintro ⟨hs | rfl, h⟩
        · exact ⟨hs, h⟩
        · exact absurd hexp h.2
    · by_cases hid : id = s'.id
      · subst hid
        rw [AList.lookup_insert, Option.some_inj]
        constructor
        · rintro rfl
          exact ⟨.inr rfl, rfl, hexp⟩
        · rintro ⟨hs | rfl, hids, -⟩
          · exact absurd hids (hother s hs)
          · rfl
      · rw [AList.lookup_insert_ne hid, ih]
        constructor
        · rintro ⟨hs, h⟩
          exact ⟨.inl hs, h⟩
        · rintro ⟨hs | rfl, h⟩
          · exact ⟨hs, h⟩
          · exact absurd h.1.symm hid

theorem loadSessions_keyed {loaded : List Session} {id : String} {s : Session}
    (h : (loadSessions now loaded).lookup id = some s) : s.id = id ∧ s.expired now = false := by
  induction loaded using List.reverseRecOn with
  | nil => cases h
  | append_singleton loaded s' ih =>
    simp only [loadSessions, List.foldl_append, List.foldl_cons, List.foldl_nil] at ih h
    split_ifs at h with hexp
    · exact ih h
    · obtain ⟨rfl, rfl⟩ | h := Table.lookup_insert_cases h
      · exact ⟨rfl, Bool.eq_false_iff.mpr hexp⟩
      · exact ih h

theorem lookup_restored {m : Manager} (hkeyed : RowsKeyed m) (order : List String) {id : String}
    {s : Session} :
    (loadSessions now (m.listed order)).lookup id = some s ↔
      m.sessions.lookup id = some s ∧ ¬s.expired now := by
  rw [lookup_loadSessions (listed_nodup hkeyed order), mem_listed hkeyed]
  constructor
  · rintro ⟨hl, rfl, hexp⟩
    exact ⟨hl, hexp⟩
  · rintro ⟨hl, hexp⟩
    obtain rfl := hkeyed id s hl
    exact ⟨hl, rfl, hexp⟩

/-- The loop of `reconcileCounts` over the listed sessions. -/
def Manager.tallies (listed : List Session) : String → ℕ :=
  listed.foldl (fun counts s ↦ Function.update counts s.ownerKeyID (counts s.ownerKeyID + 1)) fun _ ↦ 0

theorem tallies_apply (listed : List Session) (o : String) :
    Manager.tallies listed o = listed.countP (·.ownerKeyID = o) := by
  induction listed using List.reverseRecOn with
  | nil => rfl
  | append_singleton listed s ih =>
    rw [Manager.tallies, List.foldl_append, List.countP_append, ← ih]
    by_cases ho : s.ownerKeyID = o
    · subst ho
      simp [Manager.tallies]
    · simp [Manager.tallies, ho, Function.update_of_ne (Ne.symm ho)]

theorem tallies_listed (m : Manager) (order : List String) :
    Manager.tallies (m.listed order) = Manager.reconcileCounts m.sessions := by
  funext o
  rw [tallies_apply, (listed_perm order).countP_eq, List.countP_map]
  rfl

end Load

def Affords (cost : Message → ℕ) (budget : ℤ) (turns : List Message) : Prop :=
  budget > 0 → turns.length ≤ 1 ∨ total cost turns ≤ budget

section Trim

variable {cost : Message → ℕ} {budget : ℤ} {turns : List Message} {caps caps' : HistoryCaps}

structure Fits (caps : HistoryCaps) (turns : List Message) : Prop where
  count : caps.maxTurns > 0 → turns.length ≤ caps.maxTurns
  bytes : Affords turnBytes caps.maxBytes turns
  tokens : Affords turnTokens caps.maxTokens turns

theorem fits_iff : Fits caps turns ↔ exceedsCap caps turns = false ∨ turns.length ≤ 1 := by
  have hexceeds : exceedsCap caps turns = false ↔
      (caps.maxTurns > 0 → turns.length ≤ caps.maxTurns) ∧
        (caps.maxBytes > 0 → total turnBytes turns ≤ caps.maxBytes) ∧
          (caps.maxTokens > 0 → total turnTokens turns ≤ caps.maxTokens) := by
    simp only [exceedsCap, decide_eq_false_iff_not]
    omega
  rw [hexceeds]
  constructor
  · rintro ⟨hcount, hbytes, htokens⟩
    rcases Nat.lt_or_ge 1 turns.length with hlength | hlength
    · exact .inl ⟨hcount, fun hpos ↦ (hbytes hpos).resolve_left (by omega),
        fun hpos ↦ (htokens hpos).resolve_left (by omega)⟩
    · exact .inr hlength
  · rintro (⟨hcount, hbytes, htokens⟩ | hlength)
    · exact ⟨hcount, fun hpos ↦ .inr (hbytes hpos), fun hpos ↦ .inr (htokens hpos)⟩
    · exact ⟨fun hpos ↦ by omega, fun _ ↦ .inl hlength, fun _ ↦ .inl hlength⟩

theorem trim_eq_self (h : Fits caps turns) : trim caps turns = turns := by
  rcases fits_iff.mp h with hfits | hlength
  · exact trim_of_not_exceedsCap hfits
  · rw [trim_eq]
    match turns with
    | [] | [_] => rfl
    | _ :: _ :: _ => simp at hlength

theorem trim_fits (caps : HistoryCaps) (turns : List Message) : Fits caps (trim caps turns) := by
  rw [trim_eq, fits_iff]
  simpa using keepSuffix_pass_or (fun turns ↦ !exceedsCap caps turns) turns

/-- A cap that never lets through what the flag would not; a flag of zero or less is no cap. -/
def AsTight (flag cap : ℤ) : Prop := flag ≤ 0 ∨ 0 < cap ∧ cap ≤ flag

theorem AsTight.refl (flag : ℤ) : AsTight flag flag := by
  unfold AsTight
  omega

structure HistoryCaps.AsTight (flags caps : HistoryCaps) : Prop where
  turns : Sessions.AsTight flags.maxTurns caps.maxTurns
  bytes : Sessions.AsTight flags.maxBytes caps.maxBytes
  tokens : Sessions.AsTight flags.maxTokens caps.maxTokens

theorem Affords.mono {budget' : ℤ} (h : Affords cost budget' turns) (htight : AsTight budget budget') :
    Affords cost budget turns := by
  intro hpos
  obtain ⟨hpos', hle⟩ := htight.resolve_left (not_le.mpr hpos)
  exact (h hpos').imp_right fun h ↦ h.trans hle

theorem Fits.mono (h : Fits caps' turns) (htight : caps.AsTight caps') : Fits caps turns where
  count hpos := by
    obtain ⟨hpos', hle⟩ := htight.turns.resolve_left (not_le.mpr hpos)
    exact (h.count hpos').trans hle
  bytes := h.bytes.mono htight.bytes
  tokens := h.tokens.mono htight.tokens

end Trim

section Runs

variable {m : Manager} {i : Instr} {x : Choice} {e : Effect Manager Instr}

theorem append?_trim {t : Touch} {caps : HistoryCaps} {h h' : History} {id : String}
    (ha : t.append? caps h id = some (some h')) {turns : List Message} (hid : h' id = some turns) :
    h id = some turns ∨ ∃ all, turns = trim caps all := by
  cases t with
  | resume | bind w => cases ha
  | appendTurn turn =>
    simp only [Touch.append?, History.append, Option.some.injEq] at ha
    split_ifs at ha
    cases ha
    rw [Function.update_self, Option.some_inj] at hid
    exact .inr ⟨_, hid.symm⟩
  | appendTurns batch =>
    simp only [Touch.append?, History.appendBatch, Option.some.injEq] at ha
    split_ifs at ha
    · cases ha
      exact .inl hid
    · cases ha
      rw [Function.update_self, Option.some_inj] at hid
      exact .inr ⟨_, hid.symm⟩

theorem exec_history (he : exec m i x = some e) :
    e.shared.caps = m.caps ∧ ∀ id turns, e.shared.history id = some turns →
      m.history id = some turns ∨ ∃ all, turns = trim m.caps all := by
  by_cases hi : ∃ t id s now, i = .append t id s now
  · obtain ⟨t, k, s, now, rfl⟩ := hi
    cases x <;> simp only [exec, reduceCtorEq] at he
    split at he
    · cases he
      exact ⟨rfl, fun _ _ h ↦ .inl h⟩
    · cases he
      exact ⟨rfl, fun _ _ h ↦ .inl h⟩
    · next history ha =>
      cases he
      refine ⟨rfl, fun id turns h ↦ ?_⟩
      by_cases hid : id = k
      · subst hid
        exact append?_trim ha h
      · exact .inl ((append?_frame ha id hid).symm.trans h)
  · induction step_of_exec he with
    | appended => exact absurd ⟨_, _, _, _, rfl⟩ hi
    | reserved _ hr =>
      obtain ⟨rfl, -⟩ := Manager.reserveSlot_some hr
      exact ⟨rfl, fun _ _ h ↦ .inl h⟩
    | dropHistory k =>
      refine ⟨rfl, fun id turns h ↦ ?_⟩
      by_cases hid : id = k
      · subst hid
        simp [History.deleteBySession] at h
      · exact .inl (by simpa [History.deleteBySession, hid] using h)
    | _ => exact ⟨rfl, fun _ _ h ↦ .inl h⟩

structure Kept (flags : HistoryCaps) (m : Manager) : Prop where
  keyed : RowsKeyed m
  tight : flags.AsTight m.caps
  fits : ∀ id turns, m.history id = some turns → Fits flags turns

theorem Kept.exec {flags : HistoryCaps} (h : Kept flags m) (he : exec m i x = some e) :
    Kept flags e.shared := by
  obtain ⟨hcaps, hhistory⟩ := exec_history he
  refine ⟨((step_of_exec he).keyed h.keyed).1, hcaps ▸ h.tight, fun id turns hid ↦ ?_⟩
  obtain hid | ⟨all, rfl⟩ := hhistory id turns hid
  · exact h.fits id turns hid
  · exact (trim_fits m.caps all).mono h.tight

theorem reapAll_countMu (sessions : List Session) : (m.reapAll sessions).countMu = m.countMu := by
  induction sessions generalizing m with
  | nil => rfl
  | cons s sessions ih => exact ih.trans (deleteSession_countMu ..)

theorem create_countMu (o model : String) (minted : Option String) :
    (m.create o model minted).1.countMu = m.countMu := by
  unfold Manager.create
  split_ifs
  · rfl
  · cases hslot : m.reserveSlot o with
    | none => rfl
    | some m' =>
      have hmu : m'.countMu = m.countMu := by rw [(Manager.reserveSlot_some hslot).1]
      cases minted <;> exact hmu

theorem touch_countMu (t : Touch) (id o : String) : (m.touch t id o).1.countMu = m.countMu := by
  unfold Manager.touch
  split
  · rfl
  · dsimp only
    split <;> rfl

theorem delete_countMu (id o : String) : (m.delete id o).1.countMu = m.countMu := by
  unfold Manager.delete
  split
  · rfl
  · split_ifs
    · rfl
    · exact deleteSession_countMu ..

theorem apply_countMu (op : Op) : (m.apply op).1.countMu = m.countMu := by
  cases op with
  | create => exact create_countMu ..
  | touch => exact touch_countMu ..
  | get | historyOf | checkAppendable => rfl
  | delete => exact delete_countMu ..
  | sweepExpired => exact reapAll_countMu _

theorem apply_caps (hmu : m.countMu = false) (op : Op) : (m.apply op).1.caps = m.caps := by
  cases hcall : op.call? with
  | none => cases op <;> first | rfl | cases hcall
  | some call =>
    exact (apply_alone hmu hcall).invariant (I := fun s ↦ s.caps = m.caps)
      (fun s i x e hs he ↦ (exec_history he).1.trans hs) rfl

theorem Kept.apply {flags : HistoryCaps} (h : Kept flags m) (hmu : m.countMu = false) (op : Op) :
    Kept flags (m.apply op).1 := by
  have hclock : Kept flags { m with clock := op.now } := ⟨h.keyed, h.tight, h.fits⟩
  cases hcall : op.call? with
  | none => cases op <;> first | exact hclock | cases hcall
  | some call =>
    exact (apply_alone hmu hcall).invariant (fun s i x e hs he ↦ hs.exec he) hclock

end Runs

end AgentGpu.Sessions
