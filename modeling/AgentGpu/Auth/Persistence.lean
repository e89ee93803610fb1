import AgentGpu.Auth.Lifecycle

namespace AgentGpu.Auth

open Foundation

/-- Where a flush can fail. Only the rename touches the keys file itself, and it either
replaces the whole file or nothing. -/
inductive FlushStage
  | marshal
  | tempFile
  | chmod
  | write
  | close
  | rename
  deriving DecidableEq

def FlushStage.message : FlushStage → String
  | .marshal => "store: marshal"
  | .tempFile => "store: temp file"
  | .chmod => "store: chmod temp"
  | .write => "store: write temp"
  | .close => "store: close temp"
  | .rename => "store: rename"

structure File where
  keys : KeyStore
  disk : List APIKey

namespace File

def load (records : List APIKey) : KeyStore := records.foldl KeyStore.put ∅

def newFile (disk : List APIKey) : File := ⟨load disk, disk⟩

def flush (f : File) : Option FlushStage → File × Option FlushStage
  | none => ({ f with disk := f.keys.entries.map (·.2) }, none)
  | some stage => (f, some stage)

def putAPIKey (f : File) (k : APIKey) (fault : Option FlushStage) : File × Option FlushStage :=
  { f with keys := f.keys.put k }.flush fault

end File

/-- The record a call hands to the store, if it comes to that, and what it reports when the
store takes it. -/
def plan (keys : KeyStore) : Op → Except AuthError (Option APIKey × Option Event)
  | .create now draws name perms =>
    match createWithPermissions keys now draws.toEntropy name perms with
    | .error e => .error e
    | .ok (_, token, k) => .ok (some k, some (.created k.id token perms.expiresAt))
  | .setPermissions id perms =>
    match setPermissions keys id perms with
    | .error e => .error e
    | .ok (_, k) => .ok (some k, none)
  | .setLimits id limits =>
    match setLimits keys id limits with
    | .error e => .error e
    | .ok (_, k) => .ok (some k, none)
  | .rotate draws id =>
    match keys.lookup id with
    | none => .error .notFound
    | some k =>
      if k.revoked then .error .unauthenticated
      else
        match mintSecret draws.toEntropy with
        | .error e => .error e
        | .ok m =>
          .ok (some { k with secretHash := m.hash, salt := m.salt },
            some (.rotated id (formatToken id m.secret)))
  | .revoke now id =>
    match keys.lookup id with
    | none => .error .notFound
    | some k =>
      if k.revoked then .ok (none, some (.revoked id))
      else .ok (some { k with revokedAt := some now }, some (.revoked id))
  | .authenticate now token =>
    match authenticate keys now token with
    | .error e => .error e
    | .ok (_, k) => .ok (some k, some (.authenticated k.id))

theorem perform_eq_plan (keys : KeyStore) (op : Op) :
    perform keys op = (plan keys op).map fun p ↦ (p.1.elim keys keys.put, p.2) := by
  cases op with
  | create now draws name perms =>
    simp only [perform, plan, createWithPermissions]
    cases mint draws.toEntropy <;> rfl
  | setPermissions id _ | setLimits id _ =>
    simp only [perform, plan, setPermissions, setLimits]
    cases keys.lookup id <;> rfl
  | rotate draws id =>
    simp only [perform, plan, rotate]
    cases keys.lookup id with
    | none => rfl
    | some k =>
      by_cases hrevoked : k.revoked
      · simp [hrevoked, Except.map]
      · cases mintSecret draws.toEntropy <;> simp [hrevoked, Except.map]
  | revoke now id =>
    simp only [perform, plan, revoke]
    cases keys.lookup id with
    | none => rfl
    | some k => by_cases hrevoked : k.revoked <;> simp [hrevoked, Except.map]
  | authenticate now token =>
    simp only [perform, plan]
    cases hauth : authenticate keys now token with
    | error e => rfl
    | ok v =>
      obtain ⟨_, _, _, _, _, _, hkeys⟩ := authenticate_ok hauth
      simp [Except.map, hkeys]

def Op.persistContext : Op → String
  | .create .. => "auth: persist key"
  | .setPermissions .. => "auth: persist permissions"
  | .setLimits .. => "auth: persist limits"
  | .rotate .. => "auth: persist rotate"
  | .revoke .. => "auth: persist revoke"
  | .authenticate .. => "auth: persist usage"

inductive CallError
  | auth (err : AuthError)
  | persist (context message : String)
  deriving DecidableEq

def File.call (f : File) (op : Op) (fault : Option FlushStage) :
    File × Except CallError (Option Event) :=
  match plan f.keys op with
  | .error e => (f, .error (.auth e))
  | .ok (none, event) => (f, .ok event)
  | .ok (some k, event) =>
    match f.putAPIKey k fault with
    | (f, none) => (f, .ok event)
    | (f, some stage) => (f, .error (.persist op.persistContext stage.message))

def File.calls (f : File) (steps : List (Op × Option FlushStage)) : File :=
  steps.foldl (fun f step ↦ (f.call step.1 step.2).1) f

def Op.Repeats (keys : KeyStore) : Op → Prop
  | .setPermissions id perms => ∀ k, keys.lookup id = some k →
    k.roles = perms.roles ∧ k.adminScopes = perms.adminScopes ∧
      k.allowModels = perms.allowModels ∧ k.denyModels = perms.denyModels
  | .setLimits id limits => ∀ k, keys.lookup id = some k → k.limits = limits
  | .rotate draws id => ∀ k m, keys.lookup id = some k → mintSecret draws.toEntropy = .ok m →
    m.hash = k.secretHash ∧ m.salt = k.salt
  | .revoke _ id => ∀ k, keys.lookup id = some k → k.revoked
  | .create .. | .authenticate .. => False

def Harmless (f : File) (step : Op × Option FlushStage) : Prop :=
  step.2 = none ∨ step.1.Repeats f.keys

def HarmlessRun : File → List (Op × Option FlushStage) → Prop
  | _, [] => True
  | f, step :: steps => Harmless f step ∧ HarmlessRun (f.call step.1 step.2).1 steps

/-- Memory and the keys file hold the same records, each under its id. -/
structure Synced (f : File) : Prop where
  ids : ∀ id k, f.keys.lookup id = some k → k.id = id
  disk : ∀ id, (File.load f.disk).lookup id = f.keys.lookup id

section Load

theorem lookup_foldl_put (entries : List (Sigma fun _ : String ↦ APIKey)) (keys : KeyStore)
    (hnodup : entries.NodupKeys) (hids : ∀ e ∈ entries, e.2.id = e.1) (id : String) :
    ((entries.map (·.2)).foldl KeyStore.put keys).lookup id =
      (entries.dlookup id).or (keys.lookup id) := by
  induction entries generalizing keys with
  | nil => rfl
  | cons e entries ih =>
    obtain ⟨hnot, hrest⟩ := List.nodupKeys_cons.mp hnodup
    have he : e.2.id = e.1 := hids e List.mem_cons_self
    rw [List.map_cons, List.foldl_cons, ih _ hrest fun e' he' ↦ hids e' (List.mem_cons_of_mem _ he'),
      KeyStore.lookup_put, he]
    obtain ⟨a, k⟩ := e
    by_cases hid : id = a
    · subst hid
      rw [List.dlookup_cons_eq, List.dlookup_eq_none.mpr hnot, if_pos rfl]
      rfl
    · rw [List.dlookup_cons_ne _ _ hid, if_neg hid]

theorem load_ids (records : List APIKey) :
    ∀ id k, (File.load records).lookup id = some k → k.id = id := by
  induction records using List.reverseRecOn with
  | nil => simp [File.load]
  | append_singleton records r ih =>
    intro id k hl
    rw [File.load, List.foldl_append, List.foldl_cons, List.foldl_nil, KeyStore.lookup_put] at hl
    split_ifs at hl with hid
    · cases hl
      exact hid.symm
    · exact ih id k hl

theorem lookup_load_entries {keys : KeyStore} (hids : ∀ id k, keys.lookup id = some k → k.id = id)
    (id : String) : (File.load (keys.entries.map (·.2))).lookup id = keys.lookup id := by
  rw [File.load, lookup_foldl_put keys.entries ∅ keys.nodupKeys]
  · exact Option.or_none
  · intro e he
    exact hids e.1 e.2 (AList.mem_lookup_iff.mpr he)

end Load

theorem synced_newFile (disk : List APIKey) : Synced (File.newFile disk) :=
  ⟨load_ids disk, fun _ ↦ rfl⟩

variable {f : File} {op : Op} {k : APIKey} {event : Option Event}

theorem stored_of_repeats (hf : Synced f) (hr : op.Repeats f.keys)
    (hp : plan f.keys op = .ok (some k, event)) : f.keys.lookup k.id = some k := by
  cases op with
  | create | authenticate => cases hr
  | setPermissions id perms =>
    simp only [plan, setPermissions] at hp
    cases hl : f.keys.lookup id with
    | none => simp [hl] at hp
    | some k₀ =>
      obtain ⟨hroles, hscopes, hallow, hdeny⟩ := hr k₀ hl
      obtain rfl : k₀ = k := by
        rw [hl, ← hroles, ← hscopes, ← hallow, ← hdeny] at hp
        cases hp
        rfl
      rwa [hf.ids _ _ hl]
  | setLimits id limits =>
    simp only [plan, setLimits] at hp
    cases hl : f.keys.lookup id with
    | none => simp [hl] at hp
    | some k₀ =>
      obtain rfl : k₀ = k := by
        rw [hl, ← hr k₀ hl] at hp
        cases hp
        rfl
      rwa [hf.ids _ _ hl]
  | rotate draws id =>
    simp only [plan] at hp
    cases hl : f.keys.lookup id with
    | none => simp [hl] at hp
    | some k₀ =>
      cases hm : mintSecret draws.toEntropy with
      | error e => by_cases hrevoked : k₀.revoked <;> simp [hl, hm, hrevoked] at hp
      | ok m =>
        obtain ⟨hhash, hsalt⟩ := hr k₀ m hl hm
        obtain rfl : k₀ = k := by
          by_cases hrevoked : k₀.revoked
          · simp [hl, hrevoked] at hp
          · simp only [hl, hm, hhash, hsalt, hrevoked] at hp
            cases hp
            rfl
        rwa [hf.ids _ _ hl]
  | revoke now id =>
    simp only [plan] at hp
    cases hl : f.keys.lookup id with
    | none => simp [hl] at hp
    | some k₀ => simp [hl, hr k₀ hl] at hp

theorem Synced.put_ids (hf : Synced f) (k : APIKey) :
    ∀ id k', (f.keys.put k).lookup id = some k' → k'.id = id := by
  intro id k' hl
  rw [KeyStore.lookup_put] at hl
  split_ifs at hl with hid
  · cases hl
    exact hid.symm
  · exact hf.ids id k' hl

theorem Synced.call (hf : Synced f) {fault : Option FlushStage} (hstep : Harmless f (op, fault)) :
    Synced (f.call op fault).1 ∧
      (∀ context message, (f.call op fault).2 = .error (.persist context message) →
        ∀ id, (f.call op fault).1.keys.lookup id = f.keys.lookup id) := by
  unfold File.call
  cases hp : plan f.keys op with
  | error e => exact ⟨hf, fun _ _ h ↦ by cases h⟩
  | ok v =>
    obtain ⟨record, event⟩ := v
    cases record with
    | none => exact ⟨hf, fun _ _ h ↦ by cases h⟩
    | some k =>
      cases fault with
      | none =>
        refine ⟨⟨hf.put_ids k, lookup_load_entries (hf.put_ids k)⟩, fun _ _ h ↦ by cases h⟩
      | some stage =>
        have hstored := stored_of_repeats hf (hstep.resolve_left (by simp)) hp
        have hsame (id : String) : (f.keys.put k).lookup id = f.keys.lookup id := by
          rw [KeyStore.lookup_put]
          split_ifs with hid
          · rw [hid, hstored]
          · rfl
        exact ⟨⟨hf.put_ids k, fun id ↦ (hf.disk id).trans (hsame id).symm⟩, fun _ _ _ ↦ hsame⟩

theorem Synced.calls (steps : List (Op × Option FlushStage)) (hf : Synced f)
    (hrun : HarmlessRun f steps) : Synced (f.calls steps) := by
  induction steps generalizing f with
  | nil => exact hf
  | cons step steps ih => exact ih (hf.call hrun.1).1 hrun.2

theorem harmlessRun_append (steps : List (Op × Option FlushStage)) (step : Op × Option FlushStage) :
    HarmlessRun f (steps ++ [step]) ↔ HarmlessRun f steps ∧ Harmless (f.calls steps) step := by
  induction steps generalizing f with
  | nil => simp [HarmlessRun, File.calls]
  | cons s steps ih => simp [HarmlessRun, ih, and_assoc, File.calls]

theorem authenticate_isOk_congr {keys keys' : KeyStore} (h : ∀ id, keys'.lookup id = keys.lookup id)
    (now : Time) (token : String) :
    (authenticate keys' now token).isOk = (authenticate keys now token).isOk := by
  rw [Bool.eq_iff_iff, authenticate_isOk_iff, authenticate_isOk_iff]
  simp only [h]

/-- In every run whose flushes fail only in calls that repeat what is stored, a call that
reports a persistence error leaves every record, and with it the tokens that authenticate,
as they were and as they are in the keys file. -/
theorem failed_key_writes_change_nothing (disk : List APIKey)
    (steps : List (Op × Option FlushStage)) (op : Op) (fault : Option FlushStage)
    (hrun : HarmlessRun (File.newFile disk) (steps ++ [(op, fault)]))
    {context message : String}
    (herr : (((File.newFile disk).calls steps).call op fault).2 = .error (.persist context message)) :
    let before := (File.newFile disk).calls steps
    let after := (before.call op fault).1
    (∀ id, after.keys.lookup id = before.keys.lookup id) ∧
      (∀ id, (File.load after.disk).lookup id = after.keys.lookup id) ∧
      ∀ now token, (authenticate after.keys now token).isOk = (authenticate before.keys now token).isOk := by
  intro before after
  obtain ⟨hsteps, hlast⟩ := (harmlessRun_append steps (op, fault)).mp hrun
  have hbefore : Synced before := (synced_newFile disk).calls steps hsteps
  obtain ⟨hafter, hsame⟩ := hbefore.call hlast
  have hkeys := hsame context message herr
  exact ⟨hkeys, hafter.disk, authenticate_isOk_congr hkeys⟩

def firstID : String := hexEncode (List.replicate 8 0)

def firstKey : List (Op × Option FlushStage) := [(.create 0 firstDraws "ci" {}, none)]

theorem failed_key_writes_change_nothing_sameLimits :
    let before := (File.newFile []).calls firstKey
    let after := (before.call (.setLimits firstID none) (some .rename)).1
    ∀ id, after.keys.lookup id = before.keys.lookup id := by
  refine (failed_key_writes_change_nothing [] firstKey (.setLimits firstID none) (some .rename)
    ⟨.inl rfl, .inr ?_, trivial⟩ rfl).1
  intro k hl
  obtain rfl := Option.some.inj hl
  rfl

/-- A `Revoke` whose flush fails reports an error, yet the key no longer authenticates, and
the keys file does not know. -/
theorem failed_revoke_revokes :
    let before := (File.newFile []).calls firstKey
    let after := before.call (.revoke 1 firstID) (some .rename)
    after.2 = .error (.persist "auth: persist revoke" "store: rename") ∧
      (authenticate before.keys 2 firstToken).isOk ∧
      ¬ (authenticate after.1.keys 2 firstToken).isOk ∧
      (File.load after.1.disk).lookup firstID ≠ after.1.keys.lookup firstID := by
  refine ⟨rfl, ?_, ?_, ?_⟩
  · exact authenticate_isOk_iff.mpr ⟨_, _, _, parseToken_firstToken, rfl, rfl, Bool.false_ne_true,
      Bool.false_ne_true⟩
  · intro h
    obtain ⟨id, secret, k, hparse, hl, -, hrevoked, -⟩ := authenticate_isOk_iff.mp h
    obtain ⟨rfl, -⟩ := Prod.mk.inj (Option.some.inj (hparse.symm.trans parseToken_firstToken))
    obtain rfl := Option.some.inj hl
    exact hrevoked rfl
  · intro h
    have hrevoked := congrArg (Option.map APIKey.revokedAt) h
    cases hrevoked

end AgentGpu.Auth
