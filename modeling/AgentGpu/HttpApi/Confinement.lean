import AgentGpu.HttpApi.Admin

namespace AgentGpu.HttpApi

open Foundation Auth

theorem hexEncode_nulFree (bytes : List UInt8) : NulFree (hexEncode bytes) := by
  intro h
  have hdigit : '\x00' ∉ "0123456789abcdef".toList := by decide
  exact hdigit (mem_hexEncode h)

section Keys

/-- Keys are stored under their own ids, and ids hold no NUL. -/
def KeysFormed (keys : KeyStore) : Prop := ∀ id k, keys.lookup id = some k → k.id = id ∧ NulFree id

variable {keys keys' : KeyStore} {k : APIKey} {id : String}

theorem KeysFormed.put (h : KeysFormed keys) (hk : NulFree k.id) : KeysFormed (keys.put k) := by
  intro id' k' hl
  rw [KeyStore.lookup_put] at hl
  split_ifs at hl with hid
  · cases hl
    exact ⟨hid.symm, hid ▸ hk⟩
  · exact h id' k' hl

theorem KeysFormed.updates (h : KeysFormed keys) (hu : Updates keys keys') : KeysFormed keys' := by
  cases hu with
  | unchanged => exact h
  | @rewritten id k k' hl hid =>
    obtain ⟨hk, hn⟩ := h id k hl
    exact h.put (by rw [hid, hk]; exact hn)
  | @minted k bytes hid => exact h.put (by rw [hid]; exact hexEncode_nulFree bytes)

theorem authenticate_updates {now : Time} {token : String}
    (h : authenticate keys now token = .ok (keys', k)) : Updates keys keys' := by
  obtain ⟨id, secret, k₀, -, hl, rfl, rfl⟩ := authenticate_ok h
  exact .rewritten hl rfl

theorem KeysFormed.actor_nulFree {now : Time} {token : String} (h : KeysFormed keys)
    (ha : authenticate keys now token = .ok (keys', k)) : NulFree k.id := by
  obtain ⟨id, secret, k₀, -, hl, rfl, -⟩ := authenticate_ok ha
  obtain ⟨hid, hn⟩ := h id k₀ hl
  exact hid ▸ hn

variable {actor : APIKey} {r : Request}

theorem handle_updates : Updates keys (handle actor r keys).1 := by
  unfold handle
  split
  · unfold handleAdminCreateKey
    split
    · split
      · exact .unchanged
      · split
        · exact .unchanged
        · dsimp only
          split
          · exact .unchanged
          · next hc => exact create_updates hc
    · exact .unchanged
  · exact .unchanged
  · exact .unchanged
  · unfold handleAdminRevokeKey
    split
    · exact .unchanged
    · next hr => exact revoke_updates hr
  · unfold handleAdminRotateKey
    split
    · exact .unchanged
    · next hr => exact rotate_updates hr
  · unfold handleAdminSetPermissions
    split
    · split
      · exact .unchanged
      · split
        · exact .unchanged
        · next hp => exact setPermissions_updates hp
    · exact .unchanged
  · unfold handleAdminSetQuota
    split
    · split
      · exact .unchanged
      · next hq => exact setLimits_updates hq
    · exact .unchanged
  · exact .unchanged

theorem handle_of_not_keys_write (h : r.route.gate ≠ .write scopeKeysWrite) :
    (handle actor r keys).1 = keys ∧ (handle actor r keys).2.tokens = [] := by
  unfold handle
  split
  · next hr => exact absurd (by rw [hr]; rfl) h
  · exact ⟨rfl, rfl⟩
  · refine ⟨rfl, ?_⟩
    unfold handleAdminGetKey
    split <;> rfl
  · next hr => exact absurd (by rw [hr]; rfl) h
  · next hr => exact absurd (by rw [hr]; rfl) h
  · next hr => exact absurd (by rw [hr]; rfl) h
  · next hr => exact absurd (by rw [hr]; rfl) h
  · exact ⟨rfl, rfl⟩

end Keys

section Replays

/-- The composite keys under which a response that carries a token can be cached: those of
the key routes that are posted to. -/
def TokenKey (key : String) : Prop :=
  ∃ (actorID : String) (rest : List Char), NulFree actorID ∧ key.toList =
    actorID.toList ++ '\x00' :: ("POST".toList ++ '\x00' :: ("/v1/admin/keys".toList ++ rest))

def TokensFiled (cache : IdempotencyCache) : Prop :=
  ∀ key r, cache.entries.lookup key = some r → r.response.tokens ≠ [] → TokenKey key

variable {api : Api} {keys : KeyStore} {actor : APIKey} {r : Request}

theorem handle_tokens_route (h : (handle actor r keys).2.tokens ≠ []) :
    r.route = .createKey ∨ r.route = .rotateKey := by
  unfold handle at h
  split at h
  · next hr => exact .inl hr
  · exact absurd rfl h
  · refine absurd ?_ h
    unfold handleAdminGetKey
    split <;> rfl
  · refine absurd ?_ h
    unfold handleAdminRevokeKey
    split
    · next e _ => cases e <;> rfl
    · rfl
  · next hr => exact .inr hr
  · refine absurd ?_ h
    unfold handleAdminSetPermissions
    split
    · split
      · next hv =>
        unfold validateVocabulary at hv
        split_ifs at hv <;> cases hv <;> rfl
      · split
        · next e _ => cases e <;> rfl
        · rfl
    · rfl
  · refine absurd ?_ h
    unfold handleAdminSetQuota
    split
    · split
      · next e _ => cases e <;> rfl
      · rfl
    · rfl
  · exact absurd rfl h

theorem tokenKey_of_handle (ha : NulFree actor.id) (h : (handle actor r keys).2.tokens ≠ []) :
    TokenKey (idempotencyKey actor.id r.route.method (r.route.path r.id r.model) r.idempotencyKey) := by
  rcases handle_tokens_route h with hr | hr
  · refine ⟨actor.id, '\x00' :: r.idempotencyKey.toList, ha, ?_⟩
    rw [hr, idempotencyKey_toList]
    rfl
  · have hroot : "/v1/admin/keys/".toList = "/v1/admin/keys".toList ++ ['/'] := by decide
    have hpath : Route.path r.id r.model .rotateKey = "/v1/admin/keys/" ++ r.id ++ "/rotate" := rfl
    have hmethod : Route.method .rotateKey = "POST" := rfl
    refine ⟨actor.id, '/' :: (r.id.toList ++ "/rotate".toList ++ '\x00' :: r.idempotencyKey.toList), ha, ?_⟩
    rw [hr, idempotencyKey_toList, hpath, hmethod, String.toList_append, String.toList_append, hroot]
    simp only [List.append_assoc, List.cons_append, List.nil_append]

theorem path_of_other_write {scope : String} {route : Route} (id model : String)
    (hgate : route.gate = .write scope) (hscope : scope ≠ scopeKeysWrite) : ∃ (c : Char) (rest : List Char), c ≠ 'k' ∧
      (route.path id model).toList = "/v1/admin/".toList ++ c :: rest := by
  have hworkers : "/v1/admin/workers/".toList = "/v1/admin/".toList ++ 'w' :: "orkers/".toList := by
    decide
  cases route with
  | drainWorker =>
    have hpath : Route.path id model .drainWorker = "/v1/admin/workers/" ++ id ++ "/drain" := rfl
    refine ⟨'w', "orkers/".toList ++ id.toList ++ "/drain".toList, by decide, ?_⟩
    rw [hpath, String.toList_append, String.toList_append, hworkers]
    simp only [List.append_assoc, List.cons_append]
  | pullModel =>
    have hpath : Route.path id model .pullModel = "/v1/admin/workers/" ++ id ++ "/models" := rfl
    refine ⟨'w', "orkers/".toList ++ id.toList ++ "/models".toList, by decide, ?_⟩
    rw [hpath, String.toList_append, String.toList_append, hworkers]
    simp only [List.append_assoc, List.cons_append]
  | unloadModel =>
    have hpath : Route.path id model .unloadModel = "/v1/admin/workers/" ++ id ++ "/models/" ++ model := rfl
    refine ⟨'w', "orkers/".toList ++ id.toList ++ "/models/".toList ++ model.toList, by decide, ?_⟩
    rw [hpath, String.toList_append, String.toList_append, String.toList_append, hworkers]
    simp only [List.append_assoc, List.cons_append]
  | putConfig =>
    have hpath : Route.path id model .putConfig = "/v1/admin/config" := rfl
    refine ⟨'c', "onfig".toList, by decide, ?_⟩
    rw [hpath]
    decide
  | createKey | revokeKey | rotateKey | setPermissions | setQuota => exact absurd (Gate.write.inj hgate).symm hscope
  | _ => cases hgate

theorem method_nulFree (route : Route) : NulFree route.method := by
  cases route <;> unfold NulFree Route.method <;> decide

theorem not_tokenKey {actorID id model rawKey scope : String} {route : Route}
    (ha : NulFree actorID) (hgate : route.gate = .write scope) (hscope : scope ≠ scopeKeysWrite) :
    ¬ TokenKey (idempotencyKey actorID route.method (route.path id model) rawKey) := by
  rintro ⟨actorID', rest, ha', h⟩
  rw [idempotencyKey_toList] at h
  obtain ⟨-, h⟩ := append_cons_inj ha ha' h
  obtain ⟨-, h⟩ := append_cons_inj (method_nulFree route) (by decide) h
  obtain ⟨c, tail, hc, hpath⟩ := path_of_other_write id model hgate hscope
  have hkeys : "/v1/admin/keys".toList = "/v1/admin/".toList ++ 'k' :: "eys".toList := by decide
  rw [hpath, hkeys, List.append_assoc, List.append_assoc, List.append_cancel_left_eq] at h
  exact hc (List.cons.inj h).1

structure Formed (api : Api) : Prop where
  keys : KeysFormed api.keys
  cache : TokensFiled api.cache

def compositeKey (actor : APIKey) (r : Request) : String :=
  idempotencyKey actor.id r.route.method (r.route.path r.id r.model) r.idempotencyKey

inductive Served (api : Api) (r : Request) : Api × Response × Bool → Prop
  | unauthenticated {response : Response} (ht : response.tokens = []) : Served api r (api, response, false)
  | refused {keys : KeyStore} {actor : APIKey} {response : Response}
      (hauth : authenticate api.keys r.now r.token = .ok (keys, actor)) (ht : response.tokens = []) :
      Served api r ({ api with keys := keys }, response, false)
  | handled {keys : KeyStore} {actor : APIKey} {cache : IdempotencyCache}
      (hauth : authenticate api.keys r.now r.token = .ok (keys, actor)) (hpass : r.route.gate.admits actor)
      (hcache : ∀ k e, cache.entries.lookup k = some e →
        (k = compositeKey actor r ∧ e.response = (handle actor r keys).2) ∨ api.cache.entries.lookup k = some e) :
      Served api r (⟨(handle actor r keys).1, cache⟩, (handle actor r keys).2, true)
  | replayed {keys : KeyStore} {actor : APIKey} {scope : String} {e : CachedResponse}
      (hauth : authenticate api.keys r.now r.token = .ok (keys, actor)) (hpass : r.route.gate.admits actor)
      (hgate : r.route.gate = .write scope) (hl : api.cache.entries.lookup (compositeKey actor r) = some e) :
      Served api r (⟨keys, api.cache⟩, e.response, true)

theorem served (api : Api) (r : Request) : Served api r (serve api r) := by
  unfold serve
  split
  · exact .unauthenticated rfl
  · next keys actor hauth =>
    split_ifs with hpass
    · split
      · next scope hgate =>
        rcases idempotent_cases api.cache r.now actor.id r.route.method (r.route.path r.id r.model)
          r.idempotencyKey keys (handle actor r) with ⟨e, hl, heq⟩ | ⟨hfresh, hcache⟩
        · rw [heq]
          exact .replayed hauth hpass hgate hl
        · generalize idempotent api.cache r.now actor.id r.route.method (r.route.path r.id r.model)
            r.idempotencyKey keys (handle actor r) = out at hfresh hcache
          obtain ⟨cache, out⟩ := out
          subst hfresh
          exact .handled hauth hpass hcache
      · exact .handled hauth hpass fun _ _ h ↦ .inr h
    · refine .refused hauth ?_
      cases r.route.gate <;> rfl

theorem Formed.served (h : Formed api) {out : Api × Response × Bool} (hs : Served api r out) :
    Formed out.1 := by
  cases hs with
  | unauthenticated => exact h
  | refused hauth | replayed hauth => exact ⟨h.keys.updates (authenticate_updates hauth), h.cache⟩
  | @handled keys actor cache hauth hpass hcache =>
    have hkeys := h.keys.updates (authenticate_updates hauth)
    refine ⟨hkeys.updates handle_updates, fun k e hl ht ↦ ?_⟩
    rcases hcache k e hl with ⟨rfl, hr⟩ | hold
    · refine tokenKey_of_handle ?_ (hr ▸ ht)
      exact h.keys.actor_nulFree hauth
    · exact h.cache k e hold ht

theorem Formed.serveAll (h : Formed api) (requests : List Request) : Formed (serveAll api requests) := by
  induction requests generalizing api with
  | nil => exact h
  | cons r rest ih => exact ih (h.served (HttpApi.served api r))

end Replays

section Confinement

variable {S : List String} {token : String} {api : Api} {actor : Actor} {r : Request}

def KeyWithin (S : List String) (token : String) (keys : KeyStore) : Prop :=
  ∀ id secret k, parseToken token = some (id, secret) → keys.lookup id = some k →
    roleAdmin ∉ k.roles ∧ k.adminScopes ⊆ S

structure Confined (S : List String) (token : String) (st : Api × Actor) : Prop where
  formed : Formed st.1
  key : KeyWithin S token st.1.keys
  held : st.2.held = [token]
  passed : ∀ route ∈ st.2.passed, ∃ scope ∈ S, route.gate = .read scope ∨ route.gate = .write scope

theorem gate_within {k : APIKey} {route : Route} (hrole : roleAdmin ∉ k.roles) (hscopes : k.adminScopes ⊆ S)
    (hpass : route.gate.admits k) : ∃ scope ∈ S, route.gate = .read scope ∨ route.gate = .write scope := by
  cases hg : route.gate with
  | read scope =>
    rw [hg] at hpass
    exact ⟨scope, hscopes (hasScope_of_not_admin hrole hpass), .inl rfl⟩
  | write scope =>
    rw [hg] at hpass
    exact ⟨scope, hscopes (hasScope_of_not_admin hrole hpass), .inr rfl⟩
  | admin =>
    rw [hg] at hpass
    exact absurd (by simpa [Gate.admits] using hpass) hrole

theorem KeyWithin.authenticate {now : Time} {keys keys' : KeyStore} {k : APIKey}
    (h : KeyWithin S token keys)
    (ha : authenticate keys now token = .ok (keys', k)) :
    (roleAdmin ∉ k.roles ∧ k.adminScopes ⊆ S) ∧ KeyWithin S token keys' := by
  obtain ⟨id, secret, k₀, hparse, hl, rfl, rfl⟩ := authenticate_ok ha
  have hk := h id secret k₀ hparse hl
  refine ⟨hk, fun id' secret' k' hparse' hl' ↦ ?_⟩
  rw [KeyStore.lookup_put] at hl'
  split_ifs at hl' with hid
  · cases hl'
    exact hk
  · exact h id' secret' k' hparse' hl'

theorem Confined.send (hS : scopeKeysWrite ∉ S) (h : Confined S token (api, actor)) :
    Confined S token (Actor.send (api, actor) r) := by
  obtain ⟨hformed, hkey, hheld, hpassed⟩ := h
  dsimp only at hformed hkey hheld hpassed
  unfold Actor.send
  dsimp only
  rw [hheld]
  by_cases htoken : r.token ∈ [token]
  · rw [if_pos htoken]
    obtain rfl := List.mem_singleton.mp htoken
    have hserved := served api r
    have hformed' := hformed.served hserved
    generalize serve api r = out at hserved hformed'
    cases hserved with
    | unauthenticated ht => exact ⟨hformed', hkey, by simp [ht], hpassed⟩
    | refused hauth ht => exact ⟨hformed', (hkey.authenticate hauth).2, by simp [ht], hpassed⟩
    | @handled keys k cache hauth hpass hcache =>
      obtain ⟨⟨hrole, hscopes⟩, hkey'⟩ := hkey.authenticate hauth
      obtain ⟨scope, hin, hgate⟩ := gate_within hrole hscopes hpass
      have hnot : r.route.gate ≠ .write scopeKeysWrite := by
        intro hw
        rcases hgate with hg | hg
        · rw [hg] at hw
          cases hw
        · rw [hg] at hw
          exact hS (Gate.write.inj hw ▸ hin)
      obtain ⟨hsame, ht⟩ : (handle k r keys).1 = keys ∧ (handle k r keys).2.tokens = [] :=
        handle_of_not_keys_write hnot
      refine ⟨hformed', ?_, by simp [ht], ?_⟩
      · dsimp only
        rw [hsame]
        exact hkey'
      · intro route hroute
        rcases List.mem_cons.mp hroute with rfl | hroute
        · exact ⟨scope, hin, hgate⟩
        · exact hpassed route hroute
    | @replayed keys k scope e hauth hpass hgate hl =>
      obtain ⟨⟨hrole, hscopes⟩, hkey'⟩ := hkey.authenticate hauth
      obtain ⟨scope', hin, hgate'⟩ := gate_within hrole hscopes hpass
      have hscope : scope ≠ scopeKeysWrite := by
        rintro rfl
        rcases hgate' with hg | hg
        · rw [hg] at hgate
          cases hgate
        · rw [hg] at hgate
          exact hS (Gate.write.inj hgate ▸ hin)
      have ht : e.response.tokens = [] := by
        by_contra hne
        exact not_tokenKey (hformed.keys.actor_nulFree hauth) hgate hscope (hformed.cache _ e hl hne)
      refine ⟨hformed', hkey', by simp [ht], ?_⟩
      intro route hroute
      rcases List.mem_cons.mp hroute with rfl | hroute
      · exact ⟨scope', hin, hgate'⟩
      · exact hpassed route hroute
  · rw [if_neg htoken]
    exact ⟨hformed, hkey, hheld, hpassed⟩

theorem Confined.run (hS : scopeKeysWrite ∉ S) {st : Api × Actor} (h : Confined S token st)
    (requests : List Request) : Confined S token (Actor.run st requests) := by
  induction requests generalizing st with
  | nil => exact h
  | cons r rest ih => exact ih (h.send hS)

/-- Whatever happened before, an actor that starts with the token of one key without the
admin role and with scopes within `S`, where `S` lacks `keys:write`, only ever passes admin
routes gated by a scope in `S`, and none gated by the admin role alone. -/
theorem admin_scopes_confined (boot : KeyStore) (hboot : KeysFormed boot) (prior : List Request)
    (token : String) (S : List String) (hS : scopeKeysWrite ∉ S)
    (hkey : KeyWithin S token (serveAll { keys := boot } prior).keys) (requests : List Request) :
    ∀ route ∈ (Actor.run (serveAll { keys := boot } prior, ⟨[token], []⟩) requests).2.passed,
      route.gate ≠ .admin ∧ ∃ scope ∈ S, route.gate = .read scope ∨ route.gate = .write scope := by
  have hfresh : Formed { keys := boot } := ⟨hboot, fun key r hl ↦ by cases hl⟩
  have hstart : Confined S token (serveAll { keys := boot } prior, ⟨[token], []⟩) :=
    ⟨hfresh.serveAll prior, hkey, rfl, fun route hroute ↦ by cases hroute⟩
  intro route hroute
  obtain ⟨scope, hin, hgate⟩ := (hstart.run hS requests).passed route hroute
  refine ⟨?_, scope, hin, hgate⟩
  rcases hgate with hg | hg <;> rw [hg] <;> intro hadmin <;> cases hadmin

def demoSecret : String := "5ec2e7"

def oneKey (scopes : List String) : KeyStore :=
  AList.singleton "00a1"
    { id := "00a1", salt := [7], secretHash := hashSecret [7] demoSecret, createdAt := 0, adminScopes := scopes }

theorem oneKey_lookup {scopes : List String} {id : String} {k : APIKey}
    (h : (oneKey scopes).lookup id = some k) : id = "00a1" ∧ k.id = "00a1" ∧ k.roles = [] ∧ k.adminScopes = scopes := by
  have hmem := AList.mem_lookup_iff.mp (Option.mem_def.mpr h)
  simp only [oneKey, AList.singleton_entries, List.mem_singleton] at hmem
  cases hmem
  exact ⟨rfl, rfl, rfl, rfl⟩

theorem oneKey_formed (scopes : List String) : KeysFormed (oneKey scopes) := by
  intro id k h
  obtain ⟨rfl, hid, -, -⟩ := oneKey_lookup h
  exact ⟨hid, by unfold NulFree; decide⟩

def demoToken : String := formatToken "00a1" demoSecret

theorem admin_scopes_confined_keys_read :
    (Actor.run ({ keys := oneKey [scopeKeysRead] }, ⟨[demoToken], []⟩)
        [⟨demoToken, .listKeys, "", "", "", .resource, 1, {}⟩,
          ⟨demoToken, .rotateKey, "00a1", "", "k", .resource, 2, {}⟩]).2.passed = [.listKeys] ∧
      ∀ route ∈ (Actor.run ({ keys := oneKey [scopeKeysRead] }, ⟨[demoToken], []⟩)
          [⟨demoToken, .listKeys, "", "", "", .resource, 1, {}⟩,
            ⟨demoToken, .rotateKey, "00a1", "", "k", .resource, 2, {}⟩]).2.passed,
        route.gate ≠ .admin ∧
          ∃ scope ∈ [scopeKeysRead], route.gate = .read scope ∨ route.gate = .write scope := by
  refine ⟨by decide +kernel, ?_⟩
  refine admin_scopes_confined (oneKey [scopeKeysRead]) (oneKey_formed _) [] demoToken [scopeKeysRead]
    (by decide) ?_ _
  intro id secret k _ hl
  obtain ⟨-, -, hroles, hscopes⟩ := oneKey_lookup hl
  rw [hroles, hscopes]
  exact ⟨by decide, List.Subset.refl _⟩

def mintedEntropy : Entropy :=
  ⟨some (List.replicate 8 0xb2), some (List.replicate 32 0x5e), some (List.replicate 32 0x01)⟩

def mintedToken : String :=
  formatToken (hexEncode (List.replicate 8 0xb2)) (hexEncode (List.replicate 32 0x5e))

/-- A key whose only scope is `keys:write` creates a key with the admin role and passes
`GET /v1/admin/config` with the token it is given. -/
theorem keys_write_escalates :
    (Actor.run ({ keys := oneKey [scopeKeysWrite] }, ⟨[demoToken], []⟩)
        [⟨demoToken, .createKey, "", "", "", .createKey "x" "" "" [roleAdmin] [] [] [] none, 1, mintedEntropy⟩,
          ⟨mintedToken, .getConfig, "", "", "", .resource, 2, {}⟩]).2.passed = [.getConfig, .createKey] ∧
      Route.gate .getConfig = .read scopeConfigRead ∧ scopeConfigRead ∉ [scopeKeysWrite] := by
  decide +kernel

end Confinement

end AgentGpu.HttpApi
