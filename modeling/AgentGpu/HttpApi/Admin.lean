import AgentGpu.Auth.Scopes
import AgentGpu.HttpApi.Idempotency

namespace AgentGpu.HttpApi

open Foundation Auth

inductive Route
  | createKey
  | listKeys
  | getKey
  | revokeKey
  | rotateKey
  | setPermissions
  | setQuota
  | getQuota
  | roles
  | listWorkers
  | getWorker
  | gpus
  | drainWorker
  | pullModel
  | unloadModel
  | stats
  | telemetry
  | usage
  | audit
  | logs
  | logsStream
  | getConfig
  | putConfig
  deriving DecidableEq

/-- `requireScope`, `requireScopeWrite`, or the superuser gate `admin`. -/
inductive Gate
  | read (scope : String)
  | write (scope : String)
  | admin
  deriving DecidableEq

namespace Route

def gate : Route → Gate
  | createKey => .write scopeKeysWrite
  | listKeys => .read scopeKeysRead
  | getKey => .read scopeKeysRead
  | revokeKey => .write scopeKeysWrite
  | rotateKey => .write scopeKeysWrite
  | setPermissions => .write scopeKeysWrite
  | setQuota => .write scopeKeysWrite
  | getQuota => .read scopeKeysRead
  | roles => .read scopeKeysRead
  | listWorkers => .read scopeWorkersRead
  | getWorker => .read scopeWorkersRead
  | gpus => .read scopeWorkersRead
  | drainWorker => .write scopeWorkersWrite
  | pullModel => .write scopeModelsWrite
  | unloadModel => .write scopeModelsWrite
  | stats => .read scopeTelemetryRead
  | telemetry => .read scopeTelemetryRead
  | usage => .read scopeTelemetryRead
  | audit => .read scopeAuditRead
  | logs => .read scopeLogsRead
  | logsStream => .read scopeLogsRead
  | getConfig => .read scopeConfigRead
  | putConfig => .write scopeConfigWrite

def method : Route → String
  | createKey | rotateKey | drainWorker | pullModel => "POST"
  | revokeKey | unloadModel => "DELETE"
  | setPermissions | setQuota | putConfig => "PUT"
  | _ => "GET"

def path (id model : String) : Route → String
  | createKey | listKeys => "/v1/admin/keys"
  | getKey | revokeKey => "/v1/admin/keys/" ++ id
  | rotateKey => "/v1/admin/keys/" ++ id ++ "/rotate"
  | setPermissions => "/v1/admin/keys/" ++ id ++ "/permissions"
  | setQuota | getQuota => "/v1/admin/keys/" ++ id ++ "/quota"
  | roles => "/v1/admin/roles"
  | listWorkers => "/v1/admin/workers"
  | getWorker => "/v1/admin/workers/" ++ id
  | gpus => "/v1/admin/gpus"
  | drainWorker => "/v1/admin/workers/" ++ id ++ "/drain"
  | pullModel => "/v1/admin/workers/" ++ id ++ "/models"
  | unloadModel => "/v1/admin/workers/" ++ id ++ "/models/" ++ model
  | stats => "/v1/admin/stats"
  | telemetry => "/v1/admin/telemetry"
  | usage => "/v1/admin/usage"
  | audit => "/v1/admin/audit"
  | logs => "/v1/admin/logs"
  | logsStream => "/v1/admin/logs/stream"
  | getConfig | putConfig => "/v1/admin/config"

end Route

def Gate.admits (key : APIKey) : Gate → Bool
  | .read scope | .write scope => hasScope key scope
  | .admin => key.roles.contains roleAdmin

def Gate.refusal : Gate → Response
  | .admin => ⟨403, .error "forbidden" "admin role required"⟩
  | _ => ⟨403, .error "forbidden" "insufficient scope"⟩

inductive RequestBody
  | malformed
  | createKey (name owner team : String) (roles adminScopes allowModels denyModels : List String)
      (expiresAt : Option ℤ)
  | permissions (roles adminScopes allowModels denyModels : List String)
  | quota (rpm tpm dailyTokens monthlyTokens : Option UInt64)
  | resource

structure Request where
  token : String
  route : Route
  id : String := ""
  model : String := ""
  idempotencyKey : String := ""
  body : RequestBody := .resource
  now : Time
  entropy : Entropy := {}

def errorResponse (status : ℕ) (code message : String) : Response := ⟨status, .error code message⟩

def badRequest (message : String) : Response := errorResponse 400 "invalid_request_error" message

def writeAdminKeyError : AuthError → Response
  | .notFound => errorResponse 404 "not_found" "key not found"
  | _ => errorResponse 500 "internal_error" "internal error"

def validateVocabulary (roles scopes : List String) : Option Response :=
  if !roles.all validRole then some (badRequest "unknown role")
  else if !scopes.all validScope then some (badRequest "unknown admin scope")
  else none

/-- `none` where the value is rejected; unix seconds become an instant. -/
def parseExpiresAt (now : Time) : Option ℤ → Option (Option Time)
  | none => some none
  | some unix => if unix ≤ 0 ∨ ¬ unix * second > now then none else some (some (unix * second))

def handleAdminCreateKey (actor : APIKey) (r : Request) (keys : KeyStore) : KeyStore × Response :=
  match r.body with
  | .createKey name owner team roles adminScopes allowModels denyModels expiresAt =>
    match validateVocabulary roles adminScopes with
    | some refusal => (keys, refusal)
    | none =>
      match parseExpiresAt r.now expiresAt with
      | none => (keys, badRequest "expires_at must be a unix timestamp in the future")
      | some expiresAt =>
        let perms : Permissions :=
          { roles, adminScopes, allowModels, denyModels, owner, team, expiresAt, createdBy := actor.id }
        match createWithPermissions keys r.now r.entropy name perms with
        | .error _ => (keys, errorResponse 500 "internal_error" "could not create key")
        | .ok (keys, token, key) => (keys, ⟨201, .created token key⟩)
  | _ => (keys, badRequest "malformed request body")

def handleAdminListKeys (keys : KeyStore) : Response :=
  ⟨200, .keyList ((keys.entries.map fun e ↦ e.2).mergeSort fun a b ↦ decide (a.id ≤ b.id))⟩

def handleAdminGetKey (r : Request) (keys : KeyStore) : Response :=
  match keys.lookup r.id with
  | none => writeAdminKeyError .notFound
  | some key => ⟨200, .keyView key⟩

def handleAdminRevokeKey (r : Request) (keys : KeyStore) : KeyStore × Response :=
  match revoke keys r.now r.id with
  | .error e => (keys, writeAdminKeyError e)
  | .ok keys => (keys, ⟨204, .empty⟩)

def handleAdminRotateKey (r : Request) (keys : KeyStore) : KeyStore × Response :=
  match rotate keys r.entropy r.id with
  | .error e => (keys, writeAdminKeyError e)
  | .ok (keys, token) => (keys, ⟨200, .rotated r.id token⟩)

def handleAdminSetPermissions (r : Request) (keys : KeyStore) : KeyStore × Response :=
  match r.body with
  | .permissions roles adminScopes allowModels denyModels =>
    match validateVocabulary roles adminScopes with
    | some refusal => (keys, refusal)
    | none =>
      match setPermissions keys r.id { roles, adminScopes, allowModels, denyModels } with
      | .error e => (keys, writeAdminKeyError e)
      | .ok (keys, key) => (keys, ⟨200, .keyView key⟩)
  | _ => (keys, badRequest "malformed request body")

/-- All fields omitted clears the override; otherwise an omitted one is unlimited. -/
def quotaLimits (rpm tpm dailyTokens monthlyTokens : Option UInt64) : Option Quota.Limits :=
  if rpm.isNone ∧ tpm.isNone ∧ dailyTokens.isNone ∧ monthlyTokens.isNone then none
  else some ⟨rpm.getD 0, tpm.getD 0, dailyTokens.getD 0, monthlyTokens.getD 0⟩

def handleAdminSetQuota (r : Request) (keys : KeyStore) : KeyStore × Response :=
  match r.body with
  | .quota rpm tpm dailyTokens monthlyTokens =>
    match setLimits keys r.id (quotaLimits rpm tpm dailyTokens monthlyTokens) with
    | .error e => (keys, writeAdminKeyError e)
    | .ok (keys, key) => (keys, ⟨200, .keyView key⟩)
  | _ => (keys, badRequest "malformed request body")

/-- The handler behind a route's gates. The handlers of the other resources neither write
the key store nor put a token in their response. -/
def handle (actor : APIKey) (r : Request) (keys : KeyStore) : KeyStore × Response :=
  match r.route with
  | .createKey => handleAdminCreateKey actor r keys
  | .listKeys => (keys, handleAdminListKeys keys)
  | .getKey => (keys, handleAdminGetKey r keys)
  | .revokeKey => handleAdminRevokeKey r keys
  | .rotateKey => handleAdminRotateKey r keys
  | .setPermissions => handleAdminSetPermissions r keys
  | .setQuota => handleAdminSetQuota r keys
  | _ => (keys, ⟨200, .resource⟩)

structure Api where
  keys : KeyStore := ∅
  cache : IdempotencyCache := {}

/-- One request through `authMiddleware`, the route's gate, the idempotency layer of a write
route and the handler. The flag says whether the route's gates were passed. -/
def serve (api : Api) (r : Request) : Api × Response × Bool :=
  match authenticate api.keys r.now r.token with
  | .error _ => (api, errorResponse 401 "unauthorized" "invalid api key", false)
  | .ok (keys, actor) =>
    if r.route.gate.admits actor then
      match r.route.gate with
      | .write _ =>
        let (cache, keys, response) := idempotent api.cache r.now actor.id r.route.method
          (r.route.path r.id r.model) r.idempotencyKey keys (handle actor r)
        (⟨keys, cache⟩, response, true)
      | _ =>
        let (keys, response) := handle actor r keys
        ({ api with keys := keys }, response, true)
    else ({ api with keys := keys }, r.route.gate.refusal, false)

def serveAll (api : Api) (requests : List Request) : Api :=
  requests.foldl (fun api r ↦ (serve api r).1) api

structure Actor where
  held : List String
  passed : List Route := []

def Actor.send (st : Api × Actor) (r : Request) : Api × Actor :=
  if r.token ∈ st.2.held then
    let (api, response, passed) := serve st.1 r
    (api, ⟨st.2.held ++ response.tokens, if passed then r.route :: st.2.passed else st.2.passed⟩)
  else st

def Actor.run (st : Api × Actor) (requests : List Request) : Api × Actor := requests.foldl send st

end AgentGpu.HttpApi
