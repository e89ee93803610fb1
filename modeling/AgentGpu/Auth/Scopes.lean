import AgentGpu.Auth.Service

namespace AgentGpu.Auth

def roleAdmin : String := "admin"

def roleUser : String := "user"

def roleReadOnly : String := "read-only"

def allRoles : List String := [roleAdmin, roleUser, roleReadOnly]

def validRole (name : String) : Bool := allRoles.contains name

def scopeConfigRead : String := "config:read"

def scopeConfigWrite : String := "config:write"

def scopeWorkersRead : String := "workers:read"

def scopeWorkersWrite : String := "workers:write"

def scopeModelsRead : String := "models:read"

def scopeModelsWrite : String := "models:write"

def scopeKeysRead : String := "keys:read"

def scopeKeysWrite : String := "keys:write"

def scopeLogsRead : String := "logs:read"

def scopeLogsWrite : String := "logs:write"

def scopeTelemetryRead : String := "telemetry:read"

def scopeTelemetryWrite : String := "telemetry:write"

def scopeAuditRead : String := "audit:read"

def scopeAuditWrite : String := "audit:write"

def allScopes : List String :=
  [scopeConfigRead, scopeConfigWrite, scopeWorkersRead, scopeWorkersWrite, scopeModelsRead,
    scopeModelsWrite, scopeKeysRead, scopeKeysWrite, scopeLogsRead, scopeLogsWrite,
    scopeTelemetryRead, scopeTelemetryWrite, scopeAuditRead, scopeAuditWrite]

def validScope (scope : String) : Bool := allScopes.contains scope

/-- The admin role holds every scope; any other key must list the scope itself. -/
def hasScope (key : APIKey) (scope : String) : Bool :=
  if key.roles.contains roleAdmin then true else key.adminScopes.contains scope

theorem hasScope_of_not_admin {key : APIKey} {scope : String} (hrole : roleAdmin ∉ key.roles)
    (h : hasScope key scope) : scope ∈ key.adminScopes := by
  simpa [hasScope, hrole] using h

inductive Action
  | pull
  | load
  | infer
  deriving DecidableEq

def Action.op : Action → String
  | .pull => "pull"
  | .load => "load"
  | .infer => "infer"

structure Decision where
  role : String := ""
  reason : String
  allowed : Bool

/-- The precedence ladder of `authz`: a deny-list entry wins over every role. -/
def Action.decide (action : Action) (key : APIKey) (model : String) : Decision :=
  if key.denyModels.contains model then ⟨"", "model in deny-list", false⟩
  else if key.roles.contains roleAdmin then ⟨roleAdmin, "role admin", true⟩
  else if key.roles.contains roleReadOnly ∧ (action = .pull ∨ action = .load) then
    ⟨roleReadOnly, "role read-only forbids " ++ action.op, false⟩
  else if key.allowModels.contains model then
    if key.roles.contains roleUser then ⟨roleUser, "model in allow-list (role user)", true⟩
    else if key.roles.contains roleReadOnly then
      ⟨roleReadOnly, "model in allow-list (role read-only)", true⟩
    else ⟨"", "model in allow-list but no granting role", false⟩
  else ⟨"", "deny by default", false⟩

end AgentGpu.Auth
