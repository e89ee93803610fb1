import AgentGpu.Auth.Scopes

namespace AgentGpu.Auth

/-- `ModelScopeAll` and `ModelScopeAllowListed`. -/
inductive ModelScope
  | all
  | allowListed
  deriving DecidableEq

structure RoleInfo where
  name : String
  description : String
  inferenceActions : List String
  modelScope : ModelScope
  grantsAllAdminScopes : Bool
  deriving DecidableEq

def RoleInfo.all : List RoleInfo :=
  [⟨roleAdmin,
      "Superuser: every inference action on every model (ignoring allow/deny) and every admin scope.",
      [Action.op .pull, Action.op .load, Action.op .infer], .all, true⟩,
    ⟨roleUser, "Pull, load, and infer, but only on allow-listed models (deny-list wins).",
      [Action.op .pull, Action.op .load, Action.op .infer], .allowListed, false⟩,
    ⟨roleReadOnly, "Infer only (never pull or load), on allow-listed models (deny-list wins).",
      [Action.op .infer], .allowListed, false⟩]

/-- The scope, by its documentation: `all` ignores both lists, `allowListed` needs a model that
is allowed and not denied. -/
def ModelScope.Covers (key : APIKey) (model : String) : ModelScope → Prop
  | .all => True
  | .allowListed => model ∈ key.allowModels ∧ model ∉ key.denyModels

def Granted (key : APIKey) (model : String) (action : Action) : Prop :=
  ∃ role ∈ RoleInfo.all, role.name ∈ key.roles ∧ action.op ∈ role.inferenceActions ∧
    role.modelScope.Covers key model

variable {key : APIKey} {model : String} {action : Action}

theorem granted_iff : Granted key model action ↔
    roleAdmin ∈ key.roles ∨ (model ∈ key.allowModels ∧ model ∉ key.denyModels) ∧
      (roleUser ∈ key.roles ∨ roleReadOnly ∈ key.roles ∧ action = .infer) := by
  have hall : action.op ∈ [Action.op .pull, Action.op .load, Action.op .infer] := by
    cases action <;> decide
  have hinfer : action.op ∈ [Action.op .infer] ↔ action = .infer := by
    cases action <;> decide
  simp only [Granted, RoleInfo.all, List.mem_cons, List.not_mem_nil, or_false, exists_eq_or_imp,
    exists_eq_left, ModelScope.Covers] at hall hinfer ⊢
  grind

theorem allowed_decide_iff : (action.decide key model).allowed ↔
    model ∉ key.denyModels ∧ (roleAdmin ∈ key.roles ∨
      (roleReadOnly ∈ key.roles → action = .infer) ∧ model ∈ key.allowModels ∧
        (roleUser ∈ key.roles ∨ roleReadOnly ∈ key.roles)) := by
  have haction : action = .pull ∨ action = .load ↔ action ≠ .infer := by
    cases action <;> decide
  simp only [Action.decide, List.contains_iff_mem, haction]
  split_ifs <;> grind

/-- The table and the ladder of `decide` agree unless a denied model meets the admin role, or
both other roles meet an action that one of them forbids. -/
theorem decide_mirrors_roles_iff (key : APIKey) (model : String) (action : Action) :
    ((action.decide key model).allowed ↔ Granted key model action) ↔
      (roleAdmin ∈ key.roles → model ∉ key.denyModels) ∧
      (roleAdmin ∉ key.roles → roleUser ∈ key.roles → roleReadOnly ∈ key.roles →
        model ∈ key.allowModels → model ∉ key.denyModels → action = .infer) := by
  rw [allowed_decide_iff, granted_iff]
  grind

theorem admin_denied_listed_model :
    let key : APIKey :=
      { id := "a1", secretHash := [], salt := [], createdAt := 0, roles := [roleAdmin],
        denyModels := ["m"] }
    (Action.decide .infer key "m").allowed = false ∧ Granted key "m" .infer :=
  ⟨by decide, granted_iff.mpr (.inl (by decide))⟩

end AgentGpu.Auth
