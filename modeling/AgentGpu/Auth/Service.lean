import AgentGpu.Foundation.Sha256
import AgentGpu.Foundation.Tables
import AgentGpu.Quota.Counters
import Mathlib.Data.List.GetD

namespace AgentGpu.Auth

open Foundation

structure APIKey where
  id : String
  name : String := ""
  keyPrefix : String := "agpu"
  secretHash : List UInt8
  salt : List UInt8
  createdAt : Time
  lastUsedAt : Time := zeroTime
  usageCount : UInt64 := 0
  revokedAt : Option Time := none
  owner : String := ""
  team : String := ""
  expiresAt : Option Time := none
  createdBy : String := ""
  roles : List String := []
  adminScopes : List String := []
  allowModels : List String := []
  denyModels : List String := []
  limits : Option Quota.Limits := none
  deriving DecidableEq

namespace APIKey

def revoked (k : APIKey) : Bool := k.revokedAt.isSome

def expired (k : APIKey) (now : Time) : Bool := k.expiresAt.any (now > ·)

end APIKey

abbrev KeyStore := Table String APIKey

inductive AuthError
  | unauthenticated
  | notFound
  | entropy
  deriving DecidableEq

def tokenNamespace : String := "agpu"

def hexDigit (n : UInt8) : Char := "0123456789abcdef".toList.getD n.toNat '0'

def hexEncode (bytes : List UInt8) : String :=
  String.ofList (bytes.flatMap fun b ↦ [hexDigit (b / 16), hexDigit (b % 16)])

theorem hexDigit_mem (n : UInt8) : hexDigit n ∈ "0123456789abcdef".toList := by
  by_cases h : n.toNat < "0123456789abcdef".toList.length
  · rw [hexDigit, List.getD_eq_getElem _ _ h]
    exact List.getElem_mem h
  · rw [hexDigit, List.getD_eq_default _ _ (Nat.le_of_not_lt h)]
    decide

theorem mem_hexEncode {bytes : List UInt8} {c : Char} (h : c ∈ (hexEncode bytes).toList) :
    c ∈ "0123456789abcdef".toList := by
  simp only [hexEncode, String.toList_ofList, List.mem_flatMap, List.mem_cons, List.not_mem_nil,
    or_false] at h
  obtain ⟨b, -, rfl | rfl⟩ := h
  · exact hexDigit_mem _
  · exact hexDigit_mem _

def hashSecret (salt : List UInt8) (secret : String) : List UInt8 :=
  Sha256.sum256 (salt ++ secret.toUTF8.toList)

def formatToken (id secret : String) : String := tokenNamespace ++ "_" ++ id ++ "_" ++ secret

/-- `strings.SplitN(token, "_", 3)`, with the checks on its three parts. -/
def parseToken (token : String) : Option (String × String) :=
  let (first, rest) := token.toList.span (· ≠ '_')
  let (second, rest') := rest.tail.span (· ≠ '_')
  if rest.isEmpty ∨ rest'.isEmpty then none
  else
    let id := String.ofList second
    let secret := String.ofList rest'.tail
    if String.ofList first ≠ tokenNamespace ∨ id = "" ∨ secret = "" then none else some (id, secret)

structure Entropy where
  id : Option (List UInt8) := none
  secret : Option (List UInt8) := none
  salt : Option (List UInt8) := none

structure Minted where
  secret : String
  salt : List UInt8
  hash : List UInt8

def mintSecret (r : Entropy) : Except AuthError Minted :=
  match r.secret, r.salt with
  | some secret, some salt =>
    let secret := hexEncode secret
    .ok ⟨secret, salt, hashSecret salt secret⟩
  | _, _ => .error .entropy

def mint (r : Entropy) : Except AuthError (String × Minted) :=
  match r.id with
  | none => .error .entropy
  | some id =>
    match mintSecret r with
    | .error e => .error e
    | .ok minted => .ok (hexEncode id, minted)

structure Permissions where
  roles : List String := []
  adminScopes : List String := []
  allowModels : List String := []
  denyModels : List String := []
  owner : String := ""
  team : String := ""
  expiresAt : Option Time := none
  createdBy : String := ""

namespace KeyStore

def put (keys : KeyStore) (k : APIKey) : KeyStore := keys.insert k.id k

theorem lookup_put (keys : KeyStore) (k : APIKey) (id : String) :
    (keys.put k).lookup id = if id = k.id then some k else keys.lookup id := by
  by_cases h : id = k.id
  · subst h
    rw [if_pos rfl]
    exact AList.lookup_insert _
  · rw [if_neg h]
    exact AList.lookup_insert_ne h

end KeyStore

def createWithPermissions (keys : KeyStore) (now : Time) (r : Entropy) (name : String)
    (perms : Permissions) : Except AuthError (KeyStore × String × APIKey) :=
  match mint r with
  | .error e => .error e
  | .ok (id, minted) =>
    let key : APIKey :=
      { id, name, secretHash := minted.hash, salt := minted.salt, createdAt := now
        owner := perms.owner, team := perms.team, createdBy := perms.createdBy, roles := perms.roles
        adminScopes := perms.adminScopes, allowModels := perms.allowModels
        denyModels := perms.denyModels, expiresAt := perms.expiresAt }
    .ok (keys.put key, formatToken id minted.secret, key)

def revoke (keys : KeyStore) (now : Time) (id : String) : Except AuthError KeyStore :=
  match keys.lookup id with
  | none => .error .notFound
  | some k => if k.revoked then .ok keys else .ok (keys.put { k with revokedAt := some now })

def setPermissions (keys : KeyStore) (id : String) (perms : Permissions) :
    Except AuthError (KeyStore × APIKey) :=
  match keys.lookup id with
  | none => .error .notFound
  | some k =>
    let k := { k with
      roles := perms.roles
      adminScopes := perms.adminScopes
      allowModels := perms.allowModels
      denyModels := perms.denyModels }
    .ok (keys.put k, k)

def setLimits (keys : KeyStore) (id : String) (limits : Option Quota.Limits) :
    Except AuthError (KeyStore × APIKey) :=
  match keys.lookup id with
  | none => .error .notFound
  | some k =>
    let k := { k with limits := limits }
    .ok (keys.put k, k)

def rotate (keys : KeyStore) (r : Entropy) (id : String) : Except AuthError (KeyStore × String) :=
  match keys.lookup id with
  | none => .error .notFound
  | some k =>
    if k.revoked then .error .unauthenticated
    else
      match mintSecret r with
      | .error e => .error e
      | .ok minted =>
        .ok (keys.put { k with secretHash := minted.hash, salt := minted.salt },
          formatToken id minted.secret)

def authenticate (keys : KeyStore) (now : Time) (token : String) :
    Except AuthError (KeyStore × APIKey) :=
  match parseToken token with
  | none => .error .unauthenticated
  | some (id, secret) =>
    match keys.lookup id with
    | none => .error .unauthenticated
    | some k =>
      if k.secretHash ≠ hashSecret k.salt secret then .error .unauthenticated
      else if k.revoked then .error .unauthenticated
      else if k.expired now then .error .unauthenticated
      else
        let k := { k with usageCount := k.usageCount + 1, lastUsedAt := now }
        .ok (keys.put k, k)

/-- What a call does to the store: nothing, or one record written under the id of a stored
key or under a freshly minted id. -/
inductive Updates (keys : KeyStore) : KeyStore → Prop
  | unchanged : Updates keys keys
  | rewritten {id : String} {k k' : APIKey} (hl : keys.lookup id = some k) (hid : k'.id = k.id) :
      Updates keys (keys.put k')
  | minted {k : APIKey} {bytes : List UInt8} (hid : k.id = hexEncode bytes) : Updates keys (keys.put k)

section Updates

variable {keys keys' : KeyStore} {now : Time} {r : Entropy} {id token name : String} {k : APIKey}
  {perms : Permissions} {limits : Option Quota.Limits}

theorem create_updates (h : createWithPermissions keys now r name perms = .ok (keys', token, k)) :
    Updates keys keys' := by
  unfold createWithPermissions mint at h
  split at h
  · cases h
  · next hm =>
    cases h
    split at hm
    · cases hm
    · split at hm <;> cases hm
      exact .minted rfl

theorem revoke_updates (h : revoke keys now id = .ok keys') : Updates keys keys' := by
  unfold revoke at h
  split at h
  · cases h
  · next k hl =>
    split_ifs at h <;> cases h
    · exact .unchanged
    · exact .rewritten hl rfl

theorem setPermissions_updates (h : setPermissions keys id perms = .ok (keys', k)) :
    Updates keys keys' := by
  unfold setPermissions at h
  split at h <;> cases h
  next k hl => exact .rewritten hl rfl

theorem setLimits_updates (h : setLimits keys id limits = .ok (keys', k)) : Updates keys keys' := by
  unfold setLimits at h
  split at h <;> cases h
  next k hl => exact .rewritten hl rfl

theorem rotate_updates (h : rotate keys r id = .ok (keys', token)) : Updates keys keys' := by
  unfold rotate at h
  split at h
  · cases h
  · next k hl =>
    split_ifs at h
    split at h <;> cases h
    exact .rewritten hl rfl

theorem authenticate_ok (h : authenticate keys now token = .ok (keys', k)) :
    ∃ id secret k₀, parseToken token = some (id, secret) ∧ keys.lookup id = some k₀ ∧
      k = { k₀ with usageCount := k₀.usageCount + 1, lastUsedAt := now } ∧ keys' = keys.put k := by
  unfold authenticate at h
  split at h
  · cases h
  · next id secret hparse =>
    split at h
    · cases h
    · next k₀ hl =>
      split_ifs at h
      cases h
      exact ⟨id, secret, k₀, hparse, hl, rfl, rfl⟩

end Updates

end AgentGpu.Auth
