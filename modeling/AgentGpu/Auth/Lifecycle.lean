import AgentGpu.Auth.Service
import Mathlib.Data.List.Induction
import Mathlib.Data.List.TakeDrop

namespace AgentGpu.Auth

open Foundation

section Tokens

variable {id secret : String}

def Part (s : String) : Prop := s ≠ "" ∧ '_' ∉ s.toList

theorem part_hexEncode {bytes : List UInt8} (h : bytes ≠ []) : Part (hexEncode bytes) := by
  constructor
  · intro hempty
    obtain ⟨b, rest, rfl⟩ := List.exists_cons_of_ne_nil h
    have hlist := congrArg String.toList hempty
    simp [hexEncode] at hlist
  · intro hmem
    have hdigit : '_' ∉ "0123456789abcdef".toList := by decide
    exact hdigit (mem_hexEncode hmem)

theorem span_append {l rest : List Char} (h : '_' ∉ l) :
    (l ++ '_' :: rest).span (· ≠ '_') = (l, '_' :: rest) := by
  have hpos : ∀ c ∈ l, decide (c ≠ '_') = true := by
    intro c hc
    exact decide_eq_true fun heq ↦ h (heq ▸ hc)
  rw [List.span_eq_takeWhile_dropWhile, List.takeWhile_append_of_pos hpos,
    List.dropWhile_append_of_pos hpos]
  simp

theorem eq_append_of_span {l first rest : List Char} (h : l.span (· ≠ '_') = (first, rest))
    (hrest : rest ≠ []) : l = first ++ '_' :: rest.tail := by
  rw [List.span_eq_takeWhile_dropWhile] at h
  obtain ⟨rfl, rfl⟩ := Prod.mk.inj h
  have hhead := List.head_dropWhile_not (fun c : Char ↦ decide (c ≠ '_')) hrest
  have hsep : (l.dropWhile (fun c ↦ decide (c ≠ '_'))).head hrest = '_' := by simpa using hhead
  calc l = l.takeWhile (· ≠ '_') ++ l.dropWhile (· ≠ '_') := List.takeWhile_append_dropWhile.symm
    _ = _ := by rw [← List.cons_head_tail hrest, hsep, List.tail_cons]

theorem formatToken_toList (id secret : String) : (formatToken id secret).toList =
    tokenNamespace.toList ++ '_' :: (id.toList ++ '_' :: secret.toList) := by
  simp [formatToken]

theorem parseToken_formatToken (hid : Part id) (hsecret : secret ≠ "") :
    parseToken (formatToken id secret) = some (id, secret) := by
  have hfirst : '_' ∉ tokenNamespace.toList := by decide
  simp only [parseToken, formatToken_toList, span_append hfirst, List.tail_cons,
    span_append hid.2]
  simp [hid.1, hsecret]

theorem formatToken_of_parseToken {token : String} (h : parseToken token = some (id, secret)) :
    token = formatToken id secret := by
  rcases hfirst : token.toList.span (· ≠ '_') with ⟨first, rest⟩
  rcases hsecond : rest.tail.span (· ≠ '_') with ⟨second, rest'⟩
  simp only [parseToken, hfirst, hsecond, List.isEmpty_iff] at h
  split_ifs at h with hparts hvalues
  rw [not_or] at hparts
  obtain ⟨rfl, rfl⟩ := Prod.mk.inj (Option.some.inj h)
  have hnamespace : String.ofList first = tokenNamespace := not_not.mp (not_or.mp hvalues).1
  apply String.toList_injective
  rw [formatToken_toList, eq_append_of_span hfirst hparts.1, eq_append_of_span hsecond hparts.2,
    ← hnamespace, String.toList_ofList, String.toList_ofList, String.toList_ofList]

end Tokens

def keyIDBytes : ℕ := 8
def secretBytes : ℕ := 32
def saltBytes : ℕ := 32

/-- What one call draws from the entropy source. Where `randBytes` succeeds it returns as
many bytes as it is asked for. -/
structure Draws extends Entropy where
  id_length : ∀ bytes ∈ id, bytes.length = keyIDBytes := by decide
  secret_length : ∀ bytes ∈ secret, bytes.length = secretBytes := by decide
  salt_length : ∀ bytes ∈ salt, bytes.length = saltBytes := by decide

inductive Op
  | create (now : Time) (draws : Draws) (name : String) (perms : Permissions)
  | setPermissions (id : String) (perms : Permissions)
  | setLimits (id : String) (limits : Option Quota.Limits)
  | rotate (draws : Draws) (id : String)
  | revoke (now : Time) (id : String)
  | authenticate (now : Time) (token : String)

inductive Event
  | created (id token : String) (expiresAt : Option Time)
  | rotated (id token : String)
  | revoked (id : String)
  | authenticated (id : String)
  deriving DecidableEq

namespace Op

def mintedID? : Op → Option String
  | .create _ draws _ _ => draws.id.map hexEncode
  | _ => none

def minted? : Op → Option Minted
  | .create _ draws _ _ | .rotate draws _ => (mintSecret draws.toEntropy).toOption
  | _ => none

def target? : Op → Option String
  | .setPermissions id _ | .setLimits id _ | .rotate _ id | .revoke _ id => some id
  | .authenticate _ token => (parseToken token).map Prod.fst
  | op => op.mintedID?

def others (k : APIKey) : Op → APIKey
  | .create .. => k
  | .setPermissions .. => { k with roles := [], adminScopes := [], allowModels := [], denyModels := [] }
  | .setLimits .. => { k with limits := none }
  | .rotate .. => { k with secretHash := [], salt := [] }
  | .revoke .. => { k with revokedAt := none }
  | .authenticate .. => { k with usageCount := 0, lastUsedAt := zeroTime }

end Op

def perform (keys : KeyStore) : Op → Except AuthError (KeyStore × Option Event)
  | .create now draws name perms =>
    match createWithPermissions keys now draws.toEntropy name perms with
    | .error e => .error e
    | .ok (keys, token, k) => .ok (keys, some (.created k.id token perms.expiresAt))
  | .setPermissions id perms =>
    match setPermissions keys id perms with
    | .error e => .error e
    | .ok (keys, _) => .ok (keys, none)
  | .setLimits id limits =>
    match setLimits keys id limits with
    | .error e => .error e
    | .ok (keys, _) => .ok (keys, none)
  | .rotate draws id =>
    match rotate keys draws.toEntropy id with
    | .error e => .error e
    | .ok (keys, token) => .ok (keys, some (.rotated id token))
  | .revoke now id =>
    match revoke keys now id with
    | .error e => .error e
    | .ok keys => .ok (keys, some (.revoked id))
  | .authenticate now token =>
    match authenticate keys now token with
    | .error e => .error e
    | .ok (keys, k) => .ok (keys, some (.authenticated k.id))

inductive Performed (keys : KeyStore) : Op → KeyStore → Option Event → Prop
  | create {now : Time} {draws : Draws} {name id : String} {perms : Permissions} {m : Minted}
      (hmint : mint draws.toEntropy = .ok (id, m)) :
      Performed keys (.create now draws name perms)
        (keys.put
          { id, name, secretHash := m.hash, salt := m.salt, createdAt := now
            owner := perms.owner, team := perms.team, createdBy := perms.createdBy
            roles := perms.roles, adminScopes := perms.adminScopes
            allowModels := perms.allowModels, denyModels := perms.denyModels
            expiresAt := perms.expiresAt })
        (some (.created id (formatToken id m.secret) perms.expiresAt))
  | setPermissions {id : String} {k : APIKey} {perms : Permissions} (hl : keys.lookup id = some k) :
      Performed keys (.setPermissions id perms)
        (keys.put { k with
          roles := perms.roles
          adminScopes := perms.adminScopes
          allowModels := perms.allowModels
          denyModels := perms.denyModels }) none
  | setLimits {id : String} {k : APIKey} {limits : Option Quota.Limits}
      (hl : keys.lookup id = some k) :
      Performed keys (.setLimits id limits) (keys.put { k with limits := limits }) none
  | rotate {draws : Draws} {id : String} {k : APIKey} {m : Minted} (hl : keys.lookup id = some k)
      (hmint : mintSecret draws.toEntropy = .ok m) :
      Performed keys (.rotate draws id) (keys.put { k with secretHash := m.hash, salt := m.salt })
        (some (.rotated id (formatToken id m.secret)))
  | revokeAgain {now : Time} {id : String} {k : APIKey} (hl : keys.lookup id = some k)
      (hrevoked : k.revoked) : Performed keys (.revoke now id) keys (some (.revoked id))
  | revoke {now : Time} {id : String} {k : APIKey} (hl : keys.lookup id = some k)
      (hrevoked : ¬ k.revoked) :
      Performed keys (.revoke now id) (keys.put { k with revokedAt := some now })
        (some (.revoked id))
  | authenticate {now : Time} {token id secret : String} {k : APIKey}
      (hparse : parseToken token = some (id, secret)) (hl : keys.lookup id = some k) :
      Performed keys (.authenticate now token)
        (keys.put { k with usageCount := k.usageCount + 1, lastUsedAt := now })
        (some (.authenticated k.id))

variable {keys keys' : KeyStore} {op : Op} {event : Option Event}

theorem performed_of_perform (h : perform keys op = .ok (keys', event)) :
    Performed keys op keys' event := by
  cases op with
  | create now draws name perms =>
    simp only [perform, createWithPermissions] at h
    cases hmint : mint draws.toEntropy with
    | error e => simp [hmint] at h
    | ok v =>
      rw [hmint] at h
      cases h
      exact .create hmint
  | setPermissions id perms =>
    simp only [perform, setPermissions] at h
    cases hl : keys.lookup id with
    | none => simp [hl] at h
    | some k =>
      rw [hl] at h
      cases h
      exact .setPermissions hl
  | setLimits id limits =>
    simp only [perform, setLimits] at h
    cases hl : keys.lookup id with
    | none => simp [hl] at h
    | some k =>
      rw [hl] at h
      cases h
      exact .setLimits hl
  | rotate draws id =>
    simp only [perform, rotate] at h
    cases hl : keys.lookup id with
    | none => simp [hl] at h
    | some k =>
      cases hmint : mintSecret draws.toEntropy with
      | error e => by_cases hrevoked : k.revoked <;> simp [hl, hmint, hrevoked] at h
      | ok m =>
        by_cases hrevoked : k.revoked
        · simp [hl, hrevoked] at h
        · simp only [hl, hmint, hrevoked] at h
          cases h
          exact .rotate hl hmint
  | revoke now id =>
    simp only [perform, revoke] at h
    cases hl : keys.lookup id with
    | none => simp [hl] at h
    | some k =>
      by_cases hrevoked : k.revoked
      · simp only [hl, hrevoked] at h
        cases h
        exact .revokeAgain hl hrevoked
      · simp only [hl, hrevoked] at h
        cases h
        exact .revoke hl hrevoked
  | authenticate now token =>
    simp only [perform] at h
    cases hauth : authenticate keys now token with
    | error e => simp [hauth] at h
    | ok v =>
      rw [hauth] at h
      cases h
      obtain ⟨id, secret, k, hparse, hl, hk, hkeys⟩ := authenticate_ok hauth
      rw [hkeys, hk]
      exact .authenticate hparse hl

namespace Event

def id : Event → String
  | .created id _ _ | .rotated id _ | .revoked id | .authenticated id => id

def token? (id : String) : Event → Option String
  | .created k token _ | .rotated k token => if k = id then some token else none
  | _ => none

def expiry? (id : String) : Event → Option (Option Time)
  | .created k _ expiresAt => if k = id then some expiresAt else none
  | _ => none

theorem token?_of_ne {e : Event} {id : String} (h : e.id ≠ id) : e.token? id = none := by
  cases e <;> first | exact if_neg h | rfl

theorem expiry?_of_ne {e : Event} {id : String} (h : e.id ≠ id) : e.expiry? id = none := by
  cases e <;> first | exact if_neg h | rfl

end Event

/-- The token of `id` that was issued last; `log` is kept newest first. -/
def latestToken (log : List Event) (id : String) : Option String := log.findSome? (·.token? id)

def expiry (log : List Event) (id : String) : Option Time := (log.findSome? (·.expiry? id)).join

def uses (log : List Event) (id : String) : ℕ := log.count (.authenticated id)

structure Service where
  keys : KeyStore := ∅
  log : List Event := []

namespace Service

def apply (s : Service) (op : Op) : Service :=
  match perform s.keys op with
  | .error _ => s
  | .ok (keys, event) => ⟨keys, event.toList ++ s.log⟩

def run (ops : List Op) : Service := ops.foldl apply {}

end Service

structure Describes (ops : List Op) (log : List Event) (id : String) (k : APIKey) : Prop where
  id_eq : k.id = id
  part : Part id
  born : id ∈ ops.filterMap Op.mintedID?
  issued : ∃ op ∈ ops, ∃ m ∈ op.minted?, latestToken log id = some (formatToken id m.secret) ∧
    k.salt = m.salt ∧ k.secretHash = m.hash
  revoked : k.revoked ↔ Event.revoked id ∈ log
  expires : k.expiresAt = expiry log id
  used : k.usageCount = UInt64.ofNat (uses log id)

structure Explained (ops : List Op) (s : Service) : Prop where
  stored : ∀ id k, s.keys.lookup id = some k → Describes ops s.log id k
  absent : ∀ e ∈ s.log, ∃ k, s.keys.lookup e.id = some k

section Explained

variable {ops : List Op} {s : Service} {log : List Event} {id : String} {k : APIKey} {e : Event}

theorem Describes.mono (h : Describes ops log id k) (op : Op) :
    Describes (ops ++ [op]) log id k := by
  obtain ⟨o, ho, hissued⟩ := h.issued
  refine { h with born := ?_, issued := ⟨o, List.mem_append_left _ ho, hissued⟩ }
  rw [List.filterMap_append]
  exact List.mem_append_left _ h.born

theorem Describes.note (h : Describes ops log id k) {k' : APIKey} (hid : k'.id = k.id)
    (htoken : e.token? id = none) (hexpiry : e.expiry? id = none)
    (hsecret : k'.salt = k.salt ∧ k'.secretHash = k.secretHash)
    (hexpires : k'.expiresAt = k.expiresAt)
    (hrevoked : k'.revoked ↔ e = .revoked id ∨ k.revoked)
    (hused : k'.usageCount = k.usageCount + if e = .authenticated id then 1 else 0) :
    Describes ops (e :: log) id k' := by
  obtain ⟨op, hop, m, hm, hlatest, hsalt, hhash⟩ := h.issued
  refine ⟨hid.trans h.id_eq, h.part, h.born, ?_, ?_, ?_, ?_⟩
  · refine ⟨op, hop, m, hm, ?_, hsecret.1.trans hsalt, hsecret.2.trans hhash⟩
    simpa [latestToken, htoken] using hlatest
  · rw [hrevoked, h.revoked, List.mem_cons, eq_comm]
  · rw [hexpires, h.expires]
    simp [expiry, hexpiry]
  · rw [hused, h.used, uses, uses, List.count_cons, UInt64.ofNat_add]
    by_cases he : e = .authenticated id <;> simp [he]

theorem Describes.other (h : Describes ops log id k) (hne : e.id ≠ id) :
    Describes ops (e :: log) id k := by
  have hevent (e' : Event) (he' : e'.id = id) : e ≠ e' := fun heq ↦ hne (heq ▸ he')
  refine h.note rfl (Event.token?_of_ne hne) (Event.expiry?_of_ne hne) ⟨rfl, rfl⟩ rfl ?_ ?_
  · simp [hevent (.revoked id) rfl]
  · simp [hevent (.authenticated id) rfl]

theorem Explained.put (h : Explained ops s) (op : Op) {keys : KeyStore} {k : APIKey}
    {event : Option Event}
    (hkeys : ∀ id, keys.lookup id = if id = k.id then some k else s.keys.lookup id)
    (hevent : ∀ e ∈ event, e.id = k.id)
    (hk : Describes (ops ++ [op]) (event.toList ++ s.log) k.id k) :
    Explained (ops ++ [op]) ⟨keys, event.toList ++ s.log⟩ := by
  constructor
  · intro id k' hl
    rw [hkeys] at hl
    split_ifs at hl with hid
    · cases hl
      rwa [hid]
    · have hold := (h.stored id k' hl).mono op
      cases event with
      | none => exact hold
      | some e =>
        refine hold.other fun he ↦ hid ?_
        exact he.symm.trans (hevent e rfl)
  · intro e he
    show ∃ k', keys.lookup e.id = some k'
    rw [hkeys]
    split_ifs with hid
    · exact ⟨k, rfl⟩
    · rcases List.mem_append.mp he with he | he
      · exact absurd (hevent e (by simpa using he)) hid
      · exact h.absent e he

theorem minted_of_mint {r : Entropy} {m : Minted} (h : mint r = .ok (id, m)) :
    ∃ bytes, r.id = some bytes ∧ id = hexEncode bytes ∧ mintSecret r = .ok m := by
  unfold mint at h
  split at h
  · cases h
  · next bytes hid =>
    split at h
    · cases h
    · next m' hm =>
      cases h
      exact ⟨bytes, hid, rfl, hm⟩

theorem Explained.step (h : Explained ops s) {op : Op}
    (hfresh : ((ops ++ [op]).filterMap Op.mintedID?).Nodup) :
    Explained (ops ++ [op]) (s.apply op) := by
  have hkeep : Explained (ops ++ [op]) s := ⟨fun id k hl ↦ (h.stored id k hl).mono op, h.absent⟩
  have hlast : op ∈ ops ++ [op] := by simp
  unfold Service.apply
  split
  · exact hkeep
  next keys event hperform =>
  cases performed_of_perform hperform with
  | @create now draws name id perms m hmint =>
    obtain ⟨bytes, hbytes, rfl, hm⟩ := minted_of_mint hmint
    have hid : (Op.create now draws name perms).mintedID? = some (hexEncode bytes) := by
      simp [Op.mintedID?, hbytes]
    have hnew : hexEncode bytes ∉ ops.filterMap Op.mintedID? := by
      rw [List.filterMap_append] at hfresh
      intro hmem
      exact List.disjoint_of_nodup_append hfresh hmem (by simp [hid])
    have hnone : ∀ e ∈ s.log, e.id ≠ hexEncode bytes := by
      intro e he heq
      obtain ⟨k, hk⟩ := h.absent e he
      exact hnew (heq ▸ (h.stored _ k hk).born)
    have hpart : Part (hexEncode bytes) := by
      apply part_hexEncode
      intro hnil
      have hlength := draws.id_length bytes hbytes
      simp [hnil, keyIDBytes] at hlength
    refine h.put _ (KeyStore.lookup_put _ _) (by simp [Event.id]) ?_
    refine ⟨rfl, hpart, List.mem_filterMap.mpr ⟨_, hlast, hid⟩, ?_, ?_, ?_, ?_⟩
    · refine ⟨_, hlast, m, by simp [Op.minted?, hm, Except.toOption], ?_, rfl, rfl⟩
      simp [latestToken, Event.token?]
    · have hnot : Event.revoked (hexEncode bytes) ∉ s.log := fun he ↦ hnone _ he rfl
      simp [APIKey.revoked, hnot]
    · simp [expiry, Event.expiry?]
    · have hnot : Event.authenticated (hexEncode bytes) ∉ s.log := fun he ↦ hnone _ he rfl
      simp [uses, List.count_eq_zero_of_not_mem hnot]
  | @setPermissions id k _ hl | @setLimits id k _ hl =>
    have hk := hkeep.stored id k hl
    obtain rfl := hk.id_eq
    exact h.put _ (KeyStore.lookup_put _ _) (by simp) { hk with }
  | @rotate draws id k m hl hmint =>
    have hk := hkeep.stored id k hl
    obtain rfl := hk.id_eq
    refine h.put _ (KeyStore.lookup_put _ _) (by simp [Event.id])
      { hk with issued := ?_, revoked := ?_, expires := ?_, used := ?_ }
    · refine ⟨_, hlast, m, by simp [Op.minted?, hmint, Except.toOption], ?_, rfl, rfl⟩
      simp [latestToken, Event.token?]
    · simpa [APIKey.revoked] using hk.revoked
    · simpa [expiry, Event.expiry?] using hk.expires
    · simpa [uses] using hk.used
  | @revokeAgain now id k hl hrevoked =>
    have hk := hkeep.stored id k hl
    obtain rfl := hk.id_eq
    refine h.put _ (k := k) ?_ (by simp [Event.id])
      (hk.note rfl rfl rfl ⟨rfl, rfl⟩ rfl (by simp [hrevoked]) (by simp))
    intro id
    split_ifs with hid
    · rw [hid, hl]
    · rfl
  | @revoke _ id k hl | @authenticate _ _ id _ k _ hl =>
    have hk := hkeep.stored id k hl
    obtain rfl := hk.id_eq
    exact h.put _ (KeyStore.lookup_put _ _) (by simp [Event.id])
      (hk.note rfl rfl rfl ⟨rfl, rfl⟩ rfl (by simp [APIKey.revoked]) (by simp))

theorem explained_run (hfresh : (ops.filterMap Op.mintedID?).Nodup) :
    Explained ops (Service.run ops) := by
  induction ops using List.reverseRecOn with
  | nil => exact ⟨fun id k hl ↦ by simp [Service.run] at hl, by simp [Service.run]⟩
  | append_singleton ops op ih =>
    have hbefore : (ops.filterMap Op.mintedID?).Nodup := by
      rw [List.filterMap_append] at hfresh
      exact hfresh.of_append_left
    rw [Service.run, List.foldl_append]
    exact (ih hbefore).step hfresh

end Explained

theorem authenticate_isOk_iff {now : Time} {token : String} :
    (authenticate keys now token).isOk ↔ ∃ id secret k, parseToken token = some (id, secret) ∧
      keys.lookup id = some k ∧ k.secretHash = hashSecret k.salt secret ∧ ¬ k.revoked ∧
      ¬ k.expired now := by
  unfold authenticate
  cases hparse : parseToken token with
  | none => simp [Except.isOk, Except.toBool]
  | some parts =>
    obtain ⟨id, secret⟩ := parts
    cases hl : keys.lookup id with
    | none => simp [Except.isOk, Except.toBool, hl]
    | some k =>
      simp only [hl]
      split_ifs with hhash hrevoked hexpired <;> simp_all [Except.isOk, Except.toBool]

theorem minted_spec {op : Op} {m : Minted} (h : m ∈ op.minted?) :
    m.hash = hashSecret m.salt m.secret ∧ m.secret ≠ "" := by
  have hdraws (draws : Draws) (hm : m ∈ (mintSecret draws.toEntropy).toOption) :
      m.hash = hashSecret m.salt m.secret ∧ m.secret ≠ "" := by
    unfold mintSecret at hm
    split at hm
    · next secret salt hsecret hsalt =>
      obtain rfl : _ = m := by simpa [Except.toOption] using hm
      refine ⟨rfl, (part_hexEncode fun hnil ↦ ?_).1⟩
      have hlength := draws.secret_length secret hsecret
      simp [hnil, secretBytes] at hlength
    · simp [Except.toOption] at hm
  cases op with
  | create now draws name perms => exact hdraws draws h
  | rotate draws id => exact hdraws draws h
  | _ => simp [Op.minted?] at h

/-- The salted hash tells the secret in `token` from the other secrets that `ops` drew. -/
def Separates (ops : List Op) (token : String) : Prop :=
  ∀ op ∈ ops, ∀ m ∈ op.minted?, ∀ id secret, parseToken token = some (id, secret) →
    hashSecret m.salt secret = hashSecret m.salt m.secret → secret = m.secret

theorem Explained.accepts_iff {ops : List Op} {s : Service} (h : Explained ops s) {token : String}
    {now : Time} (hsep : Separates ops token) : (authenticate s.keys now token).isOk ↔
      ∃ id, latestToken s.log id = some token ∧ Event.revoked id ∉ s.log ∧
        ¬ (expiry s.log id).any (now > ·) := by
  rw [authenticate_isOk_iff]
  constructor
  · rintro ⟨id, secret, k, hparse, hl, hhash, hrevoked, hexpired⟩
    have hk := h.stored id k hl
    obtain ⟨op, hop, m, hm, hlatest, hsalt, hstored⟩ := hk.issued
    have hsecret : secret = m.secret := by
      apply hsep op hop m hm id secret hparse
      rw [← (minted_spec hm).1, ← hstored, ← hsalt, hhash]
    refine ⟨id, ?_, mt hk.revoked.mpr hrevoked, ?_⟩
    · rw [hlatest, ← hsecret, formatToken_of_parseToken hparse]
    · rwa [← hk.expires]
  · rintro ⟨id, hlatest, hrevoked, hexpired⟩
    obtain ⟨e, he, htoken⟩ := List.exists_of_findSome?_eq_some hlatest
    have heid : e.id = id := by
      by_contra hne
      simp [Event.token?_of_ne hne] at htoken
    obtain ⟨k, hl⟩ := h.absent e he
    rw [heid] at hl
    have hk := h.stored id k hl
    obtain ⟨op, hop, m, hm, hissued, hsalt, hstored⟩ := hk.issued
    obtain ⟨hhash, hne⟩ := minted_spec hm
    have hformat : token = formatToken id m.secret := Option.some.inj (hlatest.symm.trans hissued)
    refine ⟨id, m.secret, k, ?_, hl, ?_, mt hk.revoked.mp hrevoked, ?_⟩
    · rw [hformat, parseToken_formatToken hk.part hne]
    · rw [hstored, hsalt, hhash]
    · rwa [APIKey.expired, hk.expires]

section Frame

variable (hids : ∀ id k, keys.lookup id = some k → k.id = id)

include hids

theorem Performed.lookup_of_ne (hp : Performed keys op keys' event) {id : String}
    (hid : op.target? ≠ some id) : keys'.lookup id = keys.lookup id := by
  cases hp with
  | create hmint =>
    obtain ⟨bytes, hbytes, hk, -⟩ := minted_of_mint hmint
    rw [KeyStore.lookup_put, if_neg]
    intro heq
    exact hid (by simp [Op.target?, Op.mintedID?, hbytes, heq, hk])
  | setPermissions hl | setLimits hl | rotate hl _ | revoke hl _ =>
    rw [KeyStore.lookup_put, if_neg]
    intro heq
    exact hid (by simp [Op.target?, heq, hids _ _ hl])
  | revokeAgain => rfl
  | authenticate hparse hl =>
    rw [KeyStore.lookup_put, if_neg]
    intro heq
    exact hid (by simp [Op.target?, hparse, heq, hids _ _ hl])

theorem Performed.others_eq (hp : Performed keys op keys' event) {id : String} {k : APIKey}
    (hl : keys.lookup id = some k) (hnew : op.mintedID? ≠ some id) :
    ∃ k', keys'.lookup id = some k' ∧ op.others k' = op.others k := by
  by_cases hid : op.target? = some id
  · cases hp with
    | create => exact absurd hid hnew
    | setPermissions hl' | setLimits hl' | rotate hl' _ | revoke hl' _ =>
      obtain rfl := Option.some.inj hid
      obtain rfl := Option.some.inj (hl.symm.trans hl')
      exact ⟨_, (KeyStore.lookup_put ..).trans (if_pos (hids _ _ hl).symm), rfl⟩
    | revokeAgain => exact ⟨k, hl, rfl⟩
    | authenticate hparse hl' =>
      obtain rfl : _ = id := by simpa [Op.target?, hparse] using hid
      obtain rfl := Option.some.inj (hl.symm.trans hl')
      exact ⟨_, (KeyStore.lookup_put ..).trans (if_pos (hids _ _ hl).symm), rfl⟩
  · exact ⟨k, (hp.lookup_of_ne hids hid).trans hl, rfl⟩

end Frame

/-- After any calls, a token authenticates exactly when it is the one issued last for a key
that was never revoked and is not expired, and the stored count is the number of successful
authentications; the next call leaves other keys and the fields it does not own as they are. -/
theorem key_lifecycle (ops : List Op) (op : Op)
    (hfresh : ((ops ++ [op]).filterMap Op.mintedID?).Nodup) :
    let s := Service.run ops
    (∀ token now, Separates ops token → ((authenticate s.keys now token).isOk ↔
      ∃ id, latestToken s.log id = some token ∧ Event.revoked id ∉ s.log ∧
        ¬ (expiry s.log id).any (now > ·))) ∧
    (∀ id k, s.keys.lookup id = some k → k.usageCount = UInt64.ofNat (uses s.log id)) ∧
    (∀ id, op.target? ≠ some id → (s.apply op).keys.lookup id = s.keys.lookup id) ∧
    ∀ id k, s.keys.lookup id = some k →
      ∃ k', (s.apply op).keys.lookup id = some k' ∧ op.others k' = op.others k := by
  intro s
  rw [List.filterMap_append] at hfresh
  have hs : Explained ops s := explained_run hfresh.of_append_left
  have hids (id : String) (k : APIKey) (hl : s.keys.lookup id = some k) : k.id = id :=
    (hs.stored id k hl).id_eq
  refine ⟨fun token now hsep ↦ hs.accepts_iff hsep, fun id k hl ↦ (hs.stored id k hl).used, ?_⟩
  cases hperform : perform s.keys op with
  | error e =>
    have hsame : s.apply op = s := by simp [Service.apply, hperform]
    rw [hsame]
    exact ⟨fun _ _ ↦ rfl, fun id k hl ↦ ⟨k, hl, rfl⟩⟩
  | ok v =>
    have happly : (s.apply op).keys = v.1 := by simp [Service.apply, hperform]
    have hp := performed_of_perform hperform
    rw [happly]
    refine ⟨fun id hid ↦ hp.lookup_of_ne hids hid, fun id k hl ↦ hp.others_eq hids hl ?_⟩
    intro hnew
    exact List.disjoint_of_nodup_append hfresh (hs.stored id k hl).born (by simp [hnew])

def firstDraws : Draws where
  id := some (List.replicate 8 0)
  secret := some (List.replicate 32 1)
  salt := some (List.replicate 32 2)

def firstToken : String :=
  formatToken (hexEncode (List.replicate 8 0)) (hexEncode (List.replicate 32 1))

theorem parseToken_firstToken : parseToken firstToken =
    some (hexEncode (List.replicate 8 0), hexEncode (List.replicate 32 1)) :=
  parseToken_formatToken (part_hexEncode (by decide)) (part_hexEncode (by decide)).1

theorem key_lifecycle_firstToken :
    (authenticate (Service.run [.create 0 firstDraws "ci" {}]).keys 1 firstToken).isOk := by
  have hsep : Separates [.create 0 firstDraws "ci" {}] firstToken := by
    intro op hop m hm id secret hparse _
    obtain rfl := List.mem_singleton.mp hop
    obtain rfl : _ = m := Option.some.inj hm
    exact (Prod.mk.inj (Option.some.inj (hparse.symm.trans parseToken_firstToken))).2
  have h := key_lifecycle [.create 0 firstDraws "ci" {}] (.revoke 2 "") (by decide)
  exact (h.1 firstToken 1 hsep).mpr ⟨hexEncode (List.replicate 8 0), by decide +kernel, by decide +kernel,
    by decide +kernel⟩

end AgentGpu.Auth
