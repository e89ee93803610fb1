import AgentGpu.Auth.Service

namespace AgentGpu.HttpApi

open Foundation Auth

/-- What a response body says: the views of the key routes in full, the views of other
resources only by their kind. -/
inductive Body
  | empty
  | error (code message : String)
  | created (token : String) (key : APIKey)
  | rotated (id token : String)
  | keyView (key : APIKey)
  | keyList (keys : List APIKey)
  | resource
  deriving DecidableEq

structure Response (B : Type := Body) where
  status : ℕ
  body : B
  deriving DecidableEq

def Response.tokens (r : Response) : List String :=
  match r.body with
  | .created token _ => [token]
  | .rotated _ token => [token]
  | _ => []

structure CachedResponse (B : Type := Body) where
  response : Response B
  expires : Time
  deriving DecidableEq

structure IdempotencyCache (B : Type := Body) where
  entries : Table String (CachedResponse B) := ∅
  ttl : Duration := 24 * 60 * minute
  max : ℕ := 4096

def maxIdempotencyKeyLen : ℕ := 255

variable {B : Type}

namespace IdempotencyCache

def get (c : IdempotencyCache B) (now : Time) (key : String) :
    IdempotencyCache B × Option (Response B) :=
  match c.entries.lookup key with
  | none => (c, none)
  | some r =>
    if now < r.expires then (c, some r.response)
    else ({ c with entries := c.entries.erase key }, none)

def makeRoom (c : IdempotencyCache B) (now : Time) : Table String (CachedResponse B) :=
  if c.max > 0 ∧ c.entries.entries.length ≥ c.max then
    let live := (c.entries.entries.filter fun e ↦ !decide (now < e.2.expires)).foldl
      (fun t e ↦ t.erase e.1) c.entries
    if live.entries.length ≥ c.max then ∅ else live
  else c.entries

def put (c : IdempotencyCache B) (now : Time) (key : String) (r : Response B) : IdempotencyCache B :=
  { c with entries := (c.makeRoom now).insert key ⟨r, now + c.ttl⟩ }

theorem lookup_makeRoom {c : IdempotencyCache B} {now : Time} {key : String} {r : CachedResponse B}
    (h : (c.makeRoom now).lookup key = some r) : c.entries.lookup key = some r := by
  have hfold (dropped : List (Sigma fun _ : String ↦ CachedResponse B))
      (t : Table String (CachedResponse B)) :
      (dropped.foldl (fun t e ↦ t.erase e.1) t).lookup key = some r → t.lookup key = some r := by
    induction dropped generalizing t with
    | nil => exact id
    | cons e rest ih =>
      intro hr
      have hstep := ih (t.erase e.1) hr
      by_cases hk : key = e.1
      · subst hk
        rw [AList.lookup_erase] at hstep
        cases hstep
      · rwa [AList.lookup_erase_ne hk] at hstep
  unfold makeRoom at h
  split_ifs at h with hfull
  · dsimp only at h
    split_ifs at h
    · cases h
    · exact hfold _ _ h
  · exact h

end IdempotencyCache

/-- The composite cache key, its parts joined by NUL. -/
def idempotencyKey (actorID method path rawKey : String) : String :=
  actorID ++ "\x00" ++ method ++ "\x00" ++ path ++ "\x00" ++ rawKey

theorem idempotencyKey_toList (actorID method path rawKey : String) :
    (idempotencyKey actorID method path rawKey).toList = actorID.toList ++ '\x00' ::
      (method.toList ++ '\x00' :: (path.toList ++ '\x00' :: rawKey.toList)) := by
  have hnul : "\x00".toList = ['\x00'] := rfl
  simp only [idempotencyKey, String.toList_append, hnul, List.append_assoc, List.cons_append,
    List.nil_append]

def NulFree (s : String) : Prop := '\x00' ∉ s.toList

theorem append_cons_inj {α : Type} {a : α} {x₁ x₂ y₁ y₂ : List α} (h₁ : a ∉ x₁) (h₂ : a ∉ x₂)
    (h : x₁ ++ a :: y₁ = x₂ ++ a :: y₂) : x₁ = x₂ ∧ y₁ = y₂ := by
  induction x₁ generalizing x₂ with
  | nil =>
    cases x₂ with
    | nil => exact ⟨rfl, (List.cons.inj h).2⟩
    | cons b x₂ => exact absurd (by rw [(List.cons.inj h).1]; exact List.mem_cons_self) h₂
  | cons b x₁ ih =>
    cases x₂ with
    | nil => exact absurd (by rw [← (List.cons.inj h).1]; exact List.mem_cons_self) h₁
    | cons b' x₂ =>
      obtain ⟨rfl, htail⟩ := List.cons.inj h
      obtain ⟨rfl, hy⟩ := ih (fun hm ↦ h₁ (List.mem_cons_of_mem _ hm))
        (fun hm ↦ h₂ (List.mem_cons_of_mem _ hm)) htail
      exact ⟨rfl, hy⟩

/-- Replays the cached response of the same composite key, or runs the handler and caches a
2xx response. The header is ignored when absent or longer than 255 bytes. -/
def idempotent {σ : Type} (cache : IdempotencyCache B) (now : Time)
    (actorID method path rawKey : String) (state : σ) (handler : σ → σ × Response B) :
    IdempotencyCache B × σ × Response B :=
  if rawKey = "" ∨ rawKey.utf8ByteSize > maxIdempotencyKeyLen then (cache, handler state)
  else
    let key := idempotencyKey actorID method path rawKey
    match cache.get now key with
    | (cache, some r) => (cache, state, r)
    | (cache, none) =>
      let (state, r) := handler state
      if 200 ≤ r.status ∧ r.status < 300 then (cache.put now key r, state, r)
      else (cache, state, r)

theorem IdempotencyCache.get_cases (c : IdempotencyCache B) (now : Time) (key : String) :
    (∃ r, c.entries.lookup key = some r ∧ c.get now key = (c, some r.response)) ∨
      ((c.get now key).2 = none ∧
        ∀ k r, (c.get now key).1.entries.lookup k = some r → c.entries.lookup k = some r) := by
  unfold get
  split
  · exact .inr ⟨rfl, fun _ _ h ↦ h⟩
  · next r hr =>
    split_ifs
    · exact .inl ⟨r, hr, rfl⟩
    · refine .inr ⟨rfl, fun k r' h ↦ ?_⟩
      by_cases hk : k = key
      · subst hk
        rw [AList.lookup_erase] at h
        cases h
      · rwa [AList.lookup_erase_ne hk] at h

theorem IdempotencyCache.lookup_put {c : IdempotencyCache B} {now : Time} {key k : String}
    {r : Response B} {e : CachedResponse B} (h : (c.put now key r).entries.lookup k = some e) :
    (k = key ∧ e.response = r) ∨ c.entries.lookup k = some e := by
  by_cases hk : k = key
  · subst hk
    rw [put, AList.lookup_insert] at h
    cases h
    exact .inl ⟨rfl, rfl⟩
  · rw [put, AList.lookup_insert_ne hk] at h
    exact .inr (lookup_makeRoom h)

theorem idempotent_cases {σ : Type} (cache : IdempotencyCache B) (now : Time)
    (actorID method path rawKey : String) (state : σ) (handler : σ → σ × Response B) :
    (∃ r, cache.entries.lookup (idempotencyKey actorID method path rawKey) = some r ∧
        idempotent cache now actorID method path rawKey state handler = (cache, state, r.response)) ∨
      ((idempotent cache now actorID method path rawKey state handler).2 = handler state ∧
        ∀ k e, (idempotent cache now actorID method path rawKey state handler).1.entries.lookup k = some e →
          (k = idempotencyKey actorID method path rawKey ∧ e.response = (handler state).2) ∨
            cache.entries.lookup k = some e) := by
  unfold idempotent
  split_ifs with hraw
  · exact .inr ⟨rfl, fun _ _ h ↦ .inr h⟩
  · dsimp only
    rcases cache.get_cases now (idempotencyKey actorID method path rawKey) with ⟨r, hl, hget⟩ | ⟨hnone, hkept⟩
    · exact .inl ⟨r, hl, by rw [hget]⟩
    · right
      split
      · next hget => simp [hget] at hnone
      · next cache' hget =>
        rw [hget] at hkept
        split_ifs
        · refine ⟨rfl, fun k e h ↦ ?_⟩
          rcases IdempotencyCache.lookup_put h with hnew | hold
          · exact .inl hnew
          · exact .inr (hkept k e hold)
        · exact ⟨rfl, fun k e h ↦ .inr (hkept k e h)⟩

end AgentGpu.HttpApi
