import AgentGpu.HttpApi.Idempotency
import AgentGpu.Foundation.History

namespace AgentGpu.HttpApi

open Foundation

variable {B : Type}

/-- `put` with both of its readings of the clock: the first dates the entry, the second finds
the expired ones. -/
def IdempotencyCache.putAt (c : IdempotencyCache B) (now again : Time) (key : String)
    (r : Response B) : IdempotencyCache B :=
  { c with entries := (c.makeRoom again).insert key ⟨r, now + c.ttl⟩ }

structure AdminWrite where
  /-- The id of the key that the auth middleware stashed. -/
  actor : Option String
  method : String
  path : String
  rawKey : String
  deriving DecidableEq

def AdminWrite.key (w : AdminWrite) : Option String :=
  if w.rawKey = "" ∨ w.rawKey.utf8ByteSize > maxIdempotencyKeyLen then none
  else w.actor.map (idempotencyKey · w.method w.path w.rawKey)

structure AdminWrite.Plain (w : AdminWrite) : Prop where
  actor : ∀ a ∈ w.actor, NulFree a
  method : NulFree w.method
  rawKey : NulFree w.rawKey

theorem idempotencyKey_inj {a a' m m' p p' k k' : String} (ha : NulFree a) (ha' : NulFree a')
    (hm : NulFree m) (hm' : NulFree m') (hk : NulFree k) (hk' : NulFree k')
    (h : idempotencyKey a m p k = idempotencyKey a' m' p' k') :
    a = a' ∧ m = m' ∧ p = p' ∧ k = k' := by
  have hlist := congrArg String.toList h
  rw [idempotencyKey_toList, idempotencyKey_toList] at hlist
  obtain ⟨hactor, hlist⟩ := append_cons_inj ha ha' hlist
  obtain ⟨hmethod, hlist⟩ := append_cons_inj hm hm' hlist
  -- the path may hold the separator, so the key is split off from the other end
  have hreverse := congrArg List.reverse hlist
  simp only [List.reverse_append, List.reverse_cons, List.append_assoc, List.singleton_append]
    at hreverse
  obtain ⟨hkey, hpath⟩ := append_cons_inj (mt List.mem_reverse.mp hk) (mt List.mem_reverse.mp hk')
    hreverse
  exact ⟨String.toList_inj.mp hactor, String.toList_inj.mp hmethod,
    String.toList_inj.mp (List.reverse_inj.mp hpath), String.toList_inj.mp (List.reverse_inj.mp hkey)⟩

instance (s : String) : Decidable (NulFree s) := inferInstanceAs (Decidable (¬_))

instance (w : AdminWrite) : Decidable w.Plain :=
  decidable_of_iff ((∀ a ∈ w.actor, NulFree a) ∧ NulFree w.method ∧ NulFree w.rawKey)
    ⟨fun h ↦ ⟨h.1, h.2.1, h.2.2⟩, fun h ↦ ⟨h.actor, h.method, h.rawKey⟩⟩

theorem AdminWrite.Plain.eq_of_key {w w' : AdminWrite} {key : String} (hw : w.Plain)
    (hw' : w'.Plain) (h : w.key = some key) (h' : w'.key = some key) : w = w' := by
  unfold AdminWrite.key at h h'
  split_ifs at h h'
  obtain ⟨a, ha, hkey⟩ := Option.map_eq_some_iff.mp h
  obtain ⟨a', ha', hkey'⟩ := Option.map_eq_some_iff.mp h'
  obtain ⟨hactor, hmethod, hpath, hraw⟩ := idempotencyKey_inj (hw.actor a ha) (hw'.actor a' ha')
    hw.method hw'.method hw.rawKey hw'.rawKey (hkey.trans hkey'.symm)
  cases w
  cases w'
  simp_all

section Requests

structure Layer (B : Type) where
  clock : Time
  cache : IdempotencyCache B

/-- What the goroutine of a request has still to do: `enter` is the middleware up to the answer
of the cache, `serve` the handler behind it. -/
inductive WriteInstr (B : Type)
  | accept
  | enter (w : AdminWrite)
  | serve (w : AdminWrite) (key : Option String)
  | store (w : AdminWrite) (key : String) (r : Response B)
  deriving DecidableEq

inductive WriteChoice (B : Type)
  | tick (d : ℕ)
  | write (w : AdminWrite)
  | go
  | respond (r : Response B)
  | reread (d : ℕ)

def middleware : Machine (Layer B) (WriteInstr B) (WriteChoice B) where
  exec s
  | .accept, .tick d => some ⟨{ s with clock := s.clock + d }, [.accept], []⟩
  | .accept, .write w => some ⟨s, [.accept], [[.enter w]]⟩
  | .enter w, .go =>
    match w.key with
    | none => some ⟨s, [.serve w none], []⟩
    | some key =>
      match s.cache.get s.clock key with
      | (cache, some _) => some ⟨{ s with cache := cache }, [], []⟩
      | (cache, none) => some ⟨{ s with cache := cache }, [.serve w (some key)], []⟩
  | .serve _ none, .respond _ => some ⟨s, [], []⟩
  | .serve w (some key), .respond r =>
    if 200 ≤ r.status ∧ r.status < 300 then some ⟨s, [.store w key r], []⟩ else some ⟨s, [], []⟩
  | .store _ key r, .reread d =>
    some ⟨⟨s.clock + d, s.cache.putAt s.clock (s.clock + d) key r⟩, [], []⟩
  | _, _ => none

structure Sent (B : Type) where
  write : AdminWrite
  response : Response B
  time : Time
  deriving DecidableEq

/-- The responses that handlers wrote, those of them that were put into the cache, and those
that were sent from there. -/
structure Traffic (B : Type) where
  served : List (Sent B) := []
  stored : List (Sent B) := []
  replayed : List (Sent B) := []

def Traffic.note (s : Layer B) : WriteInstr B → WriteChoice B → Traffic B → Traffic B
  | .enter w, .go, l =>
    match w.key with
    | none => l
    | some key =>
      match s.cache.get s.clock key with
      | (_, some r) => { l with replayed := ⟨w, r, s.clock⟩ :: l.replayed }
      | (_, none) => l
  | .serve w _, .respond r, l => { l with served := ⟨w, r, s.clock⟩ :: l.served }
  | .store w _ r, .reread _, l => { l with stored := ⟨w, r, s.clock⟩ :: l.stored }
  | _, _, l => l

def listening (t : Time) (cache : IdempotencyCache B) : Config (Layer B) (WriteInstr B) :=
  ⟨⟨t, cache⟩, [[.accept]]⟩

theorem idempotent_alone {σ : Type} (s : Layer B) (a method path rawKey : String) (state : σ)
    (handler : σ → σ × Response B) :
    middleware.Alone s [.enter ⟨some a, method, path, rawKey⟩]
      { s with cache := (idempotent s.cache s.clock a method path rawKey state handler).1 } := by
  obtain ⟨w, hw⟩ : ∃ w : AdminWrite, w = ⟨some a, method, path, rawKey⟩ := ⟨_, rfl⟩
  have hserve (s : Layer B) : middleware.Alone s [.serve w none] s :=
    .step (x := .respond (handler state).2) rfl .done
  unfold idempotent
  rw [← hw]
  split_ifs with hraw
  · have hkey : w.key = none := by rw [hw, AdminWrite.key, if_pos hraw]
    have henter : middleware.exec s (.enter w) .go = some ⟨s, [.serve w none], []⟩ := by
      simp only [middleware, hkey]
    exact .step henter (hserve s)
  · have hkey : w.key = some (idempotencyKey a method path rawKey) := by
      rw [hw, AdminWrite.key, if_neg hraw]
      rfl
    dsimp only
    split
    · next cache r hget =>
      have henter : middleware.exec s (.enter w) .go = some ⟨{ s with cache := cache }, [], []⟩ := by
        simp only [middleware, hkey, hget]
      exact .step henter .done
    · next cache hget =>
      have henter : middleware.exec s (.enter w) .go = some ⟨{ s with cache := cache },
          [.serve w (some (idempotencyKey a method path rawKey))], []⟩ := by
        simp only [middleware, hkey, hget]
      refine .step henter ?_
      split_ifs with hok
      · have hserved : middleware.exec { s with cache := cache }
            (.serve w (some (idempotencyKey a method path rawKey))) (.respond (handler state).2) =
              some ⟨{ s with cache := cache },
                [.store w (idempotencyKey a method path rawKey) (handler state).2], []⟩ := by
          simp only [middleware, if_pos hok]
        have hstored : middleware.exec { s with cache := cache }
            (.store w (idempotencyKey a method path rawKey) (handler state).2) (.reread 0) =
              some ⟨⟨s.clock, cache.put s.clock (idempotencyKey a method path rawKey)
                (handler state).2⟩, [], []⟩ := by
          simp [middleware, IdempotencyCache.putAt, IdempotencyCache.put]
        exact .step hserved (.step hstored .done)
      · have hserved : middleware.exec { s with cache := cache }
            (.serve w (some (idempotencyKey a method path rawKey))) (.respond (handler state).2) =
              some ⟨{ s with cache := cache }, [], []⟩ := by
          simp only [middleware, if_neg hok]
        exact .step hserved .done

end Requests

section Cache

variable {c : IdempotencyCache B} {now again : Time} {key : String} {r : Response B}

theorem IdempotencyCache.get_spec (c : IdempotencyCache B) (now : Time) (key : String) :
    (c.get now key).1.ttl = c.ttl ∧ (c.get now key).1.max = c.max ∧
      (c.get now key).1.entries.entries.length ≤ c.entries.entries.length ∧
      (∀ k e, (c.get now key).1.entries.lookup k = some e → c.entries.lookup k = some e) ∧
      ∀ r, (c.get now key).2 = some r →
        ∃ e, c.entries.lookup key = some e ∧ e.response = r ∧ now < e.expires := by
  unfold get
  split
  · exact ⟨rfl, rfl, le_rfl, fun _ _ h ↦ h, fun r h ↦ nomatch h⟩
  · next e he =>
    split_ifs with hlive
    · exact ⟨rfl, rfl, le_rfl, fun _ _ h ↦ h, fun r h ↦ ⟨e, he, Option.some.inj h, hlive⟩⟩
    · refine ⟨rfl, rfl, ?_, fun k e' h ↦ ?_, fun r h ↦ nomatch h⟩
      · exact (List.kerase_sublist key c.entries.entries).length_le
      · exact Table.lookup_of_erase h

theorem IdempotencyCache.length_makeRoom (hmax : 0 < c.max) (now : Time) :
    (c.makeRoom now).entries.length < c.max := by
  unfold makeRoom
  split_ifs with hfull
  · dsimp only
    split_ifs with hstill
    · exact hmax
    · exact not_le.mp hstill
  · exact not_le.mp fun h ↦ hfull ⟨hmax, h⟩

theorem IdempotencyCache.length_putAt (hmax : 0 < c.max) (now again : Time) (key : String)
    (r : Response B) : (c.putAt now again key r).entries.entries.length ≤ c.max := by
  have hroom := c.length_makeRoom hmax again
  have herase := (List.kerase_sublist key (c.makeRoom again).entries).length_le
  simp only [putAt, AList.entries_insert, List.length_cons]
  omega

theorem IdempotencyCache.lookup_putAt {k : String} {e : CachedResponse B}
    (h : (c.putAt now again key r).entries.lookup k = some e) :
    (k = key ∧ e = ⟨r, now + c.ttl⟩) ∨ c.entries.lookup k = some e := by
  by_cases hk : k = key
  · subst hk
    rw [putAt, AList.lookup_insert] at h
    exact .inl ⟨rfl, (Option.some.inj h).symm⟩
  · rw [putAt, AList.lookup_insert_ne hk] at h
    exact .inr (lookup_makeRoom h)

end Cache

section Invariant

def Repeats (D : Duration) (p q : Sent B) : Prop :=
  p.write = q.write ∧ p.response = q.response ∧ 200 ≤ p.response.status ∧
    p.response.status < 300 ∧ p.time ≤ q.time ∧ q.time < p.time + D

def Answered (l : Traffic B) (w : AdminWrite) (r : Response B) (t : Time) : Prop :=
  ∃ o ∈ l.served, o.write = w ∧ o.response = r ∧ o.time ≤ t

structure Traced (D : Duration) (N : ℕ) (s : Layer B) (l : Traffic B) : Prop where
  ttl : s.cache.ttl = D
  max : s.cache.max = N
  size : 0 < N → s.cache.entries.entries.length ≤ N
  entries : ∀ k e, s.cache.entries.lookup k = some e →
    ∃ p ∈ l.stored, p.write.key = some k ∧ e = ⟨p.response, p.time + D⟩
  stored : ∀ p ∈ l.stored, p.write.Plain ∧ 200 ≤ p.response.status ∧ p.response.status < 300 ∧
    p.time ≤ s.clock ∧ Answered l p.write p.response p.time
  replayed : ∀ q ∈ l.replayed, ∃ p ∈ l.stored, Repeats D p q

def WriteInstr.Traced (s : Layer B) (l : Traffic B) : WriteInstr B → Prop
  | .accept => True
  | .enter w => w.Plain
  | .serve w key => w.Plain ∧ ∀ k ∈ key, w.key = some k
  | .store w key r => w.Plain ∧ w.key = some key ∧ 200 ≤ r.status ∧ r.status < 300 ∧
    Answered l w r s.clock

variable {D : Duration} {N : ℕ} {s : Layer B} {l : Traffic B}

theorem Traced.get (h : Traced D N s l) (key : String) :
    Traced D N { s with cache := (s.cache.get s.clock key).1 } l := by
  obtain ⟨httl, hmax, hlength, hkept, -⟩ := s.cache.get_spec s.clock key
  exact ⟨httl.trans h.ttl, hmax.trans h.max, fun hpos ↦ hlength.trans (h.size hpos),
    fun k e he ↦ h.entries k e (hkept k e he), h.stored, h.replayed⟩

theorem Traced.hit {w : AdminWrite} {key : String} {r : Response B} (h : Traced D N s l)
    (hw : w.Plain) (hkey : w.key = some key) (hget : (s.cache.get s.clock key).2 = some r) :
    ∃ p ∈ l.stored, Repeats D p ⟨w, r, s.clock⟩ := by
  obtain ⟨e, he, hr, hlive⟩ := (s.cache.get_spec s.clock key).2.2.2.2 r hget
  obtain ⟨p, hp, hpkey, rfl⟩ := h.entries key e he
  obtain ⟨hplain, hlow, hhigh, htime, -⟩ := h.stored p hp
  exact ⟨p, hp, hplain.eq_of_key hw hpkey hkey, hr, hlow, hhigh, htime, hlive⟩

theorem Answered.mono {l' : Traffic B} {w : AdminWrite} {r : Response B} {t t' : Time}
    (h : Answered l w r t) (hl : l.served ⊆ l'.served) (ht : t ≤ t') : Answered l' w r t' := by
  obtain ⟨o, ho, hw, hr, hle⟩ := h
  exact ⟨o, hl ho, hw, hr, hle.trans ht⟩

theorem Traced.store {w : AdminWrite} {key : String} {r : Response B} (h : Traced D N s l)
    (hi : WriteInstr.Traced s l (.store w key r)) (d : ℕ) :
    Traced D N ⟨s.clock + d, s.cache.putAt s.clock (s.clock + d) key r⟩
      { l with stored := ⟨w, r, s.clock⟩ :: l.stored } := by
  obtain ⟨hw, hkey, hlow, hhigh, hanswered⟩ := hi
  have hle : s.clock ≤ s.clock + d := Int.le_add_of_nonneg_right (Int.natCast_nonneg d)
  refine ⟨h.ttl, h.max, ?_, ?_, ?_, ?_⟩
  · intro hpos
    have hput := s.cache.length_putAt (h.max.symm ▸ hpos) s.clock (s.clock + d) key r
    exact h.max ▸ hput
  · intro k e he
    rcases IdempotencyCache.lookup_putAt he with ⟨rfl, rfl⟩ | hold
    · exact ⟨_, List.mem_cons_self, hkey, by rw [h.ttl]⟩
    · obtain ⟨p, hp, hentry⟩ := h.entries k e hold
      exact ⟨p, List.mem_cons_of_mem _ hp, hentry⟩
  · rw [List.forall_mem_cons]
    refine ⟨⟨hw, hlow, hhigh, hle, hanswered⟩, fun p hp ↦ ?_⟩
    obtain ⟨hplain, hlow, hhigh, htime, hp⟩ := h.stored p hp
    exact ⟨hplain, hlow, hhigh, htime.trans hle, hp⟩
  · intro q hq
    obtain ⟨p, hp, hrepeats⟩ := h.replayed q hq
    exact ⟨p, List.mem_cons_of_mem _ hp, hrepeats⟩

inductive WriteStep (s : Layer B) (l : Traffic B) :
    WriteInstr B → WriteChoice B → Effect (Layer B) (WriteInstr B) → Traffic B → Prop
  | tick (d : ℕ) : WriteStep s l .accept (.tick d) ⟨{ s with clock := s.clock + d }, [.accept], []⟩ l
  | write (w : AdminWrite) : WriteStep s l .accept (.write w) ⟨s, [.accept], [[.enter w]]⟩ l
  | pass (w : AdminWrite) : WriteStep s l (.enter w) .go ⟨s, [.serve w none], []⟩ l
  | hit {w : AdminWrite} {key : String} {r : Response B} (hkey : w.key = some key)
      (hget : (s.cache.get s.clock key).2 = some r) :
      WriteStep s l (.enter w) .go ⟨{ s with cache := (s.cache.get s.clock key).1 }, [], []⟩
        { l with replayed := ⟨w, r, s.clock⟩ :: l.replayed }
  | miss {w : AdminWrite} {key : String} (hkey : w.key = some key) :
      WriteStep s l (.enter w) .go
        ⟨{ s with cache := (s.cache.get s.clock key).1 }, [.serve w (some key)], []⟩ l
  | answer (w : AdminWrite) (key : Option String) (r : Response B) :
      WriteStep s l (.serve w key) (.respond r) ⟨s, [], []⟩
        { l with served := ⟨w, r, s.clock⟩ :: l.served }
  | keep (w : AdminWrite) (key : String) {r : Response B} (hlow : 200 ≤ r.status)
      (hhigh : r.status < 300) :
      WriteStep s l (.serve w (some key)) (.respond r) ⟨s, [.store w key r], []⟩
        { l with served := ⟨w, r, s.clock⟩ :: l.served }
  | store (w : AdminWrite) (key : String) (r : Response B) (d : ℕ) :
      WriteStep s l (.store w key r) (.reread d)
        ⟨⟨s.clock + d, s.cache.putAt s.clock (s.clock + d) key r⟩, [], []⟩
        { l with stored := ⟨w, r, s.clock⟩ :: l.stored }

variable {i : WriteInstr B} {x : WriteChoice B} {e : Effect (Layer B) (WriteInstr B)}
  {l' : Traffic B}

theorem writeStep_of_exec (he : middleware.exec s i x = some e) (l : Traffic B) :
    WriteStep s l i x e (Traffic.note s i x l) := by
  cases i with
  | accept =>
    cases x with
    | tick d =>
      cases he
      exact .tick d
    | write w =>
      cases he
      exact .write w
    | _ => cases he
  | enter w =>
    cases x with
    | go =>
      cases hkey : w.key with
      | none =>
        simp only [middleware, hkey, Option.some.injEq] at he
        simp only [Traffic.note, hkey]
        exact he ▸ .pass w
      | some key =>
        obtain ⟨cache, hcache⟩ : ∃ cache, cache = (s.cache.get s.clock key).1 := ⟨_, rfl⟩
        cases hget : (s.cache.get s.clock key).2 with
        | none =>
          have hpair : s.cache.get s.clock key = (cache, none) := Prod.ext hcache.symm hget
          simp only [middleware, hkey, hpair, Option.some.injEq] at he
          simp only [Traffic.note, hkey, hpair]
          exact he ▸ hcache ▸ .miss hkey
        | some r =>
          have hpair : s.cache.get s.clock key = (cache, some r) := Prod.ext hcache.symm hget
          simp only [middleware, hkey, hpair, Option.some.injEq] at he
          simp only [Traffic.note, hkey, hpair]
          exact he ▸ hcache ▸ .hit hkey hget
    | _ => cases he
  | serve w key =>
    cases x with
    | respond r =>
      cases key with
      | none =>
        cases he
        exact .answer w none r
      | some key =>
        simp only [middleware] at he
        split_ifs at he with hok
        · cases he
          exact .keep w key hok.1 hok.2
        · cases he
          exact .answer w (some key) r
    | _ => cases key <;> cases he
  | store w key r =>
    cases x with
    | reread d =>
      cases he
      exact .store w key r d
    | _ => cases he

theorem WriteStep.grows (h : WriteStep s l i x e l') :
    s.clock ≤ e.shared.clock ∧ l.served ⊆ l'.served := by
  cases h with
  | tick d | store _ _ _ d => exact ⟨Int.le_add_of_nonneg_right (Int.natCast_nonneg d), List.Subset.refl _⟩
  | answer | keep => exact ⟨le_rfl, List.subset_cons_self _ _⟩
  | _ => exact ⟨le_rfl, List.Subset.refl _⟩

theorem WriteInstr.Traced.stable {k : WriteInstr B} (hk : WriteInstr.Traced s l k)
    (h : WriteStep s l i x e l') : WriteInstr.Traced e.shared l' k := by
  obtain ⟨hclock, hserved⟩ := h.grows
  cases k with
  | accept | enter | serve => exact hk
  | store w key r =>
    obtain ⟨hw, hkey, hlow, hhigh, hanswered⟩ := hk
    exact ⟨hw, hkey, hlow, hhigh, hanswered.mono hserved hclock⟩

/-- The actor, the method and the header of a request hold no NUL; its path may. -/
def PlainWrites (_ : Config (Layer B × Traffic B) (WriteInstr B)) (_ : WriteInstr B) :
    WriteChoice B → Prop
  | .write w => w.Plain
  | _ => True

instance (c : Config (Layer B × Traffic B) (WriteInstr B)) (i : WriteInstr B) (x : WriteChoice B) :
    Decidable (PlainWrites c i x) :=
  match x with
  | .write w => inferInstanceAs (Decidable w.Plain)
  | .tick _ | .go | .respond _ | .reread _ => inferInstanceAs (Decidable True)

theorem Traced.answer {w : AdminWrite} {r : Response B} (h : Traced D N s l) :
    Traced D N s { l with served := ⟨w, r, s.clock⟩ :: l.served } := by
  refine ⟨h.ttl, h.max, h.size, h.entries, fun p hp ↦ ?_, h.replayed⟩
  obtain ⟨hplain, hlow, hhigh, htime, hanswered⟩ := h.stored p hp
  exact ⟨hplain, hlow, hhigh, htime, hanswered.mono (List.subset_cons_self _ _) le_rfl⟩

theorem Traced.own (h : Traced D N s l) (hi : WriteInstr.Traced s l i)
    (hplain : ∀ w, x = .write w → w.Plain) (hs : WriteStep s l i x e l') :
    Traced D N e.shared l' ∧ ∀ k ∈ e.fresh, WriteInstr.Traced e.shared l' k := by
  cases hs with
  | tick d =>
    refine ⟨⟨h.ttl, h.max, h.size, h.entries, fun p hp ↦ ?_, h.replayed⟩,
      Effect.forall_fresh_singleton trivial⟩
    obtain ⟨hw, hlow, hhigh, htime, hanswered⟩ := h.stored p hp
    exact ⟨hw, hlow, hhigh, htime.trans (Int.le_add_of_nonneg_right (Int.natCast_nonneg d)),
      hanswered⟩
  | write w =>
    refine ⟨h, Effect.forall_fresh.mpr ⟨?_, ?_⟩⟩
    · exact List.forall_mem_singleton.mpr trivial
    · exact List.forall_mem_singleton.mpr (List.forall_mem_singleton.mpr (hplain w rfl))
  | pass w => exact ⟨h, Effect.forall_fresh_singleton ⟨hi, fun k hk ↦ nomatch hk⟩⟩
  | hit hkey hget =>
    have hget' := h.get
    refine ⟨⟨(hget' _).ttl, (hget' _).max, (hget' _).size, (hget' _).entries, h.stored, ?_⟩,
      Effect.forall_fresh_nil⟩
    rw [List.forall_mem_cons]
    exact ⟨h.hit hi hkey hget, h.replayed⟩
  | miss hkey =>
    refine ⟨h.get _, Effect.forall_fresh_singleton ⟨hi, fun k hk ↦ ?_⟩⟩
    rw [hkey, Option.mem_some_iff.mp hk]
  | answer w key r => exact ⟨h.answer, Effect.forall_fresh_nil⟩
  | keep w key hlow hhigh =>
    refine ⟨h.answer, Effect.forall_fresh_singleton ⟨hi.1, hi.2 key rfl, hlow, hhigh, ?_⟩⟩
    exact ⟨_, List.mem_cons_self, rfl, rfl, le_rfl⟩
  | store w key r d => exact ⟨h.store hi d, Effect.forall_fresh_nil⟩

variable {t : Time} {ttl : Duration} {max : ℤ} {c : Config (Layer B × Traffic B) (WriteInstr B)}

theorem traced_of_runs {cache : IdempotencyCache B} (hempty : cache.entries = ∅)
    (hc : (middleware.record Traffic.note).Runs PlainWrites ((listening t cache).logging {}) c) :
    Traced cache.ttl cache.max c.shared.1 c.shared.2 := by
  have hinv := hc.local_invariant (fun p ↦ Traced cache.ttl cache.max p.1 p.2)
    (fun p i ↦ WriteInstr.Traced p.1 p.2 i) ?_ ?_ ?_ ?_
  · exact hinv.1
  · refine ⟨rfl, rfl, ?_, ?_, List.forall_mem_nil _, List.forall_mem_nil _⟩
    · intro _
      simp [Config.logging, listening, hempty]
    · intro k e he
      simp [Config.logging, listening, hempty] at he
  · intro i hi
    obtain rfl : i = .accept := by simpa [Config.soup, Config.logging, listening] using hi
    trivial
  · intro c i x e hI hJ hg he
    obtain ⟨e', he', rfl⟩ := Machine.exec_record he
    refine hI.own hJ ?_ (writeStep_of_exec he' c.shared.2)
    rintro w rfl
    exact hg
  · intro c i x e _ _ _ he k _ hk
    obtain ⟨e', he', rfl⟩ := Machine.exec_record he
    exact hk.stable (writeStep_of_exec he' c.shared.2)

end Invariant

end AgentGpu.HttpApi
