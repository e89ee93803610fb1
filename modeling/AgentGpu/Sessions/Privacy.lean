import AgentGpu.Foundation.Views
import AgentGpu.Sessions.Operations

namespace AgentGpu.Sessions

open Foundation

def release (n : ℕ) : ℕ := if n > 1 then n - 1 else 0

def Manager.SameConfig (m m' : Manager) : Prop :=
  m'.maxPerKey = m.maxPerKey ∧ m'.ttl = m.ttl ∧ m'.caps = m.caps

theorem Manager.SameConfig.follow {m m' p p' : Manager} (h : m.SameConfig p)
    (hm : m.SameConfig m') (hp : p.SameConfig p') : m'.SameConfig p' :=
  ⟨hp.1.trans (h.1.trans hm.1.symm), hp.2.1.trans (h.2.1.trans hm.2.1.symm),
    hp.2.2.trans (h.2.2.trans hm.2.2.symm)⟩

def Op.minted? : Op → Option (String × String)
  | .create o _ minted _ => minted.map (o, ·)
  | _ => none

section Sweep

variable {m : Manager}

theorem deleteSession_spec {id o : String} {s : Session} (hl : m.sessions.lookup id = some s)
    (r : EndReason) :
    (∀ k, (m.deleteSession id o r).sessions.lookup k =
      if k = id then none else m.sessions.lookup k) ∧
    (∀ k, (m.deleteSession id o r).history k = if k = id then none else m.history k) ∧
    (∀ o', (m.deleteSession id o r).counts o' =
      if o' = o then release (m.counts o') else m.counts o') ∧
    m.SameConfig (m.deleteSession id o r) := by
  unfold Manager.deleteSession
  rw [hl]
  refine ⟨fun k ↦ ?_, fun k ↦ ?_, fun o' ↦ ?_, rfl, rfl, rfl⟩
  · by_cases hk : k = id
    · subst hk
      simp
    · simp [hk, AList.lookup_erase_ne hk]
  · by_cases hk : k = id <;> simp [History.deleteBySession, hk]
  · by_cases ho : o' = o <;> simp [Manager.releaseSlot, release, ho]

theorem reapAll_spec (sessions : List Session)
    (hstored : ∀ s ∈ sessions, m.sessions.lookup s.id = some s)
    (hnodup : (sessions.map Session.id).Nodup) :
    (∀ id, (m.reapAll sessions).sessions.lookup id =
      if id ∈ sessions.map Session.id then none else m.sessions.lookup id) ∧
    (∀ id, (m.reapAll sessions).history id =
      if id ∈ sessions.map Session.id then none else m.history id) ∧
    (∀ o, (m.reapAll sessions).counts o =
      release^[sessions.countP (·.ownerKeyID = o)] (m.counts o)) ∧
    m.SameConfig (m.reapAll sessions) := by
  induction sessions generalizing m with
  | nil => simp [Manager.reapAll, Manager.SameConfig]
  | cons s sessions ih =>
    have hs := hstored s List.mem_cons_self
    obtain ⟨hnot, hrest⟩ := List.nodup_cons.mp hnodup
    obtain ⟨hrows, hhist, hcounts, hconfig⟩ := deleteSession_spec (o := s.ownerKeyID) hs .expired
    have hstored' : ∀ s' ∈ sessions,
        (m.deleteSession s.id s.ownerKeyID .expired).sessions.lookup s'.id = some s' := by
      intro s' hs'
      have hne : s'.id ≠ s.id := fun heq ↦ hnot (heq ▸ List.mem_map_of_mem hs')
      rw [hrows, if_neg hne]
      exact hstored s' (List.mem_cons_of_mem _ hs')
    obtain ⟨ihrows, ihhist, ihcounts, ihconfig⟩ := ih hstored' hrest
    refine ⟨fun id ↦ ?_, fun id ↦ ?_, fun o ↦ ?_, ?_⟩
    · refine (ihrows id).trans ?_
      rw [hrows]
      by_cases hid : id = s.id <;> simp [hid]
    · refine (ihhist id).trans ?_
      rw [hhist]
      by_cases hid : id = s.id <;> simp [hid]
    · refine (ihcounts o).trans ?_
      rw [hcounts, List.countP_cons]
      by_cases ho : s.ownerKeyID = o
      · simp [ho]
      · simp [ho, Ne.symm ho]
    · exact Manager.SameConfig.follow hconfig ⟨rfl, rfl, rfl⟩ ihconfig

theorem listed_perm (order : List String) :
    (m.listed order).Perm (m.sessions.entries.map (·.2)) := by
  have hwalk := Table.walk_perm (m.walk_order order) fun _ s ↦ s
  simpa [Manager.listed] using hwalk

variable (hkeyed : ∀ id s, m.sessions.lookup id = some s → s.id = id)

include hkeyed

theorem mem_listed {order : List String} {s : Session} :
    s ∈ m.listed order ↔ m.sessions.lookup s.id = some s := by
  rw [(listed_perm order).mem_iff, List.mem_map]
  constructor
  · rintro ⟨⟨id, s⟩, he, rfl⟩
    have hl := AList.mem_lookup_iff.mpr he
    rwa [hkeyed id s hl]
  · intro hl
    exact ⟨⟨s.id, s⟩, AList.mem_lookup_iff.mp hl, rfl⟩

theorem listed_nodup (order : List String) : ((m.listed order).map Session.id).Nodup := by
  rw [((listed_perm order).map _).nodup_iff, List.map_map]
  have hkeys : m.sessions.entries.map (Session.id ∘ (·.2)) = m.sessions.keys := by
    refine List.map_congr_left ?_
    rintro ⟨id, s⟩ he
    exact hkeyed id s (AList.mem_lookup_iff.mpr he)
  rw [hkeys]
  exact m.sessions.keys_nodup

theorem sweepExpired_spec (order : List String) :
    (∀ id, (m.sweepExpired order).sessions.lookup id =
      (m.sessions.lookup id).filter fun s ↦ !s.expired m.clock) ∧
    (∀ id, (m.sweepExpired order).history id =
      if (m.sessions.lookup id).any (·.expired m.clock) then none else m.history id) ∧
    (∀ o, (m.sweepExpired order).counts o =
      release^[m.sessions.tally fun s ↦ s.ownerKeyID = o ∧ s.expired m.clock] (m.counts o)) ∧
    m.SameConfig (m.sweepExpired order) := by
  have hmem (s : Session) : s ∈ (m.listed order).filter (·.expired m.clock) ↔
      m.sessions.lookup s.id = some s ∧ s.expired m.clock := by
    rw [List.mem_filter, mem_listed hkeyed]
  have hids (id : String) : id ∈ ((m.listed order).filter (·.expired m.clock)).map Session.id ↔
      (m.sessions.lookup id).any (·.expired m.clock) := by
    rw [List.mem_map]
    constructor
    · rintro ⟨s, hs, rfl⟩
      obtain ⟨hl, hexpired⟩ := (hmem s).mp hs
      simp [hl, hexpired]
    · intro hany
      obtain ⟨s, hl, hexpired⟩ := Option.any_eq_true .. |>.mp hany
      obtain rfl := hkeyed id s hl
      exact ⟨s, (hmem s).mpr ⟨hl, hexpired⟩, rfl⟩
  have hcount (o : String) : ((m.listed order).filter (·.expired m.clock)).countP
      (·.ownerKeyID = o) = m.sessions.tally fun s ↦ s.ownerKeyID = o ∧ s.expired m.clock := by
    rw [List.countP_filter, (listed_perm order).countP_eq, List.countP_map, Table.tally]
    simp [Function.comp_def]
  obtain ⟨hrows, hhist, hcounts, hconfig⟩ := reapAll_spec _ (fun s hs ↦ ((hmem s).mp hs).1)
    ((listed_nodup hkeyed order).sublist (List.filter_sublist.map _))
  refine ⟨fun id ↦ ?_, fun id ↦ ?_, fun o ↦ ?_, hconfig⟩
  · refine (hrows id).trans ?_
    simp only [hids]
    cases m.sessions.lookup id with
    | none => rfl
    | some s => by_cases hs : s.expired m.clock <;> simp [Option.filter, hs]
  · refine (hhist id).trans ?_
    simp only [hids]
  · refine (hcounts o).trans ?_
    rw [hcount]

end Sweep

/-- What the manager `p`, which only ever served the key `b`, has in common with the shared
manager `m`. The ids generated for `b` are those that satisfy `mine`. -/
structure Sees (b : String) (mine : String → Prop) (m p : Manager) : Prop where
  rows : ∀ id, p.sessions.lookup id = (m.sessions.lookup id).filter fun s ↦ s.ownerKeyID = b
  owned : ∀ id s, m.sessions.lookup id = some s → (s.ownerKeyID = b ↔ mine id)
  keyed : ∀ id s, m.sessions.lookup id = some s → s.id = id
  history : ∀ id, mine id → p.history id = m.history id
  counts : p.counts b = m.counts b
  config : m.SameConfig p

namespace Sees

variable {b : String} {mine : String → Prop} {m p : Manager}

theorem ownedActive_eq (h : Sees b mine m p) (id : String) (now : Time) :
    p.ownedActive id b now = m.ownedActive id b now := by
  unfold Manager.ownedActive
  rw [h.rows id]
  cases hl : m.sessions.lookup id with
  | none => rfl
  | some s => by_cases ho : s.ownerKeyID = b <;> simp [Option.filter, ho]

theorem lookup_mine (h : Sees b mine m p) {id : String} (hid : mine id) :
    p.sessions.lookup id = m.sessions.lookup id := by
  rw [h.rows]
  cases hl : m.sessions.lookup id with
  | none => rfl
  | some s => simp [Option.filter, (h.owned id s hl).mpr hid]

theorem owner_of_ownedActive {id o : String} {now : Time} {s : Session}
    (h : m.ownedActive id o now = some s) : s.ownerKeyID = o := by
  unfold Manager.ownedActive at h
  split at h
  · cases h
  · split_ifs at h with ho
    cases h
    exact not_not.mp ho

theorem hide (h : Sees b mine m p) {m' : Manager}
    (hmine : ∀ id, mine id → m'.sessions.lookup id = m.sessions.lookup id ∧
      m'.history id = m.history id)
    (hother : ∀ id s, ¬ mine id → m'.sessions.lookup id = some s → s.ownerKeyID ≠ b ∧ s.id = id)
    (hcounts : m'.counts b = m.counts b) (hconfig : m.SameConfig m') : Sees b mine m' p := by
  refine ⟨fun id ↦ ?_, fun id s hl ↦ ?_, fun id s hl ↦ ?_, fun id hid ↦ ?_, ?_, ?_⟩
  · by_cases hid : mine id
    · rw [(hmine id hid).1, h.rows]
    · rw [h.rows]
      have hnone : ∀ m'' : Manager, (∀ s, m''.sessions.lookup id = some s → s.ownerKeyID ≠ b) →
          (m''.sessions.lookup id).filter (fun s ↦ s.ownerKeyID = b) = none := by
        intro m'' howner
        rw [Option.filter_eq_none_iff]
        intro s hs
        simpa using howner s hs
      rw [hnone m fun s hl ho ↦ hid ((h.owned id s hl).mp ho), hnone m' fun s hl ↦ (hother id s hid hl).1]
  · by_cases hid : mine id
    · exact h.owned id s ((hmine id hid).1 ▸ hl)
    · exact iff_of_false (hother id s hid hl).1 hid
  · by_cases hid : mine id
    · exact h.keyed id s ((hmine id hid).1 ▸ hl)
    · exact (hother id s hid hl).2
  · rw [(hmine id hid).2]
    exact h.history id hid
  · rw [hcounts]
    exact h.counts
  · exact h.config.follow hconfig ⟨rfl, rfl, rfl⟩

theorem put (h : Sees b mine m p) {m' p' : Manager} {s : Session} (hs : mine s.id)
    (ho : s.ownerKeyID = b)
    (hm : ∀ id, m'.sessions.lookup id = if id = s.id then some s else m.sessions.lookup id)
    (hp : ∀ id, p'.sessions.lookup id = if id = s.id then some s else p.sessions.lookup id)
    (hhistory : ∀ id, mine id → p'.history id = m'.history id)
    (hcounts : p'.counts b = m'.counts b) (hconfig : m'.SameConfig p') : Sees b mine m' p' := by
  refine ⟨fun id ↦ ?_, fun id s' hl ↦ ?_, fun id s' hl ↦ ?_, hhistory, hcounts, hconfig⟩
  · rw [hm, hp]
    split_ifs with hid
    · simp [Option.filter, ho]
    · exact h.rows id
  · rw [hm] at hl
    split_ifs at hl with hid
    · cases hl
      exact iff_of_true ho (hid ▸ hs)
    · exact h.owned id s' hl
  · rw [hm] at hl
    split_ifs at hl with hid
    · cases hl
      exact hid.symm
    · exact h.keyed id s' hl

theorem other (h : Sees b mine m p) {id : String} {s : Session} (hid : ¬ mine id)
    (hl : m.sessions.lookup id = some s) : s.ownerKeyID ≠ b ∧ s.id = id :=
  ⟨fun hb ↦ hid ((h.owned id s hl).mp hb), h.keyed id s hl⟩

theorem create_hidden (h : Sees b mine m p) {o : String} (ho : o ≠ b) (model : String)
    {minted : Option String} (hminted : ∀ id ∈ minted, ¬ mine id) :
    Sees b mine (m.create o model minted).1 p := by
  unfold Manager.create
  split_ifs
  · exact h
  cases hslot : m.reserveSlot o with
  | none => exact h
  | some m' =>
    obtain ⟨rfl, -⟩ := Manager.reserveSlot_some hslot
    cases minted with
    | none =>
      refine h.hide (fun _ _ ↦ ⟨rfl, rfl⟩) (fun _ _ hid hl ↦ h.other hid hl) ?_ ⟨rfl, rfl, rfl⟩
      simp [Manager.releaseSlot, Function.update_of_ne ho.symm]
    | some id =>
      have hid := hminted id rfl
      refine h.hide (fun k hk ↦ ⟨?_, rfl⟩) (fun k s hk hl ↦ ?_) (Function.update_of_ne ho.symm _ _)
        ⟨rfl, rfl, rfl⟩
      · have hne : k ≠ id := fun heq ↦ hid (heq ▸ hk)
        exact AList.lookup_insert_ne hne
      · rcases Table.lookup_insert_cases hl with ⟨rfl, rfl⟩ | hl
        · exact ⟨ho, rfl⟩
        · exact h.other hk hl

theorem touch_hidden (h : Sees b mine m p) {o : String} (ho : o ≠ b) (t : Touch) (id : String) :
    Sees b mine (m.touch t id o).1 p := by
  unfold Manager.touch
  cases howned : m.ownedActive id o m.clock with
  | none => exact h
  | some s =>
    have hl := ownedActive_some howned
    have howner := owner_of_ownedActive howned
    have hid : ¬ mine id := by
      rw [← h.owned id s hl, howner]
      exact ho
    have hput (m' : Manager) (hrows : m'.sessions = m.sessions)
        (hhist : ∀ k ≠ id, m'.history k = m.history k) (hcounts : m'.counts = m.counts)
        (hconfig : m.SameConfig m') : Sees b mine (m'.put (t.update s m.clock)) p := by
      refine h.hide (fun k hk ↦ ?_) (fun k s' hk hl' ↦ ?_) (congrFun hcounts b) hconfig
      · have hne : k ≠ id := fun heq ↦ hid (heq ▸ hk)
        refine ⟨?_, hhist k hne⟩
        rw [Manager.lookup_put, touch_update_id, h.keyed id s hl, if_neg hne, hrows]
      · rw [Manager.lookup_put, hrows] at hl'
        split_ifs at hl' with heq
        · cases hl'
          exact ⟨by rw [touch_update_owner, howner]; exact ho, heq.symm⟩
        · exact h.other hk hl'
    cases happend : t.append? m.caps m.history id with
    | none => exact hput m rfl (fun _ _ ↦ rfl) rfl ⟨rfl, rfl, rfl⟩
    | some result =>
      cases result with
      | none => exact h
      | some history => exact hput _ rfl (append?_frame happend) rfl ⟨rfl, rfl, rfl⟩

theorem fail_hidden (h : Sees b mine m p) (id o : String) (err : SessionError) :
    Sees b mine (m.fail id o err) p :=
  ⟨h.rows, h.owned, h.keyed, h.history, h.counts, h.config⟩

theorem fail_seen (h : Sees b mine m p) (id o : String) (err : SessionError) :
    Sees b mine (m.fail id o err) (p.fail id o err) :=
  ⟨h.rows, h.owned, h.keyed, h.history, h.counts, h.config⟩

theorem delete_hidden (h : Sees b mine m p) {o : String} (ho : o ≠ b) (id : String) :
    Sees b mine (m.delete id o).1 p := by
  unfold Manager.delete
  cases hl : m.sessions.lookup id with
  | none => exact h.fail_hidden id o _
  | some s =>
    dsimp only
    split_ifs with howner
    · exact h.fail_hidden id o _
    rw [not_not] at howner
    obtain ⟨hrows, hhist, hcounts, hconfig⟩ := deleteSession_spec (o := s.ownerKeyID) hl .deleted
    have hid : ¬ mine id := by
      rw [← h.owned id s hl, howner]
      exact ho
    refine h.hide (fun k hk ↦ ?_) (fun k s' hk hl' ↦ ?_) ?_ hconfig
    · have hne : k ≠ id := fun heq ↦ hid (heq ▸ hk)
      exact ⟨(hrows k).trans (if_neg hne), (hhist k).trans (if_neg hne)⟩
    · rw [hrows] at hl'
      split_ifs at hl'
      exact h.other hk hl'
    · exact (hcounts b).trans (if_neg (howner ▸ ho.symm))

theorem create_seen (h : Sees b mine m p) (hclock : p.clock = m.clock) (model : String)
    {minted : Option String} (hminted : ∀ id ∈ minted, mine id) :
    Sees b mine (m.create b model minted).1 (p.create b model minted).1 ∧
      (p.create b model minted).2 = (m.create b model minted).2 := by
  have hfull : p.reserveSlot b = none ↔ m.reserveSlot b = none := by
    simp [Manager.reserveSlot, h.counts, h.config.1]
  unfold Manager.create
  split_ifs with hempty
  · exact ⟨h, rfl⟩
  cases hm : m.reserveSlot b with
  | none =>
    rw [hfull.mpr hm]
    exact ⟨h, rfl⟩
  | some m' =>
    obtain ⟨p', hp⟩ := Option.ne_none_iff_exists'.mp (mt hfull.mp (by simp [hm]))
    rw [hp]
    obtain ⟨rfl, -⟩ := Manager.reserveSlot_some hm
    obtain ⟨rfl, -⟩ := Manager.reserveSlot_some hp
    cases minted with
    | none =>
      refine ⟨⟨h.rows, h.owned, h.keyed, h.history, ?_, h.config⟩, rfl⟩
      simp [Manager.releaseSlot, h.counts]
    | some id =>
      have hsame : (⟨id, b, model, "", p.clock, p.clock, p.ttl, .active⟩ : Session) =
          ⟨id, b, model, "", m.clock, m.clock, m.ttl, .active⟩ := by rw [hclock, h.config.2.1]
      dsimp only
      rw [hsame]
      refine ⟨h.put (s := ⟨id, b, model, "", m.clock, m.clock, m.ttl, .active⟩) (hminted id rfl) rfl
        (fun k ↦ Manager.lookup_put _ _ k) (fun k ↦ Manager.lookup_put _ _ k) h.history ?_ h.config,
        rfl⟩
      simp [h.counts]

theorem append?_congr (t : Touch) (caps : HistoryCaps) {h h' : History} {id : String}
    (hid : h' id = h id) :
    (t.append? caps h' id).map (Option.map (· id)) = (t.append? caps h id).map (Option.map (· id)) := by
  have hget : h'.get id = h.get id := congrArg (·.getD []) hid
  cases t with
  | resume => rfl
  | bind w => rfl
  | appendTurn turn =>
    simp only [Touch.append?, History.append, hget]
    split_ifs <;> simp
  | appendTurns turns =>
    simp only [Touch.append?, History.appendBatch, hget]
    split_ifs <;> simp [hid]

theorem touch_seen (h : Sees b mine m p) (hclock : p.clock = m.clock) (t : Touch) (id : String) :
    Sees b mine (m.touch t id b).1 (p.touch t id b).1 ∧
      (p.touch t id b).2 = (m.touch t id b).2 := by
  unfold Manager.touch
  rw [h.ownedActive_eq, hclock, h.config.2.2]
  cases howned : m.ownedActive id b m.clock with
  | none => exact ⟨h, rfl⟩
  | some s =>
    have hl := ownedActive_some howned
    have howner := owner_of_ownedActive howned
    have hid : mine id := (h.owned id s hl).mp howner
    have hput (m' p' : Manager) (hm : m'.sessions = m.sessions) (hp : p'.sessions = p.sessions)
        (hhist : ∀ k, mine k → p'.history k = m'.history k) (hcounts : p'.counts b = m'.counts b)
        (hconfig : m'.SameConfig p') :
        Sees b mine (m'.put (t.update s m.clock)) (p'.put (t.update s m.clock)) := by
      refine h.put (s := t.update s m.clock) ?_ ?_ (fun k ↦ ?_) (fun k ↦ ?_) hhist hcounts hconfig
      · rwa [touch_update_id, h.keyed id s hl]
      · rwa [touch_update_owner]
      · rw [Manager.lookup_put, hm]
      · rw [Manager.lookup_put, hp]
    have hcongr := append?_congr t m.caps (h.history id hid)
    cases hm : t.append? m.caps m.history id with
    | none =>
      have hp : t.append? m.caps p.history id = none := by simpa [hm] using hcongr
      rw [hp]
      exact ⟨hput m p rfl rfl h.history h.counts h.config, rfl⟩
    | some result =>
      cases result with
      | none =>
        have hp : t.append? m.caps p.history id = some none := by simpa [hm] using hcongr
        rw [hp]
        exact ⟨h, rfl⟩
      | some history =>
        obtain ⟨history', hp, heq⟩ : ∃ history', t.append? m.caps p.history id = some (some history') ∧
            history' id = history id := by simpa [hm] using hcongr
        rw [hp]
        refine ⟨hput _ _ rfl rfl (fun k hk ↦ ?_) h.counts ⟨h.config.1, h.config.2.1, rfl⟩, rfl⟩
        by_cases hne : k = id
        · rw [hne]
          exact heq
        · exact (append?_frame hp k hne).trans ((h.history k hk).trans (append?_frame hm k hne).symm)

theorem delete_seen (h : Sees b mine m p) (id : String) :
    Sees b mine (m.delete id b).1 (p.delete id b).1 ∧ (p.delete id b).2 = (m.delete id b).2 := by
  unfold Manager.delete
  have hrow := h.rows id
  cases hl : m.sessions.lookup id with
  | none =>
    rw [hl] at hrow
    rw [hrow]
    exact ⟨h.fail_seen id b _, rfl⟩
  | some s =>
    rw [hl] at hrow
    by_cases ho : s.ownerKeyID = b
    · have hp : p.sessions.lookup id = some s := by simpa [Option.filter, ho] using hrow
      obtain ⟨hrows, hhist, hcounts, hconfig⟩ := deleteSession_spec (o := b) hl .deleted
      obtain ⟨hrows', hhist', hcounts', hconfig'⟩ := deleteSession_spec (o := b) hp .deleted
      rw [hp]
      simp only [ho, ne_eq, not_true_eq_false, if_false, and_true]
      refine ⟨fun k ↦ ?_, fun k s' hl' ↦ ?_, fun k s' hl' ↦ ?_, fun k hk ↦ ?_, ?_, ?_⟩
      · rw [hrows, hrows', h.rows]
        split_ifs <;> rfl
      · rw [hrows] at hl'
        split_ifs at hl'
        exact h.owned k s' hl'
      · rw [hrows] at hl'
        split_ifs at hl'
        exact h.keyed k s' hl'
      · rw [hhist, hhist', h.history k hk]
      · rw [hcounts, hcounts', h.counts]
      · exact h.config.follow hconfig hconfig'
    · have hp : p.sessions.lookup id = none := by simpa [Option.filter, ho] using hrow
      rw [hp]
      simp only [ho, ne_eq, not_false_eq_true, if_true, and_true]
      exact h.fail_seen id b _

theorem sweep_seen (h : Sees b mine m p) (hclock : p.clock = m.clock) (order order' : List String) :
    Sees b mine (m.sweepExpired order) (p.sweepExpired order') := by
  have hkeyed' (id : String) (s : Session) (hl : p.sessions.lookup id = some s) : s.id = id := by
    rw [h.rows] at hl
    exact h.keyed id s (Option.eq_some_of_filter_eq_some hl)
  obtain ⟨hrows, hhist, hcounts, hconfig⟩ := sweepExpired_spec h.keyed order
  obtain ⟨hrows', hhist', hcounts', hconfig'⟩ := sweepExpired_spec hkeyed' order'
  refine ⟨fun k ↦ ?_, fun k s' hl' ↦ ?_, fun k s' hl' ↦ ?_, fun k hk ↦ ?_, ?_, ?_⟩
  · rw [hrows, hrows', h.rows, hclock, Option.filter_filter, Option.filter_filter]
    simp only [Bool.and_comm]
  · rw [hrows] at hl'
    exact h.owned k s' (Option.eq_some_of_filter_eq_some hl')
  · rw [hrows] at hl'
    exact h.keyed k s' (Option.eq_some_of_filter_eq_some hl')
  · rw [hhist, hhist', h.history k hk, h.lookup_mine hk, hclock]
  · have htally : p.sessions.tally (fun s ↦ s.ownerKeyID = b ∧ s.expired m.clock) =
        m.sessions.tally fun s ↦ s.ownerKeyID = b ∧ s.expired m.clock := by
      apply le_antisymm
      · refine Table.tally_mono fun id s hl _ ↦ ?_
        rw [h.rows] at hl
        exact Option.eq_some_of_filter_eq_some hl
      · refine Table.tally_mono fun id s hl hs ↦ ?_
        have howner : s.ownerKeyID = b := (of_decide_eq_true hs).1
        rw [h.rows, hl]
        simp [Option.filter, howner]
    rw [hcounts, hcounts', h.counts, hclock, htally]
  · exact h.config.follow hconfig hconfig'

theorem apply_hidden (h : Sees b mine m p) {op : Op} {o : String} (hkey : op.key? = some o)
    (ho : o ≠ b) (hminted : ∀ id, op.minted? = some (o, id) → ¬ mine id) :
    Sees b mine (m.apply op).1 p := by
  have hm : Sees b mine { m with clock := op.now } p :=
    ⟨h.rows, h.owned, h.keyed, h.history, h.counts, h.config⟩
  cases op with
  | create o' model minted now =>
    cases hkey
    exact hm.create_hidden ho model fun id hid ↦ hminted id (by simpa [Op.minted?] using hid)
  | touch t id o' now =>
    cases hkey
    exact hm.touch_hidden ho t id
  | delete id o' now =>
    cases hkey
    exact hm.delete_hidden ho id
  | get | historyOf | checkAppendable => exact hm
  | sweepExpired => cases hkey

theorem get_seen (h : Sees b mine m p) (hclock : p.clock = m.clock) (id : String) :
    p.get id b = m.get id b := by
  rw [Manager.get, Manager.get, h.ownedActive_eq, hclock]

theorem historyOf_seen (h : Sees b mine m p) (hclock : p.clock = m.clock) (id : String) :
    p.historyOf id b = m.historyOf id b := by
  rw [Manager.historyOf, Manager.historyOf, h.ownedActive_eq, hclock]
  cases howned : m.ownedActive id b m.clock with
  | none => rfl
  | some s =>
    have hid : mine id := (h.owned id s (ownedActive_some howned)).mp (owner_of_ownedActive howned)
    simp only [History.get, h.history id hid]

theorem checkAppendable_seen (h : Sees b mine m p) (hclock : p.clock = m.clock) (id : String)
    (turns : List Message) : p.checkAppendable id b turns = m.checkAppendable id b turns := by
  rw [Manager.checkAppendable, Manager.checkAppendable, h.ownedActive_eq, hclock, h.config.2.2]
  cases howned : m.ownedActive id b m.clock with
  | none => rfl
  | some s =>
    have hid : mine id := (h.owned id s (ownedActive_some howned)).mp (owner_of_ownedActive howned)
    have hreject : p.history.wouldReject m.caps id turns = m.history.wouldReject m.caps id turns := by
      rw [History.wouldReject, History.wouldReject, History.get, History.get, h.history id hid]
    simp only [hreject]

theorem apply_seen (h : Sees b mine m p) {op : Op} (hkey : op.key? = some b)
    (hminted : ∀ id, op.minted? = some (b, id) → mine id) :
    Sees b mine (m.apply op).1 (p.apply op).1 ∧ (p.apply op).2 = (m.apply op).2 := by
  have hm : Sees b mine { m with clock := op.now } { p with clock := op.now } :=
    ⟨h.rows, h.owned, h.keyed, h.history, h.counts, h.config⟩
  cases op with
  | create o model minted now =>
    cases hkey
    exact hm.create_seen rfl model fun id hid ↦ hminted id (by simpa [Op.minted?] using hid)
  | touch t id o now =>
    cases hkey
    exact hm.touch_seen rfl t id
  | delete id o now =>
    cases hkey
    exact hm.delete_seen id
  | get id o now =>
    cases hkey
    exact ⟨hm, hm.get_seen rfl id⟩
  | historyOf id o now =>
    cases hkey
    exact ⟨hm, hm.historyOf_seen rfl id⟩
  | checkAppendable id o turns now =>
    cases hkey
    exact ⟨hm, hm.checkAppendable_seen rfl id turns⟩
  | sweepExpired => cases hkey

end Sees

/-- What `b` is shown of an operation: its own calls, and that a sweep took place. -/
def Op.seenBy (b : String) : Op → Option Op
  | .sweepExpired now _ => some (.sweepExpired now [])
  | op => if op.key? = some b then some op else none

def results (b : String) (m : Manager) (ops : List Op) : List Outcome :=
  outputs Manager.apply (fun op r ↦ if op.key? = some b then some r else none) m ops

/-- The id is stored under `o` from the start or generated for `o` in the run. -/
def Belongs (m : Manager) (ops : List Op) (o id : String) : Prop :=
  (∃ s, m.sessions.lookup id = some s ∧ s.ownerKeyID = o) ∨ ∃ op ∈ ops, op.minted? = some (o, id)

/-- Generated ids are fresh at least across keys: none belongs to `b` and to another key. -/
def Apart (b : String) (m : Manager) (ops : List Op) : Prop :=
  ∀ id o, Belongs m ops b id → Belongs m ops o id → o = b

theorem results_eq_seen {b : String} {m p : Manager} {ops : List Op} {mine : String → Prop}
    (h : Sees b mine m p) (hgood : ∀ op ∈ ops, ∀ o id, op.minted? = some (o, id) → (o = b ↔ mine id)) :
    results b m ops = results b p (ops.filterMap (·.seenBy b)) := by
  refine outputs_eq_of_simulates (Sees b mine) ?_ ?_ h hgood
  · intro m p op h hgood hsee
    cases op with
    | sweepExpired => cases hsee
    | _ =>
      simp only [Op.seenBy, ite_eq_right_iff, reduceCtorEq, imp_false] at hsee
      refine ⟨h.apply_hidden rfl (fun hb ↦ hsee (congrArg some hb)) ?_, if_neg hsee⟩
      intro id hid hmine
      exact hsee (congrArg some ((hgood _ id hid).mpr hmine))
  · intro m p op op' h hgood hsee
    cases op with
    | sweepExpired now order =>
      cases hsee
      have hm : Sees b mine { m with clock := now } { p with clock := now } :=
        ⟨h.rows, h.owned, h.keyed, h.history, h.counts, h.config⟩
      exact ⟨hm.sweep_seen rfl order [], rfl⟩
    | _ =>
      simp only [Op.seenBy, Option.ite_none_right_eq_some, Option.some.injEq] at hsee
      obtain ⟨hkey, rfl⟩ := hsee
      obtain ⟨hnext, hout⟩ := h.apply_seen hkey fun id hid ↦ (hgood b id hid).mp rfl
      exact ⟨hnext, by rw [if_pos hkey, if_pos hkey, hout]⟩

def Manager.ownedBy (m : Manager) (b : String) : Manager :=
  { m with sessions := m.sessions.restrict fun s ↦ s.ownerKeyID = b }

theorem results_eq_ownedBy {b : String} {m : Manager} {ops : List Op}
    (hkeyed : ∀ id s, m.sessions.lookup id = some s → s.id = id) (hapart : Apart b m ops) :
    results b m ops = results b (m.ownedBy b) (ops.filterMap (·.seenBy b)) := by
  have hsees : Sees b (Belongs m ops b) m (m.ownedBy b) := by
    refine ⟨fun id ↦ Table.lookup_restrict _ _ id, fun id s hl ↦ ?_, hkeyed, fun _ _ ↦ rfl, rfl,
      rfl, rfl, rfl⟩
    constructor
    · intro ho
      exact .inl ⟨s, hl, ho⟩
    · intro hmine
      exact hapart id s.ownerKeyID hmine (.inl ⟨s, hl, rfl⟩)
  apply results_eq_seen hsees
  intro op hop o id hid
  constructor
  · intro ho
    exact .inr ⟨op, hop, ho ▸ hid⟩
  · intro hmine
    exact hapart id o hmine (.inr ⟨op, hop, hid⟩)

def Op.session? : Op → Option String
  | .touch _ id _ _ | .get id _ _ | .historyOf id _ _ | .checkAppendable id _ _ _ | .delete id _ _ =>
    some id
  | .create .. | .sweepExpired .. => none

def Manager.Withheld (m : Manager) (b id : String) (now : Time) : Prop :=
  ∀ s, m.sessions.lookup id = some s → s.ownerKeyID ≠ b ∨ s.expired now

theorem ownedActive_of_withheld {m : Manager} {b id : String} {now : Time}
    (h : m.Withheld b id now) : m.ownedActive id b now = none := by
  unfold Manager.ownedActive
  cases hl : m.sessions.lookup id with
  | none => rfl
  | some s => rcases h s hl with ho | he <;> simp_all

theorem apply_withheld {m : Manager} {b id : String} {op : Op} (h : m.Withheld b id op.now)
    (hkey : op.key? = some b) (hid : op.session? = some id) :
    (m.apply op).2 = .error .notFound ∨
      ∃ s, op = .delete id b op.now ∧ m.sessions.lookup id = some s ∧ s.ownerKeyID = b := by
  have hnone : ({ m with clock := op.now } : Manager).ownedActive id b op.now = none :=
    ownedActive_of_withheld h
  cases op with
  | create | sweepExpired => cases hid
  | touch t id' o now =>
    cases hkey
    cases hid
    exact .inl (by rw [Manager.apply, Manager.touch, hnone])
  | get id' o now =>
    cases hkey
    cases hid
    exact .inl (by rw [Manager.apply, Manager.get, hnone])
  | historyOf id' o now =>
    cases hkey
    cases hid
    exact .inl (by rw [Manager.apply, Manager.historyOf, hnone])
  | checkAppendable id' o turns now =>
    cases hkey
    cases hid
    exact .inl (by rw [Manager.apply, Manager.checkAppendable, hnone])
  | delete id' o now =>
    cases hkey
    cases hid
    cases hl : m.sessions.lookup id with
    | none => exact .inl (by simp [Manager.apply, Manager.delete, hl])
    | some s =>
      by_cases ho : s.ownerKeyID = b
      · exact .inr ⟨s, rfl, rfl, ho⟩
      · exact .inl (by simp [Manager.apply, Manager.delete, hl, ho])

/-- Two runs in which `b` makes the same calls and the same sweeps take place return the
same to `b`, whatever other keys do. To a key, a session that is missing, another key's or
expired is not there, except that it can still delete an expired one of its own. -/
theorem owners_isolated (b : String) (m : Manager)
    (hkeyed : ∀ id s, m.sessions.lookup id = some s → s.id = id) (ops₁ ops₂ : List Op)
    (hsame : ops₁.filterMap (·.seenBy b) = ops₂.filterMap (·.seenBy b))
    (hapart₁ : Apart b m ops₁) (hapart₂ : Apart b m ops₂) :
    results b m ops₁ = results b m ops₂ ∧
      ∀ (m' : Manager) (id : String) (op : Op), m'.Withheld b id op.now → op.key? = some b →
        op.session? = some id → (m'.apply op).2 = .error .notFound ∨
          ∃ s, op = .delete id b op.now ∧ m'.sessions.lookup id = some s ∧ s.ownerKeyID = b := by
  refine ⟨?_, fun m' id op h hkey hid ↦ apply_withheld h hkey hid⟩
  rw [results_eq_ownedBy hkeyed hapart₁, results_eq_ownedBy hkeyed hapart₂, hsame]

def aloneOps : List Op := [.create "b" "llama3" (some "x") 0, .get "x" "b" second]

def sharedOps : List Op :=
  [.create "a" "llama3" (some "y") 0, .create "b" "llama3" (some "x") 0, .delete "x" "a" 0,
    .touch (.bind "w1") "x" "a" 0, .get "x" "b" second]

theorem owners_isolated_sharedOps : results "b" {} aloneOps = results "b" {} sharedOps := by
  refine (owners_isolated "b" {} (by simp) aloneOps sharedOps rfl ?_ ?_).1
  · intro id o hb ho
    simp [Belongs, aloneOps, Op.minted?] at hb ho
    exact ho.1.symm
  · intro id o hb ho
    simp [Belongs, sharedOps, Op.minted?] at hb ho
    rcases ho with ⟨-, rfl⟩ | ⟨rfl, -⟩
    · simp at hb
    · rfl

/-- `Delete` tells an expired session of the caller's own from a missing one. -/
theorem delete_tells_expired_from_missing :
    results "b" {} [.create "b" "llama3" (some "x") 0, .get "x" "b" (31 * minute),
      .delete "x" "b" (31 * minute), .get "y" "b" (31 * minute), .delete "y" "b" (31 * minute)] =
      [.ok (.session ⟨"x", "b", "llama3", "", 0, 0, 30 * minute, .active⟩), .error .notFound,
        .ok .done, .error .notFound, .error .notFound] := by
  decide +kernel

end AgentGpu.Sessions
