import AgentGpu.Sessions.Lifecycle

namespace AgentGpu.Sessions

open Foundation

variable {m : Manager} {i k : Instr} {e : Effect Manager Instr} {R : Multiset Instr} {id o : String}

def reserving (o : String) : Instr → Bool
  | .newID o' _ | .releaseSlot o' => o' = o
  | .putNew s => s.ownerKeyID = o
  | _ => false

def settling (o : String) : Instr → Bool
  | .dropHistory _ o' _ _ | .settle _ o' _ _ => o' = o
  | _ => false

def removing : Instr → Bool
  | .recheck .. | .endStats .. | .dropRow .. | .dropHistory .. | .settle .. => true
  | _ => false

def owing (o : String) (i : Instr) : Bool := reserving o i || settling o i

def Instr.target? : Instr → Option String
  | .endStats id .. | .dropRow id .. => some id
  | _ => none

namespace Manager

variable {sessions : SessionTable} {s s' : Session}

theorem releaseSlot_balance (m : Manager) (o o' : String) (hpos : o' = o → 0 < m.counts o) :
    (m.releaseSlot o').counts o + (if o' = o then 1 else 0) = m.counts o := by
  by_cases h : o' = o
  · subst h
    have := hpos rfl
    simp only [releaseSlot, Function.update_self, if_true]
    split_ifs <;> omega
  · simp [releaseSlot, h, Ne.symm h]

theorem countOf_insert_of_notMem (h : s.id ∉ sessions) :
    countOf (sessions.insert s.id s) o = countOf sessions o + if s.ownerKeyID = o then 1 else 0 := by
  have := Table.tally_insert_of_notMem (b := s) (p := fun s ↦ s.ownerKeyID = o) h
  simp only [decide_eq_true_eq] at this
  exact this

theorem countOf_insert_of_owner (h : sessions.lookup s.id = some s') (ho : s.ownerKeyID = s'.ownerKeyID) :
    countOf (sessions.insert s.id s) o = countOf sessions o :=
  Table.tally_insert_of_eq h (by simp [ho])

theorem countOf_erase (h : sessions.lookup id = some s) :
    countOf (sessions.erase id) o + (if s.ownerKeyID = o then 1 else 0) = countOf sessions o := by
  have := Table.tally_erase (p := fun s ↦ s.ownerKeyID = o) h
  simp only [decide_eq_true_eq] at this
  exact this

end Manager

theorem countP_reap (p : Instr → Bool) (now : Time) (listed : List Session)
    (hp : ∀ id o, p (.lock id o .expired) = false) : (reap now listed).countP p = 0 := by
  rw [List.countP_eq_zero]
  intro k hk
  obtain ⟨s, -, rfl⟩ := mem_reap hk
  simp [hp]

theorem Step.lock_balance (hs : Step m i e) (hmu : removing i → m.countMu = true) :
    e.fresh.countP (removing ·) + m.countMu.toNat =
      (if removing i then 1 else 0) + e.shared.countMu.toNat := by
  rw [Effect.countP_fresh]
  induction hs with
  | call call => cases call <;> simp [entry, removing]
  | reserved hfree hr =>
    obtain ⟨rfl, -⟩ := Manager.reserveSlot_some hr
    simp [removing]
  | @list now listed =>
    have hreap := countP_reap removing now listed fun _ _ ↦ rfl
    simp [hreap, removing]
  | settle id o r st => cases st <;> simp [removing, hmu rfl]
  | alreadyGone => simp [removing, hmu rfl]
  | lock hfree => simp [removing, hfree]
  | _ => simp [removing]

theorem Lawful.countOf_putNew (h : Lawful m) {s : Session} (hlive : Live m (.putNew s)) :
    Manager.countOf (m.putNew s).sessions o =
      Manager.countOf m.sessions o + if s.ownerKeyID = o then 1 else 0 := by
  refine Manager.countOf_insert_of_notMem fun hin ↦ ?_
  obtain ⟨s', hs'⟩ := Option.isSome_iff_exists.mp (AList.lookup_isSome.mpr hin)
  have hborn : m.born s.id = none := hlive
  rw [(h.rows s.id s' hs').2] at hborn
  cases hborn

theorem Lawful.countOf_put (h : Lawful m) {s : Session} (hlive : Live m (.putBack s))
    (hi : Agrees m (.putBack s)) :
    Manager.countOf (m.put s).sessions o = Manager.countOf m.sessions o := by
  obtain ⟨s', hs'⟩ := Option.isSome_iff_exists.mp (AList.lookup_isSome.mpr hlive)
  have howner : s.ownerKeyID = s'.ownerKeyID :=
    Option.some.inj (hi.symm.trans (h.rows s.id s' hs').2)
  exact Manager.countOf_insert_of_owner hs' howner

theorem Step.tally_balance (hs : Step m i e) (hlive : Live m i) (h : Lawful m) (hi : Agrees m i)
    (htarget : ∀ id, i.target? = some id → id ∈ m.sessions) (hpos : owing o i → 0 < m.counts o) :
    e.shared.counts o + Manager.countOf m.sessions o + (if owing o i then 1 else 0) =
      m.counts o + Manager.countOf e.shared.sessions o + e.fresh.countP (owing o ·) := by
  rw [Effect.countP_fresh]
  induction hs with
  | call call => cases call <;> simp [entry, owing, reserving, settling]
  | @reserved o' model m' hfree hr =>
    obtain ⟨rfl, -⟩ := Manager.reserveSlot_some hr
    by_cases ho : o' = o
    · subst ho
      simp [owing, reserving, settling]
      omega
    · simp [owing, reserving, settling, ho, Ne.symm ho]
  | @list now listed =>
    have hreap := countP_reap (owing o) now listed fun _ _ ↦ rfl
    simp [hreap, owing, reserving, settling]
  | settle id o' r st =>
    have hobs : ((st.map Instr.observe).toList ++ ([] : List (List Instr)).flatten).countP (owing o) = 0 := by
      cases st <;> simp [owing, reserving, settling]
    have hrel := m.releaseSlot_balance o o' (by simpa [owing, reserving, settling] using hpos)
    rw [hobs, ← hrel]
    simp [owing, reserving, settling]
    omega
  | @released o' hfree =>
    have hrel := m.releaseSlot_balance o o' (by simpa [owing, reserving, settling] using hpos)
    rw [← hrel]
    simp [owing, reserving, settling]
    omega
  | putNew s =>
    simp [h.countOf_putNew hlive, owing, reserving, settling]
    omega
  | putBack s => simp [h.countOf_put hlive hi, owing, reserving, settling]
  | dropRow id o' r st =>
    obtain ⟨s, hs⟩ := Option.isSome_iff_exists.mp (AList.lookup_isSome.mpr (htarget id rfl))
    have howner : o' = s.ownerKeyID := Option.some.inj (hi.symm.trans (h.rows id s hs).2)
    have hcount := Manager.countOf_erase (o := o) hs
    simp [← hcount, owing, reserving, settling, howner]
    omega
  | _ => simp [owing, reserving, settling]

/-- `countMu` is held exactly while one removal is in its section, which still has the row it is
about to drop, and each owner's tally is its stored sessions plus the slots it owes. -/
structure Balanced (m : Manager) (S : Multiset Instr) : Prop where
  lock : S.countP (removing ·) = m.countMu.toNat
  target : ∀ i ∈ S, ∀ id, i.target? = some id → id ∈ m.sessions
  tally : ∀ o, m.counts o = Manager.countOf m.sessions o + S.countP (owing o ·)

theorem removing_of_target (h : i.target? = some id) : removing i := by
  cases i <;> first | rfl | cases h

theorem locked_of_removing (hlock : (i ::ₘ R).countP (removing ·) = m.countMu.toNat) (hi : removing i) :
    m.countMu = true ∧ R.countP (removing ·) = 0 := by
  rw [Multiset.countP_cons, if_pos hi] at hlock
  cases hmu : m.countMu with
  | true =>
    rw [hmu, Bool.toNat_true] at hlock
    exact ⟨rfl, by omega⟩
  | false => simp [hmu] at hlock

theorem Step.lock_count (hs : Step m i e) (hlock : (i ::ₘ R).countP (removing ·) = m.countMu.toNat) :
    (e.fresh + R).countP (removing ·) = e.shared.countMu.toNat := by
  have hbal := hs.lock_balance fun hr ↦ (locked_of_removing hlock hr).1
  rw [Multiset.countP_cons] at hlock
  rw [Multiset.countP_add]
  omega

theorem lock_of_reaches {c : Config Manager Instr} (hfree : m.countMu = false)
    (hrun : machine.Reaches (start m) c) : c.soup.countP (removing ·) = c.shared.countMu.toNat := by
  refine Machine.Runs.soup_invariant (fun m S ↦ S.countP (removing ·) = m.countMu.toNat) ?_ ?_ hrun
  · rw [show (start m).shared.countMu = false from hfree]
    rfl
  · intro c i x R e _ h _ he
    exact (step_of_exec he).lock_count h

theorem Balanced.alone (h : Balanced m (i ::ₘ R)) (hi : removing i) : ∀ k ∈ R, k.target? = none := by
  intro k hk
  cases ht : k.target? with
  | none => rfl
  | some id =>
    have hpos : 0 < R.countP (removing ·) := Multiset.countP_pos.mpr ⟨k, hk, removing_of_target ht⟩
    have hnone := (locked_of_removing h.lock hi).2
    omega

theorem Step.target_kept (hs : Step m i e) (hid : id ∈ m.sessions)
    (hi : ∀ o r st, i ≠ .dropRow id o r st) : id ∈ e.shared.sessions := by
  induction hs with
  | reserved hfree hr =>
    obtain ⟨rfl, -⟩ := Manager.reserveSlot_some hr
    exact hid
  | putNew s => exact (AList.mem_insert _).mpr (.inr hid)
  | putBack s => exact (AList.mem_insert _).mpr (.inr hid)
  | dropRow id' o r st =>
    refine AList.mem_erase.mpr ⟨?_, hid⟩
    rintro rfl
    exact hi o r st rfl
  | _ => exact hid

theorem Step.target_fresh (hs : Step m i e) (htarget : ∀ id, i.target? = some id → id ∈ m.sessions) :
    ∀ k ∈ e.fresh, ∀ id, k.target? = some id → id ∈ e.shared.sessions := by
  induction hs with
  | call call => cases call <;> simp [entry, Instr.target?]
  | present hl =>
    have hmem := AList.lookup_isSome.mp (Option.isSome_of_eq_some hl)
    simpa [Instr.target?] using hmem
  | endStats id => simpa [Instr.target?] using htarget id rfl
  | list listed =>
    intro k hk id hid
    obtain ⟨s, -, rfl⟩ := mem_reap (by simpa using hk)
    cases hid
  | settle id o r st => cases st <;> simp [Instr.target?]
  | _ => simp [Instr.target?]

theorem Step.balanced (hs : Step m i e) (hlive : Live m i) (hlaw : Lawful m) (hi : Agrees m i)
    (h : Balanced m (i ::ₘ R)) : Balanced e.shared (e.fresh + R) := by
  have htarget := h.target i (Multiset.mem_cons_self i R)
  refine ⟨?_, fun k hk id hid ↦ ?_, fun o ↦ ?_⟩
  · exact hs.lock_count h.lock
  · rcases Multiset.mem_add.mp hk with hk | hk
    · exact hs.target_fresh htarget k hk id hid
    · refine hs.target_kept (h.target k (Multiset.mem_cons_of_mem hk) id hid) ?_
      rintro o r st rfl
      rw [h.alone rfl k hk] at hid
      cases hid
  · have htally := h.tally o
    rw [Multiset.countP_cons] at htally
    have hbal := hs.tally_balance (o := o) hlive hlaw hi htarget fun ho ↦ by
      rw [if_pos ho] at htally
      omega
    rw [Multiset.countP_add]
    omega

theorem Manager.releaseSlot_counts_le (m : Manager) (o o' : String) :
    (m.releaseSlot o).counts o' ≤ m.counts o' := by
  by_cases h : o' = o
  · subst h
    simp only [releaseSlot, Function.update_self]
    split_ifs <;> omega
  · simp [releaseSlot, Function.update_of_ne h]

theorem Step.counts_le {N : ℕ} (hs : Step m i e) (hpos : 0 < N) (hcap : m.maxPerKey = N)
    (hbound : ∀ o, m.counts o ≤ N) : e.shared.maxPerKey = N ∧ ∀ o, e.shared.counts o ≤ N := by
  induction hs with
  | @reserved o model m' hfree hr =>
    obtain ⟨rfl, hlt⟩ := Manager.reserveSlot_some hr
    refine ⟨hcap, fun o' ↦ ?_⟩
    dsimp only
    by_cases ho : o' = o
    · subst ho
      have := hlt (by omega)
      rw [Function.update_self]
      omega
    · rw [Function.update_of_ne ho]
      exact hbound o'
  | released | settle => exact ⟨hcap, fun o' ↦ (m.releaseSlot_counts_le _ o').trans (hbound o')⟩
  | _ => exact ⟨hcap, hbound⟩

theorem balanced_boot (m : Manager) : Balanced (boot m) (start (boot m)).soup := by
  refine ⟨rfl, fun i hi id hid ↦ ?_, fun o ↦ rfl⟩
  have hserve : i = .serve := by simpa [start, Config.soup] using hi
  subst hserve
  cases hid

theorem balanced_of_runs {c : Config Manager Instr} (hrows : RowsKeyed m)
    (hrun : machine.Runs WritesLive (start (boot m)) c) : Balanced c.shared c.soup := by
  have hstrong := hrun.strengthen fun c hc ↦ lawful_of_runs hrows hc
  refine hstrong.soup_invariant Balanced (balanced_boot m) ?_
  intro c i x R e hR h hg he
  obtain ⟨hlive, hlaw, hagree⟩ := hg
  have hi : Agrees c.shared i := hagree i (by rw [hR]; exact Multiset.mem_cons_self i R)
  exact (step_of_exec he).balanced hlive hlaw hi h

/-- With every write-back finding its row still stored: whenever no removal is in its locked
section each owner's tally is its stored sessions plus its creates in flight, and no owner
ever stores more than the cap. -/
theorem session_cap_holds (m : Manager) (N : ℕ) (hpos : 0 < N) (hcap : m.maxPerKey = N)
    (hrows : RowsKeyed m) (hwithin : ∀ o, Manager.countOf m.sessions o ≤ N)
    (c : Config Manager Instr) (hrun : machine.Runs WritesLive (start (boot m)) c) (o : String) :
    ((∀ i ∈ c.soup, removing i = false) →
        c.shared.counts o = Manager.countOf c.shared.sessions o + c.soup.countP (reserving o ·)) ∧
      Manager.countOf c.shared.sessions o ≤ N := by
  have htally := (balanced_of_runs hrows hrun).tally o
  have hbound : c.shared.maxPerKey = N ∧ ∀ o, c.shared.counts o ≤ N := by
    refine hrun.shared_invariant (fun m ↦ m.maxPerKey = N ∧ ∀ o, m.counts o ≤ N) ⟨hcap, hwithin⟩ ?_
    intro c i x e h _ he
    exact (step_of_exec he).counts_le hpos h.1 h.2
  refine ⟨fun hfree ↦ ?_, by have := hbound.2 o; omega⟩
  rw [htally]
  congr 1
  refine Multiset.countP_congr rfl fun i hi ↦ ?_
  have hnot : settling o i = false := by
    have := hfree i hi
    cases i <;> first | rfl | cases this
  simp [owing, hnot]

def cappedSession : Manager := { oneSession with maxPerKey := 1 }

theorem cappedSession_within (o : String) : Manager.countOf cappedSession.sessions o ≤ 1 := by
  have hle : Manager.countOf cappedSession.sessions o ≤ cappedSession.sessions.entries.length :=
    List.countP_le_length
  simpa [cappedSession, oneSession] using hle

theorem session_cap_holds_cappedSession :
    ∃ c, machine.Runs WritesLive (start (boot cappedSession)) c ∧
      ("sess_1" ∈ c.shared.sessions ∧ Manager.countOf c.shared.sessions "a1" ≤ 1) := by
  have hplay : ∃ c, machine.Runs WritesLive (start (boot cappedSession)) c ∧
      "sess_1" ∈ c.shared.sessions := by
    apply Machine.exists_run [(0, .call (.create "a1" "llama3")), (1, .go),
      (0, .call (.delete "sess_0" "a1")), (2, .go), (2, .go), (2, .go), (2, .go), (2, .go), (2, .go),
      (2, .go), (0, .call (.create "a1" "llama3")), (3, .go), (3, .mint (some "sess_1")), (3, .go)]
    decide
  obtain ⟨c, hrun, hmem⟩ := hplay
  have hcap := session_cap_holds cappedSession 1 Nat.one_pos rfl oneSession_keyed cappedSession_within
    c hrun "a1"
  exact ⟨c, hrun, hmem, hcap.2⟩

/-- A `Resume` racing a `Delete` stores the session again after its slot was released, so
the next create is admitted: two stored sessions under a cap of one. -/
theorem session_cap_exceeded_by_resume :
    cappedSession.maxPerKey = 1 ∧ ∃ c, machine.Reaches (start (boot cappedSession)) c ∧
      (c.shared.countMu = false ∧ c.shared.counts "a1" = 1 ∧
        Manager.countOf c.shared.sessions "a1" = 2) := by
  refine ⟨rfl, ?_⟩
  apply Machine.exists_run [(0, .call (.touch .resume "sess_0" "a1")), (1, .go), (1, .go), (1, .go),
    (0, .call (.delete "sess_0" "a1")), (2, .go), (2, .go), (2, .go), (2, .go), (2, .go), (2, .go),
    (2, .go), (1, .go), (0, .call (.create "a1" "llama3")), (3, .go), (3, .mint (some "sess_1")), (3, .go)]
  decide

end AgentGpu.Sessions
