import AgentGpu.Sessions.Steps

namespace AgentGpu.Sessions

open Foundation

variable {m : Manager} {i k : Instr} {e : Effect Manager Instr} {id o : String}

theorem mem_reap {now : Time} {listed : List Session} (h : k ∈ reap now listed) :
    ∃ s ∈ listed, k = .lock s.id s.ownerKeyID .expired := by
  obtain ⟨s, hs, rfl⟩ := List.mem_map.mp h
  exact ⟨s, (List.mem_filter.mp hs).1, rfl⟩

section Keyed

def RowsKeyed (m : Manager) : Prop := ∀ id s, m.sessions.lookup id = some s → s.id = id

def CarriesKeyed : Instr → Prop
  | .append _ id s _ => s.id = id
  | _ => True

theorem RowsKeyed.put (h : RowsKeyed m) (s : Session) : RowsKeyed (m.put s) := by
  intro id s' hs'
  rw [Manager.lookup_put] at hs'
  split_ifs at hs' with hid
  · cases hs'
    exact hid.symm
  · exact h id s' hs'

theorem RowsKeyed.erase (h : RowsKeyed m) (id : String) :
    RowsKeyed { m with sessions := m.sessions.erase id } := by
  intro id' s hs
  by_cases hid : id' = id
  · subst hid
    rw [AList.lookup_erase] at hs
    cases hs
  · rw [AList.lookup_erase_ne hid] at hs
    exact h id' s hs

theorem Step.keyed (hs : Step m i e) (h : RowsKeyed m) :
    RowsKeyed e.shared ∧ ∀ k ∈ e.fresh, CarriesKeyed k := by
  induction hs with
  | call call => exact ⟨h, by cases call <;> simp [entry, CarriesKeyed]⟩
  | reserved hmu hr =>
    obtain ⟨rfl, -⟩ := Manager.reserveSlot_some hr
    exact ⟨h, Effect.forall_fresh_singleton trivial⟩
  | putNew s => exact ⟨h.put s, Effect.forall_fresh_nil⟩
  | putBack s => exact ⟨h.put s, Effect.forall_fresh_nil⟩
  | owned hl => exact ⟨h, Effect.forall_fresh_singleton (h _ _ hl)⟩
  | dropRow id => exact ⟨h.erase id, Effect.forall_fresh_singleton trivial⟩
  | settle id o r st => exact ⟨h, by cases st <;> simp [CarriesKeyed]⟩
  | list listed =>
    refine ⟨h, fun k hk ↦ ?_⟩
    obtain ⟨s, -, rfl⟩ := mem_reap (by simpa using hk)
    trivial
  | _ =>
    refine ⟨h, ?_⟩
    first
    | exact Effect.forall_fresh_singleton trivial
    | exact Effect.forall_fresh_nil

theorem keyed_of_reaches {c : Config Manager Instr} (h : RowsKeyed m)
    (hrun : machine.Reaches (start m) c) :
    RowsKeyed c.shared ∧ ∀ i ∈ c.soup, CarriesKeyed i := by
  refine Machine.Runs.local_invariant RowsKeyed (fun _ ↦ CarriesKeyed) h
    (by simp [start, Config.soup, CarriesKeyed]) ?_ ?_ hrun
  · intro c i x e hI _ _ he
    exact (step_of_exec he).keyed hI
  · intro c i x e _ _ _ _ k _ hk
    exact hk

end Keyed

section Histories

def Restores (id : String) : Instr → Prop
  | .putBack s => s.id = id
  | .dropHistory id' _ _ _ => id' = id
  | _ => False

def HistoriesOwned (m : Manager) (S : Multiset Instr) : Prop :=
  ∀ id, (m.history id).isSome → id ∈ m.sessions ∨ ∃ i ∈ S, Restores id i

theorem HistoriesOwned.split {R : Multiset Instr} (h : HistoriesOwned m (i ::ₘ R))
    (hid : (m.history id).isSome) : id ∈ m.sessions ∨ Restores id i ∨ ∃ k ∈ R, Restores id k := by
  rcases h id hid with hin | ⟨k, hk, hr⟩
  · exact .inl hin
  · rcases Multiset.mem_cons.mp hk with rfl | hk
    · exact .inr (.inl hr)
    · exact .inr (.inr ⟨k, hk, hr⟩)

theorem restores_of_rest {F R : Multiset Instr} (h : ∃ k ∈ R, Restores id k) :
    ∃ k ∈ F + R, Restores id k := by
  obtain ⟨k, hk, hr⟩ := h
  exact ⟨k, Multiset.mem_add.mpr (.inr hk), hr⟩

theorem HistoriesOwned.of_frame {m' : Manager} {F R : Multiset Instr}
    (h : HistoriesOwned m (i ::ₘ R)) (hi : ∀ id, ¬ Restores id i) (hh : m'.history = m.history)
    (hs : ∀ id ∈ m.sessions, id ∈ m'.sessions) : HistoriesOwned m' (F + R) := by
  intro id hid
  rw [hh] at hid
  rcases h.split hid with hin | hr | hr
  · exact .inl (hs id hin)
  · exact absurd hr (hi id)
  · exact .inr (restores_of_rest hr)

theorem Step.historiesOwned {R : Multiset Instr} (hs : Step m i e) (hkey : CarriesKeyed i)
    (h : HistoriesOwned m (i ::ₘ R)) : HistoriesOwned e.shared (e.fresh + R) := by
  induction hs with
  | reserved hmu hr =>
    obtain ⟨rfl, -⟩ := Manager.reserveSlot_some hr
    exact h.of_frame (by simp [Restores]) rfl fun _ hid ↦ hid
  | putNew s =>
    refine h.of_frame (by simp [Restores]) rfl fun id hid ↦ ?_
    exact (AList.mem_insert _).mpr (.inr hid)
  | @appended t id s now history hframe =>
    intro id' hid'
    by_cases hne : id' = id
    · refine .inr ⟨.putBack (t.update s now), by simp [Effect.fresh], ?_⟩
      rw [Restores, touch_update_id, hne]
      exact hkey
    · have hold : (m.history id').isSome := by rw [← hframe id' hne]; exact hid'
      rcases h.split hold with hin | hr | hr
      · exact .inl hin
      · exact absurd hr (by simp [Restores])
      · exact .inr (restores_of_rest hr)
  | putBack s =>
    intro id hid
    rcases h.split hid with hin | hr | hr
    · exact .inl ((AList.mem_insert _).mpr (.inr hin))
    · exact .inl ((AList.mem_insert _).mpr (.inl hr.symm))
    · exact .inr (restores_of_rest hr)
  | dropRow id o r st =>
    intro id' hid'
    by_cases hne : id' = id
    · exact .inr ⟨.dropHistory id o r st, by simp [Effect.fresh], hne.symm⟩
    · rcases h.split hid' with hin | hr | hr
      · exact .inl (AList.mem_erase.mpr ⟨hne, hin⟩)
      · exact absurd hr (by simp [Restores])
      · exact .inr (restores_of_rest hr)
  | dropHistory id o r st =>
    intro id' hid'
    by_cases hne : id' = id
    · subst hne
      simp [History.deleteBySession] at hid'
    · have hold : (m.history id').isSome := by
        simpa [History.deleteBySession, Function.update_of_ne hne] using hid'
      rcases h.split hold with hin | hr | hr
      · exact .inl hin
      · exact absurd hr.symm hne
      · exact .inr (restores_of_rest hr)
  | _ => exact h.of_frame (by simp [Restores]) rfl fun _ hid ↦ hid

def Idle (c : Config Manager Instr) : Prop := ∀ i ∈ c.soup, i = .serve

theorem histories_owned_of_reaches {c : Config Manager Instr} (hrows : RowsKeyed m)
    (hist : ∀ id, (m.history id).isSome → id ∈ m.sessions) (hrun : machine.Reaches (start m) c)
    (hidle : Idle c) (hid : (c.shared.history id).isSome) : id ∈ c.shared.sessions := by
  have hkeyed := Machine.Runs.strengthen (fun c hc ↦ keyed_of_reaches hrows hc) hrun
  have hinv : HistoriesOwned c.shared c.soup := by
    refine hkeyed.soup_invariant HistoriesOwned (fun id hid ↦ .inl (hist id hid)) ?_
    intro c i x R e hR h hg he
    have hi : CarriesKeyed i := hg.2.2 i (by rw [hR]; exact Multiset.mem_cons_self i R)
    exact (step_of_exec he).historiesOwned hi h
  rcases hinv id hid with hin | ⟨i, hi, hr⟩
  · exact hin
  · rw [hidle i hi] at hr
    exact absurd hr (by simp [Restores])

end Histories

section Deleted

/-- A session written back is still stored, and a created one gets an id never stored before. -/
def Live (m : Manager) : Instr → Prop
  | .putBack s => s.id ∈ m.sessions
  | .putNew s => m.born s.id = none
  | _ => True

def WritesLive (c : Config Manager Instr) (i : Instr) (_ : Choice) : Prop := Live c.shared i

instance (c : Config Manager Instr) (i : Instr) (x : Choice) : Decidable (WritesLive c i x) := by
  delta WritesLive Live
  induction i using Instr.casesOn <;> infer_instance

def Absent (m : Manager) (id : String) : Prop := m.sessions.lookup id = none ∧ (m.born id).isSome

structure Lawful (m : Manager) : Prop where
  rows : ∀ id s, m.sessions.lookup id = some s → s.id = id ∧ m.born id = some s.ownerKeyID
  gone : ∀ id ∈ m.gone, Absent m id

/-- What an instruction in flight remembers of a session agrees with its first owner, and a
removal past its row delete finds no row. -/
def Agrees (m : Manager) : Instr → Prop
  | .append _ id s _ => s.id = id ∧ m.born id = some s.ownerKeyID
  | .putBack s => m.born s.id = some s.ownerKeyID
  | .lock id o _ | .recheck id o _ | .endStats id o _ _ | .dropRow id o _ _ => m.born id = some o
  | .dropHistory id o _ _ | .settle id o _ _ => m.born id = some o ∧ Absent m id
  | _ => True

theorem Step.born (hs : Step m i e) (hlive : Live m i) (h : m.born id = some o) :
    e.shared.born id = some o := by
  induction hs with
  | putNew s =>
    have hne : id ≠ s.id := by
      rintro rfl
      rw [show m.born s.id = none from hlive] at h
      cases h
    exact (Function.update_of_ne hne _ _).trans h
  | reserved hmu hr =>
    obtain ⟨rfl, -⟩ := Manager.reserveSlot_some hr
    exact h
  | _ => exact h

theorem Step.absent (hs : Step m i e) (hlive : Live m i) (h : Absent m id) : Absent e.shared id := by
  obtain ⟨hrow, hborn⟩ := h
  obtain ⟨o, ho⟩ := Option.isSome_iff_exists.mp hborn
  refine ⟨?_, by rw [hs.born hlive ho]; rfl⟩
  induction hs with
  | putNew s =>
    have hne : id ≠ s.id := by
      rintro rfl
      rw [show m.born s.id = none from hlive] at ho
      cases ho
    exact (AList.lookup_insert_ne hne).trans hrow
  | putBack s =>
    have hne : id ≠ s.id := by
      rintro rfl
      exact AList.lookup_eq_none.mp hrow hlive
    exact (AList.lookup_insert_ne hne).trans hrow
  | dropRow id' =>
    by_cases hne : id = id'
    · subst hne
      exact AList.lookup_erase _ _
    · exact (AList.lookup_erase_ne hne).trans hrow
  | reserved hmu hr =>
    obtain ⟨rfl, -⟩ := Manager.reserveSlot_some hr
    exact hrow
  | _ => exact hrow

theorem Step.agrees_stable (hs : Step m i e) (hlive : Live m i) (h : Agrees m k) :
    Agrees e.shared k := by
  cases k with
  | append t id s now => exact ⟨h.1, hs.born hlive h.2⟩
  | putBack | lock | recheck | endStats | dropRow => exact hs.born hlive h
  | dropHistory | settle => exact ⟨hs.born hlive h.1, hs.absent hlive h.2⟩
  | _ => trivial

theorem Lawful.rows_put (h : Lawful m) {s s' : Session} {born : String → Option String}
    (hborn : born s.id = some s.ownerKeyID) (hold : ∀ id o, m.born id = some o → born id = some o)
    (hl : (m.put s).sessions.lookup id = some s') : s'.id = id ∧ born id = some s'.ownerKeyID := by
  rw [Manager.lookup_put] at hl
  split_ifs at hl with hid
  · cases hl
    exact ⟨hid.symm, hid ▸ hborn⟩
  · obtain ⟨hkey, ho⟩ := h.rows id s' hl
    exact ⟨hkey, hold id _ ho⟩

theorem Lawful.rows_erase (h : Lawful m) {s : Session} {id' : String}
    (hl : (m.sessions.erase id').lookup id = some s) :
    s.id = id ∧ m.born id = some s.ownerKeyID := by
  have hne : id ≠ id' := by
    rintro rfl
    rw [AList.lookup_erase] at hl
    cases hl
  rw [AList.lookup_erase_ne hne] at hl
  exact h.rows id s hl

theorem Manager.mem_gone_after {m' : Manager} {id' : String} {r : EndReason}
    (h : id' ∈ m'.gone) (hreturned : m'.returned = m.returnedAfter id o r)
    (hswept : m'.swept ⊆ id :: m.swept) : id' = id ∨ id' ∈ m.gone := by
  rcases List.mem_append.mp h with h | h
  · rw [hreturned, Manager.returnedAfter] at h
    split_ifs at h
    · exact (List.mem_cons.mp h).imp_right (List.mem_append_left _)
    · exact .inr (List.mem_append_left _ h)
  · exact (List.mem_cons.mp (hswept h)).imp_right (List.mem_append_right _)

theorem Manager.sweptAfter_subset (m : Manager) (id : String) (r : EndReason) :
    m.sweptAfter id r ⊆ id :: m.swept := by
  unfold Manager.sweptAfter
  split_ifs
  · exact List.subset_cons_self _ _
  · exact List.Subset.refl _

theorem Step.lawful (hs : Step m i e) (hlive : Live m i) (h : Lawful m) (hi : Agrees m i) :
    Lawful e.shared ∧ ∀ k ∈ e.fresh, Agrees e.shared k := by
  have hgone (id : String) (hid : id ∈ m.gone) : Absent e.shared id := hs.absent hlive (h.gone id hid)
  induction hs with
  | call call => exact ⟨h, by cases call <;> simp [entry, Agrees]⟩
  | reserved hmu hr =>
    obtain ⟨rfl, -⟩ := Manager.reserveSlot_some hr
    exact ⟨⟨h.rows, hgone⟩, Effect.forall_fresh_singleton trivial⟩
  | putNew s =>
    refine ⟨⟨fun id s' hl ↦ h.rows_put ?_ ?_ hl, hgone⟩, Effect.forall_fresh_nil⟩
    · exact Function.update_self _ _ _
    · exact fun id o ho ↦ (Step.putNew s).born hlive ho
  | putBack s =>
    exact ⟨⟨fun id s' hl ↦ h.rows_put hi (fun _ _ ho ↦ ho) hl, hgone⟩, Effect.forall_fresh_nil⟩
  | owned hl => exact ⟨h, Effect.forall_fresh_singleton (h.rows _ _ hl)⟩
  | appended history hframe =>
    refine ⟨⟨h.rows, hgone⟩, ?_⟩
    obtain ⟨hkey, ho⟩ := hi
    simp [Agrees, hkey, ho]
  | found hl => exact ⟨h, Effect.forall_fresh_singleton (h.rows _ _ hl).2⟩
  | lock hmu => exact ⟨⟨h.rows, hgone⟩, Effect.forall_fresh_singleton hi⟩
  | notFound id o =>
    refine ⟨⟨h.rows, fun id' hid' ↦ hgone id' ?_⟩, Effect.forall_fresh_nil⟩
    simpa [Manager.gone, Manager.fail] using hid'
  | @alreadyGone id o r hl =>
    refine ⟨⟨h.rows, fun id' hid' ↦ ?_⟩, Effect.forall_fresh_nil⟩
    rcases Manager.mem_gone_after (m := m) hid' rfl (List.subset_cons_self _ _) with rfl | hid'
    · exact ⟨hl, by rw [show m.born id' = some o from hi]; rfl⟩
    · exact hgone id' hid'
  | present | endStats => exact ⟨h, Effect.forall_fresh_singleton hi⟩
  | dropRow id o r st =>
    refine ⟨⟨fun id' s hl ↦ h.rows_erase hl, hgone⟩, ?_⟩
    have hborn : m.born id = some o := hi
    simp [Agrees, Absent, hborn]
  | dropHistory id o r st => exact ⟨⟨h.rows, hgone⟩, Effect.forall_fresh_singleton hi⟩
  | settle id o r st =>
    refine ⟨⟨h.rows, fun id' hid' ↦ ?_⟩, by cases st <;> simp [Agrees]⟩
    rcases Manager.mem_gone_after (m := m) hid' rfl (m.sweptAfter_subset id r) with rfl | hid'
    · exact hi.2
    · exact hgone id' hid'
  | list listed hlisted =>
    refine ⟨h, fun k hk ↦ ?_⟩
    obtain ⟨s, hs, rfl⟩ := mem_reap (by simpa using hk)
    obtain ⟨id, hl⟩ := hlisted s hs
    obtain ⟨hkey, ho⟩ := h.rows id s hl
    rw [Agrees, hkey]
    exact ho
  | _ =>
    refine ⟨⟨h.rows, hgone⟩, ?_⟩
    first
    | exact Effect.forall_fresh_singleton trivial
    | exact Effect.forall_fresh_nil

theorem lawful_boot (h : RowsKeyed m) : Lawful (boot m) := by
  refine ⟨fun id s hs ↦ ⟨h id s hs, ?_⟩, fun id hid ↦ by cases hid⟩
  have hl : m.sessions.lookup id = some s := hs
  simp [boot, hl]

theorem lawful_of_runs {c : Config Manager Instr} (h : RowsKeyed m)
    (hrun : machine.Runs WritesLive (start (boot m)) c) :
    Lawful c.shared ∧ ∀ i ∈ c.soup, Agrees c.shared i := by
  refine hrun.local_invariant Lawful Agrees (lawful_boot h)
    (by simp [start, Config.soup, Agrees]) ?_ ?_
  · intro c i x e hI hJ hg he
    exact (step_of_exec he).lawful hg hI hJ
  · intro c i x e _ _ hg he k _ hk
    exact (step_of_exec he).agrees_stable hg hk

/-- If every write-back finds its row still stored, a session deleted or swept never comes
back; and in every run at all, no history outlives its session once nothing is in flight. -/
theorem deleted_sessions_stay_deleted (m : Manager) (hrows : RowsKeyed m)
    (hist : ∀ id, (m.history id).isSome → id ∈ m.sessions) :
    (∀ c, machine.Runs WritesLive (start (boot m)) c → ∀ id ∈ c.shared.gone, id ∉ c.shared.sessions) ∧
      ∀ c, machine.Reaches (start (boot m)) c → Idle c →
        ∀ id, (c.shared.history id).isSome → id ∈ c.shared.sessions := by
  refine ⟨fun c hrun id hid ↦ ?_, fun c hrun hidle id hid ↦ ?_⟩
  · have habsent := (lawful_of_runs hrows hrun).1.gone id hid
    exact AList.lookup_eq_none.mp habsent.1
  · exact histories_owned_of_reaches (m := boot m) hrows hist hrun hidle hid

def oneSession : Manager :=
  { sessions := AList.singleton "sess_0" ⟨"sess_0", "a1", "llama3", "", 0, 0, 30 * minute, .active⟩ }

theorem oneSession_keyed : RowsKeyed oneSession := by
  intro id s hs
  have hmem := AList.mem_lookup_iff.mp (Option.mem_def.mpr hs)
  simp only [oneSession, AList.singleton_entries, List.mem_singleton] at hmem
  cases hmem
  rfl

theorem deleted_sessions_stay_deleted_oneSession :
    ∃ c, machine.Runs WritesLive (start (boot oneSession)) c ∧
      (c.shared.gone = ["sess_0"] ∧ "sess_0" ∉ c.shared.sessions) := by
  have hplay : ∃ c, machine.Runs WritesLive (start (boot oneSession)) c ∧ c.shared.gone = ["sess_0"] := by
    apply Machine.exists_run [(0, .call (.touch .resume "sess_0" "a1")), (1, .go), (1, .go), (1, .go),
      (1, .go), (0, .call (.delete "sess_0" "a1")), (2, .go), (2, .go), (2, .go), (2, .go), (2, .go),
      (2, .go), (2, .go)]
    decide
  obtain ⟨c, hrun, hgone⟩ := hplay
  have hall := deleted_sessions_stay_deleted oneSession oneSession_keyed (by intro id h; cases h)
  exact ⟨c, hrun, hgone, hall.1 c hrun "sess_0" (by rw [hgone]; exact List.mem_singleton_self _)⟩

/-- `Resume` reads the row, a `Delete` of the session runs to its end and returns nil, and
the `Put` of the resume then stores the session again. -/
theorem resume_resurrects_deleted_session :
    ∃ c, machine.Reaches (start (boot oneSession)) c ∧
      "sess_0" ∈ c.shared.gone ∧ "sess_0" ∈ c.shared.sessions := by
  apply Machine.exists_run [(0, .call (.touch .resume "sess_0" "a1")), (1, .go), (1, .go), (1, .go),
    (0, .call (.delete "sess_0" "a1")), (2, .go), (2, .go), (2, .go), (2, .go), (2, .go),
    (2, .go), (2, .go), (1, .go)]
  decide

end Deleted

end AgentGpu.Sessions
