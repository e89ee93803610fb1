import AgentGpu.Foundation.History
import AgentGpu.Foundation.Schedules
import AgentGpu.Sessions.Cap
import Mathlib.Algebra.BigOperators.Group.Multiset.Basic

namespace AgentGpu.Sessions

open Foundation

/-- The rows that removals have deleted, as they were stored then, and the rows that creates
have stored. -/
structure EndLog where
  removed : List Session := []
  created : List Session := []

def EndLog.note (m : Manager) : Instr → Choice → EndLog → EndLog
  | .dropRow id _ _ _, _, l => { l with removed := (m.sessions.lookup id).toList ++ l.removed }
  | .putNew s, _, l => { l with created := s :: l.created }
  | _, _, l => l

/-- What an observer is to be told of a removal's statistics. -/
def turnsOf (stats : Option SessionEndStats) : Multiset ℕ := stats.elim 0 fun st ↦ {st.turns}

namespace Instr

def reports : Instr → Multiset ℕ
  | .dropHistory _ _ _ stats | .settle _ _ _ stats => turnsOf stats
  | .observe stats => turnsOf (some stats)
  | _ => 0

def willReport : Instr → Multiset ℕ
  | .dropRow _ _ _ stats => turnsOf stats
  | _ => 0

end Instr

/-- The sessions of `S` are only removed, and only they are: no `Resume`, `Bind` or `AppendTurn`
begins on one of them, and a created session gets an id that is outside `S` and was never stored. -/
def RemovedOnly (S : String → Bool) (m : Manager) : Instr → Prop
  | .touch _ id _ => S id = false
  | .putNew s => S s.id = false ∧ m.born s.id = none
  | .lock id _ _ => S id
  | _ => True

instance (S : String → Bool) (m : Manager) (i : Instr) : Decidable (RemovedOnly S m i) := by
  delta RemovedOnly
  induction i using Instr.casesOn <;> infer_instance

variable {S : String → Bool} {m₀ m : Manager} {i k : Instr} {x : Choice} {e : Effect Manager Instr}
  {l : EndLog} {R : Multiset Instr} {id o : String}

section Removing

/-- What is in flight on a session outside `S` finds its row, and a removal is of a session
of `S`. -/
def Outside (S : String → Bool) (m : Manager) : Instr → Prop
  | .ownedActive _ id _ _ => S id = false
  | .append _ id s _ => S id = false ∧ s.id = id ∧ id ∈ m.sessions
  | .putBack s => S s.id = false ∧ s.id ∈ m.sessions
  | .recheck id _ _ | .endStats id _ _ _ | .dropRow id _ _ _ | .dropHistory id _ _ _
  | .settle id _ _ _ => S id
  | _ => True

theorem live_of_outside (hguard : RemovedOnly S m i) (hi : Outside S m i) : Live m i := by
  cases i with
  | putBack s => exact hi.2
  | putNew s => exact hguard.2
  | _ => trivial

theorem Step.outside_fresh (hs : Step m i e) (hkeyed : RowsKeyed m) (hguard : RemovedOnly S m i) (hi : Outside S m i) :
    ∀ k ∈ e.fresh, Outside S e.shared k := by
  induction hs with
  | call call => cases call <;> simp [entry, Outside]
  | touch t id o => exact Effect.forall_fresh_singleton hguard
  | @owned t id o now s hl =>
    have hmem := AList.lookup_isSome.mp (Option.isSome_of_eq_some hl)
    exact Effect.forall_fresh_singleton ⟨hi, hkeyed id s hl, hmem⟩
  | @appended t id s now history =>
    obtain ⟨hS, rfl, hmem⟩ := hi
    exact Effect.forall_fresh_singleton (by simpa [Outside] using ⟨hS, hmem⟩)
  | lock => exact Effect.forall_fresh_singleton hguard
  | present | endStats | dropRow | dropHistory => exact Effect.forall_fresh_singleton hi
  | settle id o r st => cases st <;> simp [Outside]
  | list listed =>
    intro k hk
    obtain ⟨s, -, rfl⟩ := mem_reap (by simpa using hk)
    trivial
  | _ =>
    first
    | exact Effect.forall_fresh_singleton trivial
    | exact Effect.forall_fresh_nil

theorem Step.outside_stable (hs : Step m i e) (hi : Outside S m i) (hk : Outside S m k) : Outside S e.shared k := by
  have hstays {id : String} (hS : S id = false) (hid : id ∈ m.sessions) : id ∈ e.shared.sessions := by
    refine hs.target_kept hid ?_
    rintro o r st rfl
    rw [show S id = true from hi] at hS
    cases hS
  cases k with
  | append t id s now => exact ⟨hk.1, hk.2.1, hstays hk.1 hk.2.2⟩
  | putBack s => exact ⟨hk.1, hstays hk.1 hk.2⟩
  | _ => exact hk

theorem outside_of_runs {c : Config Manager Instr} (hrows : RowsKeyed m)
    (hrun : machine.Runs (fun c i _ ↦ RemovedOnly S c.shared i) (start m) c) :
    RowsKeyed c.shared ∧ ∀ i ∈ c.soup, Outside S c.shared i := by
  refine hrun.local_invariant RowsKeyed (Outside S) hrows (by simp [start, Config.soup, Outside]) ?_ ?_
  · intro c i x e hkeyed hi hg he
    have hs := step_of_exec he
    exact ⟨(hs.keyed hkeyed).1, hs.outside_fresh hkeyed hg hi⟩
  · intro c i x e _ hi _ he k _ hk
    exact (step_of_exec he).outside_stable hi hk

theorem writesLive_of_runs {c : Config Manager Instr} (hrows : RowsKeyed m)
    (hrun : machine.Runs (fun c i _ ↦ RemovedOnly S c.shared i) (start m) c) :
    machine.Runs WritesLive (start m) c := by
  refine hrun.refine (fun c hc ↦ (outside_of_runs hrows hc).2) ?_
  intro c i x hi houtside hg
  exact live_of_outside hg (houtside i hi)

end Removing

section Balances

theorem Step.row_apart (hs : Step m i e) (hguard : RemovedOnly S m i) (hi : Outside S m i) (hS : S id)
    (hne : ∀ o r st, i ≠ .dropRow id o r st) :
    e.shared.sessions.lookup id = m.sessions.lookup id := by
  induction hs with
  | reserved hmu hr =>
    obtain ⟨rfl, -⟩ := Manager.reserveSlot_some hr
    rfl
  | putNew s =>
    have hid : id ≠ s.id := by
      rintro rfl
      simp [hguard.1] at hS
    exact AList.lookup_insert_ne hid
  | putBack s =>
    have hid : id ≠ s.id := by
      rintro rfl
      simp [hi.1] at hS
    exact AList.lookup_insert_ne hid
  | dropRow id' o r st =>
    have hid : id ≠ id' := by
      rintro rfl
      exact hne o r st rfl
    exact AList.lookup_erase_ne hid
  | _ => rfl

theorem Step.history_apart (hs : Step m i e) (hi : Outside S m i) (hS : S id)
    (hne : ∀ o r st, i ≠ .dropHistory id o r st) : e.shared.history id = m.history id := by
  induction hs with
  | reserved hmu hr =>
    obtain ⟨rfl, -⟩ := Manager.reserveSlot_some hr
    rfl
  | @appended t id' s now history hframe =>
    refine hframe id ?_
    rintro rfl
    simp [hi.1] at hS
  | dropHistory id' o r st =>
    have hid : id ≠ id' := by
      rintro rfl
      exact hne o r st rfl
    exact Function.update_of_ne hid _ _
  | _ => rfl

theorem Step.report_balance (hs : Step m i e) :
    (e.shared.observed.map SessionEndStats.turns : Multiset ℕ) + (e.fresh.map Instr.reports).sum =
      i.willReport + (m.observed.map SessionEndStats.turns + i.reports) := by
  induction hs with
  | call call => cases call <;> simp [Effect.fresh, entry, Instr.reports, Instr.willReport]
  | reserved hmu hr =>
    obtain ⟨rfl, -⟩ := Manager.reserveSlot_some hr
    simp [Effect.fresh, Instr.reports, Instr.willReport]
  | @list now listed =>
    have hreap : ((reap now listed).map Instr.reports).sum = 0 := by
      refine List.sum_eq_zero fun n hn ↦ ?_
      obtain ⟨k, hk, rfl⟩ := List.mem_map.mp hn
      obtain ⟨s, -, rfl⟩ := mem_reap hk
      rfl
    simp [Effect.fresh, hreap, Instr.reports, Instr.willReport]
  | dropRow id o r st => simp [Effect.fresh, Instr.reports, Instr.willReport, add_comm]
  | settle id o r st =>
    cases st <;> simp [Effect.fresh, Manager.releaseSlot, Instr.reports, Instr.willReport, turnsOf]
  | observe st =>
    simp [Effect.fresh, Instr.reports, Instr.willReport, turnsOf, ← Multiset.cons_coe, ← Multiset.singleton_add,
      add_comm]
  | _ =>
    simp [Effect.fresh, Manager.putNew, Manager.put, Manager.fail, Manager.releaseSlot, Instr.reports,
      Instr.willReport]

theorem Step.row_balance (hs : Step m i e) (hlive : Live m i) (h : Lawful m) (hi : Agrees m i)
    (htarget : ∀ id, i.target? = some id → id ∈ m.sessions) (x : Choice) (l : EndLog) :
    Manager.countOf e.shared.sessions o + (EndLog.note m i x l).removed.countP (·.ownerKeyID = o) +
        l.created.countP (·.ownerKeyID = o) =
      Manager.countOf m.sessions o + l.removed.countP (·.ownerKeyID = o) +
        (EndLog.note m i x l).created.countP (·.ownerKeyID = o) := by
  induction hs with
  | reserved hmu hr =>
    obtain ⟨rfl, -⟩ := Manager.reserveSlot_some hr
    rfl
  | putNew s =>
    simp [EndLog.note, h.countOf_putNew hlive, List.countP_cons]
    omega
  | putBack s => simp [EndLog.note, h.countOf_put hlive hi]
  | dropRow id o' r st =>
    obtain ⟨s, hs⟩ := Option.isSome_iff_exists.mp (AList.lookup_isSome.mpr (htarget id rfl))
    have hcount := Manager.countOf_erase (o := o) hs
    simp [EndLog.note, hs, ← hcount, List.countP_cons]
    omega
  | _ => rfl

end Balances

section Endings

/-- A removal has read the turns of a session of `S` before it deletes the row, and past the row
delete its session is one of the removed. -/
def Reported (m₀ : Manager) (l : EndLog) : Instr → Prop
  | .dropRow id _ _ stats => turnsOf stats = if m₀.obs then {(m₀.history.get id).length} else 0
  | .dropHistory id _ _ _ | .settle id _ _ _ => id ∈ l.removed.map Session.id
  | _ => True

/-- The removals of a run that began with `m₀`: each removed session was removed once and its row
is gone, the other sessions of `S` are as they were, a removed history is gone or about to be, and
the observations, made or still to be made, are one for each removed session, with the length of
its history. -/
structure Ended (S : String → Bool) (m₀ m : Manager) (l : EndLog) (Q : Multiset Instr) : Prop where
  distinct : (l.removed.map Session.id).Nodup
  removed : ∀ s ∈ l.removed, S s.id ∧ m₀.sessions.lookup s.id = some s ∧ m.sessions.lookup s.id = none
  kept : ∀ id, S id → id ∉ l.removed.map Session.id →
    m.sessions.lookup id = m₀.sessions.lookup id ∧ m.history id = m₀.history id
  dropped : ∀ s ∈ l.removed, m.history s.id = none ∨ ∃ o r st, .dropHistory s.id o r st ∈ Q
  observed : (m.observed.map SessionEndStats.turns : Multiset ℕ) + (Q.map Instr.reports).sum =
    if m₀.obs then (l.removed.map fun s ↦ (m₀.history.get s.id).length : Multiset ℕ) else 0

structure Ending (S : String → Bool) (m₀ m : Manager) (l : EndLog) (Q : Multiset Instr) : Prop
    extends Ended S m₀ m l Q where
  rows : ∀ o, Manager.countOf m.sessions o + l.removed.countP (·.ownerKeyID = o) =
    Manager.countOf m₀.sessions o + l.created.countP (·.ownerKeyID = o)
  obs : m.obs = m₀.obs
  reported : ∀ i ∈ Q, Reported m₀ l i

theorem Step.obs (hs : Step m i e) : e.shared.obs = m.obs := by
  induction hs with
  | reserved hmu hr =>
    obtain ⟨rfl, -⟩ := Manager.reserveSlot_some hr
    rfl
  | _ => rfl

theorem removed_note (hne : ∀ id o r st, i ≠ .dropRow id o r st) :
    (EndLog.note m i x l).removed = l.removed := by
  unfold EndLog.note
  split
  · exact absurd rfl (hne _ _ _ _)
  · rfl
  · rfl

theorem willReport_eq_zero (hne : ∀ id o r st, i ≠ .dropRow id o r st) : i.willReport = 0 := by
  unfold Instr.willReport
  split
  · exact absurd rfl (hne _ _ _ _)
  · rfl

theorem Ending.stored {Q : Multiset Instr} {s : Session} (h : Ending S m₀ m l Q) (hS : S id)
    (hl : m.sessions.lookup id = some s) :
    id ∉ l.removed.map Session.id ∧ m₀.sessions.lookup id = some s ∧ m.history id = m₀.history id := by
  have hnew : id ∉ l.removed.map Session.id := by
    intro hin
    obtain ⟨s', hs', rfl⟩ := List.mem_map.mp hin
    rw [(h.removed s' hs').2.2] at hl
    cases hl
  obtain ⟨hrow, hhist⟩ := h.kept id hS hnew
  exact ⟨hnew, hrow ▸ hl, hhist⟩

theorem Step.reported_fresh (hs : Step m i e) (h : Ending S m₀ m l (i ::ₘ R)) (houtside : Outside S m i)
    (hkeyed : RowsKeyed m) (htarget : ∀ id, i.target? = some id → id ∈ m.sessions) (x : Choice) :
    ∀ k ∈ e.fresh, Reported m₀ (EndLog.note m i x l) k := by
  have hi := h.reported i (Multiset.mem_cons_self i R)
  induction hs with
  | call call => cases call <;> simp [entry, Reported]
  | endStats id o r s =>
    obtain ⟨row, hrow⟩ := Option.isSome_iff_exists.mp (AList.lookup_isSome.mpr (htarget id rfl))
    have hhist := (h.stored houtside hrow).2.2
    refine Effect.forall_fresh_singleton ?_
    simp only [Reported, Manager.endStats, h.obs, History.get, hhist]
    split <;> rfl
  | dropRow id o r st =>
    obtain ⟨row, hrow⟩ := Option.isSome_iff_exists.mp (AList.lookup_isSome.mpr (htarget id rfl))
    refine Effect.forall_fresh_singleton ?_
    simp [Reported, EndLog.note, hrow, hkeyed id row hrow]
  | dropHistory => exact Effect.forall_fresh_singleton hi
  | settle id o r st => cases st <;> simp [Reported]
  | list listed =>
    intro k hk
    obtain ⟨s, -, rfl⟩ := mem_reap (by simpa using hk)
    trivial
  | _ =>
    first
    | exact Effect.forall_fresh_singleton trivial
    | exact Effect.forall_fresh_nil

theorem Reported.note (h : Reported m₀ l k) (m : Manager) (i : Instr) (x : Choice) :
    Reported m₀ (EndLog.note m i x l) k := by
  have hsub : l.removed.map Session.id ⊆ (EndLog.note m i x l).removed.map Session.id := by
    refine List.map_subset _ ?_
    unfold EndLog.note
    split
    · exact List.subset_append_right _ _
    · exact fun _ hs ↦ hs
    · exact fun _ hs ↦ hs
  cases k with
  | dropHistory | settle => exact hsub h
  | _ => exact h

theorem Step.ending_observed (hs : Step m i e) (h : Ending S m₀ m l (i ::ₘ R))
    (removed : List Session) (htotal :
      (i.willReport + if m₀.obs then (l.removed.map fun s ↦ (m₀.history.get s.id).length : Multiset ℕ) else 0) =
        if m₀.obs then (removed.map fun s ↦ (m₀.history.get s.id).length : Multiset ℕ) else 0) :
    (e.shared.observed.map SessionEndStats.turns : Multiset ℕ) + ((e.fresh + R).map Instr.reports).sum =
      if m₀.obs then (removed.map fun s ↦ (m₀.history.get s.id).length : Multiset ℕ) else 0 := by
  have hobserved := h.observed
  rw [Multiset.map_cons, Multiset.sum_cons] at hobserved
  rw [Multiset.map_add, Multiset.sum_add, ← add_assoc, hs.report_balance, ← htotal, ← hobserved]
  simp only [add_assoc]

theorem Ending.dropRow {r : EndReason} {st : Option SessionEndStats} {s : Session}
    (h : Ending S m₀ m l (.dropRow id o r st ::ₘ R)) (hS : S id) (hrow : m.sessions.lookup id = some s)
    (hid : s.id = id) :
    let m' := { m with sessions := m.sessions.erase id }
    let removed := s :: l.removed
    (removed.map Session.id).Nodup ∧
      (∀ s ∈ removed, S s.id ∧ m₀.sessions.lookup s.id = some s ∧ m'.sessions.lookup s.id = none) ∧
      (∀ id, S id → id ∉ removed.map Session.id →
        m'.sessions.lookup id = m₀.sessions.lookup id ∧ m'.history id = m₀.history id) ∧
      ∀ s ∈ removed, m'.history s.id = none ∨ ∃ o' r' st',
        Instr.dropHistory s.id o' r' st' ∈ Instr.dropHistory id o r st ::ₘ R := by
  subst hid
  obtain ⟨hnew, hfirst, -⟩ := h.stored hS hrow
  have hne (s' : Session) (hs' : s' ∈ l.removed) : s'.id ≠ s.id := fun heq ↦
    hnew (heq ▸ List.mem_map_of_mem hs')
  refine ⟨List.nodup_cons.mpr ⟨hnew, h.distinct⟩, ?_, fun id hid hout ↦ ?_, ?_⟩
  · refine List.forall_mem_cons.mpr ⟨⟨hS, hfirst, AList.lookup_erase _ _⟩, fun s' hs' ↦ ?_⟩
    obtain ⟨hS', hfirst', hgone⟩ := h.removed s' hs'
    exact ⟨hS', hfirst', (AList.lookup_erase_ne (hne s' hs')).trans hgone⟩
  · obtain ⟨hids, hout⟩ := not_or.mp (mt List.mem_cons.mpr hout)
    obtain ⟨hsame, hhist⟩ := h.kept id hid hout
    exact ⟨(AList.lookup_erase_ne hids).trans hsame, hhist⟩
  · refine List.forall_mem_cons.mpr ⟨.inr ⟨o, r, st, Multiset.mem_cons_self _ _⟩, fun s' hs' ↦ ?_⟩
    refine (h.dropped s' hs').imp_right fun ⟨o', r', st', hin⟩ ↦ ⟨o', r', st', ?_⟩
    exact Multiset.mem_cons_of_mem ((Multiset.mem_cons.mp hin).resolve_left nofun)

theorem Step.ending_other (hs : Step m i e) (hguard : RemovedOnly S m i) (houtside : Outside S m i)
    (h : Ending S m₀ m l (i ::ₘ R)) (hne : ∀ id o r st, i ≠ .dropRow id o r st) :
    (∀ s ∈ l.removed, e.shared.sessions.lookup s.id = none) ∧
      (∀ id, S id → id ∉ l.removed.map Session.id →
        e.shared.sessions.lookup id = m₀.sessions.lookup id ∧ e.shared.history id = m₀.history id) ∧
      ∀ s ∈ l.removed, e.shared.history s.id = none ∨ ∃ o r st,
        Instr.dropHistory s.id o r st ∈ e.fresh + R := by
  have hrow {id : String} (hS : S id) := hs.row_apart hguard houtside hS (hne id)
  refine ⟨fun s hsin ↦ ?_, fun id hS hout ↦ ?_, fun s hsin ↦ ?_⟩
  · obtain ⟨hS, -, hgone⟩ := h.removed s hsin
    exact (hrow hS).trans hgone
  · obtain ⟨hsame, hhist⟩ := h.kept id hS hout
    refine ⟨(hrow hS).trans hsame, (hs.history_apart houtside hS ?_).trans hhist⟩
    rintro o r st rfl
    exact hout (h.reported _ (Multiset.mem_cons_self _ R))
  · by_cases hdrop : ∃ o r st, i = .dropHistory s.id o r st
    · obtain ⟨o, r, st, rfl⟩ := hdrop
      cases hs
      exact .inl (Function.update_self _ _ _)
    · have hsame := hs.history_apart houtside (h.removed s hsin).1 fun o r st hi ↦ hdrop ⟨o, r, st, hi⟩
      rw [hsame]
      refine (h.dropped s hsin).imp_right fun ⟨o, r, st, hin⟩ ↦ ⟨o, r, st, ?_⟩
      refine Multiset.mem_add.mpr (.inr ((Multiset.mem_cons.mp hin).resolve_left fun hi ↦ ?_))
      exact hdrop ⟨o, r, st, hi.symm⟩

theorem Step.ending (hs : Step m i e) (hguard : RemovedOnly S m i) (houtside : Outside S m i) (hkeyed : RowsKeyed m)
    (hlaw : Lawful m) (hagree : Agrees m i) (htarget : ∀ id, i.target? = some id → id ∈ m.sessions)
    (h : Ending S m₀ m l (i ::ₘ R)) (x : Choice) :
    Ending S m₀ e.shared (EndLog.note m i x l) (e.fresh + R) := by
  have hrows (o : String) : Manager.countOf e.shared.sessions o +
      (EndLog.note m i x l).removed.countP (·.ownerKeyID = o) =
        Manager.countOf m₀.sessions o + (EndLog.note m i x l).created.countP (·.ownerKeyID = o) := by
    have hbal := hs.row_balance (o := o) (live_of_outside hguard houtside) hlaw hagree htarget x l
    have hold := h.rows o
    omega
  have hreported (k : Instr) (hk : k ∈ e.fresh + R) : Reported m₀ (EndLog.note m i x l) k := by
    rcases Multiset.mem_add.mp hk with hk | hk
    · exact hs.reported_fresh h houtside hkeyed htarget x k hk
    · exact (h.reported k (Multiset.mem_cons_of_mem hk)).note m i x
  by_cases hdrop : ∃ id o r st, i = .dropRow id o r st
  · obtain ⟨id, o, r, st, rfl⟩ := hdrop
    obtain ⟨s, hrow⟩ := Option.isSome_iff_exists.mp (AList.lookup_isSome.mpr (htarget id rfl))
    have hstats : turnsOf st = _ := h.reported _ (Multiset.mem_cons_self _ R)
    have hid := hkeyed id s hrow
    have hnote : (EndLog.note m (.dropRow id o r st) x l).removed = s :: l.removed := by
      simp [EndLog.note, hrow]
    have hobserved := hs.ending_observed h (s :: l.removed) (by
      rw [Instr.willReport, hstats]
      split <;> simp [← Multiset.cons_coe, hid])
    cases hs
    obtain ⟨hdistinct, hremoved, hstay, hdropped⟩ := h.dropRow houtside hrow hid
    rw [← hnote] at hdistinct hremoved hstay hdropped hobserved
    exact ⟨⟨hdistinct, hremoved, hstay, hdropped, hobserved⟩, hrows, h.obs, hreported⟩
  · have hne (id o r st) (hi : i = .dropRow id o r st) : False := hdrop ⟨id, o, r, st, hi⟩
    have hnote : (EndLog.note m i x l).removed = l.removed := removed_note hne
    obtain ⟨hgone, hstay, hdropped⟩ := hs.ending_other hguard houtside h hne
    have hobserved := hs.ending_observed h l.removed (by rw [willReport_eq_zero hne, zero_add])
    rw [← hnote] at hgone hstay hdropped hobserved
    refine ⟨⟨hnote ▸ h.distinct, fun s hsin ↦ ?_, hstay, hdropped, hobserved⟩, hrows, hs.obs.trans h.obs,
      hreported⟩
    obtain ⟨hS, hfirst, -⟩ := h.removed s (hnote ▸ hsin)
    exact ⟨hS, hfirst, hgone s hsin⟩

theorem ending_boot (S : String → Bool) (m : Manager) :
    Ending S (boot m) (boot m) {} (start (boot m)).soup where
  distinct := List.nodup_nil
  removed := by simp
  kept _ _ _ := ⟨rfl, rfl⟩
  dropped := by simp
  observed := by simp [boot, start, Config.soup, Instr.reports]
  rows _ := rfl
  obs := rfl
  reported := by simp [start, Config.soup, Reported]

theorem ending_of_runs (hrows : RowsKeyed m) {c : Config (Manager × EndLog) Instr}
    (hrun : (machine.record EndLog.note).Runs (fun c i _ ↦ RemovedOnly S c.shared.1 i)
      ((start (boot m)).logging {}) c) :
    Ending S (boot m) c.shared.1 c.shared.2 c.soup ∧ Balanced c.shared.1 c.soup := by
  have hplain (c) (hc : (machine.record EndLog.note).Runs (fun c i _ ↦ RemovedOnly S c.shared.1 i)
      ((start (boot m)).logging {}) c) :
      machine.Runs (fun c i _ ↦ RemovedOnly S c.shared i) (start (boot m)) c.erase :=
    hc.erase (H := fun c i _ ↦ RemovedOnly S c.shared i) fun _ _ _ hg ↦ hg
  have hlive (c) (hc : _) : machine.Runs WritesLive (start (boot m)) (Config.erase c) :=
    writesLive_of_runs (m := boot m) hrows (hplain c hc)
  refine ⟨?_, balanced_of_runs hrows (hlive c hrun)⟩
  have hstrong := hrun.strengthen fun c hc ↦ And.intro (outside_of_runs (m := boot m) hrows (hplain c hc))
    (And.intro (lawful_of_runs hrows (hlive c hc)) (balanced_of_runs hrows (hlive c hc)))
  refine hstrong.record_invariant (Ending S (boot m)) (ending_boot S m) ?_
  intro c i x R e hR h hg he
  obtain ⟨hguard, ⟨hkeyed, houtside⟩, ⟨hlaw, hagree⟩, hbal⟩ := hg
  have hi : i ∈ c.erase.soup := by
    rw [Config.erase_soup, hR]
    exact Multiset.mem_cons_self i R
  exact (step_of_exec he).ending hguard (houtside i hi) hkeyed hlaw (hagree i hi) (hbal.target i hi) h x

end Endings

section Progress

namespace Instr

def left : Instr → ℕ
  | .lock _ _ _ => 7
  | .recheck _ _ _ => 6
  | .endStats _ _ _ _ => 5
  | .dropRow _ _ _ _ => 4
  | .dropHistory _ _ _ _ => 3
  | .settle _ _ _ _ => 2
  | .observe _ => 1
  | _ => 0

/-- The session that a `Delete` has found and still has to return nil for, with its caller. -/
def deletes : Instr → Option (String × String)
  | .lock id o r | .recheck id o r | .endStats id o r _ | .dropRow id o r _ | .dropHistory id o r _
  | .settle id o r _ => if r = .deleted then some (id, o) else none
  | _ => none

def locks : Instr → Bool
  | .lock _ _ _ => true
  | _ => false

end Instr

/-- A step of goroutine `t`, other than the arrival of a call. -/
def Works (t : ℕ) (a : Turn Instr Choice) : Prop := a.thread = t ∧ a.instr ≠ .serve

/-- Goroutine `t` takes `countMu` for a removal. -/
def Acquires (t : ℕ) (a : Turn Instr Choice) : Prop := a.thread = t ∧ a.instr.locks

theorem Step.left (hs : Step m i e) (hi : 0 < i.left) :
    (e.next.map Instr.left).sum < i.left ∧ ∀ k ∈ e.next, 0 < k.left := by
  induction hs with
  | settle id o r st => cases st <;> simp [Instr.left]
  | _ => first
    | exact absurd hi (Nat.lt_irrefl 0)
    | simp [Instr.left]

theorem Step.deletes (hs : Step m i e) (hi : i.deletes = some (id, o)) :
    e.shared.returned = ⟨id, o, none⟩ :: m.returned ∨ ∃ k ∈ e.next, k.deletes = some (id, o) := by
  induction hs with
  | lock | present | endStats | dropRow | dropHistory => exact .inr ⟨_, List.mem_singleton_self _, hi⟩
  | alreadyGone | settle =>
    simp only [Instr.deletes] at hi
    split_ifs at hi with hr
    cases hi
    exact .inl (if_pos hr)
  | _ => cases hi

theorem Step.returned (hs : Step m i e) (hi : 0 < i.left) {r : DeleteReturn}
    (hr : e.shared.returned = r :: m.returned) : r.err = none := by
  have hself {l : List DeleteReturn} (h : l = r :: l) : False := by simpa using congrArg List.length h
  have hafter {id o : String} {reason : EndReason} (h : m.returnedAfter id o reason = r :: m.returned) :
      r.err = none := by
    unfold Manager.returnedAfter at h
    split_ifs at h
    · rw [← (List.cons.inj h).1]
    · exact (hself h).elim
  induction hs with
  | alreadyGone | settle => exact hafter hr
  | _ => first
    | exact absurd hi (Nat.lt_irrefl 0)
    | exact (hself hr).elim

theorem Step.removing_next (hs : Step m i e) (hi : removing i) :
    e.shared.countMu = false ∨ ∃ k, e.next = [k] ∧ removing k ∧ k.left < i.left := by
  induction hs with
  | alreadyGone | settle => exact .inl rfl
  | present | endStats | dropRow | dropHistory =>
    exact .inr ⟨_, rfl, rfl, by simp [Instr.left]⟩
  | _ => cases hi

theorem exec_of_removing (hi : removing i) (m : Manager) : (exec m i .go).isSome := by
  cases i with
  | recheck id o r =>
    simp only [exec]
    split <;> rfl
  | endStats | dropRow | dropHistory | settle => rfl
  | _ => cases hi

theorem exec_of_left (hi : 0 < i.left) (hfree : i.locks → m.countMu = false) : (exec m i .go).isSome := by
  cases i with
  | lock id o r => simp [exec, hfree rfl]
  | recheck | endStats | dropRow | dropHistory | settle => exact exec_of_removing rfl m
  | observe => rfl
  | _ => exact absurd hi (Nat.lt_irrefl 0)

theorem Step.tail_next (hs : Step m i e) : ∀ k ∈ e.next.tail, removing k = false := by
  induction hs with
  | list listed =>
    intro k hk
    obtain ⟨s, -, rfl⟩ := mem_reap (List.mem_of_mem_tail hk)
    rfl
  | settle id o r st => cases st <;> simp
  | _ => simp

theorem Step.tail_spawned (hs : Step m i e) : ∀ th ∈ e.spawned, th.tail = [] := by
  induction hs <;> simp

theorem removing_at_head {c : Config Manager Instr} (hrun : machine.Reaches (start m) c) :
    ∀ (t : ℕ) th, c.threads[t]? = some th → ∀ i ∈ th.tail, removing i = false := by
  refine Machine.Runs.threads_invariant (fun _ _ th ↦ ∀ i ∈ th.tail, removing i = false) ?_ ?_ ?_ hrun
  · intro k th hk
    obtain ⟨rfl, rfl⟩ : k = 0 ∧ [Instr.serve] = th := by simpa [start, List.getElem?_singleton] using hk
    simp
  · intro c k i rest x e hth _ he
    have hs := step_of_exec he
    refine ⟨fun i' hi' ↦ ?_, fun m th hm ↦ ?_⟩
    · have hsplit : i' ∈ e.next.tail ∨ i' ∈ rest := by
        cases hnext : e.next with
        | nil =>
          rw [hnext] at hi'
          exact .inr (List.mem_of_mem_tail hi')
        | cons j js =>
          rw [hnext] at hi'
          exact List.mem_append.mp hi'
      rcases hsplit with hin | hin
      · exact hs.tail_next i' hin
      · exact hth i' hin
    · rw [hs.tail_spawned th (List.mem_of_getElem? hm)]
      simp
  · intro c k i rest x e _ _ _ j th _ hth
    exact hth

theorem exists_removing {c : Config Manager Instr} (hfree : m.countMu = false)
    (hrun : machine.Reaches (start m) c) (hheld : c.shared.countMu = true) :
    ∃ (t : ℕ) (i : Instr) (rest : List Instr), c.threads[t]? = some (i :: rest) ∧ removing i := by
  have hlock := lock_of_reaches hfree hrun
  rw [hheld, Bool.toNat_true] at hlock
  obtain ⟨i, hi, hr⟩ := Multiset.countP_pos.mp (by omega : 0 < c.soup.countP (removing ·))
  obtain ⟨th, hth, hin⟩ := Config.mem_soup.mp hi
  obtain ⟨t, ht⟩ := List.mem_iff_getElem?.mp hth
  cases th with
  | nil => cases hin
  | cons j rest =>
    rcases List.mem_cons.mp hin with rfl | hin
    · exact ⟨t, i, rest, ht, hr⟩
    · rw [removing_at_head hrun t _ ht i hin] at hr
      cases hr

variable {x : Execution machine.turn}

def Holding (v : ℕ) (p : ℕ × Instr) (c : Config Manager Instr) : Prop :=
  (∃ rest, c.threads[p.1]? = some (p.2 :: rest)) ∧ removing p.2 ∧ p.2.left = v

theorem holding_next {n : ℕ} {a : Turn Instr Choice} {v : ℕ} {p : ℕ × Instr} (ha : x.event n = some a)
    (hP : Holding v p (x.state n)) :
    (x.state (n + 1)).shared.countMu = false ∨ (∃ v' < v, ∃ p', Holding v' p' (x.state (n + 1))) ∨
      ¬ Works p.1 a ∧ Holding v p (x.state (n + 1)) := by
  obtain ⟨⟨rest, hhead⟩, hr, hv⟩ := hP
  obtain ⟨rest', e, hhead', he, hafter⟩ := Machine.turn_eq_some.mp (x.step_of_event ha)
  rw [← hafter]
  by_cases hown : a.thread = p.1
  · rw [hown, hhead] at hhead'
    obtain ⟨hinstr, rfl⟩ := List.cons.inj (Option.some.inj hhead')
    rw [← hinstr] at he
    rcases (step_of_exec he).removing_next hr with hunlocked | ⟨k, hnext, hk, hlt⟩
    · exact .inl hunlocked
    · refine .inr (.inl ⟨k.left, hv ▸ hlt, (p.1, k), ⟨rest, ?_⟩, hk, rfl⟩)
      rw [hown, Config.getElem?_after_self hhead, hnext]
      rfl
  · exact .inr (.inr ⟨fun h ↦ hown h.1,
      ⟨rest, Config.getElem?_after_of_ne hhead (Ne.symm hown) e⟩, hr, hv⟩)

theorem exists_free (hfree : m.countMu = false) (hstart : x.state 0 = start m)
    (hfair : ∀ t, x.Fair (Works t)) (n : ℕ) : ∃ n', n ≤ n' ∧ (x.state n').shared.countMu = false := by
  cases hmu : (x.state n).shared.countMu with
  | false => exact ⟨n, le_rfl, hmu⟩
  | true =>
    have hrun : machine.Reaches (start m) (x.state n) :=
      hstart ▸ Machine.Runs.of_execution (G := fun _ _ _ ↦ True) (fun _ _ _ ↦ trivial) n
    obtain ⟨t, i, rest, ht, hi⟩ := exists_removing hfree hrun hmu
    have hholding : Holding i.left (t, i) (x.state n) := ⟨⟨rest, ht⟩, hi, rfl⟩
    refine Execution.leadsTo_of_relay (fun p ↦ Works p.1) Holding (·.shared.countMu = false) ?_
      (fun _ _ _ _ ↦ holding_next) hholding
    intro n v p hP
    refine hfair p.1 n fun k hk ↦ ?_
    obtain ⟨⟨rest, hhead⟩, hr, -⟩ := hP k hk
    refine Machine.ready_of_head (x := .go) hhead (exec_of_removing hr _) ⟨rfl, fun hserve ↦ ?_⟩
    rw [show p.2 = .serve from hserve] at hr
    cases hr

/-- Goroutine `p.1` has only removals to do, `p.2` first, with `v` steps left. -/
def Finishing (v : ℕ) (p : ℕ × Instr) (c : Config Manager Instr) : Prop :=
  ∃ rest, c.threads[p.1]? = some (p.2 :: rest) ∧ (∀ i ∈ p.2 :: rest, 0 < i.left) ∧
    ((p.2 :: rest).map Instr.left).sum = v

theorem finishing_next {t n : ℕ} {a : Turn Instr Choice} {v : ℕ} {p : ℕ × Instr}
    (ha : x.event n = some a) (ht : p.1 = t) (hP : Finishing v p (x.state n)) :
    (x.state (n + 1)).threads[t]? = some [] ∨
      (∃ v' < v, ∃ p', p'.1 = t ∧ Finishing v' p' (x.state (n + 1))) ∨
      a.thread ≠ t ∧ Finishing v p (x.state (n + 1)) := by
  subst ht
  obtain ⟨rest, hhead, hleft, hv⟩ := hP
  obtain ⟨rest', e, hhead', he, hafter⟩ := Machine.turn_eq_some.mp (x.step_of_event ha)
  have hs := step_of_exec he
  rw [← hafter]
  by_cases hown : a.thread = p.1
  · rw [hown, hhead] at hhead'
    obtain ⟨hinstr, rfl⟩ := List.cons.inj (Option.some.inj hhead')
    rw [← hinstr] at hs
    obtain ⟨hsum, hnext⟩ := hs.left (hleft _ List.mem_cons_self)
    have hleft' (i : Instr) (hi : i ∈ e.next ++ rest) : 0 < i.left := by
      rcases List.mem_append.mp hi with hi | hi
      · exact hnext i hi
      · exact hleft i (List.mem_cons_of_mem _ hi)
    have hlt : ((e.next ++ rest).map Instr.left).sum < v := by
      rw [List.map_cons, List.sum_cons] at hv
      rw [List.map_append, List.sum_append]
      omega
    have hself := Config.getElem?_after_self hhead e
    rw [hown]
    cases hth : e.next ++ rest with
    | nil => exact .inl (hth ▸ hself)
    | cons i is =>
      rw [hth] at hself hleft' hlt
      exact .inr (.inl ⟨_, hlt, (p.1, i), rfl, is, hself, hleft', rfl⟩)
  · exact .inr (.inr ⟨hown, rest, Config.getElem?_after_of_ne hhead (Ne.symm hown) e, hleft, hv⟩)

theorem removals_finish (hfree : m.countMu = false) (hstart : x.state 0 = start m)
    (hfair : ∀ t, x.Fair (Works t)) (hlock : ∀ t, x.StrongFair (Acquires t)) {n t : ℕ} {th : List Instr}
    (ht : (x.state n).threads[t]? = some th) (hleft : ∀ i ∈ th, 0 < i.left) :
    ∃ n', n ≤ n' ∧ (x.state n').threads[t]? = some [] := by
  cases th with
  | nil => exact ⟨n, le_rfl, ht⟩
  | cons i rest =>
    have hfinishing : (t, i).1 = t ∧ Finishing _ (t, i) (x.state n) := ⟨rfl, rest, ht, hleft, rfl⟩
    refine Execution.leadsTo_of_relay (fun _ a ↦ a.thread = t) (fun v p c ↦ p.1 = t ∧ Finishing v p c)
      (·.threads[t]? = some []) ?_ (fun n a v p ha ⟨hp, hP⟩ ↦ ?_) hfinishing
    · intro n v p hP
      have hhead (k : ℕ) (hk : n ≤ k) : ∃ rest, (x.state k).threads[t]? = some (p.2 :: rest) := by
        obtain ⟨rfl, rest, hhead, -⟩ := hP k hk
        exact ⟨rest, hhead⟩
      have hpos : 0 < p.2.left := by
        obtain ⟨-, rest, -, hleft, -⟩ := hP n le_rfl
        exact hleft _ List.mem_cons_self
      cases hl : p.2.locks with
      | true =>
        obtain ⟨k, a, hk, ha, hown⟩ := hlock t n fun k hk ↦ by
          obtain ⟨k', hk', hfree'⟩ := exists_free hfree hstart hfair k
          obtain ⟨rest, hhead⟩ := hhead k' (by omega)
          exact ⟨k', hk', Machine.ready_of_head (x := .go) hhead (exec_of_left hpos fun _ ↦ hfree') ⟨rfl, hl⟩⟩
        exact ⟨k, a, hk, ha, hown.1⟩
      | false =>
        obtain ⟨k, a, hk, ha, hown⟩ := hfair t n fun k hk ↦ by
          obtain ⟨rest, hhead⟩ := hhead k hk
          refine Machine.ready_of_head (x := .go) hhead (exec_of_left hpos (by simp [hl])) ⟨rfl, fun hserve ↦ ?_⟩
          rw [show p.2 = .serve from hserve] at hpos
          exact absurd hpos (Nat.lt_irrefl 0)
        exact ⟨k, a, hk, ha, hown.1⟩
    · rcases finishing_next ha hp hP with hend | ⟨v', hv', p', hp', hP'⟩ | ⟨hown, hP'⟩
      · exact .inl hend
      · exact .inr (.inl ⟨v', hv', p', hp', hP'⟩)
      · exact .inr (.inr ⟨hown, hp, hP'⟩)

/-- With its step at moment `k`, goroutine `t` settles what a `Delete` returns. -/
def Returns (x : Execution machine.turn) (t k : ℕ) (r : DeleteReturn) : Prop :=
  ∃ a, x.event k = some a ∧ a.thread = t ∧
    (x.state (k + 1)).shared.returned = r :: (x.state k).shared.returned

theorem left_always {n t : ℕ} {th : List Instr} (ht : (x.state n).threads[t]? = some th)
    (hleft : ∀ i ∈ th, 0 < i.left) :
    ∀ k, n ≤ k → ∃ th, (x.state k).threads[t]? = some th ∧ ∀ i ∈ th, 0 < i.left := by
  refine Execution.always (P := fun c : Config Manager Instr ↦
    ∃ th, c.threads[t]? = some th ∧ ∀ i ∈ th, 0 < i.left) ⟨th, ht, hleft⟩ ?_
  rintro k a - ha ⟨th, hth, hpos⟩
  obtain ⟨rest, e, hhead, he, hafter⟩ := Machine.turn_eq_some.mp (x.step_of_event ha)
  rw [← hafter]
  by_cases hown : a.thread = t
  · rw [hown] at hhead ⊢
    cases hth.symm.trans hhead
    refine ⟨_, Config.getElem?_after_self hhead e, fun i hi ↦ ?_⟩
    rcases List.mem_append.mp hi with hi | hi
    · exact ((step_of_exec he).left (hpos _ List.mem_cons_self)).2 i hi
    · exact hpos i (List.mem_cons_of_mem _ hi)
  · exact ⟨th, Config.getElem?_after_of_ne hth (Ne.symm hown) e, hpos⟩

theorem returns_nil {n t k : ℕ} {th : List Instr} {r : DeleteReturn}
    (ht : (x.state n).threads[t]? = some th) (hleft : ∀ i ∈ th, 0 < i.left) (hk : n ≤ k)
    (hr : Returns x t k r) : r.err = none := by
  obtain ⟨a, ha, hown, hr⟩ := hr
  obtain ⟨th', hth', hpos⟩ := left_always ht hleft k hk
  obtain ⟨rest, e, hhead, he, hafter⟩ := Machine.turn_eq_some.mp (x.step_of_event ha)
  rw [hown] at hhead
  cases hth'.symm.trans hhead
  rw [← hafter] at hr
  exact (step_of_exec he).returned (hpos _ List.mem_cons_self) hr

theorem exists_returns {n n' t : ℕ} {th : List Instr} (ht : (x.state n).threads[t]? = some th)
    (hin : .lock id o .deleted ∈ th) (hle : n ≤ n') (hend : (x.state n').threads[t]? = some []) :
    ∃ k, n ≤ k ∧ k < n' ∧ Returns x t k ⟨id, o, none⟩ := by
  -- it gets past the last of its instructions for this session
  obtain ⟨k, a, hnk, hkn, ha, hbefore, hafter⟩ := Execution.exists_crossing
    (P := fun c : Config Manager Instr ↦
      ∀ th, c.threads[t]? = some th → ∀ i ∈ th, i.deletes ≠ some (id, o)) hle
    (fun h ↦ h th ht _ hin rfl) (fun th hth i hi ↦ by
      cases hend.symm.trans hth
      cases hi)
  obtain ⟨rest, e, hhead, he, hstate⟩ := Machine.turn_eq_some.mp (x.step_of_event ha)
  push Not at hbefore
  obtain ⟨th', hth', i, hi, hdeletes⟩ := hbefore
  rw [← hstate] at hafter
  by_cases hown : a.thread = t
  · rw [hown] at hhead hafter
    cases hth'.symm.trans hhead
    have hgone := hafter _ (Config.getElem?_after_self hhead e)
    rcases List.mem_cons.mp hi with rfl | hi
    · refine ⟨k, hnk, hkn, a, ha, hown, ?_⟩
      rw [← hstate]
      refine ((step_of_exec he).deletes hdeletes).resolve_right ?_
      rintro ⟨j, hj, hjd⟩
      exact hgone j (List.mem_append_left _ hj) hjd
    · exact absurd hdeletes (hgone i (List.mem_append_right _ hi))
  · exact absurd hdeletes (hafter th' (Config.getElem?_after_of_ne hth' (Ne.symm hown) e) i hi)

end Progress

/-- While the sessions of `S` are only removed: each one that disappears was removed once, with
one observation of the length of its history, one release of its owner's slot and its history
removed; and whoever has removals to do gets them done, every `Delete` that has found its session
returning nil. -/
theorem one_end_per_session (S : String → Bool) (m : Manager) (hrows : RowsKeyed m) :
    (∀ c, (machine.record EndLog.note).Runs (fun c i _ ↦ RemovedOnly S c.shared.1 i)
        ((start (boot m)).logging {}) c →
      Ended S (boot m) c.shared.1 c.shared.2 c.soup ∧
      ∀ o, c.shared.1.counts o + c.shared.2.removed.countP (·.ownerKeyID = o) =
        (boot m).counts o + c.shared.2.created.countP (·.ownerKeyID = o) + c.soup.countP (owing o ·)) ∧
    ∀ x : Execution machine.turn, x.state 0 = start (boot m) → (∀ t, x.Fair (Works t)) →
      (∀ t, x.StrongFair (Acquires t)) →
      ∀ (n t : ℕ) th, (x.state n).threads[t]? = some th → (∀ i ∈ th, 0 < i.left) →
        ∃ n', n ≤ n' ∧ (x.state n').threads[t]? = some [] ∧
          (∀ id o, .lock id o .deleted ∈ th → ∃ k, n ≤ k ∧ k < n' ∧ Returns x t k ⟨id, o, none⟩) ∧
          ∀ k r, n ≤ k → Returns x t k r → r.err = none := by
  refine ⟨fun c hrun ↦ ?_, fun x hstart hfair hlock n t th ht hleft ↦ ?_⟩
  · obtain ⟨hending, hbalanced⟩ := ending_of_runs hrows hrun
    refine ⟨hending.toEnded, fun o ↦ ?_⟩
    have hrow := hending.rows o
    have hinit : (boot m).counts o = Manager.countOf (boot m).sessions o := rfl
    rw [hbalanced.tally o, hinit]
    omega
  · obtain ⟨n', hn', hend⟩ := removals_finish (m := boot m) rfl hstart hfair hlock ht hleft
    exact ⟨n', hn', hend, fun id o hin ↦ exists_returns ht hin hn' hend,
      fun k r hk ↦ returns_nil ht hleft hk⟩

def observedSession : Manager :=
  { oneSession with
    history := fun id ↦ if id = "sess_0" then some [⟨"user", "hi", "", "", []⟩, ⟨"assistant", "hello", "", "", []⟩]
      else none
    obs := true }

/-- Two deletes find the session, and the first of them removes it. -/
def deleteScript : List (Turn Instr Choice) :=
  let stats : Option SessionEndStats := some ⟨2, 0, .deleted⟩
  [⟨0, .serve, .call (.delete "sess_0" "a1")⟩, ⟨0, .serve, .call (.delete "sess_0" "a1")⟩,
    ⟨1, .deleteGet "sess_0" "a1", .go⟩, ⟨2, .deleteGet "sess_0" "a1", .go⟩,
    ⟨1, .lock "sess_0" "a1" .deleted, .go⟩, ⟨1, .recheck "sess_0" "a1" .deleted, .go⟩,
    ⟨1, .endStats "sess_0" "a1" .deleted ⟨"sess_0", "a1", "llama3", "", 0, 0, 30 * minute, .active⟩, .go⟩,
    ⟨1, .dropRow "sess_0" "a1" .deleted stats, .go⟩, ⟨1, .dropHistory "sess_0" "a1" .deleted stats, .go⟩,
    ⟨1, .settle "sess_0" "a1" .deleted stats, .go⟩, ⟨1, .observe ⟨2, 0, .deleted⟩, .go⟩,
    ⟨2, .lock "sess_0" "a1" .deleted, .go⟩, ⟨2, .recheck "sess_0" "a1" .deleted, .go⟩]

def deleting : Execution machine.turn := .follow _ (start (boot observedSession)) deleteScript

theorem deleting_done {own : Turn Instr Choice → Prop} (hown : ∀ t x, ¬ own ⟨t, .serve, x⟩) (n : ℕ)
    (hn : 13 ≤ n) : ¬ Ready machine.turn own (deleting.state n) := by
  have hthreads : (deleting.state 13).threads = [[.serve], [], []] := by decide +kernel
  have hrest : deleting.state n = deleting.state 13 := Execution.follow_rest hn
  refine Machine.not_ready fun i rest hin ↦ ?_
  rw [hrest, hthreads] at hin
  obtain ⟨rfl, -⟩ : i = .serve ∧ rest = [] := by simpa using hin
  exact hown

theorem one_end_per_session_observedSession :
    (∃ c, (machine.record EndLog.note).Runs (fun c i _ ↦ RemovedOnly (· = "sess_0") c.shared.1 i)
        ((start (boot observedSession)).logging {}) c ∧
      (c.threads = [[.serve], [], []] ∧ c.shared.1.observed = [⟨2, 0, .deleted⟩]) ∧
      Ended (· = "sess_0") (boot observedSession) c.shared.1 c.shared.2 c.soup) ∧
    (deleting.state 4).threads[2]? = some [.lock "sess_0" "a1" .deleted] ∧
      ∃ k, 4 ≤ k ∧ Returns deleting 2 k ⟨"sess_0", "a1", none⟩ := by
  have hkeyed : RowsKeyed observedSession := oneSession_keyed
  obtain ⟨hruns, hends⟩ := one_end_per_session (· = "sess_0") observedSession hkeyed
  have hplay : ∃ c, (machine.record EndLog.note).Runs (fun c i _ ↦ RemovedOnly (· = "sess_0") c.shared.1 i)
      ((start (boot observedSession)).logging {}) c ∧
      (c.threads = [[.serve], [], []] ∧ c.shared.1.observed = [⟨2, 0, .deleted⟩]) := by
    -- both deletes have found the session before one of them removes it
    apply Machine.exists_run [(0, .call (.delete "sess_0" "a1")), (0, .call (.delete "sess_0" "a1")), (1, .go),
      (2, .go), (1, .go), (1, .go), (1, .go), (1, .go), (1, .go), (1, .go), (2, .go), (2, .go), (1, .go)]
    decide +kernel
  obtain ⟨c, hrun, hend⟩ := hplay
  have hfound : (deleting.state 4).threads[2]? = some [.lock "sess_0" "a1" .deleted] := by decide +kernel
  obtain ⟨n', -, -, hreturns, -⟩ := hends deleting rfl (fun t ↦ .of_rest (deleting_done fun _ _ h ↦ h.2 rfl))
    (fun t ↦ .of_rest (deleting_done fun _ _ h ↦ nomatch h.2)) 4 2 _ hfound (by decide)
  obtain ⟨k, hk, -, hreturned⟩ := hreturns "sess_0" "a1" (List.mem_singleton_self _)
  exact ⟨⟨c, hrun, hend, (hruns c hrun).1⟩, hfound, k, hk, hreturned⟩

end AgentGpu.Sessions
