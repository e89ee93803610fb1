import AgentGpu.Foundation.History
import AgentGpu.Sessions.Lifecycle

namespace AgentGpu.Sessions

open Foundation

/-- The clock reading of each goroutine's sweep, and the rows that sweeps have deleted, as they
were stored then, with the reading of the sweep. -/
structure SweepLog where
  readings : ℕ → Time := fun _ ↦ 0
  removed : List (Session × Time) := []

namespace SweepLog

def note (m : Manager) (k : ℕ) : Instr → Choice → SweepLog → SweepLog
  | .sweep, _, l => { l with readings := Function.update l.readings k m.clock }
  | .dropRow id _ .expired _, _, l =>
    { l with removed := ((m.sessions.lookup id).map fun s ↦ (s, l.readings k)).toList ++ l.removed }
  | _, _, l => l

end SweepLog

namespace Instr

def reaps : Instr → Option String
  | .lock id _ r | .recheck id _ r | .endStats id _ r _ | .dropRow id _ r _ =>
    if r = .expired then some id else none
  | _ => none

def stored : Instr → Option Session
  | .putBack s | .putNew s => some s
  | _ => none

end Instr

/-- No row is stored under an id that a sweep still has to delete, unless the row is idle at the
reading of that sweep as well. -/
def StoresIdle (c : Config Manager Instr) (l : SweepLog) (_ : ℕ) (i : Instr) (_ : Choice) : Prop :=
  ∀ s ∈ i.stored, ∀ p ∈ c.threads.zipIdx, ∀ j ∈ p.1, j.reaps = some s.id → s.expired (l.readings p.2)

instance (c : Config Manager Instr) (l : SweepLog) (k : ℕ) (i : Instr) (x : Choice) :
    Decidable (StoresIdle c l k i x) := by
  delta StoresIdle
  infer_instance

variable {m : Manager} {i : Instr} {x : Choice} {e : Effect Manager Instr} {l : SweepLog} {k j : ℕ}
  {th rest : List Instr} {id : String} {s : Session}

theorem Step.row_cases (hs : Step m i e) (hl : e.shared.sessions.lookup id = some s) :
    m.sessions.lookup id = some s ∨ i.stored = some s ∧ s.id = id := by
  induction hs with
  | reserved hmu hr =>
    obtain ⟨rfl, -⟩ := Manager.reserveSlot_some hr
    exact .inl hl
  | putNew s' | putBack s' =>
    obtain ⟨rfl, rfl⟩ | hl := Table.lookup_insert_cases hl
    · exact .inr ⟨rfl, rfl⟩
    · exact .inl hl
  | dropRow id' =>
    have hne : id ≠ id' := by
      rintro rfl
      rw [AList.lookup_erase] at hl
      cases hl
    exact .inl ((AList.lookup_erase_ne hne).symm.trans hl)
  | _ => exact .inl hl

/-- What an instruction of a sweep rests on: a listing has the reading of the sweep, and what
the sweep still has to delete is idle at this reading. -/
structure Due (m : Manager) (reading : Time) (i : Instr) : Prop where
  list : ∀ now, i = .list now → now = reading
  idle : ∀ id, i.reaps = some id → ∀ s, m.sessions.lookup id = some s → s.expired reading

structure Swept (m : Manager) (l : SweepLog) (k : ℕ) (th : List Instr) : Prop where
  due : ∀ i ∈ th, Due m (l.readings k) i
  alone : .sweep ∈ th → th = [.sweep]

theorem due_of_quiet (hlist : ∀ now, i ≠ .list now) (hreaps : i.reaps = none) (m : Manager) (reading : Time) :
    Due m reading i where
  list now h := absurd h (hlist now)
  idle id h := by
    rw [hreaps] at h
    cases h

theorem Due.step {reading : Time} {i' : Instr} (hdue : Due m reading i') (hs : Step m i e)
    (hguard : ∀ s ∈ i.stored, i'.reaps = some s.id → s.expired reading) : Due e.shared reading i' where
  list := hdue.list
  idle id hid s hl := by
    obtain hold | ⟨hstored, rfl⟩ := hs.row_cases hl
    · exact hdue.idle id hid s hold
    · exact hguard s hstored hid

theorem readings_note (h : i = .sweep → j ≠ k) : (SweepLog.note m k i x l).readings j = l.readings j := by
  unfold SweepLog.note
  split
  · exact Function.update_of_ne (h rfl) _ _
  · rfl
  · rfl

theorem Step.due_next {reading : Time} (hs : Step m i e) (hkeyed : RowsKeyed m) (hdue : Due m reading i)
    (hsweep : i = .sweep → reading = m.clock) : ∀ i' ∈ e.next, Due e.shared reading i' ∧ i' ≠ .sweep := by
  have hquiet {i' : Instr} (hi' : (∀ now, i' ≠ .list now) ∧ i'.reaps = none ∧ i' ≠ .sweep) :
      Due e.shared reading i' ∧ i' ≠ .sweep := ⟨due_of_quiet hi'.1 hi'.2.1 _ _, hi'.2.2⟩
  induction hs with
  | lock | present | endStats =>
    refine List.forall_mem_singleton.mpr ⟨⟨by simp, ?_⟩, by simp⟩
    exact fun id hid ↦ hdue.idle id hid
  | sweep =>
    refine List.forall_mem_singleton.mpr ⟨⟨fun now hnow ↦ ?_, by simp [Instr.reaps]⟩, by simp⟩
    cases hnow
    exact (hsweep rfl).symm
  | @list now listed hlisted =>
    intro i' hi'
    obtain ⟨s, hs, rfl⟩ := List.mem_map.mp hi'
    obtain ⟨hin, hexpired⟩ := List.mem_filter.mp hs
    refine ⟨⟨by simp, fun id hid s' hl ↦ ?_⟩, by simp⟩
    obtain rfl : s.id = id := by simpa [Instr.reaps] using hid
    obtain ⟨id, hrow⟩ := hlisted s hin
    obtain rfl := hkeyed id s hrow
    obtain rfl := Option.some.inj (hrow.symm.trans hl)
    exact hdue.list now rfl ▸ hexpired
  | settle id o r st =>
    cases st with
    | none => exact List.forall_mem_nil _
    | some st => exact List.forall_mem_singleton.mpr (hquiet (by simp [Instr.reaps]))
  | found => exact List.forall_mem_singleton.mpr (hquiet (by simp [Instr.reaps]))
  | _ => first
    | exact List.forall_mem_nil _
    | exact List.forall_mem_singleton.mpr (hquiet (by simp [Instr.reaps]))

theorem Due.removed_note (hdue : Due m (l.readings k) i) (x : Choice)
    (hidle : ∀ p ∈ l.removed, p.1.expired p.2) :
    ∀ p ∈ (SweepLog.note m k i x l).removed, p.1.expired p.2 := by
  unfold SweepLog.note
  split
  case h_1 => exact hidle
  case h_2 _ id o st =>
    refine List.forall_mem_append.mpr ⟨fun p hp ↦ ?_, hidle⟩
    obtain ⟨s, hs, rfl⟩ := Option.map_eq_some_iff.mp (Option.mem_toList.mp hp)
    exact hdue.idle id rfl s hs
  case h_3 => exact hidle

theorem storesIdle_apply {c : Config Manager Instr} (hguard : StoresIdle c l k i x)
    (hth : c.threads[j]? = some th) {i' : Instr} (hi' : i' ∈ th) :
    ∀ s ∈ i.stored, i'.reaps = some s.id → s.expired (l.readings j) := by
  intro s hs hreaps
  exact hguard s hs (th, j) (List.mem_zipIdx_iff_getElem?.mpr hth) i' hi' hreaps

theorem Step.swept (hs : Step m i e) (hkeyed : RowsKeyed m) (hP : Swept m l k (i :: rest))
    (hguard : ∀ i' ∈ rest, ∀ s ∈ i.stored, i'.reaps = some s.id → s.expired (l.readings k)) (x : Choice) :
    Swept e.shared (SweepLog.note m k i x l) k (e.next ++ rest) := by
  obtain ⟨hdue, hrest⟩ := List.forall_mem_cons.mp hP.due
  by_cases hsweep : i = .sweep
  · subst hsweep
    obtain rfl : rest = [] := by simpa using hP.alone List.mem_cons_self
    have hreading : (SweepLog.note m k .sweep x l).readings k = m.clock := Function.update_self _ _ _
    have hnext := hs.due_next hkeyed (due_of_quiet (by simp) rfl m m.clock) fun _ ↦ rfl
    rw [List.append_nil]
    refine ⟨fun i' hi' ↦ hreading ▸ (hnext i' hi').1, fun hin ↦ absurd rfl (hnext _ hin).2⟩
  · have hreading : (SweepLog.note m k i x l).readings k = l.readings k :=
      readings_note fun h ↦ absurd h hsweep
    have hnext := hs.due_next hkeyed hdue fun h ↦ absurd h hsweep
    refine ⟨?_, fun hin ↦ ?_⟩
    · rw [hreading]
      exact List.forall_mem_append.mpr ⟨fun i' hi' ↦ (hnext i' hi').1,
        fun i' hi' ↦ (hrest i' hi').step hs (hguard i' hi')⟩
    · rcases List.mem_append.mp hin with hin | hin
      · exact absurd rfl (hnext _ hin).2
      · have halone := hP.alone (List.mem_cons_of_mem i hin)
        exact absurd (List.cons.inj halone).1 hsweep

theorem Step.swept_spawned (hs : Step m i e) (hj : e.spawned[j]? = some th) {n : ℕ} :
    Swept e.shared l n th := by
  induction hs with
  | call call =>
    obtain ⟨rfl, rfl⟩ : j = 0 ∧ [entry call] = th := by
      simpa [List.getElem?_singleton] using hj
    refine ⟨List.forall_mem_singleton.mpr ?_, fun hin ↦ ?_⟩
    · cases call <;> exact due_of_quiet (by simp [entry]) rfl _ _
    · rw [List.mem_singleton.mp hin]
  | _ => cases hj

/-- As long as no row is stored that a sweep is about to delete, unless it is idle as well, every
row that a sweep deletes is idle at the reading of the sweep. -/
theorem sweep_deletes_idle {m : Manager} (hrows : RowsKeyed m) {c : Config Manager Instr} {l : SweepLog}
    (hc : machine.Traces SweepLog.note StoresIdle (start m) {} c l) :
    ∀ p ∈ l.removed, p.1.expired p.2 := by
  have hinv := hc.invariant (fun m l _ ↦ RowsKeyed m ∧ ∀ p ∈ l.removed, p.1.expired p.2) Swept ?_ ?_ ?_ ?_
  · exact hinv.1.2
  · exact ⟨hrows, List.forall_mem_nil _⟩
  · intro k th hk
    obtain ⟨rfl, rfl⟩ : k = 0 ∧ [Instr.serve] = th := by
      simpa [start, List.getElem?_singleton] using hk
    exact ⟨List.forall_mem_singleton.mpr (due_of_quiet (by simp) rfl _ _), by simp⟩
  · intro c l k i rest x e hI hk hP hg he
    have hs := step_of_exec he
    obtain ⟨hkeyed, hidle⟩ := hI
    have hdue := hP.due i List.mem_cons_self
    refine ⟨⟨(hs.keyed hkeyed).1, hdue.removed_note x hidle⟩, ?_, fun j th hj ↦ ?_⟩
    · exact hs.swept hkeyed hP (fun i' hi' ↦ storesIdle_apply hg hk (List.mem_cons_of_mem i hi')) x
    · exact hs.swept_spawned hj
  · intro c l k i rest x e hI hP hg he j th hj hth hPj
    have hs := step_of_exec he
    refine ⟨fun i' hi' ↦ ?_, hPj.alone⟩
    rw [readings_note fun _ ↦ hj]
    exact (hPj.due i' hi').step hs (storesIdle_apply hg hth hi')

theorem sweep_deletes_idle_oneSession :
    ∃ c l, machine.Traces SweepLog.note StoresIdle (start oneSession) {} c l ∧
      l.removed.length = 1 ∧ ∀ p ∈ l.removed, p.1.expired p.2 := by
  have hrun : ∃ c l, machine.Traces SweepLog.note StoresIdle (start oneSession) {} c l ∧
      l.removed.length = 1 := by
    apply Machine.exists_trace [(0, .elapse (31 * 60000000000)), (0, .call .sweepExpired), (1, .go),
      (1, .order ["sess_0"]), (1, .go), (1, .go), (1, .go), (1, .go)]
    decide +kernel
  obtain ⟨c, l, hc, hlength⟩ := hrun
  exact ⟨c, l, hc, hlength, sweep_deletes_idle oneSession_keyed hc⟩

/-- A `Resume` that found the session alive writes it back after the sweep has listed it: the
sweep deletes a session that was active eleven minutes before. -/
theorem sweep_deletes_resumed_session :
    ∃ c l, machine.Traces SweepLog.note (fun _ _ _ _ _ ↦ True) (start oneSession) {} c l ∧
      (l.removed.map fun p ↦ (p.1.id, p.1.lastActiveAt, p.2, p.1.expired p.2)) =
        [("sess_0", 20 * minute, 31 * minute, false)] := by
  apply Machine.exists_trace [(0, .elapse (20 * 60000000000)), (0, .call (.touch .resume "sess_0" "a1")),
    (1, .go), (1, .go), (1, .go), (0, .elapse (11 * 60000000000)), (0, .call .sweepExpired), (2, .go),
    (2, .order ["sess_0"]), (1, .go), (2, .go), (2, .go), (2, .go), (2, .go)]
  decide +kernel

end AgentGpu.Sessions
