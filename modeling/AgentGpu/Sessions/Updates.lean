import AgentGpu.Foundation.History
import AgentGpu.Sessions.Lifecycle

namespace AgentGpu.Sessions

open Foundation

deriving instance DecidableEq for Call

/-- The operations on one session, each known by its goroutine: where it read the clock, and
where it wrote the row back. -/
inductive Event
  | began (k : ℕ) (t : Touch) (now : Time)
  | ended (k : ℕ)
  deriving DecidableEq

def journal (id : String) (m : Manager) (k : ℕ) : Instr → Choice → List Event → List Event
  | .touch t id' _, _, l => if id' = id then .began k t m.clock :: l else l
  | .putBack s, _, l => if s.id = id then .ended k :: l else l
  | _, _, l => l

def Follows (k k' : ℕ) : List Event → Prop
  | [] => False
  | .began j _ _ :: l => (j = k' ∧ .ended k ∈ l) ∨ Follows k k' l
  | .ended _ :: l => Follows k k' l

def Undisturbed (k : ℕ) : List Event → Prop
  | [] => False
  | .began j _ _ :: l => j = k ∨ Undisturbed k l
  | .ended _ :: _ => False

instance (k : ℕ) : (l : List Event) → Decidable (Undisturbed k l)
  | [] => inferInstanceAs (Decidable False)
  | .began j _ _ :: l =>
    have := instDecidableUndisturbed k l
    inferInstanceAs (Decidable (j = k ∨ Undisturbed k l))
  | .ended _ :: _ => inferInstanceAs (Decidable False)

def Completed (l : List Event) (k : ℕ) (t : Touch) (now : Time) : Prop :=
  .began k t now ∈ l ∧ .ended k ∈ l

instance (l : List Event) (k : ℕ) (t : Touch) (now : Time) : Decidable (Completed l k t now) :=
  inferInstanceAs (Decidable (_ ∧ _))

def Instr.written : Instr → Option Session
  | .putBack s => some s
  | _ => none

structure UpToDate (bound : String) (row : Session) (l : List Event) : Prop where
  bound : (row.boundWorkerID = bound ∧ ∀ k w now, ¬Completed l k (.bind w) now) ∨
    ∃ k now, Completed l k (.bind row.boundWorkerID) now ∧
      ∀ k' w' now', Completed l k' (.bind w') now' → ¬Follows k k' l
  active : ∀ k t now, Completed l k t now → now ≤ row.lastActiveAt

def KeepsSession (id : String) : Instr → Bool
  | .dropRow id' _ _ _ => id' ≠ id
  | .putNew s => s.id ≠ id
  | _ => true

/-- No operation writes the session when another has written since it read the clock. -/
def WritesInTurn (id : String) (_ : Config Manager Instr) (l : List Event) (k : ℕ) (i : Instr)
    (_ : Choice) : Prop :=
  KeepsSession id i ∧ ∀ s ∈ i.written, s.id = id → Undisturbed k l

instance (id : String) (c : Config Manager Instr) (l : List Event) (k : ℕ) (i : Instr) (x : Choice) :
    Decidable (WritesInTurn id c l k i x) :=
  inferInstanceAs (Decidable (_ ∧ _))

section Journal

variable {clock clock' : Time} {n n' k k' : ℕ} {t t' : Touch} {now now' : Time} {l : List Event}

def Event.goroutine : Event → ℕ
  | .began k _ _ | .ended k => k

/-- An operation reads the clock once, before it writes, which it does once; the readings
follow each other, up to `clock`, and the goroutines have numbers below `n`. -/
def Formed (n : ℕ) (clock : Time) : List Event → Prop
  | [] => True
  | .began k _ now :: l => now ≤ clock ∧ k < n ∧ (∀ e ∈ l, e.goroutine ≠ k) ∧ Formed n now l
  | .ended k :: l => (∃ t now, .began k t now ∈ l) ∧ .ended k ∉ l ∧ Formed n clock l

theorem Formed.mono (h : Formed n clock l) (hn : n ≤ n') (hclock : clock ≤ clock') :
    Formed n' clock' l := by
  induction l generalizing clock clock' with
  | nil => trivial
  | cons e l ih =>
    cases e with
    | began k t now =>
      obtain ⟨hnow, hk, honce, hl⟩ := h
      exact ⟨hnow.trans hclock, hk.trans_le hn, honce, ih hl le_rfl⟩
    | ended k =>
      obtain ⟨hbegan, honce, hl⟩ := h
      exact ⟨hbegan, honce, ih hl hclock⟩

theorem Formed.reading_le (h : Formed n clock l) (hb : .began k t now ∈ l) : now ≤ clock := by
  induction l generalizing clock with
  | nil => cases hb
  | cons e l ih =>
    cases e with
    | began j t' now' =>
      obtain ⟨hnow, -, -, hl⟩ := h
      rcases List.mem_cons.mp hb with heq | hb
      · cases heq
        exact hnow
      · exact (ih hl hb).trans hnow
    | ended j =>
      obtain ⟨-, -, hl⟩ := h
      exact ih hl ((List.mem_cons.mp hb).resolve_left Event.noConfusion)

theorem Formed.goroutine_lt (h : Formed n clock l) : ∀ e ∈ l, e.goroutine < n := by
  induction l generalizing clock with
  | nil => exact List.forall_mem_nil _
  | cons e l ih =>
    rw [List.forall_mem_cons]
    cases e with
    | began j t' now' => exact ⟨h.2.1, ih h.2.2.2⟩
    | ended j =>
      obtain ⟨⟨t, now, hb⟩, -, hl⟩ := h
      exact ⟨ih hl (.began j t now) hb, ih hl⟩

theorem Formed.once (h : Formed n clock l) (hb : .began k t now ∈ l) (hb' : .began k t' now' ∈ l) :
    t = t' ∧ now = now' := by
  induction l generalizing clock with
  | nil => cases hb
  | cons e l ih =>
    cases e with
    | began j t₁ now₁ =>
      obtain ⟨-, -, honce, hl⟩ := h
      rcases List.mem_cons.mp hb with heq | hold <;> rcases List.mem_cons.mp hb' with heq' | hold'
      · cases heq
        cases heq'
        exact ⟨rfl, rfl⟩
      · cases heq
        exact (honce _ hold' rfl).elim
      · cases heq'
        exact (honce _ hold rfl).elim
      · exact ih hl hold hold'
    | ended j =>
      exact ih h.2.2 ((List.mem_cons.mp hb).resolve_left Event.noConfusion)
        ((List.mem_cons.mp hb').resolve_left Event.noConfusion)

theorem Formed.reading_le_of_undisturbed (h : Formed n clock l) (hu : Undisturbed k l)
    (hb : .began k t now ∈ l) (hc : Completed l k' t' now') : now' ≤ now := by
  induction l generalizing clock with
  | nil => cases hb
  | cons e l ih =>
    cases e with
    | began j t₁ now₁ =>
      obtain ⟨-, -, honce, hl⟩ := h
      obtain ⟨hb', he'⟩ := hc
      have hended : .ended k' ∈ l := (List.mem_cons.mp he').resolve_left Event.noConfusion
      have hbegan : .began k' t' now' ∈ l := by
        rcases List.mem_cons.mp hb' with heq | hold
        · cases heq
          exact (honce _ hended rfl).elim
        · exact hold
      rcases List.mem_cons.mp hb with heq | hold
      · cases heq
        exact hl.reading_le hbegan
      · have hj : j ≠ k := fun hj ↦ honce _ hold hj.symm
        exact ih hl (hu.resolve_left hj) hold ⟨hbegan, hended⟩
    | ended j => cases hu

theorem ended_of_follows (h : Follows k k' l) : .ended k ∈ l := by
  induction l with
  | nil => cases h
  | cons e l ih =>
    cases e with
    | began j t now =>
      rcases h with ⟨-, he⟩ | h
      · exact List.mem_cons_of_mem _ he
      · exact List.mem_cons_of_mem _ (ih h)
    | ended j => exact List.mem_cons_of_mem _ (ih h)

theorem completed_began {j : ℕ} {t₁ : Touch} {now₁ : Time} (hfresh : ∀ e ∈ l, e.goroutine ≠ j) :
    Completed (.began j t₁ now₁ :: l) k t now ↔ Completed l k t now := by
  refine ⟨fun ⟨hb, he⟩ ↦ ?_, fun ⟨hb, he⟩ ↦ ⟨List.mem_cons_of_mem _ hb, List.mem_cons_of_mem _ he⟩⟩
  have hended : .ended k ∈ l := (List.mem_cons.mp he).resolve_left Event.noConfusion
  rcases List.mem_cons.mp hb with heq | hold
  · cases heq
    exact (hfresh _ hended rfl).elim
  · exact ⟨hold, hended⟩

theorem completed_ended {j : ℕ} :
    Completed (.ended j :: l) k t now ↔ .began k t now ∈ l ∧ (k = j ∨ .ended k ∈ l) := by
  simp [Completed]

variable {bound : String} {row : Session}

theorem UpToDate.began (h : UpToDate bound row l) (hfresh : ∀ e ∈ l, e.goroutine ≠ k) (t : Touch)
    (now : Time) : UpToDate bound row (.began k t now :: l) := by
  refine ⟨?_, ?_⟩
  · simp only [completed_began hfresh]
    rcases h.bound with hnone | ⟨j, now', hj, hlast⟩
    · exact .inl hnone
    · refine .inr ⟨j, now', hj, fun k' w' now₁ hk' ↦ ?_⟩
      rintro (⟨rfl, -⟩ | hfollows)
      · exact hfresh _ hk'.2 rfl
      · exact hlast k' w' now₁ hk' hfollows
  · simpa only [completed_began hfresh] using h.active

theorem UpToDate.ended (h : UpToDate bound row l) (hl : Formed n clock l)
    (hb : .began k t now ∈ l) (he : .ended k ∉ l) (hu : Undisturbed k l) :
    UpToDate bound (t.update row now) (.ended k :: l) := by
  have hown {t' : Touch} {now' : Time} (hb' : .began k t' now' ∈ l) : t' = t ∧ now' = now :=
    hl.once hb' hb
  refine ⟨?_, ?_⟩
  · simp only [completed_ended, Follows]
    by_cases hbind : ∃ w, t = .bind w
    · obtain ⟨w, rfl⟩ := hbind
      exact .inr ⟨k, now, ⟨hb, .inl rfl⟩, fun _ _ _ _ hfollows ↦ he (ended_of_follows hfollows)⟩
    · have hkept : (t.update row now).boundWorkerID = row.boundWorkerID := by
        cases t with
        | bind w => exact absurd ⟨w, rfl⟩ hbind
        | _ => rfl
      have hother {k' : ℕ} {w : String} {now' : Time}
          (hc : .began k' (.bind w) now' ∈ l ∧ (k' = k ∨ .ended k' ∈ l)) :
          Completed l k' (.bind w) now' := by
        refine ⟨hc.1, hc.2.resolve_left fun hk ↦ hbind ⟨w, ?_⟩⟩
        subst hk
        exact (hown hc.1).1.symm
      rw [hkept]
      rcases h.bound with ⟨hrow, hnone⟩ | ⟨j, now', hj, hlast⟩
      · exact .inl ⟨hrow, fun k' w now' hc ↦ hnone k' w now' (hother hc)⟩
      · exact .inr ⟨j, now', ⟨hj.1, .inr hj.2⟩, fun k' w' now₁ hc ↦ hlast k' w' now₁ (hother hc)⟩
  · intro k' t' now' hc
    have hactive : (t.update row now).lastActiveAt = now := by cases t <;> rfl
    rw [hactive]
    obtain ⟨hb', rfl | he'⟩ := completed_ended.mp hc
    · exact (hown hb').2.le
    · exact hl.reading_le_of_undisturbed hu hb ⟨hb', he'⟩

end Journal

section Machine

variable {id bound : String} {m : Manager} {i : Instr} {x : Choice} {e : Effect Manager Instr}
  {l : List Event} {n k j : ℕ} {th rest : List Instr}

def Concerns (id : String) : Instr → Prop
  | .touch _ id' _ | .ownedActive _ id' _ _ => id' = id
  | .append _ _ s _ | .putBack s => s.id = id
  | _ => False

structure Recorded (id bound : String) (m : Manager) (l : List Event) (n : ℕ) : Prop where
  keyed : RowsKeyed m
  formed : Formed n m.clock l
  row : ∃ row, m.sessions.lookup id = some row ∧ UpToDate bound row l

/-- Where goroutine `k` stands. An operation holds the row that is stored, unless another has
written since it read the clock. -/
inductive Operation (id : String) (m : Manager) (l : List Event) (k : ℕ) : List Instr → Prop
  | foreign {th : List Instr} (h : ∀ i ∈ th, ¬Concerns id i) : Operation id m l k th
  | touch (t : Touch) (o : String) (hfresh : ∀ e ∈ l, e.goroutine ≠ k) :
      Operation id m l k [.touch t id o]
  | reading {t : Touch} {now : Time} (o : String) (hb : .began k t now ∈ l) (he : .ended k ∉ l) :
      Operation id m l k [.ownedActive t id o now]
  | append {t : Touch} {now : Time} {s : Session} (id' : String) (hb : .began k t now ∈ l)
      (he : .ended k ∉ l) (hs : s.id = id) (hrow : Undisturbed k l → m.sessions.lookup id = some s) :
      Operation id m l k [.append t id' s now]
  | putBack {t : Touch} {now : Time} {s : Session} (hb : .began k t now ∈ l) (he : .ended k ∉ l)
      (hs : s.id = id) (hrow : Undisturbed k l → m.sessions.lookup id = some s) :
      Operation id m l k [.putBack (t.update s now)]

theorem Step.journal_cases (hs : Step m i e) (hkeeps : KeepsSession id i) (k : ℕ) (x : Choice)
    (l : List Event) :
    (journal id m k i x l = l ∧ e.shared.sessions.lookup id = m.sessions.lookup id) ∨
      (∃ t, journal id m k i x l = .began k t m.clock :: l ∧ Concerns id i ∧ e.shared = m) ∨
      (∃ s, i = .putBack s ∧ s.id = id ∧ journal id m k i x l = .ended k :: l) := by
  induction hs with
  | reserved hmu hr =>
    obtain ⟨rfl, -⟩ := Manager.reserveSlot_some hr
    exact .inl ⟨rfl, rfl⟩
  | putNew s => exact .inl ⟨rfl, AList.lookup_insert_ne (Ne.symm (of_decide_eq_true hkeeps))⟩
  | touch t id' o =>
    by_cases hid : id' = id
    · exact .inr (.inl ⟨t, if_pos hid, hid, rfl⟩)
    · exact .inl ⟨if_neg hid, rfl⟩
  | putBack s =>
    by_cases hid : s.id = id
    · exact .inr (.inr ⟨s, rfl, hid, if_pos hid⟩)
    · exact .inl ⟨if_neg hid, AList.lookup_insert_ne (Ne.symm hid)⟩
  | dropRow id' o r st => exact .inl ⟨rfl, AList.lookup_erase_ne (Ne.symm (of_decide_eq_true hkeeps))⟩
  | _ => exact .inl ⟨rfl, rfl⟩

theorem Step.clock_le (hs : Step m i e) : m.clock ≤ e.shared.clock := by
  induction hs with
  | elapse d => exact Int.le_add_of_nonneg_right (Int.natCast_nonneg d)
  | reserved hmu hr =>
    obtain ⟨rfl, -⟩ := Manager.reserveSlot_some hr
    exact le_rfl
  | _ => exact le_rfl

theorem Operation.stable (h : Operation id m l j th) (hj : j ≠ k) (hs : Step m i e)
    (hkeeps : KeepsSession id i) (x : Choice) :
    Operation id e.shared (journal id m k i x l) j th := by
  obtain ⟨hl, hrow'⟩ | ⟨t, hl, -, hm⟩ | ⟨s, -, -, hl⟩ := hs.journal_cases hkeeps k x l
  · rw [hl]
    cases h with
    | foreign h => exact .foreign h
    | touch t o hfresh => exact .touch t o hfresh
    | reading o hb he => exact .reading o hb he
    | append id' hb he hs hrow => exact .append id' hb he hs fun hu ↦ hrow'.trans (hrow hu)
    | putBack hb he hs hrow => exact .putBack hb he hs fun hu ↦ hrow'.trans (hrow hu)
  · rw [hl, hm]
    have hended : .ended j ∉ l → .ended j ∉ .began k t m.clock :: l := by simp
    cases h with
    | foreign h => exact .foreign h
    | touch t' o hfresh =>
      exact .touch t' o (List.forall_mem_cons.mpr ⟨Ne.symm hj, hfresh⟩)
    | reading o hb he => exact .reading o (List.mem_cons_of_mem _ hb) (hended he)
    | append id' hb he hs hrow =>
      exact .append id' (List.mem_cons_of_mem _ hb) (hended he) hs fun hu ↦
        hrow (hu.resolve_left (Ne.symm hj))
    | putBack hb he hs hrow =>
      exact .putBack (List.mem_cons_of_mem _ hb) (hended he) hs fun hu ↦
        hrow (hu.resolve_left (Ne.symm hj))
  · rw [hl]
    have hended : .ended j ∉ l → .ended j ∉ .ended k :: l := by simp [hj]
    cases h with
    | foreign h => exact .foreign h
    | touch t' o hfresh =>
      exact .touch t' o (List.forall_mem_cons.mpr ⟨Ne.symm hj, hfresh⟩)
    | reading o hb he => exact .reading o (List.mem_cons_of_mem _ hb) (hended he)
    | append id' hb he hs hrow =>
      exact .append id' (List.mem_cons_of_mem _ hb) (hended he) hs fun hu ↦ hu.elim
    | putBack hb he hs hrow =>
      exact .putBack (List.mem_cons_of_mem _ hb) (hended he) hs fun hu ↦ hu.elim

theorem Step.foreign (hs : Step m i e) (hkeyed : RowsKeyed m) (hi : ¬Concerns id i) :
    ∀ j ∈ e.next, ¬Concerns id j := by
  induction hs with
  | touch t id' o => exact List.forall_mem_singleton.mpr hi
  | owned hl =>
    refine List.forall_mem_singleton.mpr fun hid ↦ hi ?_
    exact (hkeyed _ _ hl).symm.trans hid
  | appended history hh =>
    refine List.forall_mem_singleton.mpr fun hid ↦ hi ?_
    exact (touch_update_id _ _ _).symm.trans hid
  | settle id' o r st => cases st <;> simp [Concerns]
  | list listed =>
    intro j hj
    obtain ⟨s, -, rfl⟩ := mem_reap hj
    exact not_false
  | _ => simp [Concerns]

theorem Step.spawned (hs : Step m i e) (hfresh : ∀ ev ∈ l, ev.goroutine < n) (k : ℕ) (x : Choice) :
    ∀ j th, e.spawned[j]? = some th →
      Operation id e.shared (journal id m k i x l) (n + j) th := by
  intro j th hj
  induction hs with
  | call call =>
    obtain ⟨rfl, rfl⟩ : j = 0 ∧ [entry call] = th := by
      simpa [List.getElem?_singleton] using hj
    cases call with
    | touch t id' o =>
      by_cases hid : id' = id
      · subst hid
        exact .touch t o fun ev hev ↦ (hfresh ev hev).ne
      · exact .foreign (List.forall_mem_singleton.mpr hid)
    | _ => exact .foreign (List.forall_mem_singleton.mpr not_false)
  | _ => cases hj

theorem Operation.own (h : Operation id m l k (i :: rest)) (hI : Recorded id bound m l n) (hk : k < n)
    (hkeeps : KeepsSession id i) (hturn : ∀ s ∈ i.written, s.id = id → Undisturbed k l)
    (hs : Step m i e) (x : Choice) :
    Recorded id bound e.shared (journal id m k i x l) (n + e.spawned.length) ∧
      Operation id e.shared (journal id m k i x l) k (e.next ++ rest) := by
  have hkeyed := (hs.keyed hI.keyed).1
  have hmono := hI.formed.mono (Nat.le_add_right n e.spawned.length) hs.clock_le
  obtain ⟨row, hrow, hdate⟩ := hI.row
  cases h with
  | foreign h =>
    obtain ⟨hi, hrest⟩ := List.forall_mem_cons.mp h
    obtain ⟨hl, hsame⟩ | ⟨t, -, hc, -⟩ | ⟨s, rfl, hid, -⟩ := hs.journal_cases hkeeps k x l
    · rw [hl]
      refine ⟨⟨hkeyed, hmono, row, hsame.trans hrow, hdate⟩, .foreign ?_⟩
      exact List.forall_mem_append.mpr ⟨hs.foreign hI.keyed hi, hrest⟩
    · exact absurd hc hi
    · exact absurd hid hi
  | touch t o hfresh =>
    cases hs
    rw [show journal id m k (.touch t id o) x l = .began k t m.clock :: l from if_pos rfl]
    refine ⟨⟨hI.keyed, ⟨le_rfl, hk, hfresh, hI.formed⟩, row, hrow, hdate.began hfresh t m.clock⟩, ?_⟩
    refine .reading o List.mem_cons_self ?_
    simpa using fun he ↦ hfresh _ he rfl
  | reading o hb he =>
    cases hs with
    | notOwned => exact ⟨⟨hI.keyed, hI.formed, row, hrow, hdate⟩, .foreign (List.forall_mem_nil _)⟩
    | owned hl =>
      exact ⟨⟨hI.keyed, hI.formed, row, hrow, hdate⟩, .append id hb he (hI.keyed _ _ hl) fun _ ↦ hl⟩
  | append id' hb he hid hheld =>
    cases hs with
    | rejected => exact ⟨⟨hI.keyed, hI.formed, row, hrow, hdate⟩, .foreign (List.forall_mem_nil _)⟩
    | appended => exact ⟨⟨hI.keyed, hI.formed, row, hrow, hdate⟩, .putBack hb he hid hheld⟩
  | @putBack t now s hb he hid hheld =>
    cases hs
    have hid' : (t.update s now).id = id := (touch_update_id t s now).trans hid
    have hu := hturn _ rfl hid'
    obtain rfl : s = row := Option.some.inj ((hheld hu).symm.trans hrow)
    rw [show journal id m k (.putBack (t.update s now)) x l = .ended k :: l from if_pos hid']
    refine ⟨⟨hkeyed, ⟨⟨t, now, hb⟩, he, hI.formed⟩, t.update s now, ?_,
      hdate.ended hI.formed hb he hu⟩, .foreign (List.forall_mem_nil _)⟩
    rw [Manager.lookup_put, if_pos hid'.symm]

end Machine

/-- As long as no operation writes the session when another has written since it read the
clock, the session has the worker of a `Bind` that no later one followed, and is no older than
any operation on it. -/
theorem session_updates_kept {m : Manager} {id : String} {row₀ : Session} (hrows : RowsKeyed m)
    (hrow₀ : m.sessions.lookup id = some row₀) {c : Config Manager Instr} {l : List Event}
    (hc : machine.Traces (journal id) (WritesInTurn id) (start m) [] c l) :
    ∃ row, c.shared.sessions.lookup id = some row ∧ UpToDate row₀.boundWorkerID row l := by
  have hinv := hc.invariant (Recorded id row₀.boundWorkerID) (Operation id) ?_ ?_ ?_ ?_
  · exact hinv.1.row
  · exact ⟨hrows, trivial, row₀, hrow₀, .inl ⟨rfl, fun k w now hk ↦ nomatch hk.1⟩,
      fun k t now hk ↦ nomatch hk.1⟩
  · intro k th hk
    obtain ⟨rfl, rfl⟩ : k = 0 ∧ [Instr.serve] = th := by
      simpa [start, List.getElem?_singleton] using hk
    exact .foreign (List.forall_mem_singleton.mpr not_false)
  · intro c l k i rest x e hI hk hP hg he
    have hs := step_of_exec he
    obtain ⟨hI', hnext⟩ := hP.own hI (List.getElem?_eq_some_iff.mp hk).1 hg.1 hg.2 hs x
    exact ⟨hI', hnext, hs.spawned hI.formed.goroutine_lt k x⟩
  · intro c l k i rest x e hI hP hg he j th hj _ hth
    exact hth.stable hj (step_of_exec he) hg.1 x

/-- A `Bind` while another operation is at work, and a `Resume` after it. -/
theorem session_updates_kept_resume :
    ∃ c l row, machine.Traces (journal "sess_0") (WritesInTurn "sess_0") (start oneSession) [] c l ∧
      Completed l 1 (.bind "w") 0 ∧ Completed l 3 .resume 5 ∧
      c.shared.sessions.lookup "sess_0" = some row ∧ UpToDate "" row l := by
  have hrun : ∃ c l, machine.Traces (journal "sess_0") (WritesInTurn "sess_0") (start oneSession) [] c l ∧
      Completed l 1 (.bind "w") 0 ∧ Completed l 3 .resume 5 := by
    apply Machine.exists_trace [(0, .call (.touch (.bind "w") "sess_0" "a1")),
      (0, .call (.touch (.appendTurns []) "sess_0" "a1")), (1, .go), (1, .go), (2, .go), (1, .go), (1, .go),
      (0, .elapse 5), (0, .call (.touch .resume "sess_0" "a1")), (3, .go), (3, .go), (3, .go), (3, .go)]
    decide +kernel
  obtain ⟨c, l, hc, hbind, hresume⟩ := hrun
  obtain ⟨row, hrow, hdate⟩ := session_updates_kept oneSession_keyed rfl hc
  exact ⟨c, l, row, hc, hbind, hresume, hrow, hdate⟩

/-- A `Resume` that read the row before a `Bind` writes it back after it: all operations are
over, and the binding and the time of the `Bind` are gone. -/
theorem resume_undoes_bind :
    ∃ c l row, machine.Traces (journal "sess_0") (fun _ _ _ i _ ↦ KeepsSession "sess_0" i)
        (start oneSession) [] c l ∧
      c.threads = [[.serve], [], []] ∧ c.shared.sessions.lookup "sess_0" = some row ∧
      Completed l 1 .resume 0 ∧ Completed l 2 (.bind "w") 5 ∧
      row.boundWorkerID = "" ∧ row.lastActiveAt = 0 ∧ ¬UpToDate "" row l := by
  have hrun : ∃ c l, machine.Traces (journal "sess_0") (fun _ _ _ i _ ↦ KeepsSession "sess_0" i)
        (start oneSession) [] c l ∧
      c.threads = [[.serve], [], []] ∧
      c.shared.sessions.lookup "sess_0" = some ⟨"sess_0", "a1", "llama3", "", 0, 0, 30 * minute, .active⟩ ∧
      Completed l 1 .resume 0 ∧ Completed l 2 (.bind "w") 5 := by
    apply Machine.exists_trace [(0, .call (.touch .resume "sess_0" "a1")),
      (0, .call (.touch (.bind "w") "sess_0" "a1")), (1, .go), (1, .go), (1, .go), (0, .elapse 5), (2, .go),
      (2, .go), (2, .go), (2, .go), (1, .go)]
    decide +kernel
  obtain ⟨c, l, hc, hthreads, hrow, hresume, hbind⟩ := hrun
  refine ⟨c, l, _, hc, hthreads, hrow, hresume, hbind, rfl, rfl, fun hdate ↦ ?_⟩
  exact absurd (hdate.active 2 (.bind "w") 5 hbind) (by decide)

end AgentGpu.Sessions
