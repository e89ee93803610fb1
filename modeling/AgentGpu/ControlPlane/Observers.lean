import AgentGpu.ControlPlane.Entries
import AgentGpu.ControlPlane.Handovers

namespace AgentGpu.ControlPlane

open Foundation

variable {s s' : Server} {i : Instr} {x : Choice} {e : Effect Server Instr} {h ch : ℕ}

namespace Instr

def closes (ch : ℕ) : Instr → Bool
  | .forwardLast _ k _ _ | .closeLast _ k _ | .failForward k _ | .failClose k => k == ch
  | _ => false

def shuts (ch : ℕ) : Instr → Bool
  | .closeLast _ k _ | .failClose k => k == ch
  | _ => false

/-- The reader has taken `ch` out of the observer table, under the lock, for a chunk that is
not the last, and sends on it without the lock. -/
def forwards (ch : ℕ) : Instr → Bool
  | .forward _ k _ => k == ch
  | _ => false

end Instr

theorem Step.closed_cases (hs : Step s i x e) (ch : ℕ) :
    (e.shared.observed ch).closed = (s.observed ch).closed ∨
      (i.shuts ch ∧ (e.shared.observed ch).closed) := by
  induction hs with
  | forward | forwardLast | failForward => exact .inl (Chan.proj_of_update Chan.closed rfl Chan.trySend_closed ch)
  | relay hc => exact .inl (Chan.proj_of_update Chan.closed rfl (Chan.recv_some hc).2.2.2.1 ch)
  | closeLast _ k _ | failClose k =>
    by_cases hk : ch = k
    · subst hk
      exact .inr ⟨beq_self_eq_true ch, by simp [Server.closeObserver, Server.setObserved]⟩
    · exact .inl (congrArg Chan.closed (Function.update_of_ne hk ..))
  | _ => exact .inl rfl

theorem Step.panicked_cases (hs : Step s i x e) :
    e.shared.panicked = s.panicked ∨ ∃ ch, (i.closes ch ∨ i.forwards ch) ∧
      e.shared.panicked = (s.panicked || (s.observed ch).closed) := by
  induction hs with
  | forward _ k _ => exact .inr ⟨k, .inr (beq_self_eq_true k), rfl⟩
  | forwardLast _ k _ _ | closeLast _ k _ | failForward k _ | failClose k =>
    exact .inr ⟨k, .inl (beq_self_eq_true k), rfl⟩
  | _ => exact .inl rfl

structure Homed (s : Server) : Prop where
  observers : ∀ h jobID ch,
    (s.worker h).observers.lookup jobID = some ch → ch < s.nextChan ∧ s.home ch = h
  closed : ∀ ch, (s.observed ch).closed → ch < s.nextChan

def Instr.Homed (s : Server) : Instr → Prop
  | .forward h ch _ | .forwardLast h ch _ _ | .closeLast h ch _ => ch < s.nextChan ∧ s.home ch = h
  | .failForward ch _ | .failClose ch => ch < s.nextChan
  | _ => True

theorem Instr.Homed.of_shuts (hi : i.Homed s) (hshuts : i.shuts ch) : ch < s.nextChan := by
  cases i with
  | closeLast _ k _ => exact eq_of_beq hshuts ▸ hi.1
  | failClose k => exact eq_of_beq hshuts ▸ hi
  | _ => cases hshuts

theorem Instr.Homed.of_closes (hi : i.Homed s) (hcloses : i.closes ch) : ch < s.nextChan := by
  cases i with
  | forwardLast _ k _ _ | closeLast _ k _ => exact eq_of_beq hcloses ▸ hi.1
  | failForward k _ | failClose k => exact eq_of_beq hcloses ▸ hi
  | _ => cases hcloses

theorem Step.homed (hs : Step s i x e) (hI : Homed s) (hi : i.Homed s) : Homed e.shared := by
  refine ⟨fun h jobID ch hl ↦ ?_, fun ch hclosed ↦ ?_⟩
  · rcases hs.observer_cases hl with hold | ⟨job, rfl, -, rfl⟩
    · obtain ⟨hlt, hhome⟩ := hI.observers h jobID ch hold
      obtain ⟨hlt', hhome', -⟩ := hs.chan_stable hlt
      exact ⟨hlt', hhome'.trans hhome⟩
    · cases hs with
      | quit hq => cases hq
      | addObserver => exact ⟨Nat.lt_succ_self _, Function.update_self ..⟩
  · rcases hs.closed_cases ch with hsame | ⟨hshuts, -⟩
    · exact (hs.chan_stable (hI.closed ch (hsame ▸ hclosed))).1
    · exact (hs.chan_stable (hi.of_shuts hshuts)).1

theorem Step.homed_stable (hs : Step s i x e) {j : Instr} (hj : j.Homed s) : j.Homed e.shared := by
  cases j with
  | forward | forwardLast | closeLast =>
    obtain ⟨hlt, hhome, -⟩ := hs.chan_stable hj.1
    exact ⟨hlt, hhome.trans hj.2⟩
  | failForward | failClose => exact (hs.chan_stable hj).1
  | _ => trivial

theorem Step.homed_fresh (hs : Step s i x e) (hI : Homed s) (hi : i.Homed s) :
    ∀ j ∈ e.fresh, j.Homed s := by
  intro j hj
  have hleft := hs.leaves j hj
  cases j with
  | forward h ch c => exact hI.observers _ _ _ hleft.2.2.2
  | forwardLast h ch c res => exact hI.observers _ _ _ hleft.2.2.2.1
  | closeLast h ch res =>
    obtain ⟨c, rfl⟩ := hleft
    exact hi
  | failForward ch c =>
    obtain ⟨k, cause, jobID, -, hl, -⟩ := hleft
    exact (hI.observers k jobID ch hl).1
  | failClose ch =>
    obtain ⟨c, rfl⟩ := hleft
    exact hi
  | _ => trivial

theorem Step.forwards_fresh (hs : Step s i x e) : ∀ j ∈ e.fresh, j.forwards ch →
    ∃ h jobID, i = .read h ∧ (s.worker h).observers.lookup jobID = some ch := by
  intro j hj hch
  have hleft := hs.leaves j hj
  cases j with
  | forward h k c =>
    obtain rfl := eq_of_beq hch
    exact ⟨h, c.chunk.jobID, hleft.1, hleft.2.2.2⟩
  | _ => cases hch

def Server.observing (s : Server) (ch : ℕ) : ℕ :=
  Table.tally (s.worker (s.home ch)).observers (· == ch)

theorem Server.observing_setWorker {w : Worker} (hh : s.home ch = h) :
    (s.setWorker h w).observing ch = Table.tally w.observers (· == ch) := by
  subst hh
  have hself : (s.setWorker (s.home ch) w).worker (s.home ch) = w := setWorker_self
  exact congrArg (fun w : Worker ↦ Table.tally w.observers (· == ch)) hself

theorem Step.observing_le (hs : Step s i x e) (hch : ch < s.nextChan) :
    e.shared.observing ch ≤ s.observing ch := by
  obtain ⟨-, hhome, -⟩ := hs.chan_stable hch
  unfold Server.observing
  rw [hhome]
  refine Table.tally_mono fun jobID k hl hk ↦ ?_
  rcases hs.observer_cases hl with hold | ⟨job, -, -, rfl⟩
  · exact hold
  · -- the new channel is not one that was given out before
    have : s.nextChan = ch := eq_of_beq hk
    omega

theorem countP_closes_failures {w : Worker} {cause : Cause} {pending observers : List String}
    (ho : observers.Perm w.observers.keys) (ch : ℕ) :
    (failures w cause pending observers).countP (·.closes ch) =
      Table.tally w.observers (· == ch) := by
  have hpending : (pending.filterMap fun id ↦ (w.pending.lookup id).map fun ch ↦
      Instr.failDeliver ch ⟨{ jobID := id, err := some cause.err }, []⟩).countP (·.closes ch) = 0 := by
    refine List.countP_eq_zero.mpr fun i hi ↦ ?_
    obtain ⟨id, -, hi⟩ := List.mem_filterMap.mp hi
    obtain ⟨k, -, rfl⟩ := Option.map_eq_some_iff.mp hi
    simp [Instr.closes]
  rw [failures, List.countP_append, hpending, Nat.zero_add, (Table.walk_perm ho _).countP_eq,
    List.countP_map]
  rfl

/-- The right to close a channel is an entry of an observer table or lies with one
instruction, and a step hands it on but does not copy it. -/
theorem Step.closers_balance (hs : Step s i x e) (hI : Homed s) (hch : ch < s.nextChan) :
    e.fresh.countP (·.closes ch) + e.shared.observing ch + (if i.shuts ch then 1 else 0) ≤
      (if i.closes ch then 1 else 0) + s.observing ch := by
  have hobs := hs.observing_le hch
  have hframe {a b c : ℕ} (habc : a + b ≤ c) :
      a + e.shared.observing ch + b ≤ c + s.observing ch := by omega
  have hquiet (hi : i.shuts ch = false)
      (hcount : e.fresh.countP (·.closes ch) ≤ if i.closes ch then 1 else 0) :
      e.fresh.countP (·.closes ch) + e.shared.observing ch + (if i.shuts ch then 1 else 0) ≤
        (if i.closes ch then 1 else 0) + s.observing ch := by
    rw [hi, if_neg Bool.false_ne_true]
    omega
  induction hs with
  | enter hk =>
    refine hquiet rfl (Nat.le_of_eq (Effect.countP_fresh_eq_zero ?_))
    exact forall_fresh_enter hk rfl (fun _ _ ↦ rfl) (fun _ _ ↦ rfl) (fun _ _ ↦ rfl) rfl
  | @quit i x hq =>
    refine hquiet ?_ Effect.countP_fresh_nil_le
    cases i <;> first | rfl | cases hq
  | @lastChunkObserved h k c _ hl =>
    obtain ⟨-, hhome⟩ := hI.observers h _ k hl
    by_cases hk : k = ch
    · subst hk
      have herase : Table.tally ((s.worker h).observers.erase c.chunk.jobID) (· == k) + 1 =
          Table.tally (s.worker h).observers (· == k) := by
        simpa using Table.tally_erase (p := (· == k)) hl
      rw [Server.observing_setWorker (s := retire s h _ _) hhome, Server.observing, hhome, ← herase,
        Effect.countP_fresh]
      simp [Instr.closes, Instr.shuts, Worker.finish]
      omega
    · exact hquiet rfl (Effect.countP_fresh_singleton_of_not (by simp [Instr.closes, hk]))
  | @fail k cause pending observers hp ho =>
    by_cases hh : s.home ch = k
    · rw [Server.observing_setWorker hh, Server.observing, hh, Effect.countP_fresh,
        List.flatten_nil, List.append_nil, List.countP_append, countP_closes_failures ho]
      cases cause <;> simp [Instr.closes, Instr.shuts, Worker.takeAll, Table.tally]
    · refine hframe (Nat.le_of_eq ?_)
      have hnone : (failures (s.worker k) cause pending observers).countP (·.closes ch) = 0 := by
        refine List.countP_eq_zero.mpr (forall_failures ?_ ?_)
        · simp [Instr.closes]
        · intro jobID k' hl hcloses
          have hk' : k' = ch := eq_of_beq hcloses
          exact hh (hk' ▸ (hI.observers k jobID k' hl).2)
      rw [Effect.countP_fresh, List.flatten_nil, List.append_nil, List.countP_append, hnone]
      cases cause <;> simp [Instr.closes, Instr.shuts]
  | markDraining hsp =>
    refine hframe ?_
    rw [Effect.countP_fresh]
    rcases hsp with rfl | rfl <;> simp [Instr.closes, Instr.shuts]
  | failWaiters =>
    refine hframe (Nat.le_of_eq ?_)
    rw [Effect.countP_fresh, List.flatten_nil, List.append_nil]
    exact List.countP_eq_zero.mpr (forall_failWaiters fun _ _ _ ↦ by simp [Instr.closes])
  | evictScan =>
    refine hframe (Nat.le_of_eq ?_)
    rw [Effect.countP_fresh]
    simp [Instr.closes, Instr.shuts, List.countP_eq_zero]
  | closeLast | failClose | request | dequeue | addObserver | ack =>
    refine hframe ?_
    rw [Effect.countP_fresh]
    simp [Instr.closes, Instr.shuts]
  | _ =>
    first
    | exact hquiet rfl (Effect.countP_fresh_singleton_le rfl)
    | exact hquiet rfl Effect.countP_fresh_nil_le

/-- For each channel there is one right to close it, used up by closing; a reader that still
has to forward a chunk finds its channel open. -/
structure Guarded (s : Server) (S : Multiset Instr) : Prop where
  once : ∀ ch, S.countP (·.closes ch) + s.observing ch + (s.observed ch).closed.toNat ≤ 1
  opened : ∀ ch, ∀ j ∈ S, j.forwards ch → (s.observed ch).closed = false
  calm : s.panicked = false

/-- `failAllPending` closes a channel only when no reader still has a chunk to forward to it. -/
def ClosesIdle (c : Config Server Instr) (i : Instr) (_ : Choice) : Prop :=
  match i with
  | .failClose ch => ∀ j ∈ c.soup, ¬ j.forwards ch
  | _ => True

instance (c : Config Server Instr) (i : Instr) (x : Choice) : Decidable (ClosesIdle c i x) := by
  delta ClosesIdle
  induction i using Instr.casesOn <;> infer_instance

section

variable {R : Multiset Instr}

theorem Guarded.open_of_observer (hG : Guarded s R) (hI : Homed s) {jobID : String}
    (hl : (s.worker h).observers.lookup jobID = some ch) : (s.observed ch).closed = false := by
  have hpos : 0 < s.observing ch := by
    refine Table.tally_pos_iff.mpr ⟨jobID, ch, ?_, beq_self_eq_true ch⟩
    rwa [(hI.observers h jobID ch hl).2]
  have honce := hG.once ch
  cases hclosed : (s.observed ch).closed with
  | false => rfl
  | true =>
    rw [hclosed, Bool.toNat_true] at honce
    omega

theorem Guarded.open_of_closes (hG : Guarded s (i ::ₘ R)) (hi : i.closes ch) :
    (s.observed ch).closed = false := by
  have honce := hG.once ch
  rw [Multiset.countP_cons, if_pos hi] at honce
  cases hclosed : (s.observed ch).closed with
  | false => rfl
  | true =>
    rw [hclosed, Bool.toNat_true] at honce
    omega

theorem Step.observing_new (hs : Step s i x e) (hI : Homed s) (hch : ¬ ch < s.nextChan) :
    e.shared.observing ch ≤ 1 := by
  have hnone (k : ℕ) : Table.tally (s.worker k).observers (· == ch) = 0 := by
    by_contra hpos
    obtain ⟨jobID, k', hl, hk'⟩ := Table.tally_pos_iff.mp (Nat.pos_of_ne_zero hpos)
    exact hch (eq_of_beq hk' ▸ (hI.observers k jobID k' hl).1)
  by_cases hadd : ∃ k job, i = .addObserver k job
  · obtain ⟨k, job, rfl⟩ := hadd
    cases hs with
    | quit hq => cases hq
    | addObserver =>
      unfold Server.observing
      generalize Server.home _ ch = k'
      by_cases hk' : k' = k
      · subst hk'
        rw [Server.setWorker_self]
        have hle := Table.tally_insert_le (t := (s.worker k').observers) (a := job.id)
          (b := s.nextChan) (p := (· == ch))
        rw [hnone k'] at hle
        exact hle.trans (by split <;> simp)
      · rw [Server.setWorker_of_ne hk']
        exact (hnone k').le.trans (Nat.zero_le 1)
  · by_contra hlt
    obtain ⟨jobID, k', hl, hk'⟩ := Table.tally_pos_iff.mp (Nat.zero_lt_of_lt (Nat.lt_of_not_le hlt))
    rcases hs.observer_cases hl with hold | ⟨job, hi, -⟩
    · have hpos : 0 < Table.tally _ (· == ch) := Table.tally_pos_iff.mpr ⟨jobID, k', hold, hk'⟩
      rw [hnone] at hpos
      exact absurd hpos (Nat.lt_irrefl 0)
    · exact hadd ⟨_, job, hi⟩

theorem Step.once (hs : Step s i x e) (hI : Homed s) (hJ : ∀ j ∈ i ::ₘ R, j.Homed s)
    (ch : ℕ)
    (honce : (i ::ₘ R).countP (·.closes ch) + s.observing ch + (s.observed ch).closed.toNat ≤ 1) :
    (e.fresh + R).countP (·.closes ch) + e.shared.observing ch + (e.shared.observed ch).closed.toNat ≤ 1 := by
  have hi := hJ i (Multiset.mem_cons_self i R)
  rw [Multiset.countP_cons] at honce
  rw [Multiset.countP_add]
  by_cases hch : ch < s.nextChan
  · have hbal := hs.closers_balance hI hch
    rcases hs.closed_cases ch with hsame | ⟨hshuts, -⟩
    · rw [hsame]
      omega
    · rw [if_pos hshuts] at hbal
      have := Bool.toNat_le (e.shared.observed ch).closed
      omega
  · have hfresh : e.fresh.countP (·.closes ch) = 0 :=
      Multiset.countP_eq_zero.mpr fun j hj hcl ↦ hch ((hs.homed_fresh hI hi j hj).of_closes hcl)
    have hrest : R.countP (·.closes ch) = 0 :=
      Multiset.countP_eq_zero.mpr fun j hj hcl ↦ hch ((hJ j (Multiset.mem_cons_of_mem hj)).of_closes hcl)
    have hclosed : (e.shared.observed ch).closed = false := by
      rcases hs.closed_cases ch with hsame | ⟨hshuts, -⟩
      · rw [hsame]
        exact eq_false_of_ne_true fun hc ↦ hch (hI.closed ch hc)
      · exact absurd (hi.of_shuts hshuts) hch
    rw [hfresh, hrest, hclosed]
    simpa using hs.observing_new hI hch

theorem Step.opened (hs : Step s i x e) (hI : Homed s) (hJ : ∀ j ∈ i ::ₘ R, j.Homed s)
    (hconn : ∀ h, (i ::ₘ R).countP (·.connOf h) ≤ 1)
    (hidle : ∀ ch, i = .failClose ch → ∀ j ∈ i ::ₘ R, ¬ j.forwards ch)
    (hG : Guarded s (i ::ₘ R)) {j : Instr} (hj : j ∈ e.fresh + R) (hch : j.forwards ch) :
    (e.shared.observed ch).closed = false := by
  rcases Multiset.mem_add.mp hj with hj | hj
  · -- the chunk has just been folded in, so its channel still has its table entry
    obtain ⟨h, jobID, rfl, hl⟩ := hs.forwards_fresh j hj hch
    rw [(hs.closed_cases ch).resolve_right (by simp [Instr.shuts])]
    exact hG.open_of_observer hI hl
  · rcases hs.closed_cases ch with hsame | ⟨hshuts, -⟩
    · rw [hsame]
      exact hG.opened ch _ (Multiset.mem_cons_of_mem hj) hch
    · exfalso
      cases i with
      | failClose k => exact hidle k rfl _ (Multiset.mem_cons_of_mem hj) (eq_of_beq hshuts ▸ hch)
      | closeLast k k' res =>
        -- both would be the one reader of the channel's stream
        obtain rfl : k' = ch := eq_of_beq hshuts
        have hk : s.home k' = k := (hJ _ (Multiset.mem_cons_self _ R)).2
        have hjk : j.connOf k := by
          have hhome := hJ j (Multiset.mem_cons_of_mem hj)
          cases j with
          | forward h l c =>
            obtain rfl : l = k' := eq_of_beq hch
            simp [Instr.connOf, Instr.handlerOf, Instr.readerOf, ← hk, ← hhome.2]
          | _ => cases hch
        have hpos : 0 < R.countP (·.connOf k) := Multiset.countP_pos.mpr ⟨j, hj, hjk⟩
        have hle := hconn k
        rw [Multiset.countP_cons, if_pos (by simp [Instr.connOf, Instr.handlerOf, Instr.readerOf])]
          at hle
        omega
      | _ => cases hshuts

theorem Step.guarded (hs : Step s i x e) (hI : Homed s) (hJ : ∀ j ∈ i ::ₘ R, j.Homed s)
    (hconn : ∀ h, (i ::ₘ R).countP (·.connOf h) ≤ 1)
    (hidle : ∀ ch, i = .failClose ch → ∀ j ∈ i ::ₘ R, ¬ j.forwards ch)
    (hG : Guarded s (i ::ₘ R)) : Guarded e.shared (e.fresh + R) where
  once ch := hs.once hI hJ ch (hG.once ch)
  opened ch j hj hch := hs.opened hI hJ hconn hidle hG hj hch
  calm := by
    rcases hs.panicked_cases with hsame | ⟨ch, hi, hpanicked⟩
    · rw [hsame, hG.calm]
    · have hopen : (s.observed ch).closed = false := by
        rcases hi with hi | hi
        · exact hG.open_of_closes hi
        · exact hG.opened ch i (Multiset.mem_cons_self i R) hi
      rw [hpanicked, hG.calm, hopen, Bool.or_false]

end

section

variable {t : Time} {d : Duration} {n : ℕ} {c : Config Server Instr}

theorem homed_of_reaches (hc : controlPlane.Reaches (boot (new t d n)) c) :
    Homed c.shared ∧ ∀ j ∈ c.soup, j.Homed c.shared := by
  refine hc.local_invariant Homed (fun s j ↦ j.Homed s) ?_ ?_ ?_ ?_
  · exact ⟨by simp [boot, new], by simp [boot, new, Chan.make]⟩
  · simp [boot, Config.soup, Instr.Homed]
  · intro c i x e hI hi _ he
    have hs := step_of_exec he
    exact ⟨hs.homed hI hi, fun j hj ↦ hs.homed_stable (hs.homed_fresh hI hi j hj)⟩
  · intro c i x e _ _ _ he j _ hj
    exact (step_of_exec he).homed_stable hj

theorem closers_le_one (hc : controlPlane.Reaches (boot (new t d n)) c) (ch : ℕ) :
    c.soup.countP (·.closes ch) + c.shared.observing ch + (c.shared.observed ch).closed.toNat ≤ 1 := by
  refine (hc.strengthen fun c ↦ homed_of_reaches).soup_invariant (fun s S ↦
    S.countP (·.closes ch) + s.observing ch + (s.observed ch).closed.toNat ≤ 1) ?_ ?_
  · simp [boot, new, Config.soup, Instr.closes, Server.observing, Table.tally, Chan.make]
  · intro c i x R e hsoup honce hg he
    exact (step_of_exec he).once hg.2.1 (hsoup ▸ hg.2.2) ch honce

/-- No observer channel is sent on after it was closed, and none is closed twice. -/
theorem observer_channels_never_panic
    (hc : controlPlane.Runs ClosesIdle (boot (new t d n)) c) : c.shared.panicked = false := by
  have hrun := hc.strengthen fun c hc ↦
    And.intro (conn_le_one hc.reaches) (homed_of_reaches hc.reaches)
  refine (hrun.soup_invariant Guarded ?_ ?_).calm
  · refine ⟨fun ch ↦ ?_, ?_, rfl⟩
    · simp [boot, new, Config.soup, Instr.closes, Server.observing, Table.tally, Chan.make]
    · simp [boot, Config.soup, Instr.forwards]
  · intro c i x R e hsoup hG hg he
    obtain ⟨hidle, hconn, hI, hJ⟩ := hg
    rw [hsoup] at hconn hJ
    refine (step_of_exec he).guarded hI hJ (fun h ↦ (hconn h).trans (by split <;> simp)) ?_ hG
    rintro ch rfl
    exact hsoup ▸ hidle

end

/-- A streaming request is dispatched to a worker that then falls silent for too long; the
scan takes the observer out while the reader already holds a chunk for it. -/
def evictDuringStream : List (ℕ × Choice) :=
  [(0, .connect "w" [⟨"m", ""⟩]), (3, .go), (3, .go), (4, .go), (0, .request "r" none "m" true),
    (5, .worker 1), (5, .go), (7, .go), (7, .go), (4, .go), (0, .tick 46000000000), (1, .go),
    (1, .stale [1]), (1, .go), (3, .message (.chunk ⟨{ jobID := "r", delta := "a" }, some 0⟩)),
    (1, .order ["r"] ["r"]), (1, .go), (1, .go)]

theorem observer_channels_never_panic_evicted :
    ∃ c, controlPlane.Runs ClosesIdle (boot (new 0 0 0)) c ∧
      (c.shared.observed 0).closed = true ∧ c.shared.panicked = false := by
  have hrun : ∃ c, controlPlane.Runs ClosesIdle (boot (new 0 0 0)) c ∧
      (c.shared.observed 0).closed = true := by
    apply Machine.exists_run (evictDuringStream ++ [(3, .go), (1, .go)])
    decide +kernel
  obtain ⟨c, hc, hclosed⟩ := hrun
  exact ⟨c, hc, hclosed, observer_channels_never_panic hc⟩

/-- The reader forwards the chunk after the scan has closed the channel. -/
theorem eviction_panics_reader :
    ∃ c, controlPlane.Reaches (boot (new 0 0 0)) c ∧ c.shared.panicked = true := by
  apply Machine.exists_run (evictDuringStream ++ [(1, .go), (3, .go)])
  decide +kernel

end AgentGpu.ControlPlane
