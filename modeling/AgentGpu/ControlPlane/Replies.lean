import AgentGpu.ControlPlane.Tickets

namespace AgentGpu.ControlPlane

open Foundation

variable {s s' : Server} {i : Instr} {x : Choice} {e : Effect Server Instr} {h ch : ℕ}

def AtHome (s : Server) : Prop :=
  ∀ h jobID ch, (s.worker h).pending.lookup jobID = some ch → ch < s.nextChan ∧ s.home ch = h

theorem Step.atHome (hs : Step s i x e) (hI : AtHome s) : AtHome e.shared := by
  intro h jobID ch hl
  rcases hs.pending_cases hl with hold | ⟨o, job, rfl, -, rfl⟩
  · obtain ⟨hlt, hhome⟩ := hI h jobID ch hold
    obtain ⟨hlt', hhome', -⟩ := hs.chan_stable hlt
    exact ⟨hlt', hhome'.trans hhome⟩
  · cases hs with
    | quit hq => cases hq
    | addPending => exact ⟨Nat.lt_succ_self _, Function.update_self ..⟩

/-- The entries that promise a result on `ch`, in the pending table it belongs to and in the
waiter map. -/
def Server.promising (s : Server) (ch : ℕ) : ℕ :=
  Table.tally (s.worker (s.home ch)).pending (· == ch) + Table.tally s.waiters (· == ch)

theorem Server.pending_setWorker {w : Worker} (hh : s.home ch = h) :
    ((s.setWorker h w).worker ((s.setWorker h w).home ch)).pending = w.pending := by
  subst hh
  exact congrArg Worker.pending setWorker_self

theorem AtHome.promising_pos (hI : AtHome s) {jobID : String}
    (hl : (s.worker h).pending.lookup jobID = some ch) : 0 < s.promising ch := by
  have hpos : 0 < Table.tally (s.worker (s.home ch)).pending (· == ch) := by
    refine Table.tally_pos_iff.mpr ⟨jobID, ch, ?_, beq_self_eq_true ch⟩
    rwa [(hI h jobID ch hl).2]
  exact Nat.add_pos_left hpos _

theorem Step.promising_le (hs : Step s i x e) (hch : ch < s.nextChan) :
    e.shared.promising ch ≤ s.promising ch := by
  obtain ⟨-, hhome, -⟩ := hs.chan_stable hch
  unfold Server.promising
  rw [hhome]
  refine Nat.add_le_add (Table.tally_mono fun jobID k hl hk ↦ ?_)
    (Table.tally_mono fun jobID k hl hk ↦ ?_)
  -- a new entry comes with a channel that was not given out before
  · rcases hs.pending_cases hl with hold | ⟨o, job, -, -, rfl⟩
    · exact hold
    · exact absurd (eq_of_beq hk) hch.ne'
  · rcases hs.waiter_cases hl with hold | ⟨job, priority, -, -, rfl⟩
    · exact hold
    · exact absurd (eq_of_beq hk) hch.ne'

theorem countP_delivers_failures {w : Worker} {cause : Cause} {pending observers : List String}
    (hp : pending.Perm w.pending.keys) (ch : ℕ) :
    (failures w cause pending observers).countP (·.delivers ch) =
      Table.tally w.pending (· == ch) := by
  have hobservers : (observers.filterMap fun id ↦ (w.observers.lookup id).map fun ch ↦
      Instr.failForward ch ⟨{ jobID := id, done := true, err := some cause.err }, none⟩).countP
        (·.delivers ch) = 0 := by
    refine List.countP_eq_zero.mpr fun i hi ↦ ?_
    obtain ⟨id, -, hi⟩ := List.mem_filterMap.mp hi
    obtain ⟨k, -, rfl⟩ := Option.map_eq_some_iff.mp hi
    simp [Instr.delivers]
  rw [failures, List.countP_append, hobservers, Nat.add_zero, (Table.walk_perm hp _).countP_eq,
    List.countP_map]
  rfl

theorem Step.replies_balance (hs : Step s i x e) (hI : AtHome s) (hch : ch < s.nextChan) :
    e.fresh.countP (·.delivers ch) + e.shared.promising ch ≤ s.promising ch := by
  have hle := hs.promising_le hch
  have hnone (hfresh : ∀ j ∈ e.fresh, j.delivers ch = false) :
      e.fresh.countP (·.delivers ch) + e.shared.promising ch ≤ s.promising ch := by
    rw [Effect.countP_fresh_eq_zero hfresh, Nat.zero_add]
    exact hle
  induction hs with
  | @enter _ k hk =>
    refine hnone ?_
    rw [Effect.forall_fresh]
    refine ⟨List.forall_mem_singleton.mpr rfl,
      List.forall_mem_singleton.mpr (List.forall_mem_singleton.mpr ?_)⟩
    cases k <;> first | rfl | cases hk
  | @resolve h k res hp =>
    by_cases hk : k = ch
    · subst hk
      have herase : Table.tally ((s.worker h).pending.erase res.result.jobID) (· == k) + 1 =
          Table.tally (s.worker h).pending (· == k) := by
        simpa using Table.tally_erase (p := (· == k)) hp
      have hhome := (hI h _ k hp).2
      have hself := Server.pending_setWorker (s := s.disturb (some k) res.sources)
        (w := (s.worker h).deletePending res.result.jobID) hhome
      rw [Server.promising, Server.promising, hself, hhome, Effect.countP_fresh, ← herase]
      simp [Instr.delivers, Worker.deletePending, Server.setWorker, Server.disturb]
      omega
    · exact hnone (Effect.forall_fresh_singleton (beq_false_of_ne hk))
  | @fail k cause pending observers hp ho =>
    have hcount : (failures (s.worker k) cause pending observers ++
        (if cause = .stale then [] else [.cancel k] : List Instr)).countP (·.delivers ch) =
          Table.tally (s.worker k).pending (· == ch) := by
      rw [List.countP_append, countP_delivers_failures hp]
      cases cause <;> simp [Instr.delivers]
    rw [Effect.countP_fresh, List.flatten_nil, List.append_nil, hcount]
    by_cases hh : s.home ch = k
    · rw [Server.promising, Server.promising, Server.pending_setWorker hh, hh]
      simp [Worker.takeAll, Table.tally, Server.setWorker]
    · have hzero : Table.tally (s.worker k).pending (· == ch) = 0 := by
        by_contra hpos
        obtain ⟨jobID, k', hl, hk'⟩ := Table.tally_pos_iff.mp (Nat.pos_of_ne_zero hpos)
        exact hh (eq_of_beq hk' ▸ (hI k jobID k' hl).2)
      rw [hzero, Nat.zero_add]
      exact hle
  | @resolveWaiter res k hw =>
    by_cases hk : k = ch
    · subst hk
      have herase : Table.tally (s.waiters.erase res.result.jobID) (· == k) + 1 =
          Table.tally s.waiters (· == k) := by
        simpa using Table.tally_erase (p := (· == k)) hw
      rw [Effect.countP_fresh, Server.promising, Server.promising, ← herase]
      simp [Instr.delivers, Server.disturb]
      omega
    · exact hnone (Effect.forall_fresh_singleton (beq_false_of_ne hk))
  | @failWaiters ids _ hids =>
    have hcount : (ids.filterMap fun id ↦ (s.waiters.lookup id).map fun ch ↦ Instr.deliverWaiter ch
        ⟨{ jobID := id, err := some shuttingDown }, []⟩).countP (·.delivers ch) =
          Table.tally s.waiters (· == ch) := by
      rw [(Table.walk_perm hids _).countP_eq, List.countP_map]
      rfl
    rw [Effect.countP_fresh, List.flatten_nil, List.append_nil, hcount, Server.promising,
      Server.promising]
    simp [Table.tally, Nat.add_comm]
  | markDraining hsp => exact hnone (forall_fresh_markDraining hsp rfl)
  | evictScan => exact hnone (Effect.forall_fresh_next (forall_evictScan (fun _ _ ↦ rfl) rfl))
  | request | dequeue | addObserver | ack =>
    refine hnone ?_
    simp [Instr.delivers]
  | _ =>
    first
    | exact hnone (Effect.forall_fresh_singleton rfl)
    | exact hnone Effect.forall_fresh_nil

theorem Step.sent_le (hs : Step s i x e) (ch : ℕ) :
    (e.shared.results ch).sent.length ≤
      (s.results ch).sent.length + if i.delivers ch then 1 else 0 := by
  rcases hs.results_cases ch with hsame | ⟨hi, res, hc⟩ | ⟨-, res, hc⟩
  · rw [hsame]
    exact Nat.le_add_right _ _
  · rw [if_pos hi, (Chan.send_some hc).2.1, List.length_append, List.length_singleton]
  · rw [(Chan.recv_some hc).2.1]
    exact Nat.le_add_right _ _

theorem Instr.Wired.of_delivers (hi : i.Wired s) (hch : i.delivers ch) : ch < s.nextChan := by
  cases i with
  | deliver _ k _ | failDeliver k _ | deliverWaiter k _ => exact eq_of_beq hch ▸ hi.1
  | _ => cases hch

theorem Step.promising_new (hs : Step s i x e) (hwired : Wired s) (hch : ¬ ch < s.nextChan) :
    e.shared.promising ch ≤ 1 := by
  have hpending (k : ℕ) : Table.tally (s.worker k).pending (· == ch) = 0 := by
    by_contra hpos
    obtain ⟨jobID, k', hl, hk'⟩ := Table.tally_pos_iff.mp (Nat.pos_of_ne_zero hpos)
    exact hch (eq_of_beq hk' ▸ (hwired.pending k jobID k' hl).1)
  have hwaiters : Table.tally s.waiters (· == ch) = 0 := by
    by_contra hpos
    obtain ⟨jobID, k', hl, hk'⟩ := Table.tally_pos_iff.mp (Nat.pos_of_ne_zero hpos)
    exact hch (eq_of_beq hk' ▸ (hwired.waiters jobID k' hl).1)
  have hkept (k : ℕ) (hi : ∀ o job, i ≠ .addPending o k job) :
      Table.tally (e.shared.worker k).pending (· == ch) = 0 := by
    refine Nat.le_zero.mp ((Table.tally_mono fun jobID k' hl _ ↦ ?_).trans (hpending k).le)
    exact (hs.pending_cases hl).resolve_right fun ⟨o, job, h, _⟩ ↦ hi o job h
  have hkept' (hi : ∀ job priority, i ≠ .addWaiter job priority) :
      Table.tally e.shared.waiters (· == ch) = 0 := by
    refine Nat.le_zero.mp ((Table.tally_mono fun jobID k' hl _ ↦ ?_).trans hwaiters.le)
    exact (hs.waiter_cases hl).resolve_right fun ⟨job, priority, h, _⟩ ↦ hi job priority h
  have hone (b : ℕ) : (if b == ch then 1 else 0) ≤ 1 := by split <;> simp
  unfold Server.promising
  generalize e.shared.home ch = k
  by_cases hadd : ∃ o job, i = .addPending o k job
  · obtain ⟨o, job, rfl⟩ := hadd
    rw [hkept' (fun _ _ ↦ Instr.noConfusion)]
    cases hs with
    | quit hq => cases hq
    | addPending =>
      have hle := Table.tally_insert_le (t := (s.worker k).pending) (a := job.id)
        (b := s.nextChan) (p := (· == ch))
      rw [hpending k] at hle
      rw [Server.setWorker_self]
      exact hle.trans ((Nat.zero_add _).trans_le (hone _))
  · rw [hkept k fun o job h ↦ hadd ⟨o, job, h⟩, Nat.zero_add]
    by_cases hwait : ∃ job priority, i = .addWaiter job priority
    · obtain ⟨job, priority, rfl⟩ := hwait
      cases hs with
      | quit hq => cases hq
      | addWaiter =>
        have hle := Table.tally_insert_le (t := s.waiters) (a := job.id)
          (b := s.nextChan) (p := (· == ch))
        rw [hwaiters] at hle
        exact hle.trans ((Nat.zero_add _).trans_le (hone _))
    · rw [hkept' fun job priority h ↦ hwait ⟨job, priority, h⟩]
      exact Nat.zero_le 1

/-- There is one right to send on a result channel. It lies with a table entry or with one
instruction and is used up by sending. -/
theorem Step.replies {R : Multiset Instr} (hs : Step s i x e) (hI : AtHome s) (hwired : Wired s)
    (hinstr : ∀ j ∈ i ::ₘ R, j.Wired s) (ch : ℕ)
    (hone : (i ::ₘ R).countP (·.delivers ch) + s.promising ch + (s.results ch).sent.length ≤ 1) :
    (e.fresh + R).countP (·.delivers ch) + e.shared.promising ch +
      (e.shared.results ch).sent.length ≤ 1 := by
  have hsent := hs.sent_le ch
  rw [Multiset.countP_cons] at hone
  rw [Multiset.countP_add]
  by_cases hch : ch < s.nextChan
  · have hbal := hs.replies_balance hI hch
    omega
  · have hwf := hs.wired_fresh hwired (hinstr i (Multiset.mem_cons_self i R))
    have hidle (j : Instr) (hj : j ∈ i ::ₘ R) : ¬ j.delivers ch :=
      fun hd ↦ hch ((hinstr j hj).of_delivers hd)
    have hrest : R.countP (·.delivers ch) = 0 :=
      Multiset.countP_eq_zero.mpr fun j hj ↦ hidle j (Multiset.mem_cons_of_mem hj)
    have hfresh : e.fresh.countP (·.delivers ch) = 0 := by
      refine Multiset.countP_eq_zero.mpr fun j hj hd ↦ ?_
      rcases hs.delivers_fresh j hj hd with ⟨h, id, hp⟩ | ⟨jobID, hw, -⟩
      · exact hch (hwired.pending h id ch hp).1
      · exact hch (hwired.waiters jobID ch hw).1
    have hnone : (s.results ch).sent = [] := List.eq_nil_iff_forall_not_mem.mpr fun res hres ↦
      hch (hwired.results ch res hres).1
    rw [hnone, if_neg (hidle i (Multiset.mem_cons_self i R))] at hsent
    have hnew := hs.promising_new hwired hch
    simp only [List.length_nil] at hsent
    omega

section

variable {t : Time} {d : Duration} {n : ℕ} {c : Config Server Instr}

theorem atHome_of_reaches (hc : controlPlane.Reaches (boot (new t d n)) c) : AtHome c.shared :=
  hc.shared_invariant AtHome (by simp [AtHome, boot, new])
    fun _ _ _ _ hI _ he ↦ (step_of_exec he).atHome hI

theorem replies_le_one (hc : controlPlane.Reaches (boot (new t d n)) c) (ch : ℕ) :
    c.soup.countP (·.delivers ch) + c.shared.promising ch +
      (c.shared.results ch).sent.length ≤ 1 := by
  have hrun := hc.strengthen fun c hc ↦ And.intro (atHome_of_reaches hc) (wired_of_reaches hc)
  refine hrun.soup_invariant (fun s S ↦
    S.countP (·.delivers ch) + s.promising ch + (s.results ch).sent.length ≤ 1) ?_ ?_
  · simp [boot, new, Config.soup, Instr.delivers, Server.promising, Table.tally, Chan.make]
  · intro c i x R e hsoup hone hg he
    obtain ⟨-, hI, hwired, hinstr⟩ := hg
    exact (step_of_exec he).replies hI hwired (hsoup ▸ hinstr) ch hone

/-- Whatever ids the jobs have, a result channel carries at most one value in its lifetime,
and no goroutine that has a result to send is blocked. -/
theorem results_at_most_once (hc : controlPlane.Reaches (boot (new t d n)) c) :
    (∀ ch, (c.shared.results ch).sent.length ≤ 1) ∧
      ∀ j ∈ c.soup, ∀ ch, j.delivers ch → (controlPlane.exec c.shared j .go).isSome := by
  refine ⟨fun ch ↦ ?_, fun j hj ch hd ↦ ?_⟩
  · have hone := replies_le_one hc ch
    omega
  · have hone := replies_le_one hc ch
    have hpos : 0 < c.soup.countP (·.delivers ch) := Multiset.countP_pos.mpr ⟨j, hj, hd⟩
    exact delivers_enabled hd (result_cap_of_reaches hc ch) (by omega)

end

/-- Two requests with one id are on one worker; the reader has the result of the second. -/
theorem results_at_most_once_sameID :
    ∃ c, controlPlane.Reaches (boot (new 0 0 0)) c ∧ .await .fast 1 ⟨"id", "m", 0⟩ 0 ∈ c.soup ∧
      .deliver 1 1 ⟨{ jobID := "id", output := "a" }, [0]⟩ ∈ c.soup ∧
      (c.shared.results 1).sent.length ≤ 1 ∧
      (controlPlane.exec c.shared (.deliver 1 1 ⟨{ jobID := "id", output := "a" }, [0]⟩) .go).isSome := by
  have hrun : ∃ c, controlPlane.Reaches (boot (new 0 0 0)) c ∧
      .await .fast 1 ⟨"id", "m", 0⟩ 0 ∈ c.soup ∧
      .deliver 1 1 ⟨{ jobID := "id", output := "a" }, [0]⟩ ∈ c.soup := by
    apply Machine.exists_run [(0, .connect "w" [⟨"m", ""⟩]), (3, .go), (3, .go), (4, .go),
      (0, .request "id" none "m" false), (0, .request "id" none "m" false), (5, .worker 1),
      (5, .go), (5, .go), (6, .worker 1), (6, .go), (6, .go), (4, .go), (4, .go),
      (3, .message (.chunk ⟨{ jobID := "id", delta := "a", done := true }, some 0⟩)), (3, .go)]
    decide +kernel
  obtain ⟨c, hc, hawait, hdeliver⟩ := hrun
  obtain ⟨honce, hfree⟩ := results_at_most_once hc
  exact ⟨c, hc, hawait, hdeliver, honce 1, hfree _ hdeliver 1 rfl⟩

end AgentGpu.ControlPlane
