import AgentGpu.ControlPlane.Isolation
import AgentGpu.ControlPlane.Waiters

namespace AgentGpu.ControlPlane

open Foundation HttpApi

variable {s : Server} {i : Instr} {x : Choice} {e : Effect Server Instr}

namespace Instr

def hands (r : ℕ) : Instr → Bool
  | .pick _ job | .addPending _ _ job | .send _ _ job _ | .addWaiter job _ | .enqueue job _ _
  | .addObserver _ job => job.request == r
  | .placeItem item => item.job.request == r
  | _ => false

def handsOver (r : ℕ) : Instr → Choice → Bool
  | .send _ _ job _, .go => job.request == r
  | _, _ => false

def dispatches (r : ℕ) : Instr → Bool
  | .await _ _ job _ | .finish _ job _ => job.request == r
  | i => i.hands r

/-- The goroutine that will record the tokens of request `r`: its submit call, or the one that
relays its stream. -/
def pays (r : ℕ) : Instr → Bool
  | .pick _ job | .addPending .fast _ job | .send .fast _ job _ | .await .fast _ job _
  | .finish .fast job _ | .addWaiter job _ | .enqueue job _ _ | .awaitWaiter job _
  | .removeWaiter job | .addObserver _ job | .relay _ job _ | .emit _ job _ _ | .settle job =>
    job.request == r
  | _ => false

theorem dispatches_of_hands {r : ℕ} (hi : i.hands r) : i.dispatches r := by
  cases i <;> first | exact hi | cases hi

theorem send_of_handsOver {r : ℕ} (hi : i.handsOver r x) :
    ∃ o h job ch, i = .send o h job ch ∧ x = .go ∧ job.request = r := by
  unfold handsOver at hi
  split at hi
  · exact ⟨_, _, _, _, rfl, rfl, eq_of_beq hi⟩
  · cases hi

end Instr

def Server.queued (s : Server) (r : ℕ) : ℕ := s.queue.countP (·.job.request == r)

theorem Step.hands_fresh (hs : Step s i x e) (hsame : e.shared.requests = s.requests)
    (hplace : i ≠ .place) (r : ℕ) : e.fresh.countP (·.hands r) ≤ if i.hands r then 1 else 0 := by
  refine hs.countP_fresh_le (fun j hj ↦ ?_) fun hi ↦ ?_
  · cases j <;> first | rfl | cases hj
  · induction hs with
    | request => exact absurd hsame (Nat.succ_ne_self _)
    | dequeue | placeExit => exact absurd rfl hplace
    | enter hj => cases hj.symm.trans hi
    | fail | markDraining | evictScan | failWaiters => cases hi
    | ack =>
      rw [Effect.countP_fresh]
      simp [Instr.hands]
    | addObserver h job =>
      rw [Effect.countP_fresh]
      by_cases hr : job.request = r <;> simp [Instr.hands, hr]
    | _ =>
      first
      | exact Effect.countP_fresh_singleton_le rfl
      | exact Effect.countP_fresh_singleton_of_not rfl
      | exact Effect.countP_fresh_nil_le

/-- A ticket that the submit call has and hands to the queue, and that the placement loop takes
out again, is never copied if no other step copies it; `d` is what the step turns it into. -/
theorem Step.queue_balance {p : Instr → Bool} {r d : ℕ} (hs : Step s i x e)
    (hp : ∀ j, j.hands r → p j) (hother : ∀ j, p j → j.dispatches r)
    (hserve : i = .serve → d = 0) (hplace : i = .place → d = 0)
    (henqueue : ∀ job priority ch, i = .enqueue job priority ch → d = 0)
    (hfresh : e.shared.requests = s.requests → i ≠ .place →
      e.fresh.countP (p ·) + d ≤ if p i then 1 else 0) :
    e.fresh.countP (p ·) + e.shared.queued r + d + (if r < s.requests then 1 else 0) ≤
      (if p i then 1 else 0) + s.queued r + (if r < e.shared.requests then 1 else 0) := by
  have heq {j : Instr} (hj : j.dispatches r = j.hands r) : p j = j.hands r :=
    Bool.eq_iff_iff.mpr ⟨fun h ↦ hj ▸ hother j h, hp j⟩
  rcases hs.requests_cases with hsame | ⟨_, _, _, _, o, job, rfl, rfl, -, hjob, rfl⟩
  · rw [hsame]
    refine Nat.add_le_add_right ?_ _
    unfold Server.queued
    obtain ⟨hqueue, -⟩ | ⟨job, priority, ch, rfl, hqueue, -⟩ | ⟨item, rfl, hnext, rfl⟩ := hs.queue_eq
    · rw [hqueue]
      by_cases hi : i = .place
      · subst hi
        rw [hplace rfl]
        cases hs with
        | placeExit => simp [Effect.fresh]
        | dequeue hi =>
          rw [List.erase_eq_self_iff] at hqueue
          exact absurd (nextItem_mem hi) hqueue
        | quit hq => cases hq
      · have := hfresh hsame hi
        omega
    · rw [henqueue job priority ch rfl]
      cases hs with
      | queueFull => simp at hqueue
      | enqueue =>
        rw [Effect.countP_fresh]
        have henq := heq (j := .enqueue job priority ch) rfl
        have hawait := heq (j := .awaitWaiter job ch) rfl
        by_cases hr : job.request = r
        · simp only [henq, hawait, Instr.hands, hr, List.countP_cons, List.countP_nil, List.flatten_nil, List.append_nil,
            beq_self_eq_true, if_true, Bool.false_eq_true, if_false]
          omega
        · simp [henq, hawait, Instr.hands, hr]
      | quit hq => cases hq
    · have hmem := nextItem_mem hnext
      rw [hplace rfl, Effect.countP_fresh, List.countP_erase]
      have hitem := heq (j := .placeItem item) rfl
      have hloop := heq (j := .place) rfl
      by_cases hr : item.job.request = r
      · have hpos : 0 < s.queue.countP (·.job.request == r) :=
          List.countP_pos_iff.mpr ⟨item, hmem, beq_iff_eq.mpr hr⟩
        simp [hitem, hloop, Instr.hands, hr, hmem]
        omega
      · simp [hitem, hloop, Instr.hands, hr]
  · have hlt : r < s.requests + 1 ↔ r < s.requests ∨ s.requests = r := by omega
    have hpick : p (.pick o job) = (s.requests == r) := (heq rfl).trans (by simp [Instr.hands, hjob])
    have hloop : p .serve = false := heq rfl
    rw [hserve rfl, Effect.countP_fresh]
    by_cases hr : s.requests = r <;> simp [hpick, hloop, Server.queued, hlt, hr]
    omega

theorem Step.hands_balance (hs : Step s i x e) (r : ℕ) :
    e.fresh.countP (·.hands r) + e.shared.queued r + (if i.handsOver r x then 1 else 0) +
        (if r < s.requests then 1 else 0) ≤
      (if i.hands r then 1 else 0) + s.queued r + (if r < e.shared.requests then 1 else 0) := by
  have hnone (hi : i.handsOver r x = false) : (if i.handsOver r x then 1 else 0) = 0 := by simp [hi]
  refine hs.queue_balance (fun _ h ↦ h) (fun j h ↦ Instr.dispatches_of_hands h) ?_ ?_ ?_ ?_
  · rintro rfl
    exact hnone rfl
  · rintro rfl
    exact hnone rfl
  · rintro job priority ch rfl
    exact hnone rfl
  · intro hsame hplace
    by_cases hover : i.handsOver r x
    · obtain ⟨o, h, job, ch, rfl, rfl, hr⟩ := Instr.send_of_handsOver hover
      cases hs with
      | send =>
        rw [Effect.countP_fresh]
        simp [Instr.hands, Instr.handsOver, hr]
      | quit hq => cases hq
    · rw [if_neg hover, Nat.add_zero]
      exact hs.hands_fresh hsame hplace r

theorem Step.dispatches_fresh (hs : Step s i x e) (hsame : e.shared.requests = s.requests)
    (hplace : i ≠ .place) (r : ℕ) :
    e.fresh.countP (·.dispatches r) ≤ if i.dispatches r then 1 else 0 := by
  refine hs.countP_fresh_le (fun j hj ↦ ?_) fun hi ↦ ?_
  · cases j <;> first | rfl | cases hj
  · induction hs with
    | request => exact absurd hsame (Nat.succ_ne_self _)
    | dequeue | placeExit => exact absurd rfl hplace
    | enter hj => cases hj.symm.trans hi
    | fail | markDraining | evictScan | failWaiters => cases hi
    | ack =>
      rw [Effect.countP_fresh]
      simp [Instr.dispatches, Instr.hands]
    | addObserver h job =>
      rw [Effect.countP_fresh]
      by_cases hr : job.request = r <;> simp [Instr.dispatches, Instr.hands, hr]
    | _ =>
      first
      | exact Effect.countP_fresh_singleton_le rfl
      | exact Effect.countP_fresh_singleton_of_not rfl
      | exact Effect.countP_fresh_nil_le

theorem Step.finished_cases (hs : Step s i x e) (r : ℕ) :
    (e.shared.finished r).sent = (s.finished r).sent ∨
      ∃ job res, i = .finish .stream job res ∧ job.request = r ∧ e.next = [] ∧ e.spawned = [] ∧
        (e.shared.finished r).sent = (s.finished r).sent ++ [res.getD ⟨{}, []⟩] := by
  induction hs with
  | @finishStream job res c hc =>
    by_cases hr : r = job.request
    · subst hr
      refine .inr ⟨job, res, rfl, rfl, rfl, rfl, ?_⟩
      dsimp only
      rw [Function.update_self]
      exact (Chan.send_some hc).2.1
    · exact .inl (congrArg Chan.sent (Function.update_of_ne hr ..))
  | settle hc => exact .inl (Chan.proj_of_update Chan.sent rfl (Chan.recv_some hc).2.1 r)
  | _ => exact .inl rfl

theorem Step.dispatches_balance (hs : Step s i x e) (r : ℕ) :
    e.fresh.countP (·.dispatches r) + e.shared.queued r + (e.shared.finished r).sent.length +
        (if r < s.requests then 1 else 0) ≤
      (if i.dispatches r then 1 else 0) + s.queued r + (s.finished r).sent.length +
        (if r < e.shared.requests then 1 else 0) := by
  rcases hs.finished_cases r with hsame | ⟨job, res, rfl, rfl, hnext, hspawned, hsent⟩
  · have := hs.queue_balance (d := 0) (fun j ↦ Instr.dispatches_of_hands) (fun _ h ↦ h)
      (fun _ ↦ rfl) (fun _ ↦ rfl) (fun _ _ _ _ ↦ rfl) (fun hsame hplace ↦ hs.dispatches_fresh hsame hplace r)
    rw [hsame]
    omega
  · have := hs.queue_balance (r := job.request) (d := 1) (fun j ↦ Instr.dispatches_of_hands)
      (fun _ h ↦ h) (nomatch ·) (nomatch ·) (fun _ _ _ h ↦ nomatch h) (fun _ _ ↦ by
        rw [Effect.countP_fresh, hnext, hspawned]
        simp [Instr.dispatches])
    rw [hsent, List.length_append, List.length_singleton]
    omega

theorem Step.pays_fresh (hs : Step s i x e) (hsame : e.shared.requests = s.requests) (r : ℕ) :
    e.fresh.countP (·.pays r) ≤ if i.pays r then 1 else 0 := by
  refine hs.countP_fresh_le (fun j hj ↦ ?_) fun hi ↦ ?_
  · cases j <;> first | rfl | cases hj
  · induction hs with
    | request => exact absurd hsame (Nat.succ_ne_self _)
    | enter hj => cases hj.symm.trans hi
    | fail | markDraining | evictScan | failWaiters => cases hi
    | dequeue | ack =>
      rw [Effect.countP_fresh]
      simp [Instr.pays]
    | addObserver h job =>
      rw [Effect.countP_fresh]
      by_cases hr : job.request = r <;> simp [Instr.pays, hr]
    | @pick o | addPending o | @send o | @sendGone o | @awaitGone o | @await o =>
      cases o <;>
        first
        | exact Effect.countP_fresh_singleton_le rfl
        | exact Effect.countP_fresh_singleton_of_not rfl
    | _ =>
      first
      | exact Effect.countP_fresh_singleton_le rfl
      | exact Effect.countP_fresh_singleton_of_not rfl
      | exact Effect.countP_fresh_nil_le

theorem Step.pays_balance (hs : Step s i x e) (r : ℕ) :
    e.fresh.countP (·.pays r) + (if r < s.requests then 1 else 0) ≤
      (if i.pays r then 1 else 0) + (if r < e.shared.requests then 1 else 0) := by
  refine hs.request_balance rfl (fun o job hp ↦ ?_) (fun _ ↦ rfl) (hs.pays_fresh · r)
  exact eq_of_beq hp

def Worker.given (w : Worker) : List Job := w.send.sent.flatMap ServerMessage.jobs

theorem Worker.mem_given {w : Worker} {job : Job} : job ∈ w.given ↔ .job job ∈ w.send.sent := by
  have hm (m : ServerMessage) : job ∈ m.jobs ↔ m = .job job := by
    cases m <;> simp [ServerMessage.jobs, eq_comm]
  simp [given, hm]

theorem Step.given_cases (hs : Step s i x e) (hi : i.Wired s) (h : ℕ) :
    (e.shared.worker h).given = (s.worker h).given ∨
    (∃ o job ch, i = .send o h job ch ∧ x = .go ∧
      (e.shared.worker h).given = (s.worker h).given ++ [job]) ∨
    (h = s.nextSes + 1 ∧ (e.shared.worker h).given = []) := by
  induction hs with
  | register id models =>
    by_cases hh : h = s.nextSes + 1
    · subst hh
      exact .inr (.inr ⟨rfl, by simp [addWorker, Worker.given, Chan.make]⟩)
    · exact .inl (by rw [addWorker_of_ne hh])
  | ack hc =>
    refine .inl (Server.proj_of_update Worker.given rfl ?_ h)
    simp [Worker.given, (Chan.send_some hc).2.1, ServerMessage.jobs]
  | sendCommand hc =>
    have hjobs : _ = [] := hi
    refine .inl (Server.proj_of_update Worker.given rfl ?_ h)
    simp [Worker.given, (Chan.send_some hc).2.1, hjobs]
  | @send o k ch job c hc =>
    by_cases hh : h = k
    · subst hh
      refine .inr (.inl ⟨o, job, ch, rfl, rfl, ?_⟩)
      rw [Server.setWorker_self]
      simp [Worker.given, (Chan.send_some hc).2.1, ServerMessage.jobs]
    · exact .inl (by rw [Server.setWorker_of_ne hh])
  | wrote hc _ | wroteJob hc =>
    refine .inl (Server.proj_of_update Worker.given rfl ?_ h)
    simp [Worker.given, (Chan.recv_some hc).2.1]
  | _ =>
    first
    | exact .inl rfl
    | exact .inl (Server.proj_of_update Worker.given rfl (by rfl) h)

theorem Step.countP_given_le (hs : Step s i x e) (hi : i.Wired s) (h r : ℕ) :
    (e.shared.worker h).given.countP (·.request == r) ≤
      (s.worker h).given.countP (·.request == r) + if i.handsOver r x then 1 else 0 := by
  rcases hs.given_cases hi h with hsame | ⟨o, job, ch, rfl, rfl, hnew⟩ | ⟨-, hnone⟩
  · rw [hsame]
    exact Nat.le_add_right ..
  · rw [hnew]
    simp [Instr.handsOver, List.countP_cons]
  · rw [hnone]
    exact Nat.zero_le _

structure Given (s : Server) : Prop where
  assigned : ∀ h, ∀ job ∈ s.assigned h, job ∈ (s.worker h).given
  streams : ∀ h jobID b, (s.worker h).streams.lookup jobID = some b →
    ∃ job ∈ (s.worker h).given, job.id = jobID ∧ s.owner jobID = job.request

theorem Step.given_kept (hs : Step s i x e) (hi : i.Wired s) {h : ℕ} (hh : h ≤ s.nextSes) {job : Job}
    (hjob : job ∈ (s.worker h).given) : job ∈ (e.shared.worker h).given := by
  rcases hs.given_cases hi h with hsame | ⟨_, _, _, -, -, hnew⟩ | ⟨rfl, -⟩
  · rwa [hsame]
  · rw [hnew]
    exact List.mem_append_left _ hjob
  · omega

theorem Step.given {c : Config Server Instr} (hs : Step c.shared i x e) (hhonest : Honest c i x)
    (hfresh : FreshID c i x) (hI : Owned c.shared) (hi : i.Wired c.shared)
    (hG : Given c.shared) : Given e.shared := by
  refine ⟨fun h job hjob ↦ ?_, fun h jobID b hl ↦ ?_⟩
  · rcases hs.assigned_cases hjob with hold | ⟨c', rfl, hrecv⟩
    · exact hs.given_kept hi (hI.assigned h job hold).1 (hG.assigned h job hold)
    · have hsent : job ∈ (c.shared.worker h).given := Worker.mem_given.mpr (Chan.mem_of_recv hrecv)
      have hm : .job job ∈ (c.shared.worker h).send.buffered := by
        simp [Chan.buffered_of_recv hrecv]
      exact hs.given_kept hi (hI.buffered h job hm).1 hsent
  · rcases hs.stream_cases hl with hold | ⟨p, rfl, rfl, rfl, -⟩
    · obtain ⟨job, hjob, hid, howner⟩ := hG.streams h jobID b hold
      have hh := (hI.streams h jobID b hold).1
      have huse : c.shared.Uses jobID :=
        Server.uses_of_worker hh (.inr (.inr (.inl (by rw [hold]; rfl))))
      refine ⟨job, hs.given_kept hi hh hjob, hid, ?_⟩
      rw [hs.owner_kept hfresh (.inl huse), howner]
    · obtain ⟨job, hjob, hid, -⟩ := hhonest
      obtain ⟨hh, howner⟩ := hI.assigned h job hjob
      refine ⟨job, hs.given_kept hi hh (hG.assigned h job hjob), hid, ?_⟩
      rw [hs.owner_eq (by simp), ← hid, howner]

section

variable {t : Time} {d : Duration} {n : ℕ} {c : Config Server Instr}

theorem pays_le_one (hc : controlPlane.Reaches (boot (new t d n)) c) (r : ℕ) :
    c.soup.countP (·.pays r) ≤ if r < c.shared.requests then 1 else 0 := by
  refine hc.ticket_invariant Server.requests (·.pays r) r ?_ ?_
  · simp [boot, Config.soup, Instr.pays]
  · intro c i x e _ he
    exact (step_of_exec he).pays_balance r

theorem hands_le_one (hc : controlPlane.Reaches (boot (new t d n)) c) (h r : ℕ) :
    c.soup.countP (·.hands r) + c.shared.queued r +
      (c.shared.worker h).given.countP (·.request == r) ≤
      if r < c.shared.requests then 1 else 0 := by
  refine (hc.strengthen fun c hc ↦ (wired_of_reaches hc).2).soup_invariant (fun s S ↦
    S.countP (·.hands r) + s.queued r + (s.worker h).given.countP (·.request == r) ≤
      if r < s.requests then 1 else 0) ?_ ?_
  · simp [boot, new, Config.soup, Instr.hands, Server.queued, Worker.given, Chan.make]
  · intro c i x R e hsoup hle hg he
    have hi : i.Wired c.shared := hg.2 i (hsoup ▸ Multiset.mem_cons_self i R)
    have hbalance := (step_of_exec he).hands_balance r
    have hgiven := (step_of_exec he).countP_given_le hi h r
    rw [Multiset.countP_cons] at hle
    rw [Multiset.countP_add]
    omega

theorem dispatches_le_one (hc : controlPlane.Reaches (boot (new t d n)) c) (r : ℕ) :
    c.soup.countP (·.dispatches r) + c.shared.queued r + (c.shared.finished r).sent.length ≤
      if r < c.shared.requests then 1 else 0 := by
  refine hc.soup_invariant (fun s S ↦
    S.countP (·.dispatches r) + s.queued r + (s.finished r).sent.length ≤
      if r < s.requests then 1 else 0) ?_ ?_
  · simp [boot, new, Config.soup, Instr.dispatches, Instr.hands, Server.queued, Chan.make]
  · intro c i x R e hsoup hle _ he
    have hbalance := (step_of_exec he).dispatches_balance r
    rw [Multiset.countP_cons] at hle
    rw [Multiset.countP_add]
    omega

theorem given_of_runs
    (hc : controlPlane.Runs (fun c i x ↦ Honest c i x ∧ FreshID c i x) (boot (new t d n)) c) :
    Given c.shared := by
  have hrun := hc.strengthen fun c hc ↦
    And.intro (owned_of_runs hc).1 (wired_of_reaches hc.reaches).2
  refine hrun.soup_invariant (fun s _ ↦ Given s) ?_ ?_
  · constructor <;> simp [boot, new]
  · intro c i x R e hsoup hG hg he
    obtain ⟨⟨hhonest, hfresh⟩, hI, hJ⟩ := hg
    exact (step_of_exec he).given hhonest hfresh hI (hJ i (hsoup ▸ Multiset.mem_cons_self i R)) hG

theorem no_stream_of_hands
    (hc : controlPlane.Runs (fun c i x ↦ Honest c i x ∧ FreshID c i x) (boot (new t d n)) c)
    {j : Instr} (hj : j ∈ c.soup) {job : Job} (hhands : j.hands job.request)
    (hid : c.shared.owner job.id = job.request) (h : ℕ) :
    (c.shared.worker h).streams.lookup job.id = none := by
  cases hl : (c.shared.worker h).streams.lookup job.id with
  | none => rfl
  | some b =>
    obtain ⟨job', hjob', -, howner⟩ := (given_of_runs hc).streams h job.id b hl
    have hle := hands_le_one hc.reaches h job.request
    have hsoup : 0 < c.soup.countP (·.hands job.request) :=
      Multiset.countP_pos.mpr ⟨j, hj, hhands⟩
    have hgiven : 0 < (c.shared.worker h).given.countP (·.request == job.request) :=
      List.countP_pos_iff.mpr ⟨job', hjob', by simp [← howner, hid]⟩
    have hone : (if job.request < c.shared.requests then 1 else 0) ≤ 1 := by split <;> simp
    omega

end

end AgentGpu.ControlPlane
