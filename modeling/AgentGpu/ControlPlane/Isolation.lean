import AgentGpu.ControlPlane.Dispatch
import AgentGpu.ControlPlane.Wiring

namespace AgentGpu.ControlPlane

open Foundation HttpApi

variable {s : Server} {i : Instr} {x : Choice} {e : Effect Server Instr} {h ch : ℕ}

def Worker.Uses (w : Worker) (jobID : String) : Prop :=
  (w.pending.lookup jobID).isSome ∨ (w.observers.lookup jobID).isSome ∨
    (w.streams.lookup jobID).isSome ∨ ∃ m ∈ w.send.buffered, ∃ job ∈ m.jobs, job.id = jobID

instance (w : Worker) (jobID : String) : Decidable (w.Uses jobID) := by
  delta Worker.Uses
  infer_instance

def Server.Uses (s : Server) (jobID : String) : Prop :=
  (s.waiters.lookup jobID).isSome ∨ (∃ item ∈ s.queue, item.job.id = jobID) ∨
    ∃ h < s.nextSes + 1, (s.worker h).Uses jobID ∨ ∃ job ∈ s.assigned h, job.id = jobID

instance (s : Server) (jobID : String) : Decidable (s.Uses jobID) := by
  delta Server.Uses
  infer_instance

def Instr.names : Instr → List (String × ℕ)
  | .pick _ job | .addPending _ _ job | .send _ _ job _ | .await _ _ job _ | .finish _ job _
  | .addWaiter job _ | .enqueue job _ _ | .awaitWaiter job _ | .removeWaiter job
  | .addObserver _ job | .relay _ job _ | .emit _ job _ _ => [(job.id, job.request)]
  | .placeItem item => [(item.job.id, item.job.request)]
  | .forwardLast _ _ _ res | .closeLast _ _ res | .resolve _ res | .resolveWaiter res =>
    res.sources.map (res.result.jobID, ·)
  | _ => []

/-- A request arrives under an id that nothing in the server or at a worker goes by. -/
def FreshID (c : Config Server Instr) (_ : Instr) (x : Choice) : Prop :=
  match x with
  | .request header entropy _ _ => ¬ c.shared.Uses (requestID header entropy) ∧
      ∀ j ∈ c.soup, ∀ p ∈ j.names, p.1 ≠ requestID header entropy
  | _ => True

instance (c : Config Server Instr) (i : Instr) (x : Choice) : Decidable (FreshID c i x) := by
  delta FreshID
  induction x using Choice.casesOn <;> infer_instance

/-- Workers send chunks and results for the jobs that they were sent, until the terminal one. -/
def Honest (c : Config Server Instr) (i : Instr) (x : Choice) : Prop :=
  match i, x with
  | .read h, .message (.chunk p) =>
    ∃ job ∈ c.shared.assigned h, job.id = p.chunk.jobID ∧ p.source = some job.request
  | .read h, .message (.result res) =>
    ∃ job ∈ c.shared.assigned h, job.id = res.result.jobID ∧ res.sources = [job.request]
  | _, _ => True

instance (c : Config Server Instr) (i : Instr) (x : Choice) : Decidable (Honest c i x) := by
  delta Honest
  induction i using Instr.casesOn with
  | read h =>
    induction x using Choice.casesOn with
    | message m => induction m using WorkerMessage.casesOn <;> infer_instance
    | _ => infer_instance
  | _ => infer_instance

/-- What is held under an id belongs to the request that came with the id last. -/
structure Owned (s : Server) : Prop where
  pending : ∀ h jobID ch, (s.worker h).pending.lookup jobID = some ch →
    h ≤ s.nextSes ∧ s.owner jobID = (s.jobOf ch).request
  observers : ∀ h jobID ch, (s.worker h).observers.lookup jobID = some ch →
    h ≤ s.nextSes ∧ s.owner jobID = (s.jobOf ch).request
  streams : ∀ h jobID b, (s.worker h).streams.lookup jobID = some b →
    h ≤ s.nextSes ∧ ∀ r ∈ b.sources, s.owner jobID = r
  buffered : ∀ h job, .job job ∈ (s.worker h).send.buffered →
    h ≤ s.nextSes ∧ s.owner job.id = job.request
  assigned : ∀ h, ∀ job ∈ s.assigned h, h ≤ s.nextSes ∧ s.owner job.id = job.request
  waiters : ∀ jobID ch, s.waiters.lookup jobID = some ch → s.owner jobID = (s.jobOf ch).request
  queue : ∀ item ∈ s.queue, s.owner item.job.id = item.job.request

/-- What is on a channel or was received was produced for the request it is meant for, and no
request lost its entry in a table to another. -/
structure Sourced (s : Server) : Prop where
  results : ∀ ch, ∀ res ∈ (s.results ch).sent, ∀ r ∈ res.sources, r = (s.jobOf ch).request
  observed : ∀ ch, ∀ c ∈ (s.observed ch).sent, ∀ r ∈ c.source.toList, r = (s.jobOf ch).request
  out : ∀ request, ∀ c ∈ (s.out request).sent, ∀ r ∈ c.source.toList, r = request
  received : ∀ got ∈ s.received, ∀ r ∈ got.sources, r = got.request
  lost : s.lost = []

def Instr.Sourced (s : Server) : Instr → Prop
  | .forward _ ch c | .forwardLast _ ch c _ | .failForward ch c =>
    ∀ r ∈ c.source.toList, r = (s.jobOf ch).request
  | .deliver _ ch res | .failDeliver ch res | .deliverWaiter ch res =>
    ∀ r ∈ res.sources, r = (s.jobOf ch).request
  | .emit _ job _ c => ∀ r ∈ c.source.toList, r = job.request
  | .finish _ job (some res) => ∀ r ∈ res.sources, r = job.request
  | _ => True

def Instr.Owned (s : Server) (i : Instr) : Prop := ∀ p ∈ i.names, s.owner p.1 = p.2

theorem Server.lost_disturb {victim : Option ℕ} {others : List ℕ}
    (hsame : ∀ ch, victim = some ch → ∀ r ∈ others, r = (s.jobOf ch).request) :
    (s.disturb victim others).lost = s.lost := by
  cases victim with
  | none => rfl
  | some ch => simpa [Server.disturb] using hsame ch rfl

theorem Step.lost_eq (hs : Step s i x e) (hI : Owned s) (hi : i.Owned s) :
    e.shared.lost = s.lost := by
  have hpending {h : ℕ} {job : Job} (hjob : s.owner job.id = job.request) (ch : ℕ)
      (hl : (s.worker h).pending.lookup job.id = some ch) :
      ∀ r ∈ [job.request], r = (s.jobOf ch).request := by
    simpa [← hjob] using (hI.pending h job.id ch hl).2
  have hobserver {h : ℕ} {job : Job} (hjob : s.owner job.id = job.request) (ch : ℕ)
      (hl : (s.worker h).observers.lookup job.id = some ch) :
      ∀ r ∈ [job.request], r = (s.jobOf ch).request := by
    simpa [← hjob] using (hI.observers h job.id ch hl).2
  have hwaiter {job : Job} (hjob : s.owner job.id = job.request) (ch : ℕ)
      (hl : s.waiters.lookup job.id = some ch) : ∀ r ∈ [job.request], r = (s.jobOf ch).request := by
    simpa [← hjob] using hI.waiters job.id ch hl
  induction hs with
  | addPending | sendGone | awaitGone =>
    exact Server.lost_disturb (hpending (hi _ (List.mem_singleton_self _)))
  | addObserver | relayGone | emitGone =>
    exact Server.lost_disturb (hobserver (hi _ (List.mem_singleton_self _)))
  | addWaiter | removeWaiter =>
    exact Server.lost_disturb (hwaiter (hi _ (List.mem_singleton_self _)))
  | @resolve h ch res hp =>
    refine Server.lost_disturb fun ch' hch' r hr ↦ ?_
    cases hch'
    exact (hi _ (List.mem_map_of_mem hr)).symm.trans (hI.pending h _ ch hp).2
  | @resolveWaiter res ch hw =>
    refine Server.lost_disturb fun ch' hch' r hr ↦ ?_
    cases hch'
    exact (hi _ (List.mem_map_of_mem hr)).symm.trans (hI.waiters _ ch hw)
  | _ => rfl

section

variable {c : Config Server Instr} {jobID : String}

theorem Step.owner_kept (hs : Step c.shared i x e) (hfresh : FreshID c i x)
    (huse : c.shared.Uses jobID ∨ ∃ j ∈ c.soup, ∃ p ∈ j.names, p.1 = jobID) :
    e.shared.owner jobID = c.shared.owner jobID := by
  rcases hs.owner_cases with hsame | ⟨header, entropy, model, stream, rfl, rfl, hnew⟩
  · rw [hsame]
  · rw [hnew]
    refine Function.update_of_ne ?_ ..
    rintro rfl
    rcases huse with huse | ⟨j, hj, p, hp, hid⟩
    · exact hfresh.1 huse
    · exact hfresh.2 j hj p hp hid

theorem Step.instr_owned_stable (hs : Step c.shared i x e) (hfresh : FreshID c i x) {j : Instr}
    (hj : j ∈ c.soup) (howned : j.Owned c.shared) : j.Owned e.shared := fun p hp ↦
  (hs.owner_kept hfresh (.inr ⟨j, hj, p, hp, rfl⟩)).trans (howned p hp)

theorem Owned.of_chunk (hI : Owned c.shared) {p : Produced}
    (hhonest : Honest c (.read h) (.message (.chunk p))) :
    ∀ r ∈ p.source.toList, c.shared.owner p.chunk.jobID = r := by
  obtain ⟨job, hjob, hid, hsource⟩ := hhonest
  simpa [hsource, ← hid] using (hI.assigned h job hjob).2

theorem Owned.of_result (hI : Owned c.shared) {res : Outcome}
    (hhonest : Honest c (.read h) (.message (.result res))) :
    ∀ r ∈ res.sources, c.shared.owner res.result.jobID = r := by
  obtain ⟨job, hjob, hid, hsources⟩ := hhonest
  simpa [hsources, ← hid] using (hI.assigned h job hjob).2

theorem Owned.of_stream (hI : Owned s) :
    ∀ r ∈ (((s.worker h).streams.lookup jobID).getD {}).sources, s.owner jobID = r := by
  cases hl : (s.worker h).streams.lookup jobID with
  | none => simp
  | some b => exact (hI.streams h jobID b hl).2

theorem Owned.of_assemble (hI : Owned c.shared) {p : Produced}
    (hhonest : Honest c (.read h) (.message (.chunk p))) :
    ∀ r ∈ ((c.shared.worker h).assemble p).sources, c.shared.owner p.chunk.jobID = r :=
  List.forall_mem_append.mpr ⟨hI.of_stream, hI.of_chunk hhonest⟩

theorem Server.uses_of_worker (hh : h ≤ s.nextSes) (huse : (s.worker h).Uses jobID) :
    s.Uses jobID :=
  .inr (.inr ⟨h, Nat.lt_succ_of_le hh, .inl huse⟩)

theorem Step.owner_eq (hs : Step s i x e) (hi : i ≠ .serve) : e.shared.owner = s.owner :=
  hs.owner_cases.resolve_right fun ⟨_, _, _, _, hserve, _, _⟩ ↦ hi hserve

variable (hs : Step c.shared i x e) (hfresh : FreshID c i x) (hwired : Wired c.shared)
  (hI : Owned c.shared) (howned : i.Owned c.shared)

include hs hfresh hwired hI howned in
theorem Step.owned_waiters (hl : e.shared.waiters.lookup jobID = some ch) :
    e.shared.owner jobID = (e.shared.jobOf ch).request := by
  rcases hs.waiter_cases hl with hold | ⟨job, priority, rfl, rfl, rfl⟩
  · have huse : c.shared.Uses jobID := .inl (by rw [hold]; rfl)
    obtain ⟨-, -, hjob⟩ := hs.chan_stable (hwired.waiters jobID ch hold).1
    rw [hs.owner_kept hfresh (.inl huse), hjob, hI.waiters jobID ch hold]
  · cases hs with
    | quit hq => cases hq
    | addWaiter =>
      refine (howned _ (List.mem_singleton_self _)).trans ?_
      exact congrArg Job.request (Server.feeds_newChan 0 job).2.symm

include hs hfresh hI howned in
theorem Step.owned_queue {item : Item} (hitem : item ∈ e.shared.queue) :
    e.shared.owner item.job.id = item.job.request := by
  rcases hs.queue_cases hitem with hold | ⟨priority, ch, rfl⟩
  · have huse : c.shared.Uses item.job.id := .inr (.inl ⟨item, hold, rfl⟩)
    rw [hs.owner_kept hfresh (.inl huse), hI.queue item hold]
  · rw [hs.owner_eq (by simp)]
    exact howned _ (List.mem_singleton_self _)

variable (hknown : HandlesKnown c.shared i)

include hs hfresh hwired hI howned hknown

theorem Step.owned_pending (hl : (e.shared.worker h).pending.lookup jobID = some ch) :
    h ≤ e.shared.nextSes ∧ e.shared.owner jobID = (e.shared.jobOf ch).request := by
  rcases hs.pending_cases hl with hold | ⟨o, job, rfl, rfl, rfl⟩
  · obtain ⟨hh, howner⟩ := hI.pending h jobID ch hold
    have huse : c.shared.Uses jobID := Server.uses_of_worker hh (.inl (by rw [hold]; rfl))
    obtain ⟨-, -, hjob⟩ := hs.chan_stable (hwired.pending h jobID ch hold).1
    exact ⟨hh.trans hs.nextSes_le, by rw [hs.owner_kept hfresh (.inl huse), hjob, howner]⟩
  · cases hs with
    | quit hq => cases hq
    | addPending =>
      refine ⟨hknown h rfl, (howned _ (List.mem_singleton_self _)).trans ?_⟩
      exact congrArg Job.request (Server.feeds_newChan h job).2.symm

theorem Step.owned_observers (hl : (e.shared.worker h).observers.lookup jobID = some ch) :
    h ≤ e.shared.nextSes ∧ e.shared.owner jobID = (e.shared.jobOf ch).request := by
  rcases hs.observer_cases hl with hold | ⟨job, rfl, rfl, rfl⟩
  · obtain ⟨hh, howner⟩ := hI.observers h jobID ch hold
    have huse : c.shared.Uses jobID :=
      Server.uses_of_worker hh (.inr (.inl (by rw [hold]; rfl)))
    obtain ⟨-, -, hjob⟩ := hs.chan_stable (hwired.observers h jobID ch hold).1
    exact ⟨hh.trans hs.nextSes_le, by rw [hs.owner_kept hfresh (.inl huse), hjob, howner]⟩
  · cases hs with
    | quit hq => cases hq
    | addObserver =>
      refine ⟨hknown h rfl, (howned _ (List.mem_singleton_self _)).trans ?_⟩
      exact congrArg Job.request (Server.feeds_newChan h job).2.symm

omit hwired howned in
theorem Step.owned_streams (hhonest : Honest c i x) {b : Builder}
    (hl : (e.shared.worker h).streams.lookup jobID = some b) :
    h ≤ e.shared.nextSes ∧ ∀ r ∈ b.sources, e.shared.owner jobID = r := by
  rcases hs.stream_cases hl with hold | ⟨p, rfl, rfl, rfl, hsources⟩
  · obtain ⟨hh, howner⟩ := hI.streams h jobID b hold
    have huse : c.shared.Uses jobID :=
      Server.uses_of_worker hh (.inr (.inr (.inl (by rw [hold]; rfl))))
    refine ⟨hh.trans hs.nextSes_le, fun r hr ↦ ?_⟩
    rw [hs.owner_kept hfresh (.inl huse), howner r hr]
  · refine ⟨(hknown h rfl).trans hs.nextSes_le, ?_⟩
    rw [hs.owner_eq (by simp), hsources]
    exact List.forall_mem_append.mpr ⟨hI.of_stream, hI.of_chunk hhonest⟩

omit hwired in
theorem Step.owned_buffered (hi : i.Wired c.shared) {job : Job}
    (hm : .job job ∈ (e.shared.worker h).send.buffered) :
    h ≤ e.shared.nextSes ∧ e.shared.owner job.id = job.request := by
  rcases hs.buffered_cases hm with hold | ⟨_, hack⟩ | rfl | ⟨o, job', ch, rfl, hjob⟩
  · obtain ⟨hh, howner⟩ := hI.buffered h job hold
    have huse : c.shared.Uses job.id := Server.uses_of_worker hh
      (.inr (.inr (.inr ⟨_, hold, job, List.mem_singleton_self _, rfl⟩)))
    exact ⟨hh.trans hs.nextSes_le, by rw [hs.owner_kept hfresh (.inl huse), howner]⟩
  · cases hack
  · cases hi
  · cases hjob
    rw [hs.owner_eq (by simp)]
    exact ⟨(hknown h rfl).trans hs.nextSes_le, howned _ (List.mem_singleton_self _)⟩

omit hwired howned in
theorem Step.owned_assigned {job : Job} (hjob : job ∈ e.shared.assigned h) :
    h ≤ e.shared.nextSes ∧ e.shared.owner job.id = job.request := by
  rcases hs.assigned_cases hjob with hold | ⟨c', rfl, hrecv⟩
  · obtain ⟨hh, howner⟩ := hI.assigned h job hold
    have huse : c.shared.Uses job.id :=
      .inr (.inr ⟨h, Nat.lt_succ_of_le hh, .inr ⟨job, hold, rfl⟩⟩)
    exact ⟨hh.trans hs.nextSes_le, by rw [hs.owner_kept hfresh (.inl huse), howner]⟩
  · have hm : .job job ∈ (c.shared.worker h).send.buffered := by
      simp [Chan.buffered_of_recv hrecv]
    rw [hs.owner_eq (by simp)]
    exact ⟨(hknown h rfl).trans hs.nextSes_le, (hI.buffered h job hm).2⟩

theorem Step.owned (hhonest : Honest c i x) (hi : i.Wired c.shared) : Owned e.shared where
  pending _ _ _ := hs.owned_pending hfresh hwired hI howned hknown
  observers _ _ _ := hs.owned_observers hfresh hwired hI howned hknown
  streams _ _ _ := hs.owned_streams hfresh hI hknown hhonest
  buffered _ _ := hs.owned_buffered hfresh hI howned hknown hi
  assigned _ _ := hs.owned_assigned hfresh hI hknown
  waiters _ _ := hs.owned_waiters hfresh hwired hI howned
  queue _ := hs.owned_queue hfresh hI howned

end

theorem owned_placedResult {job : Job} {res : Option Outcome} (hjob : s.owner job.id = job.request)
    (hi : (Instr.finish .queued job res).Wired s) (hsourced : (Instr.finish .queued job res).Sourced s) :
    (Instr.resolveWaiter (placedResult job res)).Owned s := by
  have hfailed (err : JobError) : (Instr.resolveWaiter
      ⟨{ jobID := job.id, err := some err }, [job.request]⟩).Owned s :=
    List.forall_mem_singleton.mpr hjob
  cases res with
  | none => exact hfailed _
  | some res =>
    simp only [placedResult]
    split
    · refine List.forall_mem_map.mpr fun r hr ↦ ?_
      have hid : res.result.jobID = job.id := hi
      rw [hid, hjob, hsourced r hr]
    · exact hfailed _

section

variable {c : Config Server Instr} (hs : Step c.shared i x e) (hhonest : Honest c i x)
  (hI : Owned c.shared) (howned : i.Owned c.shared) (hi : i.Wired c.shared)
  (hsourced : i.Sourced c.shared)

include hs hhonest hI howned hi hsourced in
theorem Step.instr_owned_fresh_of_ne_serve (hserve : i ≠ .serve) :
    ∀ j ∈ e.fresh, j.Owned c.shared := by
  refine hs.forall_fresh (fun j hj p hp ↦ ?_) fun hspreads ↦ ?_
  · cases j <;> first | (cases hp; done) | cases hj
  induction hs with
  | tick | enter | request | hangUp => exact absurd rfl hserve
  | fail | markDraining | evictScan | failWaiters => cases hspreads
  | result =>
    exact Effect.forall_fresh_singleton (List.forall_mem_map.mpr (hI.of_result hhonest))
  | lastChunk | lastChunkObserved =>
    exact Effect.forall_fresh_singleton (List.forall_mem_map.mpr (hI.of_assemble hhonest))
  | finishQueued job res =>
    exact Effect.forall_fresh_singleton
      (owned_placedResult (howned _ (List.mem_singleton_self _)) hi hsourced)
  | dequeue hitem =>
    have hjob := hI.queue _ (nextItem_mem hitem)
    simpa [Instr.Owned, Instr.names] using hjob
  | ack => simp [Instr.Owned, Instr.names]
  | addObserver => simpa [Instr.Owned, Instr.names] using howned
  | _ =>
    first
    | exact Effect.forall_fresh_singleton howned
    | exact Effect.forall_fresh_singleton fun _ hp ↦ nomatch hp
    | exact Effect.forall_fresh_nil

include hs hhonest hI howned hi hsourced in
theorem Step.instr_owned_fresh : ∀ j ∈ e.fresh, j.Owned e.shared := by
  by_cases hserve : i = .serve
  · subst hserve
    cases hs with
    | request header entropy model stream ho hjob => simp [Instr.Owned, Instr.names, hjob]
    | enter hk => exact forall_fresh_enter hk nofun (fun _ _ ↦ nofun) (fun _ _ ↦ nofun) (fun _ _ ↦ nofun) nofun
    | quit hq => cases hq
    | _ => simp [Instr.Owned, Instr.names]
  · intro j hj p hp
    rw [hs.owner_eq hserve]
    exact hs.instr_owned_fresh_of_ne_serve hhonest hI howned hi hsourced hserve j hj p hp

theorem Step.instr_sourced_stable {j : Instr} (hs : Step s i x e) (hj : j.Wired s)
    (hjs : j.Sourced s) : j.Sourced e.shared := by
  cases j with
  | forward | forwardLast | failForward | deliver | failDeliver | deliverWaiter =>
    obtain ⟨-, -, hjob⟩ := hs.chan_stable hj.1
    exact fun r hr ↦ (hjs r hr).trans (congrArg Job.request hjob.symm)
  | finish _ _ res => cases res <;> exact hjs
  | _ => exact hjs

variable (hS : Sourced c.shared)

include hs hhonest hI howned hi hS in
theorem Step.instr_sourced_fresh : ∀ j ∈ e.fresh, j.Sourced e.shared := by
  induction hs with
  | enter hk =>
    exact forall_fresh_enter hk trivial (fun _ _ ↦ trivial) (fun _ _ ↦ trivial) (fun _ _ ↦ trivial) trivial
  | chunkObserved _ hobs | lastChunkObserved _ hobs =>
    exact Effect.forall_fresh_singleton fun r hr ↦
      (hI.of_chunk hhonest r hr).symm.trans (hI.observers _ _ _ hobs).2
  | resolve hp =>
    exact Effect.forall_fresh_singleton fun r hr ↦
      (howned _ (List.mem_map_of_mem hr)).symm.trans (hI.pending _ _ _ hp).2
  | resolveWaiter hw =>
    exact Effect.forall_fresh_singleton fun r hr ↦
      (howned _ (List.mem_map_of_mem hr)).symm.trans (hI.waiters _ _ hw)
  | await hc =>
    exact Effect.forall_fresh_singleton fun r hr ↦
      (hS.results _ _ (Chan.mem_of_recv hc) r hr).trans (congrArg Job.request hi.2)
  | relay hc =>
    exact Effect.forall_fresh_singleton fun r hr ↦
      (hS.observed _ _ (Chan.mem_of_recv hc) r hr).trans (congrArg Job.request hi.2)
  | fail => exact Effect.forall_fresh_next (forall_fail (fun _ _ _ ↦ nofun) (fun _ _ _ ↦ nofun) trivial)
  | failWaiters => exact Effect.forall_fresh_next (forall_failWaiters fun _ _ _ ↦ nofun)
  | markDraining hsp => exact forall_fresh_markDraining hsp trivial
  | evictScan => exact Effect.forall_fresh_next (forall_evictScan (fun _ _ ↦ trivial) trivial)
  | request | dequeue | addObserver | ack => simp [Instr.Sourced]
  | _ =>
    first
    | exact Effect.forall_fresh_singleton trivial
    | exact Effect.forall_fresh_nil

variable (hwired : Wired c.shared)

include hs hI howned hi hsourced hS hwired in
theorem Step.sourced : Sourced e.shared where
  results ch res hres := by
    have hkept (hch : ch < c.shared.nextChan) (hold : ∀ r ∈ res.sources, r = (c.shared.jobOf ch).request) :
        ∀ r ∈ res.sources, r = (e.shared.jobOf ch).request := by
      rwa [(hs.chan_stable hch).2.2]
    rcases hs.result_cases hres with hold | ⟨h, rfl⟩ | rfl | rfl
    · exact hkept (hwired.results ch res hold).1 (hS.results ch res hold)
    all_goals exact hkept hi.1 hsourced
  observed ch p hp := by
    have hkept (hch : ch < c.shared.nextChan)
        (hold : ∀ r ∈ p.source.toList, r = (c.shared.jobOf ch).request) :
        ∀ r ∈ p.source.toList, r = (e.shared.jobOf ch).request := by
      rwa [(hs.chan_stable hch).2.2]
    rcases hs.observed_cases hp with hold | ⟨h, rfl⟩ | ⟨h, res, rfl⟩ | rfl
    · exact hkept (hwired.observed ch p hold).1 (hS.observed ch p hold)
    all_goals exact hkept hi.1 hsourced
  out request p hp := by
    rcases hs.out_cases hp with hold | ⟨h, job, ch, rfl, rfl⟩
    · exact hS.out request p hold
    · exact hsourced
  received got hgot := by
    rcases hs.received_cases hgot with hold | ⟨job, res, rfl, rfl⟩ | ⟨job, ch, res, hres, rfl, rfl⟩ |
      ⟨p, hp, hsources⟩
    · exact hS.received got hold
    · exact hsourced
    · exact fun r hr ↦ (hS.results ch res hres r hr).trans (congrArg Job.request hi.2)
    · rw [hsources]
      exact hS.out got.request p hp
  lost := (hs.lost_eq hI howned).trans hS.lost

end

section

variable {t : Time} {d : Duration} {n : ℕ} {c : Config Server Instr}

theorem owned_of_runs
    (hc : controlPlane.Runs (fun c i x ↦ Honest c i x ∧ FreshID c i x) (boot (new t d n)) c) :
    Owned c.shared ∧ Sourced c.shared ∧ ∀ j ∈ c.soup, j.Owned c.shared ∧ j.Sourced c.shared := by
  have hrun := hc.strengthen fun c hc ↦
    And.intro (wired_of_reaches hc.reaches) (known_of_reaches hc.reaches)
  refine hrun.soup_invariant
    (fun s S ↦ Owned s ∧ Sourced s ∧ ∀ j ∈ S, j.Owned s ∧ j.Sourced s) ?_ ?_
  · refine ⟨?_, ?_, by simp [boot, Config.soup, Instr.Owned, Instr.names, Instr.Sourced]⟩
    · constructor <;> simp [boot, new, Chan.make, Chan.buffered]
    · constructor <;> simp [boot, new, Chan.make]
  · intro c i x R e hsoup hinv hg he
    obtain ⟨⟨hhonest, hfresh⟩, ⟨hwired, hJ⟩, -, hknown⟩ := hg
    obtain ⟨hI, hS, hS'⟩ := hinv
    rw [← hsoup] at hS'
    have hself : i ∈ c.soup := hsoup ▸ Multiset.mem_cons_self i R
    obtain ⟨howned, hsourced⟩ := hS' i hself
    have hi := hJ i hself
    have hs := step_of_exec he
    refine ⟨hs.owned hfresh hwired hI howned (hknown i hself) hhonest hi,
      hs.sourced hI howned hi hsourced hS hwired, fun j hj ↦ ?_⟩
    rcases Multiset.mem_add.mp hj with hj | hj
    · exact ⟨hs.instr_owned_fresh hhonest hI howned hi hsourced j hj,
        hs.instr_sourced_fresh hhonest hI howned hi hS j hj⟩
    · have hj : j ∈ c.soup := hsoup ▸ Multiset.mem_cons_of_mem hj
      exact ⟨hs.instr_owned_stable hfresh hj (hS' j hj).1,
        hs.instr_sourced_stable (hJ j hj) (hS' j hj).2⟩

/-- While no request arrives under an id that is still in use, callers only get what workers
produced for them, and none loses its result to another. -/
theorem callers_isolated
    (hc : controlPlane.Runs (fun c i x ↦ Honest c i x ∧ FreshID c i x) (boot (new t d n)) c) :
    (∀ got ∈ c.shared.received, ∀ r ∈ got.sources, r = got.request) ∧ c.shared.lost = [] := by
  obtain ⟨-, hS, -⟩ := owned_of_runs hc
  exact ⟨hS.received, hS.lost⟩

end

theorem callers_isolated_twoRequests :
    ∃ c, (controlPlane.Runs (fun c i x ↦ Honest c i x ∧ FreshID c i x) (boot (new 0 0 0)) c ∧
        c.shared.received = [⟨0, [0]⟩, ⟨1, [1]⟩]) ∧
      (∀ got ∈ c.shared.received, ∀ r ∈ got.sources, r = got.request) ∧ c.shared.lost = [] := by
  have hrun : ∃ c, controlPlane.Runs (fun c i x ↦ Honest c i x ∧ FreshID c i x)
      (boot (new 0 0 0)) c ∧ c.shared.received = [⟨0, [0]⟩, ⟨1, [1]⟩] := by
    apply Machine.exists_run [(0, .connect "w" [⟨"m", ""⟩]), (3, .go), (3, .go), (4, .go),
      (0, .request "a" none "m" false), (0, .request "b" none "m" false), (5, .worker 1),
      (5, .go), (5, .go), (6, .worker 1), (6, .go), (6, .go), (4, .go), (4, .go),
      (3, .message (.chunk ⟨{ jobID := "b", delta := "1", done := true }, some 1⟩)), (3, .go),
      (3, .go), (3, .message (.result ⟨{ jobID := "a", output := "2" }, [0]⟩)), (3, .go),
      (3, .go), (6, .go), (6, .go), (5, .go), (5, .go)]
    decide +kernel
  obtain ⟨c, hc, hgot⟩ := hrun
  exact ⟨c, ⟨hc, hgot⟩, callers_isolated hc⟩

/-- Two requests with one id on one worker: the second replaces the pending entry of the
first and gets the result of its job. -/
theorem shared_id_crosses_results :
    ∃ c, controlPlane.Runs Honest (boot (new 0 0 0)) c ∧
      c.shared.received = [⟨1, [0]⟩] ∧ (0, 1) ∈ c.shared.lost := by
  apply Machine.exists_run [(0, .connect "w" [⟨"m", ""⟩]), (3, .go), (3, .go), (4, .go),
    (0, .request "id" none "m" false), (0, .request "id" none "m" false), (5, .worker 1),
    (5, .go), (5, .go), (6, .worker 1), (6, .go), (6, .go), (4, .go), (4, .go),
    (3, .message (.chunk ⟨{ jobID := "id", delta := "secret", done := true }, some 0⟩)), (3, .go),
    (3, .go), (6, .go), (6, .go)]
  decide +kernel

end AgentGpu.ControlPlane
