import AgentGpu.ControlPlane.Streams

namespace AgentGpu.ControlPlane

open Foundation

variable {s s' : Server} {i : Instr} {x : Choice} {e : Effect Server Instr} {h ch : ℕ}

def Instr.makes : Instr → Bool
  | .addPending .. | .addWaiter .. | .addObserver .. => true
  | _ => false

theorem Instr.mayQuit_of_makes (hi : i.makes) : i.mayQuit = false := by
  cases i <;> first | rfl | cases hi

theorem Step.nextChan_eq (hs : Step s i x e) (hi : i.makes = false) :
    e.shared.nextChan = s.nextChan := by
  induction hs with
  | addPending | addWaiter | addObserver => cases hi
  | _ => rfl

theorem Step.chan_stable (hs : Step s i x e) (hch : ch < s.nextChan) :
    ch < e.shared.nextChan ∧ e.shared.home ch = s.home ch ∧ e.shared.jobOf ch = s.jobOf ch := by
  induction hs with
  | addPending | addWaiter | addObserver =>
    exact ⟨Nat.lt_succ_of_lt hch, Function.update_of_ne hch.ne .., Function.update_of_ne hch.ne ..⟩
  | _ => exact ⟨hch, rfl, rfl⟩

theorem lookup_of_update {β : Type} (tab : Worker → Table String β) {k : ℕ} {w : Worker}
    {jobID : String} {b : β} (hworker : s'.worker = Function.update s.worker k w)
    (hw : ∀ jobID b, (tab w).lookup jobID = some b → (tab (s.worker k)).lookup jobID = some b)
    (hl : (tab (s'.worker h)).lookup jobID = some b) :
    (tab (s.worker h)).lookup jobID = some b := by
  rw [hworker] at hl
  by_cases hh : h = k
  · subst hh
    rw [Function.update_self] at hl
    exact hw jobID b hl
  · rwa [Function.update_of_ne hh] at hl

theorem Step.pending_cases (hs : Step s i x e) {jobID : String}
    (hl : (e.shared.worker h).pending.lookup jobID = some ch) :
    (s.worker h).pending.lookup jobID = some ch ∨
      ∃ o job, i = .addPending o h job ∧ jobID = job.id ∧ ch = s.nextChan := by
  induction hs with
  | register _ _ => exact .inl (lookup_of_update (s := s) Worker.pending rfl (by simp) hl)
  | resolve | sendGone | awaitGone =>
    exact .inl (lookup_of_update Worker.pending rfl (fun _ _ ↦ Table.lookup_of_erase) hl)
  | fail => exact .inl (lookup_of_update Worker.pending rfl (by simp [Worker.takeAll]) hl)
  | addPending o k job =>
    by_cases hh : h = k
    · subst hh
      rw [Server.setWorker_self] at hl
      rcases Table.lookup_insert_cases hl with ⟨hid, hch⟩ | hold
      · exact .inr ⟨o, job, rfl, hid, hch⟩
      · exact .inl hold
    · rw [Server.setWorker_of_ne hh] at hl
      exact .inl hl
  | _ =>
    first
    | exact .inl hl
    | exact .inl (lookup_of_update Worker.pending rfl (by exact fun _ _ ↦ id) hl)

theorem Step.observer_cases (hs : Step s i x e) {jobID : String}
    (hl : (e.shared.worker h).observers.lookup jobID = some ch) :
    (s.worker h).observers.lookup jobID = some ch ∨
      ∃ job, i = .addObserver h job ∧ jobID = job.id ∧ ch = s.nextChan := by
  induction hs with
  | register _ _ => exact .inl (lookup_of_update (s := s) Worker.observers rfl (by simp) hl)
  | lastChunk | lastChunkObserved | relayGone | emitGone =>
    exact .inl (lookup_of_update Worker.observers rfl (fun _ _ ↦ Table.lookup_of_erase) hl)
  | fail => exact .inl (lookup_of_update Worker.observers rfl (by simp [Worker.takeAll]) hl)
  | addObserver k job =>
    by_cases hh : h = k
    · subst hh
      rw [Server.setWorker_self] at hl
      rcases Table.lookup_insert_cases hl with ⟨hid, hch⟩ | hold
      · exact .inr ⟨job, rfl, hid, hch⟩
      · exact .inl hold
    · rw [Server.setWorker_of_ne hh] at hl
      exact .inl hl
  | _ =>
    first
    | exact .inl hl
    | exact .inl (lookup_of_update Worker.observers rfl (by exact fun _ _ ↦ id) hl)

theorem Step.waiter_cases (hs : Step s i x e) {jobID : String}
    (hl : e.shared.waiters.lookup jobID = some ch) :
    s.waiters.lookup jobID = some ch ∨
      ∃ job priority, i = .addWaiter job priority ∧ jobID = job.id ∧ ch = s.nextChan := by
  induction hs with
  | addWaiter job priority =>
    rcases Table.lookup_insert_cases hl with ⟨hid, hch⟩ | hold
    · exact .inr ⟨job, priority, rfl, hid, hch⟩
    · exact .inl hold
  | removeWaiter | resolveWaiter => exact .inl (Table.lookup_of_erase hl)
  | failWaiters => simp at hl
  | _ => exact .inl hl

theorem Step.stream_cases (hs : Step s i x e) {jobID : String} {b : Builder}
    (hl : (e.shared.worker h).streams.lookup jobID = some b) :
    (s.worker h).streams.lookup jobID = some b ∨
      ∃ c, i = .read h ∧ x = .message (.chunk c) ∧ jobID = c.chunk.jobID ∧
        b.sources = (((s.worker h).streams.lookup jobID).getD {}).sources ++ c.source.toList := by
  induction hs with
  | register _ _ => exact .inl (lookup_of_update (s := s) Worker.streams rfl (by simp) hl)
  | lastChunk | lastChunkObserved =>
    exact .inl (lookup_of_update Worker.streams rfl (fun _ _ ↦ Table.lookup_of_erase) hl)
  | fail => exact .inl (lookup_of_update Worker.streams rfl (by simp [Worker.takeAll]) hl)
  | @chunk k c | @chunkObserved k _ c =>
    by_cases hh : h = k
    · subst hh
      rw [Server.setWorker_self] at hl
      rcases Table.lookup_insert_cases hl with ⟨rfl, rfl⟩ | hold
      · exact .inr ⟨c, rfl, rfl, rfl, rfl⟩
      · exact .inl hold
    · rw [Server.setWorker_of_ne hh] at hl
      exact .inl hl
  | _ =>
    first
    | exact .inl hl
    | exact .inl (lookup_of_update Worker.streams rfl (by exact fun _ _ ↦ id) hl)

theorem nextItem_mem {item : Item} {queue : List Item} (hitem : nextItem queue = some item) :
    item ∈ queue := by
  induction queue generalizing item with
  | nil => cases hitem
  | cons a rest ih =>
    simp only [nextItem] at hitem
    split at hitem
    · cases hitem
      exact List.mem_cons_self
    · next b hb =>
      split at hitem <;> cases hitem
      · exact List.mem_cons_of_mem a (ih hb)
      · exact List.mem_cons_self

theorem Step.queue_cases (hs : Step s i x e) {item : Item} (hitem : item ∈ e.shared.queue) :
    item ∈ s.queue ∨ ∃ priority ch, i = .enqueue item.job priority ch := by
  induction hs with
  | enqueue job priority ch =>
    rcases List.mem_cons.mp hitem with rfl | hold
    · exact .inr ⟨priority, ch, rfl⟩
    · exact .inl hold
  | dequeue => exact .inl (List.mem_of_mem_erase hitem)
  | _ => exact .inl hitem

theorem Step.assigned_cases (hs : Step s i x e) {job : Job} (hjob : job ∈ e.shared.assigned h) :
    job ∈ s.assigned h ∨ ∃ c, i = .write h ∧ (s.worker h).send.recv = some (.job job, c) := by
  induction hs with
  | @wroteJob k job' c hc =>
    by_cases hh : h = k
    · subst hh
      have hmem : job ∈ job' :: s.assigned h := by simpa using hjob
      rcases List.mem_cons.mp hmem with rfl | hold
      · exact .inr ⟨c, rfl, hc⟩
      · exact .inl hold
    · exact .inl (by simpa [hh] using hjob)
  | result | lastChunk | lastChunkObserved => exact .inl (assigned_of_retire hjob)
  | _ => exact .inl hjob

theorem buffered_of_update {k : ℕ} {w : Worker} {m : ServerMessage} {P : ServerMessage → Prop}
    (hworker : s'.worker = Function.update s.worker k w)
    (hw : ∀ m ∈ w.send.buffered, m ∈ (s.worker k).send.buffered ∨ P m)
    (hm : m ∈ (s'.worker h).send.buffered) : m ∈ (s.worker h).send.buffered ∨ h = k ∧ P m := by
  rw [hworker] at hm
  by_cases hh : h = k
  · subst hh
    rw [Function.update_self] at hm
    exact (hw m hm).imp_right (⟨rfl, ·⟩)
  · rw [Function.update_of_ne hh] at hm
    exact .inl hm

theorem Step.buffered_cases (hs : Step s i x e) {m : ServerMessage}
    (hm : m ∈ (e.shared.worker h).send.buffered) :
    m ∈ (s.worker h).send.buffered ∨ (∃ sessionID, m = .registerAck sessionID) ∨
      i = .sendCommand h m ∨ ∃ o job ch, i = .send o h job ch ∧ m = .job job := by
  have hsend {c c' : Chan ServerMessage} {m' : ServerMessage} (hc : c.send m' = some c') :
      ∀ m ∈ c'.buffered, m ∈ c.buffered ∨ m = m' := by
    simp [Chan.buffered_of_send hc]
  have hrecv {c c' : Chan ServerMessage} {m' : ServerMessage} (hc : c.recv = some (m', c')) :
      ∀ m ∈ c'.buffered, m ∈ c.buffered ∨ False := by
    simp +contextual [Chan.buffered_of_recv hc]
  induction hs with
  | register _ _ =>
    exact .inl ((buffered_of_update (s := s) (P := fun _ ↦ False) rfl
      (by simp [Chan.make, Chan.buffered]) hm).resolve_right (·.2))
  | ack hc =>
    exact (buffered_of_update rfl (hsend hc) hm).imp_right fun hnew ↦ .inl ⟨_, hnew.2⟩
  | sendCommand hc =>
    rcases buffered_of_update rfl (hsend hc) hm with hold | ⟨rfl, rfl⟩
    · exact .inl hold
    · exact .inr (.inr (.inl rfl))
  | send hc =>
    rcases buffered_of_update rfl (hsend hc) hm with hold | ⟨rfl, rfl⟩
    · exact .inl hold
    · exact .inr (.inr (.inr ⟨_, _, _, rfl, rfl⟩))
  | wrote hc _ | wroteJob hc =>
    exact .inl ((buffered_of_update (s := s) rfl (hrecv hc) hm).resolve_right (·.2))
  | _ =>
    first
    | exact .inl hm
    | exact .inl ((buffered_of_update (P := fun _ ↦ False) rfl (by exact fun _ ↦ .inl)
        hm).resolve_right (·.2))

theorem Step.result_cases (hs : Step s i x e) {res : Outcome}
    (hres : res ∈ (e.shared.results ch).sent) :
    res ∈ (s.results ch).sent ∨
      (∃ h, i = .deliver h ch res) ∨ i = .failDeliver ch res ∨ i = .deliverWaiter ch res := by
  induction hs with
  | deliver hc =>
    rcases Chan.mem_update rfl (Chan.mem_of_send hc) hres with hold | ⟨rfl, rfl⟩
    · exact .inl hold
    · exact .inr (.inl ⟨_, rfl⟩)
  | failDeliver hc =>
    rcases Chan.mem_update rfl (Chan.mem_of_send hc) hres with hold | ⟨rfl, rfl⟩
    · exact .inl hold
    · exact .inr (.inr (.inl rfl))
  | deliverWaiter hc =>
    rcases Chan.mem_update rfl (Chan.mem_of_send hc) hres with hold | ⟨rfl, rfl⟩
    · exact .inl hold
    · exact .inr (.inr (.inr rfl))
  | await hc | awaitWaiter hc =>
    exact .inl (Chan.mem_of_update (f := s.results) rfl (Chan.recv_some hc).2.1 hres)
  | _ => exact .inl hres

theorem Step.observed_cases (hs : Step s i x e) {c : Produced}
    (hc : c ∈ (e.shared.observed ch).sent) :
    c ∈ (s.observed ch).sent ∨ (∃ h, i = .forward h ch c) ∨
      (∃ h res, i = .forwardLast h ch c res) ∨ i = .failForward ch c := by
  induction hs with
  | forward =>
    rcases Chan.mem_update (f := s.observed) rfl Chan.mem_of_trySend hc with hold | ⟨rfl, rfl⟩
    · exact .inl hold
    · exact .inr (.inl ⟨_, rfl⟩)
  | forwardLast =>
    rcases Chan.mem_update (f := s.observed) rfl Chan.mem_of_trySend hc with hold | ⟨rfl, rfl⟩
    · exact .inl hold
    · exact .inr (.inr (.inl ⟨_, _, rfl⟩))
  | failForward =>
    rcases Chan.mem_update (f := s.observed) rfl Chan.mem_of_trySend hc with hold | ⟨rfl, rfl⟩
    · exact .inl hold
    · exact .inr (.inr (.inr rfl))
  | closeLast | failClose => exact .inl (Chan.mem_of_update (f := s.observed) rfl (by rfl) hc)
  | relay hrecv => exact .inl (Chan.mem_of_update (f := s.observed) rfl (Chan.recv_some hrecv).2.1 hc)
  | _ => exact .inl hc

theorem Step.results_grows (hs : Step s i x e) (ch : ℕ) :
    (s.results ch).Grows (e.shared.results ch) := by
  induction hs with
  | deliver hc | failDeliver hc | deliverWaiter hc =>
    exact Chan.Grows.update rfl (Chan.grows_of_send hc) ch
  | await hc | awaitWaiter hc => exact Chan.Grows.update rfl (Chan.grows_of_recv hc) ch
  | _ => exact .refl _

theorem Step.observed_grows (hs : Step s i x e) (ch : ℕ) :
    (s.observed ch).Grows (e.shared.observed ch) := by
  induction hs with
  | forward | forwardLast | failForward => exact Chan.Grows.update rfl (Chan.grows_trySend ..) ch
  | closeLast | failClose => exact Chan.Grows.update rfl (Chan.grows_close _) ch
  | relay hc => exact Chan.Grows.update rfl (Chan.grows_of_recv hc) ch
  | _ => exact .refl _

theorem Step.out_cases (hs : Step s i x e) {r : ℕ} {c : Produced}
    (hc : c ∈ (e.shared.out r).sent) :
    c ∈ (s.out r).sent ∨ ∃ h job ch, i = .emit h job ch c ∧ r = job.request := by
  induction hs with
  | emit hsend =>
    rcases Chan.mem_update (f := s.out) rfl (Chan.mem_of_send hsend) hc with hold | ⟨rfl, rfl⟩
    · exact .inl hold
    · exact .inr ⟨_, _, _, rfl, rfl⟩
  | closeOut => exact .inl (Chan.mem_of_update (f := s.out) rfl (by rfl) hc)
  | consume hrecv _ | consumeError hrecv _ =>
    exact .inl (Chan.mem_of_update (f := s.out) rfl (Chan.recv_some hrecv).2.1 hc)
  | _ => exact .inl hc

theorem Step.received_cases (hs : Step s i x e) {r : Receipt} (hr : r ∈ e.shared.received) :
    r ∈ s.received ∨
      (∃ job res, i = .finish .fast job (some res) ∧ r = ⟨job.request, res.sources⟩) ∨
      (∃ job ch, ∃ res ∈ (s.results ch).sent, i = .awaitWaiter job ch ∧
        r = ⟨job.request, res.sources⟩) ∨
      ∃ c ∈ (s.out r.request).sent, r.sources = c.source.toList := by
  induction hs with
  | finishFast job res =>
    exact (List.mem_cons.mp hr).symm.imp_right fun h ↦ .inl ⟨job, res, rfl, h⟩
  | @awaitWaiter job ch res c hc =>
    exact (List.mem_cons.mp hr).symm.imp_right
      fun h ↦ .inr (.inl ⟨job, ch, res, Chan.mem_of_recv hc, rfl, h⟩)
  | consume hc _ | consumeError hc _ =>
    rcases List.mem_cons.mp hr with rfl | hold
    · exact .inr (.inr (.inr ⟨_, Chan.mem_of_recv hc, rfl⟩))
    · exact .inl hold
  | _ => exact .inl hr

theorem Step.owner_cases (hs : Step s i x e) :
    e.shared.owner = s.owner ∨ ∃ header entropy model stream, i = .serve ∧
      x = .request header entropy model stream ∧
      e.shared.owner = Function.update s.owner (HttpApi.requestID header entropy) s.requests := by
  induction hs with
  | request header entropy model stream ho hjob =>
    exact .inr ⟨header, entropy, model, stream, rfl, rfl, by rw [hjob]⟩
  | _ => exact .inl rfl

end AgentGpu.ControlPlane
