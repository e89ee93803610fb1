import AgentGpu.ControlPlane.Streams

namespace AgentGpu.ControlPlane

open Foundation HttpApi

/-- What `i` is and found when it leaves an instruction to be done: `Step`, read from what comes
next. -/
def Instr.Leaves (s : Server) (i : Instr) (x : Choice) : Instr → Prop
  | .serve | .register .. | .drain .. | .command .. | .close => i = .serve
  | .pick o job => i = .serve ∧ o ≠ .queued ∧ ∃ header entropy model stream,
      x = .request header entropy model stream ∧ job = ⟨requestID header entropy, model, s.requests⟩
  -- Connect
  | .ack h => h = s.nextSes + 1 ∧ ∃ id models, i = .register id models
  | .write h => i = .ack h ∨ i = .write h
  | .read h => i = .ack h ∨ i = .read h ∨ (∃ ch c, i = .forward h ch c) ∨ (∃ res, i = .resolve h res) ∨
      ∃ ch res, i = .deliver h ch res
  | .forward h ch c => i = .read h ∧ x = .message (.chunk c) ∧ c.chunk.done = false ∧
      (s.worker h).observers.lookup c.chunk.jobID = some ch
  | .forwardLast h ch c res => i = .read h ∧ x = .message (.chunk c) ∧ c.chunk.done ∧
      (s.worker h).observers.lookup c.chunk.jobID = some ch ∧ res = (s.worker h).assemble c
  | .closeLast h ch res => ∃ c, i = .forwardLast h ch c res
  | .resolve h res => (i = .read h ∧ x = .message (.result res)) ∨
      (∃ c, i = .read h ∧ x = .message (.chunk c) ∧ c.chunk.done ∧ res = (s.worker h).assemble c) ∨
      ∃ ch, i = .closeLast h ch res
  | .deliver h ch res => i = .resolve h res ∧ (s.worker h).pending.lookup res.result.jobID = some ch
  | .unregister h .disconnected => i = .read h
  | .unregister h .stale => ∃ now, i = .evictScan now ∧ s.registered h
  | .unregister h .evicted => ∃ deadline, i = .reap h deadline
  | .fail h cause => i = .unregister h cause
  | .failDeliver ch res => ∃ h cause id, i = .fail h cause ∧ (s.worker h).pending.lookup id = some ch ∧
      res = ⟨{ jobID := id, err := some cause.err }, []⟩
  | .failForward ch c => ∃ h cause id, i = .fail h cause ∧
      (s.worker h).observers.lookup id = some ch ∧
      c = ⟨{ jobID := id, done := true, err := some cause.err }, none⟩
  | .failClose ch => ∃ c, i = .failForward ch c
  | .cancel h => ∃ cause, i = .fail h cause
  -- the eviction loop, drains and model commands
  | .evict => ∃ now, i = .evictScan now
  | .evictScan now => i = .evict ∧ now = s.clock
  | .markDraining h deadline => ∃ id, i = .drain id deadline ∧ s.workers.lookup id = some h
  | .reap h deadline => ∃ d, i = .markDraining h d ∧ deadline = s.clock + d
  | .sendCommand h m => ∃ id, i = .command id m ∧ s.workers.lookup id = some h
  -- submit and dispatchTo
  | .addPending o h job => (i = .pick o job ∧ o ≠ .stream ∧ s.pickable h) ∨
      (∃ item, i = .placeItem item ∧ o = .queued ∧ job = item.job ∧ s.pickable h) ∨
      (i = .addObserver h job ∧ o = .stream)
  | .send o h job ch => i = .addPending o h job ∧ ch = s.nextChan
  | .await o h job ch => i = .send o h job ch ∧ x = .go
  | .finish o job res => (∃ h ch, i = .send o h job ch ∧ x = .ctxDone ∧ res = none) ∨
      ∃ h ch, i = .await o h job ch
  | .addWaiter job priority => ∃ o, i = .pick o job ∧ x = .noWorker priority
  | .enqueue job priority ch => i = .addWaiter job priority ∧ ch = s.nextChan
  | .awaitWaiter job ch => ∃ priority, i = .enqueue job priority ch
  | .removeWaiter job => (∃ priority ch, i = .enqueue job priority ch) ∨ ∃ ch, i = .awaitWaiter job ch
  -- the placement loop
  | .place => i = .place
  | .placeItem item => (i = .place ∧ nextItem s.queue = some item) ∨ i = .placeItem item
  | .resolveWaiter res => (∃ job r, i = .finish .queued job r ∧ res = placedResult job r) ∨
      ∃ item, i = .placeItem item ∧
        res = ⟨{ jobID := item.job.id, err := some shuttingDown }, [item.job.request]⟩
  | .deliverWaiter ch res =>
      (i = .resolveWaiter res ∧ s.waiters.lookup res.result.jobID = some ch) ∨
      ∃ id, i = .failWaiters ∧ s.waiters.lookup id = some ch ∧
        res = ⟨{ jobID := id, err := some shuttingDown }, []⟩
  -- SubmitAuthorizedJobStream
  | .addObserver h job => i = .pick .stream job ∧ s.pickable h
  | .relay h job ch => (i = .addObserver h job ∧ ch = s.nextChan) ∨ ∃ c, i = .emit h job ch c ∧ x = .go
  | .emit h job ch _ => i = .relay h job ch ∧ x = .go
  | .settle job => ∃ h ch, i = .relay h job ch ∧ x = .go
  | .closeOut job => (∃ h ch, i = .relay h job ch) ∨ (∃ h ch c, i = .emit h job ch c) ∨ i = .settle job
  | .consume r => i = .consume r ∨ ∃ h job, i = .addObserver h job ∧ job.request = r
  -- Close
  | .awaitEvict => i = .close
  | .closePlace => i = .awaitEvict
  | .closeQueue => i = .closePlace
  | .awaitPlace => i = .closeQueue
  | .failWaiters => i = .awaitPlace

variable {s : Server} {i : Instr} {x : Choice} {e : Effect Server Instr}

theorem Step.leaves (hs : Step s i x e) : ∀ j ∈ e.fresh, i.Leaves s x j := by
  induction hs with
  | enter hk => exact forall_fresh_enter hk rfl (fun _ _ ↦ rfl) (fun _ _ ↦ rfl) (fun _ _ ↦ rfl) rfl
  | request header entropy model stream ho hjob =>
    exact Effect.forall_fresh_spawn rfl ⟨rfl, ho, header, entropy, model, stream, rfl, hjob⟩
  | @fail h cause =>
    refine Effect.forall_fresh_next (forall_fail ?_ ?_ ⟨cause, rfl⟩)
    · exact fun id ch hl ↦ ⟨h, cause, id, rfl, hl, rfl⟩
    · exact fun id ch hl ↦ ⟨h, cause, id, rfl, hl, rfl⟩
  | evictScan hhs =>
    exact Effect.forall_fresh_next (forall_evictScan (fun h hh ↦ ⟨_, rfl, (hhs h hh).1⟩) ⟨_, rfl⟩)
  | markDraining hsp => exact forall_fresh_markDraining hsp ⟨_, rfl, rfl⟩
  | failWaiters =>
    exact Effect.forall_fresh_next (forall_failWaiters fun id ch hl ↦ .inr ⟨id, rfl, hl, rfl⟩)
  | dequeue hitem =>
    refine Effect.forall_fresh_next (List.forall_mem_cons.mpr ⟨.inl ⟨rfl, hitem⟩, ?_⟩)
    exact List.forall_mem_singleton.mpr rfl
  | ack => exact Effect.forall_fresh_spawn (.inl rfl) (.inl rfl)
  | addObserver h job =>
    refine Effect.forall_fresh.mpr ⟨List.forall_mem_nil _, ?_⟩
    simp only [List.forall_mem_cons, List.not_mem_nil, false_imp_iff, implies_true, and_true]
    exact ⟨.inl ⟨rfl, rfl⟩, .inr (.inr ⟨rfl, rfl⟩), .inr ⟨h, job, rfl, rfl⟩⟩
  | register => exact Effect.forall_fresh_singleton ⟨rfl, _, _, rfl⟩
  | heartbeat | deregister | chunk => exact Effect.forall_fresh_singleton (.inr (.inl rfl))
  | forward => exact Effect.forall_fresh_singleton (.inr (.inr (.inl ⟨_, _, rfl⟩)))
  | unknownJob => exact Effect.forall_fresh_singleton (.inr (.inr (.inr (.inl ⟨_, rfl⟩))))
  | deliver => exact Effect.forall_fresh_singleton (.inr (.inr (.inr (.inr ⟨_, _, rfl⟩))))
  | chunkObserved hd hobs => exact Effect.forall_fresh_singleton ⟨rfl, rfl, hd, hobs⟩
  | lastChunkObserved hd hobs => exact Effect.forall_fresh_singleton ⟨rfl, rfl, hd, hobs, rfl⟩
  | result => exact Effect.forall_fresh_singleton (.inl ⟨rfl, rfl⟩)
  | lastChunk hd => exact Effect.forall_fresh_singleton (.inr (.inl ⟨_, rfl, rfl, hd, rfl⟩))
  | closeLast => exact Effect.forall_fresh_singleton (.inr (.inr ⟨_, rfl⟩))
  | resolve hl | pickStream hl => exact Effect.forall_fresh_singleton ⟨rfl, hl⟩
  | drain hl | command hl => exact Effect.forall_fresh_singleton ⟨_, rfl, hl⟩
  | pick ho hh => exact Effect.forall_fresh_singleton (.inl ⟨rfl, ho, hh⟩)
  | placeAt hh => exact Effect.forall_fresh_singleton (.inr (.inl ⟨_, rfl, rfl, rfl, hh⟩))
  | pickNone => exact Effect.forall_fresh_singleton ⟨_, rfl, rfl⟩
  | sendGone => exact Effect.forall_fresh_singleton (.inl ⟨_, _, rfl, rfl, rfl⟩)
  | awaitGone | await => exact Effect.forall_fresh_singleton (.inr ⟨_, _, rfl⟩)
  | finishQueued => exact Effect.forall_fresh_singleton (.inl ⟨_, _, rfl, rfl⟩)
  | queueFull | relayGone => exact Effect.forall_fresh_singleton (.inl ⟨_, _, rfl⟩)
  | waiterGone => exact Effect.forall_fresh_singleton (.inr ⟨_, rfl⟩)
  | placeStop | emit => exact Effect.forall_fresh_singleton (.inr ⟨_, rfl, rfl⟩)
  | resolveWaiter hw => exact Effect.forall_fresh_singleton (.inl ⟨rfl, hw⟩)
  | relayEnd => exact Effect.forall_fresh_singleton ⟨_, _, rfl, rfl⟩
  | emitGone => exact Effect.forall_fresh_singleton (.inr (.inl ⟨_, _, _, rfl⟩))
  | settle => exact Effect.forall_fresh_singleton (.inr (.inr rfl))
  | consume => exact Effect.forall_fresh_singleton (.inl rfl)
  | wrote | wroteJob | placePark => exact Effect.forall_fresh_singleton (.inr rfl)
  | evict | addPending | send | addWaiter | relay => exact Effect.forall_fresh_singleton ⟨rfl, rfl⟩
  | forwardLast | failForward | reap | enqueue => exact Effect.forall_fresh_singleton ⟨_, rfl⟩
  | _ =>
    first
    | exact Effect.forall_fresh_singleton rfl
    | exact Effect.forall_fresh_nil

end AgentGpu.ControlPlane
