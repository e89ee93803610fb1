import AgentGpu.ControlPlane.Machine

namespace AgentGpu.ControlPlane

open Foundation HttpApi

def Instr.entry : Instr → Bool
  | .register .. | .drain .. | .command _ (.pullModel _) | .command _ (.unloadModel _)
  | .close => true
  | _ => false

def Instr.mayQuit : Instr → Bool
  | .write _ | .reap .. | .drain .. | .command .. | .sendCommand .. | .pick .. | .finish .fast _ none
  | .resolveWaiter _ => true
  | _ => false

inductive Step (s : Server) : Instr → Choice → Effect Server Instr → Prop
  | tick (d : ℕ) : Step s .serve (.tick d) ⟨{ s with clock := s.clock + d }, [.serve], []⟩
  | enter {x : Choice} {i : Instr} (hi : i.entry) : Step s .serve x ⟨s, [.serve], [[i]]⟩
  | request (header : String) (entropy : Option (List UInt8)) (model : String) (stream : Bool)
      {o : Origin} (ho : o ≠ .queued) {job : Job}
      (hjob : job = ⟨requestID header entropy, model, s.requests⟩) :
      Step s .serve (.request header entropy model stream)
        ⟨{ s with requests := s.requests + 1,
                  owner := Function.update s.owner job.id s.requests }, [.serve], [[.pick o job]]⟩
  | hangUp (r : ℕ) : Step s .serve (.hangUp r)
      ⟨{ s with gone := Function.update s.gone r true }, [.serve], []⟩
  | quit {i : Instr} {x : Choice} (hi : i.mayQuit) : Step s i x ⟨s, [], []⟩
  -- Connect
  | register (id : String) (models : List Model) :
      Step s (.register id models) .go ⟨addWorker s id models, [.ack (s.nextSes + 1)], []⟩
  | ack {h : ℕ} {sessionID : String} {c : Chan ServerMessage}
      (hc : (s.worker h).send.send (.registerAck sessionID) = some c) :
      Step s (.ack h) .go ⟨s.setWorker h { s.worker h with send := c }, [.read h], [[.write h]]⟩
  | wrote {h : ℕ} {m : ServerMessage} {c : Chan ServerMessage}
      (hc : (s.worker h).send.recv = some (m, c)) (hm : ∀ job, m ≠ .job job) :
      Step s (.write h) .go ⟨s.setWorker h { s.worker h with send := c }, [.write h], []⟩
  | wroteJob {h : ℕ} {job : Job} {c : Chan ServerMessage}
      (hc : (s.worker h).send.recv = some (.job job, c)) :
      Step s (.write h) .go
        ⟨{ s.setWorker h { s.worker h with send := c } with
            assigned := Function.update s.assigned h (job :: s.assigned h) }, [.write h], []⟩
  | leave (h : ℕ) (x : Choice) : Step s (.read h) x ⟨s, [.unregister h .disconnected], []⟩
  | heartbeat (h : ℕ) (hb : Heartbeat) : Step s (.read h) (.message (.heartbeat hb))
      ⟨s.setWorker h ((s.worker h).applyHeartbeat hb s.clock), [.read h], []⟩
  | deregister (h : ℕ) : Step s (.read h) (.message .deregister)
      ⟨s.setWorker h (s.worker h).markDraining, [.read h], []⟩
  | result (h : ℕ) (res : Outcome) : Step s (.read h) (.message (.result res))
      ⟨retire s h res.result.jobID res.sources, [.resolve h res], []⟩
  | chunk {h : ℕ} {c : Produced} (hd : c.chunk.done = false)
      (hobs : (s.worker h).observers.lookup c.chunk.jobID = none) :
      Step s (.read h) (.message (.chunk c))
        ⟨s.setWorker h ((s.worker h).append c), [.read h], []⟩
  | chunkObserved {h ch : ℕ} {c : Produced} (hd : c.chunk.done = false)
      (hobs : (s.worker h).observers.lookup c.chunk.jobID = some ch) :
      Step s (.read h) (.message (.chunk c))
        ⟨s.setWorker h ((s.worker h).append c), [.forward h ch c], []⟩
  | lastChunk {h : ℕ} {c : Produced} (hd : c.chunk.done = true)
      (hobs : (s.worker h).observers.lookup c.chunk.jobID = none) :
      Step s (.read h) (.message (.chunk c))
        ⟨(retire s h c.chunk.jobID c.source.toList).setWorker h ((s.worker h).finish c),
          [.resolve h ((s.worker h).assemble c)], []⟩
  | lastChunkObserved {h ch : ℕ} {c : Produced} (hd : c.chunk.done = true)
      (hobs : (s.worker h).observers.lookup c.chunk.jobID = some ch) :
      Step s (.read h) (.message (.chunk c))
        ⟨(retire s h c.chunk.jobID c.source.toList).setWorker h ((s.worker h).finish c),
          [.forwardLast h ch c ((s.worker h).assemble c)], []⟩
  | forward (h ch : ℕ) (c : Produced) :
      Step s (.forward h ch c) .go ⟨s.forwardChunk ch c, [.read h], []⟩
  | forwardLast (h ch : ℕ) (c : Produced) (res : Outcome) :
      Step s (.forwardLast h ch c res) .go ⟨s.forwardChunk ch c, [.closeLast h ch res], []⟩
  | closeLast (h ch : ℕ) (res : Outcome) :
      Step s (.closeLast h ch res) .go ⟨s.closeObserver ch, [.resolve h res], []⟩
  | unknownJob {h : ℕ} {res : Outcome}
      (hp : (s.worker h).pending.lookup res.result.jobID = none) :
      Step s (.resolve h res) .go ⟨s, [.read h], []⟩
  | resolve {h ch : ℕ} {res : Outcome}
      (hp : (s.worker h).pending.lookup res.result.jobID = some ch) :
      Step s (.resolve h res) .go
        ⟨(s.disturb (some ch) res.sources).setWorker h
          ((s.worker h).deletePending res.result.jobID), [.deliver h ch res], []⟩
  | deliver {h ch : ℕ} {res : Outcome} {c : Chan Outcome} (hc : (s.results ch).send res = some c) :
      Step s (.deliver h ch res) .go ⟨s.setResult ch c, [.read h], []⟩
  | unregisterOther {h : ℕ} {cause : Cause} (hr : s.registered h = false) :
      Step s (.unregister h cause) .go ⟨s, [.fail h cause], []⟩
  | unregister {h : ℕ} {cause : Cause} (hr : s.registered h = true) :
      Step s (.unregister h cause) .go
        ⟨{ s with workers := s.workers.erase (s.worker h).id }, [.fail h cause], []⟩
  | fail {h : ℕ} {cause : Cause} {pending observers : List String}
      (hp : pending.Perm (s.worker h).pending.keys)
      (ho : observers.Perm (s.worker h).observers.keys) :
      Step s (.fail h cause) (.order pending observers)
        ⟨s.setWorker h (s.worker h).takeAll, failures (s.worker h) cause pending observers ++
          (if cause = .stale then [] else [.cancel h]), []⟩
  | failDeliver {ch : ℕ} {res : Outcome} {c : Chan Outcome}
      (hc : (s.results ch).send res = some c) :
      Step s (.failDeliver ch res) .go ⟨s.setResult ch c, [], []⟩
  | failForward (ch : ℕ) (c : Produced) :
      Step s (.failForward ch c) .go ⟨s.forwardChunk ch c, [.failClose ch], []⟩
  | failClose (ch : ℕ) : Step s (.failClose ch) .go ⟨s.closeObserver ch, [], []⟩
  | cancel (h : ℕ) : Step s (.cancel h) .go
      ⟨s.setWorker h { s.worker h with cancelled := true }, [], []⟩
  -- the eviction loop, drains and model commands
  | evictExit : Step s .evict .ctxDone ⟨{ s with evictDone := true }, [], []⟩
  | evict : Step s .evict .go ⟨s, [.evictScan s.clock], []⟩
  | evictScan {now : Time} {hs : List ℕ}
      (hhs : ∀ h ∈ hs, s.registered h ∧ (s.worker h).isStale now s.heartbeatTimeout) :
      Step s (.evictScan now) (.stale hs) ⟨s, hs.map (.unregister · .stale) ++ [.evict], []⟩
  | drain {id : String} {deadline : Duration} {h : ℕ} (hh : s.workers.lookup id = some h) :
      Step s (.drain id deadline) .go ⟨s, [.markDraining h deadline], []⟩
  | markDraining {h : ℕ} {deadline : Duration} {spawned : List (List Instr)}
      (hsp : spawned = [] ∨ spawned = [[.reap h (s.clock + deadline)]]) :
      Step s (.markDraining h deadline) .go
        ⟨s.setWorker h (s.worker h).markDraining, [], spawned⟩
  | reap (h : ℕ) (deadline : Time) (x : Choice) :
      Step s (.reap h deadline) x ⟨s, [.unregister h .evicted], []⟩
  | command {id : String} {m : ServerMessage} {h : ℕ} (hh : s.workers.lookup id = some h) :
      Step s (.command id m) .go ⟨s, [.sendCommand h m], []⟩
  | sendCommand {h : ℕ} {m : ServerMessage} {c : Chan ServerMessage}
      (hc : (s.worker h).send.send m = some c) :
      Step s (.sendCommand h m) .go ⟨s.setWorker h { s.worker h with send := c }, [], []⟩
  -- submit and dispatchTo
  | pick {o : Origin} {job : Job} {h : ℕ} (ho : o ≠ .stream) (hh : s.pickable h) :
      Step s (.pick o job) (.worker h) ⟨s, [.addPending o h job], []⟩
  | pickStream {job : Job} {h : ℕ} (hh : s.pickable h) :
      Step s (.pick .stream job) (.worker h) ⟨s, [.addObserver h job], []⟩
  | pickNone (o : Origin) (job : Job) (priority : ℕ) :
      Step s (.pick o job) (.noWorker priority) ⟨s, [.addWaiter job priority], []⟩
  | addPending (o : Origin) (h : ℕ) (job : Job) :
      Step s (.addPending o h job) .go
        ⟨((s.disturb ((s.worker h).pending.lookup job.id) [job.request]).newChan h job).setWorker h
          ((s.worker h).addPending job.id s.nextChan), [.send o h job s.nextChan], []⟩
  | send {o : Origin} {h ch : ℕ} {job : Job} {c : Chan ServerMessage}
      (hc : (s.worker h).send.send (.job job) = some c) :
      Step s (.send o h job ch) .go
        ⟨s.setWorker h { s.worker h with send := c }, [.await o h job ch], []⟩
  | sendGone {o : Origin} {job : Job} (h ch : ℕ) (hd : ctxDone s o job) :
      Step s (.send o h job ch) .ctxDone ⟨s.deletePending h job, [.finish o job none], []⟩
  | awaitGone {o : Origin} {job : Job} (h ch : ℕ) (hd : ctxDone s o job) :
      Step s (.await o h job ch) .ctxDone ⟨s.deletePending h job, [.finish o job none], []⟩
  | await {o : Origin} {h ch : ℕ} {job : Job} {res : Outcome} {c : Chan Outcome}
      (hc : (s.results ch).recv = some (res, c)) :
      Step s (.await o h job ch) .go ⟨s.setResult ch c, [.finish o job (some res)], []⟩
  | finishFast (job : Job) (res : Outcome) : Step s (.finish .fast job (some res)) .go
      ⟨s.receive job.request res.sources, [], []⟩
  | finishQueued (job : Job) (res : Option Outcome) : Step s (.finish .queued job res) .go
      ⟨s, [.resolveWaiter (placedResult job res)], []⟩
  | finishStream {job : Job} {res : Option Outcome} {c : Chan Outcome}
      (hc : (s.finished job.request).send (res.getD ⟨{}, []⟩) = some c) :
      Step s (.finish .stream job res) .go
        ⟨{ s with finished := Function.update s.finished job.request c }, [], []⟩
  | addWaiter (job : Job) (priority : ℕ) : Step s (.addWaiter job priority) .go
      ⟨{ (s.disturb (s.waiters.lookup job.id) [job.request]).newChan 0 job with
          waiters := s.waiters.insert job.id s.nextChan }, [.enqueue job priority s.nextChan], []⟩
  | queueFull (job : Job) (priority ch : ℕ) :
      Step s (.enqueue job priority ch) .go ⟨s, [.removeWaiter job], []⟩
  | enqueue (job : Job) (priority ch : ℕ) : Step s (.enqueue job priority ch) .go
      ⟨{ s with queue := ⟨job, priority, s.seq⟩ :: s.queue, seq := s.seq + 1 },
        [.awaitWaiter job ch], []⟩
  | waiterGone (job : Job) (ch : ℕ) :
      Step s (.awaitWaiter job ch) .ctxDone ⟨s, [.removeWaiter job], []⟩
  | awaitWaiter {job : Job} {ch : ℕ} {res : Outcome} {c : Chan Outcome}
      (hc : (s.results ch).recv = some (res, c)) :
      Step s (.awaitWaiter job ch) .go
        ⟨(s.setResult ch c).receive job.request res.sources, [], []⟩
  | removeWaiter (job : Job) : Step s (.removeWaiter job) .go ⟨s.removeWaiter job, [], []⟩
  -- the placement loop
  | dequeue {item : Item} (hi : nextItem s.queue = some item) :
      Step s .place .go ⟨{ s with queue := s.queue.erase item }, [.placeItem item, .place], []⟩
  | placeExit : Step s .place .go ⟨{ s with placeDone := true }, [], []⟩
  | placeAt {item : Item} {h : ℕ} (hh : s.pickable h) :
      Step s (.placeItem item) (.worker h) ⟨s, [.addPending .queued h item.job], []⟩
  | placePark (item : Item) (priority : ℕ) :
      Step s (.placeItem item) (.noWorker priority) ⟨s, [.placeItem item], []⟩
  | placeStop (item : Item) : Step s (.placeItem item) .ctxDone
      ⟨s, [.resolveWaiter ⟨{ jobID := item.job.id, err := some shuttingDown },
        [item.job.request]⟩], []⟩
  | resolveWaiter {res : Outcome} {ch : ℕ} (hw : s.waiters.lookup res.result.jobID = some ch) :
      Step s (.resolveWaiter res) .go
        ⟨{ s.disturb (some ch) res.sources with waiters := s.waiters.erase res.result.jobID },
          [.deliverWaiter ch res], []⟩
  | deliverWaiter {ch : ℕ} {res : Outcome} {c : Chan Outcome}
      (hc : (s.results ch).send res = some c) :
      Step s (.deliverWaiter ch res) .go ⟨s.setResult ch c, [], []⟩
  -- SubmitAuthorizedJobStream
  | addObserver (h : ℕ) (job : Job) : Step s (.addObserver h job) .go
      ⟨((s.disturb ((s.worker h).observers.lookup job.id) [job.request]).newChan h job).setWorker h
        ((s.worker h).addObserver job.id s.nextChan), [],
        [[.relay h job s.nextChan], [.addPending .stream h job], [.consume job.request]]⟩
  | relayGone {job : Job} (h ch : ℕ) (hg : s.gone job.request) :
      Step s (.relay h job ch) .ctxDone ⟨s.removeObserver h job, [.closeOut job], []⟩
  | relayEnd {job : Job} {h ch : ℕ} (hd : (s.observed ch).drained) :
      Step s (.relay h job ch) .go ⟨s, [.settle job], []⟩
  | relay {job : Job} {h ch : ℕ} {c : Produced} {chan : Chan Produced}
      (hc : (s.observed ch).recv = some (c, chan)) :
      Step s (.relay h job ch) .go ⟨s.setObserved ch chan, [.emit h job ch c], []⟩
  | emitGone {job : Job} (h ch : ℕ) (c : Produced) (hg : s.gone job.request) :
      Step s (.emit h job ch c) .ctxDone ⟨s.removeObserver h job, [.closeOut job], []⟩
  | emit {job : Job} {h ch : ℕ} {c : Produced} {chan : Chan Produced}
      (hc : (s.out job.request).send c = some chan) :
      Step s (.emit h job ch c) .go
        ⟨{ s with out := Function.update s.out job.request chan }, [.relay h job ch], []⟩
  | settle {job : Job} {res : Outcome} {c : Chan Outcome}
      (hc : (s.finished job.request).recv = some (res, c)) :
      Step s (.settle job) .go
        ⟨{ s with finished := Function.update s.finished job.request c }, [.closeOut job], []⟩
  | closeOut (job : Job) : Step s (.closeOut job) .go
      ⟨{ s with out := Function.update s.out job.request (s.out job.request).close }, [], []⟩
  | consumeEnd {r : ℕ} (hd : (s.out r).drained) : Step s (.consume r) .go
      ⟨{ s with gone := Function.update s.gone r true }, [], []⟩
  | consume {r : ℕ} {c : Produced} {chan : Chan Produced} (hc : (s.out r).recv = some (c, chan))
      (he : c.chunk.err = none) : Step s (.consume r) .go
      ⟨{ s.receive r c.source.toList with out := Function.update s.out r chan }, [.consume r], []⟩
  | consumeError {r : ℕ} {c : Produced} {chan : Chan Produced}
      (hc : (s.out r).recv = some (c, chan)) (he : c.chunk.err ≠ none) : Step s (.consume r) .go
      ⟨{ s.receive r c.source.toList with
          out := Function.update s.out r chan, gone := Function.update s.gone r true }, [], []⟩
  -- Close
  | close : Step s .close .go ⟨{ s with evictStop := true }, [.awaitEvict], []⟩
  | awaitEvict : Step s .awaitEvict .go ⟨s, [.closePlace], []⟩
  | closePlace : Step s .closePlace .go ⟨{ s with placeStop := true }, [.closeQueue], []⟩
  | closeQueue : Step s .closeQueue .go ⟨{ s with queueClosed := true }, [.awaitPlace], []⟩
  | awaitPlace : Step s .awaitPlace .go ⟨s, [.failWaiters], []⟩
  | failWaiters {ids other : List String} (hids : ids.Perm s.waiters.keys) :
      Step s .failWaiters (.order ids other)
        ⟨{ s with waiters := ∅ }, ids.filterMap fun id ↦ (s.waiters.lookup id).map fun ch ↦
          .deliverWaiter ch ⟨{ jobID := id, err := some shuttingDown }, []⟩, []⟩

variable {s : Server} {i : Instr} {x : Choice} {e : Effect Server Instr}

theorem forall_fresh_enter {P : Instr → Prop} {k : Instr} (hk : k.entry) (hserve : P .serve)
    (hregister : ∀ id models, P (.register id models)) (hdrain : ∀ id deadline, P (.drain id deadline))
    (hcommand : ∀ id m, P (.command id m)) (hclose : P .close) :
    ∀ j ∈ (⟨s, [.serve], [[k]]⟩ : Effect Server Instr).fresh, P j := by
  have hfirst : P k := by
    cases k with
    | register id models => exact hregister id models
    | drain id deadline => exact hdrain id deadline
    | command id m => exact hcommand id m
    | close => exact hclose
    | _ => cases hk
  exact Effect.forall_fresh_spawn hserve hfirst

theorem step_of_serve (h : serve s x = some e) : Step s .serve x e := by
  unfold serve at h
  split at h
  · cases h
    exact .tick _
  · split at h <;> cases h
    exact .enter rfl
  · cases h
    refine .request _ _ _ _ ?_ ?_
    · split <;> simp
    · rw [jobIDFor_requestID]
  · cases h
    exact .hangUp _
  · cases h
    exact .enter rfl
  · split at h <;> cases h
    all_goals exact .enter rfl
  · cases h
    exact .enter rfl
  · cases h

theorem step_of_message (s : Server) (h : ℕ) (m : WorkerMessage) :
    Step s (.read h) (.message m) (handleMessage s h m) := by
  cases m with
  | heartbeat hb => exact .heartbeat h hb
  | deregister => exact .deregister h
  | result res => exact .result h res
  | chunk c =>
    cases hd : c.chunk.done with
    | true =>
      cases hobs : (s.worker h).observers.lookup c.chunk.jobID with
      | none => simpa [handleMessage, hd, hobs] using Step.lastChunk hd hobs
      | some ch => simpa [handleMessage, hd, hobs] using Step.lastChunkObserved hd hobs
    | false =>
      cases hobs : (s.worker h).observers.lookup c.chunk.jobID with
      | none => simpa [handleMessage, hd, hobs] using Step.chunk hd hobs
      | some ch => simpa [handleMessage, hd, hobs] using Step.chunkObserved hd hobs

theorem step_of_stream (h : execStream s i x = some e) : Step s i x e := by
  unfold execStream at h
  split at h
  · cases h
    exact .register _ _
  · obtain ⟨c, hc, rfl⟩ := Option.map_eq_some_iff.mp h
    exact .ack hc
  · split at h <;> cases h
    exact .quit rfl
  · cases h
    exact .quit rfl
  · obtain ⟨⟨m, c⟩, hc, rfl⟩ := Option.map_eq_some_iff.mp h
    cases m with
    | job job => exact .wroteJob hc
    | _ => exact .wrote hc (by simp)
  · split at h <;> cases h
    exact .leave _ _
  · cases h
    exact .leave _ _
  · cases h
    exact step_of_message _ _ _
  · cases h
    exact .forward _ _ _
  · cases h
    exact .forwardLast _ _ _ _
  · cases h
    exact .closeLast _ _ _
  · split at h
    · next hp =>
      cases h
      exact .unknownJob hp
    · next hp =>
      cases h
      exact .resolve hp
  · obtain ⟨c, hc, rfl⟩ := Option.map_eq_some_iff.mp h
    exact .deliver hc
  · next w cause =>
    cases hr : s.registered w with
    | true =>
      rw [if_pos hr] at h
      cases h
      exact .unregister hr
    | false =>
      rw [if_neg (by simp [hr])] at h
      cases h
      exact .unregisterOther hr
  · split at h
    · next hperm =>
      cases h
      exact .fail hperm.1 hperm.2
    · cases h
  · obtain ⟨c, hc, rfl⟩ := Option.map_eq_some_iff.mp h
    exact .failDeliver hc
  · cases h
    exact .failForward _ _
  · cases h
    exact .failClose _
  · cases h
    exact .cancel _
  · cases h

theorem step_of_admin (h : execAdmin s i x = some e) : Step s i x e := by
  unfold execAdmin at h
  split at h
  · split at h <;> cases h
    exact .evictExit
  · cases h
    exact .evict
  · split at h
    · next hall =>
      cases h
      refine .evictScan fun w hw ↦ ?_
      have := List.all_eq_true.mp hall w hw
      simpa only [Bool.and_eq_true] using this
    · cases h
  · next id deadline =>
    cases hh : s.workers.lookup id with
    | none =>
      rw [hh] at h
      cases h
      exact .quit rfl
    | some w =>
      rw [hh] at h
      cases h
      exact .drain hh
  · cases h
    refine .markDraining ?_
    split
    · exact .inl rfl
    · exact .inr rfl
  · split at h <;> cases h
    exact .quit rfl
  · split at h <;> cases h
    exact .reap _ _ _
  · split at h <;> cases h
    exact .reap _ _ _
  · next id m =>
    cases hh : s.workers.lookup id with
    | none =>
      rw [hh] at h
      cases h
      exact .quit rfl
    | some w =>
      rw [hh] at h
      cases h
      exact .command hh
  · obtain ⟨c, hc, rfl⟩ := Option.map_eq_some_iff.mp h
    exact .sendCommand hc
  · cases h
    exact .quit rfl
  · cases h

theorem step_of_submit (h : execSubmit s i x = some e) : Step s i x e := by
  unfold execSubmit at h
  split at h
  · cases h
    exact .quit rfl
  · next o job w =>
    split at h
    · next hw =>
      cases h
      by_cases ho : o = .stream
      · subst ho
        exact .pickStream hw
      · rw [if_neg ho]
        exact .pick ho hw
    · cases h
  · next o job priority =>
    cases h
    split
    · exact .quit rfl
    · exact .pickNone _ _ _
  · cases h
    exact .addPending _ _ _
  · obtain ⟨c, hc, rfl⟩ := Option.map_eq_some_iff.mp h
    exact .send hc
  · split at h
    · next hd =>
      cases h
      exact .sendGone _ _ hd
    · cases h
  · obtain ⟨⟨res, c⟩, hc, rfl⟩ := Option.map_eq_some_iff.mp h
    exact .await hc
  · split at h
    · next hd =>
      cases h
      exact .awaitGone _ _ hd
    · cases h
  · next job res =>
    cases h
    cases res with
    | none => exact .quit rfl
    | some res => exact .finishFast job res
  · cases h
    exact .finishQueued _ _
  · obtain ⟨c, hc, rfl⟩ := Option.map_eq_some_iff.mp h
    exact .finishStream hc
  · cases h
    exact .addWaiter _ _
  · split at h <;> cases h
    · exact .queueFull _ _ _
    · exact .enqueue _ _ _
  · split at h <;> cases h
    exact .waiterGone _ _
  · obtain ⟨⟨res, c⟩, hc, rfl⟩ := Option.map_eq_some_iff.mp h
    exact .awaitWaiter hc
  · cases h
    exact .removeWaiter _
  · cases h

theorem step_of_place (h : execPlace s i x = some e) : Step s i x e := by
  unfold execPlace at h
  split at h
  · split at h
    · next hi =>
      cases h
      exact .dequeue hi
    · split at h <;> cases h
      exact .placeExit
  · split at h
    · next hw =>
      cases h
      exact .placeAt hw
    · cases h
  · cases h
    exact .placePark _ _
  · split at h <;> cases h
    exact .placeStop _
  · split at h
    · cases h
      exact .quit rfl
    · next hw =>
      cases h
      exact .resolveWaiter hw
  · obtain ⟨c, hc, rfl⟩ := Option.map_eq_some_iff.mp h
    exact .deliverWaiter hc
  · cases h

theorem step_of_relay (h : execRelay s i x = some e) : Step s i x e := by
  unfold execRelay at h
  split at h
  · cases h
    exact .addObserver _ _
  · split at h
    · next hg =>
      cases h
      exact .relayGone _ _ hg
    · cases h
  · split at h
    · next hd =>
      cases h
      exact .relayEnd hd
    · obtain ⟨⟨c, chan⟩, hc, rfl⟩ := Option.map_eq_some_iff.mp h
      exact .relay hc
  · split at h
    · next hg =>
      cases h
      exact .emitGone _ _ _ hg
    · cases h
  · obtain ⟨chan, hc, rfl⟩ := Option.map_eq_some_iff.mp h
    exact .emit hc
  · obtain ⟨⟨res, c⟩, hc, rfl⟩ := Option.map_eq_some_iff.mp h
    exact .settle hc
  · cases h
    exact .closeOut _
  · split at h
    · next hd =>
      cases h
      exact .consumeEnd hd
    · obtain ⟨⟨c, chan⟩, hc, rfl⟩ := Option.map_eq_some_iff.mp h
      dsimp only
      split
      · next he => exact .consume hc he
      · next he => exact .consumeError hc he
  · cases h

theorem step_of_close (h : execClose s i x = some e) : Step s i x e := by
  unfold execClose at h
  split at h
  · cases h
    exact .close
  · split at h <;> cases h
    exact .awaitEvict
  · cases h
    exact .closePlace
  · cases h
    exact .closeQueue
  · split at h <;> cases h
    exact .awaitPlace
  · split at h
    · next hids =>
      cases h
      exact .failWaiters hids
    · cases h
  · cases h

theorem step_of_exec (h : controlPlane.exec s i x = some e) : Step s i x e := by
  cases i with
  | serve => exact step_of_serve h
  | register | ack | write | read | forward | forwardLast | closeLast | resolve | deliver
  | unregister | fail | failDeliver | failForward | failClose | cancel => exact step_of_stream h
  | evict | evictScan | drain | markDraining | reap | command | sendCommand =>
    exact step_of_admin h
  | pick | addPending | send | await | finish | addWaiter | enqueue | awaitWaiter
  | removeWaiter => exact step_of_submit h
  | place | placeItem | resolveWaiter | deliverWaiter => exact step_of_place h
  | addObserver | relay | emit | settle | closeOut | consume => exact step_of_relay h
  | close | awaitEvict | closePlace | closeQueue | awaitPlace | failWaiters =>
    exact step_of_close h

end AgentGpu.ControlPlane
