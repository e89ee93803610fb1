import AgentGpu.Foundation.Goroutines
import AgentGpu.HttpApi.RequestId
import AgentGpu.ControlPlane.Worker

namespace AgentGpu.ControlPlane

open Foundation

structure Item where
  job : Job
  priority : ℕ := 1
  seq : ℕ := 0
  deriving DecidableEq

def Item.before (a b : Item) : Bool :=
  if a.priority = b.priority then a.seq < b.seq else a.priority > b.priority

def nextItem : List Item → Option Item
  | [] => none
  | a :: rest =>
    match nextItem rest with
    | none => some a
    | some b => if b.before a then some b else some a

/-- What a caller has got: a result or a chunk, by the requests it was produced for. -/
structure Receipt where
  request : ℕ
  sources : List ℕ
  deriving DecidableEq

structure Server where
  clock : Time := 0
  heartbeatTimeout : Duration := 45 * second
  maxDepth : ℕ := 0
  workers : Table String ℕ := ∅
  nextSes : ℕ := 0
  /-- The worker structs, by session number. -/
  worker : ℕ → Worker := fun _ ↦ {}
  waiters : Table String ℕ := ∅
  queue : List Item := []
  seq : ℕ := 0
  queueClosed : Bool := false
  evictStop : Bool := false
  evictDone : Bool := false
  placeStop : Bool := false
  placeDone : Bool := false
  nextChan : ℕ := 0
  results : ℕ → Chan Outcome := fun _ ↦ .make _ 1
  observed : ℕ → Chan Produced := fun _ ↦ .make _ 64
  /-- For each streaming request, the channel the caller reads and the dispatch result. -/
  out : ℕ → Chan Produced := fun _ ↦ .make _ 64
  finished : ℕ → Chan Outcome := fun _ ↦ .make _ 1
  requests : ℕ := 0
  /-- The request's context is done. -/
  gone : ℕ → Bool := fun _ ↦ false
  -- history, read by no instruction
  owner : String → ℕ := fun _ ↦ 0
  jobOf : ℕ → Job := fun _ ↦ ⟨"", "", 0⟩
  home : ℕ → ℕ := fun _ ↦ 0
  assigned : ℕ → List Job := fun _ ↦ []
  received : List Receipt := []
  lost : List (ℕ × ℕ) := []
  panicked : Bool := false

inductive Cause
  | disconnected
  | stale
  | evicted
  deriving DecidableEq

def Cause.err : Cause → JobError
  | .disconnected => ⟨"worker_disconnected", "worker stream closed"⟩
  | .stale => ⟨"worker_stale", "worker missed heartbeats"⟩
  | .evicted => ⟨"worker_evicted", "worker drained and evicted"⟩

def shuttingDown : JobError := ⟨"shutting_down", "server shutting down"⟩

inductive Origin
  | fast
  | queued
  | stream
  deriving DecidableEq

inductive Instr
  | serve
  -- Connect
  | register (id : String) (models : List Model)
  | ack (h : ℕ)
  | write (h : ℕ)
  | read (h : ℕ)
  | forward (h ch : ℕ) (c : Produced)
  | forwardLast (h ch : ℕ) (c : Produced) (res : Outcome)
  | closeLast (h ch : ℕ) (res : Outcome)
  | resolve (h : ℕ) (res : Outcome)
  | deliver (h ch : ℕ) (res : Outcome)
  | unregister (h : ℕ) (cause : Cause)
  | fail (h : ℕ) (cause : Cause)
  | failDeliver (ch : ℕ) (res : Outcome)
  | failForward (ch : ℕ) (c : Produced)
  | failClose (ch : ℕ)
  | cancel (h : ℕ)
  -- the eviction loop, drains and model commands
  | evict
  | evictScan (now : Time)
  | drain (id : String) (deadline : Duration)
  | markDraining (h : ℕ) (deadline : Duration)
  | reap (h : ℕ) (deadline : Time)
  | command (id : String) (m : ServerMessage)
  | sendCommand (h : ℕ) (m : ServerMessage)
  -- submit and dispatchTo
  | pick (o : Origin) (job : Job)
  | addPending (o : Origin) (h : ℕ) (job : Job)
  | send (o : Origin) (h : ℕ) (job : Job) (ch : ℕ)
  | await (o : Origin) (h : ℕ) (job : Job) (ch : ℕ)
  | finish (o : Origin) (job : Job) (res : Option Outcome)
  | addWaiter (job : Job) (priority : ℕ)
  | enqueue (job : Job) (priority ch : ℕ)
  | awaitWaiter (job : Job) (ch : ℕ)
  | removeWaiter (job : Job)
  -- the placement loop
  | place
  | placeItem (item : Item)
  | resolveWaiter (res : Outcome)
  | deliverWaiter (ch : ℕ) (res : Outcome)
  -- SubmitAuthorizedJobStream
  | addObserver (h : ℕ) (job : Job)
  | relay (h : ℕ) (job : Job) (ch : ℕ)
  | emit (h : ℕ) (job : Job) (ch : ℕ) (c : Produced)
  | settle (job : Job)
  | closeOut (job : Job)
  | consume (request : ℕ)
  -- Close
  | close
  | awaitEvict
  | closePlace
  | closeQueue
  | awaitPlace
  | failWaiters
  deriving DecidableEq

inductive WorkerMessage
  | heartbeat (hb : Heartbeat)
  | result (res : Outcome)
  | chunk (c : Produced)
  | deregister
  deriving DecidableEq

inductive Choice
  | go
  | ctxDone
  | tick (d : ℕ)
  | connect (id : String) (models : List Model)
  | request (header : String) (entropy : Option (List UInt8)) (model : String) (stream : Bool)
  | hangUp (request : ℕ)
  | drain (id : String) (deadline : Duration)
  | command (id : String) (m : ServerMessage)
  | close
  | message (m : WorkerMessage)
  | streamEnd
  | order (first second : List String)
  | stale (hs : List ℕ)
  | timer
  | ticker
  | worker (h : ℕ)
  | noWorker (priority : ℕ)
  | unserved
  deriving DecidableEq

namespace Server

variable (s : Server)

def setWorker (h : ℕ) (w : Worker) : Server := { s with worker := Function.update s.worker h w }

def setResult (ch : ℕ) (c : Chan Outcome) : Server :=
  { s with results := Function.update s.results ch c }

def setObserved (ch : ℕ) (c : Chan Produced) : Server :=
  { s with observed := Function.update s.observed ch c }

def newChan (h : ℕ) (job : Job) : Server :=
  { s with
    nextChan := s.nextChan + 1
    jobOf := Function.update s.jobOf s.nextChan job
    home := Function.update s.home s.nextChan h }

def disturb (victim : Option ℕ) (others : List ℕ) : Server :=
  { s with lost := ((victim.map fun ch ↦ (s.jobOf ch).request).elim []
      fun r ↦ (others.filter (· ≠ r)).map (r, ·)) ++ s.lost }

def registered (h : ℕ) : Bool := s.workers.lookup (s.worker h).id = some h

def fleet : List Snapshot :=
  s.workers.entries.map fun entry ↦ (s.worker entry.2).snapshot s.clock s.heartbeatTimeout

/-- The handle that `pickWorker` returns is in the registry and available. -/
def pickable (h : ℕ) : Bool :=
  s.registered h && (s.worker h).available s.clock s.heartbeatTimeout

def deletePending (h : ℕ) (job : Job) : Server :=
  (s.disturb ((s.worker h).pending.lookup job.id) [job.request]).setWorker h
    ((s.worker h).deletePending job.id)

def removeObserver (h : ℕ) (job : Job) : Server :=
  (s.disturb ((s.worker h).observers.lookup job.id) [job.request]).setWorker h
    ((s.worker h).removeObserver job.id)

def removeWaiter (job : Job) : Server :=
  let s := s.disturb (s.waiters.lookup job.id) [job.request]
  { s with waiters := s.waiters.erase job.id }

/-- `forwardChunk`: a full buffer drops the chunk, a closed channel panics. -/
def forwardChunk (ch : ℕ) (c : Produced) : Server :=
  let s := { s with panicked := s.panicked || (s.observed ch).closed }
  s.setObserved ch ((s.observed ch).trySend c)

def closeObserver (ch : ℕ) : Server :=
  let s := { s with panicked := s.panicked || (s.observed ch).closed }
  s.setObserved ch (s.observed ch).close

def receive (request : ℕ) (sources : List ℕ) : Server :=
  { s with received := ⟨request, sources⟩ :: s.received }

variable {s} {h k : ℕ} {w : Worker}

@[simp] theorem setWorker_self : (s.setWorker h w).worker h = w := Function.update_self ..

theorem setWorker_of_ne (hk : k ≠ h) : (s.setWorker h w).worker k = s.worker k :=
  Function.update_of_ne hk ..

@[simp] theorem setResult_self {ch : ℕ} {c : Chan Outcome} : (s.setResult ch c).results ch = c :=
  Function.update_self ..

theorem proj_of_update {β : Type} (f : Worker → β) {s' : Server}
    (hworker : s'.worker = Function.update s.worker h w) (hw : f w = f (s.worker h)) (k : ℕ) :
    f (s'.worker k) = f (s.worker k) := by
  rw [hworker]
  by_cases hk : k = h
  · subst hk
    rw [Function.update_self, hw]
  · rw [Function.update_of_ne hk]

theorem registered_iff : s.registered h ↔ s.workers.lookup (s.worker h).id = some h := by
  simp [registered]

end Server

open HttpApi in
/-- The outside world: time passes, workers connect, clients send and abandon requests,
operators drain workers and send model commands, and the process is shut down. -/
def serve (s : Server) : Choice → Option (Effect Server Instr)
  | .tick d => some ⟨{ s with clock := s.clock + d }, [.serve], []⟩
  | .connect id models => if id = "" then none else some ⟨s, [.serve], [[.register id models]]⟩
  | .request header entropy model stream =>
    let job : Job := ⟨jobIDFor (some (requestID header entropy)) entropy, model, s.requests⟩
    some ⟨{ s with requests := s.requests + 1, owner := Function.update s.owner job.id s.requests },
      [.serve], [[.pick (if stream then .stream else .fast) job]]⟩
  | .hangUp r => some ⟨{ s with gone := Function.update s.gone r true }, [.serve], []⟩
  | .drain id deadline => some ⟨s, [.serve], [[.drain id deadline]]⟩
  | .command id m =>
    match m with
    | .pullModel _ | .unloadModel _ => some ⟨s, [.serve], [[.command id m]]⟩
    | _ => none
  | .close => some ⟨s, [.serve], [[.close]]⟩
  | _ => none

def addWorker (s : Server) (id : String) (models : List Model) : Server :=
  let h := s.nextSes + 1
  let w : Worker :=
    { id := id, models := models, registeredAt := s.clock, lastHeartbeat := s.clock }
  { s.setWorker h w with nextSes := h, workers := s.workers.insert id h }

theorem addWorker_id (s : Server) (id : String) (models : List Model) :
    ((addWorker s id models).worker (s.nextSes + 1)).id = id := by
  have hw := Server.setWorker_self (s := s) (h := s.nextSes + 1)
    (w := { id := id, models := models, registeredAt := s.clock, lastHeartbeat := s.clock })
  exact congrArg Worker.id hw

theorem addWorker_of_ne {s : Server} {id : String} {models : List Model} {h : ℕ}
    (hh : h ≠ s.nextSes + 1) : (addWorker s id models).worker h = s.worker h :=
  Server.setWorker_of_ne hh

def retire (s : Server) (h : ℕ) (jobID : String) (sources : List ℕ) : Server :=
  let rest := (s.assigned h).filter fun j ↦ ¬ (j.id = jobID ∧ j.request ∈ sources)
  { s with assigned := Function.update s.assigned h rest }

theorem assigned_of_retire {s : Server} {h k : ℕ} {jobID : String} {sources : List ℕ} {job : Job}
    (hjob : job ∈ (retire s k jobID sources).assigned h) : job ∈ s.assigned h := by
  by_cases hh : h = k
  · subst hh
    simp only [retire, Function.update_self] at hjob
    exact List.mem_of_mem_filter hjob
  · simpa only [retire, Function.update_of_ne hh] using hjob

/-- One message in the reader loop. -/
def handleMessage (s : Server) (h : ℕ) : WorkerMessage → Effect Server Instr
  | .heartbeat hb => ⟨s.setWorker h ((s.worker h).applyHeartbeat hb s.clock), [.read h], []⟩
  | .deregister => ⟨s.setWorker h (s.worker h).markDraining, [.read h], []⟩
  | .result res => ⟨retire s h res.result.jobID res.sources, [.resolve h res], []⟩
  | .chunk c =>
    let obs := (s.worker h).observers.lookup c.chunk.jobID
    if c.chunk.done then
      let res := (s.worker h).assemble c
      ⟨(retire s h c.chunk.jobID c.source.toList).setWorker h ((s.worker h).finish c),
        [obs.elim (.resolve h res) fun ch ↦ .forwardLast h ch c res], []⟩
    else
      ⟨s.setWorker h ((s.worker h).append c), [obs.elim (.read h) fun ch ↦ .forward h ch c], []⟩

/-- What `failAllPending` does after its critical section, for the entries in the order in
which the two maps happen to be walked. -/
def failures (w : Worker) (cause : Cause) (pending observers : List String) : List Instr :=
  pending.filterMap (fun id ↦ (w.pending.lookup id).map fun ch ↦
    .failDeliver ch ⟨{ jobID := id, err := some cause.err }, []⟩) ++
  observers.filterMap (fun id ↦ (w.observers.lookup id).map fun ch ↦
    .failForward ch ⟨{ jobID := id, done := true, err := some cause.err }, none⟩)

/-- `Connect` from its registration on, and everything that ends a stream. -/
def execStream (s : Server) : Instr → Choice → Option (Effect Server Instr)
  | .register id models, .go => some ⟨addWorker s id models, [.ack (s.nextSes + 1)], []⟩
  | .ack h, .go =>
    ((s.worker h).send.send (.registerAck ((s.worker h).id ++ "-" ++ toString h))).map fun c ↦
      ⟨s.setWorker h { s.worker h with send := c }, [.read h], [[.write h]]⟩
  | .write h, .ctxDone => if (s.worker h).cancelled then some ⟨s, [], []⟩ else none
  | .write _, .streamEnd => some ⟨s, [], []⟩
  | .write h, .go =>
    (s.worker h).send.recv.map fun (m, c) ↦
      let s := s.setWorker h { s.worker h with send := c }
      match m with
      | .job job =>
        ⟨{ s with assigned := Function.update s.assigned h (job :: s.assigned h) }, [.write h], []⟩
      | _ => ⟨s, [.write h], []⟩
  | .read h, .ctxDone =>
    if (s.worker h).cancelled then some ⟨s, [.unregister h .disconnected], []⟩ else none
  | .read h, .streamEnd => some ⟨s, [.unregister h .disconnected], []⟩
  | .read h, .message m => some (handleMessage s h m)
  | .forward h ch c, .go => some ⟨s.forwardChunk ch c, [.read h], []⟩
  | .forwardLast h ch c res, .go => some ⟨s.forwardChunk ch c, [.closeLast h ch res], []⟩
  | .closeLast h ch res, .go => some ⟨s.closeObserver ch, [.resolve h res], []⟩
  | .resolve h res, .go =>
    match (s.worker h).pending.lookup res.result.jobID with
    | none => some ⟨s, [.read h], []⟩
    | some ch =>
      some ⟨(s.disturb (some ch) res.sources).setWorker h
        ((s.worker h).deletePending res.result.jobID), [.deliver h ch res], []⟩
  | .deliver h ch res, .go =>
    ((s.results ch).send res).map fun c ↦ ⟨s.setResult ch c, [.read h], []⟩
  | .unregister h cause, .go =>
    some ⟨if s.registered h then { s with workers := s.workers.erase (s.worker h).id } else s,
      [.fail h cause], []⟩
  | .fail h cause, .order pending observers =>
    if pending.Perm (s.worker h).pending.keys ∧ observers.Perm (s.worker h).observers.keys then
      some ⟨s.setWorker h (s.worker h).takeAll, failures (s.worker h) cause pending observers ++
        (if cause = .stale then [] else [.cancel h]), []⟩
    else none
  | .failDeliver ch res, .go => ((s.results ch).send res).map fun c ↦ ⟨s.setResult ch c, [], []⟩
  | .failForward ch c, .go => some ⟨s.forwardChunk ch c, [.failClose ch], []⟩
  | .failClose ch, .go => some ⟨s.closeObserver ch, [], []⟩
  | .cancel h, .go => some ⟨s.setWorker h { s.worker h with cancelled := true }, [], []⟩
  | _, _ => none

/-- The eviction loop, drains with their reapers, and commands about models. -/
def execAdmin (s : Server) : Instr → Choice → Option (Effect Server Instr)
  | .evict, .ctxDone => if s.evictStop then some ⟨{ s with evictDone := true }, [], []⟩ else none
  | .evict, .go => some ⟨s, [.evictScan s.clock], []⟩
  -- the choice is which of the registered workers the scan found stale
  | .evictScan now, .stale hs =>
    if hs.all fun h ↦ s.registered h && (s.worker h).isStale now s.heartbeatTimeout then
      some ⟨s, hs.map (.unregister · .stale) ++ [.evict], []⟩
    else none
  | .drain id deadline, .go =>
    some ⟨s, (s.workers.lookup id).elim [] fun h ↦ [.markDraining h deadline], []⟩
  | .markDraining h deadline, .go =>
    some ⟨s.setWorker h (s.worker h).markDraining, [],
      if deadline ≤ 0 then [] else [[.reap h (s.clock + deadline)]]⟩
  | .reap h _, .ctxDone => if (s.worker h).cancelled then some ⟨s, [], []⟩ else none
  | .reap h deadline, .timer =>
    if deadline ≤ s.clock then some ⟨s, [.unregister h .evicted], []⟩ else none
  | .reap h _, .ticker =>
    if (s.worker h).inFlight = 0 then some ⟨s, [.unregister h .evicted], []⟩ else none
  | .command id m, .go => some ⟨s, (s.workers.lookup id).elim [] fun h ↦ [.sendCommand h m], []⟩
  | .sendCommand h m, .go =>
    ((s.worker h).send.send m).map fun c ↦ ⟨s.setWorker h { s.worker h with send := c }, [], []⟩
  -- the caller's context ends, or the best-effort variant finds no room
  | .sendCommand _ _, .ctxDone => some ⟨s, [], []⟩
  | _, _ => none

def ctxDone (s : Server) (o : Origin) (job : Job) : Bool :=
  match o with
  | .queued => s.placeStop
  | _ => s.gone job.request

/-- What `placeItem` makes of the outcome of its dispatch. -/
def placedResult (job : Job) (res : Option Outcome) : Outcome :=
  match res with
  | none =>
    ⟨{ jobID := job.id, err := some ⟨"dispatch_failed", "context canceled"⟩ }, [job.request]⟩
  | some res =>
    match res.result.err with
    | none => res
    | some err => ⟨{ jobID := job.id, err := some err }, [job.request]⟩

/-- `submit`, `dispatchTo` and the wait for a queued job. -/
def execSubmit (s : Server) : Instr → Choice → Option (Effect Server Instr)
  | .pick _ _, .unserved => some ⟨s, [], []⟩
  | .pick o job, .worker h =>
    if s.pickable h then
      some ⟨s, [if o = .stream then .addObserver h job else .addPending o h job], []⟩
    else none
  | .pick o job, .noWorker priority =>
    some ⟨s, if o = .stream then [] else [.addWaiter job priority], []⟩
  | .addPending o h job, .go =>
    let ch := s.nextChan
    let s := s.disturb ((s.worker h).pending.lookup job.id) [job.request]
    some ⟨(s.newChan h job).setWorker h ((s.worker h).addPending job.id ch),
      [.send o h job ch], []⟩
  | .send o h job ch, .go =>
    ((s.worker h).send.send (.job job)).map fun c ↦
      ⟨s.setWorker h { s.worker h with send := c }, [.await o h job ch], []⟩
  | .send o h job _, .ctxDone =>
    if ctxDone s o job then some ⟨s.deletePending h job, [.finish o job none], []⟩ else none
  | .await o _ job ch, .go =>
    (s.results ch).recv.map fun (res, c) ↦ ⟨s.setResult ch c, [.finish o job (some res)], []⟩
  | .await o h job _, .ctxDone =>
    if ctxDone s o job then some ⟨s.deletePending h job, [.finish o job none], []⟩ else none
  | .finish .fast job res, .go =>
    some ⟨res.elim s fun res ↦ s.receive job.request res.sources, [], []⟩
  | .finish .queued job res, .go => some ⟨s, [.resolveWaiter (placedResult job res)], []⟩
  | .finish .stream job res, .go =>
    ((s.finished job.request).send (res.getD ⟨{}, []⟩)).map fun c ↦
      ⟨{ s with finished := Function.update s.finished job.request c }, [], []⟩
  | .addWaiter job priority, .go =>
    let ch := s.nextChan
    let s := s.disturb (s.waiters.lookup job.id) [job.request]
    some ⟨{ s.newChan 0 job with waiters := s.waiters.insert job.id ch },
      [.enqueue job priority ch], []⟩
  | .enqueue job priority ch, .go =>
    if s.queueClosed ∨ (s.maxDepth > 0 ∧ s.queue.length ≥ s.maxDepth) then
      some ⟨s, [.removeWaiter job], []⟩
    else
      some ⟨{ s with queue := ⟨job, priority, s.seq⟩ :: s.queue, seq := s.seq + 1 },
        [.awaitWaiter job ch], []⟩
  | .awaitWaiter job _, .ctxDone =>
    if s.gone job.request then some ⟨s, [.removeWaiter job], []⟩ else none
  | .awaitWaiter job ch, .go =>
    (s.results ch).recv.map fun (res, c) ↦
      ⟨(s.setResult ch c).receive job.request res.sources, [], []⟩
  | .removeWaiter job, .go => some ⟨s.removeWaiter job, [], []⟩
  | _, _ => none

def execPlace (s : Server) : Instr → Choice → Option (Effect Server Instr)
  | .place, .go =>
    match nextItem s.queue with
    | some item => some ⟨{ s with queue := s.queue.erase item }, [.placeItem item, .place], []⟩
    | none =>
      if s.queueClosed ∨ s.placeStop then some ⟨{ s with placeDone := true }, [], []⟩ else none
  | .placeItem item, .worker h =>
    if s.pickable h then some ⟨s, [.addPending .queued h item.job], []⟩ else none
  | .placeItem item, .noWorker _ => some ⟨s, [.placeItem item], []⟩
  | .placeItem item, .ctxDone =>
    if s.placeStop then
      some ⟨s, [.resolveWaiter
        ⟨{ jobID := item.job.id, err := some shuttingDown }, [item.job.request]⟩], []⟩
    else none
  | .resolveWaiter res, .go =>
    match s.waiters.lookup res.result.jobID with
    | none => some ⟨s, [], []⟩
    | some ch =>
      let s := s.disturb (some ch) res.sources
      some ⟨{ s with waiters := s.waiters.erase res.result.jobID }, [.deliverWaiter ch res], []⟩
  | .deliverWaiter ch res, .go => ((s.results ch).send res).map fun c ↦ ⟨s.setResult ch c, [], []⟩
  | _, _ => none

def execRelay (s : Server) : Instr → Choice → Option (Effect Server Instr)
  | .addObserver h job, .go =>
    let ch := s.nextChan
    let s := s.disturb ((s.worker h).observers.lookup job.id) [job.request]
    some ⟨(s.newChan h job).setWorker h ((s.worker h).addObserver job.id ch), [],
      [[.relay h job ch], [.addPending .stream h job], [.consume job.request]]⟩
  | .relay h job _, .ctxDone =>
    if s.gone job.request then some ⟨s.removeObserver h job, [.closeOut job], []⟩ else none
  | .relay h job ch, .go =>
    if (s.observed ch).drained then some ⟨s, [.settle job], []⟩
    else (s.observed ch).recv.map fun (c, chan) ↦ ⟨s.setObserved ch chan, [.emit h job ch c], []⟩
  | .emit h job _ _, .ctxDone =>
    if s.gone job.request then some ⟨s.removeObserver h job, [.closeOut job], []⟩ else none
  | .emit h job ch c, .go =>
    ((s.out job.request).send c).map fun chan ↦
      ⟨{ s with out := Function.update s.out job.request chan }, [.relay h job ch], []⟩
  | .settle job, .go =>
    (s.finished job.request).recv.map fun (_, c) ↦
      ⟨{ s with finished := Function.update s.finished job.request c }, [.closeOut job], []⟩
  | .closeOut job, .go =>
    some ⟨{ s with out := Function.update s.out job.request (s.out job.request).close }, [], []⟩
  | .consume r, .go =>
    -- the handler returns at the end of the stream or after an error chunk
    if (s.out r).drained then some ⟨{ s with gone := Function.update s.gone r true }, [], []⟩
    else (s.out r).recv.map fun (c, chan) ↦
      let s := { s.receive r c.source.toList with out := Function.update s.out r chan }
      if c.chunk.err = none then ⟨s, [.consume r], []⟩
      else ⟨{ s with gone := Function.update s.gone r true }, [], []⟩
  | _, _ => none

def execClose (s : Server) : Instr → Choice → Option (Effect Server Instr)
  | .close, .go => some ⟨{ s with evictStop := true }, [.awaitEvict], []⟩
  | .awaitEvict, .go => if s.evictDone then some ⟨s, [.closePlace], []⟩ else none
  | .closePlace, .go => some ⟨{ s with placeStop := true }, [.closeQueue], []⟩
  | .closeQueue, .go => some ⟨{ s with queueClosed := true }, [.awaitPlace], []⟩
  | .awaitPlace, .go => if s.placeDone then some ⟨s, [.failWaiters], []⟩ else none
  | .failWaiters, .order ids _ =>
    if ids.Perm s.waiters.keys then
      some ⟨{ s with waiters := ∅ }, ids.filterMap fun id ↦ (s.waiters.lookup id).map fun ch ↦
        .deliverWaiter ch ⟨{ jobID := id, err := some shuttingDown }, []⟩, []⟩
    else none
  | _, _ => none

def exec (s : Server) (i : Instr) (x : Choice) : Option (Effect Server Instr) :=
  match i with
  | .serve => serve s x
  | .register .. | .ack _ | .write _ | .read _ | .forward .. | .forwardLast .. | .closeLast ..
  | .resolve .. | .deliver .. | .unregister .. | .fail .. | .failDeliver .. | .failForward ..
  | .failClose _ | .cancel _ => execStream s i x
  | .evict | .evictScan _ | .drain .. | .markDraining .. | .reap .. | .command ..
  | .sendCommand .. => execAdmin s i x
  | .pick .. | .addPending .. | .send .. | .await .. | .finish .. | .addWaiter .. | .enqueue ..
  | .awaitWaiter .. | .removeWaiter _ => execSubmit s i x
  | .place | .placeItem _ | .resolveWaiter _ | .deliverWaiter .. => execPlace s i x
  | .addObserver .. | .relay .. | .emit .. | .settle _ | .closeOut _ | .consume _ =>
    execRelay s i x
  | .close | .awaitEvict | .closePlace | .closeQueue | .awaitPlace | .failWaiters =>
    execClose s i x

def controlPlane : Machine Server Instr Choice := ⟨exec⟩

/-- The server that `New` makes; an option that is not positive leaves the default. -/
def new (clock : Time) (heartbeatTimeout : Duration) (maxDepth : ℕ) : Server :=
  { clock := clock
    heartbeatTimeout := if heartbeatTimeout > 0 then heartbeatTimeout else 45 * second
    maxDepth := maxDepth }

/-- The server after `Start`: the eviction loop and the placement loop run. -/
def boot (s : Server) : Config Server Instr := ⟨s, [[.serve], [.evict], [.place]]⟩

end AgentGpu.ControlPlane
