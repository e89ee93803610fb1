import AgentGpu.Foundation.Fairness
import AgentGpu.Types

namespace AgentGpu.Cmd

open Foundation

def httpShutdownTimeout : Duration := 10 * second

inductive Checkpoint
  | quota
  | sessions
  | history
  | audit
  | usage
  deriving DecidableEq

/-- A goroutine of `reapDrainedWorker`: parked in its select until the deadline, or inside
`forceEvictWorker`, before `evictWorker` and before `cancel`. -/
inductive Reaper
  | waiting (deadline : Time)
  | evicting
  | cancelling
  | exited
  deriving DecidableEq

/-- Where a call of `Connect` is: in the first `Recv`, at the send of `RegisterAck`, in the reader
loop, or in its deferred `removeWorker` and `cancel`. -/
inductive Handler
  | registering
  | acking
  | reading
  | removing
  | cancelling
  | returned
  deriving DecidableEq

/-- The capacity of a worker's `send` channel. -/
def sendCapacity : ℕ := 16

/-- A stream with its worker struct. `sending` counts the dispatches and commands that have looked
the worker up and hold a message for it, `buffered` the messages in its `send` channel. -/
structure Stream where
  handler : Handler := .registering
  cancelled : Bool := false
  pending : ℕ := 0
  sending : ℕ := 0
  buffered : ℕ := 0
  reapers : List Reaper := []
  deriving DecidableEq

inductive Payload
  | register
  | heartbeat
  | result
  | chunk
  | deregister
  | unknown
  deriving DecidableEq

namespace Stream

def failAllPending (w : Stream) : Stream := { w with pending := 0 }

def addPending (w : Stream) : Stream := { w with pending := w.pending + 1 }

def deletePending (w : Stream) : Stream := { w with pending := w.pending - 1 }

def choose (w : Stream) : Stream := { w with sending := w.sending + 1 }

/-- One message of the worker. A first message other than `Register`, and a second
`Register`, end the call with an error. -/
def handle (w : Stream) (p : Payload) : Option Stream :=
  match w.handler, p with
  | .registering, .register => some { w with handler := .acking }
  | .registering, _ => some { w with handler := .cancelling }
  | .reading, .register => some { w with handler := .removing }
  | .reading, _ => some w
  | _, _ => none

/-- The send of `RegisterAck` is no select: while the channel is full it waits, whatever becomes
of the stream, and the writer that would empty the channel starts only after it. -/
def ack (w : Stream) : Option Stream :=
  if w.handler = .acking ∧ w.buffered < sendCapacity then
    some { w with handler := .reading, buffered := w.buffered + 1 }
  else none

def write (w : Stream) : Option Stream :=
  if w.handler ≠ .registering ∧ w.handler ≠ .acking ∧ w.buffered ≠ 0 then
    some { w with buffered := w.buffered - 1 }
  else none

def send (w : Stream) : Option Stream :=
  if w.sending ≠ 0 ∧ w.buffered < sendCapacity then
    some { w with sending := w.sending - 1, buffered := w.buffered + 1 }
  else none

/-- The context of a dispatch or a command ends before its message is in the channel. -/
def giveUp (w : Stream) : Option Stream :=
  if w.sending ≠ 0 then some { w with sending := w.sending - 1 } else none

/-- `Recv` or `Send` fails because the worker closed its side of the stream. -/
def hangUp (w : Stream) : Option Stream :=
  match w.handler with
  | .registering => some { w with handler := .cancelling }
  | .reading => some { w with handler := .removing }
  | _ => none

def disconnect (w : Stream) : Option Stream := some { w with cancelled := true }

/-- The reader loop's `ctx.Done` arm. -/
def leave (w : Stream) : Option Stream :=
  if w.handler = .reading ∧ w.cancelled then some { w with handler := .removing } else none

def runDeferred (w : Stream) : Option Stream :=
  match w.handler with
  | .removing => some { w.failAllPending with handler := .cancelling }
  | .cancelling => some { w with handler := .returned, cancelled := true }
  | _ => none

inductive Arm
  | ctxDone
  | timer
  | ticker
  deriving DecidableEq

def reap (now : Time) (j : ℕ) (arm : Arm) (w : Stream) : Option Stream :=
  match w.reapers[j]? with
  | none => none
  | some (.waiting deadline) =>
    match arm with
    | .ctxDone =>
      if w.cancelled then some { w with reapers := w.reapers.set j .exited } else none
    | .timer =>
      if deadline ≤ now then some { w with reapers := w.reapers.set j .evicting } else none
    | .ticker =>
      if w.pending = 0 then some { w with reapers := w.reapers.set j .evicting } else none
  | some .evicting => some { w.failAllPending with reapers := w.reapers.set j .cancelling }
  | some .cancelling => some { w with cancelled := true, reapers := w.reapers.set j .exited }
  | some .exited => none

def drain (now : Time) (deadline : Duration) (w : Stream) : Stream :=
  if deadline ≤ 0 then w else { w with reapers := w.reapers ++ [.waiting (now + deadline)] }

inductive Move
  | message (p : Payload)
  | hangUp
  | disconnect
  | ack
  | leave
  | runDeferred
  | reap (j : ℕ) (arm : Arm)
  | write
  | send
  | giveUp
  | addPending
  | deletePending
  deriving DecidableEq

/-- The moves of `Connect` itself and of the reapers. -/
def Move.own : Move → Bool
  | .ack | .leave | .runDeferred | .reap .. => true
  | _ => false

def move (now : Time) (m : Move) (w : Stream) : Option Stream :=
  match m with
  | .message p => w.handle p
  | .hangUp => w.hangUp
  | .disconnect => w.disconnect
  | .ack => w.ack
  | .leave => w.leave
  | .runDeferred => w.runDeferred
  | .reap j arm => w.reap now j arm
  | .write => w.write
  | .send => w.send
  | .giveUp => w.giveUp
  | .addPending => some w.addPending
  | .deletePending => some w.deletePending

/-- All that can happen to a stream: its moves, and what a request, a drain and the eviction loop
do to it. -/
inductive Step (now : Time) (w : Stream) : Stream → Prop
  | move {m : Move} {w' : Stream} (h : w.move now m = some w') : Step now w w'
  | choose : Step now w w.choose
  | drain (deadline : Duration) : Step now w (w.drain now deadline)
  | evictStale : Step now w w.failAllPending

end Stream

/-- The shutdown arm of `serveControlPlane` and its deferred calls, each wait on its own. -/
inductive Main
  | withTimeout
  | httpShutdown
  | httpWait
  | metricsShutdown
  | metricsWait
  | gracefulStop
  | gracefulWait
  | checkpointQuota
  | checkpointSessions
  | checkpointHistory
  | checkpointAudit
  | sampleUsage
  | checkpointUsage
  | stopEvict
  | evictWait
  | stopPlace
  | closeQueue
  | placeWait
  | failAllWaiters
  | stopSweep
  | sweepWait
  | closeStore
  | returned
  deriving DecidableEq

structure Loop where
  stop : Bool := false
  done : Bool := false
  deriving DecidableEq

inductive Place
  | dequeuing
  | placing
  | dispatching
  | done
  deriving DecidableEq

structure State where
  now : Time
  main : Main := .withTimeout
  deadline : Time := 0
  httpOpen : Bool := true
  metricsOpen : Bool := true
  grpcOpen : Bool := true
  /-- HTTP requests that have not reached the control plane yet, and all other running ones. -/
  arrived : ℕ := 0
  served : ℕ := 0
  scrapes : Option ℕ := none
  streams : List Stream := []
  evict : Loop := {}
  sweep : Loop := {}
  place : Place := .dequeuing
  placeStop : Bool := false
  queue : ℕ := 0
  queueClosed : Bool := false
  waiters : ℕ := 0
  log : List Checkpoint := []
  deriving DecidableEq

namespace State

def write (s : State) (c : Checkpoint) (next : Main) : State :=
  { s with log := s.log ++ [c], main := next }

def mainStep (s : State) : Option State :=
  match s.main with
  | .withTimeout => some { s with deadline := s.now + httpShutdownTimeout, main := .httpShutdown }
  | .httpShutdown => some { s with httpOpen := false, main := .httpWait }
  | .httpWait =>
    if s.arrived + s.served = 0 ∨ s.deadline ≤ s.now then some { s with main := .metricsShutdown }
    else none
  | .metricsShutdown =>
    match s.scrapes with
    | none => some { s with main := .gracefulStop }
    | some _ => some { s with metricsOpen := false, main := .metricsWait }
  | .metricsWait =>
    if s.scrapes = some 0 ∨ s.deadline ≤ s.now then some { s with main := .gracefulStop } else none
  | .gracefulStop => some { s with grpcOpen := false, main := .gracefulWait }
  | .gracefulWait =>
    if ∀ w ∈ s.streams, w.handler = .returned then some { s with main := .checkpointQuota }
    else none
  | .checkpointQuota => some (s.write .quota .checkpointSessions)
  | .checkpointSessions => some (s.write .sessions .checkpointHistory)
  | .checkpointHistory => some (s.write .history .checkpointAudit)
  | .checkpointAudit => some (s.write .audit .sampleUsage)
  | .sampleUsage => some { s with main := .checkpointUsage }
  | .checkpointUsage => some (s.write .usage .stopEvict)
  | .stopEvict => some { s with evict.stop := true, main := .evictWait }
  | .evictWait => if s.evict.done then some { s with main := .stopPlace } else none
  | .stopPlace => some { s with placeStop := true, main := .closeQueue }
  | .closeQueue => some { s with queueClosed := true, main := .placeWait }
  | .placeWait => if s.place = .done then some { s with main := .failAllWaiters } else none
  | .failAllWaiters => some { s with waiters := 0, main := .stopSweep }
  | .stopSweep => some { s with sweep.stop := true, main := .sweepWait }
  | .sweepWait => if s.sweep.done then some { s with main := .closeStore } else none
  | .closeStore => some { s with main := .returned }
  | .returned => none

def onStream (s : State) (i : ℕ) (f : Stream → Option Stream) : Option State :=
  (s.streams[i]?.bind f).map fun w ↦ { s with streams := s.streams.set i w }

def update (s : State) (i : ℕ) (f : Stream → Stream) : State :=
  (s.onStream i fun w ↦ some (f w)).getD s

/-- What a running HTTP request asks of the control plane: it has a job or a command for a worker,
enqueues a job, drains a worker, or none of these. -/
inductive Action
  | dispatch (worker : ℕ)
  | enqueue
  | drain (worker : ℕ) (deadline : Duration)
  | other
  deriving DecidableEq

def serve (s : State) : State := { s with arrived := s.arrived - 1, served := s.served + 1 }

def act (s : State) (a : Action) : Option State :=
  if s.arrived = 0 then none
  else
    match a with
    | .dispatch i => some (s.serve.update i Stream.choose)
    | .enqueue =>
      if s.queueClosed then some s.serve
      else some { s.serve with queue := s.queue + 1, waiters := s.waiters + 1 }
    | .drain i deadline => some (s.serve.update i (Stream.drain s.now deadline))
    | .other => some s.serve

def resolveWaiter (s : State) : State :=
  { s with waiters := s.waiters - 1, place := .dequeuing }

end State

inductive Event
  | tick (d : ℕ)
  | main
  | accept
  | act (a : State.Action)
  | respond
  | scrape
  | scraped
  | connect
  | stream (i : ℕ) (m : Stream.Move)
  | evictStale (i : ℕ)
  | evictExit
  | sweepExit
  | dequeue
  | pick (i : ℕ)
  | unplaceable
  | placed
  | abort
  | placeExit
  deriving DecidableEq

/-- The steps the server takes by itself. The others are up to the clients, the workers and
the clock, or leave a background loop where it was. -/
def Event.own : Event → Bool
  | .main | .evictExit | .sweepExit | .dequeue | .pick _ | .unplaceable | .abort | .placeExit => true
  | .stream _ m => m.own
  | _ => false

def step (s : State) : Event → Option State
  | .tick d => some { s with now := s.now + d }
  | .main => s.mainStep
  | .accept => if s.httpOpen then some { s with arrived := s.arrived + 1 } else none
  | .act a => s.act a
  | .respond => if s.served = 0 then none else some { s with served := s.served - 1 }
  | .scrape =>
    if s.metricsOpen then some { s with scrapes := s.scrapes.map (· + 1) } else none
  | .scraped => some { s with scrapes := s.scrapes.map (· - 1) }
  | .connect => if s.grpcOpen then some { s with streams := s.streams ++ [{}] } else none
  | .stream i m => s.onStream i (Stream.move s.now m)
  | .evictStale i => if s.evict.done then none else some (s.update i Stream.failAllPending)
  | .evictExit =>
    if s.evict.stop ∧ ¬ s.evict.done then some { s with evict.done := true } else none
  | .sweepExit =>
    if s.sweep.stop ∧ ¬ s.sweep.done then some { s with sweep.done := true } else none
  | .dequeue =>
    if s.place = .dequeuing ∧ s.queue ≠ 0 then
      some { s with queue := s.queue - 1, place := .placing }
    else none
  | .pick i =>
    if s.place = .placing then some ({ s with place := .dispatching }.update i Stream.choose)
    else none
  | .unplaceable => if s.place = .placing ∧ s.placeStop then some s.resolveWaiter else none
  | .placed => if s.place = .dispatching then some s.resolveWaiter else none
  | .abort => if s.place = .dispatching ∧ s.placeStop then some s.resolveWaiter else none
  | .placeExit =>
    if s.place = .dequeuing ∧ s.queue = 0 ∧ (s.queueClosed ∨ s.placeStop) then
      some { s with place := .done }
    else none

end AgentGpu.Cmd
