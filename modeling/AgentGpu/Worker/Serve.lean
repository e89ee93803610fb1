import AgentGpu.ControlPlane.Machine
import AgentGpu.Foundation.Composition

namespace AgentGpu.Worker

open Foundation ControlPlane

def deltaChunk (job : Job) (text : String) (toolCalls : List ToolCall) : JobChunk :=
  { jobID := job.id, delta := text, toolCalls := toolCalls }

def terminalChunk (job : Job) (res : JobResult) : JobChunk where
  jobID := job.id
  done := true
  err := res.err
  tokens := res.tokens
  toolCalls := res.toolCalls
  finishReason := res.finishReason
  promptTokens := res.promptTokens
  completionTokens := res.completionTokens

/-- The receive goroutine: in `stream.Recv`, or with a message that its channel has no room
for yet. -/
inductive Receiver
  | recv
  | hold (m : ServerMessage)
  | exited
  deriving DecidableEq

/-- The goroutine that executes jobs, inside the executor or inside `emit`. -/
inductive JobLoop
  | idle
  | executing (job : Job)
  | emitting (job : Job) (c : JobChunk)
  | exited
  deriving DecidableEq

/-- `runOnce` before the registration is acknowledged, the select loop of `serve`, the steps of
`deregister`, and the end, at which `runOnce` has cancelled its context and closed the
connection. -/
inductive SendLoop
  | register
  | select
  | deregister
  | closeSend
  | awaitServer
  | returned
  deriving DecidableEq

/-- A worker and its connection. `up` and `down` are what is on the wire in either direction. -/
structure Process where
  runDone : Bool := false
  up : List WorkerMessage := []
  down : List ServerMessage := []
  chunks : Chan Produced := .make _ 64
  recvErr : Chan Unit := .make _ 1
  jobs : Chan Job := .make _ 8
  pulls : Chan String := .make _ 8
  unloads : Chan String := .make _ 8
  activeJobs : ℕ := 0
  receiver : Receiver := .recv
  jobLoop : JobLoop := .idle
  sendLoop : SendLoop := .register
  -- history, read by no step
  received : List Job := []
  replied : List Produced := []
  answered : List Produced := []
  ended : Bool := false
  deriving DecidableEq

namespace Process

def connDone (p : Process) : Bool := p.sendLoop = .returned

def emitted (p : Process) (job : Job) (c : JobChunk) : Process :=
  if c.done then { p with jobLoop := .idle, activeJobs := p.activeJobs - 1 }
  else { p with jobLoop := .executing job }

/-- The receive goroutine has a message; other kinds than these are ignored. -/
def receive (p : Process) (m : ServerMessage) (down : List ServerMessage) : Process :=
  match m with
  | .registerAck _ => { p with down := down }
  | .job job =>
    { p with
      down := down
      receiver := .hold m
      received := if p.sendLoop = .select then p.received ++ [job] else p.received }
  | .pullModel _ | .unloadModel _ => { p with down := down, receiver := .hold m }

end Process

/-- The steps of the worker, one for each communication of one of its goroutines, and the
cancellation of its run context. -/
inductive Action
  | cancelRun
  | ack
  | recv
  | recvEnd
  | push
  | takeJob
  | delta (text : String) (toolCalls : List ToolCall)
  | finish (res : JobResult)
  | emit
  | drop
  | jobExit
  | takePull
  | takeUnload
  | heartbeat (hb : Heartbeat)
  | sendChunk
  | sendFails
  | streamLost
  | shutdown
  | deregister
  | closeSend
  | serverClosed
  | timer
  deriving DecidableEq

/-- The goroutines of `serve` up to the send loop. `serverDone` says that the server has ended
the stream. -/
def actInside (p : Process) (serverDone : Bool) : Action → Option Process
  | .recv =>
    match p.receiver, p.down with
    | .recv, m :: down => some (p.receive m down)
    | _, _ => none
  | .recvEnd =>
    if p.receiver = .recv ∧ (serverDone ∨ p.connDone) then
      (p.recvErr.send ()).map fun c ↦ { p with recvErr := c, receiver := .exited }
    else none
  | .push =>
    match p.receiver with
    | .hold (.job job) => (p.jobs.send job).map fun c ↦ { p with jobs := c, receiver := .recv }
    | .hold (.pullModel model) =>
      (p.pulls.send model).map fun c ↦ { p with pulls := c, receiver := .recv }
    | .hold (.unloadModel model) =>
      (p.unloads.send model).map fun c ↦ { p with unloads := c, receiver := .recv }
    | _ => none
  | .takeJob =>
    if p.jobLoop = .idle then
      p.jobs.recv.map fun (job, c) ↦
        { p with jobs := c, jobLoop := .executing job, activeJobs := p.activeJobs + 1 }
    else none
  | .delta text toolCalls =>
    match p.jobLoop with
    | .executing job => some { p with jobLoop := .emitting job (deltaChunk job text toolCalls) }
    | _ => none
  | .finish res =>
    match p.jobLoop with
    | .executing job =>
      some { p with
        jobLoop := .emitting job (terminalChunk job res)
        replied := ⟨terminalChunk job res, some job.request⟩ :: p.replied }
    | _ => none
  | .emit =>
    match p.jobLoop with
    | .emitting job c =>
      (p.chunks.send ⟨c, some job.request⟩).map fun chunks ↦
        { p with chunks := chunks }.emitted job c
    | _ => none
  | .drop =>
    match p.jobLoop with
    | .emitting job c => if p.connDone then some (p.emitted job c) else none
    | _ => none
  | .jobExit => if p.jobLoop = .idle ∧ p.connDone then some { p with jobLoop := .exited } else none
  | .takePull => p.pulls.recv.map fun (_, c) ↦ { p with pulls := c }
  | .takeUnload => p.unloads.recv.map fun (_, c) ↦ { p with unloads := c }
  | _ => none

/-- The registration, the send loop and `deregister`. A send, or the wait for the
acknowledgement, fails only once the server has ended the stream. -/
def actOutside (p : Process) (serverDone : Bool) : Action → Option Process
  | .ack =>
    match p.sendLoop, p.down with
    | .register, .registerAck _ :: down => some { p with down := down, sendLoop := .select }
    | .register, _ :: down => some { p with down := down, sendLoop := .returned }
    | _, _ => none
  | .heartbeat hb =>
    if p.sendLoop = .select then
      let hb := { hb with activeJobs := UInt32.ofNat p.activeJobs }
      some { p with up := p.up ++ [.heartbeat hb] }
    else none
  | .sendChunk =>
    if p.sendLoop = .select then
      p.chunks.recv.map fun (c, chunks) ↦ { p with chunks := chunks, up := p.up ++ [.chunk c] }
    else none
  | .sendFails =>
    if serverDone ∧ p.sendLoop ≠ .awaitServer ∧ p.sendLoop ≠ .returned then
      some { p with sendLoop := .returned }
    else none
  | .streamLost =>
    if p.sendLoop = .select then
      p.recvErr.recv.map fun (_, c) ↦ { p with recvErr := c, sendLoop := .returned }
    else none
  | .shutdown =>
    if p.sendLoop = .select ∧ p.runDone then some { p with sendLoop := .deregister } else none
  | .deregister =>
    if p.sendLoop = .deregister then
      some { p with up := p.up ++ [.deregister], sendLoop := .closeSend }
    else none
  | .closeSend =>
    if p.sendLoop = .closeSend then some { p with sendLoop := .awaitServer } else none
  | .serverClosed =>
    if p.sendLoop = .awaitServer then
      p.recvErr.recv.map fun (_, c) ↦ { p with recvErr := c, sendLoop := .returned }
    else none
  | .timer => if p.sendLoop = .awaitServer then some { p with sendLoop := .returned } else none
  | _ => none

def Process.act (p : Process) (serverDone : Bool) (a : Action) : Option Process :=
  match a with
  | .cancelRun => some { p with runDone := true }
  | .ack | .heartbeat _ | .sendChunk | .sendFails | .streamLost | .shutdown | .deregister
  | .closeSend | .serverClosed | .timer => actOutside p serverDone a
  | _ => if p.sendLoop = .register then none else actInside p serverDone a

/-- What the server does with the worker's stream, of session `h`: its messages go down the
wire, it reads those of the worker in their order, and then the end of the stream, which is
the half-close or the end of the connection. -/
def Process.hear (h : ℕ) (s : Server) (i : Instr) (x : Choice) (p : Process) : Option Process :=
  match i, x with
  | .write k, .go =>
    if k = h then (s.worker h).send.recv.map fun (m, _) ↦ { p with down := p.down ++ [m] }
    else some p
  | .write k, .streamEnd => if k = h ∧ ¬p.connDone then none else some p
  | .read k, .message m =>
    if k = h then
      match p.up with
      | [] => none
      | m' :: up =>
        if m' = m then
          some { p with
            up := up
            answered := match m with
              | .chunk c => if c.chunk.done then c :: p.answered else p.answered
              | _ => p.answered }
        else none
    else some p
  | .read k, .streamEnd =>
    if k = h then
      if (p.up = [] ∧ p.sendLoop = .awaitServer) ∨ p.connDone then some { p with ended := true }
      else none
    else some p
  | .read k, .ctxDone => if k = h then some { p with ended := true } else some p
  | _, _ => some p

def peer (h : ℕ) : Peer Server Instr Choice Process Action where
  hear := Process.hear h
  act s p a := p.act (s.worker h).cancelled a

end AgentGpu.Worker
