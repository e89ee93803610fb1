import AgentGpu.Foundation.Channels
import AgentGpu.Foundation.Tables
import AgentGpu.Types

namespace AgentGpu.ControlPlane

open Foundation

/-- A dispatched job. `request` is not on the wire: it names the HTTP request the job was
built for, whatever id the two of them use. -/
structure Job where
  id : String
  model : String := ""
  request : ℕ
  deriving DecidableEq

inductive ServerMessage
  | registerAck (sessionID : String)
  | job (job : Job)
  | pullModel (model : String)
  | unloadModel (model : String)
  deriving DecidableEq

def ServerMessage.jobs : ServerMessage → List Job
  | .job j => [j]
  | _ => []

structure Produced where
  chunk : JobChunk
  source : Option ℕ
  deriving DecidableEq

structure Outcome where
  result : JobResult
  sources : List ℕ := []
  deriving DecidableEq

structure Builder where
  output : String := ""
  sources : List ℕ := []
  deriving DecidableEq

structure Heartbeat where
  activeJobs : UInt32 := 0
  totalVRAM : UInt64 := 0
  freeVRAM : UInt64 := 0
  load : UInt32 := 0
  gpuType : String := ""
  availableModels : Option (List Model) := none
  deriving DecidableEq

/-- The server's side of one connected worker stream. Result and observer channels are
known by number. -/
structure Worker where
  id : String := ""
  send : Chan ServerMessage := .make _ 16
  cancelled : Bool := false
  pending : Table String ℕ := ∅
  streams : Table String Builder := ∅
  observers : Table String ℕ := ∅
  registeredAt : Time := zeroTime
  models : List Model := []
  lastHeartbeat : Time := zeroTime
  activeJobs : UInt32 := 0
  totalVRAM : UInt64 := 0
  freeVRAM : UInt64 := 0
  load : UInt32 := 0
  gpuType : String := ""
  availableModels : Option (List Model) := none
  draining : Bool := false
  deriving DecidableEq

inductive WorkerStatus
  | online
  | draining
  | stale
  deriving DecidableEq

structure Snapshot where
  id : String
  models : List Model
  lastSeen : Time
  activeJobs : UInt32
  totalVRAM : UInt64
  freeVRAM : UInt64
  load : UInt32
  gpuType : String
  status : WorkerStatus
  registeredAt : Time
  deriving DecidableEq

namespace Worker

def applyHeartbeat (w : Worker) (hb : Heartbeat) (now : Time) : Worker :=
  { w with
    lastHeartbeat := now
    activeJobs := hb.activeJobs
    totalVRAM := hb.totalVRAM
    freeVRAM := hb.freeVRAM
    load := hb.load
    gpuType := hb.gpuType
    availableModels := hb.availableModels.or w.availableModels }

def markDraining (w : Worker) : Worker := { w with draining := true }

def inFlight (w : Worker) : ℕ := w.pending.entries.length

def isStale (w : Worker) (now : Time) (timeout : Duration) : Bool :=
  w.lastHeartbeat ≠ zeroTime ∧ now.sub w.lastHeartbeat > timeout

def snapshot (w : Worker) (now : Time) (timeout : Duration) : Snapshot where
  id := w.id
  models := w.availableModels.getD w.models
  lastSeen := w.lastHeartbeat
  activeJobs := w.activeJobs
  totalVRAM := w.totalVRAM
  freeVRAM := w.freeVRAM
  load := w.load
  gpuType := w.gpuType
  status := if w.draining then .draining else if w.isStale now timeout then .stale else .online
  registeredAt := w.registeredAt

def available (w : Worker) (now : Time) (timeout : Duration) : Bool :=
  !w.draining && !w.isStale now timeout

def addPending (w : Worker) (jobID : String) (ch : ℕ) : Worker :=
  { w with pending := w.pending.insert jobID ch }

def deletePending (w : Worker) (jobID : String) : Worker :=
  { w with pending := w.pending.erase jobID }

def addObserver (w : Worker) (jobID : String) (ch : ℕ) : Worker :=
  { w with observers := w.observers.insert jobID ch }

def removeObserver (w : Worker) (jobID : String) : Worker :=
  { w with observers := w.observers.erase jobID }

/-- The first critical section of `accumulate` for a chunk that is not the last. -/
def append (w : Worker) (c : Produced) : Worker :=
  let b := (w.streams.lookup c.chunk.jobID).getD {}
  let b : Builder := ⟨b.output ++ c.chunk.delta, b.sources ++ c.source.toList⟩
  { w with streams := w.streams.insert c.chunk.jobID b }

/-- The critical section for the terminal chunk drops the buffer and the observer. -/
def finish (w : Worker) (c : Produced) : Worker :=
  { w with
    streams := w.streams.erase c.chunk.jobID
    observers := w.observers.erase c.chunk.jobID }

/-- The result that the terminal chunk completes. On an error the partial output is
discarded. -/
def assemble (w : Worker) (c : Produced) : Outcome :=
  let b := (w.streams.lookup c.chunk.jobID).getD {}
  { result :=
      { jobID := c.chunk.jobID
        output := if c.chunk.err = none then b.output ++ c.chunk.delta else ""
        err := c.chunk.err
        tokens := c.chunk.tokens
        toolCalls := c.chunk.toolCalls
        finishReason := c.chunk.finishReason
        promptTokens := c.chunk.promptTokens
        completionTokens := c.chunk.completionTokens }
    sources := b.sources ++ c.source.toList }

def takeAll (w : Worker) : Worker := { w with pending := ∅, streams := ∅, observers := ∅ }

end Worker

end AgentGpu.ControlPlane
