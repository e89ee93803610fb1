import AgentGpu.Types
import Mathlib.Tactic.SplitIfs

namespace AgentGpu

namespace Types

structure ToolFunction where
  name : String := ""
  description : String := ""
  parameters : String := ""
  deriving DecidableEq

structure Tool where
  type : String := ""
  function : ToolFunction := {}
  deriving DecidableEq

structure Job where
  id : String := ""
  model : String := ""
  prompt : String := ""
  messages : List Message := []
  tools : List Tool := []
  sessionID : String := ""
  keepAliveSeconds : Int64 := 0
  deriving DecidableEq

/-- A nil slice of models is `none`: its conversions, unlike the others, keep it apart from an
empty one. -/
structure Heartbeat where
  workerID : String := ""
  activeJobs : UInt32 := 0
  totalVRAM : UInt64 := 0
  freeVRAM : UInt64 := 0
  load : UInt32 := 0
  gpuType : String := ""
  availableModels : Option (List Model) := none
  deriving DecidableEq

end Types

/-- A repeated field of a message: a slice of pointers, nil where it is absent. -/
abbrev Repeated (β : Type) := Option (List (Option β))

namespace Proto

structure Model where
  name : String := ""
  digest : String := ""

structure Error where
  code : String := ""
  message : String := ""

structure ToolCall where
  id : String := ""
  type : String := ""
  functionName : String := ""
  argumentsJson : String := ""

structure ChatMessage where
  role : String := ""
  content : String := ""
  toolCallId : String := ""
  name : String := ""
  toolCalls : Repeated ToolCall := none

structure ToolFunction where
  name : String := ""
  description : String := ""
  parametersJson : String := ""

structure Tool where
  type : String := ""
  function : Option ToolFunction := none

structure Job where
  id : String := ""
  model : String := ""
  prompt : String := ""
  messages : Repeated ChatMessage := none
  tools : Repeated Tool := none
  keepAliveSeconds : Int64 := 0

structure JobResult where
  jobId : String := ""
  output : String := ""
  error : Option Error := none
  tokens : UInt64 := 0
  toolCalls : Repeated ToolCall := none
  finishReason : String := ""
  promptTokens : UInt64 := 0
  completionTokens : UInt64 := 0

structure JobChunk where
  jobId : String := ""
  delta : String := ""
  done : Bool := false
  error : Option Error := none
  tokens : UInt64 := 0
  toolCalls : Repeated ToolCall := none
  finishReason : String := ""
  promptTokens : UInt64 := 0
  completionTokens : UInt64 := 0

structure Heartbeat where
  workerId : String := ""
  activeJobs : UInt32 := 0
  totalVramBytes : UInt64 := 0
  freeVramBytes : UInt64 := 0
  load : UInt32 := 0
  gpuType : String := ""
  availableModels : Repeated Model := none

end Proto

/-! What a message is after it was marshalled and unmarshalled: all fields keep their values,
and a repeated field without elements is absent. -/

def Repeated.overWire {β : Type} (elem : β → β) : Repeated β → Repeated β
  | some (p :: ps) => some ((p :: ps).map (Option.map elem))
  | _ => none

namespace Proto

def ChatMessage.overWire (m : ChatMessage) : ChatMessage :=
  { m with toolCalls := Repeated.overWire (fun t ↦ t) m.toolCalls }

def Job.overWire (j : Job) : Job :=
  { j with
    messages := Repeated.overWire ChatMessage.overWire j.messages
    tools := Repeated.overWire (fun t ↦ t) j.tools }

def JobResult.overWire (r : JobResult) : JobResult :=
  { r with toolCalls := Repeated.overWire (fun t ↦ t) r.toolCalls }

def JobChunk.overWire (c : JobChunk) : JobChunk :=
  { c with toolCalls := Repeated.overWire (fun t ↦ t) c.toolCalls }

def Heartbeat.overWire (h : Heartbeat) : Heartbeat :=
  { h with availableModels := Repeated.overWire (fun t ↦ t) h.availableModels }

end Proto

section Slices

variable {α β : Type}

/-- `ToolCallsToProto`, `messagesToProto` and `toolsToProto`, by the conversion of an element. -/
def sliceToProto (proto : α → β) (ts : List α) : Repeated β :=
  if ts = [] then none else some (ts.map fun t ↦ some (proto t))

/-- `ToolCallsFromProto`, `messagesFromProto` and `toolsFromProto`. -/
def sliceFromProto (fromProto : Option β → α) : Repeated β → List α
  | none => []
  | some ps => ps.map fromProto

end Slices

namespace Model

def proto (m : Model) : Proto.Model := ⟨m.name, m.digest⟩

def fromProto : Option Proto.Model → Model
  | none => ⟨"", ""⟩
  | some p => ⟨p.name, p.digest⟩

end Model

def modelsFromProto : Repeated Proto.Model → Option (List Model)
  | none => none
  | some ps => some (ps.map Model.fromProto)

def modelsToProto : Option (List Model) → Repeated Proto.Model
  | none => none
  | some ms => some (ms.map fun m ↦ some m.proto)

namespace ToolCall

def proto (t : ToolCall) : Proto.ToolCall := ⟨t.id, t.type, t.functionName, t.arguments⟩

def fromProto : Option Proto.ToolCall → ToolCall
  | none => {}
  | some p => ⟨p.id, p.type, p.functionName, p.argumentsJson⟩

end ToolCall

def toolCallsToProto : List ToolCall → Repeated Proto.ToolCall := sliceToProto ToolCall.proto

def toolCallsFromProto : Repeated Proto.ToolCall → List ToolCall := sliceFromProto ToolCall.fromProto

namespace Message

def proto (m : Message) : Proto.ChatMessage :=
  ⟨m.role, m.content, m.toolCallID, m.name, toolCallsToProto m.toolCalls⟩

def fromProto : Option Proto.ChatMessage → Message
  | none => {}
  | some p => ⟨p.role, p.content, p.toolCallId, p.name, toolCallsFromProto p.toolCalls⟩

end Message

def messagesToProto : List Message → Repeated Proto.ChatMessage := sliceToProto Message.proto

def messagesFromProto : Repeated Proto.ChatMessage → List Message := sliceFromProto Message.fromProto

namespace Types

namespace Tool

def proto (t : Tool) : Proto.Tool :=
  ⟨t.type, some ⟨t.function.name, t.function.description, t.function.parameters⟩⟩

/-- The getters of an absent function return zero values. -/
def fromProto : Option Proto.Tool → Tool
  | none => {}
  | some p =>
    let fn := p.function.getD {}
    ⟨p.type, ⟨fn.name, fn.description, fn.parametersJson⟩⟩

end Tool

def toolsToProto : List Tool → Repeated Proto.Tool := sliceToProto Tool.proto

def toolsFromProto : Repeated Proto.Tool → List Tool := sliceFromProto Tool.fromProto

namespace Job

def proto (j : Job) : Proto.Job :=
  ⟨j.id, j.model, j.prompt, messagesToProto j.messages, toolsToProto j.tools, j.keepAliveSeconds⟩

def fromProto : Option Proto.Job → Job
  | none => {}
  | some p =>
    { id := p.id
      model := p.model
      prompt := p.prompt
      messages := messagesFromProto p.messages
      tools := toolsFromProto p.tools
      keepAliveSeconds := p.keepAliveSeconds }

end Job

namespace Heartbeat

def proto (h : Heartbeat) : Proto.Heartbeat :=
  ⟨h.workerID, h.activeJobs, h.totalVRAM, h.freeVRAM, h.load, h.gpuType,
    modelsToProto h.availableModels⟩

def fromProto : Option Proto.Heartbeat → Heartbeat
  | none => {}
  | some p => ⟨p.workerId, p.activeJobs, p.totalVramBytes, p.freeVramBytes, p.load, p.gpuType,
      modelsFromProto p.availableModels⟩

end Heartbeat

end Types

namespace JobError

def proto : Option JobError → Option Proto.Error
  | none => none
  | some e => some ⟨e.code, e.message⟩

def fromProto : Option Proto.Error → Option JobError
  | none => none
  | some p => some ⟨p.code, p.message⟩

end JobError

namespace JobResult

def proto (r : JobResult) : Proto.JobResult :=
  ⟨r.jobID, r.output, JobError.proto r.err, r.tokens, toolCallsToProto r.toolCalls, r.finishReason,
    r.promptTokens, r.completionTokens⟩

def fromProto : Option Proto.JobResult → JobResult
  | none => {}
  | some p => ⟨p.jobId, p.output, JobError.fromProto p.error, p.tokens,
      toolCallsFromProto p.toolCalls, p.finishReason, p.promptTokens, p.completionTokens⟩

end JobResult

namespace JobChunk

def proto (c : JobChunk) : Proto.JobChunk :=
  ⟨c.jobID, c.delta, c.done, JobError.proto c.err, c.tokens, toolCallsToProto c.toolCalls,
    c.finishReason, c.promptTokens, c.completionTokens⟩

def fromProto : Option Proto.JobChunk → JobChunk
  | none => {}
  | some p => ⟨p.jobId, p.delta, p.done, JobError.fromProto p.error, p.tokens,
      toolCallsFromProto p.toolCalls, p.finishReason, p.promptTokens, p.completionTokens⟩

end JobChunk

/-! The round trips, from the innermost type outwards. -/

theorem sliceFromProto_overWire {α β : Type} {proto : α → β} {elem : β → β} {fromProto : Option β → α}
    (h : ∀ t, fromProto (some (elem (proto t))) = t) (ts : List α) :
    sliceFromProto fromProto (Repeated.overWire elem (sliceToProto proto ts)) = ts := by
  cases ts with
  | nil => rfl
  | cons t ts =>
    simp only [sliceToProto, reduceCtorEq, if_false, List.map_cons, Repeated.overWire,
      sliceFromProto, Option.map_some, h, List.map_map]
    exact congrArg (t :: ·) (List.map_id'' h ts)

theorem toolCallsFromProto_overWire (ts : List ToolCall) :
    toolCallsFromProto (Repeated.overWire (fun t ↦ t) (toolCallsToProto ts)) = ts :=
  sliceFromProto_overWire (fun _ ↦ rfl) ts

theorem Message.fromProto_overWire (m : Message) : fromProto (some m.proto.overWire) = m := by
  simp only [Message.fromProto, Proto.ChatMessage.overWire, Message.proto,
    toolCallsFromProto_overWire]

theorem messagesFromProto_overWire (ms : List Message) :
    messagesFromProto (Repeated.overWire Proto.ChatMessage.overWire (messagesToProto ms)) = ms :=
  sliceFromProto_overWire Message.fromProto_overWire ms

theorem Types.toolsFromProto_overWire (ts : List Tool) :
    toolsFromProto (Repeated.overWire (fun t ↦ t) (toolsToProto ts)) = ts :=
  sliceFromProto_overWire (fun _ ↦ rfl) ts

theorem modelsFromProto_overWire (ms : Option (List Model)) :
    modelsFromProto (Repeated.overWire (fun t ↦ t) (modelsToProto ms)) = ms.filter (· ≠ []) := by
  match ms with
  | none | some [] => rfl
  | some (m :: ms) =>
    simp only [modelsToProto, List.map_cons, Repeated.overWire, modelsFromProto, List.map_map]
    exact congrArg (fun ms ↦ some (m :: ms)) (List.map_id'' (fun _ ↦ rfl) ms)

theorem JobError.fromProto_proto (err : Option JobError) : fromProto (proto err) = err := by
  cases err <;> rfl

/-- Over the wire a job loses its session id and a heartbeat an empty list of models; all else
comes back as it was sent. -/
theorem wire_round_trip :
    (∀ j : Types.Job, Types.Job.fromProto (some j.proto.overWire) = { j with sessionID := "" }) ∧
    (∀ c : JobChunk, JobChunk.fromProto (some c.proto.overWire) = c) ∧
    (∀ r : JobResult, JobResult.fromProto (some r.proto.overWire) = r) ∧
    ∀ h : Types.Heartbeat, Types.Heartbeat.fromProto (some h.proto.overWire) =
      { h with availableModels := h.availableModels.filter (· ≠ []) } := by
  refine ⟨fun j ↦ ?_, fun c ↦ ?_, fun r ↦ ?_, fun h ↦ ?_⟩
  · simp only [Types.Job.fromProto, Proto.Job.overWire, Types.Job.proto, messagesFromProto_overWire,
      Types.toolsFromProto_overWire]
  · simp only [JobChunk.fromProto, Proto.JobChunk.overWire, JobChunk.proto,
      JobError.fromProto_proto, toolCallsFromProto_overWire]
  · simp only [JobResult.fromProto, Proto.JobResult.overWire, JobResult.proto,
      JobError.fromProto_proto, toolCallsFromProto_overWire]
  · simp only [Types.Heartbeat.fromProto, Proto.Heartbeat.overWire, Types.Heartbeat.proto,
      modelsFromProto_overWire]

end AgentGpu
