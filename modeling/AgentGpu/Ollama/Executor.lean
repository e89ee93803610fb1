import AgentGpu.Types
import Mathlib.Data.List.Infix

namespace AgentGpu.Ollama

structure ChatToolCall where
  name : String := ""
  arguments : String := ""
  deriving DecidableEq

/-- One decoded object of the response to `/api/chat`. -/
structure ChatResponse where
  content : String := ""
  toolCalls : List ChatToolCall := []
  done : Bool := false
  doneReason : String := ""
  evalCount : UInt64 := 0
  promptEvalCount : UInt64 := 0
  error : String := ""
  deriving DecidableEq

structure ChatResult where
  promptTokens : UInt64 := 0
  completionTokens : UInt64 := 0
  tokens : UInt64 := 0
  toolCalls : List ToolCall := []
  doneReason : String := ""
  deriving DecidableEq

def codeModelNotFound : String := "model_not_found"

def codeOllamaError : String := "ollama_error"

def fromOllamaToolCalls (calls : List ChatToolCall) : List ToolCall :=
  calls.map fun c ↦
    { type := "function"
      functionName := c.name
      arguments := if c.arguments = "" then "\x7b\x7d" else c.arguments }

def isModelNotFound (msg : String) : Bool :=
  let m := msg.toList.map toLower
  ["not found", "no such", "try pulling"].any fun s ↦ s.toList <:+: m

def errorFromMessage (msg : String) : JobError :=
  if isModelNotFound msg then ⟨codeModelNotFound, msg⟩ else ⟨codeOllamaError, msg⟩

/-- What the scanner loop meets next: a line to skip, one that does not decode, an object,
or a context that was cancelled since the last line. -/
inductive Line
  | blank
  | malformed (reason : String)
  | object (co : ChatResponse)
  | cancelled (err : JobError)

/-- What a stream comes to: the deltas handed to `emit`, the result and the error, if any. -/
structure Streamed where
  emitted : List (String × List ToolCall) := []
  result : ChatResult := {}
  err : Option JobError := none

/-- The loop of `ChatStream`; `readErr` is what the scanner reports when it stops. A request
that never got a response has no lines and its error here. -/
def chatStream (readErr : Option JobError) : ChatResult → List Line → Streamed
  | result, [] =>
    { result
      err := some (readErr.getD ⟨codeOllamaError, "chat stream ended without completion"⟩) }
  | result, .blank :: lines => chatStream readErr result lines
  | result, .cancelled err :: _ => { result, err := some err }
  | result, .malformed reason :: _ =>
    { result, err := some ⟨codeOllamaError, "decode chat chunk: " ++ reason⟩ }
  | result, .object co :: lines =>
    if co.error ≠ "" then { result, err := some (errorFromMessage co.error) }
    else
      let calls := fromOllamaToolCalls co.toolCalls
      let result := { result with toolCalls := result.toolCalls ++ calls }
      let emitted := if co.content ≠ "" ∨ calls ≠ [] then [(co.content, calls)] else []
      if co.done then
        { emitted
          result := { result with
            promptTokens := co.promptEvalCount
            completionTokens := co.evalCount
            tokens := co.evalCount + co.promptEvalCount
            doneReason := co.doneReason } }
      else
        let rest := chatStream readErr result lines
        { rest with emitted := emitted ++ rest.emitted }

def finishReason (res : ChatResult) : String :=
  if res.toolCalls ≠ [] then "tool_calls"
  else if res.doneReason = "" then "stop"
  else res.doneReason

/-- The callback that `Execute` hands to `ChatStream`. -/
def deltaChunk (jobID : String) (delta : String × List ToolCall) : List JobChunk :=
  if delta.1 ≠ "" ∨ delta.2 ≠ [] then [{ jobID, delta := delta.1, toolCalls := delta.2 }] else []

/-- The chunks that `Execute` emits and the result it returns. -/
def execute (jobID : String) (readErr : Option JobError) (lines : List Line) :
    List JobChunk × JobResult :=
  let s := chatStream readErr {} lines
  let output := String.join (s.emitted.map Prod.fst)
  (s.emitted.flatMap (deltaChunk jobID),
    match s.err with
    | some err => { jobID, output, err := some err, tokens := s.result.tokens }
    | none =>
      { jobID, output
        tokens := s.result.tokens
        promptTokens := s.result.promptTokens
        completionTokens := s.result.completionTokens
        toolCalls := s.result.toolCalls
        finishReason := finishReason s.result })

def terminal (res : JobResult) : JobChunk where
  jobID := res.jobID
  done := true
  err := res.err
  tokens := res.tokens
  toolCalls := res.toolCalls
  finishReason := res.finishReason
  promptTokens := res.promptTokens
  completionTokens := res.completionTokens

def serve (jobID : String) (readErr : Option JobError) (lines : List Line) : List JobChunk :=
  let (chunks, res) := execute jobID readErr lines
  chunks ++ [terminal res]

def objects : List Line → List ChatResponse
  | .blank :: lines => objects lines
  | .object co :: lines => if co.done then [co] else co :: objects lines
  | _ => []

def completes : List Line → Bool
  | .blank :: lines => completes lines
  | .object co :: lines => co.error = "" && (co.done || completes lines)
  | _ => false

def toolCalls (lines : List Line) : List ToolCall :=
  (objects lines).flatMap fun co ↦ fromOllamaToolCalls co.toolCalls

theorem toolCalls_eq_nil_iff {lines : List Line} :
    toolCalls lines = [] ↔ ∀ co ∈ objects lines, co.toolCalls = [] := by
  simp [toolCalls, fromOllamaToolCalls, List.flatMap_eq_nil_iff]

variable {jobID : String} {readErr : Option JobError} {lines : List Line}

theorem toolCalls_object {co : ChatResponse} :
    toolCalls (.object co :: lines) =
      fromOllamaToolCalls co.toolCalls ++ if co.done then [] else toolCalls lines := by
  simp only [toolCalls, objects]
  split_ifs <;> simp

theorem chatStream_completes (readErr : Option JobError) (hlines : completes lines)
    (result : ChatResult) :
    (chatStream readErr result lines).err = none ∧
      (chatStream readErr result lines).result.toolCalls = result.toolCalls ++ toolCalls lines ∧
      (chatStream readErr result lines).emitted.flatMap Prod.snd = toolCalls lines := by
  induction lines generalizing result with
  | nil => cases hlines
  | cons line lines ih =>
    cases line with
    | blank => exact ih hlines result
    | malformed _ | cancelled _ => cases hlines
    | object co =>
      simp only [completes, Bool.and_eq_true, decide_eq_true_eq, Bool.or_eq_true] at hlines
      have hemit : (if co.content ≠ "" ∨ fromOllamaToolCalls co.toolCalls ≠ []
          then [(co.content, fromOllamaToolCalls co.toolCalls)] else []).flatMap Prod.snd =
            fromOllamaToolCalls co.toolCalls := by
        split_ifs with h
        · simp
        · exact (not_not.mp (not_or.mp h).2).symm
      rw [toolCalls_object]
      by_cases hdone : co.done
      · simp [chatStream, hlines.1, hdone, hemit]
      · obtain ⟨herr, hcalls, hemitted⟩ := ih (hlines.2.resolve_left hdone)
          { result with toolCalls := result.toolCalls ++ fromOllamaToolCalls co.toolCalls }
        simp [chatStream, hlines.1, hdone, hemit, herr, hcalls, hemitted, List.flatMap_append]

theorem deltaChunk_toolCalls (delta : String × List ToolCall) :
    (deltaChunk jobID delta).flatMap JobChunk.toolCalls = delta.2 := by
  unfold deltaChunk
  split_ifs with h
  · simp
  · exact (not_not.mp (not_or.mp h).2).symm

theorem mem_deltaChunk {delta : String × List ToolCall} {c : JobChunk}
    (hc : c ∈ deltaChunk jobID delta) : c.done = false ∧ c.err = none := by
  unfold deltaChunk at hc
  split_ifs at hc
  · rw [List.mem_singleton.mp hc]
    exact ⟨rfl, rfl⟩
  · cases hc

theorem serve_completes (jobID : String) (readErr : Option JobError) (hlines : completes lines) :
    ∃ chunks res, serve jobID readErr lines = chunks ++ [terminal res] ∧
      (∀ c ∈ chunks, c.done = false ∧ c.err = none) ∧
      chunks.flatMap JobChunk.toolCalls = toolCalls lines ∧
      res.err = none ∧ res.toolCalls = toolCalls lines := by
  obtain ⟨herr, hcalls, hemitted⟩ := chatStream_completes readErr hlines {}
  refine ⟨(execute jobID readErr lines).1, (execute jobID readErr lines).2, rfl, ?_, ?_, ?_, ?_⟩
  · intro c hc
    obtain ⟨delta, -, hc⟩ := List.mem_flatMap.mp hc
    exact mem_deltaChunk hc
  · simp only [execute, List.flatMap_assoc, deltaChunk_toolCalls]
    exact hemitted
  · simp [execute, herr]
  · simpa [execute, herr] using hcalls

end AgentGpu.Ollama
