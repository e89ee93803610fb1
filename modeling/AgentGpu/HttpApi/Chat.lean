import AgentGpu.ControlPlane.Worker
import AgentGpu.Ollama.Executor

namespace AgentGpu.HttpApi

open ControlPlane

inductive ChatMode
  | stateless
  | affinity
  | stateful
  deriving DecidableEq

structure ErrorDetail where
  message : String
  code : String
  type : String
  deriving DecidableEq

/-- The delta of one frame; its tool calls are those that `fromDomainToolCalls` gives ids. -/
structure ChatChunkChoice where
  role : String := ""
  content : String := ""
  toolCalls : List ToolCall := []
  finishReason : Option String := none
  deriving DecidableEq

inductive Frame
  | data (choice : ChatChunkChoice)
  | error (detail : ErrorDetail)
  | done
  deriving DecidableEq

def Frame.toolCalls : Frame → List ToolCall
  | .data choice => choice.toolCalls
  | _ => []

def streamErrorBody (jerr : JobError) : ErrorDetail where
  message := "inference failed"
  code := if jerr.code = "" then "internal_error" else jerr.code
  type := "server_error"

def finishReasonOrStop (r : String) : String := if r = "" then "stop" else r

/-- The turns that `persistTurn` appends to the session. -/
def persistTurn (newMessages : List Message) (output : String) (toolCalls : List ToolCall) :
    List Message :=
  newMessages ++ [{ role := "assistant", content := output, toolCalls }]

structure ChatStream where
  roleSent : Bool := false
  content : String := ""
  toolCalls : List ToolCall := []
  promptTokens : UInt64 := 0
  completionTokens : UInt64 := 0
  totalTokens : UInt64 := 0
  failed : Bool := false
  sawDone : Bool := false
  frames : List Frame := []

def ChatStream.fail (s : ChatStream) (err : JobError) : ChatStream :=
  { s with failed := true, frames := s.frames ++ [.error (streamErrorBody err)] }

def ChatStream.send (s : ChatStream) (chunk : JobChunk) : ChatStream where
  roleSent := true
  content := s.content ++ chunk.delta
  toolCalls := s.toolCalls ++ chunk.toolCalls
  promptTokens := if chunk.done then chunk.promptTokens else s.promptTokens
  completionTokens := if chunk.done then chunk.completionTokens else s.completionTokens
  totalTokens := if chunk.done then chunk.tokens else s.totalTokens
  failed := s.failed
  sawDone := s.sawDone || chunk.done
  frames := s.frames ++
    [.data
      { role := if s.roleSent then "" else "assistant"
        content := chunk.delta
        toolCalls := chunk.toolCalls
        finishReason := if chunk.done then some (finishReasonOrStop chunk.finishReason) else none }]

def ChatStream.run (s : ChatStream) : List JobChunk → ChatStream
  | [] => s
  | chunk :: chunks =>
    match chunk.err with
    | some err => s.fail err
    | none => (s.send chunk).run chunks

/-- The frames of a streamed chat and the turns it persists; `live` says whether the client
is still there at the end. -/
def streamChat (mode : ChatMode) (newMessages : List Message) (live : Bool)
    (chunks : List JobChunk) : List Frame × Option (List Message) :=
  let s := ChatStream.run {} chunks
  (s.frames ++ [.done],
    if mode = .stateful ∧ ¬s.failed ∧ s.sawDone ∧ live then
      some (persistTurn newMessages s.content s.toolCalls)
    else none)

/-- The message of a chat that is not streamed and the turns it persists, once the job has
returned without an error. -/
def respondChat (mode : ChatMode) (newMessages : List Message) (res : JobResult) :
    Message × Option (List Message) :=
  ({ role := "assistant", content := res.output, toolCalls := res.toolCalls },
    if mode = .stateful then some (persistTurn newMessages res.output res.toolCalls) else none)

/-- What the server makes of a worker's chunks for one job: the copies for an observer that
keeps up, and the result. -/
def accumulate (w : Worker) : List Produced → List JobChunk × Option JobResult
  | [] => ([], none)
  | c :: cs =>
    if c.chunk.done then ([c.chunk], some (w.assemble c).result)
    else
      let (observed, res) := accumulate (w.append c) cs
      (c.chunk :: observed, res)

theorem accumulate_terminal (w : Worker) {cs : List Produced} (last : Produced)
    (hcs : ∀ c ∈ cs, c.chunk.done = false) (hlast : last.chunk.done) :
    (accumulate w (cs ++ [last])).1 = (cs ++ [last]).map Produced.chunk ∧
      ∃ res, (accumulate w (cs ++ [last])).2 = some res ∧
        res.toolCalls = last.chunk.toolCalls := by
  induction cs generalizing w with
  | nil => simp [accumulate, hlast, Worker.assemble]
  | cons c cs ih =>
    obtain ⟨hc, hcs⟩ := List.forall_mem_cons.mp hcs
    obtain ⟨hobserved, res, hres, hcalls⟩ := ih (w.append c) hcs
    simp [accumulate, hc, hobserved, hres, hcalls]

theorem ChatStream.run_append {s : ChatStream} {cs : List JobChunk} (hcs : ∀ c ∈ cs, c.err = none)
    (cs' : List JobChunk) : s.run (cs ++ cs') = (cs.foldl send s).run cs' := by
  induction cs generalizing s with
  | nil => rfl
  | cons c cs ih =>
    obtain ⟨hc, hcs⟩ := List.forall_mem_cons.mp hcs
    simp only [List.cons_append, run, hc, List.foldl_cons]
    exact ih hcs

theorem ChatStream.foldl_send (s : ChatStream) (cs : List JobChunk) :
    (cs.foldl send s).failed = s.failed ∧
      (cs.foldl send s).toolCalls = s.toolCalls ++ cs.flatMap JobChunk.toolCalls ∧
      (cs.foldl send s).frames.flatMap Frame.toolCalls =
        s.frames.flatMap Frame.toolCalls ++ cs.flatMap JobChunk.toolCalls := by
  induction cs generalizing s with
  | nil => simp
  | cons c cs ih =>
    obtain ⟨hfailed, hcalls, hframes⟩ := ih (s.send c)
    refine ⟨hfailed, ?_, ?_⟩
    · rw [List.foldl_cons, hcalls]
      simp [send]
    · rw [List.foldl_cons, hframes]
      simp [send, Frame.toolCalls]

theorem streamChat_terminal (mode : ChatMode) (newMessages : List Message) {cs : List JobChunk}
    {last : JobChunk} (hcs : ∀ c ∈ cs, c.err = none) (hdone : last.done) (hlast : last.err = none) :
    (streamChat mode newMessages true (cs ++ [last])).1.flatMap Frame.toolCalls =
        (cs ++ [last]).flatMap JobChunk.toolCalls ∧
      ∃ content, (streamChat mode newMessages true (cs ++ [last])).2 =
        if mode = .stateful then
          some (persistTurn newMessages content ((cs ++ [last]).flatMap JobChunk.toolCalls))
        else none := by
  obtain ⟨hfailed, hcalls, hframes⟩ := ChatStream.foldl_send {} cs
  simp only [streamChat, ChatStream.run_append hcs, ChatStream.run, hlast]
  constructor
  · simp [ChatStream.send, Frame.toolCalls, hframes]
  · refine ⟨(cs.foldl ChatStream.send {}).content ++ last.delta, ?_⟩
    simp [ChatStream.send, hfailed, hcalls, hdone]

/-- The tool calls of a completed response reach a streaming client and its session twice,
once in the deltas and once in the terminal chunk, so that they agree with the result of the
other path just when there are none. -/
theorem streamed_tool_calls_agree_iff (w : Worker) (request : ℕ) (jobID : String)
    (readErr : Option JobError) (lines : List Ollama.Line) (mode : ChatMode)
    (newMessages : List Message) (hlines : Ollama.completes lines) :
    ∃ chunks res,
      accumulate w ((Ollama.serve jobID readErr lines).map (⟨·, some request⟩)) =
        (chunks, some res) ∧
      ((streamChat mode newMessages true chunks).1.flatMap Frame.toolCalls = res.toolCalls ∧
          (streamChat mode newMessages true chunks).1.flatMap Frame.toolCalls =
            (respondChat mode newMessages res).1.toolCalls ∧
          (streamChat mode newMessages true chunks).2.map (·.map Message.toolCalls) =
            (respondChat mode newMessages res).2.map (·.map Message.toolCalls) ↔
        ∀ co ∈ Ollama.objects lines, co.toolCalls = []) := by
  obtain ⟨cs, term, hserve, hcs, hdeltas, herr, hcalls⟩ :=
    Ollama.serve_completes jobID readErr hlines
  have hdone : ∀ c ∈ cs.map (⟨·, some request⟩ : JobChunk → Produced), c.chunk.done = false :=
    List.forall_mem_map.mpr fun c hc ↦ (hcs c hc).1
  obtain ⟨hobserved, res, hres, hresult⟩ :=
    accumulate_terminal w ⟨Ollama.terminal term, some request⟩ hdone rfl
  have hlast : (Ollama.terminal term).done := rfl
  obtain ⟨hsent, content, hturn⟩ :=
    streamChat_terminal mode newMessages (fun c hc ↦ (hcs c hc).2) hlast herr
  have htwice : (cs ++ [Ollama.terminal term]).flatMap JobChunk.toolCalls =
      Ollama.toolCalls lines ++ Ollama.toolCalls lines := by
    simp [hdeltas, Ollama.terminal, hcalls]
  have honce : res.toolCalls = Ollama.toolCalls lines := hresult.trans hcalls
  refine ⟨cs ++ [Ollama.terminal term], res, ?_, ?_⟩
  · rw [hserve, List.map_append, List.map_singleton, Prod.ext_iff]
    exact ⟨hobserved.trans (by simp [Function.comp_def]), hres⟩
  · rw [hsent, hturn, htwice, ← Ollama.toolCalls_eq_nil_iff]
    constructor
    · rintro ⟨h, -⟩
      rw [honce] at h
      exact List.append_right_eq_self.mp h
    · intro h
      simp only [respondChat, honce, h, List.append_nil, true_and]
      split_ifs <;> simp [persistTurn]

theorem streamed_tool_calls_agree_iff_twoObjects :
    Ollama.completes [.object { content := "a" }, .object { done := true }] ∧
      ∃ chunks res,
        accumulate {} ((Ollama.serve "j" none
          [.object { content := "a" }, .object { done := true }]).map (⟨·, some 0⟩)) =
            (chunks, some res) ∧
        (streamChat .stateful [] true chunks).2.map (·.map Message.toolCalls) =
          (respondChat .stateful [] res).2.map (·.map Message.toolCalls) := by
  refine ⟨by decide, ?_⟩
  obtain ⟨chunks, res, hres, hiff⟩ := streamed_tool_calls_agree_iff {} 0 "j" none
    [.object { content := "a" }, .object { done := true }] .stateful [] (by decide)
  exact ⟨chunks, res, hres, (hiff.mpr (by decide)).2.2⟩

/-- A response of one object with one tool call: the client is sent two, and two are stored. -/
theorem streamed_tool_call_doubled :
    let lines : List Ollama.Line := [.object { toolCalls := [⟨"f", ""⟩], done := true }]
    let call : ToolCall := { type := "function", functionName := "f", arguments := "\x7b\x7d" }
    Ollama.completes lines ∧
      ∃ chunks res,
        accumulate {} ((Ollama.serve "j" none lines).map (⟨·, some 0⟩)) = (chunks, some res) ∧
        res.toolCalls = [call] ∧
        (streamChat .stateful [] true chunks).1.flatMap Frame.toolCalls = [call, call] ∧
        (streamChat .stateful [] true chunks).2.map (·.map Message.toolCalls) =
          some [[call, call]] ∧
        (respondChat .stateful [] res).2.map (·.map Message.toolCalls) = some [[call]] := by
  refine ⟨by decide, _, _, rfl, ?_⟩
  decide

end AgentGpu.HttpApi
