import AgentGpu.HttpApi.Conversation
import AgentGpu.HttpApi.RequestId

namespace AgentGpu.HttpApi

open Foundation Sessions

structure ChatToolCallWire where
  id : String
  type : String
  name : String
  arguments : String
  deriving DecidableEq

structure ChatMessage where
  role : String
  content : String
  name : String
  toolCallID : String
  toolCalls : List ChatToolCallWire
  deriving DecidableEq

/-- What the random source gives for each tool call of a message, should one be needed. -/
abbrev Draws := ℕ → Option (List UInt8)

def fromDomainToolCall (entropy : Option (List UInt8)) (c : ToolCall) : ChatToolCallWire where
  id := if c.id = "" then newID "call_" entropy else c.id
  type := if c.type = "" then "function" else c.type
  name := c.functionName
  arguments := c.arguments

def fromDomainToolCalls (draws : Draws) (cs : List ToolCall) : List ChatToolCallWire :=
  cs.mapIdx fun i c ↦ fromDomainToolCall (draws i) c

def fromDomainMessages (draws : ℕ → Draws) (ms : List Message) : List ChatMessage :=
  ms.mapIdx fun i m ↦
    { role := m.role
      content := m.content
      name := m.name
      toolCallID := m.toolCallID
      toolCalls := fromDomainToolCalls (draws i) m.toolCalls }

/-- The tool calls of the response, in the message or in the frames of the stream. -/
def Ending.sent (q : ChatRequest) (draws : ℕ → Draws) : Ending → List ChatToolCallWire
  | .error => []
  | .result res =>
    fromDomainToolCalls (draws 0) (respondChat (resolveSession q).1 q.messages res).1.toolCalls
  | .stream live chunks =>
    ((streamChat (resolveSession q).1 q.messages live chunks).1.mapIdx fun i frame ↦
      fromDomainToolCalls (draws i) frame.toolCalls).flatten

def Ending.toolCalls : Ending → List ToolCall
  | .error => []
  | .result res => res.toolCalls
  | .stream _ chunks => chunks.flatMap JobChunk.toolCalls

structure SessionDetailResponse where
  id : String
  object : String
  model : String
  created : ℤ
  lastActive : ℤ
  messages : List ChatMessage
  deriving DecidableEq

/-- `GET /v1/sessions/{id}`, whose two lookups and whose read of the history may each find the
manager in another state; `none` stands for the 404. -/
def handleGetSession (atGet atHistory atRead : Manager) (draws : ℕ → Draws) (id keyID : String) :
    Option SessionDetailResponse := do
  let sess ← atGet.ownedActive id keyID atGet.clock
  let _ ← atHistory.ownedActive id keyID atHistory.clock
  return {
    id := sess.id
    object := "session"
    model := sess.model
    created := sess.createdAt / second
    lastActive := sess.lastActiveAt / second
    messages := fromDomainMessages draws (atRead.history.get id) }

/-- The tool calls of a turn have these ids in the response, in the reply that the turn
persists and wherever a session shows this reply. -/
structure CarriesIDs (q : ChatRequest) (ending : Ending) (draws : ℕ → Draws) (reply : Message)
    (ids : List String) : Prop where
  sent : (ending.sent q draws).map ChatToolCallWire.id = ids
  stored : reply.toolCalls.map ToolCall.id = ids
  retrieved : ∀ (atGet atHistory atRead : Manager) (draws' : ℕ → Draws) (keyID : String)
    (detail : SessionDetailResponse) (i : ℕ),
    handleGetSession atGet atHistory atRead draws' q.sessionID keyID = some detail →
    (atRead.history.get q.sessionID)[i]? = some reply →
    (detail.messages[i]?).map (fun m ↦ m.toolCalls.map ChatToolCallWire.id) = some ids

def Renders (cs : List ToolCall) (ws : List ChatToolCallWire) : Prop :=
  List.Forall₂ (fun c w ↦ ∃ entropy, w = fromDomainToolCall entropy c) cs ws

section Ids

variable {cs : List ToolCall} {ws : List ChatToolCallWire}

theorem newID_call_ne_empty (entropy : Option (List UInt8)) : newID "call_" entropy ≠ "" := by
  intro hempty
  have hlen := congrArg String.length hempty
  simp [newID] at hlen

theorem renders_fromDomainToolCalls (draws : Draws) (cs : List ToolCall) :
    Renders cs (fromDomainToolCalls draws cs) := by
  induction cs generalizing draws with
  | nil => exact .nil
  | cons c cs ih =>
    rw [fromDomainToolCalls, List.mapIdx_cons]
    exact .cons ⟨draws 0, rfl⟩ (ih fun i ↦ draws (i + 1))

theorem renders_frames (draws : ℕ → Draws) (frames : List Frame) :
    Renders (frames.flatMap Frame.toolCalls)
      (frames.mapIdx fun i frame ↦ fromDomainToolCalls (draws i) frame.toolCalls).flatten := by
  induction frames generalizing draws with
  | nil => exact .nil
  | cons frame frames ih =>
    rw [List.flatMap_cons, List.mapIdx_cons, List.flatten_cons]
    exact List.rel_append (renders_fromDomainToolCalls (draws 0) frame.toolCalls)
      (ih fun i ↦ draws (i + 1))

theorem Renders.ids_eq_iff (h : Renders cs ws) :
    ws.map ChatToolCallWire.id = cs.map ToolCall.id ↔ ∀ c ∈ cs, c.id ≠ "" := by
  induction h with
  | nil => simp
  | @cons c w cs ws hw _ ih =>
    obtain ⟨entropy, rfl⟩ := hw
    rw [List.map_cons, List.map_cons, List.cons_eq_cons, ih, List.forall_mem_cons]
    refine and_congr_left fun _ ↦ ?_
    by_cases hc : c.id = ""
    · simp [fromDomainToolCall, hc, newID_call_ne_empty]
    · simp [fromDomainToolCall, hc]

theorem Ending.sent_renders {q : ChatRequest} {ending : Ending} {reply : Message}
    (hturns : ending.turns q = some (q.messages ++ [reply])) (draws : ℕ → Draws) :
    reply.toolCalls = ending.toolCalls ∧ Renders ending.toolCalls (ending.sent q draws) := by
  cases ending with
  | error => cases hturns
  | result res =>
    simp only [Ending.turns, respondChat] at hturns
    split_ifs at hturns
    have hreply := List.append_cancel_left (Option.some.inj hturns)
    cases hreply
    exact ⟨rfl, renders_fromDomainToolCalls (draws 0) res.toolCalls⟩
  | stream live chunks =>
    simp only [Ending.turns, streamChat] at hturns
    split_ifs at hturns with hgate
    have hreply := List.append_cancel_left (Option.some.inj hturns)
    cases hreply
    have hclean := (ChatStream.run_clean (Bool.eq_false_iff.mpr hgate.2.1)).1
    have hrun : ChatStream.run {} chunks = chunks.foldl ChatStream.send {} := by
      simpa [ChatStream.run] using ChatStream.run_append hclean []
    obtain ⟨-, hcalls, hframes⟩ := ChatStream.foldl_send {} chunks
    rw [hrun]
    refine ⟨by simpa [Ending.toolCalls] using hcalls, ?_⟩
    have hrender := renders_frames draws ((streamChat (resolveSession q).1 q.messages live chunks).1)
    have hsent : (streamChat (resolveSession q).1 q.messages live chunks).1.flatMap Frame.toolCalls =
        chunks.flatMap JobChunk.toolCalls := by
      simp only [streamChat, hrun, List.flatMap_append, hframes]
      simp [Frame.toolCalls]
    rw [hsent] at hrender
    exact hrender

theorem getElem?_handleGetSession {atGet atHistory atRead : Manager} {draws : ℕ → Draws}
    {id keyID : String} {detail : SessionDetailResponse} {i : ℕ} {m : Message}
    (h : handleGetSession atGet atHistory atRead draws id keyID = some detail)
    (hm : (atRead.history.get id)[i]? = some m) :
    (detail.messages[i]?).map ChatMessage.toolCalls =
      some (fromDomainToolCalls (draws i) m.toolCalls) := by
  obtain ⟨sess, -, h⟩ := Option.bind_eq_some_iff.mp h
  obtain ⟨_, -, h⟩ := Option.bind_eq_some_iff.mp h
  cases h
  simp [fromDomainMessages, List.getElem?_mapIdx, hm]

/-- The tool calls of a stateful turn keep their ids exactly if the model's output gives each of
them one. -/
theorem tool_call_ids_stable_iff (q : ChatRequest) (ending : Ending) (draws : ℕ → Draws)
    {reply : Message} (hturns : ending.turns q = some (q.messages ++ [reply])) :
    (∃ ids, CarriesIDs q ending draws reply ids) ↔ ∀ c ∈ ending.toolCalls, c.id ≠ "" := by
  obtain ⟨hstored, hsent⟩ := ending.sent_renders hturns draws
  constructor
  · rintro ⟨ids, hids⟩
    rw [← hsent.ids_eq_iff, hids.sent, ← hstored, hids.stored]
  · intro hall
    refine ⟨reply.toolCalls.map ToolCall.id, ?_, rfl, ?_⟩
    · rw [hstored]
      exact hsent.ids_eq_iff.mpr hall
    · intro atGet atHistory atRead draws' keyID detail i hget hi
      have hcalls := getElem?_handleGetSession hget hi
      have hids := (renders_fromDomainToolCalls (draws' i) reply.toolCalls).ids_eq_iff.mpr
        (hstored ▸ hall)
      rw [← hids, ← Option.map_some, ← hcalls, Option.map_map]
      rfl

end Ids

theorem tool_call_ids_stable_iff_given :
    let q : ChatRequest :=
      { sessionID := "sess_0", keyID := "a1", messages := [{ role := "user" }] }
    let reply : Message := { role := "assistant", toolCalls := [{ id := "call_1" }] }
    let ending := Ending.stream true [{ toolCalls := [{ id := "call_1" }], done := true }]
    ending.turns q = some (q.messages ++ [reply]) ∧
      ∃ ids, CarriesIDs q ending (fun _ _ ↦ none) reply ids := by
  refine ⟨by decide, ?_⟩
  exact (tool_call_ids_stable_iff _ _ _ (by decide)).mpr (by decide)

/-- The model calls a tool without an id. The client is sent one, the session has none, and each
time it is asked for the session shows another one. -/
theorem tool_call_id_differs :
    let q : ChatRequest :=
      { sessionID := "sess_0", keyID := "a1", messages := [{ role := "user" }] }
    let ending := Ending.result { toolCalls := [{ functionName := "f" }] }
    let drawn (b : UInt8) : ℕ → Draws := fun _ _ ↦ some (List.replicate 16 b)
    let shown (m : Manager) (b : UInt8) : Option (List (List String)) :=
      (handleGetSession m m m (drawn b) "sess_0" "a1").map
        (·.messages.map (·.toolCalls.map (·.id)))
    ∃ c l, chats.Traces (outcome "sess_0") (Undropped "sess_0") ⟨oneSession, [[.accept]]⟩ {} c l ∧
      (1, q, ending) ∈ l.endings ∧
      (ending.sent q (drawn 1)).map ChatToolCallWire.id = ["call_01010101010101010101010101010101"] ∧
      (c.shared.history.get "sess_0").map (·.toolCalls.map (·.id)) = [[], [""]] ∧
      shown c.shared 2 = some [[], ["call_02020202020202020202020202020202"]] ∧
      shown c.shared 3 = some [[], ["call_03030303030303030303030303030303"]] := by
  intro q ending drawn shown
  apply Machine.exists_trace
    [(0, .request q), (1, .go), (1, .go), (1, .go), (1, .go), (1, .go),
      (1, .result { toolCalls := [{ functionName := "f" }] }), (1, .go), (1, .session .go),
      (1, .session .go), (1, .session .go)]
  decide +kernel

end AgentGpu.HttpApi
