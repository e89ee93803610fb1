import AgentGpu.Foundation.History
import AgentGpu.HttpApi.Chat
import AgentGpu.Sessions.Checkpoint

namespace AgentGpu.Sessions

open Foundation

def Touch.appends : Touch → Bool
  | .resume | .bind _ => false
  | .appendTurn _ | .appendTurns _ => true

def Call.appends : Call → Bool
  | .touch t _ _ => t.appends
  | _ => false

def Instr.quiet : Instr → Bool
  | .serve => false
  | .touch t _ _ | .ownedActive t _ _ _ | .append t _ _ _ => !t.appends
  | _ => true

def Instr.keeps (id : String) : Instr → Bool
  | .dropRow id' _ _ _ | .dropHistory id' _ _ _ => id' ≠ id
  | _ => true

theorem entry_quiet {call : Call} (h : call.appends = false) : (entry call).quiet := by
  cases call with
  | touch t id o => simpa [entry, Instr.quiet, Call.appends] using h
  | _ => rfl

theorem reap_quiet (now : Time) (listed : List Session) : ∀ i ∈ reap now listed, i.quiet := by
  intro i hi
  obtain ⟨s, -, rfl⟩ := List.mem_map.mp hi
  rfl

theorem quiet_step {m : Manager} {i : Instr} {x : Choice} {e : Effect Manager Instr} {id : String}
    (hquiet : i.quiet) (hkeeps : i.keeps id) (h : exec m i x = some e) :
    e.shared.history id = m.history id ∧ (∀ j ∈ e.next, j.quiet) ∧ e.spawned = [] := by
  cases step_of_exec h with
  | elapse => cases hquiet
  | call => cases hquiet
  | reserved hmu hr =>
    obtain ⟨rfl, -⟩ := Manager.reserveSlot_some hr
    simp [Instr.quiet]
  | touch t id o => exact ⟨rfl, by simpa [Instr.quiet] using hquiet, rfl⟩
  | owned hs => exact ⟨rfl, by simpa [Instr.quiet] using hquiet, rfl⟩
  | @appended t id' s now history hframe =>
    refine ⟨?_, by simp [Instr.quiet], rfl⟩
    have hnone : t.append? m.caps m.history id' = none := by
      cases t with
      | resume | bind => rfl
      | appendTurn | appendTurns => cases hquiet
    cases x <;> simp only [exec, reduceCtorEq, hnone] at h
    rw [← Option.some.inj h]
  | dropHistory id' o r st =>
    refine ⟨Function.update_of_ne ?_ _ _, by simp [Instr.quiet], rfl⟩
    exact (of_decide_eq_true hkeeps).symm
  | settle id' o r st =>
    refine ⟨rfl, ?_, rfl⟩
    cases st <;> simp [Instr.quiet]
  | list listed hlisted => exact ⟨rfl, reap_quiet _ listed, rfl⟩
  | _ => exact ⟨rfl, by simp [Instr.quiet], rfl⟩

theorem appendBatch_get {h h' : History} {caps : HistoryCaps} {id : String} {turns : List Message}
    (hcaps : caps.policy = .trim → exceedsCap caps (h.get id ++ turns) = false)
    (ha : h.appendBatch caps id turns = some h') : h'.get id = h.get id ++ turns := by
  simp only [History.appendBatch] at ha
  split_ifs at ha with hempty hreject
  · cases ha
    rw [List.isEmpty_iff.mp hempty, List.append_nil]
  · cases ha
    have hfits : exceedsCap caps (h.get id ++ turns) = false := by
      cases hp : caps.policy with
      | trim => exact hcaps hp
      | reject => exact Bool.eq_false_iff.mpr fun hover ↦ hreject ⟨hp, hover⟩
    rw [trim_of_not_exceedsCap hfits]
    simp [History.get]

end AgentGpu.Sessions

namespace AgentGpu.HttpApi

open Foundation Sessions

/-- A chat request of an authenticated key: `sessionID` is the body field, `header` the
`X-Session-Id` header. -/
structure ChatRequest where
  sessionID : String := ""
  header : String := ""
  keyID : String
  messages : List Message
  stream : Bool := false
  deriving DecidableEq

def resolveSession (q : ChatRequest) : ChatMode × String :=
  if q.sessionID ≠ "" then (.stateful, q.sessionID)
  else if q.header ≠ "" then (.affinity, q.header)
  else (.stateless, "")

def wouldReject (h : History) (caps : HistoryCaps) (sessionID : String) (turns : List Message) :
    Bool :=
  if caps.policy ≠ .reject ∨ turns.isEmpty then false else exceedsCap caps (h.get sessionID ++ turns)

/-- How the inference of a request ended: with an error or before it began, with a result,
or with the chunks a stream was given, and whether the client was still there. -/
inductive Ending
  | error
  | result (res : JobResult)
  | stream (live : Bool) (chunks : List JobChunk)
  deriving DecidableEq

def Ending.turns (q : ChatRequest) : Ending → Option (List Message)
  | .error => none
  | .result res => (respondChat (resolveSession q).1 q.messages res).2
  | .stream live chunks => (streamChat (resolveSession q).1 q.messages live chunks).2

/-- The request failed or was turned away, its client left, or it saw no terminal chunk. -/
def Ending.Failed : Ending → Prop
  | .error => True
  | .result _ => False
  | .stream live chunks =>
    live = false ∨ (∃ c ∈ chunks, c.err ≠ none) ∨ ∀ c ∈ chunks, c.done = false

/-- The handlers of `handleChatCompletions`, beside other calls of the session manager. -/
inductive ChatInstr
  | accept
  | handle (q : ChatRequest)
  | checkAppendable (q : ChatRequest)
  | wouldReject (q : ChatRequest)
  | history (q : ChatRequest)
  | historyGet (q : ChatRequest)
  | submit (q : ChatRequest) (messages : List Message)
  | forward (q : ChatRequest) (seen : List JobChunk)
  | streamEnd (q : ChatRequest) (seen : List JobChunk)
  | settle (q : ChatRequest) (ending : Ending)
  | session (i : Instr)

inductive ChatChoice
  | go
  | elapse (d : ℕ)
  | setCaps (caps : HistoryCaps)
  | call (call : Call)
  | request (q : ChatRequest)
  | refused
  | result (res : JobResult)
  | opened
  | chunk (c : JobChunk)
  | closed
  | client (live : Bool)
  | session (x : Choice)

def chatExec (m : Manager) : ChatInstr → ChatChoice → Option (Effect Manager ChatInstr)
  | .accept, .elapse d => some ⟨{ m with clock := m.clock + d }, [.accept], []⟩
  | .accept, .setCaps caps => some ⟨{ m with caps := caps }, [.accept], []⟩
  | .accept, .request q => some ⟨m, [.accept], [[.handle q]]⟩
  | .accept, .call call =>
    -- nothing but `persistTurn` appends turns
    if call.appends then none else some ⟨m, [.accept], [[.session (entry call)]]⟩
  | .handle q, .go =>
    if (resolveSession q).1 = .stateful then some ⟨m, [.checkAppendable q], []⟩
    else some ⟨m, [.submit q q.messages], []⟩
  | .checkAppendable q, .go =>
    match m.ownedActive q.sessionID q.keyID m.clock with
    | none => some ⟨m, [.settle q .error], []⟩
    | some _ => some ⟨m, [.wouldReject q], []⟩
  | .wouldReject q, .go =>
    if HttpApi.wouldReject m.history m.caps q.sessionID q.messages then
      some ⟨m, [.settle q .error], []⟩
    else some ⟨m, [.history q], []⟩
  | .history q, .go =>
    match m.ownedActive q.sessionID q.keyID m.clock with
    | none => some ⟨m, [.settle q .error], []⟩
    | some _ => some ⟨m, [.historyGet q], []⟩
  | .historyGet q, .go => some ⟨m, [.submit q (m.history.get q.sessionID ++ q.messages)], []⟩
  | .submit q _, .refused => some ⟨m, [.settle q .error], []⟩
  | .submit q _, .result res =>
    if q.stream then none
    else
      match res.err with
      | some _ => some ⟨m, [.settle q .error], []⟩
      | none => some ⟨m, [.settle q (.result res)], []⟩
  | .submit q _, .opened => if q.stream then some ⟨m, [.forward q []], []⟩ else none
  | .forward q seen, .chunk c =>
    match c.err with
    | some _ => some ⟨m, [.streamEnd q (seen ++ [c])], []⟩
    | none => some ⟨m, [.forward q (seen ++ [c])], []⟩
  | .forward q seen, .closed => some ⟨m, [.streamEnd q seen], []⟩
  | .streamEnd q seen, .client live => some ⟨m, [.settle q (.stream live seen)], []⟩
  | .settle q ending, .go =>
    match ending.turns q with
    | none => some ⟨m, [], []⟩
    | some turns => some ⟨m, [.session (.touch (.appendTurns turns) q.sessionID q.keyID)], []⟩
  | .session i, .session x =>
    (exec m i x).map fun e ↦
      ⟨e.shared, e.next.map .session, e.spawned.map (·.map .session)⟩
  | _, _ => none

def chats : Machine Manager ChatInstr ChatChoice := ⟨chatExec⟩

/-- What the requests came to, each known by its goroutine: how it ended, the turns appended
to one session, and the appends that returned an error. -/
structure Outcomes where
  endings : List (ℕ × ChatRequest × Ending) := []
  stored : List (ℕ × List Message) := []
  rejected : List ℕ := []
  deriving DecidableEq

/-- The outcome of `AppendTurns` for session `id`, at the instruction that decides it. -/
def persisted (id : String) (m : Manager) (k : ℕ) (l : Outcomes) : Instr → Outcomes
  | .ownedActive (.appendTurns _) id' o now =>
    match m.ownedActive id' o now with
    | none => { l with rejected := k :: l.rejected }
    | some _ => l
  | .append (.appendTurns turns) id' _ _ =>
    match m.history.appendBatch m.caps id' turns with
    | none => { l with rejected := k :: l.rejected }
    | some _ => if id' = id then { l with stored := (k, turns) :: l.stored } else l
  | _ => l

def outcome (id : String) (m : Manager) (k : ℕ) : ChatInstr → ChatChoice → Outcomes → Outcomes
  | .settle q ending, _, l => { l with endings := (k, q, ending) :: l.endings }
  | .session i, _, l => persisted id m k l i
  | _, _, l => l

/-- The session is not removed, and no append to it exceeds a cap under trim. -/
def Undropped (id : String) (c : Config Manager ChatInstr) (_ : Outcomes) (_ : ℕ) (i : ChatInstr)
    (_ : ChatChoice) : Prop :=
  match i with
  | .session (.append (.appendTurns turns) id' _ _) =>
    id' = id → c.shared.caps.policy = .trim →
      exceedsCap c.shared.caps (c.shared.history.get id ++ turns) = false
  | .session i => i.keeps id
  | _ => True

theorem ChatStream.run_clean {s : ChatStream} {cs : List JobChunk} (h : (s.run cs).failed = false) :
    (∀ c ∈ cs, c.err = none) ∧ ((s.run cs).sawDone → s.sawDone ∨ ∃ c ∈ cs, c.done) := by
  induction cs generalizing s with
  | nil => exact ⟨List.forall_mem_nil _, .inl⟩
  | cons c cs ih =>
    cases herr : c.err with
    | some err => simp [run, herr, fail] at h
    | none =>
      simp only [run, herr] at h ⊢
      obtain ⟨hclean, hdone⟩ := ih h
      refine ⟨List.forall_mem_cons.mpr ⟨herr, hclean⟩, fun hsaw ↦ ?_⟩
      rcases hdone hsaw with hsent | ⟨c', hc', hd⟩
      · rcases Bool.or_eq_true_iff.mp hsent with hsent | hsent
        · exact .inl hsent
        · exact .inr ⟨c, List.mem_cons_self, hsent⟩
      · exact .inr ⟨c', List.mem_cons_of_mem _ hc', hd⟩

theorem resolveSession_stateful {q : ChatRequest} (h : (resolveSession q).1 = .stateful) :
    q.sessionID ≠ "" := by
  unfold resolveSession at h
  split_ifs at h with hid
  exact hid

theorem Ending.turns_some {q : ChatRequest} {ending : Ending} {turns : List Message}
    (h : ending.turns q = some turns) :
    ¬ending.Failed ∧ q.sessionID ≠ "" ∧
      ∃ reply : Message, reply.role = "assistant" ∧ turns = q.messages ++ [reply] := by
  cases ending with
  | error => cases h
  | result res =>
    simp only [Ending.turns, respondChat] at h
    split_ifs at h with hmode
    cases h
    exact ⟨id, resolveSession_stateful hmode, _, rfl, rfl⟩
  | stream live chunks =>
    simp only [Ending.turns, streamChat] at h
    split_ifs at h with hgate
    cases h
    obtain ⟨hmode, hfailed, hsaw, hlive⟩ := hgate
    obtain ⟨hclean, hdone⟩ := ChatStream.run_clean (Bool.eq_false_iff.mpr hfailed)
    refine ⟨?_, resolveSession_stateful hmode, _, rfl, rfl⟩
    rintro (hgone | ⟨c, hc, herr⟩ | hnone)
    · exact absurd (hlive.symm.trans hgone) (by decide)
    · exact herr (hclean c hc)
    · obtain hsaw | ⟨c, hc, hd⟩ := hdone hsaw
      · cases hsaw
      · exact absurd (hd.symm.trans (hnone c hc)) (by decide)

def ChatInstr.asks : ChatInstr → Bool
  | .accept | .settle _ _ | .session _ => false
  | _ => true

inductive ChatStep (m : Manager) : ChatInstr → Effect Manager ChatInstr → Prop
  | elapse (d : ℕ) : ChatStep m .accept ⟨{ m with clock := m.clock + d }, [.accept], []⟩
  | setCaps (caps : HistoryCaps) : ChatStep m .accept ⟨{ m with caps := caps }, [.accept], []⟩
  | request (q : ChatRequest) : ChatStep m .accept ⟨m, [.accept], [[.handle q]]⟩
  | call {call : Call} (h : call.appends = false) :
      ChatStep m .accept ⟨m, [.accept], [[.session (entry call)]]⟩
  | asks {i j : ChatInstr} (hi : i.asks) (hj : j.asks ∨ ∃ q ending, j = .settle q ending) :
      ChatStep m i ⟨m, [j], []⟩
  | unsettled {q : ChatRequest} {ending : Ending} : ChatStep m (.settle q ending) ⟨m, [], []⟩
  | settled {q : ChatRequest} {ending : Ending} {turns : List Message}
      (h : ending.turns q = some turns) :
      ChatStep m (.settle q ending)
        ⟨m, [.session (.touch (.appendTurns turns) q.sessionID q.keyID)], []⟩
  | session {i : Instr} {x : Choice} {e : Effect Manager Instr} (h : exec m i x = some e) :
      ChatStep m (.session i) ⟨e.shared, e.next.map .session, e.spawned.map (·.map .session)⟩

theorem chatStep_of_exec {m : Manager} {i : ChatInstr} {x : ChatChoice}
    {e : Effect Manager ChatInstr} (h : chatExec m i x = some e) : ChatStep m i e := by
  cases i with
  | accept =>
    cases x <;> simp only [chatExec, reduceCtorEq] at h
    case elapse d =>
      cases h
      exact .elapse d
    case setCaps caps =>
      cases h
      exact .setCaps caps
    case call call =>
      split_ifs at h with happends
      cases h
      exact .call (Bool.eq_false_iff.mpr happends)
    case request q =>
      cases h
      exact .request q
  | handle q =>
    cases x <;> simp only [chatExec, reduceCtorEq] at h
    split_ifs at h <;> cases h <;> exact .asks rfl (.inl rfl)
  | checkAppendable q | wouldReject q | history q =>
    cases x <;> simp only [chatExec, reduceCtorEq] at h
    split at h <;> cases h
    · exact .asks rfl (.inr ⟨q, _, rfl⟩)
    · exact .asks rfl (.inl rfl)
  | historyGet q =>
    cases x <;> cases h
    exact .asks rfl (.inl rfl)
  | submit q messages =>
    cases x <;> simp only [chatExec, reduceCtorEq] at h
    case refused =>
      cases h
      exact .asks rfl (.inr ⟨q, _, rfl⟩)
    case result res =>
      split_ifs at h
      split at h <;> cases h <;> exact .asks rfl (.inr ⟨q, _, rfl⟩)
    case opened =>
      split_ifs at h
      cases h
      exact .asks rfl (.inl rfl)
  | forward q seen =>
    cases x <;> simp only [chatExec, reduceCtorEq] at h
    case chunk c => split at h <;> cases h <;> exact .asks rfl (.inl rfl)
    case closed =>
      cases h
      exact .asks rfl (.inl rfl)
  | streamEnd q seen =>
    cases x <;> cases h
    exact .asks rfl (.inr ⟨q, _, rfl⟩)
  | settle q ending =>
    cases x <;> simp only [chatExec, reduceCtorEq] at h
    split at h <;> cases h
    · exact .unsettled
    · next turns hturns => exact .settled hturns
  | session i =>
    cases x <;> simp only [chatExec, reduceCtorEq] at h
    obtain ⟨e', he', rfl⟩ := Option.map_eq_some_iff.mp h
    exact .session he'

def ChatInstr.silent : ChatInstr → Bool
  | .accept => true
  | .session i => i.quiet
  | _ => false

/-- What goroutine `k` has left to do: nothing that appends; a request whose inference has not
ended; or the append of the turns of one that has. -/
inductive Handles (l : Outcomes) (k : ℕ) : List ChatInstr → Prop
  | other {th : List ChatInstr} (hsilent : ∀ i ∈ th, i.silent) : Handles l k th
  | serving {i : ChatInstr} (hi : i.asks ∨ ∃ q ending, i = .settle q ending)
      (hnew : ∀ q ending, (k, q, ending) ∉ l.endings) : Handles l k [i]
  | storing {i : Instr} {q : ChatRequest} {ending : Ending} {turns : List Message}
      (hi : i = .touch (.appendTurns turns) q.sessionID q.keyID ∨
        (∃ now, i = .ownedActive (.appendTurns turns) q.sessionID q.keyID now) ∨
        ∃ s now, i = .append (.appendTurns turns) q.sessionID s now)
      (hending : (k, q, ending) ∈ l.endings) (hturns : ending.turns q = some turns)
      (hstored : k ∉ l.stored.map Prod.fst) (hrejected : k ∉ l.rejected) :
      Handles l k [.session i]

theorem Handles.idle (l : Outcomes) (k : ℕ) : Handles l k [] := .other (List.forall_mem_nil _)

/-- The history of session `id` is what it was at the start and the turns stored since, each
those of one request that ended well. -/
structure WholeTurns (id : String) (before : List Message) (m : Manager) (l : Outcomes) (n : ℕ) :
    Prop where
  history : m.history.get id = before ++ l.stored.reverse.flatMap Prod.snd
  ended : (l.endings.map Prod.fst).Nodup
  numbered : ∀ p ∈ l.endings, p.1 < n
  stored : ∀ p ∈ l.stored, ∃ q ending, (p.1, q, ending) ∈ l.endings ∧ q.sessionID = id ∧
    ending.turns q = some p.2
  once : (l.stored.map Prod.fst).Nodup
  rejected : ∀ k ∈ l.rejected, (∃ q ending, (k, q, ending) ∈ l.endings) ∧
    k ∉ l.stored.map Prod.fst

section Outcomes

variable {id : String} {before : List Message} {m m' : Manager} {l l' : Outcomes} {k n n' : ℕ}

theorem WholeTurns.mono (h : WholeTurns id before m l n) (hhist : m'.history id = m.history id)
    (hn : n ≤ n') : WholeTurns id before m' l n' where
  history := by
    rw [History.get, hhist]
    exact h.history
  ended := h.ended
  numbered p hp := (h.numbered p hp).trans_le hn
  stored := h.stored
  once := h.once
  rejected := h.rejected

theorem WholeTurns.fresh (h : WholeTurns id before m l n) (q : ChatRequest) (ending : Ending) :
    (n, q, ending) ∉ l.endings :=
  fun hmem ↦ (h.numbered _ hmem).false

theorem WholeTurns.unstored (h : WholeTurns id before m l n)
    (hnew : ∀ q ending, (k, q, ending) ∉ l.endings) : k ∉ l.stored.map Prod.fst := by
  intro hk
  obtain ⟨p, hp, rfl⟩ := List.mem_map.mp hk
  obtain ⟨q, ending, hending, -⟩ := h.stored p hp
  exact hnew q ending hending

theorem WholeTurns.unrejected (h : WholeTurns id before m l n)
    (hnew : ∀ q ending, (k, q, ending) ∉ l.endings) : k ∉ l.rejected := by
  intro hk
  obtain ⟨⟨q, ending, hending⟩, -⟩ := h.rejected k hk
  exact hnew q ending hending

theorem WholeTurns.end (h : WholeTurns id before m l n) (hk : k < n)
    (hnew : ∀ q ending, (k, q, ending) ∉ l.endings) (q : ChatRequest) (ending : Ending) :
    WholeTurns id before m { l with endings := (k, q, ending) :: l.endings } n where
  history := h.history
  ended := by
    refine List.nodup_cons.mpr ⟨fun hmem ↦ ?_, h.ended⟩
    obtain ⟨p, hp, rfl⟩ := List.mem_map.mp hmem
    exact hnew p.2.1 p.2.2 hp
  numbered := List.forall_mem_cons.mpr ⟨hk, h.numbered⟩
  stored p hp := by
    obtain ⟨q', ending', hending, hrest⟩ := h.stored p hp
    exact ⟨q', ending', List.mem_cons_of_mem _ hending, hrest⟩
  once := h.once
  rejected j hj := by
    obtain ⟨⟨q', ending', hending⟩, hunstored⟩ := h.rejected j hj
    exact ⟨⟨q', ending', List.mem_cons_of_mem _ hending⟩, hunstored⟩

theorem WholeTurns.reject (h : WholeTurns id before m l n) {q : ChatRequest} {ending : Ending}
    (hending : (k, q, ending) ∈ l.endings) (hstored : k ∉ l.stored.map Prod.fst) :
    WholeTurns id before m { l with rejected := k :: l.rejected } n where
  history := h.history
  ended := h.ended
  numbered := h.numbered
  stored := h.stored
  once := h.once
  rejected := List.forall_mem_cons.mpr ⟨⟨⟨q, ending, hending⟩, hstored⟩, h.rejected⟩

theorem WholeTurns.store (h : WholeTurns id before m l n) {q : ChatRequest} {ending : Ending}
    {turns : List Message} (hending : (k, q, ending) ∈ l.endings) (hid : q.sessionID = id)
    (hturns : ending.turns q = some turns) (hstored : k ∉ l.stored.map Prod.fst)
    (hrejected : k ∉ l.rejected) (hhist : m'.history.get id = m.history.get id ++ turns) :
    WholeTurns id before m' { l with stored := (k, turns) :: l.stored } n where
  history := by
    rw [hhist, h.history, List.reverse_cons, List.flatMap_append, List.append_assoc]
    simp
  ended := h.ended
  numbered := h.numbered
  stored := List.forall_mem_cons.mpr ⟨⟨q, ending, hending, hid, hturns⟩, h.stored⟩
  once := List.nodup_cons.mpr ⟨hstored, h.once⟩
  rejected j hj := by
    obtain ⟨hended, hunstored⟩ := h.rejected j hj
    refine ⟨hended, fun hmem ↦ ?_⟩
    rcases List.mem_cons.mp hmem with rfl | hmem
    · exact hrejected hj
    · exact hunstored hmem

theorem persisted_quiet {i : Instr} (h : i.quiet) : persisted id m k l i = l := by
  cases i with
  | ownedActive t id' o now | append t id' s now =>
    cases t with
    | resume | bind => rfl
    | appendTurn | appendTurns => cases h
  | _ => rfl

structure SameFor (j : ℕ) (l l' : Outcomes) : Prop where
  endings : ∀ q ending, (j, q, ending) ∈ l'.endings ↔ (j, q, ending) ∈ l.endings
  stored : j ∈ l'.stored.map Prod.fst ↔ j ∈ l.stored.map Prod.fst
  rejected : j ∈ l'.rejected ↔ j ∈ l.rejected

theorem SameFor.refl (j : ℕ) (l : Outcomes) : SameFor j l l := ⟨fun _ _ ↦ .rfl, .rfl, .rfl⟩

theorem persisted_other {j : ℕ} (hj : j ≠ k) (i : Instr) : SameFor j l (persisted id m k l i) := by
  unfold persisted
  split
  · split
    · exact ⟨fun _ _ ↦ .rfl, .rfl, List.mem_cons.trans (or_iff_right hj)⟩
    · exact .refl j l
  · split
    · exact ⟨fun _ _ ↦ .rfl, .rfl, List.mem_cons.trans (or_iff_right hj)⟩
    · split_ifs
      · exact ⟨fun _ _ ↦ .rfl, List.mem_cons.trans (or_iff_right hj), .rfl⟩
      · exact .refl j l
  · exact .refl j l

theorem outcome_other {j : ℕ} (hj : j ≠ k) (i : ChatInstr) (x : ChatChoice) :
    SameFor j l (outcome id m k i x l) := by
  cases i with
  | settle q ending =>
    refine ⟨fun q' ending' ↦ List.mem_cons.trans (or_iff_right ?_), .rfl, .rfl⟩
    exact fun heq ↦ hj (Prod.ext_iff.mp heq).1
  | session i => exact persisted_other hj i
  | _ => exact .refl j l

theorem Handles.congr {th : List ChatInstr} (h : Handles l k th) (hl : SameFor k l l') :
    Handles l' k th := by
  cases h with
  | other hsilent => exact .other hsilent
  | serving hi hnew =>
    exact .serving hi fun q ending hmem ↦ hnew q ending ((hl.endings q ending).mp hmem)
  | storing hi hending hturns hstored hrejected =>
    exact .storing hi ((hl.endings _ _).mpr hending) hturns (hstored ∘ hl.stored.mp)
      (hrejected ∘ hl.rejected.mp)

theorem store_step {i : Instr} {x : ChatChoice} {e : Effect Manager ChatInstr} {q : ChatRequest}
    {ending : Ending} {turns : List Message}
    (hI : WholeTurns id before m l n)
    (hi : i = .touch (.appendTurns turns) q.sessionID q.keyID ∨
      (∃ now, i = .ownedActive (.appendTurns turns) q.sessionID q.keyID now) ∨
      ∃ s now, i = .append (.appendTurns turns) q.sessionID s now)
    (hending : (k, q, ending) ∈ l.endings) (hturns : ending.turns q = some turns)
    (hstored : k ∉ l.stored.map Prod.fst) (hrejected : k ∉ l.rejected)
    (hcaps : ∀ s now, i = .append (.appendTurns turns) q.sessionID s now → q.sessionID = id →
      m.caps.policy = .trim → exceedsCap m.caps (m.history.get id ++ turns) = false)
    (he : chatExec m (.session i) x = some e) :
    WholeTurns id before e.shared (persisted id m k l i) n ∧
      Handles (persisted id m k l i) k e.next ∧ e.spawned = [] := by
  cases x <;> simp only [chatExec, reduceCtorEq] at he
  next x =>
  rcases hi with rfl | ⟨now, rfl⟩ | ⟨s, now, rfl⟩ <;>
    cases x <;> simp only [exec, Option.map_none, reduceCtorEq] at he
  · cases he
    exact ⟨hI, .storing (.inr (.inl ⟨_, rfl⟩)) hending hturns hstored hrejected, rfl⟩
  · cases howned : m.ownedActive q.sessionID q.keyID now with
    | none =>
      simp only [howned, Option.map_some] at he
      cases he
      simp only [persisted, howned]
      exact ⟨hI.reject hending hstored, .idle _ k, rfl⟩
    | some s =>
      simp only [howned, Option.map_some] at he
      cases he
      simp only [persisted, howned]
      exact ⟨hI, .storing (.inr (.inr ⟨s, now, rfl⟩)) hending hturns hstored hrejected, rfl⟩
  · cases hbatch : m.history.appendBatch m.caps q.sessionID turns with
    | none =>
      simp only [Touch.append?, hbatch, Option.map_some] at he
      cases he
      simp only [persisted, hbatch]
      exact ⟨hI.reject hending hstored, .idle _ k, rfl⟩
    | some history =>
      simp only [Touch.append?, hbatch, Option.map_some] at he
      cases he
      simp only [persisted, hbatch]
      refine ⟨?_, .other (by simp [ChatInstr.silent, Instr.quiet]), rfl⟩
      split_ifs with hid
      · refine hI.store hending hid hturns hstored hrejected ?_
        rw [hid] at hbatch
        exact appendBatch_get (hcaps s now rfl hid) hbatch
      · have hframe : history id = m.history id :=
          append?_frame (t := .appendTurns turns) (congrArg some hbatch) id (Ne.symm hid)
        exact hI.mono hframe le_rfl

theorem outcome_asks {i : ChatInstr} (h : i.asks) (x : ChatChoice) : outcome id m k i x l = l := by
  cases i with
  | accept | settle | session => cases h
  | _ => rfl

theorem chat_step {c : Config Manager ChatInstr} {i : ChatInstr} {rest : List ChatInstr}
    {x : ChatChoice} {e : Effect Manager ChatInstr}
    (hI : WholeTurns id before c.shared l n) (hk : k < n)
    (hP : Handles l k (i :: rest)) (hg : Undropped id c l k i x)
    (he : chatExec c.shared i x = some e) :
    WholeTurns id before e.shared (outcome id c.shared k i x l) (n + e.spawned.length) ∧
      Handles (outcome id c.shared k i x l) k (e.next ++ rest) ∧
      ∀ j th, e.spawned[j]? = some th → Handles (outcome id c.shared k i x l) (n + j) th := by
  cases hP with
  | other hsilent =>
    obtain ⟨hi, hrest⟩ := List.forall_mem_cons.mp hsilent
    cases chatStep_of_exec he with
    | elapse | setCaps => exact ⟨hI.mono rfl le_rfl, .other hsilent, by simp⟩
    | request q =>
      refine ⟨hI.mono rfl (Nat.le_succ n), .other hsilent, fun j th hj ↦ ?_⟩
      obtain ⟨rfl, rfl⟩ : j = 0 ∧ [.handle q] = th := by
        simpa [List.getElem?_singleton] using hj
      exact .serving (.inl rfl) hI.fresh
    | @call call happends =>
      refine ⟨hI.mono rfl (Nat.le_succ n), .other hsilent, fun j th hj ↦ ?_⟩
      obtain ⟨rfl, rfl⟩ : j = 0 ∧ [.session (entry call)] = th := by
        simpa [List.getElem?_singleton] using hj
      exact .other (List.forall_mem_singleton.mpr (entry_quiet happends))
    | asks hasks =>
      cases i with
      | accept | settle | session => cases hasks
      | _ => cases hi
    | unsettled => cases hi
    | settled => cases hi
    | @session i x e hexec =>
      have hkeeps : i.keeps id := by
        cases i with
        | append t id' s now => rfl
        | _ => exact hg
      obtain ⟨hhist, hnext, hspawned⟩ := quiet_step hi hkeeps hexec
      simp only [outcome, persisted_quiet hi, hspawned]
      refine ⟨hI.mono hhist le_rfl, .other ?_, by simp⟩
      rw [List.forall_mem_append, List.forall_mem_map]
      exact ⟨hnext, hrest⟩
  | serving hi hnew =>
    rcases hi with hasks | ⟨q, ending, rfl⟩
    · rw [outcome_asks hasks]
      cases chatStep_of_exec he with
      | elapse | setCaps | request | call | unsettled | settled | session => cases hasks
      | asks _ hj => exact ⟨hI, .serving hj hnew, by simp⟩
    · have hI' := hI.end hk hnew q ending
      cases chatStep_of_exec he with
      | asks hasks => cases hasks
      | unsettled => exact ⟨hI', .idle _ k, by simp⟩
      | settled hturns =>
        exact ⟨hI', .storing (.inl rfl) List.mem_cons_self hturns (hI.unstored hnew)
          (hI.unrejected hnew), by simp⟩
  | storing hi hending hturns hstored hrejected =>
    obtain ⟨hI', hnext, hspawned⟩ := store_step hI hi hending hturns hstored hrejected
      (by rintro s now rfl; exact hg) he
    rw [hspawned, List.append_nil]
    exact ⟨hI', hnext, by simp⟩

/-- However chat requests run beside each other and beside the other calls of the manager, the
history of a session that is kept and not trimmed is made of whole turns. -/
theorem history_whole_turns {c : Config Manager ChatInstr}
    (h : chats.Traces (outcome id) (Undropped id) ⟨m, [[.accept]]⟩ {} c l) :
    ∃ turns : List (ℕ × List Message),
      c.shared.history.get id = m.history.get id ++ turns.flatMap Prod.snd ∧
      (turns.map Prod.fst).Nodup ∧
      (∀ k ts, (k, ts) ∈ turns → ∃ q ending reply, (k, q, ending) ∈ l.endings ∧
        q.sessionID = id ∧ ending.turns q = some ts ∧ ts = q.messages ++ [reply] ∧
        reply.role = "assistant") ∧
      (∀ k q ending, (k, q, ending) ∈ l.endings → ending.Failed → k ∉ turns.map Prod.fst) ∧
      ∀ k ∈ l.rejected, k ∉ turns.map Prod.fst := by
  have hstart : WholeTurns id (m.history.get id) m {} 1 :=
    ⟨by simp, List.nodup_nil, List.forall_mem_nil _, List.forall_mem_nil _, List.nodup_nil,
      List.forall_mem_nil _⟩
  obtain ⟨hI, -⟩ := h.invariant (fun m' l n ↦ WholeTurns id (m.history.get id) m' l n)
    (fun _ l k th ↦ Handles l k th) hstart
    (fun k th hk ↦ by
      obtain ⟨rfl, rfl⟩ : k = 0 ∧ [.accept] = th := by
        simpa [List.getElem?_singleton] using hk
      exact .other (by simp [ChatInstr.silent]))
    (fun c l k i rest x e hI hk hP hg he ↦ chat_step hI (List.getElem?_eq_some_iff.mp hk).1 hP hg he)
    (fun c l k i rest x e _ _ _ _ j th hj _ hP ↦ hP.congr (outcome_other hj i x))
  refine ⟨l.stored.reverse, hI.history, ?_, fun k ts hmem ↦ ?_, fun k q ending hending hfailed ↦ ?_,
    fun k hk ↦ ?_⟩
  · rw [List.map_reverse, List.nodup_reverse]
    exact hI.once
  · obtain ⟨q, ending, hending, hid, hturns⟩ := hI.stored _ (List.mem_reverse.mp hmem)
    obtain ⟨-, -, reply, hrole, hts⟩ := Ending.turns_some hturns
    exact ⟨q, ending, reply, hending, hid, hturns, hts, hrole⟩
  · intro hmem
    rw [List.map_reverse, List.mem_reverse] at hmem
    obtain ⟨p, hp, rfl⟩ := List.mem_map.mp hmem
    obtain ⟨q', ending', hending', -, hturns⟩ := hI.stored p hp
    -- a request ends once, so the ending that stored the turns is the one that failed
    have hsame : (p.1, q', ending') = (p.1, q, ending) :=
      List.inj_on_of_nodup_map hI.ended hending' hending rfl
    simp only [Prod.mk.injEq, true_and] at hsame
    obtain ⟨rfl, rfl⟩ := hsame
    exact (Ending.turns_some hturns).1 hfailed
  · rw [List.map_reverse, List.mem_reverse]
    exact (hI.rejected k hk).2

end Outcomes

instance (id : String) (c : Config Manager ChatInstr) (l : Outcomes) (k : ℕ) (i : ChatInstr)
    (x : ChatChoice) : Decidable (Undropped id c l k i x) := by
  unfold Undropped
  split <;> infer_instance

theorem history_whole_turns_streamed :
    let q : ChatRequest :=
      { sessionID := "sess_0", keyID := "a1", messages := [{ role := "user" }] }
    ∃ c l, chats.Traces (outcome "sess_0") (Undropped "sess_0") ⟨oneSession, [[.accept]]⟩ {} c l ∧
      (2, q, .error) ∈ l.endings ∧
      c.shared.history.get "sess_0" = [{ role := "user" }, { role := "assistant", content := "hi" }] ∧
      ∃ turns : List (ℕ × List Message),
        c.shared.history.get "sess_0" = turns.flatMap Prod.snd ∧ 2 ∉ turns.map Prod.fst := by
  intro q
  obtain ⟨c, l, hc, hended, hhist⟩ : ∃ c l,
      chats.Traces (outcome "sess_0") (Undropped "sess_0") ⟨oneSession, [[.accept]]⟩ {} c l ∧
        (2, q, .error) ∈ l.endings ∧
        c.shared.history.get "sess_0" =
          [{ role := "user" }, { role := "assistant", content := "hi" }] := by
    apply Machine.exists_trace
      [(0, .request { q with stream := true }), (0, .request q), (1, .go), (2, .go), (1, .go),
        (2, .go), (1, .go), (2, .go), (1, .go), (2, .go), (1, .go), (2, .go), (1, .opened),
        (2, .refused), (1, .chunk { delta := "hi", done := true }), (2, .go), (1, .closed),
        (1, .client true), (1, .go), (1, .session .go), (1, .session .go), (1, .session .go)]
    decide +kernel
  obtain ⟨turns, hturns, -, -, hfailed, -⟩ := history_whole_turns hc
  exact ⟨c, l, hc, hended, hhist, turns, hturns, hfailed 2 q .error hended trivial⟩

end AgentGpu.HttpApi
