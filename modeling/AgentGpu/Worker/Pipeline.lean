import AgentGpu.ControlPlane.Tickets
import AgentGpu.Worker.Serve

namespace AgentGpu.Worker

open Foundation ControlPlane

/-- What a job and the chunks made for it have in common: the job's id and its request. -/
abbrev Tag := String × Option ℕ

def jobTag (job : Job) : Tag := (job.id, some job.request)

def chunkTag (c : Produced) : Tag := (c.chunk.jobID, c.source)

def messageChunk : WorkerMessage → Option Produced
  | .chunk c => some c
  | _ => none

def JobLoop.jobs : JobLoop → List Job
  | .executing job | .emitting job _ => [job]
  | _ => []

def Receiver.jobs : Receiver → List Job
  | .hold m => m.jobs
  | _ => []

namespace Process

variable (p : Process)

def upChunks : List Produced := p.up.filterMap messageChunk

def stream : List Produced := p.upChunks ++ p.chunks.buffered

def held : List Job := p.jobLoop.jobs ++ p.jobs.buffered ++ p.receiver.jobs

def inHand : List Job := p.held ++ p.down.flatMap ServerMessage.jobs

end Process

def doneTags (cs : List Produced) : List Tag := (cs.filter (·.chunk.done)).map chunkTag

theorem doneTags_append (cs ds : List Produced) : doneTags (cs ++ ds) = doneTags cs ++ doneTags ds := by
  simp [doneTags]

def taken (w : ControlPlane.Worker) : List Job :=
  (w.send.sent.take w.send.taken).flatMap ServerMessage.jobs

variable {p p' : Process} {d : Bool} {a : Action}

theorem mem_doneTags {cs : List Produced} {c : Produced} (hc : c ∈ cs) (hdone : c.chunk.done) :
    chunkTag c ∈ doneTags cs :=
  List.mem_map_of_mem (List.mem_filter.mpr ⟨hc, hdone⟩)

def Emits (p : Process) : Prop :=
  ∀ job c, p.jobLoop = .emitting job c →
    c.jobID = job.id ∧ (c.done → ⟨c, some job.request⟩ ∈ p.replied)

/-- A step of the worker moves jobs and chunks along, loses some once the connection is
closed, or emits a chunk for the first job in hand. -/
inductive Moves (p p' : Process) : Prop
  | on (hstream : p'.stream = p.stream) (hjobs : p'.inHand.Sublist p.inHand)
      (hheld : p.connDone ∨ p.held ⊆ p'.held)
  | delta {job : Job} {c : Produced} (hjob : job ∈ p.inHand) (htag : chunkTag c = jobTag job)
      (hdone : c.chunk.done = false) (hstream : p'.stream = p.stream ++ [c])
      (hjobs : p'.inHand = p.inHand) (hheld : p'.held = p.held)
  | last {job : Job} {c : Produced} (htag : chunkTag c = jobTag job) (hdone : c.chunk.done = true)
      (hreplied : c ∈ p.replied) (hstream : p'.stream = p.stream ++ [c])
      (hjobs : p.inHand = job :: p'.inHand) (hheld : p.held = job :: p'.held)

theorem moves_same (hup : p'.up = p.up) (hchunks : p'.chunks = p.chunks) (hdown : p'.down = p.down)
    (hjobs : p'.jobs = p.jobs) (hrecv : p'.receiver.jobs = p.receiver.jobs)
    (hloop : p'.jobLoop.jobs = p.jobLoop.jobs) : Moves p p' :=
  .on (by simp [Process.stream, Process.upChunks, hup, hchunks])
    (by simp [Process.inHand, Process.held, hdown, hjobs, hrecv, hloop])
    (.inr (by simp [Process.held, hjobs, hrecv, hloop]))

theorem Process.emitted_eq (p : Process) (job : Job) (c : JobChunk) :
    p.emitted job c = { p with
      jobLoop := if c.done then .idle else .executing job
      activeJobs := if c.done then p.activeJobs - 1 else p.activeJobs } := by
  cases hdone : c.done <;> simp [emitted, hdone]

inductive Inside (p : Process) (d : Bool) : Action → Process → Prop
  | recv {m : ServerMessage} {down : List ServerMessage} (hrecv : p.receiver = .recv)
      (hdown : p.down = m :: down) : Inside p d .recv (p.receive m down)
  | recvEnd {c : Chan Unit} (hrecv : p.receiver = .recv) (hend : d ∨ p.connDone)
      (hc : p.recvErr.send () = some c) :
      Inside p d .recvEnd { p with recvErr := c, receiver := .exited }
  | pushJob {job : Job} {c : Chan Job} (hhold : p.receiver = .hold (.job job))
      (hc : p.jobs.send job = some c) : Inside p d .push { p with jobs := c, receiver := .recv }
  | pushPull {model : String} {c : Chan String} (hhold : p.receiver = .hold (.pullModel model))
      (hc : p.pulls.send model = some c) : Inside p d .push { p with pulls := c, receiver := .recv }
  | pushUnload {model : String} {c : Chan String}
      (hhold : p.receiver = .hold (.unloadModel model)) (hc : p.unloads.send model = some c) :
      Inside p d .push { p with unloads := c, receiver := .recv }
  | takeJob {job : Job} {c : Chan Job} (hidle : p.jobLoop = .idle)
      (hc : p.jobs.recv = some (job, c)) :
      Inside p d .takeJob
        { p with jobs := c, jobLoop := .executing job, activeJobs := p.activeJobs + 1 }
  | delta {job : Job} {text : String} {toolCalls : List ToolCall}
      (hloop : p.jobLoop = .executing job) :
      Inside p d (.delta text toolCalls)
        { p with jobLoop := .emitting job (deltaChunk job text toolCalls) }
  | finish {job : Job} {res : JobResult} (hloop : p.jobLoop = .executing job) :
      Inside p d (.finish res)
        { p with
          jobLoop := .emitting job (terminalChunk job res)
          replied := ⟨terminalChunk job res, some job.request⟩ :: p.replied }
  | emit {job : Job} {c : JobChunk} {chunks : Chan Produced} (hloop : p.jobLoop = .emitting job c)
      (hc : p.chunks.send ⟨c, some job.request⟩ = some chunks) :
      Inside p d .emit
        { p with
          chunks := chunks
          jobLoop := if c.done then .idle else .executing job
          activeJobs := if c.done then p.activeJobs - 1 else p.activeJobs }
  | drop {job : Job} {c : JobChunk} (hloop : p.jobLoop = .emitting job c) (hclosed : p.connDone) :
      Inside p d .drop
        { p with
          jobLoop := if c.done then .idle else .executing job
          activeJobs := if c.done then p.activeJobs - 1 else p.activeJobs }
  | jobExit (hidle : p.jobLoop = .idle) (hclosed : p.connDone) :
      Inside p d .jobExit { p with jobLoop := .exited }
  | takePull {model : String} {c : Chan String} (hc : p.pulls.recv = some (model, c)) :
      Inside p d .takePull { p with pulls := c }
  | takeUnload {model : String} {c : Chan String} (hc : p.unloads.recv = some (model, c)) :
      Inside p d .takeUnload { p with unloads := c }

theorem inside_of_actInside (h : actInside p d a = some p') : Inside p d a p' := by
  cases a <;> simp only [actInside, reduceCtorEq] at h
  case recv =>
    split at h <;> cases h
    next hrecv hdown => exact .recv hrecv hdown
  case recvEnd =>
    split_ifs at h with hrecv
    obtain ⟨c, hc, rfl⟩ := Option.map_eq_some_iff.mp h
    exact .recvEnd hrecv.1 hrecv.2 hc
  case push =>
    split at h
    · next hhold =>
      obtain ⟨c, hc, rfl⟩ := Option.map_eq_some_iff.mp h
      exact .pushJob hhold hc
    · next hhold =>
      obtain ⟨c, hc, rfl⟩ := Option.map_eq_some_iff.mp h
      exact .pushPull hhold hc
    · next hhold =>
      obtain ⟨c, hc, rfl⟩ := Option.map_eq_some_iff.mp h
      exact .pushUnload hhold hc
    · cases h
  case takeJob =>
    split_ifs at h with hidle
    obtain ⟨⟨job, c⟩, hc, rfl⟩ := Option.map_eq_some_iff.mp h
    exact .takeJob hidle hc
  case delta =>
    split at h <;> cases h
    next hloop => exact .delta hloop
  case finish =>
    split at h <;> cases h
    next hloop => exact .finish hloop
  case emit =>
    split at h
    · next hloop =>
      obtain ⟨chunks, hc, rfl⟩ := Option.map_eq_some_iff.mp h
      rw [Process.emitted_eq]
      exact .emit hloop hc
    · cases h
  case drop =>
    split at h
    · next hloop =>
      split_ifs at h with hclosed
      cases h
      rw [Process.emitted_eq]
      exact .drop hloop hclosed
    · cases h
  case jobExit =>
    split_ifs at h with hidle
    cases h
    exact .jobExit hidle.1 hidle.2
  case takePull =>
    obtain ⟨⟨_, c⟩, hc, rfl⟩ := Option.map_eq_some_iff.mp h
    exact .takePull hc
  case takeUnload =>
    obtain ⟨⟨_, c⟩, hc, rfl⟩ := Option.map_eq_some_iff.mp h
    exact .takeUnload hc

inductive Outside (p : Process) (d : Bool) : Action → Process → Prop
  | ack {sessionID : String} {down : List ServerMessage} (hloop : p.sendLoop = .register)
      (hdown : p.down = .registerAck sessionID :: down) :
      Outside p d .ack { p with down := down, sendLoop := .select }
  | noAck {m : ServerMessage} {down : List ServerMessage} (hloop : p.sendLoop = .register)
      (hdown : p.down = m :: down) :
      Outside p d .ack { p with down := down, sendLoop := .returned }
  | heartbeat {hb : Heartbeat} (hloop : p.sendLoop = .select) :
      Outside p d (.heartbeat hb)
        { p with up := p.up ++ [.heartbeat { hb with activeJobs := UInt32.ofNat p.activeJobs }] }
  | sendChunk {c : Produced} {chunks : Chan Produced} (hloop : p.sendLoop = .select)
      (hc : p.chunks.recv = some (c, chunks)) :
      Outside p d .sendChunk { p with chunks := chunks, up := p.up ++ [.chunk c] }
  | sendFails (hd : d) (hwaits : p.sendLoop ≠ .awaitServer) (hopen : p.sendLoop ≠ .returned) :
      Outside p d .sendFails { p with sendLoop := .returned }
  | streamLost {c : Chan Unit} (hloop : p.sendLoop = .select) (hc : p.recvErr.recv = some ((), c)) :
      Outside p d .streamLost { p with recvErr := c, sendLoop := .returned }
  | shutdown (hloop : p.sendLoop = .select) (hdone : p.runDone) :
      Outside p d .shutdown { p with sendLoop := .deregister }
  | deregister (hloop : p.sendLoop = .deregister) :
      Outside p d .deregister { p with up := p.up ++ [.deregister], sendLoop := .closeSend }
  | closeSend (hloop : p.sendLoop = .closeSend) :
      Outside p d .closeSend { p with sendLoop := .awaitServer }
  | serverClosed {c : Chan Unit} (hloop : p.sendLoop = .awaitServer)
      (hc : p.recvErr.recv = some ((), c)) :
      Outside p d .serverClosed { p with recvErr := c, sendLoop := .returned }
  | timer (hloop : p.sendLoop = .awaitServer) :
      Outside p d .timer { p with sendLoop := .returned }

theorem outside_of_actOutside (h : actOutside p d a = some p') : Outside p d a p' := by
  cases a <;> simp only [actOutside, reduceCtorEq] at h
  case ack =>
    split at h <;> cases h
    · next hloop hdown => exact .ack hloop hdown
    · next hloop hdown => exact .noAck hloop hdown
  case heartbeat =>
    split_ifs at h with hloop
    cases h
    exact .heartbeat hloop
  case sendChunk =>
    split_ifs at h with hloop
    obtain ⟨⟨c, chunks⟩, hc, rfl⟩ := Option.map_eq_some_iff.mp h
    exact .sendChunk hloop hc
  case sendFails =>
    split_ifs at h with hfails
    cases h
    exact .sendFails hfails.1 hfails.2.1 hfails.2.2
  case streamLost =>
    split_ifs at h with hloop
    obtain ⟨⟨_, c⟩, hc, rfl⟩ := Option.map_eq_some_iff.mp h
    exact .streamLost hloop hc
  case shutdown =>
    split_ifs at h with hloop
    cases h
    exact .shutdown hloop.1 hloop.2
  case deregister =>
    split_ifs at h with hloop
    cases h
    exact .deregister hloop
  case closeSend =>
    split_ifs at h with hloop
    cases h
    exact .closeSend hloop
  case serverClosed =>
    split_ifs at h with hloop
    obtain ⟨⟨_, c⟩, hc, rfl⟩ := Option.map_eq_some_iff.mp h
    exact .serverClosed hloop hc
  case timer =>
    split_ifs at h with hloop
    cases h
    exact .timer hloop

theorem act_cases (h : p.act d a = some p') :
    (a = .cancelRun ∧ p' = { p with runDone := true }) ∨ Outside p d a p' ∨
      p.sendLoop ≠ .register ∧ Inside p d a p' := by
  cases a <;> simp only [Process.act] at h
  case cancelRun => exact .inl ⟨rfl, (Option.some.inj h).symm⟩
  case ack | heartbeat | sendChunk | sendFails | streamLost | shutdown | deregister | closeSend
    | serverClosed | timer => exact .inr (.inl (outside_of_actOutside h))
  all_goals
    split_ifs at h with hreg
    exact .inr (.inr ⟨hreg, inside_of_actInside h⟩)

theorem Inside.moves (he : Emits p) (h : Inside p d a p') : Moves p p' := by
  cases h with
  | @recv m down hrecv hdown =>
    refine .on ?_ ?_ (.inr ?_)
    · cases m <;> rfl
    · cases m <;>
        simp [Process.receive, Process.inHand, Process.held, hrecv, hdown, Receiver.jobs,
          ServerMessage.jobs]
    · cases m <;> simp [Process.receive, Process.held, hrecv, Receiver.jobs, ServerMessage.jobs]
  | recvEnd hrecv => exact moves_same rfl rfl rfl rfl (by simp [hrecv, Receiver.jobs]) rfl
  | @pushJob job c hhold hc =>
    have hheld : ({ p with jobs := c, receiver := .recv } : Process).held = p.held := by
      simp [Process.held, hhold, Receiver.jobs, ServerMessage.jobs, Chan.buffered_of_send hc]
    exact .on rfl (by simp [Process.inHand, hheld]) (.inr (hheld ▸ List.Subset.refl _))
  | pushPull hhold | pushUnload hhold =>
    exact moves_same rfl rfl rfl rfl (by simp [hhold, Receiver.jobs, ServerMessage.jobs]) rfl
  | takeJob hidle hc =>
    refine .on rfl ?_ (.inr ?_)
    · simp [Process.inHand, Process.held, hidle, JobLoop.jobs, Chan.buffered_of_recv hc]
    · simp [Process.held, hidle, JobLoop.jobs, Chan.buffered_of_recv hc]
  | delta hloop | finish hloop =>
    exact moves_same rfl rfl rfl rfl rfl (by simp [hloop, JobLoop.jobs])
  | @emit job c chunks hloop hc =>
    obtain ⟨hid, hreplied⟩ := he job c hloop
    have htag : chunkTag ⟨c, some job.request⟩ = jobTag job := by simp [chunkTag, jobTag, hid]
    cases hdone : c.done with
    | false =>
      refine .delta (c := ⟨c, some job.request⟩) ?_ htag hdone ?_ ?_ ?_
      · simp [Process.inHand, Process.held, hloop, JobLoop.jobs]
      · simp [Process.stream, Process.upChunks, Chan.buffered_of_send hc]
      · simp [Process.inHand, Process.held, hloop, JobLoop.jobs]
      · simp [Process.held, hloop, JobLoop.jobs]
    | true =>
      refine .last htag hdone (hreplied hdone) ?_ ?_ ?_
      · simp [Process.stream, Process.upChunks, Chan.buffered_of_send hc]
      · simp [Process.inHand, Process.held, hloop, JobLoop.jobs]
      · simp [Process.held, hloop, JobLoop.jobs]
  | @drop job c hloop hclosed =>
    refine .on rfl ?_ (.inl hclosed)
    cases c.done <;> simp [Process.inHand, Process.held, hloop, JobLoop.jobs]
  | jobExit hidle => exact moves_same rfl rfl rfl rfl rfl (by simp [hidle, JobLoop.jobs])
  | takePull | takeUnload => exact moves_same rfl rfl rfl rfl rfl rfl

theorem Outside.moves (h : Outside p d a p') : Moves p p' := by
  cases h with
  | ack hloop hdown =>
    exact .on rfl (by simp [Process.inHand, Process.held, hdown, ServerMessage.jobs])
      (.inr (List.Subset.refl _))
  | noAck hloop hdown =>
    refine .on rfl ?_ (.inr (List.Subset.refl _))
    simp only [Process.inHand, Process.held, hdown, List.flatMap_cons]
    exact (List.Sublist.refl _).append (List.sublist_append_right _ _)
  | heartbeat | deregister =>
    exact .on (by simp [Process.stream, Process.upChunks, messageChunk]) (List.Sublist.refl _)
      (.inr (List.Subset.refl _))
  | sendChunk hloop hc =>
    refine .on ?_ (List.Sublist.refl _) (.inr (List.Subset.refl _))
    simp [Process.stream, Process.upChunks, messageChunk, Chan.buffered_of_recv hc]
  | sendFails | streamLost | shutdown | closeSend | serverClosed | timer =>
    exact moves_same rfl rfl rfl rfl rfl rfl

theorem moves_of_act (he : Emits p) (h : p.act d a = some p') : Moves p p' := by
  rcases act_cases h with ⟨-, rfl⟩ | h | ⟨-, h⟩
  · exact moves_same rfl rfl rfl rfl rfl rfl
  · exact h.moves
  · exact h.moves he

theorem Outside.jobLoop (h : Outside p d a p') :
    p'.jobLoop = p.jobLoop ∧ p'.replied = p.replied := by
  cases h <;> exact ⟨rfl, rfl⟩

theorem Emits.inside (he : Emits p) (h : Inside p d a p') :
    Emits p' ∧ p.replied ⊆ p'.replied := by
  have hquiet {q : Process} (hloop : ∀ job c, q.jobLoop ≠ .emitting job c)
      (hreplied : q.replied = p.replied) : Emits q ∧ p.replied ⊆ q.replied :=
    ⟨fun job c hq ↦ absurd hq (hloop job c), hreplied ▸ List.Subset.refl _⟩
  cases h with
  | @recv m => cases m <;> exact ⟨he, List.Subset.refl _⟩
  | recvEnd | pushJob | pushPull | pushUnload | takePull | takeUnload =>
    exact ⟨he, List.Subset.refl _⟩
  | takeJob | jobExit => exact hquiet (by simp) rfl
  | delta hloop =>
    refine ⟨?_, List.Subset.refl _⟩
    intro job' c hc
    cases hc
    exact ⟨rfl, fun hdone ↦ nomatch hdone⟩
  | finish hloop =>
    refine ⟨?_, List.subset_cons_self _ _⟩
    intro job' c hc
    cases hc
    exact ⟨rfl, fun _ ↦ List.mem_cons_self⟩
  | @emit job c => exact hquiet (by cases c.done <;> simp) rfl
  | @drop job c => exact hquiet (by cases c.done <;> simp) rfl

theorem Emits.act (he : Emits p) (h : p.act d a = some p') : Emits p' ∧ p.replied ⊆ p'.replied := by
  rcases act_cases h with ⟨-, rfl⟩ | h | ⟨-, h⟩
  · exact ⟨he, List.Subset.refl _⟩
  · obtain ⟨hloop, hreplied⟩ := h.jobLoop
    rw [Emits, hloop, hreplied]
    exact ⟨he, List.Subset.refl _⟩
  · exact he.inside h

/-- What a step of the server does to the worker: nothing, except for the message it writes,
the message it reads and the end of the stream. -/
inductive Hears (h : ℕ) (s : Server) (p : Process) : Instr → Choice → Process → Prop
  | other {i : Instr} {x : Choice} (hwrite : i = .write h → x ≠ .go)
      (hread : i = .read h → ∀ m, x ≠ .message m) (hleave : i = .read h → x ≠ .streamEnd)
      (hctx : i = .read h → x ≠ .ctxDone) : Hears h s p i x p
  | write {m : ServerMessage} {c : Chan ServerMessage} (hc : (s.worker h).send.recv = some (m, c)) :
      Hears h s p (.write h) .go { p with down := p.down ++ [m] }
  | read {m : WorkerMessage} {up : List WorkerMessage} (hup : p.up = m :: up)
      (hm : ∀ c, m = .chunk c → c.chunk.done = false) :
      Hears h s p (.read h) (.message m) { p with up := up }
  | readLast {c : Produced} {up : List WorkerMessage} (hup : p.up = .chunk c :: up)
      (hdone : c.chunk.done = true) :
      Hears h s p (.read h) (.message (.chunk c)) { p with up := up, answered := c :: p.answered }
  | streamEnd (hend : (p.up = [] ∧ p.sendLoop = .awaitServer) ∨ p.connDone) :
      Hears h s p (.read h) .streamEnd { p with ended := true }
  | ctxDone : Hears h s p (.read h) .ctxDone { p with ended := true }

theorem hears_of_hear {h : ℕ} {s : Server} {i : Instr} {x : Choice} (hp : p.hear h s i x = some p') :
    Hears h s p i x p' := by
  unfold Process.hear at hp
  split at hp
  · next k =>
    split_ifs at hp with hk
    · subst hk
      obtain ⟨⟨m, c⟩, hc, rfl⟩ := Option.map_eq_some_iff.mp hp
      exact .write hc
    · cases hp
      exact .other (by simpa using hk) (by simp) (by simp) (by simp)
  · split_ifs at hp
    cases hp
    exact .other (by simp) (by simp) (by simp) (by simp)
  · next k m =>
    split_ifs at hp with hk
    · subst hk
      split at hp
      · cases hp
      · next m' up hup =>
        split_ifs at hp with hm
        subst hm
        cases m' with
        | chunk c =>
          cases hdone : c.chunk.done with
          | true =>
            simp only [hdone, if_true] at hp
            cases hp
            exact .readLast hup hdone
          | false =>
            simp only [hdone, Bool.false_eq_true, if_false] at hp
            cases hp
            refine .read hup ?_
            rintro c' ⟨⟩
            exact hdone
        | _ =>
          cases hp
          exact .read hup (by simp)
    · cases hp
      exact .other (by simp) (by simp [hk]) (by simp) (by simp)
  · next k =>
    split_ifs at hp with hk hend
    · subst hk
      cases hp
      exact .streamEnd hend
    · cases hp
      exact .other (by simp) (by simp) (by simp [hk]) (by simp)
  · next k =>
    split_ifs at hp with hk
    · subst hk
      cases hp
      exact .ctxDone
    · cases hp
      exact .other (by simp) (by simp) (by simp) (by simp [hk])
  · next h1 h2 h3 h4 h5 =>
    cases hp
    refine .other ?_ ?_ ?_ ?_
    · rintro rfl rfl
      exact h1 _ rfl rfl
    · rintro rfl m rfl
      exact h3 _ _ rfl rfl
    · rintro rfl rfl
      exact h4 _ rfl rfl
    · rintro rfl rfl
      exact h5 _ rfl rfl

theorem answered_of_act (h : p.act d a = some p') :
    p'.answered = p.answered ∧ p'.ended = p.ended ∧
      ∃ ms, p'.up = p.up ++ ms ∧ ∀ res, .result res ∉ ms := by
  have hsame {q : Process} (hanswered : q.answered = p.answered) (hended : q.ended = p.ended)
      (hup : q.up = p.up) : q.answered = p.answered ∧ q.ended = p.ended ∧
        ∃ ms, q.up = p.up ++ ms ∧ ∀ res, .result res ∉ ms :=
    ⟨hanswered, hended, [], by simp [hup], by simp⟩
  rcases act_cases h with ⟨-, rfl⟩ | h | ⟨-, h⟩
  · exact hsame rfl rfl rfl
  · cases h with
    | heartbeat | deregister | sendChunk => exact ⟨rfl, rfl, _, rfl, by simp⟩
    | _ => exact hsame rfl rfl rfl
  · cases h with
    | @recv m => cases m <;> exact hsame rfl rfl rfl
    | _ => exact hsame rfl rfl rfl

variable {s : Server} {i : Instr} {x : Choice} {e : Effect Server Instr} {h : ℕ}

theorem taken_isPrefix (w : ControlPlane.Worker) : taken w <+: w.given := by
  have hsplit := List.take_append_drop w.send.taken w.send.sent
  rw [ControlPlane.Worker.given, ← hsplit, List.flatMap_append]
  exact List.prefix_append _ _

theorem taken_of_recv {w w' : ControlPlane.Worker} {m : ServerMessage}
    (hc : w.send.recv = some (m, w'.send)) : taken w' = taken w ++ m.jobs := by
  obtain ⟨hget, hsent, htaken, -, -⟩ := Chan.recv_some hc
  rw [taken, taken, hsent, htaken, List.take_add_one, hget]
  simp

theorem taken_cases (hs : Step s i x e) (h : ℕ) :
    taken (e.shared.worker h) = taken (s.worker h) ∨
    (i = .write h ∧ x = .go ∧ ∃ m c, (s.worker h).send.recv = some (m, c) ∧
      taken (e.shared.worker h) = taken (s.worker h) ++ m.jobs) ∨
    (h = s.nextSes + 1 ∧ taken (e.shared.worker h) = []) := by
  rcases hs.send_cases h with ⟨-, hsame⟩ | ⟨-, m, hc⟩ | ⟨rfl, m, hc⟩ | ⟨id, models, -, hh, hnew⟩
  · exact .inl (by rw [taken, taken, hsame])
  · obtain ⟨-, hsent, htaken, -, -⟩ := Chan.send_some hc
    refine .inl ?_
    rw [taken, taken, hsent, htaken, List.take_append_of_le_length (s.worker h).send.taken_le]
  · have hx : x = .go ∨ e.shared = s := by
      cases hs with
      | quit => exact .inr rfl
      | wrote | wroteJob => exact .inl rfl
    rcases hx with rfl | hsame
    · exact .inr (.inl ⟨rfl, rfl, m, _, hc, taken_of_recv hc⟩)
    · exact .inl (by rw [hsame])
  · exact .inr (.inr ⟨hh, by simp [taken, hnew, Chan.make]⟩)

theorem assigned_kept (hs : Step s i x e) {job : Job} (hjob : job ∈ s.assigned h) :
    job ∈ e.shared.assigned h ∨ i = .read h ∧
      ((∃ c, x = .message (.chunk c) ∧ c.chunk.done ∧ jobTag job = chunkTag c) ∨
        ∃ res, x = .message (.result res)) := by
  have hretire (k : ℕ) (jobID : String) (sources : List ℕ) :
      job ∈ (retire s k jobID sources).assigned h ∨
        h = k ∧ job.id = jobID ∧ job.request ∈ sources := by
    by_cases hh : h = k
    · subst hh
      by_cases hmatch : job.id = jobID ∧ job.request ∈ sources
      · exact .inr ⟨rfl, hmatch⟩
      · refine .inl ?_
        simp only [retire, Function.update_self, List.mem_filter]
        exact ⟨hjob, by simpa using not_and_or.mp hmatch⟩
    · refine .inl ?_
      simpa only [retire, Function.update_of_ne hh] using hjob
  cases hs with
  | result k res =>
    rcases hretire k res.result.jobID res.sources with hkept | ⟨rfl, -, -⟩
    · exact .inl hkept
    · exact .inr ⟨rfl, .inr ⟨res, rfl⟩⟩
  | @lastChunk k c hd hobs | @lastChunkObserved k _ c hd hobs =>
    rcases hretire k c.chunk.jobID c.source.toList with hkept | ⟨rfl, hid, hsource⟩
    · exact .inl hkept
    · refine .inr ⟨rfl, .inl ⟨c, rfl, hd, ?_⟩⟩
      rw [jobTag, chunkTag, hid, (Option.mem_toList.mp hsource : c.source = some job.request)]
  | @wroteJob k job' c hc =>
    refine .inl ?_
    by_cases hh : h = k
    · subst hh
      simpa using .inr hjob
    · simpa [Function.update_of_ne hh] using hjob
  | _ => exact .inl hjob

/-- What the worker has of its stream: its jobs come one after the other, each ends with its
terminal chunk, and the server counts them as assigned until it has read that. -/
structure Piped (h : ℕ) (s : Server) (p : Process) : Prop where
  order : (doneTags p.stream ++ p.inHand.map jobTag).Sublist ((taken (s.worker h)).map jobTag)
  last : p.stream.Pairwise fun a b ↦ a.chunk.done → chunkTag a ≠ chunkTag b
  chunks : ∀ c ∈ p.stream, chunkTag c ∈ (s.assigned h).map jobTag
  jobs : ∀ job ∈ p.inHand, jobTag job ∈ (s.assigned h).map jobTag
  answered : ∀ c ∈ p.answered, chunkTag c ∈ (taken (s.worker h)).map jobTag
  replied : ∀ c ∈ p.stream, c.chunk.done → c ∈ p.replied
  emits : Emits p
  plain : ∀ res, .result res ∉ p.up
  unknown : s.nextSes < h → taken (s.worker h) = []

theorem Piped.act (hP : Piped h s p) (hnodup : ((taken (s.worker h)).map jobTag).Nodup)
    (ha : p.act d a = some p') : Piped h s p' := by
  obtain ⟨hanswered, -, ms, hup, hplain⟩ := answered_of_act ha
  obtain ⟨hemits, hreplied⟩ := hP.emits.act ha
  have hT := hP.order.nodup hnodup
  have hsent {job : Job} {c : Produced} (hjob : job ∈ p.inHand) (htag : chunkTag c = jobTag job) :
      (p.stream ++ [c]).Pairwise (fun a b ↦ a.chunk.done → chunkTag a ≠ chunkTag b) ∧
        ∀ b ∈ p.stream ++ [c], chunkTag b ∈ (s.assigned h).map jobTag := by
    rw [List.pairwise_append, List.forall_mem_append, List.forall_mem_singleton, htag]
    refine ⟨⟨hP.last, List.pairwise_singleton _ _, fun b hb c' hc' hdone heq ↦ ?_⟩, hP.chunks, hP.jobs job hjob⟩
    rw [List.mem_singleton.mp hc', htag] at heq
    -- a job in hand has sent no terminal chunk
    exact (List.nodup_append.mp hT).2.2 _ (mem_doneTags hb hdone) _ (List.mem_map_of_mem hjob) heq
  have hkept : (∀ c ∈ p'.answered, chunkTag c ∈ (taken (s.worker h)).map jobTag) ∧
      (∀ c ∈ p.stream, c.chunk.done → c ∈ p'.replied) ∧ ∀ res, .result res ∉ p'.up :=
    ⟨hanswered ▸ hP.answered, fun c hc hdone ↦ hreplied (hP.replied c hc hdone), fun res hres ↦ by
      rw [hup, List.mem_append] at hres
      exact hres.elim (hP.plain res) (hplain res)⟩
  obtain ⟨hgiven, hold, hplain'⟩ := hkept
  cases moves_of_act hP.emits ha with
  | on hstream hjobs =>
    refine ⟨?_, hstream ▸ hP.last, hstream ▸ hP.chunks, fun job hjob ↦ hP.jobs job (hjobs.subset hjob),
      hgiven, hstream ▸ hold, hemits, hplain', hP.unknown⟩
    rw [hstream]
    exact ((List.Sublist.refl _).append (hjobs.map jobTag)).trans hP.order
  | @delta job c hjob htag hdone hstream hjobs =>
    obtain ⟨hlast, hchunks⟩ := hsent hjob htag
    refine ⟨?_, hstream ▸ hlast, hstream ▸ hchunks, hjobs ▸ hP.jobs, hgiven, ?_, hemits, hplain', hP.unknown⟩
    · rw [hstream, hjobs, doneTags_append]
      simpa [doneTags, hdone] using hP.order
    · rw [hstream, List.forall_mem_append, List.forall_mem_singleton]
      exact ⟨hold, fun hd ↦ absurd hd (by simp [hdone])⟩
  | @last job c htag hdone hmem hstream hjobs =>
    obtain ⟨hlast, hchunks⟩ := hsent (hjobs ▸ List.mem_cons_self) htag
    refine ⟨?_, hstream ▸ hlast, hstream ▸ hchunks,
      fun job' hjob' ↦ hP.jobs job' (hjobs ▸ List.mem_cons_of_mem _ hjob'), hgiven, ?_, hemits, hplain', hP.unknown⟩
    · have horder := hP.order
      rw [hjobs] at horder
      rw [hstream, doneTags_append]
      simpa [doneTags, hdone, htag] using horder
    · rw [hstream, List.forall_mem_append, List.forall_mem_singleton]
      exact ⟨hold, fun _ ↦ hreplied hmem⟩

theorem Piped.taken_eq (hP : Piped h s p) (hs : Step s i x e) (hwrite : i = .write h → x ≠ .go) :
    taken (e.shared.worker h) = taken (s.worker h) := by
  rcases taken_cases hs h with hsame | ⟨rfl, rfl, -⟩ | ⟨rfl, hnew⟩
  · exact hsame
  · exact absurd rfl (hwrite rfl)
  · rw [hnew, hP.unknown (Nat.lt_succ_self _)]

theorem Piped.beside (hP : Piped h s p) (hs : Step s i x e) (hwrite : i = .write h → x ≠ .go)
    (hread : i = .read h → ∀ m, x ≠ .message m) : Piped h e.shared p := by
  have hassigned {tag : Tag} (htag : tag ∈ (s.assigned h).map jobTag) :
      tag ∈ (e.shared.assigned h).map jobTag := by
    obtain ⟨job, hjob, rfl⟩ := List.mem_map.mp htag
    rcases assigned_kept hs hjob with hkept | ⟨rfl, ⟨c, rfl, -⟩ | ⟨res, rfl⟩⟩
    · exact List.mem_map_of_mem hkept
    · exact absurd rfl (hread rfl _)
    · exact absurd rfl (hread rfl _)
  have htaken := hP.taken_eq hs hwrite
  refine ⟨htaken ▸ hP.order, hP.last, fun c hc ↦ hassigned (hP.chunks c hc),
    fun job hjob ↦ hassigned (hP.jobs job hjob), htaken ▸ hP.answered, hP.replied, hP.emits, hP.plain,
    fun hlt ↦ ?_⟩
  rw [htaken]
  exact hP.unknown (hs.nextSes_le.trans_lt hlt)

theorem write_cases (he : controlPlane.exec s (.write h) .go = some e) {m : ServerMessage}
    {c : Chan ServerMessage} (hc : (s.worker h).send.recv = some (m, c)) :
    (e.shared.worker h).send = c ∧ e.shared.nextSes = s.nextSes ∧
      e.shared.assigned h = m.jobs ++ s.assigned h := by
  simp only [controlPlane, exec, execStream, hc, Option.map_some] at he
  cases m <;> cases he <;> simp [Server.setWorker, ServerMessage.jobs]

theorem Piped.write (hP : Piped h s p) (he : controlPlane.exec s (.write h) .go = some e)
    (hknown : h ≤ s.nextSes) {m : ServerMessage} {c : Chan ServerMessage} (hc : (s.worker h).send.recv = some (m, c)) :
    Piped h e.shared { p with down := p.down ++ [m] } := by
  obtain ⟨hsend, hses, hassigned⟩ := write_cases he hc
  have htaken : taken (e.shared.worker h) = taken (s.worker h) ++ m.jobs :=
    taken_of_recv (hsend ▸ hc)
  have hjobs : ({ p with down := p.down ++ [m] } : Process).inHand = p.inHand ++ m.jobs := by
    simp [Process.inHand, Process.held]
  refine ⟨?_, hP.last, fun c hc ↦ ?_, ?_, fun c hc ↦ ?_, hP.replied, hP.emits, hP.plain, fun hlt ↦ ?_⟩
  · rw [hjobs, htaken, List.map_append, List.map_append, ← List.append_assoc]
    exact hP.order.append (List.Sublist.refl _)
  · rw [hassigned, List.map_append]
    exact List.mem_append_right _ (hP.chunks c hc)
  · rw [hjobs, hassigned, List.map_append, List.forall_mem_append]
    exact ⟨fun job hjob ↦ List.mem_append_right _ (hP.jobs job hjob),
      fun job hjob ↦ List.mem_append_left _ (List.mem_map_of_mem hjob)⟩
  · rw [htaken, List.map_append]
    exact List.mem_append_left _ (hP.answered c hc)
  · omega

theorem upChunks_read {m : WorkerMessage} {up : List WorkerMessage} (hup : p.up = m :: up) :
    p.upChunks = (messageChunk m).toList ++ ({ p with up := up } : Process).upChunks := by
  cases m <;> simp [Process.upChunks, hup, messageChunk, List.filterMap_cons]

theorem stream_read {m : WorkerMessage} {up : List WorkerMessage} (hup : p.up = m :: up) :
    p.stream = (messageChunk m).toList ++ ({ p with up := up } : Process).stream := by
  rw [Process.stream, upChunks_read hup, List.append_assoc]
  rfl

theorem Piped.read (hP : Piped h s p) {m : WorkerMessage} {up : List WorkerMessage}
    (hs : Step s (.read h) (.message m) e) (hup : p.up = m :: up)
    (hm : ∀ c, m = .chunk c → c.chunk.done = false) : Piped h e.shared { p with up := up } := by
  have hassigned {tag : Tag} (htag : tag ∈ (s.assigned h).map jobTag) :
      tag ∈ (e.shared.assigned h).map jobTag := by
    obtain ⟨job, hjob, rfl⟩ := List.mem_map.mp htag
    rcases assigned_kept hs hjob with hkept | ⟨-, ⟨c, hc, hdone, -⟩ | ⟨res, hres⟩⟩
    · exact List.mem_map_of_mem hkept
    · rw [hm c (Choice.message.inj hc)] at hdone
      cases hdone
    · refine absurd ?_ (hP.plain res)
      rw [hup, Choice.message.inj hres]
      exact List.mem_cons_self
  have htaken := hP.taken_eq hs (by simp)
  have hstream := stream_read hup
  have hsuffix : ({ p with up := up } : Process).stream <:+ p.stream := ⟨_, hstream.symm⟩
  refine ⟨?_, hP.last.sublist hsuffix.sublist, fun c hc ↦ hassigned (hP.chunks c (hsuffix.subset hc)),
    fun job hjob ↦ hassigned (hP.jobs job hjob), htaken ▸ hP.answered,
    fun c hc ↦ hP.replied c (hsuffix.subset hc), hP.emits,
    fun res hres ↦ hP.plain res (hup ▸ List.mem_cons_of_mem _ hres), fun hlt ↦ ?_⟩
  · have horder := hP.order
    rw [hstream, doneTags_append, List.append_assoc] at horder
    rw [htaken]
    exact (List.sublist_append_right _ _).trans horder
  · rw [htaken]
    exact hP.unknown (hs.nextSes_le.trans_lt hlt)

theorem Piped.readLast (hP : Piped h s p) (hnodup : ((taken (s.worker h)).map jobTag).Nodup)
    {c : Produced} {up : List WorkerMessage} (hs : Step s (.read h) (.message (.chunk c)) e)
    (hup : p.up = .chunk c :: up) (hdone : c.chunk.done = true) :
    Piped h e.shared { p with up := up, answered := c :: p.answered } := by
  have htaken := hP.taken_eq hs (by simp)
  have hassigned {tag : Tag} (htag : tag ∈ (s.assigned h).map jobTag) (hne : chunkTag c ≠ tag) :
      tag ∈ (e.shared.assigned h).map jobTag := by
    obtain ⟨job, hjob, rfl⟩ := List.mem_map.mp htag
    rcases assigned_kept hs hjob with hkept | ⟨-, ⟨c', hc', -, heq⟩ | ⟨res, hres⟩⟩
    · exact List.mem_map_of_mem hkept
    · cases hc'
      exact absurd heq.symm hne
    · cases hres
  have hstream : p.stream = c :: ({ p with up := up } : Process).stream := stream_read hup
  have horder := hP.order
  rw [hstream, show c :: ({ p with up := up } : Process).stream =
    [c] ++ ({ p with up := up } : Process).stream from rfl, doneTags_append, List.append_assoc,
    show doneTags [c] = [chunkTag c] by simp [doneTags, hdone], List.singleton_append] at horder
  have hlast := hP.last
  rw [hstream, List.pairwise_cons] at hlast
  have hT := (List.nodup_cons.mp (horder.nodup hnodup)).1
  refine ⟨?_, hlast.2, fun b hb ↦ ?_, fun job hjob ↦ ?_, ?_, fun b hb ↦ ?_, hP.emits,
    fun res hres ↦ hP.plain res (hup ▸ List.mem_cons_of_mem _ hres), fun hlt ↦ ?_⟩
  · rw [htaken]
    exact (List.sublist_cons_self _ _).trans horder
  · refine hassigned (hP.chunks b ?_) (hlast.1 b hb hdone)
    rw [hstream]
    exact List.mem_cons_of_mem _ hb
  · refine hassigned (hP.jobs job hjob) fun heq ↦ hT ?_
    rw [heq]
    exact List.mem_append_right _ (List.mem_map_of_mem hjob)
  · rw [htaken, List.forall_mem_cons]
    exact ⟨horder.subset List.mem_cons_self, hP.answered⟩
  · refine hP.replied b ?_
    rw [hstream]
    exact List.mem_cons_of_mem _ hb
  · rw [htaken]
    exact hP.unknown (hs.nextSes_le.trans_lt hlt)

section

variable {t : Time} {dur : Duration} {n : ℕ} {c : Config Server Instr}

theorem taken_nodup (hc : controlPlane.Reaches (boot (new t dur n)) c) (h : ℕ) :
    ((taken (c.shared.worker h)).map jobTag).Nodup := by
  have hgiven : ((c.shared.worker h).given.map Job.request).Nodup := by
    refine List.nodup_iff_count_le_one.mpr fun r ↦ ?_
    have hle := hands_le_one hc h r
    have hone : (if r < c.shared.requests then 1 else 0) ≤ 1 := by split <;> simp
    rw [List.count, List.countP_map]
    exact le_trans (by simp only [Function.comp_def]; omega) hone
  have htaken := hgiven.sublist ((taken_isPrefix (c.shared.worker h)).sublist.map Job.request)
  refine List.Nodup.of_map Prod.snd ?_
  have hsnd : ((taken (c.shared.worker h)).map jobTag).map Prod.snd =
      ((taken (c.shared.worker h)).map Job.request).map some := by
    simp [Function.comp_def, jobTag]
  rw [hsnd]
  exact htaken.map (Option.some_injective ℕ)

variable {G : Config Server Instr → Process → Instr → Choice → Prop}
  {H : Config Server Instr → Process → Action → Prop}

theorem piped_of_linked (hc : controlPlane.Linked (peer h) G H (boot (new t dur n)) {} c p) :
    Piped h c.shared p := by
  refine hc.invariant (fun s _ p ↦ Piped h s p) ?_ ?_ ?_
  · constructor <;> simp [boot, new, Process.stream, Process.upChunks, Process.inHand, Process.held,
      Chan.make, Chan.buffered, doneTags, JobLoop.jobs, Receiver.jobs, taken, Emits]
  · intro c p i x R e p' hc hsoup hP _ he hear
    have hs := step_of_exec he
    cases hears_of_hear hear with
    | other hwrite hread => exact hP.beside hs hwrite hread
    | write hrecv =>
      refine hP.write he ?_ hrecv
      exact (known_of_reaches hc.reaches).2 (.write h) (hsoup ▸ Multiset.mem_cons_self _ R) h rfl
    | read hup hm => exact hP.read hs hup hm
    | readLast hup hdone => exact hP.readLast (taken_nodup hc.reaches h) hs hup hdone
    | streamEnd | ctxDone =>
      have hP' := hP.beside hs (by simp) (by simp)
      exact ⟨hP'.order, hP'.last, hP'.chunks, hP'.jobs, hP'.answered, hP'.replied, hP'.emits, hP'.plain,
        hP'.unknown⟩
  · intro c p a p' hc hP _ hact
    exact hP.act (taken_nodup hc.reaches h) hact

theorem honest_of_linked (hc : controlPlane.Linked (peer h) G H (boot (new t dur n)) {} c p)
    (hear : p.hear h c.shared (.read h) x = some p') : Honest c (.read h) x := by
  have hP := piped_of_linked hc
  have hchunk {b : Produced} {up : List WorkerMessage} (hup : p.up = .chunk b :: up) :
      Honest c (.read h) (.message (.chunk b)) := by
    have hb : b ∈ p.stream := by
      rw [stream_read hup]
      exact List.mem_cons_self
    obtain ⟨job, hjob, htag⟩ := List.mem_map.mp (hP.chunks b hb)
    obtain ⟨hid, hsource⟩ := Prod.ext_iff.mp htag
    exact ⟨job, hjob, hid, hsource.symm⟩
  cases hears_of_hear hear with
  | other _ hread =>
    cases x with
    | message m => exact absurd rfl (hread rfl m)
    | _ => trivial
  | @read m up hup hm =>
    cases m with
    | chunk b => exact hchunk hup
    | result res =>
      refine absurd ?_ (hP.plain res)
      rw [hup]
      exact List.mem_cons_self
    | _ => trivial
  | readLast hup => exact hchunk hup
  | streamEnd => trivial
  | ctxDone => trivial

end

end AgentGpu.Worker
