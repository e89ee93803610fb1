import AgentGpu.ControlPlane.Calls
import AgentGpu.Worker.Pipeline

namespace AgentGpu.Worker

open Foundation ControlPlane

/-- Requests do not reuse ids, the other workers are honest, and the server does not evict
this one. -/
def ServerKeeps (h : ℕ) (c : Config Server Instr) (_ : Process) (i : Instr) (x : Choice) : Prop :=
  FreshID c i x ∧
    match i with
    | .read k => k = h ∨ Honest c (.read k) x
    | .unregister k cause => k = h → cause = .disconnected
    | _ => True

instance (h : ℕ) (c : Config Server Instr) (p : Process) (i : Instr) (x : Choice) :
    Decidable (ServerKeeps h c p i x) := by
  delta ServerKeeps
  induction i using Instr.casesOn <;> infer_instance

/-- The worker leaves its loop only when all jobs it has received are done and all their chunks
sent, and gives up waiting for the server only when that has read them. -/
def LeavesIdle (_ : Config Server Instr) (p : Process) : Action → Prop
  | .shutdown => p.held = [] ∧ p.chunks.buffered = []
  | .timer => p.up = []
  | _ => True

instance (c : Config Server Instr) (p : Process) (a : Action) : Decidable (LeavesIdle c p a) := by
  unfold LeavesIdle
  split <;> infer_instance

section Loop

variable {p p' : Process} {d : Bool} {a : Action}

/-- How a step moves the send loop; `recvErr` has something on it only once the stream has
ended. -/
inductive Turns (p p' : Process) (d : Bool) : Action → Prop
  | stay {a : Action} (hloop : p'.sendLoop = p.sendLoop)
      (herr : p'.recvErr.sent = p.recvErr.sent ∨ d ∨ p.connDone) : Turns p p' d a
  | start {a : Action} (hloop : p.sendLoop = .register)
      (hloop' : p'.sendLoop = .select ∨ p'.sendLoop = .returned)
      (herr : p'.recvErr.sent = p.recvErr.sent) : Turns p p' d a
  | shutdown (hloop : p.sendLoop = .select) (hloop' : p'.sendLoop = .deregister)
      (herr : p'.recvErr.sent = p.recvErr.sent) : Turns p p' d .shutdown
  | leave {a : Action} (hloop : p.sendLoop = .deregister ∨ p.sendLoop = .closeSend)
      (hloop' : p'.sendLoop = .closeSend ∨ p'.sendLoop = .awaitServer)
      (herr : p'.recvErr.sent = p.recvErr.sent) : Turns p p' d a
  | lost {a : Action} (hlost : d ∨ p.recvErr.sent ≠ []) (hloop : p.sendLoop ≠ .returned)
      (hloop' : p'.sendLoop = .returned) (herr : p'.recvErr.sent = p.recvErr.sent) : Turns p p' d a
  | timer (hloop : p.sendLoop = .awaitServer) (hloop' : p'.sendLoop = .returned)
      (herr : p'.recvErr.sent = p.recvErr.sent) : Turns p p' d .timer

theorem Outside.turns (h : Outside p d a p') : Turns p p' d a := by
  cases h with
  | ack hloop => exact .start hloop (.inl rfl) rfl
  | noAck hloop => exact .start hloop (.inr rfl) rfl
  | heartbeat | sendChunk => exact .stay rfl (.inl rfl)
  | sendFails hd hwaits hopen => exact .lost (.inl hd) hopen rfl rfl
  | streamLost hloop hc | serverClosed hloop hc =>
    have hmem : () ∈ p.recvErr.sent := Chan.mem_of_recv hc
    exact .lost (.inr (List.ne_nil_of_mem hmem)) (by simp [hloop]) rfl (Chan.recv_some hc).2.1
  | shutdown hloop => exact .shutdown hloop rfl rfl
  | deregister hloop => exact .leave (.inl hloop) (.inl rfl) rfl
  | closeSend hloop => exact .leave (.inr hloop) (.inr rfl) rfl
  | timer hloop => exact .timer hloop rfl rfl

theorem Inside.loop (h : Inside p d a p') :
    p'.sendLoop = p.sendLoop ∧ (p'.recvErr.sent = p.recvErr.sent ∨ d ∨ p.connDone) ∧
      (p'.received = p.received ∨
        p.sendLoop = .select ∧ ∃ job ∈ p'.held, p'.received = p.received ++ [job]) := by
  cases h with
  | @recv m =>
    cases m with
    | job job =>
      refine ⟨rfl, .inl rfl, ?_⟩
      by_cases hloop : p.sendLoop = .select
      · refine .inr ⟨hloop, job, ?_, by simp [Process.receive, hloop]⟩
        simp [Process.receive, Process.held, Receiver.jobs, ServerMessage.jobs]
      · exact .inl (by simp [Process.receive, hloop])
    | _ => exact ⟨rfl, .inl rfl, .inl rfl⟩
  | recvEnd hrecv hend => exact ⟨rfl, .inr hend, .inl rfl⟩
  | _ => exact ⟨rfl, .inl rfl, .inl rfl⟩

theorem Outside.received (h : Outside p d a p') : p'.received = p.received := by
  cases h <;> rfl

theorem turns_of_act (h : p.act d a = some p') :
    Turns p p' d a ∧ (p'.received = p.received ∨
      p.sendLoop = .select ∧ p'.sendLoop = .select ∧
        ∃ job ∈ p'.held, p'.received = p.received ++ [job]) := by
  rcases act_cases h with ⟨-, rfl⟩ | h | ⟨-, h⟩
  · exact ⟨.stay rfl (.inl rfl), .inl rfl⟩
  · exact ⟨h.turns, .inl h.received⟩
  · obtain ⟨hloop, herr, hreceived⟩ := h.loop
    refine ⟨.stay hloop herr, hreceived.imp_right fun ⟨hselect, hjob⟩ ↦ ?_⟩
    exact ⟨hselect, hloop.trans hselect, hjob⟩

end Loop

def tearsDown (h : ℕ) : Instr → Bool
  | .unregister k .disconnected | .fail k _ | .cancel k => k == h
  | _ => false

section Teardown

variable {s : Server} {i : Instr} {x : Choice} {e : Effect Server Instr} {h : ℕ}

theorem tearsDown_message (s : Server) (k : ℕ) (m : WorkerMessage) :
    ∀ j ∈ (handleMessage s k m).fresh, tearsDown h j = false := by
  cases m with
  | chunk c =>
    cases hobs : (s.worker k).observers.lookup c.chunk.jobID <;>
      cases hdone : c.chunk.done <;> simp [handleMessage, hobs, hdone, tearsDown]
  | _ => simp [handleMessage, tearsDown]

theorem tearsDown_read {k : ℕ} (he : controlPlane.exec s (.read k) x = some e) {j : Instr}
    (hj : j ∈ e.fresh) (hdown : tearsDown h j) : k = h ∧ (x = .streamEnd ∨ x = .ctxDone) := by
  have hleave (hj : j ∈ (⟨s, [.unregister k .disconnected], []⟩ : Effect Server Instr).fresh) :
      k = h := by
    obtain rfl : j = .unregister k .disconnected := by simpa using hj
    exact beq_iff_eq.mp hdown
  cases x <;> simp only [controlPlane, exec, execStream, reduceCtorEq] at he
  case message m =>
    cases he
    cases (tearsDown_message s k m j hj).symm.trans hdown
  case streamEnd =>
    cases he
    exact ⟨hleave hj, .inl rfl⟩
  case ctxDone =>
    split_ifs at he
    cases he
    exact ⟨hleave hj, .inr rfl⟩

theorem tearsDown_fresh (he : controlPlane.exec s i x = some e) : ∀ j ∈ e.fresh, tearsDown h j →
    (i = .read h ∧ (x = .streamEnd ∨ x = .ctxDone)) ∨ tearsDown h i ∨
      ∃ cause, i = .unregister h cause := by
  intro j hj hdown
  have hleft := (step_of_exec he).leaves j hj
  cases j with
  | unregister k cause =>
    cases cause with
    | disconnected =>
      obtain rfl := hleft
      obtain ⟨rfl, hx⟩ := tearsDown_read he hj hdown
      exact .inl ⟨rfl, hx⟩
    | _ => cases hdown
  | fail k cause =>
    obtain rfl := beq_iff_eq.mp hdown
    exact .inr (.inr ⟨cause, hleft⟩)
  | cancel k =>
    obtain ⟨cause, rfl⟩ := hleft
    exact .inr (.inl hdown)
  | _ => cases hdown

theorem cancelled_cases (hs : Step s i x e) (hc : (e.shared.worker h).cancelled) :
    (s.worker h).cancelled ∨ i = .cancel h := by
  cases hs with
  | register id models =>
    refine .inl ?_
    by_cases hh : h = s.nextSes + 1
    · subst hh
      simp [addWorker] at hc
    · rwa [addWorker, Server.setWorker_of_ne hh] at hc
  | cancel k =>
    by_cases hh : h = k
    · exact .inr (by rw [hh])
    · rw [Server.setWorker_of_ne hh] at hc
      exact .inl hc
  | _ =>
    first
    | exact .inl hc
    | exact .inl ((Server.proj_of_update ControlPlane.Worker.cancelled rfl (by rfl) h).symm.trans hc)

end Teardown

section Leaving

variable {h : ℕ} {s : Server} {S : Multiset Instr} {p p' : Process} {a : Action}

/-- A job that was received is at the worker or, once the loop was left, its terminal chunk is
on the wire. -/
def Located (p : Process) (job : Job) : Prop :=
  jobTag job ∈ doneTags p.upChunks ∨
    p.sendLoop = .select ∧ (jobTag job ∈ doneTags p.stream ∨ job ∈ p.held)

/-- The stream ends after the worker has left its loop, and by then the server has read the
terminal chunk of every job received before. -/
structure Leaves (h : ℕ) (s : Server) (S : Multiset Instr) (p : Process) : Prop where
  stopped : p.ended → p.sendLoop = .awaitServer ∨ p.sendLoop = .returned
  cancelled : (s.worker h).cancelled → p.ended
  teardown : ∀ j ∈ S, tearsDown h j → p.ended
  reader : p.ended → (∀ j ∈ S, ¬j.handlerOf h) ∧ h ≤ s.nextSes
  lost : p.recvErr.sent ≠ [] → p.ended ∨ p.connDone
  early : p.sendLoop = .register → p.received = []
  kept : ∀ job ∈ p.received, jobTag job ∈ p.answered.map chunkTag ∨
    p.ended = false ∧ p.connDone = false ∧ Located p job

theorem doneTags_upChunks {ms : List WorkerMessage} (hup : p'.up = p.up ++ ms) {tag : Tag}
    (htag : tag ∈ doneTags p.upChunks) : tag ∈ doneTags p'.upChunks := by
  rw [Process.upChunks, hup, List.filterMap_append, doneTags_append]
  exact List.mem_append_left _ htag

theorem Located.move {job : Job} (hl : Located p job) (hopen : p.connDone = false)
    (hloop : p'.sendLoop = p.sendLoop) {ms : List WorkerMessage} (hup : p'.up = p.up ++ ms)
    (hmoves : Moves p p') : Located p' job := by
  rcases hl with hup' | ⟨hselect, hl⟩
  · exact .inl (doneTags_upChunks hup hup')
  · refine .inr ⟨hloop.trans hselect, ?_⟩
    cases hmoves with
    | on hstream _ hheld =>
      have hheld := hheld.resolve_left (by simp [hopen])
      exact hl.imp (fun ht ↦ hstream ▸ ht) fun hjob ↦ hheld hjob
    | delta _ _ _ hstream _ hheld =>
      rw [hstream, doneTags_append, hheld]
      exact hl.imp_left (List.mem_append_left _)
    | @last job' c htag hdone _ hstream _ hheld =>
      rw [hheld, List.mem_cons] at hl
      rcases hl with ht | rfl | hjob
      · rw [hstream, doneTags_append]
        exact .inl (List.mem_append_left _ ht)
      · refine .inl ?_
        rw [← htag]
        exact mem_doneTags (hstream ▸ List.mem_append_right _ (List.mem_singleton_self c)) hdone
      · exact .inr hjob

theorem Leaves.turn (hL : Leaves h s S p) (hanswered : p'.answered = p.answered)
    (hended : p'.ended = p.ended) (hreceived : p'.received = p.received)
    (herr : p'.recvErr.sent = p.recvErr.sent) (hopen : p.sendLoop ≠ .returned)
    (hearly : p'.sendLoop ≠ .register)
    (hstopped : p.ended → p'.sendLoop = .awaitServer ∨ p'.sendLoop = .returned)
    (hkept : ∀ job ∈ p.received, jobTag job ∈ p.answered.map chunkTag ∨
      p.ended = false ∧ p'.connDone = false ∧ Located p' job) : Leaves h s S p' where
  stopped := hended ▸ hstopped
  cancelled := hended ▸ hL.cancelled
  teardown := hended ▸ hL.teardown
  reader := hended ▸ hL.reader
  lost hne := by
    rcases hL.lost (herr ▸ hne) with hend | hclosed
    · exact .inl (hended ▸ hend)
    · exact absurd (of_decide_eq_true hclosed) hopen
  early hreg := absurd hreg hearly
  kept := by
    rw [hreceived, hanswered, hended]
    exact hkept

theorem Leaves.act (hL : Leaves h s S p) (hemits : Emits p) {c : Config Server Instr}
    (hidle : LeavesIdle c p a) (ha : p.act (s.worker h).cancelled a = some p') :
    Leaves h s S p' := by
  obtain ⟨hanswered, hended, ms, hup, -⟩ := answered_of_act ha
  obtain ⟨hturns, hreceived⟩ := turns_of_act ha
  have hmoves := moves_of_act hemits ha
  have hcancelled := hended ▸ hL.cancelled
  have hteardown := hended ▸ hL.teardown
  have hreader := hended ▸ hL.reader
  cases hturns with
  | stay hloop herr =>
    have hconn : p'.connDone = p.connDone := by simp [Process.connDone, hloop]
    refine ⟨?_, hcancelled, hteardown, hreader, fun hne ↦ ?_, ?_, fun job hjob ↦ ?_⟩
    · rw [hended, hloop]
      exact hL.stopped
    · rw [hended, hconn]
      rcases herr with hsame | hd | hd
      · exact hL.lost (hsame ▸ hne)
      · exact .inl (hL.cancelled hd)
      · exact .inr hd
    · intro hreg
      rcases hreceived with hsame | ⟨hselect, -⟩
      · rw [hsame]
        exact hL.early (hloop ▸ hreg)
      · cases (hloop.symm.trans hreg).symm.trans hselect
    · rw [hanswered, hended, hconn]
      have hold (hjob : job ∈ p.received) : jobTag job ∈ p.answered.map chunkTag ∨
          p.ended = false ∧ p.connDone = false ∧ Located p' job :=
        (hL.kept job hjob).imp_right fun ⟨hopen, hopen', hl⟩ ↦
          ⟨hopen, hopen', hl.move hopen' hloop hup hmoves⟩
      rcases hreceived with hsame | ⟨hselect, hselect', job', hheld, hnew⟩
      · exact hold (hsame ▸ hjob)
      · rw [hnew, List.mem_append, List.mem_singleton] at hjob
        rcases hjob with hjob | rfl
        · exact hold hjob
        · refine .inr ⟨?_, by simp [Process.connDone, hselect], .inr ⟨hselect', .inr hheld⟩⟩
          by_contra hend
          rcases hL.stopped (by simpa using hend) with hs | hs <;> cases hs.symm.trans hselect
  | start hloop hloop' herr =>
    have hnone := hL.early hloop
    refine hL.turn hanswered hended (hreceived.resolve_right ?_) herr (by simp [hloop]) ?_ ?_ ?_
    · rintro ⟨hselect, -⟩
      cases hloop.symm.trans hselect
    · rcases hloop' with hloop' | hloop' <;> simp [hloop']
    · intro hend
      rcases hL.stopped hend with hs | hs <;> cases hs.symm.trans hloop
    · simp [hnone]
  | shutdown hloop hloop' herr =>
    obtain ⟨hheld, hchunks⟩ := hidle
    refine hL.turn hanswered hended (hreceived.resolve_right ?_) herr (by simp [hloop])
      (by simp [hloop']) ?_ fun job hjob ↦ ?_
    · rintro ⟨-, hselect, -⟩
      cases hloop'.symm.trans hselect
    · intro hend
      rcases hL.stopped hend with hs | hs <;> cases hs.symm.trans hloop
    · refine (hL.kept job hjob).imp_right fun ⟨hend, _, hl⟩ ↦ ?_
      -- nothing is left at the worker, so the terminal chunk is on the wire
      have hstream : p.stream = p.upChunks := by simp [Process.stream, hchunks]
      have htag : jobTag job ∈ doneTags p.upChunks := by
        rcases hl with ht | ⟨-, ht | hjob⟩
        · exact ht
        · rwa [hstream] at ht
        · rw [hheld] at hjob
          cases hjob
      exact ⟨hend, by simp [Process.connDone, hloop'], .inl (doneTags_upChunks hup htag)⟩
  | leave hloop hloop' herr =>
    have hnot : p.sendLoop ≠ .select := by rcases hloop with hs | hs <;> simp [hs]
    have hend : p.ended = false := by
      by_contra hend
      rcases hL.stopped (by simpa using hend) with hs | hs <;>
        rcases hloop with hs' | hs' <;> cases hs.symm.trans hs'
    refine hL.turn hanswered hended (hreceived.resolve_right fun hs ↦ hnot hs.1) herr ?_ ?_ ?_
      fun job hjob ↦ ?_
    · rcases hloop with hs | hs <;> simp [hs]
    · rcases hloop' with hs | hs <;> simp [hs]
    · simp [hend]
    · refine (hL.kept job hjob).imp_right fun ⟨_, _, hl⟩ ↦ ?_
      refine ⟨hend, ?_, .inl (doneTags_upChunks hup (hl.resolve_right fun hs ↦ hnot hs.1))⟩
      rcases hloop' with hs | hs <;> simp [Process.connDone, hs]
  | lost hlost hloop hloop' herr =>
    have hend : p.ended := by
      rcases hlost with hd | hne
      · exact hL.cancelled hd
      · exact (hL.lost hne).resolve_right fun hclosed ↦ hloop (of_decide_eq_true hclosed)
    refine hL.turn hanswered hended (hreceived.resolve_right ?_) herr hloop (by simp [hloop'])
      (fun _ ↦ .inr hloop') fun job hjob ↦ ?_
    · rintro ⟨-, hselect, -⟩
      cases hloop'.symm.trans hselect
    · exact .inl ((hL.kept job hjob).resolve_right fun hopen ↦ by simp [hend] at hopen)
  | timer hloop hloop' herr =>
    have hnone : p.upChunks = [] := by
      rw [Process.upChunks, show p.up = [] from hidle, List.filterMap_nil]
    refine hL.turn hanswered hended (hreceived.resolve_right ?_) herr (by simp [hloop])
      (by simp [hloop']) (fun _ ↦ .inr hloop') fun job hjob ↦ ?_
    · rintro ⟨hselect, -⟩
      cases hloop.symm.trans hselect
    · refine .inl ((hL.kept job hjob).resolve_right ?_)
      rintro ⟨-, -, ht | ⟨hselect, -⟩⟩
      · simp [hnone, doneTags] at ht
      · cases hloop.symm.trans hselect

theorem Located.read {job : Job} (hl : Located p job) {m : WorkerMessage} {up : List WorkerMessage}
    (hup : p.up = m :: up) (hm : ∀ c, m = .chunk c → c.chunk.done → chunkTag c ≠ jobTag job) :
    Located { p with up := up } job := by
  have hskip {cs : List Produced} (ht : jobTag job ∈ doneTags ((messageChunk m).toList ++ cs)) :
      jobTag job ∈ doneTags cs := by
    rw [doneTags_append, List.mem_append] at ht
    refine ht.resolve_left fun ht ↦ ?_
    cases m with
    | chunk c =>
      obtain ⟨b, hb, htag⟩ := List.mem_map.mp ht
      obtain ⟨hb, hdone⟩ := List.mem_filter.mp hb
      obtain rfl : b = c := by simpa [messageChunk] using hb
      exact hm b rfl hdone htag
    | _ => simp [messageChunk, doneTags] at ht
  rcases hl with ht | ⟨hselect, ht | hjob⟩
  · refine .inl (hskip ?_)
    rwa [upChunks_read hup] at ht
  · refine .inr ⟨hselect, .inl (hskip ?_)⟩
    rwa [stream_read hup] at ht
  · exact .inr ⟨hselect, .inr hjob⟩

end Leaving

section

variable {h : ℕ} {c : Config Server Instr} {i : Instr} {x : Choice} {e : Effect Server Instr}
  {R : Multiset Instr} {p p' : Process}

theorem Leaves.beside (hL : Leaves h c.shared (i ::ₘ R) p) (hkeep : ServerKeeps h c p i x)
    (he : controlPlane.exec c.shared i x = some e)
    (hon : i = .read h → x ≠ .streamEnd ∧ x ≠ .ctxDone)
    (hended : p'.ended = p.ended) (hloop : p'.sendLoop = p.sendLoop)
    (herr : p'.recvErr = p.recvErr) (hreceived : p'.received = p.received)
    (hkept : ∀ job ∈ p.received, jobTag job ∈ p'.answered.map chunkTag ∨
      p.ended = false ∧ p.connDone = false ∧ Located p' job) :
    Leaves h e.shared (e.fresh + R) p' := by
  have hs := step_of_exec he
  have hconn : p'.connDone = p.connDone := by simp [Process.connDone, hloop]
  have hself := hL.teardown i (Multiset.mem_cons_self i R)
  refine ⟨?_, fun hc ↦ ?_, fun j hj hdown ↦ ?_, fun hend ↦ ?_, ?_, ?_, ?_⟩
  · rw [hended, hloop]
    exact hL.stopped
  · rw [hended]
    rcases cancelled_cases hs hc with hold | rfl
    · exact hL.cancelled hold
    · exact hself (beq_self_eq_true h)
  · rw [hended]
    rcases Multiset.mem_add.mp hj with hj | hj
    · rcases tearsDown_fresh he j hj hdown with ⟨rfl, hx⟩ | hi | ⟨cause, rfl⟩
      · exact absurd hx (not_or.mpr (hon rfl))
      · exact hself hi
      · obtain rfl : cause = .disconnected := hkeep.2 rfl
        exact hself (beq_self_eq_true h)
    · exact hL.teardown j (Multiset.mem_cons_of_mem hj) hdown
  · obtain ⟨hreader, hle⟩ := hL.reader (hended ▸ hend)
    refine ⟨fun j hj hjh ↦ ?_, hle.trans hs.nextSes_le⟩
    rcases Multiset.mem_add.mp hj with hj | hj
    · by_cases hreg : ∃ id models, i = .register id models
      · obtain ⟨id, models, rfl⟩ := hreg
        cases hs with
        | quit hq => cases hq
        | register =>
          obtain rfl : j = .ack (c.shared.nextSes + 1) := by simpa using hj
          have hh : c.shared.nextSes + 1 = h := beq_iff_eq.mp hjh
          omega
      · refine hreader i (Multiset.mem_cons_self i R) (hs.handlerOf_of_fresh ?_ hj hjh)
        exact fun id models hi ↦ hreg ⟨id, models, hi⟩
    · exact hreader j (Multiset.mem_cons_of_mem hj) hjh
  · rw [hended, hconn, herr]
    exact hL.lost
  · rw [hloop, hreceived]
    exact hL.early
  · rw [hreceived, hended, hconn]
    exact hkept

theorem Leaves.streamEnd (hL : Leaves h c.shared (.read h ::ₘ R) p)
    (hconn : (Instr.read h ::ₘ R).countP (·.connOf h) ≤ 1) (hle : h ≤ c.shared.nextSes)
    (he : controlPlane.exec c.shared (.read h) .streamEnd = some e)
    (hend : (p.up = [] ∧ p.sendLoop = .awaitServer) ∨ p.connDone) :
    Leaves h e.shared (e.fresh + R) { p with ended := true } := by
  have hloop : p.sendLoop = .awaitServer ∨ p.sendLoop = .returned :=
    hend.imp And.right of_decide_eq_true
  cases he
  refine ⟨fun _ ↦ hloop, fun _ ↦ rfl, fun _ _ _ ↦ rfl, fun _ ↦ ⟨fun j hj hjh ↦ ?_, hle⟩,
    fun _ ↦ .inl rfl, hL.early, fun job hjob ↦ .inl ((hL.kept job hjob).resolve_right ?_)⟩
  · rcases Multiset.mem_add.mp hj with hj | hj
    · obtain rfl : j = .unregister h .disconnected := by simpa using hj
      cases hjh
    · have hnot := not_of_countP_le_one hconn hj (Instr.connOf_of_handlerOf hjh)
      simp [Instr.connOf, Instr.handlerOf, Instr.readerOf] at hnot
  · rintro ⟨-, hopen, hl⟩
    rcases hend with ⟨hup, hawait⟩ | hclosed
    · rcases hl with ht | ⟨hselect, -⟩
      · simp [Process.upChunks, hup, doneTags] at ht
      · cases hselect.symm.trans hawait
    · cases hopen.symm.trans hclosed

theorem Leaves.hear (hL : Leaves h c.shared (i ::ₘ R) p)
    (hconn : (i ::ₘ R).countP (·.connOf h) ≤ 1) (hK : HandlesKnown c.shared i)
    (hkeep : ServerKeeps h c p i x) (he : controlPlane.exec c.shared i x = some e)
    (hear : p.hear h c.shared i x = some p') : Leaves h e.shared (e.fresh + R) p' := by
  cases hears_of_hear hear with
  | other _ _ hleave hctx =>
    exact hL.beside hkeep he (fun hi ↦ ⟨hleave hi, hctx hi⟩) rfl rfl rfl rfl hL.kept
  | write => exact hL.beside hkeep he (by simp) rfl rfl rfl rfl hL.kept
  | read hup hm =>
    refine hL.beside hkeep he (by simp) rfl rfl rfl rfl fun job hjob ↦ ?_
    refine (hL.kept job hjob).imp_right fun ⟨hend, hopen, hl⟩ ↦ ⟨hend, hopen, hl.read hup ?_⟩
    intro b hb hdone
    cases (hm b hb).symm.trans hdone
  | @readLast b up hup hdone =>
    refine hL.beside hkeep he (by simp) rfl rfl rfl rfl fun job hjob ↦ ?_
    rw [List.map_cons, List.mem_cons]
    by_cases htag : chunkTag b = jobTag job
    · exact .inl (.inl htag.symm)
    · refine (hL.kept job hjob).imp .inr fun ⟨hend, hopen, hl⟩ ↦ ⟨hend, hopen, hl.read hup ?_⟩
      rintro b' ⟨⟩ -
      exact htag
  | streamEnd hend => exact hL.streamEnd hconn (hK h rfl) he hend
  | ctxDone =>
    -- the stream's context is cancelled after the reader has left
    simp only [controlPlane, exec, execStream] at he
    split_ifs at he with hcancelled
    have hreader := (hL.reader (hL.cancelled hcancelled)).1 _ (Multiset.mem_cons_self _ R)
    simp [Instr.handlerOf, Instr.readerOf] at hreader

variable {t : Time} {dur : Duration} {n : ℕ}

theorem leaves_of_linked
    (hc : controlPlane.Linked (peer h) (ServerKeeps h) LeavesIdle (boot (new t dur n)) {} c p) :
    Leaves h c.shared c.soup p := by
  refine hc.invariant (Leaves h) ?_ ?_ ?_
  · constructor <;> simp [boot, new, Config.soup, tearsDown, Chan.make]
  · intro c p i x R e p' hc hsoup hL hkeep he hear
    refine hL.hear ?_ ?_ hkeep he hear
    · rw [← hsoup]
      refine (conn_le_one hc.reaches h).trans ?_
      split <;> simp
    · exact (known_of_reaches hc.reaches).2 i (hsoup ▸ Multiset.mem_cons_self i R)
  · intro c p a p' hc hL hidle hact
    exact hL.act (piped_of_linked hc).emits hidle hact

theorem runs_of_linked {H : Config Server Instr → Process → Action → Prop}
    (hc : controlPlane.Linked (peer h) (ServerKeeps h) H (boot (new t dur n)) {} c p) :
    controlPlane.Runs (fun c i x ↦ Honest c i x ∧ FreshID c i x) (boot (new t dur n)) c := by
  refine hc.runs fun c p p' i x hc hkeep hear _ ↦ ⟨?_, hkeep.1⟩
  cases i with
  | read k =>
    rcases hkeep.2 with rfl | hhonest
    · exact honest_of_linked hc hear
    · exact hhonest
  | _ => trivial

end

end AgentGpu.Worker
