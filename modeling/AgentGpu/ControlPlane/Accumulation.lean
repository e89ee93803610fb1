import AgentGpu.ControlPlane.Replies

namespace AgentGpu.ControlPlane

open Foundation

namespace Server

variable (s : Server) (h : ℕ)

def addPending (job : Job) : Server :=
  ((s.disturb ((s.worker h).pending.lookup job.id) [job.request]).newChan h job).setWorker h
    ((s.worker h).addPending job.id s.nextChan)

def addObserver (job : Job) : Server :=
  ((s.disturb ((s.worker h).observers.lookup job.id) [job.request]).newChan h job).setWorker h
    ((s.worker h).addObserver job.id s.nextChan)

/-- There is no state after a send that blocks. -/
def resolve (res : Outcome) : Option Server :=
  match (s.worker h).pending.lookup res.result.jobID with
  | none => some s
  | some ch =>
    let s := (s.disturb (some ch) res.sources).setWorker h
      ((s.worker h).deletePending res.result.jobID)
    ((s.results ch).send res).map (s.setResult ch)

/-- `accumulate` with nothing in between its critical sections. -/
def accumulate (c : Produced) : Option Server :=
  let w := s.worker h
  let obs := w.observers.lookup c.chunk.jobID
  if c.chunk.done then
    let s := (retire s h c.chunk.jobID c.source.toList).setWorker h (w.finish c)
    let s := obs.elim s fun ch ↦ (s.forwardChunk ch c).closeObserver ch
    s.resolve h (w.assemble c)
  else
    let s := s.setWorker h (w.append c)
    some (obs.elim s fun ch ↦ s.forwardChunk ch c)

end Server

section Machine

variable {s s' s'' : Server} {c₀ : Config Server Instr} {threads : List (List Instr)} {t h : ℕ}

theorem reaches_next {i j : Instr} {x : Choice} (ht : t < threads.length)
    (hc : controlPlane.Reaches c₀ ⟨s, threads.set t [i]⟩)
    (he : controlPlane.exec s i x = some ⟨s', [j], []⟩) :
    controlPlane.Reaches c₀ ⟨s', threads.set t [j]⟩ := by
  have hget : (threads.set t [i])[t]? = some [i] := by simp [ht]
  have hstep := Machine.Runs.step hc hget trivial he
  rwa [Config.after, List.append_nil, List.append_nil, List.set_set] at hstep

theorem resolve_reaches {res : Outcome} (ht : t < threads.length)
    (hc : controlPlane.Reaches c₀ ⟨s, threads.set t [.resolve h res]⟩)
    (hres : s.resolve h res = some s') : controlPlane.Reaches c₀ ⟨s', threads.set t [.read h]⟩ := by
  unfold Server.resolve at hres
  split at hres
  · next hp =>
    cases hres
    exact reaches_next (x := .go) ht hc (by simp [controlPlane, exec, execStream, hp])
  · next ch hp =>
    obtain ⟨chan, hsend, rfl⟩ := Option.map_eq_some_iff.mp hres
    have hdeliver := reaches_next (x := .go) (j := .deliver h ch res) ht hc
      (by simp only [controlPlane, exec, execStream, hp]; rfl)
    exact reaches_next (x := .go) ht hdeliver
      (by simp only [controlPlane, exec, execStream, hsend, Option.map_some])

theorem accumulate_reaches {c : Produced} (ht : threads[t]? = some [.read h])
    (hc : s.accumulate h c = some s') : controlPlane.Reaches ⟨s, threads⟩ ⟨s', threads⟩ := by
  obtain ⟨hlt, hget⟩ := List.getElem?_eq_some_iff.mp ht
  have hset : threads.set t [.read h] = threads := by rw [← hget, List.set_getElem_self]
  have hstart : controlPlane.Reaches ⟨s, threads⟩ ⟨s, threads.set t [.read h]⟩ := hset.symm ▸ .start
  suffices hend : controlPlane.Reaches ⟨s, threads⟩ ⟨s', threads.set t [.read h]⟩ by
    rwa [hset] at hend
  unfold Server.accumulate at hc
  cases hobs : (s.worker h).observers.lookup c.chunk.jobID with
  | none =>
    by_cases hd : c.chunk.done
    · simp only [hd, hobs, if_true, Option.elim_none] at hc
      have hread := reaches_next (x := .message (.chunk c)) hlt hstart
        (by simp only [controlPlane, exec, execStream, handleMessage, hd, if_true, hobs, Option.elim_none]; rfl)
      exact resolve_reaches hlt hread hc
    · simp only [hd, hobs, Option.elim_none] at hc
      cases hc
      exact reaches_next (x := .message (.chunk c)) hlt hstart
        (by simp [controlPlane, exec, execStream, handleMessage, hd, hobs])
  | some ch =>
    by_cases hd : c.chunk.done
    · simp only [hd, hobs, if_true, Option.elim_some] at hc
      have hread := reaches_next (x := .message (.chunk c)) hlt hstart
        (by simp only [controlPlane, exec, execStream, handleMessage, hd, if_true, hobs, Option.elim_some]; rfl)
      have hforward := reaches_next (x := .go) hlt hread rfl
      have hclose := reaches_next (x := .go) hlt hforward rfl
      exact resolve_reaches hlt hclose hc
    · simp only [hd, hobs, Option.elim_some] at hc
      cases hc
      have hread := reaches_next (x := .message (.chunk c)) (j := .forward h ch c) hlt hstart
        (by simp only [controlPlane, exec, execStream, handleMessage, hd, hobs, Option.elim_some]; rfl)
      exact reaches_next (x := .go) hlt hread rfl

end Machine

/-- What happens on one worker: a job is registered, with an observer if it streams, or a chunk
is read. -/
inductive Event
  | start (job : Job) (observed : Bool)
  | chunk (c : Produced)
  deriving DecidableEq

def Event.jobID : Event → String
  | .start job _ => job.id
  | .chunk c => c.chunk.jobID

namespace Server

variable (s : Server) (h : ℕ)

def observe (job : Job) (observed : Bool) : Server := if observed then s.addObserver h job else s

def play : Event → Option Server
  | .start job observed => some ((s.observe h job observed).addPending h job)
  | .chunk c => s.accumulate h c

def playAll (events : List Event) : Option Server := events.foldlM (play · h) s

end Server

/-- The entries of worker `h` lead to channels that were made for their ids and that nothing
was sent on yet, and channels to come are as good as new. -/
structure Tidy (s : Server) (h : ℕ) : Prop where
  pending : ∀ id ch, (s.worker h).pending.lookup id = some ch →
    s.Serves ch id ∧ (s.results ch).sent = []
  observers : ∀ id ch, (s.worker h).observers.lookup id = some ch →
    s.Serves ch id ∧ (s.observed ch).closed = false
  results : ∀ ch, s.nextChan ≤ ch → (s.results ch).sent = []
  observed : ∀ ch, s.nextChan ≤ ch → (s.observed ch).closed = false
  cap : ∀ ch, (s.results ch).cap = 1

/-- Nothing that belongs to jobs with this id has changed. -/
structure Keeps (s s' : Server) (h : ℕ) (id : String) : Prop where
  pending : (s'.worker h).pending.lookup id = (s.worker h).pending.lookup id
  streams : (s'.worker h).streams.lookup id = (s.worker h).streams.lookup id
  observers : (s'.worker h).observers.lookup id = (s.worker h).observers.lookup id
  results : ∀ ch, s.Serves ch id → s'.Serves ch id ∧ s'.results ch = s.results ch

section Events

variable {s s' s'' : Server} {h ch : ℕ} {id : String} {job : Job} {c : Produced} {ev : Event}

theorem Keeps.refl (s : Server) (h : ℕ) (id : String) : Keeps s s h id :=
  ⟨rfl, rfl, rfl, fun _ hch ↦ ⟨hch, rfl⟩⟩

theorem Keeps.trans (h₁ : Keeps s s' h id) (h₂ : Keeps s' s'' h id) : Keeps s s'' h id where
  pending := h₂.pending.trans h₁.pending
  streams := h₂.streams.trans h₁.streams
  observers := h₂.observers.trans h₁.observers
  results ch hch := by
    obtain ⟨hch', hsame⟩ := h₁.results ch hch
    obtain ⟨hch'', hsame'⟩ := h₂.results ch hch'
    exact ⟨hch'', hsame'.trans hsame⟩

theorem Server.Serves.ne {k : ℕ} {id' : String} (hch : s.Serves ch id) (hk : s.Serves k id')
    (hid : id ≠ id') : ch ≠ k := by
  rintro rfl
  exact hid (hch.2.symm.trans hk.2)

section Start

theorem Server.Serves.newChan (hch : s.Serves ch id) (h : ℕ) (job : Job) :
    (s.newChan h job).Serves ch id :=
  ⟨Nat.lt_succ_of_lt hch.1, (congrArg Job.id (Function.update_of_ne hch.1.ne ..)).trans hch.2⟩

theorem Tidy.addPending (hT : Tidy s h) (job : Job) : Tidy (s.addPending h job) h where
  pending id ch hl := by
    rw [Server.addPending, Server.setWorker_self] at hl
    rcases Table.lookup_insert_cases hl with ⟨rfl, rfl⟩ | hold
    · exact ⟨Server.serves_newChan (s := s) h job, hT.results _ le_rfl⟩
    · obtain ⟨hch, hempty⟩ := hT.pending id ch hold
      exact ⟨hch.newChan h job, hempty⟩
  observers id ch hl := by
    rw [Server.addPending, Server.setWorker_self] at hl
    obtain ⟨hch, hopen⟩ := hT.observers id ch hl
    exact ⟨hch.newChan h job, hopen⟩
  results ch hch := hT.results ch (Nat.le_of_succ_le hch)
  observed ch hch := hT.observed ch (Nat.le_of_succ_le hch)
  cap := hT.cap

theorem Tidy.addObserver (hT : Tidy s h) (job : Job) : Tidy (s.addObserver h job) h where
  pending id ch hl := by
    rw [Server.addObserver, Server.setWorker_self] at hl
    obtain ⟨hch, hempty⟩ := hT.pending id ch hl
    exact ⟨hch.newChan h job, hempty⟩
  observers id ch hl := by
    rw [Server.addObserver, Server.setWorker_self] at hl
    rcases Table.lookup_insert_cases hl with ⟨rfl, rfl⟩ | hold
    · exact ⟨Server.serves_newChan (s := s) h job, hT.observed _ le_rfl⟩
    · obtain ⟨hch, hopen⟩ := hT.observers id ch hold
      exact ⟨hch.newChan h job, hopen⟩
  results ch hch := hT.results ch (Nat.le_of_succ_le hch)
  observed ch hch := hT.observed ch (Nat.le_of_succ_le hch)
  cap := hT.cap

theorem Server.addPending_panicked (s : Server) : (s.addPending h job).panicked = s.panicked := rfl

theorem Server.observe_panicked (observed : Bool) :
    (s.observe h job observed).panicked = s.panicked := by
  cases observed <;> rfl

theorem Tidy.observe (hT : Tidy s h) (job : Job) (observed : Bool) :
    Tidy (s.observe h job observed) h := by
  unfold Server.observe
  split
  · exact hT.addObserver job
  · exact hT

theorem keeps_addPending (hid : id ≠ job.id) : Keeps s (s.addPending h job) h id where
  pending := by
    rw [Server.addPending, Server.setWorker_self]
    exact AList.lookup_insert_ne hid
  streams := by rw [Server.addPending, Server.setWorker_self]; rfl
  observers := by rw [Server.addPending, Server.setWorker_self]; rfl
  results _ hch := ⟨hch.newChan h job, rfl⟩

theorem keeps_addObserver (hid : id ≠ job.id) : Keeps s (s.addObserver h job) h id where
  pending := by rw [Server.addObserver, Server.setWorker_self]; rfl
  streams := by rw [Server.addObserver, Server.setWorker_self]; rfl
  observers := by
    rw [Server.addObserver, Server.setWorker_self]
    exact AList.lookup_insert_ne hid
  results _ hch := ⟨hch.newChan h job, rfl⟩

theorem keeps_observe (hid : id ≠ job.id) (observed : Bool) :
    Keeps s (s.observe h job observed) h id := by
  unfold Server.observe
  split
  · exact keeps_addObserver hid
  · exact .refl s h id

theorem streams_observe (id : String) (job : Job) (observed : Bool) :
    ((s.observe h job observed).worker h).streams.lookup id = (s.worker h).streams.lookup id := by
  unfold Server.observe
  split
  · rw [Server.addObserver, Server.setWorker_self]
    rfl
  · rfl

end Start

section Chunk

theorem Tidy.append (hT : Tidy s h) (c : Produced) :
    Tidy (s.setWorker h ((s.worker h).append c)) h where
  pending id ch hl := by
    rw [Server.setWorker_self] at hl
    exact hT.pending id ch hl
  observers id ch hl := by
    rw [Server.setWorker_self] at hl
    exact hT.observers id ch hl
  results := hT.results
  observed := hT.observed
  cap := hT.cap

theorem Tidy.finish (hT : Tidy s h) (c : Produced) :
    Tidy ((retire s h c.chunk.jobID c.source.toList).setWorker h ((s.worker h).finish c)) h where
  pending id ch hl := by
    rw [Server.setWorker_self] at hl
    exact hT.pending id ch hl
  observers id ch hl := by
    rw [Server.setWorker_self] at hl
    exact hT.observers id ch (Table.lookup_of_erase hl)
  results := hT.results
  observed := hT.observed
  cap := hT.cap

theorem Tidy.forwardChunk (hT : Tidy s h) (ch : ℕ) (c : Produced) : Tidy (s.forwardChunk ch c) h := by
  have hclosed (k : ℕ) : ((s.forwardChunk ch c).observed k).closed = (s.observed k).closed :=
    Chan.proj_of_update Chan.closed rfl Chan.trySend_closed k
  refine ⟨hT.pending, fun id k hl ↦ ?_, hT.results, fun k hk ↦ ?_, hT.cap⟩
  · rw [hclosed]
    exact hT.observers id k hl
  · rw [hclosed]
    exact hT.observed k hk

theorem Tidy.closeObserver (hT : Tidy s h) (hch : s.Serves ch id)
    (hnone : (s.worker h).observers.lookup id = none) : Tidy (s.closeObserver ch) h := by
  have hother {k : ℕ} (hk : k ≠ ch) : (s.closeObserver ch).observed k = s.observed k :=
    Function.update_of_ne hk ..
  refine ⟨hT.pending, fun id' k hl ↦ ?_, hT.results, fun k hk ↦ ?_, hT.cap⟩
  · obtain ⟨hk, hopen⟩ := hT.observers id' k hl
    have hid : id' ≠ id := by
      rintro rfl
      exact Option.some_ne_none k (hl.symm.trans hnone)
    exact ⟨hk, (congrArg Chan.closed (hother (hk.ne hch hid))).trans hopen⟩
  · exact (congrArg Chan.closed (hother (hch.1.trans_le hk).ne')).trans (hT.observed k hk)

theorem Tidy.resolve (hT : Tidy s h) (res : Outcome) :
    ∃ s', s.resolve h res = some s' ∧ Tidy s' h ∧ s'.panicked = s.panicked ∧
      (s'.worker h).pending.lookup res.result.jobID = none ∧
      (s'.worker h).streams = (s.worker h).streams ∧
      (s'.worker h).observers = (s.worker h).observers ∧
      (∀ ch, (s.worker h).pending.lookup res.result.jobID = some ch → (s'.results ch).sent = [res]) ∧
      (∀ ch id, s.Serves ch id → s'.Serves ch id) ∧
      ∀ id, id ≠ res.result.jobID → Keeps s s' h id := by
  unfold Server.resolve
  cases hp : (s.worker h).pending.lookup res.result.jobID with
  | none => exact ⟨s, rfl, hT, rfl, hp, rfl, rfl, nofun, fun _ _ ↦ id, fun id _ ↦ .refl s h id⟩
  | some ch =>
    obtain ⟨hch, hempty⟩ := hT.pending _ ch hp
    have hroom : (s.results ch).sent.length < (s.results ch).taken + (s.results ch).cap := by
      rw [hempty, hT.cap]
      exact Nat.succ_pos _
    obtain ⟨chan, hsend⟩ := Option.isSome_iff_exists.mp (Chan.send_isSome (a := res) hroom)
    obtain ⟨-, hsent, -, -, hcap⟩ := Chan.send_some hsend
    dsimp only
    rw [show (((s.disturb (some ch) res.sources).setWorker h
      ((s.worker h).deletePending res.result.jobID)).results ch).send res = some chan from hsend]
    set s' := ((s.disturb (some ch) res.sources).setWorker h
      ((s.worker h).deletePending res.result.jobID)).setResult ch chan
    have hworker : s'.worker h = (s.worker h).deletePending res.result.jobID :=
      Server.setWorker_self (s := s.disturb (some ch) res.sources)
    have hother {k : ℕ} (hk : k ≠ ch) : s'.results k = s.results k := Function.update_of_ne hk ..
    have herase : (s'.worker h).pending.lookup res.result.jobID = none := by
      rw [hworker]
      exact AList.lookup_erase _ _
    refine ⟨s', rfl, ⟨fun id k hl ↦ ?_, fun id k hl ↦ ?_, fun k hk ↦ ?_, hT.observed, fun k ↦ ?_⟩, rfl, herase,
      by rw [hworker]; rfl, by rw [hworker]; rfl, ?_, fun _ _ ↦ id,
      fun id hid ↦ ⟨?_, ?_, ?_, fun k hk ↦ ?_⟩⟩
    · have hid : id ≠ res.result.jobID := by
        rintro rfl
        exact Option.some_ne_none k (hl.symm.trans herase)
      rw [hworker] at hl
      obtain ⟨hk, hempty⟩ := hT.pending id k (Table.lookup_of_erase hl)
      exact ⟨hk, (congrArg Chan.sent (hother (hk.ne hch hid))).trans hempty⟩
    · rw [hworker] at hl
      exact hT.observers id k hl
    · exact (congrArg Chan.sent (hother (hch.1.trans_le hk).ne')).trans (hT.results k hk)
    · exact (Chan.proj_of_update (f := s.results) Chan.cap rfl hcap k).trans (hT.cap k)
    · rintro k ⟨⟩
      rw [Server.setResult_self, hsent, hempty, List.nil_append]
    · rw [hworker]
      exact AList.lookup_erase_ne hid
    · rw [hworker]
      rfl
    · rw [hworker]
      rfl
    · exact ⟨hk, hother (hk.ne hch hid)⟩

theorem Server.forwardChunk_panicked (hopen : (s.observed ch).closed = false) :
    (s.forwardChunk ch c).panicked = s.panicked := by
  change (s.panicked || (s.observed ch).closed) = s.panicked
  rw [hopen, Bool.or_false]

theorem Tidy.accumulate_delta (hT : Tidy s h) (hd : c.chunk.done = false) :
    ∃ s', s.accumulate h c = some s' ∧ Tidy s' h ∧ s'.panicked = s.panicked ∧
      s'.worker h = (s.worker h).append c ∧ s'.results = s.results ∧
      ∀ ch id, s.Serves ch id → s'.Serves ch id := by
  have hT' := hT.append c
  have hself : (s.setWorker h ((s.worker h).append c)).worker h = (s.worker h).append c :=
    Server.setWorker_self
  unfold Server.accumulate
  simp only [hd]
  cases hobs : (s.worker h).observers.lookup c.chunk.jobID with
  | none => exact ⟨_, rfl, hT', rfl, hself, rfl, fun _ _ ↦ id⟩
  | some ch =>
    exact ⟨_, rfl, hT'.forwardChunk ch c, Server.forwardChunk_panicked (hT.observers _ ch hobs).2,
      hself, rfl, fun _ _ ↦ id⟩

theorem Tidy.accumulate_end (hT : Tidy s h) (hd : c.chunk.done = true) :
    ∃ s', s.accumulate h c = s'.resolve h ((s.worker h).assemble c) ∧ Tidy s' h ∧
      s'.panicked = s.panicked ∧ s'.worker h = (s.worker h).finish c ∧ s'.results = s.results ∧
      ∀ ch id, s.Serves ch id → s'.Serves ch id := by
  have hT' := hT.finish c
  have hself : ((retire s h c.chunk.jobID c.source.toList).setWorker h ((s.worker h).finish c)).worker h =
      (s.worker h).finish c := Server.setWorker_self
  unfold Server.accumulate
  simp only [hd, if_true]
  cases hobs : (s.worker h).observers.lookup c.chunk.jobID with
  | none => exact ⟨_, rfl, hT', rfl, hself, rfl, fun _ _ ↦ id⟩
  | some ch =>
    obtain ⟨hch, hopen⟩ := hT.observers _ ch hobs
    have hnone : ((s.worker h).finish c).observers.lookup c.chunk.jobID = none :=
      AList.lookup_erase _ _
    refine ⟨_, rfl, (hT'.forwardChunk ch c).closeObserver hch ?_, ?_, hself, rfl, fun _ _ ↦ id⟩
    · exact (congrArg (fun w : Worker ↦ w.observers.lookup c.chunk.jobID) hself).trans hnone
    · set s₁ := (retire s h c.chunk.jobID c.source.toList).setWorker h ((s.worker h).finish c)
      have hforward : (s₁.forwardChunk ch c).panicked = s₁.panicked := Server.forwardChunk_panicked hopen
      have hclosed : ((s₁.forwardChunk ch c).observed ch).closed = false :=
        (Chan.proj_of_update (f := s₁.observed) Chan.closed rfl Chan.trySend_closed ch).trans hopen
      change ((s₁.forwardChunk ch c).panicked || ((s₁.forwardChunk ch c).observed ch).closed) = s.panicked
      rw [hclosed, Bool.or_false, hforward]
      rfl

theorem Worker.append_streams (w : Worker) (c : Produced) :
    ((w.append c).streams.lookup c.chunk.jobID).getD {} =
      let b := (w.streams.lookup c.chunk.jobID).getD {}
      ⟨b.output ++ c.chunk.delta, b.sources ++ c.source.toList⟩ := by
  simp [Worker.append]

end Chunk

theorem Tidy.play (hT : Tidy s h) (ev : Event) :
    ∃ s', s.play h ev = some s' ∧ Tidy s' h ∧ s'.panicked = s.panicked ∧
      ∀ id, id ≠ ev.jobID → Keeps s s' h id := by
  cases ev with
  | start job observed =>
    exact ⟨_, rfl, (hT.observe job observed).addPending job,
      (Server.addPending_panicked _).trans (Server.observe_panicked observed),
      fun id hid ↦ (keeps_observe hid observed).trans (keeps_addPending hid)⟩
  | chunk c =>
    cases hd : c.chunk.done with
    | false =>
      obtain ⟨s', hacc, hT', hsame, hworker, hresults, hserves⟩ := hT.accumulate_delta hd
      refine ⟨s', hacc, hT', hsame, fun id hid ↦ ?_⟩
      refine ⟨by rw [hworker]; rfl, ?_, by rw [hworker]; rfl,
        fun ch hch ↦ ⟨hserves ch id hch, by rw [hresults]⟩⟩
      rw [hworker]
      exact AList.lookup_insert_ne hid
    | true =>
      obtain ⟨s₁, hacc, hT₁, hsame, hworker, hresults, hserves⟩ := hT.accumulate_end hd
      obtain ⟨s', hres, hT', hsame', -, -, -, -, -, hkeeps⟩ := hT₁.resolve ((s.worker h).assemble c)
      refine ⟨s', hacc.trans hres, hT', hsame'.trans hsame, fun id hid ↦ .trans ?_ (hkeeps id hid)⟩
      refine ⟨by rw [hworker]; rfl, ?_, ?_, fun ch hch ↦ ⟨hserves ch id hch, by rw [hresults]⟩⟩
      · rw [hworker]
        exact AList.lookup_erase_ne hid
      · rw [hworker]
        exact AList.lookup_erase_ne hid

theorem Server.playAll_cons (ev : Event) (events : List Event) :
    s.playAll h (ev :: events) = (s.play h ev).bind (·.playAll h events) := rfl

theorem Server.playAll_append (before after : List Event) :
    s.playAll h (before ++ after) = (s.playAll h before).bind (·.playAll h after) :=
  List.foldlM_append ..

theorem Tidy.playAll (hT : Tidy s h) (events : List Event) :
    ∃ s', s.playAll h events = some s' ∧ Tidy s' h ∧ s'.panicked = s.panicked ∧
      ∀ id, (∀ ev ∈ events, ev.jobID ≠ id) → Keeps s s' h id := by
  induction events generalizing s with
  | nil => exact ⟨s, rfl, hT, rfl, fun id _ ↦ .refl s h id⟩
  | cons ev events ih =>
    obtain ⟨s₁, hplay, hT₁, hsame₁, hkeeps₁⟩ := hT.play ev
    obtain ⟨s', hrun, hT', hsame', hkeeps'⟩ := ih hT₁
    refine ⟨s', by rw [Server.playAll_cons, hplay, Option.bind_some, hrun], hT', hsame'.trans hsame₁, ?_⟩
    intro id hid
    obtain ⟨hev, hrest⟩ := List.forall_mem_cons.mp hid
    exact (hkeeps₁ id hev.symm).trans (hkeeps' id hrest)

def collected (output : String) (body : List Produced) (last : Produced) : JobResult where
  jobID := last.chunk.jobID
  output :=
    if last.chunk.err = none then output ++ String.join ((body ++ [last]).map (·.chunk.delta)) else ""
  err := last.chunk.err
  tokens := last.chunk.tokens
  toolCalls := last.chunk.toolCalls
  finishReason := last.chunk.finishReason
  promptTokens := last.chunk.promptTokens
  completionTokens := last.chunk.completionTokens

theorem assemble_result (w : Worker) (c : Produced) :
    (w.assemble c).result =
      collected ((w.streams.lookup c.chunk.jobID).getD {}).output [] c := by
  simp [Worker.assemble, collected]

theorem collected_cons (output : String) (c : Produced) (body : List Produced) (last : Produced) :
    collected output (c :: body) last = collected (output ++ c.chunk.delta) body last := by
  simp [collected, String.append_assoc]

def Cleared (s : Server) (h : ℕ) (id : String) : Prop :=
  (s.worker h).pending.lookup id = none ∧ (s.worker h).streams.lookup id = none ∧
    (s.worker h).observers.lookup id = none

theorem Keeps.cleared (hk : Keeps s s' h id) (hs : Cleared s h id) : Cleared s' h id :=
  ⟨hk.pending.trans hs.1, hk.streams.trans hs.2.1, hk.observers.trans hs.2.2⟩

theorem Tidy.accumulate_last (hT : Tidy s h) (hd : c.chunk.done = true)
    (hp : (s.worker h).pending.lookup c.chunk.jobID = some ch) (hacc : s.accumulate h c = some s') :
    s'.Serves ch c.chunk.jobID ∧ (s'.results ch).sent = [(s.worker h).assemble c] ∧
      Cleared s' h c.chunk.jobID := by
  obtain ⟨s₁, hacc', hT₁, -, hworker, -, hserves⟩ := hT.accumulate_end hd
  obtain ⟨s'', hres, -, -, hpending, hstreams, hobservers, hsent, hserves', -⟩ :=
    hT₁.resolve ((s.worker h).assemble c)
  obtain rfl : s'' = s' := Option.some.inj (hres.symm.trans (hacc'.symm.trans hacc))
  have hp₁ : (s₁.worker h).pending.lookup c.chunk.jobID = some ch := by
    rw [hworker]
    exact hp
  refine ⟨hserves' _ _ (hserves _ _ (hT.pending _ _ hp).1), hsent ch hp₁, hpending, ?_, ?_⟩
  · rw [hstreams, hworker]
    exact AList.lookup_erase _ _
  · rw [hobservers, hworker]
    exact AList.lookup_erase _ _

theorem Tidy.collect {body : List Produced} {last : Produced} {events : List Event} (hT : Tidy s h)
    (hp : (s.worker h).pending.lookup id = some ch)
    (hevents : events.filter (·.jobID = id) = (body ++ [last]).map .chunk)
    (hbody : ∀ c ∈ body, c.chunk.done = false) (hlast : last.chunk.done = true)
    (hrun : s.playAll h events = some s') :
    (s'.results ch).sent.map Outcome.result =
        [collected (((s.worker h).streams.lookup id).getD {}).output body last] ∧
      Cleared s' h id := by
  induction events generalizing s body with
  | nil => simp at hevents
  | cons ev events ih =>
    obtain ⟨s₁, hplay, hT₁, -, hkeeps⟩ := hT.play ev
    rw [Server.playAll_cons, hplay, Option.bind_some] at hrun
    by_cases hid : ev.jobID = id
    · rw [List.filter_cons_of_pos (by simpa using hid)] at hevents
      cases body with
      | nil =>
        obtain ⟨rfl, hrest⟩ := List.cons.inj hevents
        subst hid
        obtain ⟨hch, hsent, hcleared⟩ := hT.accumulate_last hlast hp hplay
        obtain ⟨s'', hrun', -, -, hkeeps'⟩ := hT₁.playAll events
        obtain rfl : s'' = s' := Option.some.inj (hrun'.symm.trans hrun)
        have hnone : ∀ ev ∈ events, ev.jobID ≠ last.chunk.jobID := fun ev hev hid ↦
          List.filter_eq_nil_iff.mp hrest ev hev (decide_eq_true hid)
        have hkeep := hkeeps' _ hnone
        refine ⟨?_, hkeep.cleared hcleared⟩
        rw [(hkeep.results ch hch).2, hsent, List.map_singleton, assemble_result]
        simp only [Event.jobID]
      | cons c body =>
        obtain ⟨rfl, hrest⟩ := List.cons.inj hevents
        subst hid
        obtain ⟨hd, hbody⟩ := List.forall_mem_cons.mp hbody
        obtain ⟨s'', hacc, -, -, hworker, -, -⟩ := hT.accumulate_delta hd
        obtain rfl : s'' = s₁ := Option.some.inj (hacc.symm.trans hplay)
        have hp₁ : (s''.worker h).pending.lookup c.chunk.jobID = some ch := by
          rw [hworker]
          exact hp
        obtain ⟨hsent, hcleared⟩ := ih hT₁ hp₁ hrest hbody hrun
        refine ⟨?_, hcleared⟩
        rw [hsent, collected_cons, hworker]
        simp only [Event.jobID, Worker.append_streams]
    · rw [List.filter_cons_of_neg (by simpa using hid)] at hevents
      have hkeep := hkeeps id (Ne.symm hid)
      have := ih hT₁ (hkeep.pending.trans hp) hevents hbody hrun
      rwa [hkeep.streams] at this

end Events

section

variable {t : Time} {d : Duration} {n : ℕ} {c : Config Server Instr}

theorem tidy_of_reaches (hc : controlPlane.Reaches (boot (new t d n)) c) (h : ℕ) :
    Tidy c.shared h := by
  obtain ⟨hwired, -⟩ := wired_of_reaches hc
  obtain ⟨hhomed, -⟩ := homed_of_reaches hc
  refine ⟨fun id ch hl ↦ ⟨hwired.pending h id ch hl, ?_⟩, fun id ch hl ↦ ⟨hwired.observers h id ch hl, ?_⟩,
    fun ch hch ↦ ?_, fun ch hch ↦ ?_, result_cap_of_reaches hc⟩
  · have hpos := (atHome_of_reaches hc).promising_pos hl
    have hone := replies_le_one hc ch
    exact List.eq_nil_of_length_eq_zero (by omega)
  · have hpos : 0 < c.shared.observing ch := by
      refine Table.tally_pos_iff.mpr ⟨id, ch, ?_, beq_self_eq_true ch⟩
      rwa [(hhomed.observers h id ch hl).2]
    have hone := closers_le_one hc ch
    exact Bool.toNat_eq_zero.mp (by omega)
  · exact List.eq_nil_iff_forall_not_mem.mpr fun res hres ↦
      absurd (hwired.results ch res hres).1 (Nat.not_lt.mpr hch)
  · exact eq_false_of_ne_true fun hclosed ↦ absurd (hhomed.closed ch hclosed) (Nat.not_lt.mpr hch)

/-- On a worker of the running server, jobs start and chunks arrive in any order. Nothing
blocks, and a job whose chunks all arrive after its start gets one result, made of its own
deltas in their order, and leaves nothing behind. -/
theorem chunks_accumulate (hc : controlPlane.Reaches (boot (new t d n)) c) (h : ℕ)
    (events : List Event) :
    ∃ s', c.shared.playAll h events = some s' ∧ s'.panicked = c.shared.panicked ∧
      ∀ job observed body last,
        events.filter (·.jobID = job.id) = .start job observed :: (body ++ [last]).map .chunk →
        (∀ c ∈ body, c.chunk.done = false) → last.chunk.done = true →
        (c.shared.worker h).streams.lookup job.id = none →
        ∃ before after s, events = before ++ .start job observed :: after ∧
          c.shared.playAll h before = some s ∧
          (s'.results (s.observe h job observed).nextChan).sent.map Outcome.result =
            [collected "" body last] ∧
          Cleared s' h job.id := by
  have hT := tidy_of_reaches hc h
  obtain ⟨s', hrun, -, hcalm, -⟩ := hT.playAll events
  refine ⟨s', hrun, hcalm, ?_⟩
  intro job observed body last hevents hbody hlast hbuffer
  obtain ⟨before, after, hsplit, hbefore, -, hafter⟩ := List.filter_eq_cons_iff.mp hevents
  obtain ⟨s, hrun₁, hT₁, -, hkeeps⟩ := hT.playAll before
  have hkeep := hkeeps job.id fun ev hev ↦ by simpa using hbefore ev hev
  refine ⟨before, after, s, hsplit, hrun₁, ?_⟩
  rw [hsplit, Server.playAll_append, hrun₁, Option.bind_some, Server.playAll_cons, Server.play,
    Option.bind_some] at hrun
  have hT₂ := (hT₁.observe job observed).addPending job
  set s₁ := s.observe h job observed
  have hworker : (s₁.addPending h job).worker h = (s₁.worker h).addPending job.id s₁.nextChan :=
    Server.setWorker_self
  have hp : ((s₁.addPending h job).worker h).pending.lookup job.id = some s₁.nextChan := by
    rw [hworker]
    exact AList.lookup_insert _
  have hstreams : ((s₁.addPending h job).worker h).streams.lookup job.id = none := by
    rw [hworker]
    exact (streams_observe job.id job observed).trans (hkeep.streams.trans hbuffer)
  have := hT₂.collect hp hafter hbody hlast hrun
  rwa [hstreams] at this

end

def threeJobs : List Event :=
  [.start ⟨"a", "m", 0⟩ false, .chunk ⟨{ jobID := "a", delta := "x" }, some 0⟩,
    .start ⟨"b", "m", 1⟩ true, .chunk ⟨{ jobID := "b", delta := "1" }, some 1⟩,
    .chunk ⟨{ jobID := "c", delta := "?" }, none⟩, .chunk ⟨{ jobID := "a", delta := "y" }, some 0⟩,
    .chunk ⟨{ jobID := "b", done := true, err := some ⟨"e", "m"⟩ }, some 1⟩,
    .chunk ⟨{ jobID := "c", done := true }, none⟩,
    .chunk ⟨{ jobID := "a", delta := "z", done := true, tokens := 3 }, some 0⟩]

theorem chunks_accumulate_threeJobs :
    ∃ s', (new 0 0 0).playAll 1 threeJobs = some s' ∧
      (s'.results 0).sent.map Outcome.result = [{ jobID := "a", output := "xyz", tokens := 3 }] ∧
      Cleared s' 1 "a" := by
  obtain ⟨s', hrun, -, hjobs⟩ := chunks_accumulate (c := boot (new 0 0 0)) .start 1 threeJobs
  obtain ⟨before, after, s, hsplit, hbefore, hsent, hcleared⟩ := hjobs ⟨"a", "m", 0⟩ false
    [⟨{ jobID := "a", delta := "x" }, some 0⟩, ⟨{ jobID := "a", delta := "y" }, some 0⟩]
    ⟨{ jobID := "a", delta := "z", done := true, tokens := 3 }, some 0⟩
    (by decide) (by decide) rfl rfl
  have hnil : before = [] := by
    cases before with
    | nil => rfl
    | cons ev before =>
      -- the job starts only once
      have hmem : .start ⟨"a", "m", 0⟩ false ∈ threeJobs.tail := by
        rw [hsplit]
        exact List.mem_append_right before List.mem_cons_self
      exact absurd hmem (by decide)
  subst hnil
  cases hbefore
  exact ⟨s', hrun, hsent, hcleared⟩

end AgentGpu.ControlPlane
