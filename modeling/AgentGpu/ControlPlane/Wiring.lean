import AgentGpu.ControlPlane.Entries

namespace AgentGpu.ControlPlane

open Foundation

variable {s : Server} {i : Instr} {x : Choice} {e : Effect Server Instr} {ch : ℕ}

def Server.Serves (s : Server) (ch : ℕ) (jobID : String) : Prop :=
  ch < s.nextChan ∧ (s.jobOf ch).id = jobID

def Server.Feeds (s : Server) (ch : ℕ) (job : Job) : Prop := ch < s.nextChan ∧ s.jobOf ch = job

theorem Server.Feeds.id_eq {job : Job} {jobID : String} (hf : s.Feeds ch job)
    (hs : s.Serves ch jobID) : jobID = job.id := hf.2 ▸ hs.2.symm

/-- A table finds a channel under the id of the job it was made for, and what is on a channel
carries that id. No assumption about the ids of requests is needed for this: when two
requests use one id, either may own the channel. -/
structure Wired (s : Server) : Prop where
  pending : ∀ h jobID ch, (s.worker h).pending.lookup jobID = some ch → s.Serves ch jobID
  observers : ∀ h jobID ch, (s.worker h).observers.lookup jobID = some ch → s.Serves ch jobID
  waiters : ∀ jobID ch, s.waiters.lookup jobID = some ch → s.Serves ch jobID
  results : ∀ ch, ∀ res ∈ (s.results ch).sent, s.Serves ch res.result.jobID
  observed : ∀ ch, ∀ c ∈ (s.observed ch).sent, s.Serves ch c.chunk.jobID

def Instr.Wired (s : Server) : Instr → Prop
  | .forward _ ch c | .forwardLast _ ch c _ | .failForward ch c => s.Serves ch c.chunk.jobID
  | .deliver _ ch res | .failDeliver ch res | .deliverWaiter ch res => s.Serves ch res.result.jobID
  | .send _ _ job ch | .await _ _ job ch | .enqueue job _ ch | .awaitWaiter job ch
  | .relay _ job ch => s.Feeds ch job
  | .emit _ job ch c => s.Feeds ch job ∧ c.chunk.jobID = job.id
  | .finish _ job (some res) => res.result.jobID = job.id
  | .command _ m | .sendCommand _ m => m.jobs = []
  | _ => True

theorem Step.serves_stable (hs : Step s i x e) {jobID : String} (hch : s.Serves ch jobID) :
    e.shared.Serves ch jobID := by
  obtain ⟨hlt, -, hjob⟩ := hs.chan_stable hch.1
  exact ⟨hlt, hjob ▸ hch.2⟩

theorem Step.feeds_stable (hs : Step s i x e) {job : Job} (hch : s.Feeds ch job) :
    e.shared.Feeds ch job := by
  obtain ⟨hlt, -, hjob⟩ := hs.chan_stable hch.1
  exact ⟨hlt, hjob.trans hch.2⟩

theorem Step.wired_stable (hs : Step s i x e) {j : Instr} (hj : j.Wired s) : j.Wired e.shared := by
  cases j with
  | forward | forwardLast | failForward | deliver | failDeliver | deliverWaiter =>
    exact hs.serves_stable hj
  | send | await | enqueue | awaitWaiter | relay => exact hs.feeds_stable hj
  | emit => exact ⟨hs.feeds_stable hj.1, hj.2⟩
  | finish _ _ res => cases res <;> exact hj
  | _ => exact hj

theorem Server.feeds_newChan (h : ℕ) (job : Job) : (s.newChan h job).Feeds s.nextChan job :=
  ⟨Nat.lt_succ_self _, Function.update_self ..⟩

theorem Server.serves_newChan (h : ℕ) (job : Job) : (s.newChan h job).Serves s.nextChan job.id :=
  ⟨Nat.lt_succ_self _, congrArg Job.id (Server.feeds_newChan h job).2⟩

theorem Step.wired (hs : Step s i x e) (hI : Wired s) (hi : i.Wired s) : Wired e.shared where
  pending h jobID ch hl := by
    rcases hs.pending_cases hl with hold | ⟨o, job, rfl, rfl, rfl⟩
    · exact hs.serves_stable (hI.pending h jobID ch hold)
    · cases hs with
      | quit hq => cases hq
      | addPending => exact Server.serves_newChan h job
  observers h jobID ch hl := by
    rcases hs.observer_cases hl with hold | ⟨job, rfl, rfl, rfl⟩
    · exact hs.serves_stable (hI.observers h jobID ch hold)
    · cases hs with
      | quit hq => cases hq
      | addObserver => exact Server.serves_newChan h job
  waiters jobID ch hl := by
    rcases hs.waiter_cases hl with hold | ⟨job, priority, rfl, rfl, rfl⟩
    · exact hs.serves_stable (hI.waiters jobID ch hold)
    · cases hs with
      | quit hq => cases hq
      | addWaiter => exact Server.serves_newChan 0 job
  results ch res hres := by
    rcases hs.result_cases hres with hold | ⟨h, rfl⟩ | rfl | rfl
    · exact hs.serves_stable (hI.results ch res hold)
    all_goals exact hs.serves_stable hi
  observed ch c hc := by
    rcases hs.observed_cases hc with hold | ⟨h, rfl⟩ | ⟨h, res, rfl⟩ | rfl
    · exact hs.serves_stable (hI.observed ch c hold)
    all_goals exact hs.serves_stable hi

theorem Step.wired_fresh_of_not_makes (hs : Step s i x e) (hmakes : i.makes = false)
    (hI : Wired s) (hi : i.Wired s) : ∀ j ∈ e.fresh, j.Wired s := by
  induction hs with
  | addPending | addWaiter | addObserver => cases hmakes
  | @enter _ k hk =>
    rw [Effect.forall_fresh]
    refine ⟨List.forall_mem_singleton.mpr trivial,
      List.forall_mem_singleton.mpr (List.forall_mem_singleton.mpr ?_)⟩
    cases k with
    | command id m => cases m <;> first | rfl | cases hk
    | _ => trivial
  | chunkObserved _ hobs | lastChunkObserved _ hobs =>
    exact Effect.forall_fresh_singleton (hI.observers _ _ _ hobs)
  | resolve hp => exact Effect.forall_fresh_singleton (hI.pending _ _ _ hp)
  | resolveWaiter hw => exact Effect.forall_fresh_singleton (hI.waiters _ _ hw)
  | @fail k cause =>
    exact Effect.forall_fresh_next (forall_fail (hI.pending k) (hI.observers k) trivial)
  | failWaiters => exact Effect.forall_fresh_next (forall_failWaiters hI.waiters)
  | await hc =>
    exact Effect.forall_fresh_singleton (hi.id_eq (hI.results _ _ (Chan.mem_of_recv hc)))
  | relay hc =>
    exact Effect.forall_fresh_singleton ⟨hi, hi.id_eq (hI.observed _ _ (Chan.mem_of_recv hc))⟩
  | emit => exact Effect.forall_fresh_singleton hi.1
  | markDraining hsp => exact forall_fresh_markDraining hsp trivial
  | evictScan => exact Effect.forall_fresh_next (forall_evictScan (fun _ _ ↦ trivial) trivial)
  | request | dequeue | ack => simp [Instr.Wired]
  | _ =>
    first
    | exact Effect.forall_fresh_singleton trivial
    | exact Effect.forall_fresh_singleton hi
    | exact Effect.forall_fresh_nil

theorem Step.wired_fresh (hs : Step s i x e) (hI : Wired s) (hi : i.Wired s) :
    ∀ j ∈ e.fresh, j.Wired e.shared := by
  cases hmakes : i.makes with
  | false => exact fun j hj ↦ hs.wired_stable (hs.wired_fresh_of_not_makes hmakes hI hi j hj)
  | true =>
    induction hs with
    | addPending _ h job => exact Effect.forall_fresh_singleton (Server.feeds_newChan h job)
    | addWaiter job => exact Effect.forall_fresh_singleton (Server.feeds_newChan 0 job)
    | addObserver h job =>
      intro j hj
      obtain rfl | rfl | rfl : j = .relay h job s.nextChan ∨ j = .addPending .stream h job ∨
          j = .consume job.request := by simpa using hj
      · exact Server.feeds_newChan h job
      · trivial
      · trivial
    | quit hq => cases (Instr.mayQuit_of_makes hmakes).symm.trans hq
    | _ => cases hmakes

theorem wired_of_reaches {t : Time} {d : Duration} {n : ℕ} {c : Config Server Instr}
    (hc : controlPlane.Reaches (boot (new t d n)) c) :
    Wired c.shared ∧ ∀ j ∈ c.soup, j.Wired c.shared := by
  refine hc.local_invariant Wired (fun s j ↦ j.Wired s) ?_ ?_ ?_ ?_
  · constructor <;> simp [boot, new, Chan.make]
  · simp [boot, Config.soup, Instr.Wired]
  · intro c i x e hI hi _ he
    exact ⟨(step_of_exec he).wired hI hi, (step_of_exec he).wired_fresh hI hi⟩
  · intro c i x e _ _ _ he j _ hj
    exact (step_of_exec he).wired_stable hj

end AgentGpu.ControlPlane
