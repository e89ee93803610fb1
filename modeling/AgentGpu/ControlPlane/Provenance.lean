import AgentGpu.ControlPlane.Calls

namespace AgentGpu.ControlPlane

open Foundation HttpApi

variable {s : Server} {i : Instr} {x : Choice} {e : Effect Server Instr} {ch : ℕ}

def Instr.target : Instr → Option (ℕ × Job)
  | .addPending _ h job | .send _ h job _ => some (h, job)
  | _ => none

structure Settles (s : Server) (S : Multiset Instr) (ch : ℕ) : Prop where
  hands : ∀ j ∈ S, j.hands (s.jobOf ch).request → j.target = some (s.home ch, s.jobOf ch)
  queue : ∀ item ∈ s.queue, item.job.request ≠ (s.jobOf ch).request
  given : ∀ h, ∀ job ∈ (s.worker h).given, job.request = (s.jobOf ch).request →
    (h, job) = (s.home ch, s.jobOf ch)
  known : (s.jobOf ch).request < s.requests

theorem Step.requests_le (hs : Step s i x e) : s.requests ≤ e.shared.requests := by
  induction hs with
  | request => exact Nat.le_succ _
  | _ => exact le_rfl

theorem Step.hands_cases (hs : Step s i x e) {r : ℕ} {j : Instr} (hj : j ∈ e.fresh)
    (hr : j.hands r) : (i.hands r ∧ (i.target.isSome → j.target = i.target)) ∨ r = s.requests ∨
      ∃ item ∈ s.queue, item.job.request = r := by
  by_cases hplace : i = .place
  · subst hplace
    cases hs with
    | quit hq => cases hq
    | @dequeue item hitem =>
      obtain rfl | rfl : j = .placeItem item ∨ j = .place := by simpa using hj
      · exact .inr (.inr ⟨item, nextItem_mem hitem, beq_iff_eq.mp hr⟩)
      · cases hr
    | placeExit => simp at hj
  rcases hs.requests_cases with hsame | ⟨_, _, _, _, o, job, rfl, rfl, -, hjob, rfl⟩
  · have hfresh := hs.hands_fresh hsame hplace r
    have hi : i.hands r := by
      by_contra hi
      rw [if_neg hi, Nat.le_zero, Multiset.countP_eq_zero] at hfresh
      exact hfresh j hj hr
    refine .inl ⟨hi, fun htarget ↦ ?_⟩
    cases i with
    | addPending o h job =>
      cases hs with
      | quit hq => cases hq
      | addPending =>
        obtain rfl : j = .send o h job s.nextChan := by simpa using hj
        rfl
    | send o h job k =>
      cases hs with
      | quit hq => cases hq
      | send =>
        obtain rfl : j = .await o h job k := by simpa using hj
        cases hr
      | sendGone =>
        obtain rfl : j = .finish o job none := by simpa using hj
        cases hr
    | _ => cases htarget
  · obtain rfl | rfl : j = .serve ∨ j = .pick o job := by simpa using hj
    · cases hr
    · exact .inr (.inl ((beq_iff_eq.mp hr).symm.trans (by rw [hjob])))

section

variable {R : Multiset Instr}

theorem Settles.step (hS : Settles s (i ::ₘ R) ch) (hs : Step s i x e) (hi : i.Wired s)
    (hch : ch < s.nextChan) : Settles e.shared (e.fresh + R) ch := by
  obtain ⟨-, hhome, hjob⟩ := hs.chan_stable hch
  have hself := hS.hands i (Multiset.mem_cons_self i R)
  refine ⟨?_, ?_, ?_, ?_⟩
  all_goals rw [hjob]
  · rw [hhome]
    intro j hj hr
    rcases Multiset.mem_add.mp hj with hj | hj
    · rcases hs.hands_cases hj hr with ⟨hi, htarget⟩ | hnew | ⟨item, hitem, hr⟩
      · rw [htarget (by rw [hself hi]; rfl), hself hi]
      · exact absurd hnew hS.known.ne
      · exact absurd hr (hS.queue item hitem)
    · exact hS.hands j (Multiset.mem_cons_of_mem hj) hr
  · intro item hitem hr
    rcases hs.queue_cases hitem with hold | ⟨priority, k, rfl⟩
    · exact hS.queue item hold hr
    · cases hself (beq_iff_eq.mpr hr)
  · rw [hhome]
    intro h job hgiven hr
    rcases hs.given_cases hi h with hsame | ⟨o, job', k, rfl, -, hnew⟩ | ⟨-, hnone⟩
    · exact hS.given h job (hsame ▸ hgiven) hr
    · rw [hnew, List.mem_append, List.mem_singleton] at hgiven
      rcases hgiven with hold | rfl
      · exact hS.given h job hold hr
      · exact Option.some.inj (hself (beq_iff_eq.mpr hr))
    · rw [hnone] at hgiven
      cases hgiven
  · exact hS.known.trans_le hs.requests_le

theorem settles_new (hs : Step s i x e) (hold : ¬ ch < s.nextChan) (hch : ch < e.shared.nextChan)
    (hhome : e.shared.home ch ≠ 0)
    (hands : ∀ h r, (i ::ₘ R).countP (·.hands r) + s.queued r +
      (s.worker h).given.countP (·.request == r) ≤ if r < s.requests then 1 else 0) :
    Settles e.shared (e.fresh + R) ch := by
  have hnew (h : ℕ) (job : Job) (hr : i.hands job.request) (hjob : e.shared.jobOf ch = job)
      (hhome : e.shared.home ch = h) (hqueue : e.shared.queue = s.queue)
      (hgiven : ∀ k, (e.shared.worker k).given = (s.worker k).given)
      (hrequests : e.shared.requests = s.requests)
      (hfresh : ∀ j ∈ e.fresh, j.hands job.request → j.target = some (h, job)) :
      Settles e.shared (e.fresh + R) ch := by
    have hone (k : ℕ) : R.countP (·.hands job.request) = 0 ∧ s.queued job.request = 0 ∧
        (s.worker k).given.countP (·.request == job.request) = 0 ∧ job.request < s.requests := by
      have hle := hands k job.request
      rw [Multiset.countP_cons, if_pos hr] at hle
      split at hle <;> omega
    refine ⟨?_, ?_, ?_, ?_⟩
    all_goals rw [hjob]
    · rw [hhome]
      intro j hj hr
      rcases Multiset.mem_add.mp hj with hj | hj
      · exact hfresh j hj hr
      · exact absurd hr (Multiset.countP_eq_zero.mp (hone 0).1 j hj)
    · rw [hqueue]
      intro item hitem hr
      exact List.countP_eq_zero.mp (hone 0).2.1 item hitem (beq_iff_eq.mpr hr)
    · intro k job' hjob' hr
      rw [hgiven] at hjob'
      exact absurd (beq_iff_eq.mpr hr) (List.countP_eq_zero.mp (hone k).2.2.1 job' hjob')
    · rw [hrequests]
      exact (hone 0).2.2.2
  induction hs with
  | addPending o h job =>
    obtain rfl : ch = s.nextChan := le_antisymm (Nat.le_of_lt_succ hch) (not_lt.mp hold)
    refine hnew h job (beq_self_eq_true _) (Function.update_self ..)
      (Function.update_self ..) rfl ?_ rfl ?_
    · exact Server.proj_of_update Worker.given rfl (by rfl)
    · exact Effect.forall_fresh_singleton fun _ ↦ rfl
  | addObserver h job =>
    obtain rfl : ch = s.nextChan := le_antisymm (Nat.le_of_lt_succ hch) (not_lt.mp hold)
    refine hnew h job (beq_self_eq_true _) (Function.update_self ..)
      (Function.update_self ..) rfl ?_ rfl ?_
    · exact Server.proj_of_update Worker.given rfl (by rfl)
    · simp [Instr.hands, Instr.target]
  | addWaiter job =>
    obtain rfl : ch = s.nextChan := le_antisymm (Nat.le_of_lt_succ hch) (not_lt.mp hold)
    exact absurd (Function.update_self ..) hhome
  | _ => exact absurd hch hold

end

section

variable {t : Time} {d : Duration} {n : ℕ} {c : Config Server Instr}

theorem settles_of_reaches (hc : controlPlane.Reaches (boot (new t d n)) c) :
    ∀ ch < c.shared.nextChan, c.shared.home ch ≠ 0 → Settles c.shared c.soup ch := by
  have hrun := hc.strengthen fun c hc ↦ And.intro (wired_of_reaches hc).2 (hands_le_one hc)
  refine hrun.soup_invariant
    (fun s S ↦ ∀ ch < s.nextChan, s.home ch ≠ 0 → Settles s S ch) ?_ ?_
  · simp [boot, new]
  · intro c i x R e hsoup hS hg he ch hch hhome
    obtain ⟨-, hwired, hands⟩ := hg
    have hs := step_of_exec he
    by_cases hlt : ch < c.shared.nextChan
    · obtain ⟨-, hhome', -⟩ := hs.chan_stable hlt
      refine (hS ch hlt (hhome' ▸ hhome)).step hs (hwired i ?_) hlt
      rw [hsoup]
      exact Multiset.mem_cons_self i R
    · exact settles_new hs hlt hch hhome (hsoup ▸ hands)

end

def Server.Returned (s : Server) (job : Job) (res : Outcome) : Prop :=
  ∃ ch, s.Feeds ch job ∧ s.home ch ≠ 0 ∧ res ∈ (s.results ch).sent

/-- A queued caller gets what `placeItem` makes of the result of its dispatch, unless the
placement loop was stopped. -/
def Server.Placed (s : Server) (job : Job) (res : Outcome) : Prop :=
  s.placeStop ∨ ∃ job' r, job'.id = job.id ∧ job'.request = job.request ∧ s.Returned job' r ∧
    res = placedResult job' (some r)

structure Traced (s : Server) : Prop where
  registry : ∀ id h, s.workers.lookup id = some h → h ≠ 0
  pending : ∀ h id ch, (s.worker h).pending.lookup id = some ch → s.home ch ≠ 0
  signed : ∀ ch, s.home ch ≠ 0 → ∀ res ∈ (s.results ch).sent, res.sources ≠ [] ∨ res.result.err ≠ none
  placed : ∀ ch, s.home ch = 0 → ∀ res ∈ (s.results ch).sent, s.Placed (s.jobOf ch) res
  out : ∀ r, ∀ c ∈ (s.out r).sent, ∃ ch < s.nextChan,
    s.home ch ≠ 0 ∧ (s.jobOf ch).request = r ∧ c ∈ (s.observed ch).sent

def Instr.Traced (s : Server) : Instr → Prop
  | .addPending _ h _ | .addObserver h _ => h ≠ 0
  | .send _ h _ ch | .await _ h _ ch | .relay h _ ch => h ≠ 0 ∧ s.home ch = h
  | .emit h _ ch c => (h ≠ 0 ∧ s.home ch = h) ∧ c ∈ (s.observed ch).sent
  | .finish _ job (some res) => s.Returned job res
  | .finish .queued _ none | .closeQueue | .awaitPlace | .failWaiters => s.placeStop
  | .resolveWaiter res => s.placeStop ∨ ∃ job r, res.result.jobID = job.id ∧
      job.request ∈ res.sources ∧ s.Returned job r ∧ res = placedResult job (some r)
  | .deliverWaiter ch res => s.Placed (s.jobOf ch) res
  | .forward _ _ c => c.source ≠ none
  | .forwardLast _ _ c res => c.source ≠ none ∧ res.sources ≠ []
  | .closeLast _ _ res | .resolve _ res => res.sources ≠ []
  | .deliver _ ch res => s.home ch ≠ 0 ∧ res.sources ≠ []
  | .failDeliver ch res => s.home ch ≠ 0 ∧ res.result.err ≠ none
  | _ => True

theorem Step.placeStop_kept (hs : Step s i x e) (hp : s.placeStop) : e.shared.placeStop := by
  induction hs with
  | closePlace => rfl
  | _ => exact hp

theorem Step.returned_kept (hs : Step s i x e) {job : Job} {res : Outcome} (hr : s.Returned job res) :
    e.shared.Returned job res := by
  obtain ⟨ch, hfeeds, hhome, hres⟩ := hr
  obtain ⟨-, hhome', -⟩ := hs.chan_stable hfeeds.1
  exact ⟨ch, hs.feeds_stable hfeeds, hhome' ▸ hhome, (hs.results_grows ch).sent.subset hres⟩

theorem Step.placed_kept (hs : Step s i x e) {job : Job} {res : Outcome} (hp : s.Placed job res) :
    e.shared.Placed job res :=
  hp.imp hs.placeStop_kept fun ⟨job', r, hid, hrequest, hr, hres⟩ ↦
    ⟨job', r, hid, hrequest, hs.returned_kept hr, hres⟩

theorem Step.instr_traced_stable (hs : Step s i x e) {j : Instr} (hj : j.Wired s) (hT : j.Traced s) :
    j.Traced e.shared := by
  cases j with
  | send | await | relay =>
    obtain ⟨-, hhome, -⟩ := hs.chan_stable hj.1
    exact ⟨hT.1, hhome.trans hT.2⟩
  | deliver | failDeliver =>
    obtain ⟨-, hhome, -⟩ := hs.chan_stable hj.1
    exact ⟨hhome ▸ hT.1, hT.2⟩
  | emit =>
    obtain ⟨-, hhome, -⟩ := hs.chan_stable hj.1.1
    exact ⟨⟨hT.1.1, hhome.trans hT.1.2⟩, (hs.observed_grows _).sent.subset hT.2⟩
  | finish o job res =>
    cases res with
    | some res => exact hs.returned_kept hT
    | none =>
      cases o with
      | queued => exact hs.placeStop_kept hT
      | _ => trivial
  | closeQueue | awaitPlace | failWaiters => exact hs.placeStop_kept hT
  | resolveWaiter res =>
    refine hT.imp hs.placeStop_kept ?_
    rintro ⟨job, r, hid, hsource, hr, hres⟩
    exact ⟨job, r, hid, hsource, hs.returned_kept hr, hres⟩
  | deliverWaiter ch res =>
    obtain ⟨-, -, hjob⟩ := hs.chan_stable hj.1
    have hplaced := hs.placed_kept hT
    rwa [← hjob] at hplaced
  | _ => exact hT

theorem Traced.of_pickable (hT : Traced s) {h : ℕ} (hp : s.pickable h) : h ≠ 0 := by
  simp only [Server.pickable, Bool.and_eq_true] at hp
  exact hT.registry _ h (Server.registered_iff.mp hp.1)

section

variable {c : Config Server Instr} (he : controlPlane.exec c.shared i x = some e)
  (hhonest : Honest c i x) (hwired : Wired c.shared) (hi : i.Wired c.shared) (hI : Owned c.shared)
  (howned : i.Owned c.shared) (hS : Sourced c.shared) (hT : Traced c.shared)
  (htraced : i.Traced c.shared)

include hS hT in
theorem Traced.request_mem {job : Job} {res : Outcome} (hr : c.shared.Returned job res)
    (herr : res.result.err = none) : job.request ∈ res.sources := by
  obtain ⟨ch, hfeeds, hhome, hres⟩ := hr
  have hne := (hT.signed ch hhome res hres).resolve_right (not_not.mpr herr)
  obtain ⟨r, hr⟩ := List.exists_mem_of_ne_nil _ hne
  have hrequest := hS.results ch res hres r hr
  rw [hfeeds.2] at hrequest
  exact hrequest ▸ hr

include hi hS hT htraced in
theorem traced_placedResult {job : Job} {res : Option Outcome} (heq : i = .finish .queued job res) :
    (Instr.resolveWaiter (placedResult job res)).Traced c.shared := by
  subst heq
  cases res with
  | none => exact .inl htraced
  | some res =>
    refine .inr ⟨job, res, ?_, ?_, htraced, rfl⟩
    · exact placedResult_jobID hi
    · simp only [placedResult]
      split
      · next herr => exact hT.request_mem hS htraced herr
      · exact List.mem_singleton_self _

include he in
theorem placeStop_of_placeItem {item : Item} (heq : i = .placeItem item) (hx : x = .ctxDone) :
    c.shared.placeStop := by
  subst heq hx
  simp only [controlPlane, exec, execPlace] at he
  split_ifs at he with hstop
  exact hstop

include he hhonest hwired hi hI howned hS hT htraced in
theorem Step.instr_traced_fresh : ∀ j ∈ e.fresh, j.Traced e.shared := by
  have hs := step_of_exec he
  induction hs with
  | enter hk =>
    exact forall_fresh_enter hk trivial (fun _ _ ↦ trivial) (fun _ _ ↦ trivial) (fun _ _ ↦ trivial) trivial
  | result h res =>
    obtain ⟨job, -, -, hsources⟩ := hhonest
    exact Effect.forall_fresh_singleton (by simp [Instr.Traced, hsources])
  | chunkObserved | lastChunk | lastChunkObserved =>
    obtain ⟨job, -, -, hsource⟩ := hhonest
    exact Effect.forall_fresh_singleton (by simp [Instr.Traced, Worker.assemble, hsource])
  | forwardLast => exact Effect.forall_fresh_singleton htraced.2
  | @fail k cause =>
    refine Effect.forall_fresh_next (forall_fail ?_ (fun _ _ _ ↦ trivial) trivial)
    exact fun id ch hl ↦ ⟨hT.pending k id ch hl, nofun⟩
  | resolve hp => exact Effect.forall_fresh_singleton ⟨hT.pending _ _ _ hp, htraced⟩
  | pick _ hh | pickStream hh | placeAt hh =>
    exact Effect.forall_fresh_singleton (hT.of_pickable hh)
  | addPending o h job =>
    exact Effect.forall_fresh_singleton ⟨htraced, Function.update_self ..⟩
  | addObserver h job =>
    rw [Effect.forall_fresh]
    refine ⟨by simp, ?_⟩
    simpa [Instr.Traced] using ⟨⟨htraced, Function.update_self ..⟩, htraced⟩
  | @await o h ch job res c' hc =>
    refine Effect.forall_fresh_singleton ⟨ch, hi, ?_, ?_⟩
    · exact fun h0 ↦ htraced.1 (htraced.2.symm.trans h0)
    · exact ((step_of_exec he).results_grows ch).sent.subset (Chan.mem_of_recv hc)
  | @sendGone o _ _ _ hd | @awaitGone o _ _ _ hd =>
    refine Effect.forall_fresh_singleton ?_
    cases o with
    | queued => exact hd
    | _ => trivial
  | finishQueued job res =>
    exact Effect.forall_fresh_singleton (traced_placedResult hi hS hT htraced rfl)
  | placeStop item => exact Effect.forall_fresh_singleton (.inl (placeStop_of_placeItem he rfl rfl))
  | @resolveWaiter res ch hw =>
    refine Effect.forall_fresh_singleton (htraced.imp_right ?_)
    rintro ⟨job, r, hid, hsource, hr, hres⟩
    refine ⟨job, r, ?_, ?_, hr, hres⟩
    · exact hid.symm.trans (hwired.waiters _ ch hw).2.symm
    · have howner := howned _ (List.mem_map_of_mem hsource)
      exact howner.symm.trans (hI.waiters _ ch hw)
  | failWaiters => exact Effect.forall_fresh_next (forall_failWaiters fun _ _ _ ↦ .inl htraced)
  | closePlace => exact Effect.forall_fresh_singleton rfl
  | @relay job h ch chunk chan hc =>
    refine Effect.forall_fresh_singleton ⟨htraced, ?_⟩
    exact ((step_of_exec he).observed_grows ch).sent.subset (Chan.mem_of_recv hc)
  | emit => exact Effect.forall_fresh_singleton htraced.1
  | markDraining hsp => exact forall_fresh_markDraining hsp trivial
  | evictScan => exact Effect.forall_fresh_next (forall_evictScan (fun _ _ ↦ trivial) trivial)
  | request | dequeue | ack => simp [Instr.Traced]
  | _ =>
    first
    | exact Effect.forall_fresh_singleton trivial
    | exact Effect.forall_fresh_singleton htraced
    | exact Effect.forall_fresh_nil

end

theorem Step.workers_cases (hs : Step s i x e) {id : String} {h : ℕ}
    (hl : e.shared.workers.lookup id = some h) :
    s.workers.lookup id = some h ∨ h = s.nextSes + 1 := by
  induction hs with
  | register id' models => exact (Table.lookup_insert_cases hl).symm.imp_right And.right
  | unregister => exact .inl (Table.lookup_of_erase hl)
  | _ => exact .inl hl

theorem Step.traced (hs : Step s i x e) (hwired : Wired s) (hi : i.Wired s) (hT : Traced s)
    (htraced : i.Traced s) (hhome : i.AtHome s) : Traced e.shared where
  registry id h hl := by
    rcases hs.workers_cases hl with hold | rfl
    · exact hT.registry id h hold
    · exact Nat.succ_ne_zero _
  pending h id ch hl := by
    rcases hs.pending_cases hl with hold | ⟨o, job, rfl, rfl, rfl⟩
    · obtain ⟨-, hhome', -⟩ := hs.chan_stable (hwired.pending h id ch hold).1
      exact hhome' ▸ hT.pending h id ch hold
    · cases hs with
      | quit hq => cases hq
      | addPending => exact (Function.update_self ..).trans_ne htraced
  signed ch hch res hres := by
    rcases hs.result_cases hres with hold | ⟨h, rfl⟩ | rfl | rfl
    · obtain ⟨-, hhome', -⟩ := hs.chan_stable (hwired.results ch res hold).1
      exact hT.signed ch (hhome' ▸ hch) res hold
    · exact .inl htraced.2
    · exact .inr htraced.2
    · obtain ⟨-, hhome', -⟩ := hs.chan_stable hhome.1
      exact absurd (hhome'.trans hhome.2) hch
  placed ch hch res hres := by
    have hkept (hlt : ch < s.nextChan) (hp : s.Placed (s.jobOf ch) res) :
        e.shared.Placed (e.shared.jobOf ch) res := by
      rw [(hs.chan_stable hlt).2.2]
      exact hs.placed_kept hp
    rcases hs.result_cases hres with hold | ⟨h, rfl⟩ | rfl | rfl
    · have hlt := (hwired.results ch res hold).1
      obtain ⟨-, hhome', -⟩ := hs.chan_stable hlt
      exact hkept hlt (hT.placed ch (hhome'.symm.trans hch) res hold)
    · exact absurd ((hs.chan_stable hi.1).2.1.symm.trans hch) htraced.1
    · exact absurd ((hs.chan_stable hi.1).2.1.symm.trans hch) htraced.1
    · exact hkept hi.1 htraced
  out r c hc := by
    rcases hs.out_cases hc with hold | ⟨h, job, ch, rfl, rfl⟩
    · obtain ⟨ch, hlt, hhome, hjob, hmem⟩ := hT.out r c hold
      obtain ⟨hlt', hhome', hjob'⟩ := hs.chan_stable hlt
      exact ⟨ch, hlt', hhome' ▸ hhome, hjob' ▸ hjob, (hs.observed_grows ch).sent.subset hmem⟩
    · obtain ⟨hlt, hhome', hjob⟩ := hs.chan_stable hi.1.1
      refine ⟨ch, hlt, ?_, ?_, (hs.observed_grows ch).sent.subset htraced.2⟩
      · rw [hhome', htraced.1.2]
        exact htraced.1.1
      · rw [hjob, hi.1.2]

section

variable {t : Time} {d : Duration} {n : ℕ} {c : Config Server Instr}

theorem traced_of_runs
    (hc : controlPlane.Runs (fun c i x ↦ Honest c i x ∧ FreshID c i x) (boot (new t d n)) c) :
    Traced c.shared ∧ ∀ j ∈ c.soup, j.Traced c.shared := by
  have hrun := hc.strengthen fun c hc ↦ And.intro (owned_of_runs hc)
    (And.intro (wired_of_reaches hc.reaches) (delivers_atHome hc.reaches))
  refine hrun.soup_invariant (fun s S ↦ Traced s ∧ ∀ j ∈ S, j.Traced s) ?_ ?_
  · refine ⟨?_, by simp [boot, Config.soup, Instr.Traced]⟩
    constructor <;> simp [boot, new, Chan.make]
  · intro c i x R e hsoup hinv hg he
    obtain ⟨⟨hhonest, -⟩, ⟨hI, hS, hinstr⟩, ⟨hwired, hJ⟩, hhome⟩ := hg
    obtain ⟨hT, htraced⟩ := hinv
    rw [← hsoup] at htraced
    have hself : i ∈ c.soup := hsoup ▸ Multiset.mem_cons_self i R
    refine ⟨(step_of_exec he).traced hwired (hJ i hself) hT (htraced i hself) (hhome i hself),
      fun j hj ↦ ?_⟩
    rcases Multiset.mem_add.mp hj with hj | hj
    · exact Step.instr_traced_fresh he hhonest hwired (hJ i hself) hI (hinstr i hself).1 hS hT
        (htraced i hself) j hj
    · have hj : j ∈ c.soup := hsoup ▸ Multiset.mem_cons_of_mem hj
      exact (step_of_exec he).instr_traced_stable (hJ j hj) (htraced j hj)

end

end AgentGpu.ControlPlane
