import AgentGpu.ControlPlane.Delivery
import AgentGpu.ControlPlane.Provenance

namespace AgentGpu.ControlPlane

open Foundation

variable {s : Server} {i : Instr} {x : Choice} {e : Effect Server Instr} {R : Multiset Instr}
  {h ch r : ℕ}

namespace Instr

def tends (r : ℕ) : Instr → Bool
  | .relay _ job _ | .emit _ job _ _ | .settle job => job.request == r
  | _ => false

def queues (job : Job) : Instr → Bool
  | .placeItem item => item.job == job
  | .addPending .queued _ j | .send .queued _ j _ | .await .queued _ j _ | .finish .queued j _ =>
    j == job
  | _ => false

theorem busy_of_queues {job : Job} (hi : i.queues job) : i.busy := by
  cases i with
  | addPending o | send o | await o | finish o => cases o <;> first | rfl | cases hi
  | _ => first | rfl | cases hi

end Instr

section Streams

def Watched (s : Server) (S : Multiset Instr) : Prop :=
  ∀ h jobID ch, (s.worker h).observers.lookup jobID = some ch →
    ∃ j ∈ S, j.relays = some (h, jobID, ch)

theorem Step.relays_kept (hs : Step s i x e) {jobID : String} (hi : i.relays = some (h, jobID, ch)) :
    (∃ j ∈ e.fresh, j.relays = some (h, jobID, ch)) ∨ (s.observed ch).closed ∨
      (e.shared.worker h).observers.lookup jobID = none := by
  induction hs with
  | @relayGone job k k' | @emitGone job k k' =>
    obtain ⟨rfl, rfl, -⟩ : k = h ∧ job.id = jobID ∧ k' = ch := by simpa [Instr.relays] using hi
    refine .inr (.inr ?_)
    simp [Server.removeObserver, Worker.removeObserver]
  | @relayEnd job k k' hd =>
    obtain ⟨-, -, rfl⟩ : k = h ∧ job.id = jobID ∧ k' = ch := by simpa [Instr.relays] using hi
    exact .inr (.inl (Bool.and_eq_true_iff.mp hd).1)
  | relay | emit => exact .inl ⟨_, Effect.mem_fresh.mpr (.inl List.mem_cons_self), hi⟩
  | @quit i x hq =>
    cases i with
    | relay | emit => cases hq
    | _ => cases hi
  | _ => cases hi

theorem Step.watched (hs : Step s i x e) (hI : Homed s)
    (honce : ∀ ch, (i ::ₘ R).countP (·.closes ch) + s.observing ch + (s.observed ch).closed.toNat ≤ 1)
    (hW : Watched s (i ::ₘ R)) : Watched e.shared (e.fresh + R) := by
  intro h jobID ch hl
  rcases hs.observer_cases hl with hold | ⟨job, rfl, rfl, rfl⟩
  · obtain ⟨j, hj, hrelays⟩ := hW h jobID ch hold
    rcases Multiset.mem_cons.mp hj with rfl | hj
    · rcases hs.relays_kept hrelays with ⟨k, hk, hrelays⟩ | hclosed | hnone
      · exact ⟨k, Multiset.mem_add.mpr (.inl hk), hrelays⟩
      · -- a channel with an observer entry is open
        have hpos := hI.observing_pos hold
        have hle := honce ch
        rw [hclosed, Bool.toNat_true] at hle
        omega
      · cases hnone.symm.trans hl
    · exact ⟨j, Multiset.mem_add.mpr (.inr hj), hrelays⟩
  · cases hs with
    | quit hq => cases hq
    | addObserver => exact ⟨.relay h job s.nextChan, by simp, rfl⟩

/-- Every stream has a reader of its `out` channel, as long as its context is live. -/
def Consumed (s : Server) (S : Multiset Instr) : Prop :=
  ∀ r, ∀ j ∈ S, j.tends r → s.gone r ∨ .consume r ∈ S

theorem Step.tends_fresh (hs : Step s i x e) : ∀ j ∈ e.fresh, j.tends r →
    i.tends r ∨ .consume r ∈ e.fresh := by
  intro j hj htends
  have hleft := hs.leaves j hj
  cases j with
  | relay h job ch =>
    rcases hleft with ⟨rfl, -⟩ | ⟨c, rfl, -⟩
    · obtain rfl := eq_of_beq htends
      cases hs with
      | quit hq => cases hq
      | addObserver => exact .inr (by simp)
    · exact .inl htends
  | emit h job ch c =>
    obtain ⟨rfl, -⟩ := hleft
    exact .inl htends
  | settle job =>
    obtain ⟨h, ch, rfl, -⟩ := hleft
    exact .inl htends
  | _ => cases htends

theorem Step.consume_kept (hs : Step s (.consume r) x e) :
    e.shared.gone r ∨ .consume r ∈ e.fresh := by
  cases hs with
  | quit hq => cases hq
  | consumeEnd | consumeError => exact .inl (Function.update_self ..)
  | consume => exact .inr (by simp)

theorem Step.consumed (hs : Step s i x e) (hC : Consumed s (i ::ₘ R)) :
    Consumed e.shared (e.fresh + R) := by
  have hold (r : ℕ) (hr : s.gone r ∨ .consume r ∈ i ::ₘ R) :
      e.shared.gone r ∨ .consume r ∈ e.fresh + R := by
    rcases hr with hgone | hmem
    · exact .inl (hs.gone_kept hgone)
    · rcases Multiset.mem_cons.mp hmem with rfl | hmem
      · exact hs.consume_kept.imp_right fun hfresh ↦ Multiset.mem_add.mpr (.inl hfresh)
      · exact .inr (Multiset.mem_add.mpr (.inr hmem))
  intro r j hj htends
  rcases Multiset.mem_add.mp hj with hj | hj
  · rcases hs.tends_fresh j hj htends with hi | hfresh
    · exact hold r (hC r i (Multiset.mem_cons_self i R) hi)
    · exact .inr (Multiset.mem_add.mpr (.inl hfresh))
  · exact hold r (hC r j (Multiset.mem_cons_of_mem hj) htends)

end Streams

section Queue

def Listening (s : Server) (S : Multiset Instr) (job : Job) : Prop :=
  s.gone job.request ∨ ∃ ch, .awaitWaiter job ch ∈ S ∧ s.waiters.lookup job.id = some ch

/-- As long as the placement loop has no result for a job, there is someone to send it to. -/
structure Reserved (s : Server) (S : Multiset Instr) : Prop where
  enqueue : ∀ job priority ch, .enqueue job priority ch ∈ S → s.waiters.lookup job.id = some ch
  queue : ∀ item ∈ s.queue, Listening s S item.job
  loop : ∀ job, ∀ j ∈ S, j.queues job → Listening s S job

def Instr.unwaits (jobID : String) : Instr → Prop
  | .addWaiter job _ | .removeWaiter job => job.id = jobID
  | .resolveWaiter res => res.result.jobID = jobID
  | .failWaiters => True
  | _ => False

theorem Step.waiter_stays (hs : Step s i x e) {jobID : String}
    (hl : s.waiters.lookup jobID = some ch) (hi : ¬ i.unwaits jobID) :
    e.shared.waiters.lookup jobID = some ch := by
  induction hs with
  | addWaiter job priority => exact (AList.lookup_insert_ne (Ne.symm hi)).trans hl
  | removeWaiter | resolveWaiter => exact (AList.lookup_erase_ne (Ne.symm hi)).trans hl
  | failWaiters => exact absurd trivial hi
  | _ => exact hl

theorem Listening.step {job : Job} (hL : Listening s (i ::ₘ R) job)
    (he : controlPlane.exec s i x = some e) (hsilent : Silent s (i ::ₘ R))
    (hi : ∀ ch, .awaitWaiter job ch ∈ R → ¬ i.unwaits job.id) :
    Listening e.shared (e.fresh + R) job := by
  have hs := step_of_exec he
  rcases hL with hgone | ⟨ch, hmem, hl⟩
  · exact .inl (hs.gone_kept hgone)
  rcases Multiset.mem_cons.mp hmem with rfl | hmem
  · refine .inl (hs.gone_kept ?_)
    cases x <;> simp only [controlPlane, exec, execSubmit, reduceCtorEq] at he
    · -- nothing is on the channel of a waiter in the map
      obtain ⟨⟨res, chan⟩, hc, -⟩ := Option.map_eq_some_iff.mp he
      have hin := Chan.mem_of_recv hc
      rw [(hsilent _ ch hl).1] at hin
      cases hin
    · split_ifs at he with hgone
      exact hgone
  · exact .inr ⟨ch, Multiset.mem_add.mpr (.inr hmem), hs.waiter_stays hl (hi ch hmem)⟩

theorem Step.queues_fresh (hs : Step s i x e) (hpick : ∀ job, i ≠ .pick .queued job) {job : Job} :
    ∀ j ∈ e.fresh, j.queues job → i.queues job ∨ ∃ item ∈ s.queue, item.job = job := by
  intro j hj hjob
  have hleft := hs.leaves j hj
  cases j with
  | placeItem item =>
    rcases hleft with ⟨-, hitem⟩ | rfl
    · exact .inr ⟨item, nextItem_mem hitem, eq_of_beq hjob⟩
    · exact .inl hjob
  | addPending o h job' =>
    rcases hleft with ⟨rfl, -⟩ | ⟨item, rfl, rfl, rfl, -⟩ | ⟨rfl, rfl⟩
    · cases o with
      | queued => exact absurd rfl (hpick job')
      | _ => cases hjob
    · exact .inl hjob
    · cases hjob
  | send o | await o =>
    obtain ⟨rfl, -⟩ := hleft
    exact .inl (by cases o <;> exact hjob)
  | finish o job' res =>
    rcases hleft with ⟨h, ch, rfl, -⟩ | ⟨h, ch, rfl⟩
    · exact .inl (by cases o <;> exact hjob)
    · exact .inl (by cases o <;> exact hjob)
  | _ => cases hjob

section

variable (he : controlPlane.exec s i x = some e) (hstop : s.placeStop = false)
  (hsilent : Silent s (i ::ₘ R)) (hI : Owned s) (hown : ∀ j ∈ i ::ₘ R, j.Owned s)
  (hwaits : ∀ r, (i ::ₘ R).countP (·.waits r) ≤ 1) (hbusy : (i ::ₘ R).countP (·.busy) ≤ 1)
  (hpick : ∀ job, i ≠ .pick .queued job) (htraced : i.Traced s)
  (hsettles : ∀ ch < s.nextChan, s.home ch ≠ 0 → Settles s (i ::ₘ R) ch)
  (hR : Reserved s (i ::ₘ R))

include hstop hown htraced hsettles in
theorem settles_of_resolveWaiter {res : Outcome} (heq : i = .resolveWaiter res) :
    ∃ ch, Settles s (i ::ₘ R) ch ∧ (s.jobOf ch).request = s.owner res.result.jobID := by
  subst heq
  obtain ⟨job, r, -, hsource, ⟨ch, hfeeds, hhome, -⟩, -⟩ := htraced.resolve_left (by simp [hstop])
  refine ⟨ch, hsettles ch hfeeds.1 hhome, ?_⟩
  have howner := hown _ (Multiset.mem_cons_self _ R) _ (List.mem_map_of_mem hsource)
  rw [hfeeds.2]
  exact howner.symm

include hstop hown hwaits htraced in
theorem not_unwaits {job : Job} {j : Instr} (hj : j ∈ R) (hw : j.waits job.request)
    (howner : s.owner job.id = job.request)
    (hres : ∀ res, i = .resolveWaiter res → res.result.jobID ≠ job.id) : ¬ i.unwaits job.id := by
  have hself := hown i (Multiset.mem_cons_self i R)
  have hnot := not_of_countP_le_one (hwaits job.request) hj hw
  have hother {job' : Job} (howner' : s.owner job'.id = job'.request)
      (hi : i.waits job'.request) : job'.id ≠ job.id := by
    intro hid
    rw [hid, howner] at howner'
    exact Bool.eq_false_iff.mp hnot (howner' ▸ hi)
  cases i with
  | addWaiter | removeWaiter => exact hother (hself _ (List.mem_singleton_self _)) (beq_self_eq_true _)
  | resolveWaiter res => exact hres res rfl
  | failWaiters => exact absurd htraced (by simp [Instr.Traced, hstop])
  | _ => exact id

include he hstop hsilent hI hown hwaits hbusy hpick htraced hsettles hR in
theorem Reserved.step : Reserved e.shared (e.fresh + R) := by
  have hs := step_of_exec he
  have hlistens {job : Job} (hL : Listening s (i ::ₘ R) job)
      (hres : ∀ res, i = .resolveWaiter res → res.result.jobID ≠ job.id) :
      Listening e.shared (e.fresh + R) job := by
    refine hL.step he hsilent fun ch hmem ↦ ?_
    exact not_unwaits hstop hown hwaits htraced hmem (beq_self_eq_true _)
      (hown _ (Multiset.mem_cons_of_mem hmem) _ (List.mem_singleton_self _)) hres
  have hqueue {item : Item} (hitem : item ∈ s.queue) : Listening e.shared (e.fresh + R) item.job := by
    refine hlistens (hR.queue item hitem) fun res heq hid ↦ ?_
    obtain ⟨ch, hsettle, hrequest⟩ := settles_of_resolveWaiter hstop hown htraced hsettles heq
    rw [hid, hI.queue item hitem] at hrequest
    exact hsettle.queue item hitem hrequest.symm
  refine ⟨fun job priority ch hmem ↦ ?_, fun item hitem ↦ ?_, fun job j hj hjob ↦ ?_⟩
  · rcases Multiset.mem_add.mp hmem with hmem | hmem
    · rcases hs.expects_fresh _ hmem _ rfl with ⟨job', priority', rfl, hp⟩ | ⟨job', priority', k, rfl, -⟩
      · obtain ⟨rfl, rfl⟩ : job = job' ∧ ch = s.nextChan := by simpa using hp
        cases hs with
        | quit hq => cases hq
        | addWaiter => exact AList.lookup_insert _
      · cases hs with
        | quit hq => cases hq
        | _ => simp at hmem
    · have hin := Multiset.mem_cons_of_mem (b := i) hmem
      have howner := hown _ hin _ (List.mem_singleton_self _)
      refine hs.waiter_stays (hR.enqueue job priority ch hin) ?_
      refine not_unwaits hstop hown hwaits htraced hmem (beq_self_eq_true _) howner
        fun res heq hid ↦ ?_
      obtain ⟨k, hsettle, hrequest⟩ := settles_of_resolveWaiter hstop hown htraced hsettles heq
      rw [hid, howner] at hrequest
      cases hsettle.hands _ hin (beq_iff_eq.mpr hrequest.symm)
  · rcases hs.queue_cases hitem with hold | ⟨priority, ch, rfl⟩
    · exact hqueue hold
    · have hl := hR.enqueue _ _ _ (Multiset.mem_cons_self _ R)
      cases hs with
      | quit hq => cases hq
      | queueFull => exact hqueue hitem
      | enqueue => exact .inr ⟨ch, by simp, hl⟩
  · rcases Multiset.mem_add.mp hj with hj | hj
    · rcases hs.queues_fresh hpick j hj hjob with hi | ⟨item, hitem, rfl⟩
      · refine hlistens (hR.loop job i (Multiset.mem_cons_self i R) hi) ?_
        rintro res rfl
        cases hi
      · exact hqueue hitem
    · refine hlistens (hR.loop job j (Multiset.mem_cons_of_mem hj) hjob) ?_
      rintro res rfl
      cases not_of_countP_le_one hbusy hj (Instr.busy_of_queues hjob)

end

end Queue

section

variable {t : Time} {d : Duration} {n : ℕ} {c : Config Server Instr}

theorem watched_of_reaches (hc : controlPlane.Reaches (boot (new t d n)) c) :
    Watched c.shared c.soup := by
  have hrun := hc.strengthen fun c hc ↦ And.intro (homed_of_reaches hc).1 (closers_le_one hc)
  refine hrun.soup_invariant Watched ?_ ?_
  · simp [Watched, boot, new]
  · intro c i x R e hsoup hW hg he
    exact (step_of_exec he).watched hg.2.1 (hsoup ▸ hg.2.2) hW

theorem consumed_of_reaches (hc : controlPlane.Reaches (boot (new t d n)) c) :
    Consumed c.shared c.soup := by
  refine hc.soup_invariant Consumed ?_ ?_
  · simp [Consumed, boot, Config.soup, Instr.tends]
  · exact fun c i x R e _ hC _ he ↦ (step_of_exec he).consumed hC

theorem pick_ne_queued (hc : controlPlane.Reaches (boot (new t d n)) c) (hi : i ∈ c.soup) (job : Job) :
    i ≠ .pick .queued job := by
  rintro rfl
  obtain ⟨th, hth, hi⟩ := Config.mem_soup.mp hi
  obtain ⟨k, hk⟩ := List.mem_iff_getElem?.mp hth
  have hrole := loop_of_reaches hc k th hk
  split_ifs at hrole with h2
  · cases hrole.1 with
    | stopped => cases hi
    | free | parked => simp at hi
    | busy hplaces =>
      obtain rfl : Instr.pick .queued job = _ := by simpa using hi
      cases hplaces
  · cases hrole _ hi

theorem reserved_of_runs
    (hc : controlPlane.Runs (fun c i x ↦ Honest c i x ∧ FreshID c i x) (boot (new t d n)) c) :
    c.shared.placeStop ∨ Reserved c.shared c.soup := by
  have hrun := hc.strengthen fun c hc ↦ And.intro (owned_of_runs hc)
    (And.intro (traced_of_runs hc).2 hc.reaches)
  refine hrun.soup_invariant (fun s S ↦ s.placeStop ∨ Reserved s S) (.inr ?_) ?_
  · constructor <;> simp [boot, new, Config.soup, Instr.queues]
  · intro c i x R e hsoup hR hg he
    obtain ⟨-, ⟨hI, -, hown⟩, htraced, hreach⟩ := hg
    cases hstop : c.shared.placeStop with
    | true => exact .inl ((step_of_exec he).placeStop_kept hstop)
    | false =>
      rw [hstop] at hR
      have hself : i ∈ c.soup := hsoup ▸ Multiset.mem_cons_self i R
      refine .inr (Reserved.step he hstop (hsoup ▸ silent_of_reaches hreach) hI ?_ ?_ ?_
        (pick_ne_queued hreach hself) (htraced i hself) ?_ (hR.resolve_left Bool.false_ne_true))
      · exact fun j hj ↦ (hown j (hsoup ▸ hj)).1
      · rw [← hsoup]
        exact fun r ↦ (waits_le_one hreach r).trans (by split <;> simp)
      · exact hsoup ▸ busy_le_one hreach
      · exact hsoup ▸ settles_of_reaches hreach

end

end AgentGpu.ControlPlane
