import AgentGpu.ControlPlane.Orphans
import AgentGpu.ControlPlane.Placement
import AgentGpu.ControlPlane.Wiring

namespace AgentGpu.ControlPlane

open Foundation HttpApi

variable {s : Server} {i : Instr} {x : Choice} {e : Effect Server Instr} {ch : ℕ}

namespace Instr

def expects : Instr → Option (Job × ℕ)
  | .enqueue job _ ch | .awaitWaiter job ch => some (job, ch)
  | _ => none

def waits (r : ℕ) : Instr → Bool
  | .pick _ job | .addWaiter job _ | .enqueue job _ _ | .awaitWaiter job _ | .removeWaiter job =>
    job.request == r
  | _ => false

def attends (jobID : String) (ch : ℕ) : Instr → Bool
  | .enqueue job _ k | .awaitWaiter job k => job.id == jobID && k == ch
  | .removeWaiter job => job.id == jobID
  | _ => false

def holds (job : Job) : Instr → Bool
  | .placeItem item => item.job == job
  | .addPending .queued _ j | .send .queued _ j _ | .await .queued _ j _ | .finish .queued j _ =>
    j == job
  | .resolveWaiter res => res.result.jobID == job.id
  | _ => false

theorem takes_of_expects {j : Instr} {job : Job} (hj : j.expects = some (job, ch)) : j.takes ch := by
  cases j with
  | enqueue | awaitWaiter =>
    obtain ⟨-, rfl⟩ : _ = job ∧ _ = ch := by simpa [expects] using hj
    exact beq_self_eq_true _
  | _ => cases hj

theorem waits_of_expects {j : Instr} {job : Job} (hj : j.expects = some (job, ch)) :
    j.waits job.request := by
  cases j with
  | enqueue | awaitWaiter =>
    obtain ⟨rfl, -⟩ : _ = job ∧ _ = ch := by simpa [expects] using hj
    exact beq_self_eq_true _
  | _ => cases hj

end Instr

theorem Step.requests_cases (hs : Step s i x e) :
    e.shared.requests = s.requests ∨ ∃ header entropy model stream o job,
      i = .serve ∧ x = .request header entropy model stream ∧ o ≠ .queued ∧
      job = ⟨requestID header entropy, model, s.requests⟩ ∧
      e = ⟨{ s with requests := s.requests + 1,
                    owner := Function.update s.owner job.id s.requests },
        [.serve], [[.pick o job]]⟩ := by
  induction hs with
  | request header entropy model stream ho hjob =>
    exact .inr ⟨header, entropy, model, stream, _, _, rfl, rfl, ho, hjob, rfl⟩
  | _ => exact .inl rfl

theorem Step.request_balance {p : Instr → Bool} {r d : ℕ} (hs : Step s i x e) (hserve : p .serve = false)
    (hpick : ∀ o job, p (.pick o job) → job.request = r) (hd : i = .serve → d = 0)
    (hfresh : e.shared.requests = s.requests → e.fresh.countP (p ·) + d ≤ if p i then 1 else 0) :
    e.fresh.countP (p ·) + d + (if r < s.requests then 1 else 0) ≤
      (if p i then 1 else 0) + (if r < e.shared.requests then 1 else 0) := by
  rcases hs.requests_cases with hsame | ⟨_, _, _, _, o, job, rfl, rfl, -, hjob, rfl⟩
  · rw [hsame]
    exact Nat.add_le_add_right (hfresh hsame) _
  · rw [hd rfl, Effect.countP_fresh]
    by_cases hp : p (.pick o job)
    · have hr : s.requests = r := by rw [← hpick o job hp, hjob]
      simp [hserve, hp, hr]
    · have hmono : (if r < s.requests then 1 else 0) ≤ if r < s.requests + 1 then 1 else 0 := by
        split_ifs <;> omega
      simpa [hserve, hp] using hmono

theorem Step.waits_fresh (hs : Step s i x e) (hsame : e.shared.requests = s.requests) (r : ℕ) :
    e.fresh.countP (·.waits r) ≤ if i.waits r then 1 else 0 := by
  refine hs.countP_fresh_le (fun j hj ↦ ?_) fun hi ↦ ?_
  · cases j <;> first | rfl | cases hj
  · induction hs with
    | request => exact absurd hsame (Nat.succ_ne_self _)
    | enter hj => cases hj.symm.trans hi
    | fail | markDraining | evictScan | failWaiters => cases hi
    | dequeue | addObserver | ack =>
      rw [Effect.countP_fresh]
      simp [Instr.waits]
    | _ =>
      first
      | exact Effect.countP_fresh_singleton_le rfl
      | exact Effect.countP_fresh_singleton_of_not rfl
      | exact Effect.countP_fresh_nil_le

theorem Step.waits_balance (hs : Step s i x e) (r : ℕ) :
    e.fresh.countP (·.waits r) + (if r < s.requests then 1 else 0) ≤
      (if i.waits r then 1 else 0) + (if r < e.shared.requests then 1 else 0) := by
  refine hs.request_balance rfl (fun o job hp ↦ ?_) (fun _ ↦ rfl) (hs.waits_fresh · r)
  exact eq_of_beq hp

theorem Step.waiter_kept (hs : Step s i x e) {jobID : String}
    (hl : s.waiters.lookup jobID = some ch) :
    e.shared.waiters.lookup jobID = some ch ∨ (∃ res, .deliverWaiter ch res ∈ e.fresh) ∨
    ∃ job, job.id = jobID ∧ ((∃ priority, i = .addWaiter job priority) ∨ i = .removeWaiter job) := by
  induction hs with
  | addWaiter job priority =>
    by_cases hid : jobID = job.id
    · exact .inr (.inr ⟨job, hid.symm, .inl ⟨priority, rfl⟩⟩)
    · exact .inl ((AList.lookup_insert_ne hid).trans hl)
  | removeWaiter job =>
    by_cases hid : jobID = job.id
    · exact .inr (.inr ⟨job, hid.symm, .inr rfl⟩)
    · exact .inl ((AList.lookup_erase_ne hid).trans hl)
  | @resolveWaiter res k hw =>
    by_cases hid : jobID = res.result.jobID
    · subst hid
      obtain rfl : k = ch := Option.some.inj (hw.symm.trans hl)
      exact .inr (.inl ⟨res, by simp⟩)
    · exact .inl ((AList.lookup_erase_ne hid).trans hl)
  | @failWaiters ids _ hids =>
    have hmem : jobID ∈ ids := hids.mem_iff.mpr (AList.lookup_isSome.mp (by rw [hl]; rfl))
    refine .inr (.inl ⟨⟨{ jobID := jobID, err := some shuttingDown }, []⟩, ?_⟩)
    exact Effect.mem_fresh.mpr (.inl (List.mem_filterMap.mpr ⟨jobID, hmem, by rw [hl]; rfl⟩))
  | _ => exact .inl hl

def Expected (s : Server) (S : Multiset Instr) (jobID : String) (ch : ℕ) : Prop :=
  s.waiters.lookup jobID = some ch ∨ (∃ res, .deliverWaiter ch res ∈ S) ∨
    (s.results ch).taken < (s.results ch).sent.length

theorem Expected.step {R : Multiset Instr} {jobID : String} (hs : Step s i x e)
    (hexp : Expected s (i ::ₘ R) jobID ch) (hrecv : ¬ i.receives ch)
    (hother : ∀ job, (∃ priority, i = .addWaiter job priority) ∨ i = .removeWaiter job →
      job.id ≠ jobID) : Expected e.shared (e.fresh + R) jobID ch := by
  rcases hexp with hl | ⟨res, hres⟩ | hthere
  · rcases hs.waiter_kept hl with hkept | ⟨res, hres⟩ | ⟨job, hid, hi⟩
    · exact .inl hkept
    · exact .inr (.inl ⟨res, Multiset.mem_add.mpr (.inl hres)⟩)
    · exact absurd hid (hother job hi)
  · rcases Multiset.mem_cons.mp hres with rfl | hres
    · exact .inr (.inr (hs.delivers_done (beq_self_eq_true ch)))
    · exact .inr (.inl ⟨res, Multiset.mem_add.mpr (.inr hres)⟩)
  · exact .inr (.inr (hs.result_there hrecv hthere))

theorem Step.expects_fresh (hs : Step s i x e) : ∀ j ∈ e.fresh, ∀ p, j.expects = some p →
    (∃ job priority, i = .addWaiter job priority ∧ p = (job, s.nextChan)) ∨
      ∃ job priority ch, i = .enqueue job priority ch ∧ p = (job, ch) := by
  intro j hj p hp
  have hleft := hs.leaves j hj
  cases j with
  | enqueue job priority ch =>
    obtain ⟨rfl, rfl⟩ := hleft
    cases hp
    exact .inl ⟨job, priority, rfl, rfl⟩
  | awaitWaiter job ch =>
    obtain ⟨priority, rfl⟩ := hleft
    cases hp
    exact .inr ⟨job, priority, ch, rfl, rfl⟩
  | _ => cases hp

def SoleUser (S : Multiset Instr) (job : Job) : Prop :=
  ∀ j ∈ S, ∀ other, (∃ priority, j = .addWaiter other priority) ∨ j = .removeWaiter other →
    other.id = job.id → other = job

theorem Step.expected {R : Multiset Instr} (hs : Step s i x e)
    (htakes : ∀ ch, (i ::ₘ R).countP (·.takes ch) ≤ 1)
    (hwaits : ∀ r, (i ::ₘ R).countP (·.waits r) ≤ 1)
    (hids : ∀ j ∈ i ::ₘ R, ∀ job ch, j.expects = some (job, ch) → SoleUser (i ::ₘ R) job)
    (hE : ∀ j ∈ i ::ₘ R, ∀ job ch, j.expects = some (job, ch) → Expected s (i ::ₘ R) job.id ch) :
    ∀ j ∈ e.fresh + R, ∀ job ch, j.expects = some (job, ch) →
      Expected e.shared (e.fresh + R) job.id ch := by
  intro j hj job ch hjch
  rcases Multiset.mem_add.mp hj with hj | hj
  · rcases hs.expects_fresh j hj _ hjch with
      ⟨job', priority, rfl, hp⟩ | ⟨job', priority, ch', rfl, hp⟩
    · obtain ⟨rfl, rfl⟩ : job = job' ∧ ch = s.nextChan := by simpa using hp
      cases hs with
      | quit hq => cases hq
      | addWaiter => exact .inl (AList.lookup_insert _)
    · obtain ⟨rfl, rfl⟩ : job = job' ∧ ch = ch' := by simpa using hp
      exact (hE _ (Multiset.mem_cons_self _ R) job ch rfl).step hs (by simp [Instr.receives])
        (by simp)
  · have hin := Multiset.mem_cons_of_mem (b := i) hj
    refine (hE j hin job ch hjch).step hs ?_ ?_
    · exact mt Instr.takes_of_receives
        (not_takes_both (htakes ch) hj (Instr.takes_of_expects hjch))
    · -- the entry is only replaced or removed by the submit call that made it
      intro other hi hid
      have hself := hids j hin job ch hjch i (Multiset.mem_cons_self i R) other hi hid
      subst hself
      have hpos : 0 < R.countP (·.waits other.request) :=
        Multiset.countP_pos.mpr ⟨j, hj, Instr.waits_of_expects hjch⟩
      have hi' : i.waits other.request := by
        rcases hi with ⟨priority, rfl⟩ | rfl <;> exact beq_self_eq_true _
      have hone := hwaits other.request
      rw [Multiset.countP_cons, if_pos hi'] at hone
      omega

/-- A channel in the waiter map is new to everyone else: no result was sent on it or is about
to be, and it stands in no pending table. -/
def Silent (s : Server) (S : Multiset Instr) : Prop :=
  ∀ jobID ch, s.waiters.lookup jobID = some ch → (s.results ch).sent = [] ∧
    (∀ j ∈ S, ¬ j.delivers ch) ∧ ∀ h id, (s.worker h).pending.lookup id ≠ some ch

theorem Step.delivers_fresh (hs : Step s i x e) : ∀ j ∈ e.fresh, j.delivers ch →
    (∃ h id, (s.worker h).pending.lookup id = some ch) ∨
      ∃ jobID, s.waiters.lookup jobID = some ch ∧ e.shared.waiters.lookup jobID = none := by
  intro j hj hch
  have hleft := hs.leaves j hj
  cases j with
  | deliver h k res =>
    obtain rfl := eq_of_beq hch
    exact .inl ⟨h, _, hleft.2⟩
  | failDeliver k res =>
    obtain rfl := eq_of_beq hch
    obtain ⟨h, cause, id, -, hl, -⟩ := hleft
    exact .inl ⟨h, id, hl⟩
  | deliverWaiter k res =>
    obtain rfl := eq_of_beq hch
    rcases hleft with ⟨rfl, hw⟩ | ⟨id, rfl, hw, -⟩
    · refine .inr ⟨_, hw, ?_⟩
      cases hs with
      | quit => simp at hj
      | resolveWaiter => exact AList.lookup_erase _ _
    · refine .inr ⟨id, hw, ?_⟩
      cases hs with
      | quit hq => cases hq
      | failWaiters => rfl
  | _ => cases hch

theorem Step.silent {R : Multiset Instr} (hs : Step s i x e) (hwired : Wired s)
    (hinstr : ∀ j ∈ i ::ₘ R, j.Wired s) (hS : Silent s (i ::ₘ R)) :
    Silent e.shared (e.fresh + R) := by
  intro jobID ch hl
  rcases hs.waiter_cases hl with hold | ⟨job, priority, rfl, rfl, rfl⟩
  · obtain ⟨hsent, hnone, hpending⟩ := hS jobID ch hold
    have hlt := (hwired.waiters jobID ch hold).1
    refine ⟨?_, fun j hj hjch ↦ ?_, fun h id hp ↦ ?_⟩
    · rcases hs.results_cases ch with hsame | ⟨hi, -⟩ | ⟨-, res, hc⟩
      · rw [hsame, hsent]
      · exact absurd hi (hnone i (Multiset.mem_cons_self i R))
      · rw [(Chan.recv_some hc).2.1, hsent]
    · rcases Multiset.mem_add.mp hj with hj | hj
      · rcases hs.delivers_fresh j hj hjch with ⟨h, id, hp⟩ | ⟨jobID', hw, hgone⟩
        · exact hpending h id hp
        · -- the entry just taken out is the only one with this channel
          have hid := (hwired.waiters jobID' ch hw).2.symm.trans (hwired.waiters jobID ch hold).2
          rw [← hid, hgone] at hl
          cases hl
      · exact hnone j (Multiset.mem_cons_of_mem hj) hjch
    · rcases hs.pending_cases hp with hp | ⟨o, job, rfl, rfl, rfl⟩
      · exact hpending h id hp
      · exact absurd hlt (lt_irrefl _)
  · cases hs with
    | quit hq => cases hq
    | addWaiter =>
      refine ⟨?_, fun j hj hjch ↦ ?_, fun h id hp ↦ ?_⟩
      · exact List.eq_nil_iff_forall_not_mem.mpr fun res hres ↦
          lt_irrefl _ (hwired.results _ res hres).1
      · rcases Multiset.mem_add.mp hj with hj | hj
        · obtain rfl : j = .enqueue job priority s.nextChan := by simpa using hj
          cases hjch
        · have hj := hinstr j (Multiset.mem_cons_of_mem hj)
          cases j with
          | deliver _ k _ | failDeliver k _ | deliverWaiter k _ =>
            obtain rfl : k = s.nextChan := eq_of_beq hjch
            exact lt_irrefl _ hj.1
          | _ => cases hjch
      · exact lt_irrefl _ (hwired.pending h id _ hp).1

def Attended (s : Server) (S : Multiset Instr) : Prop :=
  ∀ jobID ch, s.waiters.lookup jobID = some ch → ∃ j ∈ S, j.attends jobID ch

theorem Step.attends_kept (hs : Step s i x e) {jobID : String} (hi : i.attends jobID ch)
    (hl : e.shared.waiters.lookup jobID = some ch) (hsent : (s.results ch).sent = []) :
    ∃ j ∈ e.fresh, j.attends jobID ch := by
  induction hs with
  | queueFull job | waiterGone job =>
    have hid : job.id == jobID := (Bool.and_eq_true_iff.mp hi).1
    exact ⟨.removeWaiter job, by simp, hid⟩
  | enqueue job priority k => exact ⟨.awaitWaiter job k, by simp, hi⟩
  | @awaitWaiter job k res c hc =>
    -- nothing was sent on a channel that is still in the map
    obtain rfl : k = ch := eq_of_beq (Bool.and_eq_true_iff.mp hi).2
    have hmem := Chan.mem_of_recv hc
    rw [hsent] at hmem
    cases hmem
  | removeWaiter job =>
    obtain rfl : job.id = jobID := eq_of_beq hi
    have hgone : (s.removeWaiter job).waiters.lookup job.id = none := AList.lookup_erase _ _
    cases hgone.symm.trans hl
  | @quit i x hq => cases i <;> first | cases hi | cases hq
  | _ => cases hi

theorem Step.attended {R : Multiset Instr} (hs : Step s i x e) (hS : Silent s (i ::ₘ R))
    (hA : Attended s (i ::ₘ R)) : Attended e.shared (e.fresh + R) := by
  intro jobID ch hl
  rcases hs.waiter_cases hl with hold | ⟨job, priority, rfl, rfl, rfl⟩
  · obtain ⟨j, hj, hjch⟩ := hA jobID ch hold
    rcases Multiset.mem_cons.mp hj with rfl | hj
    · obtain ⟨k, hk, hkch⟩ := hs.attends_kept hjch hl (hS jobID ch hold).1
      exact ⟨k, Multiset.mem_add.mpr (.inl hk), hkch⟩
    · exact ⟨j, Multiset.mem_add.mpr (.inr hj), hjch⟩
  · cases hs with
    | quit hq => cases hq
    | addWaiter =>
      exact ⟨.enqueue job priority s.nextChan, by simp, by simp [Instr.attends]⟩

def Held (s : Server) (S : Multiset Instr) : Prop :=
  ∀ job ch, .awaitWaiter job ch ∈ S → s.waiters.lookup job.id = some ch →
    (∃ item ∈ s.queue, item.job = job) ∨ ∃ j ∈ S, j.holds job

theorem placedResult_jobID {job : Job} {res : Option Outcome}
    (hres : (Instr.finish .queued job res).Wired s) :
    (placedResult job res).result.jobID = job.id := by
  cases res with
  | none => rfl
  | some res =>
    simp only [placedResult]
    split
    · exact hres
    · rfl

theorem holds_kept (he : controlPlane.exec s i x = some e) {job : Job} (hi : i.holds job)
    (hwired : i.Wired s) :
    (∃ j ∈ e.fresh, j.holds job) ∨ e.shared.waiters.lookup job.id = none := by
  cases i with
  | placeItem item =>
    cases step_of_exec he with
    | placeAt | placePark => exact .inl ⟨_, Effect.mem_fresh.mpr (.inl List.mem_cons_self), hi⟩
    | placeStop =>
      obtain rfl : item.job = job := eq_of_beq hi
      exact .inl ⟨_, Effect.mem_fresh.mpr (.inl List.mem_cons_self), beq_self_eq_true _⟩
    | quit hq => cases hq
  | addPending o =>
    cases step_of_exec he with
    | addPending =>
      cases o with
      | queued => exact .inl ⟨_, Effect.mem_fresh.mpr (.inl List.mem_cons_self), hi⟩
      | _ => cases hi
    | quit hq => cases hq
  | send o | await o =>
    cases o with
    | queued =>
      cases step_of_exec he with
      | quit hq => cases hq
      | _ => exact .inl ⟨_, Effect.mem_fresh.mpr (.inl List.mem_cons_self), hi⟩
    | _ => cases hi
  | finish o j res =>
    cases o with
    | queued =>
      obtain rfl : j = job := eq_of_beq hi
      cases step_of_exec he with
      | finishQueued =>
        refine .inl ⟨_, Effect.mem_fresh.mpr (.inl List.mem_cons_self), ?_⟩
        exact beq_iff_eq.mpr (placedResult_jobID hwired)
      | quit hq => cases res <;> cases hq
    | _ => cases hi
  | resolveWaiter res =>
    have hid : res.result.jobID = job.id := eq_of_beq hi
    refine .inr ?_
    rw [← hid]
    cases x <;> simp only [controlPlane, exec, execPlace, reduceCtorEq] at he
    split at he
    · next hnone =>
      cases he
      exact hnone
    · cases he
      exact AList.lookup_erase _ _
  | _ => cases hi

theorem Step.awaitWaiter_fresh (hs : Step s i x e) {job : Job}
    (hj : .awaitWaiter job ch ∈ e.fresh) : ∃ priority, i = .enqueue job priority ch :=
  hs.leaves _ hj

theorem held_step {R : Multiset Instr} (he : controlPlane.exec s i x = some e)
    (hinstr : ∀ j ∈ i ::ₘ R, j.Wired s) (hH : Held s (i ::ₘ R)) : Held e.shared (e.fresh + R) := by
  have hs := step_of_exec he
  intro job ch hin hl
  rcases Multiset.mem_add.mp hin with hin | hin
  · obtain ⟨priority, rfl⟩ := hs.awaitWaiter_fresh hin
    cases hs with
    | queueFull => simp at hin
    | enqueue => exact .inl ⟨_, List.mem_cons_self, rfl⟩
    | quit hq => cases hq
  · have hold : s.waiters.lookup job.id = some ch := by
      refine (hs.waiter_cases hl).resolve_right ?_
      rintro ⟨job', priority, rfl, -, rfl⟩
      exact lt_irrefl _ (hinstr _ (Multiset.mem_cons_of_mem hin)).1
    rcases hH job ch (Multiset.mem_cons_of_mem hin) hold with ⟨item, hitem, rfl⟩ | ⟨j, hj, hholds⟩
    · obtain ⟨hqueue, -⟩ | ⟨job', priority, k, rfl, hqueue, -⟩ | ⟨first, rfl, hnext, rfl⟩ :=
        hs.queue_eq
      · exact .inl ⟨item, hqueue ▸ hitem, rfl⟩
      · exact .inl ⟨item, hqueue ▸ List.mem_cons_of_mem _ hitem, rfl⟩
      · by_cases hfirst : item = first
        · subst hfirst
          exact .inr ⟨.placeItem item, by simp, beq_self_eq_true _⟩
        · exact .inl ⟨item, (List.mem_erase_of_ne hfirst).mpr hitem, rfl⟩
    · rcases Multiset.mem_cons.mp hj with rfl | hj
      · rcases holds_kept he hholds (hinstr j (Multiset.mem_cons_self j R)) with
          ⟨k, hk, hkjob⟩ | hgone
        · exact .inr ⟨k, Multiset.mem_add.mpr (.inl hk), hkjob⟩
        · cases hgone.symm.trans hl
      · exact .inr ⟨j, Multiset.mem_add.mpr (.inr hj), hholds⟩

section

variable {t : Time} {d : Duration} {n : ℕ} {c : Config Server Instr}

theorem waits_le_one (hc : controlPlane.Reaches (boot (new t d n)) c) (r : ℕ) :
    c.soup.countP (·.waits r) ≤ if r < c.shared.requests then 1 else 0 := by
  refine hc.ticket_invariant Server.requests (·.waits r) r ?_ ?_
  · simp [boot, Config.soup, Instr.waits]
  · intro c i x e _ he
    exact (step_of_exec he).waits_balance r

theorem silent_of_reaches (hc : controlPlane.Reaches (boot (new t d n)) c) :
    Silent c.shared c.soup := by
  refine (hc.strengthen fun c hc ↦ wired_of_reaches hc).soup_invariant Silent ?_ ?_
  · intro jobID ch hl
    simp [boot, new] at hl
  · intro c i x R e hsoup hS hg he
    exact (step_of_exec he).silent hg.2.1 (hsoup ▸ hg.2.2) hS

theorem attended_of_reaches (hc : controlPlane.Reaches (boot (new t d n)) c) :
    Attended c.shared c.soup := by
  refine (hc.strengthen fun c hc ↦ silent_of_reaches hc).soup_invariant Attended ?_ ?_
  · intro jobID ch hl
    simp [boot, new] at hl
  · intro c i x R e hsoup hA hg he
    exact (step_of_exec he).attended (hsoup ▸ hg.2) hA

theorem held_of_reaches (hc : controlPlane.Reaches (boot (new t d n)) c) :
    Held c.shared c.soup := by
  refine (hc.strengthen fun c hc ↦ wired_of_reaches hc).soup_invariant Held ?_ ?_
  · intro job ch hin
    simp [boot, Config.soup] at hin
  · intro c i x R e hsoup hH hg he
    exact held_step he (hsoup ▸ hg.2.2) hH

end

end AgentGpu.ControlPlane
