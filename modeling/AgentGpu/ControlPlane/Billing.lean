import AgentGpu.ControlPlane.Attendance
import AgentGpu.ControlPlane.Metering

namespace AgentGpu.ControlPlane

open Foundation

variable {s : Server} {i j : Instr} {x : Choice} {e : Effect Server Instr} {R S : Multiset Instr}
  {h ch r v : ℕ} {o : Origin} {job : Job} {res : Outcome}

namespace Instr

def concludes : Instr → Option (ℕ × Outcome)
  | .forwardLast h _ _ res | .closeLast h _ res | .resolve h res => some (h, res)
  | _ => none

def stage : Instr → ℕ
  | .forwardLast .. => 208
  | .closeLast .. => 207
  | _ => 206

theorem readerOf_of_concludes (hi : i.concludes = some (h, res)) : i.readerOf h := by
  cases i with
  | forwardLast | closeLast | resolve =>
    obtain ⟨rfl, -⟩ : _ = h ∧ _ = res := by simpa [concludes] using hi
    exact beq_self_eq_true _
  | _ => cases hi

end Instr

structure Sound (s : Server) (S : Multiset Instr) : Prop where
  takes : ∀ ch, S.countP (·.takes ch) ≤ 1
  dispatches : ∀ r, S.countP (·.dispatches r) + (s.finished r).sent.length ≤ 1
  replies : ∀ ch, S.countP (·.delivers ch) + s.promising ch + (s.results ch).sent.length ≤ 1
  pays : ∀ r, S.countP (·.pays r) ≤ 1
  waits : ∀ r, S.countP (·.waits r) ≤ 1
  conn : ∀ h, S.countP (·.connOf h) ≤ 1
  busy : S.countP (·.busy) ≤ 1
  closers : ∀ ch, S.countP (·.closes ch) + s.observing ch + (s.observed ch).closed.toNat ≤ 1
  known : ∀ j ∈ S, HandlesKnown s j
  homed : Homed s
  homes : ∀ j ∈ S, j.Homed s
  atHome : AtHome s
  silent : Silent s S
  wired : Wired s
  wires : ∀ j ∈ S, j.Wired s
  owned : Owned s
  owns : ∀ j ∈ S, j.Owned s
  traces : ∀ j ∈ S, j.Traced s
  watched : Watched s S
  consumed : Consumed s S
  reserved : s.placeStop ∨ Reserved s S
  result_cap : ∀ ch, (s.results ch).cap = 1
  finished_cap : ∀ r, (s.finished r).cap = 1
  observed_cap : ∀ ch, (s.observed ch).cap = 64
  out_cap : ∀ r, (s.out r).cap = 64

theorem Step.finished_cap (hs : Step s i x e) (r : ℕ) :
    (e.shared.finished r).cap = (s.finished r).cap := by
  induction hs with
  | finishStream hc => exact Chan.proj_of_update Chan.cap rfl (Chan.send_some hc).2.2.2.2 r
  | settle hc => exact Chan.proj_of_update Chan.cap rfl (Chan.recv_some hc).2.2.2.2 r
  | _ => rfl

theorem sound_of_runs {t : Time} {d : Duration} {m : ℕ} {c : Config Server Instr}
    (hc : controlPlane.Runs (fun c i x ↦ Honest c i x ∧ FreshID c i x) (boot (new t d m)) c) :
    Sound c.shared c.soup where
  takes ch := (takes_le_one hc.reaches ch).trans (by split <;> simp)
  dispatches r := by
    have hle := dispatches_le_one hc.reaches r
    have hone : (if r < c.shared.requests then 1 else 0) ≤ 1 := by split <;> simp
    omega
  replies := replies_le_one hc.reaches
  pays r := (pays_le_one hc.reaches r).trans (by split <;> simp)
  waits r := (waits_le_one hc.reaches r).trans (by split <;> simp)
  conn h := (conn_le_one hc.reaches h).trans (by split <;> simp)
  busy := busy_le_one hc.reaches
  closers := closers_le_one hc.reaches
  known := (known_of_reaches hc.reaches).2
  homed := (homed_of_reaches hc.reaches).1
  homes := (homed_of_reaches hc.reaches).2
  atHome := atHome_of_reaches hc.reaches
  silent := silent_of_reaches hc.reaches
  wired := (wired_of_reaches hc.reaches).1
  wires := (wired_of_reaches hc.reaches).2
  owned := (owned_of_runs hc).1
  owns j hj := ((owned_of_runs hc).2.2 j hj).1
  traces := (traced_of_runs hc).2
  watched := watched_of_reaches hc.reaches
  consumed := consumed_of_reaches hc.reaches
  reserved := reserved_of_runs hc
  result_cap := result_cap_of_reaches hc.reaches
  finished_cap := hc.shared_invariant (fun s ↦ ∀ r, (s.finished r).cap = 1) (fun _ ↦ rfl)
    fun _ _ _ _ hcap _ he r ↦ ((step_of_exec he).finished_cap r).trans (hcap r)
  observed_cap := (caps_of_reaches hc.reaches).1
  out_cap := (caps_of_reaches hc.reaches).2

section Results

theorem Sound.sent_nil (hS : Sound s S) (hin : 0 < s.promising ch ∨ ∃ j ∈ S, j.delivers ch) :
    (s.results ch).sent = [] := by
  have hle := hS.replies ch
  refine List.eq_nil_of_length_eq_zero ?_
  rcases hin with hpos | ⟨j, hj, hdelivers⟩
  · omega
  · have hpos : 0 < S.countP (·.delivers ch) := Multiset.countP_pos.mpr ⟨j, hj, hdelivers⟩
    omega

theorem Sound.result_stays (hS : Sound s (i ::ₘ R)) (hs : Step s i x e) (hsole : (s.results ch).Sole res)
    (hrecv : i.receives ch = false) : (e.shared.results ch).Sole res := by
  rcases hs.results_cases ch with hsame | ⟨hi, -⟩ | ⟨hi, -⟩
  · rwa [hsame]
  · have hnil := hS.sent_nil (.inr ⟨i, Multiset.mem_cons_self i R, hi⟩)
    cases hnil.symm.trans hsole.1
  · cases hrecv.symm.trans hi

end Results

section Dispatch

def Sealed (s : Server) (S : Multiset Instr) (ch : ℕ) : Prop :=
  (s.observed ch).closed ∧ ∀ j ∈ S, j.forwards ch = false

theorem Instr.carries_of_forwards (hi : i.forwards ch) : ∃ c, i.carries ch = some c := by
  cases i with
  | forward _ k c => exact ⟨c, if_pos (eq_of_beq hi)⟩
  | _ => cases hi

theorem Sealed.step (hL : Sealed s (i ::ₘ R) ch) (hS : Sound s (i ::ₘ R))
    (he : controlPlane.exec s i x = some e) :
    Sealed e.shared (e.fresh + R) ch ∧ (e.shared.observed ch).sent = (s.observed ch).sent := by
  have hs := step_of_exec he
  have hle := hS.closers ch
  rw [hL.1, Bool.toNat_true] at hle
  have hobserving {k : ℕ} {jobID : String} : (s.worker k).observers.lookup jobID ≠ some ch := by
    intro hl
    have hpos := hS.homed.observing_pos hl
    omega
  have hcloses : i.closes ch = false := by
    refine Bool.eq_false_iff.mpr fun hi ↦ ?_
    have hpos : 0 < (i ::ₘ R).countP (·.closes ch) :=
      Multiset.countP_pos.mpr ⟨i, Multiset.mem_cons_self i R, hi⟩
    omega
  refine ⟨⟨?_, fun j hj ↦ ?_⟩, ?_⟩
  · rcases hs.closed_cases ch with hsame | ⟨-, hclosed⟩
    · exact hsame.trans hL.1
    · exact hclosed
  · rcases Multiset.mem_add.mp hj with hj | hj
    · refine Bool.eq_false_iff.mpr fun hforwards ↦ ?_
      obtain ⟨c, hc⟩ := Instr.carries_of_forwards hforwards
      obtain ⟨k, -, -, hl⟩ := hs.carries_fresh j hj c hc
      exact hobserving hl
    · exact hL.2 j (Multiset.mem_cons_of_mem hj)
  · cases feedStep_of_exec he {} ch with
    | rest _ _ _ _ hsent => exact hsent
    | take _ _ _ _ _ _ hsame => rw [hsame]
    | forward c hi =>
      rcases Instr.eq_of_carries hi with ⟨k, rfl⟩ | ⟨k, res, rfl⟩
      · cases (hL.2 _ (Multiset.mem_cons_self _ R)).symm.trans (beq_self_eq_true ch)
      · cases hcloses.symm.trans (beq_self_eq_true ch)
    | fail c hi =>
      subst hi
      cases hcloses.symm.trans (beq_self_eq_true ch)

theorem sealed_of_closeLast (hS : Sound s (i ::ₘ R)) (hs : Step s i x e) (hi : i = .closeLast h ch res) :
    Sealed e.shared (e.fresh + R) ch := by
  subst hi
  have hhome : s.home ch = h := (hS.homes _ (Multiset.mem_cons_self _ R)).2
  cases hs with
  | quit hq => cases hq
  | closeLast =>
    refine ⟨by simp [Server.closeObserver, Server.setObserved], fun j hj ↦ ?_⟩
    rcases Multiset.mem_add.mp hj with hj | hj
    · obtain rfl : j = .resolve h res := by simpa using hj
      rfl
    · refine Bool.eq_false_iff.mpr fun hforwards ↦ ?_
      obtain ⟨c, hc⟩ := Instr.carries_of_forwards hforwards
      have hconn := (Instr.home_of_carries (hS.homes j (Multiset.mem_cons_of_mem hj)) hc).2
      cases (not_of_countP_le_one (hS.conn (s.home ch)) hj hconn).symm.trans (beq_iff_eq.mpr hhome.symm)

/-- The result of a job is on its way to the goroutine that dispatched the job: `v` steps are
ahead, and the next one is by `j`. -/
inductive Dispatching (s : Server) (S : Multiset Instr) (o : Origin) (h : ℕ) (job : Job) (ch : ℕ)
    (res : Outcome) : ℕ → Instr → Prop
  | concluding {j : Instr} (hawait : .await o h job ch ∈ S) (hj : j ∈ S) (hres : j.concludes = some (h, res))
      (hpending : (s.worker h).pending.lookup res.result.jobID = some ch) :
      Dispatching s S o h job ch res j.stage j
  | delivering (hawait : .await o h job ch ∈ S) (hj : .deliver h ch res ∈ S) :
      Dispatching s S o h job ch res 205 (.deliver h ch res)
  | waiting (hawait : .await o h job ch ∈ S) (hsole : (s.results ch).Sole res) :
      Dispatching s S o h job ch res 204 (.await o h job ch)

theorem Dispatching.await_mem (hD : Dispatching s S o h job ch res v j) : .await o h job ch ∈ S := by
  cases hD with
  | concluding hawait | delivering hawait | waiting hawait => exact hawait

theorem Dispatching.ready (hD : Dispatching s S o h job ch res v j) (hS : Sound s S) :
    j ∈ S ∧ j.bulk = false ∧ j ≠ .place ∧ (controlPlane.exec s j .go).isSome := by
  cases hD with
  | concluding _ hj hres hpending =>
    cases j with
    | resolve k res' =>
      obtain ⟨rfl, rfl⟩ : k = h ∧ res' = res := by simpa [Instr.concludes] using hres
      refine ⟨hj, rfl, by simp, ?_⟩
      simp [controlPlane, exec, execStream, hpending]
    | forwardLast | closeLast => exact ⟨hj, rfl, by simp, rfl⟩
    | _ => cases hres
  | delivering _ hj =>
    refine ⟨hj, rfl, by simp, delivers_enabled (beq_self_eq_true ch) (hS.result_cap ch) ?_⟩
    rw [hS.sent_nil (.inr ⟨_, hj, beq_self_eq_true ch⟩)]
    exact Nat.zero_le _
  | waiting hawait hsole =>
    refine ⟨hawait, rfl, by simp, ?_⟩
    simpa [controlPlane, exec, execSubmit] using hsole.recv_isSome

variable (hS : Sound s (i ::ₘ R)) (he : controlPlane.exec s i x = some e)

include he in
theorem await_cases (hi : i = .await o h job ch) (hlive : ctxDone s o job = false) :
    ∃ res c, (s.results ch).recv = some (res, c) ∧
      e = ⟨s.setResult ch c, [.finish o job (some res)], []⟩ := by
  subst hi
  cases x <;> simp only [controlPlane, exec, execSubmit, reduceCtorEq] at he
  · obtain ⟨⟨res, c⟩, hc, rfl⟩ := Option.map_eq_some_iff.mp he
    exact ⟨res, c, hc, rfl⟩
  · rw [if_neg (by simp [hlive])] at he
    cases he

include hS in
theorem Sound.not_unpends (hawait : .await o h job ch ∈ R) (hj : j ∈ R) (hres : j.concludes = some (h, res))
    (hid : res.result.jobID = job.id) (hfail : ∀ cause, i ≠ .fail h cause) :
    ¬ i.unpends h res.result.jobID x := by
  have hself := hS.owns i (Multiset.mem_cons_self i R)
  have howner : s.owner job.id = job.request :=
    hS.owns _ (Multiset.mem_cons_of_mem hawait) _ (List.mem_singleton_self _)
  have hnot : i.dispatches job.request = false := by
    refine not_of_countP_le_one ?_ hawait (beq_self_eq_true job.request)
    exact (Nat.le_add_right _ _).trans (hS.dispatches job.request)
  have hother {job' : Job} (howner' : s.owner job'.id = job'.request) (hi : i.dispatches job'.request) :
      job'.id ≠ res.result.jobID := by
    intro heq
    rw [heq, hid, howner] at howner'
    cases hnot.symm.trans (howner' ▸ hi)
  rw [Instr.unpends.eq_def]
  split
  · next k res' =>
    rintro ⟨rfl, -⟩
    have hconn := not_of_countP_le_one (hS.conn k) hj
      (Instr.connOf_of_handlerOf (Instr.handlerOf_of_readerOf (Instr.readerOf_of_concludes hres)))
    simp [Instr.connOf, Instr.handlerOf, Instr.readerOf] at hconn
  · next k cause =>
    rintro rfl
    exact hfail cause rfl
  · exact fun hi ↦ hother (hself _ (List.mem_singleton_self _)) (beq_self_eq_true _) hi.2
  · exact fun hi ↦ hother (hself _ (List.mem_singleton_self _)) (beq_self_eq_true _) hi.2
  · exact fun hi ↦ hother (hself _ (List.mem_singleton_self _)) (beq_self_eq_true _) hi.2
  · exact id

theorem Dispatching.own_step (hD : Dispatching s (i ::ₘ R) o h job ch res v i) (hS : Sound s (i ::ₘ R))
    (he : controlPlane.exec s i x = some e) (hne : i ≠ .await o h job ch) :
    ∃ v' < v, ∃ j', Dispatching e.shared (e.fresh + R) o h job ch res v' j' ∧
      ∀ k, i.ends k → Sealed e.shared (e.fresh + R) k ∨ j'.ends k := by
  have hs := step_of_exec he
  have hmem : .await o h job ch ∈ e.fresh + R :=
    Multiset.mem_add.mpr (.inr ((Multiset.mem_cons.mp hD.await_mem).resolve_left (Ne.symm hne)))
  cases hD with
  | concluding _ _ hres hpending =>
    cases hs with
    | forwardLast k k' c res' =>
      obtain ⟨rfl, rfl⟩ : k = h ∧ res' = res := by simpa [Instr.concludes] using hres
      refine ⟨207, Nat.lt_succ_self 207, .closeLast k k' res', ?_, fun _ ↦ .inr⟩
      exact .concluding (j := .closeLast k k' res') hmem (by simp) rfl hpending
    | closeLast k k' res' =>
      obtain ⟨rfl, rfl⟩ : k = h ∧ res' = res := by simpa [Instr.concludes] using hres
      refine ⟨206, Nat.lt_succ_self 206, .resolve k res', ?_, fun _ hends ↦ .inl ?_⟩
      · exact .concluding (j := .resolve k res') hmem (by simp) rfl hpending
      · exact sealed_of_closeLast hS (step_of_exec he) (by rw [eq_of_beq hends])
    | @resolve k k' res' hp =>
      obtain ⟨rfl, rfl⟩ : k = h ∧ res' = res := by simpa [Instr.concludes] using hres
      obtain rfl : k' = ch := Option.some.inj (hp.symm.trans hpending)
      exact ⟨205, Nat.lt_succ_self 205, .deliver k k' res', .delivering hmem (by simp), nofun⟩
    | @unknownJob k res' hp =>
      obtain ⟨rfl, rfl⟩ : k = h ∧ res' = res := by simpa [Instr.concludes] using hres
      cases hp.symm.trans hpending
    | quit hq =>
      cases i with
      | forwardLast | closeLast | resolve => cases hq
      | _ => cases hres
    | _ => cases hres
  | delivering _ hj =>
    have hnil := hS.sent_nil (.inr ⟨_, hj, beq_self_eq_true ch⟩)
    cases hs with
    | quit hq => cases hq
    | deliver hc =>
      refine ⟨204, by decide, _, .waiting hmem ?_, nofun⟩
      rw [Server.setResult_self]
      exact Chan.sole_of_send hc hnil
  | waiting => exact absurd rfl hne

theorem Dispatching.stable (hD : Dispatching s (i ::ₘ R) o h job ch res v j) (hS : Sound s (i ::ₘ R))
    (hs : Step s i x e) (hij : i ≠ j) (hne : i ≠ .await o h job ch)
    (hfail : ∀ cause, i = .fail h cause → ∀ k ∈ i ::ₘ R, ∀ p ∈ k.concludes, p.1 ≠ h) :
    Dispatching e.shared (e.fresh + R) o h job ch res v j := by
  have hkeep {k : Instr} (hk : k ∈ i ::ₘ R) (hik : i ≠ k) : k ∈ R :=
    (Multiset.mem_cons.mp hk).resolve_left (Ne.symm hik)
  have hin {k : Instr} (hk : k ∈ R) : k ∈ e.fresh + R := Multiset.mem_add.mpr (.inr hk)
  cases hD with
  | concluding hawait hj hres hpending =>
    refine .concluding (hin (hkeep hawait hne)) (hin (hkeep hj hij)) hres ?_
    have hfeeds : s.Feeds ch job := hS.wires _ hawait
    have hid := hfeeds.id_eq (hS.wired.pending h _ ch hpending)
    refine hs.pending_stays ?_ hpending ?_
    · exact (Nat.lt_succ_of_le (hS.known _ hawait h rfl)).ne
    · exact hS.not_unpends (hkeep hawait hne) (hkeep hj hij) hres hid
        fun cause heq ↦ hfail cause heq j hj _ hres rfl
  | delivering hawait hj => exact .delivering (hin (hkeep hawait hne)) (hin (hkeep hj hij))
  | waiting hawait hsole =>
    have htakes := not_of_countP_le_one (hS.takes ch) (hkeep hawait hne) (beq_self_eq_true ch)
    refine .waiting (hin (hkeep hawait hne)) (hS.result_stays hs hsole (Bool.eq_false_iff.mpr fun hrecv ↦ ?_))
    cases htakes.symm.trans (Instr.takes_of_receives hrecv)

theorem Dispatching.received (hD : Dispatching s S o h job ch res v j) (hS : Sound s S) {res' : Outcome}
    {c : Chan Outcome} (hc : (s.results ch).recv = some (res', c)) : res' = res ∧ j = .await o h job ch := by
  have hsome : (s.results ch).sent ≠ [] := by
    intro hnil
    cases (Chan.recv_of_nil hnil).symm.trans hc
  cases hD with
  | concluding _ _ _ hpending => exact absurd (hS.sent_nil (.inl (hS.atHome.promising_pos hpending))) hsome
  | delivering _ hj => exact absurd (hS.sent_nil (.inr ⟨_, hj, beq_self_eq_true ch⟩)) hsome
  | waiting _ hsole => exact ⟨hsole.recv_eq hc, rfl⟩

end Dispatch

section Waiter

inductive Notifying (s : Server) (S : Multiset Instr) (job : Job) (ch : ℕ) (res : Outcome) : ℕ → Instr → Prop
  | resolving (hawait : .awaitWaiter job ch ∈ S) (hj : .resolveWaiter res ∈ S)
      (hwaiter : s.waiters.lookup res.result.jobID = some ch) : Notifying s S job ch res 202 (.resolveWaiter res)
  | delivering (hawait : .awaitWaiter job ch ∈ S) (hj : .deliverWaiter ch res ∈ S) :
      Notifying s S job ch res 201 (.deliverWaiter ch res)
  | waiting (hawait : .awaitWaiter job ch ∈ S) (hsole : (s.results ch).Sole res) :
      Notifying s S job ch res 200 (.awaitWaiter job ch)

theorem Notifying.await_mem (hN : Notifying s S job ch res v j) : .awaitWaiter job ch ∈ S := by
  cases hN with
  | resolving hawait | delivering hawait | waiting hawait => exact hawait

theorem Notifying.ready (hN : Notifying s S job ch res v j) (hS : Sound s S) :
    j ∈ S ∧ (j.bulk = false ∨ j.places) ∧ j ≠ .place ∧ (controlPlane.exec s j .go).isSome := by
  cases hN with
  | resolving _ hj hwaiter =>
    refine ⟨hj, .inl rfl, by simp, ?_⟩
    simp [controlPlane, exec, execPlace, hwaiter]
  | delivering _ hj =>
    refine ⟨hj, .inr rfl, by simp, delivers_enabled (beq_self_eq_true ch) (hS.result_cap ch) ?_⟩
    rw [hS.sent_nil (.inr ⟨_, hj, beq_self_eq_true ch⟩)]
    exact Nat.zero_le _
  | waiting hawait hsole =>
    refine ⟨hawait, .inl rfl, by simp, ?_⟩
    simpa [controlPlane, exec, execSubmit] using hsole.recv_isSome

theorem awaitWaiter_cases (he : controlPlane.exec s i x = some e) (hi : i = .awaitWaiter job ch)
    (hlive : s.gone job.request = false) : ∃ res c, (s.results ch).recv = some (res, c) ∧ x = .go := by
  subst hi
  cases x <;> simp only [controlPlane, exec, execSubmit, reduceCtorEq] at he
  · obtain ⟨⟨res, c⟩, hc, -⟩ := Option.map_eq_some_iff.mp he
    exact ⟨res, c, hc, rfl⟩
  · rw [if_neg (by simp [hlive])] at he
    cases he

theorem Notifying.own_step (hN : Notifying s (i ::ₘ R) job ch res v i) (hS : Sound s (i ::ₘ R))
    (he : controlPlane.exec s i x = some e) (hne : i ≠ .awaitWaiter job ch) :
    ∃ v' < v, ∃ j', Notifying e.shared (e.fresh + R) job ch res v' j' := by
  have hmem : .awaitWaiter job ch ∈ e.fresh + R :=
    Multiset.mem_add.mpr (.inr ((Multiset.mem_cons.mp hN.await_mem).resolve_left (Ne.symm hne)))
  cases hN with
  | resolving _ _ hwaiter =>
    cases x <;> simp only [controlPlane, exec, execPlace, hwaiter, reduceCtorEq, Option.some.injEq] at he
    subst he
    exact ⟨201, by decide, _, .delivering hmem (by simp)⟩
  | delivering _ hj =>
    have hnil := hS.sent_nil (.inr ⟨_, hj, beq_self_eq_true ch⟩)
    cases step_of_exec he with
    | quit hq => cases hq
    | deliverWaiter hc =>
      refine ⟨200, by decide, _, .waiting hmem ?_⟩
      rw [Server.setResult_self]
      exact Chan.sole_of_send hc hnil
  | waiting => exact absurd rfl hne

theorem Notifying.stable (hN : Notifying s (i ::ₘ R) job ch res v j) (hS : Sound s (i ::ₘ R))
    (hs : Step s i x e) (hstop : s.placeStop = false) (hij : i ≠ j) (hne : i ≠ .awaitWaiter job ch) :
    Notifying e.shared (e.fresh + R) job ch res v j := by
  have hkeep {k : Instr} (hk : k ∈ i ::ₘ R) (hik : i ≠ k) : k ∈ R :=
    (Multiset.mem_cons.mp hk).resolve_left (Ne.symm hik)
  have hin {k : Instr} (hk : k ∈ R) : k ∈ e.fresh + R := Multiset.mem_add.mpr (.inr hk)
  cases hN with
  | resolving hawait hj hwaiter =>
    have hfeeds : s.Feeds ch job := hS.wires _ hawait
    have hid := hfeeds.id_eq (hS.wired.waiters _ ch hwaiter)
    refine .resolving (hin (hkeep hawait hne)) (hin (hkeep hj hij)) (hs.waiter_stays hwaiter ?_)
    rw [hid]
    refine not_unwaits hstop hS.owns hS.waits (hS.traces i (Multiset.mem_cons_self i R)) (hkeep hawait hne)
      (beq_self_eq_true _) (hS.owns _ hawait _ (List.mem_singleton_self _)) ?_
    -- the loop has one result at a time
    rintro res' rfl
    cases not_of_countP_le_one hS.busy (hkeep hj hij) rfl
  | delivering hawait hj => exact .delivering (hin (hkeep hawait hne)) (hin (hkeep hj hij))
  | waiting hawait hsole =>
    have htakes := not_of_countP_le_one (hS.takes ch) (hkeep hawait hne) (beq_self_eq_true ch)
    refine .waiting (hin (hkeep hawait hne)) (hS.result_stays hs hsole (Bool.eq_false_iff.mpr fun hrecv ↦ ?_))
    cases htakes.symm.trans (Instr.takes_of_receives hrecv)

theorem Notifying.received (hN : Notifying s S job ch res v j) (hS : Sound s S) {res' : Outcome}
    {c : Chan Outcome} (hc : (s.results ch).recv = some (res', c)) : res' = res := by
  have hsome : (s.results ch).sent ≠ [] := by
    intro hnil
    cases (Chan.recv_of_nil hnil).symm.trans hc
  cases hN with
  | resolving _ _ hwaiter => exact absurd (hS.silent _ ch hwaiter).1 hsome
  | delivering _ hj => exact absurd (hS.sent_nil (.inr ⟨_, hj, beq_self_eq_true ch⟩)) hsome
  | waiting _ hsole => exact hsole.recv_eq hc

end Waiter

section Stream

def Tended (S : Multiset Instr) (r : ℕ) (P : ℕ → Prop) : Prop :=
  ∃ j ∈ S, j.tends r ∧ ∀ p ∈ j.relays, P p.2.2

theorem Step.tends_kept (hs : Step s i x e) (hi : i.tends r) (hlive : s.gone r = false)
    (hset : ∀ job, i ≠ .settle job) : ∃ j ∈ e.fresh, j.tends r ∧ ∀ p ∈ j.relays, p ∈ i.relays := by
  induction hs with
  | relayGone _ _ hg | emitGone _ _ _ hg =>
    obtain rfl := eq_of_beq hi
    cases hlive.symm.trans hg
  | relayEnd => exact ⟨_, Effect.mem_fresh.mpr (.inl List.mem_cons_self), hi, nofun⟩
  | relay | emit => exact ⟨_, Effect.mem_fresh.mpr (.inl List.mem_cons_self), hi, fun _ h ↦ h⟩
  | @settle job => exact absurd rfl (hset job)
  | @quit i x hq =>
    cases i with
    | relay | emit | settle => cases hq
    | _ => cases hi
  | _ => cases hi

theorem Tended.step {P Q : ℕ → Prop} (hT : Tended (i ::ₘ R) r P) (hs : Step s i x e)
    (hlive : s.gone r = false) (hset : ∀ job, i = .settle job → job.request ≠ r)
    (hPQ : ∀ ch, P ch → Q ch) : Tended (e.fresh + R) r Q := by
  obtain ⟨j, hj, htends, hrelays⟩ := hT
  rcases Multiset.mem_cons.mp hj with rfl | hj
  · have hnot (job : Job) : j ≠ .settle job := by
      rintro rfl
      exact hset job rfl (eq_of_beq htends)
    obtain ⟨k, hk, hktends, hkrelays⟩ := hs.tends_kept htends hlive hnot
    exact ⟨k, Multiset.mem_add.mpr (.inl hk), hktends, fun p hp ↦ hPQ _ (hrelays p (hkrelays p hp))⟩
  · exact ⟨j, Multiset.mem_add.mpr (.inr hj), htends, fun p hp ↦ hPQ _ (hrelays p hp)⟩

/-- What the copying goroutine still has to do before it settles: the chunks left on its channel,
and, for the one in hand, room on the channel to the handler. -/
inductive Relaying (s : Server) (S : Multiset Instr) (r : ℕ) : ℕ → Instr → Prop
  | settling {job : Job} (hj : .settle job ∈ S) (hr : job.request = r) : Relaying s S r 0 (.settle job)
  | relaying {h ch : ℕ} {job : Job} (hj : .relay h job ch ∈ S) (hr : job.request = r) (hL : Sealed s S ch) :
      Relaying s S r (3 * (s.observed ch).buffered.length + 1) (.relay h job ch)
  | emitting {h ch : ℕ} {job : Job} {c : Produced} (hj : .emit h job ch c ∈ S) (hr : job.request = r)
      (hL : Sealed s S ch) (hroom : (s.out r).sent.length < (s.out r).taken + (s.out r).cap) :
      Relaying s S r (3 * (s.observed ch).buffered.length + 2) (.emit h job ch c)
  | blocked {h ch : ℕ} {job : Job} {c : Produced} (hj : .emit h job ch c ∈ S) (hr : job.request = r)
      (hL : Sealed s S ch) (hfull : ¬ (s.out r).sent.length < (s.out r).taken + (s.out r).cap) :
      Relaying s S r (3 * (s.observed ch).buffered.length + 3) (.consume r)

theorem relaying_of_emit {c : Produced} (hj : .emit h job ch c ∈ S) (hr : job.request = r) (hL : Sealed s S ch) :
    ∃ v ≤ 3 * (s.observed ch).buffered.length + 3, ∃ j, Relaying s S r v j := by
  by_cases hroom : (s.out r).sent.length < (s.out r).taken + (s.out r).cap
  · exact ⟨_, by omega, _, .emitting hj hr hL hroom⟩
  · exact ⟨_, le_rfl, _, .blocked hj hr hL hroom⟩

theorem Tended.relaying (hT : Tended S r (Sealed s S)) (hcap : ∀ ch, (s.observed ch).cap = 64) :
    ∃ v < 200, ∃ j, Relaying s S r v j := by
  obtain ⟨j, hj, htends, hrelays⟩ := hT
  have hbound (ch : ℕ) : (s.observed ch).buffered.length ≤ 64 := by
    have hfits := (s.observed ch).fits
    rw [hcap ch] at hfits
    rw [Chan.buffered, List.length_drop]
    omega
  cases j with
  | settle job => exact ⟨0, by decide, _, .settling hj (eq_of_beq htends)⟩
  | relay h job ch =>
    have := hbound ch
    exact ⟨_, by omega, _, .relaying hj (eq_of_beq htends) (hrelays _ rfl)⟩
  | emit h job ch c =>
    have := hbound ch
    obtain ⟨v, hv, k, hR⟩ := relaying_of_emit hj (eq_of_beq htends) (hrelays _ rfl)
    exact ⟨v, by omega, k, hR⟩
  | _ => cases htends

theorem Relaying.ready (hR : Relaying s S r v j) (hS : Sound s S) (hlive : s.gone r = false)
    (hfinished : (s.finished r).Sole res) :
    j ∈ S ∧ j.bulk = false ∧ j ≠ .place ∧ (controlPlane.exec s j .go).isSome := by
  cases hR with
  | settling hj hr =>
    refine ⟨hj, rfl, by simp, ?_⟩
    simpa [controlPlane, exec, execRelay, hr] using hfinished.recv_isSome
  | @relaying h ch _ hj _ hL =>
    refine ⟨hj, rfl, by simp, ?_⟩
    by_cases hmore : (s.observed ch).taken < (s.observed ch).sent.length
    · exact exec_relay_isSome hmore
    · have hle := (s.observed ch).taken_le
      have hdrained : (s.observed ch).drained := by
        rw [Chan.drained, hL.1, Bool.true_and, beq_iff_eq]
        omega
      simp [controlPlane, exec, execRelay, hdrained]
  | emitting hj hr _ hroom =>
    refine ⟨hj, rfl, by simp, ?_⟩
    subst hr
    exact Option.isSome_map.trans (Chan.send_isSome hroom)
  | blocked hj hr _ hfull =>
    have hin := (hS.consumed r _ hj (beq_iff_eq.mpr hr)).resolve_left (by simp [hlive])
    have hcap := hS.out_cap r
    exact ⟨hin, rfl, by simp, exec_consume_isSome (by omega)⟩

theorem Relaying.tends (hR : Relaying s S r v j) : ∃ k ∈ S, k.tends r := by
  cases hR with
  | settling hj hr | relaying hj hr | emitting hj hr | blocked hj hr => exact ⟨_, hj, beq_iff_eq.mpr hr⟩

theorem Instr.pays_of_tends (hi : i.tends r) : i.pays r := by
  cases i with
  | relay | emit | settle => exact hi
  | _ => cases hi

theorem Instr.takes_of_relays {jobID : String} (hi : i.relays = some (h, jobID, ch)) : i.takes ch := by
  cases i with
  | relay | emit =>
    obtain ⟨-, -, rfl⟩ : _ = h ∧ _ = jobID ∧ _ = ch := by simpa [relays] using hi
    exact beq_self_eq_true _
  | _ => cases hi

theorem Sealed.buffered_eq (hL : Sealed s (i ::ₘ R) ch) (hS : Sound s (i ::ₘ R))
    (he : controlPlane.exec s i x = some e) {jobID : String} (hj : j ∈ R) (hrelays : j.relays = some (h, jobID, ch)) :
    (e.shared.observed ch).buffered = (s.observed ch).buffered := by
  have hnot := not_of_countP_le_one (hS.takes ch) hj (Instr.takes_of_relays hrelays)
  rw [Chan.buffered, Chan.buffered, (hL.step hS he).2]
  rcases (step_of_exec he).taken_cases ch with hsame | ⟨k, job, rfl⟩
  · rw [hsame]
  · cases hnot.symm.trans (beq_self_eq_true ch)

theorem Relaying.own_step (hR : Relaying s (i ::ₘ R) r v j) (hS : Sound s (i ::ₘ R))
    (he : controlPlane.exec s i x = some e) (hlive : s.gone r = false) (hi : i.tends r)
    (hset : ∀ job, i ≠ .settle job) : ∃ v' < v, ∃ j', Relaying e.shared (e.fresh + R) r v' j' := by
  have hself {k : Instr} (hk : k ∈ i ::ₘ R) (htends : k.tends r) : i = k :=
    eq_of_countP_le_one (hS.pays r) (Multiset.mem_cons_self i R) hk (Instr.pays_of_tends hi)
      (Instr.pays_of_tends htends)
  cases hR with
  | settling hj hr => exact absurd (hself hj (beq_iff_eq.mpr hr)) (hset _)
  | @relaying h ch job hj hr hL =>
    obtain rfl := hself hj (beq_iff_eq.mpr hr)
    have hL' := (hL.step hS he).1
    cases step_of_exec he with
    | quit hq => cases hq
    | relayGone _ _ hg =>
      subst hr
      cases hlive.symm.trans hg
    | relayEnd => exact ⟨0, Nat.succ_pos _, _, .settling (by simp) hr⟩
    | @relay _ _ _ c chan hc =>
      have hemit : .emit h job ch c ∈ [Instr.emit h job ch c] + R := by simp
      obtain ⟨v', hv', j', hR'⟩ := relaying_of_emit hemit hr hL'
      refine ⟨v', ?_, j', hR'⟩
      have hlength := congrArg List.length (Chan.buffered_of_recv hc)
      simp only [Server.setObserved, Function.update_self] at hv'
      rw [List.length_cons] at hlength
      omega
  | @emitting h _ _ _ hj hr hL hroom =>
    obtain rfl := hself hj (beq_iff_eq.mpr hr)
    have hL' := (hL.step hS he).1
    cases step_of_exec he with
    | quit hq => cases hq
    | emitGone _ _ _ hg =>
      subst hr
      cases hlive.symm.trans hg
    | emit => exact ⟨_, Nat.lt_succ_self _, _, .relaying (h := h) (by simp) hr hL'⟩
  | blocked hj hr hL hfull =>
    obtain rfl := hself hj (beq_iff_eq.mpr hr)
    cases step_of_exec he with
    | quit hq => cases hq
    | emitGone _ _ _ hg =>
      subst hr
      cases hlive.symm.trans hg
    | emit hc =>
      subst hr
      exact absurd (Chan.send_some hc).1 hfull

theorem room_of_consume (hs : Step s (.consume r) x e) (hcap : (s.out r).cap = 64)
    (hfull : ¬ (s.out r).sent.length < (s.out r).taken + (s.out r).cap) :
    (e.shared.out r).sent.length < (e.shared.out r).taken + (e.shared.out r).cap := by
  have hfits := (s.out r).fits
  cases hs with
  | quit hq => cases hq
  | consumeEnd hd =>
    have htaken := (Bool.and_eq_true_iff.mp hd).2
    rw [beq_iff_eq] at htaken
    omega
  | consume hc | consumeError hc =>
    obtain ⟨-, hsent, htaken, -, hc⟩ := Chan.recv_some hc
    simp only [Function.update_self]
    rw [hsent, htaken, hc]
    omega

theorem Relaying.other_step (hR : Relaying s (i ::ₘ R) r v j) (hS : Sound s (i ::ₘ R))
    (he : controlPlane.exec s i x = some e) (hi : i.tends r = false) :
    (∃ v' < v, ∃ j', Relaying e.shared (e.fresh + R) r v' j') ∨
      i ≠ j ∧ Relaying e.shared (e.fresh + R) r v j := by
  have hs := step_of_exec he
  have hne {k : Instr} (hr : k.tends r) : i ≠ k := by
    rintro rfl
    cases hi.symm.trans hr
  have hkeep {k : Instr} (hk : k ∈ i ::ₘ R) (hr : k.tends r) : k ∈ R :=
    (Multiset.mem_cons.mp hk).resolve_left (hne hr).symm
  have hin {k : Instr} (hk : k ∈ R) : k ∈ e.fresh + R := Multiset.mem_add.mpr (.inr hk)
  cases hR with
  | settling hj hr =>
    have htends := beq_iff_eq.mpr hr
    exact .inr ⟨hne htends, .settling (hin (hkeep hj htends)) hr⟩
  | relaying hj hr hL =>
    have htends := beq_iff_eq.mpr hr
    rw [← hL.buffered_eq hS he (hkeep hj htends) rfl]
    exact .inr ⟨hne htends, .relaying (hin (hkeep hj htends)) hr (hL.step hS he).1⟩
  | emitting hj hr hL hroom =>
    have htends := beq_iff_eq.mpr hr
    rw [← hL.buffered_eq hS he (hkeep hj htends) rfl]
    refine .inr ⟨hne htends, .emitting (hin (hkeep hj htends)) hr (hL.step hS he).1 ?_⟩
    have hgrows := hs.out_grows r
    have htaken := hgrows.taken
    rcases hs.out_sent_cases r with hsent | ⟨k, job, ch, c, rfl, hr⟩
    · rw [hsent, hgrows.cap]
      omega
    · cases hi.symm.trans (beq_iff_eq.mpr hr)
  | blocked hj hr hL hfull =>
    have htends := beq_iff_eq.mpr hr
    have hj' := hin (hkeep hj htends)
    rw [← hL.buffered_eq hS he (hkeep hj htends) rfl]
    by_cases hroom : (e.shared.out r).sent.length < (e.shared.out r).taken + (e.shared.out r).cap
    · exact .inl ⟨_, Nat.lt_succ_self _, _, .emitting hj' hr (hL.step hS he).1 hroom⟩
    · refine .inr ⟨?_, .blocked hj' hr (hL.step hS he).1 hroom⟩
      rintro rfl
      exact hroom (room_of_consume hs (hS.out_cap r) hfull)

end Stream

end AgentGpu.ControlPlane
