import AgentGpu.ControlPlane.Provenance
import AgentGpu.Worker.Drain

namespace AgentGpu.Worker

open Foundation ControlPlane

def resolves (h : ℕ) (jobID : String) : Instr → Bool
  | .forwardLast k _ _ res | .closeLast k _ res | .resolve k res =>
    k == h && res.result.jobID == jobID
  | _ => false

def failsOn (ch : ℕ) : Instr → Bool
  | .failDeliver k _ | .failForward k _ => k == ch
  | _ => false

def passesOn (h : ℕ) : Instr → Option Outcome
  | .forwardLast k _ _ res | .closeLast k _ res | .resolve k res | .deliver k _ res =>
    if k = h then some res else none
  | _ => none

def FromWorker (p : Process) (res : Outcome) : Prop :=
  ∃ (w : ControlPlane.Worker) (last : Produced),
    last ∈ p.replied ∧ last.source.isSome ∧ res = w.assemble last

def Missed (p : Process) (job : Job) : Prop := p.ended ∧ jobTag job ∉ p.received.map jobTag

/-- What the server does with the jobs of stream `h`: a call whose terminal chunk it has read
gets its result, and only calls whose job the worker never received are failed. -/
structure Settled (h : ℕ) (s : Server) (S : Multiset Instr) (p : Process) : Prop where
  pending : ∀ jobID ch, (s.worker h).pending.lookup jobID = some ch →
    jobTag (s.jobOf ch) ∈ p.answered.map chunkTag → ∃ j ∈ S, resolves h jobID j
  observers : ∀ jobID ch, (s.worker h).observers.lookup jobID = some ch →
    jobTag (s.jobOf ch) ∉ p.answered.map chunkTag
  failing : ∀ j ∈ S, ∀ ch, failsOn ch j → s.home ch = h → Missed p (s.jobOf ch)
  genuine : ∀ j ∈ S, ∀ res, passesOn h j = some res → FromWorker p res
  results : ∀ ch, s.home ch = h → ∀ res ∈ (s.results ch).sent,
    FromWorker p res ∨ Missed p (s.jobOf ch)
  observed : ∀ ch, s.home ch = h → ∀ c ∈ (s.observed ch).sent,
    c.source ≠ none ∨ Missed p (s.jobOf ch)

section

variable {h : ℕ} {s : Server} {i : Instr} {x : Choice} {e : Effect Server Instr}
  {S R : Multiset Instr} {p p' : Process} {jobID : String} {ch : ℕ}

theorem FromWorker.mono {res : Outcome} (hf : FromWorker p res) (hreplied : p.replied ⊆ p'.replied) :
    FromWorker p' res := by
  obtain ⟨w, last, hlast, hsource, hres⟩ := hf
  exact ⟨w, last, hreplied hlast, hsource, hres⟩

theorem Missed.mono {job : Job} (hm : Missed p job) (hended : p.ended → p'.ended)
    (hreceived : p.ended → p'.received = p.received) : Missed p' job :=
  ⟨hended hm.1, by rw [hreceived hm.1]; exact hm.2⟩

theorem Settled.act (hS : Settled h s S p) (hL : Leaves h s S p) (hemits : Emits p) {d : Bool}
    {a : Action} (ha : p.act d a = some p') : Settled h s S p' := by
  obtain ⟨hanswered, hended, -⟩ := answered_of_act ha
  obtain ⟨-, hreplied⟩ := hemits.act ha
  obtain ⟨-, hreceived⟩ := turns_of_act ha
  have hmissed {job : Job} (hm : Missed p job) : Missed p' job := by
    refine hm.mono (hended ▸ id) fun hend ↦ hreceived.resolve_right ?_
    rintro ⟨hselect, -⟩
    rcases hL.stopped hend with hs | hs <;> cases hs.symm.trans hselect
  refine ⟨hanswered ▸ hS.pending, hanswered ▸ hS.observers, ?_, ?_, ?_, ?_⟩
  · exact fun j hj ch hfails hhome ↦ hmissed (hS.failing j hj ch hfails hhome)
  · exact fun j hj res hres ↦ (hS.genuine j hj res hres).mono hreplied
  · exact fun ch hhome res hres ↦
      (hS.results ch hhome res hres).imp (·.mono hreplied) hmissed
  · exact fun ch hhome c hc ↦ (hS.observed ch hhome c hc).imp_right hmissed

theorem history_of_hears (hp : Hears h s p i x p') :
    p'.replied = p.replied ∧ p'.received = p.received ∧ (p.ended → p'.ended) ∧
      (p'.answered = p.answered ∨ ∃ c, i = .read h ∧ x = .message (.chunk c) ∧
        c.chunk.done ∧ c ∈ p.stream ∧ p'.answered = c :: p.answered) := by
  cases hp with
  | other | write | read => exact ⟨rfl, rfl, id, .inl rfl⟩
  | @readLast c up hup hdone =>
    refine ⟨rfl, rfl, id, .inr ⟨c, rfl, rfl, hdone, ?_, rfl⟩⟩
    rw [stream_read hup]
    exact List.mem_cons_self
  | streamEnd | ctxDone => exact ⟨rfl, rfl, fun _ ↦ rfl, .inl rfl⟩

theorem resolves_kept (hs : Step s i x e) (hi : resolves h jobID i) :
    (∃ j ∈ e.fresh, resolves h jobID j) ∨ (e.shared.worker h).pending.lookup jobID = none := by
  cases hs with
  | forwardLast k ch c res => exact .inl ⟨.closeLast k ch res, by simp, hi⟩
  | closeLast k ch res => exact .inl ⟨.resolve k res, by simp, hi⟩
  | @unknownJob k res hp =>
    obtain ⟨rfl, rfl⟩ : k = h ∧ res.result.jobID = jobID := by simpa [resolves] using hi
    exact .inr hp
  | @resolve k ch res hp =>
    obtain ⟨rfl, rfl⟩ : k = h ∧ res.result.jobID = jobID := by simpa [resolves] using hi
    refine .inr ?_
    rw [Server.setWorker_self]
    exact AList.lookup_erase _ _
  | quit hq => cases i <;> first | cases hi | cases hq
  | _ => cases hi

theorem lastChunk_cases {c : Produced}
    (he : controlPlane.exec s (.read h) (.message (.chunk c)) = some e) (hdone : c.chunk.done) :
    (e.shared.worker h).observers.lookup c.chunk.jobID = none ∧
      ∃ j, e.fresh = {j} ∧ resolves h c.chunk.jobID j ∧
        passesOn h j = some ((s.worker h).assemble c) := by
  cases hobs : (s.worker h).observers.lookup c.chunk.jobID with
  | none =>
    simp only [controlPlane, exec, execStream, handleMessage, hdone, hobs, if_true] at he
    cases he
    refine ⟨?_, .resolve h ((s.worker h).assemble c), by simp [Effect.fresh], ?_, ?_⟩
    · simp [ControlPlane.Worker.finish]
    · simp [resolves, ControlPlane.Worker.assemble]
    · simp [passesOn]
  | some ch =>
    simp only [controlPlane, exec, execStream, handleMessage, hdone, hobs, if_true] at he
    cases he
    refine ⟨?_, .forwardLast h ch c ((s.worker h).assemble c), by simp [Effect.fresh], ?_, ?_⟩
    · simp [ControlPlane.Worker.finish]
    · simp [resolves, ControlPlane.Worker.assemble]
    · simp [passesOn]

theorem not_answered_of_hands (hP : Piped h s p)
    (hands : ∀ r, (i ::ₘ R).countP (·.hands r) + s.queued r +
      (s.worker h).given.countP (·.request == r) ≤ if r < s.requests then 1 else 0)
    {job : Job} (hi : i.hands job.request) : jobTag job ∉ p.answered.map chunkTag := by
  intro htag
  obtain ⟨c, hc, heq⟩ := List.mem_map.mp htag
  obtain ⟨job', hjob', htag'⟩ := List.mem_map.mp (hP.answered c hc)
  have hrequest : job'.request = job.request :=
    Option.some.inj (Prod.ext_iff.mp (htag'.trans heq)).2
  have hgiven : 0 < (s.worker h).given.countP (·.request == job.request) :=
    List.countP_pos_iff.mpr ⟨job', (taken_isPrefix _).subset hjob', beq_iff_eq.mpr hrequest⟩
  have hle := hands job.request
  rw [Multiset.countP_cons, if_pos hi] at hle
  split at hle <;> omega

end

section

variable {h : ℕ} {s : Server} {i : Instr} {x : Choice} {e : Effect Server Instr}
  {R : Multiset Instr} {p p' : Process}
  (hS : Settled h s (i ::ₘ R) p) (he : controlPlane.exec s i x = some e)
  (hp : Hears h s p i x p') (hP : Piped h s p) (hwired : Wired s)
  (hands : ∀ r, (i ::ₘ R).countP (·.hands r) + s.queued r +
    (s.worker h).given.countP (·.request == r) ≤ if r < s.requests then 1 else 0)

include hS he hp hP hwired hands

theorem Settled.pending_step {jobID : String} {ch : ℕ}
    (hl : (e.shared.worker h).pending.lookup jobID = some ch)
    (htag : jobTag (e.shared.jobOf ch) ∈ p'.answered.map chunkTag) :
    ∃ j ∈ e.fresh + R, resolves h jobID j := by
  have hs := step_of_exec he
  obtain ⟨-, -, -, hanswered⟩ := history_of_hears hp
  rcases hs.pending_cases hl with hold | ⟨o, job, rfl, rfl, rfl⟩
  · obtain ⟨-, -, hjob⟩ := hs.chan_stable (hwired.pending h jobID ch hold).1
    rw [hjob] at htag
    have hbefore (htag : jobTag (s.jobOf ch) ∈ p.answered.map chunkTag) :
        ∃ j ∈ e.fresh + R, resolves h jobID j := by
      obtain ⟨j, hj, hr⟩ := hS.pending jobID ch hold htag
      rcases Multiset.mem_cons.mp hj with rfl | hj
      · rcases resolves_kept hs hr with ⟨k, hk, hr⟩ | hnone
        · exact ⟨k, Multiset.mem_add.mpr (.inl hk), hr⟩
        · cases hnone.symm.trans hl
      · exact ⟨j, Multiset.mem_add.mpr (.inr hj), hr⟩
    rcases hanswered with hsame | ⟨c, rfl, rfl, hdone, -, hnew⟩
    · exact hbefore (hsame ▸ htag)
    · rw [hnew, List.map_cons, List.mem_cons] at htag
      rcases htag with htag | htag
      · obtain ⟨-, j, hfresh, hr, -⟩ := lastChunk_cases he hdone
        have hid : c.chunk.jobID = jobID := by
          rw [← (hwired.pending h jobID ch hold).2]
          exact (Prod.ext_iff.mp htag).1.symm
        exact ⟨j, Multiset.mem_add.mpr (.inl (hfresh ▸ Multiset.mem_singleton_self j)), hid ▸ hr⟩
      · exact hbefore htag
  · rcases hanswered with hsame | ⟨_, hread, -⟩
    · have hjob : e.shared.jobOf s.nextChan = job := by
        cases hs with
        | quit hq => cases hq
        | addPending => exact Function.update_self ..
      rw [hjob, hsame] at htag
      exact absurd htag (not_answered_of_hands hP hands (beq_self_eq_true _))
    · cases hread

theorem Settled.observers_step {jobID : String} {ch : ℕ}
    (hl : (e.shared.worker h).observers.lookup jobID = some ch) :
    jobTag (e.shared.jobOf ch) ∉ p'.answered.map chunkTag := by
  have hs := step_of_exec he
  obtain ⟨-, -, -, hanswered⟩ := history_of_hears hp
  rcases hs.observer_cases hl with hold | ⟨job, rfl, rfl, rfl⟩
  · obtain ⟨-, -, hjob⟩ := hs.chan_stable (hwired.observers h jobID ch hold).1
    have hbefore := hS.observers jobID ch hold
    rw [hjob]
    rcases hanswered with hsame | ⟨c, rfl, rfl, hdone, -, hnew⟩
    · rwa [hsame]
    · rw [hnew, List.map_cons, List.mem_cons, not_or]
      refine ⟨fun htag ↦ ?_, hbefore⟩
      obtain ⟨hnone, -⟩ := lastChunk_cases he hdone
      have hid : c.chunk.jobID = jobID := by
        rw [← (hwired.observers h jobID ch hold).2]
        exact (Prod.ext_iff.mp htag).1.symm
      cases (hid ▸ hnone).symm.trans hl
  · rcases hanswered with hsame | ⟨_, hread, -⟩
    · have hjob : e.shared.jobOf s.nextChan = job := by
        cases hs with
        | quit hq => cases hq
        | addObserver => exact Function.update_self ..
      rw [hjob, hsame]
      exact not_answered_of_hands hP hands (beq_self_eq_true _)
    · cases hread

end

section

variable {h : ℕ} {s : Server} {i : Instr} {x : Choice} {e : Effect Server Instr}
  {R : Multiset Instr} {p p' : Process} {ch : ℕ}

theorem failsOn_fresh (hs : Step s i x e) : ∀ j ∈ e.fresh, failsOn ch j →
    ∃ k cause, i = .fail k cause ∧ ∃ jobID, (s.worker k).pending.lookup jobID = some ch ∨
      (s.worker k).observers.lookup jobID = some ch := by
  intro j hj hfails
  have hleft := hs.leaves j hj
  cases j with
  | failDeliver k res =>
    obtain rfl := beq_iff_eq.mp hfails
    obtain ⟨h, cause, id, hi, hl, -⟩ := hleft
    exact ⟨h, cause, hi, id, .inl hl⟩
  | failForward k c =>
    obtain rfl := beq_iff_eq.mp hfails
    obtain ⟨h, cause, id, hi, hl, -⟩ := hleft
    exact ⟨h, cause, hi, id, .inr hl⟩
  | _ => cases hfails

theorem handlerOf_of_resolves {jobID : String} {j : Instr} (hj : resolves h jobID j) :
    j.handlerOf h := by
  cases j <;> simp_all [resolves, Instr.handlerOf, Instr.readerOf]

theorem Settled.missed_of_fail (hS : Settled h s (i ::ₘ R) p) (hL : Leaves h s (i ::ₘ R) p)
    {cause : Cause} (hi : i = .fail h cause) {jobID : String}
    (hl : (s.worker h).pending.lookup jobID = some ch ∨
      (s.worker h).observers.lookup jobID = some ch) : Missed p (s.jobOf ch) := by
  have hend : p.ended := by
    refine hL.teardown i (Multiset.mem_cons_self i R) ?_
    rw [hi]
    exact beq_self_eq_true h
  refine ⟨hend, fun hreceived ↦ ?_⟩
  obtain ⟨job, hjob, htag⟩ := List.mem_map.mp hreceived
  have hanswered := (hL.kept job hjob).resolve_right fun hopen ↦ by simp [hend] at hopen
  rw [htag] at hanswered
  rcases hl with hl | hl
  · obtain ⟨j, hj, hr⟩ := hS.pending jobID ch hl hanswered
    exact (hL.reader hend).1 j hj (handlerOf_of_resolves hr)
  · exact hS.observers jobID ch hl hanswered

theorem passesOn_fresh (hs : Step s i x e) {res : Outcome} : ∀ j ∈ e.fresh, passesOn h j = some res →
    passesOn h i = some res ∨ i = .read h ∧
      ((∃ c, x = .message (.chunk c) ∧ c.chunk.done ∧ res = (s.worker h).assemble c) ∨
        x = .message (.result res)) := by
  intro j hj hpass
  have hleft := hs.leaves j hj
  cases j with
  | forwardLast k ch c res' =>
    obtain ⟨rfl, rfl⟩ : k = h ∧ res' = res := by simpa [passesOn] using hpass
    obtain ⟨hi, hx, hd, -, hres⟩ := hleft
    exact .inr ⟨hi, .inl ⟨c, hx, hd, hres⟩⟩
  | closeLast k ch res' =>
    obtain ⟨c, rfl⟩ := hleft
    exact .inl hpass
  | resolve k res' =>
    rcases hleft with ⟨hi, hx⟩ | ⟨c, hi, hx, hd, hres⟩ | ⟨ch, rfl⟩
    · obtain ⟨rfl, rfl⟩ : k = h ∧ res' = res := by simpa [passesOn] using hpass
      exact .inr ⟨hi, .inr hx⟩
    · obtain ⟨rfl, rfl⟩ : k = h ∧ res' = res := by simpa [passesOn] using hpass
      exact .inr ⟨hi, .inl ⟨c, hx, hd, hres⟩⟩
    · exact .inl hpass
  | deliver k ch res' =>
    obtain ⟨rfl, -⟩ := hleft
    exact .inl hpass
  | _ => cases hpass

end

section

variable {h : ℕ} {s : Server} {i : Instr} {x : Choice} {e : Effect Server Instr}
  {R : Multiset Instr} {p p' : Process} {ch : ℕ}
  (hS : Settled h s (i ::ₘ R) p) (hs : Step s i x e) (hp : Hears h s p i x p')

include hp in
theorem Missed.hears {job : Job} (hm : Missed p job) : Missed p' job := by
  obtain ⟨-, hreceived, hended, -⟩ := history_of_hears hp
  exact hm.mono hended fun _ ↦ hreceived

include hS hs hp in
theorem Settled.failing_step (hL : Leaves h s (i ::ₘ R) p) (hR : ∀ j ∈ R, j.Wired s)
    (hhome : ControlPlane.AtHome s) (hhomed : Homed s) {j : Instr}
    (hj : j ∈ e.fresh + R) (hfails : failsOn ch j) (hch : e.shared.home ch = h) :
    Missed p' (e.shared.jobOf ch) := by
  have hkept (hlt : ch < s.nextChan) (hm : s.home ch = h → Missed p (s.jobOf ch)) :
      Missed p' (e.shared.jobOf ch) := by
    obtain ⟨-, hhome', hjob⟩ := hs.chan_stable hlt
    rw [hjob]
    exact (hm (hhome'.symm.trans hch)).hears hp
  rcases Multiset.mem_add.mp hj with hj | hj
  · obtain ⟨k, cause, rfl, jobID, hl⟩ := failsOn_fresh hs j hj hfails
    have hat : ch < s.nextChan ∧ s.home ch = k :=
      hl.elim (hhome k jobID ch) (hhomed.observers k jobID ch)
    refine hkept hat.1 fun hh ↦ ?_
    obtain rfl : k = h := hat.2.symm.trans hh
    exact hS.missed_of_fail hL rfl hl
  · refine hkept ?_ (hS.failing j (Multiset.mem_cons_of_mem hj) ch hfails)
    have hw := hR j hj
    cases j with
    | failDeliver k res | failForward k c => exact beq_iff_eq.mp hfails ▸ hw.1
    | _ => cases hfails

include hS hs hp in
theorem Settled.genuine_step (hP : Piped h s p) {j : Instr} (hj : j ∈ e.fresh + R) {res : Outcome}
    (hpass : passesOn h j = some res) : FromWorker p' res := by
  obtain ⟨hreplied, -, -, hanswered⟩ := history_of_hears hp
  have hkept {k : Instr} (hk : k ∈ i ::ₘ R) (hpass : passesOn h k = some res) : FromWorker p' res :=
    (hS.genuine k hk res hpass).mono (hreplied ▸ List.Subset.refl _)
  rcases Multiset.mem_add.mp hj with hj | hj
  · rcases passesOn_fresh hs j hj hpass with hpass | ⟨rfl, ⟨c, rfl, hdone, rfl⟩ | rfl⟩
    · exact hkept (Multiset.mem_cons_self i R) hpass
    · have hc : c ∈ p.stream := by
        cases hp with
        | other _ hread => exact absurd rfl (hread rfl _)
        | read hup _ | readLast hup _ =>
          rw [stream_read hup]
          exact List.mem_cons_self
      obtain ⟨job, -, htag⟩ := List.mem_map.mp (hP.chunks c hc)
      refine ⟨s.worker h, c, hreplied ▸ hP.replied c hc hdone, ?_, rfl⟩
      rw [← show some job.request = c.source from (Prod.ext_iff.mp htag).2]
      rfl
    · cases hp with
      | other _ hread => exact absurd rfl (hread rfl _)
      | read hup _ =>
        refine absurd ?_ (hP.plain res)
        rw [hup]
        exact List.mem_cons_self
  · exact hkept (Multiset.mem_cons_of_mem hj) hpass

include hS hs hp in
theorem Settled.results_step (hne : h ≠ 0) (hwired : Wired s) (hi : i.Wired s) (hat : i.AtHome s)
    (hch : e.shared.home ch = h) {res : Outcome} (hres : res ∈ (e.shared.results ch).sent) :
    FromWorker p' res ∨ Missed p' (e.shared.jobOf ch) := by
  obtain ⟨hreplied, -⟩ := history_of_hears hp
  have hself := Multiset.mem_cons_self i R
  have hkept (hlt : ch < s.nextChan) (hold : s.home ch = h → FromWorker p res ∨ Missed p (s.jobOf ch)) :
      FromWorker p' res ∨ Missed p' (e.shared.jobOf ch) := by
    obtain ⟨-, hhome, hjob⟩ := hs.chan_stable hlt
    rw [hjob]
    exact (hold (hhome.symm.trans hch)).imp (·.mono (hreplied ▸ List.Subset.refl _)) (·.hears hp)
  rcases hs.result_cases hres with hold | ⟨k, rfl⟩ | rfl | rfl
  · exact hkept (hwired.results ch res hold).1 fun hhome ↦ hS.results ch hhome res hold
  · refine hkept hi.1 fun hhome ↦ .inl (hS.genuine _ hself res ?_)
    exact if_pos (hat.2.symm.trans hhome)
  · exact hkept hi.1 fun hhome ↦ .inr (hS.failing _ hself ch (beq_self_eq_true ch) hhome)
  · exact hkept hi.1 fun hhome ↦ absurd (hhome.symm.trans hat.2) hne

include hS hs hp in
theorem Settled.observed_step (hwired : Wired s) (hi : i.Wired s) (htraced : i.Traced s)
    (hch : e.shared.home ch = h) {c : Produced} (hc : c ∈ (e.shared.observed ch).sent) :
    c.source ≠ none ∨ Missed p' (e.shared.jobOf ch) := by
  have hself := Multiset.mem_cons_self i R
  have hkept (hlt : ch < s.nextChan) (hold : s.home ch = h → c.source ≠ none ∨ Missed p (s.jobOf ch)) :
      c.source ≠ none ∨ Missed p' (e.shared.jobOf ch) := by
    obtain ⟨-, hhome, hjob⟩ := hs.chan_stable hlt
    rw [hjob]
    exact (hold (hhome.symm.trans hch)).imp_right (·.hears hp)
  rcases hs.observed_cases hc with hold | ⟨k, rfl⟩ | ⟨k, res, rfl⟩ | rfl
  · exact hkept (hwired.observed ch c hold).1 fun hhome ↦ hS.observed ch hhome c hold
  · exact .inl htraced
  · exact .inl htraced.1
  · exact hkept hi.1 fun hhome ↦ .inr (hS.failing _ hself ch (beq_self_eq_true ch) hhome)

end

section

variable {t : Time} {dur : Duration} {n h : ℕ} {c : Config Server Instr} {p : Process}

theorem settled_of_linked (hne : h ≠ 0)
    (hc : controlPlane.Linked (peer h) (ServerKeeps h) LeavesIdle (boot (new t dur n)) {} c p) :
    Settled h c.shared c.soup p := by
  refine hc.invariant (Settled h) ?_ ?_ ?_
  · constructor <;> simp [boot, new, Config.soup, failsOn, passesOn, Chan.make]
  · intro c p i x R e p' hc hsoup hS _ he hear
    have hs := step_of_exec he
    have hp := hears_of_hear hear
    have hP := piped_of_linked hc
    have hL := leaves_of_linked hc
    obtain ⟨hwired, hJ⟩ := wired_of_reaches hc.reaches
    have hands := hands_le_one hc.reaches h
    have htraced := (traced_of_runs (runs_of_linked hc)).2
    have hat := delivers_atHome hc.reaches
    have hhomed := (homed_of_reaches hc.reaches).1
    rw [hsoup] at hL hJ hands htraced hat
    have hself := Multiset.mem_cons_self i R
    refine ⟨fun _ _ ↦ hS.pending_step he hp hP hwired hands, fun _ _ ↦
      hS.observers_step he hp hP hwired hands, fun j hj ch ↦ hS.failing_step hs hp hL
        (fun j hj ↦ hJ j (Multiset.mem_cons_of_mem hj)) (atHome_of_reaches hc.reaches) hhomed hj,
      fun j hj res ↦ hS.genuine_step hs hp hP hj, fun ch hch res ↦ ?_, fun ch hch b ↦ ?_⟩
    · exact hS.results_step hs hp hne hwired (hJ i hself) (hat i hself) hch
    · exact hS.observed_step hs hp hwired (hJ i hself) (htraced i hself) hch
  · intro c p a p' hc hS _ hact
    exact hS.act (leaves_of_linked hc) (piped_of_linked hc).emits hact

/-- The result that the worker had for the job: its terminal chunk, with what the server has
collected of the chunks before. -/
def Answers (p : Process) (job : Job) (res : Outcome) : Prop :=
  ∃ (w : ControlPlane.Worker) (last : Produced),
    last ∈ p.replied ∧ chunkTag last = jobTag job ∧ res = w.assemble last

theorem received_taken {s : Server} {S : Multiset Instr} (hL : Leaves h s S p) (hP : Piped h s p)
    {job : Job} (hjob : job ∈ p.received) : jobTag job ∈ (taken (s.worker h)).map jobTag := by
  rcases hL.kept job hjob with hanswered | ⟨-, -, hup | ⟨-, hstream | hheld⟩⟩
  · obtain ⟨last, hlast, htag⟩ := List.mem_map.mp hanswered
    exact htag ▸ hP.answered last hlast
  · refine hP.order.subset (List.mem_append_left _ ?_)
    rw [Process.stream, doneTags_append]
    exact List.mem_append_left _ hup
  · exact hP.order.subset (List.mem_append_left _ hstream)
  · refine hP.order.subset (List.mem_append_right _ (List.mem_map_of_mem ?_))
    exact List.mem_append_left _ hheld

variable (hne : h ≠ 0)
  (hc : controlPlane.Linked (peer h) (ServerKeeps h) LeavesIdle (boot (new t dur n)) {} c p)
  {job : Job} (hjob : job ∈ p.received) {ch : ℕ} (hlt : ch < c.shared.nextChan)

include hc hjob hlt in
theorem home_of_received (hhome : c.shared.home ch ≠ 0)
    (hrequest : (c.shared.jobOf ch).request = job.request) :
    c.shared.home ch = h ∧ jobTag (c.shared.jobOf ch) = jobTag job := by
  obtain ⟨job', hjob', htag⟩ := List.mem_map.mp (received_taken (leaves_of_linked hc)
    (piped_of_linked hc) hjob)
  have hrequest' : job'.request = job.request := Option.some.inj (Prod.ext_iff.mp htag).2
  have hsame := (settles_of_reaches hc.reaches ch hlt hhome).given h job'
    ((taken_isPrefix _).subset hjob') (hrequest'.trans hrequest.symm)
  obtain ⟨hh, rfl⟩ := Prod.ext_iff.mp hsame
  exact ⟨hh.symm, htag⟩

include hne hc hjob hlt in
theorem answers_of_results (hhome : c.shared.home ch ≠ 0)
    (hrequest : (c.shared.jobOf ch).request = job.request) {res : Outcome}
    (hres : res ∈ (c.shared.results ch).sent) : Answers p job res := by
  obtain ⟨hh, htag⟩ := home_of_received hc hjob hlt hhome hrequest
  have hsourced := (owned_of_runs (runs_of_linked hc)).2.1.results ch res hres
  have hserves := (wired_of_reaches hc.reaches).1.results ch res hres
  rcases (settled_of_linked hne hc).results ch hh res hres with hfrom | hmissed
  · obtain ⟨w, last, hlast, hsource, rfl⟩ := hfrom
    obtain ⟨r, hr⟩ := Option.isSome_iff_exists.mp hsource
    refine ⟨w, last, hlast, ?_, rfl⟩
    have hr' : r = (c.shared.jobOf ch).request :=
      hsourced r (List.mem_append_right _ (by simp [hr]))
    rw [← htag, chunkTag, jobTag, hr, hr']
    exact congrArg (·, _) hserves.2.symm
  · refine absurd ?_ hmissed.2
    rw [htag]
    exact List.mem_map_of_mem hjob

include hne hc hjob in
theorem result_there_of_ended (hend : p.ended) {o : Origin} (hwait : .await o h job ch ∈ c.soup) :
    (c.shared.results ch).taken < (c.shared.results ch).sent.length := by
  have hL := leaves_of_linked hc
  have hS := settled_of_linked hne hc
  obtain ⟨hlt, hjobOf⟩ : c.shared.Feeds ch job := (wired_of_reaches hc.reaches).2 _ hwait
  obtain ⟨-, hhome⟩ : h ≠ 0 ∧ c.shared.home ch = h :=
    (traced_of_runs (runs_of_linked hc)).2 _ hwait
  have hanswered := (hL.kept job hjob).resolve_right fun hopen ↦ by simp [hend] at hopen
  rcases due_of_runs (runs_of_linked hc) _ hwait h job.id ch rfl with hl | ⟨j, hj, hdelivers⟩ | hthere
  · obtain ⟨j, hj, hr⟩ := hS.pending job.id ch hl (hjobOf ▸ hanswered)
    exact absurd (handlerOf_of_resolves hr) ((hL.reader hend).1 j hj)
  · have hat := delivers_atHome hc.reaches j hj
    cases j with
    | deliver k k' res =>
      obtain rfl : k' = ch := beq_iff_eq.mp hdelivers
      refine absurd ?_ ((hL.reader hend).1 _ hj)
      exact beq_iff_eq.mpr (hat.2.symm.trans hhome)
    | failDeliver k res =>
      obtain rfl : k = ch := beq_iff_eq.mp hdelivers
      refine absurd ?_ (hS.failing _ hj k (beq_self_eq_true k) hhome).2
      rw [hjobOf]
      exact List.mem_map_of_mem hjob
    | deliverWaiter k res =>
      obtain rfl : k = ch := beq_iff_eq.mp hdelivers
      exact absurd (hhome.symm.trans hat.2) hne
    | _ => cases hdelivers
  · exact hthere

end

/-- Graceful shutdown, when the worker's loop is left only with nothing in hand: the terminal
chunk of every job it received is read before the stream ends, the call that waits for the job
finds the worker's result, and no caller gets anything else, from its own dispatch, through the
queue or as a stream. -/
theorem shutdown_loses_no_job {t : Time} {dur : Duration} {n k : ℕ} {c : Config Server Instr}
    {p : Process}
    (hc : controlPlane.Linked (peer (k + 1)) (ServerKeeps (k + 1)) LeavesIdle (boot (new t dur n)) {}
      c p) {job : Job} (hjob : job ∈ p.received) :
    (p.ended → ∃ last ∈ p.answered, chunkTag last = jobTag job) ∧
    (∀ o ch, p.ended → .await o (k + 1) job ch ∈ c.soup →
      ∃ res rest, (c.shared.results ch).recv = some (res, rest) ∧ Answers p job res) ∧
    (∀ o res, .finish o job (some res) ∈ c.soup → Answers p job res) ∧
    (∀ ch, c.shared.home ch = 0 → c.shared.jobOf ch = job → ∀ res ∈ (c.shared.results ch).sent,
      c.shared.placeStop ∨ ∃ r, Answers p job r ∧ res = placedResult job (some r)) ∧
    ∀ b ∈ (c.shared.out job.request).sent, b.source = some job.request := by
  have hne : k + 1 ≠ 0 := Nat.succ_ne_zero k
  obtain ⟨hT, htraced⟩ := traced_of_runs (runs_of_linked hc)
  refine ⟨fun hend ↦ ?_, fun o ch hend hwait ↦ ?_, fun o res hfinish ↦ ?_,
    fun ch hhome hjobOf res hres ↦ ?_, fun b hb ↦ ?_⟩
  · have hanswered := ((leaves_of_linked hc).kept job hjob).resolve_right
      fun hopen ↦ by simp [hend] at hopen
    simpa using List.mem_map.mp hanswered
  · obtain ⟨⟨res, rest⟩, hrecv⟩ := Option.isSome_iff_exists.mp
      (Chan.recv_isSome (result_there_of_ended hne hc hjob hend hwait))
    obtain ⟨hlt, hjobOf⟩ : c.shared.Feeds ch job := (wired_of_reaches hc.reaches).2 _ hwait
    obtain ⟨-, hhome⟩ : k + 1 ≠ 0 ∧ c.shared.home ch = k + 1 := htraced _ hwait
    refine ⟨res, rest, hrecv, answers_of_results hne hc hjob hlt ?_ (by rw [hjobOf])
      (Chan.mem_of_recv hrecv)⟩
    exact fun h0 ↦ hne (hhome.symm.trans h0)
  · obtain ⟨ch, ⟨hlt, hjobOf⟩, hhome, hres⟩ := htraced _ hfinish
    exact answers_of_results hne hc hjob hlt hhome (by rw [hjobOf]) hres
  · refine (hT.placed ch hhome res hres).imp_right ?_
    rintro ⟨job', r, hid, hrequest, ⟨ch', ⟨hlt, hjobOf'⟩, hhome', hr⟩, rfl⟩
    rw [hjobOf] at hid hrequest
    refine ⟨r, answers_of_results hne hc hjob hlt hhome' (by rw [hjobOf', hrequest]) hr, ?_⟩
    simp only [placedResult, hid, hrequest]
  · obtain ⟨ch, hlt, hhome, hrequest, hmem⟩ := hT.out job.request b hb
    obtain ⟨hh, htag⟩ := home_of_received hc hjob hlt hhome hrequest
    rcases (settled_of_linked hne hc).observed ch hh b hmem with hsource | hmissed
    · obtain ⟨r, hr⟩ := Option.ne_none_iff_exists'.mp hsource
      have hr' := (owned_of_runs (runs_of_linked hc)).2.1.observed ch b hmem r (by simp [hr])
      rw [hr, hr', hrequest]
    · refine absurd ?_ hmissed.2
      rw [htag]
      exact List.mem_map_of_mem hjob

def sampleJob : Job := ⟨"a", "m", 0⟩

def sampleStart : List ((ℕ × Choice) ⊕ Action) :=
  [.inl (0, .connect "w" [⟨"m", ""⟩]), .inl (3, .go), .inl (3, .go), .inl (4, .go), .inr .ack,
    .inl (0, .request "a" none "m" false), .inl (5, .worker 1), .inl (5, .go), .inl (5, .go),
    .inl (4, .go), .inr .recv, .inr .push, .inr .takeJob]

/-- The run context is cancelled while the job executes; the worker finishes it and leaves. -/
theorem shutdown_loses_no_job_executing :
    ∃ c p, (controlPlane.Linked (peer 1) (ServerKeeps 1) LeavesIdle (boot (new 0 0 0)) {} c p ∧
        sampleJob ∈ p.received ∧ p.runDone ∧ p.ended ∧ .await .fast 1 sampleJob 0 ∈ c.soup) ∧
      ∃ res rest, (c.shared.results 0).recv = some (res, rest) ∧ Answers p sampleJob res := by
  have hrun : ∃ c p, controlPlane.Linked (peer 1) (ServerKeeps 1) LeavesIdle (boot (new 0 0 0)) {}
      c p ∧ sampleJob ∈ p.received ∧ p.runDone ∧ p.ended ∧ .await .fast 1 sampleJob 0 ∈ c.soup := by
    apply Machine.exists_linked (sampleStart ++ [.inr .cancelRun,
      .inr (.finish { jobID := "a", tokens := 3 }), .inr .emit, .inr .sendChunk, .inr .shutdown,
      .inr .deregister, .inr .closeSend,
      .inl (3, .message (.chunk ⟨terminalChunk sampleJob { jobID := "a", tokens := 3 }, some 0⟩)),
      .inl (3, .go), .inl (3, .go), .inl (3, .message .deregister), .inl (3, .streamEnd)])
    decide +kernel
  obtain ⟨c, p, hc, hjob, hdone, hend, hwait⟩ := hrun
  exact ⟨c, p, ⟨hc, hjob, hdone, hend, hwait⟩,
    (shutdown_loses_no_job hc hjob).2.1 .fast 0 hend hwait⟩

/-- The worker itself does not wait: it deregisters with the job in its executor, and the
caller gets `worker_disconnected`, though the server has evicted nobody. -/
theorem shutdown_drops_executing_job :
    ∃ c p, controlPlane.Linked (peer 1) (ServerKeeps 1) (fun _ _ _ ↦ True) (boot (new 0 0 0)) {} c p ∧
      sampleJob ∈ p.received ∧ p.jobLoop = .executing sampleJob ∧ p.answered = [] ∧ p.ended ∧
      .finish .fast sampleJob
        (some ⟨{ jobID := "a", err := some Cause.disconnected.err }, []⟩) ∈ c.soup := by
  apply Machine.exists_linked (sampleStart ++ [.inr .cancelRun, .inr .shutdown, .inr .deregister,
    .inr .closeSend, .inl (3, .message .deregister), .inl (3, .streamEnd), .inl (3, .go),
    .inl (3, .order ["a"] []), .inl (3, .go), .inl (5, .go)])
  decide +kernel

end AgentGpu.Worker
