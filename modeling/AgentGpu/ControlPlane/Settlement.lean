import AgentGpu.ControlPlane.Billing

namespace AgentGpu.ControlPlane

open Foundation

variable {s : Server} {i j : Instr} {x : Choice} {e : Effect Server Instr} {R S : Multiset Instr}
  {l : Meter} {h ch r v : ℕ} {n : UInt64} {o : Origin} {job : Job} {res : Outcome}

/-- The tokens that are recorded for a result: `placeItem` makes a new result out of one with
an error. -/
def Origin.worth (o : Origin) (job : Job) (res : Outcome) : UInt64 :=
  match o with
  | .queued => (placedResult job (some res)).result.tokens
  | _ => res.result.tokens

inductive Owed (s : Server) (S : Multiset Instr) (r : ℕ) (n : UInt64) : ℕ → Instr → Prop
  | dispatching {o : Origin} {h ch v : ℕ} {job : Job} {res : Outcome} {j : Instr}
      (hD : Dispatching s S o h job ch res v j) (hr : job.request = r) (hworth : o.worth job res = n)
      (hstop : o = .queued → s.placeStop = false)
      (hT : o = .stream → Tended S r fun k ↦ Sealed s S k ∨ j.ends k) : Owed s S r n v j
  | finishing {o : Origin} {job : Job} {res : Outcome} (hj : .finish o job (some res) ∈ S)
      (hr : job.request = r) (hworth : o.worth job res = n) (hstop : o = .queued → s.placeStop = false)
      (hT : o = .stream → Tended S r (Sealed s S)) : Owed s S r n 203 (.finish o job (some res))
  | notifying {job : Job} {ch v : ℕ} {res : Outcome} {j : Instr} (hN : Notifying s S job ch res v j)
      (hr : job.request = r) (htokens : res.result.tokens = n) (hstop : s.placeStop = false) : Owed s S r n v j
  | relaying {res : Outcome} {v : ℕ} {j : Instr} (hsole : (s.finished r).Sole res)
      (htokens : res.result.tokens = n) (hR : Relaying s S r v j) : Owed s S r n v j

theorem Dispatching.lt (hD : Dispatching s S o h job ch res v j) : 203 < v := by
  cases hD with
  | concluding =>
    unfold Instr.stage
    split <;> decide
  | delivering | waiting => decide

theorem Sound.listening (hS : Sound s S) (hstop : s.placeStop = false) (hlive : s.gone job.request = false)
    (hj : j ∈ S) (hqueues : j.queues job) :
    ∃ ch, .awaitWaiter job ch ∈ S ∧ s.waiters.lookup job.id = some ch := by
  have hreserved := hS.reserved.resolve_left (by simp [hstop])
  exact (hreserved.loop job j hj hqueues).resolve_left (by simp [hlive])

theorem Sound.finished_nil (hS : Sound s S) (hj : j ∈ S) (hd : j.dispatches r) : (s.finished r).sent = [] := by
  have hpos : 0 < S.countP (·.dispatches r) := Multiset.countP_pos.mpr ⟨j, hj, hd⟩
  have hle := hS.dispatches r
  exact List.eq_nil_of_length_eq_zero (by omega)

theorem Step.placeStop_cases (hs : Step s i x e) : e.shared.placeStop = s.placeStop ∨ i = .closePlace := by
  induction hs with
  | closePlace => exact .inr rfl
  | _ => exact .inl rfl

theorem Owed.payer (hO : Owed s S r n v j) (hS : Sound s S) (hlive : s.gone r = false) :
    ∃ k ∈ S, k.pays r := by
  have hwaiter {job : Job} {k : Instr} (hk : k ∈ S) (hqueues : k.queues job) (hr : job.request = r)
      (hstop : s.placeStop = false) : ∃ k ∈ S, k.pays r := by
    obtain ⟨ch, hawait, -⟩ := hS.listening hstop (hr ▸ hlive) hk hqueues
    exact ⟨_, hawait, beq_iff_eq.mpr hr⟩
  have htended {P : ℕ → Prop} (hT : Tended S r P) : ∃ k ∈ S, k.pays r := by
    obtain ⟨k, hk, htends, -⟩ := hT
    exact ⟨k, hk, Instr.pays_of_tends htends⟩
  cases hO with
  | @dispatching o _ _ _ _ _ _ hD hr _ hstop hT =>
    cases o with
    | fast => exact ⟨_, hD.await_mem, beq_iff_eq.mpr hr⟩
    | queued => exact hwaiter hD.await_mem (beq_self_eq_true _) hr (hstop rfl)
    | stream => exact htended (hT rfl)
  | @finishing o _ _ hj hr _ hstop hT =>
    cases o with
    | fast => exact ⟨_, hj, beq_iff_eq.mpr hr⟩
    | queued => exact hwaiter hj (beq_self_eq_true _) hr (hstop rfl)
    | stream => exact htended (hT rfl)
  | notifying hN hr => exact ⟨_, hN.await_mem, beq_iff_eq.mpr hr⟩
  | relaying _ _ hR =>
    obtain ⟨k, hk, htends⟩ := hR.tends
    exact ⟨k, hk, Instr.pays_of_tends htends⟩

theorem Owed.ready (hO : Owed s S r n v j) (hS : Sound s S) (hlive : s.gone r = false) :
    j ∈ S ∧ (j.bulk = false ∨ j.places ∧ s.placeStop = false) ∧ j ≠ .place ∧
      (controlPlane.exec s j .go).isSome := by
  cases hO with
  | dispatching hD =>
    obtain ⟨hj, hbulk, hplace, hexec⟩ := hD.ready hS
    exact ⟨hj, .inl hbulk, hplace, hexec⟩
  | @finishing o job res hj hr =>
    refine ⟨hj, .inl rfl, by simp, ?_⟩
    cases o with
    | fast | queued => rfl
    | stream =>
      refine Option.isSome_map.trans (Chan.send_isSome ?_)
      rw [hS.finished_cap, hS.finished_nil hj (beq_self_eq_true job.request)]
      exact Nat.succ_pos _
  | notifying hN _ _ hstop =>
    obtain ⟨hj, hbulk, hplace, hexec⟩ := hN.ready hS
    exact ⟨hj, hbulk.imp_right (⟨·, hstop⟩), hplace, hexec⟩
  | relaying hsole _ hR =>
    obtain ⟨hj, hbulk, hplace, hexec⟩ := hR.ready hS hlive hsole
    exact ⟨hj, .inl hbulk, hplace, hexec⟩

section Step

variable (hS : Sound s (i ::ₘ R)) (he : controlPlane.exec s i x = some e) (hlive : s.gone r = false)
  (hfail : ∀ h cause, i = .fail h cause → ∀ k ∈ i ::ₘ R, ∀ p ∈ k.concludes, p.1 ≠ h)
  (hclose : i = .closePlace → ∀ k ∈ i ::ₘ R, ∀ p ∈ k.expects, p.1.request ≠ r)

include he hclose in
theorem placeStop_stays (hstop : s.placeStop = false) (hawait : .awaitWaiter job ch ∈ i ::ₘ R)
    (hr : job.request = r) : e.shared.placeStop = false := by
  rcases (step_of_exec he).placeStop_cases with hsame | hi
  · exact hsame.trans hstop
  · exact absurd hr (hclose hi _ hawait _ rfl)

include hS he hlive hclose in
theorem placeStop_queued (hstop : s.placeStop = false) (hj : j ∈ i ::ₘ R) (hqueues : j.queues job)
    (hr : job.request = r) : e.shared.placeStop = false := by
  obtain ⟨k, hawait, -⟩ := hS.listening hstop (hr ▸ hlive) hj hqueues
  exact placeStop_stays he hclose hstop hawait hr

include hS he in
theorem not_settle (hj : j ∈ i ::ₘ R) (hd : j.dispatches r) : ∀ job, i = .settle job → job.request ≠ r := by
  rintro job rfl rfl
  cases step_of_exec he with
  | quit hq => cases hq
  | settle hc => cases (Chan.recv_of_nil (hS.finished_nil hj hd)).symm.trans hc

include hS he in
theorem Sealed.or_ends {k : ℕ} (hL : Sealed s (i ::ₘ R) k ∨ j.ends k) :
    Sealed e.shared (e.fresh + R) k ∨ j.ends k := hL.imp_left fun hL ↦ (hL.step hS he).1

include hS he hlive hfail hclose in
theorem Owed.dispatching_step {o : Origin} {job : Job} {res : Outcome}
    (hD : Dispatching s (i ::ₘ R) o h job ch res v j) (hr : job.request = r) (hworth : o.worth job res = n)
    (hstop : o = .queued → s.placeStop = false)
    (hT : o = .stream → Tended (i ::ₘ R) r fun k ↦ Sealed s (i ::ₘ R) k ∨ j.ends k) :
    (∃ v' < v, ∃ j', Owed e.shared (e.fresh + R) r n v' j') ∨
      i ≠ j ∧ Owed e.shared (e.fresh + R) r n v j := by
  have hs := step_of_exec he
  have hstop' (ho : o = .queued) : e.shared.placeStop = false := by
    subst ho
    exact placeStop_queued hS he hlive hclose (hstop rfl) hD.await_mem (beq_self_eq_true _) hr
  have hset := not_settle hS he hD.await_mem (beq_iff_eq.mpr hr)
  by_cases hawait : i = .await o h job ch
  · have hctx : ctxDone s o job = false := by
      cases o with
      | queued => exact hstop rfl
      | fast | stream =>
        subst hr
        exact hlive
    obtain ⟨res', c, hc, heq⟩ := await_cases he hawait hctx
    obtain ⟨rfl, rfl⟩ := hD.received hS hc
    have hfinish : .finish o job (some res') ∈ e.fresh + R := by
      rw [heq]
      simp
    refine .inl ⟨203, hD.lt, _, .finishing hfinish hr hworth hstop' fun ho ↦ ?_⟩
    exact (hT ho).step hs hlive hset fun k hk ↦ ((hk.resolve_right nofun).step hS he).1
  · by_cases hij : i = j
    · subst hij
      obtain ⟨v', hv', j', hD', hends⟩ := hD.own_step hS he hawait
      refine .inl ⟨v', hv', j', .dispatching hD' hr hworth hstop' fun ho ↦ ?_⟩
      refine (hT ho).step hs hlive hset fun k hk ↦ ?_
      rcases hk with hL | hi
      · exact .inl (hL.step hS he).1
      · exact hends k hi
    · have hD' := hD.stable hS hs hij hawait (hfail h)
      refine .inr ⟨hij, .dispatching hD' hr hworth hstop' fun ho ↦ ?_⟩
      exact (hT ho).step hs hlive hset fun k hk ↦ Sealed.or_ends hS he hk

include hS he hlive hclose in
theorem Owed.finishing_step {o : Origin} {job : Job} {res : Outcome} (hj : .finish o job (some res) ∈ i ::ₘ R)
    (hr : job.request = r) (hworth : o.worth job res = n) (hstop : o = .queued → s.placeStop = false)
    (hT : o = .stream → Tended (i ::ₘ R) r (Sealed s (i ::ₘ R))) :
    i.records s x = some (r, n) ∨ (∃ v' < 203, ∃ j', Owed e.shared (e.fresh + R) r n v' j') ∨
      i ≠ .finish o job (some res) ∧ Owed e.shared (e.fresh + R) r n 203 (.finish o job (some res)) := by
  have hs := step_of_exec he
  have hset := not_settle hS he hj (beq_iff_eq.mpr hr)
  have hT' (ho : o = .stream) : Tended (e.fresh + R) r (Sealed e.shared (e.fresh + R)) :=
    (hT ho).step hs hlive hset fun _ hL ↦ (hL.step hS he).1
  by_cases hij : i = .finish o job (some res)
  · subst hij
    cases o with
    | fast =>
      cases hs with
      | quit hq => cases hq
      | finishFast =>
        subst hr hworth
        exact .inl rfl
    | queued =>
      obtain ⟨k, hawait, hwaiter⟩ := hS.listening (hstop rfl) (hr ▸ hlive) hj (beq_self_eq_true _)
      have hid := placedResult_jobID (hS.wires _ hj)
      have hmem := (Multiset.mem_cons.mp hawait).resolve_left nofun
      cases hs with
      | quit hq => cases hq
      | finishQueued =>
        refine .inr (.inl ⟨202, by decide, _, .notifying (.resolving (Multiset.mem_add.mpr (.inr hmem)) (by simp) ?_)
          hr hworth (hstop rfl)⟩)
        rw [hid]
        exact hwaiter
    | stream =>
      cases hs with
      | quit hq => cases hq
      | finishStream hc =>
        obtain ⟨v, hv, k, hR⟩ := (hT' rfl).relaying hS.observed_cap
        have hsole := Chan.sole_of_send hc (hS.finished_nil hj (beq_self_eq_true job.request))
        refine .inr (.inl ⟨v, by omega, k, .relaying ?_ hworth hR⟩)
        subst hr
        simp only [Function.update_self]
        exact hsole
  · have hmem := (Multiset.mem_cons.mp hj).resolve_left (Ne.symm hij)
    refine .inr (.inr ⟨hij, .finishing (Multiset.mem_add.mpr (.inr hmem)) hr hworth (fun ho ↦ ?_) hT'⟩)
    subst ho
    exact placeStop_queued hS he hlive hclose (hstop rfl) hj (beq_self_eq_true _) hr

include hS he hlive hclose in
theorem Owed.notifying_step {job : Job} {res : Outcome} (hN : Notifying s (i ::ₘ R) job ch res v j)
    (hr : job.request = r) (htokens : res.result.tokens = n) (hstop : s.placeStop = false) :
    i.records s x = some (r, n) ∨ (∃ v' < v, ∃ j', Owed e.shared (e.fresh + R) r n v' j') ∨
      i ≠ j ∧ Owed e.shared (e.fresh + R) r n v j := by
  have hstop' := placeStop_stays he hclose hstop hN.await_mem hr
  by_cases hawait : i = .awaitWaiter job ch
  · obtain ⟨res', c, hc, rfl⟩ := awaitWaiter_cases he hawait (hr ▸ hlive)
    obtain rfl := hN.received hS hc
    subst hawait hr htokens
    exact .inl (congrArg (Option.map _) hc)
  · refine .inr ?_
    by_cases hij : i = j
    · subst hij
      obtain ⟨v', hv', j', hN'⟩ := hN.own_step hS he hawait
      exact .inl ⟨v', hv', j', .notifying hN' hr htokens hstop'⟩
    · have hN' := hN.stable hS (step_of_exec he) hstop hij hawait
      exact .inr ⟨hij, .notifying hN' hr htokens hstop'⟩

theorem Step.finished_eq (hs : Step s i x e) (hset : ∀ job, i = .settle job → job.request ≠ r)
    (hfinish : i.dispatches r = false) : e.shared.finished r = s.finished r := by
  induction hs with
  | @finishStream job =>
    exact Function.update_of_ne (fun hr ↦ by simp [Instr.dispatches, hr] at hfinish) ..
  | @settle job => exact Function.update_of_ne (hset job rfl).symm ..
  | _ => rfl

include hS he hlive in
theorem Owed.relaying_step {res : Outcome} (hsole : (s.finished r).Sole res) (htokens : res.result.tokens = n)
    (hR : Relaying s (i ::ₘ R) r v j) :
    i.records s x = some (r, n) ∨ (∃ v' < v, ∃ j', Owed e.shared (e.fresh + R) r n v' j') ∨
      i ≠ j ∧ Owed e.shared (e.fresh + R) r n v j := by
  have hdispatches : i.dispatches r = false := by
    refine Bool.eq_false_iff.mpr fun hi ↦ ?_
    cases (hS.finished_nil (Multiset.mem_cons_self i R) hi).symm.trans hsole.1
  by_cases hsettle : ∃ job, i = .settle job ∧ job.request = r
  · obtain ⟨job, rfl, rfl⟩ := hsettle
    cases step_of_exec he with
    | quit hq => cases hq
    | settle hc =>
      obtain rfl := hsole.recv_eq hc
      subst htokens
      exact .inl (congrArg (Option.map _) hc)
  · have hset (job : Job) (hi : i = .settle job) : job.request ≠ r := fun hr ↦ hsettle ⟨job, hi, hr⟩
    have hsole' : (e.shared.finished r).Sole res := by
      rwa [(step_of_exec he).finished_eq hset hdispatches]
    refine .inr ?_
    cases hi : i.tends r with
    | true =>
      have hnot (job : Job) : i ≠ .settle job := by
        rintro rfl
        exact hset job rfl (eq_of_beq hi)
      obtain ⟨v', hv', j', hR'⟩ := hR.own_step hS he hlive hi hnot
      exact .inl ⟨v', hv', j', .relaying hsole' htokens hR'⟩
    | false =>
      rcases hR.other_step hS he hi with ⟨v', hv', j', hR'⟩ | ⟨hij, hR'⟩
      · exact .inl ⟨v', hv', j', .relaying hsole' htokens hR'⟩
      · exact .inr ⟨hij, .relaying hsole' htokens hR'⟩

include hS he hlive hfail hclose in
theorem Owed.step (hO : Owed s (i ::ₘ R) r n v j) :
    i.records s x = some (r, n) ∨ (∃ v' < v, ∃ j', Owed e.shared (e.fresh + R) r n v' j') ∨
      i ≠ j ∧ Owed e.shared (e.fresh + R) r n v j := by
  cases hO with
  | dispatching hD hr hworth hstop hT =>
    exact .inr (Owed.dispatching_step hS he hlive hfail hclose hD hr hworth hstop hT)
  | finishing hj hr hworth hstop hT => exact Owed.finishing_step hS he hlive hclose hj hr hworth hstop hT
  | notifying hN hr htokens hstop => exact Owed.notifying_step hS he hlive hclose hN hr htokens hstop
  | relaying hsole htokens hR => exact Owed.relaying_step hS he hlive hsole htokens hR

end Step

namespace Instr

/-- The dispatch that waits for the result of the chunk's job. The worker's tables still have the
job, the placement loop is not told to stop, and it does not get an error that came with tokens. -/
def standsBy (s : Server) (h : ℕ) (c : Produced) : Instr → Prop
  | .await o k job ch =>
    (k = h ∧ job.id = c.chunk.jobID ∧ (s.worker h).pending.lookup job.id = some ch) ∧
    (o = .queued → s.placeStop = false ∧ (c.chunk.err = none ∨ c.chunk.tokens = 0)) ∧
    (o = .stream → ((s.worker h).observers.lookup job.id).isSome)
  | _ => False

instance (s : Server) (h : ℕ) (c : Produced) (i : Instr) : Decidable (i.standsBy s h c) := by
  delta standsBy
  induction i using Instr.casesOn <;> infer_instance

def hangsUp (s : Server) : Instr → Choice → Option ℕ
  | .serve, .hangUp r => some r
  | .consume r, _ =>
    if (s.out r).drained ∨ ∃ c ∈ (s.out r).buffered.head?, c.chunk.err ≠ none then some r else none
  | _, _ => none

end Instr

/-- From the terminal chunk of a request until its tokens are recorded, nothing gets between: the
dispatch is there when the chunk comes, the worker is not torn down while the reader holds the
result, and neither the placement loop is stopped nor the request's context ended. -/
def Patient (s : Server) (l : Meter) (S : Multiset Instr) (i : Instr) (x : Choice) : Prop :=
  (∀ r ∈ i.hangsUp s x, l.terminal r = none ∨ ∀ j ∈ S, ¬ j.pays r) ∧
  match i, x with
  | .read h, .message (.chunk c) => (i.accumulates s x).isSome → ∃ j ∈ S, j.standsBy s h c
  | .fail h _, _ => ∀ j ∈ S, ∀ p ∈ j.concludes, p.1 ≠ h
  | .closePlace, _ => ∀ j ∈ S, ∀ p ∈ j.expects, l.terminal p.1.request = none
  | _, _ => True

instance (s : Server) (l : Meter) (S : Multiset Instr) (i : Instr) (x : Choice) :
    Decidable (Patient s l S i x) := by
  delta Patient
  haveI (h : ℕ) (c : Produced) : Decidable (∃ j ∈ S, j.standsBy s h c) := Multiset.decidableExistsMultiset
  induction i using Instr.casesOn with
  | read h =>
    induction x using Choice.casesOn with
    | message m => induction m using WorkerMessage.casesOn <;> infer_instance
    | _ => infer_instance
  | _ => infer_instance

def Undisturbed (c : Config (Server × Meter) Instr) (i : Instr) (x : Choice) : Prop :=
  (Honest c.erase i x ∧ FreshID c.erase i x) ∧ Patient c.shared.1 c.shared.2 c.soup i x

instance (c : Config (Server × Meter) Instr) (i : Instr) (x : Choice) : Decidable (Undisturbed c i x) := by
  delta Undisturbed
  infer_instance

theorem Step.gone_cases (hs : Step s i x e) (hgone : e.shared.gone r) : s.gone r ∨ i.hangsUp s x = some r := by
  have hupdate {k : ℕ} (hk : e.shared.gone = Function.update s.gone k true) (hi : i.hangsUp s x = some k) :
      s.gone r ∨ i.hangsUp s x = some r := by
    by_cases hr : r = k
    · subst hr
      exact .inr hi
    · rw [hk, Function.update_of_ne hr] at hgone
      exact .inl hgone
  induction hs with
  | hangUp k => exact hupdate rfl rfl
  | consumeEnd hd => exact hupdate rfl (if_pos (.inl hd))
  | consumeError hc herr =>
    refine hupdate rfl (if_pos (.inr ⟨_, ?_, herr⟩))
    rw [Chan.buffered_of_recv hc]
    rfl
  | _ => exact .inl hgone

theorem Instr.accumulates_some (hi : i.accumulates s x = some (r, n)) :
    ∃ h c, i = .read h ∧ x = .message (.chunk c) ∧ c.source = some r ∧ c.chunk.done ∧ s.gone r = false ∧
      c.chunk.tokens = n := by
  unfold accumulates at hi
  split at hi
  · next h c =>
    obtain ⟨k, hsource, hk⟩ := Option.bind_eq_some_iff.mp hi
    split_ifs at hk with hdone
    cases hk
    exact ⟨h, c, rfl, rfl, hsource, hdone.1, hdone.2, rfl⟩
  · cases hi

theorem handleMessage_last {c : Produced} (hdone : c.chunk.done) :
    (handleMessage s h (.chunk c)).shared =
      (retire s h c.chunk.jobID c.source.toList).setWorker h ((s.worker h).finish c) ∧
    ∃ k ∈ (handleMessage s h (.chunk c)).fresh, k.concludes = some (h, (s.worker h).assemble c) ∧
      ∀ ch, (s.worker h).observers.lookup c.chunk.jobID = some ch → k.ends ch := by
  simp only [handleMessage, hdone, if_true]
  refine ⟨trivial, ?_⟩
  cases (s.worker h).observers.lookup c.chunk.jobID with
  | none => exact ⟨.resolve h ((s.worker h).assemble c), by simp, rfl, by simp⟩
  | some k =>
    refine ⟨.forwardLast h k c ((s.worker h).assemble c), by simp, rfl, fun ch hch ↦ ?_⟩
    exact beq_iff_eq.mpr (Option.some.inj hch)

theorem Sound.tends_of_observer (hS : Sound s S) {jobID : String}
    (hl : (s.worker h).observers.lookup jobID = some ch) :
    ∃ j ∈ S, j.tends (s.owner jobID) ∧ j.relays = some (h, jobID, ch) := by
  obtain ⟨j, hj, hrelays⟩ := hS.watched h jobID ch hl
  refine ⟨j, hj, ?_, hrelays⟩
  have hown := hS.owns j hj
  cases j with
  | relay _ job | emit _ job =>
    obtain ⟨-, rfl, -⟩ : _ = h ∧ job.id = jobID ∧ _ = ch := by simpa [Instr.relays] using hrelays
    exact beq_iff_eq.mpr (hown _ (List.mem_singleton_self _)).symm
  | _ => cases hrelays

theorem owed_of_chunk {c : Produced} (hS : Sound s (.read h ::ₘ R)) (hdone : c.chunk.done)
    (howner : s.owner c.chunk.jobID = r) (hj : j ∈ Instr.read h ::ₘ R) (hstands : j.standsBy s h c)
    (he : e = handleMessage s h (.chunk c)) : ∃ v k, Owed e.shared (e.fresh + R) r c.chunk.tokens v k := by
  cases j with
  | await o k job ch =>
    obtain ⟨⟨rfl, hid, hpending⟩, hqueued, hstream⟩ := hstands
    have hr : job.request = r := by
      rw [← howner, ← hid]
      exact (hS.owns _ hj _ (List.mem_singleton_self _)).symm
    have hworth : o.worth job ((s.worker k).assemble c) = c.chunk.tokens := by
      cases o with
      | fast | stream => rfl
      | queued =>
        rcases (hqueued rfl).2 with herr | htokens
        · simp [Origin.worth, placedResult, Worker.assemble, herr]
        · cases herr : c.chunk.err <;> simp [Origin.worth, placedResult, Worker.assemble, herr, htokens]
    obtain ⟨hshared, m, hm, hconcludes, hends⟩ := handleMessage_last (s := s) (h := k) hdone
    rw [← he] at hshared hm
    have hawait : .await o k job ch ∈ e.fresh + R :=
      Multiset.mem_add.mpr (.inr ((Multiset.mem_cons.mp hj).resolve_left (by simp)))
    have hD : Dispatching e.shared (e.fresh + R) o k job ch ((s.worker k).assemble c) m.stage m := by
      refine .concluding hawait (Multiset.mem_add.mpr (.inl hm)) hconcludes ?_
      rw [hshared, Server.setWorker_self]
      rw [hid] at hpending
      exact hpending
    refine ⟨m.stage, m, .dispatching hD hr hworth (fun ho ↦ ?_) fun ho ↦ ?_⟩
    · rw [hshared]
      exact (hqueued ho).1
    · obtain ⟨ch', hobs⟩ := Option.isSome_iff_exists.mp (hstream ho)
      rw [hid] at hobs
      obtain ⟨p, hp, htends, hrelays⟩ := hS.tends_of_observer hobs
      have hmem := (Multiset.mem_cons.mp hp).resolve_left (by rintro rfl; cases hrelays)
      refine ⟨p, Multiset.mem_add.mpr (.inr hmem), howner ▸ htends, fun q hq ↦ .inr ?_⟩
      obtain rfl := Option.some.inj (hrelays.symm.trans hq)
      exact hends ch' hobs
  | _ => cases hstands

def Accounted (s : Server) (l : Meter) (S : Multiset Instr) : Prop :=
  ∀ r n, l.terminal r = some n → l.charged r = [n] ∨ s.gone r = false ∧ ∃ v j, Owed s S r n v j

section Invariant

variable (hS : Sound s (i ::ₘ R)) (he : controlPlane.exec s i x = some e)
  (hones : ∀ r, (i ::ₘ R).countP (·.pays r) + (l.charged r).length ≤ 1)
  (hpatient : Patient s l (i ::ₘ R) i x)

include hones in
theorem charged_kept (hcharged : l.charged r = [n]) : (l.note s i x).charged r = [n] := by
  rw [Meter.charged_note_of_ne fun n hrec ↦ ?_, hcharged]
  have hpos : 0 < (i ::ₘ R).countP (·.pays r) :=
    Multiset.countP_pos.mpr ⟨i, Multiset.mem_cons_self i R, Instr.pays_of_records hrec⟩
  have hle := hones r
  rw [hcharged, List.length_singleton] at hle
  omega

include hones in
theorem charged_of_records (hrec : i.records s x = some (r, n)) : (l.note s i x).charged r = [n] := by
  have hpos : 0 < (i ::ₘ R).countP (·.pays r) :=
    Multiset.countP_pos.mpr ⟨i, Multiset.mem_cons_self i R, Instr.pays_of_records hrec⟩
  have hle := hones r
  have hnil : l.charged r = [] := List.eq_nil_of_length_eq_zero (by omega)
  rw [Meter.charged_note hrec, hnil, List.nil_append]

include hpatient in
theorem Patient.fail (k : ℕ) (cause : Cause) (hi : i = .fail k cause) :
    ∀ j ∈ i ::ₘ R, ∀ p ∈ j.concludes, p.1 ≠ k := by
  subst hi
  exact hpatient.2

include hpatient in
theorem Patient.closePlace (hterminal : l.terminal r = some n) (hi : i = .closePlace) :
    ∀ j ∈ i ::ₘ R, ∀ p ∈ j.expects, p.1.request ≠ r := by
  subst hi
  intro j hj p hp hr
  cases (hpatient.2 j hj p hp).symm.trans (hr ▸ hterminal)

include hS he hones hpatient in
theorem Owed.next (hterminal : l.terminal r = some n) (hlive : s.gone r = false)
    (hO : Owed s (i ::ₘ R) r n v j) :
    (l.note s i x).charged r = [n] ∨ e.shared.gone r = false ∧
      ((∃ v' < v, ∃ j', Owed e.shared (e.fresh + R) r n v' j') ∨
        i ≠ j ∧ Owed e.shared (e.fresh + R) r n v j) := by
  rcases hO.step hS he hlive hpatient.fail (hpatient.closePlace hterminal) with hrec | hnext
  · exact .inl (charged_of_records hones hrec)
  · refine .inr ⟨Bool.eq_false_iff.mpr fun hgone ↦ ?_, hnext⟩
    rcases (step_of_exec he).gone_cases hgone with hold | hhangs
    · cases hlive.symm.trans hold
    · rcases hpatient.1 r hhangs with hnone | hpaid
      · cases hnone.symm.trans hterminal
      · obtain ⟨k, hk, hpays⟩ := hO.payer hS hlive
        exact hpaid k hk hpays

include hS he hones hpatient in
theorem Accounted.step (hI : Accounted s l (i ::ₘ R))
    (howner : ∀ h c, i = .read h → x = .message (.chunk c) → ∀ r ∈ c.source, s.owner c.chunk.jobID = r) :
    Accounted e.shared (l.note s i x) (e.fresh + R) := by
  intro r n hn
  cases hold : l.terminal r with
  | some m =>
    obtain rfl : m = n := Option.some.inj ((Meter.terminal_note hold).symm.trans hn)
    rcases hI r m hold with hcharged | ⟨hlive, v, j, hO⟩
    · exact .inl (charged_kept hones hcharged)
    · refine (hO.next hS he hones hpatient hold hlive).imp_right fun ⟨hlive', hnext⟩ ↦ ⟨hlive', ?_⟩
      rcases hnext with ⟨v', -, j', hO'⟩ | ⟨-, hO'⟩
      · exact ⟨v', j', hO'⟩
      · exact ⟨v, j, hO'⟩
  | none =>
    -- the chunk comes with this step
    have hacc := Meter.accumulates_of_note hold hn
    obtain ⟨h, c, rfl, rfl, hsource, hdone, hlive, rfl⟩ := Instr.accumulates_some hacc
    obtain ⟨j, hj, hstands⟩ := hpatient.2 (by rw [hacc]; rfl)
    have heq : e = handleMessage s h (.chunk c) := (Option.some.inj he).symm
    obtain ⟨v, k, hO⟩ := owed_of_chunk hS hdone (howner h c rfl rfl r hsource) hj hstands heq
    refine .inr ⟨?_, v, k, hO⟩
    rw [heq, (handleMessage_last hdone).1]
    exact hlive

end Invariant

section Runs

variable {t : Time} {d : Duration} {m : ℕ}

theorem Step.queueClosed_cases (hs : Step s i x e) : e.shared.queueClosed = s.queueClosed ∨ i = .closeQueue := by
  induction hs with
  | closeQueue => exact .inr rfl
  | _ => exact .inl rfl

theorem placeStop_of_runs {c : Config Server Instr}
    (hc : controlPlane.Runs (fun c i x ↦ Honest c i x ∧ FreshID c i x) (boot (new t d m)) c) :
    c.shared.queueClosed ∨ c.shared.placeDone → c.shared.placeStop := by
  have hrun := hc.strengthen fun c hc ↦ (traced_of_runs hc).2
  refine hrun.soup_invariant (fun s _ ↦ s.queueClosed ∨ s.placeDone → s.placeStop) (by simp [boot, new]) ?_
  intro c i x R e hsoup hstop hg he hend
  have hs := step_of_exec he
  have hclosed (hclosed : e.shared.queueClosed) : e.shared.placeStop := by
    rcases hs.queueClosed_cases with hsame | rfl
    · exact hs.placeStop_kept (hstop (.inl (hsame ▸ hclosed)))
    · exact hs.placeStop_kept (hg.2 .closeQueue (hsoup ▸ Multiset.mem_cons_self _ R))
  rcases hend with hend | hdone
  · exact hclosed hend
  · rcases hs.placeDone_cases with hsame | ⟨rfl, heq⟩
    · exact hs.placeStop_kept (hstop (.inr (hsame ▸ hdone)))
    · rcases place_cases he with ⟨item, -, hnext⟩ | ⟨-, hend⟩
      · rw [heq] at hnext
        cases hnext
      · exact hend.elim id hclosed

theorem head_of_places {c : Config Server Instr} (hc : controlPlane.Reaches (boot (new t d m)) c)
    (hj : j ∈ c.soup) (hplaces : j.places) (hdone : c.shared.placeDone = false) :
    ∃ (k : ℕ) (rest : List Instr), c.threads[k]? = some (j :: rest) := by
  obtain ⟨th, hth, hjth⟩ := Config.mem_soup.mp hj
  obtain ⟨k, hk⟩ := List.mem_iff_getElem?.mp hth
  have hrole := loop_of_reaches hc k th hk
  split_ifs at hrole with h2
  · cases hrole.1 with
    | stopped => cases hjth
    | free =>
      obtain rfl : j = .place := by simpa using hjth
      cases hplaces
    | parked item =>
      rcases List.mem_pair.mp hjth with rfl | rfl <;> cases hplaces
    | busy =>
      rcases List.mem_pair.mp hjth with rfl | rfl
      · exact ⟨k, _, hk⟩
      · cases hplaces
  · have hbeside := hrole j hjth
    cases j with
    | deliverWaiter => cases hdone.symm.trans hbeside
    | addPending o | send o | await o | finish o =>
      cases o with
      | queued => cases hbeside
      | fast | stream => cases hplaces
    | resolveWaiter => cases hbeside
    | _ => cases hplaces

variable {c : Config (Server × Meter) Instr}

theorem plain_of_runs
    (hc : (controlPlane.record Meter.note).Runs Undisturbed ((boot (new t d m)).logging {}) c) :
    controlPlane.Runs (fun c i x ↦ Honest c i x ∧ FreshID c i x) (boot (new t d m)) c.erase :=
  hc.erase (H := fun c i x ↦ Honest c i x ∧ FreshID c i x) fun _ _ _ hg ↦ hg.1

theorem charges_of_runs
    (hc : (controlPlane.record Meter.note).Runs Undisturbed ((boot (new t d m)).logging {}) c) (r : ℕ) :
    c.soup.countP (·.pays r) + (c.shared.2.charged r).length ≤ 1 :=
  (charges_le_one hc r).trans (by split <;> simp)

end Runs

/-- The steps on the way of a result and of the last chunks to their request, none of which waits
for anything from outside the server. -/
def Instr.passes : Instr → Bool
  | .forwardLast .. | .closeLast .. | .resolve .. | .deliver .. | .await .. | .finish .. | .resolveWaiter _
  | .deliverWaiter .. | .awaitWaiter .. | .relay .. | .emit .. | .settle _ | .consume _ => true
  | _ => false

theorem Owed.passes (hO : Owed s S r n v j) : j.passes := by
  cases hO with
  | dispatching hD =>
    cases hD with
    | concluding _ _ hres =>
      cases j with
      | forwardLast | closeLast | resolve => rfl
      | _ => cases hres
    | delivering | waiting => rfl
  | finishing => rfl
  | notifying hN =>
    cases hN with
    | resolving | delivering | waiting => rfl
  | relaying _ _ hR =>
    cases hR with
    | settling | relaying | emitting | blocked => rfl

section Executions

variable {t : Time} {d : Duration} {m : ℕ} {X : Execution (controlPlane.record Meter.note).turn}
  (hstart : X.state 0 = (boot (new t d m)).logging {})
  (hcalm : ∀ k a, X.event k = some a → Undisturbed (X.state k) a.instr a.choice)

include hstart hcalm

theorem runs_of_execution (k : ℕ) :
    (controlPlane.record Meter.note).Runs Undisturbed ((boot (new t d m)).logging {}) (X.state k) :=
  hstart ▸ Machine.Runs.of_execution hcalm k

theorem Owed.head {k : ℕ} (hlive : (X.state k).shared.1.gone r = false)
    (hO : Owed (X.state k).shared.1 (X.state k).soup r n v j) :
    (∃ (t : ℕ) (rest : List Instr), (X.state k).threads[t]? = some (j :: rest)) ∧
      ((controlPlane.record Meter.note).exec (X.state k).shared j .go).isSome := by
  have hplain := plain_of_runs (runs_of_execution hstart hcalm k)
  obtain ⟨hj, hbulk, hplace, hexec⟩ := hO.ready (sound_of_runs hplain) hlive
  refine ⟨?_, by simpa [Machine.record] using hexec⟩
  rcases hbulk with hbulk | ⟨hplaces, hstop⟩
  · exact head_of_mem_soup hplain.reaches hj hbulk hplace
  · refine head_of_places hplain.reaches hj hplaces (Bool.eq_false_iff.mpr fun hdone ↦ ?_)
    cases hstop.symm.trans (placeStop_of_runs hplain (.inr hdone))

theorem Owed.event {k : ℕ} {a : Turn Instr Choice} (ha : X.event k = some a)
    (hterminal : (X.state k).shared.2.terminal r = some n) (hlive : (X.state k).shared.1.gone r = false)
    (hO : Owed (X.state k).shared.1 (X.state k).soup r n v j) :
    (X.state (k + 1)).shared.2.charged r = [n] ∨
      ((X.state (k + 1)).shared.2.terminal r = some n ∧ (X.state (k + 1)).shared.1.gone r = false) ∧
      ((∃ v' < v, ∃ j', Owed (X.state (k + 1)).shared.1 (X.state (k + 1)).soup r n v' j') ∨
        a.instr ≠ j ∧ Owed (X.state (k + 1)).shared.1 (X.state (k + 1)).soup r n v j) := by
  have hc := runs_of_execution hstart hcalm k
  have hS := sound_of_runs (plain_of_runs hc)
  have hones := charges_of_runs hc
  have hpatient := (hcalm k a ha).2
  obtain ⟨rest, f, hhead, hf, hafter⟩ := Machine.turn_eq_some.mp (X.step_of_event ha)
  obtain ⟨e, he, rfl⟩ := Machine.exec_record hf
  obtain ⟨R, hsoup, hnext⟩ := Config.soup_step hhead
  rw [Config.erase_soup, hsoup] at hS
  rw [hsoup] at hpatient hones hO
  rw [← hafter, hnext]
  rcases hO.next hS he hones hpatient hterminal hlive with hcharged | ⟨hlive', hO'⟩
  · exact .inl hcharged
  · exact .inr ⟨⟨Meter.terminal_note hterminal, hlive'⟩, hO'⟩

end Executions

end AgentGpu.ControlPlane
