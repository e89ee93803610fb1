import AgentGpu.ControlPlane.Streams

namespace AgentGpu.ControlPlane

open Foundation

variable {s s' : Server} {i : Instr} {x : Choice} {e : Effect Server Instr}

structure SameRegistry (s s' : Server) : Prop where
  workers : s'.workers = s.workers
  nextSes : s'.nextSes = s.nextSes
  id : ∀ h, (s'.worker h).id = (s.worker h).id
  cancelled : ∀ h, (s.worker h).cancelled → (s'.worker h).cancelled

theorem SameRegistry.of_update {h : ℕ} {w : Worker}
    (hworker : s'.worker = Function.update s.worker h w) (hid : w.id = (s.worker h).id)
    (hcancelled : (s.worker h).cancelled → w.cancelled) (hworkers : s'.workers = s.workers)
    (hnextSes : s'.nextSes = s.nextSes) : SameRegistry s s' := by
  refine ⟨hworkers, hnextSes, Server.proj_of_update Worker.id hworker hid, fun k hk ↦ ?_⟩
  rw [hworker]
  by_cases hkh : k = h
  · subst hkh
    simpa using hcancelled hk
  · simpa [hkh] using hk

theorem Step.registry_cases (hs : Step s i x e) :
    (∃ id models, i = .register id models ∧
      e = ⟨addWorker s id models, [.ack (s.nextSes + 1)], []⟩) ∨
    (∃ h cause, i = .unregister h cause ∧ s.registered h ∧
      e = ⟨{ s with workers := s.workers.erase (s.worker h).id }, [.fail h cause], []⟩) ∨
    ((∀ id models, i ≠ .register id models) ∧ SameRegistry s e.shared) := by
  induction hs with
  | register id models => exact .inl ⟨id, models, rfl, rfl⟩
  | @unregister h cause hr => exact .inr (.inl ⟨h, cause, rfl, hr, rfl⟩)
  | quit hq =>
    refine .inr (.inr ⟨?_, ⟨rfl, rfl, fun _ ↦ rfl, fun _ ↦ id⟩⟩)
    rintro id models rfl
    cases hq
  | cancel h => exact .inr (.inr ⟨by simp, .of_update rfl rfl (fun _ ↦ rfl) rfl rfl⟩)
  | _ =>
    refine .inr (.inr ⟨by simp, ?_⟩)
    first
    | exact ⟨rfl, rfl, fun _ ↦ rfl, fun _ ↦ id⟩
    | exact .of_update rfl rfl id rfl rfl

/-- A forced eviction of `h` that is half done: the worker is out of the registry and its
stream not cancelled yet. -/
def Instr.evicting (h : ℕ) : Instr → Bool
  | .fail k .evicted | .cancel k => k == h
  | _ => false

theorem Step.evicting_kept {h : ℕ} (hs : Step s i x e) (hi : i.evicting h) :
    (∃ j ∈ e.fresh, j.evicting h) ∨ (e.shared.worker h).cancelled := by
  induction hs with
  | @fail k cause =>
    cases cause with
    | evicted => exact .inl ⟨.cancel k, by simp, hi⟩
    | _ => simp [Instr.evicting] at hi
  | cancel k =>
    have hk : k = h := by simpa [Instr.evicting] using hi
    subst hk
    exact .inr (by simp [Server.setWorker])
  | @quit i x hq => cases i <;> simp [Instr.evicting, Instr.mayQuit] at hi hq
  | _ => simp [Instr.evicting] at hi

def Superseded (s : Server) (h : ℕ) : Prop :=
  ∃ k, k ≤ s.nextSes ∧ h < k ∧ (s.worker k).id = (s.worker h).id

instance (s : Server) (h : ℕ) : Decidable (Superseded s h) :=
  inferInstanceAs (Decidable (∃ k, k ≤ s.nextSes ∧ h < k ∧ (s.worker k).id = (s.worker h).id))

structure Live (s : Server) (S : Multiset Instr) (h : ℕ) : Prop where
  handler : ∃ i ∈ S, i.handlerOf h
  uncancelled : (s.worker h).cancelled = false
  newest : ¬ Superseded s h

def Routable (s : Server) (S : Multiset Instr) : Prop :=
  ∀ h, Live s S h → s.registered h ∨ ∃ j ∈ S, j.evicting h

/-- A stale worker is only removed from the registry once its stream is over. -/
def SparesLive (c : Config Server Instr) (i : Instr) (_ : Choice) : Prop :=
  match i with
  | .unregister h .stale =>
    c.shared.registered h → (c.shared.worker h).cancelled ∨ ∀ j ∈ c.soup, ¬ j.handlerOf h
  | _ => True

instance (c : Config Server Instr) (i : Instr) (x : Choice) : Decidable (SparesLive c i x) := by
  delta SparesLive
  induction i using Instr.casesOn with
  | unregister h cause => induction cause using Cause.casesOn <;> infer_instance
  | _ => infer_instance

section

variable {R : Multiset Instr} {h : ℕ}

theorem Routable.register {id : String} {models : List Model}
    (hses : ∀ j ∈ R, j.handlerOf h → h ≤ s.nextSes) (hI : Routable s (.register id models ::ₘ R))
    (hlive : Live (addWorker s id models) (.ack (s.nextSes + 1) ::ₘ R) h) :
    (addWorker s id models).registered h ∨ ∃ j ∈ .ack (s.nextSes + 1) ::ₘ R, j.evicting h := by
  by_cases hh : h = s.nextSes + 1
  · subst hh
    refine .inl (Server.registered_iff.mpr ?_)
    rw [addWorker_id]
    exact AList.lookup_insert s.workers
  · have hworker : (addWorker s id models).worker h = s.worker h := addWorker_of_ne hh
    obtain ⟨j, hj, hjh⟩ := hlive.handler
    have hjR : j ∈ R := by
      refine (Multiset.mem_cons.mp hj).resolve_left fun hja ↦ hh ?_
      subst hja
      exact (eq_of_beq hjh).symm
    have hle := hses j hjR hjh
    -- the new stream does not bear the id of one that is still the newest
    have hid : (s.worker h).id ≠ id := by
      intro heq
      refine hlive.newest ⟨s.nextSes + 1, le_rfl, by omega, ?_⟩
      rw [hworker, heq, addWorker_id]
    have hold : Live s (.register id models ::ₘ R) h := by
      refine ⟨⟨j, Multiset.mem_cons_of_mem hjR, hjh⟩, hworker ▸ hlive.uncancelled, ?_⟩
      rintro ⟨k, hk, hlt, hkid⟩
      refine hlive.newest ⟨k, Nat.le_succ_of_le hk, hlt, ?_⟩
      rw [hworker, addWorker_of_ne (by omega), hkid]
    rcases hI h hold with hr | ⟨j, hj, hje⟩
    · refine .inl (Server.registered_iff.mpr ?_)
      rw [hworker]
      exact (AList.lookup_insert_ne hid).trans (Server.registered_iff.mp hr)
    · refine .inr ⟨j, Multiset.mem_cons_of_mem ((Multiset.mem_cons.mp hj).resolve_left ?_), hje⟩
      rintro rfl
      simp [Instr.evicting] at hje

theorem registered_erase {k : ℕ} (hr : s.registered h) (hk : s.registered k) (hne : h ≠ k) :
    Server.registered { s with workers := s.workers.erase (s.worker k).id } h := by
  refine Server.registered_iff.mpr ?_
  have hid : (s.worker h).id ≠ (s.worker k).id := by
    intro heq
    have hr := Server.registered_iff.mp hr
    rw [heq, Server.registered_iff.mp hk] at hr
    exact hne (Option.some.inj hr).symm
  exact (AList.lookup_erase_ne hid).trans (Server.registered_iff.mp hr)

theorem Live.before {S S' : Multiset Instr} (hlive : Live s' S' h)
    (hses : s'.nextSes = s.nextSes) (hid : ∀ k, (s'.worker k).id = (s.worker k).id)
    (hcancelled : (s.worker h).cancelled → (s'.worker h).cancelled)
    (hhandler : ∃ i ∈ S, i.handlerOf h) : Live s S h := by
  refine ⟨hhandler, eq_false_of_ne_true fun hcan ↦ ?_, ?_⟩
  · rw [hlive.uncancelled] at hcancelled
    cases hcancelled hcan
  · rintro ⟨k, hk, hlt, hkid⟩
    refine hlive.newest ⟨k, hses ▸ hk, hlt, ?_⟩
    rw [hid, hid, hkid]

theorem handler_before (hs : Step s i x e) (hreg : ∀ id models, i ≠ .register id models)
    (hj : ∃ j ∈ e.fresh + R, j.handlerOf h) : ∃ j ∈ i ::ₘ R, j.handlerOf h := by
  obtain ⟨j, hj, hjh⟩ := hj
  rcases Multiset.mem_add.mp hj with hj | hj
  · exact ⟨i, Multiset.mem_cons_self i R, hs.handlerOf_of_fresh hreg hj hjh⟩
  · exact ⟨j, Multiset.mem_cons_of_mem hj, hjh⟩

theorem SameRegistry.registered (hsame : SameRegistry s s') (hr : s.registered h) :
    s'.registered h := by
  rw [Server.registered_iff, hsame.workers, hsame.id]
  exact Server.registered_iff.mp hr

theorem evicting_after (hs : Step s i x e) (hun : (e.shared.worker h).cancelled = false)
    (hj : ∃ j ∈ i ::ₘ R, j.evicting h) : ∃ j ∈ e.fresh + R, j.evicting h := by
  obtain ⟨j, hj, hje⟩ := hj
  rcases Multiset.mem_cons.mp hj with rfl | hj
  · rcases hs.evicting_kept hje with ⟨k, hk, hke⟩ | hcan
    · exact ⟨k, Multiset.mem_add.mpr (.inl hk), hke⟩
    · rw [hun] at hcan
      cases hcan
  · exact ⟨j, Multiset.mem_add.mpr (.inr hj), hje⟩

theorem Step.routable (hs : Step s i x e)
    (hconn : ∀ h, (i ::ₘ R).countP (·.connOf h) ≤ if h < s.nextSes + 1 then 1 else 0)
    (hguard : ∀ h, i = .unregister h .stale → s.registered h →
      (s.worker h).cancelled ∨ ∀ j ∈ i ::ₘ R, ¬ j.handlerOf h)
    (hI : Routable s (i ::ₘ R)) : Routable e.shared (e.fresh + R) := by
  intro h hlive
  have hpos (hex : ∃ j ∈ R, j.handlerOf h) : 0 < R.countP (·.connOf h) := by
    obtain ⟨j, hj, hjh⟩ := hex
    exact Multiset.countP_pos.mpr ⟨j, hj, Instr.connOf_of_handlerOf hjh⟩
  have hcount := hconn h
  rw [Multiset.countP_cons] at hcount
  rcases hs.registry_cases with
    ⟨id, models, rfl, rfl⟩ | ⟨k, cause, rfl, hr, rfl⟩ | ⟨hreg, hsame⟩
  · refine hI.register (fun j hj hjh ↦ ?_) hlive
    have := hpos ⟨j, hj, hjh⟩
    by_contra hle
    have hlt : ¬ h < s.nextSes + 1 := by omega
    rw [if_neg hlt] at hcount
    omega
  · have hbefore := handler_before hs (by simp) hlive.handler
    by_cases hh : h = k
    · subst hh
      cases cause with
      | evicted => exact .inr ⟨.fail h .evicted, by simp, by simp [Instr.evicting]⟩
      | stale =>
        rcases hguard h rfl hr with hcan | hnone
        · rw [hlive.uncancelled] at hcan
          cases hcan
        · obtain ⟨j, hj, hjh⟩ := hbefore
          exact absurd hjh (hnone j hj)
      | disconnected =>
        -- the handler that removes its own worker is past its reader loop
        obtain ⟨j, hj, hjh⟩ := hbefore
        rcases Multiset.mem_cons.mp hj with rfl | hj
        · simp [Instr.handlerOf, Instr.readerOf] at hjh
        · have := hpos ⟨j, hj, hjh⟩
          rw [if_pos (by simp [Instr.connOf])] at hcount
          split at hcount <;> omega
    · rcases hI h (hlive.before rfl (fun _ ↦ rfl) id hbefore) with hrh | hj
      · exact .inl (registered_erase hrh hr hh)
      · exact .inr (evicting_after hs hlive.uncancelled hj)
  · have hold := hlive.before hsame.nextSes hsame.id (hsame.cancelled h)
      (handler_before hs hreg hlive.handler)
    rcases hI h hold with hr | hj
    · exact .inl (hsame.registered hr)
    · exact .inr (evicting_after hs hlive.uncancelled hj)

end

section

variable {t : Time} {d : Duration} {n : ℕ} {c : Config Server Instr} {h : ℕ}

theorem routable_of_runs (hc : controlPlane.Runs SparesLive (boot (new t d n)) c) :
    Routable c.shared c.soup := by
  have hrun := hc.strengthen fun c hc h ↦ conn_le_one hc.reaches h
  refine hrun.soup_invariant Routable ?_ ?_
  · rintro k ⟨⟨i, hi, hik⟩, -, -⟩
    have hi : i = .serve ∨ i = .evict ∨ i = .place := by simpa [boot, Config.soup] using hi
    rcases hi with rfl | rfl | rfl <;> simp [Instr.handlerOf, Instr.readerOf] at hik
  · intro c i x R e hsoup hI hg he
    obtain ⟨hspare, hconn⟩ := hg
    rw [hsoup] at hconn
    refine (step_of_exec he).routable hconn (fun k hi hr ↦ ?_) hI
    subst hi
    exact hsoup ▸ hspare hr

/-- Whenever no eviction of it is half done, a stream that is being read, is not cancelled and
is the newest of its worker id is the one the registry holds for that id. -/
theorem live_streams_routable (hc : controlPlane.Runs SparesLive (boot (new t d n)) c)
    (hreader : ∃ i ∈ c.soup, i.readerOf h) (huncancelled : (c.shared.worker h).cancelled = false)
    (hnewest : ¬ Superseded c.shared h) (hevict : ∀ j ∈ c.soup, ¬ j.evicting h) :
    c.shared.workers.lookup (c.shared.worker h).id = some h ∧
      (c.shared.worker h).snapshot c.shared.clock c.shared.heartbeatTimeout ∈ c.shared.fleet := by
  obtain ⟨i, hi, hih⟩ := hreader
  have hlive : Live c.shared c.soup h :=
    ⟨⟨i, hi, Instr.handlerOf_of_readerOf hih⟩, huncancelled, hnewest⟩
  rcases routable_of_runs hc h hlive with hr | ⟨j, hj, hje⟩
  · have hlookup := Server.registered_iff.mp hr
    exact ⟨hlookup, List.mem_map.mpr ⟨_, AList.mem_lookup_iff.mp hlookup, rfl⟩⟩
  · exact absurd hje (hevict j hj)

end

/-- Two workers connect, the first falls silent and leaves, and the scan removes it while the
second goes on. -/
theorem live_streams_routable_twoWorkers :
    ∃ c, controlPlane.Runs SparesLive (boot (new 0 0 0)) c ∧
      c.shared.workers.lookup "a" = none ∧ c.shared.workers.lookup "b" = some 2 := by
  have hrun : ∃ c, controlPlane.Runs SparesLive (boot (new 0 0 0)) c ∧
      (c.shared.workers.lookup "a" = none ∧ (c.shared.worker 2).id = "b") ∧
      .read 2 ∈ c.soup ∧ (c.shared.worker 2).cancelled = false ∧
      ¬ Superseded c.shared 2 ∧ ∀ j ∈ c.soup, ¬ j.evicting 2 := by
    apply Machine.exists_run [(0, .connect "a" [⟨"m", ""⟩]), (3, .go), (3, .go), (0, .connect "b" [⟨"m", ""⟩]),
      (5, .go), (5, .go), (0, .tick 46000000000), (5, .message (.heartbeat {})), (1, .go),
      (1, .stale [1]), (3, .streamEnd), (1, .go), (1, .order [] [])]
    decide +kernel
  obtain ⟨c, hc, ⟨ha, hb⟩, hreader, huncancelled, hnewest, hevict⟩ := hrun
  obtain ⟨hlookup, -⟩ := live_streams_routable hc ⟨_, hreader, rfl⟩ huncancelled hnewest hevict
  exact ⟨c, hc, ha, hb ▸ hlookup⟩

/-- The scan removes a worker that was silent for longer than the timeout but leaves its
stream open; the heartbeats that follow are applied to a worker `Fleet` no longer shows. -/
theorem stale_eviction_strands_live_stream :
    ∃ c, controlPlane.Reaches (boot (new 0 0 0)) c ∧
      c.soup = {.serve, .evict, .place, .read 1, .write 1} ∧
      (c.shared.worker 1).cancelled = false ∧ ¬ Superseded c.shared 1 ∧
      (c.shared.worker 1).lastHeartbeat = c.shared.clock ∧ c.shared.fleet = [] := by
  apply Machine.exists_run [(0, .connect "a" [⟨"m", ""⟩]), (3, .go), (3, .go), (0, .tick 46000000000),
    (1, .go), (1, .stale [1]), (1, .go), (1, .order [] []), (3, .message (.heartbeat {}))]
  decide +kernel

end AgentGpu.ControlPlane
