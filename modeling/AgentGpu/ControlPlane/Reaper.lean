import AgentGpu.Foundation.Schedules
import AgentGpu.ControlPlane.Draining
import AgentGpu.ControlPlane.Routing

namespace AgentGpu.ControlPlane

open Foundation

variable {s : Server} {i : Instr} {x : Choice} {e : Effect Server Instr} {R : Multiset Instr} {h : ℕ}

theorem Step.clock_le (hs : Step s i x e) : s.clock ≤ e.shared.clock := by
  induction hs with
  | tick d => exact Int.le_add_of_nonneg_right (Int.natCast_nonneg d)
  | _ => exact le_rfl

theorem Step.unregistered (hs : Step s i x e) (hknown : h ≤ s.nextSes)
    (hr : s.registered h = false) : e.shared.registered h = false := by
  have hlookup : s.workers.lookup (s.worker h).id ≠ some h := by simpa [Server.registered] using hr
  rw [Server.registered, decide_eq_false_iff_not]
  rcases hs.registry_cases with ⟨id, models, -, rfl⟩ | ⟨k, cause, -, -, rfl⟩ | ⟨-, hsame⟩
  · rw [addWorker_of_ne (by omega)]
    intro hl
    rcases Table.lookup_insert_cases hl with ⟨-, hnew⟩ | hold
    · omega
    · exact hlookup hold
  · exact fun hl ↦ hlookup (Table.lookup_of_erase hl)
  · rwa [hsame.workers, hsame.id]

namespace Instr

def removes (h : ℕ) : Instr → Bool
  | .fail k _ | .cancel k => k == h
  | _ => false

theorem handle_of_removes (hi : i.removes h) : i.handle = some h := by
  cases i with
  | fail k | cancel k => exact congrArg some (eq_of_beq hi)
  | _ => cases hi

end Instr

theorem Step.cancelled_cases (hs : Step s i x e) (hc : (e.shared.worker h).cancelled) :
    (s.worker h).cancelled ∨ i.removes h := by
  have hsame {s' : Server} {k : ℕ} {w : Worker} (hworker : s'.worker = Function.update s.worker k w)
      (hw : w.cancelled → (s.worker k).cancelled) (hc : (s'.worker h).cancelled) :
      (s.worker h).cancelled ∨ i.removes h := by
    rw [hworker] at hc
    by_cases hk : h = k
    · subst hk
      rw [Function.update_self] at hc
      exact .inl (hw hc)
    · rw [Function.update_of_ne hk] at hc
      exact .inl hc
  induction hs with
  | register id models =>
    by_cases hh : h = s.nextSes + 1
    · subst hh
      simp [addWorker, Server.setWorker] at hc
    · rw [addWorker_of_ne hh] at hc
      exact .inl hc
  | cancel k =>
    by_cases hk : h = k
    · exact .inr (beq_iff_eq.mpr hk.symm)
    · rw [Server.setWorker_of_ne hk] at hc
      exact .inl hc
  | _ =>
    first
    | exact .inl hc
    | exact hsame rfl (by exact id) hc

theorem Step.removes_fresh (hs : Step s i x e) : ∀ j ∈ e.fresh, j.removes h →
    i.removes h ∨ ∃ cause, i = .unregister h cause := by
  intro j hj hk
  have hleft := hs.leaves j hj
  cases j with
  | fail k cause =>
    obtain rfl := eq_of_beq hk
    exact .inr ⟨cause, hleft⟩
  | cancel k =>
    obtain ⟨cause, rfl⟩ := hleft
    exact .inl hk
  | _ => cases hk

def Departed (s : Server) (S : Multiset Instr) : Prop :=
  ∀ h ≤ s.nextSes, (s.worker h).cancelled ∨ (∃ j ∈ S, j.removes h) → s.registered h = false

theorem Step.registered_of_unregister {cause : Cause} (hs : Step s (.unregister h cause) x e) :
    e.shared.registered h = false := by
  cases hs with
  | quit hq => cases hq
  | unregisterOther hr => exact hr
  | unregister hr => simp [Server.registered]

theorem Step.departed (hs : Step s i x e) (hK : ∀ j ∈ i ::ₘ R, HandlesKnown s j)
    (hI : Departed s (i ::ₘ R)) : Departed e.shared (e.fresh + R) := by
  intro h hle hgone
  have hknown {j : Instr} (hj : j ∈ i ::ₘ R) (hjh : j.removes h) : h ≤ s.nextSes :=
    hK j hj h (Instr.handle_of_removes hjh)
  have hrest {j : Instr} (hj : j ∈ i ::ₘ R) (hjh : j.removes h) : e.shared.registered h = false :=
    hs.unregistered (hknown hj hjh) (hI h (hknown hj hjh) (.inr ⟨j, hj, hjh⟩))
  rcases hgone with hcan | ⟨j, hj, hjh⟩
  · rcases hs.cancelled_cases hcan with hold | hi
    · by_cases hses : h ≤ s.nextSes
      · exact hs.unregistered hses (hI h hses (.inl hold))
      · -- only a registration gives out a number, to a stream that is not cancelled
        rcases hs.nextSes_eq with hsame | ⟨id, models, -, rfl⟩
        · omega
        · obtain rfl : h = s.nextSes + 1 := Nat.le_antisymm hle (by omega)
          simp [addWorker, Server.setWorker] at hcan
    · exact hrest (Multiset.mem_cons_self i R) hi
  · rcases Multiset.mem_add.mp hj with hj | hj
    · rcases hs.removes_fresh j hj hjh with hi | ⟨cause, rfl⟩
      · exact hrest (Multiset.mem_cons_self i R) hi
      · exact hs.registered_of_unregister
    · exact hrest (Multiset.mem_cons_of_mem hj) hjh

theorem Step.evicted_fresh (hs : Step s i x e) : ∀ j ∈ e.fresh, j = .unregister h .evicted →
    ∃ deadline, i = .reap h deadline := by
  intro j hj heq
  subst heq
  exact hs.leaves _ hj

theorem exec_reap_cases {deadline : Time} (he : controlPlane.exec s (.reap h deadline) x = some e) :
    e = ⟨s, [], []⟩ ∧ (s.worker h).cancelled ∨
      e = ⟨s, [.unregister h .evicted], []⟩ ∧ ((s.worker h).inFlight = 0 ∨ deadline ≤ s.clock) := by
  cases x <;> simp only [controlPlane, exec, execAdmin, reduceCtorEq] at he
  · split_ifs at he with hcan
    cases he
    exact .inl ⟨rfl, hcan⟩
  · split_ifs at he with hdue
    cases he
    exact .inr ⟨rfl, .inr hdue⟩
  · split_ifs at he with hidle
    cases he
    exact .inr ⟨rfl, .inl hidle⟩

/-- Goroutine `k` evicts stream `h` once it is idle or the deadline has passed, and no sooner. -/
structure Enforces (c : Config Server Instr) (k h : ℕ) (deadline : Time) : Prop where
  notEarly : ∀ c', controlPlane.Reaches c c' → ∀ i rest x e, c'.threads[k]? = some (i :: rest) →
    controlPlane.exec c'.shared i x = some e → .unregister h .evicted ∈ e.next →
      (c'.shared.worker h).inFlight = 0 ∨ deadline ≤ c'.shared.clock
  evicts : ∀ X : Execution controlPlane.turn, X.state 0 = c → (∀ t, X.Fair (·.thread = t)) →
    ∀ n, (deadline ≤ (X.state n).shared.clock ∨
      ∀ m, n ≤ m → ((X.state m).shared.worker h).inFlight = 0) →
      ∃ m, n ≤ m ∧ (X.state m).shared.registered h = false

section

variable {c c' : Config Server Instr} {k : ℕ} {deadline : Time}

theorem reaper_not_early (hk : c.threads[k]? = some [.reap h deadline])
    (hc : controlPlane.Reaches c c') {rest : List Instr} (hk' : c'.threads[k]? = some (i :: rest))
    (he : controlPlane.exec c'.shared i x = some e) (hevict : .unregister h .evicted ∈ e.next) :
    (c'.shared.worker h).inFlight = 0 ∨ deadline ≤ c'.shared.clock := by
  -- the goroutine waits, or it has left its loop and no other goroutine's loop is entered
  have hinv := hc.thread_invariant
    (fun _ th ↦ th = [Instr.reap h deadline] ∨ ∀ (h' : ℕ) (d : Time), Instr.reap h' d ∉ th)
    ⟨_, hk, .inl rfl⟩
    (fun s i rest x e hP he ↦ .inr fun h' d hmem ↦ ?_) (fun _ _ _ _ _ hP _ ↦ hP)
  · obtain ⟨th, hth, hP⟩ := hinv
    obtain rfl := Option.some.inj (hth.symm.trans hk')
    rcases hP with hwait | hleft
    · obtain ⟨rfl, rfl⟩ := List.cons.inj hwait
      rcases exec_reap_cases he with ⟨rfl, -⟩ | ⟨rfl, hdue⟩
      · cases hevict
      · exact hdue
    · obtain ⟨d, rfl⟩ := (step_of_exec he).evicted_fresh _ (Effect.mem_fresh.mpr (.inl hevict)) rfl
      exact absurd List.mem_cons_self (hleft h d)
  · rcases List.mem_append.mp hmem with hnext | hrest
    · obtain ⟨d', rfl⟩ := (step_of_exec he).reap_fresh (Effect.mem_fresh.mpr (.inl hnext))
      cases x <;> simp only [controlPlane, exec, execAdmin, reduceCtorEq] at he
      cases he
      cases hnext
    · rcases hP with hwait | hleft
      · rw [(List.cons.inj hwait).2] at hrest
        cases hrest
      · exact hleft h' d (List.mem_cons_of_mem i hrest)

variable {t : Time} {d : Duration} {n : ℕ}

theorem departed_of_reaches (hc : controlPlane.Reaches (boot (new t d n)) c) :
    Departed c.shared c.soup := by
  have hrun := hc.strengthen fun c hc ↦ (known_of_reaches hc).2
  refine hrun.soup_invariant Departed ?_ ?_
  · simp [Departed, boot, new, Config.soup, Instr.removes]
  · intro c i x R e hsoup hI hg he
    exact (step_of_exec he).departed (hsoup ▸ hg.2) hI

/-- Where the reaper of stream `h` is: it waits, it is about to remove the stream from the
registry, or the stream is out of it. -/
def Reaping (k h : ℕ) (deadline : Time) (c : Config Server Instr) : Prop :=
  c.threads[k]? = some [.reap h deadline] ∨ c.threads[k]? = some [.unregister h .evicted]

theorem Reaping.step (hc : controlPlane.Reaches (boot (new t d n)) c) (hP : Reaping k h deadline c)
    {a : Turn Instr Choice} (hturn : controlPlane.turn c a = some c') :
    c'.shared.registered h = false ∨
      a.thread ≠ k ∧ c'.threads[k]? = c.threads[k]? ∨
      c.threads[k]? = some [.reap h deadline] ∧ c'.threads[k]? = some [.unregister h .evicted] := by
  obtain ⟨rest, e, hhead, he, rfl⟩ := Machine.turn_eq_some.mp hturn
  by_cases hak : a.thread = k
  · subst hak
    have hs := step_of_exec he
    rcases hP with hwait | hgo
    · obtain ⟨hinstr, rfl⟩ := List.cons.inj (Option.some.inj (hhead.symm.trans hwait))
      rw [hinstr] at he
      have hin : .reap h deadline ∈ c.soup :=
        Config.mem_soup.mpr ⟨_, List.mem_of_getElem? hwait, List.mem_cons_self⟩
      rcases exec_reap_cases he with ⟨rfl, hcan⟩ | ⟨rfl, -⟩
      · exact .inl (departed_of_reaches hc h ((known_of_reaches hc).2 _ hin h rfl) (.inl hcan))
      · exact .inr (.inr ⟨hwait, Config.getElem?_after_self hhead _⟩)
    · obtain ⟨hinstr, rfl⟩ := List.cons.inj (Option.some.inj (hhead.symm.trans hgo))
      rw [hinstr] at hs
      exact .inl hs.registered_of_unregister
  · obtain ⟨th, hth⟩ : ∃ th, c.threads[k]? = some th := hP.elim (fun hk ↦ ⟨_, hk⟩) fun hk ↦ ⟨_, hk⟩
    refine .inr (.inl ⟨hak, ?_⟩)
    rw [hth]
    exact Config.getElem?_after_of_ne hth (Ne.symm hak) e

theorem Reaping.ready (hP : Reaping k h deadline c)
    (hdue : (c.shared.worker h).inFlight = 0 ∨ deadline ≤ c.shared.clock) :
    Ready controlPlane.turn (·.thread = k) c := by
  rcases hP with hwait | hgo
  · rcases hdue with hidle | hdue
    · refine Machine.ready_of_head (x := .ticker) hwait ?_ rfl
      simp [controlPlane, exec, execAdmin, hidle]
    · refine Machine.ready_of_head (x := .timer) hwait ?_ rfl
      simp [controlPlane, exec, execAdmin, hdue]
  · exact Machine.ready_of_head (x := .go) hgo rfl rfl

theorem Reaping.known (hc : controlPlane.Reaches (boot (new t d n)) c)
    (hP : Reaping k h deadline c) : h ≤ c.shared.nextSes := by
  have hhead {i : Instr} (hk : c.threads[k]? = some [i]) (hi : i.handle = some h) :
      h ≤ c.shared.nextSes :=
    (known_of_reaches hc).2 i
      (Config.mem_soup.mpr ⟨[i], List.mem_of_getElem? hk, List.mem_singleton_self i⟩) h hi
  exact hP.elim (hhead · rfl) (hhead · rfl)

variable {X : Execution controlPlane.turn}

theorem reaches_of_execution (hc : controlPlane.Reaches (boot (new t d n)) (X.state 0)) (m : ℕ) :
    controlPlane.Reaches (boot (new t d n)) (X.state m) := by
  refine Execution.always hc (fun m a _ ha hm ↦ ?_) m m.zero_le
  obtain ⟨rest, e, hhead, he, hafter⟩ := Machine.turn_eq_some.mp (X.step_of_event ha)
  exact hafter ▸ hm.step hhead trivial he

theorem reaping_or_unregistered (hc : controlPlane.Reaches (boot (new t d n)) (X.state 0))
    (hP : Reaping k h deadline (X.state 0)) (m : ℕ) :
    Reaping k h deadline (X.state m) ∨
      h ≤ (X.state m).shared.nextSes ∧ (X.state m).shared.registered h = false := by
  refine Execution.always (P := fun c ↦ Reaping k h deadline c ∨
    h ≤ c.shared.nextSes ∧ c.shared.registered h = false) (.inl hP) (fun m a _ ha hm ↦ ?_) m m.zero_le
  have hturn := X.step_of_event ha
  obtain ⟨rest, e, hhead, he, hafter⟩ := Machine.turn_eq_some.mp hturn
  have hs := step_of_exec he
  have hses : (X.state m).shared.nextSes ≤ (X.state (m + 1)).shared.nextSes := hafter ▸ hs.nextSes_le
  rcases hm with hP | ⟨hle, hr⟩
  · rcases hP.step (reaches_of_execution hc m) hturn with hr | ⟨-, hsame⟩ | ⟨-, hgo⟩
    · exact .inr ⟨(hP.known (reaches_of_execution hc m)).trans hses, hr⟩
    · exact .inl (by rwa [Reaping, hsame])
    · exact .inl (.inr hgo)
  · exact .inr ⟨hle.trans hses, hafter ▸ hs.unregistered hle hr⟩

theorem reaper_evicts (hc : controlPlane.Reaches (boot (new t d n)) (X.state 0))
    (hP : Reaping k h deadline (X.state 0)) (hfair : X.Fair (·.thread = k)) {n₀ : ℕ}
    (hdue : deadline ≤ (X.state n₀).shared.clock ∨
      ∀ m, n₀ ≤ m → ((X.state m).shared.worker h).inFlight = 0) :
    ∃ m, n₀ ≤ m ∧ (X.state m).shared.registered h = false := by
  have hclock (hdue : deadline ≤ (X.state n₀).shared.clock) :
      ∀ m, n₀ ≤ m → deadline ≤ (X.state m).shared.clock := by
    refine Execution.always (P := fun c : Config Server Instr ↦ deadline ≤ c.shared.clock) hdue
      fun m a _ ha hm ↦ ?_
    obtain ⟨rest, e, -, he, hafter⟩ := Machine.turn_eq_some.mp (X.step_of_event ha)
    exact hafter ▸ hm.trans (step_of_exec he).clock_le
  rcases reaping_or_unregistered hc hP n₀ with hn | ⟨-, hr⟩
  · -- two steps of the reaper at most are left: out of its loop and into the registry
    refine hfair.leadsTo (P := Reaping k h deadline) (Q := fun c : Config Server Instr ↦ c.shared.registered h = false)
      (fun c ↦ if c.threads[k]? = some [.reap h deadline] then 1 else 0) (fun m a ha hm ↦ ?_)
      ⟨n₀, fun m hm hPm ↦ hPm.ready ?_⟩ hn
    · rcases hm.step (reaches_of_execution hc m) (X.step_of_event ha) with
        hr | ⟨hother, hsame⟩ | ⟨hwait, hgo⟩
      · exact .inl hr
      · exact .inr ⟨by rwa [Reaping, hsame], by simp [hsame], fun hown ↦ absurd hown hother⟩
      · exact .inr ⟨.inr hgo, by simp [hwait, hgo], fun _ ↦ by simp [hwait, hgo]⟩
    · exact hdue.symm.imp (fun hidle ↦ hidle m hm) fun hdue ↦ hclock hdue m hm
  · exact ⟨n₀, le_rfl, hr⟩

theorem enforces_of_reaper (hc : controlPlane.Reaches (boot (new t d n)) c)
    (hk : c.threads[k]? = some [.reap h deadline]) : Enforces c k h deadline where
  notEarly _ hc' _ _ _ _ hk' he hevict := reaper_not_early hk hc' hk' he hevict
  evicts _ hstart hfair _ hdue :=
    reaper_evicts (hstart.symm ▸ hc) (.inl (hstart.symm ▸ hk)) (hfair k) hdue

end

end AgentGpu.ControlPlane
