import AgentGpu.ControlPlane.Dispatch
import AgentGpu.Foundation.History

namespace AgentGpu.ControlPlane

open Foundation

/-- The workers that a drain call has returned for, and the jobs that were registered as pending
on one of them, or sent to it, after that. -/
structure DrainLog where
  drained : List ℕ := []
  late : List (ℕ × Job) := []

namespace DrainLog

def noteJob (l : DrainLog) (h : ℕ) (job : Job) : DrainLog :=
  if h ∈ l.drained then { l with late := (h, job) :: l.late } else l

def note (_ : Server) : Instr → Choice → DrainLog → DrainLog
  | .markDraining h _, _, l => { l with drained := h :: l.drained }
  | .addPending _ h job, _, l => l.noteJob h job
  | .send _ h job _, .go, l => l.noteJob h job
  | _, _, l => l

end DrainLog

/-- The worker that a dispatch has picked and still has to register its job on or send it to. -/
def Instr.aims : Instr → Option ℕ
  | .addPending _ h _ | .send _ h _ _ | .addObserver h _ => some h
  | _ => none

/-- A worker is marked draining only while no dispatch that has picked it is under way. -/
def DrainsSettled (c : Config (Server × DrainLog) Instr) (i : Instr) (_ : Choice) : Prop :=
  match i with
  | .markDraining h _ => ∀ j ∈ c.soup, j.aims ≠ some h
  | _ => True

instance (c : Config (Server × DrainLog) Instr) (i : Instr) (x : Choice) : Decidable (DrainsSettled c i x) := by
  delta DrainsSettled
  induction i using Instr.casesOn <;> infer_instance

variable {s : Server} {i j : Instr} {x : Choice} {e : Effect Server Instr} {l : DrainLog}
  {R : Multiset Instr} {h : ℕ}

theorem Step.draining (hs : Step s i x e) (hknown : h ≤ s.nextSes) (hd : (s.worker h).draining) :
    (e.shared.worker h).draining := by
  have hsame {s' : Server} {k : ℕ} {w : Worker} (hworker : s'.worker = Function.update s.worker k w)
      (hw : (s.worker k).draining → w.draining) : (s'.worker h).draining := by
    rw [hworker]
    by_cases hk : h = k
    · subst hk
      rw [Function.update_self]
      exact hw hd
    · rwa [Function.update_of_ne hk]
  induction hs with
  | register id models => rwa [addWorker_of_ne (by omega)]
  | deregister | markDraining => exact hsame rfl fun _ ↦ rfl
  | _ => first
    | exact hd
    | exact hsame rfl fun hw ↦ hw

theorem draining_of_pickable (hp : s.pickable h) : (s.worker h).draining = false := by
  simp only [Server.pickable, Worker.available, Bool.and_eq_true, Bool.not_eq_true'] at hp
  exact hp.2.1

theorem Step.aims_fresh (hs : Step s i x e) :
    ∀ j ∈ e.fresh, ∀ h, j.aims = some h → (s.worker h).draining = false ∨ i.aims = some h := by
  intro j hj h haims
  have hleft := hs.leaves j hj
  cases j with
  | addPending o k job =>
    cases haims
    rcases hleft with ⟨-, -, hp⟩ | ⟨item, -, -, -, hp⟩ | ⟨rfl, -⟩
    · exact .inl (draining_of_pickable hp)
    · exact .inl (draining_of_pickable hp)
    · exact .inr rfl
  | addObserver k job =>
    cases haims
    exact .inl (draining_of_pickable hleft.2)
  | send o k job ch =>
    obtain ⟨rfl, -⟩ := hleft
    exact .inr haims
  | _ => cases haims

theorem Step.reap_fresh {deadline : Time} (hs : Step s i x e) (hj : .reap h deadline ∈ e.fresh) :
    ∃ d, i = .markDraining h d := by
  obtain ⟨d, hi, -⟩ := hs.leaves _ hj
  exact ⟨d, hi⟩

structure Quiet (s : Server) (l : DrainLog) (S : Multiset Instr) : Prop where
  draining : ∀ h ∈ l.drained, h ≤ s.nextSes ∧ (s.worker h).draining
  unaimed : ∀ h ∈ l.drained, ∀ j ∈ S, j.aims ≠ some h
  reapers : ∀ h deadline, .reap h deadline ∈ S → h ∈ l.drained
  late : l.late = []

theorem noteJob_eq (hout : h ∉ l.drained) (job : Job) : l.noteJob h job = l := if_neg hout

theorem Quiet.note_eq (hQ : Quiet s l (i ::ₘ R)) (hne : ∀ h d, i ≠ .markDraining h d) (x : Choice) :
    DrainLog.note s i x l = l := by
  have hout {h : ℕ} (hi : i.aims = some h) : h ∉ l.drained := fun hin ↦
    hQ.unaimed h hin i (Multiset.mem_cons_self i R) hi
  unfold DrainLog.note
  split
  · exact absurd rfl (hne _ _)
  · exact noteJob_eq (hout rfl) _
  · exact noteJob_eq (hout rfl) _
  · rfl

theorem Step.quiet (hs : Step s i x e) (hknown : HandlesKnown s i)
    (hguard : ∀ h d, i = .markDraining h d → ∀ j ∈ i ::ₘ R, j.aims ≠ some h) (hQ : Quiet s l (i ::ₘ R)) :
    Quiet e.shared (DrainLog.note s i x l) (e.fresh + R) := by
  have hdraining (h : ℕ) (hin : h ∈ l.drained) : h ≤ e.shared.nextSes ∧ (e.shared.worker h).draining := by
    obtain ⟨hle, hd⟩ := hQ.draining h hin
    exact ⟨hle.trans hs.nextSes_le, hs.draining hle hd⟩
  have hunaimed (h : ℕ) (hin : h ∈ l.drained) (j : Instr) (hj : j ∈ e.fresh + R) : j.aims ≠ some h := by
    rcases Multiset.mem_add.mp hj with hj | hj
    · intro haims
      rcases hs.aims_fresh j hj h haims with hnot | hi
      · rw [(hQ.draining h hin).2] at hnot
        cases hnot
      · exact hQ.unaimed h hin i (Multiset.mem_cons_self i R) hi
    · exact hQ.unaimed h hin j (Multiset.mem_cons_of_mem hj)
  by_cases hmark : ∃ h d, i = .markDraining h d
  · obtain ⟨h, d, rfl⟩ := hmark
    have hnote : DrainLog.note s (.markDraining h d) x l = { l with drained := h :: l.drained } := rfl
    rw [hnote]
    refine ⟨List.forall_mem_cons.mpr ⟨?_, hdraining⟩, List.forall_mem_cons.mpr ⟨?_, hunaimed⟩,
      fun k deadline hk ↦ ?_, hQ.late⟩
    · refine ⟨(hknown h rfl).trans hs.nextSes_le, ?_⟩
      cases hs with
      | quit hq => cases hq
      | markDraining => exact congrArg Worker.draining Server.setWorker_self
    · intro j hj
      rcases Multiset.mem_add.mp hj with hj | hj
      · cases hs with
        | quit hq => cases hq
        | markDraining hsp =>
          rcases hsp with rfl | rfl <;> simp at hj
          simp [hj, Instr.aims]
      · exact hguard h d rfl j (Multiset.mem_cons_of_mem hj)
    · rcases Multiset.mem_add.mp hk with hk | hk
      · obtain ⟨d', hi⟩ := hs.reap_fresh hk
        cases hi
        exact List.mem_cons_self
      · exact List.mem_cons_of_mem h (hQ.reapers k deadline (Multiset.mem_cons_of_mem hk))
  · have hne (h d) (hi : i = .markDraining h d) : False := hmark ⟨h, d, hi⟩
    rw [hQ.note_eq hne]
    refine ⟨hdraining, hunaimed, fun h deadline hin ↦ ?_, hQ.late⟩
    rcases Multiset.mem_add.mp hin with hin | hin
    · obtain ⟨d, hi⟩ := hs.reap_fresh hin
      exact absurd hi (hne h d)
    · exact hQ.reapers h deadline (Multiset.mem_cons_of_mem hin)

section

variable {t : Time} {d : Duration} {n : ℕ}

theorem quiet_of_runs {c : Config (Server × DrainLog) Instr}
    (hc : (controlPlane.record DrainLog.note).Runs DrainsSettled ((boot (new t d n)).logging {}) c) :
    Quiet c.shared.1 c.shared.2 c.soup := by
  have hknown := hc.strengthen fun c hc ↦ (known_of_reaches hc.erase_reaches).2
  refine hknown.record_invariant Quiet ?_ ?_
  · exact ⟨by simp [Config.logging], by simp [Config.logging], by simp [boot, Config.logging, Config.soup], rfl⟩
  · intro c i x R e hR hQ hg he
    obtain ⟨hsettled, hknown⟩ := hg
    have hi : i ∈ c.erase.soup := by
      rw [Config.erase_soup, hR]
      exact Multiset.mem_cons_self i R
    refine (step_of_exec he).quiet (hknown i hi) ?_ hQ
    rintro h d rfl
    rw [← hR]
    exact hsettled

/-- If a worker is marked draining only while no dispatch that has picked it is under way, then
after the drain no job is registered on it or sent to it, and none is about to be: neither when
its reaper finds nothing in flight and evicts it, nor at any other moment. -/
theorem drain_stops_routing {c : Config (Server × DrainLog) Instr}
    (hc : (controlPlane.record DrainLog.note).Runs DrainsSettled ((boot (new t d n)).logging {}) c) :
    c.shared.2.late = [] ∧ (∀ h ∈ c.shared.2.drained, ∀ j ∈ c.soup, j.aims ≠ some h) ∧
      ∀ h deadline, .reap h deadline ∈ c.soup → h ∈ c.shared.2.drained := by
  have hQ := quiet_of_runs hc
  exact ⟨hQ.late, hQ.unaimed, hQ.reapers⟩

theorem drain_stops_routing_idleWorker :
    ∃ c, (controlPlane.record DrainLog.note).Runs DrainsSettled ((boot (new 0 0 0)).logging {}) c ∧
      (c.shared.2.drained = [1] ∧ .unregister 1 .evicted ∈ c.soup) ∧ c.shared.2.late = [] := by
  have hrun : ∃ c, (controlPlane.record DrainLog.note).Runs DrainsSettled ((boot (new 0 0 0)).logging {}) c ∧
      (c.shared.2.drained = [1] ∧ .unregister 1 .evicted ∈ c.soup) := by
    apply Machine.exists_run [(0, .connect "w1" [{ name := "llama3" }]), (3, .go), (3, .go), (0, .drain "w1" 1000),
      (5, .go), (5, .go), (6, .ticker)]
    decide +kernel
  obtain ⟨c, hc, hdrained⟩ := hrun
  exact ⟨c, hc, hdrained, (drain_stops_routing hc).1⟩

/-- A request has picked the worker when it is marked draining. The reaper finds nothing in
flight and is about to evict it; the job is registered on it and sent after that. -/
theorem drain_races_dispatch :
    ∃ c, (controlPlane.record DrainLog.note).Runs (fun _ _ _ ↦ True) ((boot (new 0 0 0)).logging {}) c ∧
      (c.shared.2.late.map (·.1) = [1, 1] ∧ .unregister 1 .evicted ∈ c.soup) := by
  apply Machine.exists_run [(0, .connect "w1" [{ name := "llama3" }]), (3, .go), (3, .go),
    (0, .request "r1" none "llama3" false), (5, .worker 1), (0, .drain "w1" 1000), (6, .go), (6, .go), (7, .ticker),
    (5, .go), (5, .go)]
  decide +kernel

end

end AgentGpu.ControlPlane
