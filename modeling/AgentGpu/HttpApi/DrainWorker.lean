import AgentGpu.ControlPlane.Reaper
import AgentGpu.HttpApi.Config
import AgentGpu.HttpApi.Idempotency

namespace AgentGpu.HttpApi

open Foundation ControlPlane

/-- The body of a drain request: none, one that is not a JSON object, or an object by the value
it has for `deadline_seconds`. -/
inductive DrainBody
  | empty
  | malformed
  | object (deadlineSeconds : Option Raw)
  deriving DecidableEq

/-- `DeadlineSeconds` after `Decode`; an absent field and `null` leave it zero. -/
def decodeDrainRequest : DrainBody → Option ℤ
  | .empty | .object none | .object (some .null) => some 0
  | .object (some (.int n)) => if -2 ^ 63 ≤ n ∧ n < 2 ^ 63 then some n else none
  | _ => none

/-- `time.Duration(n) * time.Second`, in 64 bits. -/
def inSeconds (n : ℤ) : Duration := (n * second).bmod (2 ^ 64)

/-- The handler up to its call of `DrainWorkerWithDeadline`. -/
def drainDeadline (body : DrainBody) : Except Response Duration :=
  match decodeDrainRequest body with
  | none => .error ⟨400, .error "invalid_request_error" "malformed request body"⟩
  | some n =>
    if n < 0 then .error ⟨400, .error "invalid_request_error" "deadline_seconds must be >= 0"⟩
    else .ok (inSeconds n)

/-- The response, and the stream and deadline that the call has found when it is 204. -/
def handleAdminDrainWorker (s : Server) (id : String) (body : DrainBody) :
    Response × Option (ℕ × Duration) :=
  match drainDeadline body with
  | .error res => (res, none)
  | .ok deadline =>
    match s.workers.lookup id with
    | none => (⟨404, .error "not_found" "worker not found"⟩, none)
    | some h => (⟨204, .empty⟩, some (h, deadline))

variable {s : Server} {id : String} {body : DrainBody} {h : ℕ} {n : ℤ} {deadline : Duration}

theorem inSeconds_eq_iff (hpos : 0 < n) : inSeconds n = n * second ↔ n ≤ 9223372036 := by
  have hlt : inSeconds n < (2 ^ 64 + 1) / 2 := Int.bmod_lt (by decide)
  constructor
  · intro heq
    have hwide : n * 1000000000 < (2 ^ 64 + 1) / 2 := heq ▸ hlt
    omega
  · intro hn
    refine Int.bmod_eq_of_le ?_ ?_ <;> rw [second] <;> omega

theorem exec_drain (hres : handleAdminDrainWorker s id body = (⟨204, .empty⟩, some (h, deadline))) :
    drainDeadline body = .ok deadline ∧
      controlPlane.exec s (.drain id deadline) .go = some ⟨s, [.markDraining h deadline], []⟩ := by
  unfold handleAdminDrainWorker at hres
  split at hres
  · cases hres
  · next δ hδ =>
    split at hres
    · cases hres
    · next k hk =>
      cases hres
      exact ⟨hδ, by simp [controlPlane, exec, execAdmin, hk]⟩

theorem drainDeadline_eq (hn : decodeDrainRequest body = some n) (hpos : 0 < n) :
    drainDeadline body = .ok (inSeconds n) := by
  simp [drainDeadline, hn, hpos.not_gt]

theorem exec_markDraining (hpos : 0 < deadline) :
    controlPlane.exec s (.markDraining h deadline) .go = some ⟨s.setWorker h (s.worker h).markDraining, [],
      [[.reap h (s.clock + deadline)]]⟩ := by
  simp [controlPlane, exec, execAdmin, hpos.not_ge]

structure ForcedDrain (c : Config Server Instr) (k : ℕ) (rest : List Instr) (h : ℕ) (deadline : Time)
    (e : Effect Server Instr) : Prop where
  draining : (e.shared.worker h).draining = true
  reaper : e.spawned = [[.reap h deadline]]
  enforced : Enforces (c.after k rest e) c.threads.length h deadline

variable {t : Time} {d : Duration} {m k : ℕ} {c : Config Server Instr} {rest : List Instr}

/-- A drain request for `n` seconds that is answered with 204 has drained the worker, with a
goroutine that evicts it once it is idle or `n` seconds have passed and no sooner, exactly if
`n` seconds fit into a 64-bit number of nanoseconds. -/
theorem drain_deadline_exact_iff (hn : decodeDrainRequest body = some n) (hpos : 0 < n)
    (hres : handleAdminDrainWorker s id body = (⟨204, .empty⟩, some (h, deadline)))
    (hc : controlPlane.Reaches (boot (new t d m)) c)
    (hk : c.threads[k]? = some (.markDraining h deadline :: rest)) :
    (∃ e, controlPlane.exec c.shared (.markDraining h deadline) .go = some e ∧
      ForcedDrain c k rest h (c.shared.clock + n * second) e) ↔ n ≤ 9223372036 := by
  obtain rfl : inSeconds n = deadline :=
    Except.ok.inj ((drainDeadline_eq hn hpos).symm.trans (exec_drain hres).1)
  rw [← inSeconds_eq_iff hpos]
  constructor
  · rintro ⟨e, he, hforced⟩
    cases he
    have hreaper := hforced.reaper
    split_ifs at hreaper
    simpa using hreaper
  · intro heq
    have hspan : 0 < n * second := Int.mul_pos hpos (by decide)
    have he := exec_markDraining (s := c.shared) (h := h) (heq.symm ▸ hspan)
    rw [heq] at hk he ⊢
    refine ⟨_, he, Server.setWorker_self ▸ rfl, rfl, ?_⟩
    refine enforces_of_reaper (hc.step hk trivial he) ?_
    simp [Config.after]

theorem drain_deadline_exact_iff_thirty :
    ∃ c, controlPlane.Reaches (boot (new 0 0 0)) c ∧
      c.threads[5]? = some [.markDraining 1 30000000000] ∧
      ∃ e, controlPlane.exec c.shared (.markDraining 1 30000000000) .go = some e ∧
        ForcedDrain c 5 [] 1 (c.shared.clock + 30 * second) e := by
  have hrun : ∃ c, controlPlane.Reaches (boot (new 0 0 0)) c ∧
      c.threads[5]? = some [.markDraining 1 30000000000] ∧
      handleAdminDrainWorker c.shared "w" (.object (some (.int 30))) =
        (⟨204, .empty⟩, some (1, 30000000000)) := by
    apply Machine.exists_run [(0, .connect "w" [⟨"m", ""⟩]), (3, .go), (3, .go), (0, .drain "w" (inSeconds 30)), (5, .go)]
    decide +kernel
  obtain ⟨c, hc, hk, hres⟩ := hrun
  exact ⟨c, hc, hk, (drain_deadline_exact_iff (by decide) (by decide) hres hc hk).mpr (by decide)⟩

/-- A deadline of 9223372037 seconds comes out negative: the worker is left to a soft drain. One
of 18446744074 seconds comes out as 0.29 seconds: the worker is evicted then, with a job in
flight. -/
theorem drain_deadline_wraps :
    ∃ c, controlPlane.Reaches (boot (new 0 0 0)) c ∧
      (handleAdminDrainWorker c.shared "w" (.object (some (.int 9223372037))) =
          (⟨204, .empty⟩, some (1, -9223372036709551616)) ∧
        controlPlane.exec c.shared (.markDraining 1 (-9223372036709551616)) .go =
          some ⟨c.shared.setWorker 1 (c.shared.worker 1).markDraining, [], []⟩) ∧
      handleAdminDrainWorker c.shared "w" (.object (some (.int 18446744074))) =
          (⟨204, .empty⟩, some (1, 290448384)) ∧
        ∃ c', controlPlane.Reaches c c' ∧ c'.shared.clock = c.shared.clock + 290448384 ∧
          .unregister 1 .evicted ∈ c'.soup ∧ (c'.shared.worker 1).pending.keys = ["r"] := by
  have hrun : ∃ c, controlPlane.Reaches (boot (new 0 0 0)) c ∧
      c.shared.workers.lookup "w" = some 1 ∧
      ((controlPlane.play (fun _ _ _ ↦ True) c [(0, .drain "w" (inSeconds 18446744074)), (6, .go), (6, .go),
        (0, .tick 290448384), (7, .timer)]).any fun c' ↦
          decide (c'.shared.clock = c.shared.clock + 290448384 ∧ .unregister 1 .evicted ∈ c'.soup ∧
            (c'.shared.worker 1).pending.keys = ["r"])) = true := by
    apply Machine.exists_run [(0, .connect "w" [⟨"m", ""⟩]), (3, .go), (3, .go), (0, .request "r" none "m" false),
      (5, .worker 1), (5, .go)]
    decide +kernel
  obtain ⟨c, hc, hw, hplay⟩ := hrun
  have hres (n : ℤ) (δ : Duration) (hδ : drainDeadline (.object (some (.int n))) = .ok δ) :
      handleAdminDrainWorker c.shared "w" (.object (some (.int n))) = (⟨204, .empty⟩, some (1, δ)) := by
    simp [handleAdminDrainWorker, hδ, hw]
  exact ⟨c, hc, ⟨hres _ _ (by decide), rfl⟩, hres _ _ (by decide), Machine.exists_run _ hplay⟩

end AgentGpu.HttpApi
