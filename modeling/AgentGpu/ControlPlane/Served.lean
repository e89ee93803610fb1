import AgentGpu.ControlPlane.Submission

namespace AgentGpu.ControlPlane

open Foundation

/-- A model counts as served exactly when a worker within the timeout advertises it, and a job
for it is turned away otherwise, if and only if no worker past the timeout that is draining
advertises it alone. -/
theorem served_means_live_iff (g : Gateway) (model : String) :
    ((modelServed g.server model ↔ g.server.Live model) ∧
      (¬g.server.Live model → ∀ (sub : Submission) (keyID : String) (priority : ℤ),
        sub.job.validate = none → sub.job.model = model →
          g.submit sub keyID priority = .refused .modelUnavailable)) ↔
    ∀ h, g.server.Advertises model h → (g.server.worker h).draining → g.server.pastTimeout h →
      g.server.Live model := by
  constructor
  · rintro ⟨hserved, -⟩ h hholds hdraining -
    exact hserved.mp (modelServed_iff.mpr ⟨h, hholds, .inl hdraining⟩)
  · intro halone
    have hserved : modelServed g.server model ↔ g.server.Live model := by
      rw [modelServed_iff]
      constructor
      · rintro ⟨h, hholds, hdraining | hlive⟩
        · by_cases hpast : g.server.pastTimeout h
          · exact halone h hholds hdraining hpast
          · exact ⟨h, hholds, hpast⟩
        · exact ⟨h, hholds, hlive⟩
      · rintro ⟨h, hholds, hlive⟩
        exact ⟨h, hholds, .inr hlive⟩
    refine ⟨hserved, fun hnone sub keyID priority hvalid hmodel ↦ ?_⟩
    subst hmodel
    exact g.submit_unserved hvalid (Bool.eq_false_iff.mpr (mt hserved.mp hnone)) keyID priority

/-- The only worker with the model is draining and has been silent for longer than the timeout;
the job is queued for it. -/
theorem silent_draining_worker_serves :
    ∃ c, controlPlane.Reaches (boot (new 0 0 0)) c ∧
      let g : Gateway := { server := c.shared, quota := { clock := 0 } }
      ¬g.server.Live "m" ∧ modelServed g.server "m" ∧
        g.submit ⟨⟨"id", "m", 0⟩, ""⟩ "key" 1 = .queued 1 0 := by
  have hrun : ∃ c, controlPlane.Reaches (boot (new 0 0 0)) c ∧
      (∀ entry ∈ c.shared.workers.entries, c.shared.pastTimeout entry.2) ∧
      modelServed c.shared "m" ∧
      Gateway.submit { server := c.shared, quota := { clock := 0 } } ⟨⟨"id", "m", 0⟩, ""⟩ "key" 1 =
        .queued 1 0 := by
    apply Machine.exists_run [(0, .connect "w" [⟨"m", ""⟩]), (3, .go), (3, .go),
      (3, .message .deregister), (0, .tick 45000000001)]
    decide +kernel
  obtain ⟨c, hc, hpast, hserved, hqueued⟩ := hrun
  refine ⟨c, hc, ?_, hserved, hqueued⟩
  rintro ⟨h, ⟨⟨id, hid⟩, -⟩, hlive⟩
  exact hlive (hpast ⟨id, h⟩ (AList.mem_lookup_iff.mp hid))

end AgentGpu.ControlPlane
