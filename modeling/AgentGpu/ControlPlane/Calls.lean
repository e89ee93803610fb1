import AgentGpu.ControlPlane.Replies

namespace AgentGpu.ControlPlane

open Foundation HttpApi

variable {s : Server} {i : Instr} {x : Choice} {e : Effect Server Instr} {h ch : ℕ}

theorem Instr.exists_of_awaits {jobID : String} (hi : i.awaits = some (h, jobID, ch)) :
    ∃ job : Job, job.id = jobID ∧ i.names = [(job.id, job.request)] ∧ i.dispatches job.request := by
  cases i with
  | send o k job k' | await o k job k' =>
    obtain ⟨-, rfl, -⟩ : _ = h ∧ job.id = jobID ∧ _ = ch := by simpa [awaits] using hi
    exact ⟨job, rfl, rfl, beq_self_eq_true _⟩
  | _ => cases hi

section

variable {R : Multiset Instr}

theorem Step.due_owned (hs : Step s i x e) (hK : ∀ j ∈ i ::ₘ R, HandlesKnown s j)
    (htakes : ∀ ch, (i ::ₘ R).countP (·.takes ch) ≤ 1)
    (hdispatch : ∀ r, (i ::ₘ R).countP (·.dispatches r) ≤ 1) (hown : ∀ j ∈ i ::ₘ R, j.Owned s)
    (hdue : ∀ j ∈ i ::ₘ R, ∀ h jobID ch, j.awaits = some (h, jobID, ch) →
      Due s (i ::ₘ R) h jobID ch) :
    ∀ j ∈ e.fresh + R, ∀ h jobID ch, j.awaits = some (h, jobID, ch) →
      Due e.shared (e.fresh + R) h jobID ch := by
  intro j hj h jobID ch hjch
  rcases Multiset.mem_add.mp hj with hj | hj
  · exact hs.due_fresh hK hdue hj hjch
  · have hin := Multiset.mem_cons_of_mem (b := i) hj
    obtain ⟨job, rfl, hnames, hr⟩ := Instr.exists_of_awaits hjch
    have howner : s.owner job.id = job.request :=
      hown j hin (job.id, job.request) (hnames ▸ List.mem_singleton_self _)
    have hnot : ¬ i.dispatches job.request :=
      Bool.eq_false_iff.mp (not_of_countP_le_one (hdispatch job.request) hj hr)
    have hself := hown i (Multiset.mem_cons_self i R)
    refine (hdue j hin h job.id ch hjch).step hs (hK j hin h (handle_of_awaits hjch))
      (mt Instr.takes_of_receives (not_takes_both (htakes ch) hj (takes_of_awaits hjch))) ?_ ?_
    · rintro o job' rfl hid -
      have howner' : s.owner job'.id = job'.request := hself _ (List.mem_singleton_self _)
      rw [hid, howner] at howner'
      exact hnot (beq_iff_eq.mpr howner'.symm)
    · rintro k rfl hi -
      obtain ⟨job', hid, hnames', hr'⟩ := Instr.exists_of_awaits hi
      have howner' : s.owner job'.id = job'.request :=
        hself (job'.id, job'.request) (hnames' ▸ List.mem_singleton_self _)
      rw [hid, howner] at howner'
      exact hnot (howner' ▸ hr')

end

def WaitersAtHome (s : Server) : Prop :=
  ∀ jobID ch, s.waiters.lookup jobID = some ch → ch < s.nextChan ∧ s.home ch = 0

/-- A result is delivered by the stream of the worker that its channel was made for, or by
the placement loop. -/
def Instr.AtHome (s : Server) : Instr → Prop
  | .deliver h ch _ => ch < s.nextChan ∧ s.home ch = h
  | .deliverWaiter ch _ => ch < s.nextChan ∧ s.home ch = 0
  | _ => True

theorem Step.waitersAtHome (hs : Step s i x e) (hI : WaitersAtHome s) : WaitersAtHome e.shared := by
  intro jobID ch hl
  rcases hs.waiter_cases hl with hold | ⟨job, priority, rfl, -, rfl⟩
  · obtain ⟨hlt, hhome⟩ := hI jobID ch hold
    obtain ⟨hlt', hhome', -⟩ := hs.chan_stable hlt
    exact ⟨hlt', hhome'.trans hhome⟩
  · cases hs with
    | quit hq => cases hq
    | addWaiter => exact ⟨Nat.lt_succ_self _, Function.update_self ..⟩

theorem Step.atHome_stable (hs : Step s i x e) {j : Instr} (hj : j.AtHome s) : j.AtHome e.shared := by
  cases j with
  | deliver | deliverWaiter =>
    obtain ⟨hlt, hhome⟩ := hj
    obtain ⟨hlt', hhome', -⟩ := hs.chan_stable hlt
    exact ⟨hlt', hhome'.trans hhome⟩
  | _ => trivial

theorem Step.atHome_fresh (hs : Step s i x e) (hI : ControlPlane.AtHome s) (hW : WaitersAtHome s) :
    ∀ j ∈ e.fresh, j.AtHome s := by
  intro j hj
  have hleft := hs.leaves j hj
  cases j with
  | deliver h ch res => exact hI h _ ch hleft.2
  | deliverWaiter ch res =>
    rcases hleft with ⟨-, hw⟩ | ⟨id, -, hw, -⟩
    · exact hW _ ch hw
    · exact hW id ch hw
  | _ => trivial

section

variable {t : Time} {d : Duration} {n : ℕ} {c : Config Server Instr}

theorem delivers_atHome (hc : controlPlane.Reaches (boot (new t d n)) c) :
    ∀ j ∈ c.soup, j.AtHome c.shared := by
  refine (hc.local_invariant (fun s ↦ ControlPlane.AtHome s ∧ WaitersAtHome s) (fun s j ↦ j.AtHome s)
    ?_ ?_ ?_ ?_).2
  · exact ⟨by simp [ControlPlane.AtHome, boot, new], by simp [WaitersAtHome, boot, new]⟩
  · simp [boot, Config.soup, Instr.AtHome]
  · intro c i x e hI _ _ he
    have hs := step_of_exec he
    exact ⟨⟨hs.atHome hI.1, hs.waitersAtHome hI.2⟩,
      fun j hj ↦ hs.atHome_stable (hs.atHome_fresh hI.1 hI.2 j hj)⟩
  · exact fun c i x e _ _ _ he j _ hj ↦ (step_of_exec he).atHome_stable hj

theorem due_of_runs
    (hc : controlPlane.Runs (fun c i x ↦ Honest c i x ∧ FreshID c i x) (boot (new t d n)) c) :
    ∀ j ∈ c.soup, ∀ h jobID ch, j.awaits = some (h, jobID, ch) →
      Due c.shared c.soup h jobID ch := by
  have hrun := hc.strengthen fun c hc ↦
    And.intro (owned_of_runs hc).2.2 hc.reaches
  refine hrun.soup_invariant (fun s S ↦ ∀ j ∈ S, ∀ h jobID ch, j.awaits = some (h, jobID, ch) →
    Due s S h jobID ch) ?_ ?_
  · simp [boot, Config.soup, Instr.awaits]
  · intro c i x R e hsoup hdue hg he
    obtain ⟨-, hown, hreach⟩ := hg
    rw [hsoup] at hown
    refine (step_of_exec he).due_owned (hsoup ▸ (known_of_reaches hreach).2) (fun ch ↦ ?_) (fun r ↦ ?_)
      (fun j hj ↦ (hown j hj).1) hdue
    · rw [← hsoup]
      refine (takes_le_one hreach ch).trans ?_
      split <;> simp
    · have hle := dispatches_le_one hreach r
      have hone : (if r < c.shared.requests then 1 else 0) ≤ 1 := by split <;> simp
      rw [← hsoup]
      omega

end

end AgentGpu.ControlPlane
