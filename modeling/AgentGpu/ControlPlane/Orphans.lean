import AgentGpu.ControlPlane.Dispatch

namespace AgentGpu.ControlPlane

open Foundation

variable {s s' : Server} {i : Instr} {x : Choice} {e : Effect Server Instr} {h ch : ℕ}

namespace Instr

def failsLater (h : ℕ) : Instr → Bool
  | .unregister k _ | .fail k _ => k == h
  | i => i.handlerOf h

def delivers (ch : ℕ) : Instr → Bool
  | .deliver _ k _ | .failDeliver k _ | .deliverWaiter k _ => k == ch
  | _ => false

def receives (ch : ℕ) : Instr → Bool
  | .await _ _ _ k | .awaitWaiter _ k => k == ch
  | _ => false

theorem takes_of_receives {ch : ℕ} {i : Instr} (hi : i.receives ch) : i.takes ch := by
  cases i with
  | await | awaitWaiter => exact hi
  | _ => cases hi

def awaits : Instr → Option (ℕ × String × ℕ)
  | .send _ h job ch | .await _ h job ch => some (h, job.id, ch)
  | _ => none

def relays : Instr → Option (ℕ × String × ℕ)
  | .relay h job ch | .emit h job ch _ => some (h, job.id, ch)
  | _ => none

end Instr

def Due (s : Server) (S : Multiset Instr) (h : ℕ) (jobID : String) (ch : ℕ) : Prop :=
  (s.worker h).pending.lookup jobID = some ch ∨ (∃ j ∈ S, j.delivers ch) ∨
    (s.results ch).taken < (s.results ch).sent.length

def Ending (s : Server) (S : Multiset Instr) (h : ℕ) (jobID : String) (ch : ℕ) : Prop :=
  (s.worker h).observers.lookup jobID = some ch ∨ (∃ j ∈ S, j.closes ch) ∨
    (s.observed ch).closed

/-- Dispatches only go to workers whose removal still has a `failAllPending` to run and whose
message channel has room, and no job replaces or deletes another one's entry. -/
def Orderly (s : Server) (S : Multiset Instr) (i : Instr) (x : Choice) : Prop :=
  let room (h : ℕ) := S.countP (·.sends h) + (s.worker h).send.sent.length <
    (s.worker h).send.taken + (s.worker h).send.cap
  match i, x with
  | .addPending _ h job, _ =>
    0 < S.countP (·.failsLater h) ∧ (s.worker h).pending.lookup job.id = none ∧ room h
  | .addObserver h job, _ =>
    0 < S.countP (·.failsLater h) ∧ (s.worker h).observers.lookup job.id = none
  | .command id _, _ => ∀ h ∈ s.workers.lookup id, room h
  | .send _ h job ch, .ctxDone | .await _ h job ch, .ctxDone =>
    ∀ k ∈ (s.worker h).pending.lookup job.id, k = ch
  | .relay h job ch, .ctxDone | .emit h job ch _, .ctxDone =>
    ∀ k ∈ (s.worker h).observers.lookup job.id, k = ch
  | _, _ => True

instance (s : Server) (S : Multiset Instr) (i : Instr) (x : Choice) :
    Decidable (Orderly s S i x) := by
  delta Orderly
  dsimp only
  induction i using Instr.casesOn with
  | send | await | relay | emit => induction x using Choice.casesOn <;> infer_instance
  | _ => infer_instance

theorem Step.awaits_fresh (hs : Step s i x e) : ∀ j ∈ e.fresh, ∀ p, j.awaits = some p →
    (x = .go ∧ ∃ o h job ch, i = .send o h job ch ∧ p = (h, job.id, ch)) ∨
      ∃ o h job, i = .addPending o h job ∧ p = (h, job.id, s.nextChan) := by
  intro j hj p hp
  have hleft := hs.leaves j hj
  cases j with
  | send o h job ch =>
    obtain ⟨rfl, rfl⟩ := hleft
    cases hp
    exact .inr ⟨o, h, job, rfl, rfl⟩
  | await o h job ch =>
    obtain ⟨rfl, hx⟩ := hleft
    cases hp
    exact .inl ⟨hx, o, h, job, ch, rfl, rfl⟩
  | _ => cases hp

theorem Step.relays_fresh (hs : Step s i x e) : ∀ j ∈ e.fresh, ∀ p, j.relays = some p →
    (x = .go ∧ i.relays = some p) ∨
      ∃ h job, i = .addObserver h job ∧ p = (h, job.id, s.nextChan) := by
  intro j hj p hp
  have hleft := hs.leaves j hj
  cases j with
  | relay h job ch =>
    rcases hleft with ⟨rfl, rfl⟩ | ⟨c, rfl, hx⟩
    · cases hp
      exact .inr ⟨h, job, rfl, rfl⟩
    · exact .inl ⟨hx, hp⟩
  | emit h job ch c =>
    obtain ⟨rfl, hx⟩ := hleft
    exact .inl ⟨hx, hp⟩
  | _ => cases hp

theorem Step.results_cases (hs : Step s i x e) (ch : ℕ) :
    e.shared.results ch = s.results ch ∨
    (i.delivers ch ∧ ∃ res, (s.results ch).send res = some (e.shared.results ch)) ∨
    (i.receives ch ∧ ∃ res, (s.results ch).recv = some (res, e.shared.results ch)) := by
  induction hs with
  | @deliver _ k _ c hc | @failDeliver k _ c hc | @deliverWaiter k _ c hc =>
    by_cases hk : ch = k
    · subst hk
      refine .inr (.inl ⟨beq_self_eq_true ch, ?_⟩)
      rw [Server.setResult_self]
      exact ⟨_, hc⟩
    · exact .inl (Function.update_of_ne hk ..)
  | @await _ _ k _ res _ hc | @awaitWaiter _ k res _ hc =>
    by_cases hk : ch = k
    · subst hk
      exact .inr (.inr ⟨beq_self_eq_true ch, res, by simp [hc, Server.setResult, Server.receive]⟩)
    · exact .inl (Function.update_of_ne hk ..)
  | _ => exact .inl rfl

theorem Step.result_there (hs : Step s i x e) (hrecv : ¬ i.receives ch)
    (hthere : (s.results ch).taken < (s.results ch).sent.length) :
    (e.shared.results ch).taken < (e.shared.results ch).sent.length := by
  rcases hs.results_cases ch with hsame | ⟨-, res, hc⟩ | ⟨hi, -⟩
  · rwa [hsame]
  · obtain ⟨-, hsent, htaken, -, -⟩ := Chan.send_some hc
    rw [hsent, htaken, List.length_append]
    omega
  · exact absurd hi hrecv

def Instr.unpends (h : ℕ) (jobID : String) : Instr → Choice → Prop
  | .resolve k res, _ => k = h ∧ res.result.jobID = jobID
  | .fail k _, _ => k = h
  | .addPending _ k job, _ | .send _ k job _, .ctxDone | .await _ k job _, .ctxDone => k = h ∧ job.id = jobID
  | _, _ => False

theorem Step.pending_stays (hs : Step s i x e) {jobID : String} (hh : h ≠ s.nextSes + 1)
    (hl : (s.worker h).pending.lookup jobID = some ch) (hi : ¬ i.unpends h jobID x) :
    (e.shared.worker h).pending.lookup jobID = some ch := by
  have hother {w : Worker} {k : ℕ} (hworker : e.shared.worker = Function.update s.worker k w)
      (hk : k ≠ h) : (e.shared.worker h).pending.lookup jobID = some ch := by
    rwa [hworker, Function.update_of_ne (Ne.symm hk)]
  induction hs with
  | register => exact hother rfl (Ne.symm hh)
  | @resolve k k' res hp =>
    by_cases hk : k = h
    · subst hk
      rw [Server.setWorker_self]
      exact (AList.lookup_erase_ne fun hid ↦ hi ⟨rfl, hid.symm⟩).trans hl
    · exact hother rfl hk
  | fail => exact hother rfl hi
  | addPending o k job =>
    by_cases hk : k = h
    · subst hk
      rw [Server.setWorker_self]
      exact (AList.lookup_insert_ne fun hid ↦ hi ⟨rfl, hid.symm⟩).trans hl
    · exact hother rfl hk
  | @sendGone o job k | @awaitGone o job k =>
    by_cases hk : k = h
    · subst hk
      rw [Server.deletePending, Server.setWorker_self]
      exact (AList.lookup_erase_ne fun hid ↦ hi ⟨rfl, hid.symm⟩).trans hl
    · exact hother rfl hk
  | _ =>
    first
    | exact hl
    | exact (congrArg (AList.lookup jobID) (Server.proj_of_update Worker.pending rfl (by rfl) h)).trans hl

theorem Step.pending_kept (hs : Step s i x e) {jobID : String}
    (hl : (s.worker h).pending.lookup jobID = some ch) :
    (e.shared.worker h).pending.lookup jobID = some ch ∨ (∃ j ∈ e.fresh, j.delivers ch) ∨
    h = s.nextSes + 1 ∨ (∃ o job, i = .addPending o h job ∧ job.id = jobID) ∨
    (x = .ctxDone ∧ ∃ k, i.awaits = some (h, jobID, k)) := by
  by_cases hh : h = s.nextSes + 1
  · exact .inr (.inr (.inl hh))
  by_cases hi : i.unpends h jobID x
  · induction hs with
    | resolve hp =>
      obtain ⟨rfl, rfl⟩ := hi
      obtain rfl := Option.some.inj (hp.symm.trans hl)
      exact .inr (.inl ⟨_, Effect.mem_fresh.mpr (.inl List.mem_cons_self), beq_self_eq_true _⟩)
    | @fail k cause pending observers hp =>
      obtain rfl : k = h := hi
      have hmem : jobID ∈ pending := hp.mem_iff.mpr (AList.lookup_isSome.mp (by rw [hl]; rfl))
      have hin : Instr.failDeliver ch ⟨{ jobID := jobID, err := some cause.err }, []⟩ ∈
          failures (s.worker k) cause pending observers :=
        List.mem_append_left _ (List.mem_filterMap.mpr ⟨jobID, hmem, by rw [hl]; rfl⟩)
      exact .inr (.inl ⟨_, Effect.mem_fresh.mpr (.inl (List.mem_append_left _ hin)),
        beq_self_eq_true ch⟩)
    | addPending o k job =>
      obtain ⟨rfl, hid⟩ := hi
      exact .inr (.inr (.inr (.inl ⟨o, job, rfl, hid⟩)))
    | sendGone k k' | awaitGone k k' =>
      obtain ⟨rfl, rfl⟩ := hi
      exact .inr (.inr (.inr (.inr ⟨rfl, k', rfl⟩)))
    | quit | unknownJob => exact .inl hl
    | _ => cases hi
  · exact .inl (hs.pending_stays hh hl hi)

theorem Step.observer_kept (hs : Step s i x e) {jobID : String}
    (hl : (s.worker h).observers.lookup jobID = some ch) :
    (e.shared.worker h).observers.lookup jobID = some ch ∨ (∃ j ∈ e.fresh, j.closes ch) ∨
    h = s.nextSes + 1 ∨ (∃ job, i = .addObserver h job ∧ job.id = jobID) ∨
    (x = .ctxDone ∧ ∃ k, i.relays = some (h, jobID, k)) := by
  have hother {w : Worker} {k : ℕ} (hworker : e.shared.worker = Function.update s.worker k w)
      (hh : h ≠ k) : (e.shared.worker h).observers.lookup jobID = some ch := by
    rwa [hworker, Function.update_of_ne hh]
  induction hs with
  | register =>
    by_cases hh : h = s.nextSes + 1
    · exact .inr (.inr (.inl hh))
    · exact .inl (hother rfl hh)
  | @lastChunk k c _ hobs =>
    by_cases hh : h = k
    · subst hh
      have hid : jobID ≠ c.chunk.jobID := by
        rintro rfl
        rw [hobs] at hl
        cases hl
      refine .inl ?_
      rw [Server.setWorker_self]
      exact (AList.lookup_erase_ne hid).trans hl
    · exact .inl (hother rfl hh)
  | @lastChunkObserved k k' c _ hobs =>
    by_cases hh : h = k
    · subst hh
      by_cases hid : jobID = c.chunk.jobID
      · subst hid
        obtain rfl : k' = ch := Option.some.inj (hobs.symm.trans hl)
        exact .inr (.inl ⟨.forwardLast h k' c ((s.worker h).assemble c), by simp,
          beq_self_eq_true k'⟩)
      · refine .inl ?_
        rw [Server.setWorker_self]
        exact (AList.lookup_erase_ne hid).trans hl
    · exact .inl (hother rfl hh)
  | @fail k cause pending observers _ ho =>
    by_cases hh : h = k
    · subst hh
      have hmem : jobID ∈ observers := ho.mem_iff.mpr (AList.lookup_isSome.mp (by rw [hl]; rfl))
      have hin : Instr.failForward ch ⟨{ jobID := jobID, done := true, err := some cause.err }, none⟩ ∈
          failures (s.worker h) cause pending observers :=
        List.mem_append_right _ (List.mem_filterMap.mpr ⟨jobID, hmem, by rw [hl]; rfl⟩)
      exact .inr (.inl ⟨_, Effect.mem_fresh.mpr (.inl (List.mem_append_left _ hin)),
        beq_self_eq_true ch⟩)
    · exact .inl (hother rfl hh)
  | addObserver k job =>
    by_cases hh : h = k
    · subst hh
      by_cases hid : jobID = job.id
      · exact .inr (.inr (.inr (.inl ⟨job, rfl, hid.symm⟩)))
      · refine .inl ?_
        rw [Server.setWorker_self]
        exact (AList.lookup_insert_ne hid).trans hl
    · exact .inl (hother rfl hh)
  | @relayGone job k k' | @emitGone job k k' =>
    by_cases hh : h = k
    · subst hh
      by_cases hid : jobID = job.id
      · subst hid
        exact .inr (.inr (.inr (.inr ⟨rfl, k', rfl⟩)))
      · refine .inl ?_
        rw [Server.removeObserver, Server.setWorker_self]
        exact (AList.lookup_erase_ne hid).trans hl
    · exact .inl (hother rfl hh)
  | _ =>
    first
    | exact .inl hl
    | exact .inl ((congrArg (AList.lookup jobID)
        (Server.proj_of_update Worker.observers rfl (by rfl) h)).trans hl)

theorem Step.closes_kept (hs : Step s i x e) (hi : i.closes ch) :
    (∃ j ∈ e.fresh, j.closes ch) ∨ (e.shared.observed ch).closed := by
  induction hs with
  | forwardLast h k c res => exact .inl ⟨.closeLast h k res, by simp, hi⟩
  | failForward k c => exact .inl ⟨.failClose k, by simp, hi⟩
  | closeLast _ k _ | failClose k =>
    obtain rfl : k = ch := eq_of_beq hi
    exact .inr (by simp [Server.closeObserver, Server.setObserved])
  | @quit i x hq => cases i <;> first | cases hi | cases hq
  | _ => cases hi

theorem Step.failsLater_kept (hs : Step s i x e) (hi : i.failsLater h) :
    (∃ j ∈ e.fresh, j.failsLater h) ∨
      ∀ jobID, (e.shared.worker h).pending.lookup jobID = none ∧
        (e.shared.worker h).observers.lookup jobID = none := by
  induction hs with
  | @fail k =>
    obtain rfl : k = h := eq_of_beq hi
    exact .inr fun jobID ↦ by simp [Worker.takeAll]
  | @quit i x hq => cases i <;> first | cases hi | cases hq
  | _ => first | exact .inl ⟨_, Effect.mem_fresh.mpr (.inl List.mem_cons_self), hi⟩ | cases hi

theorem Step.delivers_done (hs : Step s i x e) (hi : i.delivers ch) :
    (e.shared.results ch).taken < (e.shared.results ch).sent.length := by
  induction hs with
  | @deliver _ k _ c hc | @failDeliver k _ c hc | @deliverWaiter k _ c hc =>
    obtain rfl : k = ch := eq_of_beq hi
    obtain ⟨-, hsent, htaken, -, -⟩ := Chan.send_some hc
    have hle := (s.results k).taken_le
    rw [Server.setResult_self, hsent, htaken, List.length_append, List.length_singleton]
    omega
  | @quit i x hq => cases i <;> first | cases hi | cases hq
  | _ => cases hi

section

variable {R : Multiset Instr} {jobID : String}

theorem Due.step (hs : Step s i x e) (hdue : Due s (i ::ₘ R) h jobID ch) (hh : h ≤ s.nextSes)
    (hrecv : ¬ i.receives ch)
    (hadd : ∀ o job, i = .addPending o h job → job.id = jobID →
      (s.worker h).pending.lookup jobID ≠ some ch)
    (hgone : ∀ k, x = .ctxDone → i.awaits = some (h, jobID, k) →
      (s.worker h).pending.lookup jobID ≠ some ch) :
    Due e.shared (e.fresh + R) h jobID ch := by
  rcases hdue with hl | ⟨j, hj, hjch⟩ | hthere
  · rcases hs.pending_kept hl with hkept | ⟨j, hj, hjch⟩ | hnew | ⟨o, job, hi, hid⟩ | ⟨hx, k, hk⟩
    · exact .inl hkept
    · exact .inr (.inl ⟨j, Multiset.mem_add.mpr (.inl hj), hjch⟩)
    · omega
    · exact absurd hl (hadd o job hi hid)
    · exact absurd hl (hgone k hx hk)
  · rcases Multiset.mem_cons.mp hj with rfl | hj
    · exact .inr (.inr (hs.delivers_done hjch))
    · exact .inr (.inl ⟨j, Multiset.mem_add.mpr (.inr hj), hjch⟩)
  · exact .inr (.inr (hs.result_there hrecv hthere))

theorem Ending.step (hs : Step s i x e) (hend : Ending s (i ::ₘ R) h jobID ch) (hh : h ≤ s.nextSes)
    (hadd : ∀ job, i = .addObserver h job → (s.worker h).observers.lookup job.id = none)
    (hgone : ∀ k, x = .ctxDone → i.relays = some (h, jobID, k) →
      (s.worker h).observers.lookup jobID ≠ some ch) :
    Ending e.shared (e.fresh + R) h jobID ch := by
  rcases hend with hl | ⟨j, hj, hjch⟩ | hclosed
  · rcases hs.observer_kept hl with hkept | ⟨j, hj, hjch⟩ | hnew | ⟨job, hi, rfl⟩ | ⟨hx, k, hk⟩
    · exact .inl hkept
    · exact .inr (.inl ⟨j, Multiset.mem_add.mpr (.inl hj), hjch⟩)
    · omega
    · rw [hadd job hi] at hl
      cases hl
    · exact absurd hl (hgone k hx hk)
  · rcases Multiset.mem_cons.mp hj with rfl | hj
    · rcases hs.closes_kept hjch with ⟨k, hk, hkch⟩ | hclosed
      · exact .inr (.inl ⟨k, Multiset.mem_add.mpr (.inl hk), hkch⟩)
      · exact .inr (.inr hclosed)
    · exact .inr (.inl ⟨j, Multiset.mem_add.mpr (.inr hj), hjch⟩)
  · rcases hs.closed_cases ch with hsame | ⟨-, hclosed⟩
    · exact .inr (.inr (hsame ▸ hclosed))
    · exact .inr (.inr hclosed)

/-- No dispatch in progress is forgotten, and a worker past its last `failAllPending` has
nothing left in its tables. -/
structure Answered (s : Server) (S : Multiset Instr) : Prop where
  due : ∀ j ∈ S, ∀ h jobID ch, j.awaits = some (h, jobID, ch) → Due s S h jobID ch
  ending : ∀ j ∈ S, ∀ h jobID ch, j.relays = some (h, jobID, ch) → Ending s S h jobID ch
  cleared : ∀ h, (∀ j ∈ S, ¬ j.failsLater h) → ∀ jobID,
    (s.worker h).pending.lookup jobID = none ∧ (s.worker h).observers.lookup jobID = none
  room : Room s S

theorem takes_of_awaits {j : Instr} (hj : j.awaits = some (h, jobID, ch)) : j.takes ch := by
  cases j with
  | send | await =>
    obtain ⟨-, -, rfl⟩ : _ = h ∧ _ = jobID ∧ _ = ch := by simpa [Instr.awaits] using hj
    exact beq_self_eq_true _
  | _ => cases hj

theorem takes_of_relays {j : Instr} (hj : j.relays = some (h, jobID, ch)) : j.takes ch := by
  cases j with
  | relay | emit =>
    obtain ⟨-, -, rfl⟩ : _ = h ∧ _ = jobID ∧ _ = ch := by simpa [Instr.relays] using hj
    exact beq_self_eq_true _
  | _ => cases hj

theorem handle_of_awaits {j : Instr} (hj : j.awaits = some (h, jobID, ch)) : j.handle = some h := by
  cases j <;> simp_all [Instr.awaits, Instr.handle]

theorem handle_of_relays {j : Instr} (hj : j.relays = some (h, jobID, ch)) : j.handle = some h := by
  cases j <;> simp_all [Instr.relays, Instr.handle]

theorem Orderly.own_entry {S : Multiset Instr} {k : ℕ} (hg : Orderly s S i .ctxDone)
    (hi : i.awaits = some (h, jobID, k)) (hl : (s.worker h).pending.lookup jobID = some ch) :
    ch = k := by
  cases i with
  | send | await =>
    obtain ⟨rfl, rfl, rfl⟩ : _ = h ∧ _ = jobID ∧ _ = k := by simpa [Instr.awaits] using hi
    exact hg ch hl
  | _ => cases hi

theorem Orderly.own_observer {S : Multiset Instr} {k : ℕ} (hg : Orderly s S i .ctxDone)
    (hi : i.relays = some (h, jobID, k)) (hl : (s.worker h).observers.lookup jobID = some ch) :
    ch = k := by
  cases i with
  | relay | emit =>
    obtain ⟨rfl, rfl, rfl⟩ : _ = h ∧ _ = jobID ∧ _ = k := by simpa [Instr.relays] using hi
    exact hg ch hl
  | _ => cases hi

theorem not_takes_both (htakes : (i ::ₘ R).countP (·.takes ch) ≤ 1) {j : Instr} (hj : j ∈ R)
    (hjch : j.takes ch) : ¬ i.takes ch := by
  intro hi
  have hpos : 0 < R.countP (·.takes ch) := Multiset.countP_pos.mpr ⟨j, hj, hjch⟩
  rw [Multiset.countP_cons, if_pos hi] at htakes
  omega

theorem Step.due_fresh (hs : Step s i x e) (hK : ∀ j ∈ i ::ₘ R, HandlesKnown s j)
    (hdue : ∀ j ∈ i ::ₘ R, ∀ h jobID ch, j.awaits = some (h, jobID, ch) → Due s (i ::ₘ R) h jobID ch)
    {j : Instr} (hj : j ∈ e.fresh) {h : ℕ} {jobID : String} {ch : ℕ}
    (hjch : j.awaits = some (h, jobID, ch)) : Due e.shared (e.fresh + R) h jobID ch := by
  rcases hs.awaits_fresh j hj _ hjch with ⟨rfl, o, k, job, k', rfl, hp⟩ | ⟨o, k, job, rfl, hp⟩
  · obtain ⟨rfl, rfl, rfl⟩ : h = k ∧ jobID = job.id ∧ ch = k' := by simpa using hp
    have hself := Multiset.mem_cons_self (Instr.send o h job ch) R
    exact (hdue _ hself h _ ch rfl).step hs (hK _ hself h rfl) (by simp [Instr.receives])
      (by simp) (by simp)
  · obtain ⟨rfl, rfl, rfl⟩ : h = k ∧ jobID = job.id ∧ ch = s.nextChan := by simpa using hp
    refine .inl ?_
    cases hs with
    | quit hq => cases hq
    | addPending =>
      rw [Server.setWorker_self]
      exact AList.lookup_insert _

section

variable (hs : Step s i x e) (hK : ∀ j ∈ i ::ₘ R, HandlesKnown s j)
  (htakes : ∀ ch, (i ::ₘ R).countP (·.takes ch) ≤ 1) (hg : Orderly s (i ::ₘ R) i x)
  (hA : Answered s (i ::ₘ R))
include hs hg

include hK htakes hA in
theorem Step.due : ∀ j ∈ e.fresh + R, ∀ h jobID ch, j.awaits = some (h, jobID, ch) →
    Due e.shared (e.fresh + R) h jobID ch := by
  intro j hj h jobID ch hjch
  rcases Multiset.mem_add.mp hj with hj | hj
  · exact hs.due_fresh hK hA.due hj hjch
  · have hin := Multiset.mem_cons_of_mem (b := i) hj
    have hnot := not_takes_both (htakes ch) hj (takes_of_awaits hjch)
    refine (hA.due j hin h jobID ch hjch).step hs (hK j hin h (handle_of_awaits hjch))
      (mt Instr.takes_of_receives hnot) ?_ ?_
    · rintro o job rfl rfl hl
      cases hl.symm.trans hg.2.1
    · rintro k rfl hi hl
      exact hnot (hg.own_entry hi hl ▸ takes_of_awaits hi)

include hK htakes hA in
theorem Step.ending : ∀ j ∈ e.fresh + R, ∀ h jobID ch, j.relays = some (h, jobID, ch) →
    Ending e.shared (e.fresh + R) h jobID ch := by
  intro j hj h jobID ch hjch
  rcases Multiset.mem_add.mp hj with hj | hj
  · rcases hs.relays_fresh j hj _ hjch with ⟨rfl, hi⟩ | ⟨k, job, rfl, hp⟩
    · have hself := Multiset.mem_cons_self i R
      refine (hA.ending i hself h jobID ch hi).step hs (hK i hself h (handle_of_relays hi)) ?_ (by simp)
      rintro job rfl
      cases hi
    · obtain ⟨rfl, rfl, rfl⟩ : h = k ∧ jobID = job.id ∧ ch = s.nextChan := by simpa using hp
      refine .inl ?_
      cases hs with
      | quit hq => cases hq
      | addObserver =>
        rw [Server.setWorker_self]
        exact AList.lookup_insert _
  · have hin := Multiset.mem_cons_of_mem (b := i) hj
    have hnot := not_takes_both (htakes ch) hj (takes_of_relays hjch)
    refine (hA.ending j hin h jobID ch hjch).step hs (hK j hin h (handle_of_relays hjch)) ?_ ?_
    · rintro job rfl
      exact hg.2
    · rintro k rfl hi hl
      exact hnot (hg.own_observer hi hl ▸ takes_of_relays hi)

include hA in
theorem Step.cleared (hnone : ∀ j ∈ e.fresh + R, ¬ j.failsLater h) (jobID : String) :
    (e.shared.worker h).pending.lookup jobID = none ∧
      (e.shared.worker h).observers.lookup jobID = none := by
  have hrest : ∀ j ∈ R, ¬ j.failsLater h := fun j hj ↦ hnone j (Multiset.mem_add.mpr (.inr hj))
  by_cases hi : i.failsLater h
  · rcases hs.failsLater_kept hi with ⟨j, hj, hjh⟩ | hempty
    · exact absurd hjh (hnone j (Multiset.mem_add.mpr (.inl hj)))
    · exact hempty jobID
  · have hall : ∀ j ∈ i ::ₘ R, ¬ j.failsLater h := by
      intro j hj
      rcases Multiset.mem_cons.mp hj with rfl | hj
      · exact hi
      · exact hrest j hj
    have hzero : (i ::ₘ R).countP (·.failsLater h) = 0 := Multiset.countP_eq_zero.mpr hall
    obtain ⟨hpending, hobservers⟩ := hA.cleared h hall jobID
    constructor <;> refine Option.eq_none_iff_forall_ne_some.mpr fun ch hl ↦ ?_
    · rcases hs.pending_cases hl with hold | ⟨o, job, rfl, -⟩
      · rw [hpending] at hold
        cases hold
      · exact absurd hg.1 (by omega)
    · rcases hs.observer_cases hl with hold | ⟨job, rfl, -⟩
      · rw [hobservers] at hold
        cases hold
      · exact absurd hg.1 (by omega)

include hK hA in
theorem Step.room_kept : Room e.shared (e.fresh + R) := by
  refine hs.room (fun j hj ↦ hK j (Multiset.mem_cons_of_mem hj)) (fun h hq hreg ↦ ?_) hA.room
  have hle : R.countP (·.sends h) ≤ (i ::ₘ R).countP (·.sends h) :=
    Multiset.countP_le_of_le _ (Multiset.le_cons_self R i)
  cases i with
  | register id models => exact absurd rfl (hreg id models)
  | addPending o k job =>
    obtain rfl : k = h := eq_of_beq hq
    exact (Nat.add_le_add_right hle _).trans_lt hg.2.2
  | command id m => exact (Nat.add_le_add_right hle _).trans_lt (hg h (eq_of_beq hq))
  | _ => cases hq

end

end

theorem Step.result_cap (hs : Step s i x e) (hcap : ∀ ch, (s.results ch).cap = 1) (ch : ℕ) :
    (e.shared.results ch).cap = 1 := by
  have hupdate {k : ℕ} {c : Chan Outcome} (hc : c.cap = (s.results k).cap)
      (hresults : e.shared.results = Function.update s.results k c) :
      (e.shared.results ch).cap = 1 := by
    rw [hresults]
    by_cases hk : ch = k
    · subst hk
      rw [Function.update_self, hc, hcap]
    · rw [Function.update_of_ne hk, hcap]
  induction hs with
  | deliver hc | failDeliver hc | deliverWaiter hc => exact hupdate (Chan.send_some hc).2.2.2.2 rfl
  | await hc | awaitWaiter hc => exact hupdate (Chan.recv_some hc).2.2.2.2 rfl
  | _ => exact hcap ch

theorem closes_enabled (hi : i.closes ch) : (controlPlane.exec s i .go).isSome := by
  cases i with
  | forwardLast | closeLast | failForward | failClose => rfl
  | _ => cases hi

theorem delivers_enabled (hi : i.delivers ch) (hcap : (s.results ch).cap = 1)
    (hempty : (s.results ch).sent.length ≤ (s.results ch).taken) :
    (controlPlane.exec s i .go).isSome := by
  have hroom : (s.results ch).sent.length < (s.results ch).taken + (s.results ch).cap := by omega
  cases i with
  | deliver _ k res | failDeliver k res | deliverWaiter k res =>
    obtain rfl : k = ch := eq_of_beq hi
    exact Option.isSome_map.trans (Chan.send_isSome hroom)
  | _ => cases hi

section

variable {t : Time} {d : Duration} {n : ℕ} {c : Config Server Instr}

theorem result_cap_of_reaches (hc : controlPlane.Reaches (boot (new t d n)) c) (ch : ℕ) :
    (c.shared.results ch).cap = 1 :=
  hc.shared_invariant (fun s ↦ ∀ ch, (s.results ch).cap = 1) (fun _ ↦ rfl)
    (fun _ _ _ _ hcap _ he ↦ (step_of_exec he).result_cap hcap) ch

theorem answered_of_runs
    (hc : controlPlane.Runs (fun c ↦ Orderly c.shared c.soup) (boot (new t d n)) c) :
    Answered c.shared c.soup := by
  have hrun := hc.strengthen fun c hc ↦
    And.intro (known_of_reaches hc.reaches).2 (takes_le_one hc.reaches)
  refine hrun.soup_invariant Answered ?_ ?_
  · have hsoup : ∀ j ∈ (boot (new t d n)).soup, j = .serve ∨ j = .evict ∨ j = .place := by
      simp [boot, Config.soup]
    refine ⟨?_, ?_, ?_, ?_⟩
    · intro j hj h jobID ch hjch
      rcases hsoup j hj with rfl | rfl | rfl <;> cases hjch
    · intro j hj h jobID ch hjch
      rcases hsoup j hj with rfl | rfl | rfl <;> cases hjch
    · intro h _ jobID
      exact ⟨rfl, rfl⟩
    · intro h
      simp [boot, new, Config.soup, Instr.sends, Chan.make]
  · intro c i x R e hsoup hA hg he
    obtain ⟨hg, hK, htakes⟩ := hg
    rw [hsoup] at hg hK htakes
    have hs := step_of_exec he
    have hone : ∀ ch, (i ::ₘ R).countP (·.takes ch) ≤ 1 := fun ch ↦
      (htakes ch).trans (by split <;> simp)
    exact ⟨hs.due hK hone hg hA, hs.ending hK hone hg hA, fun h ↦ hs.cleared hg hA,
      hs.room_kept hK hg hA⟩

/-- Once the last `failAllPending` of worker `h` has run, its tables are empty; whoever still
has a job on it is not blocked in the send, has its result or will be sent it by a goroutine
that is not blocked, and sees its stream end in the same way. -/
theorem no_orphaned_dispatch {h : ℕ}
    (hc : controlPlane.Runs (fun c ↦ Orderly c.shared c.soup) (boot (new t d n)) c)
    (hlast : ∀ j ∈ c.soup, ¬ j.failsLater h) :
    (∀ jobID, (c.shared.worker h).pending.lookup jobID = none ∧
      (c.shared.worker h).observers.lookup jobID = none) ∧
    (∀ o job ch, .send o h job ch ∈ c.soup →
      (controlPlane.exec c.shared (.send o h job ch) .go).isSome) ∧
    (∀ o job ch, .await o h job ch ∈ c.soup →
      (controlPlane.exec c.shared (.await o h job ch) .go).isSome ∨
      ∃ j ∈ c.soup, j.delivers ch ∧ (controlPlane.exec c.shared j .go).isSome) ∧
    (∀ j ∈ c.soup, ∀ jobID ch, j.relays = some (h, jobID, ch) →
      (c.shared.observed ch).closed ∨
      ∃ k ∈ c.soup, k.closes ch ∧ (controlPlane.exec c.shared k .go).isSome) := by
  have hA := answered_of_runs hc
  have hempty := hA.cleared h hlast
  refine ⟨hempty, ?_, ?_, ?_⟩
  · intro o job ch hin
    have hroom := hA.room h
    have hpos : 0 < c.soup.countP (·.sends h) :=
      Multiset.countP_pos.mpr ⟨_, hin, beq_self_eq_true h⟩
    exact Option.isSome_map.trans (Chan.send_isSome (by omega))
  · intro o job ch hin
    by_cases hthere : (c.shared.results ch).taken < (c.shared.results ch).sent.length
    · exact .inl (Option.isSome_map.trans (Chan.recv_isSome hthere))
    · rcases hA.due _ hin h job.id ch rfl with hl | ⟨j, hj, hjch⟩ | hresult
      · rw [(hempty job.id).1] at hl
        cases hl
      · exact .inr ⟨j, hj, hjch, delivers_enabled hjch (result_cap_of_reaches hc.reaches ch) (by omega)⟩
      · exact absurd hresult hthere
  · intro j hin jobID ch hj
    rcases hA.ending j hin h jobID ch hj with hl | ⟨k, hk, hkch⟩ | hclosed
    · rw [(hempty jobID).2] at hl
      cases hl
    · exact .inr ⟨k, hk, hkch, closes_enabled hkch⟩
    · exact .inl hclosed

end

/-- A job is dispatched and a stream observed just before their worker's stream ends. -/
theorem no_orphaned_dispatch_lastMoment :
    ∃ c, controlPlane.Runs (fun c ↦ Orderly c.shared c.soup) (boot (new 0 0 0)) c ∧
      .await .fast 1 ⟨"a", "m", 0⟩ 0 ∈ c.soup ∧
      ((controlPlane.exec c.shared (.await .fast 1 ⟨"a", "m", 0⟩ 0) .go).isSome ∨
        ∃ j ∈ c.soup, j.delivers 0 ∧ (controlPlane.exec c.shared j .go).isSome) := by
  have hrun : ∃ c, controlPlane.Runs (fun c ↦ Orderly c.shared c.soup) (boot (new 0 0 0)) c ∧
      .await .fast 1 ⟨"a", "m", 0⟩ 0 ∈ c.soup ∧ ∀ j ∈ c.soup, ¬ j.failsLater 1 := by
    apply Machine.exists_run [(0, .connect "w" [⟨"m", ""⟩]), (3, .go), (3, .go),
      (0, .request "a" none "m" false), (0, .request "b" none "m" true), (5, .worker 1), (5, .go),
      (5, .go), (6, .worker 1), (6, .go), (3, .streamEnd), (3, .go), (3, .order ["a"] ["b"])]
    decide +kernel
  obtain ⟨c, hc, hin, hlast⟩ := hrun
  exact ⟨c, hc, hin, (no_orphaned_dispatch hc hlast).2.2.1 .fast ⟨"a", "m", 0⟩ 0 hin⟩

/-- The call picks a worker, the worker's stream ends and is torn down, and only then is the
pending entry made: nobody is left to fail it. -/
theorem late_dispatch_is_orphaned :
    ∃ c, controlPlane.Reaches (boot (new 0 0 0)) c ∧
      c.soup = {.serve, .evict, .place, .await .fast 1 ⟨"a", "m", 0⟩ 0} ∧
      (c.shared.worker 1).pending.lookup "a" = some 0 ∧ c.shared.gone 0 = false ∧
      (controlPlane.exec c.shared (.await .fast 1 ⟨"a", "m", 0⟩ 0) .go).isNone := by
  apply Machine.exists_run [(0, .connect "w" [⟨"m", ""⟩]), (3, .go), (3, .go),
    (0, .request "a" none "m" false), (5, .worker 1), (3, .streamEnd), (3, .go), (3, .order [] []),
    (3, .go), (4, .ctxDone), (5, .go), (5, .go)]
  decide +kernel

end AgentGpu.ControlPlane
