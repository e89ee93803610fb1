import AgentGpu.ControlPlane.Observers

namespace AgentGpu.ControlPlane

open Foundation

variable {s s' : Server} {i : Instr} {x : Choice} {e : Effect Server Instr} {h ch : ℕ}

namespace Instr

def handle : Instr → Option ℕ
  | .ack h | .write h | .read h | .forward h _ _ | .forwardLast h _ _ _ | .closeLast h _ _
  | .resolve h _ | .deliver h _ _ | .unregister h _ | .fail h _ | .cancel h | .markDraining h _
  | .reap h _ | .sendCommand h _ | .addPending _ h _ | .send _ h _ _ | .await _ h _ _
  | .addObserver h _ | .relay h _ _ | .emit h _ _ _ => some h
  | _ => none

/-- The instruction leads to the one receive of the result, or to the receives of the chunks,
on channel `ch`. -/
def takes (ch : ℕ) : Instr → Bool
  | .send _ _ _ k | .await _ _ _ k | .enqueue _ _ k | .awaitWaiter _ k | .relay _ _ k
  | .emit _ _ k _ => k == ch
  | _ => false

def sends (h : ℕ) : Instr → Bool
  | .ack k | .send _ k _ _ | .sendCommand k _ => k == h
  | _ => false

end Instr

def HandlesKnown (s : Server) (i : Instr) : Prop := ∀ h, i.handle = some h → h ≤ s.nextSes

theorem handlesKnown_of_none (hj : j.handle = none) : HandlesKnown s j := by
  intro h hh
  rw [hj] at hh
  cases hh

def RegistryKnown (s : Server) : Prop := ∀ id h, s.workers.lookup id = some h → h ≤ s.nextSes

theorem RegistryKnown.of_registered (hI : RegistryKnown s) (hr : s.registered h) :
    h ≤ s.nextSes := hI _ h (Server.registered_iff.mp hr)

theorem RegistryKnown.of_pickable (hI : RegistryKnown s) (hp : s.pickable h) : h ≤ s.nextSes := by
  simp only [Server.pickable, Bool.and_eq_true] at hp
  exact hI.of_registered hp.1

theorem Step.nextSes_le (hs : Step s i x e) : s.nextSes ≤ e.shared.nextSes := by
  rcases hs.nextSes_eq with hsame | ⟨id, models, -, rfl⟩
  · exact hsame.ge
  · exact Nat.le_succ _

theorem Step.registryKnown (hs : Step s i x e) (hI : RegistryKnown s) : RegistryKnown e.shared := by
  intro id h hl
  induction hs with
  | register id' models =>
    rcases Table.lookup_insert_cases hl with ⟨-, rfl⟩ | hold
    · exact le_rfl
    · exact Nat.le_succ_of_le (hI id h hold)
  | unregister => exact hI id h (Table.lookup_of_erase hl)
  | _ => exact hI id h hl

theorem Step.handlesKnown_fresh (hs : Step s i x e) (hI : RegistryKnown s)
    (hi : HandlesKnown s i) : ∀ j ∈ e.fresh, HandlesKnown e.shared j := by
  suffices hold : (∀ id models, i ≠ .register id models) → ∀ j ∈ e.fresh, HandlesKnown s j by
    by_cases hreg : ∃ id models, i = .register id models
    · obtain ⟨id, models, rfl⟩ := hreg
      cases hs with
      | quit hq => cases hq
      | register => simp [HandlesKnown, Instr.handle, addWorker]
    · intro j hj h hh
      exact (hold (fun id models hi ↦ hreg ⟨id, models, hi⟩) j hj h hh).trans hs.nextSes_le
  intro hreg
  induction hs with
  | register id models => exact absurd rfl (hreg id models)
  | enter hk =>
    exact forall_fresh_enter hk (handlesKnown_of_none rfl) (fun _ _ ↦ handlesKnown_of_none rfl)
      (fun _ _ ↦ handlesKnown_of_none rfl) (fun _ _ ↦ handlesKnown_of_none rfl) (handlesKnown_of_none rfl)
  | fail =>
    exact Effect.forall_fresh_next (forall_fail (fun _ _ _ ↦ handlesKnown_of_none rfl)
      (fun _ _ _ ↦ handlesKnown_of_none rfl) hi)
  | markDraining hsp => exact forall_fresh_markDraining hsp hi
  | failWaiters => exact Effect.forall_fresh_next (forall_failWaiters fun _ _ _ ↦ handlesKnown_of_none rfl)
  | evictScan hhs =>
    refine Effect.forall_fresh_next (forall_evictScan (fun h hh ↦ ?_) (handlesKnown_of_none rfl))
    simpa [HandlesKnown, Instr.handle] using hI.of_registered (hhs h hh).1
  | drain hh | command hh => simpa [HandlesKnown, Instr.handle] using hI _ _ hh
  | pick _ hh | pickStream hh | placeAt hh =>
    simpa [HandlesKnown, Instr.handle] using hI.of_pickable hh
  | request | dequeue | addObserver | ack => simp_all [HandlesKnown, Instr.handle]
  | _ =>
    first
    | exact Effect.forall_fresh_singleton hi
    | exact Effect.forall_fresh_singleton (handlesKnown_of_none rfl)
    | exact Effect.forall_fresh_nil

theorem Step.takes_fresh (hs : Step s i x e) (hi : i.makes = false) (ch : ℕ) :
    e.fresh.countP (·.takes ch) ≤ if i.takes ch then 1 else 0 := by
  refine hs.countP_fresh_le (fun j hj ↦ ?_) fun hi' ↦ ?_
  · cases j <;> first | rfl | cases hj
  · induction hs with
    | addPending | addWaiter | addObserver => cases hi
    | enter hj => cases hj.symm.trans hi'
    | fail | markDraining | evictScan | failWaiters => cases hi'
    | request | dequeue | ack =>
      rw [Effect.countP_fresh]
      simp [Instr.takes]
    | _ =>
      first
      | exact Effect.countP_fresh_singleton_le rfl
      | exact Effect.countP_fresh_singleton_of_not rfl
      | exact Effect.countP_fresh_nil_le

theorem Step.takes_balance (hs : Step s i x e) (ch : ℕ) :
    e.fresh.countP (·.takes ch) + (if ch < s.nextChan then 1 else 0) ≤
      (if i.takes ch then 1 else 0) + (if ch < e.shared.nextChan then 1 else 0) := by
  cases hi : i.makes with
  | false =>
    rw [hs.nextChan_eq hi]
    exact Nat.add_le_add_right (hs.takes_fresh hi ch) _
  | true =>
    have hlt : ch < s.nextChan + 1 ↔ ch < s.nextChan ∨ s.nextChan = ch := by omega
    rw [Effect.countP_fresh]
    induction hs with
    | addPending | addWaiter | addObserver =>
      by_cases hch : s.nextChan = ch <;> simp [Instr.takes, Server.setWorker, Server.newChan, Server.disturb, hlt, hch]
    | quit hq => cases (Instr.mayQuit_of_makes hi).symm.trans hq
    | _ => cases hi

section

variable {t : Time} {d : Duration} {n : ℕ} {c : Config Server Instr}

theorem known_of_reaches (hc : controlPlane.Reaches (boot (new t d n)) c) :
    RegistryKnown c.shared ∧ ∀ j ∈ c.soup, HandlesKnown c.shared j := by
  refine hc.local_invariant RegistryKnown HandlesKnown ?_ ?_ ?_ ?_
  · simp [boot, new, RegistryKnown]
  · simp [boot, Config.soup, HandlesKnown, Instr.handle]
  · intro c i x e hI hi _ he
    exact ⟨(step_of_exec he).registryKnown hI, (step_of_exec he).handlesKnown_fresh hI hi⟩
  · intro c i x e _ _ _ he j _ hj h hh
    exact (hj h hh).trans (step_of_exec he).nextSes_le

theorem takes_le_one (hc : controlPlane.Reaches (boot (new t d n)) c) (ch : ℕ) :
    c.soup.countP (·.takes ch) ≤ if ch < c.shared.nextChan then 1 else 0 := by
  refine hc.ticket_invariant Server.nextChan (·.takes ch) ch ?_ ?_
  · simp [boot, Config.soup, Instr.takes]
  · intro c i x e _ he
    exact (step_of_exec he).takes_balance ch

end

def Server.queuesOn (s : Server) (h : ℕ) : Instr → Bool
  | .addPending _ k _ => k == h
  | .command id _ => s.workers.lookup id == some h
  | .register _ _ => s.nextSes + 1 == h
  | _ => false

theorem Step.sends_fresh (hs : Step s i x e) (h : ℕ) :
    e.fresh.countP (·.sends h) ≤ if s.queuesOn h i then 1 else 0 := by
  refine hs.countP_fresh_le (fun j hj ↦ ?_) fun hi ↦ ?_
  · cases j <;> first | rfl | cases hj
  · induction hs with
    | enter hj => cases hj.symm.trans hi
    | fail | markDraining | evictScan | failWaiters => cases hi
    | @command id m k hk =>
      rw [Effect.countP_fresh]
      by_cases hkh : k = h <;> simp [Instr.sends, Server.queuesOn, hk, hkh]
    | addPending o k job =>
      rw [Effect.countP_fresh]
      by_cases hkh : k = h <;> simp [Instr.sends, Server.queuesOn, hkh]
    | register =>
      rw [Effect.countP_fresh]
      by_cases hh : s.nextSes + 1 = h <;> simp [Instr.sends, Server.queuesOn, hh]
    | request | dequeue | addObserver | ack =>
      rw [Effect.countP_fresh]
      simp [Instr.sends]
    | _ =>
      first
      | exact Effect.countP_fresh_singleton_of_not rfl
      | exact Effect.countP_fresh_nil_le

theorem Step.send_cases (hs : Step s i x e) (h : ℕ) :
    ((∀ id models, i = .register id models → h ≠ s.nextSes + 1) ∧
      (e.shared.worker h).send = (s.worker h).send) ∨
    (i.sends h ∧ ∃ m, (s.worker h).send.send m = some (e.shared.worker h).send) ∨
    (i = .write h ∧ ∃ m, (s.worker h).send.recv = some (m, (e.shared.worker h).send)) ∨
    (∃ id models, i = .register id models ∧ h = s.nextSes + 1 ∧
      (e.shared.worker h).send = .make _ 16) := by
  induction hs with
  | quit hq =>
    refine .inl ⟨?_, rfl⟩
    rintro id models rfl
    cases hq
  | register id models =>
    by_cases hh : h = s.nextSes + 1
    · subst hh
      exact .inr (.inr (.inr ⟨id, models, rfl, rfl, by simp [addWorker]⟩))
    · exact .inl ⟨fun _ _ _ ↦ hh, by rw [addWorker_of_ne hh]⟩
  | @ack k _ _ hc | @sendCommand k _ _ hc | @send _ k _ _ _ hc =>
    by_cases hh : h = k
    · subst hh
      refine .inr (.inl ⟨beq_self_eq_true h, ?_⟩)
      rw [Server.setWorker_self]
      exact ⟨_, hc⟩
    · exact .inl ⟨by simp, by rw [Server.setWorker_of_ne hh]⟩
  | @wrote k _ _ hc _ | @wroteJob k _ _ hc =>
    by_cases hh : h = k
    · subst hh
      exact .inr (.inr (.inl ⟨rfl, by simp [hc, Server.setWorker]⟩))
    · exact .inl ⟨by simp, congrArg Worker.send (Function.update_of_ne hh ..)⟩
  | _ =>
    refine .inl ⟨by simp, ?_⟩
    first
    | rfl
    | exact Server.proj_of_update Worker.send rfl (by rfl) h

def Room (s : Server) (S : Multiset Instr) : Prop :=
  ∀ h, S.countP (·.sends h) + (s.worker h).send.sent.length ≤
    (s.worker h).send.taken + (s.worker h).send.cap

theorem Step.room {R : Multiset Instr} (hs : Step s i x e) (hK : ∀ j ∈ R, HandlesKnown s j)
    (hguard : ∀ h, s.queuesOn h i → (∀ id models, i ≠ .register id models) →
      R.countP (·.sends h) + (s.worker h).send.sent.length <
        (s.worker h).send.taken + (s.worker h).send.cap)
    (hroom : Room s (i ::ₘ R)) : Room e.shared (e.fresh + R) := by
  intro h
  have hold := hroom h
  have hfresh := hs.sends_fresh h
  rw [Multiset.countP_cons] at hold
  rw [Multiset.countP_add]
  rcases hs.send_cases h with ⟨hreg, hsame⟩ | ⟨hi, m, hc⟩ | ⟨rfl, m, hc⟩ | ⟨id, models, rfl, rfl, hc⟩
  · rw [hsame]
    by_cases hq : s.queuesOn h i
    · have hlt := hguard h hq fun id models hi ↦ by
        subst hi
        exact hreg id models rfl (eq_of_beq hq).symm
      rw [if_pos hq] at hfresh
      omega
    · rw [if_neg hq] at hfresh
      omega
  · obtain ⟨-, hsent, htaken, -, hcap⟩ := Chan.send_some hc
    have hq : s.queuesOn h i = false := by cases i <;> first | rfl | cases hi
    rw [if_neg (by simp [hq])] at hfresh
    rw [if_pos hi] at hold
    rw [hsent, htaken, hcap, List.length_append, List.length_singleton]
    omega
  · obtain ⟨-, hsent, htaken, -, hcap⟩ := Chan.recv_some hc
    rw [if_neg (by simp [Server.queuesOn])] at hfresh
    rw [hsent, htaken, hcap]
    omega
  · have hnone : R.countP (·.sends (s.nextSes + 1)) = 0 := by
      refine Multiset.countP_eq_zero.mpr fun j hj hsend ↦ ?_
      have hknown := hK j hj (s.nextSes + 1)
      cases j with
      | ack k | send _ k _ _ | sendCommand k _ =>
        have := hknown (congrArg some (eq_of_beq hsend))
        omega
      | _ => cases hsend
    rw [hc, hnone]
    have : (if s.queuesOn (s.nextSes + 1) (.register id models) then 1 else 0) ≤ 1 := by
      split <;> simp
    simp only [Chan.make, List.length_nil]
    omega

end AgentGpu.ControlPlane
