import AgentGpu.ControlPlane.Steps

namespace AgentGpu.ControlPlane

open Foundation

namespace Instr

def readerOf (h : ℕ) : Instr → Bool
  | .read k | .forward k .. | .forwardLast k .. | .closeLast k .. | .resolve k _ | .deliver k .. =>
    k == h
  | _ => false

def handlerOf (h : ℕ) : Instr → Bool
  | .ack k => k == h
  | i => i.readerOf h

def connOf (h : ℕ) : Instr → Bool
  | .unregister k .disconnected | .fail k .disconnected => k == h
  | i => i.handlerOf h

theorem handlerOf_of_readerOf {h : ℕ} {i : Instr} (hi : i.readerOf h) : i.handlerOf h := by
  cases i <;> simp_all [readerOf, handlerOf]

theorem connOf_of_handlerOf {h : ℕ} {i : Instr} (hi : i.handlerOf h) : i.connOf h := by
  cases i <;> simp_all [readerOf, handlerOf, connOf]

end Instr

theorem forall_failures {w : Worker} {cause : Cause} {pending observers : List String}
    {P : Instr → Prop}
    (hpending : ∀ id ch, w.pending.lookup id = some ch →
      P (.failDeliver ch ⟨{ jobID := id, err := some cause.err }, []⟩))
    (hobservers : ∀ id ch, w.observers.lookup id = some ch →
      P (.failForward ch ⟨{ jobID := id, done := true, err := some cause.err }, none⟩)) :
    ∀ i ∈ failures w cause pending observers, P i := by
  intro i hi
  rcases List.mem_append.mp hi with hi | hi
  · obtain ⟨id, -, hi⟩ := List.mem_filterMap.mp hi
    obtain ⟨ch, hch, rfl⟩ := Option.map_eq_some_iff.mp hi
    exact hpending id ch hch
  · obtain ⟨id, -, hi⟩ := List.mem_filterMap.mp hi
    obtain ⟨ch, hch, rfl⟩ := Option.map_eq_some_iff.mp hi
    exact hobservers id ch hch

theorem forall_fail {w : Worker} {h : ℕ} {cause : Cause} {pending observers : List String}
    {P : Instr → Prop}
    (hpending : ∀ id ch, w.pending.lookup id = some ch →
      P (.failDeliver ch ⟨{ jobID := id, err := some cause.err }, []⟩))
    (hobservers : ∀ id ch, w.observers.lookup id = some ch →
      P (.failForward ch ⟨{ jobID := id, done := true, err := some cause.err }, none⟩))
    (hcancel : P (.cancel h)) :
    ∀ i ∈ failures w cause pending observers ++ (if cause = .stale then [] else [.cancel h]), P i := by
  refine List.forall_mem_append.mpr ⟨forall_failures hpending hobservers, ?_⟩
  split
  · exact List.forall_mem_nil _
  · exact List.forall_mem_singleton.mpr hcancel

theorem forall_fresh_markDraining {s : Server} {h : ℕ} {deadline : Time} {spawned : List (List Instr)}
    {P : Instr → Prop} (hsp : spawned = [] ∨ spawned = [[.reap h deadline]]) (hreap : P (.reap h deadline)) :
    ∀ i ∈ (⟨s, [], spawned⟩ : Effect Server Instr).fresh, P i := by
  rcases hsp with rfl | rfl
  · exact Effect.forall_fresh_nil
  · simpa using hreap

theorem forall_failWaiters {ids : List String} {waiters : Table String ℕ} {err : JobError}
    {P : Instr → Prop}
    (hwaiters : ∀ id ch, waiters.lookup id = some ch →
      P (.deliverWaiter ch ⟨{ jobID := id, err := some err }, []⟩)) :
    ∀ i ∈ ids.filterMap fun id ↦ (waiters.lookup id).map fun ch ↦
      Instr.deliverWaiter ch ⟨{ jobID := id, err := some err }, []⟩, P i := by
  intro i hi
  obtain ⟨id, -, hi⟩ := List.mem_filterMap.mp hi
  obtain ⟨ch, hch, rfl⟩ := Option.map_eq_some_iff.mp hi
  exact hwaiters id ch hch

theorem forall_evictScan {stale : List ℕ} {P : Instr → Prop}
    (hstale : ∀ h ∈ stale, P (.unregister h .stale)) (hevict : P .evict) :
    ∀ i ∈ stale.map (Instr.unregister · .stale) ++ [.evict], P i :=
  List.forall_mem_append.mpr
    ⟨List.forall_mem_map.mpr hstale, List.forall_mem_singleton.mpr hevict⟩

variable {s : Server} {i : Instr} {x : Choice} {e : Effect Server Instr}

/-- What the instructions that walk a table or a list, and the calls from outside, leave to
be done. -/
def Instr.bulk : Instr → Bool
  | .serve | .register .. | .drain .. | .command .. | .close | .unregister _ .stale | .evict
  | .failDeliver .. | .failForward .. | .cancel _ | .reap .. | .deliverWaiter .. => true
  | _ => false

def Instr.spreads : Instr → Effect Server Instr → Bool
  | .fail .., _ | .markDraining .., _ | .evictScan _, _ | .failWaiters, _ => true
  | .serve, ⟨_, _, [[j]]⟩ => j.entry
  | _, _ => false

theorem Step.bulk_of_spreads (hs : Step s i x e) (hi : i.spreads e) : ∀ j ∈ e.fresh, j.bulk := by
  induction hs with
  | enter hk => exact forall_fresh_enter hk rfl (fun _ _ ↦ rfl) (fun _ _ ↦ rfl) (fun _ _ ↦ rfl) rfl
  | fail => exact Effect.forall_fresh_next (forall_fail (fun _ _ _ ↦ rfl) (fun _ _ _ ↦ rfl) rfl)
  | markDraining hsp => exact forall_fresh_markDraining hsp rfl
  | evictScan => exact Effect.forall_fresh_next (forall_evictScan (fun _ _ ↦ rfl) rfl)
  | failWaiters => exact Effect.forall_fresh_next (forall_failWaiters fun _ _ _ ↦ rfl)
  | @quit i x hq => cases i <;> simp [Instr.spreads, Instr.mayQuit] at hi hq
  | _ => cases hi

theorem Step.forall_fresh {P : Instr → Prop} (hs : Step s i x e) (hbulk : ∀ j, j.bulk → P j)
    (hrest : i.spreads e = false → ∀ j ∈ e.fresh, P j) : ∀ j ∈ e.fresh, P j := by
  cases hi : i.spreads e with
  | true => exact fun j hj ↦ hbulk j (hs.bulk_of_spreads hi j hj)
  | false => exact hrest hi

theorem Step.countP_fresh_le {p : Instr → Bool} {n : ℕ} (hs : Step s i x e)
    (hbulk : ∀ j, j.bulk → p j = false)
    (hrest : i.spreads e = false → e.fresh.countP (p ·) ≤ n) : e.fresh.countP (p ·) ≤ n := by
  cases hi : i.spreads e with
  | true =>
    rw [Effect.countP_fresh_eq_zero fun j hj ↦ hbulk j (hs.bulk_of_spreads hi j hj)]
    exact Nat.zero_le n
  | false => exact hrest hi

theorem Step.nextSes_eq (hs : Step s i x e) :
    e.shared.nextSes = s.nextSes ∨
      ∃ id models, i = .register id models ∧ e = ⟨addWorker s id models, [.ack (s.nextSes + 1)], []⟩ := by
  induction hs with
  | register id models => exact .inr ⟨id, models, rfl, rfl⟩
  | _ => exact .inl rfl

theorem Instr.connOf_of_bulk {h : ℕ} {j : Instr} (hj : j.bulk) : j.connOf h = false := by
  cases j with
  | unregister k cause => cases cause <;> first | rfl | cases hj
  | _ => first | rfl | cases hj

theorem Step.conn_fresh (hs : Step s i x e) (hreg : ∀ id models, i ≠ .register id models) (h : ℕ) :
    e.fresh.countP (·.connOf h) ≤ if i.connOf h then 1 else 0 := by
  refine hs.countP_fresh_le (fun j ↦ Instr.connOf_of_bulk) fun hi ↦ ?_
  induction hs with
  | register id models => exact absurd rfl (hreg id models)
  | enter hj => cases hj.symm.trans hi
  | fail | markDraining | evictScan | failWaiters => cases hi
  | @unregisterOther k cause | @unregister k cause =>
    cases cause <;> exact Effect.countP_fresh_singleton_le rfl
  | @ack k =>
    rw [Effect.countP_fresh]
    by_cases hk : k = h <;> simp [Instr.connOf, Instr.handlerOf, Instr.readerOf, hk]
  | request | dequeue | addObserver =>
    rw [Effect.countP_fresh]
    simp [Instr.connOf, Instr.handlerOf, Instr.readerOf]
  | _ => first | exact Effect.countP_fresh_singleton_le rfl | exact Effect.countP_fresh_nil_le

theorem Step.connOf_of_fresh (hs : Step s i x e) (hreg : ∀ id models, i ≠ .register id models)
    {h : ℕ} {j : Instr} (hj : j ∈ e.fresh) (hjh : j.connOf h) : i.connOf h := by
  by_contra hi
  have hfresh := hs.conn_fresh hreg h
  rw [if_neg hi, Nat.le_zero, Multiset.countP_eq_zero] at hfresh
  exact hfresh j hj hjh

theorem Step.handlerOf_of_fresh (hs : Step s i x e) (hreg : ∀ id models, i ≠ .register id models)
    {h : ℕ} {j : Instr} (hj : j ∈ e.fresh) (hjh : j.handlerOf h) : i.handlerOf h := by
  have hi := hs.connOf_of_fresh hreg hj (Instr.connOf_of_handlerOf hjh)
  cases i with
  | unregister k cause =>
    have hjk : j = .fail k cause := by
      cases hs with
      | quit hq => simp [Instr.mayQuit] at hq
      | unregisterOther | unregister => simpa using hj
    simp [hjk, Instr.handlerOf, Instr.readerOf] at hjh
  | fail k cause =>
    have hconn := Instr.connOf_of_handlerOf hjh
    rw [Instr.connOf_of_bulk (hs.bulk_of_spreads rfl j hj)] at hconn
    cases hconn
  | _ => exact hi

theorem Step.conn_balance (hs : Step s i x e) (h : ℕ) :
    e.fresh.countP (·.connOf h) + (if h < s.nextSes + 1 then 1 else 0) ≤
      (if i.connOf h then 1 else 0) + (if h < e.shared.nextSes + 1 then 1 else 0) := by
  by_cases hreg : ∃ id models, i = .register id models
  · obtain ⟨id, models, rfl⟩ := hreg
    rw [Effect.countP_fresh]
    cases hs with
    | register =>
      by_cases hnew : s.nextSes + 1 = h
      · subst hnew
        simp [addWorker, Instr.connOf, Instr.handlerOf, Instr.readerOf]
      · have hlt : h < s.nextSes + 1 + 1 ↔ h < s.nextSes + 1 := by omega
        simp [addWorker, Instr.connOf, Instr.handlerOf, Instr.readerOf, hnew, hlt]
    | quit hq => simp [Instr.mayQuit] at hq
  · have hfresh := hs.conn_fresh (fun id models hi ↦ hreg ⟨id, models, hi⟩) h
    have hses : e.shared.nextSes = s.nextSes :=
      hs.nextSes_eq.resolve_right fun ⟨id, models, hi, _⟩ ↦ hreg ⟨id, models, hi⟩
    rw [hses]
    exact Nat.add_le_add_right hfresh _

theorem conn_le_one {t : Time} {d : Duration} {n : ℕ} {c : Config Server Instr}
    (hc : controlPlane.Reaches (boot (new t d n)) c) (h : ℕ) :
    c.soup.countP (·.connOf h) ≤ if h < c.shared.nextSes + 1 then 1 else 0 := by
  refine hc.ticket_invariant (fun s ↦ s.nextSes + 1) (·.connOf h) h ?_ ?_
  · simp [boot, Config.soup, Instr.connOf, Instr.handlerOf, Instr.readerOf]
  · intro c i x e _ he
    exact (step_of_exec he).conn_balance h

theorem Step.next_tail (hs : Step s i x e) :
    (∀ j ∈ e.next.tail, j.bulk ∨ j = .place) ∧ ∀ th ∈ e.spawned, th.tail = [] := by
  have hspreads (hi : i.spreads e) : ∀ j ∈ e.next.tail, j.bulk ∨ j = .place := fun j hj ↦
    .inl (hs.bulk_of_spreads hi j (Effect.mem_fresh.mpr (.inl (List.mem_of_mem_tail hj))))
  induction hs with
  | fail | evictScan | failWaiters => exact ⟨hspreads rfl, by simp⟩
  | markDraining hsp => rcases hsp with rfl | rfl <;> simp
  | dequeue => simp
  | request | addObserver | ack | enter => simp
  | _ => exact ⟨by simp, by simp⟩

section

variable {t : Time} {d : Duration} {n : ℕ} {c : Config Server Instr}

theorem tail_of_reaches (hc : controlPlane.Reaches (boot (new t d n)) c) :
    ∀ (k : ℕ) th, c.threads[k]? = some th → ∀ j ∈ th.tail, j.bulk ∨ j = .place := by
  refine hc.threads_invariant (fun _ _ th ↦ ∀ j ∈ th.tail, j.bulk ∨ j = .place) ?_ ?_ ?_
  · intro k th hk
    have hmem : th ∈ (boot (new t d n)).threads := List.mem_of_getElem? hk
    have hone : th = [.serve] ∨ th = [.evict] ∨ th = [.place] := by simpa [boot] using hmem
    rcases hone with rfl | rfl | rfl <;> simp
  · intro c k i rest x e hrest _ he
    obtain ⟨hnext, hspawned⟩ := (step_of_exec he).next_tail
    refine ⟨fun j hj ↦ ?_, fun m th hm ↦ by simp [hspawned th (List.mem_of_getElem? hm)]⟩
    cases hnil : e.next with
    | nil =>
      rw [hnil] at hj
      exact hrest j (List.mem_of_mem_tail hj)
    | cons a next =>
      rw [hnil] at hj hnext
      rcases List.mem_append.mp hj with hj | hj
      · exact hnext j hj
      · exact hrest j hj
  · exact fun _ _ _ _ _ _ _ _ _ _ _ _ h ↦ h

theorem head_of_mem_soup (hc : controlPlane.Reaches (boot (new t d n)) c) {j : Instr}
    (hj : j ∈ c.soup) (hbulk : j.bulk = false) (hplace : j ≠ .place) :
    ∃ (k : ℕ) (rest : List Instr), c.threads[k]? = some (j :: rest) := by
  obtain ⟨th, hth, hjth⟩ := Config.mem_soup.mp hj
  obtain ⟨k, hk⟩ := List.mem_iff_getElem?.mp hth
  cases th with
  | nil => cases hjth
  | cons a rest =>
    rcases List.mem_cons.mp hjth with rfl | hrest
    · exact ⟨k, rest, hk⟩
    · rcases tail_of_reaches hc k _ hk j hrest with hb | hp
      · cases hbulk.symm.trans hb
      · exact absurd hp hplace

end

end AgentGpu.ControlPlane
