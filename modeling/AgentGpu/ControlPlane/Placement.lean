import AgentGpu.ControlPlane.Dispatch
import AgentGpu.ControlPlane.Routing
import AgentGpu.ControlPlane.Scheduler
import AgentGpu.Queue

namespace AgentGpu.ControlPlane

open Foundation

theorem Item.before_iff {a b : Item} :
    a.before b ↔ b.priority < a.priority ∨ a.priority = b.priority ∧ a.seq < b.seq := by
  unfold Item.before
  split_ifs with h
  · simp [h]
  · simp [h]

theorem nextItem_eq_none {queue : List Item} (h : nextItem queue = none) : queue = [] := by
  cases queue with
  | nil => rfl
  | cons a rest =>
    simp only [nextItem] at h
    split at h
    · cases h
    · split at h <;> cases h

theorem nextItem_first {item : Item} {queue : List Item} (hitem : nextItem queue = some item) :
    ∀ b ∈ queue, ¬b.before item := by
  induction queue generalizing item with
  | nil => cases hitem
  | cons a rest ih =>
    have hself (a : Item) : ¬a.before a := by
      rw [Item.before_iff]
      omega
    simp only [nextItem] at hitem
    cases hrest : nextItem rest with
    | none =>
      obtain rfl := nextItem_eq_none hrest
      simp only [hrest, Option.some.injEq] at hitem
      subst hitem
      exact List.forall_mem_singleton.mpr (hself a)
    | some b =>
      have hb := ih hrest
      simp only [hrest] at hitem
      rw [List.forall_mem_cons]
      split_ifs at hitem with hba
      · cases hitem
        refine ⟨?_, hb⟩
        rw [Item.before_iff] at hba ⊢
        omega
      · cases hitem
        refine ⟨hself a, fun b' hb' ↦ ?_⟩
        have hlate := hb b' hb'
        rw [Item.before_iff] at hba hlate ⊢
        omega

def Item.ofQueue (it : Queue.Item Job) : Item := ⟨it.job, it.priority.toNat, it.seq.toNat⟩

theorem nextItem_popLocked {q : Queue Job} {r : Queue.Reference Job} (h : q.Refines r)
    (hp : ∀ it ∈ r.held, 0 ≤ it.priority) {queue : List Item}
    (hqueue : queue.Perm (q.items.toList.map Item.ofQueue)) :
    nextItem queue = q.popLocked.2.map Item.ofQueue ∧
      ∀ it ∈ q.popLocked.2,
        (queue.erase (.ofQueue it)).Perm (q.popLocked.1.items.toList.map Item.ofQueue) := by
  have hpop := h.popLocked
  have hheld := hqueue.trans (h.perm.map Item.ofQueue)
  cases hnext : Queue.takeNext r.held with
  | none =>
    simp only [hnext] at hpop
    rw [Queue.takeNext_eq_none hnext] at hheld
    rw [hpop, hheld.eq_nil]
    exact ⟨rfl, fun it hit ↦ nomatch hit⟩
  | some next =>
    obtain ⟨it, rest⟩ := next
    simp only [hnext] at hpop
    obtain ⟨hit, hrefines⟩ := hpop
    have hperm := Queue.takeNext_perm hnext
    have hin : it ∈ r.held := hperm.mem_iff.mpr List.mem_cons_self
    have hmem : Item.ofQueue it ∈ queue := hheld.mem_iff.mpr (List.mem_map_of_mem hin)
    rw [hit]
    refine ⟨?_, ?_⟩
    · cases hb : nextItem queue with
      | none => simp [nextItem_eq_none hb] at hmem
      | some b =>
        obtain ⟨b, hbin, rfl⟩ := List.mem_map.mp (hheld.mem_iff.mp (nextItem_mem hb))
        have hfirst := nextItem_first hb _ hmem
        have hless := Queue.takeNext_first h.sorted hnext b hbin
        have hpb := hp b hbin
        have hpit := hp it hin
        rw [Item.before_iff] at hfirst
        rw [Queue.Item.less_eq_false_iff] at hless
        simp only [Item.ofQueue] at hfirst
        -- neither goes before the other, so they have one sequence number
        have hseq : b.seq.toNat = it.seq.toNat := by omega
        have hnodup : (r.held.map (·.seq.toNat)).Nodup :=
          List.pairwise_map.mpr (h.sorted.imp fun hlt ↦ hlt.ne)
        rw [List.inj_on_of_nodup_map hnodup hbin hin hseq]
        rfl
    · intro it' hit'
      obtain rfl : it = it' := Option.some.inj hit'
      have hrest := hheld.trans (hperm.map Item.ofQueue)
      rw [List.map_cons] at hrest
      have herase := hrest.erase (Item.ofQueue it)
      rw [List.erase_cons_head] at herase
      exact herase.trans (hrefines.perm.map Item.ofQueue).symm

def Instr.parked : Instr → Option Item
  | .placeItem item => some item
  | _ => none

variable {s : Server} {i : Instr} {x : Choice} {e : Effect Server Instr}

theorem Step.queue_eq (hs : Step s i x e) :
    (e.shared.queue = s.queue ∧ e.shared.seq = s.seq) ∨
    (∃ job priority ch, i = .enqueue job priority ch ∧
      e.shared.queue = ⟨job, priority, s.seq⟩ :: s.queue ∧ e.shared.seq = s.seq + 1) ∨
    (∃ item, i = .place ∧ nextItem s.queue = some item ∧
      e = ⟨{ s with queue := s.queue.erase item }, [.placeItem item, .place], []⟩) := by
  induction hs with
  | enqueue job priority ch => exact .inr (.inl ⟨job, priority, ch, rfl, rfl, rfl⟩)
  | dequeue hi => exact .inr (.inr ⟨_, rfl, hi, rfl⟩)
  | _ => exact .inl ⟨rfl, rfl⟩

theorem Step.parked_fresh (hs : Step s i x e) : ∀ j ∈ e.fresh, ∀ item, j.parked = some item →
    i.parked = some item ∨ i = .place ∧ nextItem s.queue = some item := by
  intro j hj item hp
  have hleft := hs.leaves j hj
  cases j with
  | placeItem b =>
    cases hp
    rcases hleft with hplace | rfl
    · exact .inr hplace
    · exact .inl rfl
  | _ => cases hp

/-- No job is enqueued above the priority of the one that the placement loop waits to place. -/
def EnqueuesBelow (c : Config Server Instr) (i : Instr) (_ : Choice) : Prop :=
  match i with
  | .enqueue _ priority _ => ∀ j ∈ c.soup, ∀ item ∈ j.parked, priority ≤ item.priority
  | _ => True

instance (c : Config Server Instr) (i : Instr) (x : Choice) : Decidable (EnqueuesBelow c i x) := by
  delta EnqueuesBelow
  induction i using Instr.casesOn <;> infer_instance

def Leads (s : Server) (S : Multiset Instr) : Prop :=
  ∀ j ∈ S, ∀ item, j.parked = some item → ∀ b ∈ s.queue, b.priority ≤ item.priority

theorem Step.leads {R : Multiset Instr} (hs : Step s i x e) (hL : Leads s (i ::ₘ R))
    (hbelow : ∀ job priority ch, i = .enqueue job priority ch → ∀ j ∈ R, ∀ item,
      j.parked = some item → priority ≤ item.priority) : Leads e.shared (e.fresh + R) := by
  -- an item in hand after the step was in hand before it, or is the first of the queue
  have hold (item : Item) (j : Instr) (hj : j ∈ e.fresh + R) (hitem : j.parked = some item) :
      ∀ b ∈ s.queue, b.priority ≤ item.priority := by
    rcases Multiset.mem_add.mp hj with hj | hj
    · rcases hs.parked_fresh j hj item hitem with hi | ⟨rfl, hnext⟩
      · exact hL i (Multiset.mem_cons_self i R) item hi
      · intro b hb
        have hfirst := nextItem_first hnext b hb
        rw [Item.before_iff] at hfirst
        omega
    · exact hL j (Multiset.mem_cons_of_mem hj) item hitem
  intro j hj item hitem b hb
  obtain ⟨hqueue, -⟩ | ⟨job, priority, ch, rfl, hqueue, -⟩ | ⟨first, rfl, hnext, rfl⟩ := hs.queue_eq
  · exact hold item j hj hitem b (hqueue ▸ hb)
  · rw [hqueue] at hb
    rcases List.mem_cons.mp hb with rfl | hb
    · rcases Multiset.mem_add.mp hj with hj | hj
      · rcases hs.parked_fresh j hj item hitem with hi | ⟨hi, -⟩ <;> cases hi
      · exact hbelow job priority ch rfl j hj item hitem
    · exact hold item j hj hitem b hb
  · exact hold item j hj hitem b (List.mem_of_mem_erase hb)

def Instr.places : Instr → Bool
  | .addPending .queued .. | .send .queued .. | .await .queued .. | .finish .queued ..
  | .resolveWaiter _ | .deliverWaiter .. => true
  | _ => false

inductive LoopAt (s : Server) : List Instr → Prop
  | stopped (h : s.placeStop ∨ s.queueClosed) : LoopAt s []
  | free : LoopAt s [.place]
  | parked (item : Item) : LoopAt s [.placeItem item, .place]
  | busy {i : Instr} (hi : i.places) : LoopAt s [i, .place]

theorem place_cases (he : controlPlane.exec s .place x = some e) :
    (∃ item, nextItem s.queue = some item ∧ e.next = [.placeItem item, .place]) ∨
      (e.next = [] ∧ (e.shared.placeStop ∨ e.shared.queueClosed)) := by
  cases x <;> simp only [controlPlane, exec, execPlace, reduceCtorEq] at he
  split at he
  · next item hitem =>
    cases he
    exact .inl ⟨item, hitem, rfl⟩
  · split_ifs at he with hstop
    cases he
    exact .inr ⟨rfl, hstop.symm⟩

theorem LoopAt.own {rest : List Instr} (h : LoopAt s (i :: rest))
    (he : controlPlane.exec s i x = some e) : LoopAt e.shared (e.next ++ rest) := by
  cases h with
  | free =>
    obtain ⟨item, -, hnext⟩ | ⟨hnext, hstop⟩ := place_cases he
    · rw [hnext]
      exact .parked item
    · rw [hnext]
      exact .stopped hstop
  | parked item =>
    cases step_of_exec he with
    | placeAt => exact .busy rfl
    | placePark => exact .parked item
    | placeStop => exact .busy rfl
    | quit hq => cases hq
  | busy hi =>
    induction step_of_exec he with
    | quit hq => exact .free
    | deliverWaiter => exact .free
    | addPending o => cases o <;> first | exact .busy rfl | cases hi
    | @send o | @sendGone o | @awaitGone o | @await o => cases o <;> first | exact .busy rfl | cases hi
    | finishQueued | resolveWaiter => exact .busy rfl
    | _ => cases hi

theorem Step.stops (hs : Step s i x e) (h : s.placeStop ∨ s.queueClosed) :
    e.shared.placeStop ∨ e.shared.queueClosed := by
  induction hs with
  | closePlace => exact .inl rfl
  | closeQueue => exact .inr rfl
  | _ => exact h

theorem LoopAt.stable {th : List Instr} (h : LoopAt s th) (hs : Step s i x e) : LoopAt e.shared th := by
  cases h with
  | stopped h => exact .stopped (hs.stops h)
  | free => exact .free
  | parked item => exact .parked item
  | busy hi => exact .busy hi

theorem Step.placeDone_cases (hs : Step s i x e) :
    e.shared.placeDone = s.placeDone ∨ i = .place ∧ e = ⟨{ s with placeDone := true }, [], []⟩ := by
  induction hs with
  | placeExit => exact .inr ⟨rfl, rfl⟩
  | _ => exact .inl rfl

theorem Step.placeDone_kept (hs : Step s i x e) (hdone : s.placeDone) : e.shared.placeDone := by
  rcases hs.placeDone_cases with hsame | ⟨-, rfl⟩
  · rwa [hsame]
  · rfl

namespace Instr

def busy : Instr → Bool
  | .placeItem _ | .addPending .queued .. | .send .queued .. | .await .queued .. | .finish .queued ..
  | .resolveWaiter _ => true
  | _ => false

/-- What the other goroutines execute: none of the loop's instructions, and the waiters are
failed only when the loop is done. -/
def beside (s : Server) : Instr → Bool
  | .pick .queued _ | .place => false
  | .failWaiters | .deliverWaiter .. => s.placeDone
  | i => !i.busy

theorem not_busy_of_beside (hi : i.beside s) : i.busy = false := by
  cases i with
  | addPending o | send o | await o | finish o => cases o <;> first | rfl | cases hi
  | _ => first | rfl | cases hi

end Instr

theorem LoopAt.spawned_eq {rest : List Instr} (h : LoopAt s (i :: rest)) (hs : Step s i x e) :
    e.spawned = [] := by
  cases h with
  | free | parked => cases hs <;> rfl
  | busy hi =>
    induction hs with
    | enter | request | ack | addObserver | markDraining => cases hi
    | _ => rfl

theorem LoopAt.countP_busy_le {th : List Instr} (h : LoopAt s th) : th.countP (·.busy) ≤ 1 := by
  cases h with
  | stopped => simp
  | free => simp [Instr.busy]
  | parked item => simp [Instr.busy]
  | @busy i hi =>
    have hplace : Instr.place.busy = false := rfl
    cases h : i.busy <;> simp [h, hplace]

theorem beside_fresh (he : controlPlane.exec s i x = some e) (hi : i.beside s) :
    ∀ j ∈ e.fresh, j.beside e.shared := by
  by_cases hwait : i = .awaitPlace
  · subst hwait
    cases x <;> simp only [controlPlane, exec, execClose, reduceCtorEq] at he
    split_ifs at he with hdone
    cases he
    exact Effect.forall_fresh_singleton hdone
  induction step_of_exec he with
  | awaitPlace => exact absurd rfl hwait
  | enter hk => exact forall_fresh_enter hk rfl (fun _ _ ↦ rfl) (fun _ _ ↦ rfl) (fun _ _ ↦ rfl) rfl
  | @request _ _ _ _ o ho =>
    rw [Effect.forall_fresh]
    refine ⟨List.forall_mem_singleton.mpr rfl,
      List.forall_mem_singleton.mpr (List.forall_mem_singleton.mpr ?_)⟩
    cases o <;> first | rfl | exact absurd rfl ho
  | fail => exact Effect.forall_fresh_next (forall_fail (fun _ _ _ ↦ rfl) (fun _ _ _ ↦ rfl) rfl)
  | evictScan => exact Effect.forall_fresh_next (forall_evictScan (fun _ _ ↦ rfl) rfl)
  | failWaiters => exact Effect.forall_fresh_next (forall_failWaiters fun _ _ _ ↦ hi)
  | markDraining hsp => exact forall_fresh_markDraining hsp rfl
  | addObserver | ack => simp [Instr.beside, Instr.busy]
  | @pick o | addPending o | @send o | @sendGone o | @awaitGone o | @await o =>
    refine Effect.forall_fresh_singleton ?_
    cases o <;> first | rfl | cases hi
  | _ =>
    first
    | exact Effect.forall_fresh_singleton rfl
    | exact Effect.forall_fresh_nil
    | cases hi

theorem Step.beside_stable (hs : Step s i x e) {j : Instr} (hj : j.beside s) : j.beside e.shared := by
  cases j with
  | failWaiters | deliverWaiter => exact hs.placeDone_kept hj
  | pick o => cases o <;> exact hj
  | _ => exact hj

structure Ordered (s : Server) (S : Multiset Instr) : Prop where
  queued : ∀ b ∈ s.queue, b.seq < s.seq
  parked : ∀ j ∈ S, ∀ a, j.parked = some a →
    a.seq < s.seq ∧ ∀ b ∈ s.queue, b.before a → a.seq < b.seq

theorem Step.ordered {R : Multiset Instr} (hs : Step s i x e) (hO : Ordered s (i ::ₘ R)) :
    Ordered e.shared (e.fresh + R) := by
  have hold (a : Item) (j : Instr) (hj : j ∈ e.fresh + R) (ha : j.parked = some a) :
      a.seq < s.seq ∧ ∀ b ∈ s.queue, b.before a → a.seq < b.seq := by
    rcases Multiset.mem_add.mp hj with hj | hj
    · rcases hs.parked_fresh j hj a ha with hi | ⟨rfl, hnext⟩
      · exact hO.parked i (Multiset.mem_cons_self i R) a hi
      · exact ⟨hO.queued a (nextItem_mem hnext),
          fun b hb hba ↦ absurd hba (nextItem_first hnext b hb)⟩
    · exact hO.parked j (Multiset.mem_cons_of_mem hj) a ha
  obtain ⟨hqueue, hseq⟩ | ⟨job, priority, ch, rfl, hqueue, hseq⟩ | ⟨first, rfl, hnext, rfl⟩ :=
    hs.queue_eq
  · rw [← hqueue, ← hseq] at hold
    exact ⟨hqueue ▸ hseq ▸ hO.queued, fun j hj a ha ↦ hold a j hj ha⟩
  · constructor
    · rw [hqueue, hseq, List.forall_mem_cons]
      exact ⟨Nat.lt_succ_self _, fun b hb ↦ Nat.lt_succ_of_lt (hO.queued b hb)⟩
    · intro j hj a ha
      obtain ⟨hlt, hlater⟩ := hold a j hj ha
      rw [hqueue, hseq, List.forall_mem_cons]
      exact ⟨Nat.lt_succ_of_lt hlt, fun _ ↦ hlt, hlater⟩
  · exact ⟨fun b hb ↦ hO.queued b (List.mem_of_mem_erase hb), fun j hj a ha ↦
      ⟨(hold a j hj ha).1, fun b hb ↦ (hold a j hj ha).2 b (List.mem_of_mem_erase hb)⟩⟩

def RegistryKeyed (s : Server) : Prop := ∀ id h, s.workers.lookup id = some h → (s.worker h).id = id

theorem Step.registryKeyed (hs : Step s i x e) (hknown : RegistryKnown s) (hI : RegistryKeyed s) :
    RegistryKeyed e.shared := by
  obtain ⟨id, models, rfl, rfl⟩ | ⟨k, cause, rfl, -, rfl⟩ | ⟨-, hsame⟩ := hs.registry_cases
  · intro id' h hl
    rcases Table.lookup_insert_cases hl with ⟨rfl, rfl⟩ | hl
    · exact addWorker_id s id' models
    · have hne : h ≠ s.nextSes + 1 := by
        have hle := hknown id' h hl
        omega
      exact (congrArg Worker.id (addWorker_of_ne hne)).trans (hI id' h hl)
  · intro id' h hl
    exact hI id' h (Table.lookup_of_erase hl)
  · intro id h hl
    rw [hsame.id]
    exact hI id h (hsame.workers ▸ hl)

theorem pickable_of_pickWorker (hI : RegistryKeyed s) {model preferredWorkerID : String} {h : ℕ}
    (hpick : pickWorker s model preferredWorkerID = some h) : s.pickable h := by
  unfold pickWorker at hpick
  obtain ⟨id, -, hpick⟩ := Option.bind_eq_some_iff.mp hpick
  obtain ⟨k, hk, hpick⟩ := Option.bind_eq_some_iff.mp hpick
  split_ifs at hpick with hav
  cases hpick
  rw [Server.pickable, Bool.and_eq_true]
  refine ⟨Server.registered_iff.mpr ?_, hav⟩
  rwa [hI id h hk]

theorem picks_placeItem_iff (hI : RegistryKeyed s) {a : Item} {preferredWorkerID : String} {h : ℕ}
    (hpick : pickWorker s a.job.model preferredWorkerID = some h) :
    PicksFor preferredWorkerID s (.placeItem a) x ∧ controlPlane.exec s (.placeItem a) x = some e ↔
      (x = .worker h ∧ e = ⟨s, [.addPending .queued h a.job], []⟩) ∨
      (x = .ctxDone ∧ s.placeStop ∧ e = ⟨s, [.resolveWaiter
        ⟨{ jobID := a.job.id, err := some shuttingDown }, [a.job.request]⟩], []⟩) := by
  have hpickable := pickable_of_pickWorker hI hpick
  cases x with
  | worker k =>
    simp only [PicksFor, hpick, Option.some.injEq, decide_eq_true_eq, Choice.worker.injEq,
      reduceCtorEq, false_and, or_false]
    refine ⟨?_, ?_⟩
    · rintro ⟨rfl, he⟩
      simp only [controlPlane, exec, execPlace, hpickable, if_true, Option.some.injEq] at he
      exact ⟨rfl, he.symm⟩
    · rintro ⟨rfl, rfl⟩
      simp [controlPlane, exec, execPlace, hpickable]
  | noWorker => simp [PicksFor, hpick]
  | ctxDone =>
    simp only [PicksFor, controlPlane, exec, execPlace, true_and, reduceCtorEq, false_and, false_or,
      Option.ite_none_right_eq_some, Option.some.injEq]
    exact and_congr_right fun _ ↦ eq_comm
  | _ => simp [controlPlane, exec, execPlace]

section

variable {t : Time} {d : Duration} {n : ℕ} {c : Config Server Instr}

/-- Whenever the loop hands an item to a worker, no other job that could be placed waits with
a higher priority. -/
theorem placement_follows_priority (hc : controlPlane.Runs EnqueuesBelow (boot (new t d n)) c)
    {item : Item} (hitem : .placeItem item ∈ c.soup) {h : ℕ} {e : Effect Server Instr}
    (_ : controlPlane.exec c.shared (.placeItem item) (.worker h) = some e) :
    ¬∃ b ∈ c.shared.queue, item.priority < b.priority ∧
      ∃ preferredWorkerID, (pickWorker c.shared b.job.model preferredWorkerID).isSome := by
  have hleads : Leads c.shared c.soup := by
    refine hc.soup_invariant Leads ?_ ?_
    · simp [Leads, boot, new]
    · intro c i x R e hsoup hL hbelow he
      refine (step_of_exec he).leads hL ?_
      rintro job priority ch rfl j hj item hitem
      exact hbelow j (hsoup ▸ Multiset.mem_cons_of_mem hj) item hitem
  rintro ⟨b, hb, hlt, -⟩
  exact absurd (hleads _ hitem item rfl b hb) (not_le.mpr hlt)

theorem loopAt_of_reaches (hc : controlPlane.Reaches (boot (new t d n)) c) :
    ∃ th, c.threads[2]? = some th ∧ LoopAt c.shared th := by
  refine hc.thread_invariant LoopAt ⟨[.place], rfl, .free⟩ ?_ ?_
  · intro s i rest x e h he
    exact h.own he
  · intro s i x e th h he
    exact h.stable (step_of_exec he)

theorem loop_of_reaches (hc : controlPlane.Reaches (boot (new t d n)) c) :
    ∀ (k : ℕ) th, c.threads[k]? = some th → if k = 2
      then LoopAt c.shared th ∧ (c.shared.placeDone → th = []) else ∀ j ∈ th, j.beside c.shared := by
  have hrun := hc.strengthen (P := fun c ↦ (boot (new t d n)).threads.length ≤ c.threads.length)
    fun _ hc ↦ hc.length_le
  refine hrun.threads_invariant (fun s k th ↦ if k = 2
    then LoopAt s th ∧ (s.placeDone → th = []) else ∀ j ∈ th, j.beside s) ?_ ?_ ?_
  · intro k th hk
    match k, hk with
    | 0, hk | 1, hk =>
      cases hk
      exact List.forall_mem_singleton.mpr rfl
    | 2, hk =>
      cases hk
      exact ⟨.free, nofun⟩
    | k + 3, hk => simp [boot] at hk
  · intro c k i rest x e h hg he
    have hs := step_of_exec he
    have hlen : 3 ≤ c.threads.length := hg.2
    have hspawned (hbeside : ∀ j ∈ e.fresh, j.beside e.shared) (m : ℕ) (th : List Instr)
        (hth : e.spawned[m]? = some th) : if c.threads.length + m = 2
          then LoopAt e.shared th ∧ (e.shared.placeDone → th = []) else ∀ j ∈ th, j.beside e.shared := by
      rw [if_neg (by omega)]
      exact fun j hj ↦ hbeside j (Effect.mem_fresh.mpr (.inr ⟨th, List.mem_of_getElem? hth, hj⟩))
    by_cases hk : k = 2
    · rw [if_pos hk] at h ⊢
      refine ⟨⟨h.1.own he, fun hdone ↦ ?_⟩, fun m th hth ↦ ?_⟩
      · rcases hs.placeDone_cases with hsame | ⟨rfl, rfl⟩
        · cases h.2 (hsame ▸ hdone)
        · cases h.1 with
          | free => rfl
          | busy hi => cases hi
      · rw [h.1.spawned_eq hs] at hth
        cases hth
    · rw [if_neg hk] at h ⊢
      have hbeside := beside_fresh he (h i List.mem_cons_self)
      refine ⟨fun j hj ↦ ?_, hspawned hbeside⟩
      rcases List.mem_append.mp hj with hj | hj
      · exact hbeside j (Effect.mem_fresh.mpr (.inl hj))
      · exact hs.beside_stable (h j (List.mem_cons_of_mem i hj))
  · intro c k i rest x e h _ he m th hm hth
    have hs := step_of_exec he
    by_cases hm2 : m = 2
    · subst hm2
      rw [if_neg (Ne.symm hm)] at h
      rw [if_pos rfl] at hth ⊢
      refine ⟨hth.1.stable hs, fun hdone ↦ ?_⟩
      rcases hs.placeDone_cases with hsame | ⟨rfl, -⟩
      · exact hth.2 (hsame ▸ hdone)
      · cases h _ List.mem_cons_self
    · rw [if_neg hm2] at hth ⊢
      exact fun j hj ↦ hs.beside_stable (hth j hj)

theorem busy_le_one (hc : controlPlane.Reaches (boot (new t d n)) c) :
    c.soup.countP (·.busy) ≤ 1 := by
  refine Config.countP_soup_le (t := 2) (fun k th hk hne j hj ↦ ?_) fun th hth ↦ ?_
  · have hbeside := loop_of_reaches hc k th hk
    rw [if_neg hne] at hbeside
    exact Instr.not_busy_of_beside (hbeside j hj)
  · have hloop := loop_of_reaches hc 2 th hth
    exact hloop.1.countP_busy_le

theorem ordered_of_reaches (hc : controlPlane.Reaches (boot (new t d n)) c) :
    Ordered c.shared c.soup := by
  refine hc.soup_invariant Ordered ?_ ?_
  · refine ⟨?_, ?_⟩ <;> simp [boot, new, Config.soup, Instr.parked]
  · intro c i x R e _ hO _ he
    exact (step_of_exec he).ordered hO

theorem registryKeyed_of_reaches (hc : controlPlane.Reaches (boot (new t d n)) c) :
    RegistryKeyed c.shared := by
  refine (hc.strengthen fun c hc ↦ (known_of_reaches hc).1).shared_invariant RegistryKeyed ?_ ?_
  · simp [RegistryKeyed, boot, new]
  · intro c i x e hI hg he
    exact (step_of_exec he).registryKeyed hg.2 hI

/-- With a job in the queue, the placement loop takes the first of the queue or is busy with one
job that it took before: it hands it to a worker and waits for the result, or it is parked on it.
Whenever `pickWorker` has a worker for the parked job, the one step left is to hand it over,
unless the server shuts down; and what the queue has ahead of it came later. -/
theorem placement_waits_on_one_job (hc : controlPlane.Reaches (boot (new t d n)) c) {b : Item}
    (hb : b ∈ c.shared.queue) :
    (c.threads[2]? = some [] ∧ (c.shared.placeStop ∨ c.shared.queueClosed)) ∨
    (c.threads[2]? = some [.place] ∧ ∃ a e, nextItem c.shared.queue = some a ∧
      controlPlane.exec c.shared .place .go = some e ∧ e.next = [.placeItem a, .place]) ∨
    (∃ i, c.threads[2]? = some [i, .place] ∧ i.places) ∨
    ∃ a, c.threads[2]? = some [.placeItem a, .place] ∧ (b.before a → a.seq < b.seq) ∧
      ∀ preferredWorkerID h, pickWorker c.shared a.job.model preferredWorkerID = some h →
        ∀ x e, PicksFor preferredWorkerID c.shared (.placeItem a) x ∧
            controlPlane.exec c.shared (.placeItem a) x = some e ↔
          (x = .worker h ∧ e = ⟨c.shared, [.addPending .queued h a.job], []⟩) ∨
          (x = .ctxDone ∧ c.shared.placeStop ∧ e = ⟨c.shared, [.resolveWaiter
            ⟨{ jobID := a.job.id, err := some shuttingDown }, [a.job.request]⟩], []⟩) := by
  obtain ⟨th, hth, hloop⟩ := loopAt_of_reaches hc
  cases hloop with
  | stopped hstop => exact .inl ⟨hth, hstop⟩
  | free =>
    refine .inr (.inl ⟨hth, ?_⟩)
    cases hnext : nextItem c.shared.queue with
    | none =>
      rw [nextItem_eq_none hnext] at hb
      cases hb
    | some a =>
      refine ⟨a, ⟨{ c.shared with queue := c.shared.queue.erase a }, [.placeItem a, .place], []⟩,
        rfl, ?_, rfl⟩
      simp only [controlPlane, exec, execPlace, hnext]
  | busy hi => exact .inr (.inr (.inl ⟨_, hth, hi⟩))
  | parked a =>
    have ha : .placeItem a ∈ c.soup :=
      Config.mem_soup.mpr ⟨_, List.mem_of_getElem? hth, List.mem_cons_self⟩
    refine .inr (.inr (.inr ⟨a, hth, ((ordered_of_reaches hc).parked _ ha a rfl).2 b hb, ?_⟩))
    exact fun preferredWorkerID h hpick x e ↦ picks_placeItem_iff (registryKeyed_of_reaches hc) hpick

end

/-- A draining worker has the model. A request is queued for it and taken up by the loop,
which finds no worker to place it on. -/
def parkOne : List (ℕ × Choice) :=
  [(0, .connect "w" [⟨"m", ""⟩]), (3, .go), (3, .go), (3, .message .deregister),
    (0, .request "a" none "m" false), (5, .noWorker 1), (5, .go), (5, .go), (2, .go),
    (2, .noWorker 0)]

def itemA : Item := ⟨⟨"a", "m", 0⟩, 1, 0⟩

theorem placement_follows_priority_samePriority :
    ∃ c e, controlPlane.Runs EnqueuesBelow (boot (new 0 0 0)) c ∧ .placeItem itemA ∈ c.soup ∧
      controlPlane.exec c.shared (.placeItem itemA) (.worker 2) = some e ∧
      c.shared.queue = [⟨⟨"b", "m", 1⟩, 1, 1⟩] ∧
      ¬∃ b ∈ c.shared.queue, itemA.priority < b.priority ∧
        ∃ preferredWorkerID, (pickWorker c.shared b.job.model preferredWorkerID).isSome := by
  have hrun : ∃ c, controlPlane.Runs EnqueuesBelow (boot (new 0 0 0)) c ∧
      .placeItem itemA ∈ c.soup ∧
      (controlPlane.exec c.shared (.placeItem itemA) (.worker 2)).isSome ∧
      c.shared.queue = [⟨⟨"b", "m", 1⟩, 1, 1⟩] := by
    apply Machine.exists_run (parkOne ++
      [(0, .request "b" none "m" false), (6, .noWorker 1), (6, .go), (6, .go),
        (0, .connect "v" [⟨"m", ""⟩]), (7, .go)])
    decide +kernel
  obtain ⟨c, hc, hitem, hexec, hqueue⟩ := hrun
  obtain ⟨e, he⟩ := Option.isSome_iff_exists.mp hexec
  exact ⟨c, e, hc, hitem, he, hqueue, placement_follows_priority hc hitem he⟩

/-- Another request comes with a higher priority, then a worker for both. The loop hands it
the first. -/
theorem late_priority_is_overtaken :
    let b : Item := ⟨⟨"b", "m", 1⟩, 2, 1⟩
    ∃ c, controlPlane.Runs (fun c i x ↦ Picks c.shared i x) (boot (new 0 0 0)) c ∧
      .placeItem itemA ∈ c.soup ∧ b ∈ c.shared.queue ∧ itemA.priority < b.priority ∧
      pickWorker c.shared b.job.model "" = some 2 ∧
      Picks c.shared (.placeItem itemA) (.worker 2) ∧
      (controlPlane.exec c.shared (.placeItem itemA) (.worker 2)).isSome := by
  apply Machine.exists_run (parkOne ++
    [(0, .request "b" none "m" false), (6, .noWorker 2), (6, .go), (6, .go),
      (0, .connect "v" [⟨"m", ""⟩]), (7, .go)])
  decide +kernel

theorem placement_waits_on_one_job_parked :
    ∃ c b, controlPlane.Reaches (boot (new 0 0 0)) c ∧ b ∈ c.shared.queue ∧ b.before itemA ∧
      c.threads[2]? = some [.placeItem itemA, .place] ∧ itemA.seq < b.seq ∧
      pickWorker c.shared "m" "" = some 2 ∧ ∀ x e, Picks c.shared (.placeItem itemA) x ∧
        controlPlane.exec c.shared (.placeItem itemA) x = some e ↔
          x = .worker 2 ∧ e = ⟨c.shared, [.addPending .queued 2 itemA.job], []⟩ := by
  have hrun : ∃ c, controlPlane.Reaches (boot (new 0 0 0)) c ∧
      ⟨⟨"b", "m", 1⟩, 2, 1⟩ ∈ c.shared.queue ∧ c.threads[2]? = some [.placeItem itemA, .place] ∧
      pickWorker c.shared "m" "" = some 2 ∧ c.shared.placeStop = false := by
    apply Machine.exists_run (parkOne ++
      [(0, .request "b" none "m" false), (6, .noWorker 2), (6, .go), (6, .go),
        (0, .connect "v" [⟨"m", ""⟩]), (7, .go)])
    decide +kernel
  obtain ⟨c, hc, hb, hth, hpick, hstop⟩ := hrun
  refine ⟨c, _, hc, hb, by decide, hth, ?_⟩
  obtain ⟨h, -⟩ | ⟨h, -⟩ | ⟨i, h, hi⟩ | ⟨a, h, horder, hplaced⟩ := placement_waits_on_one_job hc hb
  · cases hth.symm.trans h
  · cases hth.symm.trans h
  · cases hth.symm.trans h
    cases hi
  · cases hth.symm.trans h
    refine ⟨horder (by decide), hpick, fun x e ↦ (hplaced "" 2 hpick x e).trans ?_⟩
    simp [hstop]

/-- The loop is parked on a job for which there is no worker while there is one for a job in
the queue. -/
theorem parked_job_blocks_runnable :
    let b : Item := ⟨⟨"b", "k", 1⟩, 1, 1⟩
    ∃ c, controlPlane.Runs (fun c i x ↦ Picks c.shared i x) (boot (new 0 0 0)) c ∧
      c.threads[2]? = some [.placeItem itemA, .place] ∧
      pickWorker c.shared itemA.job.model "" = none ∧
      b ∈ c.shared.queue ∧ pickWorker c.shared b.job.model "" = some 3 := by
  apply Machine.exists_run (parkOne ++
    [(0, .connect "v" [⟨"k", ""⟩]), (6, .go), (6, .go), (6, .message .deregister),
      (0, .request "b" none "k" false), (8, .noWorker 1), (8, .go), (8, .go),
      (0, .connect "u" [⟨"k", ""⟩]), (9, .go)])
  decide +kernel

end AgentGpu.ControlPlane
