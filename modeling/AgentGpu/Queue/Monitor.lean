import AgentGpu.Foundation.Goroutines
import AgentGpu.Queue

namespace AgentGpu.Queue

open Foundation

variable {J : Type}

/-- The queue under its mutex and its condition variable. `mu` is held from one step to the next
only by a `DequeueWait` between its checks and `cond.Wait`; `notify` has the calls that are parked.
Contexts and calls go by number; a call that has a reply has returned and closed its `stop`. -/
structure Monitor (J : Type) where
  queue : Queue J
  mu : Bool := false
  notify : List ℕ := []
  ctxErr : ℕ → Option String := fun _ ↦ none
  calls : ℕ := 0
  replies : List (ℕ × Reply J) := []

def Reply.returns : Reply J → Bool
  | .waiting => false
  | _ => true

inductive Call (J : Type)
  | enqueue (job : J) (key : String) (p : ℤ)
  | dequeue
  | dequeueWait (ctx : ℕ)
  | close

namespace Monitor

inductive Instr (J : Type)
  | serve
  | enqueue (job : J) (key : String) (p : ℤ)
  | dequeue
  | close
  -- DequeueWait `k` and the goroutine that watches its context
  | start (k ctx : ℕ)
  | wait (k ctx : ℕ)
  | asleep (k ctx : ℕ)
  | bridge (k ctx : ℕ)
  deriving DecidableEq

inductive Choice (J : Type)
  | go
  | call (call : Call J)
  | cancel (ctx : ℕ) (err : String)
  /-- The clock that stamps the item, and the parked call that the signal wakes. -/
  | signal (now : Time) (woken : Option ℕ)
  | ctxDone
  | stop

def entry (k : ℕ) : Call J → Instr J
  | .enqueue job key p => .enqueue job key p
  | .dequeue => .dequeue
  | .dequeueWait ctx => .start k ctx
  | .close => .close

/-- `Signal` wakes one of the parked calls, if there is one. -/
def signal (notify : List ℕ) : Option ℕ → Option (List ℕ)
  | none => if notify = [] then some [] else none
  | some k => if k ∈ notify then some (notify.erase k) else none

variable (s : Monitor J)

def stopped (k : ℕ) : Bool := s.replies.any (·.1 = k)

/-- One round of the loop of `DequeueWait`, under the mutex. -/
def round (k ctx : ℕ) (spawned : List (List (Instr J))) : Effect (Monitor J) (Instr J) :=
  let r := s.queue.dequeueWait (s.ctxErr ctx)
  if r.2.returns then ⟨{ s with queue := r.1, replies := (k, r.2) :: s.replies }, [], spawned⟩
  else ⟨{ s with mu := true }, [.wait k ctx], spawned⟩

def exec (s : Monitor J) : Instr J → Choice J → Option (Effect (Monitor J) (Instr J))
  | .serve, .call call => some ⟨{ s with calls := s.calls + 1 }, [.serve], [[entry s.calls call]]⟩
  | .serve, .cancel ctx err =>
    let ctxErr := Function.update s.ctxErr ctx (some ((s.ctxErr ctx).getD err))
    some ⟨{ s with ctxErr := ctxErr }, [.serve], []⟩
  | .enqueue job key p, .signal now woken =>
    if s.mu then none
    else
      let r := s.queue.enqueue job key p now
      if r.2.isSome then some ⟨s, [], []⟩
      else (signal s.notify woken).map fun notify ↦ ⟨{ s with queue := r.1, notify := notify }, [], []⟩
  | .dequeue, .go => if s.mu then none else some ⟨{ s with queue := s.queue.popLocked.1 }, [], []⟩
  | .close, .go =>
    if s.mu then none
    else if s.queue.closed then some ⟨s, [], []⟩
    else some ⟨{ s with queue := s.queue.close, notify := [] }, [], []⟩
  | .start k ctx, .go => if s.mu then none else some (s.round k ctx [[.bridge k ctx]])
  | .wait k ctx, .go => some ⟨{ s with mu := false, notify := k :: s.notify }, [.asleep k ctx], []⟩
  | .asleep k ctx, .go => if s.mu ∨ k ∈ s.notify then none else some (s.round k ctx [])
  -- the broadcast does not take the mutex
  | .bridge _ ctx, .ctxDone => if (s.ctxErr ctx).isSome then some ⟨{ s with notify := [] }, [], []⟩ else none
  | .bridge k _, .stop => if s.stopped k then some ⟨s, [], []⟩ else none
  | _, _ => none

def machine (J : Type) : Machine (Monitor J) (Instr J) (Choice J) := ⟨exec⟩

def start (q : Queue J) : Config (Monitor J) (Instr J) := ⟨{ queue := q }, [[.serve]]⟩

end Monitor

section Sizes

variable (q : Queue J)

theorem popLocked_cases :
    (∃ it, q.popLocked.2 = some it ∧ q.popLocked.1.items.size + 1 = q.items.size) ∨
      q.popLocked = (q, none) ∧ q.items.size = 0 := by
  unfold popLocked
  by_cases hempty : q.items.size = 0
  · exact .inr ⟨if_pos hempty, hempty⟩
  · obtain ⟨it, items, hpop, hsize⟩ := Heap.pop_size Item.less (Nat.pos_of_ne_zero hempty)
    refine .inl ⟨it, ?_⟩
    rw [if_neg hempty, hpop]
    exact ⟨rfl, hsize⟩

theorem popLocked_size : q.popLocked.1.items.size = q.items.size - 1 := by
  rcases q.popLocked_cases with ⟨it, -, hsize⟩ | ⟨hnone, hsize⟩
  · omega
  · rw [hnone, hsize]

theorem enqueue_size {job : J} {key : String} {p : ℤ} {now : Time} (h : (q.enqueue job key p now).2 = none) :
    (q.enqueue job key p now).1.items.size = q.items.size + 1 := by
  unfold enqueue at h ⊢
  split_ifs at h ⊢
  exact (Heap.push_perm Item.less _ _).size_eq.trans (Array.size_push _)

theorem dequeueWait_size (ctxErr : Option String) :
    (q.dequeueWait ctxErr).2.returns ∧ (q.dequeueWait ctxErr).1.items.size = q.items.size - 1 ∨
      (q.dequeueWait ctxErr).2.returns = false ∧ q.items.size = 0 ∧ ctxErr = none := by
  have hsize := q.popLocked_size
  unfold dequeueWait
  rcases q.popLocked_cases with ⟨it, hit, -⟩ | ⟨hnone, hempty⟩
  · split
    · next q' it' heq =>
      rw [heq] at hsize
      exact .inl ⟨rfl, hsize⟩
    · next heq =>
      rw [heq] at hit
      cases hit
  · rw [hnone]
    simp only
    have hsame : q.items.size = q.items.size - 1 := by omega
    split_ifs
    · exact .inl ⟨rfl, hsame⟩
    · cases ctxErr with
      | none => exact .inr ⟨rfl, hempty, rfl⟩
      | some err => exact .inl ⟨rfl, hsame⟩

end Sizes

namespace Monitor

inductive Step (s : Monitor J) : Instr J → Choice J → Effect (Monitor J) (Instr J) → Prop
  | call (call : Call J) :
      Step s .serve (.call call) ⟨{ s with calls := s.calls + 1 }, [.serve], [[entry s.calls call]]⟩
  | cancel (ctx : ℕ) (err err' : String) : Step s .serve (.cancel ctx err)
      ⟨{ s with ctxErr := Function.update s.ctxErr ctx (some err') }, [.serve], []⟩
  | rejected (job : J) (key : String) (p : ℤ) (x : Choice J) : Step s (.enqueue job key p) x ⟨s, [], []⟩
  | enqueue {job : J} {key : String} {p : ℤ} {now : Time} {woken : Option ℕ} {q : Queue J} {notify : List ℕ}
      (hmu : s.mu = false) (hsize : q.items.size = s.queue.items.size + 1)
      (hsignal : signal s.notify woken = some notify) :
      Step s (.enqueue job key p) (.signal now woken) ⟨{ s with queue := q, notify := notify }, [], []⟩
  | dequeue {q : Queue J} (hmu : s.mu = false) (hsize : q.items.size = s.queue.items.size - 1) :
      Step s .dequeue .go ⟨{ s with queue := q }, [], []⟩
  | closeAgain : Step s .close .go ⟨s, [], []⟩
  | close {q : Queue J} (hmu : s.mu = false) (hitems : q.items = s.queue.items) :
      Step s .close .go ⟨{ s with queue := q, notify := [] }, [], []⟩
  | startReturns {k ctx : ℕ} {q : Queue J} {r : Reply J} (hmu : s.mu = false)
      (hsize : q.items.size = s.queue.items.size - 1) :
      Step s (.start k ctx) .go
        ⟨{ s with queue := q, replies := (k, r) :: s.replies }, [], [[.bridge k ctx]]⟩
  | startWaits {k ctx : ℕ} (hmu : s.mu = false) (hsize : s.queue.items.size = 0) (hctx : s.ctxErr ctx = none) :
      Step s (.start k ctx) .go ⟨{ s with mu := true }, [.wait k ctx], [[.bridge k ctx]]⟩
  | wait (k ctx : ℕ) : Step s (.wait k ctx) .go
      ⟨{ s with mu := false, notify := k :: s.notify }, [.asleep k ctx], []⟩
  | asleepReturns {k ctx : ℕ} {q : Queue J} {r : Reply J} (hmu : s.mu = false) (hwoken : k ∉ s.notify)
      (hsize : q.items.size = s.queue.items.size - 1) :
      Step s (.asleep k ctx) .go ⟨{ s with queue := q, replies := (k, r) :: s.replies }, [], []⟩
  | asleepWaits {k ctx : ℕ} (hmu : s.mu = false) (hwoken : k ∉ s.notify) (hsize : s.queue.items.size = 0)
      (hctx : s.ctxErr ctx = none) :
      Step s (.asleep k ctx) .go ⟨{ s with mu := true }, [.wait k ctx], []⟩
  | broadcast {k ctx : ℕ} (hctx : (s.ctxErr ctx).isSome) :
      Step s (.bridge k ctx) .ctxDone ⟨{ s with notify := [] }, [], []⟩
  | bridgeStop {k ctx : ℕ} (hstop : s.stopped k) : Step s (.bridge k ctx) .stop ⟨s, [], []⟩

variable {s : Monitor J} {i : Instr J} {x : Choice J} {e : Effect (Monitor J) (Instr J)}

theorem round_cases (s : Monitor J) (k ctx : ℕ) (spawned : List (List (Instr J))) :
    (∃ q r, q.items.size = s.queue.items.size - 1 ∧ s.round k ctx spawned =
        ⟨{ s with queue := q, replies := (k, r) :: s.replies }, [], spawned⟩) ∨
      s.queue.items.size = 0 ∧ s.ctxErr ctx = none ∧
        s.round k ctx spawned = ⟨{ s with mu := true }, [.wait k ctx], spawned⟩ := by
  rcases s.queue.dequeueWait_size (s.ctxErr ctx) with ⟨hreturns, hsize⟩ | ⟨hreturns, hsize, hctx⟩
  · exact .inl ⟨_, _, hsize, if_pos hreturns⟩
  · exact .inr ⟨hsize, hctx, if_neg (by simp [hreturns])⟩

theorem step_of_exec (h : exec s i x = some e) : Step s i x e := by
  unfold exec at h
  split at h
  · cases h
    exact .call _
  · cases h
    exact .cancel _ _ _
  · simp only at h
    split_ifs at h with hmu herr
    · cases h
      exact .rejected _ _ _ _
    · obtain ⟨notify, hsignal, rfl⟩ := Option.map_eq_some_iff.mp h
      exact .enqueue (by simpa using hmu) (enqueue_size _ (by simpa using herr)) hsignal
  · split_ifs at h with hmu
    cases h
    exact .dequeue (by simpa using hmu) (popLocked_size _)
  · split_ifs at h with hmu hclosed <;> cases h
    · exact .closeAgain
    · refine .close (by simpa using hmu) ?_
      simp [Queue.close, hclosed]
  · split_ifs at h with hmu
    rcases s.round_cases _ _ _ with ⟨q, r, hsize, heq⟩ | ⟨hsize, hctx, heq⟩
    · rw [heq] at h
      cases h
      exact .startReturns (by simpa using hmu) hsize
    · rw [heq] at h
      cases h
      exact .startWaits (by simpa using hmu) hsize hctx
  · cases h
    exact .wait _ _
  · split_ifs at h with hmu
    obtain ⟨hmu, hwoken⟩ := not_or.mp hmu
    rcases s.round_cases _ _ _ with ⟨q, r, hsize, heq⟩ | ⟨hsize, hctx, heq⟩
    · rw [heq] at h
      cases h
      exact .asleepReturns (by simpa using hmu) hwoken hsize
    · rw [heq] at h
      cases h
      exact .asleepWaits (by simpa using hmu) hwoken hsize hctx
  · split_ifs at h with hctx
    cases h
    exact .broadcast hctx
  · split_ifs at h with hstop
    cases h
    exact .bridgeStop hstop
  · cases h

namespace Instr

def callOf (k : ℕ) : Instr J → Bool
  | .start k' _ | .wait k' _ | .asleep k' _ => k' = k
  | _ => false

def waits : Instr J → Bool
  | .wait _ _ => true
  | _ => false

def woken (notify : List ℕ) : Instr J → Bool
  | .asleep k _ => k ∉ notify
  | _ => false

end Instr

variable {R S : Multiset (Instr J)} {k ctx : ℕ}

theorem signal_cases {notify notify' : List ℕ} {woken : Option ℕ} (h : signal notify woken = some notify') :
    notify = [] ∧ notify' = [] ∨ ∃ k ∈ notify, notify' = notify.erase k := by
  unfold signal at h
  split at h <;> split_ifs at h with hcond <;> cases h
  · exact .inl ⟨hcond, rfl⟩
  · exact .inr ⟨_, hcond, rfl⟩

theorem Step.call_balance (hs : Step s i x e) (k : ℕ) :
    e.fresh.countP (·.callOf k) + (if k < s.calls then 1 else 0) ≤
      (if i.callOf k then 1 else 0) + (if k < e.shared.calls then 1 else 0) := by
  rw [Effect.countP_fresh]
  induction hs with
  | call call =>
    have hlt : k < s.calls + 1 ↔ k < s.calls ∨ s.calls = k := by omega
    cases call <;> by_cases hk : s.calls = k <;> simp [entry, Instr.callOf, hk, hlt]
  | _ => simp [Instr.callOf, List.countP_cons]

theorem callOf_le {q : Queue J} {c : Config (Monitor J) (Instr J)} (hc : (machine J).Reaches (start q) c)
    (k : ℕ) : c.soup.countP (·.callOf k) ≤ if k < c.shared.calls then 1 else 0 := by
  refine Machine.Runs.ticket_invariant Monitor.calls (·.callOf k) k ?_ ?_ hc
  · rw [Multiset.countP_eq_zero.mpr (by simp [start, Config.soup, Instr.callOf])]
    exact Nat.zero_le _
  · intro c i x e _ he
    exact (step_of_exec he).call_balance k

theorem callOf_le_one {q : Queue J} {c : Config (Monitor J) (Instr J)}
    (hc : (machine J).Reaches (start q) c) (k : ℕ) : c.soup.countP (·.callOf k) ≤ 1 :=
  (callOf_le hc k).trans (by split <;> simp)

theorem callOf_lt {q : Queue J} {c : Config (Monitor J) (Instr J)} (hc : (machine J).Reaches (start q) c)
    (hi : i ∈ c.soup) (hk : i.callOf k) : k < c.shared.calls := by
  have hle := callOf_le hc k
  have hpos : 0 < c.soup.countP (·.callOf k) := Multiset.countP_pos.mpr ⟨i, hi, hk⟩
  by_contra hlt
  rw [if_neg hlt] at hle
  omega

theorem not_callOf (hone : ∀ k, (i ::ₘ R).countP (·.callOf k) ≤ 1) (hi : i.callOf k) {j : Instr J} (hj : j ∈ R) :
    j.callOf k = false :=
  Bool.eq_false_iff.mpr fun hjk ↦ by
    rw [not_of_countP_le_one (hone k) hj hjk] at hi
    cases hi

theorem woken_le {notify notify' : List ℕ} (hsub : notify' ⊆ notify) :
    S.countP (·.woken notify) ≤ S.countP (·.woken notify') := by
  simp only [Multiset.countP_eq_card_filter]
  refine Multiset.card_le_card (Multiset.monotone_filter_right S fun i hi ↦ ?_)
  cases i with
  | asleep k ctx =>
    simp only [Instr.woken, decide_eq_true_eq] at hi ⊢
    exact fun hin ↦ hi (hsub hin)
  | _ => exact hi

theorem woken_erase {notify : List ℕ} (hnodup : notify.Nodup) (hk : k ∈ notify) (hasleep : .asleep k ctx ∈ S) :
    S.countP (·.woken notify) + 1 ≤ S.countP (·.woken (notify.erase k)) := by
  obtain ⟨R, rfl⟩ := Multiset.exists_cons_of_mem hasleep
  have hrest : R.countP (·.woken notify) ≤ R.countP (·.woken (notify.erase k)) :=
    woken_le List.erase_subset
  have hparked : (Instr.asleep k ctx : Instr J).woken notify = false := by simp [Instr.woken, hk]
  have hwoken : (Instr.asleep k ctx : Instr J).woken (notify.erase k) := by
    simpa [Instr.woken] using hnodup.not_mem_erase
  rw [Multiset.countP_cons, Multiset.countP_cons, if_pos hwoken, if_neg (by simp [hparked])]
  omega

/-- The mutex is held over steps exactly while one call is about to park, and then the queue is
empty; and while a call is parked there are as many woken calls as queued items. -/
structure Covered (s : Monitor J) (S : Multiset (Instr J)) : Prop where
  lock : S.countP (·.waits) = s.mu.toNat
  empty : s.mu → s.queue.items.size = 0
  nodup : s.notify.Nodup
  parked : ∀ k ∈ s.notify, ∃ ctx, .asleep k ctx ∈ S
  enough : s.notify ≠ [] → s.queue.items.size ≤ S.countP (·.woken s.notify)

theorem Step.lock_balance (hs : Step s i x e) (hmu : i.waits → s.mu) :
    e.fresh.countP (·.waits) + s.mu.toNat = (if i.waits then 1 else 0) + e.shared.mu.toNat := by
  rw [Effect.countP_fresh]
  induction hs with
  | call call => cases call <;> simp [entry, Instr.waits]
  | startWaits hfree | asleepWaits hfree => simp [Instr.waits, List.countP_cons, hfree]
  | wait => simp [Instr.waits, hmu rfl]
  | _ => simp [Instr.waits]

theorem Covered.locked (h : Covered s (i ::ₘ R)) (hi : i.waits) : s.mu = true := by
  have hlock := h.lock
  rw [Multiset.countP_cons, if_pos hi] at hlock
  cases hmu : s.mu with
  | true => rfl
  | false => simp [hmu] at hlock

theorem Step.parked (hs : Step s i x e) (h : Covered s (i ::ₘ R)) (hk : k ∈ s.notify) :
    ∃ ctx, .asleep k ctx ∈ R := by
  obtain ⟨ctx, hin⟩ := h.parked k hk
  rcases Multiset.mem_cons.mp hin with rfl | hin
  · cases hs with
    | asleepReturns _ hwoken | asleepWaits _ hwoken => exact absurd hk hwoken
  · exact ⟨ctx, hin⟩

theorem Step.parked_next (hs : Step s i x e) (hone : ∀ k, (i ::ₘ R).countP (·.callOf k) ≤ 1)
    (h : Covered s (i ::ₘ R)) :
    e.shared.notify.Nodup ∧ ∀ k ∈ e.shared.notify, ∃ ctx, .asleep k ctx ∈ e.fresh + R := by
  have hstays (k : ℕ) (hk : k ∈ s.notify) : ∃ ctx, .asleep k ctx ∈ e.fresh + R := by
    obtain ⟨ctx, hin⟩ := hs.parked h hk
    exact ⟨ctx, Multiset.mem_add.mpr (.inr hin)⟩
  have hs' := hs
  induction hs with
  | enqueue _ _ hsignal =>
    rcases signal_cases hsignal with ⟨-, rfl⟩ | ⟨k, -, rfl⟩
    · exact ⟨List.nodup_nil, by simp⟩
    · exact ⟨h.nodup.erase k, fun k' hk' ↦ hstays k' (List.mem_of_mem_erase hk')⟩
  | close | broadcast => exact ⟨List.nodup_nil, by simp⟩
  | wait k ctx =>
    refine ⟨List.nodup_cons.mpr ⟨fun hk ↦ ?_, h.nodup⟩, List.forall_mem_cons.mpr ⟨?_, hstays⟩⟩
    · obtain ⟨ctx', hin⟩ := hs'.parked h hk
      have hnot := not_callOf hone (k := k) (by simp [Instr.callOf]) hin
      simp [Instr.callOf] at hnot
    · exact ⟨ctx, by simp [Effect.fresh]⟩
  | _ => exact ⟨h.nodup, hstays⟩

theorem Step.enough (hs : Step s i x e) (h : Covered s (i ::ₘ R)) (hparked : e.shared.notify ≠ []) :
    e.shared.queue.items.size ≤ (e.fresh + R).countP (·.woken e.shared.notify) := by
  suffices hR : e.shared.queue.items.size ≤ R.countP (·.woken e.shared.notify) by
    rw [Multiset.countP_add]
    omega
  -- a step that is not a resumption leaves the woken calls of `R`
  have hsame (hi : i.woken s.notify = false) (hs : s.notify ≠ []) :
      s.queue.items.size ≤ R.countP (·.woken s.notify) := by
    have hold := h.enough hs
    rwa [Multiset.countP_cons, if_neg (by simp [hi]), Nat.add_zero] at hold
  have hs' := hs
  induction hs with
  | enqueue _ hsize hsignal =>
    rcases signal_cases hsignal with ⟨-, rfl⟩ | ⟨k, hk, rfl⟩
    · exact absurd rfl hparked
    · obtain ⟨ctx, hin⟩ := hs'.parked h hk
      have hmore := woken_erase h.nodup hk hin
      have hold := hsame rfl (List.ne_nil_of_mem hk)
      dsimp only
      omega
  | dequeue _ hsize | startReturns _ hsize =>
    have hold := hsame rfl hparked
    dsimp only
    omega
  | close | broadcast => exact absurd rfl hparked
  | startWaits _ hsize | asleepWaits _ _ hsize => exact hsize ▸ Nat.zero_le _
  | wait => exact h.empty (h.locked rfl) ▸ Nat.zero_le _
  | @asleepReturns k ctx q r hmu hwoken hsize =>
    have hold := h.enough hparked
    rw [Multiset.countP_cons, if_pos (by simpa [Instr.woken] using hwoken)] at hold
    dsimp only
    omega
  | _ => exact hsame rfl hparked

theorem Step.covered (hs : Step s i x e) (hone : ∀ k, (i ::ₘ R).countP (·.callOf k) ≤ 1)
    (h : Covered s (i ::ₘ R)) : Covered e.shared (e.fresh + R) := by
  obtain ⟨hnodup, hparked⟩ := hs.parked_next hone h
  refine ⟨?_, fun hmu ↦ ?_, hnodup, hparked, hs.enough h⟩
  · have hlock := h.lock
    have hbal := hs.lock_balance h.locked
    rw [Multiset.countP_cons] at hlock
    rw [Multiset.countP_add]
    omega
  · induction hs with
    | startWaits _ hsize | asleepWaits _ _ hsize => exact hsize
    | close _ hitems => exact hitems ▸ h.empty hmu
    | enqueue hfree | dequeue hfree | startReturns hfree | asleepReturns hfree =>
      rw [hfree] at hmu
      cases hmu
    | wait => cases hmu
    | _ => exact h.empty hmu

theorem covered_of_reaches {q : Queue J} {c : Config (Monitor J) (Instr J)}
    (hc : (machine J).Reaches (start q) c) : Covered c.shared c.soup := by
  have hone := Machine.Runs.strengthen (P := fun c ↦ ∀ k, c.soup.countP (·.callOf k) ≤ 1)
    (fun c hc ↦ callOf_le_one hc) hc
  refine hone.soup_invariant Covered ?_ ?_
  · exact ⟨rfl, by simp [start], List.nodup_nil, by simp [start], by simp [start]⟩
  · intro c i x R e hR h hg he
    exact (step_of_exec he).covered (fun k ↦ hR ▸ hg.2 k) h

/-- While a `DequeueWait` is parked, the woken calls that have not resumed are at least as many as
the queued items. -/
theorem no_lost_item_wakeup (q : Queue J) (c : Config (Monitor J) (Instr J))
    (hc : (machine J).Reaches (start q) c) (hparked : c.shared.notify ≠ []) :
    c.shared.queue.items.size ≤ c.soup.countP (·.woken c.shared.notify) ∧
      (c.shared.queue.items.size ≠ 0 → ∃ k ctx, .asleep k ctx ∈ c.soup ∧ k ∉ c.shared.notify) := by
  have henough := (covered_of_reaches hc).enough hparked
  refine ⟨henough, fun hitems ↦ ?_⟩
  obtain ⟨i, hi, hwoken⟩ := Multiset.countP_pos.mp (Nat.lt_of_lt_of_le (Nat.pos_of_ne_zero hitems) henough)
  cases i with
  | asleep k ctx => exact ⟨k, ctx, hi, by simpa [Instr.woken] using hwoken⟩
  | _ => cases hwoken

/-- Two calls are parked and one item is enqueued: one of them was woken. -/
theorem no_lost_item_wakeup_two :
    ∃ c, (machine String).Reaches (start (new 0)) c ∧
      (c.shared.notify = [0] ∧ c.shared.queue.items.size = 1) ∧
      1 ≤ c.soup.countP (·.woken c.shared.notify) := by
  have hplay : ∃ c, (machine String).Reaches (start (new 0)) c ∧
      (c.shared.notify = [0] ∧ c.shared.queue.items.size = 1) := by
    apply Machine.exists_run [(0, .call (.dequeueWait 0)), (1, .go), (1, .go), (0, .call (.dequeueWait 1)), (3, .go),
      (3, .go), (0, .call (.enqueue "job" "key" 0)), (5, .signal 0 (some 1))]
    decide +kernel
  obtain ⟨c, hc, hnotify, hsize⟩ := hplay
  have henough := no_lost_item_wakeup (new 0) c hc (by simp [hnotify])
  exact ⟨c, hc, ⟨hnotify, hsize⟩, hsize ▸ henough.1⟩

end Monitor

end AgentGpu.Queue
