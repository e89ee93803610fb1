import AgentGpu.Foundation.Schedules
import AgentGpu.Queue.Monitor

namespace AgentGpu.Queue.Monitor

open Foundation

variable {J : Type} {s : Monitor J} {i j : Instr J} {x y : Choice J} {e : Effect (Monitor J) (Instr J)}
  {R S : Multiset (Instr J)} {k ctx : ℕ}

/-- The goroutine that watches a call's context broadcasts only while the call is not between its
last look at the context and its place on the condition variable. -/
def BroadcastsSeen (c : Config (Monitor J) (Instr J)) (i : Instr J) (x : Choice J) : Prop :=
  match i, x with
  | .bridge k ctx, .ctxDone => .wait k ctx ∉ c.soup
  | _, _ => True

instance [DecidableEq J] (c : Config (Monitor J) (Instr J)) (i : Instr J) (x : Choice J) :
    Decidable (BroadcastsSeen c i x) := by
  delta BroadcastsSeen
  induction i using Instr.casesOn with
  | bridge k ctx => induction x using Choice.casesOn <;> infer_instance
  | _ => infer_instance

/-- A call that is about to park, or is parked, is still watched, or it was woken after its
context ended. -/
def Watched (s : Monitor J) (S : Multiset (Instr J)) : Instr J → Prop
  | .wait k ctx => .bridge k ctx ∈ S
  | .asleep k ctx => .bridge k ctx ∈ S ∨ k ∉ s.notify ∧ (s.ctxErr ctx).isSome
  | _ => True

structure Bridged (s : Monitor J) (S : Multiset (Instr J)) : Prop where
  known : ∀ p ∈ s.replies, p.1 < s.calls
  unstopped : ∀ i ∈ S, ∀ k, i.callOf k → s.stopped k = false
  watched : ∀ i ∈ S, Watched s S i

theorem Step.ctxErr_mono (hs : Step s i x e) (h : (s.ctxErr ctx).isSome) : (e.shared.ctxErr ctx).isSome := by
  induction hs with
  | cancel ctx' err err' =>
    by_cases hctx : ctx = ctx'
    · subst hctx
      simp
    · simpa [Function.update_of_ne hctx] using h
  | _ => exact h

theorem Step.parks (hs : Step s i x e) (hold : k ∉ s.notify) (hnew : k ∈ e.shared.notify) :
    ∃ ctx, i = .wait k ctx := by
  induction hs with
  | enqueue _ _ hsignal =>
    rcases signal_cases hsignal with ⟨-, rfl⟩ | ⟨k', -, rfl⟩
    · cases hnew
    · exact absurd (List.mem_of_mem_erase hnew) hold
  | close | broadcast => cases hnew
  | wait k' ctx =>
    rcases List.mem_cons.mp hnew with rfl | hin
    · exact ⟨ctx, rfl⟩
    · exact absurd hin hold
  | _ => exact absurd hnew hold

theorem Step.calls_le (hs : Step s i x e) : s.calls ≤ e.shared.calls := by
  induction hs with
  | call => exact Nat.le_succ _
  | _ => exact le_rfl

theorem Bridged.fresh_call (h : Bridged s S) : s.stopped s.calls = false := by
  refine List.any_eq_false.mpr fun p hp ↦ ?_
  have hlt := h.known p hp
  simp only [decide_eq_true_eq]
  omega

theorem Step.unstopped_fresh (hs : Step s i x e) (h : Bridged s (i ::ₘ R)) :
    ∀ j ∈ e.fresh, ∀ k, j.callOf k → e.shared.stopped k = false := by
  have hi := h.unstopped i (Multiset.mem_cons_self i R)
  induction hs with
  | call call =>
    cases call with
    | dequeueWait ctx =>
      intro j hj k hk
      obtain rfl | rfl : j = .serve ∨ j = .start s.calls ctx := by simpa [entry] using hj
      · cases hk
      · obtain rfl : s.calls = k := by simpa [Instr.callOf] using hk
        exact h.fresh_call
    | _ => simp [entry, Instr.callOf]
  | startWaits =>
    intro j hj k hk
    obtain rfl | rfl : j = _ ∨ j = _ := by simpa using hj
    · exact hi k hk
    · cases hk
  | wait | asleepWaits => exact Effect.forall_fresh_singleton hi
  | _ => simp [Instr.callOf]

theorem Step.unstopped_rest (hs : Step s i x e) (hone : ∀ k, (i ::ₘ R).countP (·.callOf k) ≤ 1)
    (h : Bridged s (i ::ₘ R)) (hj : j ∈ R) (hk : j.callOf k) : e.shared.stopped k = false := by
  have hold := h.unstopped j (Multiset.mem_cons_of_mem hj) k hk
  have hother {k' : ℕ} (hk' : i.callOf k') : k' ≠ k := by
    rintro rfl
    rw [not_callOf hone hk' hj] at hk
    cases hk
  induction hs with
  | @startReturns k' | @asleepReturns k' =>
    have hne : k' ≠ k := hother (by simp [Instr.callOf])
    simpa [stopped, hne] using hold
  | _ => exact hold

theorem Step.watched (hs : Step s i x e) (hone : ∀ k, (i ::ₘ R).countP (·.callOf k) ≤ 1)
    (hguard : ∀ k ctx, i = .bridge k ctx → x = .ctxDone → .wait k ctx ∉ i ::ₘ R)
    (h : Bridged s (i ::ₘ R)) (hj : j ∈ R) : Watched e.shared (e.fresh + R) j := by
  have hold := h.watched j (Multiset.mem_cons_of_mem hj)
  have hstop {k : ℕ} (hk : j.callOf k) : ¬ s.stopped k := by
    rw [h.unstopped j (Multiset.mem_cons_of_mem hj) k hk]
    simp
  cases j with
  | wait k ctx =>
    rcases Multiset.mem_cons.mp hold with rfl | hin
    · cases hs with
      | broadcast => exact absurd (Multiset.mem_cons_of_mem hj) (hguard k ctx rfl rfl)
      | bridgeStop hstopped => exact absurd hstopped (hstop (by simp [Instr.callOf]))
    · exact Multiset.mem_add.mpr (.inr hin)
  | asleep k ctx =>
    rcases hold with hin | ⟨hout, hctx⟩
    · rcases Multiset.mem_cons.mp hin with rfl | hin
      · cases hs with
        | broadcast hctx => exact .inr ⟨List.not_mem_nil, hctx⟩
        | bridgeStop hstopped => exact absurd hstopped (hstop (by simp [Instr.callOf]))
      · exact .inl (Multiset.mem_add.mpr (.inr hin))
    · refine .inr ⟨fun hin ↦ ?_, hs.ctxErr_mono hctx⟩
      obtain ⟨ctx', rfl⟩ := hs.parks hout hin
      have hnot := not_callOf hone (k := k) (by simp [Instr.callOf]) hj
      simp [Instr.callOf] at hnot
  | _ => trivial

theorem Step.watched_fresh (hs : Step s i x e) (h : Bridged s (i ::ₘ R)) :
    ∀ j ∈ e.fresh, Watched e.shared (e.fresh + R) j := by
  have hi := h.watched i (Multiset.mem_cons_self i R)
  induction hs with
  | call call => cases call <;> simp [entry, Watched]
  | @startWaits k ctx => simp [Watched, Effect.fresh]
  | wait k ctx =>
    refine Effect.forall_fresh_singleton (.inl (Multiset.mem_add.mpr (.inr ?_)))
    exact (Multiset.mem_cons.mp hi).resolve_left (by simp)
  | @asleepWaits k ctx _ _ _ hnone =>
    refine Effect.forall_fresh_singleton (Multiset.mem_add.mpr (.inr ?_))
    rcases hi with hin | ⟨-, hctx⟩
    · exact (Multiset.mem_cons.mp hin).resolve_left (by simp)
    · rw [hnone] at hctx
      cases hctx
  | _ => simp [Watched]

theorem Step.bridged (hs : Step s i x e) (hone : ∀ k, (i ::ₘ R).countP (·.callOf k) ≤ 1)
    (hcalls : ∀ k, i.callOf k → k < s.calls)
    (hguard : ∀ k ctx, i = .bridge k ctx → x = .ctxDone → .wait k ctx ∉ i ::ₘ R)
    (h : Bridged s (i ::ₘ R)) : Bridged e.shared (e.fresh + R) := by
  have hknown : ∀ p ∈ s.replies, p.1 < e.shared.calls := fun p hp ↦ (h.known p hp).trans_le hs.calls_le
  refine ⟨?_, fun j hj ↦ ?_, fun j hj ↦ ?_⟩
  · induction hs with
    | startReturns | asleepReturns =>
      exact List.forall_mem_cons.mpr ⟨hcalls _ (by simp [Instr.callOf]), hknown⟩
    | _ => exact hknown
  · rcases Multiset.mem_add.mp hj with hj | hj
    · exact hs.unstopped_fresh h j hj
    · exact fun k hk ↦ hs.unstopped_rest hone h hj hk
  · rcases Multiset.mem_add.mp hj with hj | hj
    · exact hs.watched_fresh h j hj
    · exact hs.watched hone hguard h hj

theorem bridged_of_runs {q : Queue J} {c : Config (Monitor J) (Instr J)}
    (hc : (machine J).Runs BroadcastsSeen (start q) c) : Bridged c.shared c.soup := by
  have hreach := hc.strengthen fun c hc ↦ hc.reaches
  refine hreach.soup_invariant Bridged ?_ ?_
  · exact ⟨by simp [start], by simp [start, Config.soup, Instr.callOf], by simp [start, Config.soup, Watched]⟩
  · intro c i x R e hR h hg he
    have hi : i ∈ c.soup := by
      rw [hR]
      exact Multiset.mem_cons_self i R
    refine (step_of_exec he).bridged (fun k ↦ hR ▸ callOf_le_one hg.2 k) (fun k ↦ callOf_lt hg.2 hi) ?_ h
    rintro k ctx rfl rfl
    rw [← hR]
    exact hg.1

section Progress

theorem solo_of_reaches {q : Queue J} {c : Config (Monitor J) (Instr J)} (hc : (machine J).Reaches (start q) c) :
    ∀ (t : ℕ) th, c.threads[t]? = some th → th.length ≤ 1 := by
  refine Machine.Runs.threads_invariant (fun _ _ th ↦ th.length ≤ 1) ?_ ?_ (fun _ _ _ _ _ _ _ _ _ _ _ _ h ↦ h) hc
  · intro t th ht
    obtain ⟨rfl, rfl⟩ : t = 0 ∧ [Instr.serve] = th := by simpa [start, List.getElem?_singleton] using ht
    rfl
  · intro c t i rest x e hlen _ he
    obtain rfl : rest = [] := List.eq_nil_of_length_eq_zero (by simpa using hlen)
    rw [List.append_nil]
    have hs := step_of_exec he
    refine ⟨by induction hs <;> simp, fun m th hm ↦ ?_⟩
    have hin := List.mem_of_getElem? hm
    induction hs <;> simp_all

theorem exists_thread {q : Queue J} {c : Config (Monitor J) (Instr J)} (hc : (machine J).Reaches (start q) c)
    (hi : i ∈ c.soup) : ∃ t : ℕ, c.threads[t]? = some [i] := by
  obtain ⟨th, hth, hin⟩ := Config.mem_soup.mp hi
  obtain ⟨t, ht⟩ := List.mem_iff_getElem?.mp hth
  have hlen := solo_of_reaches hc t th ht
  cases th with
  | nil => cases hin
  | cons j rest =>
    obtain rfl : rest = [] := List.eq_nil_of_length_eq_zero (by simpa using hlen)
    obtain rfl : i = j := by simpa using hin
    exact ⟨t, ht⟩

theorem mem_soup_of_thread {c : Config (Monitor J) (Instr J)} {t : ℕ} (ht : c.threads[t]? = some [i]) :
    i ∈ c.soup := Config.mem_soup.mpr ⟨_, List.mem_of_getElem? ht, List.mem_singleton_self i⟩

namespace Instr

def locks : Instr J → Bool
  | .start _ _ | .asleep _ _ => true
  | _ => false

/-- The steps of a call and of the goroutine that watches its context that do not wait for
the mutex. -/
def proceeds : Instr J → Bool
  | .wait _ _ | .bridge _ _ => true
  | _ => false

theorem not_locks_of_proceeds {i : Instr J} (hi : i.proceeds) : ¬ i.locks := by
  cases i <;> simp_all [locks, proceeds]

def serves (k ctx : ℕ) : Instr J → Prop
  | .start k' ctx' | .wait k' ctx' | .asleep k' ctx' => k' = k ∧ ctx' = ctx
  | _ => False

end Instr

def Acquires (t : ℕ) (a : Turn (Instr J) (Choice J)) : Prop := a.thread = t ∧ a.instr.locks

def Proceeds (t : ℕ) (a : Turn (Instr J) (Choice J)) : Prop := a.thread = t ∧ a.instr.proceeds

theorem Step.stopped_of_ctxErr (hs : Step s i y e) (hi : i = .start k ctx ∨ i = .asleep k ctx)
    (hctx : (s.ctxErr ctx).isSome) : e.shared.stopped k := by
  have hreply (q : Queue J) (r : Reply J) :
      Monitor.stopped { s with queue := q, replies := (k, r) :: s.replies } k := by
    simp [stopped]
  rcases hi with rfl | rfl
  · cases hs with
    | startReturns => exact hreply _ _
    | startWaits _ _ hnone => simp [hnone] at hctx
  · cases hs with
    | asleepReturns => exact hreply _ _
    | asleepWaits _ _ _ hnone => simp [hnone] at hctx

theorem Step.not_parked (hs : Step s i y e) (hi : i = .asleep k ctx) : k ∉ s.notify := by
  subst hi
  cases hs with
  | asleepReturns _ hwoken | asleepWaits _ hwoken => exact hwoken

theorem Step.bridge_cases (hs : Step s i y e) (hi : i = .bridge k ctx) :
    e.shared.notify = [] ∨ e.shared.stopped k := by
  subst hi
  cases hs with
  | broadcast => exact .inl rfl
  | bridgeStop hstop => exact .inr hstop

theorem Step.parks_self (hs : Step s i y e) (hi : i = .wait k ctx) :
    e.next = [.asleep k ctx] ∧ k ∈ e.shared.notify := by
  subst hi
  cases hs
  exact ⟨rfl, List.mem_cons_self⟩

/-- How far a call whose context has ended is from its return, and whose step it waits for: its own
under the mutex, the one of the goroutine that watches the context, or its own that parks it. -/
inductive Waking (k ctx : ℕ) (c : Config (Monitor J) (Instr J)) : ℕ → ℕ × Instr J → Prop
  | start {t : ℕ} (ht : c.threads[t]? = some [.start k ctx]) : Waking k ctx c 1 (t, .start k ctx)
  | woken {t : ℕ} (ht : c.threads[t]? = some [.asleep k ctx]) (hout : k ∉ c.shared.notify) :
      Waking k ctx c 1 (t, .asleep k ctx)
  | parked {t u : ℕ} (ht : c.threads[t]? = some [.asleep k ctx]) (hu : c.threads[u]? = some [.bridge k ctx])
      (hin : k ∈ c.shared.notify) : Waking k ctx c 2 (u, .bridge k ctx)
  | parking {t : ℕ} (ht : c.threads[t]? = some [.wait k ctx]) : Waking k ctx c 3 (t, .wait k ctx)

theorem Waking.locks_or_proceeds {c : Config (Monitor J) (Instr J)} {v : ℕ} {p : ℕ × Instr J}
    (h : Waking k ctx c v p) : p.2.locks ∨ p.2.proceeds := by
  cases h with
  | start | woken => exact .inl rfl
  | parked | parking => exact .inr rfl

variable [DecidableEq J] {x : Execution (machine J).turn} {q : Queue J}

theorem reaches_of_execution (hstart : x.state 0 = start q) (n : ℕ) :
    (machine J).Reaches (start q) (x.state n) :=
  hstart ▸ Machine.Runs.of_execution (G := fun _ _ _ ↦ True) (fun _ _ _ ↦ trivial) n

theorem event_cases (hstart : x.state 0 = start q) {n : ℕ} {a : Turn (Instr J) (Choice J)}
    (ha : x.event n = some a) :
    ∃ e, (x.state n).threads[a.thread]? = some [a.instr] ∧ Step (x.state n).shared a.instr a.choice e ∧
      x.state (n + 1) = (x.state n).after a.thread [] e := by
  obtain ⟨rest, e, hhead, he, hafter⟩ := Machine.turn_eq_some.mp (x.step_of_event ha)
  have hlen := solo_of_reaches (reaches_of_execution hstart n) _ _ hhead
  obtain rfl : rest = [] := List.eq_nil_of_length_eq_zero (by simpa using hlen)
  exact ⟨e, hhead, step_of_exec he, hafter.symm⟩

theorem exists_free (hstart : x.state 0 = start q) (hfair : ∀ t, x.Fair (Proceeds t)) (n : ℕ) :
    ∃ n', n ≤ n' ∧ (x.state n').shared.mu = false := by
  cases hmu : (x.state n).shared.mu with
  | false => exact ⟨n, le_rfl, hmu⟩
  | true =>
    have hreach := reaches_of_execution hstart n
    have hlock := (covered_of_reaches hreach).lock
    rw [hmu, Bool.toNat_true] at hlock
    obtain ⟨i, hi, hwaits⟩ := Multiset.countP_pos.mp (by omega : 0 < (x.state n).soup.countP (·.waits))
    obtain ⟨t, ht⟩ := exists_thread hreach hi
    refine (hfair t).leadsTo (P := fun c ↦ c.threads[t]? = some [i]) (Q := fun c ↦ c.shared.mu = false)
      (fun _ ↦ 0) ?_ ⟨n, fun m _ hm ↦ ?_⟩ ht
    · intro m a ha hm
      obtain ⟨e, hhead, hs, hnext⟩ := event_cases hstart ha
      rw [hnext]
      by_cases hown : a.thread = t
      · obtain rfl : i = a.instr := by simpa [hown, hm] using hhead
        refine .inl ?_
        generalize a.instr = i, a.choice = y at hs hwaits
        induction hs with
        | wait => rfl
        | _ => cases hwaits
      · exact .inr ⟨Config.getElem?_after_of_ne hm (Ne.symm hown) e, le_rfl, fun h ↦ absurd h.1 hown⟩
    · cases i with
      | wait k ctx => exact Machine.ready_of_head (x := .go) hm rfl ⟨rfl, rfl⟩
      | _ => cases hwaits

theorem Waking.ready {c : Config (Monitor J) (Instr J)} {v : ℕ} {p : ℕ × Instr J}
    {own : Turn (Instr J) (Choice J) → Prop} (h : Waking k ctx c v p) (hctx : (c.shared.ctxErr ctx).isSome)
    (hfree : p.2.locks → c.shared.mu = false) (hown : ∀ y, own ⟨p.1, p.2, y⟩) : Ready (machine J).turn own c := by
  cases h with
  | start ht =>
    refine Machine.ready_of_head (x := .go) ht ?_ (hown _)
    simp [machine, exec, hfree rfl]
  | woken ht hout =>
    refine Machine.ready_of_head (x := .go) ht ?_ (hown _)
    simp [machine, exec, hfree rfl, hout]
  | parked _ hu =>
    refine Machine.ready_of_head (x := .ctxDone) hu ?_ (hown _)
    simp [machine, exec, hctx]
  | parking ht => exact Machine.ready_of_head (x := .go) ht rfl (hown _)

theorem waking_next (hstart : x.state 0 = start q)
    (hseen : ∀ n a, x.event n = some a → BroadcastsSeen (x.state n) a.instr a.choice) {n v : ℕ}
    {a : Turn (Instr J) (Choice J)} {p : ℕ × Instr J} (ha : x.event n = some a)
    (hctx : ((x.state n).shared.ctxErr ctx).isSome) (hW : Waking k ctx (x.state n) v p) :
    (x.state (n + 1)).shared.stopped k ∨ (∃ v' < v, ∃ p', Waking k ctx (x.state (n + 1)) v' p') ∨
      a.thread ≠ p.1 ∧ Waking k ctx (x.state (n + 1)) v p := by
  have hreach := reaches_of_execution hstart
  have hbridged := bridged_of_runs (hstart ▸ Machine.Runs.of_execution hseen (n + 1))
  obtain ⟨e, hhead, hs, hnext⟩ := event_cases hstart ha
  have hsame {t : ℕ} {i : Instr J} (ht : (x.state n).threads[t]? = some [i]) (hne : a.thread ≠ t) :
      (x.state (n + 1)).threads[t]? = some [i] := by
    rw [hnext]
    exact Config.getElem?_after_of_ne ht (Ne.symm hne) e
  have hself : (x.state (n + 1)).threads[a.thread]? = some e.next := by
    rw [hnext, Config.getElem?_after_self hhead, List.append_nil]
  have hshared : (x.state (n + 1)).shared = e.shared := by rw [hnext, Config.after_shared]
  have hinstr {t : ℕ} {i : Instr J} (ht : (x.state n).threads[t]? = some [i]) (hown : a.thread = t) :
      a.instr = i := by
    simpa [hown, ht] using hhead.symm
  -- a call that sleeps is not about to park
  have hstays {t : ℕ} (ht : (x.state n).threads[t]? = some [.asleep k ctx])
      (hout : k ∉ (x.state n).shared.notify) : k ∉ (x.state (n + 1)).shared.notify := by
    intro hin
    obtain ⟨ctx', hwait⟩ := hs.parks hout (hshared ▸ hin)
    have heq := eq_of_countP_le_one (callOf_le_one (hreach n) k) (mem_soup_of_thread ht) (mem_soup_of_thread hhead)
      (by simp [Instr.callOf]) (by simp [hwait, Instr.callOf])
    rw [hwait] at heq
    cases heq
  cases hW with
  | @start t ht =>
    by_cases hown : a.thread = t
    · exact .inl (hshared ▸ hs.stopped_of_ctxErr (.inl (hinstr ht hown)) hctx)
    · exact .inr (.inr ⟨hown, .start (hsame ht hown)⟩)
  | @woken t ht hout =>
    by_cases hown : a.thread = t
    · exact .inl (hshared ▸ hs.stopped_of_ctxErr (.inr (hinstr ht hown)) hctx)
    · exact .inr (.inr ⟨hown, .woken (hsame ht hown) (hstays ht hout)⟩)
  | @parked t u ht hu hin =>
    have hsleeps : a.thread ≠ t := fun hown ↦ hs.not_parked (hinstr ht hown) hin
    by_cases hown : a.thread = u
    · rcases hs.bridge_cases (hinstr hu hown) with hempty | hstopped
      · refine .inr (.inl ⟨1, by omega, _, .woken (hsame ht hsleeps) ?_⟩)
        rw [hshared, hempty]
        exact List.not_mem_nil
      · exact .inl (hshared ▸ hstopped)
    · by_cases hin' : k ∈ (x.state (n + 1)).shared.notify
      · exact .inr (.inr ⟨hown, .parked (hsame ht hsleeps) (hsame hu hown) hin'⟩)
      · exact .inr (.inl ⟨1, by omega, _, .woken (hsame ht hsleeps) hin'⟩)
  | @parking t ht =>
    by_cases hown : a.thread = t
    · obtain ⟨hasleep, hin⟩ := hs.parks_self (hinstr ht hown)
      have hcall : (x.state (n + 1)).threads[t]? = some [.asleep k ctx] := by rw [← hown, hself, hasleep]
      have hin' : k ∈ (x.state (n + 1)).shared.notify := hshared ▸ hin
      rcases hbridged.watched _ (mem_soup_of_thread hcall) with hbridge | ⟨hout, -⟩
      · obtain ⟨u, hu⟩ := exists_thread (hreach (n + 1)) hbridge
        exact .inr (.inl ⟨2, by omega, _, .parked hcall hu hin'⟩)
      · exact absurd hin' hout
    · exact .inr (.inr ⟨hown, .parking (hsame ht hown)⟩)

theorem cancelled_returns (hstart : x.state 0 = start q)
    (hseen : ∀ n a, x.event n = some a → BroadcastsSeen (x.state n) a.instr a.choice)
    (hfair : ∀ t, x.Fair (Proceeds t)) (hlock : ∀ t, x.StrongFair (Acquires t)) {n : ℕ}
    (hi : i ∈ (x.state n).soup) (hserves : i.serves k ctx) (hctx : ((x.state n).shared.ctxErr ctx).isSome) :
    ∃ n', n ≤ n' ∧ (x.state n').shared.stopped k := by
  have hreach := reaches_of_execution hstart
  have hwaking : ∃ v p, Waking k ctx (x.state n) v p := by
    obtain ⟨t, ht⟩ := exists_thread (hreach n) hi
    cases i with
    | start =>
      obtain ⟨rfl, rfl⟩ := hserves
      exact ⟨_, _, .start ht⟩
    | wait =>
      obtain ⟨rfl, rfl⟩ := hserves
      exact ⟨_, _, .parking ht⟩
    | asleep k' ctx' =>
      obtain ⟨rfl, rfl⟩ := hserves
      by_cases hin : k' ∈ (x.state n).shared.notify
      · have hbridged := bridged_of_runs (hstart ▸ Machine.Runs.of_execution hseen n)
        rcases hbridged.watched _ hi with hbridge | ⟨hout, -⟩
        · obtain ⟨u, hu⟩ := exists_thread (hreach n) hbridge
          exact ⟨_, _, .parked ht hu hin⟩
        · exact absurd hin hout
      · exact ⟨_, _, .woken ht hin⟩
    | _ => cases hserves
  obtain ⟨v, p, hW⟩ := hwaking
  refine Execution.leadsTo_of_relay (fun p a ↦ a.thread = p.1)
    (fun v p c ↦ (c.shared.ctxErr ctx).isSome ∧ Waking k ctx c v p) (·.shared.stopped k) ?_ ?_ ⟨hctx, hW⟩
  · intro n v p hP
    rcases (hP n le_rfl).2.locks_or_proceeds with hlocks | hproceeds
    · obtain ⟨m, a, hm, ha, hown, -⟩ := hlock p.1 n fun m hm ↦ by
        obtain ⟨m', hm', hfree⟩ := exists_free hstart hfair m
        obtain ⟨hctx, hW⟩ := hP m' (by omega)
        exact ⟨m', hm', hW.ready hctx (fun _ ↦ hfree) fun _ ↦ ⟨rfl, hlocks⟩⟩
      exact ⟨m, a, hm, ha, hown⟩
    · obtain ⟨m, a, hm, ha, hown, -⟩ := hfair p.1 n fun m hm ↦ by
        obtain ⟨hctx, hW⟩ := hP m hm
        refine hW.ready hctx (fun hlocks ↦ ?_) fun _ ↦ ⟨rfl, hproceeds⟩
        exact absurd hlocks (Instr.not_locks_of_proceeds hproceeds)
      exact ⟨m, a, hm, ha, hown⟩
  · intro m a v p ha ⟨hctx, hW⟩
    obtain ⟨e, -, hs, hnext⟩ := event_cases hstart ha
    have hctx' : ((x.state (m + 1)).shared.ctxErr ctx).isSome := by
      rw [hnext]
      exact hs.ctxErr_mono hctx
    rcases waking_next hstart hseen ha hctx hW with hstopped | ⟨v', hv', p', hW'⟩ | ⟨hown, hW'⟩
    · exact .inl hstopped
    · exact .inr (.inl ⟨v', hv', p', hctx', hW'⟩)
    · exact .inr (.inr ⟨hown, hctx', hW'⟩)

end Progress

/-- As long as no broadcast for a call's context comes between the call's last look at the context
and its place on the condition variable: a call that is parked with its context ended has this
broadcast still ahead, and every call whose context has ended returns, whatever the callers of the
queue do. -/
theorem cancellation_wakes [DecidableEq J] (q : Queue J) :
    (∀ c, (machine J).Runs BroadcastsSeen (start q) c → ∀ k ctx, .asleep k ctx ∈ c.soup →
      k ∈ c.shared.notify → (c.shared.ctxErr ctx).isSome → .bridge k ctx ∈ c.soup) ∧
    ∀ x : Execution (machine J).turn, x.state 0 = start q →
      (∀ n a, x.event n = some a → BroadcastsSeen (x.state n) a.instr a.choice) →
      (∀ t, x.Fair (Proceeds t)) → (∀ t, x.StrongFair (Acquires t)) →
      ∀ n i k ctx, i ∈ (x.state n).soup → i.serves k ctx → ((x.state n).shared.ctxErr ctx).isSome →
        ∃ n', n ≤ n' ∧ (x.state n').shared.stopped k := by
  refine ⟨fun c hc k ctx hasleep hin _ ↦ ?_, fun x hstart hseen hfair hlock n i k ctx hi hserves hctx ↦ ?_⟩
  · exact ((bridged_of_runs hc).watched _ hasleep).resolve_right fun h ↦ h.1 hin
  · exact cancelled_returns hstart hseen hfair hlock hi hserves hctx

def cancelScript : List (Turn (Instr String) (Choice String)) :=
  [⟨0, .serve, .call (.dequeueWait 0)⟩, ⟨1, .start 0 0, .go⟩, ⟨1, .wait 0 0, .go⟩,
    ⟨0, .serve, .cancel 0 "context canceled"⟩, ⟨2, .bridge 0 0, .ctxDone⟩, ⟨1, .asleep 0 0, .go⟩]

def cancelling : Execution (machine String).turn := .follow _ (start (new 0)) cancelScript

theorem cancelling_seen (n : ℕ) (a : Turn (Instr String) (Choice String)) (ha : cancelling.event n = some a) :
    BroadcastsSeen (cancelling.state n) a.instr a.choice := by
  have hall : ∀ n < 6, ∀ a ∈ cancelScript[n]?, BroadcastsSeen (cancelling.state n) a.instr a.choice := by
    decide +kernel
  have hevent := Execution.follow_event ha
  exact hall n (List.getElem?_eq_some_iff.mp hevent).1 a hevent

theorem cancelling_done {own : Turn (Instr String) (Choice String) → Prop} (hown : ∀ t x, ¬ own ⟨t, .serve, x⟩)
    (n : ℕ) (hn : 6 ≤ n) : ¬ Ready (machine String).turn own (cancelling.state n) := by
  have hthreads : (cancelling.state 6).threads = [[.serve], [], []] := by decide +kernel
  have hrest : cancelling.state n = cancelling.state 6 := Execution.follow_rest hn
  refine Machine.not_ready fun i rest hin ↦ ?_
  rw [hrest, hthreads] at hin
  obtain ⟨rfl, -⟩ : i = .serve ∧ rest = [] := by simpa using hin
  exact hown

theorem cancellation_wakes_parked :
    (∃ c, (machine String).Runs BroadcastsSeen (start (new 0)) c ∧
      (.asleep 0 0 ∈ c.soup ∧ 0 ∈ c.shared.notify ∧ (c.shared.ctxErr 0).isSome) ∧ .bridge 0 0 ∈ c.soup) ∧
    ∃ n', 4 ≤ n' ∧ (cancelling.state n').shared.stopped 0 := by
  obtain ⟨hruns, hreturns⟩ := cancellation_wakes (J := String) (new 0)
  have hplay : ∃ c, (machine String).Runs BroadcastsSeen (start (new 0)) c ∧
      (.asleep 0 0 ∈ c.soup ∧ 0 ∈ c.shared.notify ∧ (c.shared.ctxErr 0).isSome) := by
    apply Machine.exists_run [(0, .call (.dequeueWait 0)), (1, .go), (1, .go), (0, .cancel 0 "context canceled")]
    decide +kernel
  obtain ⟨c, hc, hasleep, hin, hctx⟩ := hplay
  refine ⟨⟨c, hc, ⟨hasleep, hin, hctx⟩, hruns c hc 0 0 hasleep hin hctx⟩, ?_⟩
  exact hreturns cancelling rfl cancelling_seen
    (fun t ↦ .of_rest (cancelling_done fun _ _ h ↦ nomatch h.2))
    (fun t ↦ .of_rest (cancelling_done fun _ _ h ↦ nomatch h.2))
    4 (.asleep 0 0) 0 0 (by decide +kernel) ⟨rfl, rfl⟩ (by decide +kernel)

/-- The context ends, and the broadcast comes, after the call has looked at the context and before it
is on the condition variable: it parks with nobody left to wake it. -/
theorem cancellation_lost :
    ∃ c, (machine String).Reaches (start (new 0)) c ∧
      (c.threads = [[.serve], [.asleep 0 0], []] ∧ c.shared.notify = [0] ∧
        c.shared.ctxErr 0 = some "context canceled") := by
  apply Machine.exists_run [(0, .call (.dequeueWait 0)), (1, .go), (0, .cancel 0 "context canceled"), (2, .ctxDone),
    (1, .go)]
  decide +kernel

end AgentGpu.Queue.Monitor
