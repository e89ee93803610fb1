import AgentGpu.ControlPlane.Tickets
import AgentGpu.Foundation.History
import Mathlib.Data.List.Nodup

namespace AgentGpu.ControlPlane

open Foundation HttpApi

structure Ledger where
  submitted : List Job := []
  handed : List Job := []

def Ledger.note (s : Server) (i : Instr) (x : Choice) (l : Ledger) : Ledger :=
  match i, x with
  | .serve, .request header entropy model _ =>
    { l with submitted := ⟨requestID header entropy, model, s.requests⟩ :: l.submitted }
  | .send _ _ job _, .go => { l with handed := job :: l.handed }
  | _, _ => l

variable {s : Server} {i : Instr} {x : Choice} {e : Effect Server Instr} {l : Ledger} {k : ℕ}

theorem Ledger.submitted_cases (s : Server) (i : Instr) (x : Choice) (l : Ledger) :
    (l.note s i x).submitted = l.submitted ∨ ∃ header entropy model stream,
      i = .serve ∧ x = .request header entropy model stream ∧
      (l.note s i x).submitted = ⟨requestID header entropy, model, s.requests⟩ :: l.submitted := by
  unfold note
  split
  · exact .inr ⟨_, _, _, _, rfl, rfl, rfl⟩
  · exact .inl rfl
  · exact .inl rfl

theorem Ledger.handed_cases (s : Server) (i : Instr) (x : Choice) (l : Ledger) :
    (l.note s i x).handed = l.handed ∨ ∃ o h job ch,
      i = .send o h job ch ∧ x = .go ∧ (l.note s i x).handed = job :: l.handed := by
  unfold note
  split
  · exact .inl rfl
  · exact .inr ⟨_, _, _, _, rfl, rfl, rfl⟩
  · exact .inl rfl

theorem Ledger.submitted_note {job : Job} (hjob : job ∈ l.submitted) :
    job ∈ (l.note s i x).submitted := by
  rcases l.submitted_cases s i x with hsame | ⟨_, _, _, _, _, _, hnew⟩
  · rwa [hsame]
  · exact hnew ▸ List.mem_cons_of_mem _ hjob

namespace Instr

def job : Instr → Option Job
  | .pick _ job | .addPending _ _ job | .send _ _ job _ | .await _ _ job _ | .finish _ job _
  | .addWaiter job _ | .enqueue job _ _ | .awaitWaiter job _ | .removeWaiter job
  | .addObserver _ job | .relay _ job _ | .emit _ job _ _ | .settle job | .closeOut job => some job
  | .placeItem item => some item.job
  | _ => none

end Instr

theorem Step.job_fresh (hs : Step s i x e) : ∀ j ∈ e.fresh, ∀ job, j.job = some job →
    i.job = some job ∨ (∃ item ∈ s.queue, item.job = job) ∨ ∃ header entropy model stream,
      i = .serve ∧ x = .request header entropy model stream ∧
      job = ⟨requestID header entropy, model, s.requests⟩ := by
  intro j hj job hjob
  have hleft := hs.leaves j hj
  cases j with
  | pick o job' =>
    obtain ⟨hi, -, header, entropy, model, stream, hx, hnew⟩ := hleft
    cases hjob
    exact .inr (.inr ⟨header, entropy, model, stream, hi, hx, hnew⟩)
  | placeItem item =>
    cases hjob
    rcases hleft with ⟨-, hitem⟩ | rfl
    · exact .inr (.inl ⟨item, nextItem_mem hitem, rfl⟩)
    · exact .inl rfl
  | send | await | enqueue | addObserver | emit =>
    obtain ⟨rfl, -⟩ := hleft
    exact .inl hjob
  | addPending =>
    rcases hleft with ⟨rfl, -⟩ | ⟨item, rfl, -, rfl, -⟩ | ⟨rfl, -⟩ <;> exact .inl hjob
  | finish => rcases hleft with ⟨h, ch, rfl, -⟩ | ⟨h, ch, rfl⟩ <;> exact .inl hjob
  | addWaiter =>
    obtain ⟨o, rfl, -⟩ := hleft
    exact .inl hjob
  | awaitWaiter =>
    obtain ⟨priority, rfl⟩ := hleft
    exact .inl hjob
  | removeWaiter => rcases hleft with ⟨priority, ch, rfl⟩ | ⟨ch, rfl⟩ <;> exact .inl hjob
  | relay => rcases hleft with ⟨rfl, -⟩ | ⟨c, rfl, -⟩ <;> exact .inl hjob
  | settle =>
    obtain ⟨h, ch, rfl, -⟩ := hleft
    exact .inl hjob
  | closeOut => rcases hleft with ⟨h, ch, rfl⟩ | ⟨h, ch, c, rfl⟩ | rfl <;> exact .inl hjob
  | _ => cases hjob

structure Known (s : Server) (l : Ledger) (S : Multiset Instr) : Prop where
  ids : (l.submitted.map Job.id).Nodup
  soup : ∀ j ∈ S, ∀ job, j.job = some job → job ∈ l.submitted
  queue : ∀ item ∈ s.queue, item.job ∈ l.submitted
  handed : ∀ job ∈ l.handed, job ∈ l.submitted

theorem Known.eq_of_id {S : Multiset Instr} (hK : Known s l S) {a b : Job} (ha : a ∈ l.submitted)
    (hb : b ∈ l.submitted) (hid : a.id = b.id) : a = b :=
  List.inj_on_of_nodup_map hK.ids ha hb hid

theorem Step.known {R : Multiset Instr} (hs : Step s i x e) (hK : Known s l (i ::ₘ R))
    (hdistinct : ∀ header entropy model stream, x = .request header entropy model stream →
      requestID header entropy ∉ l.submitted.map Job.id) :
    Known e.shared (l.note s i x) (e.fresh + R) where
  ids := by
    rcases l.submitted_cases s i x with hsame | ⟨header, entropy, model, stream, rfl, rfl, hnew⟩
    · exact hsame ▸ hK.ids
    · rw [hnew, List.map_cons, List.nodup_cons]
      exact ⟨hdistinct _ _ _ _ rfl, hK.ids⟩
  soup j hj job hjob := by
    rcases Multiset.mem_add.mp hj with hj | hj
    · rcases hs.job_fresh j hj job hjob with hi | ⟨item, hitem, rfl⟩ | ⟨_, _, _, _, rfl, rfl, rfl⟩
      · exact Ledger.submitted_note (hK.soup i (Multiset.mem_cons_self i R) job hi)
      · exact Ledger.submitted_note (hK.queue item hitem)
      · exact List.mem_cons_self
    · exact Ledger.submitted_note (hK.soup j (Multiset.mem_cons_of_mem hj) job hjob)
  queue item hitem := by
    rcases hs.queue_cases hitem with hold | ⟨priority, ch, rfl⟩
    · exact Ledger.submitted_note (hK.queue item hold)
    · exact Ledger.submitted_note (hK.soup _ (Multiset.mem_cons_self _ R) _ rfl)
  handed job hjob := by
    rcases l.handed_cases s i x with hsame | ⟨o, h, job', ch, rfl, rfl, hnew⟩
    · exact Ledger.submitted_note (hK.handed job (hsame ▸ hjob))
    · rw [hnew] at hjob
      refine Ledger.submitted_note ?_
      rcases List.mem_cons.mp hjob with rfl | hjob
      · exact hK.soup _ (Multiset.mem_cons_self _ R) _ rfl
      · exact hK.handed job hjob

theorem Ledger.countP_handed (s : Server) (i : Instr) (x : Choice) (l : Ledger) (r : ℕ) :
    (l.note s i x).handed.countP (·.request == r) =
      l.handed.countP (·.request == r) + if i.handsOver r x then 1 else 0 := by
  unfold note
  split
  · simp [Instr.handsOver]
  · simp [Instr.handsOver, List.countP_cons]
  · next hsend =>
    have hno : i.handsOver r x = false := by
      unfold Instr.handsOver
      split
      · exact absurd rfl (hsend _ _ _ _ rfl)
      · rfl
    simp [hno]

namespace Instr

def closing : Instr → Bool
  | .close | .awaitEvict | .closePlace | .closeQueue | .awaitPlace | .failWaiters => true
  | _ => false

def opening : Instr → Bool
  | .close | .awaitEvict | .closePlace | .closeQueue => true
  | _ => false

def aside : Instr → Bool
  | .pick .queued _ | .place | .placeItem _ | .addPending .queued .. | .send .queued ..
  | .await .queued .. | .finish .queued .. | .resolveWaiter _ | .deliverWaiter .. => false
  | i => !i.closing

def submits : Instr → Bool
  | .pick .fast _ | .addPending .fast .. | .send .fast .. | .await .fast .. | .finish .fast ..
  | .addWaiter .. | .enqueue .. | .awaitWaiter .. | .removeWaiter _ => true
  | _ => false

theorem aside_of_closing (hi : i.closing) : i.aside = false := by
  cases i <;> first | rfl | cases hi

theorem of_holds {job : Job} (hi : i.holds job) : i.aside = false ∧ i.closing = false := by
  cases i with
  | addPending o | send o | await o | finish o => cases o <;> first | exact ⟨rfl, rfl⟩ | cases hi
  | _ => first | exact ⟨rfl, rfl⟩ | cases hi

theorem submits_of_attends {jobID : String} {ch : ℕ} (hi : i.attends jobID ch) : i.submits := by
  cases i <;> first | rfl | cases hi

end Instr

theorem Step.evictStop_cases (hs : Step s i x e) :
    e.shared.evictStop = s.evictStop ∨
      i = .close ∧ e = ⟨{ s with evictStop := true }, [.awaitEvict], []⟩ := by
  induction hs with
  | close => exact .inr ⟨rfl, rfl⟩
  | _ => exact .inl rfl

theorem Step.queueClosed_kept (hs : Step s i x e) (hc : s.queueClosed) : e.shared.queueClosed := by
  induction hs with
  | closeQueue => rfl
  | _ => exact hc

theorem closing_cases (hi : i.closing) (he : controlPlane.exec s i x = some e) :
    (i.opening ∧ ∃ j, e.next = [j] ∧ e.spawned = [] ∧ j.closing ∧ j ≠ .failWaiters ∧
      (j.opening ∨ e.shared.queueClosed)) ∨
    (i = .awaitPlace ∧ e = ⟨s, [.failWaiters], []⟩ ∧ s.placeDone) ∨
    (i = .failWaiters ∧ e.shared = { s with waiters := ∅ } ∧ e.spawned = [] ∧
      ∀ j ∈ e.next, ∃ ch res, j = .deliverWaiter ch res) := by
  cases i with
  | awaitPlace =>
    cases x <;> simp only [controlPlane, exec, execClose, reduceCtorEq] at he
    split_ifs at he with hdone
    cases he
    exact .inr (.inl ⟨rfl, rfl, hdone⟩)
  | failWaiters =>
    cases step_of_exec he with
    | failWaiters => exact .inr (.inr ⟨rfl, rfl, rfl, forall_failWaiters fun _ _ _ ↦ ⟨_, _, rfl⟩⟩)
    | quit hq => cases hq
  | close | awaitEvict | closePlace | closeQueue =>
    refine .inl ⟨rfl, ?_⟩
    cases step_of_exec he with
    | quit hq => cases hq
    | _ =>
      first
      | exact ⟨_, rfl, rfl, rfl, by simp, .inl rfl⟩
      | exact ⟨_, rfl, rfl, rfl, by simp, .inr rfl⟩
  | _ => cases hi

theorem Step.aside_next (hs : Step s i x e) (hi : i.aside) : ∀ j ∈ e.next, j.aside := by
  induction hs with
  | fail => exact forall_fail (fun _ _ _ ↦ rfl) (fun _ _ _ ↦ rfl) rfl
  | evictScan => exact forall_evictScan (fun _ _ ↦ rfl) rfl
  | @pick o | addPending o | @send o | @sendGone o | @awaitGone o | @await o =>
    refine List.forall_mem_singleton.mpr ?_
    cases o <;> first | rfl | cases hi
  | _ =>
    first
    | exact List.forall_mem_singleton.mpr rfl
    | exact List.forall_mem_nil _
    | cases hi

theorem Step.spawned_aside (hs : Step s i x e) : ∀ th ∈ e.spawned,
    (∀ j ∈ th, j.aside) ∨ th = [.close] ∧ i = .serve ∧ e.spawned = [[.close]] := by
  intro th hth
  induction hs with
  | @enter _ k hk =>
    obtain rfl : th = [k] := List.mem_singleton.mp hth
    cases k with
    | close => exact .inr ⟨rfl, rfl, rfl⟩
    | _ => first | exact .inl (List.forall_mem_singleton.mpr rfl) | cases hk
  | @request _ _ _ _ o ho =>
    obtain rfl := List.mem_singleton.mp hth
    refine .inl (List.forall_mem_singleton.mpr ?_)
    cases o <;> first | rfl | exact absurd rfl ho
  | markDraining hsp =>
    rcases hsp with rfl | rfl
    · cases hth
    · obtain rfl := List.mem_singleton.mp hth
      exact .inl (List.forall_mem_singleton.mpr rfl)
  | ack =>
    obtain rfl := List.mem_singleton.mp hth
    exact .inl (List.forall_mem_singleton.mpr rfl)
  | addObserver h job =>
    refine .inl ?_
    obtain rfl | rfl | rfl : th = [.relay h job s.nextChan] ∨ th = [.addPending .stream h job] ∨
        th = [.consume job.request] := by simpa using hth
    all_goals exact List.forall_mem_singleton.mpr rfl
  | _ => cases hth

theorem serve_close (he : controlPlane.exec s .serve x = some e) (hc : e.spawned = [[.close]]) :
    x = .close := by
  cases x with
  | close => rfl
  | connect id =>
    simp only [controlPlane, exec, serve] at he
    split_ifs at he
    cases he
    cases hc
  | command _ m =>
    cases m <;> cases he <;> cases hc
  | _ =>
    cases he
    try cases hc

inductive CloseAt (s : Server) : List Instr → Prop
  | waiting {i : Instr} (hi : i.closing) (hf : i ≠ .failWaiters) : CloseAt s [i]
  | failing (hdone : s.placeDone) : CloseAt s [.failWaiters]
  | delivering {th : List Instr} (hdone : s.placeDone)
      (hth : ∀ j ∈ th, ∃ ch res, j = .deliverWaiter ch res) : CloseAt s th

theorem CloseAt.own {rest : List Instr} (h : CloseAt s (i :: rest))
    (he : controlPlane.exec s i x = some e) : CloseAt e.shared (e.next ++ rest) := by
  cases h with
  | waiting hi hf =>
    obtain ⟨-, j, hnext, -, hj, hjf, -⟩ | ⟨-, rfl, hdone⟩ | ⟨hi, -⟩ := closing_cases hi he
    · rw [hnext]
      exact .waiting hj hjf
    · exact .failing hdone
    · exact absurd hi hf
  | failing hdone =>
    obtain ⟨hi, -⟩ | ⟨hi, -⟩ | ⟨-, hshared, -, hnext⟩ := closing_cases rfl he
    · cases hi
    · cases hi
    · refine .delivering (by rw [hshared]; exact hdone) ?_
      rwa [List.append_nil]
  | delivering hdone hth =>
    obtain ⟨ch, res, rfl⟩ := hth i List.mem_cons_self
    cases step_of_exec he with
    | deliverWaiter => exact .delivering hdone fun j hj ↦ hth j (List.mem_cons_of_mem _ hj)
    | quit hq => cases hq

theorem CloseAt.stable {th : List Instr} (h : CloseAt s th) (hs : Step s i x e) :
    CloseAt e.shared th := by
  cases h with
  | waiting hi hf => exact .waiting hi hf
  | failing hdone => exact .failing (hs.placeDone_kept hdone)
  | delivering hdone hth => exact .delivering (hs.placeDone_kept hdone) hth

theorem CloseAt.mem {th : List Instr} (h : CloseAt s th) (hi : i ∈ th) :
    i.closing ∨ ∃ ch res, i = .deliverWaiter ch res := by
  cases h with
  | waiting hj => exact .inl (List.mem_singleton.mp hi ▸ hj)
  | failing => exact .inl (List.mem_singleton.mp hi ▸ rfl)
  | delivering _ hth => exact .inr (hth i hi)

theorem LoopAt.head_not_closing {rest : List Instr} (h : LoopAt s (i :: rest)) :
    i.closing = false := by
  cases h with
  | free => rfl
  | parked item => rfl
  | busy hi => cases i <;> first | rfl | cases hi

/-- What the goroutines do when `Close` is called once, in goroutine `k + 3`: the first three
are the server, the eviction loop and the placement loop. -/
inductive Role (k : ℕ) (s : Server) : ℕ → List Instr → Prop
  | loop {th : List Instr} (h : LoopAt s th) (hdone : s.placeDone → th = []) : Role k s 2 th
  | close {th : List Instr} (h : CloseAt s th) : Role k s (k + 3) th
  | aside {m : ℕ} {th : List Instr} (hm : m ≠ 2) (hth : ∀ j ∈ th, j.aside)
      (hk : m = k + 3 → s.evictStop = false) : Role k s m th

def ClosesIn (k : ℕ) (c : Config Server Instr) (_ : Instr) (x : Choice) : Prop :=
  x = .close → c.threads.length = k + 3

theorem Role.own {m : ℕ} {rest : List Instr} (h : Role k s m (i :: rest))
    (he : controlPlane.exec s i x = some e) : Role k e.shared m (e.next ++ rest) := by
  have hs := step_of_exec he
  cases h with
  | loop h hdone =>
    refine .loop (h.own he) fun hdone' ↦ ?_
    rcases hs.placeDone_cases with hsame | ⟨rfl, rfl⟩
    · cases hdone (hsame ▸ hdone')
    · cases h with
      | free => rfl
      | busy hi => cases hi
  | close h => exact .close (h.own he)
  | aside hm hth hk =>
    have hi := hth i List.mem_cons_self
    refine .aside hm ?_ fun hmk ↦ ?_
    · exact List.forall_mem_append.mpr
        ⟨hs.aside_next hi, fun j hj ↦ hth j (List.mem_cons_of_mem i hj)⟩
    · rcases hs.evictStop_cases with hsame | ⟨rfl, -⟩
      · exact hsame.trans (hk hmk)
      · cases hi

theorem Role.stable {m m' : ℕ} {rest th : List Instr} (h : Role k s m (i :: rest)) (hne : m' ≠ m)
    (hs : Step s i x e) (h' : Role k s m' th) : Role k e.shared m' th := by
  cases h' with
  | loop hl hdone =>
    refine .loop (hl.stable hs) fun hdone' ↦ ?_
    rcases hs.placeDone_cases with hsame | ⟨rfl, -⟩
    · exact hdone (hsame ▸ hdone')
    · cases h with
      | loop => exact absurd rfl hne
      | close h => rcases h.mem List.mem_cons_self with hi | ⟨_, _, hi⟩ <;> cases hi
      | aside _ hth => cases hth _ List.mem_cons_self
  | close hl => exact .close (hl.stable hs)
  | aside hm hth hk =>
    refine .aside hm hth fun hmk ↦ ?_
    rcases hs.evictStop_cases with hsame | ⟨rfl, -⟩
    · exact hsame.trans (hk hmk)
    · cases h with
      | loop h => cases h.head_not_closing
      | close => exact absurd hmk hne
      | aside _ hth => cases hth _ List.mem_cons_self

def Sized (k : ℕ) (c : Config Server Instr) : Prop :=
  3 ≤ c.threads.length ∧ (c.shared.evictStop ∨ .close ∈ c.soup → k + 3 < c.threads.length)

theorem Step.next_ne_close (hs : Step s i x e) : ∀ j ∈ e.next, j ≠ .close := by
  intro j hj hclose
  subst hclose
  obtain rfl : i = .serve := hs.leaves _ (Effect.mem_fresh.mpr (.inl hj))
  cases hs with
  | quit hq => cases hq
  | _ => simp at hj

theorem close_fresh (he : controlPlane.exec s i x = some e) (hj : .close ∈ e.fresh) :
    x = .close ∧ e.spawned = [[.close]] := by
  have hs := step_of_exec he
  rcases Effect.mem_fresh.mp hj with hj | ⟨th, hth, hj⟩
  · exact absurd rfl (hs.next_ne_close _ hj)
  · rcases hs.spawned_aside th hth with hth' | ⟨-, rfl, hsp⟩
    · cases hth' _ hj
    · exact ⟨serve_close he hsp, hsp⟩

theorem sized_of_runs {t : Time} {d : Duration} {n : ℕ} {c : Config Server Instr}
    (hc : controlPlane.Runs (ClosesIn k) (boot (new t d n)) c) : Sized k c := by
  induction hc with
  | start => simp [Sized, boot, new, Config.soup]
  | @step c m i rest x e _ hm hg he ih =>
    obtain ⟨hthree, hclose⟩ := ih
    have hlen : (c.after m rest e).threads.length = c.threads.length + e.spawned.length := by
      simp [Config.after]
    obtain ⟨R, hR, hafter⟩ := Config.soup_step hm
    rw [Sized, hlen, hafter e]
    refine ⟨by omega, fun hclosed ↦ ?_⟩
    have hi : i ∈ c.soup := hR ▸ Multiset.mem_cons_self i R
    by_cases hnew : .close ∈ e.fresh
    · obtain ⟨hx, hsp⟩ := close_fresh he hnew
      have hk := hg hx
      rw [hsp, List.length_singleton]
      omega
    · have hold : c.shared.evictStop ∨ .close ∈ c.soup := by
        rcases hclosed with hstop | hin
        · rcases (step_of_exec he).evictStop_cases with hsame | ⟨rfl, -⟩
          · exact .inl (hsame ▸ hstop)
          · exact .inr hi
        · rcases Multiset.mem_add.mp hin with hin | hin
          · exact absurd hin hnew
          · exact .inr (hR ▸ Multiset.mem_cons_of_mem hin)
      have := hclose hold
      omega

theorem role_of_runs {t : Time} {d : Duration} {n : ℕ} {c : Config Server Instr}
    (hc : controlPlane.Runs (ClosesIn k) (boot (new t d n)) c) :
    ∀ m th, c.threads[m]? = some th → Role k c.shared m th := by
  refine (hc.strengthen fun c hc ↦ sized_of_runs hc).threads_invariant (Role k) ?_ ?_ ?_
  · intro m th hth
    rcases m with _ | _ | _ | m
    · cases hth
      exact .aside (by simp) (List.forall_mem_singleton.mpr rfl) (by simp)
    · cases hth
      exact .aside (by simp) (List.forall_mem_singleton.mpr rfl) (by simp)
    · cases hth
      exact .loop .free (by simp [boot, new])
    · simp [boot] at hth
  · intro c m i rest x e h hg he
    obtain ⟨hg, hthree, hclose⟩ := hg
    have hs := step_of_exec he
    refine ⟨h.own he, fun m' th hth ↦ ?_⟩
    rcases hs.spawned_aside th (List.mem_of_getElem? hth) with hth' | ⟨rfl, rfl, hsp⟩
    · refine .aside (by omega) hth' fun hk ↦ ?_
      have hstop : ¬ (c.shared.evictStop ∨ .close ∈ c.soup) := fun h ↦ by
        have := hclose h
        omega
      rcases hs.evictStop_cases with hsame | ⟨-, rfl⟩
      · rw [hsame]
        simpa using fun h ↦ hstop (.inl h)
      · cases hth
    · have hk := hg (serve_close he hsp)
      rw [hsp] at hth
      obtain rfl : m' = 0 := by
        have := (List.getElem?_eq_some_iff.mp hth).1
        simpa using this
      rw [hk]
      exact .close (.waiting rfl (by simp))
  · intro c m i rest x e h _ he m' th hne h'
    exact h.stable hne (step_of_exec he) h'

theorem aside_of_returned {t : Time} {d : Duration} {n : ℕ} {c : Config Server Instr}
    (hc : controlPlane.Runs (ClosesIn k) (boot (new t d n)) c) (hstop : c.shared.evictStop)
    (hreturned : c.threads[k + 3]? = some []) : ∀ j ∈ c.soup, j.aside := by
  have hrole := role_of_runs hc
  have hdone : c.shared.placeDone := by
    cases hrole (k + 3) [] hreturned with
    | close h =>
      cases h with
      | delivering hdone => exact hdone
    | aside _ _ hk => cases hstop.symm.trans (hk rfl)
  intro j hj
  obtain ⟨th, hth, hjth⟩ := Config.mem_soup.mp hj
  obtain ⟨m, hm, rfl⟩ := List.mem_iff_getElem.mp hth
  have hget : c.threads[m]? = some c.threads[m] := List.getElem?_eq_getElem hm
  generalize c.threads[m] = th at hget hjth
  cases hrole m th hget with
  | loop _ hempty =>
    rw [hempty hdone] at hjth
    cases hjth
  | close =>
    cases hreturned.symm.trans hget
    cases hjth
  | aside _ hth => exact hth j hjth

/-- Once `Close` is past the closing of the queue, no job is queued; once it is past
`failAllWaiters`, whoever waits for a queued job has lost its entry in the map. -/
structure Failed (s : Server) (S : Multiset Instr) : Prop where
  queue : s.evictStop → s.queueClosed ∨ ∃ j ∈ S, j.opening
  waiters : s.evictStop → (∀ j ∈ S, ¬ j.closing) → ∀ job ch, .awaitWaiter job ch ∈ S →
    s.waiters.lookup job.id ≠ some ch

theorem Instr.closing_of_opening (hi : i.opening) : i.closing := by
  cases i <;> first | rfl | cases hi

theorem enqueue_of_closed {job : Job} {priority ch : ℕ} (hclosed : s.queueClosed)
    (he : controlPlane.exec s (.enqueue job priority ch) x = some e) :
    e = ⟨s, [.removeWaiter job], []⟩ := by
  cases x <;> simp only [controlPlane, exec, execSubmit, reduceCtorEq] at he
  rw [if_pos (.inl hclosed)] at he
  exact (Option.some.inj he).symm

theorem failed_queue {R : Multiset Instr} (he : controlPlane.exec s i x = some e)
    (hF : Failed s (i ::ₘ R)) (hstop : e.shared.evictStop) :
    e.shared.queueClosed ∨ ∃ j ∈ e.fresh + R, j.opening := by
  have hs := step_of_exec he
  by_cases hi : i.opening
  · obtain ⟨-, j, hnext, -, -, -, hj | hclosed⟩ | ⟨rfl, -⟩ | ⟨rfl, -⟩ :=
      closing_cases (Instr.closing_of_opening hi) he
    · exact .inr ⟨j, Multiset.mem_add.mpr (.inl (by simp [hnext])), hj⟩
    · exact .inl hclosed
    · cases hi
    · cases hi
  · have hstop' : s.evictStop := by
      rcases hs.evictStop_cases with hsame | ⟨rfl, -⟩
      · exact hsame ▸ hstop
      · exact absurd rfl hi
    rcases hF.queue hstop' with hclosed | ⟨j, hj, hjo⟩
    · exact .inl (hs.queueClosed_kept hclosed)
    · rcases Multiset.mem_cons.mp hj with rfl | hj
      · exact absurd hjo hi
      · exact .inr ⟨j, Multiset.mem_add.mpr (.inr hj), hjo⟩

theorem failed_waiters {R : Multiset Instr} (he : controlPlane.exec s i x = some e)
    (hwired : ∀ j ∈ i ::ₘ R, j.Wired s) (hF : Failed s (i ::ₘ R)) (hstop : e.shared.evictStop)
    (hdone : ∀ j ∈ e.fresh + R, ¬ j.closing) {job : Job} {ch : ℕ}
    (hin : .awaitWaiter job ch ∈ e.fresh + R) : e.shared.waiters.lookup job.id ≠ some ch := by
  have hs := step_of_exec he
  have hrest : ∀ j ∈ R, ¬ j.closing := fun j hj ↦ hdone j (Multiset.mem_add.mpr (.inr hj))
  by_cases hi : i.closing
  · obtain ⟨-, j, hnext, -, hj, -⟩ | ⟨-, rfl, -⟩ | ⟨-, hshared, -⟩ := closing_cases hi he
    · exact absurd hj (hdone j (Multiset.mem_add.mpr (.inl (by simp [hnext]))))
    · exact absurd rfl (hdone .failWaiters (Multiset.mem_add.mpr (.inl (by simp))))
    · rw [hshared]
      nofun
  · have hstop' : s.evictStop := by
      rcases hs.evictStop_cases with hsame | ⟨rfl, -⟩
      · exact hsame ▸ hstop
      · exact absurd rfl hi
    have hnone : ∀ j ∈ i ::ₘ R, ¬ j.closing := by
      intro j hj
      rcases Multiset.mem_cons.mp hj with rfl | hj
      · exact hi
      · exact hrest j hj
    rcases Multiset.mem_add.mp hin with hin | hin
    · -- the queue is closed, so nobody starts to wait
      obtain ⟨priority, rfl⟩ := hs.awaitWaiter_fresh hin
      have hclosed : s.queueClosed := by
        refine (hF.queue hstop').resolve_right ?_
        rintro ⟨j, hj, hjo⟩
        exact hnone j hj (Instr.closing_of_opening hjo)
      obtain rfl := enqueue_of_closed hclosed he
      simp at hin
    · intro hl
      rcases hs.waiter_cases hl with hold | ⟨job', priority, rfl, -, rfl⟩
      · exact hF.waiters hstop' hnone job ch (Multiset.mem_cons_of_mem hin) hold
      · exact lt_irrefl _ (hwired _ (Multiset.mem_cons_of_mem hin)).1

/-- Requests come with distinct ids, and `Close` is called once at most, in goroutine `k + 3`. -/
def Distinct (k : ℕ) (c : Config (Server × Ledger) Instr) (_ : Instr) (x : Choice) : Prop :=
  match x with
  | .request header entropy _ _ => requestID header entropy ∉ c.shared.2.submitted.map Job.id
  | .close => c.threads.length = k + 3
  | _ => True

instance (k : ℕ) (c : Config (Server × Ledger) Instr) (i : Instr) (x : Choice) :
    Decidable (Distinct k c i x) := by
  delta Distinct
  induction x using Choice.casesOn <;> infer_instance

theorem Distinct.closesIn {c : Config (Server × Ledger) Instr} (h : Distinct k c i x) :
    ClosesIn k c.erase i x := by
  rintro rfl
  exact h

section

variable {t : Time} {d : Duration} {n : ℕ}

theorem failed_of_reaches {c : Config Server Instr}
    (hc : controlPlane.Reaches (boot (new t d n)) c) : Failed c.shared c.soup := by
  refine (hc.strengthen fun c hc ↦ (wired_of_reaches hc).2).soup_invariant Failed ?_ ?_
  · constructor <;> simp [boot, new]
  · intro c i x R e hsoup hF hg he
    exact ⟨failed_queue he hF, fun hstop hdone job ch ↦
      failed_waiters he (hsoup ▸ hg.2) hF hstop hdone⟩

variable {c : Config (Server × Ledger) Instr}

theorem known_of_runs
    (hc : (controlPlane.record Ledger.note).Runs (Distinct k) ((boot (new t d n)).logging {}) c) :
    Known c.shared.1 c.shared.2 c.soup := by
  refine hc.record_invariant Known ?_ ?_
  · constructor <;> simp [boot, new, Config.logging, Config.soup, Instr.job]
  · intro c i x R e _ hK hg he
    refine (step_of_exec he).known hK ?_
    rintro header entropy model stream rfl
    exact hg

theorem handed_le_one
    (hc : (controlPlane.record Ledger.note).Runs (Distinct k) ((boot (new t d n)).logging {}) c)
    (r : ℕ) : c.shared.2.handed.countP (·.request == r) ≤ 1 := by
  have hall : c.soup.countP (·.hands r) + c.shared.1.queued r +
      c.shared.2.handed.countP (·.request == r) ≤ if r < c.shared.1.requests then 1 else 0 := by
    refine hc.record_invariant (fun s l S ↦ S.countP (·.hands r) + s.queued r +
      l.handed.countP (·.request == r) ≤ if r < s.requests then 1 else 0) ?_ ?_
    · simp [boot, new, Config.logging, Config.soup, Instr.hands, Server.queued]
    · intro c i x R e _ hle _ he
      have hbalance := (step_of_exec he).hands_balance r
      rw [Multiset.countP_cons] at hle
      rw [Multiset.countP_add, Ledger.countP_handed]
      omega
  have hone : (if r < c.shared.1.requests then 1 else 0) ≤ 1 := by split <;> simp
  omega

theorem expected_of_runs
    (hc : (controlPlane.record Ledger.note).Runs (Distinct k) ((boot (new t d n)).logging {}) c) :
    ∀ j ∈ c.soup, ∀ job ch, j.expects = some (job, ch) → Expected c.shared.1 c.soup job.id ch := by
  have hrun := hc.strengthen fun c hc ↦
    And.intro (known_of_runs hc) (And.intro (takes_le_one hc.erase_reaches)
      (waits_le_one hc.erase_reaches))
  refine hrun.record_invariant (fun s _ S ↦ ∀ j ∈ S, ∀ job ch, j.expects = some (job, ch) →
    Expected s S job.id ch) ?_ ?_
  · simp [boot, Config.logging, Config.soup, Instr.expects]
  · intro c i x R e hsoup hE hg he
    obtain ⟨-, hK, htakes, hwaits⟩ := hg
    rw [Config.erase_soup, hsoup] at htakes hwaits
    rw [hsoup] at hK
    refine (step_of_exec he).expected (fun ch ↦ (htakes ch).trans (by split <;> simp))
      (fun r ↦ (hwaits r).trans (by split <;> simp)) ?_ hE
    intro j hj job ch hjch j' hj' other hother hid
    refine hK.eq_of_id (hK.soup j' hj' other ?_) (hK.soup j hj job ?_) hid
    · rcases hother with ⟨priority, rfl⟩ | rfl <;> rfl
    · cases j with
      | enqueue | awaitWaiter => exact congrArg (Option.map Prod.fst) hjch
      | _ => cases hjch

theorem loop_of_holds
    (hc : (controlPlane.record Ledger.note).Runs (Distinct k) ((boot (new t d n)).logging {}) c)
    {job : Job} {j : Instr} (hj : j ∈ c.soup) (hholds : j.holds job) :
    ∃ th, c.threads[2]? = some th ∧ j ∈ th := by
  obtain ⟨th, hth, hjth⟩ := Config.mem_soup.mp hj
  obtain ⟨m, hm, rfl⟩ := List.mem_iff_getElem.mp hth
  have hget : c.threads[m]? = some c.threads[m] := List.getElem?_eq_getElem hm
  cases role_of_runs (hc.erase fun _ _ _ ↦ Distinct.closesIn) m _ hget with
  | loop => exact ⟨_, hget, hjth⟩
  | close h =>
    rcases h.mem hjth with hclosing | ⟨_, _, rfl⟩
    · cases hclosing.symm.trans (Instr.of_holds hholds).2
    · cases hholds
  | aside _ hth => cases (hth j hjth).symm.trans (Instr.of_holds hholds).1

/-- Every job goes to a worker once at most. While a submit call is blocked on a queued job,
its waiter is registered and the job is in the queue or in the hands of the placement loop, or
its result is being delivered or is there. It is there once `Close` has returned, and the map
is empty once all submit calls have. -/
theorem queued_jobs_conserved
    (hc : (controlPlane.record Ledger.note).Runs (Distinct k) ((boot (new t d n)).logging {}) c) :
    (c.shared.2.handed.map Job.id).Nodup ∧
    (∀ job ch, .awaitWaiter job ch ∈ c.soup →
      (c.shared.1.waiters.lookup job.id = some ch ∧ ((∃ item ∈ c.shared.1.queue, item.job = job) ∨
        ∃ th, c.threads[2]? = some th ∧ ∃ j ∈ th, j.holds job)) ∨
      (∃ res, .deliverWaiter ch res ∈ c.soup) ∨
      (c.shared.1.results ch).taken < (c.shared.1.results ch).sent.length) ∧
    (c.shared.1.evictStop → c.threads[k + 3]? = some [] → ∀ job ch, .awaitWaiter job ch ∈ c.soup →
      (controlPlane.exec c.shared.1 (.awaitWaiter job ch) .go).isSome) ∧
    ((∀ j ∈ c.soup, ¬ j.submits) → ∀ jobID, c.shared.1.waiters.lookup jobID = none) := by
  have hexp := expected_of_runs hc
  refine ⟨?_, ?_, ?_, ?_⟩
  · have hK := known_of_runs hc
    have hrequests : (c.shared.2.handed.map Job.request).Nodup := by
      refine List.nodup_iff_count_le_one.mpr fun r ↦ ?_
      rw [List.count, List.countP_map]
      exact handed_le_one hc r
    exact hrequests.of_map.map_on fun a ha b hb ↦ hK.eq_of_id (hK.handed a ha) (hK.handed b hb)
  · intro job ch hin
    rcases hexp _ hin job ch rfl with hl | hrest
    · refine .inl ⟨hl, ?_⟩
      rcases held_of_reaches hc.erase_reaches job ch hin hl with hqueue | ⟨j, hj, hholds⟩
      · exact .inl hqueue
      · obtain ⟨th, hth, hjth⟩ := loop_of_holds hc hj hholds
        exact .inr ⟨th, hth, j, hjth, hholds⟩
    · exact .inr hrest
  · intro hstop hreturned job ch hin
    have haside := aside_of_returned (hc.erase fun _ _ _ ↦ Distinct.closesIn) hstop hreturned
    have hlost : c.shared.1.waiters.lookup job.id ≠ some ch := by
      refine (failed_of_reaches hc.erase_reaches).waiters hstop (fun j hj hclosing ↦ ?_) job ch hin
      cases (haside j hj).symm.trans (Instr.aside_of_closing hclosing)
    rcases hexp _ hin job ch rfl with hl | ⟨res, hres⟩ | hthere
    · exact absurd hl hlost
    · cases haside _ hres
    · exact Option.isSome_map.trans (Chan.recv_isSome hthere)
  · intro hnone jobID
    refine Option.eq_none_iff_forall_ne_some.mpr fun ch hl ↦ ?_
    obtain ⟨j, hj, hjch⟩ := attended_of_reaches hc.erase_reaches jobID ch hl
    exact hnone j hj (Instr.submits_of_attends hjch)

end

/-- `Close` returns while the call for a queued job has yet to take its result. -/
theorem queued_jobs_conserved_closed :
    ∃ c, (controlPlane.record Ledger.note).Runs (Distinct 3) ((boot (new 0 0 0)).logging {}) c ∧
      c.shared.1.evictStop ∧ c.threads[6]? = some [] ∧ .awaitWaiter itemA.job 0 ∈ c.soup ∧
      (controlPlane.exec c.shared.1 (.awaitWaiter itemA.job 0) .go).isSome := by
  have hrun : ∃ c, (controlPlane.record Ledger.note).Runs (Distinct 3)
      ((boot (new 0 0 0)).logging {}) c ∧
      c.shared.1.evictStop ∧ c.threads[6]? = some [] ∧ .awaitWaiter itemA.job 0 ∈ c.soup := by
    apply Machine.exists_run (parkOne ++
      [(0, .close), (6, .go), (1, .ctxDone), (6, .go), (6, .go), (6, .go), (2, .ctxDone), (2, .go),
        (2, .go), (2, .go), (6, .go), (6, .order [] [])])
    decide +kernel
  obtain ⟨c, hc, hstop, hreturned, hin⟩ := hrun
  exact ⟨c, hc, hstop, hreturned, hin, (queued_jobs_conserved hc).2.2.1 hstop hreturned _ _ hin⟩

end AgentGpu.ControlPlane
