import AgentGpu.Foundation.History
import AgentGpu.ControlPlane.Tickets

namespace AgentGpu.ControlPlane

open Foundation

variable {s : Server} {i : Instr} {x : Choice} {e : Effect Server Instr} {h ch : ℕ}
  {R S : Multiset Instr}

structure Feed where
  /-- The chunks for the channel in the order in which the reader folded them in, and at the end
  the one that `failAllPending` may have made. -/
  chunks : List Produced := []
  /-- The chunk that the reader has folded in and not yet forwarded. -/
  hand : List Produced := []
  /-- `failAllPending` sent its chunk while the reader had one in hand. -/
  overtaken : Bool := false
  /-- A chunk found the buffer full. -/
  dropped : Bool := false
  /-- The output of the result that the terminal chunk completed. -/
  output : Option String := none

def Feed.take (f : Feed) (w : Worker) (c : Produced) : Feed :=
  { f with
    chunks := f.chunks ++ [c]
    hand := [c]
    output := if c.chunk.done then some (w.assemble c).result.output else f.output }

def Feed.forward (f : Feed) (chan : Chan Produced) (c : Produced) : Feed :=
  { f with hand := [], dropped := f.dropped || (chan.send c).isNone }

def Feed.fail (f : Feed) (chan : Chan Produced) (c : Produced) : Feed :=
  { f with
    chunks := f.chunks ++ [c]
    overtaken := f.overtaken || f.hand ≠ []
    dropped := f.dropped || (chan.send c).isNone }

structure Feeds where
  /-- The observer channel of each streaming request. -/
  channel : ℕ → Option ℕ := fun _ ↦ none
  feed : ℕ → Feed := fun _ ↦ {}

namespace Feeds

def setFeed (l : Feeds) (ch : ℕ) (f : Feed) : Feeds := { l with feed := Function.update l.feed ch f }

def note (s : Server) (i : Instr) (x : Choice) (l : Feeds) : Feeds :=
  match i, x with
  | .addObserver _ job, _ =>
    { l with channel := Function.update l.channel job.request (some s.nextChan) }
  | .read h, .message (.chunk c) =>
    match (s.worker h).observers.lookup c.chunk.jobID with
    | some ch => l.setFeed ch ((l.feed ch).take (s.worker h) c)
    | none => l
  | .forward _ ch c, _ | .forwardLast _ ch c _, _ =>
    l.setFeed ch ((l.feed ch).forward (s.observed ch) c)
  | .failForward ch c, _ => l.setFeed ch ((l.feed ch).fail (s.observed ch) c)
  | _, _ => l

end Feeds

def deltas (chunks : List Produced) : String := chunks.foldl (· ++ ·.chunk.delta) ""

@[simp] theorem deltas_append (chunks : List Produced) (c : Produced) :
    deltas (chunks ++ [c]) = deltas chunks ++ c.chunk.delta := by
  simp [deltas]

namespace Instr

def carries (ch : ℕ) : Instr → Option Produced
  | .forward _ k c | .forwardLast _ k c _ => if k = ch then some c else none
  | _ => none

def ends (ch : ℕ) : Instr → Bool
  | .forwardLast _ k _ _ | .closeLast _ k _ | .failClose k => k == ch
  | _ => false

theorem closes_of_ends (hi : i.ends ch) : i.closes ch := by
  cases i <;> first | exact hi | cases hi

theorem ends_of_shuts (hi : i.shuts ch) : i.ends ch := by
  cases i <;> first | exact hi | cases hi

end Instr

inductive FeedStep (s : Server) (i : Instr) (x : Choice) (l : Feeds) (ch : ℕ) (s' : Server) : Prop
  | rest (hi : i.carries ch = none) (hfail : ∀ c, i ≠ .failForward ch c)
      (htake : ∀ h c, i = .read h → x = .message (.chunk c) →
        (s.worker h).observers.lookup c.chunk.jobID ≠ some ch)
      (hfeed : (l.note s i x).feed ch = l.feed ch)
      (hsent : (s'.observed ch).sent = (s.observed ch).sent)
  | take (h : ℕ) (c : Produced) (hi : i = .read h) (hx : x = .message (.chunk c))
      (hobs : (s.worker h).observers.lookup c.chunk.jobID = some ch)
      (hfeed : (l.note s i x).feed ch = (l.feed ch).take (s.worker h) c)
      (hsame : s'.observed ch = s.observed ch)
  | forward (c : Produced) (hi : i.carries ch = some c)
      (hfeed : (l.note s i x).feed ch = (l.feed ch).forward (s.observed ch) c)
      (hsend : s'.observed ch = (s.observed ch).trySend c)
  | fail (c : Produced) (hi : i = .failForward ch c)
      (hfeed : (l.note s i x).feed ch = (l.feed ch).fail (s.observed ch) c)
      (hsend : s'.observed ch = (s.observed ch).trySend c)

def Instr.quiet : Instr → Bool
  | .read _ | .forward .. | .forwardLast .. | .failForward .. => false
  | _ => true

theorem FeedStep.of_quiet {s' : Server} {l : Feeds} (hi : i.quiet)
    (hsent : (s'.observed ch).sent = (s.observed ch).sent) : FeedStep s i x l ch s' := by
  cases i with
  | read | forward | forwardLast | failForward => cases hi
  | _ =>
    exact .rest rfl (fun _ h ↦ Instr.noConfusion h) (fun _ _ h ↦ Instr.noConfusion h) rfl hsent

theorem Step.feedStep_of_ne_read (hs : Step s i x e) (hread : ∀ h, i ≠ .read h) (l : Feeds) (ch : ℕ) :
    FeedStep s i x l ch e.shared := by
  induction hs with
  | leave h | heartbeat h | deregister h | result h | @chunk h | @chunkObserved h | @lastChunk h
  | @lastChunkObserved h => exact absurd rfl (hread h)
  | forward _ k c | forwardLast _ k c _ =>
    by_cases hk : k = ch
    · subst hk
      exact .forward c (if_pos rfl) (Function.update_self ..) (Function.update_self ..)
    · refine .rest (if_neg hk) (fun _ h ↦ Instr.noConfusion h) (fun _ _ h ↦ Instr.noConfusion h)
        (Function.update_of_ne (Ne.symm hk) ..) ?_
      exact congrArg Chan.sent (Function.update_of_ne (Ne.symm hk) ..)
  | failForward k c =>
    by_cases hk : k = ch
    · subst hk
      exact .fail c rfl (Function.update_self ..) (Function.update_self ..)
    · refine .rest rfl (by simp [hk]) (fun _ _ h ↦ Instr.noConfusion h)
        (Function.update_of_ne (Ne.symm hk) ..) ?_
      exact congrArg Chan.sent (Function.update_of_ne (Ne.symm hk) ..)
  | closeLast | failClose => exact .of_quiet rfl (Chan.proj_of_update Chan.sent rfl Chan.close_sent ch)
  | relay hc => exact .of_quiet rfl (Chan.proj_of_update Chan.sent rfl (Chan.recv_some hc).2.1 ch)
  | @quit i x hq =>
    refine .of_quiet ?_ rfl
    cases i <;> first | rfl | cases hq
  | _ => exact .of_quiet rfl rfl

theorem exec_read_cases (he : controlPlane.exec s (.read h) x = some e) :
    (∃ m, x = .message m ∧ e = handleMessage s h m) ∨
      (∀ m, x ≠ .message m) ∧ e = ⟨s, [.unregister h .disconnected], []⟩ := by
  have he : execStream s (.read h) x = some e := he
  cases x with
  | message m =>
    cases he
    exact .inl ⟨m, rfl, rfl⟩
  | ctxDone =>
    simp only [execStream] at he
    split at he <;> cases he
    exact .inr ⟨by simp, rfl⟩
  | streamEnd =>
    cases he
    exact .inr ⟨by simp, rfl⟩
  | _ => cases he

theorem handleMessage_observed (m : WorkerMessage) :
    (handleMessage s h m).shared.observed = s.observed := by
  cases m with
  | chunk c =>
    simp only [handleMessage]
    split <;> rfl
  | _ => rfl

theorem feedStep_of_exec (he : controlPlane.exec s i x = some e) (l : Feeds) (ch : ℕ) :
    FeedStep s i x l ch e.shared := by
  by_cases hread : ∃ h, i = .read h
  · obtain ⟨h, rfl⟩ := hread
    have hno (c : Produced) : Instr.read h ≠ .failForward ch c := fun h ↦ Instr.noConfusion h
    rcases exec_read_cases he with ⟨m, rfl, rfl⟩ | ⟨hx, rfl⟩
    · have hobserved := congrFun (handleMessage_observed (s := s) (h := h) m) ch
      cases m with
      | chunk c =>
        cases hobs : (s.worker h).observers.lookup c.chunk.jobID with
        | none =>
          refine .rest rfl hno ?_ (by simp [Feeds.note, hobs]) (congrArg Chan.sent hobserved)
          intro k c' hk hc' hl
          cases hk
          cases hc'
          cases hobs.symm.trans hl
        | some k =>
          have hnote : l.note s (.read h) (.message (.chunk c)) =
              l.setFeed k ((l.feed k).take (s.worker h) c) := by
            simp [Feeds.note, hobs]
          by_cases hk : k = ch
          · subst hk
            refine .take h c rfl rfl hobs ?_ hobserved
            rw [hnote]
            exact Function.update_self ..
          · refine .rest rfl hno ?_ ?_ (congrArg Chan.sent hobserved)
            · intro k' c' hk' hc' hl
              cases hk'
              cases hc'
              exact hk (Option.some.inj (hobs.symm.trans hl))
            · rw [hnote]
              exact Function.update_of_ne (Ne.symm hk) ..
      | _ => exact .rest rfl hno (by simp) rfl (congrArg Chan.sent hobserved)
    · refine .rest rfl hno (fun _ c _ hc ↦ absurd hc (hx _)) ?_ rfl
      cases x with
      | message m => exact absurd rfl (hx m)
      | _ => rfl
  · exact (step_of_exec he).feedStep_of_ne_read (fun h hi ↦ hread ⟨h, hi⟩) l ch

theorem Step.carries_fresh (hs : Step s i x e) : ∀ j ∈ e.fresh, ∀ c, j.carries ch = some c →
    ∃ h, i = .read h ∧ x = .message (.chunk c) ∧
      (s.worker h).observers.lookup c.chunk.jobID = some ch := by
  intro j hj c hc
  have hleft := hs.leaves j hj
  cases j with
  | forward h k c' =>
    obtain ⟨rfl, rfl⟩ : k = ch ∧ c' = c := by simpa [Instr.carries] using hc
    obtain ⟨hi, hx, -, hobs⟩ := hleft
    exact ⟨h, hi, hx, hobs⟩
  | forwardLast h k c' res =>
    obtain ⟨rfl, rfl⟩ : k = ch ∧ c' = c := by simpa [Instr.carries] using hc
    obtain ⟨hi, hx, -, hobs, -⟩ := hleft
    exact ⟨h, hi, hx, hobs⟩
  | _ => cases hc

def Ended (s : Server) (S : Multiset Instr) (ch : ℕ) : Prop :=
  (s.observed ch).closed ∨ ∃ j ∈ S, j.ends ch

theorem Step.ends_fresh (hs : Step s i x e) : ∀ j ∈ e.fresh, j.ends ch →
    (∃ h c, i = .read h ∧ x = .message (.chunk c) ∧ c.chunk.done ∧
      (s.worker h).observers.lookup c.chunk.jobID = some ch) ∨ i.ends ch ∨
      ∃ c, i = .failForward ch c := by
  intro j hj hends
  have hleft := hs.leaves j hj
  cases j with
  | forwardLast h k c res =>
    obtain rfl := eq_of_beq hends
    obtain ⟨hi, hx, hd, hobs, -⟩ := hleft
    exact .inl ⟨h, c, hi, hx, hd, hobs⟩
  | closeLast h k res =>
    obtain ⟨c, rfl⟩ := hleft
    exact .inr (.inl hends)
  | failClose k =>
    obtain rfl := eq_of_beq hends
    exact .inr (.inr hleft)
  | _ => cases hends

theorem Step.ended_cases (hs : Step s i x e) (hend : Ended e.shared (e.fresh + R) ch) :
    Ended s (i ::ₘ R) ch ∨ (∃ h c, i = .read h ∧ x = .message (.chunk c) ∧ c.chunk.done ∧
      (s.worker h).observers.lookup c.chunk.jobID = some ch) ∨ ∃ c, i = .failForward ch c := by
  rcases hend with hclosed | ⟨j, hj, hends⟩
  · rcases hs.closed_cases ch with hsame | ⟨hshuts, -⟩
    · exact .inl (.inl (hsame ▸ hclosed))
    · exact .inl (.inr ⟨i, Multiset.mem_cons_self i R, Instr.ends_of_shuts hshuts⟩)
  · rcases Multiset.mem_add.mp hj with hj | hj
    · rcases hs.ends_fresh j hj hends with htake | hi | hfail
      · exact .inr (.inl htake)
      · exact .inl (.inr ⟨i, Multiset.mem_cons_self i R, hi⟩)
      · exact .inr (.inr hfail)
    · exact .inl (.inr ⟨j, Multiset.mem_cons_of_mem hj, hends⟩)

theorem Step.buffer_cases (hs : Step s i x e) {jobID : String}
    (hl : (e.shared.worker h).observers.lookup jobID = some ch) :
    ((s.worker h).observers.lookup jobID = some ch ∧
      (e.shared.worker h).streams.lookup jobID = (s.worker h).streams.lookup jobID) ∨
    (∃ c, i = .read h ∧ x = .message (.chunk c) ∧ jobID = c.chunk.jobID ∧ c.chunk.done = false ∧
      (s.worker h).observers.lookup jobID = some ch ∧
      e.shared.worker h = (s.worker h).append c) ∨
    ∃ job, i = .addObserver h job ∧ jobID = job.id ∧ ch = s.nextChan ∧
      (e.shared.worker h).streams = (s.worker h).streams := by
  have hframe {k : ℕ} {w : Worker} (hworker : e.shared.worker = Function.update s.worker k w)
      (hw : h = k → w.observers.lookup jobID = some ch →
        (s.worker k).observers.lookup jobID = some ch ∧
          w.streams.lookup jobID = (s.worker k).streams.lookup jobID) :
      (s.worker h).observers.lookup jobID = some ch ∧
        (e.shared.worker h).streams.lookup jobID = (s.worker h).streams.lookup jobID := by
    rw [hworker] at hl ⊢
    by_cases hk : h = k
    · subst hk
      rw [Function.update_self] at hl ⊢
      exact hw rfl hl
    · rw [Function.update_of_ne hk] at hl ⊢
      exact ⟨hl, rfl⟩
  have herase {k : ℕ} {id : String} (hl : ((s.worker k).observers.erase id).lookup jobID = some ch) :
      jobID ≠ id := by
    rintro rfl
    simp at hl
  induction hs with
  | register =>
    refine .inl (hframe rfl fun _ hl ↦ ?_)
    simp at hl
  | fail =>
    refine .inl (hframe rfl fun _ hl ↦ ?_)
    simp [Worker.takeAll] at hl
  | @lastChunk k c | @lastChunkObserved k _ c =>
    exact .inl (hframe rfl fun _ hl ↦
      ⟨Table.lookup_of_erase hl, AList.lookup_erase_ne (herase hl)⟩)
  | relayGone | emitGone => exact .inl (hframe rfl fun _ hl ↦ ⟨Table.lookup_of_erase hl, rfl⟩)
  | @chunk k c hd hobs =>
    refine .inl (hframe rfl fun _ hl ↦ ⟨hl, AList.lookup_insert_ne ?_⟩)
    rintro rfl
    cases hobs.symm.trans hl
  | @chunkObserved k k' c hd hobs =>
    by_cases hid : h = k ∧ jobID = c.chunk.jobID
    · obtain ⟨rfl, rfl⟩ := hid
      rw [Server.setWorker_self] at hl
      exact .inr (.inl ⟨c, rfl, rfl, rfl, hd, hl, Server.setWorker_self⟩)
    · exact .inl (hframe rfl fun hk hl ↦ ⟨hl, AList.lookup_insert_ne fun h ↦ hid ⟨hk, h⟩⟩)
  | addObserver k job =>
    by_cases hk : h = k
    · subst hk
      rw [Server.setWorker_self] at hl ⊢
      rcases Table.lookup_insert_cases hl with ⟨rfl, rfl⟩ | hold
      · exact .inr (.inr ⟨job, rfl, rfl, rfl, rfl⟩)
      · exact .inl ⟨hold, rfl⟩
    · rw [Server.setWorker_of_ne hk] at hl ⊢
      exact .inl ⟨hl, rfl⟩
  | _ =>
    first
    | exact .inl ⟨hl, rfl⟩
    | exact .inl (hframe rfl fun _ hl ↦ ⟨hl, rfl⟩)

def Instr.FailsLast : Instr → Prop
  | .failForward _ c => c.chunk.done ∧ c.chunk.err ≠ none
  | _ => True

theorem Step.failsLast_fresh (hs : Step s i x e) : ∀ j ∈ e.fresh, j.FailsLast := by
  intro j hj
  have hleft := hs.leaves j hj
  cases j with
  | failForward k c =>
    obtain ⟨h, cause, id, -, -, rfl⟩ := hleft
    exact ⟨rfl, Option.some_ne_none _⟩
  | _ => trivial

/-- What an observer channel has got, and what the reader has in hand for it, are its chunks in
order and without gaps; the last of them is terminal once the channel is to be closed. -/
structure Fed (s : Server) (l : Feeds) (S : Multiset Instr) (ch : ℕ) : Prop where
  held : ∀ j ∈ S, ∀ c, j.carries ch = some c → (l.feed ch).hand = [c]
  carried : ∀ c ∈ (l.feed ch).hand, ∃ j ∈ S, j.carries ch = some c
  ordered : (l.feed ch).overtaken = false →
    ((s.observed ch).sent ++ (l.feed ch).hand).Sublist (l.feed ch).chunks
  complete : (l.feed ch).overtaken = false → (l.feed ch).dropped = false →
    (s.observed ch).sent ++ (l.feed ch).hand = (l.feed ch).chunks
  idle : (l.feed ch).overtaken = false → ((s.observed ch).closed ∨ ∃ j ∈ S, j.shuts ch) →
    (l.feed ch).hand = []
  ended : Ended s S ch → ∃ c, (l.feed ch).chunks.getLast? = some c ∧ c.chunk.done ∧
    (c.chunk.err = none → (l.feed ch).output = some (deltas (l.feed ch).chunks))
  buffer : ∀ h jobID, (s.worker h).observers.lookup jobID = some ch →
    (((s.worker h).streams.lookup jobID).getD {}).output = deltas (l.feed ch).chunks
  unused : s.nextChan ≤ ch → l.feed ch = {}

section

theorem not_ended_of_observing
    (honce : S.countP (·.closes ch) + s.observing ch + (s.observed ch).closed.toNat ≤ 1)
    (hobs : 0 < s.observing ch) : ¬ Ended s S ch := by
  rintro (hclosed | ⟨j, hj, hends⟩)
  · rw [hclosed, Bool.toNat_true] at honce
    omega
  · have hpos : 0 < S.countP (·.closes ch) :=
      Multiset.countP_pos.mpr ⟨j, hj, Instr.closes_of_ends hends⟩
    omega

theorem Homed.observing_pos (hI : Homed s) {jobID : String}
    (hl : (s.worker h).observers.lookup jobID = some ch) : 0 < s.observing ch := by
  refine Table.tally_pos_iff.mpr ⟨jobID, ch, ?_, beq_self_eq_true ch⟩
  rwa [(hI.observers h jobID ch hl).2]

theorem observing_of_failForward {c : Produced}
    (honce : (Instr.failForward ch c ::ₘ R).countP (·.closes ch) + s.observing ch +
      (s.observed ch).closed.toNat ≤ 1) : s.observing ch = 0 := by
  have hi : (Instr.failForward ch c).closes ch := beq_self_eq_true ch
  rw [Multiset.countP_cons, if_pos hi] at honce
  omega

theorem Instr.home_of_carries {j : Instr} {c : Produced} (hj : j.Homed s)
    (hc : j.carries ch = some c) : ch < s.nextChan ∧ j.connOf (s.home ch) := by
  cases j with
  | forward k k' _ | forwardLast k k' _ _ =>
    obtain rfl : k' = ch := by
      by_contra hne
      rw [Instr.carries, if_neg hne] at hc
      cases hc
    exact ⟨hj.1, by simp [Instr.connOf, Instr.handlerOf, Instr.readerOf, hj.2]⟩
  | _ => cases hc

theorem carries_eq_none (hJ : ∀ j ∈ i ::ₘ R, j.Homed s)
    (hconn : (i ::ₘ R).countP (·.connOf (s.home ch)) ≤ 1) (hi : i.connOf (s.home ch)) :
    ∀ j ∈ R, j.carries ch = none := by
  intro j hj
  refine Option.eq_none_iff_forall_ne_some.mpr fun c hc ↦ ?_
  have hpos : 0 < R.countP (·.connOf (s.home ch)) :=
    Multiset.countP_pos.mpr
      ⟨j, hj, (Instr.home_of_carries (hJ j (Multiset.mem_cons_of_mem hj)) hc).2⟩
  rw [Multiset.countP_cons, if_pos hi] at hconn
  omega

theorem handleMessage_carries {c : Produced}
    (hobs : (s.worker h).observers.lookup c.chunk.jobID = some ch) :
    ∃ j ∈ (handleMessage s h (.chunk c)).fresh, j.carries ch = some c ∧ j.shuts ch = false := by
  cases hd : c.chunk.done with
  | true =>
    exact ⟨.forwardLast h ch c ((s.worker h).assemble c), by simp [handleMessage, hd, hobs],
      if_pos rfl, rfl⟩
  | false => exact ⟨.forward h ch c, by simp [handleMessage, hd, hobs], if_pos rfl, rfl⟩

theorem Step.shuts_fresh (hs : Step s i x e) : ∀ j ∈ e.fresh, j.shuts ch →
    (∃ c, i.carries ch = some c) ∨ ∃ c, i = .failForward ch c := by
  intro j hj hshuts
  have hleft := hs.leaves j hj
  cases j with
  | closeLast h k res =>
    obtain ⟨c, rfl⟩ := hleft
    exact .inl ⟨c, if_pos (eq_of_beq hshuts)⟩
  | failClose k =>
    obtain rfl := eq_of_beq hshuts
    exact .inr hleft
  | _ => cases hshuts

theorem Step.shut_cases (hs : Step s i x e) (hi : i.carries ch = none)
    (hfail : ∀ c, i ≠ .failForward ch c)
    (hshut : (e.shared.observed ch).closed ∨ ∃ j ∈ e.fresh + R, j.shuts ch) :
    (s.observed ch).closed ∨ ∃ j ∈ i ::ₘ R, j.shuts ch := by
  rcases hshut with hclosed | ⟨j, hj, hshuts⟩
  · rcases hs.closed_cases ch with hsame | ⟨hshuts, -⟩
    · exact .inl (hsame ▸ hclosed)
    · exact .inr ⟨i, Multiset.mem_cons_self i R, hshuts⟩
  · rcases Multiset.mem_add.mp hj with hj | hj
    · rcases hs.shuts_fresh j hj hshuts with ⟨c, hc⟩ | ⟨c, hc⟩
      · cases hi.symm.trans hc
      · exact absurd hc (hfail c)
    · exact .inr ⟨j, Multiset.mem_cons_of_mem hj, hshuts⟩

variable {l : Feeds}

theorem Fed.rest (hF : Fed s l (i ::ₘ R) ch) (hs : Step s i x e) (hi : i.carries ch = none)
    (hfail : ∀ c, i ≠ .failForward ch c)
    (htake : ∀ h c, i = .read h → x = .message (.chunk c) →
      (s.worker h).observers.lookup c.chunk.jobID ≠ some ch)
    (hnew : ∀ h job, i = .addObserver h job → (s.worker h).streams.lookup job.id = none)
    (hfeed : (l.note s i x).feed ch = l.feed ch)
    (hsent : (e.shared.observed ch).sent = (s.observed ch).sent) :
    Fed e.shared (l.note s i x) (e.fresh + R) ch := by
  constructor
  case held =>
    intro j hj c hc
    rw [hfeed]
    rcases Multiset.mem_add.mp hj with hj | hj
    · obtain ⟨h, hread, hx, hl⟩ := hs.carries_fresh j hj c hc
      exact absurd hl (htake h c hread hx)
    · exact hF.held j (Multiset.mem_cons_of_mem hj) c hc
  case carried =>
    intro c hc
    rw [hfeed] at hc
    obtain ⟨j, hj, hjc⟩ := hF.carried c hc
    rcases Multiset.mem_cons.mp hj with rfl | hj
    · cases hi.symm.trans hjc
    · exact ⟨j, Multiset.mem_add.mpr (.inr hj), hjc⟩
  case ordered =>
    rw [hfeed, hsent]
    exact hF.ordered
  case complete =>
    rw [hfeed, hsent]
    exact hF.complete
  case idle =>
    rw [hfeed]
    exact fun hover hshut ↦ hF.idle hover (hs.shut_cases hi hfail hshut)
  case ended =>
    intro hend
    rw [hfeed]
    rcases hs.ended_cases hend with hend | ⟨h, c, hread, hx, -, hl⟩ | ⟨c, hc⟩
    · exact hF.ended hend
    · exact absurd hl (htake h c hread hx)
    · exact absurd hc (hfail c)
  case buffer =>
    intro h jobID hl
    rw [hfeed]
    rcases hs.buffer_cases hl with ⟨hold, hsame⟩ | ⟨c, hread, hx, rfl, -, hold, -⟩ |
      ⟨job, hadd, rfl, rfl, hsame⟩
    · rw [hsame]
      exact hF.buffer h jobID hold
    · exact absurd hold (htake h c hread hx)
    · rw [hsame, hnew h job hadd, hF.unused le_rfl]
      rfl
  case unused =>
    intro hch
    rw [hfeed]
    by_contra hne
    have hlt : ch < s.nextChan := by
      by_contra hge
      exact hne (hF.unused (not_lt.mp hge))
    exact absurd (hs.chan_stable hlt).1 (not_lt.mpr hch)

theorem Fed.take {c : Produced} (hF : Fed s l (.read h ::ₘ R) ch)
    (hobs : (s.worker h).observers.lookup c.chunk.jobID = some ch)
    (hend : ¬ Ended s (.read h ::ₘ R) ch) (hnone : ∀ j ∈ R, j.carries ch = none)
    (hid : ∀ k jobID, (s.worker k).observers.lookup jobID = some ch →
      k = h ∧ jobID = c.chunk.jobID) (hch : ch < s.nextChan)
    (hs : Step s (.read h) (.message (.chunk c)) e) (he : e = handleMessage s h (.chunk c))
    (hfeed : (l.note s (.read h) (.message (.chunk c))).feed ch = (l.feed ch).take (s.worker h) c)
    (hsame : e.shared.observed ch = s.observed ch) :
    Fed e.shared (l.note s (.read h) (.message (.chunk c))) (e.fresh + R) ch := by
  have hhand : (l.feed ch).hand = [] := by
    refine List.eq_nil_iff_forall_not_mem.mpr fun c' hc' ↦ ?_
    obtain ⟨j, hj, hjc⟩ := hF.carried c' hc'
    rcases Multiset.mem_cons.mp hj with rfl | hj
    · cases hjc
    · cases (hnone j hj).symm.trans hjc
  obtain ⟨j₀, hj₀, hcarry, -⟩ := handleMessage_carries hobs
  constructor
  case held =>
    intro j hj c' hc'
    rw [hfeed]
    rcases Multiset.mem_add.mp hj with hj | hj
    · obtain ⟨k, -, hx, -⟩ := hs.carries_fresh j hj c' hc'
      cases hx
      rfl
    · cases (hnone j hj).symm.trans hc'
  case carried =>
    intro c' hc'
    rw [hfeed] at hc'
    obtain rfl : c' = c := List.mem_singleton.mp hc'
    exact ⟨j₀, Multiset.mem_add.mpr (.inl (he ▸ hj₀)), hcarry⟩
  case ordered =>
    rw [hfeed, hsame]
    intro hover
    have hold := hF.ordered hover
    rw [hhand, List.append_nil] at hold
    exact hold.append_right [c]
  case complete =>
    rw [hfeed, hsame]
    intro hover hdrop
    have hold := hF.complete hover hdrop
    rw [hhand, List.append_nil] at hold
    exact congrArg (· ++ [c]) hold
  case idle =>
    intro _ hshut
    refine absurd ?_ hend
    rcases hs.shut_cases rfl (fun _ h ↦ Instr.noConfusion h) hshut with hclosed | ⟨j, hj, hshuts⟩
    · exact .inl hclosed
    · exact .inr ⟨j, hj, Instr.ends_of_shuts hshuts⟩
  case ended =>
    intro hend'
    rcases hs.ended_cases hend' with hold | ⟨k, c', hk, hx, hd, -⟩ | ⟨_, hc⟩
    · exact absurd hold hend
    · cases hx
      refine ⟨c, by rw [hfeed]; exact List.getLast?_concat, hd, fun herr ↦ ?_⟩
      have hb := hF.buffer h c.chunk.jobID hobs
      rw [hfeed]
      simp [Feed.take, hd, Worker.assemble, herr, hb]
    · cases hc
  case buffer =>
    intro k jobID hl
    have hold := (hs.observer_cases hl).resolve_right fun ⟨_, hadd, _⟩ ↦ Instr.noConfusion hadd
    obtain ⟨rfl, rfl⟩ := hid k jobID hold
    have hb := hF.buffer k c.chunk.jobID hold
    rw [hfeed]
    cases hd : c.chunk.done with
    | false =>
      have happend : e.shared.worker k = (s.worker k).append c := by simp [he, handleMessage, hd]
      rw [happend]
      simp [Worker.append, Feed.take, hb]
    | true =>
      have hfinish : e.shared.worker k = (s.worker k).finish c := by simp [he, handleMessage, hd]
      rw [hfinish] at hl
      simp [Worker.finish] at hl
  case unused => exact fun hle ↦ absurd (hs.chan_stable hch).1 (not_lt.mpr hle)

theorem trySend_sent (chan : Chan Produced) (c : Produced) :
    (chan.send c).isNone ∧ (chan.trySend c).sent = chan.sent ∨
      (chan.send c).isNone = false ∧ (chan.trySend c).sent = chan.sent ++ [c] := by
  unfold Chan.trySend
  cases hsend : chan.send c with
  | none => exact .inl ⟨rfl, rfl⟩
  | some c' => exact .inr ⟨rfl, (Chan.send_some hsend).2.1⟩

theorem Fed.forward {c : Produced} (hF : Fed s l (i ::ₘ R) ch) (hi : i.carries ch = some c)
    (hnone : ∀ j ∈ R, j.carries ch = none) (hch : ch < s.nextChan) (hs : Step s i x e)
    (hfeed : (l.note s i x).feed ch = (l.feed ch).forward (s.observed ch) c)
    (hsend : e.shared.observed ch = (s.observed ch).trySend c) :
    Fed e.shared (l.note s i x) (e.fresh + R) ch := by
  have hhand : (l.feed ch).hand = [c] := hF.held i (Multiset.mem_cons_self i R) c hi
  have hread (h : ℕ) : i ≠ .read h := by
    rintro rfl
    cases hi
  constructor
  case held =>
    intro j hj c' hc'
    rcases Multiset.mem_add.mp hj with hj | hj
    · obtain ⟨h, hh, -⟩ := hs.carries_fresh j hj c' hc'
      exact absurd hh (hread h)
    · cases (hnone j hj).symm.trans hc'
  case carried =>
    rw [hfeed]
    exact fun c' hc' ↦ absurd hc' (List.not_mem_nil)
  case ordered =>
    rw [hfeed, hsend]
    intro hover
    have hold := hF.ordered hover
    rw [hhand] at hold
    simp only [Feed.forward, List.append_nil]
    rcases trySend_sent (s.observed ch) c with ⟨-, hsent⟩ | ⟨-, hsent⟩
    · rw [hsent]
      exact (List.sublist_append_left ..).trans hold
    · rwa [hsent]
  case complete =>
    rw [hfeed, hsend]
    intro hover hdrop
    obtain ⟨hdrop, hsome⟩ := Bool.or_eq_false_iff.mp hdrop
    have hold := hF.complete hover hdrop
    rw [hhand] at hold
    simp only [Feed.forward, List.append_nil]
    rcases trySend_sent (s.observed ch) c with ⟨hfull, -⟩ | ⟨-, hsent⟩
    · cases hfull.symm.trans hsome
    · rwa [hsent]
  case idle =>
    rw [hfeed]
    exact fun _ _ ↦ rfl
  case ended =>
    intro hend
    rw [hfeed]
    rcases hs.ended_cases hend with hold | ⟨h, _, hh, -⟩ | ⟨_, rfl⟩
    · exact hF.ended hold
    · exact absurd hh (hread h)
    · cases hi
  case buffer =>
    intro k jobID hl
    rw [hfeed]
    rcases hs.buffer_cases hl with ⟨hold, hsame⟩ | ⟨_, hh, -⟩ | ⟨_, rfl, -⟩
    · rw [hsame]
      exact hF.buffer k jobID hold
    · exact absurd hh (hread k)
    · cases hi
  case unused => exact fun hle ↦ absurd (hs.chan_stable hch).1 (not_lt.mpr hle)

theorem Fed.fail {c : Produced} (hF : Fed s l (.failForward ch c ::ₘ R) ch)
    (hobs : s.observing ch = 0) (hlast : (Instr.failForward ch c).FailsLast) (hI : Homed s) (hch : ch < s.nextChan)
    (hs : Step s (.failForward ch c) x e)
    (hfeed : (l.note s (.failForward ch c) x).feed ch = (l.feed ch).fail (s.observed ch) c)
    (hsend : e.shared.observed ch = (s.observed ch).trySend c) :
    Fed e.shared (l.note s (.failForward ch c) x) (e.fresh + R) ch := by
  have hhand (hover : ((l.feed ch).fail (s.observed ch) c).overtaken = false) :
      (l.feed ch).overtaken = false ∧ (l.feed ch).hand = [] := by
    simpa [Feed.fail] using hover
  constructor
  case held =>
    intro j hj c' hc'
    rw [hfeed]
    rcases Multiset.mem_add.mp hj with hj | hj
    · obtain ⟨h, hh, -⟩ := hs.carries_fresh j hj c' hc'
      cases hh
    · exact hF.held j (Multiset.mem_cons_of_mem hj) c' hc'
  case carried =>
    rw [hfeed]
    intro c' hc'
    obtain ⟨j, hj, hjc⟩ := hF.carried c' hc'
    rcases Multiset.mem_cons.mp hj with rfl | hj
    · cases hjc
    · exact ⟨j, Multiset.mem_add.mpr (.inr hj), hjc⟩
  case ordered =>
    rw [hfeed, hsend]
    intro hover
    obtain ⟨hover, hnil⟩ := hhand hover
    have hold := hF.ordered hover
    rw [hnil, List.append_nil] at hold
    simp only [Feed.fail, hnil, List.append_nil]
    rcases trySend_sent (s.observed ch) c with ⟨-, hsent⟩ | ⟨-, hsent⟩
    · rw [hsent]
      exact hold.trans (List.sublist_append_left ..)
    · rw [hsent]
      exact hold.append_right [c]
  case complete =>
    rw [hfeed, hsend]
    intro hover hdrop
    obtain ⟨hover, hnil⟩ := hhand hover
    obtain ⟨hdrop, hsome⟩ := Bool.or_eq_false_iff.mp hdrop
    have hold := hF.complete hover hdrop
    rw [hnil, List.append_nil] at hold
    simp only [Feed.fail, hnil, List.append_nil]
    rcases trySend_sent (s.observed ch) c with ⟨hfull, -⟩ | ⟨-, hsent⟩
    · cases hfull.symm.trans hsome
    · rw [hsent, hold]
  case idle =>
    rw [hfeed]
    exact fun hover _ ↦ (hhand hover).2
  case ended =>
    intro _
    rw [hfeed]
    exact ⟨c, List.getLast?_concat, hlast.1, fun herr ↦ absurd herr hlast.2⟩
  case buffer =>
    intro k jobID hl
    have hold := (hs.observer_cases hl).resolve_right fun ⟨_, hadd, _⟩ ↦ Instr.noConfusion hadd
    have hpos := hI.observing_pos hold
    omega
  case unused => exact fun hle ↦ absurd (hs.chan_stable hch).1 (not_lt.mpr hle)

theorem Fed.step (hF : Fed s l (i ::ₘ R) ch) (he : controlPlane.exec s i x = some e)
    (hI : Homed s) (hJ : ∀ j ∈ i ::ₘ R, j.Homed s) (hwired : Wired s)
    (hconn : ∀ h, (i ::ₘ R).countP (·.connOf h) ≤ 1)
    (honce : (i ::ₘ R).countP (·.closes ch) + s.observing ch + (s.observed ch).closed.toNat ≤ 1)
    (hlast : i.FailsLast)
    (hnew : ∀ h job, i = .addObserver h job → (s.worker h).streams.lookup job.id = none) :
    Fed e.shared (l.note s i x) (e.fresh + R) ch := by
  have hs := step_of_exec he
  have hself := hJ i (Multiset.mem_cons_self i R)
  cases feedStep_of_exec he l ch with
  | rest hi hfail htake hfeed hsent => exact hF.rest hs hi hfail htake hnew hfeed hsent
  | take h c hi hx hobs hfeed hsame =>
    subst hi hx
    obtain ⟨hch, hhome⟩ := hI.observers h _ ch hobs
    have hreader : (Instr.read h).connOf (s.home ch) := by
      simp [Instr.connOf, Instr.handlerOf, Instr.readerOf, hhome]
    refine hF.take hobs (not_ended_of_observing honce (hI.observing_pos hobs))
      (carries_eq_none hJ (hconn _) hreader) (fun k jobID hl ↦ ⟨?_, ?_⟩) hch hs ?_ hfeed hsame
    · exact (hI.observers k jobID ch hl).2.symm.trans hhome
    · exact (hwired.observers k jobID ch hl).2.symm.trans (hwired.observers h _ ch hobs).2
    · rcases exec_read_cases he with ⟨m, hm, rfl⟩ | ⟨hx, -⟩
      · cases hm
        rfl
      · exact absurd rfl (hx _)
  | forward c hi hfeed hsend =>
    obtain ⟨hch, hconn'⟩ := Instr.home_of_carries hself hi
    exact hF.forward hi (carries_eq_none hJ (hconn _) hconn') hch hs hfeed hsend
  | fail c hi hfeed hsend =>
    subst hi
    exact hF.fail (observing_of_failForward honce) hlast hI hself hs hfeed hsend

end

section

variable {t : Time} {d : Duration} {n : ℕ}

theorem failsLast_of_reaches {c : Config Server Instr}
    (hc : controlPlane.Reaches (boot (new t d n)) c) : ∀ j ∈ c.soup, j.FailsLast := by
  refine (hc.local_invariant (fun _ ↦ True) (fun _ j ↦ j.FailsLast) trivial ?_ ?_ ?_).2
  · simp [boot, Config.soup, Instr.FailsLast]
  · exact fun c i x e _ _ _ he ↦ ⟨trivial, (step_of_exec he).failsLast_fresh⟩
  · exact fun _ _ _ _ _ _ _ _ _ _ hj ↦ hj

def Proper (c : Config (Server × Feeds) Instr) (i : Instr) (x : Choice) : Prop :=
  Honest c.erase i x ∧ FreshID c.erase i x

instance (c : Config (Server × Feeds) Instr) (i : Instr) (x : Choice) : Decidable (Proper c i x) :=
  inferInstanceAs (Decidable (_ ∧ _))

variable {c : Config (Server × Feeds) Instr}

theorem runs_of_proper
    (hc : (controlPlane.record Feeds.note).Runs Proper ((boot (new t d n)).logging {}) c) :
    controlPlane.Runs (fun c i x ↦ Honest c i x ∧ FreshID c i x) (boot (new t d n)) c.erase := by
  have hrun := Machine.Runs.erase (H := fun c i x ↦ Honest c i x ∧ FreshID c i x)
    (fun _ _ _ h ↦ h) hc
  exact hrun

theorem fed_of_runs
    (hc : (controlPlane.record Feeds.note).Runs Proper ((boot (new t d n)).logging {}) c) (ch : ℕ) :
    Fed c.shared.1 c.shared.2 c.soup ch := by
  have hrun := hc.strengthen fun c hc ↦ And.intro (homed_of_reaches hc.erase_reaches)
    (And.intro (wired_of_reaches hc.erase_reaches).1 (And.intro (conn_le_one hc.erase_reaches)
      (And.intro (closers_le_one hc.erase_reaches ch) (And.intro (failsLast_of_reaches hc.erase_reaches)
        (runs_of_proper hc)))))
  refine hrun.record_invariant (fun s l S ↦ Fed s l S ch) ?_ ?_
  · constructor <;> simp [boot, new, Config.logging, Config.soup, Instr.carries, Instr.shuts,
      Chan.make, Ended, Instr.ends]
  · intro c i x R e hsoup hF hg he
    obtain ⟨-, ⟨hI, hJ⟩, hwired, hconn, honce, hlast, hruns⟩ := hg
    rw [Config.erase_soup, hsoup] at hconn honce hJ
    refine hF.step he hI hJ hwired (fun h ↦ (hconn h).trans (by split <;> simp)) honce
      (hlast i (hsoup ▸ Multiset.mem_cons_self i R)) ?_
    rintro h job rfl
    have hself : .addObserver h job ∈ c.erase.soup := hsoup ▸ Multiset.mem_cons_self _ R
    have howned := ((owned_of_runs hruns).2.2 _ hself).1
    exact no_stream_of_hands hruns hself (beq_self_eq_true job.request)
      (howned _ (List.mem_singleton_self _)) h

end

end AgentGpu.ControlPlane
