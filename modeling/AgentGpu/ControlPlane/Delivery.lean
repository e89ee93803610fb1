import AgentGpu.Foundation.Schedules
import AgentGpu.ControlPlane.Feeds

namespace AgentGpu.ControlPlane

open Foundation

variable {s : Server} {i : Instr} {x : Choice} {e : Effect Server Instr} {l : Feeds} {r ch : ℕ}
  {R S : Multiset Instr}

namespace Instr

def opens (r : ℕ) : Instr → Bool
  | .pick _ job | .addObserver _ job => job.request == r
  | _ => false

def attaches (r : ℕ) : Instr → Bool
  | .addObserver _ job => job.request == r
  | _ => false

def conducts (r : ℕ) : Instr → Bool
  | .relay _ job _ | .emit _ job _ _ | .settle job | .closeOut job => job.request == r
  | _ => false

/-- The instruction moves chunks of request `r`, with observer channel `ch`, towards the
caller: reader, relay and HTTP handler. -/
def conveys (r ch : ℕ) : Instr → Bool
  | .relay _ job k | .emit _ job k _ => job.request == r && k == ch
  | .consume k => k == r
  | .forward _ k _ | .forwardLast _ k _ _ => k == ch
  | _ => false

theorem opens_of_attaches (hi : i.attaches r) : i.opens r := by
  cases i <;> first | exact hi | cases hi

end Instr

theorem Step.out_grows (hs : Step s i x e) (r : ℕ) : (s.out r).Grows (e.shared.out r) := by
  induction hs with
  | emit hc => exact Chan.Grows.update rfl (Chan.grows_of_send hc) r
  | closeOut => exact Chan.Grows.update rfl (Chan.grows_close _) r
  | consume hc _ | consumeError hc _ => exact Chan.Grows.update rfl (Chan.grows_of_recv hc) r
  | _ => exact .refl _

theorem Step.gone_kept (hs : Step s i x e) (hg : s.gone r) : e.shared.gone r := by
  have hset {k : ℕ} : Function.update s.gone k true r := by
    by_cases hk : r = k
    · simp [hk]
    · simpa [hk] using hg
  induction hs with
  | hangUp | consumeEnd | consumeError => exact hset
  | _ => exact hg

theorem Step.out_sent_cases (hs : Step s i x e) (r : ℕ) :
    (e.shared.out r).sent = (s.out r).sent ∨ ∃ h job ch c, i = .emit h job ch c ∧ job.request = r := by
  induction hs with
  | @emit job h ch c chan hc =>
    by_cases hr : r = job.request
    · exact .inr ⟨h, job, ch, c, rfl, hr.symm⟩
    · exact .inl (congrArg Chan.sent (Function.update_of_ne hr ..))
  | closeOut => exact .inl (Chan.proj_of_update Chan.sent rfl Chan.close_sent r)
  | consume hc _ | consumeError hc _ =>
    exact .inl (Chan.proj_of_update Chan.sent rfl (Chan.recv_some hc).2.1 r)
  | _ => exact .inl rfl

theorem Step.out_closed_cases (hs : Step s i x e) (r : ℕ) :
    (e.shared.out r).closed = (s.out r).closed ∨ ∃ job, i = .closeOut job ∧ job.request = r := by
  induction hs with
  | emit hc => exact .inl (Chan.proj_of_update Chan.closed rfl (Chan.send_some hc).2.2.2.1 r)
  | closeOut job =>
    by_cases hr : r = job.request
    · exact .inr ⟨job, rfl, hr.symm⟩
    · exact .inl (congrArg Chan.closed (Function.update_of_ne hr ..))
  | consume hc _ | consumeError hc _ =>
    exact .inl (Chan.proj_of_update Chan.closed rfl (Chan.recv_some hc).2.2.2.1 r)
  | _ => exact .inl rfl

theorem Step.taken_cases (hs : Step s i x e) (ch : ℕ) :
    (e.shared.observed ch).taken = (s.observed ch).taken ∨ ∃ h job, i = .relay h job ch := by
  induction hs with
  | forward | forwardLast | failForward =>
    exact .inl (Chan.proj_of_update Chan.taken rfl Chan.trySend_taken ch)
  | closeLast | failClose => exact .inl (Chan.proj_of_update Chan.taken rfl (by rfl) ch)
  | @relay job h k _ _ hc =>
    by_cases hk : ch = k
    · subst hk
      exact .inr ⟨h, job, rfl⟩
    · exact .inl (congrArg Chan.taken (Function.update_of_ne hk ..))
  | _ => exact .inl rfl

theorem Feeds.channel_note (r : ℕ) :
    (l.note s i x).channel r = l.channel r ∧ i.attaches r = false ∨
      ∃ h job, i = .addObserver h job ∧ job.request = r ∧
        (l.note s i x).channel r = some s.nextChan := by
  by_cases hadd : ∃ h job, i = .addObserver h job
  · obtain ⟨h, job, rfl⟩ := hadd
    by_cases hr : r = job.request
    · subst hr
      exact .inr ⟨h, job, rfl, rfl, Function.update_self ..⟩
    · exact .inl ⟨Function.update_of_ne hr .., beq_false_of_ne (Ne.symm hr)⟩
  · refine .inl ⟨?_, ?_⟩
    · unfold Feeds.note
      split
      · exact absurd ⟨_, _, rfl⟩ hadd
      · split <;> rfl
      all_goals rfl
    · cases i with
      | addObserver h job => exact absurd ⟨h, job, rfl⟩ hadd
      | _ => rfl

theorem Step.opens_fresh (hs : Step s i x e) (hsame : e.shared.requests = s.requests) (r : ℕ) :
    e.fresh.countP (·.opens r) + (if i.attaches r then 1 else 0) ≤ if i.opens r then 1 else 0 := by
  by_cases hadd : i.attaches r
  · have hopens := Instr.opens_of_attaches hadd
    induction hs with
    | addObserver =>
      rw [if_pos hadd, if_pos hopens, Effect.countP_fresh]
      simp [Instr.opens]
    | @quit i x hq => cases i <;> first | cases hadd | cases hq
    | _ => cases hadd
  · rw [if_neg hadd]
    refine hs.countP_fresh_le (fun j hj ↦ ?_) fun hi ↦ ?_
    · cases j <;> first | rfl | cases hj
    · induction hs with
      | request => exact absurd hsame (Nat.succ_ne_self _)
      | enter hj => cases hj.symm.trans hi
      | fail | markDraining | evictScan | failWaiters => cases hi
      | dequeue | addObserver | ack =>
        rw [Effect.countP_fresh]
        simp [Instr.opens]
      | _ =>
        first
        | exact Effect.countP_fresh_singleton_le rfl
        | exact Effect.countP_fresh_singleton_of_not rfl
        | exact Effect.countP_fresh_nil_le

theorem Step.opens_balance (hs : Step s i x e) (r : ℕ) :
    e.fresh.countP (·.opens r) + (if i.attaches r then 1 else 0) + (if r < s.requests then 1 else 0) ≤
      (if i.opens r then 1 else 0) + (if r < e.shared.requests then 1 else 0) := by
  refine hs.request_balance rfl (fun o job hp ↦ ?_) ?_ (hs.opens_fresh · r)
  · exact eq_of_beq hp
  · rintro rfl
    rfl

theorem Step.conducts_fresh (hs : Step s i x e) (r : ℕ) :
    e.fresh.countP (·.conducts r) ≤
      (if i.conducts r then 1 else 0) + if i.attaches r then 1 else 0 := by
  by_cases hadd : i.attaches r
  · rw [if_pos hadd]
    induction hs with
    | addObserver h job =>
      rw [Effect.countP_fresh]
      by_cases hr : job.request = r <;> simp [Instr.conducts, hr]
    | @quit i x hq => cases i <;> first | cases hadd | cases hq
    | _ => cases hadd
  · rw [if_neg hadd]
    refine hs.countP_fresh_le (fun j hj ↦ ?_) fun hi ↦ ?_
    · cases j <;> first | rfl | cases hj
    · induction hs with
      | enter hj => cases hj.symm.trans hi
      | fail | markDraining | evictScan | failWaiters => cases hi
      | addObserver h job =>
        have hr : job.request ≠ r := fun hr ↦ hadd (beq_iff_eq.mpr hr)
        rw [Effect.countP_fresh]
        simp [Instr.conducts, hr]
      | request | dequeue | ack =>
        rw [Effect.countP_fresh]
        simp [Instr.conducts]
      | _ =>
        first
        | exact Effect.countP_fresh_singleton_le rfl
        | exact Effect.countP_fresh_nil_le

def Copied (s : Server) (l : Feeds) (r ch : ℕ) : Prop :=
  (s.observed ch).closed ∧
    ((l.feed ch).overtaken = false → (s.out r).sent = (s.observed ch).sent)

def Instr.Relays (s : Server) (l : Feeds) : Instr → Prop
  | .relay _ job ch => l.channel job.request = some ch ∧
      (s.out job.request).sent = (s.observed ch).sent.take (s.observed ch).taken
  | .emit _ job ch c => l.channel job.request = some ch ∧
      (s.out job.request).sent ++ [c] = (s.observed ch).sent.take (s.observed ch).taken
  | .settle job => ∃ ch, l.channel job.request = some ch ∧ Copied s l job.request ch
  | .closeOut job => s.gone job.request ∨
      ∃ ch, l.channel job.request = some ch ∧ Copied s l job.request ch
  | _ => True

/-- Every streaming request has one observer channel and one goroutine that copies it, and as
long as its context is live it has a reader of `out`. -/
structure Relayed (s : Server) (l : Feeds) (S : Multiset Instr) : Prop where
  once : ∀ r, S.countP (·.opens r) + (l.channel r).isSome.toNat ≤ if r < s.requests then 1 else 0
  conductor : ∀ r, S.countP (·.conducts r) + (s.out r).closed.toNat ≤ (l.channel r).isSome.toNat
  conducted : ∀ r, (l.channel r).isSome → (∃ j ∈ S, j.conducts r) ∨ (s.out r).closed
  consumed : ∀ r, (l.channel r).isSome → s.gone r ∨ .consume r ∈ S
  copies : ∀ j ∈ S, j.Relays s l
  closed : ∀ r, (s.out r).closed → s.gone r ∨ ∃ ch, l.channel r = some ch ∧ Copied s l r ch
  unopened : ∀ r, l.channel r = none → (s.out r).sent = []
  known : ∀ r ch, l.channel r = some ch → ch < s.nextChan

section

variable (hR : Relayed s l (i ::ₘ R))
include hR

theorem Relayed.channel_none (hi : i.opens r) : l.channel r = none := by
  have honce := hR.once r
  rw [Multiset.countP_cons, if_pos hi] at honce
  have hle : (if r < s.requests then 1 else 0) ≤ 1 := by split <;> simp
  cases hch : l.channel r with
  | none => rfl
  | some ch =>
    rw [hch, Option.isSome_some, Bool.toNat_true] at honce
    omega

theorem Relayed.channel_kept (hch : l.channel r = some ch) : (l.note s i x).channel r = some ch := by
  rcases Feeds.channel_note (s := s) (i := i) (x := x) (l := l) r with
    ⟨hsame, -⟩ | ⟨h, job, rfl, rfl, -⟩
  · rwa [hsame]
  · cases (hR.channel_none (beq_self_eq_true job.request)).symm.trans hch

theorem Relayed.conducts_alone (hi : i.conducts r) :
    (∀ j ∈ R, j.conducts r = false) ∧ (s.out r).closed = false := by
  have hone := hR.conductor r
  rw [Multiset.countP_cons, if_pos hi] at hone
  have hle := Bool.toNat_le (l.channel r).isSome
  refine ⟨fun j hj ↦ ?_, ?_⟩
  · refine Bool.eq_false_iff.mpr fun hjc ↦ ?_
    have hpos : 0 < R.countP (·.conducts r) := Multiset.countP_pos.mpr ⟨j, hj, hjc⟩
    omega
  · cases hclosed : (s.out r).closed with
    | false => rfl
    | true =>
      rw [hclosed, Bool.toNat_true] at hone
      omega

theorem Relayed.out_sent (hs : Step s i x e)
    (hbusy : (∃ j ∈ R, j.conducts r) ∨ (s.out r).closed ∨ l.channel r = none ∨ i.conducts r = false) :
    (e.shared.out r).sent = (s.out r).sent := by
  rcases hs.out_sent_cases r with hsame | ⟨h, job, ch, c, rfl, hr⟩
  · exact hsame
  · have hi : (Instr.emit h job ch c).conducts r := beq_iff_eq.mpr hr
    obtain ⟨halone, hopen⟩ := hR.conducts_alone hi
    rcases hbusy with ⟨j, hj, hjc⟩ | hclosed | hnone | hno
    · cases (halone j hj).symm.trans hjc
    · cases hopen.symm.trans hclosed
    · have hone := hR.conductor r
      rw [Multiset.countP_cons, if_pos hi, hnone, Option.isSome_none, Bool.toNat_false] at hone
      omega
    · cases hno.symm.trans hi

end

theorem Feeds.overtaken_note (he : controlPlane.exec s i x = some e)
    (hnot : ((l.note s i x).feed ch).overtaken = false) : (l.feed ch).overtaken = false := by
  cases feedStep_of_exec he l ch with
  | rest _ _ _ hfeed _ => rwa [hfeed] at hnot
  | take _ _ _ _ _ hfeed _ => rwa [hfeed] at hnot
  | forward _ _ hfeed _ => rwa [hfeed] at hnot
  | fail _ _ hfeed _ =>
    rw [hfeed] at hnot
    exact (Bool.or_eq_false_iff.mp hnot).1

theorem Copied.step (hcopied : Copied s l r ch) (hF : Fed s l (i ::ₘ R) ch)
    (he : controlPlane.exec s i x = some e)
    (honce : (i ::ₘ R).countP (·.closes ch) + s.observing ch + (s.observed ch).closed.toNat ≤ 1)
    (hout : (e.shared.out r).sent = (s.out r).sent) : Copied e.shared (l.note s i x) r ch := by
  obtain ⟨hclosed, hsent⟩ := hcopied
  refine ⟨((step_of_exec he).observed_grows ch).closed hclosed, fun hover ↦ ?_⟩
  have hover := Feeds.overtaken_note he hover
  rw [hout, hsent hover]
  cases feedStep_of_exec he l ch with
  | rest _ _ _ _ hsame => exact hsame.symm
  | take _ _ _ _ _ _ hsame => rw [hsame]
  | forward c hi _ _ =>
    -- the reader has nothing in hand for a closed channel
    have hhand := hF.held i (Multiset.mem_cons_self i R) c hi
    rw [hF.idle hover (.inl hclosed)] at hhand
    cases hhand
  | fail c hi _ _ =>
    subst hi
    have hi : (Instr.failForward ch c).closes ch := beq_self_eq_true ch
    rw [Multiset.countP_cons, if_pos hi, hclosed, Bool.toNat_true] at honce
    omega

section

variable (hR : Relayed s l (i ::ₘ R)) (hF : ∀ ch, Fed s l (i ::ₘ R) ch)
  (he : controlPlane.exec s i x = some e)
  (honce : ∀ ch, (i ::ₘ R).countP (·.closes ch) + s.observing ch + (s.observed ch).closed.toNat ≤ 1)
  (htakes : ∀ ch, (i ::ₘ R).countP (·.takes ch) ≤ 1)

theorem take_of_grows {c c' : Chan Produced} (h : c.Grows c') :
    c'.sent.take c.taken = c.sent.take c.taken := by
  obtain ⟨rest, hrest⟩ := h.sent
  rw [← hrest, List.take_append_of_le_length c.taken_le]

include hR hF he honce htakes in
theorem Relayed.copies_stable {j : Instr} (hj : j ∈ R) : j.Relays e.shared (l.note s i x) := by
  have hs := step_of_exec he
  have hold := hR.copies j (Multiset.mem_cons_of_mem hj)
  have hcopied {r ch : ℕ} (hjr : j.conducts r) (h : Copied s l r ch) :
      Copied e.shared (l.note s i x) r ch :=
    h.step (hF ch) he (honce ch) (hR.out_sent hs (.inl ⟨j, hj, hjr⟩))
  have htaken {ch : ℕ} (hjt : j.takes ch) :
      (e.shared.observed ch).sent.take (e.shared.observed ch).taken =
        (s.observed ch).sent.take (s.observed ch).taken := by
    rcases hs.taken_cases ch with hsame | ⟨h, job, rfl⟩
    · rw [hsame, take_of_grows (hs.observed_grows ch)]
    · have hle := htakes ch
      have hi : (Instr.relay h job ch).takes ch := beq_self_eq_true ch
      have hpos : 0 < R.countP (·.takes ch) := Multiset.countP_pos.mpr ⟨j, hj, hjt⟩
      rw [Multiset.countP_cons, if_pos hi] at hle
      omega
  cases j with
  | relay _ job k | emit _ job k _ =>
    refine ⟨hR.channel_kept hold.1, ?_⟩
    rw [hR.out_sent hs (.inl ⟨_, hj, beq_self_eq_true job.request⟩), htaken (beq_self_eq_true k)]
    exact hold.2
  | settle job =>
    obtain ⟨ch, hch, hc⟩ := hold
    exact ⟨ch, hR.channel_kept hch, hcopied (beq_self_eq_true job.request) hc⟩
  | closeOut job =>
    refine hold.imp hs.gone_kept ?_
    rintro ⟨ch, hch, hc⟩
    exact ⟨ch, hR.channel_kept hch, hcopied (beq_self_eq_true job.request) hc⟩
  | _ => trivial

theorem Relays.of_not_conducts {j : Instr} (hj : ∀ r, j.conducts r = false) : j.Relays s l := by
  cases j with
  | relay _ job _ | emit _ job _ _ | settle job | closeOut job =>
    cases (beq_self_eq_true job.request).symm.trans (hj job.request)
  | _ => trivial

include hR hF he in
theorem Relayed.copies_fresh : ∀ j ∈ e.fresh, j.Relays e.shared (l.note s i x) := by
  have hs := step_of_exec he
  have hi := hR.copies i (Multiset.mem_cons_self i R)
  by_cases hidle : ∀ r, i.conducts r = false ∧ i.attaches r = false
  · intro j hj
    refine Relays.of_not_conducts fun r ↦ Bool.eq_false_iff.mpr fun hjr ↦ ?_
    have hle := hs.conducts_fresh r
    have hpos : 0 < e.fresh.countP (·.conducts r) := Multiset.countP_pos.mpr ⟨j, hj, hjr⟩
    simp only [hidle r, Bool.false_eq_true, if_false] at hle
    omega
  induction hs with
  | relayGone _ _ hg | emitGone _ _ _ hg => exact Effect.forall_fresh_singleton (.inl hg)
  | @relayEnd job h ch hd =>
    obtain ⟨hch, hsent⟩ := hi
    obtain ⟨hclosed, htaken⟩ : (s.observed ch).closed ∧
        (s.observed ch).taken = (s.observed ch).sent.length := by
      simpa [Chan.drained] using hd
    refine Effect.forall_fresh_singleton ⟨ch, hch, hclosed, fun _ ↦ ?_⟩
    rw [hsent, htaken, List.take_length]
  | @relay job h ch c chan hc =>
    obtain ⟨hch, hsent⟩ := hi
    obtain ⟨hget, hsame, htaken, -⟩ := Chan.recv_some hc
    refine Effect.forall_fresh_singleton ⟨hch, ?_⟩
    have hchan : (s.setObserved ch chan).observed ch = chan := Function.update_self ..
    rw [hchan, hsame, htaken, List.take_add_one, hget]
    exact congrArg (· ++ [c]) hsent
  | @emit job h ch c chan hc =>
    refine Effect.forall_fresh_singleton ⟨hi.1, ?_⟩
    have hchan : Function.update s.out job.request chan job.request = chan := Function.update_self ..
    exact (congrArg Chan.sent hchan).trans ((Chan.send_some hc).2.1.trans hi.2)
  | settle => exact Effect.forall_fresh_singleton (.inr hi)
  | addObserver h job =>
    intro j hj
    obtain rfl | rfl | rfl : j = .relay h job s.nextChan ∨ j = .addPending .stream h job ∨
        j = .consume job.request := by simpa using hj
    · refine ⟨Function.update_self .., ?_⟩
      have hnew := (hF s.nextChan).unused le_rfl
      have hsent : (s.observed s.nextChan).sent = [] := by
        simpa [hnew] using (hF s.nextChan).complete (by rw [hnew]) (by rw [hnew])
      have htake : (s.observed s.nextChan).sent.take (s.observed s.nextChan).taken = [] := by
        rw [hsent, List.take_nil]
      have hout := hR.unopened job.request (hR.channel_none (beq_self_eq_true job.request))
      exact hout.trans htake.symm
    · trivial
    · trivial
  | quit | closeOut => exact Effect.forall_fresh_nil
  | _ => exact absurd (fun _ ↦ ⟨rfl, rfl⟩) hidle

include hR he in
theorem Relayed.once_step (r : ℕ) :
    (e.fresh + R).countP (·.opens r) + ((l.note s i x).channel r).isSome.toNat ≤
      if r < e.shared.requests then 1 else 0 := by
  have hbalance := (step_of_exec he).opens_balance r
  have hold := hR.once r
  rw [Multiset.countP_cons] at hold
  rw [Multiset.countP_add]
  rcases Feeds.channel_note (s := s) (i := i) (x := x) (l := l) r with
    ⟨hsame, -⟩ | ⟨h, job, rfl, rfl, hnew⟩
  · rw [hsame]
    omega
  · have hadd : (Instr.addObserver h job).attaches job.request := beq_self_eq_true _
    rw [if_pos hadd] at hbalance
    rw [hnew, Option.isSome_some, Bool.toNat_true]
    omega

include hR he in
theorem Relayed.conductor_step (r : ℕ) :
    (e.fresh + R).countP (·.conducts r) + (e.shared.out r).closed.toNat ≤
      ((l.note s i x).channel r).isSome.toNat := by
  have hs := step_of_exec he
  have hfresh := hs.conducts_fresh r
  have hold := hR.conductor r
  rw [Multiset.countP_cons] at hold
  rw [Multiset.countP_add]
  rcases Feeds.channel_note (s := s) (i := i) (x := x) (l := l) r with
    ⟨hsame, hadd⟩ | ⟨h, job, rfl, rfl, hnew⟩
  · rw [hsame]
    simp only [hadd, Bool.false_eq_true, if_false, Nat.add_zero] at hfresh
    rcases hs.out_closed_cases r with hclosed | ⟨job, rfl, hr⟩
    · rw [hclosed]
      omega
    · have hnil : e.fresh.countP (·.conducts r) = 0 := by
        cases hs with
        | closeOut => exact Nat.le_zero.mp Effect.countP_fresh_nil_le
        | quit hq => cases hq
      have hi : (Instr.closeOut job).conducts r := beq_iff_eq.mpr hr
      have hle := Bool.toNat_le (e.shared.out r).closed
      rw [if_pos hi] at hold
      omega
  · have hnone := hR.channel_none (beq_self_eq_true job.request)
    have hclosed := (hs.out_closed_cases job.request).resolve_right
      fun ⟨_, hi, _⟩ ↦ Instr.noConfusion hi
    have hadd : (if (Instr.addObserver h job).attaches job.request then 1 else 0) ≤ 1 := by
      split <;> simp
    rw [hnone, Option.isSome_none, Bool.toNat_false] at hold
    rw [hnew, hclosed, Option.isSome_some, Bool.toNat_true]
    omega

include hR he in
theorem Relayed.conducted_step (hch : ((l.note s i x).channel r).isSome) :
    (∃ j ∈ e.fresh + R, j.conducts r) ∨ (e.shared.out r).closed := by
  have hs := step_of_exec he
  rcases Feeds.channel_note (s := s) (i := i) (x := x) (l := l) r with
    ⟨hsame, -⟩ | ⟨h, job, rfl, rfl, -⟩
  · rw [hsame] at hch
    rcases hR.conducted r hch with ⟨j, hj, hjr⟩ | hclosed
    · rcases Multiset.mem_cons.mp hj with rfl | hj
      · induction hs with
        | relayGone | emitGone | relayEnd | relay | emit | settle =>
          refine .inl ⟨_, Multiset.mem_add.mpr (.inl (Effect.mem_fresh.mpr (.inl List.mem_cons_self))), ?_⟩
          exact hjr
        | closeOut job =>
          rw [← eq_of_beq hjr]
          exact .inr (by simp)
        | @quit j x hq => cases j <;> first | cases hjr | cases hq
        | _ => cases hjr
      · exact .inl ⟨j, Multiset.mem_add.mpr (.inr hj), hjr⟩
    · exact .inr ((hs.out_grows r).closed hclosed)
  · cases hs with
    | addObserver =>
      exact .inl ⟨.relay h job s.nextChan, by simp, beq_self_eq_true job.request⟩
    | quit hq => cases hq

include hR he in
theorem Relayed.consumed_step (hch : ((l.note s i x).channel r).isSome) :
    e.shared.gone r ∨ .consume r ∈ e.fresh + R := by
  have hs := step_of_exec he
  rcases Feeds.channel_note (s := s) (i := i) (x := x) (l := l) r with
    ⟨hsame, -⟩ | ⟨h, job, rfl, rfl, -⟩
  · rw [hsame] at hch
    rcases hR.consumed r hch with hgone | hin
    · exact .inl (hs.gone_kept hgone)
    · rcases Multiset.mem_cons.mp hin with rfl | hin
      · cases hs with
        | consumeEnd | consumeError => exact .inl (Function.update_self ..)
        | consume => exact .inr (by simp)
        | quit hq => cases hq
      · exact .inr (Multiset.mem_add.mpr (.inr hin))
  · cases hs with
    | addObserver => exact .inr (by simp)
    | quit hq => cases hq

include hR hF he honce in
theorem Relayed.closed_step (hclosed : (e.shared.out r).closed) :
    e.shared.gone r ∨ ∃ ch, (l.note s i x).channel r = some ch ∧
      Copied e.shared (l.note s i x) r ch := by
  have hs := step_of_exec he
  have hnext (hout : (e.shared.out r).sent = (s.out r).sent)
      (h : s.gone r ∨ ∃ ch, l.channel r = some ch ∧ Copied s l r ch) :
      e.shared.gone r ∨ ∃ ch, (l.note s i x).channel r = some ch ∧
        Copied e.shared (l.note s i x) r ch := by
    refine h.imp hs.gone_kept ?_
    rintro ⟨ch, hch, hc⟩
    exact ⟨ch, hR.channel_kept hch, hc.step (hF ch) he (honce ch) hout⟩
  rcases hs.out_closed_cases r with hsame | ⟨job, rfl, rfl⟩
  · rw [hsame] at hclosed
    exact hnext (hR.out_sent hs (.inr (.inl hclosed))) (hR.closed r hclosed)
  · refine hnext ?_ (hR.copies _ (Multiset.mem_cons_self _ R))
    exact (hs.out_sent_cases job.request).resolve_right fun ⟨_, _, _, _, hi, _⟩ ↦ Instr.noConfusion hi

include hR he in
theorem Relayed.unopened_step (hch : (l.note s i x).channel r = none) :
    (e.shared.out r).sent = [] := by
  rcases Feeds.channel_note (s := s) (i := i) (x := x) (l := l) r with ⟨hsame, -⟩ | ⟨_, _, -, -, hnew⟩
  · rw [hsame] at hch
    rw [hR.out_sent (step_of_exec he) (.inr (.inr (.inl hch))), hR.unopened r hch]
  · cases hnew.symm.trans hch

include hR he in
theorem Relayed.known_step (hch : (l.note s i x).channel r = some ch) : ch < e.shared.nextChan := by
  have hs := step_of_exec he
  rcases Feeds.channel_note (s := s) (i := i) (x := x) (l := l) r with
    ⟨hsame, -⟩ | ⟨h, job, rfl, rfl, hnew⟩
  · rw [hsame] at hch
    exact (hs.chan_stable (hR.known r ch hch)).1
  · obtain rfl : s.nextChan = ch := Option.some.inj (hnew.symm.trans hch)
    cases hs with
    | addObserver => exact Nat.lt_succ_self _
    | quit hq => cases hq

include hR hF he honce htakes in
theorem Relayed.step : Relayed e.shared (l.note s i x) (e.fresh + R) where
  once := hR.once_step he
  conductor := hR.conductor_step he
  conducted _ := hR.conducted_step he
  consumed _ := hR.consumed_step he
  copies j hj := by
    rcases Multiset.mem_add.mp hj with hj | hj
    · exact hR.copies_fresh hF he j hj
    · exact hR.copies_stable hF he honce htakes hj
  closed _ := hR.closed_step hF he honce
  unopened _ := hR.unopened_step he
  known _ _ := hR.known_step he

end

section

variable {t : Time} {d : Duration} {n : ℕ} {c : Config (Server × Feeds) Instr}

theorem relayed_of_runs
    (hc : (controlPlane.record Feeds.note).Runs Proper ((boot (new t d n)).logging {}) c) :
    Relayed c.shared.1 c.shared.2 c.soup := by
  have hrun := hc.strengthen fun c hc ↦ And.intro (fed_of_runs hc)
    (And.intro (closers_le_one hc.erase_reaches) (takes_le_one hc.erase_reaches))
  refine hrun.record_invariant Relayed ?_ ?_
  · constructor <;> simp [boot, new, Config.logging, Config.soup, Instr.opens, Instr.conducts,
      Instr.Relays, Chan.make]
  · intro c i x R e hsoup hR hg he
    obtain ⟨-, hF, honce, htakes⟩ := hg
    rw [Config.erase_soup, hsoup] at honce htakes
    rw [hsoup] at hF
    exact hR.step hF he honce fun ch ↦ (htakes ch).trans (by split <;> simp)

theorem caps_of_reaches {c : Config Server Instr} (hc : controlPlane.Reaches (boot (new t d n)) c) :
    (∀ ch, (c.shared.observed ch).cap = 64) ∧ ∀ r, (c.shared.out r).cap = 64 := by
  refine hc.shared_invariant (fun s ↦ (∀ ch, (s.observed ch).cap = 64) ∧ ∀ r, (s.out r).cap = 64)
    ⟨fun _ ↦ rfl, fun _ ↦ rfl⟩ ?_
  intro c i x e ⟨hobserved, hout⟩ _ he
  exact ⟨fun ch ↦ ((step_of_exec he).observed_grows ch).cap.trans (hobserved ch),
    fun r ↦ ((step_of_exec he).out_grows r).cap.trans (hout r)⟩

end

section

variable (hR : Relayed s l S) (hF : Fed s l S ch) (hch : l.channel r = some ch)
  (hgone : s.gone r = false) (hover : (l.feed ch).overtaken = false)
include hR hch hgone hover

theorem Relayed.conductor_cases :
    (∃ h job, .relay h job ch ∈ S ∧ job.request = r ∧
      (s.out r).sent = (s.observed ch).sent.take (s.observed ch).taken) ∨
    (∃ h job c, .emit h job ch c ∈ S ∧ job.request = r ∧
      (s.out r).sent ++ [c] = (s.observed ch).sent.take (s.observed ch).taken) ∨
    ((s.observed ch).closed ∧ (s.out r).sent = (s.observed ch).sent) := by
  have hcopied (h : s.gone r ∨ ∃ ch, l.channel r = some ch ∧ Copied s l r ch) :
      (s.observed ch).closed ∧ (s.out r).sent = (s.observed ch).sent := by
    rcases h with hg | ⟨k, hk, hclosed, hsent⟩
    · cases hgone.symm.trans hg
    · obtain rfl : ch = k := Option.some.inj (hch.symm.trans hk)
      exact ⟨hclosed, hsent hover⟩
  rcases hR.conducted r (by rw [hch]; rfl) with ⟨j, hj, hjr⟩ | hclosed
  · have hcopy := hR.copies j hj
    cases j with
    | relay h job k =>
      obtain rfl : job.request = r := eq_of_beq hjr
      obtain rfl : ch = k := Option.some.inj (hch.symm.trans hcopy.1)
      exact .inl ⟨h, job, hj, rfl, hcopy.2⟩
    | emit h job k c =>
      obtain rfl : job.request = r := eq_of_beq hjr
      obtain rfl : ch = k := Option.some.inj (hch.symm.trans hcopy.1)
      exact .inr (.inl ⟨h, job, c, hj, rfl, hcopy.2⟩)
    | settle job =>
      obtain rfl : job.request = r := eq_of_beq hjr
      exact .inr (.inr (hcopied (.inr hcopy)))
    | closeOut job =>
      obtain rfl : job.request = r := eq_of_beq hjr
      exact .inr (.inr (hcopied hcopy))
    | _ => cases hjr
  · exact .inr (.inr (hcopied (hR.closed r hclosed)))

theorem Relayed.out_prefix : (s.out r).sent <+: (s.observed ch).sent := by
  rcases hR.conductor_cases hch hgone hover with ⟨_, _, -, -, hsent⟩ | ⟨_, _, _, -, -, hsent⟩ |
    ⟨-, hsent⟩
  · rw [hsent]
    exact List.take_prefix ..
  · exact (List.prefix_append ..).trans (hsent ▸ List.take_prefix ..)
  · rw [hsent]

theorem Relayed.taken_le : (s.observed ch).taken ≤ (s.out r).sent.length + 1 := by
  have hle := (s.observed ch).taken_le
  rcases hR.conductor_cases hch hgone hover with ⟨_, _, -, -, hsent⟩ | ⟨_, _, _, -, -, hsent⟩ |
    ⟨-, hsent⟩
  · have hlength := congrArg List.length hsent
    rw [List.length_take_of_le hle] at hlength
    omega
  · have hlength := congrArg List.length hsent
    rw [List.length_take_of_le hle, List.length_append, List.length_singleton] at hlength
    omega
  · rw [hsent]
    omega

end

/-- The caller's channel has the chunks of the stream in order, and all up to some point if
none was dropped. Once it is closed it has all of them, the last is a terminal one, and their
text is the output of the result if that has no error. -/
structure Delivered (out : Chan Produced) (f : Feed) : Prop where
  ordered : out.sent.Sublist f.chunks
  complete : f.dropped = false → out.sent <+: f.chunks
  terminal : f.dropped = false → out.closed → out.sent = f.chunks ∧
    ∃ c, out.sent.getLast? = some c ∧ c.chunk.done ∧
      (c.chunk.err = none → f.output = some (deltas out.sent))

theorem Relayed.delivered (hR : Relayed s l S) (hF : Fed s l S ch) (hch : l.channel r = some ch)
    (hgone : s.gone r = false) (hover : (l.feed ch).overtaken = false) :
    Delivered (s.out r) (l.feed ch) where
  ordered := ((hR.out_prefix hch hgone hover).sublist.trans
    (List.sublist_append_left ..)).trans (hF.ordered hover)
  complete hdrop :=
    (hR.out_prefix hch hgone hover).trans (hF.complete hover hdrop ▸ List.prefix_append ..)
  terminal hdrop hclosed := by
    obtain ⟨hobserved, hsent⟩ : (s.observed ch).closed ∧ (s.out r).sent = (s.observed ch).sent := by
      rcases hR.closed r hclosed with hg | ⟨k, hk, hend, hsent⟩
      · cases hgone.symm.trans hg
      · obtain rfl : ch = k := Option.some.inj (hch.symm.trans hk)
        exact ⟨hend, hsent hover⟩
    have hall : (s.out r).sent = (l.feed ch).chunks := by
      have hcomplete := hF.complete hover hdrop
      rwa [hF.idle hover (.inl hobserved), List.append_nil, ← hsent] at hcomplete
    refine ⟨hall, ?_⟩
    rw [hall]
    exact hF.ended (.inl hobserved)

structure Pends (r ch k : ℕ) (c : Config (Server × Feeds) Instr) : Prop where
  channel : c.shared.2.channel r = some ch
  live : c.shared.1.gone r = false
  inOrder : (c.shared.2.feed ch).overtaken = false
  kept : (c.shared.2.feed ch).dropped = false
  arrived : k < (c.shared.2.feed ch).chunks.length
  due : (c.shared.1.out r).sent.length ≤ k

def rank (r ch k : ℕ) (c : Config (Server × Feeds) Instr) : ℕ :=
  (k + 65 - (c.shared.1.observed ch).sent.length) + (k + 1 - (c.shared.1.observed ch).taken) +
    (k + 1 - (c.shared.1.out r).sent.length) + (k + 1 - (c.shared.1.out r).taken)

theorem Feeds.chunks_note (he : controlPlane.exec s i x = some e) :
    (l.feed ch).chunks.length ≤ ((l.note s i x).feed ch).chunks.length := by
  cases feedStep_of_exec he l ch with
  | rest _ _ _ hfeed _ => rw [hfeed]
  | forward _ _ hfeed _ =>
    rw [hfeed]
    exact le_rfl
  | take _ _ _ _ _ hfeed _ | fail _ _ hfeed _ =>
    rw [hfeed]
    exact (List.prefix_append ..).length_le

theorem Instr.eq_of_carries {j : Instr} {p : Produced} (hj : j.carries ch = some p) :
    (∃ h, j = .forward h ch p) ∨ ∃ h res, j = .forwardLast h ch p res := by
  cases j with
  | forward h k p' =>
    obtain ⟨rfl, rfl⟩ : k = ch ∧ p' = p := by simpa [carries] using hj
    exact .inl ⟨h, rfl⟩
  | forwardLast h k p' res =>
    obtain ⟨rfl, rfl⟩ : k = ch ∧ p' = p := by simpa [carries] using hj
    exact .inr ⟨h, res, rfl⟩
  | _ => cases hj

theorem exec_relay_isSome {h : ℕ} {job : Job}
    (hmore : (s.observed ch).taken < (s.observed ch).sent.length) :
    (controlPlane.exec s (.relay h job ch) .go).isSome := by
  change (execRelay s (.relay h job ch) .go).isSome
  simp only [execRelay]
  split
  · rfl
  · exact Option.isSome_map.trans (Chan.recv_isSome hmore)

theorem exec_consume_isSome (hmore : (s.out r).taken < (s.out r).sent.length) :
    (controlPlane.exec s (.consume r) .go).isSome := by
  change (execRelay s (.consume r) .go).isSome
  simp only [execRelay]
  split
  · rfl
  · exact Option.isSome_map.trans (Chan.recv_isSome hmore)

theorem Relayed.advances (hR : Relayed s l S) (hF : Fed s l S ch) {k : ℕ}
    (hch : l.channel r = some ch) (hgone : s.gone r = false)
    (hover : (l.feed ch).overtaken = false) (hdrop : (l.feed ch).dropped = false)
    (hdue : (s.out r).sent.length ≤ k) (harrived : k < (l.feed ch).chunks.length)
    (hi : i ∈ S) (hown : i.conveys r ch) (he : controlPlane.exec s i x = some e)
    (hcap : (s.observed ch).cap = 64) (hlive : e.shared.gone r = false)
    (hkept : ((l.note s i x).feed ch).dropped = false) :
    ((s.observed ch).sent.length < (e.shared.observed ch).sent.length ∧
      (s.observed ch).sent.length < k + 65) ∨
    ((s.observed ch).taken < (e.shared.observed ch).taken ∧ (s.observed ch).taken ≤ k) ∨
    (s.out r).sent.length < (e.shared.out r).sent.length ∨
    ((s.out r).taken < (e.shared.out r).taken ∧ (s.out r).taken ≤ k) := by
  have htaken := hR.taken_le hch hgone hover
  have hforward {p : Produced} (hp : i.carries ch = some p) :
      (s.observed ch).sent.length < (e.shared.observed ch).sent.length ∧
        (s.observed ch).sent.length < k + 65 := by
    cases feedStep_of_exec he l ch with
    | rest hnone => cases hnone.symm.trans hp
    | take _ _ hi | fail _ hi =>
      subst hi
      cases hp
    | forward c _ hfeed hsend =>
      rw [hfeed] at hkept
      obtain ⟨-, hroom⟩ := Bool.or_eq_false_iff.mp hkept
      rw [hsend, Chan.trySend]
      cases hchan : (s.observed ch).send c with
      | none =>
        rw [hchan] at hroom
        cases hroom
      | some chan =>
        obtain ⟨hlt, hsent, -⟩ := Chan.send_some hchan
        simp only [Option.getD_some, hsent, List.length_append, List.length_singleton]
        omega
  have hs := step_of_exec he
  have hcopy := hR.copies i hi
  cases i with
  | forward _ k' p | forwardLast _ k' p _ => exact .inl (hforward (if_pos (eq_of_beq hown)))
  | relay h job k' =>
    obtain ⟨rfl, rfl⟩ : job.request = r ∧ k' = ch := by simpa [Instr.conveys] using hown
    have hlength := congrArg List.length hcopy.2
    rw [List.length_take_of_le (s.observed k').taken_le] at hlength
    cases hs with
    | relayGone _ _ hg => cases hgone.symm.trans hg
    | relayEnd hd =>
      -- all chunks would be on the caller's channel
      obtain ⟨hclosed, hend⟩ : (s.observed k').closed ∧
          (s.observed k').taken = (s.observed k').sent.length := by
        simpa [Chan.drained] using hd
      have hall := congrArg List.length (hF.complete hover hdrop)
      rw [hF.idle hover (.inl hclosed), List.append_nil] at hall
      omega
    | @relay _ _ _ _ chan hc =>
      have hnext : (s.setObserved k' chan).observed k' = chan := Function.update_self ..
      refine .inr (.inl ⟨?_, by omega⟩)
      rw [hnext, (Chan.recv_some hc).2.2.1]
      exact Nat.lt_succ_self _
    | quit hq => cases hq
  | emit h job k' p =>
    obtain ⟨rfl, rfl⟩ : job.request = r ∧ k' = ch := by simpa [Instr.conveys] using hown
    cases hs with
    | emitGone _ _ _ hg => cases hgone.symm.trans hg
    | @emit _ _ _ _ chan hc =>
      refine .inr (.inr (.inl ?_))
      dsimp only
      rw [Function.update_self, (Chan.send_some hc).2.1, List.length_append]
      exact Nat.lt_succ_self _
    | quit hq => cases hq
  | consume r' =>
    obtain rfl : r' = r := eq_of_beq hown
    cases hs with
    | consumeEnd | consumeError => simp at hlive
    | @consume _ _ chan hc =>
      obtain ⟨hget, -, htake, -⟩ := Chan.recv_some hc
      obtain ⟨hlt, -⟩ := List.getElem?_eq_some_iff.mp hget
      refine .inr (.inr (.inr ⟨?_, by omega⟩))
      dsimp only
      rw [Function.update_self, htake]
      exact Nat.lt_succ_self _
    | quit hq => cases hq
  | _ => cases hown

section

variable {t : Time} {d : Duration} {n k : ℕ} {c c' : Config (Server × Feeds) Instr}
  (hc : (controlPlane.record Feeds.note).Runs Proper ((boot (new t d n)).logging {}) c)
  (hP : Pends r ch k c)
include hc hP

theorem Pends.ready : Ready (controlPlane.record Feeds.note).turn (·.instr.conveys r ch) c := by
  have hR := relayed_of_runs hc
  have hF := fed_of_runs hc ch
  have hcap : (c.shared.1.out r).cap = 64 := (caps_of_reaches hc.erase_reaches).2 r
  have hmove {j : Instr} (hj : j ∈ c.soup) (hbulk : j.bulk = false) (hplace : j ≠ .place)
      (hown : j.conveys r ch) (hexec : (controlPlane.exec c.shared.1 j .go).isSome) :
      Ready (controlPlane.record Feeds.note).turn (·.instr.conveys r ch) c := by
    obtain ⟨m, rest, hhead⟩ := head_of_mem_soup hc.erase_reaches hj hbulk hplace
    refine Machine.ready_of_head (x := .go) hhead ?_ hown
    simpa [Machine.record] using hexec
  -- a chunk that is not on the observer channel yet is in the reader's hand
  have hforward (hle : (c.shared.1.observed ch).sent.length ≤ (c.shared.1.out r).sent.length) :
      Ready (controlPlane.record Feeds.note).turn (·.instr.conveys r ch) c := by
    have hlength := congrArg List.length (hF.complete hP.inOrder hP.kept)
    rw [List.length_append] at hlength
    have hhand : 0 < (c.shared.2.feed ch).hand.length := by
      have harrived := hP.arrived
      have hdue := hP.due
      omega
    obtain ⟨p, hp⟩ := List.exists_mem_of_length_pos hhand
    obtain ⟨j, hj, hjp⟩ := hF.carried p hp
    rcases Instr.eq_of_carries hjp with ⟨h, rfl⟩ | ⟨h, res, rfl⟩
    · exact hmove hj rfl (by simp) (beq_self_eq_true ch) rfl
    · exact hmove hj rfl (by simp) (beq_self_eq_true ch) rfl
  rcases hR.conductor_cases hP.channel hP.live hP.inOrder with ⟨h, job, hj, hr, hsent⟩ |
    ⟨h, job, p, hj, hr, hsent⟩ | ⟨-, hsent⟩
  · by_cases hmore : (c.shared.1.observed ch).taken < (c.shared.1.observed ch).sent.length
    · exact hmove hj rfl (by simp) (by simp [Instr.conveys, hr]) (exec_relay_isSome hmore)
    · refine hforward ?_
      rw [hsent, List.length_take]
      omega
  · by_cases hroom : (c.shared.1.out r).sent.length < (c.shared.1.out r).taken + 64
    · refine hmove hj rfl (by simp) (by simp [Instr.conveys, hr]) ?_
      exact Option.isSome_map.trans (Chan.send_isSome (by rw [hr, hcap]; exact hroom))
    · -- the channel is full, so the handler can take from it
      have hin : .consume r ∈ c.soup :=
        (hR.consumed r (by rw [hP.channel]; rfl)).resolve_left (by simp [hP.live])
      exact hmove hin rfl (by simp) (beq_self_eq_true r) (exec_consume_isSome (by omega))
  · exact hforward (by rw [hsent])

theorem Pends.step {a : Turn Instr Choice} (hturn : (controlPlane.record Feeds.note).turn c a = some c') :
    (c'.shared.1.gone r ∨ (c'.shared.2.feed ch).overtaken ∨ (c'.shared.2.feed ch).dropped ∨
      k < (c'.shared.1.out r).sent.length) ∨
    Pends r ch k c' ∧ rank r ch k c' ≤ rank r ch k c ∧
      (a.instr.conveys r ch → rank r ch k c' < rank r ch k c) := by
  obtain ⟨rest, e', hhead, he', rfl⟩ := Machine.turn_eq_some.mp hturn
  obtain ⟨e, he, rfl⟩ := Machine.exec_record he'
  have hR := relayed_of_runs hc
  have hF := fed_of_runs hc ch
  have hs := step_of_exec he
  obtain ⟨R, hsoup, -⟩ := Config.soup_step hhead
  have hself : a.instr ∈ c.soup := hsoup ▸ Multiset.mem_cons_self ..
  have hchannel : (Feeds.note c.shared.1 a.instr a.choice c.shared.2).channel r = some ch :=
    (hsoup ▸ hR).channel_kept hP.channel
  have hchunks : (c.shared.2.feed ch).chunks.length ≤
      ((Feeds.note c.shared.1 a.instr a.choice c.shared.2).feed ch).chunks.length :=
    Feeds.chunks_note he
  have hobserved := hs.observed_grows ch
  have hout := hs.out_grows r
  have hsent := hobserved.sent.length_le
  have hsent' := hout.sent.length_le
  have htaken := hobserved.taken
  have htaken' := hout.taken
  have hdue := hP.due
  have harrived := hP.arrived
  refine or_iff_not_imp_left.mpr fun hnot ↦ ?_
  simp only [Config.after_shared, not_or, Bool.not_eq_true, not_lt] at hnot
  obtain ⟨hlive, hover, hdrop, hdue'⟩ := hnot
  refine ⟨⟨hchannel, hlive, hover, hdrop, by simpa using harrived.trans_le hchunks, hdue'⟩, ?_, ?_⟩
  · simp only [rank, Config.after_shared]
    omega
  · intro hown
    have hcap : (c.shared.1.observed ch).cap = 64 := (caps_of_reaches hc.erase_reaches).1 ch
    have hmove := hR.advances hF hP.channel hP.live hP.inOrder hP.kept hdue harrived hself hown he
      hcap hlive hdrop
    simp only [rank, Config.after_shared]
    omega

end

/-- What the caller of a streaming request finds on its channel while its context is live and
`failAllPending` has not sent its chunk ahead of the reader's. In a schedule that does not starve
reader, relay and handler, every chunk gets there, unless the buffer was full for one. -/
theorem streams_delivered {t : Time} {d : Duration} {n : ℕ}
    (X : Execution (controlPlane.record Feeds.note).turn)
    (hstart : X.state 0 = (boot (new t d n)).logging {})
    (hproper : ∀ m a, X.event m = some a → Proper (X.state m) a.instr a.choice) (r ch : ℕ) :
    (∀ m, (X.state m).shared.2.channel r = some ch → (X.state m).shared.1.gone r = false →
      ((X.state m).shared.2.feed ch).overtaken = false →
      Delivered ((X.state m).shared.1.out r) ((X.state m).shared.2.feed ch)) ∧
    (X.Fair (·.instr.conveys r ch) → ∀ m k, (X.state m).shared.2.channel r = some ch →
      k < ((X.state m).shared.2.feed ch).chunks.length → ∃ m', m ≤ m' ∧
        ((X.state m').shared.1.gone r ∨ ((X.state m').shared.2.feed ch).overtaken ∨
          ((X.state m').shared.2.feed ch).dropped ∨
          k < ((X.state m').shared.1.out r).sent.length)) := by
  have hruns (m : ℕ) :
      (controlPlane.record Feeds.note).Runs Proper ((boot (new t d n)).logging {}) (X.state m) :=
    hstart ▸ Machine.Runs.of_execution hproper m
  refine ⟨fun m ↦ (relayed_of_runs (hruns m)).delivered (fed_of_runs (hruns m) ch),
    fun hfair m k hch hk ↦ ?_⟩
  by_cases hlost : (X.state m).shared.1.gone r ∨ ((X.state m).shared.2.feed ch).overtaken ∨
      ((X.state m).shared.2.feed ch).dropped ∨ k < ((X.state m).shared.1.out r).sent.length
  · exact ⟨m, le_rfl, hlost⟩
  · have hP : Pends r ch k (X.state m) := by
      simp only [not_or, Bool.not_eq_true, not_lt] at hlost
      obtain ⟨hlive, hover, hdrop, hdue⟩ := hlost
      exact ⟨hch, hlive, hover, hdrop, hk, hdue⟩
    exact hfair.leadsTo (Q := fun c ↦ c.shared.1.gone r ∨ (c.shared.2.feed ch).overtaken ∨
        (c.shared.2.feed ch).dropped ∨ k < (c.shared.1.out r).sent.length) (rank r ch k)
      (fun m a ha hP ↦ hP.step (hruns m) (X.step_of_event ha))
      ⟨0, fun m _ hP ↦ hP.ready (hruns m)⟩ hP

def openStream : List (ℕ × Choice) :=
  [(0, .connect "w" [⟨"m", ""⟩]), (3, .go), (3, .go), (4, .go), (0, .request "r" none "m" true),
    (5, .worker 1), (5, .go), (7, .go), (7, .go), (4, .go)]

/-- The reader gets a chunk and forwards it. -/
def readChunk : List (ℕ × Choice) :=
  [(3, .message (.chunk ⟨{ jobID := "r", delta := "a" }, some 0⟩)), (3, .go)]

/-- The reader gets the terminal chunk and forwards it, closes the observer and resolves the
dispatch, which hands its result to the relay. -/
def readLast : List (ℕ × Choice) :=
  [(3, .message (.chunk ⟨{ jobID := "r", done := true }, some 0⟩)), (3, .go), (3, .go), (3, .go),
    (3, .go), (7, .go), (7, .go)]

def relayChunk : List (ℕ × Choice) := [(6, .go), (6, .go)]

def streamTwo : List (ℕ × Choice) :=
  openStream ++ readChunk ++ readLast ++ relayChunk ++ relayChunk ++ [(6, .go), (6, .go), (6, .go)]

theorem streams_delivered_two :
    (∃ X : Execution (controlPlane.record Feeds.note).turn,
      X.state 0 = (boot (new 0 0 0)).logging {} ∧
      (∀ m a, X.event m = some a → Proper (X.state m) a.instr a.choice) ∧
      ∃ m, (X.state m).shared.2.channel 0 = some 0 ∧ (X.state m).shared.1.gone 0 = false ∧
        ((X.state m).shared.2.feed 0).overtaken = false ∧ ((X.state m).shared.1.out 0).closed ∧
        Delivered ((X.state m).shared.1.out 0) ((X.state m).shared.2.feed 0)) ∧
    ∃ X : Execution (controlPlane.record Feeds.note).turn,
      X.state 0 = (boot (new 0 0 0)).logging {} ∧
      (∀ m a, X.event m = some a → Proper (X.state m) a.instr a.choice) ∧
      X.Fair (·.instr.conveys 0 0) ∧
      ∃ m, (X.state m).shared.2.channel 0 = some 0 ∧
        1 < ((X.state m).shared.2.feed 0).chunks.length ∧ ∃ m', m ≤ m' ∧
          ((X.state m').shared.1.gone 0 ∨ ((X.state m').shared.2.feed 0).overtaken ∨
            ((X.state m').shared.2.feed 0).dropped ∨
            1 < ((X.state m').shared.1.out 0).sent.length) := by
  have hopen : ∃ c, (controlPlane.record Feeds.note).Runs Proper ((boot (new 0 0 0)).logging {}) c ∧
      c.shared.2.channel 0 = some 0 ∧ c.shared.1.gone 0 = false ∧
      (c.shared.2.feed 0).overtaken = false ∧ (c.shared.1.out 0).closed := by
    apply Machine.exists_run streamTwo
    decide +kernel
  have hread : ∃ c, (controlPlane.record Feeds.note).Runs Proper ((boot (new 0 0 0)).logging {}) c ∧
      c.shared.2.channel 0 = some 0 ∧ 1 < (c.shared.2.feed 0).chunks.length ∧
      ∀ j ∈ c.soup, j.conveys 0 0 = false := by
    apply Machine.exists_run (streamTwo ++ [(8, .go), (8, .go), (8, .go)])
    decide +kernel
  constructor
  · obtain ⟨c, hc, hch, hgone, hover, hclosed⟩ := hopen
    obtain ⟨X, hstart, hproper, N, hrest⟩ := hc.exists_execution
    rw [← hrest N le_rfl] at hch hgone hover hclosed
    exact ⟨X, hstart, hproper, N, hch, hgone, hover, hclosed,
      (streams_delivered X hstart hproper 0 0).1 N hch hgone hover⟩
  · obtain ⟨c, hc, hch, hchunks, hidle⟩ := hread
    obtain ⟨X, hstart, hproper, N, hrest⟩ := hc.exists_execution
    have hfair : X.Fair (·.instr.conveys 0 0) := by
      refine Execution.Fair.of_rest (N := N) fun m hm hready ↦ ?_
      rw [hrest m hm] at hready
      obtain ⟨a, hown, hturn⟩ := hready
      obtain ⟨c', hc'⟩ := Option.isSome_iff_exists.mp hturn
      cases (hidle _ (Machine.mem_soup_of_turn hc')).symm.trans hown
    rw [← hrest N le_rfl] at hch hchunks
    exact ⟨X, hstart, hproper, hfair, N, hch, hchunks,
      (streams_delivered X hstart hproper 0 0).2 hfair N 1 hch hchunks⟩

/-- The relay is not scheduled while the reader gets more chunks than the buffer holds. The
terminal chunk is dropped with them, and the stream ends as if it were complete. -/
theorem full_buffer_drops_terminal_chunk :
    ∃ c, (controlPlane.record Feeds.note).Runs Proper ((boot (new 0 0 0)).logging {}) c ∧
      c.shared.2.channel 0 = some 0 ∧ c.shared.1.gone 0 = false ∧ (c.shared.1.out 0).closed ∧
      (c.shared.1.out 0).sent.length < (c.shared.2.feed 0).chunks.length ∧
      ∀ p ∈ (c.shared.1.out 0).sent, p.chunk.done = false ∧ p.chunk.err = none := by
  apply Machine.exists_run (openStream ++ (List.replicate 65 readChunk).flatten ++ readLast ++
    (List.replicate 64 relayChunk).flatten ++ [(6, .go), (6, .go), (6, .go)])
  decide +kernel

end AgentGpu.ControlPlane
