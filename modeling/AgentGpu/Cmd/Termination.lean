import AgentGpu.Cmd.Shutdown

namespace AgentGpu.Cmd

open Foundation

def Handler.rank : Handler → ℕ
  | .registering => 5
  | .acking => 4
  | .reading => 3
  | .removing => 2
  | .cancelling => 1
  | .returned => 0

def Handler.ending : Handler → Bool
  | .removing | .cancelling | .returned => true
  | _ => false

def Reaper.rank : Reaper → ℕ
  | .waiting _ => 3
  | .evicting => 2
  | .cancelling => 1
  | .exited => 0

def Place.rank : Place → ℕ
  | .placing => 3
  | .dispatching => 2
  | .dequeuing => 1
  | .done => 0

def Place.coming : Place → ℕ
  | .placing => 1
  | _ => 0

def Loop.rank (l : Loop) : ℕ := if l.done then 0 else 1

def Main.rank (m : Main) : ℕ := 22 - m.ctorIdx

def Stream.rank (w : Stream) : ℕ := w.handler.rank + (w.reapers.map Reaper.rank).sum

/-- How much the server has left to do. A running request counts for the most it can add: a
job in the queue or a reaper. -/
def State.rank (s : State) : ℕ :=
  s.main.rank + (s.streams.map Stream.rank).sum + s.evict.rank + s.sweep.rank + s.place.rank +
    3 * s.queue + 4 * s.arrived

def Reaper.Due (t : Time) : Reaper → Prop
  | .waiting deadline => deadline ≤ t
  | .evicting => True
  | .cancelling => True
  | .exited => False

/-- A call of `Connect` that gets through although `n` more messages may come for its worker: the
send of `RegisterAck` finds room, and what ends the reader loop is there or under way. -/
structure Stream.Covered (t : Time) (n : ℕ) (w : Stream) : Prop where
  registered : w.handler ≠ .registering
  room : w.handler = .acking → w.buffered + w.sending + n < sendCapacity
  leaves : w.handler = .acking ∨ w.handler = .reading → w.cancelled = true ∨ ∃ r ∈ w.reapers, r.Due t

/-- `w'` is `w` after a step that costs at least `k` and keeps the handler covered. -/
def Stream.Spends (k : ℕ) (w w' : Stream) : Prop :=
  w'.rank + k ≤ w.rank ∧ ∀ t n, w.Covered t n → w'.Covered t n

namespace Stream

variable {w w' : Stream} {t : Time} {n m : ℕ}

theorem covered_of_ending (h : w.handler.ending) : w.Covered t n := by
  constructor <;> cases hh : w.handler <;> simp [hh, Handler.ending] at h ⊢

theorem Covered.frame (hc : w.Covered t n) (hhandler : w'.handler = w.handler)
    (hcancelled : w.cancelled → w'.cancelled) (hreapers : w'.reapers = w.reapers)
    (hroom : w'.buffered + w'.sending + m ≤ w.buffered + w.sending + n) : w'.Covered t m where
  registered := hhandler ▸ hc.registered
  room h := hroom.trans_lt (hc.room (hhandler ▸ h))
  leaves h := by
    rw [hreapers]
    exact (hc.leaves (hhandler ▸ h)).imp_left hcancelled

theorem spends_of_load {pending sending buffered : ℕ}
    (hload : w.handler = .acking → buffered + sending ≤ w.buffered + w.sending) :
    w.Spends 0 { w with pending := pending, sending := sending, buffered := buffered } := by
  refine ⟨le_refl _, fun t n hc ↦ ⟨hc.registered, fun h ↦ ?_, hc.leaves⟩⟩
  have := hc.room h
  have := hload h
  simp only
  omega

theorem handle_spends {p : Payload} (h : w.handle p = some w') : w.Spends 0 w' := by
  unfold handle at h
  split at h <;> cases h
  · next hh => exact ⟨by simp [rank, hh, Handler.rank], fun t n hc ↦ absurd hh hc.registered⟩
  · next hh _ => exact ⟨by simp [rank, hh, Handler.rank], fun t n hc ↦ absurd hh hc.registered⟩
  · next hh => exact ⟨by simp [rank, hh, Handler.rank], fun t n _ ↦ covered_of_ending rfl⟩
  · exact ⟨le_refl _, fun t n hc ↦ hc⟩

theorem hangUp_spends (h : w.hangUp = some w') : w.Spends 0 w' := by
  unfold hangUp at h
  split at h <;> cases h
  all_goals
    next hh => exact ⟨by simp [rank, hh, Handler.rank], fun t n _ ↦ covered_of_ending rfl⟩

theorem disconnect_spends (h : w.disconnect = some w') : w.Spends 0 w' := by
  cases h
  exact ⟨le_refl _, fun t n hc ↦ hc.frame rfl (fun _ ↦ rfl) rfl le_rfl⟩

theorem ack_spends (h : w.ack = some w') : w.Spends 1 w' := by
  unfold ack at h
  split at h <;> cases h
  next hh =>
    refine ⟨by simp only [rank, hh.1, Handler.rank]; omega, fun t n hc ↦ ⟨by simp, by simp, fun _ ↦ ?_⟩⟩
    exact hc.leaves (.inl hh.1)

theorem leave_spends (h : w.leave = some w') : w.Spends 1 w' := by
  unfold leave at h
  split at h <;> cases h
  next hh =>
    exact ⟨by simp only [rank, hh.1, Handler.rank]; omega, fun t n _ ↦ covered_of_ending rfl⟩

theorem runDeferred_spends (h : w.runDeferred = some w') : w.Spends 1 w' := by
  unfold runDeferred at h
  split at h <;> cases h
  all_goals
    next hh =>
      exact ⟨by simp only [rank, hh, Handler.rank, failAllPending]; omega,
        fun t n _ ↦ covered_of_ending rfl⟩

theorem write_spends (h : w.write = some w') : w.Spends 0 w' := by
  unfold write at h
  split at h <;> cases h
  next hh => exact spends_of_load fun hack ↦ absurd hack hh.2.1

theorem send_spends (h : w.send = some w') : w.Spends 0 w' := by
  unfold send at h
  split at h <;> cases h
  exact spends_of_load fun _ ↦ by omega

theorem giveUp_spends (h : w.giveUp = some w') : w.Spends 0 w' := by
  unfold giveUp at h
  split at h <;> cases h
  exact spends_of_load fun _ ↦ by omega

theorem rank_set_reaper {j : ℕ} {r r' : Reaper} (h : w.reapers[j]? = some r)
    (hlt : r'.rank < r.rank) :
    w.handler.rank + ((w.reapers.set j r').map Reaper.rank).sum + 1 ≤ w.rank := by
  have := sum_map_set Reaper.rank h r'
  unfold rank
  omega

theorem covered_set_reaper {j : ℕ} {r r' : Reaper} {pending : ℕ} (h : w.reapers[j]? = some r)
    (hdue : r'.Due t) (hc : w.Covered t n) :
    Covered t n { w with pending := pending, reapers := w.reapers.set j r' } := by
  refine ⟨hc.registered, hc.room, fun _ ↦ .inr ⟨r', ?_, hdue⟩⟩
  obtain ⟨hj, -⟩ := List.getElem?_eq_some_iff.mp h
  exact List.mem_set hj r'

theorem reap_spends {now : Time} {j : ℕ} {arm : Arm} (h : w.reap now j arm = some w') :
    w.Spends 1 w' := by
  unfold reap at h
  split at h
  · cases h
  · next deadline hj =>
    have hrank (r : Reaper) (hr : r.rank < 3) :
        w.handler.rank + ((w.reapers.set j r).map Reaper.rank).sum + 1 ≤ w.rank :=
      rank_set_reaper hj hr
    cases arm with
    | ctxDone =>
      simp only at h
      split at h <;> cases h
      next hcancel =>
        exact ⟨hrank .exited (by decide), fun t n hc ↦ ⟨hc.registered, hc.room, fun _ ↦ .inl hcancel⟩⟩
    | timer | ticker =>
      simp only at h
      split at h <;> cases h
      exact ⟨hrank .evicting (by decide), fun t n hc ↦ covered_set_reaper hj trivial hc⟩
  · next hj =>
    cases h
    refine ⟨rank_set_reaper hj (by decide), fun t n hc ↦ ?_⟩
    exact covered_set_reaper (w := w.failAllPending) hj trivial (hc.frame rfl id rfl le_rfl)
  · next hj =>
    cases h
    exact ⟨rank_set_reaper hj (by decide), fun t n hc ↦ ⟨hc.registered, hc.room, fun _ ↦ .inl rfl⟩⟩
  · cases h

theorem move_spends {now : Time} {a : Move} (h : w.move now a = some w') :
    w.Spends a.own.toNat w' := by
  cases a with
  | message p => exact handle_spends h
  | hangUp => exact hangUp_spends h
  | disconnect => exact disconnect_spends h
  | ack => exact ack_spends h
  | leave => exact leave_spends h
  | runDeferred => exact runDeferred_spends h
  | reap j arm => exact reap_spends h
  | write => exact write_spends h
  | send => exact send_spends h
  | giveUp => exact giveUp_spends h
  | addPending | deletePending =>
    cases h
    exact spends_of_load fun _ ↦ le_rfl

theorem drain_rank (now : Time) (deadline : Duration) : (w.drain now deadline).rank ≤ w.rank + 3 := by
  unfold drain
  split
  · omega
  · simp [rank, Reaper.rank]
    omega

theorem Covered.drain {now : Time} {deadline : Duration} (hc : w.Covered t n) :
    (w.drain now deadline).Covered t n := by
  unfold Stream.drain
  split
  · exact hc
  · refine ⟨hc.registered, hc.room, fun hr ↦ (hc.leaves hr).imp_right fun ⟨r, hr, hdue⟩ ↦ ⟨r, ?_, hdue⟩⟩
    exact List.mem_append_left _ hr

end Stream

namespace State

variable {s s' : State} {i k : ℕ} {f : Stream → Option Stream}

theorem onStream_some (h : s.onStream i f = some s') :
    ∃ w w', s.streams[i]? = some w ∧ f w = some w' ∧
      s' = { s with streams := s.streams.set i w' } := by
  obtain ⟨w', hw', rfl⟩ := Option.map_eq_some_iff.mp h
  obtain ⟨w, hw, hf⟩ := Option.bind_eq_some_iff.mp hw'
  exact ⟨w, w', hw, hf, rfl⟩

/-- The messages that may still come for a worker: one for each request that has not been served,
for each queued job and for the one in the placement loop's hands. -/
def coming (s : State) : ℕ := s.arrived + s.queue + s.place.coming

def Covered (t : Time) (s : State) : Prop := ∀ w ∈ s.streams, w.Covered t s.coming

theorem Covered.of_streams {t : Time} (hc : s.Covered t) (h : s'.streams = s.streams)
    (hle : s'.coming ≤ s.coming) : s'.Covered t := by
  intro w hw
  rw [h] at hw
  exact (hc w hw).frame rfl id rfl (Nat.add_le_add_left hle _)

structure SameControl (s s' : State) : Prop where
  now : s.now ≤ s'.now
  main : s'.main = s.main
  deadline : s'.deadline = s.deadline
  httpOpen : s'.httpOpen = s.httpOpen
  grpcOpen : s'.grpcOpen = s.grpcOpen
  evictStop : s'.evict.stop = s.evict.stop
  sweepStop : s'.sweep.stop = s.sweep.stop
  placeStop : s'.placeStop = s.placeStop
  queueClosed : s'.queueClosed = s.queueClosed
  log : s'.log = s.log

theorem SameControl.onStream (h : s.onStream i f = some s') : s.SameControl s' := by
  obtain ⟨w, w', -, -, rfl⟩ := onStream_some h
  constructor <;> rfl

theorem onStream_rank {j : ℕ} (h : s.onStream i f = some s')
    (hf : ∀ w w', f w = some w' → w'.rank + k ≤ w.rank + j) : s'.rank + k ≤ s.rank + j := by
  obtain ⟨w, w', hw, hw', rfl⟩ := onStream_some h
  have hsum := sum_map_set Stream.rank hw w'
  have hle := hf w w' hw'
  simp only [rank]
  omega

theorem Covered.onStream {t : Time} {n : ℕ} (hc : ∀ w ∈ s.streams, w.Covered t n)
    (hle : s.coming ≤ n) (h : s.onStream i f = some s')
    (hf : ∀ w w', f w = some w' → w.Covered t n → w'.Covered t s.coming) : s'.Covered t := by
  obtain ⟨w, w', hw, hw', rfl⟩ := onStream_some h
  intro v hv
  rcases List.mem_or_eq_of_mem_set hv with hv | rfl
  · exact (hc v hv).frame rfl id rfl (Nat.add_le_add_left hle _)
  · exact hf w v hw' (hc w (List.mem_of_getElem? hw))

theorem update_cases (s : State) (i : ℕ) (f : Stream → Stream) :
    s.update i f = s ∨ s.onStream i (fun w ↦ some (f w)) = some (s.update i f) := by
  unfold update
  cases h : s.onStream i fun w ↦ some (f w) with
  | none => exact .inl rfl
  | some s' => exact .inr rfl

theorem SameControl.update {g : Stream → Stream} (h : s.SameControl s') :
    s.SameControl (s'.update i g) := by
  rcases s'.update_cases i g with hsame | hon
  · rwa [hsame]
  · obtain ⟨w, w', -, -, hs'⟩ := onStream_some hon
    rw [hs']
    exact { h with }

theorem update_rank {j : ℕ} {g : Stream → Stream} (hg : ∀ w, (g w).rank ≤ w.rank + j) :
    (s.update i g).rank ≤ s.rank + j := by
  rcases s.update_cases i g with h | h
  · rw [h]
    omega
  · have hle := onStream_rank (k := 0) (j := j) h fun w w' hw ↦ by
      cases hw
      exact hg w
    omega

theorem Covered.update {t : Time} {n : ℕ} {g : Stream → Stream} (hc : ∀ w ∈ s.streams, w.Covered t n)
    (hle : s.coming ≤ n) (hg : ∀ w, w.Covered t n → (g w).Covered t s.coming) :
    (s.update i g).Covered t := by
  rcases s.update_cases i g with h | h
  · rw [h]
    exact fun w hw ↦ (hc w hw).frame rfl id rfl (Nat.add_le_add_left hle _)
  · refine Covered.onStream hc hle h fun w w' hw ↦ ?_
    cases hw
    exact hg w

def Spends (k : ℕ) (s s' : State) : Prop :=
  s'.rank + k ≤ s.rank ∧ ∀ t, s.Covered t → s'.Covered t

theorem onStream_spends (h : s.onStream i f = some s')
    (hf : ∀ w w', f w = some w' → w.Spends k w') : s.Spends k s' := by
  have hle := onStream_rank (j := 0) h fun w w' hw ↦ (hf w w' hw).1
  exact ⟨by omega, fun t hc ↦ Covered.onStream hc le_rfl h fun w w' hw ↦ (hf w w' hw).2 t _⟩

theorem choose_spends (hle : s'.rank + k ≤ s.rank) (hstreams : s'.streams = s.streams)
    (hcoming : s'.coming + 1 ≤ s.coming) : s.Spends k (s'.update i Stream.choose) := by
  have hrank : (s'.update i Stream.choose).rank ≤ s'.rank + 0 := update_rank fun w ↦ le_refl _
  refine ⟨by omega, fun t hc ↦ Covered.update (n := s.coming) (hstreams ▸ hc) (by omega) fun w hw ↦ ?_⟩
  refine hw.frame rfl id rfl ?_
  simp only [Stream.choose]
  omega

theorem act_sameControl {a : Action} (h : s.act a = some s') : s.SameControl s' := by
  unfold act at h
  split at h
  · cases h
  · cases a with
    | dispatch | drain =>
      cases h
      exact .update (by constructor <;> rfl)
    | enqueue =>
      simp only at h
      split at h <;> cases h <;> constructor <;> rfl
    | other =>
      cases h
      constructor <;> rfl

theorem act_spends {a : Action} (h : s.act a = some s') : s.Spends 0 s' := by
  unfold act at h
  split at h
  · cases h
  · next harrived =>
    -- the request's own share pays for what it adds
    have hshare : s.serve.rank + 4 = s.rank := by
      simp only [rank, serve]
      omega
    have hcoming : s.serve.coming + 1 = s.coming := by
      simp only [coming, serve]
      omega
    have hcovered (t : Time) (hc : s.Covered t) : s.serve.Covered t := hc.of_streams rfl (by omega)
    cases a with
    | dispatch i =>
      cases h
      exact choose_spends (by omega) rfl hcoming.le
    | enqueue =>
      simp only at h
      split at h <;> cases h
      · exact ⟨by omega, hcovered⟩
      · refine ⟨?_, fun t hc ↦ hc.of_streams rfl ?_⟩
        · simp only [rank, serve] at hshare ⊢
          omega
        · simp only [coming, serve] at hcoming ⊢
          omega
    | drain i deadline =>
      cases h
      have hle := update_rank (s := s.serve) (i := i) fun w ↦
        Stream.drain_rank (w := w) s.now deadline
      exact ⟨by omega, fun t hc ↦ Covered.update (hcovered t hc) le_rfl fun w hw ↦ hw.drain⟩
    | other =>
      cases h
      exact ⟨by omega, hcovered⟩

end State

theorem step_sameControl {s s' : State} {e : Event} (h : step s e = some s') (he : e ≠ .main) :
    s.SameControl s' := by
  cases e with
  | main => exact absurd rfl he
  | tick d =>
    cases h
    constructor <;> try rfl
    exact le_add_of_nonneg_right (Int.natCast_nonneg d)
  | scraped =>
    cases h
    constructor <;> rfl
  | act a => exact State.act_sameControl h
  | stream i m => exact .onStream h
  | evictStale | pick =>
    simp only [step] at h
    split at h <;> cases h
    exact .update (by constructor <;> rfl)
  | _ =>
    simp only [step] at h
    split at h <;> cases h
    constructor <;> rfl

/-- Once the listeners are closed, no step of anyone else adds to what the server has left to
do, and every step of its own takes something away. -/
theorem step_spends {s s' : State} {e : Event} (h : step s e = some s') (he : e ≠ .main)
    (hhttp : s.httpOpen = false) (hgrpc : s.grpcOpen = false) : s.Spends e.own.toNat s' := by
  cases e with
  | main => exact absurd rfl he
  | tick | scraped =>
    cases h
    exact ⟨le_refl _, fun t hc ↦ hc⟩
  | accept => simp [step, hhttp] at h
  | connect => simp [step, hgrpc] at h
  | act a => exact State.act_spends h
  | respond | scrape =>
    simp only [step] at h
    split at h <;> cases h
    exact ⟨le_refl _, fun t hc ↦ hc⟩
  | stream i m => exact State.onStream_spends h fun _ _ ↦ Stream.move_spends
  | evictStale i =>
    simp only [step] at h
    split at h <;> cases h
    have hrank : (s.update i Stream.failAllPending).rank ≤ s.rank + 0 :=
      State.update_rank fun w ↦ le_refl _
    exact ⟨hrank, fun t hc ↦ State.Covered.update hc le_rfl fun w hw ↦ hw.frame rfl id rfl le_rfl⟩
  | evictExit | sweepExit =>
    simp only [step] at h
    split at h <;> cases h
    next hstop =>
      refine ⟨?_, fun t hc ↦ hc⟩
      simp only [State.rank, Event.own, Loop.rank, hstop.2, if_true, Bool.false_eq_true, if_false,
        Bool.toNat_true]
      omega
  | dequeue =>
    simp only [step] at h
    split at h <;> cases h
    next hq =>
      refine ⟨?_, fun t hc ↦ hc.of_streams rfl ?_⟩
      · simp only [State.rank, Event.own, Place.rank, hq.1, Bool.toNat_true]
        omega
      · simp only [State.coming, hq.1, Place.coming]
        omega
  | pick i =>
    simp only [step] at h
    split at h <;> cases h
    next hp =>
      refine State.choose_spends ?_ rfl ?_
      · simp only [State.rank, Event.own, Place.rank, hp, Bool.toNat_true]
        omega
      · simp [State.coming, Place.coming, hp]
  | unplaceable | placed | abort | placeExit =>
    simp only [step] at h
    split at h <;> cases h
    next hp =>
      refine ⟨?_, fun t hc ↦ hc.of_streams rfl ?_⟩
      · simp only [State.rank, Event.own, Place.rank, State.resolveWaiter, hp, Bool.toNat_true,
          Bool.toNat_false]
        omega
      · simp only [State.coming, State.resolveWaiter, hp, Place.coming]
        omega

def finalCheckpoints : List Checkpoint := [.quota, .sessions, .history, .audit, .usage]

def Main.written (m : Main) : List Checkpoint :=
  match m with
  | .checkpointSessions => finalCheckpoints.take 1
  | .checkpointHistory => finalCheckpoints.take 2
  | .checkpointAudit => finalCheckpoints.take 3
  | .sampleUsage | .checkpointUsage => finalCheckpoints.take 4
  | _ => if m.rank < Main.checkpointUsage.rank then finalCheckpoints else []

structure Controlled (s : State) : Prop where
  httpOpen : s.main.rank ≤ Main.httpWait.rank → s.httpOpen = false
  grpcOpen : s.main.rank ≤ Main.gracefulWait.rank → s.grpcOpen = false
  evictStop : s.main = .evictWait → s.evict.stop = true
  placeStop : s.main = .closeQueue ∨ s.main = .placeWait → s.placeStop = true
  sweepStop : s.main = .sweepWait → s.sweep.stop = true
  log : s.log = s.main.written

theorem Controlled.of_sameControl {s s' : State} (h : s.SameControl s') (hs : Controlled s) :
    Controlled s' where
  httpOpen := by rw [h.main, h.httpOpen]; exact hs.httpOpen
  grpcOpen := by rw [h.main, h.grpcOpen]; exact hs.grpcOpen
  evictStop := by rw [h.main, h.evictStop]; exact hs.evictStop
  placeStop := by rw [h.main, h.placeStop]; exact hs.placeStop
  sweepStop := by rw [h.main, h.sweepStop]; exact hs.sweepStop
  log := by rw [h.main, h.log]; exact hs.log

theorem Controlled.mainStep {s s' : State} (h : s.mainStep = some s') (hs : Controlled s) :
    Controlled s' := by
  obtain ⟨hhttp, hgrpc, hevict, hplace, hsweep, hlog⟩ := hs
  unfold State.mainStep at h
  split at h
  all_goals
    next hm =>
      rw [hm] at hhttp hgrpc hplace hlog
      first
      | cases h
      | (split at h <;> cases h)
      -- a flag was set on this step or before, or is not claimed yet
      all_goals
        constructor <;> dsimp only [State.write]
        · first | exact fun _ ↦ rfl | exact fun _ ↦ hhttp (by decide) | exact fun h ↦ absurd h (by decide)
        · first | exact fun _ ↦ rfl | exact fun _ ↦ hgrpc (by decide) | exact fun h ↦ absurd h (by decide)
        · first | exact fun _ ↦ rfl | exact fun h ↦ absurd h (by decide)
        · first | exact fun _ ↦ rfl | exact fun _ ↦ hplace (by decide) | exact fun h ↦ absurd h (by decide)
        · first | exact fun _ ↦ rfl | exact fun h ↦ absurd h (by decide)
        · rw [hlog]
          rfl

theorem Controlled.step {s s' : State} {e : Event} (h : step s e = some s') (hs : Controlled s) :
    Controlled s' := by
  by_cases he : e = .main
  · subst he
    exact hs.mainStep h
  · exact hs.of_sameControl (step_sameControl h he)

theorem mainStep_spends {s s' : State} (h : s.mainStep = some s') :
    s'.main.rank < s.main.rank ∧ s.Spends 1 s' ∧ s'.streams = s.streams ∧ s'.now = s.now := by
  have hrank : s'.main.rank < s.main.rank ∧ s'.streams = s.streams ∧ s'.place = s.place ∧
      s'.evict.done = s.evict.done ∧ s'.sweep.done = s.sweep.done ∧ s'.queue = s.queue ∧
      s'.arrived = s.arrived ∧ s'.now = s.now := by
    unfold State.mainStep at h
    split at h
    all_goals
      next hm =>
        rw [hm]
        first
        | cases h
        | (split at h <;> cases h)
        all_goals exact ⟨by dsimp only [State.write]; decide, rfl, rfl, rfl, rfl, rfl, rfl, rfl⟩
  obtain ⟨hlt, hstreams, hplace, hevict, hsweep, hqueue, harrived, hnow⟩ := hrank
  refine ⟨hlt, ⟨?_, fun t hc ↦ hc.of_streams hstreams ?_⟩, hstreams, hnow⟩
  · simp only [State.rank, Loop.rank, hstreams, hplace, hevict, hsweep, hqueue, harrived]
    omega
  · simp only [State.coming, hplace, hqueue, harrived, le_refl]

theorem Controlled.spends {s s' : State} {e : Event} (hs : Controlled s)
    (hm : s.main.rank ≤ Main.gracefulWait.rank) (h : Cmd.step s e = some s') :
    s.Spends e.own.toNat s' := by
  by_cases he : e = .main
  · subst he
    exact (mainStep_spends h).2.1
  · exact step_spends h he (hs.httpOpen (hm.trans (by decide))) (hs.grpcOpen hm)

theorem Stream.ready {w : Stream} {t now : Time} {n : ℕ} (hc : w.Covered t n) (ht : t ≤ now)
    (hw : w.handler ≠ .returned) : ∃ m : Move, m.own ∧ (w.move now m).isSome := by
  cases hh : w.handler with
  | registering => exact absurd hh hc.registered
  | returned => exact absurd hh hw
  | removing | cancelling => exact ⟨.runDeferred, rfl, by simp [move, runDeferred, hh]⟩
  | acking =>
    have hroom := hc.room hh
    exact ⟨.ack, rfl, by simp only [move, ack, hh, true_and]; rw [if_pos (by omega)]; rfl⟩
  | reading =>
    rcases hc.leaves (.inr hh) with hcancel | ⟨r, hr, hdue⟩
    · exact ⟨.leave, rfl, by simp [move, leave, hh, hcancel]⟩
    · obtain ⟨j, hj⟩ := List.getElem?_of_mem hr
      refine ⟨.reap j .timer, rfl, ?_⟩
      cases r with
      | waiting deadline => simp [move, reap, hj, le_trans hdue ht]
      | evicting => simp [move, reap, hj]
      | cancelling => simp [move, reap, hj]
      | exited => exact hdue.elim

theorem onStream_isSome {s : State} {i : ℕ} {w : Stream} {f : Stream → Option Stream}
    (hw : s.streams[i]? = some w) (hf : (f w).isSome) : (s.onStream i f).isSome := by
  simp [State.onStream, hw, hf]

/-- Past the call of `GracefulStop`, and once the reapers' deadlines have gone by, the server
never waits for anyone but itself. -/
theorem ready_of_covered {s : State} {t : Time} (hs : Controlled s) (hc : s.Covered t)
    (ht : t ≤ s.now) (hm : s.main.rank ≤ Main.gracefulWait.rank)
    (hret : s.main ≠ .returned) : Ready step (·.own) s := by
  cases hmain : s.main with
  | withTimeout | httpShutdown | httpWait | metricsShutdown | metricsWait | gracefulStop =>
    rw [hmain] at hm
    exact absurd hm (by decide)
  | gracefulWait =>
    by_cases hall : ∀ w ∈ s.streams, w.handler = .returned
    · exact ⟨.main, rfl, by simp only [step, State.mainStep, hmain, if_pos hall, Option.isSome_some]⟩
    · push Not at hall
      obtain ⟨w, hw, hh⟩ := hall
      obtain ⟨i, hi⟩ := List.getElem?_of_mem hw
      obtain ⟨m, hown, hm⟩ := Stream.ready (hc w hw) ht hh
      exact ⟨.stream i m, hown, onStream_isSome hi hm⟩
  | evictWait =>
    cases hd : s.evict.done with
    | true => exact ⟨.main, rfl, by simp [step, State.mainStep, hmain, hd]⟩
    | false => exact ⟨.evictExit, rfl, by simp [step, hd, hs.evictStop hmain]⟩
  | sweepWait =>
    cases hd : s.sweep.done with
    | true => exact ⟨.main, rfl, by simp [step, State.mainStep, hmain, hd]⟩
    | false => exact ⟨.sweepExit, rfl, by simp [step, hd, hs.sweepStop hmain]⟩
  | placeWait =>
    have hstop := hs.placeStop (.inr hmain)
    cases hplace : s.place with
    | done => exact ⟨.main, rfl, by simp [step, State.mainStep, hmain, hplace]⟩
    | placing => exact ⟨.unplaceable, rfl, by simp [step, hplace, hstop]⟩
    | dispatching => exact ⟨.abort, rfl, by simp [step, hplace, hstop]⟩
    | dequeuing =>
      by_cases hq : s.queue = 0
      · exact ⟨.placeExit, rfl, by simp [step, hplace, hq, hstop]⟩
      · exact ⟨.dequeue, rfl, by simp [step, hplace, hq]⟩
  | returned => exact absurd hmain hret
  | _ => exact ⟨.main, rfl, by simp [step, State.mainStep, hmain]⟩

theorem ready_before_stop {s : State} (hm : Main.gracefulWait.rank < s.main.rank)
    (hd : s.main = .withTimeout ∨ s.deadline ≤ s.now) : (step s .main).isSome := by
  cases hmain : s.main with
  | withTimeout | httpShutdown | gracefulStop => simp [step, State.mainStep, hmain]
  | httpWait | metricsWait =>
    have hle : s.deadline ≤ s.now := hd.resolve_left (by simp [hmain])
    simp [step, State.mainStep, hmain, hle]
  | metricsShutdown => cases hs : s.scrapes <;> simp [step, State.mainStep, hmain, hs]
  | _ =>
    rw [hmain] at hm
    exact absurd hm (by decide)

theorem step_now {s s' : State} {e : Event} (h : step s e = some s') : s.now ≤ s'.now := by
  by_cases he : e = .main
  · subst he
    exact (mainStep_spends h).2.2.2.ge
  · exact (step_sameControl h he).now

theorem step_main_rank {s s' : State} {e : Event} (h : step s e = some s') :
    s'.main.rank ≤ s.main.rank := by
  by_cases he : e = .main
  · subst he
    exact (mainStep_spends h).1.le
  · rw [(step_sameControl h he).main]

theorem step_deadline {s s' : State} {e : Event} (h : step s e = some s')
    (hm : s.main ≠ .withTimeout) : s'.main ≠ .withTimeout ∧ s'.deadline = s.deadline := by
  by_cases he : e = .main
  · subst he
    simp only [step, State.mainStep] at h
    split at h
    · contradiction
    all_goals
      first
      | cases h
      | (split at h <;> cases h)
      all_goals exact ⟨by simp [State.write], rfl⟩
  · have hsame := step_sameControl h he
    exact ⟨hsame.main ▸ hm, hsame.deadline⟩

theorem called_gracefulStop {s s' : State} {e : Event} (h : step s e = some s')
    (hm : ¬ s.main.rank ≤ Main.gracefulWait.rank)
    (hm' : s'.main.rank ≤ Main.gracefulWait.rank) : e = .main ∧ s.main = .gracefulStop := by
  by_cases he : e = .main
  · subst he
    refine ⟨rfl, ?_⟩
    simp only [step, State.mainStep] at h
    split at h
    all_goals
      next hmain =>
        rw [hmain] at hm
        first
        | exact hmain
        | exact absurd (by decide) hm
        | (cases h; exact absurd hm' (by dsimp only; decide))
        | (split at h <;> cases h <;> exact absurd hm' (by dsimp only; decide))
  · exact absurd ((step_sameControl h he).main ▸ hm') hm

/-- Every call of `Connect` is past its registration. Those that have not sent `RegisterAck` have
room for it and for all that may still be sent before it, and those that are not past the reader
loop have been cancelled or have a forced drain under way. -/
def Drained (s : State) : Prop :=
  ∀ w ∈ s.streams, w.handler ≠ .registering ∧
    (w.handler = .acking → w.buffered + w.sending + s.coming < sendCapacity) ∧
    (w.handler = .acking ∨ w.handler = .reading → w.cancelled = true ∨ ∃ r ∈ w.reapers, r ≠ .exited)

def Stream.deadlines (w : Stream) : List Time :=
  w.reapers.filterMap fun r ↦
    match r with
    | .waiting deadline => some deadline
    | _ => none

def State.latest (s : State) : Time := (s.streams.flatMap Stream.deadlines).foldr max s.deadline

theorem le_foldr_max (l : List Time) (t : Time) :
    t ≤ l.foldr max t ∧ ∀ u ∈ l, u ≤ l.foldr max t := by
  induction l with
  | nil => simp
  | cons a l ih =>
    refine ⟨ih.1.trans (le_max_right _ _), fun u hu ↦ ?_⟩
    rcases List.mem_cons.mp hu with rfl | hu
    · exact le_max_left _ _
    · exact (ih.2 u hu).trans (le_max_right _ _)

theorem State.deadline_le_latest (s : State) : s.deadline ≤ s.latest := (le_foldr_max _ _).1

theorem Drained.covered {s : State} (h : Drained s) : s.Covered s.latest := by
  intro w hw
  obtain ⟨hregistered, hroom, hleaves⟩ := h w hw
  refine ⟨hregistered, hroom, fun hr ↦ (hleaves hr).imp_right fun ⟨r, hr, hne⟩ ↦ ⟨r, hr, ?_⟩⟩
  cases r with
  | waiting deadline =>
    refine (le_foldr_max _ _).2 deadline (List.mem_flatMap.mpr ⟨w, hw, ?_⟩)
    exact List.mem_filterMap.mpr ⟨_, hr, rfl⟩
  | evicting | cancelling => trivial
  | exited => exact hne rfl

section Run

variable {x : Execution step}

def Begins (s : State) : Prop := s.main = .withTimeout ∧ s.log = []

theorem Begins.controlled {s : State} (h : Begins s) : Controlled s := by
  obtain ⟨hm, hlog⟩ := h
  constructor <;> simp [hm, hlog, Main.rank, Main.ctorIdx, Main.written]

theorem controlled_of_begins (h : Begins (x.state 0)) (n : ℕ) : Controlled (x.state n) := by
  refine Execution.always h.controlled (fun m e _ he hs ↦ ?_) n n.zero_le
  exact hs.step (x.step_of_event he)

theorem eventually_late (hclock : ∀ t, ∃ n, t ≤ (x.state n).now) (t : Time) :
    ∃ N, ∀ m, N ≤ m → t ≤ (x.state m).now := by
  obtain ⟨N, hN⟩ := hclock t
  refine ⟨N, Execution.always (P := fun s : State ↦ t ≤ s.now) hN fun m e _ he h ↦ ?_⟩
  exact h.trans (step_now (x.step_of_event he))

theorem deadline_fixed {n : ℕ} (hn : (x.state n).main ≠ .withTimeout) :
    ∀ m, n ≤ m → (x.state m).main ≠ .withTimeout ∧ (x.state m).deadline = (x.state n).deadline := by
  refine Execution.always
    (P := fun s : State ↦ s.main ≠ .withTimeout ∧ s.deadline = (x.state n).deadline) ⟨hn, rfl⟩
    fun m e _ he h ↦ ?_
  obtain ⟨hmain, hd⟩ := step_deadline (x.step_of_event he) h.1
  exact ⟨hmain, hd.trans h.2⟩

theorem reaches_gracefulStop (hbegin : Begins (x.state 0)) (hfair : x.Fair (· = .main))
    (hclock : ∀ t, ∃ n, t ≤ (x.state n).now) :
    ∃ n, x.event n = some .main ∧ (x.state n).main = .gracefulStop := by
  obtain ⟨n₀, -, h₀⟩ : ∃ m, 0 ≤ m ∧ (x.state m).main ≠ .withTimeout := by
    refine hfair.leadsTo (P := fun s : State ↦ s.main = .withTimeout)
      (Q := fun s : State ↦ s.main ≠ .withTimeout) (fun s ↦ s.main.rank) ?_ ?_ hbegin.1
    · intro m e he hm
      by_cases hmain : e = .main
      · subst hmain
        have hlt := (mainStep_spends (x.step_of_event he)).1
        refine .inl fun h ↦ ?_
        rw [hm, h] at hlt
        exact lt_irrefl _ hlt
      · have hsame := (step_sameControl (x.step_of_event he) hmain).main
        exact .inr ⟨hsame.trans hm, by rw [hsame], fun h ↦ absurd h hmain⟩
    · refine ⟨0, fun m _ hm ↦ ⟨.main, rfl, ready_before_stop ?_ (.inl hm)⟩⟩
      rw [hm]
      decide
  obtain ⟨N, hN⟩ := eventually_late hclock (x.state n₀).deadline
  obtain ⟨n₁, h₁⟩ : ∃ m, (x.state m).main.rank ≤ Main.gracefulWait.rank := by
    by_contra! hearly
    suffices ∃ m, n₀ ≤ m ∧ False from this.elim fun _ h ↦ h.2
    refine hfair.leadsTo (P := fun _ ↦ True) (Q := fun _ ↦ False) (fun s ↦ s.main.rank) ?_ ?_ trivial
    · intro m e he _
      refine .inr ⟨trivial, step_main_rank (x.step_of_event he), fun hmain ↦ ?_⟩
      subst hmain
      exact (mainStep_spends (x.step_of_event he)).1
    · refine ⟨max n₀ N, fun m hm _ ↦ ⟨.main, rfl, ready_before_stop (hearly m) (.inr ?_)⟩⟩
      rw [(deadline_fixed h₀ m (by omega)).2]
      exact hN m (by omega)
  -- the step on which the main goroutine gets past the call is the call
  have h0 : ¬ (x.state 0).main.rank ≤ Main.gracefulWait.rank := by
    rw [hbegin.1]
    decide
  obtain ⟨n, e, -, -, he, hbefore, hafter⟩ := Execution.exists_crossing
    (P := fun s : State ↦ s.main.rank ≤ Main.gracefulWait.rank) (Nat.zero_le _) h0 h₁
  obtain ⟨rfl, hstop⟩ := called_gracefulStop (x.step_of_event he) hbefore hafter
  exact ⟨n, he, hstop⟩

theorem covered_after_stop (hbegin : Begins (x.state 0)) {n : ℕ} (he : x.event n = some .main)
    (hn : (x.state n).main = .gracefulStop) (hdrained : Drained (x.state n)) :
    ∀ m, n + 1 ≤ m → (x.state m).main.rank ≤ Main.gracefulWait.rank ∧
      (x.state m).Covered (x.state n).latest := by
  refine Execution.always
    (P := fun s : State ↦ s.main.rank ≤ Main.gracefulWait.rank ∧ s.Covered (x.state n).latest) ?_ ?_
  · have hstep := x.step_of_event he
    refine ⟨?_, (mainStep_spends hstep).2.1.2 _ hdrained.covered⟩
    simp only [step, State.mainStep, hn, Option.some.injEq] at hstep
    rw [← hstep]
  · rintro m e - he ⟨hrank, hcovered⟩
    have hstep := x.step_of_event he
    have hspends := (controlled_of_begins hbegin m).spends hrank hstep
    exact ⟨(step_main_rank hstep).trans hrank, hspends.2 _ hcovered⟩

/-- Shutdown gets to its last checkpoint and returns when, at the call of `GracefulStop`, every
running `Connect` call can send its `RegisterAck` and has been cancelled or is being drained with a
deadline. Beyond the last of these deadlines it never waits for a client, a worker or a timer. -/
theorem shutdown_completes (x : Execution step) (hbegin : Begins (x.state 0))
    (hmain : x.Fair (· = .main)) (hown : x.Fair (·.own))
    (hclock : ∀ t, ∃ n, t ≤ (x.state n).now)
    (hdrained : ∀ n, x.event n = some .main → (x.state n).main = .gracefulStop →
      Drained (x.state n)) :
    (∃ n, (x.state n).main = .returned ∧ (x.state n).log = finalCheckpoints) ∧
    ∃ n, x.event n = some .main ∧ (x.state n).main = .gracefulStop ∧
      ∀ m, (x.state n).latest ≤ (x.state m).now → (x.state m).main ≠ .returned →
        Ready step (·.own) (x.state m) := by
  obtain ⟨n, he, hn⟩ := reaches_gracefulStop hbegin hmain hclock
  have hs := controlled_of_begins hbegin
  have hafter := covered_after_stop hbegin he hn (hdrained n he hn)
  constructor
  · obtain ⟨m, -, hm⟩ : ∃ m, n + 1 ≤ m ∧ (x.state m).main = .returned := by
      by_cases hret : (x.state (n + 1)).main = .returned
      · exact ⟨n + 1, le_refl _, hret⟩
      obtain ⟨N, hN⟩ := eventually_late hclock (x.state n).latest
      obtain ⟨hrank, hc⟩ := hafter (n + 1) (le_refl _)
      refine hown.leadsTo
        (P := fun s : State ↦ Controlled s ∧ s.main.rank ≤ Main.gracefulWait.rank ∧
          s.Covered (x.state n).latest ∧ s.main ≠ .returned)
        (Q := fun s : State ↦ s.main = .returned) State.rank ?_ ?_ ⟨hs (n + 1), hrank, hc, hret⟩
      · rintro m e he ⟨hs, hrank, hc, -⟩
        have hstep := x.step_of_event he
        obtain ⟨hle, hc'⟩ := hs.spends hrank hstep
        by_cases hret : (x.state (m + 1)).main = .returned
        · exact .inl hret
        · refine .inr ⟨⟨hs.step hstep, (step_main_rank hstep).trans hrank, hc' _ hc, hret⟩, ?_⟩
          refine ⟨by omega, fun h ↦ ?_⟩
          simp only [h, Bool.toNat_true] at hle
          exact hle
      · exact ⟨N, fun m hm ⟨hs, hrank, hc, hret⟩ ↦ ready_of_covered hs hc (hN m hm) hrank hret⟩
    refine ⟨m, hm, ?_⟩
    rw [(hs m).log, hm]
    rfl
  · refine ⟨n, he, hn, fun m hlate hret ↦ ?_⟩
    by_cases hm : n + 1 ≤ m
    · exact ready_of_covered (hs m) (hafter m hm).2 hlate (hafter m hm).1 hret
    · have hrank : (x.state n).main.rank ≤ (x.state m).main.rank :=
        Execution.always (P := fun s : State ↦ s.main.rank ≤ (x.state m).main.rank) (le_refl _)
          (fun k e _ he h ↦ (step_main_rank (x.step_of_event he)).trans h) n (by omega)
      rw [hn] at hrank
      refine ⟨.main, rfl, ready_before_stop (lt_of_lt_of_le (by decide) hrank) ?_⟩
      by_cases hm₀ : (x.state m).main = .withTimeout
      · exact .inl hm₀
      · rw [← (deadline_fixed hm₀ n (by omega)).2]
        exact .inr ((x.state n).deadline_le_latest.trans hlate)

end Run

section Idle

variable (s₀ : State) (l : List Event)

def thenIdle : Execution step := .drive step s₀ fun n ↦ l.getD n (.tick 1)

theorem thenIdle_late (k : ℕ) :
    (thenIdle s₀ l).state (l.length + k) = { (thenIdle s₀ l).state l.length with
      now := ((thenIdle s₀ l).state l.length).now + k } := by
  induction k with
  | zero => simp
  | succ k ih =>
    have hstep : (thenIdle s₀ l).state (l.length + k + 1) =
        (step ((thenIdle s₀ l).state (l.length + k)) (l.getD (l.length + k) (.tick 1))).getD
          ((thenIdle s₀ l).state (l.length + k)) := Execution.drive_succ ..
    have htick : l.getD (l.length + k) (.tick 1) = .tick 1 := by simp
    rw [htick, ih] at hstep
    simpa [step, add_assoc] using hstep

variable {s₀ l}

theorem thenIdle_clock (t : Time) : ∃ n, t ≤ ((thenIdle s₀ l).state n).now := by
  refine ⟨l.length + (t - ((thenIdle s₀ l).state l.length).now).toNat, ?_⟩
  rw [thenIdle_late]
  have := Int.self_le_toNat (t - ((thenIdle s₀ l).state l.length).now)
  exact Int.le_add_of_sub_left_le this

theorem thenIdle_fair {own : Event → Prop}
    (h : ∀ t, ¬ Ready step own { (thenIdle s₀ l).state l.length with now := t }) :
    (thenIdle s₀ l).Fair own := by
  intro n hn
  have hready := hn (l.length + n) (by omega)
  rw [thenIdle_late] at hready
  exact absurd hready (h _)

end Idle

theorem not_ready_of_rank_zero {s : State} (hs : Controlled s) (h : s.rank = 0) {own : Event → Prop}
    (hown : ∀ e, own e → e.own = true) : ¬ Ready step own s := by
  rintro ⟨e, he, hsome⟩
  obtain ⟨s', hs'⟩ := Option.isSome_iff_exists.mp hsome
  have hm : s.main.rank ≤ Main.gracefulWait.rank := by
    unfold State.rank at h
    omega
  obtain ⟨hle, -⟩ := hs.spends hm hs'
  rw [hown e he, h] at hle
  exact absurd hle (by simp)

instance : DecidablePred Drained := fun s ↦
  inferInstanceAs (Decidable (∀ w ∈ s.streams, w.handler ≠ .registering ∧
    (w.handler = .acking → w.buffered + w.sending + s.coming < sendCapacity) ∧
    (w.handler = .acking ∨ w.handler = .reading → w.cancelled = true ∨ ∃ r ∈ w.reapers, r ≠ .exited)))

def drainingWorker : State where
  now := 0
  streams := [{ handler := .acking, buffered := 14, sending := 1, pending := 1, reapers := [.waiting 5] }]

def drainAndStop : List Event :=
  [.main, .main, .main, .main, .main, .stream 0 .send, .stream 0 .ack, .tick 5,
    .stream 0 (.reap 0 .timer), .stream 0 (.reap 0 .timer), .stream 0 (.reap 0 .timer),
    .stream 0 .leave, .stream 0 .runDeferred, .stream 0 .runDeferred, .main, .main, .main, .main,
    .main, .main, .main, .main, .evictExit, .main, .main, .main, .placeExit, .main, .main, .main,
    .sweepExit, .main, .main]

theorem shutdown_completes_drainingWorker :
    ∃ n, ((thenIdle drainingWorker drainAndStop).state n).main = .returned ∧
      ((thenIdle drainingWorker drainAndStop).state n).log = finalCheckpoints := by
  have hend : (thenIdle drainingWorker drainAndStop).state drainAndStop.length =
      { now := 5, main := .returned, deadline := httpShutdownTimeout, httpOpen := false,
        grpcOpen := false, evict := ⟨true, true⟩, sweep := ⟨true, true⟩, place := .done,
        placeStop := true, queueClosed := true, log := finalCheckpoints,
        streams := [{ handler := .returned, cancelled := true, buffered := 16, reapers := [.exited] }] } := by
    decide +kernel
  have hidle {own : Event → Prop} (hown : ∀ e, own e → e.own = true) :
      (thenIdle drainingWorker drainAndStop).Fair own := by
    refine thenIdle_fair fun t ↦ not_ready_of_rank_zero ?_ ?_ hown
    · rw [hend]
      constructor <;> simp [Main.written, Main.rank, Main.ctorIdx]
    · rw [hend]
      rfl
  have hbegin : Begins ((thenIdle drainingWorker drainAndStop).state 0) := ⟨rfl, rfl⟩
  refine (shutdown_completes (thenIdle drainingWorker drainAndStop) hbegin (hidle ?_)
    (hidle fun _ h ↦ h) thenIdle_clock ?_).1
  · rintro e rfl
    rfl
  · intro n _ hn
    by_cases hlate : drainAndStop.length ≤ n
    · obtain ⟨k, rfl⟩ := Nat.exists_eq_add_of_le hlate
      rw [thenIdle_late, hend] at hn
      cases hn
    · have hdrained : ∀ n < drainAndStop.length,
          ((thenIdle drainingWorker drainAndStop).state n).main = .gracefulStop →
            Drained ((thenIdle drainingWorker drainAndStop).state n) := by
        decide +kernel
      exact hdrained n (by omega) hn

theorem Stream.move_of_idle {w : Stream} (t : Time) {m : Move} (hh : w.handler = .reading)
    (hc : w.cancelled = false) (hr : w.reapers = []) (hm : m.own) : w.move t m = none := by
  cases m with
  | ack | leave | runDeferred | reap => simp [move, ack, leave, runDeferred, reap, hh, hc, hr]
  | _ => cases hm

/-- With one idle worker on an open stream, shutdown waits in `GracefulStop` for ever: nothing
the server does ends the stream, and no checkpoint is written. -/
theorem shutdown_waits_for_connected_worker :
    ∃ x : Execution step, x.state 0 = { now := 0, streams := [{ handler := .reading }] } ∧
      Begins (x.state 0) ∧ x.Fair (· = .main) ∧ x.Fair (·.own) ∧
      (∀ t, ∃ n, t ≤ (x.state n).now) ∧
      ∀ n, (x.state n).main ≠ .returned ∧ (x.state n).log = [] := by
  let s₀ : State := { now := 0, streams := [{ handler := .reading }] }
  have hend : (thenIdle s₀ (List.replicate 5 .main)).state 5 =
      { s₀ with main := .gracefulWait, deadline := httpShutdownTimeout, httpOpen := false,
                grpcOpen := false } := by
    decide
  have hidle {own : Event → Prop} (hown : ∀ e, own e → e.own = true) :
      (thenIdle s₀ (List.replicate 5 .main)).Fair own := by
    refine thenIdle_fair fun t ↦ ?_
    rintro ⟨e, he, hsome⟩
    have hown := hown e he
    rw [List.length_replicate, hend] at hsome
    cases e with
    | main => simp [step, State.mainStep, s₀] at hsome
    | stream i m =>
      have hnone := Stream.move_of_idle (w := { handler := .reading }) t rfl rfl rfl hown
      cases i <;> simp [step, State.onStream, hnone, s₀] at hsome
    | evictExit | sweepExit | dequeue | pick | unplaceable | abort | placeExit =>
      simp [step, s₀] at hsome
    | _ => cases hown
  refine ⟨thenIdle s₀ (List.replicate 5 .main), rfl, ⟨rfl, rfl⟩, hidle ?_, hidle fun _ h ↦ h,
    thenIdle_clock, fun n ↦ ?_⟩
  · rintro e rfl
    rfl
  · by_cases hlate : 5 ≤ n
    · obtain ⟨k, rfl⟩ := Nat.exists_eq_add_of_le hlate
      have hk := thenIdle_late s₀ (List.replicate 5 .main) k
      rw [List.length_replicate, hend] at hk
      rw [hk]
      exact ⟨by simp, rfl⟩
    · have hearly : ∀ n < 5, ((thenIdle s₀ (List.replicate 5 .main)).state n).main ≠ .returned ∧
          ((thenIdle s₀ (List.replicate 5 .main)).state n).log = [] := by
        decide
      exact hearly n (by omega)

/-- To the streams a step of the server is a step of one of them, a new one or nothing. -/
theorem step_streams {s s' : State} {e : Event} (h : step s e = some s') :
    s'.streams = s.streams ∨ (∃ w, s'.streams = s.streams ++ [w]) ∨
      ∃ i w w', s.streams[i]? = some w ∧ w.Step s.now w' ∧ s'.streams = s.streams.set i w' := by
  have hupdate {r : State} {i : ℕ} {g : Stream → Stream} (hr : r.streams = s.streams)
      (hg : ∀ w, Stream.Step s.now w (g w)) :
      (r.update i g).streams = s.streams ∨ (∃ w, (r.update i g).streams = s.streams ++ [w]) ∨ ∃ j w w',
        s.streams[j]? = some w ∧ w.Step s.now w' ∧ (r.update i g).streams = s.streams.set j w' := by
    rcases r.update_cases i g with hsame | hon
    · exact .inl (by rw [hsame, hr])
    · obtain ⟨w, w', hw, hw', hr'⟩ := State.onStream_some hon
      cases hw'
      exact .inr (.inr ⟨i, w, _, hr ▸ hw, hg w, by rw [hr', ← hr]⟩)
  cases e with
  | main => exact .inl (mainStep_spends h).2.2.1
  | stream i m =>
    obtain ⟨w, w', hw, hm, rfl⟩ := State.onStream_some h
    exact .inr (.inr ⟨i, w, w', hw, .move hm, rfl⟩)
  | act a =>
    simp only [step, State.act] at h
    split at h
    · cases h
    · cases a with
      | dispatch i =>
        cases h
        exact hupdate rfl fun _ ↦ .choose
      | drain i deadline =>
        cases h
        exact hupdate rfl fun _ ↦ .drain deadline
      | enqueue =>
        simp only at h
        split at h <;> cases h <;> exact .inl rfl
      | other =>
        cases h
        exact .inl rfl
  | connect =>
    simp only [step] at h
    split at h <;> cases h
    exact .inr (.inl ⟨_, rfl⟩)
  | evictStale i =>
    simp only [step] at h
    split at h <;> cases h
    exact hupdate rfl fun _ ↦ .evictStale
  | pick i =>
    simp only [step] at h
    split at h <;> cases h
    exact hupdate rfl fun _ ↦ .choose
  | tick | scraped =>
    cases h
    exact .inl rfl
  | _ =>
    simp only [step] at h
    split at h <;> cases h
    exact .inl rfl

/-- `Connect` is at the send of `RegisterAck` and the channel is full. -/
def Stream.Stuck (w : Stream) : Prop := w.handler = .acking ∧ sendCapacity ≤ w.buffered

theorem Stream.Stuck.step {w w' : Stream} {now : Time} (hw : w.Stuck) (h : w.Step now w') :
    w'.Stuck := by
  obtain ⟨hh, hfull⟩ := hw
  cases h with
  | choose | evictStale => exact ⟨hh, hfull⟩
  | drain deadline =>
    unfold drain
    split <;> exact ⟨hh, hfull⟩
  | @move m w' h =>
    cases m with
    | message | hangUp | runDeferred => simp [move, handle, hangUp, runDeferred, hh] at h
    | ack | leave | write | send => simp [move, ack, leave, write, send, hh, hfull.not_gt] at h
    | disconnect | addPending | deletePending =>
      cases h
      exact ⟨hh, hfull⟩
    | giveUp | reap =>
      simp only [move, giveUp, reap] at h
      repeat' split at h
      all_goals cases h
      all_goals exact ⟨hh, hfull⟩

theorem passed_gracefulWait {s s' : State} (h : s.mainStep = some s')
    (hm : Main.gracefulWait.rank ≤ s.main.rank) (hm' : ¬ Main.gracefulWait.rank ≤ s'.main.rank) :
    ∀ w ∈ s.streams, w.handler = .returned := by
  unfold State.mainStep at h
  split at h
  all_goals
    next hmain =>
      rw [hmain] at hm
      first
      | exact absurd hm (by decide)
      | (cases h; exact absurd (by dsimp only; decide) hm')
      | (split at h <;> cases h <;> first | assumption | exact absurd (by dsimp only; decide) hm')

/-- A worker whose channel is filled before `Connect` has sent `RegisterAck` holds the shutdown up
for ever, whether it is cancelled, drained or gone. -/
theorem shutdown_waits_for_full_channel {x : Execution step} {n i : ℕ} {w : Stream}
    (hw : (x.state n).streams[i]? = some w) (hstuck : w.Stuck)
    (hmain : Main.gracefulWait.rank ≤ (x.state n).main.rank) :
    ∀ m, n ≤ m → Main.gracefulWait.rank ≤ (x.state m).main.rank := by
  suffices h : ∀ m, n ≤ m → (∃ w, (x.state m).streams[i]? = some w ∧ w.Stuck) ∧
      Main.gracefulWait.rank ≤ (x.state m).main.rank from fun m hm ↦ (h m hm).2
  refine Execution.always (P := fun s : State ↦ (∃ w, s.streams[i]? = some w ∧ w.Stuck) ∧
    Main.gracefulWait.rank ≤ s.main.rank) ⟨⟨w, hw, hstuck⟩, hmain⟩ ?_
  rintro m e - he ⟨⟨w, hw, hstuck⟩, hmain⟩
  have hstep := x.step_of_event he
  have hlt := (List.getElem?_eq_some_iff.mp hw).1
  constructor
  · rcases step_streams hstep with hsame | ⟨v, hnew⟩ | ⟨j, v, v', hv, hmove, hset⟩
    · exact ⟨w, hsame ▸ hw, hstuck⟩
    · exact ⟨w, by rw [hnew, List.getElem?_append_left hlt, hw], hstuck⟩
    · rw [hset]
      by_cases hji : j = i
      · subst hji
        obtain rfl := Option.some.inj (hv.symm.trans hw)
        exact ⟨v', List.getElem?_set_self hlt, hstuck.step hmove⟩
      · exact ⟨w, by rw [List.getElem?_set_ne hji, hw], hstuck⟩
  · by_contra hpast
    by_cases hmainStep : e = .main
    · subst hmainStep
      have hreturned := passed_gracefulWait hstep hmain hpast w (List.mem_of_getElem? hw)
      cases hreturned.symm.trans hstuck.1
    · rw [(step_sameControl hstep hmainStep).main] at hpast
      exact hpast hmain

end AgentGpu.Cmd
