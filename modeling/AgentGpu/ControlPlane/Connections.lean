import AgentGpu.Cmd.Shutdown
import AgentGpu.ControlPlane.Reaper
import AgentGpu.ControlPlane.Replies
import Mathlib.Logic.Relation

namespace AgentGpu.ControlPlane

open Foundation Relation

namespace Instr

/-- A job or a command for worker `h` that is not in the worker's channel yet. -/
def approaches (h : ℕ) : Instr → Bool
  | .addObserver k _ | .addPending _ k _ | .send _ k _ _ | .sendCommand k _ => k == h
  | _ => false

/-- What only the `Connect` call of stream `h` and the reapers of its worker do. -/
def drives (h : ℕ) : Instr → Bool
  | .unregister k cause | .fail k cause => k == h && cause != .stale
  | .reap k _ | .cancel k => k == h
  | i => i.handlerOf h

def fails : Instr → Bool
  | .failDeliver .. | .failForward .. | .failClose _ => true
  | _ => false

theorem handle_of_drives {h : ℕ} {i : Instr} (hi : i.drives h) : i.handle = some h := by
  cases i <;> simp_all [drives, handlerOf, readerOf, handle]

theorem handle_of_approaches {h : ℕ} {i : Instr} (hi : i.approaches h) : i.handle = some h := by
  cases i <;> simp_all [approaches, handle]

end Instr

variable {s : Server} {i : Instr} {x : Choice} {e : Effect Server Instr} {R : Multiset Instr}
  {c : Config Server Instr} {h k : ℕ} {rest : List Instr} {now : Time} {w v : Cmd.Stream}

/-- The stream as the rest of the control plane finds it. -/
structure Load (s : Server) (S : Multiset Instr) (h : ℕ) (w : Cmd.Stream) : Prop where
  cancelled : w.cancelled = (s.worker h).cancelled
  pending : w.pending = (s.worker h).inFlight
  buffered : w.buffered = (s.worker h).send.buffered.length
  sending : w.sending = S.countP (·.approaches h)

def Worker.traffic (w : Worker) : Bool × ℕ × ℕ := (w.cancelled, w.inFlight, w.send.buffered.length)

theorem Load.worker {S : Multiset Instr} (hL : Load s S h w) :
    (w.cancelled, w.pending, w.buffered) = (s.worker h).traffic := by
  rw [hL.cancelled, hL.pending, hL.buffered, Worker.traffic]

theorem Load.after (hL : Load s (i ::ₘ R) h w)
    (hworker : (v.cancelled, v.pending, v.buffered) = (e.shared.worker h).traffic)
    (hcount : v.sending + (if i.approaches h then 1 else 0) =
      w.sending + e.fresh.countP (·.approaches h)) : Load e.shared (e.fresh + R) h v := by
  obtain ⟨hcancelled, hpending, hbuffered⟩ : _ ∧ _ ∧ _ := by
    simpa only [Worker.traffic, Prod.mk.injEq] using hworker
  refine ⟨hcancelled, hpending, hbuffered, ?_⟩
  have hold := hL.sending
  rw [Multiset.countP_cons] at hold
  rw [Multiset.countP_add]
  omega

theorem Load.sending_ne_zero (hL : Load s (i ::ₘ R) h w) (hi : i.approaches h) : w.sending ≠ 0 := by
  have hsending := hL.sending
  rw [Multiset.countP_cons, if_pos hi] at hsending
  omega

theorem Load.room {S : Multiset Instr} {m : ServerMessage} {chan : Chan ServerMessage}
    (hL : Load s S h w) (hcap : (s.worker h).send.cap = Cmd.sendCapacity)
    (hc : (s.worker h).send.send m = some chan) : w.buffered < Cmd.sendCapacity := by
  rw [hL.buffered, ← hcap]
  exact Chan.buffered_lt_of_send hc

namespace Worker

variable (w : Worker) (jobID : String)

theorem inFlight_eq_tally : w.inFlight = Table.tally w.pending fun _ ↦ true := by
  simp [inFlight, Table.tally]

theorem inFlight_addPending (ch : ℕ) :
    (w.addPending jobID ch).inFlight = w.inFlight ∨ (w.addPending jobID ch).inFlight = w.inFlight + 1 := by
  simp only [inFlight_eq_tally]
  cases hl : w.pending.lookup jobID with
  | none => exact .inr (Table.tally_insert_of_notMem (AList.lookup_eq_none.mp hl))
  | some old => exact .inl (Table.tally_insert_of_eq hl rfl)

theorem inFlight_deletePending :
    (w.deletePending jobID).inFlight = w.inFlight ∨ (w.deletePending jobID).inFlight = w.inFlight - 1 := by
  simp only [inFlight_eq_tally]
  cases hl : w.pending.lookup jobID with
  | none =>
    have hsame : w.pending.erase jobID = w.pending :=
      AList.ext (List.kerase_of_notMem_keys (AList.lookup_eq_none.mp hl))
    exact .inl (by rw [deletePending, hsame])
  | some ch =>
    have herase := Table.tally_erase (p := fun _ ↦ true) hl
    exact .inr (by simp only [deletePending]; simp only [if_true] at herase; omega)

end Worker

def Instr.alters (h : ℕ) : Instr → Bool
  | .ack k | .fail k _ | .cancel k => k == h
  | _ => false

/-- What the goroutines that drive a stream do to its worker. -/
def Instr.Alters (w v : Cmd.Stream) : Instr → Prop
  | .ack _ => w.buffered < Cmd.sendCapacity ∧ v = { w with buffered := w.buffered + 1 }
  | .fail .. => v = w.failAllPending
  | .cancel _ => v = { w with cancelled := true }
  | _ => False

/-- `v` is `w` after a step of any goroutine, apart from where `Connect` and the reapers are. -/
structure Shifted (now : Time) (s : Server) (S : Multiset Instr) (h : ℕ) (i : Instr)
    (w v : Cmd.Stream) : Prop where
  load : Load s S h v
  handler : v.handler = w.handler
  reapers : v.reapers = w.reapers
  passes : if i.alters h then i.Alters w v else ReflTransGen (Cmd.Stream.Step now) w v

theorem shifted_quiet (hL : Load s (i ::ₘ R) h w) (hi : i.alters h = false)
    (hworker : (e.shared.worker h).traffic = (s.worker h).traffic)
    (hcount : e.fresh.countP (·.approaches h) = if i.approaches h then 1 else 0) :
    ∃ v, Shifted now e.shared (e.fresh + R) h i w v :=
  ⟨w, hL.after (hL.worker.trans hworker.symm) (by rw [hcount]), rfl, rfl, by rw [hi]; exact .refl⟩

theorem passes_pending {n : ℕ} (hn : n = w.pending ∨ n = w.pending - 1 ∨ n = w.pending + 1) :
    ReflTransGen (Cmd.Stream.Step now) w { w with pending := n } := by
  rcases hn with rfl | rfl | rfl
  · exact .refl
  · exact .single (.move (m := .deletePending) rfl)
  · exact .single (.move (m := .addPending) rfl)

/-- The instructions that look a worker up and get one. -/
def Instr.chooses : Instr → Bool
  | .pick .. | .placeItem _ | .command .. => true
  | _ => false

theorem Step.approaches_of_fresh (hs : Step s i x e) (hi : i.handle ≠ some h) (hc : i.chooses = false) :
    e.fresh.countP (·.approaches h) = 0 := by
  refine Effect.countP_fresh_eq_zero fun j hj ↦ Bool.eq_false_iff.mpr fun ha ↦ ?_
  have hleft := hs.leaves j hj
  cases j with
  | addObserver k job => simp [hleft.1, Instr.chooses] at hc
  | send o k job ch => exact hi (by rw [hleft.1]; exact congrArg some (eq_of_beq ha))
  | sendCommand k m =>
    obtain ⟨id, rfl, -⟩ := hleft
    cases hc
  | addPending o k job =>
    rcases hleft with ⟨rfl, -⟩ | ⟨item, rfl, -⟩ | ⟨rfl, -⟩
    · cases hc
    · cases hc
    · exact hi (congrArg some (eq_of_beq ha))
  | _ => cases ha

theorem Step.traffic_of_ne (hs : Step s i x e) (hi : i.handle ≠ some h) (hh : h ≤ s.nextSes) :
    (e.shared.worker h).traffic = (s.worker h).traffic := by
  induction hs with
  | register => exact congrArg Worker.traffic (addWorker_of_ne (by omega))
  | _ =>
    first
    | rfl
    | exact congrArg Worker.traffic (Function.update_of_ne (fun hk ↦ hi (congrArg some hk.symm)) ..)

theorem Step.shifted_of_ne (hs : Step s i x e) (hi : i.handle ≠ some h) (hh : h ≤ s.nextSes)
    (hL : Load s (i ::ₘ R) h w) : ∃ v, Shifted now e.shared (e.fresh + R) h i w v := by
  have halters : i.alters h = false := by
    cases i <;> first | rfl | exact beq_eq_false_iff_ne.mpr fun hk ↦ hi (congrArg some hk)
  have happroaches : i.approaches h = false := Bool.eq_false_iff.mpr fun ha ↦ hi (Instr.handle_of_approaches ha)
  have hquiet (hcount : e.fresh.countP (·.approaches h) = 0) :
      ∃ v, Shifted now e.shared (e.fresh + R) h i w v :=
    shifted_quiet hL halters (hs.traffic_of_ne hi hh) (by rw [hcount, happroaches]; rfl)
  cases hc : i.chooses with
  | false => exact hquiet (hs.approaches_of_fresh hi hc)
  | true =>
    -- the worker that was looked up may be this one
    have hone : e.shared = s ∧ e.fresh.countP (·.approaches h) ≤ 1 := by
      rw [Effect.countP_fresh]
      cases i with
      | pick | placeItem | command =>
        cases hs <;> exact ⟨rfl, List.countP_le_length.trans (by simp)⟩
      | _ => cases hc
    rcases Nat.le_one_iff_eq_zero_or_eq_one.mp hone.2 with hnone | hone'
    · exact hquiet hnone
    · refine ⟨w.choose, hL.after (by rw [hone.1]; exact hL.worker) ?_, rfl, rfl, ?_⟩
      · rw [hone', happroaches]
        rfl
      · rw [halters]
        exact .single .choose

theorem shifted_deletePending {jobID : String} (hL : Load s (i ::ₘ R) h w)
    (hi : i.alters h = false ∧ i.approaches h = false) (hnone : e.fresh.countP (·.approaches h) = 0)
    (hworker : e.shared.worker h = (s.worker h).deletePending jobID) :
    ∃ v, Shifted now e.shared (e.fresh + R) h i w v := by
  have hpending := (s.worker h).inFlight_deletePending jobID
  rw [← hL.pending] at hpending
  refine ⟨{ w with pending := ((s.worker h).deletePending jobID).inFlight }, hL.after ?_ ?_, rfl, rfl, ?_⟩
  · rw [hworker, hL.cancelled, hL.buffered]
    rfl
  · rw [hi.2, hnone]
    rfl
  · rw [hi.1]
    exact passes_pending (hpending.imp_right .inl)

theorem shifted_send {m : ServerMessage} {chan : Chan ServerMessage} (hL : Load s (i ::ₘ R) h w)
    (hcap : (s.worker h).send.cap = Cmd.sendCapacity) (hi : i.alters h = false ∧ i.approaches h)
    (hnone : e.fresh.countP (·.approaches h) = 0) (hc : (s.worker h).send.send m = some chan)
    (hworker : e.shared.worker h = { s.worker h with send := chan }) :
    ∃ v, Shifted now e.shared (e.fresh + R) h i w v := by
  have hsending := hL.sending_ne_zero hi.2
  refine ⟨{ w with sending := w.sending - 1, buffered := w.buffered + 1 }, hL.after ?_ ?_, rfl, rfl, ?_⟩
  · simp [hworker, Worker.traffic, hL.cancelled, hL.pending, hL.buffered, Chan.buffered_of_send hc,
      Worker.inFlight]
  · rw [hi.2, hnone, if_pos rfl]
    exact Nat.sub_add_cancel (Nat.pos_of_ne_zero hsending)
  · rw [hi.1]
    exact .single (.move (m := .send) (if_pos ⟨hsending, hL.room hcap hc⟩))

theorem Step.shifted_own (hs : Step s i x e) (hi : i.handle = some h)
    (hcap : (s.worker h).send.cap = Cmd.sendCapacity) (hL : Load s (i ::ₘ R) h w)
    (hwriter : i = .write h → w.handler ≠ .registering ∧ w.handler ≠ .acking) :
    ∃ v, Shifted now e.shared (e.fresh + R) h i w v := by
  have hbulk (hspreads : i.spreads e) : e.fresh.countP (·.approaches h) = 0 := by
    refine Effect.countP_fresh_eq_zero fun j hj ↦ ?_
    have hbulk := hs.bulk_of_spreads hspreads j hj
    cases j <;> first | rfl | cases hbulk
  induction hs with
  | ack hc =>
    obtain rfl := Option.some.inj hi
    refine ⟨{ w with buffered := w.buffered + 1 }, hL.after ?_ rfl, rfl, rfl, ?_⟩
    · simp [Worker.traffic, hL.cancelled, hL.pending, hL.buffered, Chan.buffered_of_send hc, Worker.inFlight]
    · simp only [Instr.alters, beq_self_eq_true, if_true]
      exact ⟨hL.room hcap hc, rfl⟩
  | wrote hc | wroteJob hc =>
    obtain rfl := Option.some.inj hi
    have hlength := congrArg List.length (Chan.buffered_of_recv hc)
    rw [List.length_cons, ← hL.buffered] at hlength
    obtain ⟨hregistered, hacked⟩ := hwriter rfl
    refine ⟨{ w with buffered := w.buffered - 1 }, hL.after ?_ rfl, rfl, rfl, .single ?_⟩
    · simp [Worker.traffic, hL.cancelled, hL.pending, hlength, Worker.inFlight, Server.setWorker]
    · exact .move (m := .write) (if_pos ⟨hregistered, hacked, by omega⟩)
  | send hc | sendCommand hc =>
    obtain rfl := Option.some.inj hi
    exact shifted_send hL hcap ⟨rfl, beq_self_eq_true _⟩ rfl hc Server.setWorker_self
  | @quit i x hq =>
    by_cases ha : i.approaches h
    · have hsending := hL.sending_ne_zero ha
      refine ⟨{ w with sending := w.sending - 1 }, hL.after hL.worker ?_, rfl, rfl, ?_⟩
      · rw [ha]
        exact Nat.sub_add_cancel (Nat.pos_of_ne_zero hsending)
      · cases i with
        | sendCommand => exact .single (.move (m := .giveUp) (if_pos hsending))
        | _ => first | cases ha | cases hq
    · refine shifted_quiet hL ?_ rfl (by rw [if_neg ha]; rfl)
      cases i <;> first | rfl | cases hq
  | @sendGone o job k ch hd =>
    obtain rfl := Option.some.inj hi
    have hsending := hL.sending_ne_zero (beq_self_eq_true k)
    have hpending := (s.worker k).inFlight_deletePending job.id
    rw [← hL.pending] at hpending
    refine ⟨{ w with sending := w.sending - 1, pending := ((s.worker k).deletePending job.id).inFlight },
      hL.after ?_ ?_, rfl, rfl, .head (.move (m := .giveUp) (if_pos hsending))
        (passes_pending (w := { w with sending := w.sending - 1 }) (hpending.imp_right .inl))⟩
    · simp only [Server.deletePending, Server.setWorker_self, hL.cancelled, hL.buffered]
      rfl
    · simp only [Instr.approaches, beq_self_eq_true, if_true]
      exact Nat.sub_add_cancel (Nat.pos_of_ne_zero hsending)
  | awaitGone | resolve =>
    obtain rfl := Option.some.inj hi
    exact shifted_deletePending hL ⟨rfl, rfl⟩ rfl Server.setWorker_self
  | addPending o k job =>
    obtain rfl := Option.some.inj hi
    have hpending := (s.worker k).inFlight_addPending job.id s.nextChan
    rw [← hL.pending] at hpending
    refine ⟨{ w with pending := ((s.worker k).addPending job.id s.nextChan).inFlight }, hL.after ?_ ?_,
      rfl, rfl, passes_pending (hpending.imp_right .inr)⟩
    · simp only [Server.setWorker_self, hL.cancelled, hL.buffered]
      rfl
    · rw [Effect.countP_fresh]
      simp [Instr.approaches]
  | fail =>
    obtain rfl := Option.some.inj hi
    refine ⟨w.failAllPending, hL.after ?_ ?_, rfl, rfl, ?_⟩
    · simp [Worker.traffic, Cmd.Stream.failAllPending, hL.cancelled, hL.buffered, Worker.takeAll, Worker.inFlight]
    · rw [hbulk rfl]
      rfl
    · simp only [Instr.alters, beq_self_eq_true, if_true]
      rfl
  | cancel k =>
    obtain rfl := Option.some.inj hi
    refine ⟨{ w with cancelled := true }, hL.after ?_ rfl, rfl, rfl, ?_⟩
    · simp [Worker.traffic, hL.pending, hL.buffered, Worker.inFlight]
    · simp only [Instr.alters, beq_self_eq_true, if_true]
      rfl
  | markDraining => exact shifted_quiet hL rfl (Server.proj_of_update Worker.traffic rfl (by rfl) h) (hbulk rfl)
  | addObserver k job =>
    refine shifted_quiet hL rfl (Server.proj_of_update Worker.traffic rfl (by rfl) h) ?_
    rw [Effect.countP_fresh]
    simp [List.countP_cons, Instr.approaches]
  | _ =>
    first
    | exact shifted_quiet hL rfl rfl rfl
    | exact shifted_quiet hL rfl (Server.proj_of_update Worker.traffic rfl (by rfl) h) rfl
    | cases hi

theorem Shifted.silent {S : Multiset Instr} (hV : Shifted now s S h i w v) (hi : i.alters h = false) :
    ReflTransGen (Cmd.Stream.Step now) w v := by
  simpa [hi] using hV.passes

theorem Shifted.altered {S : Multiset Instr} (hV : Shifted now s S h i w v) (hi : i.alters h) :
    i.Alters w v := by
  simpa [hi] using hV.passes

/-- What a goroutine that removes stream `h` has left to do, by the stages of `Connect`. -/
inductive Exiting (h : ℕ) (cause : Cause) : Cmd.Handler → List Instr → Prop
  | unregister : Exiting h cause .removing [.unregister h cause]
  | fail : Exiting h cause .removing [.fail h cause]
  | cancelling {l : List Instr} (hl : ∀ i ∈ l, i.fails) : Exiting h cause .cancelling (l ++ [.cancel h])
  | returned : Exiting h cause .returned []

theorem Step.fails_next (hs : Step s i x e) (hi : i.fails) :
    (∀ j ∈ e.next, j.fails) ∧ e.spawned = [] ∧ i.alters h = false := by
  cases i with
  | failDeliver | failForward | failClose => cases hs <;> simp_all [Instr.fails, Instr.mayQuit, Instr.alters]
  | _ => cases hi

theorem Exiting.step {cause : Cause} {a : Cmd.Handler} (hE : Exiting h cause a (i :: rest))
    (hcause : cause ≠ .stale) (hs : Step s i x e) :
    e.spawned = [] ∧ ∃ a', Exiting h cause a' (e.next ++ rest) ∧
      (a' = a ∧ i.alters h = false ∨ a = .removing ∧ a' = .cancelling ∧ i = .fail h cause ∨
        a = .cancelling ∧ a' = .returned ∧ i = .cancel h) := by
  generalize hth : i :: rest = th at hE
  cases hE with
  | unregister =>
    cases hth
    cases hs with
    | quit hq => cases hq
    | unregisterOther | unregister => exact ⟨rfl, _, .fail, .inl ⟨rfl, rfl⟩⟩
  | fail =>
    cases hth
    cases hs with
    | quit hq => cases hq
    | fail =>
      rw [if_neg hcause, List.append_nil]
      exact ⟨rfl, _, .cancelling (forall_failures (fun _ _ _ ↦ rfl) fun _ _ _ ↦ rfl), .inr (.inl ⟨rfl, rfl, rfl⟩)⟩
  | @cancelling l hl =>
    cases l with
    | nil =>
      obtain ⟨rfl, rfl⟩ := List.cons_eq_cons.mp hth
      cases hs with
      | quit hq => cases hq
      | cancel => exact ⟨rfl, _, .returned, .inr (.inr ⟨rfl, rfl, rfl⟩)⟩
    | cons j l =>
      obtain ⟨rfl, rfl⟩ := List.cons_eq_cons.mp hth
      obtain ⟨hnext, hspawned, halters⟩ := hs.fails_next (h := h) (hl i List.mem_cons_self)
      refine ⟨hspawned, _, ?_, .inl ⟨rfl, halters⟩⟩
      change Exiting h cause _ (e.next ++ (l ++ [.cancel h]))
      rw [← List.append_assoc]
      exact .cancelling (List.forall_mem_append.mpr ⟨hnext, fun j hj ↦ hl j (List.mem_cons_of_mem _ hj)⟩)
  | returned => cases hth

theorem Exiting.ne_acking {cause : Cause} {a : Cmd.Handler} {th : List Instr}
    (hE : Exiting h cause a th) : a ≠ .acking := by
  cases hE <;> simp

/-- The part of a goroutine in the life of a stream. -/
inductive StreamRole
  | connect (stage : Cmd.Handler)
  | reaper (stage : Cmd.Reaper)
  | other

def StreamRole.handler : StreamRole → Option Cmd.Handler
  | .connect a => some a
  | _ => none

def StreamRole.reap : StreamRole → Option Cmd.Reaper
  | .reaper r => some r
  | _ => none

def reaperStage : Cmd.Handler → Cmd.Reaper
  | .removing => .evicting
  | .cancelling => .cancelling
  | _ => .exited

inductive StreamRole.At (h : ℕ) : StreamRole → List Instr → Prop
  | acking : At h (.connect .acking) [.ack h]
  | reading {i : Instr} (hi : i.readerOf h) : At h (.connect .reading) [i]
  | leaving {a : Cmd.Handler} {th : List Instr} (hE : Exiting h .disconnected a th) : At h (.connect a) th
  | waiting (deadline : Time) : At h (.reaper (.waiting deadline)) [.reap h deadline]
  | evicting {a : Cmd.Handler} {th : List Instr} (hE : Exiting h .evicted a th) :
      At h (.reaper (reaperStage a)) th
  | other {th : List Instr} (hth : ∀ j ∈ th, j.drives h = false) : At h .other th

/-- Stream `h` of the control plane is at `w` in the shutdown model. -/
structure Tracks (c : Config Server Instr) (h : ℕ) (roles : List StreamRole) (w : Cmd.Stream) : Prop where
  known : h ≤ c.shared.nextSes
  load : Load c.shared c.soup h w
  crew : List.Forall₂ (StreamRole.At h) roles c.threads
  handler : roles.filterMap StreamRole.handler = [w.handler]
  reapers : roles.filterMap StreamRole.reap = w.reapers
  writer : .write h ∈ c.soup → w.handler ≠ .acking

/-- Stream `h` is where the shutdown model may get from `w`. -/
def Follows (c : Config Server Instr) (now : Time) (h : ℕ) (w : Cmd.Stream) : Prop :=
  ∃ roles v, Tracks c h roles v ∧ ReflTransGen (Cmd.Stream.Step now) w v

variable {roles : List StreamRole}

theorem Step.reader_next (hs : Step s i x e) (hi : i.readerOf h) : i.alters h = false ∧ e.spawned = [] ∧
    ((∃ j, e.next = [j] ∧ j.readerOf h) ∨ i = .read h ∧ e = ⟨s, [.unregister h .disconnected], []⟩) := by
  cases i with
  | read | forward | forwardLast | closeLast | resolve | deliver =>
    obtain rfl := eq_of_beq hi
    cases hs <;> simp_all [Instr.readerOf, Instr.mayQuit, Instr.alters]
  | _ => cases hi

theorem Tracks.goroutine (hT : Tracks c h roles w) {ρ : StreamRole} (hρ : ρ ∈ roles) :
    ∃ th ∈ c.threads, ρ.At h th := by
  obtain ⟨n, hn, rfl⟩ := List.getElem_of_mem hρ
  exact ⟨_, List.getElem_mem _, hT.crew.get hn (hT.crew.length_eq ▸ hn)⟩

theorem Tracks.connect (hT : Tracks c h roles w) :
    ∃ th ∈ c.threads, StreamRole.At h (.connect w.handler) th := by
  obtain ⟨ρ, hρ, hw⟩ := List.mem_filterMap.mp (hT.handler ▸ List.mem_singleton_self w.handler)
  cases ρ with
  | connect a => exact Option.some.inj hw ▸ hT.goroutine hρ
  | _ => cases hw

theorem Tracks.reaper (hT : Tracks c h roles w) {r : Cmd.Reaper} (hr : r ∈ w.reapers) :
    ∃ th ∈ c.threads, StreamRole.At h (.reaper r) th := by
  obtain ⟨ρ, hρ, hw⟩ := List.mem_filterMap.mp (hT.reapers ▸ hr)
  cases ρ with
  | reaper r => exact Option.some.inj hw ▸ hT.goroutine hρ
  | _ => cases hw

theorem Tracks.registered (hT : Tracks c h roles w) : w.handler ≠ .registering := by
  obtain ⟨th, -, hat⟩ := hT.connect
  intro hw
  rw [hw] at hat
  cases hat with
  | leaving hE => cases hE

theorem exec_markDraining {deadline : Duration} (he : controlPlane.exec s (.markDraining h deadline) x = some e) :
    e = ⟨s.setWorker h (s.worker h).markDraining, [],
      if deadline ≤ 0 then [] else [[.reap h (s.clock + deadline)]]⟩ := by
  cases x <;> simp only [controlPlane, exec, execAdmin, reduceCtorEq] at he
  cases he
  rfl

theorem Step.drives_of_fresh (hs : Step s i x e) (hh : h ≤ s.nextSes) {j : Instr} (hj : j ∈ e.fresh)
    (hd : j.drives h) : i.drives h ∨ ∃ deadline, i = .markDraining h deadline := by
  have hleft := hs.leaves j hj
  have hconn (hjh : j.handlerOf h) : i.drives h := by
    have hreg : ∀ id models, i ≠ .register id models := by
      rintro id models rfl
      cases hs with
      | quit hq => cases hq
      | register =>
        simp_all [Instr.handlerOf, Instr.readerOf]
        omega
    have hi := hs.handlerOf_of_fresh hreg hj hjh
    cases i <;> simp_all [Instr.drives, Instr.handlerOf, Instr.readerOf]
  cases j with
  | unregister k cause =>
    cases cause with
    | stale => simp [Instr.drives] at hd
    | disconnected =>
      obtain rfl : i = .read k := hleft
      exact .inl (by simpa [Instr.drives, Instr.handlerOf, Instr.readerOf] using hd)
    | evicted =>
      obtain ⟨deadline, rfl⟩ := hleft
      exact .inl (by simpa [Instr.drives] using hd)
  | fail k cause => exact .inl (by rwa [show i = .unregister k cause from hleft])
  | reap k deadline =>
    obtain rfl := eq_of_beq hd
    obtain ⟨d, rfl, -⟩ := hleft
    exact .inr ⟨d, rfl⟩
  | cancel k =>
    obtain ⟨cause, rfl⟩ := hleft
    cases hs with
    | quit hq => cases hq
    | @fail _ _ pending observers =>
      have hnot : .cancel k ∉ failures (s.worker k) cause pending observers := fun hmem ↦
        forall_failures (P := (· ≠ .cancel k)) (by simp) (by simp) _ hmem rfl
      have hstale : cause ≠ .stale := by
        rintro rfl
        simp [hnot] at hj
      exact .inl (by simpa [Instr.drives, hstale] using hd)
  | _ => exact .inl (hconn hd)

theorem filterMap_replace {β : Type} (f : StreamRole → Option β) (A B σ : List StreamRole) (ρ : StreamRole) :
    (A ++ ρ :: B ++ σ).filterMap f = A.filterMap f ++ ((f ρ).toList ++ B.filterMap f) ++ σ.filterMap f := by
  cases hρ : f ρ <;> simp [hρ]

section

variable {A B : List StreamRole} {ρ : StreamRole} (hk : c.threads[k]? = some (i :: rest))
  (he : controlPlane.exec c.shared i x = some e) (hT : Tracks c h (A ++ ρ :: B) w)
  (hV : Shifted c.shared.clock e.shared (c.after k rest e).soup h i w v)
  (hcrew : ∀ {ρ' σ}, StreamRole.At h ρ' (e.next ++ rest) → List.Forall₂ (StreamRole.At h) σ e.spawned →
    List.Forall₂ (StreamRole.At h) (A ++ ρ' :: B ++ σ) (c.after k rest e).threads)

include hk he hT hV hcrew

theorem Tracks.replace {ρ' : StreamRole} {σ : List StreamRole} {a : Cmd.Handler} {l : List Cmd.Reaper}
    (hnext : ρ'.At h (e.next ++ rest)) (hσ : List.Forall₂ (StreamRole.At h) σ e.spawned)
    (hhandler : (A ++ ρ' :: B ++ σ).filterMap StreamRole.handler = [a])
    (hreapers : (A ++ ρ' :: B ++ σ).filterMap StreamRole.reap = l)
    (hacking : a = .acking → w.handler = .acking ∧ i ≠ .ack h) :
    Tracks (c.after k rest e) h (A ++ ρ' :: B ++ σ) { v with handler := a, reapers := l } := by
  have hs := step_of_exec he
  refine ⟨hT.known.trans hs.nextSes_le, ⟨hV.load.cancelled, hV.load.pending, hV.load.buffered,
    hV.load.sending⟩, hcrew hnext hσ, hhandler, hreapers, fun hw hack ↦ ?_⟩
  obtain ⟨hold, hne⟩ := hacking hack
  obtain ⟨R, hR, hafter⟩ := Config.soup_step hk
  refine hT.writer ?_ hold
  rw [hafter] at hw
  rw [hR]
  rcases Multiset.mem_add.mp hw with hw | hw
  · rcases hs.leaves _ hw with hi | hi
    · exact absurd hi hne
    · exact hi ▸ Multiset.mem_cons_self _ _
  · exact Multiset.mem_cons_of_mem hw

theorem Tracks.connect_step {a : Cmd.Handler} (hρ : ρ = .connect a) (hat : ρ.At h (i :: rest)) :
    Follows (c.after k rest e) c.shared.clock h w := by
  subst hρ
  have hs := step_of_exec he
  have hhandler := hT.handler
  have hreapers := hT.reapers
  rw [← List.append_nil (A ++ _), filterMap_replace] at hhandler hreapers
  obtain ⟨hA, rfl, hB⟩ : A.filterMap StreamRole.handler = [] ∧ a = w.handler ∧ B.filterMap StreamRole.handler = [] := by
    simpa [StreamRole.handler, List.append_eq_singleton_iff] using hhandler
  have hgo {a' : Cmd.Handler} {σ : List StreamRole} (hnext : StreamRole.At h (.connect a') (e.next ++ rest))
      (hσ : List.Forall₂ (StreamRole.At h) σ e.spawned) (hother : σ = [] ∨ σ = [.other]) (ha' : a' ≠ .acking) :
      Tracks (c.after k rest e) h (A ++ .connect a' :: B ++ σ) { v with handler := a' } := by
    have hnone : σ.filterMap StreamRole.handler = [] ∧ σ.filterMap StreamRole.reap = [] := by
      rcases hother with rfl | rfl <;> exact ⟨rfl, rfl⟩
    refine hT.replace hk he hV hcrew hnext hσ ?_ ?_ fun hack ↦ absurd hack ha'
    · rw [filterMap_replace, hA, hB, hnone.1]
      rfl
    · rw [filterMap_replace, hnone.2, hV.reapers]
      exact hreapers
  have hstay (hnext : StreamRole.At h (.connect w.handler) (e.next ++ rest)) (hspawned : e.spawned = [])
      (hw : w.handler ≠ .acking) (hi : i.alters h = false) : Follows (c.after k rest e) c.shared.clock h w := by
    refine ⟨_, _, hgo hnext (hspawned ▸ .nil) (.inl rfl) hw, ?_⟩
    rw [← hV.handler]
    exact hV.silent hi
  generalize hw : w.handler = a at hat hstay
  generalize hth : i :: rest = th at hat
  cases hat with
  | acking =>
    cases hth
    obtain ⟨hroom, rfl⟩ := hV.altered (beq_self_eq_true h)
    have hwriter : ∀ j ∈ [Instr.write h], j.drives h = false := by
      simp [Instr.drives, Instr.handlerOf, Instr.readerOf]
    cases hs with
    | quit hq => cases hq
    | ack =>
      exact ⟨_, _, hgo (.reading (beq_self_eq_true h)) (.cons (.other hwriter) .nil) (.inr rfl) (by simp),
        .single (.move (m := .ack) (if_pos ⟨hw, hroom⟩))⟩
  | reading hi =>
    cases hth
    obtain ⟨halters, hspawned, ⟨j, hj, hreader⟩ | ⟨rfl, rfl⟩⟩ := hs.reader_next hi
    · exact hstay (by rw [hj]; exact .reading hreader) hspawned (by simp) halters
    · refine ⟨_, _, hgo (.leaving .unregister) .nil (.inl rfl) (by simp), (hV.silent rfl).tail ?_⟩
      have hreading : v.handler = .reading := hV.handler.trans hw
      by_cases hx : x = .ctxDone
      · subst hx
        have hcancelled : (c.shared.worker h).cancelled = true := by
          by_contra hnot
          simp [controlPlane, exec, execStream, hnot] at he
        exact .move (m := .leave) (if_pos ⟨hreading, hV.load.cancelled.trans hcancelled⟩)
      · exact .move (m := .hangUp) (by simp [Cmd.Stream.move, Cmd.Stream.hangUp, hreading])
  | leaving hE =>
    subst hth
    obtain ⟨hspawned, a', hE', ⟨rfl, halters⟩ | ⟨rfl, rfl, rfl⟩ | ⟨rfl, rfl, rfl⟩⟩ := hE.step (by simp) hs
    · exact hstay (.leaving hE') hspawned hE.ne_acking halters
    all_goals
      refine ⟨_, _, hgo (.leaving hE') (hspawned ▸ .nil) (.inl rfl) (by simp), .single (.move (m := .runDeferred) ?_)⟩
      rw [show v = _ from hV.altered (beq_self_eq_true h)]
      simp [Cmd.Stream.move, Cmd.Stream.runDeferred, hw]

theorem Tracks.reaper_step {r : Cmd.Reaper} (hρ : ρ = .reaper r) (hat : ρ.At h (i :: rest)) :
    Follows (c.after k rest e) c.shared.clock h w := by
  subst hρ
  have hs := step_of_exec he
  have hhandler := hT.handler
  have hreapers := hT.reapers
  rw [← List.append_nil (A ++ _), filterMap_replace] at hhandler hreapers
  set j := (A.filterMap StreamRole.reap).length
  have hr : w.reapers[j]? = some r := by simp [← hreapers, j, StreamRole.reap]
  have hset (r' : Cmd.Reaper) : w.reapers.set j r' =
      A.filterMap StreamRole.reap ++ ([r'] ++ B.filterMap StreamRole.reap) ++ [] := by
    simp [← hreapers, j, StreamRole.reap]
  have hgo (r' : Cmd.Reaper) (hi : i ≠ .ack h) (hnext : StreamRole.At h (.reaper r') (e.next ++ rest))
      (hspawned : e.spawned = []) :
      Tracks (c.after k rest e) h (A ++ .reaper r' :: B ++ []) { v with reapers := w.reapers.set j r' } := by
    refine hT.replace hk he hV hcrew hnext (hspawned ▸ .nil) ?_ ?_ fun hack ↦ ⟨hV.handler.symm.trans hack, hi⟩
    · rw [filterMap_replace, hV.handler]
      exact hhandler
    · rw [filterMap_replace, hset]
      rfl
  generalize hρ : StreamRole.reaper r = ρ at hat
  generalize hth : i :: rest = th at hat
  cases hat with
  | waiting deadline =>
    cases hth
    cases hρ
    have hsilent := hV.silent rfl
    rcases exec_reap_cases he with ⟨rfl, hcancelled⟩ | ⟨rfl, hidle | hdue⟩
    · refine ⟨_, _, hgo .exited (by simp) (.evicting .returned) rfl,
        hsilent.tail (.move (m := .reap j .ctxDone) ?_)⟩
      simp [Cmd.Stream.move, Cmd.Stream.reap, hr, hV.load.cancelled, hcancelled, hV.reapers]
    · refine ⟨_, _, hgo .evicting (by simp) (.evicting .unregister) rfl,
        hsilent.tail (.move (m := .reap j .ticker) ?_)⟩
      simp [Cmd.Stream.move, Cmd.Stream.reap, hr, hV.load.pending, hidle, hV.reapers]
    · refine ⟨_, _, hgo .evicting (by simp) (.evicting .unregister) rfl,
        hsilent.tail (.move (m := .reap j .timer) ?_)⟩
      simp [Cmd.Stream.move, Cmd.Stream.reap, hr, hdue, hV.reapers]
  | evicting hE =>
    subst hth
    cases hρ
    obtain ⟨hspawned, a', hE', ⟨rfl, halters⟩ | ⟨rfl, rfl, rfl⟩ | ⟨rfl, rfl, rfl⟩⟩ := hE.step (by simp) hs
    · have hne : i ≠ .ack h := by
        rintro rfl
        simp [Instr.alters] at halters
      have hsame := hgo _ hne (.evicting hE') hspawned
      have hreapers' := (hset _).trans (hreapers.trans hV.reapers.symm)
      rw [hreapers'] at hsame
      exact ⟨_, v, hsame, hV.silent halters⟩
    all_goals
      refine ⟨_, _, hgo _ (by simp) (.evicting hE') hspawned, .single (.move (m := .reap j .timer) ?_)⟩
      rw [show v = _ from hV.altered (beq_self_eq_true h)]
      simp [Cmd.Stream.move, Cmd.Stream.reap, hr, reaperStage]
  | _ => cases hρ

theorem Tracks.other_step (hρ : ρ = .other) (hidle : ∀ j ∈ i :: rest, j.drives h = false) :
    Follows (c.after k rest e) c.shared.clock h w := by
  subst hρ
  have hs := step_of_exec he
  have hi := hidle i List.mem_cons_self
  -- the eviction loop fails the jobs of a stale worker and leaves its stream alone
  have hpass : ReflTransGen (Cmd.Stream.Step c.shared.clock) w v := by
    cases halters : i.alters h with
    | false => exact hV.silent halters
    | true =>
      have hv := hV.altered halters
      cases i with
      | ack | cancel => cases hi.symm.trans halters
      | fail k cause => exact hv ▸ .single .evictStale
      | _ => cases halters
  have hgo {σ : List StreamRole} {l : List Cmd.Reaper}
      (hnext : ∀ j ∈ e.next ++ rest, j.drives h = false) (hσ : List.Forall₂ (StreamRole.At h) σ e.spawned)
      (hhandler : σ.filterMap StreamRole.handler = []) (hreapers : σ.filterMap StreamRole.reap = l) :
      Tracks (c.after k rest e) h (A ++ .other :: B ++ σ) { v with reapers := v.reapers ++ l } := by
    refine hT.replace hk he hV hcrew (.other hnext) hσ ?_ ?_ fun hack ↦ ⟨hV.handler.symm.trans hack, ?_⟩
    · rw [List.filterMap_append, hhandler, hT.handler, hV.handler]
      rfl
    · rw [List.filterMap_append, hreapers, hT.reapers, hV.reapers]
    · rintro rfl
      simp [Instr.drives, Instr.handlerOf] at hi
  have hrest (j : Instr) (hj : j ∈ rest) := hidle j (List.mem_cons_of_mem _ hj)
  by_cases hdrain : ∃ deadline, i = .markDraining h deadline ∧ ¬ deadline ≤ 0
  · obtain ⟨deadline, rfl, hpositive⟩ := hdrain
    have heffect := exec_markDraining he
    rw [if_neg hpositive] at heffect
    subst heffect
    have hstep : Cmd.Stream.Step c.shared.clock v _ := .drain deadline
    rw [Cmd.Stream.drain, if_neg hpositive] at hstep
    exact ⟨_, _, hgo hrest (.cons (.waiting _) .nil) rfl rfl, hpass.tail hstep⟩
  · have hfresh (j : Instr) (hj : j ∈ e.fresh) : j.drives h = false := by
      refine Bool.eq_false_iff.mpr fun hd ↦ ?_
      rcases hs.drives_of_fresh hT.known hj hd with hi' | ⟨deadline, rfl⟩
      · cases hi.symm.trans hi'
      · have hnone : deadline ≤ 0 := not_not.mp fun hpositive ↦ hdrain ⟨deadline, rfl, hpositive⟩
        rw [exec_markDraining he, if_pos hnone] at hj
        simp at hj
    have hnext : ∀ j ∈ e.next ++ rest, j.drives h = false :=
      List.forall_mem_append.mpr ⟨fun j hj ↦ hfresh j (Effect.mem_fresh.mpr (.inl hj)), hrest⟩
    have hσ : List.Forall₂ (StreamRole.At h) (e.spawned.map fun _ ↦ .other) e.spawned := by
      rw [List.forall₂_map_left_iff, List.forall₂_same]
      exact fun th hth ↦ .other fun j hj ↦ hfresh j (Effect.mem_fresh.mpr (.inr ⟨th, hth, hj⟩))
    have htracks := hgo (l := []) hnext hσ (by simp [StreamRole.handler]) (by simp [StreamRole.reap])
    rw [List.append_nil] at htracks
    exact ⟨_, v, htracks, hpass⟩

end

/-- A step of any goroutine takes each stream through steps of the shutdown model. -/
theorem Tracks.step (hT : Tracks c h roles w)
    (hcap : (c.shared.worker h).send.cap = Cmd.sendCapacity) (hk : c.threads[k]? = some (i :: rest))
    (he : controlPlane.exec c.shared i x = some e) :
    Follows (c.after k rest e) c.shared.clock h w := by
  obtain ⟨R, hR, hafter⟩ := Config.soup_step hk
  have hwriter (hi : i = .write h) : w.handler ≠ .registering ∧ w.handler ≠ .acking := by
    refine ⟨hT.registered, hT.writer ?_⟩
    rw [hR, hi]
    exact Multiset.mem_cons_self _ _
  obtain ⟨v, hV⟩ : ∃ v, Shifted c.shared.clock e.shared (e.fresh + R) h i w v := by
    by_cases hi : i.handle = some h
    · exact (step_of_exec he).shifted_own hi hcap (hR ▸ hT.load) hwriter
    · exact (step_of_exec he).shifted_of_ne hi hT.known (hR ▸ hT.load)
  rw [← hafter e] at hV
  obtain ⟨A, ρ, B, rfl, hat, hcrew⟩ := Config.forall₂_after hT.crew hk rest e
  cases hρ : ρ with
  | connect a => exact hT.connect_step hk he hV hcrew hρ hat
  | reaper r => exact hT.reaper_step hk he hV hcrew hρ hat
  | other =>
    subst hρ
    cases hat with
    | other hidle => exact hT.other_step hk he hV hcrew rfl hidle

theorem Step.send_cap (hs : Step s i x e) (hcap : ∀ h, (s.worker h).send.cap = Cmd.sendCapacity) (h : ℕ) :
    (e.shared.worker h).send.cap = Cmd.sendCapacity := by
  rcases hs.send_cases h with ⟨-, hsame⟩ | ⟨-, m, hc⟩ | ⟨-, m, hc⟩ | ⟨id, models, -, -, hc⟩
  · rw [hsame, hcap]
  · exact (Chan.send_some hc).2.2.2.2.trans (hcap h)
  · exact (Chan.recv_some hc).2.2.2.2.trans (hcap h)
  · rw [hc]
    rfl

/-- The choices that are not up to the worker. -/
def Choice.own : Choice → Bool
  | .message _ | .streamEnd => false
  | _ => true

def CanStep (s : Server) (th : List Instr) : Prop :=
  ∃ i rest x, th = i :: rest ∧ Choice.own x ∧ (controlPlane.exec s i x).isSome

section

variable {d : Duration} {n : ℕ} (hc : controlPlane.Reaches (boot (new now d n)) c)

include hc

theorem register_alone {th : List Instr} (hk : c.threads[k]? = some th) {id : String}
    {models : List Model} (hmem : .register id models ∈ th) : th = [.register id models] := by
  refine hc.threads_invariant (fun _ _ th ↦ ∀ id models, Instr.register id models ∈ th →
    th = [.register id models]) ?_ ?_ (fun _ _ _ _ _ _ _ _ _ _ _ _ h ↦ h) k th hk id models hmem
  · intro k th hk id models hmem
    have hone : th = [.serve] ∨ th = [.evict] ∨ th = [.place] := by
      simpa [boot] using List.mem_of_getElem? hk
    rcases hone with rfl | rfl | rfl <;> simp at hmem
  · intro c k i rest x e hth _ he
    have hs := step_of_exec he
    refine ⟨fun id models hmem ↦ ?_, fun m th hm id models hmem ↦ ?_⟩
    · rcases List.mem_append.mp hmem with hmem | hmem
      · obtain rfl : i = .serve := hs.leaves _ (Effect.mem_fresh.mpr (.inl hmem))
        cases hs <;> simp_all
      · obtain ⟨-, hrest⟩ := List.cons_eq_cons.mp (hth id models (List.mem_cons_of_mem _ hmem))
        simp [hrest] at hmem
    · have htail := hs.next_tail.2 th (List.mem_of_getElem? hm)
      cases th with
      | nil => cases hmem
      | cons a th =>
        obtain rfl : th = [] := htail
        rw [List.mem_singleton.mp hmem]

theorem tracks_start {id : String} {models : List Model}
    (hk : c.threads[k]? = some (.register id models :: rest)) :
    ∃ roles, Tracks (c.after k rest ⟨addWorker c.shared id models, [.ack (c.shared.nextSes + 1)], []⟩)
      (c.shared.nextSes + 1) roles { handler := .acking } := by
  obtain ⟨-, rfl⟩ := List.cons_eq_cons.mp (register_alone hc hk List.mem_cons_self)
  have hnew {j : Instr} (hj : j ∈ c.soup) : j.handle ≠ some (c.shared.nextSes + 1) := fun hh ↦ by
    have hle := (known_of_reaches hc).2 j hj _ hh
    omega
  obtain ⟨R, hR, hafter⟩ := Config.soup_step hk
  have hrest {j : Instr} (hj : j ∈ R) := hnew (hR ▸ Multiset.mem_cons_of_mem hj)
  have hothers : List.Forall₂ (StreamRole.At (c.shared.nextSes + 1)) (c.threads.map fun _ ↦ .other) c.threads := by
    rw [List.forall₂_map_left_iff, List.forall₂_same]
    refine fun th hth ↦ .other fun j hj ↦ Bool.eq_false_iff.mpr fun hd ↦ ?_
    exact hnew (Config.mem_soup.mpr ⟨th, hth, hj⟩) (Instr.handle_of_drives hd)
  obtain ⟨A, ρ, B, hroles, -, hcrew⟩ := Config.forall₂_after hothers hk [] _
  have hother : ∀ r ∈ A ++ ρ :: B, r = .other := by simp [← hroles]
  have hnone {β : Type} {f : StreamRole → Option β} (hf : f .other = none) :
      A.filterMap f = [] ∧ B.filterMap f = [] := by
    simp only [List.filterMap_eq_nil_iff]
    exact ⟨fun r hr ↦ by rw [hother r (by simp [hr]), hf], fun r hr ↦ by rw [hother r (by simp [hr]), hf]⟩
  refine ⟨_, le_rfl, ⟨?_, ?_, ?_, ?_⟩, hcrew .acking .nil, ?_, ?_, fun hw ↦ ?_⟩
  · simp [addWorker]
  · simp [addWorker, Worker.inFlight]
  · simp [addWorker, Chan.make, Chan.buffered]
  · have happroaches : R.countP (·.approaches (c.shared.nextSes + 1)) = 0 :=
      Multiset.countP_eq_zero.mpr fun j hj ha ↦ hrest hj (Instr.handle_of_approaches ha)
    rw [hafter, Multiset.countP_add, happroaches]
    rfl
  · rw [filterMap_replace, (hnone rfl).1, (hnone rfl).2]
    rfl
  · rw [filterMap_replace, (hnone rfl).1, (hnone rfl).2]
    rfl
  · rw [hafter] at hw
    rcases Multiset.mem_add.mp hw with hw | hw
    · simp at hw
    · exact absurd rfl (hrest hw)

theorem send_cap_of_reaches (h : ℕ) : (c.shared.worker h).send.cap = Cmd.sendCapacity :=
  hc.shared_invariant (fun s ↦ ∀ h, (s.worker h).send.cap = Cmd.sendCapacity) (fun _ ↦ rfl)
    (fun _ _ _ _ hcap _ he ↦ (step_of_exec he).send_cap hcap) h

/-- The shutdown model's streams are those of the control plane: whatever its goroutines have done,
each registered stream is where a run of the shutdown model may have brought it. -/
theorem streams_tracked (h0 : 0 < h) (hh : h ≤ c.shared.nextSes) :
    ∃ roles w, Tracks c h roles w ∧
      ReflTransGen (fun w w' ↦ ∃ now, Cmd.Stream.Step now w w') {} w := by
  induction hc with
  | start => exact absurd hh (Nat.not_le.mpr h0)
  | @step c k i rest x e hc hk _ he ih =>
    by_cases hold : h ≤ c.shared.nextSes
    · obtain ⟨roles, w, hT, hreach⟩ := ih hold
      obtain ⟨roles', w', hT', hpass⟩ := hT.step (send_cap_of_reaches hc h) hk he
      exact ⟨roles', w', hT', hreach.trans (ReflTransGen.mono (fun _ _ hstep ↦ ⟨_, hstep⟩) _ _ hpass)⟩
    · obtain hsame | ⟨id, models, rfl, rfl⟩ := (step_of_exec he).nextSes_eq
      · exact absurd (hsame ▸ hh) hold
      · obtain rfl : h = c.shared.nextSes + 1 := Nat.le_antisymm hh (by omega)
        obtain ⟨roles, hT⟩ := tracks_start hc hk
        exact ⟨roles, _, hT, .single ⟨0, .move (m := .message .register) rfl⟩⟩

theorem canStep_delivers {ch : ℕ} (hk : i :: rest ∈ c.threads) (hi : i.delivers ch) :
    CanStep c.shared (i :: rest) := by
  have hone := replies_le_one hc ch
  have hmem : i ∈ c.soup := Config.mem_soup.mpr ⟨_, hk, List.mem_cons_self⟩
  have hpos : 0 < c.soup.countP (·.delivers ch) := Multiset.countP_pos.mpr ⟨i, hmem, hi⟩
  exact ⟨i, rest, .go, rfl, rfl, delivers_enabled hi (result_cap_of_reaches hc ch) (by omega)⟩

theorem canStep_reader (hk : [i] ∈ c.threads) (hi : i.readerOf h)
    (hcancelled : (c.shared.worker h).cancelled) : CanStep c.shared [i] := by
  cases i with
  | read k =>
    obtain rfl : k = h := eq_of_beq hi
    exact ⟨_, [], .ctxDone, rfl, rfl, by simp [controlPlane, exec, execStream, hcancelled]⟩
  | forward | forwardLast | closeLast => exact ⟨_, [], .go, rfl, rfl, rfl⟩
  | resolve k res =>
    refine ⟨_, [], .go, rfl, rfl, ?_⟩
    simp only [controlPlane, exec, execStream]
    split <;> rfl
  | deliver k ch res => exact canStep_delivers hc hk (beq_self_eq_true ch)
  | _ => cases hi

theorem Exiting.canStep {cause : Cause} {a : Cmd.Handler} {th : List Instr} (hE : Exiting h cause a th)
    (hk : th ∈ c.threads) (ha : a ≠ .returned) : CanStep c.shared th := by
  cases hE with
  | unregister => exact ⟨_, [], .go, rfl, rfl, rfl⟩
  | fail =>
    refine ⟨_, [], .order (c.shared.worker h).pending.keys (c.shared.worker h).observers.keys, rfl, rfl, ?_⟩
    simp [controlPlane, exec, execStream]
  | @cancelling l hl =>
    cases l with
    | nil => exact ⟨_, [], .go, rfl, rfl, rfl⟩
    | cons i l =>
      have hi := hl i List.mem_cons_self
      cases i with
      | failDeliver ch res => exact canStep_delivers hc hk (beq_self_eq_true ch)
      | failForward | failClose => exact ⟨_, _, .go, rfl, rfl, rfl⟩
      | _ => cases hi
  | returned => exact absurd rfl ha

/-- Where the shutdown model lets `Connect` or a reaper go on, the control plane's goroutine is not
blocked, and waits for nothing of the worker's. -/
theorem Tracks.ready (hT : Tracks c h roles w) {m : Cmd.Stream.Move} (hm : m.own)
    (hready : (w.move c.shared.clock m).isSome) :
    ∃ ρ ≠ StreamRole.other, ∃ th ∈ c.threads, ρ.At h th ∧ CanStep c.shared th := by
  obtain ⟨w', hw'⟩ := Option.isSome_iff_exists.mp hready
  obtain ⟨th, hth, hat⟩ := hT.connect
  have hconnect (hcan : CanStep c.shared th) :
      ∃ ρ ≠ StreamRole.other, ∃ th ∈ c.threads, ρ.At h th ∧ CanStep c.shared th :=
    ⟨_, by simp, th, hth, hat, hcan⟩
  generalize hw : w.handler = a at hat
  cases m with
  | ack =>
    simp only [Cmd.Stream.move, Cmd.Stream.ack] at hw'
    split at hw' <;> cases hw'
    next hroom =>
      cases hw.symm.trans hroom.1
      cases hat with
      | leaving hE => exact absurd rfl hE.ne_acking
      | acking =>
        refine hconnect ⟨_, [], .go, rfl, rfl, Option.isSome_map.trans (Chan.send_isSome_of_not_full fun hfull ↦ ?_)⟩
        have hbuffered := hT.load.buffered
        rw [Chan.buffered, List.length_drop] at hbuffered
        rw [Chan.Full, send_cap_of_reaches hc h] at hfull
        omega
  | leave =>
    simp only [Cmd.Stream.move, Cmd.Stream.leave] at hw'
    split at hw' <;> cases hw'
    next hleave =>
      cases hw.symm.trans hleave.1
      cases hat with
      | leaving hE => cases hE
      | reading hi => exact hconnect (canStep_reader hc hth hi (hT.load.cancelled.symm.trans hleave.2))
  | runDeferred =>
    have hending : a = .removing ∨ a = .cancelling := by
      simp only [Cmd.Stream.move, Cmd.Stream.runDeferred] at hw'
      rw [hw] at hw'
      cases a <;> simp_all
    cases hat with
    | leaving hE => exact hconnect (hE.canStep hc hth (by rcases hending with rfl | rfl <;> simp))
    | _ => simp at hending
  | reap j arm =>
    simp only [Cmd.Stream.move, Cmd.Stream.reap] at hw'
    cases hr : w.reapers[j]? with
    | none => simp [hr] at hw'
    | some r =>
      obtain ⟨th, hth, hat⟩ := hT.reaper (List.mem_of_getElem? hr)
      refine ⟨_, by simp, th, hth, hat, ?_⟩
      rw [hr] at hw'
      cases hat with
      | waiting deadline =>
        cases arm with
        | ctxDone =>
          have hcancelled : (c.shared.worker h).cancelled := by
            rw [← hT.load.cancelled]
            by_contra hnot
            simp [hnot] at hw'
          exact ⟨_, [], .ctxDone, rfl, rfl, by simp [controlPlane, exec, execAdmin, hcancelled]⟩
        | timer =>
          have hdue : deadline ≤ c.shared.clock := by
            by_contra hnot
            simp [hnot] at hw'
          exact ⟨_, [], .timer, rfl, rfl, by simp [controlPlane, exec, execAdmin, hdue]⟩
        | ticker =>
          have hidle : (c.shared.worker h).inFlight = 0 := by
            rw [← hT.load.pending]
            by_contra hnot
            simp [hnot] at hw'
          exact ⟨_, [], .ticker, rfl, rfl, by simp [controlPlane, exec, execAdmin, hidle]⟩
      | evicting hE =>
        refine hE.canStep hc hth fun ha ↦ ?_
        subst ha
        simp [reaperStage] at hw'
  | _ => cases hm

end

end AgentGpu.ControlPlane
