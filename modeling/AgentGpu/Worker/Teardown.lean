import AgentGpu.Foundation.Schedules
import AgentGpu.Worker.Drain

namespace AgentGpu.Worker

open Foundation ControlPlane

/-- The goroutine that pulls models: in its select, inside `Executor.Pull`, or inside
`refreshModels`. -/
inductive PullLoop
  | idle
  | pulling (model : String)
  | refreshing
  | exited
  deriving DecidableEq

inductive UnloadLoop
  | idle
  | unloading (model : String)
  | exited
  deriving DecidableEq

/-- One call of `serve`. The executor returns once its context is cancelled, and `grace` is the
number of deltas that it still emits after that. -/
structure Serving where
  process : Process := { sendLoop := .select }
  pullLoop : PullLoop := .idle
  unloadLoop : UnloadLoop := .idle
  serverDone : Bool := false
  grace : ℕ := 0
  deriving DecidableEq

inductive Goroutine
  | receive
  | jobs
  | pulls
  | unloads
  deriving DecidableEq

/-- What happens to a connection: the server sends a message, or ends the stream, and the
goroutines of the worker take their steps. -/
inductive ServeEvent
  | message (m : ServerMessage)
  | streamFails
  | act (a : Action)
  | pulled (ok : Bool)
  | refreshed
  | pullExit
  | unloaded
  | unloadExit
  deriving DecidableEq

def Action.owner : Action → Option Goroutine
  | .recv | .recvEnd | .push => some .receive
  | .takeJob | .delta _ _ | .finish _ | .emit | .drop | .jobExit => some .jobs
  | .takePull => some .pulls
  | .takeUnload => some .unloads
  | _ => none

def ServeEvent.owner : ServeEvent → Option Goroutine
  | .act a => a.owner
  | .pulled _ | .refreshed | .pullExit => some .pulls
  | .unloaded | .unloadExit => some .unloads
  | .message _ | .streamFails => none

def ServeEvent.takes : ServeEvent → Bool
  | .act .takeJob | .act .takePull | .act .takeUnload => true
  | _ => false

namespace Serving

variable (v : Serving)

def enter : Action → Option Serving
  | .recv => if v.process.connDone then none else some v
  | .delta _ _ =>
    if v.process.connDone then
      match v.grace with
      | 0 => none
      | n + 1 => some { v with grace := n }
    else some v
  | .takePull =>
    match v.pullLoop, v.process.pulls.recv with
    | .idle, some (model, _) => some { v with pullLoop := .pulling model }
    | _, _ => none
  | .takeUnload =>
    match v.unloadLoop, v.process.unloads.recv with
    | .idle, some (model, _) => some { v with unloadLoop := .unloading model }
    | _, _ => none
  | _ => some v

def step : ServeEvent → Option Serving
  | .message m =>
    if v.serverDone then none
    else some { v with process := { v.process with down := v.process.down ++ [m] } }
  | .streamFails => some { v with serverDone := true }
  | .act a =>
    match v.enter a, v.process.act v.serverDone a with
    | some v', some p => some { v' with process := p }
    | _, _ => none
  | .pulled ok =>
    match v.pullLoop with
    | .pulling _ => some { v with pullLoop := if ok then .refreshing else .idle }
    | _ => none
  | .refreshed => if v.pullLoop = .refreshing then some { v with pullLoop := .idle } else none
  | .pullExit =>
    if v.pullLoop = .idle ∧ v.process.connDone then some { v with pullLoop := .exited } else none
  | .unloaded =>
    match v.unloadLoop with
    | .unloading _ => some { v with unloadLoop := .idle }
    | _ => none
  | .unloadExit =>
    if v.unloadLoop = .idle ∧ v.process.connDone then some { v with unloadLoop := .exited }
    else none

def start (grace : ℕ) : Serving := { grace }

end Serving

def Goroutine.ended : Goroutine → Serving → Prop
  | .receive, v => v.process.receiver = .exited
  | .jobs, v => v.process.jobLoop = .exited
  | .pulls, v => v.pullLoop = .exited
  | .unloads, v => v.unloadLoop = .exited

instance (v : Serving) : (g : Goroutine) → Decidable (g.ended v)
  | .receive => inferInstanceAs (Decidable (v.process.receiver = .exited))
  | .jobs => inferInstanceAs (Decidable (v.process.jobLoop = .exited))
  | .pulls => inferInstanceAs (Decidable (v.pullLoop = .exited))
  | .unloads => inferInstanceAs (Decidable (v.unloadLoop = .exited))

def Process.full (p : Process) : ServerMessage → Prop
  | .job _ => p.jobs.Full
  | .pullModel _ => p.pulls.Full
  | .unloadModel _ => p.unloads.Full
  | .registerAck _ => False

instance (p : Process) : (m : ServerMessage) → Decidable (p.full m)
  | .job _ => inferInstanceAs (Decidable p.jobs.Full)
  | .pullModel _ => inferInstanceAs (Decidable p.pulls.Full)
  | .unloadModel _ => inferInstanceAs (Decidable p.unloads.Full)
  | .registerAck _ => inferInstanceAs (Decidable False)

def Process.blocked (p : Process) : Prop := ∃ m, p.receiver = .hold m ∧ p.full m

/-- From `v` on the goroutine gets to its end in every fair execution, within a number of its
own steps that does not depend on the execution. -/
def Ends (g : Goroutine) (v : Serving) : Prop :=
  ∃ N, ∀ x : Execution Serving.step, x.state 0 = v → (∀ g', x.Fair (·.owner = some g')) →
    ∃ n, g.ended (x.state n) ∧ x.ownSteps (·.owner = some g) n ≤ N

section Process

variable {p p' : Process} {d : Bool} {a : Action}

/-- What holds of the goroutines while `serve` runs and after it has returned: the one error
that the receive goroutine sends finds room. -/
structure Process.Sound (p : Process) : Prop where
  started : p.sendLoop ≠ .register
  payload : ∀ sessionID, p.receiver ≠ .hold (.registerAck sessionID)
  room : p.receiver ≠ .exited → p.recvErr = .make _ 1

theorem Process.Sound.outside (hS : p.Sound) (h : Outside p d a p') : p'.Sound := by
  have herr {c : Chan Unit} (hc : p.recvErr.recv = some ((), c)) (hr : p.receiver ≠ .exited) :
      c = .make _ 1 := by
    rw [hS.room hr] at hc
    cases hc
  cases h with
  | ack hloop | noAck hloop => exact absurd hloop hS.started
  | heartbeat | sendChunk => exact ⟨hS.started, hS.payload, hS.room⟩
  | streamLost hloop hc | serverClosed hloop hc => exact ⟨by simp, hS.payload, herr hc⟩
  | sendFails | shutdown | deregister | closeSend | timer => exact ⟨by simp, hS.payload, hS.room⟩

theorem Process.Sound.inside (hS : p.Sound) (h : Inside p d a p') : p'.Sound := by
  cases h with
  | @recv m down hrecv =>
    have hroom := hS.room (by simp [hrecv])
    cases m with
    | registerAck => exact ⟨hS.started, by simp [receive, hrecv], fun _ ↦ hroom⟩
    | _ => exact ⟨hS.started, by simp [receive], fun _ ↦ hroom⟩
  | recvEnd => exact ⟨hS.started, by simp, by simp⟩
  | pushJob hhold | pushPull hhold | pushUnload hhold =>
    exact ⟨hS.started, by simp, fun _ ↦ hS.room (by simp [hhold])⟩
  | _ => exact ⟨hS.started, hS.payload, hS.room⟩

theorem Process.Sound.act (hS : p.Sound) (h : p.act d a = some p') : p'.Sound := by
  rcases act_cases h with ⟨-, rfl⟩ | h | ⟨-, h⟩
  · exact ⟨hS.started, hS.payload, hS.room⟩
  · exact hS.outside h
  · exact hS.inside h

theorem Outside.blocked_iff (h : Outside p d a p') : p'.blocked ↔ p.blocked := by
  cases h <;> rfl

theorem Inside.blocked (h : Inside p d a p') (ha : a ≠ .recv) (hb : p'.blocked) : p.blocked := by
  obtain ⟨m, hm, hfull⟩ := hb
  cases h with
  | recv => exact absurd rfl ha
  | recvEnd | pushJob | pushPull | pushUnload => cases hm
  | takeJob hidle hc =>
    refine ⟨m, hm, ?_⟩
    cases m with
    | job => exact absurd hfull (Chan.not_full_of_recv hc)
    | _ => exact hfull
  | takePull hc =>
    refine ⟨m, hm, ?_⟩
    cases m with
    | pullModel => exact absurd hfull (Chan.not_full_of_recv hc)
    | _ => exact hfull
  | takeUnload hc =>
    refine ⟨m, hm, ?_⟩
    cases m with
    | unloadModel => exact absurd hfull (Chan.not_full_of_recv hc)
    | _ => exact hfull
  | _ => exact ⟨m, hm, hfull⟩

theorem Outside.not_connDone (h : Outside p d a p') : ¬p.connDone := by
  unfold Process.connDone
  cases h with
  | sendFails hd hwaits hopen => simpa using hopen
  | ack hloop | noAck hloop | heartbeat hloop | sendChunk hloop | streamLost hloop | shutdown hloop
  | deregister hloop | closeSend hloop | serverClosed hloop | timer hloop => simp [hloop]

end Process

section Rank

variable {v u v' : Serving} {e : ServeEvent} {a : Action}

def Receiver.rank : Receiver → ℕ
  | .recv => 1
  | .hold _ => 5
  | .exited => 0

def JobLoop.rank : JobLoop → ℕ
  | .idle => 1
  | .executing _ => 3
  | .emitting _ c => if c.done then 2 else 4
  | .exited => 0

def PullLoop.rank : PullLoop → ℕ
  | .idle => 1
  | .pulling _ => 3
  | .refreshing => 2
  | .exited => 0

def UnloadLoop.rank : UnloadLoop → ℕ
  | .idle => 1
  | .unloading _ => 2
  | .exited => 0

/-- How many steps the goroutines can still take when no message is received any more. What is
in a channel counts as much as its consumer will need for it. -/
def Serving.rank (v : Serving) : ℕ :=
  v.process.receiver.rank + v.process.jobLoop.rank + 3 * v.process.jobs.buffered.length +
    v.pullLoop.rank + 3 * v.process.pulls.buffered.length +
    v.unloadLoop.rank + 2 * v.process.unloads.buffered.length + 2 * v.grace

inductive Serving.Step (v : Serving) : ServeEvent → Serving → Prop
  | message {m : ServerMessage} (hopen : ¬v.serverDone) :
      Step v (.message m) { v with process := { v.process with down := v.process.down ++ [m] } }
  | streamFails : Step v .streamFails { v with serverDone := true }
  | act {a : Action} {u : Serving} {p : Process} (hu : v.enter a = some u)
      (hp : v.process.act v.serverDone a = some p) : Step v (.act a) { u with process := p }
  | pulled {model : String} {ok : Bool} (hloop : v.pullLoop = .pulling model) :
      Step v (.pulled ok) { v with pullLoop := if ok then .refreshing else .idle }
  | refreshed (hloop : v.pullLoop = .refreshing) : Step v .refreshed { v with pullLoop := .idle }
  | pullExit (hloop : v.pullLoop = .idle) (hclosed : v.process.connDone) :
      Step v .pullExit { v with pullLoop := .exited }
  | unloaded {model : String} (hloop : v.unloadLoop = .unloading model) :
      Step v .unloaded { v with unloadLoop := .idle }
  | unloadExit (hloop : v.unloadLoop = .idle) (hclosed : v.process.connDone) :
      Step v .unloadExit { v with unloadLoop := .exited }

theorem Serving.step_cases (h : v.step e = some v') : v.Step e v' := by
  cases e <;> simp only [step] at h
  case message m =>
    split_ifs at h with hdone
    cases h
    exact .message hdone
  case streamFails =>
    cases h
    exact .streamFails
  case act a =>
    split at h <;> cases h
    next hu hp => exact .act hu hp
  case pulled ok =>
    split at h <;> cases h
    next hloop => exact .pulled hloop
  case refreshed =>
    split_ifs at h with hloop
    cases h
    exact .refreshed hloop
  case pullExit =>
    split_ifs at h with hloop
    cases h
    exact .pullExit hloop.1 hloop.2
  case unloaded =>
    split at h <;> cases h
    next hloop => exact .unloaded hloop
  case unloadExit =>
    split_ifs at h with hloop
    cases h
    exact .unloadExit hloop.1 hloop.2

theorem length_buffered_of_send {α : Type} {c c' : Chan α} {x : α} (h : c.send x = some c') :
    c'.buffered.length = c.buffered.length + 1 := by
  simp [Chan.buffered_of_send h]

theorem length_buffered_of_recv {α : Type} {c c' : Chan α} {x : α} (h : c.recv = some (x, c')) :
    c.buffered.length = c'.buffered.length + 1 := by
  simp [Chan.buffered_of_recv h]

theorem rank_inside (hclosed : v.process.connDone) {p : Process}
    (hu : v.enter a = some u) (h : Inside v.process v.serverDone a p) :
    ({ u with process := p } : Serving).rank < v.rank := by
  cases h with
  | recv => simp [Serving.enter, hclosed] at hu
  | recvEnd hrecv =>
    cases hu
    simp [Serving.rank, hrecv, Receiver.rank]
  | pushJob hhold hc | pushPull hhold hc | pushUnload hhold hc =>
    cases hu
    simp only [Serving.rank, hhold, Receiver.rank, length_buffered_of_send hc]
    omega
  | takeJob hidle hc =>
    cases hu
    simp only [Serving.rank, hidle, JobLoop.rank, length_buffered_of_recv hc]
    omega
  | @delta job text toolCalls hloop =>
    cases hgrace : v.grace with
    | zero => simp [Serving.enter, hclosed, hgrace] at hu
    | succ n =>
      simp only [Serving.enter, hclosed, hgrace, if_true, Option.some.injEq] at hu
      subst hu
      simp only [Serving.rank, hloop, JobLoop.rank, deltaChunk, hgrace, Bool.false_eq_true, if_false]
      omega
  | finish hloop =>
    cases hu
    simp only [Serving.rank, hloop, JobLoop.rank, terminalChunk, if_true]
    omega
  | @emit _ c _ hloop | @drop _ c hloop =>
    cases hu
    cases hdone : c.done <;> simp [Serving.rank, hloop, JobLoop.rank, hdone]
  | jobExit hidle =>
    cases hu
    simp [Serving.rank, hidle, JobLoop.rank]
  | @takePull model c hc =>
    cases hidle : v.pullLoop <;> simp only [Serving.enter, hidle, hc, Option.some.injEq, reduceCtorEq] at hu
    subst hu
    simp only [Serving.rank, hidle, PullLoop.rank, length_buffered_of_recv hc]
    omega
  | @takeUnload model c hc =>
    cases hidle : v.unloadLoop <;> simp only [Serving.enter, hidle, hc, Option.some.injEq, reduceCtorEq] at hu
    subst hu
    simp only [Serving.rank, hidle, UnloadLoop.rank, length_buffered_of_recv hc]
    omega

structure Winding (v : Serving) : Prop where
  sound : v.process.Sound
  closed : v.process.connDone

theorem Winding.act (hw : Winding v) {p : Process} (hu : v.enter a = some u)
    (hp : v.process.act v.serverDone a = some p) :
    Winding { u with process := p } ∧ ({ u with process := p } : Serving).rank ≤ v.rank ∧
      (a.owner.isSome → ({ u with process := p } : Serving).rank < v.rank) := by
  obtain ⟨hsound, hclosed⟩ := hw
  rcases act_cases hp with ⟨rfl, rfl⟩ | h | ⟨-, h⟩
  · cases hu
    refine ⟨⟨⟨?_, ?_, ?_⟩, hclosed⟩, le_refl _, by simp [Action.owner]⟩
    exacts [hsound.started, hsound.payload, hsound.room]
  · exact absurd hclosed h.not_connDone
  · have hlt := rank_inside hclosed hu h
    refine ⟨⟨hsound.inside h, ?_⟩, hlt.le, fun _ ↦ hlt⟩
    simpa [Process.connDone, h.loop.1] using hclosed

theorem Winding.step (hw : Winding v) (h : v.step e = some v') :
    Winding v' ∧ v'.rank ≤ v.rank ∧ (e.owner.isSome → v'.rank < v.rank) := by
  have hlower {u : Serving} (hu : u.process = v.process) (hlt : u.rank < v.rank) :
      Winding u ∧ u.rank ≤ v.rank ∧ (e.owner.isSome → u.rank < v.rank) :=
    ⟨⟨hu ▸ hw.sound, hu ▸ hw.closed⟩, hlt.le, fun _ ↦ hlt⟩
  cases Serving.step_cases h with
  | act hu hp => exact hw.act hu hp
  | message =>
    refine ⟨⟨⟨?_, ?_, ?_⟩, hw.closed⟩, le_refl _, by simp [ServeEvent.owner]⟩
    exacts [hw.sound.started, hw.sound.payload, hw.sound.room]
  | streamFails => exact ⟨⟨hw.sound, hw.closed⟩, le_refl _, by simp [ServeEvent.owner]⟩
  | @pulled model ok hloop =>
    exact hlower rfl (by cases ok <;> simp [Serving.rank, hloop, PullLoop.rank])
  | refreshed hloop | pullExit hloop => exact hlower rfl (by simp [Serving.rank, hloop, PullLoop.rank])
  | unloaded hloop | unloadExit hloop => exact hlower rfl (by simp [Serving.rank, hloop, UnloadLoop.rank])

theorem Winding.blocked (hw : Winding v) (h : v.step e = some v') (hb : v'.process.blocked) :
    v.process.blocked := by
  cases Serving.step_cases h with
  | act hu hp =>
    rcases act_cases hp with ⟨-, rfl⟩ | h | ⟨-, h⟩
    · exact hb
    · exact h.blocked_iff.mp hb
    · refine h.blocked ?_ hb
      rintro rfl
      simp [Serving.enter, hw.closed] at hu
  | _ => exact hb

theorem blocked_of_not_takes (h : v.step e = some v') (ho : e.owner ≠ some .receive)
    (ht : e.takes = false) (hb : v.process.blocked) :
    v'.process.blocked ∧ v'.process.receiver = v.process.receiver := by
  cases Serving.step_cases h with
  | act hu hp =>
    rcases act_cases hp with ⟨-, rfl⟩ | h | ⟨-, h⟩
    · exact ⟨hb, rfl⟩
    · exact ⟨h.blocked_iff.mpr hb, by cases h <;> rfl⟩
    · cases h with
      | recv | recvEnd | pushJob | pushPull | pushUnload => exact absurd rfl ho
      | takeJob | takePull | takeUnload => cases ht
      | _ => exact ⟨hb, rfl⟩
  | _ => exact ⟨hb, rfl⟩

theorem ready_act {g : Goroutine} (hg : a.owner = some g) (ht : (ServeEvent.act a).takes = false)
    (hu : v.enter a = some v) (hp : (v.process.act v.serverDone a).isSome) :
    Ready Serving.step (fun e ↦ e.owner = some g ∧ e.takes = false) v := by
  obtain ⟨p, hp⟩ := Option.isSome_iff_exists.mp hp
  exact ⟨.act a, ⟨hg, ht⟩, by simp [Serving.step, hu, hp]⟩

theorem Winding.ready (hw : Winding v) {g : Goroutine} (hg : ¬g.ended v)
    (hfree : g = .receive → ¬v.process.blocked) :
    Ready Serving.step (fun e ↦ e.owner = some g ∧ e.takes = false) v := by
  obtain ⟨⟨hstarted, hpayload, hroom⟩, hclosed⟩ := hw
  cases g with
  | receive =>
    cases hr : v.process.receiver with
    | recv =>
      have hsend : (v.process.recvErr.send ()).isSome := by
        rw [hroom (by simp [hr])]
        rfl
      refine ready_act (a := .recvEnd) rfl rfl rfl ?_
      simpa [Process.act, hstarted, actInside, hr, hclosed] using hsend
    | hold m =>
      have hroom : ¬v.process.full m := fun hfull ↦ hfree rfl ⟨m, hr, hfull⟩
      refine ready_act (a := .push) rfl rfl rfl ?_
      cases m with
      | registerAck sessionID => exact absurd hr (hpayload sessionID)
      | job | pullModel | unloadModel =>
        simpa [Process.act, hstarted, actInside, hr] using Chan.send_isSome_of_not_full hroom
    | exited => exact absurd hr hg
  | jobs =>
    cases hl : v.process.jobLoop with
    | idle =>
      refine ready_act (a := .jobExit) rfl rfl rfl ?_
      simp [Process.act, hstarted, actInside, hl, hclosed]
    | executing job =>
      refine ready_act (a := .finish {}) rfl rfl rfl ?_
      simp [Process.act, hstarted, actInside, hl]
    | emitting job c =>
      refine ready_act (a := .drop) rfl rfl rfl ?_
      simp [Process.act, hstarted, actInside, hl, hclosed]
    | exited => exact absurd hl hg
  | pulls =>
    cases hl : v.pullLoop with
    | idle => exact ⟨.pullExit, ⟨rfl, rfl⟩, by simp [Serving.step, hl, hclosed]⟩
    | pulling model => exact ⟨.pulled true, ⟨rfl, rfl⟩, by simp [Serving.step, hl]⟩
    | refreshing => exact ⟨.refreshed, ⟨rfl, rfl⟩, by simp [Serving.step, hl]⟩
    | exited => exact absurd hl hg
  | unloads =>
    cases hl : v.unloadLoop with
    | idle => exact ⟨.unloadExit, ⟨rfl, rfl⟩, by simp [Serving.step, hl, hclosed]⟩
    | unloading model => exact ⟨.unloaded, ⟨rfl, rfl⟩, by simp [Serving.step, hl]⟩
    | exited => exact absurd hl hg

end Rank

section Ends

variable {v v' : Serving} {e : ServeEvent}

theorem Winding.ends (hw : Winding v) (hfree : ¬v.process.blocked) (g : Goroutine) : Ends g v := by
  refine ⟨v.rank, ?_⟩
  rintro x rfl hfair
  have hstep : ∀ s e s', Serving.step s e = some s' → Winding s ∧ ¬s.process.blocked →
      (Winding s' ∧ ¬s'.process.blocked) ∧ s'.rank ≤ s.rank ∧
        (e.owner = some g → s'.rank < s.rank) := by
    rintro s e s' hs ⟨hw, hfree⟩
    obtain ⟨hw', hle, hlt⟩ := hw.step hs
    exact ⟨⟨hw', fun hb ↦ hfree (hw.blocked hs hb)⟩, hle, fun ho ↦ hlt (by simp [ho])⟩
  have hrun := Execution.ownSteps_add_rank_le Serving.rank hstep ⟨hw, hfree⟩
  obtain ⟨n, hn⟩ : ∃ n, g.ended (x.state n) := by
    by_contra! hnever
    have hready : ∀ m, Ready Serving.step (·.owner = some g) (x.state m) := by
      intro m
      obtain ⟨e, ⟨ho, -⟩, he⟩ := (hrun m).1.1.ready (hnever m) fun _ ↦ (hrun m).1.2
      exact ⟨e, ho, he⟩
    obtain ⟨n, -, hfalse⟩ := (hfair g).leadsTo
      (P := fun s ↦ Winding s ∧ ¬s.process.blocked) (Q := fun _ ↦ False) Serving.rank
      (fun m e he hm ↦ .inr (hstep _ e _ (x.step_of_event he) hm))
      ⟨0, fun m _ _ ↦ hready m⟩ (hrun 0).1
    exact hfalse
  exact ⟨n, hn, le_trans (Nat.le_add_right _ _) (hrun n).2⟩

/-- All other goroutines have ended, and the receive goroutine is still in its send. -/
structure Stranded (v : Serving) : Prop where
  closed : v.process.connDone
  blocked : v.process.blocked
  ended : ∀ g : Goroutine, g ≠ .receive → g.ended v

theorem Stranded.not_inside (hs : Stranded v) {d : Bool} {a : Action} {u : Serving} {p : Process}
    (hu : v.enter a = some u) (h : Inside v.process d a p) : False := by
  obtain ⟨m, hm, hfull⟩ := hs.blocked
  have hjobs : v.process.jobLoop = .exited := hs.ended .jobs (by decide)
  have hpulls : v.pullLoop = .exited := hs.ended .pulls (by decide)
  have hunloads : v.unloadLoop = .exited := hs.ended .unloads (by decide)
  cases h with
  | recv hr | recvEnd hr => cases hm.symm.trans hr
  | pushJob hr hc | pushPull hr hc | pushUnload hr hc =>
    cases hm.symm.trans hr
    rw [Chan.Full.send_eq_none hfull] at hc
    cases hc
  | takeJob hl | delta hl | finish hl | emit hl | drop hl | jobExit hl => cases hjobs.symm.trans hl
  | takePull => simp [Serving.enter, hpulls] at hu
  | takeUnload => simp [Serving.enter, hunloads] at hu

theorem Stranded.not_ready (hs : Stranded v) (g : Goroutine) :
    ¬Ready Serving.step (·.owner = some g) v := by
  rintro ⟨e, ho, he⟩
  obtain ⟨v', hv'⟩ := Option.isSome_iff_exists.mp he
  have hpulls : v.pullLoop = .exited := hs.ended .pulls (by decide)
  have hunloads : v.unloadLoop = .exited := hs.ended .unloads (by decide)
  cases Serving.step_cases hv' with
  | message | streamFails => cases ho
  | act hu hp =>
    rcases act_cases hp with ⟨rfl, -⟩ | h | ⟨-, h⟩
    · cases ho
    · exact h.not_connDone hs.closed
    · exact hs.not_inside hu h
  | pulled hl | refreshed hl | pullExit hl => cases hpulls.symm.trans hl
  | unloaded hl | unloadExit hl => cases hunloads.symm.trans hl

theorem exists_stranded (hw : Winding v) (hb : v.process.blocked) :
    ∃ x : Execution Serving.step, x.state 0 = v ∧
      (∀ n, (x.state n).process.receiver = v.process.receiver) ∧
      ∃ N, ∀ n, N ≤ n → Stranded (x.state n) := by
  induction hr : v.rank using Nat.strong_induction_on generalizing v with
  | _ r ih =>
    subst hr
    by_cases hall : ∀ g : Goroutine, g ≠ .receive → g.ended v
    · exact ⟨.resting Serving.step v, rfl, fun _ ↦ rfl, 0, fun _ _ ↦ ⟨hw.closed, hb, hall⟩⟩
    · push Not at hall
      obtain ⟨g, hg, hnot⟩ := hall
      obtain ⟨e, ⟨ho, ht⟩, he⟩ := hw.ready hnot fun h ↦ absurd h hg
      obtain ⟨v', hv'⟩ := Option.isSome_iff_exists.mp he
      obtain ⟨hw', -, hlt⟩ := hw.step hv'
      obtain ⟨hb', hsame⟩ := blocked_of_not_takes hv' (by simpa [ho] using hg) ht hb
      obtain ⟨x, hx, hreceiver, N, hN⟩ := ih _ (hlt (by simp [ho])) hw' hb' rfl
      refine ⟨x.prepend (hx.symm ▸ hv'), rfl, ?_, N + 1, ?_⟩
      · intro n
        cases n with
        | zero => rfl
        | succ n => exact (hreceiver n).trans hsame
      · intro n hn
        obtain ⟨n, rfl⟩ := Nat.exists_eq_succ_of_ne_zero (by omega : n ≠ 0)
        exact hN n (by omega)

theorem Winding.not_ends (hw : Winding v) (hb : v.process.blocked) : ¬Ends .receive v := by
  rintro ⟨N, hends⟩
  obtain ⟨x, hx, hreceiver, M, hM⟩ := exists_stranded hw hb
  have hfair (g : Goroutine) : x.Fair (·.owner = some g) :=
    .of_rest fun n hn ↦ (hM n hn).not_ready g
  obtain ⟨n, hended, -⟩ := hends x hx hfair
  obtain ⟨m, hm, -⟩ := hb
  cases hm.symm.trans ((hreceiver n).symm.trans hended)

theorem Serving.sound_step (hS : v.process.Sound) (h : v.step e = some v') : v'.process.Sound := by
  cases step_cases h with
  | act hu hp => exact hS.act hp
  | message => exact ⟨hS.started, hS.payload, hS.room⟩
  | _ => exact hS

theorem sound_of_execution {x : Execution Serving.step} {grace : ℕ}
    (hstart : x.state 0 = .start grace) (n : ℕ) : (x.state n).process.Sound := by
  refine Execution.always (P := fun v : Serving ↦ v.process.Sound) (n := 0) ?_ ?_ n n.zero_le
  · rw [hstart]
    exact ⟨by simp [Serving.start], by simp [Serving.start], fun _ ↦ rfl⟩
  · exact fun m e _ he hS ↦ Serving.sound_step hS (x.step_of_event he)

theorem blocked_of_returns (hopen : ¬v.process.connDone) (hclosed : v'.process.connDone)
    (h : v.step e = some v') : v'.process.blocked ↔ v.process.blocked := by
  cases Serving.step_cases h with
  | act hu hp =>
    rcases act_cases hp with ⟨-, rfl⟩ | h | ⟨-, h⟩
    · exact absurd hclosed hopen
    · exact h.blocked_iff
    · refine absurd ?_ hopen
      simpa [Process.connDone, h.loop.1] using hclosed
  | _ => exact absurd hclosed hopen

/-- When `runOnce` cancels the connection context after `serve`, all the goroutines that `serve`
has started end, unless at that moment the receive goroutine is in the send on a channel that is
full: that channel's consumer may end before it receives from it again. -/
theorem goroutines_end_iff (x : Execution Serving.step) (grace : ℕ)
    (hstart : x.state 0 = .start grace) {n : ℕ} (hopen : ¬(x.state n).process.connDone)
    (hreturned : (x.state (n + 1)).process.connDone) :
    (∀ g, Ends g (x.state (n + 1))) ↔ ¬(x.state n).process.blocked := by
  obtain ⟨e, he⟩ : ∃ e, x.event n = some e := by
    cases he : x.event n with
    | none =>
      rw [x.eq_of_no_event he] at hreturned
      exact absurd hreturned hopen
    | some e => exact ⟨e, rfl⟩
  have hw : Winding (x.state (n + 1)) := ⟨sound_of_execution hstart (n + 1), hreturned⟩
  rw [← blocked_of_returns hopen hreturned (x.step_of_event he)]
  constructor
  · exact fun hends hb ↦ hw.not_ends hb (hends .receive)
  · exact fun hfree g ↦ hw.ends hfree g

theorem goroutines_end_iff_executing :
    let job : Job := { id := "j", request := 0 }
    let x := Execution.follow Serving.step (.start 2) [.message (.job job), .act .recv, .act .push,
      .act .takeJob, .streamFails, .act .sendFails]
    (x.state 5).process.jobLoop = .executing job ∧ (x.state 6).process.connDone ∧
      ∀ g, Ends g (x.state 6) := by
  refine ⟨rfl, rfl, ?_⟩
  refine (goroutines_end_iff _ 2 rfl (n := 5) (by decide) rfl).mpr ?_
  rintro ⟨m, hm, -⟩
  cases hm

/-- The server sends ten jobs and then ends the stream. One job is executed and eight are in the
channel when `serve` returns, and the receive goroutine has the tenth. -/
def overload : List ServeEvent :=
  List.flatten [
    (List.range 10).map fun i ↦ .message (.job { id := toString i, request := i }),
    [.act .recv, .act .push, .act .takeJob],
    (List.replicate 8 [.act .recv, .act .push]).flatten,
    [.act .recv, .streamFails, .act .sendFails],
    [.act (.finish {}), .act .drop, .act .jobExit, .pullExit, .unloadExit]]

theorem stranded_overload :
    Stranded ((Execution.follow Serving.step (.start 0) overload).state overload.length) := by
  refine ⟨by decide +kernel, ⟨.job { id := "9", request := 9 }, by decide +kernel, by decide +kernel⟩, ?_⟩
  intro g hg
  cases g with
  | receive => exact absurd rfl hg
  | jobs | pulls | unloads => decide +kernel

/-- The job goroutine ends with the connection, and the receive goroutine stays in its send
for ever. -/
theorem receiver_left_behind :
    ∃ (x : Execution Serving.step) (n : ℕ), x.state 0 = .start 0 ∧
      (∀ g, x.Fair (·.owner = some g)) ∧ (x.state n).process.connDone ∧
      ∀ m, n ≤ m → ¬Goroutine.ended .receive (x.state m) := by
  let x := Execution.follow Serving.step (.start 0) overload
  have hrest : ∀ m, overload.length ≤ m → Stranded (x.state m) := by
    intro m hm
    rw [Execution.follow_rest hm]
    exact stranded_overload
  refine ⟨x, overload.length, rfl, ?_, stranded_overload.closed, ?_⟩
  · exact fun g ↦ .of_rest fun m hm ↦ (hrest m hm).not_ready g
  · intro m hm hended
    obtain ⟨msg, hmsg, -⟩ := (hrest m hm).blocked
    cases hmsg.symm.trans hended

end Ends

end AgentGpu.Worker
