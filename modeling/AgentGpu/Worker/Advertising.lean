import AgentGpu.ControlPlane.Machine
import AgentGpu.Types.Proto
import Mathlib.Data.List.Chain

namespace AgentGpu.Worker

open ControlPlane

/-- A copy of the cached list, made by appending to nil: that of an empty list is nil. -/
def currentModels (models : List Model) : Option (List Model) :=
  if models = [] then none else some models

/-- A slice of models through `ModelsToProto`, a repeated field on the wire and
`ModelsFromProto`. A field without elements is decoded as nil. -/
def overWire (ms : Option (List Model)) : Option (List Model) := ms.filter (· ≠ [])

/-- What the server shows of the worker's models once it has applied a heartbeat, next to what
the worker held when it built it. -/
structure Report where
  held : List Model
  shown : List Model
  deriving DecidableEq

/-- A worker with its stream, of session `h`. `sent` are the heartbeats that the server has not
read yet, each with the list it was built from, and `reports` the latest report first. -/
structure Link where
  models : List Model
  sent : List (List Model × Heartbeat) := []
  server : Server
  h : ℕ
  reports : List Report := []

/-- `ListModels` returns or fails, a heartbeat with its capacity fields is built, the server
reads one, and time passes. -/
inductive Event
  | refreshModels (listed : Option (List Model))
  | heartbeat (capacity : Heartbeat)
  | deliver
  | elapse (d : ℕ)

namespace Link

def refreshModels (l : Link) : Option (List Model) → Link
  | none => l
  | some models => { l with models := models }

def heartbeat (l : Link) (capacity : Heartbeat) : Heartbeat :=
  { capacity with availableModels := currentModels l.models }

def shown (l : Link) : List Model :=
  ((l.server.worker l.h).snapshot l.server.clock l.server.heartbeatTimeout).models

def deliver (l : Link) : Link :=
  match l.sent with
  | [] => l
  | (held, hb) :: sent =>
    let hb := { hb with availableModels := overWire hb.availableModels }
    let l := { l with sent := sent, server := (handleMessage l.server l.h (.heartbeat hb)).shared }
    { l with reports := ⟨held, l.shown⟩ :: l.reports }

def step (l : Link) : Event → Link
  | .refreshModels listed => l.refreshModels listed
  | .heartbeat capacity => { l with sent := l.sent ++ [(l.models, l.heartbeat capacity)] }
  | .deliver => l.deliver
  | .elapse d => { l with server := { l.server with clock := l.server.clock + d } }

def run (l : Link) (events : List Event) : Link := events.foldl step l

def connect (s : Server) (id : String) (models : List Model) : Link where
  models := models
  server := addWorker s id ((overWire (currentModels models)).getD [])
  h := s.nextSes + 1

end Link

structure Tracked (models : List Model) (l : Link) : Prop where
  sent : ∀ entry ∈ l.sent, entry.2.availableModels = currentModels entry.1
  shown : (l.reports.map Report.shown ++ [models]).head? = some l.shown
  exact_iff : (∀ r ∈ l.reports, r.shown = r.held) ↔
    (l.reports.map Report.held ++ [models]).IsChain fun cur prev ↦ cur = [] → prev = []

section

variable {models : List Model} {l : Link}

theorem overWire_eq_proto (ms : Option (List Model)) :
    overWire ms = modelsFromProto (Repeated.overWire (fun m ↦ m) (modelsToProto ms)) :=
  (modelsFromProto_overWire ms).symm

theorem overWire_currentModels (models : List Model) :
    overWire (currentModels models) = currentModels models := by
  unfold overWire currentModels
  split_ifs with h <;> simp [h]

theorem snapshot_applyHeartbeat (w : ControlPlane.Worker) {hb : Heartbeat} {held : List Model}
    (hhb : hb.availableModels = currentModels held) (now : Time) (timeout : Duration) :
    ((w.applyHeartbeat hb now).snapshot now timeout).models =
      if held = [] then (w.snapshot now timeout).models else held := by
  simp only [Worker.snapshot, Worker.applyHeartbeat, hhb, currentModels]
  split_ifs <;> rfl

theorem shown_deliver {held : List Model} {hb : Heartbeat} {sent : List (List Model × Heartbeat)}
    (hsent : l.sent = (held, hb) :: sent) (hhb : hb.availableModels = currentModels held) :
    l.deliver.shown = (if held = [] then l.shown else held) ∧
      l.deliver.reports = ⟨held, l.deliver.shown⟩ :: l.reports ∧ l.deliver.sent = sent := by
  have hwire : overWire hb.availableModels = currentModels held := by
    rw [hhb, overWire_currentModels]
  have hshown : l.deliver.shown = if held = [] then l.shown else held := by
    simp only [Link.deliver, hsent, Link.shown, handleMessage, Server.setWorker_self]
    exact snapshot_applyHeartbeat _ hwire _ _
  refine ⟨hshown, ?_, ?_⟩
  · simp only [Link.deliver, hsent]
    rfl
  · simp only [Link.deliver, hsent]

theorem Tracked.head_held (h : Tracked models l) (hexact : ∀ r ∈ l.reports, r.shown = r.held) :
    (l.reports.map Report.held ++ [models]).head? = some l.shown := by
  rw [← h.shown, List.map_congr_left hexact]

theorem Tracked.refreshModels (h : Tracked models l) (listed : Option (List Model)) :
    Tracked models (l.refreshModels listed) := by
  cases listed with
  | none => exact h
  | some listed => exact ⟨h.sent, h.shown, h.exact_iff⟩

theorem Tracked.deliver (h : Tracked models l) : Tracked models l.deliver := by
  cases hsent : l.sent with
  | nil =>
    have hsame : l.deliver = l := by simp only [Link.deliver, hsent]
    exact hsame.symm ▸ h
  | cons entry sent =>
    obtain ⟨held, hb⟩ := entry
    obtain ⟨hhb, hrest⟩ := List.forall_mem_cons.mp (hsent ▸ h.sent)
    obtain ⟨hshown, hreports, hsent⟩ := shown_deliver hsent hhb
    refine ⟨hsent ▸ hrest, by rw [hreports]; rfl, ?_⟩
    rw [hreports, List.forall_mem_cons, List.map_cons, List.cons_append, List.isChain_cons,
      ← h.exact_iff]
    refine and_congr_left fun hexact ↦ ?_
    rw [h.head_held hexact, hshown]
    by_cases hheld : held = []
    · simp [hheld]
    · simp [hheld]

theorem Tracked.step (h : Tracked models l) (e : Event) : Tracked models (l.step e) := by
  cases e with
  | refreshModels listed => exact h.refreshModels listed
  | heartbeat capacity =>
    refine ⟨fun entry hentry ↦ ?_, h.shown, h.exact_iff⟩
    rcases List.mem_append.mp hentry with hold | hnew
    · exact h.sent entry hold
    · rw [List.mem_singleton.mp hnew]
      rfl
  | deliver => exact h.deliver
  | elapse d => exact ⟨h.sent, h.shown, h.exact_iff⟩

theorem Tracked.run (h : Tracked models l) (events : List Event) : Tracked models (l.run events) := by
  induction events generalizing l with
  | nil => exact h
  | cons e events ih => exact ih (h.step e)

theorem tracked_connect (s : Server) (id : String) (models : List Model) :
    Tracked models (Link.connect s id models) := by
  have hmodels : (overWire (currentModels models)).getD [] = models := by
    rw [overWire_currentModels, currentModels]
    split_ifs with h
    · exact h.symm
    · rfl
  refine ⟨List.forall_mem_nil _, ?_, by simp [Link.connect]⟩
  simp only [Link.connect, Link.shown, addWorker, hmodels, Server.setWorker_self, Worker.snapshot]
  rfl

end

/-- Whatever lists the worker's refreshes found and whenever its heartbeats were built and
read: all of them were reported as the worker held them if and only if no empty list was
reported after one that was not empty, the list of the registration being the first. -/
theorem reports_exact_iff (s : Server) (id : String) (models : List Model) (events : List Event) :
    let l := (Link.connect s id models).run events
    (∀ r ∈ l.reports, r.shown = r.held) ↔
      (l.reports.map Report.held ++ [models]).IsChain fun cur prev ↦ cur = [] → prev = [] :=
  ((tracked_connect s id models).run events).exact_iff

/-- The last model is removed from the worker; the server goes on to show it. -/
theorem removed_model_reported :
    ((Link.connect {} "w" [⟨"m", ""⟩]).run
      [.refreshModels (some []), .heartbeat {}, .deliver]).reports = [⟨[], [⟨"m", ""⟩]⟩] := by
  decide

end AgentGpu.Worker
