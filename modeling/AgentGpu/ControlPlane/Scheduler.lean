import AgentGpu.ControlPlane.Machine
import Mathlib.Data.List.Sort

namespace AgentGpu.ControlPlane

def weightModelLoaded : ℤ := 1000000000

def freeVRAMUnit : UInt64 := 1073741824

def weightFreeVRAMPerGiB : ℤ := 10000

def weightLoadPenalty : ℤ := 50

def weightActiveJobPenalty : ℤ := 1

def weightBoundWorkerBonus : ℤ := 100000000

namespace Snapshot

def hasModel (w : Snapshot) (model : String) : Bool := w.models.any (·.name = model)

def runnable (w : Snapshot) (model : String) : Bool :=
  if w.status ≠ .online then false else w.hasModel model || w.freeVRAM > 0

def score (w : Snapshot) (model : String) : ℤ :=
  (if w.hasModel model then weightModelLoaded else 0) +
    (w.freeVRAM / freeVRAMUnit).toNat * weightFreeVRAMPerGiB -
    w.load.toNat * weightLoadPenalty - w.activeJobs.toNat * weightActiveJobPenalty

def scoreFor (w : Snapshot) (model preferredWorkerID : String) : ℤ :=
  w.score model +
    if preferredWorkerID ≠ "" ∧ w.id = preferredWorkerID then weightBoundWorkerBonus else 0

end Snapshot

/-- The first of the best among the candidates, which come in the order of their ids. -/
def bestOf (score : Snapshot → ℤ) : Snapshot → List Snapshot → Snapshot
  | best, [] => best
  | best, w :: rest => bestOf score (if score w > score best then w else best) rest

def pickPreferring (workers : List Snapshot) (model preferredWorkerID : String) : Option String :=
  match (workers.filter (·.runnable model)).insertionSort (·.id ≤ ·.id) with
  | [] => none
  | w :: rest => some (bestOf (·.scoreFor model preferredWorkerID) w rest).id

def pickWorker (s : Server) (model preferredWorkerID : String) : Option ℕ := do
  let id ← pickPreferring s.fleet model preferredWorkerID
  let h ← s.workers.lookup id
  if (s.worker h).available s.clock s.heartbeatTimeout then some h else none

def modelServed (s : Server) (model : String) : Bool :=
  s.fleet.any fun w ↦ w.status ≠ .stale && w.hasModel model

/-- The choices that `pickWorker` and `modelServed` make when nothing else moves meanwhile
and the session is bound to this worker. -/
def PicksFor (preferredWorkerID : String) (s : Server) : Instr → Choice → Bool
  | .pick .stream job, .worker h => pickWorker s job.model preferredWorkerID = some h
  | .pick .stream job, .noWorker _ =>
    pickWorker s job.model preferredWorkerID = none ∧ modelServed s job.model
  | .pick .stream job, .unserved =>
    pickWorker s job.model preferredWorkerID = none ∧ ¬modelServed s job.model
  | .pick _ job, .worker h =>
    modelServed s job.model ∧ pickWorker s job.model preferredWorkerID = some h
  | .pick _ job, .noWorker _ =>
    modelServed s job.model ∧ pickWorker s job.model preferredWorkerID = none
  | .pick _ job, .unserved => !modelServed s job.model
  | .placeItem item, .worker h => pickWorker s item.job.model preferredWorkerID = some h
  | .placeItem item, .noWorker _ => pickWorker s item.job.model preferredWorkerID = none
  | _, _ => true

def Picks (s : Server) : Instr → Choice → Bool := PicksFor "" s

end AgentGpu.ControlPlane
