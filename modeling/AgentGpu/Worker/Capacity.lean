import AgentGpu.Gpu.Detector
import AgentGpu.Types.Proto

namespace AgentGpu.Worker

open Gpu

/-- One call of `Detect`: what the tools say, and how the maps are gone through. -/
structure Detection where
  runner : Runner
  range : MapOrder

namespace Detection

variable (goos : GOOS) (d : Detection)

def capacity : Capacity := detect goos d.range d.runner

def probes : List (Except ProbeError (List Device)) := d.runner.probes d.range goos

end Detection

def heartbeat (workerID : String) (activeJobs : UInt32) (models : Option (List Model))
    (cap : Capacity) : Types.Heartbeat :=
  { workerID, activeJobs, totalVRAM := cap.totalVRAM, freeVRAM := cap.freeVRAM, load := cap.load,
    gpuType := cap.type, availableModels := models }

/-! What a worker is to keep of its devices when a probe fails. -/

/-- The free memory and the load of the devices that the worker knows, and which of the probes
found them, if one did. -/
structure Known where
  source : Option ℕ := none
  freeVRAM : UInt64 := 0
  load : UInt32 := 0
  deriving DecidableEq

def found : Except ProbeError (List Device) → Bool
  | .ok devices => devices ≠ []
  | .error _ => false

namespace Detection

variable (goos : GOOS) (d : Detection)

def known : Known :=
  ⟨(d.probes goos).findIdx? found, (d.capacity goos).freeVRAM, (d.capacity goos).load⟩

/-- The detection comes to probe `k`, and the probe fails. Whether its tool is gone, timed out or
wrote nonsense makes no difference, nor does what the probes after it find. -/
def failsAt (k : ℕ) : Bool :=
  ((d.probes goos).take k).all (!found ·) &&
    match (d.probes goos)[k]? with
    | some (.error _) => true
    | _ => false

end Detection

def Known.refresh (goos : GOOS) (last : Known) (d : Detection) : Known :=
  match last.source with
  | some k => if d.failsAt goos k then last else d.known goos
  | none => d.known goos

section

variable {cfg : CapacityConfig} {goos : GOOS}

end

end AgentGpu.Worker
