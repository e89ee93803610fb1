import AgentGpu.Auth.Roles
import AgentGpu.Cmd.Overrides
import AgentGpu.Cmd.RingHandler
import AgentGpu.Cmd.Termination
import AgentGpu.ControlPlane.Accumulation
import AgentGpu.ControlPlane.Affinity
import AgentGpu.ControlPlane.Connections
import AgentGpu.ControlPlane.Conservation
import AgentGpu.ControlPlane.Identity
import AgentGpu.ControlPlane.Served
import AgentGpu.ControlPlane.Settlement
import AgentGpu.HttpApi.AuditTrail
import AgentGpu.HttpApi.Catalog
import AgentGpu.HttpApi.Confinement
import AgentGpu.HttpApi.DrainWorker
import AgentGpu.HttpApi.KeyPages
import AgentGpu.HttpApi.Replays
import AgentGpu.HttpApi.ToolCalls
import AgentGpu.Queue.Cancellation
import AgentGpu.Quota.Calendar
import AgentGpu.Quota.RateLimit
import AgentGpu.Sessions.Backing
import AgentGpu.Sessions.Removal
import AgentGpu.Sessions.Sweep
import AgentGpu.Usage
import AgentGpu.Worker.Advertising
import AgentGpu.Worker.Capacity
import AgentGpu.Worker.Shutdown
import AgentGpu.Worker.Teardown
