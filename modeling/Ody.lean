import Ody.Library.Tables
import Ody.Library.Interleaving
import Ody.Execution.Model
import Ody.Execution.MemoryStore
import Ody.Execution.Calls
import Ody.Execution.Effects
import Ody.Execution.RecordInvariant
import Ody.Execution.Freshness
import Ody.Execution.EventHistory
import Ody.Execution.LeaseFencing
import Ody.Pipeline.Definition
import Ody.Pipeline.Engine
import Ody.Pipeline.EngineRules
import Ody.Pipeline.RunExecutions
import Ody.Pipeline.SuccessSoundness
import Ody.Pipeline.Gating
import Ody.Pipeline.DependencyGating
import Ody.Pipeline.DataConsistency
import Ody.Library.DerivedIndexes
import Ody.Library.Optimistic
import Ody.Redis.State
import Ody.Redis.Store
import Ody.Redis.Representation
import Ody.Redis.Interference
import Ody.Redis.OperationRules
import Ody.Redis.Concurrency
import Ody.Redis.Abstraction
import Ody.Redis.Refinement
import Ody.Postgres.Outcome
import Ody.Pipeline.RunSettlement
import Ody.Pipeline.Cancellation
import Ody.Execution.Retention
import Ody.Redis.FinishTimes
import Ody.Pipeline.RetainedWork
import Ody.Execution.ReferenceIndexes
import Ody.Library.Windows
import Ody.Schedule.Scheduler
import Ody.Schedule.Instants
import Ody.Library.Delimited
import Ody.Pipeline.NodeKeys
import Ody.Pipeline.AdvancePlan
import Ody.Pipeline.AdvanceProgress
import Ody.Pipeline.AdvanceAttempts
import Ody.Pipeline.Confluence
import Ody.Pipeline.CoordinationRaces
import Ody.Pipeline.Liveness
import Ody.Schedule.Misfires
import Ody.Schedule.Descriptors
import Ody.Library.Pages
import Ody.Execution.Pages
import Ody.Redis.Pages
import Ody.Library.Selection
import Ody.Redis.Claims
import Ody.Redis.ClaimFailures
import Ody.Pipeline.SubgraphRestarts
import Ody.Pipeline.Outputs
import Ody.Worker.Execute
import Ody.Worker.Shutdown
import Ody.Task.Backoff
import Ody.Task.Registry
import Ody.Worker.Dispatch
import Ody.Execution.QueueHead
import Ody.Library.Removal
import Ody.Execution.Purges
import Ody.Library.Base64
import Ody.Execution.RequestKeys
import Ody.Redis.KeyTexts
import Ody.Redis.CompositeKeys
import Ody.Library.Placeholders
import Ody.Postgres.Queries
import Ody.Postgres.Parameters
import Ody.Library.Linearizability
import Ody.Execution.Lifecycle
import Ody.Redis.Blocks
import Ody.Redis.Lifecycle
import Ody.Redis.Linearizability
import Ody.Redis.Deliveries
import Ody.Library.Layers
import Ody.Redis.Listings
import Ody.Redis.Coordination
import Ody.Redis.CoordinationRules
import Ody.Redis.Engine
import Ody.Execution.TimeTexts
import Ody.Redis.RunEncoding
import Ody.Schedule.ExactlyOnce
import Ody.Worker.Polling
import Ody.Redis.Counts
