import TieredStore.Lib.Pool
import TieredStore.Lib.Versioned
import TieredStore.Lib.Erasure
import TieredStore.Lib.Ranked
import TieredStore.Lib.KeyOrder
import TieredStore.Meta.Specs
import TieredStore.Meta.HeadVersion
import TieredStore.Meta.Background
import TieredStore.Meta.Catalog
import TieredStore.Meta.Changes
import TieredStore.Meta.Coherence
import TieredStore.Meta.TaskCoherence
import TieredStore.Meta.TaskRuns
import TieredStore.Meta.Claims
import TieredStore.Meta.TaskMoves
import TieredStore.Meta.TaskScans
import TieredStore.Meta.Promotion
import TieredStore.Meta.ReadyIndex
import TieredStore.Meta.ClaimOrder
import TieredStore.Meta.Purge
import TieredStore.Meta.RepairBudget
import TieredStore.Meta.Retention
import TieredStore.Meta.EnqueueRaces
import TieredStore.Meta.Tracking
import TieredStore.Meta.Reads
import TieredStore.Meta.Isolation
import TieredStore.Tiering.Worker
import TieredStore.Tiering.IdleGate
import TieredStore.Lib.Percent
import TieredStore.Node.Routes
import TieredStore.Cluster.Calls
import TieredStore.Cluster.Placement
import TieredStore.Tiering.Processors
import TieredStore.Api.WriteService
import TieredStore.Api.Quorum
import TieredStore.Cluster.Effects
import TieredStore.Tiering.Retry
import TieredStore.Api.Objects
import TieredStore.Cluster.Places
import TieredStore.Node.Contents
import TieredStore.Node.SafePath
import TieredStore.Node.WriteQueue
import TieredStore.Node.Admission
import TieredStore.Node.FailedStore
import TieredStore.Meta.DuePairs
import TieredStore.Meta.TieringPass
import TieredStore.Meta.TieringBudget
import TieredStore.Tiering.HotRepair
import TieredStore.Tiering.EcRepair
import TieredStore.Tiering.HealthyMigration
import TieredStore.Cluster.Footprint
import TieredStore.Tiering.Footprints
import TieredStore.Tiering.LateRows
import TieredStore.Meta.Json
import TieredStore.Api.RpcCommit
import TieredStore.Api.RpcRead
import TieredStore.Cluster.Selection
import TieredStore.Kvstore.Memory
import TieredStore.Kvstore.Lease
import TieredStore.Api.NodeSelection
import TieredStore.Tiering.RetryCap
import TieredStore.Meta.LeaderToken
import TieredStore.Cluster.Ownership
import TieredStore.Cluster.Durability
import TieredStore.Cluster.Tending
import TieredStore.Cluster.Lifetime
import TieredStore.Cluster.Availability
import TieredStore.Node.GroupSync
