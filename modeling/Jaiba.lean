import Jaiba.Memory.Atomicity
import Jaiba.Memory.Retention
import Jaiba.Memory.Removal
import Jaiba.Memory.Deferral
import Jaiba.Memory.Admission
import Jaiba.Memory.Cold.Durability
import Jaiba.Memory.Cold.Damage
import Jaiba.Repository.Lifecycle
import Jaiba.Repository.Content
import Jaiba.Repository.RoundTrip
import Jaiba.Control
import Jaiba.Engine.Loop
import Jaiba.Engine.Recovery
import Jaiba.Engine.Delivery
import Jaiba.Engine.Publication
import Jaiba.Engine.Memory
import Jaiba.Engine.Capacity
import Jaiba.Engine.Ordering
import Jaiba.Engine.Backlog
import Jaiba.Engine.Agreement
import Jaiba.Engine.Circuit
import Jaiba.Repository.Identity
import Jaiba.Server.Rollback
import Jaiba.Server.Scheduler
import Jaiba.Server.Persistence
import Jaiba.Server.Runtime
import Jaiba.Supervisor
import Jaiba.Wakeup
import Jaiba.Server.SqlBuilder
import Jaiba.Plugin.Framing
import Jaiba.Plugin.Installed
import Jaiba.Plugin.Directory
import Jaiba.Connections.Vault
import Jaiba.Connections.Compensation
import Jaiba.Connections.Interleaving
import Jaiba.Connections.Cache
import Jaiba.Connectors.Atomicity
import Jaiba.Connectors.Base64
import Jaiba.Mongo.Upsert
import Jaiba.AiPrep.Retry
import Jaiba.JsonText
import Jaiba.Lib.Recency
import Jaiba.AiPrep.Dedupe
import Jaiba.AiPrep.Collecting
import Jaiba.Connections.MongoProfile
import Jaiba.Engine.Budget
import Jaiba.Plugin.Pairing
import Jaiba.Editor.LongestPath
import Jaiba.AiPrep.Partition
import Jaiba.AiPrep.ComputeFields
import Jaiba.Kafka.Polling
import Jaiba.Kafka.Offsets
import Jaiba.Engine.Placeholders
import Jaiba.Engine.Parameters
import Jaiba.Connections.Redacted
import Jaiba.Connections.Credentials
import Jaiba.Memory.Deadline
import Jaiba.Memory.Keyed
import Jaiba.Memory.Duration
import Jaiba.Repository.Retention
import Jaiba.Server.CatchUp
import Jaiba.Lib.Like
import Jaiba.Server.TextFilters
import Jaiba.Engine.StateStore
import Jaiba.Engine.DomainMemory
import Jaiba.Engine.Metrics
import Jaiba.Server.Exposition
import Jaiba.Processors.RenameFields
import Jaiba.Processors.SqlQueries
import Jaiba.Server.CompiledQueries
import Jaiba.Connectors.NumberValue
import Jaiba.Processors.EncodeXml
import Jaiba.Connectors.OracleClient
import Jaiba.Server.Isolation
import Jaiba.Editor.Reimport
import Jaiba.Memory.Archive
