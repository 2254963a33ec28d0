import TierCache.Admin.Handle
import TierCache.Admin.Request
import TierCache.Admin.Response
import TierCache.Admin.Route
import TierCache.Channel
import TierCache.Clock
import TierCache.Cluster.Basic
import TierCache.Cluster.Tasks
import TierCache.Config
import TierCache.Engine.Basic
import TierCache.Engine.Keys
import TierCache.Engine.Memory
import TierCache.Engine.Regions
import TierCache.Engine.Typed
import TierCache.Entry
import TierCache.Error
import TierCache.Glob
import TierCache.Glob.Compiled
import TierCache.Instance.Basic
import TierCache.Instance.Describe
import TierCache.Instance.Follow
import TierCache.Json.Basic
import TierCache.Json.Raw
import TierCache.Json.Read
import TierCache.Locks
import TierCache.Lru
import TierCache.Notifier
import TierCache.Number.Binary64
import TierCache.Number.Decimal
import TierCache.Protocol.Command
import TierCache.Protocol.Connection
import TierCache.Protocol.Execute
import TierCache.Protocol.Line
import TierCache.Protocol.Reply
import TierCache.Protocol.Session
import TierCache.Protocol.Token
import TierCache.Regex
import TierCache.Replication.Address
import TierCache.Replication.Event
import TierCache.Replication.Failover
import TierCache.Replication.Frame
import TierCache.Replication.Heartbeat
import TierCache.Replication.Log
import TierCache.Replication.Member
import TierCache.Replication.Settings
import TierCache.RowId
import TierCache.Stats
import TierCache.Store.Backend
import TierCache.Store.Basic
import TierCache.Store.Directory
import TierCache.Store.Faulty
import TierCache.Store.FileName
import TierCache.Store.LogStore
import TierCache.Store.RegionLog
import TierCache.Store.Table
import TierCache.Text.Base64
import TierCache.Text.Blank
import TierCache.Text.Integer
import TierCache.Text.Lines
import TierCache.Text.MediaType
import TierCache.Text.Percent
import TierCache.Text.Timestamp
import TierCache.Text.Utf8
import TierCache.Text.Uuid
import TierCache.Value.Basic
import TierCache.Value.Edit
import TierCache.Value.Range
import TierCache.Value.Record
import TierCache.Value.SortedSet
import TierCache.Proofs.Election.Fleet
import TierCache.Proofs.Engine.Upkeep
import TierCache.Proofs.Outage.Commands
import TierCache.Proofs.Outage.Removed
import TierCache.Proofs.Outage.Residents
import TierCache.Proofs.Outage.Running
import TierCache.Proofs.Outage.Telling
import TierCache.Proofs.Recency.Eviction
import TierCache.Proofs.Replication.Link
import TierCache.Proofs.Store.Requests
import TierCache.Proofs.Store.Torn
import TierCache.Proofs.Tiers.Editing
import TierCache.Proofs.Tiers.Known
import TierCache.Proofs.Tiers.Restart
import TierCache.Proofs.Protocol.Sweeps
import TierCache.Proofs.Replication.Reapply
import TierCache.Proofs.Protocol.Token
import TierCache.Proofs.Protocol.Reply
import TierCache.Proofs.Protocol.Transaction
import TierCache.Proofs.Protocol.Scanning
import TierCache.Proofs.Replication.Messages
import TierCache.Proofs.Replication.Frame
import TierCache.Proofs.Election.Succession
import TierCache.Proofs.Protocol.Line
import TierCache.Proofs.Store.Naming
import TierCache.Proofs.Protocol.LineLimit
import TierCache.Proofs.Protocol.Counters
import TierCache.Proofs.Glob.Translation
import TierCache.Proofs.Value.Rescoring
import TierCache.Proofs.Locks
import TierCache.Proofs.Value.Range
