import HyperionVault.Lib.Table
import HyperionVault.Lib.Fixed
import HyperionVault.Core.Types
import HyperionVault.Lib.Run
import HyperionVault.Lib.Text
import HyperionVault.Store.Keys
import HyperionVault.Store.Backup
import HyperionVault.Store.Apply
import HyperionVault.Store.Engine
import HyperionVault.Store.Effects
import HyperionVault.Store.Replica
import HyperionVault.Raft.Model
import HyperionVault.Raft.StateMachine
import HyperionVault.Raft.Node
import HyperionVault.Raft.Refine
import HyperionVault.Store.Invariant
import HyperionVault.Store.Readable
import HyperionVault.Raft.Snapshot
import HyperionVault.Raft.Building
import HyperionVault.Lib.Json
import HyperionVault.Store.Json
import HyperionVault.Raft.Json
import HyperionVault.Raft.Fatal
import HyperionVault.Lib.Proc
import HyperionVault.Service.PgTarget
import HyperionVault.Service.Model
import HyperionVault.Service.Requests
import HyperionVault.Service.Calls
import HyperionVault.Service.Rewrap
import HyperionVault.Service.Prepared
import HyperionVault.Service.History
import HyperionVault.Service.Alone
import HyperionVault.Service.Concrete
import HyperionVault.Service.Unwrapping
import HyperionVault.Service.Recreate
import HyperionVault.Service.Agreement
import HyperionVault.Lib.Serial
import HyperionVault.Service.Changes
import HyperionVault.Service.Lockout
import HyperionVault.Service.Reads
import HyperionVault.Service.Exec
import HyperionVault.Service.Replay
import HyperionVault.Raft.Transfer
import HyperionVault.Api.Guards
import HyperionVault.Store.Areas
import HyperionVault.Api.Revocation
import HyperionVault.Api.Manage
import HyperionVault.Api.TokenRoles
import HyperionVault.Service.Subjects
import HyperionVault.Api.Routes
import HyperionVault.Api.Confinement
import HyperionVault.Service.Ledger
import HyperionVault.Service.Views
import HyperionVault.Service.Serially
import HyperionVault.Service.Written
import HyperionVault.Store.Live
import HyperionVault.Service.Grace
import HyperionVault.Service.Recovery
import HyperionVault.Lib.Segment
import HyperionVault.Raft.Log
import HyperionVault.Raft.Crash
import HyperionVault.Raft.Rejoin
import HyperionVault.Raft.Restart
import HyperionVault.Raft.Cluster
import HyperionVault.Raft.Reads
import HyperionVault.Store.TokenIndex
import HyperionVault.Store.Audit
import HyperionVault.Api.Isolation
import HyperionVault.Api.Batches
import HyperionVault.Service.Labels
import HyperionVault.Service.Watermark
import HyperionVault.Store.Restore
import HyperionVault.Raft.Install
import HyperionVault.Raft.LogStore
import HyperionVault.Lib.Window
import HyperionVault.Store.Lockouts
import HyperionVault.Core.Config
import HyperionVault.Service.Locking
import HyperionVault.Store.Scans
import HyperionVault.Service.RotationWorker
import HyperionVault.Raft.Peer
import HyperionVault.Store.Roles
import HyperionVault.Lib.Scripted
import HyperionVault.Service.Allowlist
import HyperionVault.Lib.Cache
import HyperionVault.Service.DekCache
import HyperionVault.Api.Operations
import HyperionVault.Lib.Base64
import HyperionVault.Service.Moments
import HyperionVault.Store.History
import HyperionVault.Api.Audited
import HyperionVault.Api.Issued
import HyperionVault.Raft.Forward
import HyperionVault.Raft.Server
import HyperionVault.Service.KeyRotations
