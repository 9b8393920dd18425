import ChuSQL.Library
import ChuSQL.Storage.Config
import ChuSQL.Storage.Page
import ChuSQL.Storage.Pager.Journal
import ChuSQL.Storage.Pager.Recovery
import ChuSQL.Storage.Pager.Append
import ChuSQL.Storage.Pager.Crash
import ChuSQL.Storage.Pager.Repair
import ChuSQL.Storage.Pager.Pool
import ChuSQL.Storage.BTree.Basic
import ChuSQL.Storage.BTree.Tree
import ChuSQL.Storage.BTree.Insert
import ChuSQL.Storage.BTree.Leaves
import ChuSQL.Storage.BTree.Delete
import ChuSQL.Storage.BTree.Order
import ChuSQL.Storage.BTree.Straddle
import ChuSQL.Storage.BTree.Pages
import ChuSQL.Storage.BTree.NodePage
import ChuSQL.Storage.BTree.Simulation
import ChuSQL.Storage.BTree.Scan
import ChuSQL.Storage.BTree.Invariant
import ChuSQL.Storage.BTree.Update
import ChuSQL.Storage.BTree.Refinement
import ChuSQL.Storage.BTree.FirstLeaf
import ChuSQL.Storage.Value
import ChuSQL.Storage.Heap.Basic
import ChuSQL.Storage.Heap.Reopen
import ChuSQL.Storage.Heap.Slotted
import ChuSQL.Storage.Heap.Compaction
import ChuSQL.Storage.Heap.Keyed
import ChuSQL.Storage.Serde
import ChuSQL.Storage.Heap.Indexed
import ChuSQL.Storage.Heap.Agreement
import ChuSQL.Storage.Protocol
import ChuSQL.Storage.Catalog.Stats
import ChuSQL.Storage.Catalog.Exactness
import ChuSQL.Storage.Accounts.Basic
import ChuSQL.Storage.Accounts.Protection
import ChuSQL.Storage.Accounts.Manager
import ChuSQL.Storage.Wal.Op
import ChuSQL.Storage.Wal.RoundTrip
import ChuSQL.Storage.Wal.Log
import ChuSQL.Storage.Wal.Recovery
import ChuSQL.Storage.Wal.Codec
import ChuSQL.Storage.Wal.Lsn
import ChuSQL.Storage.Wal.FailedAppend
import ChuSQL.Storage.Recovery.Replay
import ChuSQL.Storage.Recovery.Rows
import ChuSQL.Storage.Recovery.Precheck
import ChuSQL.Storage.Recovery.Redo
import ChuSQL.Storage.Recovery.CrashImage
import ChuSQL.Storage.Mvcc.Basic
import ChuSQL.Storage.Mvcc.Publish
import ChuSQL.Storage.Mvcc.Locks
import ChuSQL.Storage.Mvcc.LockTable
import ChuSQL.Storage.Mvcc.Merge
import ChuSQL.Storage.Mvcc.Identity
import ChuSQL.Storage.Mvcc.Chain
import ChuSQL.Storage.Mvcc.Matching
import ChuSQL.Storage.Mvcc.Building
import ChuSQL.Storage.Mvcc.Snapshot
import ChuSQL.Storage.Mvcc.Run
import ChuSQL.Storage.Mvcc.Reads
import ChuSQL.Server.Acl.Basic
import ChuSQL.Server.Acl.Effective
import ChuSQL.Server.Acl.Objects
import ChuSQL.Server.Acl.Commands
import ChuSQL.Server.Acl.Stability
import ChuSQL.Server.Acl.Invariant
import ChuSQL.Server.Acl.Reachable
import ChuSQL.Server.Acl.Sources
import ChuSQL.Server.Acl.Escalation
import ChuSQL.Server.Acl.Notify
import ChuSQL.Server.Acl.Announced
import ChuSQL.Server.Acl.Completeness
import ChuSQL.Server.Acl.Membership
import ChuSQL.Storage.Group.Basic
import ChuSQL.Storage.Group.Counted
import ChuSQL.Model.Runtime
import ChuSQL.Model.Encoding
import ChuSQL.Model.Value
import ChuSQL.Model.Column
import ChuSQL.Model.Table
import ChuSQL.Model.Order
import ChuSQL.Model.Same
import ChuSQL.Model.Types
import ChuSQL.Model.Protocol
import ChuSQL.Model.RoundTrip
import ChuSQL.Engine.Analysis
import ChuSQL.Engine.Builtin
import ChuSQL.Engine.Equality
import ChuSQL.Engine.Syntax
import ChuSQL.Engine.Expr
import ChuSQL.Engine.Sort
import ChuSQL.Engine.TopK
import ChuSQL.Engine.Grouping
import ChuSQL.Engine.Subquery
import ChuSQL.Engine.Join
import ChuSQL.Engine.HashJoin
import ChuSQL.Engine.Folding
import ChuSQL.Engine.Plan.Basic
import ChuSQL.Engine.Plan.Optimize
import ChuSQL.Engine.Plan.Answer
import ChuSQL.Engine.Plan.Runs
import ChuSQL.Engine.Plan.Pushing
import ChuSQL.Engine.Plan.Indexing
import ChuSQL.Engine.Plan.Rewriting
import ChuSQL.Library.Related
import ChuSQL.Engine.Plan.Passes
import ChuSQL.Engine.Plan.Alike
import ChuSQL.Engine.Plan.Pruning
import ChuSQL.Engine.Plan.SemiJoin
import ChuSQL.Engine.Insert
import ChuSQL.Engine.Generated
import ChuSQL.Engine.Delete
import ChuSQL.Engine.Expansion
import ChuSQL.Engine.Scope
import ChuSQL.Library.Reading
import ChuSQL.Model.TypeNames
import ChuSQL.Model.TypeNameRoundTrip
import ChuSQL.Library.Numerals
import ChuSQL.Library.Calendar
import ChuSQL.Model.Scalar.Formats
import ChuSQL.Model.Scalar.Times
import ChuSQL.Model.Scalar.Identifiers
import ChuSQL.Model.Scalar.Addresses
import ChuSQL.Model.Scalar.Intervals
import ChuSQL.Model.Scalar.Json
import ChuSQL.Model.Scalar.Meaning
import ChuSQL.Model.Coercion
import ChuSQL.Library.Tokens
import ChuSQL.Server.Security.Gate
import ChuSQL.Server.Security.Sound
import ChuSQL.Server.Security.Sessions
import ChuSQL.Server.Security.Registry
import ChuSQL.Server.Security.Nesting
import ChuSQL.Server.Security.Steps
import ChuSQL.Server.Security.Exclusion
import ChuSQL.Server.Security.Progress
import ChuSQL.Server.Lines
import ChuSQL.Server.RateLimit
