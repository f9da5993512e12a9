import ObjectLog.Lib.Prog
import ObjectLog.Lib.Answers
import ObjectLog.Lib.Safe
import ObjectLog.Lib.Future
import ObjectLog.Lib.Cbor
import ObjectLog.Lib.Search
import ObjectLog.Lib.Paths
import ObjectLog.Lib.Chunks
import ObjectLog.Lib.GoMap
import ObjectLog.Types
import ObjectLog.Head
import ObjectLog.Format.Wire
import ObjectLog.Format.Codec
import ObjectLog.Format.Objects
import ObjectLog.Format.Plan
import ObjectLog.Format.Cursor
import ObjectLog.Handles
import ObjectLog.Location
import ObjectLog.Store
import ObjectLog.Log.Read
import ObjectLog.Log.Graph
import ObjectLog.Log.Publish
import ObjectLog.Log.Collect
import ObjectLog.Log.Session
import ObjectLog.Log.History
import ObjectLog.Log.Stream
import ObjectLog.Log.StreamScan
import ObjectLog.Log.Schedule
import ObjectLog.System
import ObjectLog.Git.Index
import ObjectLog.Git.FetchPolicy
import ObjectLog.Proof.HeadValid
import ObjectLog.Proof.HeadChange
import ObjectLog.Proof.RoundTrip
import ObjectLog.Proof.NodeSize
import ObjectLog.Proof.RoundTripObjects
import ObjectLog.Proof.RoundTripPlan
import ObjectLog.Proof.Canonical
import ObjectLog.Proof.Cursor
import ObjectLog.Proof.HeadSize
import ObjectLog.Proof.HeadErrors
import ObjectLog.Proof.UpdateErrors
import ObjectLog.Proof.Answered
import ObjectLog.Proof.HistoryOps
import ObjectLog.Proof.Graph
import ObjectLog.Proof.Order
import ObjectLog.Proof.Inv
import ObjectLog.Proof.Stable
import ObjectLog.Proof.Safety
import ObjectLog.Proof.Live
import ObjectLog.Proof.History
import ObjectLog.Proof.Step
import ObjectLog.Proof.Land
import ObjectLog.Proof.Rules
import ObjectLog.Proof.StoreOps
import ObjectLog.Proof.ReadOps
import ObjectLog.Proof.Served
import ObjectLog.Proof.TailOps
import ObjectLog.Proof.WalkOps
import ObjectLog.Proof.WalkErrors
import ObjectLog.Proof.WalkBudget
import ObjectLog.Proof.Closure
import ObjectLog.Proof.GraphOps
import ObjectLog.Proof.StageOps
import ObjectLog.Proof.StreamOps
import ObjectLog.Proof.StreamRanges
import ObjectLog.Proof.StreamCapacity
import ObjectLog.Proof.UpdateOps
import ObjectLog.Proof.Candidate
import ObjectLog.Proof.Token
import ObjectLog.Proof.CommitOps
import ObjectLog.Proof.AppendBase
import ObjectLog.Proof.CheckpointOps
import ObjectLog.Proof.RetentionOps
import ObjectLog.Proof.CollectOps
import ObjectLog.Proof.Accounting
import ObjectLog.Proof.SessionOps
import ObjectLog.Proof.Outcome
import ObjectLog.Proof.World
import ObjectLog.Proof.Agreement
import ObjectLog.Proof.Misses
import ObjectLog.Proof.Parts
import ObjectLog.Proof.IndexTrees
import ObjectLog.Proof.IndexRules
import ObjectLog.Proof.IndexUpdate
import ObjectLog.Proof.IndexReads
import ObjectLog.Proof.IndexFilter
import ObjectLog.Proof.FetchPolicy
import ObjectLog.Replay
import ObjectLog.Results.History
import ObjectLog.Results.Heads
import ObjectLog.Results.Commits
import ObjectLog.Results.Collection
import ObjectLog.Results.Checkpoints
import ObjectLog.Results.Recovery
import ObjectLog.Results.Codecs
import ObjectLog.Results.Limits
import ObjectLog.Results.Locations
import ObjectLog.Results.Cursors
import ObjectLog.Results.Streams
import ObjectLog.Results.Reads
import ObjectLog.Results.Staging
import ObjectLog.Results.Graphs
import ObjectLog.Results.Git
