import CoordinatorCore.Text.Basic
import CoordinatorCore.Text.Search
import CoordinatorCore.Text.SentinelBlocks
import CoordinatorCore.Text.Lines
import CoordinatorCore.Value
import CoordinatorCore.Frontmatter.Primitives
import CoordinatorCore.Frontmatter.FieldLaw
import CoordinatorCore.Machine.Ranked
import CoordinatorCore.Machine.Recent
import CoordinatorCore.Machine.Run
import CoordinatorCore.Machine.Serial
import CoordinatorCore.Machine.Stream
import CoordinatorCore.LockedWrite
import CoordinatorCore.BodyBlocks
import CoordinatorCore.BodyBlocks.Splice
import CoordinatorCore.Frontmatter.Document
import CoordinatorCore.Spine.Rows
import CoordinatorCore.Spine.Patch
import CoordinatorCore.Spine.Verbs
import CoordinatorCore.Spine.WriteRead
import CoordinatorCore.Spine.DigestExact
import CoordinatorCore.Spine.Approval
import CoordinatorCore.Spine.RowStates
import CoordinatorCore.Spine.Reassembly
import CoordinatorCore.Spine.FlatYaml
import CoordinatorCore.Spine.Resolve
import CoordinatorCore.Spine.Atomic
import CoordinatorCore.Spine.State
import CoordinatorCore.Spine.Edges
import CoordinatorCore.Spine.Order
import CoordinatorCore.Spine.Approved
import CoordinatorCore.Text.Number
import CoordinatorCore.Machine.DepthFirst
import CoordinatorCore.Machine.Search
import CoordinatorCore.Machine.Kahn
import CoordinatorCore.Machine.LongestChain
import CoordinatorCore.Roadmap.CriticalPath
import CoordinatorCore.Lineage.Edges
import CoordinatorCore.Lineage.Walk
import CoordinatorCore.Lineage.Reach
import CoordinatorCore.Lineage.Parse
import CoordinatorCore.Lineage.Layout
import CoordinatorCore.Lineage.Quoted
import CoordinatorCore.Lineage.Sequence
import CoordinatorCore.Lineage.RawScan
import CoordinatorCore.Lineage.Locate
import CoordinatorCore.Lineage.Membership
import CoordinatorCore.Lineage.HistoryCache
import CoordinatorCore.Machine.SuccGraph
import CoordinatorCore.Machine.Components
import CoordinatorCore.Machine.CycleSearch
import CoordinatorCore.Machine.Closure
import CoordinatorCore.Dispatch.Rows
import CoordinatorCore.Dispatch.Predecessors
import CoordinatorCore.Dispatch.Waves
import CoordinatorCore.Dispatch.HeldOut
import CoordinatorCore.Dispatch.Dag
import CoordinatorCore.Dispatch.Races
import CoordinatorCore.Touch.Record
import CoordinatorCore.Touch.Incremental
import CoordinatorCore.Touch.Merge
import CoordinatorCore.Touch.Rotation
import CoordinatorCore.Touch.FamilyOrder
import CoordinatorCore.Tracker.Causal
import CoordinatorCore.Tracker.Claims
import CoordinatorCore.Tracker.Log
import CoordinatorCore.Tracker.ObservedSet
import CoordinatorCore.Tracker.Retention
import CoordinatorCore.Tracker.Store
import CoordinatorCore.Gate.Agreement
import CoordinatorCore.Gate.Accounting
import CoordinatorCore.Gate.Narrowing
import CoordinatorCore.Gate.Soundness
import CoordinatorCore.Gate.Order
import CoordinatorCore.Gate.ActTime
import CoordinatorCore.Gate.NonInputs
import CoordinatorCore.Claims.Protocol
import CoordinatorCore.Claims.Exclusion
import CoordinatorCore.Claims.Release
import CoordinatorCore.Claims.Sequential
import CoordinatorCore.Claims.RowKeys
import CoordinatorCore.Frontmatter.Glob
import CoordinatorCore.Frontmatter.RestrictedYaml
import CoordinatorCore.Frontmatter.ReadBack
import CoordinatorCore.Frontmatter.Blocks
import CoordinatorCore.Frontmatter.BlockScalar
import CoordinatorCore.Frontmatter.Rebuild
import CoordinatorCore.Frontmatter.SeveralLines
import CoordinatorCore.Frontmatter.RoundTrip
import CoordinatorCore.Frontmatter.Continued
import CoordinatorCore.Frontmatter.BlockAppend
import CoordinatorCore.Frontmatter.Unevaluated
import CoordinatorCore.Handoff.Verbs
import CoordinatorCore.Handoff.Terminal
import CoordinatorCore.Text.SurrogateEscape
import CoordinatorCore.Git.IndexFile
import CoordinatorCore.Git.Scoped
import CoordinatorCore.Git.IndexEntry
import CoordinatorCore.Machine.Bisect
import CoordinatorCore.Git.Splice
import CoordinatorCore.Git.SpliceExact
import CoordinatorCore.Git.SpliceUpdates
import CoordinatorCore.Git.CheckIndex
import CoordinatorCore.Git.PrepareSplice
import CoordinatorCore.Text.StrictUtf8
import CoordinatorCore.Machine.BottomUp
import CoordinatorCore.Git.TreeObjects
import CoordinatorCore.Git.TreeSpine
import CoordinatorCore.Git.SpineRead
import CoordinatorCore.Git.SpineRewrite
import CoordinatorCore.Git.SpineFlat
import CoordinatorCore.Git.CommitPaths
import CoordinatorCore.Git.CommitRace
import CoordinatorCore.Git.CommitStages
import CoordinatorCore.Git.RefusedCommit
import CoordinatorCore.Git.CasRef
import CoordinatorCore.Git.PackFile
import CoordinatorCore.Git.Delta
import CoordinatorCore.Git.RefLog
import CoordinatorCore.Git.StateIndex
import CoordinatorCore.Git.TreeBytes
import CoordinatorCore.Git.TreeDiff
import CoordinatorCore.Machine.EditScript
import CoordinatorCore.Text.ByteLines
import CoordinatorCore.Git.OwnDelta
import CoordinatorCore.Machine.Keeping
import CoordinatorCore.Git.TreeScan
import CoordinatorCore.Git.RollbackWalk
import CoordinatorCore.Git.PackFold
import CoordinatorCore.Git.PackReadBack
import CoordinatorCore.Git.ObjectStore
import CoordinatorCore.Git.PackLookup
import CoordinatorCore.Git.IndexLock
import CoordinatorCore.Gate.Chase
import CoordinatorCore.Gate.Meet
import CoordinatorCore.Machine.VectorClock
import CoordinatorCore.Tracker.Clones
import CoordinatorCore.Machine.Survivor
import CoordinatorCore.Tracker.Persons
import CoordinatorCore.Machine.LastWrite
import CoordinatorCore.Tracker.Axes
import CoordinatorCore.Tracker.Emitting
import CoordinatorCore.Tracker.Reopening
import CoordinatorCore.Tracker.Transitions
import CoordinatorCore.Tracker.Fleet
