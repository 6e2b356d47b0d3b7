-- SUMMARY: Root of the development; imports every module.
import NotedThat.Lib.Prog
import NotedThat.Lib.RelyGuarantee
import NotedThat.Lib.Text
import NotedThat.Core.Names
import NotedThat.Core.Pattern
import NotedThat.Core.Access
import NotedThat.Core.Kb
import NotedThat.Core.Conditional
import NotedThat.Core.Storage
import NotedThat.Write.Manifest
import NotedThat.Webdav.Path
import NotedThat.Server.Provision
import NotedThat.Core.Steps
import NotedThat.Write.Commit
import NotedThat.Write.Patch
import NotedThat.Webdav.IfHeader
import NotedThat.Webdav.CopyMove
import NotedThat.Lib.Pool
import NotedThat.Core.Laws
import NotedThat.Core.Versions
import NotedThat.Write.Specs
import NotedThat.System.ManifestSafety
import NotedThat.System.CopyConditions
import NotedThat.Webdav.ReadFile
import NotedThat.Core.Listing
import NotedThat.Webdav.Filesystem
import NotedThat.Webdav.Handlers
import NotedThat.Webdav.Router
import NotedThat.Core.Alone
import NotedThat.System.Mediation
import NotedThat.Webdav.Lookups
import NotedThat.System.PropfindPrivacy
import NotedThat.Indexer.Pipeline
import NotedThat.Indexer.Contents
import NotedThat.Indexer.Specs
import NotedThat.System.IndexCompleteness
import NotedThat.Indexer.Lanes
import NotedThat.Core.Denotation
import NotedThat.Core.Decisions
import NotedThat.Events.Memory
import NotedThat.Events.Delivery
import NotedThat.Events.Frames
import NotedThat.Events.Resume
import NotedThat.Events.Nats
import NotedThat.System.EventStamps
import NotedThat.System.Rewrites
import NotedThat.StorageFs.Locking
import NotedThat.Lib.Promises
import NotedThat.Lib.Drops
import NotedThat.Write.Duties
import NotedThat.System.Server
import NotedThat.System.Convergence
import NotedThat.System.EventOrder
import NotedThat.Lib.Assoc
import NotedThat.StorageFs.Pending
import NotedThat.Core.Reconcile
import NotedThat.Lib.FileTree
import NotedThat.StorageFs.Layout
import NotedThat.StorageFs.Watch
import NotedThat.Lib.ByteOrder
import NotedThat.StorageFs.Listing
import NotedThat.Lib.Utf8Slices
import NotedThat.Indexer.Chunker
import NotedThat.System.Announcements
import NotedThat.Indexer.Health
import NotedThat.Server.FsBridge
import NotedThat.StorageFs.Sidecar
import NotedThat.StorageFs.RecordedTags
import NotedThat.StorageFs.RecordedTypes
import NotedThat.Lib.Futures
import NotedThat.Write.Droppable
import NotedThat.Write.DropSafety
import NotedThat.StorageFs.SidecarPaths
import NotedThat.Indexer.Searcher
import NotedThat.Lib.LockOrder
import NotedThat.StorageFs.KeyLocks
import NotedThat.Mcp.Urls
import NotedThat.Mcp.Subscriptions
import NotedThat.Mcp.SubscriptionEffects
import NotedThat.Mcp.Unsubscribed
import NotedThat.Mcp.Keeper
import NotedThat.Mcp.Held
import NotedThat.Mcp.Promised
import NotedThat.Mcp.SessionBinding
import NotedThat.Lib.LossyUtf8
import NotedThat.Lib.Needles
import NotedThat.Mcp.Sse
import NotedThat.Mcp.SseSplits
import NotedThat.Mcp.SseFrames
import NotedThat.Api.FilteredListing
import NotedThat.Mcp.Resources
import NotedThat.Api.Errors
import NotedThat.Api.Kbs
import NotedThat.Mcp.ResourcesList
import NotedThat.Api.Browse
import NotedThat.Webdav.DepthOne
import NotedThat.Api.IndexHealth
import NotedThat.Webdav.IfGrammar
import NotedThat.Api.Ranges
import NotedThat.Api.GetObject
import NotedThat.Api.WriteObject
import NotedThat.System.ReplaceAnswers
import NotedThat.Mcp.Client
import NotedThat.Mcp.Move
import NotedThat.Mcp.Range
import NotedThat.Api.RangeGrammar
import NotedThat.Core.ByteRanges
import NotedThat.Api.LineSpans
import NotedThat.Api.PatchBytes
import NotedThat.Lib.Occurrences
import NotedThat.Write.ReplaceBytes
import NotedThat.Api.HttpDates
import NotedThat.Api.Preconditions
import NotedThat.Indexer.Splits
import NotedThat.Indexer.Sections
import NotedThat.Indexer.RawChunks
import NotedThat.Indexer.Merging
import NotedThat.Indexer.Lossless
import NotedThat.Indexer.ChunkBounds
import NotedThat.Lib.Outline
import NotedThat.Indexer.HeadingPaths
import NotedThat.Indexer.AnyBytes
import NotedThat.Mcp.RangeSpans
import NotedThat.Mcp.Read
import NotedThat.Core.BucketNames
import NotedThat.Indexer.Snapshot
import NotedThat.Indexer.Frontmatter
import NotedThat.Indexer.IndexedObjects
import NotedThat.Core.Staging
import NotedThat.StorageFs.KeyPaths
import NotedThat.Core.WalkEtags
import NotedThat.Lib.Calendar
import NotedThat.Lib.I64
import NotedThat.Api.Timestamps
import NotedThat.Indexer.Embedder
import NotedThat.Core.PolicySerde
import NotedThat.Indexer.Previews
import NotedThat.Indexer.BlockSyntax
import NotedThat.Lib.Window
import NotedThat.Indexer.HeadingScanner
import NotedThat.Indexer.ScannedLines
import NotedThat.Indexer.ScannedDocument
import NotedThat.Indexer.OpaqueBlocks
import NotedThat.Lib.Utf8Lines
import NotedThat.Lib.FileCalls
import NotedThat.StorageFs.Directories
import NotedThat.StorageFs.EmptyDirs
import NotedThat.StorageFs.StageRetries
import NotedThat.Lib.Traces
import NotedThat.Indexer.Queue
import NotedThat.Indexer.QueuedEvents
import NotedThat.Server.Reconciler
import NotedThat.Server.ReconcilePasses
import NotedThat.Server.Drained
import NotedThat.Server.Shutdown
import NotedThat.Lib.Base64
import NotedThat.Core.Auth
import NotedThat.System.Callers
import NotedThat.Server.Oidc
import NotedThat.Server.KeyCache
