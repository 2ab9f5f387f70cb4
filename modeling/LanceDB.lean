import LanceDB.Base.Lists
import LanceDB.Base.EState
import LanceDB.Streaming.Pipeline
import LanceDB.Streaming.PipelineInvariant
import LanceDB.Base.RoundRobin
import LanceDB.Streaming.Assignment
import LanceDB.Streaming.Rows
import LanceDB.Streaming.RowsRefinement
import LanceDB.Streaming.Resume
import LanceDB.Base.Deliveries
import LanceDB.Streaming.Progress
import LanceDB.Base.Chunking
import LanceDB.Streaming.Packing
import LanceDB.Streaming.PackingInvariant
import LanceDB.Streaming.Commit
import LanceDB.Streaming.Merge
import LanceDB.Streaming.Elastic
import LanceDB.Streaming.PackingRefinement
import LanceDB.Base.Clumps
import LanceDB.Streaming.PackingElastic
import LanceDB.Permutation.Shuffle
import LanceDB.Permutation.Split
import LanceDB.Permutation.Builder
import LanceDB.Permutation.Reader
import LanceDB.Permutation.Iterate
import LanceDB.Permutation.Pickle
import LanceDB.Base.Threads
import LanceDB.Cache.Background
import LanceDB.Cache.Order
import LanceDB.Table.Wrapper
import LanceDB.Table.Consistency
import LanceDB.Table.Checkout
import LanceDB.MemWal.Reads
import LanceDB.Computed.Sidecars
import LanceDB.Computed.Encoding
import LanceDB.Computed.Refresh
import LanceDB.Remote.Handle
import LanceDB.Remote.ReadYourWrites
import LanceDB.Remote.Schema
import LanceDB.Base.Retry
import LanceDB.Remote.Multipart
import LanceDB.Base.Kernel
import LanceDB.Dedup.Representatives
import LanceDB.Base.Fusion
import LanceDB.Hybrid.Batch
import LanceDB.Hybrid.Rrf
import LanceDB.Hybrid.WalFusion
import LanceDB.Hybrid.Combine
import LanceDB.Hybrid.FusionEquivalence
import LanceDB.Base.Occurrences
import LanceDB.Query.Take
import LanceDB.Base.Traces
import LanceDB.MemWal.Checkpoint
import LanceDB.MemWal.CheckpointProgress
import LanceDB.Base.Calls
import LanceDB.Remote.Blobs
import LanceDB.Remote.BlobVersions
import LanceDB.Remote.TokenCache
import LanceDB.Remote.TokenRotation
import LanceDB.Remote.Logout
import LanceDB.Remote.SqlQuery
import LanceDB.Remote.SqlStream
import LanceDB.Permutation.Sequential
import LanceDB.Permutation.Sizes
import LanceDB.Permutation.Aborts
import LanceDB.Base.Acyclic
import LanceDB.View.Sources
import LanceDB.Table.Insert
import LanceDB.MemWal.Routing
import LanceDB.MemWal.MergeInsert
import LanceDB.Base.DepthFirst
import LanceDB.Columns.Arrow
import LanceDB.Columns.Binding
import LanceDB.Columns.FunctionTypes
import LanceDB.Columns.Declarations
import LanceDB.Columns.Evolution
import LanceDB.Columns.Frame
import LanceDB.Columns.Preserved
import LanceDB.Columns.Requests
import LanceDB.Columns.Runs
import LanceDB.Columns.Admission
import LanceDB.Permutation.Hash
import LanceDB.Permutation.SkipTake
import LanceDB.Cache.Barrier
import LanceDB.Streaming.Lease
import LanceDB.MemWal.OneWriter
import LanceDB.Streaming.FailedIterator
import LanceDB.Columns.Cycles
import LanceDB.Remote.Retries
import LanceDB.Dedup.Sampling
