import MegaSdk.Base.Bytes
import MegaSdk.Base.Loop
import MegaSdk.Base.OrdMap
import MegaSdk.Chunk.Fold
import MegaSdk.Chunk.Lattice
import MegaSdk.Chunk.MacMap
import MegaSdk.Chunk.Pieces
import MegaSdk.Crypto.SymmCipher
import MegaSdk.FileService.Context
import MegaSdk.FileService.Ranges
import MegaSdk.FileService.Requests
import MegaSdk.Json.Chunks
import MegaSdk.Json.Splitter
import MegaSdk.FileService.Updates
import MegaSdk.FileService.Downloads
import MegaSdk.FileService.Store
import MegaSdk.FileService.Reads
import MegaSdk.Base.Tree
import MegaSdk.FileService.AvlTree
import MegaSdk.FileService.AvlBalance
import MegaSdk.FileService.AvlOps
import MegaSdk.FileService.AvlRuns
import MegaSdk.Base.Slice
import MegaSdk.Raid.Layout
import MegaSdk.Raid.Buffers
import MegaSdk.Raid.Lines
import MegaSdk.Raid.Combine
import MegaSdk.Raid.Runs
import MegaSdk.FileService.AvlLookup
import MegaSdk.FileService.Gaps
import MegaSdk.FileService.RangeIndexes
import MegaSdk.Base.Sorting
import MegaSdk.Sync.Names
import MegaSdk.Sync.Rows
import MegaSdk.Base.Cells
import MegaSdk.Sync.Triplets
import MegaSdk.Sync.TripletSets
import MegaSdk.Ws.Pool
import MegaSdk.Ws.Places
import MegaSdk.Ws.Coverage
import MegaSdk.Ws.Attempts
import MegaSdk.Base.Forest
import MegaSdk.Nodes.Manager
import MegaSdk.Nodes.Counters
import MegaSdk.Nodes.CounterRuns
import MegaSdk.Nodes.ChildLookup
import MegaSdk.FileService.RangeRemoval
import MegaSdk.Json.Scanner
import MegaSdk.Json.Values
import MegaSdk.Json.Escape
import MegaSdk.Nodes.AttrMap
import MegaSdk.Crypto.TlvStore
import MegaSdk.Sync.Escapes
import MegaSdk.Raid.Requests
import MegaSdk.Chunk.LateGaps
import MegaSdk.Ws.Moves
import MegaSdk.Ws.Transfer
import MegaSdk.Ws.Metamac
import MegaSdk.Base.Glob
import MegaSdk.Text.Codecs
import MegaSdk.Raid.Streaming
import MegaSdk.Raid.Unprocessed
import MegaSdk.Sync.LocalPath
import MegaSdk.Text.Wildcard
import MegaSdk.Chunk.Progress
import MegaSdk.FileService.Reclaim
import MegaSdk.Text.CaseMap
import MegaSdk.Sync.Filters
import MegaSdk.Text.Like
import MegaSdk.Text.LikeSpec
import MegaSdk.Text.LikeRight
import MegaSdk.FileService.AvlIterator
import MegaSdk.FileService.CancelRange
import MegaSdk.Ws.Budget
import MegaSdk.Ws.BudgetFairness
import MegaSdk.Ws.Shortfall
import MegaSdk.Ws.Billing
import MegaSdk.Ws.SizeClasses
import MegaSdk.Ws.Quota
import MegaSdk.Fuse.AnyLockSet
import MegaSdk.Sync.FileFingerprint
import MegaSdk.Fuse.SharedMutex
import MegaSdk.Fuse.InodeCache
import MegaSdk.Transfers.TransferStats
import MegaSdk.Http.Gencash
import MegaSdk.Transfers.BackoffTimer
import MegaSdk.Sync.CloneCandidate
import MegaSdk.Media.Xxtea
