import Collections.Element
import Collections.Sorted.Shared
import Collections.Sequence.Deque
import Collections.Sequence.LinkedList
import Collections.Heap.PriorityQueue
import Collections.Heap.PriorityStack
import Collections.SearchTree.Multiset
import Collections.Lru.Cache
import Collections.Graph.Matrix
import Collections.Graph.EdgeLists
import Collections.Settings.Cache
import Collections.Release
import Collections.Proofs.Graph.EdgeTable
import Collections.Proofs.Graph.CostGraph
import Collections.Proofs.Graph.MatrixCoherence
import Collections.Proofs.Graph.MatrixRemoval
import Collections.Proofs.Graph.MatrixCalls
import Collections.Proofs.Graph.MatrixCosts
import Collections.Proofs.Graph.MatrixReachable
import Collections.Proofs.Graph.MatrixAgreement
import Collections.Proofs.Graph.MatrixRuns
import Collections.Proofs.Cursor
import Collections.Proofs.Lru.Layout
import Collections.Proofs.Lru.RecentEntries
import Collections.Proofs.Lru.CacheRuns
import Collections.Proofs.SearchTree.Parts
import Collections.Proofs.SearchTree.Ordered
import Collections.Proofs.SearchTree.TreeWalk
import Collections.Proofs.SearchTree.Bag
import Collections.Proofs.SearchTree.MultisetRuns
import Collections.Proofs.Direction
import Collections.Proofs.Sorted.PartitionPoint
import Collections.Proofs.Sorted.Insertion
import Collections.Proofs.Sorted.Writes
import Collections.Proofs.Sorted.Alike
import Collections.Proofs.Sorted.SortedRuns
import Collections.Proofs.Sorted.Repositioning
import Collections.Proofs.Sorted.LowerBound
import Collections.Proofs.Sorted.Construction
import Collections.Proofs.Sorted.Mirroring
import Collections.Proofs.Sorted.SharedSessions
import Collections.Proofs.Lru.UsedSlots
import Collections.Proofs.Lru.SlotCoherence
import Collections.Proofs.Lru.Inclusion
import Collections.Proofs.Graph.EdgeLists
import Collections.Proofs.Graph.Interchange
import Collections.Proofs.Graph.ListAgreement
import Collections.Proofs.Graph.Lockstep
import Collections.Proofs.SearchTree.Counters
import Collections.Proofs.SearchTree.Reshaping
import Collections.Proofs.SearchTree.Enumeration
import Collections.Proofs.SearchTree.Regrowth
import Collections.Proofs.SearchTree.Levels
import Collections.Proofs.Heap.HeapOrder
import Collections.Proofs.Heap.QueueRuns
import Collections.Proofs.Heap.Service
import Collections.Proofs.Heap.Subtrees
import Collections.Proofs.Heap.StackRuns
import Collections.Proofs.Sequence.Arena
import Collections.Proofs.Sequence.LinkedWalk
import Collections.Proofs.Sequence.LinkedRuns
import Collections.Proofs.Sequence.Ring
import Collections.Proofs.Sequence.DequeRuns
import Collections.Proofs.Sequence.ReferredSlots
import Collections.Proofs.Sequence.SlotPartition
import Collections.Proofs.Sequence.TwoEndedWalks
import Collections.Proofs.Graph.VertexOrder
import Collections.Proofs.Graph.EdgeWalks
import Collections.Proofs.Lru.ReuseDistance
import Collections.Proofs.Graph.CreationOrder
import Collections.Proofs.Graph.Growth
import Collections.Proofs.Graph.FailedCalls
import Collections.Proofs.Graph.MatrixSizes
import Collections.Proofs.Json.WrittenTokens
import Collections.Proofs.Json.RecordRoundTrip
import Collections.Proofs.Settings.SavedSettings
import Collections.Proofs.Text.Numeral
import Collections.Proofs.Text.LowerCase
import Collections.Proofs.Settings.EnvironmentSettings
import Collections.Proofs.Trace
import Collections.Proofs.Doubling
import Collections.Proofs.Sequence.RingGrowth
import Collections.Proofs.Graph.MatrixGrowth
import Collections.Proofs.Lru.Accounts
import Collections.Proofs.Lru.SlotUse
