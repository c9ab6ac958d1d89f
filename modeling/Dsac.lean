import Dsac.Container.Tree.AvlTree.BalancedRuns
import Dsac.Container.Tree.BTree.Runs
import Dsac.Container.Tree.RbTree.Depth
import Dsac.Container.Tree.RbTree.Sequence
import Dsac.Container.Tree.BsTree.Runs
import Dsac.Container.Graph.DijkstraSearch.PathExist
import Dsac.Container.Graph.DijkstraSearch.ShortestPath
import Dsac.Container.Graph.DisjointSetUnion.Partition
import Dsac.Container.Graph.ReadGraphviz.Edges
import Dsac.Container.Heap.BinaryHeap.Runs
import Dsac.Container.Hash.ExtendibleHashtable.Insertions
import Dsac.Concurrency.Futures.Combine.Exposure
import Dsac.Concurrency.Futures.State.Rejections
import Dsac.Concurrency.Futures.Chain.Exceptions
import Dsac.Concurrency.Futures.Combine.FirstN.Completion
import Dsac.Container.Intrusive.List.Deque
import Dsac.Concurrency.Synchronization.Barrier.Phases
import Dsac.Concurrency.Synchronization.Mutex.Exclusion
import Dsac.Concurrency.Synchronization.Semaphore.Wakeups
import Dsac.Cache.Lru.Policy
import Dsac.Cache.LruK.Residency
import Dsac.Cache.LruK.TwoLevel
import Dsac.Container.Hash.HashTable.Calls
import Dsac.Container.Hash.HashTable.Counting
import Dsac.Memory.SharedPtr.Lifetimes
import Dsac.Memory.SharedPtr.MoveAssignment
import Dsac.Container.Tree.BsTree.Insertions
import Dsac.Algorithm.BinaryTreeSort
import Dsac.Container.Tree.BTree.Destruction
import Dsac.Replication.Cluster
import Dsac.Container.Hash.ExtendibleHashtable.Overwrites
import Dsac.Concurrency.Synchronization.Mvar.HandOver
import Dsac.Concurrency.Executors.StaticThreadPool.Shutdown
import Dsac.Replication.Cluster.Quorum
import Dsac.Replication.Coordinator.Atomicity
import Dsac.Concurrency.Lockfree.Stack.Interleavings
import Dsac.Concurrency.Futures.Then
import Dsac.Container.Graph.BreadthFirstSearch.ShortestPath
import Dsac.Container.Graph.Queries
import Dsac.Container.Graph.ReadGraphviz.Nodes
import Dsac.Container.DynamicArray.Allocators
import Dsac.Container.DynamicArray.Throws
import Dsac.Algorithm.MergeSort.Stable
import Dsac.Algorithm.QuickSort.Agreement
import Dsac.Container.Graph.Graphviz.SyntaxAnalyzer.Calls
import Dsac.Algorithm.RangeSort
import Dsac.Algorithm.HeapSort
import Dsac.Algorithm.ShellSort
import Dsac.Container.Graph.TravellingSalesmanProblem.Tour
import Dsac.Concurrency.Fibers
import Dsac.Concurrency.Fibers.Order
import Dsac.Algorithm.ShakerSort.Agreement
import Dsac.Concurrency.Container.BlockingStack.Linearizable
import Dsac.Concurrency.Coroutines
import Dsac.Concurrency.Coroutines.Agreement
