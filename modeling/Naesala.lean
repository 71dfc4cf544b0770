import Naesala.Library.Machine
import Naesala.Library.Linked
import Naesala.Library.Cyclic
import Naesala.Library.Pairs
import Naesala.Library.Ownership
import Naesala.Library.Entries
import Naesala.Library.Fresh
import Naesala.Library.Recency
import Naesala.Library.Population
import Naesala.Library.Mutex
import Naesala.Library.Checked
import Naesala.Library.Attempts
import Naesala.Library.Beside
import Naesala.Library.Progression
import Naesala.Library.Istream
import Naesala.Library.Potential
import Naesala.Library.Scripted
import Naesala.Library.Paging
import Naesala.Library.BitArray
import Naesala.Library.Probing
import Naesala.Library.Slots
import Naesala.Library.BottomUp
import Naesala.Hashmap.LinearHashmap
import Naesala.Hashmap.Counters
import Naesala.Hashmap.Capacity
import Naesala.Hashmap.Resize
import Naesala.Hashmap.Operations
import Naesala.Hashmap.Amortized
import Naesala.Hashmap.Objects
import Naesala.Hashmap.Lookup
import Naesala.Hashmap.Tombstones
import Naesala.Hashmap.Lifetimes
import Naesala.Hashmap.LifetimesProof
import Naesala.Hashmap.Balance
import Naesala.Hashmap.Iteration
import Naesala.Hashmap.Formed
import Naesala.Hashmap.Copies
import Naesala.Hashmap.Exhaustive
import Naesala.Hashmap.EraseIf
import Naesala.Hashmap.FiniteMap
import Naesala.Hashmap.Rebuild
import Naesala.Lockfree.Util
import Naesala.Lockfree.Stack
import Naesala.Lockfree.StackSteps
import Naesala.Lockfree.StackProof
import Naesala.Lockfree.StackProgress
import Naesala.Lockfree.List
import Naesala.Lockfree.ListSteps
import Naesala.Lockfree.ListProof
import Naesala.Lockfree.ListOrder
import Naesala.Lockfree.ListProgress
import Naesala.Lockfree.Sequential
import Naesala.Lockfree.SequentialProof
import Naesala.Container.Lru
import Naesala.Container.LruProof
import Naesala.Container.LruInclusion
import Naesala.Container.LruDefined
import Naesala.Container.LruCompetitive
import Naesala.Container.List
import Naesala.Container.ListProof
import Naesala.Container.Trie
import Naesala.Container.TrieProof
import Naesala.Container.SlabPool
import Naesala.Container.SlabPoolProof
import Naesala.Container.SlabPoolReuse
import Naesala.BlockingQueue.Buffer
import Naesala.BlockingQueue.Threads
import Naesala.BlockingQueue.Semaphore
import Naesala.BlockingQueue.SemaphoreProof
import Naesala.BlockingQueue.Condition
import Naesala.BlockingQueue.ConditionProof
import Naesala.BlockingQueue.SemaphoreThrow
import Naesala.BlockingQueue.ConditionThrow
import Naesala.BlockingQueue.Exceptions
import Naesala.BlockingQueue.Protocol
import Naesala.BlockingQueue.SemaphoreProtocol
import Naesala.BlockingQueue.ConditionProtocol
import Naesala.BlockingQueue.Suite
import Naesala.LockfreePool.LockfreeSlabPool
import Naesala.LockfreePool.RefSteps
import Naesala.LockfreePool.LockfreeSlabPoolProof
import Naesala.LockfreePool.Recycling
import Naesala.LockfreePool.RefProgress
import Naesala.LockfreePool.OnStack
import Naesala.LockfreePool.OnStackProof
import Naesala.Common.Barrier
import Naesala.Common.BarrierProof
import Naesala.Common.Range
import Naesala.Common.Sequence
import Naesala.Common.ProcStat
import Naesala.Common.ProcStatProof
import Naesala.Configure.ConfParser
import Naesala.Configure.ConfLoad
import Naesala.Configure.ConfGrammar
import Naesala.Configure.ConfPrint
import Naesala.Configure.ConfSession
import Naesala.Third.AlignHash
import Naesala.Third.AlignHashFlags
import Naesala.Third.AlignHashResize
import Naesala.Third.AlignHashProof
import Naesala.Third.AlignHashIteration
import Naesala.Third.AlignHashLinear
import Naesala.Third.ChainHash
import Naesala.Third.ChainHashProof
import Naesala.Third.ChainHashSnap
import Naesala.Third.ChainHashSort
import Naesala.Third.ChainHashRuns
