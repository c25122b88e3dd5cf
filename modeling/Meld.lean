import Meld.Vm.RuleMatcherInvariant
import Meld.Vm.InstrLength
import Meld.Vm.PersIterCorrect
import Meld.Vm.PersistentTuplesCorrect
import Meld.Vm.DerivationDepth
import Meld.Vm.ThreadMatcherInvariant
import Meld.Vm.InPlaceUpdate
import Meld.Vm.LinearIter
import Meld.Vm.IterateNestCorrect
import Meld.Vm.TupleUse
import Meld.Db.LinearStore
import Meld.Queue.DoubleQueueRun
import Meld.Queue.PrioritiesRun
import Meld.Thread.TerminationInvariant
import Meld.Thread.IdsUnique
import Meld.Utils.TreeBarrierSafe
import Meld.Mem.PoolCorrect
import Meld.Vm.Buffer
import Meld.Vm.RunNodeMarks
import Meld.Vm.MatchObjectCorrect
import Meld.Db.HashMemory
import Meld.Queue.SharedHeaps
import Meld.Thread.Coord
import Meld.Thread.CoordAborts
import Meld.Db.CycleLeaf
import Meld.Thread.CoordOwner
import Meld.Vm.Cancellation
import Meld.Db.DatumTrie
import Meld.Db.DatumTrieCorrect
import Meld.Db.DatumTrieInsert
import Meld.Db.TrieHash
import Meld.Db.TrieHashCorrect
import Meld.Lib.Bytes
import Meld.Vm.TuplePack
import Meld.Vm.TuplePackBytes
import Meld.Vm.TuplePackCorrect
import Meld.Lib.RefCount
import Meld.Runtime.Containers
import Meld.Runtime.ContainersCorrect
import Meld.Vm.DirectPath
import Meld.Db.ArrayBuffer
import Meld.Db.FieldHash
import Meld.Lib.Scan
import Meld.Vm.BitmapSets
import Meld.Vm.CallStack
import Meld.Vm.HashLookup
import Meld.Vm.MatchBytes
import Meld.Vm.OrderedIter
import Meld.Vm.PredicateOperands
import Meld.Vm.RemoteUpdate
import Meld.Vm.RemoteUpdateRefs
import Meld.Vm.StructVal
import Meld.Thread.CoordAffinity
import Meld.Thread.CoordPriority
import Meld.External.Messages
import Meld.Vm.TypeEqual
import Meld.External.Partition
import Meld.Runtime.Sets
import Meld.Runtime.Arrays
import Meld.Thread.NodeRanges
import Meld.Thread.Startup
import Meld.Vm.NodeTables
import Meld.Thread.ActiveThreads
import Meld.Thread.StaticNodes
import Meld.Thread.IdsSweep
import Meld.Utils.IntrusiveListRun
import Meld.Db.TrieScan
import Meld.Utils.QueuedSpinlockFair
import Meld.Vm.NodeReferences
import Meld.Db.AggregateCopy
