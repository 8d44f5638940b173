import Plibsys.Types
import Plibsys.ByteOrder
import Plibsys.Support.Heap
import Plibsys.Support.LinkedList
import Plibsys.Support.LinkedTree
import Plibsys.Support.OrderedMap
import Plibsys.Support.SearchTree
import Plibsys.Support.Region
import Plibsys.Support.Ring
import Plibsys.Support.AtomicObject
import Plibsys.Support.CriticalSections
import Plibsys.Support.Stdio
import Plibsys.Tree.State
import Plibsys.Tree.Surgery
import Plibsys.Tree.Contract
import Plibsys.Tree.Bst
import Plibsys.Tree.UpLinked
import Plibsys.Tree.Rb
import Plibsys.Tree.RbBalance
import Plibsys.Tree.Avl
import Plibsys.Tree.AvlBalance
import Plibsys.Tree.PTree
import Plibsys.Tree.Walks
import Plibsys.Tree.MapRefinement
import Plibsys.Tree.Invariants
import Plibsys.Tree.Ownership
import Plibsys.Tree.Traversals
import Plibsys.Tree.Heights
import Plibsys.Shm.PShm
import Plibsys.Shm.PShmBuffer
import Plibsys.Shm.RingOps
import Plibsys.Shm.Fifo
import Plibsys.Shm.RingSize
import Plibsys.Crypto.PCryptoHash
import Plibsys.Ini.PString
import Plibsys.Ini.PIniFile
import Plibsys.Ini.Blocks
import Plibsys.Ini.Written
import Plibsys.Ini.RoundTrip
import Plibsys.Ini.Independence
import Plibsys.Ini.LineContext
import Plibsys.Ini.SectionOrder
import Plibsys.Ini.Comments
import Plibsys.Ini.Marks
import Plibsys.Ini.Quoting
import Plibsys.Lists.PList
import Plibsys.Lists.ListRefinement
import Plibsys.HashTable.PHashTable
import Plibsys.HashTable.Chains
import Plibsys.HashTable.MapRefinement
import Plibsys.Shm.PSemaphore
import Plibsys.Shm.AccessModes
import Plibsys.Shm.SemaphoreRuns
import Plibsys.Shm.SharedQueue
import Plibsys.Threads.PCondVariable
import Plibsys.Threads.Waiters
import Plibsys.Threads.PAtomic
import Plibsys.Threads.PUThread
import Plibsys.Threads.ThreadReferences
import Plibsys.Threads.ThreadLedger
import Plibsys.Threads.ThreadObjects
import Plibsys.Threads.ThreadIdentity
import Plibsys.Threads.ThreadLifetime
import Plibsys.Support.PackedWord
import Plibsys.Support.Counting
import Plibsys.Threads.PRWLock
import Plibsys.Threads.RWLockInvariant
import Plibsys.Threads.PRWLockXp
import Plibsys.Threads.XpAccounting
import Plibsys.Threads.XpWakeups
import Plibsys.Threads.PCondVariableXp
import Plibsys.Threads.XpWaiters
import Plibsys.Support.BlockStream
import Plibsys.Support.Buffering
import Plibsys.Support.ByteWords
import Plibsys.Support.RotatingNames
import Plibsys.Support.MerkleDamgard
import Plibsys.Crypto.BlockHash
import Plibsys.Crypto.Streaming
import Plibsys.Crypto.PHashMD5
import Plibsys.Crypto.Md5
import Plibsys.Support.Recurrence
import Plibsys.Crypto.PHashSHA1
import Plibsys.Crypto.Sha1
import Plibsys.Crypto.PHashSHA2
import Plibsys.Crypto.Sha2
import Plibsys.Crypto.PHashSHA3
import Plibsys.Crypto.Keccak
import Plibsys.Crypto.Sha3
import Plibsys.Support.WideWords
import Plibsys.Support.ShiftRegister
import Plibsys.Crypto.PHashGOST3411
import Plibsys.Crypto.Gost3411
import Plibsys.Support.LimbAddition
import Plibsys.Crypto.GostUpdates
import Plibsys.Crypto.Algorithms
import Plibsys.Crypto.OpenClosed
import Plibsys.Crypto.GostAccumulators
import Plibsys.Crypto.ChunkSizes
import Plibsys.Support.CString
import Plibsys.Strings.PString
import Plibsys.Strings.Trimming
import Plibsys.Strings.Exponents
import Plibsys.Shm.PIpc
import Plibsys.Threads.PUThreadAmiga
import Plibsys.Threads.TlsCleanUp
import Plibsys.Support.CountedLoop
import Plibsys.Shm.TransferLengths
import Plibsys.Threads.PUThreadPosix
import Plibsys.Threads.TlsKeyCreation
import Plibsys.Ini.PhysicalLines
import Plibsys.Ini.ListValues
import Plibsys.Support.SysProgram
import Plibsys.Socket.PSocket
import Plibsys.Socket.Lifecycle
import Plibsys.Socket.PSocketAddress
import Plibsys.Socket.AddressRoundTrip
import Plibsys.Socket.AddressClasses
