import LearnC.SegFits.Calls
import LearnC.MemPool.Upgrade
import LearnC.MemPool.Guards
import LearnC.MemPool.Blocks
import LearnC.MemPool.Interleaving
import LearnC.SlabPool.Outstanding
import LearnC.SlabPool.Verdicts
import LearnC.SlabPool.Lifecycle
import LearnC.SlabPool.CxxTeardown
import LearnC.SlabPool.Allocator
import LearnC.SlabPool.BaseStats
import LearnC.SlabPool.CxxStats
import LearnC.SlabPool.Agreement
import LearnC.SegFits.Payloads
import LearnC.FreeList.FirstFit
import LearnC.Heaps.Requests
import LearnC.Heaps.Counts
import LearnC.FixedBins.Chunks
import LearnC.BlackBox.Crash
import LearnC.BlackBox.Load
import LearnC.Thread.BoundedBuffer
import LearnC.Thread.CPoolRuns
import LearnC.Thread.CPoolShutdown
import LearnC.Thread.CxxPool
import LearnC.Thread.NamedBuffer
import LearnC.Daemon.Exits
import LearnC.Daemon.Restarts
import LearnC.Daemon.Signals
import LearnC.Config.Faithful
import LearnC.Dir.Exact
import LearnC.Dir.Create
import LearnC.Daemon.Args
import LearnC.Convert.Hex
import LearnC.Socket.Message
import LearnC.Config.Booleans
import LearnC.Net.Tcp
import LearnC.Net.Broadcast
import LearnC.Net.Multicast
import LearnC.Convert.Neighbour
import LearnC.Convert.Buffers
import LearnC.Dir.SplitPath
import LearnC.Tools.Elapsed
import LearnC.Tools.KernelVersion
import LearnC.Tools.Range
import LearnC.Paras.Aliases
import LearnC.Paras.Short
import LearnC.Thread.ThreadPoolDrain
import LearnC.Thread.ConditionDrain
import LearnC.Process.Rendezvous
import LearnC.Config.Write
import LearnC.Dir.Toggle
import LearnC.FreeList.Canonical
import LearnC.SegFits.Cuts
import LearnC.SegFits.Printing
import LearnC.MemPool.Leaks
import LearnC.Thread.Container
import LearnC.Thread.Printing
import LearnC.Process.SemaphoreSet
import LearnC.Process.SharedMemory
import LearnC.Process.Pipe
import LearnC.FixedBins.Stacks
import LearnC.Thread.Atomic
import LearnC.Thread.Balance
import LearnC.Process.NamedSemaphore
import LearnC.Net.Echo
import LearnC.Process.Mmap
