import Doppio.Ext2.Attributes
import Doppio.Ext2.FreeCounts
import Doppio.Lock.RwLock
import Doppio.Lock.RwSem
import Doppio.Lock.TicketLock
import Doppio.Misc.RcuLists
import Doppio.Mm.KmemThreads
import Doppio.Mmu.BuddyThreads
import Doppio.Mmu.KernelRuns
import Doppio.Mmu.MapRuns
import Doppio.Sys.Credentials
import Doppio.Sys.DemandCopy
import Doppio.Sys.Eventfd
import Doppio.Sys.FileRefRuns
import Doppio.Sys.Futex
import Doppio.Sys.PipeWakeups
import Doppio.Sys.SemSets
import Doppio.Sys.Semop
import Doppio.Sys.Signals
import Doppio.Sys.SocketPairRuns
import Doppio.Sys.Timers
import Doppio.Vfs.BlkCacheThreads
import Doppio.Vfs.BlockDev
import Doppio.Vfs.NameCache
import Doppio.Vfs.FileOwner
import Doppio.Vma.ForkShared
import Doppio.Vma.MunmapRace
import Doppio.Vma.RemoveRange
import Doppio.Vma.SharedFaults
import Doppio.Vma.SharedRuns
import Doppio.Proc.ExitWait
import Doppio.Proc.Tree
import Doppio.Proc.WaitStatus
