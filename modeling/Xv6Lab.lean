import Xv6Lab.Lib.Run
import Xv6Lab.Lib.Scan
import Xv6Lab.Lib.Copy
import Xv6Lab.Lib.Ring
import Xv6Lab.Lib.StarPattern
import Xv6Lab.Kernel.Basic
import Xv6Lab.Kernel.Strings
import Xv6Lab.Kernel.Kalloc
import Xv6Lab.Kernel.Vm
import Xv6Lab.Kernel.SharedMemory
import Xv6Lab.Kernel.Proc
import Xv6Lab.Kernel.SharedMemorySpec
import Xv6Lab.Kernel.ProcSpec
import Xv6Lab.Kernel.SharedMemoryInvariant
import Xv6Lab.Kernel.SharedMemoryCount
import Xv6Lab.Kernel.VmSpec
import Xv6Lab.Kernel.AddressSpace
import Xv6Lab.Kernel.PageLifetime
import Xv6Lab.Kernel.SharedMemorySafety
import Xv6Lab.Kernel.Kill
import Xv6Lab.Kernel.SharedMemoryRace
import Xv6Lab.Kernel.SyscallLog
import Xv6Lab.Lib.Tally
import Xv6Lab.Lib.Writes
import Xv6Lab.Lib.LinkedRing
import Xv6Lab.Sync.Semaphore
import Xv6Lab.Sync.SemaphoreQueue
import Xv6Lab.Sync.WrLock
import Xv6Lab.Sync.TicketLock
import Xv6Lab.Sync.TicketWrap
import Xv6Lab.Sync.TicketOrder
import Xv6Lab.Sync.TicketTest
import Xv6Lab.Sync.RwtLock
import Xv6Lab.Sync.RwLock
import Xv6Lab.Console.Input
import Xv6Lab.Console.InputOrder
import Xv6Lab.Console.Editor
import Xv6Lab.Console.Refinement
import Xv6Lab.Pipe.Pipe
import Xv6Lab.Pipe.Queue
import Xv6Lab.Pipe.Refinement
import Xv6Lab.User.Grep
import Xv6Lab.Lib.Bytes
import Xv6Lab.Fs.Layout
import Xv6Lab.Fs.Fs
import Xv6Lab.Fs.BlockOwnership
import Xv6Lab.Fs.Mkfs
import Xv6Lab.Fs.MkfsOverflow
import Xv6Lab.Kernel.MfqScheduler
import Xv6Lab.Kernel.SharedMemoryOpen
import Xv6Lab.Kernel.SharedMemoryPlacement
import Xv6Lab.Kernel.SyscallArgs
import Xv6Lab.Kernel.ArgList
import Xv6Lab.Fs.Log
import Xv6Lab.Fs.LogCrash
import Xv6Lab.Fs.Bio
import Xv6Lab.User.Umalloc
import Xv6Lab.Kernel.ProcTable
import Xv6Lab.Kernel.Pids
import Xv6Lab.Sync.RwTest
import Xv6Lab.Lib.Rearrange
import Xv6Lab.User.Sort
import Xv6Lab.Fs.Path
import Xv6Lab.Fs.ReadWrite
import Xv6Lab.Fs.File
import Xv6Lab.Fs.FileRefs
import Xv6Lab.Fs.Descriptors
import Xv6Lab.Fs.FileSafety
import Xv6Lab.Fs.FileIO
import Xv6Lab.Fs.Dirlink
import Xv6Lab.User.FreeList
