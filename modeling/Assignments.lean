import Assignments.Framework.SortedMap
import Assignments.Framework.Run
import Assignments.Framework.LinkedList
import Assignments.Kvs.Bytes
import Assignments.Kvs.Lru
import Assignments.Kvs.Lfu
import Assignments.Kvs.LfuBooks
import Assignments.Kvs.Cache
import Assignments.Framework.File
import Assignments.Kvs.Store
import Assignments.Kvs.Server
import Assignments.Kvs.Transparency
import Assignments.Framework.TextStream
import Assignments.Kvs.Context
import Assignments.Kvs.RoundTrip
import Assignments.Kvs.Sessions
import Assignments.Kvs.Threads
import Assignments.Kvs.Tokens
import Assignments.Framework.RedoLog
import Assignments.Xv6.Bio
import Assignments.Xv6.Log
import Assignments.Xv6.CrashAtomicity
import Assignments.Xv6.LogSpace
import Assignments.Framework.Table
import Assignments.Framework.Outcome
import Assignments.Xv6.Path
import Assignments.Xv6.Inode
import Assignments.Xv6.SysFile
import Assignments.Xv6.DirTree
import Assignments.Xv6.RefCounts
import Assignments.Xv6.OpenFiles
import Assignments.Xv6.InodeRefs
import Assignments.Xv6.SysLinks
import Assignments.Xv6.Consistency
import Assignments.Xv6.Mkfs
import Assignments.Xv6.LinkCounts
import Assignments.Xv6.ProcTable
import Assignments.Xv6.UserMemory
import Assignments.Xv6.TableLock
import Assignments.Xv6.WaitStatus
import Assignments.Xv6.Machine
import Assignments.Xv6.Scheduling
import Assignments.Xv6.ExitWait
import Assignments.Xv6.SlotReuse
import Assignments.Framework.Ring
import Assignments.Kvs.LruRuns
import Assignments.Xv6.Shell
import Assignments.Xv6.SleepWakeup
import Assignments.Xv6.Pipe
import Assignments.Xv6.PipeWakeup
import Assignments.Framework.Chain
import Assignments.Xv6.Ide
import Assignments.Framework.Circle
import Assignments.Xv6.BufferCache
import Assignments.Framework.Memory
import Assignments.Xv6.DiskLayout
import Assignments.Framework.Ownership
import Assignments.Xv6.DiskInode
import Assignments.Xv6.BlockOwnership
import Assignments.Xv6.InodeContent
import Assignments.Xv6.InodeCache
import Assignments.Xv6.Directories
import Assignments.Xv6.InodeRuns
import Assignments.Xv6.SharedOffset
import Assignments.Xv6.MkfsImage
import Assignments.Xv6.MkfsBuilt
import Assignments.Xv6.MkfsRoom
import Assignments.Xv6.MkfsFormat
import Assignments.Kvs.LfuRuns
import Assignments.Kvs.Client
import Assignments.Kvs.StoreRuns
import Assignments.Framework.Levels
import Assignments.Xv6.ShellLine
import Assignments.Xv6.ShellRedirect
import Assignments.Xv6.ShellTokens
import Assignments.Framework.Blocks
import Assignments.Xv6.Kalloc
import Assignments.Xv6.PageTable
import Assignments.Xv6.UserPages
import Assignments.Xv6.Growproc
import Assignments.Xv6.HeapSize
import Assignments.Xv6.Copyout
import Assignments.Xv6.KernelMap
import Assignments.Xv6.CopyUvm
import Assignments.Xv6.DeallocSkip
import Assignments.Xv6.Exec
import Assignments.Xv6.ExecSafety
import Assignments.Xv6.Grep
import Assignments.Xv6.SyscallArgs
