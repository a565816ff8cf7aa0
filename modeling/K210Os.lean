import K210Os.Semaphore
import K210Os.FrameAllocator
import K210Os.PageTableRuns
import K210Os.UserCopyFrames
import K210Os.FileRuns
import K210Os.VolumeFull
import K210Os.Directory
import K210Os.PipeRuns
import K210Os.WaitWakeups
import K210Os.BufferCacheRuns
import K210Os.FileTableRuns
import K210Os.KernelLockRuns
import K210Os.EntryCacheRuns
import K210Os.ElfLoad
import K210Os.BuddyLock
import K210Os.TaskSwitch
import K210Os.TrapEntry
import K210Os.Syscall
import K210Os.DirectoryWrites
import K210Os.FatMount
import K210Os.FatTruncate
import K210Os.LongNames
import K210Os.DirectoryScan
import K210Os.FreeSlots
import K210Os.Getdents
import K210Os.Unlink
import K210Os.EntrySlots
import K210Os.EntryAlloc
import K210Os.UserCopyBytes
import K210Os.AreaLists
import K210Os.AreaRelease
import K210Os.TaskCreation
import K210Os.ProgramBreak
import K210Os.MmapAreas
import K210Os.MmapContent
import K210Os.SpaceCopy
import K210Os.ForkCopy
import K210Os.Execve
import K210Os.EntryNesting
import K210Os.OpenAt
import K210Os.TaskFrames
import K210Os.HeapCells
import K210Os.PidSlots
import K210Os.DescriptorCopy
import K210Os.PipeCopies
import K210Os.WaitStatus
import K210Os.PipeWaiters
import K210Os.PipeCreation
import K210Os.Calendar
import K210Os.Timer
import K210Os.Getcwd
import K210Os.BitmapScan
import K210Os.KernelStacks
import K210Os.PathElements
import K210Os.ShortNames
import K210Os.KernelLists
import K210Os.ListRuns
import K210Os.DirectoryLookup
import K210Os.SlotWrites
import K210Os.CreatedFile
import K210Os.EntryCreation
import K210Os.CardCache
import K210Os.StringCopies
import K210Os.OpenFileRuns
