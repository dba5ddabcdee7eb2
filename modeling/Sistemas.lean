import Sistemas.Transition.Run
import Sistemas.Transition.Ends
import Sistemas.Transition.Loop
import Sistemas.Transition.Locks
import Sistemas.Posix.FdTable
import Sistemas.Crash.Writes
import Sistemas.Data.Bytes
import Sistemas.Data.Ownership
import Sistemas.Data.Counting
import Sistemas.Data.RingBuffer
import Sistemas.Data.Interleaving
import Sistemas.Xv6.Types
import Sistemas.Xv6.Semaphore
import Sistemas.Xv6.SemaphoreStep
import Sistemas.Xv6.SemaphoreLocks
import Sistemas.Xv6.SemaphoreWakeup
import Sistemas.Xv6.SemaphoreValue
import Sistemas.Xv6.SemaphoreLifecycle
import Sistemas.Xv6.SemaphoreCount
import Sistemas.Xv6.SemaphoreBlocking
import Sistemas.Xv6.SemaphoreCalm
import Sistemas.Xv6.Umalloc
import Sistemas.Xv6.UmallocFree
import Sistemas.Xv6.UmallocAlloc
import Sistemas.Xv6.UmallocRuns
import Sistemas.Xv6.UmallocList
import Sistemas.Data.Pages
import Sistemas.Xv6.Riscv
import Sistemas.Xv6.Growproc
import Sistemas.Xv6.UmallocSbrk
import Sistemas.Xv6.UserProgram
import Sistemas.Xv6.Pingpong
import Sistemas.Xv6.Pipe
import Sistemas.Xv6.PipeFifo
import Sistemas.Xv6.PipeLocks
import Sistemas.Xv6.PipeStep
import Sistemas.Xv6.PipeWakeup
import Sistemas.Xv6.Piperead
import Sistemas.Xv6.Log
import Sistemas.Xv6.LogCrash
import Sistemas.Xv6.LogOps
import Sistemas.Xv6.GroupCommit
import Sistemas.Xv6.LogReservation
import Sistemas.Xv6.FsFormat
import Sistemas.Xv6.FsBlocks
import Sistemas.Xv6.Fs
import Sistemas.Xv6.FsOwnership
import Sistemas.Xv6.FsContents
import Sistemas.Xv6.Mkfs
import Sistemas.Xv6.MkfsImage
import Sistemas.Xv6.MkfsTrusted
import Sistemas.Xv6.FsRuns
import Sistemas.Xv6.FsBuffers
import Sistemas.Xv6.FsReadWrite
import Sistemas.Xv6.FsShortWrite
import Sistemas.Xv6.FsSpace
import Sistemas.Xv6.FileBytes
import Sistemas.Xv6.FileTable
import Sistemas.Xv6.FileTableCounts
import Sistemas.Xv6.FileTableRuns
import Sistemas.Xv6.FileTableSteps
import Sistemas.Xv6.Filewrite
import Sistemas.Xv6.FilewriteOrder
import Sistemas.Xv6.FilewriteLog
import Sistemas.Xv6.Sysfile
import Sistemas.Xv6.LinkGraph
import Sistemas.Xv6.SysfileTable
import Sistemas.Xv6.SysfilePaths
import Sistemas.Xv6.SysfileCalls
import Sistemas.Xv6.SysfileLinks
import Sistemas.Xv6.SysfileReleases
import Sistemas.Xv6.SysfileRuns
import Sistemas.Xv6.Process
import Sistemas.Xv6.ProcessStep
import Sistemas.Xv6.ProcessLives
import Sistemas.Xv6.ProcessLocks
import Sistemas.Xv6.ProcessFlow
import Sistemas.Xv6.ProcessChange
import Sistemas.Xv6.ProcessCoherent
import Sistemas.Xv6.ProcessSched
import Sistemas.Xv6.ProcessSlots
import Sistemas.Xv6.ProcessWakeup
import Sistemas.Xv6.ProcessKill
import Sistemas.Xv6.ProcessWait
import Sistemas.Xv6.ProcessLineage
import Sistemas.Xv6.ProcessNumbers
import Sistemas.Xv6.ProcessLifecycle
import Sistemas.Xv6.Memmove
import Sistemas.Xv6.VirtioDisk
import Sistemas.Xv6.VirtioDiskChains
import Sistemas.Xv6.VirtioDiskRuns
import Sistemas.Xv6.Console
import Sistemas.Xv6.ConsoleLine
import Sistemas.Xv6.ConsoleDiscipline
import Sistemas.Xv6.GrepMatch
import Sistemas.Xv6.Grep
import Sistemas.Mybash.Command
import Sistemas.Mybash.Parser
import Sistemas.Mybash.Parsing
import Sistemas.Mybash.Grammar
import Sistemas.Mybash.LineParsing
import Sistemas.Mybash.Printing
import Sistemas.Mybash.PrintTotal
import Sistemas.Mybash.Lifetimes
import Sistemas.Mybash.MainLoop
import Sistemas.Mybash.Execute
import Sistemas.Mybash.ExecuteChild
import Sistemas.Mybash.ExecuteShell
import Sistemas.Mybash.ExecuteAsserts
import Sistemas.Xv6.Fileread
import Sistemas.Xv6.NamexResolution
import Sistemas.Data.Radix
import Sistemas.Xv6.Kalloc
import Sistemas.Xv6.Vm
import Sistemas.Xv6.VmTables
import Sistemas.Xv6.VmLoops
import Sistemas.Xv6.VmMap
import Sistemas.Xv6.VmCopy
import Sistemas.Xv6.VmCopyin
import Sistemas.Xv6.VmCopyout
import Sistemas.Xv6.Dirlink
import Sistemas.Xv6.DirlinkFile
import Sistemas.Xv6.VmTotal
import Sistemas.Xv6.Uvm
import Sistemas.Xv6.UvmSpace
import Sistemas.Xv6.UvmGrow
import Sistemas.Xv6.UvmFree
import Sistemas.Xv6.UvmProc
import Sistemas.Xv6.UvmCopy
import Sistemas.Xv6.Calls
import Sistemas.Xv6.Exec
import Sistemas.Xv6.ExecLoad
import Sistemas.Xv6.ExecStack
import Sistemas.Xv6.ExecBuild
import Sistemas.Xv6.ExecCall
import Sistemas.Data.Partition
import Sistemas.Xv6.UvmTables
import Sistemas.Xv6.CallsProc
import Sistemas.Xv6.CallsFiles
import Sistemas.Xv6.CallsUser
import Sistemas.Xv6.CallsSbrk
import Sistemas.Xv6.CallsPipe
import Sistemas.Xv6.CallsExit
import Sistemas.Xv6.CallsTable
import Sistemas.Xv6.CallsFork
import Sistemas.Xv6.CallsExec
import Sistemas.Xv6.System
import Sistemas.Xv6.SystemMemory
import Sistemas.Xv6.SystemBoot
import Sistemas.Xv6.SystemRuns
import Sistemas.Xv6.SystemSpaces
import Sistemas.Xv6.SystemIsolation
import Sistemas.Xv6.SystemFork
import Sistemas.Xv6.Kvm
import Sistemas.Xv6.SystemPages
import Sistemas.Xv6.SystemResize
import Sistemas.Xv6.SystemExec
