import Sisop.Lib.LinkChain
import Sisop.Lib.RefCount
import Sisop.Lib.Reach
import Sisop.Lib.Exit
import Sisop.Lib.Window
import Sisop.Jos.PmapSpec
import Sisop.Jos.Kernel
import Sisop.Jos.EnvSpec
import Sisop.Jos.Resched
import Sisop.Jos.KernelInv
import Sisop.Jos.SyscallInv
import Sisop.Jos.TrapInv
import Sisop.Jos.Boot
import Sisop.Jos.PmapRuns
import Sisop.Jos.RefWrap
import Sisop.Jos.Dying
import Sisop.Jos.Recving
import Sisop.Fisopfs.Callbacks
import Sisop.Lib.Monitor
import Sisop.Fisopfs.Steps
import Sisop.Fisopfs.Content
import Sisop.Fisopfs.Volume
import Sisop.Fisopfs.Filedisk
import Sisop.Fisopfs.Parents
import Sisop.Fisopfs.Readdir
import Sisop.Fisopfs.Tree
import Sisop.Fisopfs.Naming
import Sisop.Fisopfs.Failures
import Sisop.Fisopfs.PathCopies
import Sisop.Fisopfs.Truncating
import Sisop.Shell.Tokens
import Sisop.Shell.Capacity
import Sisop.Shell.Accounts
import Sisop.Shell.RunCmd
import Sisop.Lib.Descriptors
import Sisop.Shell.Exec
import Sisop.Shell.Status
import Sisop.Shell.Jobs
import Sisop.Shell.Reaping
import Sisop.Shell.LastStatus
import Sisop.Lib.Sieve
import Sisop.Lib.Processes
import Sisop.Fork.Primes
import Sisop.Fork.Chain
import Sisop.Fork.ChainSteps
import Sisop.Fork.Sieving
import Sisop.Jos.EnvIds
import Sisop.Jos.Priority
import Sisop.Jos.RoundRobin
import Sisop.Jos.TrapEntry
import Sisop.Jos.UserMemory
import Sisop.Jos.Upcall
import Sisop.Jos.PageMap
import Sisop.Jos.UserCheck
import Sisop.Jos.PageFault
import Sisop.Lib.DoWhile
import Sisop.Jos.Search
import Sisop.Jos.Exhaustion
import Sisop.Jos.TrySend
import Sisop.Jos.Mailbox
import Sisop.Jos.Cputs
import Sisop.Jos.Pgfault
import Sisop.Jos.ForkV0
import Sisop.Jos.BootMap
import Sisop.Jos.LargePages
import Sisop.Jos.Mmio
import Sisop.Jos.SetUpcall
import Sisop.Jos.StabReads
import Sisop.Jos.LoadIcode
import Sisop.Shell.Buffer
import Sisop.Shell.InPlace
import Sisop.Shell.Pipelines
import Sisop.Shell.LineBounds
import Sisop.Shell.Background
import Sisop.Shell.Assignments
import Sisop.Shell.Accounts
import Sisop.Shell.Arguments
import Sisop.Shell.Redirections
import Sisop.Lib.Groups
import Sisop.Fork.Xargs
import Sisop.Fork.Stdio
import Sisop.Jos.ForkRuns
import Sisop.Jos.Spinlock
import Sisop.Jos.KernelLock
import Sisop.Jos.Monitor
import Sisop.Fisopfs.Refines
