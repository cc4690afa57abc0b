import Cs350.Alloc.Drain
import Cs350.Alloc.Realloc
import Cs350.Alloc.Invalid
import Cs350.Sched.Tickets
import Cs350.Sched.Spread
import Cs350.Shell.Return
import Cs350.Shell.Wait
import Cs350.Shell.Descriptors
import Cs350.Shell.Pipeline
import Cs350.Shell.Grammar
import Cs350.Log.Admission
import Cs350.FileSys.Dangling
import Cs350.FileSys.Counts
import Cs350.FileSys.Links
import Cs350.FileSys.Failed
import Cs350.Block.Run
import Cs350.Kernel.Kill
import Cs350.Kernel.LostKill
import Cs350.Kernel.Sleeplock
import Cs350.Kernel.Wait
import Cs350.Vm.Exec
import Cs350.Bcache.Defs
import Cs350.Bcache.Lru
import Cs350.Bcache.Transparent
import Cs350.Block.Bytes
import Cs350.Block.Shared
import Cs350.Block.Filewrite
import Cs350.Block.Quota
import Cs350.Block.Directory
import Cs350.Console.Defs
import Cs350.Console.Lines
import Cs350.Disk.Queue
import Cs350.Umalloc.Run
import Cs350.Pipes.Defs
import Cs350.Pipes.Fifo
import Cs350.Pipes.Wakeup
import Cs350.Vm.Copy
import Cs350.Vm.Copyout
import Cs350.Vm.Elf
import Cs350.Lib.LinkedCycle
import Cs350.Mkfs.Lookup
import Cs350.Mkfs.Mount
import Cs350.Sched.Overflow
import Cs350.Sched.Stride
import Cs350.Sched.ForkFirst
import Cs350.Shell.Input
import Cs350.Shell.ExitWord
import Cs350.Shell.Redirect
import Cs350.Grep.Delivery
import Cs350.Grep.Language
import Cs350.Umalloc.Large
import Cs350.Console.Shutdown
import Cs350.User.Memmove
import Cs350.User.Shutdown2
import Cs350.Mp.Init
import Cs350.Shell.Nulterminate
import Cs350.FileSys.Paths
import Cs350.Vm.Skip
import Cs350.Spin.Flags
import Cs350.Block.Durable
import Cs350.Swtch.Frame
import Cs350.Kalloc.DoubleFree
import Cs350.Console.Screen
import Cs350.Sysfile.Boot
