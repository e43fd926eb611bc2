import RainOS.Log.Space
import RainOS.Log.Recovery
import RainOS.Ide.Separate
import RainOS.Fs.Truncate
import RainOS.Vm.Runs
import RainOS.Process.Stray
import RainOS.Sched.Fork
import RainOS.Sleep.Wakeup
import RainOS.Pipe.Sleepers
import RainOS.Ftable.Lifetime
import RainOS.Console.Discipline
import RainOS.Ide.Empty
import RainOS.Ide.Spaces
import RainOS.Bio.Capacity
import RainOS.Icache.Unique
import RainOS.Sh.Parsecmd
import RainOS.Log.Concurrent
import RainOS.Vm.KernelMap
import RainOS.Process.Grow
import RainOS.Process.Isolation
import RainOS.Process.Untouched
import RainOS.Process.Args
import RainOS.Process.AddPage
import RainOS.Process.Refine
import RainOS.Fs.Reserve
import RainOS.Vm.Copyout
import RainOS.Mkfs.Kernel
import RainOS.Grep.Match
import RainOS.Mp
import RainOS.Bmp
import RainOS.Memmove
import RainOS.Kalloc.Framelist
import RainOS.Libos
