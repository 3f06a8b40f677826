import Xv6.Kernel.Log.Crash
import Xv6.Kernel.Log.Reservation
import Xv6.Kernel.Cached.Transparent
import Xv6.Kernel.Fs.Directories
import Xv6.Kernel.Fs.LinkMax
import Xv6.Mkfs.Limits
import Xv6.Mkfs.Readback
import Xv6.Kernel.Sync.Pipe
import Xv6.Kernel.Sync.Console
import Xv6.Kernel.Sync.VirtioSpec
import Xv6.Kernel.Proc.Clean
import Xv6.Kernel.Proc.Discipline
import Xv6.Kernel.Proc.Interrupts
import Xv6.Kernel.Vm.Program
import Xv6.Kernel.Fs.FailedCopy
import Xv6.Kernel.Fs.Filewrite
import Xv6.User.Ulib
import Xv6.User.Printf
import Xv6.User.Xargs
import Xv6.User.Find
