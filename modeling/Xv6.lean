import Xv6.Base.Memmove
import Xv6.Mkfs.Agree
import Xv6.Malloc.Safe
import Xv6.Disk.Safe
import Xv6.Pipe.Fifo
import Xv6.Pipe.Sleepers
import Xv6.Proc.Kill
import Xv6.Proc.Reap
import Xv6.Proc.Dispatch
import Xv6.Proc.Trace
import Xv6.Proc.Ticks
import Xv6.Smp.Wakeup
import Xv6.Uart.Drain
import Xv6.Bio.Buffers
import Xv6.Bio.Oldest
import Xv6.Log.Admission
import Xv6.Log.Reads
import Xv6.Log.Recovery
import Xv6.Log.Sleepers
import Xv6.Fs.Partial
import Xv6.Fs.Frame
import Xv6.Sysfile.Link
import Xv6.Fs.Quota
import Xv6.Fs.Shared
import Xv6.Dir.Map
import Xv6.Fd.PipeCall
import Xv6.Fd.Readonly
import Xv6.Console.Refine
import Xv6.Sh.Words
import Xv6.Itable.Coherence
import Xv6.Tree.Calls
import Xv6.Tree.Exact
import Xv6.Tree.Namex
import Xv6.Vm.Freelist
import Xv6.Vm.Calls
import Xv6.Vm.Copyin
import Xv6.Vm.Copyinstr
import Xv6.Vm.Copyout
import Xv6.Vm.Stores
import Xv6.Vm.Refine
import Xv6.Vm.Image
import Xv6.Vm.Process
import Xv6.Vm.Fork
import Xv6.Vm.Elf
import Xv6.Pipe.Deliver
import Xv6.User.PrimesCorrect
import Xv6.User.Find
import Xv6.User.GrepMatch
import Xv6.User.GrepLines
import Xv6.Mkfs.Freemap
import Xv6.Malloc.Ring
import Xv6.Vm.Places
import Xv6.Sh.Pipeline
import Xv6.Vm.Kvm
