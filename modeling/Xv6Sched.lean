import Xv6Sched.Lib.Lts
import Xv6Sched.Lib.Scan
import Xv6Sched.Lib.Word
import Xv6Sched.Lib.Crash
import Xv6Sched.Lib.Bits
import Xv6Sched.Lib.Ring
import Xv6Sched.Lib.DList
import Xv6Sched.Proc.Defs
import Xv6Sched.Proc.Ops
import Xv6Sched.Proc.Sched
import Xv6Sched.Proc.Machine
import Xv6Sched.Proc.Spec
import Xv6Sched.Proc.Mlfq
import Xv6Sched.Proc.MlfqQueue
import Xv6Sched.Proc.Pbs
import Xv6Sched.Proc.Frame
import Xv6Sched.Proc.Family
import Xv6Sched.Fs.Log
import Xv6Sched.Fs.LogAtomic
import Xv6Sched.Fs.Disk
import Xv6Sched.Fs.Blocks
import Xv6Sched.Fs.Content
import Xv6Sched.Fs.Mkfs
import Xv6Sched.Fs.LogSpace
import Xv6Sched.Fs.Bio
import Xv6Sched.File.Pipe
import Xv6Sched.File.Console
import Xv6Sched.File.Ftable
import Xv6Sched.File.FtableInv
import Xv6Sched.User.Umalloc
import Xv6Sched.Fs.Itable
import Xv6Sched.Fs.ItableRefs
import Xv6Sched.File.Sysfile
import Xv6Sched.File.SysfileRefs
import Xv6Sched.File.KfsInv
import Xv6Sched.Lib.Spin
import Xv6Sched.Proc.SchedLocks
import Xv6Sched.Fs.Dir
import Xv6Sched.Fs.Namex
import Xv6Sched.Lib.Mem
import Xv6Sched.Vm.Pagetable
import Xv6Sched.Vm.Copy
import Xv6Sched.Vm.Tree
import Xv6Sched.Vm.Uvm
import Xv6Sched.Vm.Alloc
import Xv6Sched.User.Memmove
import Xv6Sched.User.Grep
import Xv6Sched.Fs.LogPin
import Xv6Sched.Vm.Kalloc
import Xv6Sched.Fs.Virtio
import Xv6Sched.Proc.Syscall
import Xv6Sched.Vm.Sbrk
import Xv6Sched.Vm.Fork
import Xv6Sched.User.ShLex
import Xv6Sched.User.ShParse
import Xv6Sched.User.ShGrammar
import Xv6Sched.Lib.Slots
import Xv6Sched.File.Fds
import Xv6Sched.User.ShRun
