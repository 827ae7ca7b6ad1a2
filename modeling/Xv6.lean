import Xv6.Lib.Word
import Xv6.Lib.Reach
import Xv6.Lib.PrefixPick
import Xv6.Lib.RingQueue
import Xv6.Lib.Crash
import Xv6.Lib.Tally
import Xv6.Lib.Region
import Xv6.Lib.Alloc
import Xv6.Param
import Xv6.Riscv
import Xv6.ProcTable
import Xv6.Sched
import Xv6.ProcStep
import Xv6.Fork
import Xv6.Running
import Xv6.ProcTree
import Xv6.Kalloc
import Xv6.ProdCons
import Xv6.LogCommit
import Xv6.LogAdmission
import Xv6.Vm.Walk
import Xv6.Vm.Map
import Xv6.Vm.Uvm
import Xv6.Vm.Refine
import Xv6.Vm.Free
import Xv6.Vm.Proc
import Xv6.Vm.Exec
import Xv6.Vm.Space
import Xv6.Pipes
import Xv6.FileTable
import Xv6.Lib.Lcg
import Xv6.Lottery
import Xv6.Encrypt
import Xv6.Itable
import Xv6.Namei
import Xv6.Lib.CList
import Xv6.Bio
import Xv6.Console
import Xv6.UserCopy
import Xv6.Dir
import Xv6.Fs.Content
import Xv6.Fs.Transaction
import Xv6.Umalloc
import Xv6.Memmove
import Xv6.Printint
import Xv6.Grep.Regex
import Xv6.Grep.Lines
import Xv6.Spinlock
import Xv6.Namex
import Xv6.Virtio
import Xv6.Lib.Partial
import Xv6.Lib.CString
import Xv6.Sh.Lex
import Xv6.Sh.Parse
import Xv6.Sh.RoundTrip
import Xv6.Sh.Fds
import Xv6.Sh.Run
import Xv6.Uart
import Xv6.Printf
import Xv6.Fs.Link
import Xv6.Fs.LinkCount
import Xv6.Fs.LinkInv
import Xv6.Fs.LinkSafe
