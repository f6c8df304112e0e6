import Xv6.Lib.Writes
import Xv6.Lib.LittleEndian
import Xv6.Param
import Xv6.Bio
import Xv6.Log.Basic
import Xv6.Log.Crash
import Xv6.Log.Protocol
import Xv6.Pipe
import Xv6.Lib.Bits
import Xv6.Riscv
import Xv6.Vm
import Xv6.Exec
import Xv6.Fs.Layout
import Xv6.Fs.Inode
import Xv6.Mkfs
import Xv6.Fs.Itable
import Xv6.Fs.Dir
import Xv6.Sysfile
import Xv6.Proc
import Xv6.Sleep
import Xv6.File
import Xv6.Lib.Dlist
import Xv6.BufCache
import Xv6.Lib.Tally
import Xv6.Ftable
import Xv6.Grep
import Xv6.Umalloc
import Xv6.Lib.Ring
import Xv6.Console
import Xv6.UserCopy
import Xv6.Sched
import Xv6.VmAlloc
import Xv6.ExecStack
import Xv6.Memmove
import Xv6.Printf
import Xv6.Xargs
import Xv6.Intena
import Xv6.Uart
import Xv6.Walker
import Xv6.UserTables
import Xv6.Lib.Window
import Xv6.Lib.Exc
import Xv6.Virtio
import Xv6.Sh.Lex
import Xv6.Sh.Parse
import Xv6.Sh.Grammar
import Xv6.Sh.Parsecmd
