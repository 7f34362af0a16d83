import Xv6.Log.Crash
import Xv6.Log.Admission
import Xv6.Read
import Xv6.Refs.Theorems
import Xv6.Mutex.Sections
import Xv6.Pipe.Fault
import Xv6.Pipe.Wakeup
import Xv6.Table.Clean
import Xv6.Vm.Freelist
import Xv6.Uart
import Xv6.Virtio.Requests
import Xv6.Bcache.Pinned
import Xv6.Sched.Theorems
import Xv6.Sys.Stack
import Xv6.Sh.Command
import Xv6.Umalloc.Sbrk
import Xv6.User.Contents
import Xv6.User.Pwd
import Xv6.Mkfs.Theorems
import Xv6.Open
import Xv6.Grep
import Xv6.Itable
import Xv6.Ps
import Xv6.Fs.Balloc
import Xv6.Memmove
import Xv6.Intr
