import Xv6.Dev.Console
import Xv6.Dev.Descriptors
import Xv6.Disk.Coherence
import Xv6.Fs.Logged
import Xv6.Grep.Lines
import Xv6.Log.Buffers
import Xv6.Log.Recovery
import Xv6.Pipe.Stream
import Xv6.Pipe.Wakeups
import Xv6.Proc.Handoff
import Xv6.Proc.Intr
import Xv6.Proc.OneCpu
import Xv6.Proc.Pending
import Xv6.Proc.Reaping
import Xv6.Proc.Unkillable
import Xv6.Sem.Admission
import Xv6.Sem.Keys
import Xv6.Sem.Stranded
import Xv6.Sh.Accepts
import Xv6.Support.Memmove
import Xv6.Support.Printint
import Xv6.Umalloc.Program
import Xv6.Utils.Cat
import Xv6.Utils.Cp
import Xv6.Vm.Detach
import Xv6.Vm.Fork
import Xv6.Vm.Residue
