import BoredOS.Mem.Vma.Run
import BoredOS.Mem.Radix.Run
import BoredOS.Mem.PageCache.Run
import BoredOS.Sys.SyscallMem
import BoredOS.Mem.Vmm.Brk
import BoredOS.Mem.Vmm.Semaphore
import BoredOS.Net.TcpStream
import BoredOS.Net.UnixSocket.Run
import BoredOS.Sys.Credentials
import BoredOS.Sys.SignalFrame
import BoredOS.Sys.UserBuffer
import BoredOS.Sys.Exec.Rollback
import BoredOS.Sys.Descriptors.References
import BoredOS.Fs.DevRandom
import BoredOS.Sys.RunQueue.Place
import BoredOS.Sys.RunQueue.Sleep
import BoredOS.Sys.ActiveCpus
import BoredOS.Sys.Futex.Wake
import BoredOS.Fs.Tmpfs.Tree
import BoredOS.Sys.Getdents
import BoredOS.Sys.Highres
import BoredOS.Fs.Tmpfs.File
import BoredOS.Dev.Partitions
import BoredOS.Net.Sendmsg
import BoredOS.Fs.Mounts
import BoredOS.Net.Locks
import BoredOS.Sys.EndOfStream
import BoredOS.Sys.Shebang
