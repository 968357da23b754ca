import Jos.Fs.AllocRecord
import Jos.Fs.Atomic
import Jos.Fs.Crash
import Jos.Fs.FileIds
import Jos.Fs.Inside
import Jos.Fs.Modes
import Jos.Fs.Regrow
import Jos.Kern.Atomic
import Jos.Kern.Cga
import Jos.Kern.Confine
import Jos.Kern.Debuginfo
import Jos.Kern.Delivery
import Jos.Kern.Frames
import Jos.Kern.HelperTypes
import Jos.Kern.InputRing
import Jos.Kern.MouseDecode
import Jos.Kern.Mpconfig
import Jos.Kern.Permissions
import Jos.Kern.Sched
import Jos.Kern.Showmap
import Jos.Kern.Smp
import Jos.Kern.VgaCircle
import Jos.Kern.VgaReturns
import Jos.Lib.Itoa
import Jos.Lib.MallocReclaim
import Jos.Lib.Memmove
import Jos.Lib.PipeBounds
import Jos.Lib.PipeClosed
import Jos.Lib.PipeEof
import Jos.Lib.SocketClose
import Jos.Net.HandOff
import Jos.Net.Mailbox
import Jos.Net.Serve
import Jos.Net.SysArch
import Jos.Net.Thread
import Jos.Net.TransmitBytes
import Jos.Net.ZeroCopy
import Jos.User.HttpdRespond
import Jos.User.Shell
