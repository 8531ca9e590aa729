import Perspicua.Mm.AddressSpaceRun
import Perspicua.Mm.AsidTheorems
import Perspicua.Mm.HeapRun
import Perspicua.Mm.PmmComplete
import Perspicua.Mm.PmmMisuse
import Perspicua.Mm.PmmReserve
import Perspicua.Mm.UserRange
import Perspicua.Sched.MutexTheorems
import Perspicua.Sched.ProcessKill
import Perspicua.Sched.ProcessTheorems
import Perspicua.Core.ExecTheorems
import Perspicua.Core.Mmap
import Perspicua.Core.SigMask
import Perspicua.Core.SignalsTheorems
import Perspicua.Core.SyscallTheorems
import Perspicua.Core.TtyInput
import Perspicua.Driver.BlockIo
import Perspicua.Fs.Cwd
import Perspicua.Fs.Fat32.Alias
import Perspicua.Fs.Fat32.Geometry
import Perspicua.Fs.Fat32.Driver
import Perspicua.Fs.PipeTheorems
import Perspicua.Fs.ProcfsLookup
import Perspicua.Fs.ReaddirTheorems
import Perspicua.Libc.Env
import Perspicua.Libc.File
import Perspicua.Libc.PrintfStandard
import Perspicua.User.ParseTheorems
