import Xv6.Log.GroupCommit
import Xv6.Log.Crash
import Xv6.Bio.Cache
import Xv6.Bio.OneStore
import Xv6.Proc.Reaping
import Xv6.Proc.Wakeup
import Xv6.Proc.Pids
import Xv6.Proc.InterruptRuns
import Xv6.Lock.Sleeplock
import Xv6.Virtio.Completion
import Xv6.Fs.InodeRuns
import Xv6.Fs.Lifetimes
import Xv6.Fs.PathLookup
import Xv6.Fs.Reservation
import Xv6.Fs.SlotsInBlocks
import Xv6.Fs.FailingWrite
import Xv6.Proc.SysSleep
import Xv6.Fs.Discipline
import Xv6.Vm.Isolation
import Xv6.File.UserReads
import Xv6.Vm.Resize
import Xv6.Exec.UserCopies
import Xv6.Exec.Atomic
import Xv6.Trap.AlarmPeriod
import Xv6.Mkfs.Agreement
import Xv6.Console.LineDiscipline
import Xv6.User.Memmove
import Xv6.Proc.Backtrace
import Xv6.User.Grep
