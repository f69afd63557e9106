import Xv6Rcu.GracePeriod
import Xv6Rcu.UserPanic
import Xv6Rcu.RcuInsert
import Xv6Rcu.RcuReader
import Xv6Rcu.LockInsert
import Xv6Rcu.LockDelete
import Xv6Rcu.LockSearch
import Xv6Rcu.LockHeld
import Xv6Rcu.ProcessIntr
import Xv6Rcu.ProcessKill
import Xv6Rcu.ProcessPid
import Xv6Rcu.ProcessOrder
import Xv6Rcu.LogCrash
import Xv6Rcu.LogRoom
import Xv6Rcu.BcacheInv
import Xv6Rcu.FsFault
import Xv6Rcu.FsCounts
import Xv6Rcu.VirtioRun
import Xv6Rcu.SharedFile
import Xv6Rcu.MkfsRead
import Xv6Rcu.PipeRead
import Xv6Rcu.ExecStack
import Xv6Rcu.Fork
import Xv6Rcu.ListLocked
import Xv6Rcu.Memmove
