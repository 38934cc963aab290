import Xv6.Spinlock
import Xv6.Spinlock.Harts
import Xv6.Spinlock.Order
import Xv6.Sleeplock
import Xv6.Sleeplock.Progress
import Xv6.Kalloc
import Xv6.Pipe
import Xv6.Pipe.Calls
import Xv6.Pipe.Frames
import Xv6.Exec
import Xv6.Exec.Stack
import Xv6.Exec.Load
import Xv6.Bio.Links
import Xv6.Bio.Cache
import Xv6.Bio.Cycle
import Xv6.Bio.View
import Xv6.Log.Model
import Xv6.Log.Stages
import Xv6.Log.Coordination
import Xv6.Log.Pins
import Xv6.Log.Crash
import Xv6.Log.Absorb
import Xv6.Trap
import Xv6.Trap.Cycle
import Xv6.Boot
import Xv6.Log.Commit
