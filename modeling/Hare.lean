import Hare.Lib.LinkedRing
import Hare.Lib.LabelledRun
import Hare.Lib.Chunks
import Hare.Lib.PriorityQueue
import Hare.Lib.IndexMap
import Hare.Lib.Threads
import Hare.Lib.Threshold
import Hare.Lib.BoundedLoop
import Hare.Lib.BoundedFifo
import Hare.Lib.LastAnswer
import Hare.Lib.UpperBound
import Hare.Lib.OrderedMap
import Hare.Lib.PrefixMatch
import Hare.Lib.Text
import Hare.Lib.Words
import Hare.Lib.Checked
import Hare.Lib.Gregorian
import Hare.Lib.Ownership
import Hare.Base.Fault
import Hare.Base.Event
import Hare.Base.Reactor
import Hare.Base.NotifyTimer
import Hare.Base.TimerQueue
import Hare.Base.Cycle
import Hare.Base.Registry
import Hare.Base.Moves
import Hare.Base.Exec
import Hare.Base.ExecMoves
import Hare.Base.Consistent
import Hare.Base.Batch
import Hare.Base.Cancel
import Hare.Base.Stale
import Hare.Base.Periodic
import Hare.Base.Console
import Hare.Base.CpuTime
import Hare.Base.CountDownLatch
import Hare.Base.Queue
import Hare.Base.QueueRun
import Hare.Base.Poll
import Hare.Base.PollReport
import Hare.Base.PollIndex
import Hare.Base.Timezone
import Hare.Base.JulianDay
import Hare.Base.UtcTime
import Hare.Base.LocalTime
import Hare.Base.TimezoneCopy
import Hare.Net.Cache
import Hare.Net.CacheList
import Hare.Net.Buffer
import Hare.Net.Window
import Hare.Net.Drain
import Hare.Net.Chain
import Hare.Net.Add
import Hare.Net.Expand
import Hare.Net.Read
import Hare.Net.Iterator
import Hare.Net.Find
import Hare.Net.FindResult
import Hare.Net.NextBounds
import Hare.Net.Splice
import Hare.Net.Remove
import Hare.Net.Kept
import Hare.Net.Store
import Hare.Net.BufferRun
import Hare.Net.BufferSystem
import Hare.Net.SizeCap
import Hare.Net.OutStream
import Hare.Net.Session
import Hare.Net.PoolStop
import Hare.Net.Acts
import Hare.Net.Stages
import Hare.Net.Pointers
import Hare.Net.SessionClose
import Hare.Net.Callbacks
import Hare.Net.Shutdown
import Hare.Net.Registered
import Hare.Net.AfterClose
import Hare.Net.Interest
import Hare.Net.Acceptor
import Hare.Net.IoPool
import Hare.Net.PoolLife
import Hare.Net.PoolEnd
import Hare.Net.AddAcceptor
import Hare.Net.Server
import Hare.Net.SyncCall
import Hare.Net.Client
import Hare.Net.Echo
import Hare.Log.ThreadPool
import Hare.Log.Wedge
import Hare.Log.Wakeup
import Hare.Log.Delivery
import Hare.Log.Logger
import Hare.Log.MsgBuffer
import Hare.Log.LogTime
import Hare.Log.FileBackend
import Hare.Log.FileBuffer
import Hare.Log.FileContents
import Hare.Log.Agree
import Hare.Log.LogFiles
import Hare.Log.Discard
