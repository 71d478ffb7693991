import Txproto.Fifo.Basic
import Txproto.Fifo.Mirror
import Txproto.Fifo.Push
import Txproto.Fifo.Pull
import Txproto.Fifo.Config
import Txproto.Fifo.System
import Txproto.Fifo.Queue
import Txproto.Fifo.Refcount
import Txproto.Fifo.FlagString
import Txproto.Fifo.Capacity
import Txproto.Fifo.Links
import Txproto.Fifo.Walk
import Txproto.Fifo.Calls
import Txproto.Fifo.Clone
import Txproto.Fifo.Slots
import Txproto.Threads.Machine
import Txproto.Threads.Lists
import Txproto.Threads.LockOrder
import Txproto.Threads.Wakeup
import Txproto.Threads.Order
import Txproto.Threads.Backpressure
import Txproto.Threads.Next
import Txproto.Threads.Solo
import Txproto.Threads.PullExit
import Txproto.Threads.Contents
import Txproto.Threads.FanOut
import Txproto.Threads.Serial
import Txproto.Threads.Refs
import Txproto.Threads.Unmirror
import Txproto.Threads.Progress
import Txproto.Threads.PassThrough
