import Yutil.Delivery
import Yutil.DequeWakeups
import Yutil.RingDeadlock
import Yutil.SpscFifo
import Yutil.AtomicThrows
import Yutil.AtomicClose
import Yutil.AtomicLaps
import Yutil.DrainComplete
import Yutil.Closing
import Yutil.Interchange
import Yutil.AtomicLifetimes
import Yutil.SpscSize
import Yutil.WaiterCounts
import Yutil.SingleConsumer
import Yutil.SpscDrain
import Yutil.AtomicRetries
import Yutil.AtomicRange
import Yutil.Erasure
import Yutil.SpscViews
import Yutil.AtomicViews
import Yutil.ClientQueues
import Yutil.QueueHistories
import Yutil.AtomicHistories
import Yutil.AtomicProgress
import Yutil.QueueObjects
import Yutil.BlockingMembers
import Yutil.SpscClient
import Yutil.RetryEnds
