import Xv6Stride.ArrayHeap.Basic
import Xv6Stride.ArrayHeap.Sift
import Xv6Stride.Lifecycle
import Xv6Stride.Compare
import Xv6Stride.Proc
import Xv6Stride.Minheap
import Xv6Stride.Filterproc
import Xv6Stride.Heaptest
import Xv6Stride.Kernel.State
import Xv6Stride.Kernel.Sched
import Xv6Stride.Kernel.Stride
import Xv6Stride.Kernel.RoundRobin
import Xv6Stride.Kernel.Progress
import Xv6Stride.Kernel.Refinement
import Xv6Stride.Kernel.Fairness
import Xv6Stride.Kernel.Tree
import Xv6Stride.Kernel.Wait
import Xv6Stride.Kernel.Context
import Xv6Stride.Kernel.Channels
import Xv6Stride.Kernel.Ancestry
import Xv6Stride.Kernel.Pids
