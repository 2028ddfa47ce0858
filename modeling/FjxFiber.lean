import FjxFiber.Lib.Reach
import FjxFiber.Lib.Calls
import FjxFiber.Lib.CondVar
import FjxFiber.Lib.Placement
import FjxFiber.Lib.Monitor
import FjxFiber.Lib.MonitorProof
import FjxFiber.Lib.Ring
import FjxFiber.Lib.Splice
import FjxFiber.Lib.Tree
import FjxFiber.Lib.X86
import FjxFiber.Asm.Deferred
import FjxFiber.Asm.Amd64
import FjxFiber.Asm.Spawn
import FjxFiber.Asm.I386
import FjxFiber.Asm.MsX64
import FjxFiber.Asm.SpawnI386
import FjxFiber.Demo.PrimeSeiveEnd
import FjxFiber.Demo.DiningPhilosopherMeals
import FjxFiber.Sync.Mutex
import FjxFiber.Sync.Semaphore
import FjxFiber.Sync.ThreadSemaphore
import FjxFiber.Sync.Rwlock
import FjxFiber.Lib.LinkedQueue
import FjxFiber.Lib.StackNodes
import FjxFiber.Lib.NodeQueue
import FjxFiber.Spin.Mcshlock
import FjxFiber.Spin.McshlockInv
import FjxFiber.Spin.McshlockSteps
import FjxFiber.Spin.Qspinlock
import FjxFiber.Spin.QspinlockInv
import FjxFiber.Spin.QspinlockSteps
import FjxFiber.Timer.Store
import FjxFiber.Timer.Refine
import FjxFiber.Timer.Thread
import FjxFiber.Timer.ThreadInv
import FjxFiber.Timer.Wait
import FjxFiber.Timer.Sleep
import FjxFiber.Channel.Model
import FjxFiber.Channel.Invariant
import FjxFiber.Channel.Rendezvous
import FjxFiber.Channel.Shutdown
import FjxFiber.Channel.Freed
import FjxFiber.Pool.Memory
import FjxFiber.Pool.Stacks
import FjxFiber.Sched.Model
import FjxFiber.Sched.Invariant
import FjxFiber.Sched.Contexts
import FjxFiber.Sched.Fibers
import FjxFiber.Sched.Threads
import FjxFiber.Sched.Reached
import FjxFiber.Sched.Conservation
import FjxFiber.Sched.Continuations
import FjxFiber.Sched.Wakeup
import FjxFiber.Sched.Locking
import FjxFiber.Sched.Parking
import FjxFiber.Sched.Queue
import FjxFiber.Sched.Yield
import FjxFiber.Sched.EnqueueList
import FjxFiber.Sched.EnqueueListInv
import FjxFiber.Sched.HandOut
import FjxFiber.Sched.ListFrames
import FjxFiber.Lib.Trace
import FjxFiber.Lib.FifoLock
import FjxFiber.Lib.QueueLock
import FjxFiber.Lib.FairRun
import FjxFiber.Spin.McshlockGoing
import FjxFiber.Spin.McshlockFair
import FjxFiber.Spin.QspinlockGoing
import FjxFiber.Spin.QspinlockFair
import FjxFiber.Spin.Spinlock
import FjxFiber.Sched.Standstill
import FjxFiber.Sched.Uses
import FjxFiber.Lib.MonitorSection
import FjxFiber.Sched.Project
import FjxFiber.Sched.Objects
