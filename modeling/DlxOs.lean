import DlxOs.Chain
import DlxOs.Queue
import DlxOs.QueueLists
import DlxOs.Memory
import DlxOs.FreeMap
import DlxOs.Kernel
import DlxOs.Process
import DlxOs.Pages
import DlxOs.Synch
import DlxOs.Machine
import DlxOs.System
import DlxOs.Invariant
import DlxOs.KernelQueues
import DlxOs.ProcessSpecs
import DlxOs.Fifo
import DlxOs.Objects
import DlxOs.Steps
import DlxOs.Simulation
import DlxOs.Calls
import DlxOs.ForkExit
import DlxOs.Refinement
import DlxOs.Runs
import DlxOs.PageOwners
import DlxOs.Exec
import DlxOs.ProcessTable
import DlxOs.Locks
import DlxOs.Semaphores
import DlxOs.CondVars
import DlxOs.UserCopy
import DlxOs.PagePartition
import DlxOs.RoundRobin
import DlxOs.LockDeath
import DlxOs.FailingCalls
import DlxOs.Masks
import DlxOs.Interrupts
import DlxOs.Handles
import DlxOs.LinkBudget
import DlxOs.Monitor
import DlxOs.MonitorRules
import DlxOs.SharedBuffer
import DlxOs.LockBuffer
import DlxOs.SemBuffer
import DlxOs.CondBuffer
import DlxOs.SleepingConsumers
import DlxOs.Atmosphere
import DlxOs.Reactions
import DlxOs.AtmosphereLaws
import DlxOs.ContextRuns
import DlxOs.QueueOps
import DlxOs.PageAllocator
import DlxOs.CopyRoundTrip
import DlxOs.FileTable
import DlxOs.FailedFork
import DlxOs.CreateModes
import DlxOs.LoadRun
import DlxOs.Positional
import DlxOs.Numbers
import DlxOs.Decimal
import DlxOs.Searches
import DlxOs.Printf
import DlxOs.ContextOperands
import DlxOs.Renaming
import DlxOs.Userland
import DlxOs.UserlandRuns
import DlxOs.Endings
import DlxOs.UserlandEnds
import DlxOs.UserlandExec
import DlxOs.AtmosphereKernel
import DlxOs.UserlandLaws
import DlxOs.SemBufferEnds
import DlxOs.SemBufferKernel
import DlxOs.CondBufferKernel
import DlxOs.FirstContext
import DlxOs.Starvation
import DlxOs.StackFrames
import DlxOs.ComputerRuns
import DlxOs.SystemCalls
