import UserLevelOs.Lib.Bytes
import UserLevelOs.Lib.Bitmap
import UserLevelOs.Lib.Struct
import UserLevelOs.Lib.Logged
import UserLevelOs.Lib.Recency
import UserLevelOs.Lib.FirstFit
import UserLevelOs.Memory.Paging
import UserLevelOs.Memory.Machine
import UserLevelOs.Memory.Calls
import UserLevelOs.Memory.Invariant
import UserLevelOs.Memory.Allocate
import UserLevelOs.Memory.Chain
import UserLevelOs.Memory.Release
import UserLevelOs.Memory.Init
import UserLevelOs.Memory.Heap
import UserLevelOs.Memory.Refinement
import UserLevelOs.Memory.Simulation
import UserLevelOs.Memory.Flat
import UserLevelOs.Memory.Soundness
import UserLevelOs.Memory.Clients
import UserLevelOs.Memory.Frees
import UserLevelOs.Memory.Reserved
import UserLevelOs.Memory.Tracers
import UserLevelOs.Memory.Lasting
import UserLevelOs.Memory.Transparency
import UserLevelOs.Memory.LeastRecent
import UserLevelOs.Memory.Stale
import UserLevelOs.Memory.FirstFit
import UserLevelOs.Memory.Accepted
import UserLevelOs.Memory.Rejects
import UserLevelOs.Files.Disk
import UserLevelOs.Files.Directory
import UserLevelOs.Files.Calls
import UserLevelOs.Files.Store
import UserLevelOs.Files.Ownership
import UserLevelOs.Files.Represents
import UserLevelOs.Files.Entries
import UserLevelOs.Files.Contents
import UserLevelOs.Files.Names
import UserLevelOs.Files.Paths
import UserLevelOs.Files.Requests
import UserLevelOs.Files.Mkfs
import UserLevelOs.Files.Tree
import UserLevelOs.Files.Runs
import UserLevelOs.Files.Progress
import UserLevelOs.Files.Reading
import UserLevelOs.Files.Sizes
import UserLevelOs.Files.Blocks
import UserLevelOs.Files.Namespace
import UserLevelOs.Files.Duplicates
import UserLevelOs.Files.Restart
import UserLevelOs.Files.Superblock
import UserLevelOs.Files.Remount
import UserLevelOs.Files.Forgery
import UserLevelOs.Files.Failures
import UserLevelOs.Files.Exhaustion
import UserLevelOs.Lib.Execution
import UserLevelOs.Threads.Tcb
import UserLevelOs.Threads.Lists
import UserLevelOs.Threads.Mutexes
import UserLevelOs.Threads.Machine
import UserLevelOs.Threads.Scheduler
import UserLevelOs.Threads.Frames
import UserLevelOs.Threads.ShortestFirst
import UserLevelOs.Threads.Feedback
import UserLevelOs.Threads.Cleanup
import UserLevelOs.Threads.Places
import UserLevelOs.Threads.Accounts
import UserLevelOs.Threads.Assertions
import UserLevelOs.Threads.Dispatch
import UserLevelOs.Threads.Listing
import UserLevelOs.Threads.Joins
import UserLevelOs.Threads.Results
import UserLevelOs.Threads.MutexSteps
import UserLevelOs.Threads.Locks
import UserLevelOs.Threads.Registry
import UserLevelOs.Threads.Destroys
import UserLevelOs.Threads.Selection
import UserLevelOs.Threads.Usage
import UserLevelOs.Threads.Preemption
import UserLevelOs.Threads.Accounting
import UserLevelOs.Files.Offsets
import UserLevelOs.Files.Frame
import UserLevelOs.Files.Links
import UserLevelOs.Memory.Widths
import UserLevelOs.Lib.Cells
import UserLevelOs.Threads.Nodes
import UserLevelOs.Threads.Sizes
import UserLevelOs.Lib.Loop
import UserLevelOs.Memory.Matrices
import UserLevelOs.Lib.Levels
import UserLevelOs.Threads.Rounds
import UserLevelOs.Threads.Waiting
import UserLevelOs.Threads.Shutdown
import UserLevelOs.Lib.Serial
import UserLevelOs.Memory.Threads
import UserLevelOs.Memory.Serial
import UserLevelOs.Lib.Strides
import UserLevelOs.Threads.Returns
import UserLevelOs.Threads.Benchmarks
import UserLevelOs.Threads.Standing
import UserLevelOs.Threads.Totals
import UserLevelOs.Lib.Crash
import UserLevelOs.Files.Interrupted
import UserLevelOs.Files.Confined
import UserLevelOs.Files.Crashes
import UserLevelOs.Files.Survival
