import OSCourse.Lib.Decimal
import OSCourse.Lib.Strtok
import OSCourse.Lib.Run
import OSCourse.Lib.Halting
import OSCourse.Lib.Simulation
import OSCourse.Lib.Forest
import OSCourse.PageTable.Os
import OSCourse.PageTable.Pt
import OSCourse.PageTable.Tables
import OSCourse.PageTable.Walk
import OSCourse.PageTable.Refine
import OSCourse.PageTable.Growth
import OSCourse.PageTable.Trees
import OSCourse.PageTable.Footprint
import OSCourse.MessageSlot.Kernel
import OSCourse.MessageSlot.Driver
import OSCourse.MessageSlot.Files
import OSCourse.MessageSlot.Channel
import OSCourse.MessageSlot.Refine
import OSCourse.MessageSlot.Reach
import OSCourse.MessageSlot.Atomic
import OSCourse.MessageSlot.OwnChannel
import OSCourse.MessageSlot.Covered
import OSCourse.MessageSlot.Cleanup
import OSCourse.MessageSlot.Programs
import OSCourse.MessageSlot.Tester
import OSCourse.Lib.Bytes
import OSCourse.Pcc.Server
import OSCourse.Pcc.Session
import OSCourse.Pcc.Statistics
import OSCourse.Pcc.Interrupt
import OSCourse.Pcc.Client
import OSCourse.Pcc.Upload
import OSCourse.Pcc.Link
import OSCourse.Pcc.Agreement
import OSCourse.Pcc.Stream
import OSCourse.Pcc.Reply
import OSCourse.Pcc.Network
import OSCourse.Pcc.AllServed
import OSCourse.Lib.Mutex
import OSCourse.Pfind.FileSystem
import OSCourse.Pfind.Threads
import OSCourse.Pfind.Moves
import OSCourse.Pfind.Locks
import OSCourse.Pfind.Discipline
import OSCourse.Pfind.Invariant
import OSCourse.Pfind.Progress
import OSCourse.Pfind.Allocation
import OSCourse.Pfind.Weights
import OSCourse.Pfind.Failures
import OSCourse.Lib.Offspring
import OSCourse.Pfind.Listing
import OSCourse.Pfind.Exact
import OSCourse.Pfind.Wakeups
import OSCourse.Pfind.Points
import OSCourse.Pfind.LockOrder
import OSCourse.Lib.LinkedQueue
import OSCourse.Pfind.Queues
import OSCourse.Pfind.Heap
import OSCourse.Pfind.Represents
import OSCourse.Pfind.HeapSteps
import OSCourse.Pfind.Memory
import OSCourse.Pfind.Held
import OSCourse.Pfind.Budget
import OSCourse.Pfind.Once
import OSCourse.Pfind.Losses
import OSCourse.Pfind.Buffers
import OSCourse.Pfind.Terminates
import OSCourse.Pfind.Links
import OSCourse.Pfind.LinkSearch
import OSCourse.Pfind.Program
import OSCourse.Pfind.HeapProgram
import OSCourse.Myshell.Shell
import OSCourse.Myshell.Zombies
import OSCourse.Myshell.Pipeline
import OSCourse.Myshell.Foreground
import OSCourse.Myshell.Returns
import OSCourse.Myshell.Words
import OSCourse.Myshell.Line
