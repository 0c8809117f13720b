import OsLessons.Lib.Transition
import OsLessons.Lib.Processes
import OsLessons.Lib.ForkJoin
import OsLessons.Lib.Census
import OsLessons.Lib.MsgQueue
import OsLessons.Lib.Monitor
import OsLessons.Lib.MonitorRules
import OsLessons.Lib.FdTable
import OsLessons.Lib.Semaphore
import OsLessons.Shower.Model
import OsLessons.Shower.Step
import OsLessons.Shower.Safety
import OsLessons.Shower.Tokens
import OsLessons.Shower.Quiescence
import OsLessons.Shower.Wakeup
import OsLessons.Shower.Termination
import OsLessons.Shower.Selftest
import OsLessons.Shower.Overtaking
import OsLessons.Shower.Starvation
import OsLessons.Bogatyr.Model
import OsLessons.Bogatyr.Assignment
import OsLessons.Bogatyr.Invariant
import OsLessons.Bogatyr.Letters
import OsLessons.Bogatyr.Phases
import OsLessons.Bogatyr.Success
import OsLessons.Bogatyr.Progress
import OsLessons.Bogatyr.Deadlock
import OsLessons.Pcat2.Model
import OsLessons.Pcat2.Invariant
import OsLessons.Pcat2.Threads
import OsLessons.Pcat2.Failures
import OsLessons.Pcat2.Progress
import OsLessons.Pcat2.Results
import OsLessons.Myshell.Pipeline
import OsLessons.Myshell.Wiring
import OsLessons.Lib.CString
import OsLessons.Lib.Compaction
import OsLessons.Lib.Table
import OsLessons.Lib.FileSystem
import OsLessons.Lib.Resolution
import OsLessons.Lib.Names
import OsLessons.Lib.Stores
import OsLessons.Myshell.Tokens
import OsLessons.Myshell.Reference
import OsLessons.Myshell.Quoting
import OsLessons.Myshell.Marks
import OsLessons.Myshell.Bounds
import OsLessons.Myshell.Operators
import OsLessons.Myshell.Builtins
import OsLessons.Myshell.Session
import OsLessons.MyCp.Model
import OsLessons.MyCp.Transfer
import OsLessons.MyCp.OpenFiles
import OsLessons.MyCp.CopyFile
import OsLessons.MyCp.Operands
import OsLessons.MyCp.IntoDir
import OsLessons.MyCp.Questions
import OsLessons.MyCp.Interactive
import OsLessons.Myls.Model
import OsLessons.Myls.Paths
import OsLessons.Myls.Listing
import OsLessons.Myls.Layout
import OsLessons.Myls.LongListing
import OsLessons.Myls.Output
import OsLessons.Myls.Recursion
import OsLessons.CpMmap.SameFile
import OsLessons.Bogatyr.Refusal
import OsLessons.Bogatyr.Owners
import OsLessons.Pizzeria.Queue
import OsLessons.Pizzeria.Fifo
import OsLessons.Pizzeria.Model
import OsLessons.Pizzeria.Accounts
import OsLessons.Pizzeria.Shutdown
import OsLessons.Pizzeria.Simulation
import OsLessons.Pizzeria.Termination
import OsLessons.SignalCat.Model
import OsLessons.SignalCat.Transfer
import OsLessons.SignalCat.Termination
import OsLessons.PizzaHoare.Model
import OsLessons.PizzaHoare.Conservation
import OsLessons.PizzaHoare.Wakeup
import OsLessons.PizzaHoare.Termination
import OsLessons.Restaurant.Spec
import OsLessons.PizzaHoare.Refinement
import OsLessons.Pizzeria.Refinement
import OsLessons.Assembly.Model
import OsLessons.Assembly.Devices
import OsLessons.Assembly.Termination
import OsLessons.Single.Model
import OsLessons.Single.Printing
import OsLessons.Single.Registration
import OsLessons.Single.Termination
import OsLessons.Forks.Parent
import OsLessons.Forks.Follow
import OsLessons.Relay.Race
import OsLessons.Lib.NamedQueue
import OsLessons.Relay.SysV
import OsLessons.Relay.Posix
import OsLessons.Relay.Termination
import OsLessons.Lib.Streams
import OsLessons.Counter.Model
import OsLessons.Counter.Command
import OsLessons.Counter.Counting
import OsLessons.Counter.Descriptors
import OsLessons.Counter.Results
import OsLessons.MyCat.Model
import OsLessons.PipeMyCat.Model
import OsLessons.PipeMyCat.Delivery
import OsLessons.PipeMyCat.Progress
