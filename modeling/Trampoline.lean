import Trampoline.Body
import Trampoline.CommandLine
import Trampoline.Heap.Session
import Trampoline.Main
import Trampoline.Proofs.Collection
import Trampoline.Proofs.Agreement
import Trampoline.Proofs.Careful
import Trampoline.Proofs.Placement
import Trampoline.Proofs.Twins
import Trampoline.Proofs.Observation
import Trampoline.Proofs.Comparison
import Trampoline.Proofs.Simulation
import Trampoline.Proofs.Calls
import Trampoline.Proofs.Bodies
import Trampoline.Proofs.Runs
import Trampoline.Proofs.Upkeep
import Trampoline.Proofs.Reservation
import Trampoline.Proofs.Sizing
import Trampoline.Proofs.Frames
import Trampoline.Proofs.Discipline
import Trampoline.Proofs.Activation
import Trampoline.Proofs.OverApplication
import Trampoline.Proofs.Acyclicity
import Trampoline.Proofs.Custody
import Trampoline.Proofs.Currying
import Trampoline.Proofs.Dispatch
import Trampoline.Proofs.Unfolding
import Trampoline.Proofs.Bookkeeping
import Trampoline.Proofs.Rounding
import Trampoline.Proofs.TailTransfers
import Trampoline.Proofs.Overflows
import Trampoline.Proofs.Conduct
import Trampoline.Proofs.StackLimit
import Trampoline.Proofs.Compaction
import Trampoline.Proofs.Transparency
import Trampoline.Proofs.Captures
import Trampoline.Proofs.Uids
import Trampoline.Proofs.Accessors
import Trampoline.Proofs.Allocation
import Trampoline.Proofs.SafePoint
import Trampoline.Proofs.Building
import Trampoline.Proofs.Integers
import Trampoline.Proofs.Poses
import Trampoline.Proofs.Service
import Trampoline.Proofs.Holdings
import Trampoline.Proofs.Looping
import Trampoline.Proofs.Recursion
import Trampoline.Proofs.ListSumming
import Trampoline.Proofs.PartialApplications
import Trampoline.Proofs.CurriedSum
import Trampoline.Proofs.Arithmetic
import Trampoline.Proofs.Printing
import Trampoline.Proofs.Repeats
import Trampoline.Proofs.Starting
import Trampoline.Proofs.Termination
