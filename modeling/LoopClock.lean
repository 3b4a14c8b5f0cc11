import LoopClock.Command.Listing
import LoopClock.Main
import LoopClock.Session
import LoopClock.Proofs.Timers
import LoopClock.Proofs.Erasure
import LoopClock.Proofs.Ssa.Runs
import LoopClock.Proofs.Managers
import LoopClock.Proofs.Printing
import LoopClock.Proofs.Repeats
import LoopClock.Proofs.Bounds
import LoopClock.Proofs.Dedication
import LoopClock.Proofs.Deliveries
import LoopClock.Proofs.Rounds
import LoopClock.Proofs.Run.Chains
import LoopClock.Proofs.Run.Code
import LoopClock.Proofs.Run.Symbols
import LoopClock.Proofs.Run.Supply
import LoopClock.Proofs.Run.Invocations
import LoopClock.Proofs.Preparation
import LoopClock.Proofs.Program.Rows
import LoopClock.Proofs.Run.Quiet
import LoopClock.Proofs.Run.Growth
import LoopClock.Proofs.Run.Lines
import LoopClock.Proofs.Honesty
import LoopClock.Proofs.Loops
import LoopClock.Proofs.Forest
import LoopClock.Proofs.SharedExits
import LoopClock.Proofs.Comments
import LoopClock.Proofs.Declarations
import LoopClock.Proofs.Reports
import LoopClock.Proofs.UpToDate
import LoopClock.Proofs.Edges
import LoopClock.Proofs.Padding
