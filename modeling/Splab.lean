import Splab.Lib.Runs
import Splab.Lib.Transitions
import Splab.Lib.Threads
import Splab.Lib.RedBlack.Insert
import Splab.Lib.RedBlack.Delete
import Splab.Lib.RedBlack.Height
import Splab.Lib.RedBlack.Local
import Splab.Lib.CString
import Splab.Lib.Lanes
import Splab.Lib.Rounding
import Splab.Bits.BitCount
import Splab.Bits.IntToFloat
import Splab.Bits.FloatTwice
import Splab.Bits.Puzzles
import Splab.Malloc.Memlib
import Splab.Malloc.Node
import Splab.Malloc.Mm
import Splab.Malloc.TreeAt
import Splab.Malloc.TreeSteps
import Splab.Malloc.TreeInsert
import Splab.Malloc.TreeDelete
import Splab.Malloc.Repairs
import Splab.Malloc.TreeRemove
import Splab.Malloc.TreeRoot
import Splab.Malloc.Partition
import Splab.Malloc.SegList
import Splab.Malloc.SegSteps
import Splab.Malloc.SegEdits
import Splab.Malloc.SegMoves
import Splab.Malloc.Policy
import Splab.Malloc.Refines
import Splab.Malloc.Realloc
import Splab.Malloc.Resize
import Splab.Malloc.Readback
import Splab.Malloc.Exhaustion
import Splab.Malloc.Client
import Splab.Malloc.Serve
import Splab.Malloc.Sessions
import Splab.Malloc.Guarantees
import Splab.Malloc.Failure
import Splab.Malloc.Coalescing
import Splab.Malloc.Independence
import Splab.Malloc.Slivers
import Splab.Malloc.TreeCalls
import Splab.Malloc.TreeDepth
import Splab.Malloc.BestFit
import Splab.Malloc.InPlace
import Splab.Malloc.SizeArith
import Splab.Malloc.Cancel
import Splab.Malloc.Waste
import Splab.Malloc.Checker
import Splab.Malloc.Driver
import Splab.Malloc.Ranges
import Splab.Malloc.Replays
import Splab.Malloc.Verdicts
import Splab.Malloc.Utilization
import Splab.Shell.Jobs
import Splab.Shell.JobIds
import Splab.Shell.Parse
import Splab.Shell.Tsh
import Splab.Shell.Steps
import Splab.Shell.Processes
import Splab.Shell.WakeUp
import Splab.Shell.JobStates
import Splab.Shell.Keyboard
import Splab.Shell.Tracking
import Splab.Shell.SignalMask
import Splab.Shell.Batches
import Splab.Shell.CommandLines
import Splab.Proxy.Io
import Splab.Proxy.Parse
import Splab.Proxy.Searches
import Splab.Proxy.Malformed
import Splab.Proxy.Relay
import Splab.Proxy.Process
import Splab.Proxy.RequestLines
import Splab.Proxy.LogEntries
import Splab.Proxy.Streams
import Splab.Proxy.Bodies
import Splab.Proxy.Failures
import Splab.Proxy.Requests
import Splab.Proxy.Forwarding
import Splab.Proxy.Responses
import Splab.Proxy.Leftovers
import Splab.Proxy.Lengths
import Splab.Proxy.HeaderEnds
import Splab.Proxy.LoggedSize
import Splab.Proxy.Threads
import Splab.Proxy.Moves
import Splab.Proxy.Descriptors
import Splab.Proxy.Transfers
import Splab.Proxy.Isolation
import Splab.Proxy.Addresses
import Splab.Proxy.LogFile
import Splab.Proxy.Completion
