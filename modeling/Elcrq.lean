import Elcrq.Concurrent.Runs
import Elcrq.Concurrent.Inevitable
import Elcrq.Concurrent.Linked
import Elcrq.Concurrent.Hazard
import Elcrq.Concurrent.TicketRing
import Elcrq.Concurrent.RingList
import Elcrq.Words
import Elcrq.RingMemory
import Elcrq.Threads
import Elcrq.C.Machine
import Elcrq.C.Refinement
import Elcrq.C.Steps
import Elcrq.C.Shape
import Elcrq.C.Invariant
import Elcrq.C.Cells
import Elcrq.C.Items
import Elcrq.C.Walk
import Elcrq.C.Ledger
import Elcrq.C.Counters
import Elcrq.C.Emptiness
import Elcrq.C.Order
import Elcrq.C.Handshake
import Elcrq.C.FixState
import Elcrq.C.Closing
import Elcrq.C.Ends
import Elcrq.C.Alone
import Elcrq.C.Sequential
import Elcrq.EventCount
import Elcrq.Blocking
import Elcrq.WaitLoop
import Elcrq.Waiting
import Elcrq.Deadline
import Elcrq.Roundtrip.Machine
import Elcrq.Roundtrip.Calls
import Elcrq.Roundtrip.Forwarding
import Elcrq.Roundtrip.Deadlock
import Elcrq.Cpp.Retire
import Elcrq.Cpp.Machine
import Elcrq.Cpp.Refinement
import Elcrq.Cpp.Steps
import Elcrq.Cpp.Layout
import Elcrq.Cpp.OneNode
import Elcrq.Cpp.Closing
import Elcrq.Cpp.Invariant
import Elcrq.Cpp.Preservation
import Elcrq.Cpp.Memory
import Elcrq.Cpp.Retired
import Elcrq.Cpp.Chain
import Elcrq.Cpp.Alone
import Elcrq.Cpp.Walk
import Elcrq.Cpp.Items
import Elcrq.Cpp.Emptiness
import Elcrq.Cpp.Order
import Elcrq.Store.Chain
import Elcrq.Store.Slots
import Elcrq.Malloc.SizeClass
import Elcrq.Malloc.PageSort
import Elcrq.Malloc.FreePages
import Elcrq.Malloc.BestFit
import Elcrq.Store.Tiling
import Elcrq.Malloc.Pages
import Elcrq.Malloc.Extents
import Elcrq.Malloc.Coalesce
import Elcrq.Malloc.Chunks
import Elcrq.Malloc.Effects
import Elcrq.Malloc.Guarantees
import Elcrq.Malloc.Resize
import Elcrq.Malloc.Overlap
import Elcrq.Malloc.Shutdown
