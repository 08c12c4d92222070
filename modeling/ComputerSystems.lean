import ComputerSystems.Transition.Run
import ComputerSystems.Loop.Scan
import ComputerSystems.VirtualMemory.Core
import ComputerSystems.VirtualMemory.Steps
import ComputerSystems.VirtualMemory.Coherence
import ComputerSystems.Recency.Order
import ComputerSystems.VirtualMemory.LeastRecent
import ComputerSystems.VirtualMemory.FirstIn
import ComputerSystems.VirtualMemory.EvictionOrder
import ComputerSystems.VirtualMemory.Translation
import ComputerSystems.Allocation.BlockList
import ComputerSystems.Heap.Core
import ComputerSystems.Heap.Operations
import ComputerSystems.Heap.Calls
import ComputerSystems.Heap.Tiling
import ComputerSystems.Heap.Payloads
import ComputerSystems.SwapFile.Core
import ComputerSystems.SwapFile.Frames
import ComputerSystems.PageLoading.Core
import ComputerSystems.PageLoading.Recursion
import ComputerSystems.Polybius.Core
import ComputerSystems.Polybius.RoundTrip
import ComputerSystems.Concurrency.Monitor
import ComputerSystems.Concurrency.WakeUp
import ComputerSystems.BoundedBuffer.Core
import ComputerSystems.BoundedBuffer.WakeUp
import ComputerSystems.BoundedBuffer.Order
import ComputerSystems.Concurrency.Mutex
import ComputerSystems.LockedHeap.Core
import ComputerSystems.LockedHeap.Exclusion
import ComputerSystems.ThreadSafeHeap.Core
import ComputerSystems.ThreadSafeHeap.Operations
import ComputerSystems.ThreadSafeHeap.Calls
import ComputerSystems.ThreadSafeHeap.Tiling
import ComputerSystems.ThreadSafeHeap.Accounts
import ComputerSystems.ThreadSafeHeap.Payloads
import ComputerSystems.ThreadSafeHeap.ReadYourWrites
import ComputerSystems.Polybius.Scan
import ComputerSystems.Heap.Requests
import ComputerSystems.Heap.Merging
import ComputerSystems.Memory.Chain
import ComputerSystems.ProcessQueue.Core
import ComputerSystems.ProcessQueue.Fifo
import ComputerSystems.ProcessQueue.Drained
import ComputerSystems.Text.Strings
import ComputerSystems.FileTransfer.Core
import ComputerSystems.FileTransfer.Requests
import ComputerSystems.FileTransfer.Download
import ComputerSystems.FileTransfer.Upload
import ComputerSystems.FileTransfer.Handshake
import ComputerSystems.ThreadedServer.Core
import ComputerSystems.ThreadedServer.Handlers
import ComputerSystems.FileTransfer.Copies
import ComputerSystems.ProcessQueue.Priority
import ComputerSystems.Text.Lines
import ComputerSystems.ThreadSafeHeap.PageIndex
import ComputerSystems.VirtualMemory.InputFile
import ComputerSystems.FileTransfer.MirroredPut
import ComputerSystems.ThreadSafeHeap.Refusals
import ComputerSystems.Heap.Initialisation
import ComputerSystems.Heap.Rejections
import ComputerSystems.ThreadSafeHeap.Candidates
import ComputerSystems.ThreadSafeHeap.VmTable
import ComputerSystems.ThreadSafeHeap.VmTableFailure
import ComputerSystems.ThreadSafeHeap.VmTableRecovery
import ComputerSystems.ThreadSafeHeap.SwapOut
import ComputerSystems.ThreadSafeHeap.SwapRoundTrip
import ComputerSystems.FileTransfer.Responses
import ComputerSystems.BoundedBuffer.Counters
import ComputerSystems.Allocation.Regions
import ComputerSystems.LockedHeap.Practicum
import ComputerSystems.PageLoading.Replacement
import ComputerSystems.LockedHeap.Splitting
import ComputerSystems.LockedHeap.Growth
import ComputerSystems.LockedHeap.Merging
import ComputerSystems.Polybius.Generation
import ComputerSystems.PageReplacement.Core
import ComputerSystems.PageReplacement.FirstIn
import ComputerSystems.BoundedBuffer.Main
import ComputerSystems.Concurrency.Calls
import ComputerSystems.Concurrency.Preambles
import ComputerSystems.Concurrency.Serial
import ComputerSystems.LockedHeap.Sequential
import ComputerSystems.Threads.Worker
import ComputerSystems.Threads.Counting
import ComputerSystems.FileTransfer.UsbReaders
import ComputerSystems.Graph.Marking
import ComputerSystems.MarkSweep.Collection
import ComputerSystems.Recency.Competitive
import ComputerSystems.VirtualMemory.Statistics
import ComputerSystems.PageReplacement.Comparison
import ComputerSystems.VirtualMemory.Comparison
import ComputerSystems.GcThread.Collection
import ComputerSystems.Polybius.Draws
import ComputerSystems.FileTransfer.GetRuns
import ComputerSystems.FileTransfer.InfoRequests
import ComputerSystems.Allocation.Neighbours
import ComputerSystems.Heap.Fragmentation
import ComputerSystems.ThreadSafeHeap.Interleaving
