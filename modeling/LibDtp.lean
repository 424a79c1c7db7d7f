import LibDtp.Foundation.Chunks
import LibDtp.Foundation.Bytes
import LibDtp.Foundation.Runs
import LibDtp.Foundation.Ranges
import LibDtp.Foundation.Files
import LibDtp.Foundation.Memory
import LibDtp.Foundation.Keyed
import LibDtp.Foundation.Ownership
import LibDtp.Foundation.Service
import LibDtp.Foundation.Gaps
import LibDtp.Foundation.Heap
import LibDtp.Protocol.Basic
import LibDtp.Protocol.Metrics
import LibDtp.Protocol.Pacing
import LibDtp.Protocol.Wire
import LibDtp.Server.FilePayload
import LibDtp.Server.Send
import LibDtp.Server.Emission
import LibDtp.Server.MemoryPayload
import LibDtp.Server.Transfer
import LibDtp.Server.Interval
import LibDtp.Server.Rate
import LibDtp.Server.Setup
import LibDtp.Server.Buffers
import LibDtp.Vmem.Server
import LibDtp.Vmem.Interleaving
import LibDtp.Vmem.Service
import LibDtp.Vmem.Progress
import LibDtp.Client.Request
import LibDtp.Server.FileServer
import LibDtp.Vmem.Requests
import LibDtp.Vmem.Routing
import LibDtp.Server.Announce
import LibDtp.Client.Segments
import LibDtp.Client.SegmentLists
import LibDtp.Client.SegmentSets
import LibDtp.Client.Reuse
import LibDtp.Client.Session
import LibDtp.Client.Receive
import LibDtp.Client.Chunked
import LibDtp.Client.Placement
import LibDtp.Client.Resume
import LibDtp.Client.History
import LibDtp.Client.Convergence
import LibDtp.Client.FileDownload
import LibDtp.Vmem.Download
import LibDtp.Client.Completion
import LibDtp.Client.MetaFile
import LibDtp.Client.Missing
import LibDtp.Client.Deadline
import LibDtp.Client.ClockShift
import LibDtp.Client.Append
import LibDtp.Client.FreshStart
import LibDtp.Client.Foreign
import LibDtp.Client.Stop
import LibDtp.Client.Connections
import LibDtp.Client.Errors
import LibDtp.Client.Exits
import LibDtp.Client.SegmentHeap
import LibDtp.Client.HookMemory
import LibDtp.Client.MemorySafety
import LibDtp.Client.Pool
