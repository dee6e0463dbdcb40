import ShardListener.Extensions.Dict
import ShardListener.Extensions.Numbering
import ShardListener.Extensions.Run
import ShardListener.Extensions.Splice
import ShardListener.Extensions.Codec
import ShardListener.Extensions.Fifo
import ShardListener.Extensions.Shift
import ShardListener.Extensions.Window
import ShardListener.Extensions.Threads
import ShardListener.Extensions.Ledger
import ShardListener.Extensions.Goroutine
import ShardListener.Extensions.LockOrder
import ShardListener.Extensions.Pipe
import ShardListener.Extensions.Semaphore
import ShardListener.Extensions.Framing
import ShardListener.Objects.Frame
import ShardListener.Discovery.Registry
import ShardListener.Discovery.Store
import ShardListener.Discovery.Wire
import ShardListener.Discovery.Theorems.Registry
import ShardListener.Discovery.Theorems.Store
import ShardListener.Discovery.Theorems.Snapshot
import ShardListener.Discovery.Beacon
import ShardListener.Discovery.Groups
import ShardListener.Discovery.Theorems.Beacon
import ShardListener.Discovery.Theorems.Sockets
import ShardListener.Discovery.Theorems.Rollout
import ShardListener.Nack.State
import ShardListener.Nack.Observe
import ShardListener.Nack.Operations
import ShardListener.Nack.Send
import ShardListener.Nack.System
import ShardListener.Nack.Walk
import ShardListener.Nack.Endpoints
import ShardListener.Nack.Bookings
import ShardListener.Nack.Theorems.Observe
import ShardListener.Nack.Theorems.Accounting
import ShardListener.Nack.Theorems.Probe
import ShardListener.Nack.Theorems.Repair
import ShardListener.Nack.Theorems.Provenance
import ShardListener.Nack.Theorems.TwoRuns
import ShardListener.Nack.Theorems.Pending
import ShardListener.Nack.Theorems.Detection
import ShardListener.Nack.Theorems.Sweep
import ShardListener.Nack.Theorems.Walk
import ShardListener.Nack.Theorems.Tail
import ShardListener.Nack.Theorems.Endpoints
import ShardListener.Nack.Theorems.Marker
import ShardListener.Nack.Theorems.LateFill
import ShardListener.Nack.Theorems.Backoff
import ShardListener.Nack.Theorems.Drain
import ShardListener.Nack.Theorems.Storm
import ShardListener.Nack.Theorems.Retry
import ShardListener.Nack.Theorems.Rate
import ShardListener.Nack.Theorems.Recorder
import ShardListener.Nack.Theorems.Wire
import ShardListener.Discovery.Theorems.Wire
import ShardListener.Reassembly.Buffer
import ShardListener.Reassembly.Object
import ShardListener.Reassembly.Chronicle
import ShardListener.Reassembly.Theorems.Sweep
import ShardListener.Reassembly.Theorems.Slot
import ShardListener.Reassembly.Theorems.Exact
import ShardListener.Reassembly.Theorems.Gather
import ShardListener.Reassembly.Theorems.Wait
import ShardListener.Reassembly.Theorems.InTime
import ShardListener.Reassembly.Theorems.Requests
import ShardListener.Reassembly.Theorems.Parts
import ShardListener.Reassembly.Theorems.Identity
import ShardListener.Reassembly.Theorems.Memory
import ShardListener.Reassembly.Theorems.Window
import ShardListener.Reassembly.Theorems.Assembly
import ShardListener.Reassembly.Theorems.Interpolation
import ShardListener.Reassembly.Theorems.Allocation
import ShardListener.Reassembly.Theorems.Order
import ShardListener.Reassembly.Theorems.Representation
import ShardListener.Reassembly.Theorems.Eviction
import ShardListener.Reassembly.Theorems.Chronicle
import ShardListener.Reassembly.Theorems.Lives
import ShardListener.Reassembly.Theorems.Ends
import ShardListener.Reassembly.Theorems.Asking
import ShardListener.Dedup.Set
import ShardListener.Dedup.Theorems.Window
import ShardListener.Worker.State
import ShardListener.Worker.Deliver
import ShardListener.Worker.Process
import ShardListener.Worker.System
import ShardListener.Worker.Deployment
import ShardListener.Worker.Receive
import ShardListener.Worker.RetryTee
import ShardListener.Worker.Composition
import ShardListener.Worker.Theorems.Deliver
import ShardListener.Worker.Theorems.Lossless
import ShardListener.Worker.Theorems.Suppression
import ShardListener.Worker.Theorems.RepairWait
import ShardListener.Worker.Theorems.Reinject
import ShardListener.Worker.Theorems.Whole
import ShardListener.Worker.Theorems.Transparent
import ShardListener.Worker.Theorems.Election
import ShardListener.Worker.Theorems.Calls
import ShardListener.Worker.Theorems.Ownership
import ShardListener.Worker.Theorems.ZeroSubtree
import ShardListener.Worker.Theorems.Bundles
import ShardListener.Worker.Theorems.Rebucket
import ShardListener.Worker.Theorems.Coverage
import ShardListener.Worker.Theorems.Restamp
import ShardListener.Worker.Theorems.Retransmit
import ShardListener.Worker.Theorems.TeeSteps
import ShardListener.Worker.Theorems.TeePhases
import ShardListener.Worker.Theorems.RetryTee
import ShardListener.Worker.Theorems.Receive
import ShardListener.Worker.Theorems.Locking
import ShardListener.Worker.Theorems.Deadlock
import ShardListener.Worker.Delivery
import ShardListener.Worker.Theorems.Emission
import ShardListener.Worker.Theorems.Delivery
import ShardListener.Worker.Theorems.Headers
import ShardListener.Manifest.Applier
import ShardListener.Manifest.AutoJoin
import ShardListener.Manifest.Theorems.AutoJoin
import ShardListener.Fanout.Sink
import ShardListener.Fanout.Theorems.Turns
import ShardListener.Fanout.Theorems.Scan
import ShardListener.Fanout.Theorems.Contiguity
import ShardListener.Fanout.Shared
import ShardListener.Fanout.Theorems.Shared
import ShardListener.Fanout.Theorems.Oblivious
import ShardListener.Egress.Sender
import ShardListener.Egress.Theorems.Redial
import ShardListener.Egress.Unicast
import ShardListener.Egress.Theorems.Stream
import ShardListener.Egress.Theorems.Split
import ShardListener.SubtreeGroup.Registry
import ShardListener.SubtreeGroup.Theorems.Registry
import ShardListener.SubtreeGroup.Theorems.Filter
import ShardListener.SubtreeGroup.Announce
import ShardListener.SubtreeGroup.Theorems.Announce
import ShardListener.TxDedup.Store
import ShardListener.TxDedup.Theorems.Store
import ShardListener.Worker.Cluster
import ShardListener.Worker.Theorems.Claims
import ShardListener.Worker.Theorems.Cluster
import ShardListener.Nack.Lane
import ShardListener.Nack.Theorems.Isolation
import ShardListener.Nack.Theorems.Aging
import ShardListener.Nack.Theorems.Reclaim
import ShardListener.Fanout.Theorems.Flow
import ShardListener.Fanout.Theorems.Pushes
import ShardListener.Manifest.Replay
import ShardListener.Manifest.Theorems.Replay
import ShardListener.Worker.Recovery
import ShardListener.Worker.Theorems.Recovery
import ShardListener.Manifest.Sources
import ShardListener.Manifest.Theorems.Sources
