import ShmMpsc.Lib.Machine
import ShmMpsc.Lib.Fair
import ShmMpsc.Lib.Memory
import ShmMpsc.Lib.Footprint
import ShmMpsc.Lib.Utf8
import ShmMpsc.Lib.Json
import ShmMpsc.Lib.Lines
import ShmMpsc.Lib.Wire
import ShmMpsc.Lib.StoreBuffer
import ShmMpsc.Lib.ReleaseAcquire
import ShmMpsc.Ring.Config
import ShmMpsc.Ring.Algorithm
import ShmMpsc.Ring.Segment
import ShmMpsc.Ring.Unbounded
import ShmMpsc.Ring.Invariant
import ShmMpsc.Ring.MemSim
import ShmMpsc.Ring.Simulation
import ShmMpsc.Ring.Fifo
import ShmMpsc.Ring.Layout
import ShmMpsc.Ring.Ownership
import ShmMpsc.Ring.Solo
import ShmMpsc.Ring.Sequential
import ShmMpsc.Ring.Lengths
import ShmMpsc.Ring.Stalled
import ShmMpsc.Ring.Full
import ShmMpsc.Ring.LockFree
import ShmMpsc.Ring.Ordered
import ShmMpsc.Ring.Slots
import ShmMpsc.Ring.OrderedSteps
import ShmMpsc.Ring.RaceFree
import ShmMpsc.Proto.Codec
import ShmMpsc.Proto.Serde
import ShmMpsc.Proto.Json
import ShmMpsc.Proto.Cbor
import ShmMpsc.Proto.Protobuf
import ShmMpsc.Proto.Avro
import ShmMpsc.Proto.Capnp
import ShmMpsc.Proto.Flat
import ShmMpsc.Formats.Cbor
import ShmMpsc.Formats.Protobuf
import ShmMpsc.Formats.Avro
import ShmMpsc.Formats.Capnp
import ShmMpsc.Formats.Flat
import ShmMpsc.Proto.Codecs
import ShmMpsc.Control.JsonRpc
import ShmMpsc.Control.Attach
import ShmMpsc.Control.Serve
import ShmMpsc.Control.Answers
import ShmMpsc.Control.Stream
import ShmMpsc.Control.CapnpRpc
import ShmMpsc.System.Loops
import ShmMpsc.System.Orders
import ShmMpsc.System.Buffers
import ShmMpsc.System.Park
import ShmMpsc.System.Wakeup
import ShmMpsc.System.Notify
import ShmMpsc.System.OnePerPark
import ShmMpsc.System.Flush
import ShmMpsc.System.Delivery
import ShmMpsc.System.Accounting
import ShmMpsc.System.Drain
import ShmMpsc.System.EndToEnd
import ShmMpsc.System.Laps
import ShmMpsc.System.LongBurst
import ShmMpsc.System.Progress
import ShmMpsc.System.Completion
import ShmMpsc.System.Bench
import ShmMpsc.System.Report
import ShmMpsc.System.Payload
import ShmMpsc.System.Events
import ShmMpsc.Formats.Framing
import ShmMpsc.System.Scenarios
import ShmMpsc.System.StoreOrder
import ShmMpsc.System.StoreRing
import ShmMpsc.System.StoreSim
import ShmMpsc.System.StoreFifo
import ShmMpsc.Formats.FlatReads
import ShmMpsc.Formats.FlatOwn
import ShmMpsc.Formats.CapnpLimit
import ShmMpsc.Control.Torn
import ShmMpsc.System.Wired
import ShmMpsc.System.WiredInv
import ShmMpsc.System.WiredSim
import ShmMpsc.System.WiredRun
import ShmMpsc.System.WiredProgress
