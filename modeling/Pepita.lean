import Pepita.Lib.Machine
import Pepita.Lib.History
import Pepita.Lib.Interleave
import Pepita.Lib.RwLock
import Pepita.Lib.Linearize
import Pepita.Lib.Outcome
import Pepita.Lib.ForLoop
import Pepita.Lib.RowMajor
import Pepita.Lib.Blocks
import Pepita.Lib.Endian
import Pepita.Lib.Lz77
import Pepita.Lib.Table
import Pepita.Basic.Definitions
import Pepita.Exec.Task
import Pepita.Transport.Message
import Pepita.Transport.Payload
import Pepita.Transport.Malformed
import Pepita.Virtio.Block
import Pepita.Virtio.Concurrent
import Pepita.Virtio.Poison
import Pepita.Scheduler.Deque
import Pepita.Scheduler.Model
import Pepita.Scheduler.Capacity
import Pepita.Scheduler.Concurrent
import Pepita.Scheduler.Sequential
import Pepita.Scheduler.Stealing
import Pepita.Scheduler.Race
import Pepita.Scheduler.Order
import Pepita.Scheduler.Submit
import Pepita.Scheduler.RoundRobin
import Pepita.Scheduler.Batch
import Pepita.Scheduler.Atomic
import Pepita.Scheduler.Lock
import Pepita.Scheduler.Alone
import Pepita.Fault.Retry
import Pepita.Fault.Breaker
import Pepita.Fault.BreakerRace
import Pepita.Fault.Detector
import Pepita.Memory.Address
import Pepita.Memory.Dma
import Pepita.Vmm.MicroVm
import Pepita.Vmm.Create
import Pepita.Exec.Pool
import Pepita.Exec.Executor
import Pepita.Exec.Registry
import Pepita.Exec.Concurrent
import Pepita.Exec.Queued
import Pepita.Exec.Shutdown
import Pepita.Exec.Dispatch
import Pepita.Simd.Ops
import Pepita.Simd.Dot
import Pepita.Simd.Matmul
import Pepita.Simd.Transpose
import Pepita.Zram.Lz4
import Pepita.Zram.Encoder
import Pepita.Zram.Format
import Pepita.Zram.Decoder
import Pepita.Zram.Safety
import Pepita.Zram.Isolation
import Pepita.Zram.Stream
import Pepita.Zram.Complete
import Pepita.Zram.BlockEnd
import Pepita.Zram.Device
import Pepita.Zram.Pages
import Pepita.Zram.Stats
import Pepita.Zram.Limit
import Pepita.Zram.Concurrent
import Pepita.Zram.Bounds
