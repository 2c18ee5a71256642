import Rpcsx.Data.OrderedMap
import Rpcsx.MemoryTable.AreaTable
import Rpcsx.Data.StepFunction
import Rpcsx.MemoryTable.AreaTable.Theorems
import Rpcsx.Data.Runs
import Rpcsx.MemoryTable.AreaTable.Refinement
import Rpcsx.MemoryTable.PayloadTable
import Rpcsx.MemoryTable.PayloadTable.Theorems
import Rpcsx.MemoryTable.PayloadTable.Operations
import Rpcsx.MemoryTable.PayloadTable.Areas
import Rpcsx.MemoryTable.PayloadTable.Refinement
import Rpcsx.Data.Interleaving
import Rpcsx.SharedMutex
import Rpcsx.SharedMutex.Theorems
import Rpcsx.Data.Bytes
import Rpcsx.FileStream
import Rpcsx.Psf
import Rpcsx.Psf.RoundTrip
import Rpcsx.Psf.Safety
import Rpcsx.Data.Text
import Rpcsx.Iso
import Rpcsx.Iso.Records
import Rpcsx.Iso.Listing
import Rpcsx.Iso.Lookup
import Rpcsx.Iso.Paths
import Rpcsx.Iso.Agreement
import Rpcsx.Data.Hex
import Rpcsx.PatchEngine
import Rpcsx.Artemis
import Rpcsx.Artemis.Operations
import Rpcsx.Artemis.Section
import Rpcsx.BitSet
import Rpcsx.Data.Machine
import Rpcsx.IdMap
import Rpcsx.IdMap.RcIdMap
import Rpcsx.IdMap.OwningIdMap
import Rpcsx.Data.Circular
import Rpcsx.RingBuf
import Rpcsx.AddressRange
import Rpcsx.AddressRange.Members
import Rpcsx.AddressRange.Theorems
import Rpcsx.GameSettings
import Rpcsx.GameSettings.Theorems
import Rpcsx.Tropusr
import Rpcsx.Tar
import Rpcsx.Tar.Theorems
import Rpcsx.Tar.Reading
import Rpcsx.Tar.Items
import Rpcsx.Tar.RoundTrip
import Rpcsx.Psf.ParamSfo
import Rpcsx.Psf.Accepted
import Rpcsx.GameSettings.Status
import Rpcsx.GameSettings.Timestamps
import Rpcsx.GameRepository
import Rpcsx.Lv2
import Rpcsx.Lv2.Semaphore
import Rpcsx.Lv2.Semaphore.Theorems
import Rpcsx.Lv2.RwLock
import Rpcsx.Lv2.RwLock.Theorems
import Rpcsx.Lv2.Mutex
import Rpcsx.Lv2.Mutex.Invariant
import Rpcsx.Lv2.Mutex.Theorems
import Rpcsx.Lv2.EventFlag
import Rpcsx.Data.Mask
import Rpcsx.Lv2.EventFlag.Attempt
import Rpcsx.Lv2.EventFlag.Invariant
import Rpcsx.Lv2.EventFlag.Simulation
import Rpcsx.Lv2.EventFlag.Theorems
import Rpcsx.Lv2.LwMutex
import Rpcsx.Lv2.LwMutex.Theorems
import Rpcsx.Lv2.EventQueue
import Rpcsx.Lv2.EventQueue.Invariant
import Rpcsx.Lv2.EventQueue.Log
import Rpcsx.Lv2.EventQueue.Mail
import Rpcsx.Lv2.EventQueue.Theorems
import Rpcsx.Lv2.Scheduler
import Rpcsx.Lv2.Scheduler.Theorems
import Rpcsx.Idm
import Rpcsx.Idm.Invariant
import Rpcsx.Idm.Theorems
import Rpcsx.Ipc
import Rpcsx.Ipc.Invariant
import Rpcsx.Ipc.Theorems
import Rpcsx.SysVm
import Rpcsx.Lv2.MemoryContainer
import Rpcsx.Lv2.MemoryContainer.Balance
import Rpcsx.Lv2.MemoryContainer.Steps
import Rpcsx.Lv2.MemoryContainer.Theorems
import Rpcsx.Data.Alignment
import Rpcsx.KernelHeap
import Rpcsx.P2ps.Monitor
import Rpcsx.Data.Segments
import Rpcsx.P2ps.Stream
import Rpcsx.P2ps.Stream.Invariant
import Rpcsx.P2ps.Stream.Directions
import Rpcsx.P2ps.Stream.Theorems
import Rpcsx.Orbis.EventFlag
import Rpcsx.Orbis.EventFlag.Notify
import Rpcsx.Orbis.EventFlag.Theorems
import Rpcsx.Orbis.RwLock
import Rpcsx.Orbis.RwLock.Exclusion
import Rpcsx.Orbis.Umutex
import Rpcsx.Orbis.Umutex.Theorems
import Rpcsx.Orbis.UmtxChain
import Rpcsx.Orbis.UmtxChain.Queue
import Rpcsx.Orbis.UmtxChain.Theorems
import Rpcsx.CellSync
import Rpcsx.CellSync.Mutex
import Rpcsx.CellSync.Barrier
import Rpcsx.CellSync.Rwm
import Rpcsx.CellSync.Queue
import Rpcsx.CellSync.Queue.Invariant
import Rpcsx.CellSync.Queue.Theorems
import Rpcsx.Orbis.Pipe
import Rpcsx.CellRtc
import Rpcsx.CellRtc.Theorems
import Rpcsx.Data.Scatter
import Rpcsx.Rsx.TiledDma
import Rpcsx.Rsx.TiledDma.Address
import Rpcsx.Rsx.TiledDma.Theorems
import Rpcsx.Dmem
import Rpcsx.Dmem.Theorems
import Rpcsx.AmdgpuTiler
import Rpcsx.AmdgpuTiler.Surface1d
import Rpcsx.AmdgpuTiler.Agreement
import Rpcsx.AmdgpuTiler.MacroTile
import Rpcsx.AmdgpuTiler.GpuTiler
import Rpcsx.AmdgpuTiler.ElementOrder
import Rpcsx.AmdgpuTiler.Tile1d
import Rpcsx.AmdgpuTiler.Tile2d
import Rpcsx.Rsx.DataHeap
import Rpcsx.Vm
import Rpcsx.Vm.PageProtect
import Rpcsx.Vm.RangeLock
import Rpcsx.Vm.Blocks
import Rpcsx.Vm.Units
import Rpcsx.Vm.BlockCalls
import Rpcsx.Vm.CheckAddr
import Rpcsx.Vm.WriterLock
import Rpcsx.P2ps.Packet
import Rpcsx.Data.Walk
import Rpcsx.P2ps.Connected
import Rpcsx.P2ps.Monitor.Retries
import Rpcsx.Lv2.Timer
import Rpcsx.Vm.ReservationOp
import Rpcsx.CellRtc.Months
import Rpcsx.Rsx.RangedMap
import Rpcsx.Rsx.RestartIndex
import Rpcsx.Rsx.SimpleArray
import Rpcsx.CellRtc.Rfc3339
import Rpcsx.MemoryTable.PayloadTable.NoOverride
import Rpcsx.Artemis.Limit
import Rpcsx.Artemis.Stores
import Rpcsx.Psf.ParamSfo.Wrapping
import Rpcsx.FileUtil
import Rpcsx.PatchHashRepository
import Rpcsx.Artemis.Patches
import Rpcsx.Artemis.Rendering
import Rpcsx.Iso.ReadDir
import Rpcsx.Iso.FileView
import Rpcsx.AddressRange.Queries
import Rpcsx.PatchEngine.Modifiers
import Rpcsx.PatchEngine.Versions
import Rpcsx.PatchEngine.Load
import Rpcsx.PatchEngine.LoadOrder
import Rpcsx.PatchEngine.Import
import Rpcsx.ConcurrentBitPool
import Rpcsx.Data.Chain
import Rpcsx.LfQueue
import Rpcsx.Lz
import Rpcsx.Serialization
import Rpcsx.Serialization.RoundTrip
import Rpcsx.Data.Components
import Rpcsx.Shader.Cycles
import Rpcsx.Crypto.Hashes
import Rpcsx.AtomicPtr
import Rpcsx.NpAllocator
