import RustVmm.VmAllocator.Atomic
import RustVmm.VmAllocator.Coalesced
import RustVmm.VmAllocator.Fit
import RustVmm.VmAllocator.Live
import RustVmm.VmAllocator.IdAllocator
import RustVmm.Seccompiler.Compile
import RustVmm.VmMemory.Dirty
import RustVmm.VirtioQueue.State
import RustVmm.VirtioQueue.EventIdx
import RustVmm.VirtioQueue.ByteStream
import RustVmm.VirtioQueue.Kick
import RustVmm.VmmSysUtil.SockCtrlMsg
import RustVmm.VirtioBlk.Transfer
import RustVmm.VmMemory.Regions
import RustVmm.VmMemory.PageSet
import RustVmm.VirtioVsock.TxPacket
import RustVmm.VmMemory.ExactReads
import RustVmm.VirtioDevice.Activation
import RustVmm.VirtioBlk.WriteZeroes
import RustVmm.VirtioConsole.Transmit
import RustVmm.VmMemory.CopySlice
import RustVmm.VirtioBlk.Reads
import RustVmm.VirtioQueue.ValidQueue
import RustVmm.VmDevice.IoManager
import RustVmm.VmmSysUtil.WriteZeroes
import RustVmm.LinuxLoader.Segments
import RustVmm.LinuxLoader.Notes
import RustVmm.LinuxLoader.BzImage
import RustVmm.LinuxLoader.Rendering
import RustVmm.AcpiTables.Rhct
import RustVmm.AcpiTables.Resources
import RustVmm.AcpiTables.Topology
import RustVmm.EventManager.Dispatch
import RustVmm.EventManager.Endpoint
