import RiscvEmu.Basic
import RiscvEmu.Accessors
import RiscvEmu.Csr
import RiscvEmu.State
import RiscvEmu.Trap
import RiscvEmu.Translate
import RiscvEmu.Device
import RiscvEmu.Decode
import RiscvEmu.IntegerArms
import RiscvEmu.LoadStore
import RiscvEmu.Amo
import RiscvEmu.System
import RiscvEmu.Loop
import RiscvEmu.Effect
import RiscvEmu.Lib.Bytes
import RiscvEmu.Lib.Runs
import RiscvEmu.CsrInstructions
import RiscvEmu.Turn
import RiscvEmu.Control
import RiscvEmu.CsrWellFormed
import RiscvEmu.Lib.Packed
import RiscvEmu.CsrViews
import RiscvEmu.ByteMemory
import RiscvEmu.Lib.Words
import RiscvEmu.Rv64i
import RiscvEmu.Encodings
import RiscvEmu.IntegerRefinement
import RiscvEmu.PreciseTraps
import RiscvEmu.FaultDelivery
import RiscvEmu.TrapRoundTrip
import RiscvEmu.InterruptSelection
import RiscvEmu.Reservation
import RiscvEmu.TimerAlias
import RiscvEmu.Confinement
import RiscvEmu.ScratchLocals
import RiscvEmu.Sv39Walk
import RiscvEmu.AddressMapping
import RiscvEmu.Sv39Protection
import RiscvEmu.InstructionAlignment
import RiscvEmu.AccessBounds
import RiscvEmu.AccessFootprint
import RiscvEmu.Division
import RiscvEmu.PackedRegisters
import RiscvEmu.PhysicalAddress
import RiscvEmu.StoreAlignment
import RiscvEmu.AtomicOps
import RiscvEmu.AtomicTraps
import RiscvEmu.TrapFrame
import RiscvEmu.MachineReturn
import RiscvEmu.PlicProtocol
import RiscvEmu.Rv64ima
import RiscvEmu.UndefinedEncodings
import RiscvEmu.Multiplication
import RiscvEmu.Division32
import RiscvEmu.UntranslatedAccess
import RiscvEmu.AccessWidths
import RiscvEmu.DmaCopy
import RiscvEmu.Lib.Hex
import RiscvEmu.ImageLoading
import RiscvEmu.RamVariants
import RiscvEmu.ConsoleInput
import RiscvEmu.InfiniteLoop
import RiscvEmu.Lib.Programs
import RiscvEmu.Lib.Segments
import RiscvEmu.Lib.Rings
import RiscvEmu.Virtio
import RiscvEmu.BlockFile
import RiscvEmu.VirtioBlock
import RiscvEmu.DeviceSteps
import RiscvEmu.VirtQueue
import RiscvEmu.QueueServer
import RiscvEmu.EndlessChain
import RiscvEmu.BlockServer
import RiscvEmu.BlockDisk
import RiscvEmu.ServerRuns
import RiscvEmu.AttachedSystem
import RiscvEmu.Containment
import RiscvEmu.AttachedServer
import RiscvEmu.Rv64Machine
import RiscvEmu.GuestMemory
import RiscvEmu.ReservedAccess
import RiscvEmu.BinaryLoading
import RiscvEmu.MemoryView
import RiscvEmu.ProgramRefinement
import RiscvEmu.AddressSpace
import RiscvEmu.InterruptDelivery
import RiscvEmu.RegisterBank
