import RiscvEmu.Accessors
import RiscvEmu.Csr
import RiscvEmu.Decode

/-! The state of one iteration of the `while (1)` loop in `main`: the globals and the locals that
the guest can observe (`Machine`), the scratch locals declared outside the loop (`Locals`), and
what the outside world supplies (`Input`). -/

namespace RiscvEmu

structure Flags where
  ldAccFault : Bool
  insAccFault : Bool
  illIns : Bool
  ebreak : Bool
  insAddrMissalig : Bool
  ldAddrMissalig : Bool
  storeAddrMissalig : Bool
  deriving DecidableEq

def Flags.clear : Flags := ⟨false, false, false, false, false, false, false⟩

/-- `amo_reserve_valid`, `amo_reserve_addr` and their 64-bit twins. -/
structure Reserve where
  valid : Bool
  addr : Word
  valid64 : Bool
  addr64 : Word
  deriving DecidableEq

/-- `plic_served_irq` and `plic_pending_irq`. -/
structure Plic where
  servedIrq : Bool
  pendingIrq : Bool
  deriving DecidableEq

inductive Width
  | w32 | w64
  deriving DecidableEq

inductive Writer
  | store | sc | amo | dma
  deriving DecidableEq

/-- History of the memory bus. It has no counterpart in the source and no definition reads it: it
records, in the places where the source acts, what the theorems about runs talk about. -/
inductive BusEvent
  | ram (writer : Writer) (cell : Cell) (data : Word)
  | mtimecmp (data : Word)
  | lr (width : Width) (va pa : Word)
  | sc (width : Width) (va pa : Word) (success : Bool)
  deriving DecidableEq

structure Machine where
  cycleCount : Word
  pc : Word
  cp : Plevel
  regFile : BitVec 5 → Word
  csr : Csrs
  mem : Memory
  flags : Flags
  resv : Reserve
  plic : Plic
  fifoQueue : List Byte
  out : List Byte
  bus : List BusEvent

/-- The locals of `main` that keep their value from one iteration to the next without being part of
the guest's state. -/
structure Locals where
  branch : Bool
  lsSuccess : Bool
  csrBool : Bool
  wbData : Word
  retData : Word
  loadData : Word
  storeData : Word
  loadAddr : Word
  loadAddrPhy : Word
  storeAddr : Word
  storeAddrPhy : Word
  csrData : Word
  val : Word
  itr : Word
  multTemp : BitVec 128

structure State extends Machine, Locals

/-- What a virtio register write makes the device do on the memory bus and its interrupt line. -/
inductive DeviceAct
  | read8 (addr : Word)
  | read16 (addr : Word)
  | read32 (addr : Word)
  | write8 (addr data : Word)
  | write16 (addr data : Word)
  | write32 (addr data : Word)
  | setIrq (state : Bool)

/-- What one iteration receives from outside: the clock in microseconds, the next result of
`getchar` (none for `EOF`), the garbage that running off the end of `csr_read` returns, and the
virtio device as a function of the access and, for its DMA, of the memory. -/
structure Input where
  timeInMicros : Word
  getchar : Option Byte
  fallOff : Word
  virtioMmioRead : BitVec 32 → BitVec 32
  virtioMmioWrite : BitVec 32 → BitVec 32 → Memory → List DeviceAct

inductive Call (α : Type)
  | ret (a : α) (m : Machine)
  | stop (h : Halt) (m : Machine)

/-- How an arm of the opcode `switch` ends: `break` to the end of the loop, `continue`, or the
program ends. -/
inductive Res
  | fall (s : State)
  | cont (s : State)
  | stop (h : Halt) (s : State)

inductive Step
  | next (s : State)
  | halt (h : Halt) (s : State)

/-- `memory.at(MTIME_ADDR/8)`, to which `mtime` refers. -/
def mtimeCell : Cell := ⟨(0x2000000 + 0xbff8) / 8, by decide⟩

def mtimecmpCell : Cell := ⟨(0x2000000 + 0x4000) / 8, by decide⟩

namespace Machine

def mtime (m : Machine) : Word := m.mem mtimeCell

def mtimecmp (m : Machine) : Word := m.mem mtimecmpCell

def reg (m : Machine) (r : Word) : Word := m.regFile (r.setWidth 5)

def regSet (m : Machine) (r v : Word) : BitVec 5 → Word :=
  Function.update m.regFile (r.setWidth 5) v

def write (m : Machine) (by' : Writer) (c : Cell) (v : Word) : Machine :=
  { m with mem := m.mem.set c v, bus := .ram by' c v :: m.bus }

end Machine

def State.setReg (s : State) (r v : Word) : State := { s with regFile := s.regSet r v }

/-- `reg_file[rd] = wb_data` after an assignment to `wb_data`. -/
def State.writeBack (s : State) (ins wb : Word) : State :=
  ({ s with wbData := wb }).setReg (rd ins) wb

end RiscvEmu
