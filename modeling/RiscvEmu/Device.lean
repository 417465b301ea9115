import RiscvEmu.Trap

/-! The memory-mapped devices: the CLINT, the PLIC, and the DMA of the virtio device through
`mem_read8` to `mem_write32`. -/

namespace RiscvEmu

def clintRead (offset : Word) (m : Machine) : Word :=
  match offset.toNat with
  | 0xbff8 => m.mtime
  | 0x4000 => m.mtimecmp
  | _ => 0

def clintWrite (offset val : Word) (m : Machine) : Machine :=
  match offset.toNat with
  | 0x4000 =>
    { m with
      mem := m.mem.set mtimecmpCell val
      csr := { m.csr with mip := { m.csr.mip with stip := 0 } }
      bus := .mtimecmp val :: m.bus }
  | _ => m

def setSeip (m : Machine) (b : Byte) : Machine :=
  { m with csr := { m.csr with mip := { m.csr.mip with seip := b } } }

def plicRead (offset : Word) (m : Machine) : Word × Machine :=
  if offset = plicHartBase then (0, m)
  else if offset = plicHartBase + 4 then
    if m.csr.mip.seip = 1 then
      (1, setSeip { m with plic := { m.plic with servedIrq := true } } 0)
    else (0, m)
  else (0, m)

def plicWrite (offset : Word) (m : Machine) : Machine :=
  if offset = plicHartBase + 4 then
    let m := { m with plic := { m.plic with servedIrq := false } }
    if m.plic.pendingIrq then setSeip m 1 else setSeip m 0
  else m

/-- `plic_set_irq_emu`. The test `~plic_served_irq` complements an `int`. -/
def plicSetIrqEmu (state : Bool) (m : Machine) : Machine :=
  if state then
    let m := { m with plic := { m.plic with pendingIrq := true } }
    if ~~~(if m.plic.servedIrq then 1#32 else 0#32) ≠ 0 then setSeip m 1 else setSeip m 0
  else setSeip { m with plic := { m.plic with pendingIrq := false } } 0

def memRead32 (addr : Word) (mem : Memory) : Option (BitVec 32) :=
  (cell? ((addr - dramBase) / 8)).map fun c => (loadWord addr (mem c)).2.setWidth 32

def memRead16 (addr : Word) (mem : Memory) : Option (BitVec 16) :=
  (cell? ((addr - dramBase) / 8)).map fun c => (loadHalfw addr (mem c)).2.setWidth 16

def memRead8 (addr : Word) (mem : Memory) : Option (BitVec 8) :=
  (cell? ((addr - dramBase) / 8)).map fun c => (loadByte addr (mem c)).2.setWidth 8

/-- The cell and the value that `mem_write8`, `mem_write16` and `mem_write32` assign, by accessor. -/
def memWrite (store : Word → Word → Word → Bool × Word) (addr data : Word) (mem : Memory) :
    Option (Cell × Word) :=
  (cell? ((addr - dramBase) / 8)).map fun c => (c, (store addr (mem c) data).2)

def memWrite32 : Word → Word → Memory → Option (Cell × Word) := memWrite storeWord

def memWrite16 : Word → Word → Memory → Option (Cell × Word) := memWrite storeHalfw

def memWrite8 : Word → Word → Memory → Option (Cell × Word) := memWrite storeByte

/-- A DMA write, or the exception of `memory.at`. -/
def dmaWrite (target : Option (Cell × Word)) (m : Machine) : Call Unit :=
  match target with
  | none => .stop .outOfRange m
  | some (c, v) => .ret () (m.write .dma c v)

/-- A DMA read matters to the machine only where `memory.at` throws. -/
def dmaRead (inRange : Bool) (m : Machine) : Call Unit :=
  if inRange then .ret () m else .stop .outOfRange m

def deviceAct (a : DeviceAct) (m : Machine) : Call Unit :=
  match a with
  | .read8 addr => dmaRead (memRead8 addr m.mem).isSome m
  | .read16 addr => dmaRead (memRead16 addr m.mem).isSome m
  | .read32 addr => dmaRead (memRead32 addr m.mem).isSome m
  | .write8 addr data => dmaWrite (memWrite8 addr data m.mem) m
  | .write16 addr data => dmaWrite (memWrite16 addr data m.mem) m
  | .write32 addr data => dmaWrite (memWrite32 addr data m.mem) m
  | .setIrq state => .ret () (plicSetIrqEmu state m)

def deviceActs : List DeviceAct → Machine → Call Unit
  | [], m => .ret () m
  | a :: as, m =>
    match deviceAct a m with
    | .stop h m => .stop h m
    | .ret () m => deviceActs as m

end RiscvEmu
