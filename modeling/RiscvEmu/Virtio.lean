import RiscvEmu.DmaCopy
import RiscvEmu.Lib.Programs

/-! The virtio device of `temu/virtio.c` behind its MMIO registers: the register file, the queues,
and the copies between a device and the buffers of a queue. What a kind of device adds to the common
part, and what its `device_recv` does, are parameters. -/

namespace RiscvEmu

open Bytes Programs

abbrev maxQueue : ℕ := 8
def maxQueueNum : BitVec 32 := 16
def vringDescFNext : BitVec 16 := 1
def vringDescFWrite : BitVec 16 := 2

structure QueueState where
  ready : BitVec 32
  num : BitVec 32
  lastAvailIdx : BitVec 16
  descAddr : Word
  availAddr : Word
  usedAddr : Word
  manualRecv : Bool

structure VirtioDesc where
  addr : Word
  len : BitVec 32
  flags : BitVec 16
  next : BitVec 16
  deriving DecidableEq

structure VirtioDevice where
  intStatus : BitVec 32
  status : BitVec 32
  deviceFeaturesSel : BitVec 32
  queueSel : Fin maxQueue
  queue : Fin maxQueue → QueueState
  deviceId : BitVec 32
  vendorId : BitVec 32
  deviceFeatures : BitVec 32
  configSpaceSize : BitVec 32
  configSpace : ℕ → Byte

/-- How the device code ends the emulator: the exception of `memory.at`, `abort` or an assertion, and
what C leaves undefined. -/
inductive DeviceFault
  | outOfRange
  | abort
  | undefined
  deriving DecidableEq

/-- What the device code works on: the machine, the common part of the device, and what the device
adds to it. The list of what it has done to the machine has no counterpart in the source, and no
definition reads it. -/
structure Attached (δ : Type) where
  machine : Machine
  acts : List DeviceAct
  common : VirtioDevice
  ext : δ

abbrev Dev (δ : Type) := Prog DeviceFault (Attached δ)

variable {δ : Type}

/-! ### The machine's side -/

def act (a : DeviceAct) : Dev δ Unit := Prog.step fun x =>
  match deviceAct a x.machine with
  | .stop _ _ => .error .outOfRange
  | .ret () m => .ok ((), { x with machine := m, acts := x.acts ++ [a] })

def setIrq (level : Bool) : Dev δ Unit := act (.setIrq level)

def virtioRead16 (addr : Word) : Dev δ (BitVec 16) :=
  if addr &&& 1 ≠ 0 then pure 0
  else Prog.step fun x =>
    match memRead16 addr x.machine.mem with
    | none => .error .outOfRange
    | some v => .ok (v, x)

def virtioWrite16 (addr : Word) (val : BitVec 16) : Dev δ Unit :=
  if addr &&& 1 ≠ 0 then pure () else act (.write16 addr (val.setWidth 64))

def virtioWrite32 (addr : Word) (val : BitVec 32) : Dev δ Unit :=
  if addr &&& 3 ≠ 0 then pure () else act (.write32 addr (val.setWidth 64))

def memcpyFromRam (addr : Word) (count : BitVec 32) : Dev δ (List Byte) := Prog.step fun x =>
  match virtioMemcpyFromRam addr count.toInt x.machine.mem with
  | none => .error .outOfRange
  | some bytes => .ok (bytes, x)

def copyActs (addr : Word) (buf : List Byte) (count : ℕ) : List DeviceAct :=
  (List.range count).map fun i =>
    .write8 (addr + BitVec.ofNat 64 i) ((buf.getD i 0).setWidth 64)

def memcpyToRam (addr : Word) (buf : List Byte) (count : BitVec 32) : Dev δ Unit :=
  Prog.step fun x =>
    match virtioMemcpyToRam addr buf count.toInt x.machine with
    | .stop .undefined _ => .error .undefined
    | .stop _ _ => .error .outOfRange
    | .ret () m => .ok ((),
        { x with machine := m, acts := x.acts ++ copyActs addr buf count.toInt.toNat })

/-! ### The queues -/

def queueState (q : Fin maxQueue) : Dev δ QueueState := Prog.reads fun x => x.common.queue q

def modifyCommon (f : VirtioDevice → VirtioDevice) : Dev δ Unit :=
  Prog.modify fun x => { x with common := f x.common }

def VirtioDevice.setQueue (q : Fin maxQueue) (f : QueueState → QueueState) (s : VirtioDevice) :
    VirtioDevice :=
  { s with queue := Function.update s.queue q (f (s.queue q)) }

/-- The sixteen bytes of a descriptor, as the host has the structure in memory. -/
def VirtioDesc.ofBytes (b : List Byte) : VirtioDesc where
  addr := little 64 (b.take 8)
  len := little 32 ((b.drop 8).take 4)
  flags := little 16 ((b.drop 12).take 2)
  next := little 16 ((b.drop 14).take 2)

def VirtioDesc.write (d : VirtioDesc) : Bool := d.flags &&& vringDescFWrite = vringDescFWrite

def VirtioDesc.hasNext (d : VirtioDesc) : Bool := d.flags &&& vringDescFNext ≠ 0

def getDesc (q : Fin maxQueue) (descIdx : BitVec 16) : Dev δ VirtioDesc := do
  let qs ← queueState q
  let bytes ← memcpyFromRam (qs.descAddr + descIdx.setWidth 64 * 16) 16
  return .ofBytes bytes

def firstWrite (q : Fin maxQueue) : VirtioDesc → Dev δ (Option VirtioDesc) :=
  Prog.loop fun desc =>
    if desc.write then pure (.inr (some desc))
    else if !desc.hasNext then pure (.inr none)
    else do
      let desc ← getDesc q desc.next
      pure (.inl desc)

def firstDesc (q : Fin maxQueue) (toQueue : Bool) (desc : VirtioDesc) :
    Dev δ (Option VirtioDesc) :=
  if toQueue then firstWrite q desc else pure (some desc)

/-- The loop to the descriptor at the offset, and the offset in it. -/
def atOffset (q : Fin maxQueue) (write : Bool) :
    VirtioDesc × BitVec 32 → Dev δ (Option (VirtioDesc × BitVec 32)) :=
  Prog.loop fun s =>
    if s.1.write ≠ write then pure (.inr none)
    else if s.2 < s.1.len then pure (.inr (some s))
    else if !s.1.hasNext then pure (.inr none)
    else do
      let desc ← getDesc q s.1.next
      pure (.inl (desc, s.2 - s.1.len))

/-- The locals of the copy loop. The pointer is a position in the buffer, of which a copy from the queue
has put there what is in `buf`. -/
structure Copying where
  desc : VirtioDesc
  offset : BitVec 32
  count : BitVec 32
  buf : List Byte
  pos : ℕ

def minInt (a b : BitVec 32) : BitVec 32 := if a.slt b then a else b

def overwrite (pos : ℕ) (bytes buf : List Byte) : List Byte :=
  buf.take pos ++ bytes ++ buf.drop (pos + bytes.length)

def copyPart (toQueue : Bool) (s : Copying) (l : BitVec 32) : Dev δ (List Byte) :=
  let addr := s.desc.addr + s.offset.signExtend 64
  if toQueue then do
    memcpyToRam addr (s.buf.drop s.pos) l
    pure s.buf
  else do
    let bytes ← memcpyFromRam addr l
    pure (overwrite s.pos bytes s.buf)

/-- A round of the copy loop. A negative `l` moves the pointer back, which is undefined where it would
leave the buffer. -/
def copyRound (q : Fin maxQueue) (toQueue : Bool) (s : Copying) :
    Dev δ (Copying ⊕ Bool × List Byte) := do
  let l := minInt s.count (s.desc.len - s.offset)
  let buf ← copyPart toQueue s l
  let count := s.count - l
  if count = 0 then pure (.inr (true, buf))
  else if s.pos + l.toInt < 0 then Prog.fail .undefined
  else
    let offset := s.offset + l
    let pos := (s.pos + l.toInt).toNat
    if offset ≠ s.desc.len then pure (.inl ⟨s.desc, offset, count, buf, pos⟩)
    else if !s.desc.hasNext then pure (.inr (false, buf))
    else do
      let desc ← getDesc q s.desc.next
      if desc.write ≠ toQueue then pure (.inr (false, buf))
      else pure (.inl ⟨desc, 0, count, buf, pos⟩)

def memcpyToFromQueue (buf : List Byte) (q : Fin maxQueue) (descIdx : BitVec 16)
    (offset count : BitVec 32) (toQueue : Bool) : Dev δ (Bool × List Byte) :=
  if count = 0 then pure (true, buf)
  else do
    let desc ← getDesc q descIdx
    let first ← firstDesc q toQueue desc
    match first with
    | none => pure (false, buf)
    | some desc => do
      let found ← atOffset q toQueue (desc, offset)
      match found with
      | none => pure (false, buf)
      | some (desc, offset) => Prog.loop (copyRound q toQueue) ⟨desc, offset, count, buf, 0⟩

def memcpyFromQueue (q : Fin maxQueue) (descIdx : BitVec 16) (offset count : BitVec 32) :
    Dev δ (Bool × List Byte) :=
  memcpyToFromQueue [] q descIdx offset count false

def memcpyToQueue (q : Fin maxQueue) (descIdx : BitVec 16) (offset : BitVec 32)
    (buf : List Byte) (count : BitVec 32) : Dev δ Unit := do
  let _ ← memcpyToFromQueue buf q descIdx offset count true
  pure ()

def virtioConsumeDesc (q : Fin maxQueue) (descIdx : BitVec 16) (descLen : BitVec 32) :
    Dev δ Unit := do
  let qs ← queueState q
  let index ← virtioRead16 (qs.usedAddr + 2)
  virtioWrite16 (qs.usedAddr + 2) (index + 1)
  let addr := qs.usedAddr + 4 + ((index.setWidth 32 &&& (qs.num - 1)) * 8).setWidth 64
  virtioWrite32 addr (descIdx.setWidth 32)
  virtioWrite32 (addr + 4) descLen
  modifyCommon fun s => { s with intStatus := s.intStatus ||| 1 }
  setIrq true

/-- The loop over the read descriptors: the first write descriptor after them, if there is one, and
`read_size`. -/
def readSizes (q : Fin maxQueue) :
    VirtioDesc × BitVec 32 → Dev δ (Option VirtioDesc × BitVec 32) :=
  Prog.loop fun s =>
    if s.1.write then pure (.inr (some s.1, s.2))
    else if !s.1.hasNext then pure (.inr (none, s.2 + s.1.len))
    else do
      let desc ← getDesc q s.1.next
      pure (.inl (desc, s.2 + s.1.len))

/-- The loop over the write descriptors: `write_size`, if there is no read descriptor after them. -/
def writeSizes (q : Fin maxQueue) : VirtioDesc × BitVec 32 → Dev δ (Option (BitVec 32)) :=
  Prog.loop fun s =>
    if !s.1.write then pure (.inr none)
    else if !s.1.hasNext then pure (.inr (some (s.2 + s.1.len)))
    else do
      let desc ← getDesc q s.1.next
      pure (.inl (desc, s.2 + s.1.len))

/-- `read_size` and `write_size`, where it returns 0. -/
def getDescRwSize (q : Fin maxQueue) (descIdx : BitVec 16) :
    Dev δ (Option (BitVec 32 × BitVec 32)) := do
  let desc ← getDesc q descIdx
  let (next, readSize) ← readSizes q (desc, 0)
  match next with
  | none => pure (some (readSize, 0))
  | some desc => do
    let writeSize ← writeSizes q (desc, 0)
    pure (writeSize.map fun w => (readSize, w))

/-- `device_recv`. -/
abbrev Recv (δ : Type) :=
  Fin maxQueue → BitVec 16 → BitVec 32 → BitVec 32 → Dev δ Int

def notifyRecv (recv : Recv δ) (q : Fin maxQueue) (descIdx : BitVec 16)
    (sizes : Option (BitVec 32 × BitVec 32)) : Dev δ Int :=
  match sizes with
  | none => pure 0
  | some (readSize, writeSize) => recv q descIdx readSize writeSize

def notifyRound (recv : Recv δ) (q : Fin maxQueue) (availIdx : BitVec 16) (_ : Unit) :
    Dev δ (Unit ⊕ Unit) := do
  let qs ← queueState q
  if qs.lastAvailIdx = availIdx then pure (.inr ())
  else do
    let descIdx ← virtioRead16
      (qs.availAddr + 4 + ((qs.lastAvailIdx.setWidth 32 &&& (qs.num - 1)) * 2).setWidth 64)
    let sizes ← getDescRwSize q descIdx
    let ret ← notifyRecv recv q descIdx sizes
    if ret < 0 then pure (.inr ())
    else do
      modifyCommon (.setQueue q fun qs => { qs with lastAvailIdx := qs.lastAvailIdx + 1 })
      pure (.inl ())

def queueNotify (recv : Recv δ) (q : Fin maxQueue) : Dev δ Unit := do
  let qs ← queueState q
  if qs.manualRecv then pure ()
  else do
    let availIdx ← virtioRead16 (qs.availAddr + 2)
    Prog.loop (notifyRound recv q availIdx) ()

/-! ### The registers -/

def virtioReset (s : VirtioDevice) : VirtioDevice :=
  { s with
    status := 0
    queueSel := 0
    deviceFeaturesSel := 0
    intStatus := 0
    queue := fun i =>
      { s.queue i with
        ready := 0
        num := maxQueueNum
        descAddr := 0
        availAddr := 0
        usedAddr := 0
        lastAvailIdx := 0 } }

/-- `virtio_init` without a PCI bus. -/
def virtioInit (deviceId configSpaceSize : BitVec 32) : VirtioDevice :=
  virtioReset
    { intStatus := 0
      status := 0
      deviceFeaturesSel := 0
      queueSel := 0
      queue := fun _ => ⟨0, 0, 0, 0, 0, 0, false⟩
      deviceId := deviceId
      vendorId := 0xffff
      deviceFeatures := 0
      configSpaceSize := configSpaceSize
      configSpace := fun _ => 0 }

/-- `get_le16` and `get_le32` of the configuration space. -/
def configBytes (s : VirtioDevice) (offset : BitVec 32) (n : ℕ) : BitVec 32 :=
  little 32 ((List.range n).map fun i => s.configSpace (offset.toNat + i))

/-- None where it calls `abort`. -/
def virtioConfigRead (s : VirtioDevice) (offset : BitVec 32) (sizeLog2 : ℕ) :
    Option (BitVec 32) :=
  match sizeLog2 with
  | 0 => some (if offset < s.configSpaceSize then configBytes s offset 1 else 0)
  | 1 => some (if offset < s.configSpaceSize - 1 then configBytes s offset 2 else 0)
  | 2 => some (if offset < s.configSpaceSize - 3 then configBytes s offset 4 else 0)
  | _ => none

/-- `put_le16` and `put_le32`. -/
def putConfig (s : VirtioDevice) (offset val : BitVec 32) (n : ℕ) : VirtioDevice :=
  { s with configSpace := put (offset.toNat, bytes val n) s.configSpace }

/-- `config_write` is null here. -/
def virtioConfigWrite (s : VirtioDevice) (offset val : BitVec 32) (sizeLog2 : ℕ) : VirtioDevice :=
  match sizeLog2 with
  | 0 => if offset < s.configSpaceSize then putConfig s offset val 1 else s
  | 1 => if offset < s.configSpaceSize - 1 then putConfig s offset val 2 else s
  | 2 => if offset < s.configSpaceSize - 3 then putConfig s offset val 4 else s
  | _ => s

/-- The `switch(offset)` of `virtio_mmio_read`. -/
def registerRead (s : VirtioDevice) (offset : BitVec 32) : BitVec 32 :=
  let qs := s.queue s.queueSel
  match offset.toNat with
  | 0x000 => 0x74726976
  | 0x004 => 2
  | 0x008 => s.deviceId
  | 0x00c => s.vendorId
  | 0x010 => if s.deviceFeaturesSel = 0 then s.deviceFeatures
    else if s.deviceFeaturesSel = 1 then 1 else 0
  | 0x014 => s.deviceFeaturesSel
  | 0x030 => BitVec.ofNat 32 s.queueSel
  | 0x034 => maxQueueNum
  | 0x038 => qs.num
  | 0x080 => qs.descAddr.setWidth 32
  | 0x090 => qs.availAddr.setWidth 32
  | 0x0a0 => qs.usedAddr.setWidth 32
  | 0x084 => (qs.descAddr >>> 32).setWidth 32
  | 0x094 => (qs.availAddr >>> 32).setWidth 32
  | 0x0a4 => (qs.usedAddr >>> 32).setWidth 32
  | 0x044 => qs.ready
  | 0x060 => s.intStatus
  | 0x070 => s.status
  | 0x0fc => 0
  | _ => 0

def virtioMmioRead (s : VirtioDevice) (offset : BitVec 32) (sizeLog2 : ℕ) : Option (BitVec 32) :=
  if offset ≥ 0x100 then virtioConfigRead s (offset - 0x100) sizeLog2
  else some (if sizeLog2 = 2 then registerRead s offset else 0)

def setLow32 (paddr : Word) (val : BitVec 32) : Word :=
  (paddr &&& ~~~ 0xffffffff) ||| val.setWidth 64

def setHigh32 (paddr : Word) (val : BitVec 32) : Word :=
  (paddr &&& 0xffffffff) ||| (val.setWidth 64 <<< 32)

def modifySelected (f : QueueState → QueueState) : Dev δ Unit :=
  modifyCommon fun s => s.setQueue s.queueSel f

def writeStatus (val : BitVec 32) : Dev δ Unit := do
  modifyCommon fun s => { s with status := val }
  if val = 0 then do
    setIrq false
    modifyCommon virtioReset
  else pure ()

def interruptAck (val : BitVec 32) : Dev δ Unit := do
  modifyCommon fun s => { s with intStatus := s.intStatus &&& ~~~ val }
  let intStatus ← Prog.reads fun x => x.common.intStatus
  if intStatus = 0 then setIrq false else pure ()

/-- The `switch(offset)` of `virtio_mmio_write`. -/
def registerWrite (recv : Recv δ) (offset val : BitVec 32) : Dev δ Unit :=
  match offset.toNat with
  | 0x014 => modifyCommon fun s => { s with deviceFeaturesSel := val }
  | 0x030 => modifyCommon fun s =>
    if h : val.toNat < maxQueue then { s with queueSel := ⟨val.toNat, h⟩ } else s
  | 0x038 => if val &&& (val - 1) = 0 ∧ val > 0 then modifySelected fun qs => { qs with num := val }
    else pure ()
  | 0x080 => modifySelected fun qs => { qs with descAddr := setLow32 qs.descAddr val }
  | 0x090 => modifySelected fun qs => { qs with availAddr := setLow32 qs.availAddr val }
  | 0x0a0 => modifySelected fun qs => { qs with usedAddr := setLow32 qs.usedAddr val }
  | 0x084 => modifySelected fun qs => { qs with descAddr := setHigh32 qs.descAddr val }
  | 0x094 => modifySelected fun qs => { qs with availAddr := setHigh32 qs.availAddr val }
  | 0x0a4 => modifySelected fun qs => { qs with usedAddr := setHigh32 qs.usedAddr val }
  | 0x070 => writeStatus val
  | 0x044 => modifySelected fun qs => { qs with ready := val &&& 1 }
  | 0x050 => if h : val.toNat < maxQueue then queueNotify recv ⟨val.toNat, h⟩ else pure ()
  | 0x064 => interruptAck val
  | _ => pure ()

def virtioMmioWrite (recv : Recv δ) (offset val : BitVec 32) (sizeLog2 : ℕ) : Dev δ Unit :=
  if offset ≥ 0x100 then
    modifyCommon fun s => virtioConfigWrite s (offset - 0x100) val sizeLog2
  else if sizeLog2 = 2 then registerWrite recv offset val
  else pure ()

end RiscvEmu
