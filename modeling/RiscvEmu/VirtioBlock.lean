import RiscvEmu.BlockFile

/-! The block device of `temu/virtio.c`: what it adds to the common part, and its `device_recv`. -/

namespace RiscvEmu

open Bytes Programs

structure BlockRequest where
  type : BitVec 32
  buf : List Byte
  writeSize : BitVec 32
  queueIdx : Fin maxQueue
  descIdx : BitVec 16

/-- `VIRTIOBlockDevice`, without the common part. -/
structure BlockState (β : Type) where
  bs : β
  reqInProgress : Bool
  req : BlockRequest

/-- `BlockRequestHeader`, without `ioprio`. -/
structure BlockRequestHeader where
  type : BitVec 32
  sectorNum : Word

def BlockRequestHeader.ofBytes (b : List Byte) : BlockRequestHeader where
  type := little 32 (b.take 4)
  sectorNum := little 64 ((b.drop 8).take 8)

def virtioBlkTIn : BitVec 32 := 0
def virtioBlkTOut : BitVec 32 := 1
def virtioBlkSOk : Byte := 0
def virtioBlkSIoerr : Byte := 1

variable {β : Type}

def modifyReq (f : BlockRequest → BlockRequest) : Dev (BlockState β) Unit :=
  Prog.modify fun x => { x with ext := { x.ext with req := f x.ext.req } }

def setInProgress (b : Bool) : Dev (BlockState β) Unit :=
  Prog.modify fun x => { x with ext := { x.ext with reqInProgress := b } }

def setBs (bs : β) : Dev (BlockState β) Unit :=
  Prog.modify fun x => { x with ext := { x.ext with bs := bs } }

def blockStatus (ret : Int) : Byte := if ret < 0 then virtioBlkSIoerr else virtioBlkSOk

/-- A read puts the status into the last byte of its buffer, which has none for a size of zero. -/
def virtioBlockReqEnd (ret : Int) : Dev (BlockState β) Unit := do
  let req ← Prog.reads fun x => x.ext.req
  if req.type = virtioBlkTIn then
    if req.writeSize.toInt ≤ 0 then Prog.fail .undefined
    else do
      memcpyToQueue req.queueIdx req.descIdx 0
        (req.buf.set (req.writeSize.toInt.toNat - 1) (blockStatus ret)) req.writeSize
      virtioConsumeDesc req.queueIdx req.descIdx req.writeSize
  else if req.type = virtioBlkTOut then do
    memcpyToQueue req.queueIdx req.descIdx 0 [blockStatus ret] 1
    virtioConsumeDesc req.queueIdx req.descIdx 1
  else Prog.fail .abort

section

variable (bd : BlockDevice β) (heap : ℕ → Byte)

/-- The buffer that `malloc` gives, with whatever it finds there. -/
def malloc (size : BitVec 32) : List Byte := (List.range size.toInt.toNat).map heap

/-- What follows a call of the block device: it goes on later, or the request is at its end. -/
def blockRet (ret : Int) : Dev (BlockState β) Unit :=
  if ret > 0 then setInProgress true else virtioBlockReqEnd ret

def recvIn (writeSize : BitVec 32) (sectorNum : Word) : Dev (BlockState β) Unit := do
  modifyReq fun req => { req with writeSize := writeSize }
  let bs ← Prog.reads fun x => x.ext.bs
  match bd.readAsync sectorNum (malloc heap writeSize) ((writeSize - 1).toInt.tdiv 512) bs with
  | none => Prog.fail .undefined
  | some (ret, buf, bs) => do
    setBs bs
    modifyReq fun req => { req with buf := buf }
    blockRet ret

def recvOut (q : Fin maxQueue) (descIdx : BitVec 16) (readSize writeSize : BitVec 32)
    (sectorNum : Word) : Dev (BlockState β) Unit :=
  if writeSize.toInt < 1 then Prog.fail .abort
  else do
    let len := readSize - 16
    let (_, got) ← memcpyFromQueue q descIdx 16 len
    let buf := got ++ (malloc heap len).drop got.length
    let bs ← Prog.reads fun x => x.ext.bs
    match bd.writeAsync sectorNum buf (len.toInt.tdiv 512) bs with
    | none => Prog.fail .undefined
    | some (ret, bs) => do
      setBs bs
      blockRet ret

/-- The `switch` of `virtio_block_recv_request`. -/
def recvSwitch (q : Fin maxQueue) (descIdx : BitVec 16) (readSize writeSize : BitVec 32)
    (h : BlockRequestHeader) : Dev (BlockState β) Unit :=
  if h.type = virtioBlkTIn then recvIn bd heap writeSize h.sectorNum
  else if h.type = virtioBlkTOut then recvOut bd heap q descIdx readSize writeSize h.sectorNum
  else pure ()

end

variable (bd : BlockDevice β) (heap : BitVec 16 → ℕ → Byte)

/-- The calls of `malloc` are told apart by the index of the chain in the available ring. -/
def virtioBlockRecvRequest : Recv (BlockState β) := fun q descIdx readSize writeSize => do
  let inProgress ← Prog.reads fun x => x.ext.reqInProgress
  if inProgress then pure (-1)
  else do
    let (ok, bytes) ← memcpyFromQueue q descIdx 0 16
    if !ok then pure 0
    else do
      let h := BlockRequestHeader.ofBytes bytes
      modifyReq fun req => { req with type := h.type, queueIdx := q, descIdx := descIdx }
      let qs ← queueState q
      recvSwitch bd (heap qs.lastAvailIdx) q descIdx readSize writeSize h
      pure 0

/-- The end of a request that went on, after which the next ones are handled. -/
def virtioBlockReqCb (ret : Int) : Dev (BlockState β) Unit := do
  virtioBlockReqEnd ret
  setInProgress false
  let q ← Prog.reads fun x => x.ext.req.queueIdx
  queueNotify (virtioBlockRecvRequest bd heap) q

def blockWrite (offset val : BitVec 32) : Dev (BlockState β) Unit :=
  virtioMmioWrite (virtioBlockRecvRequest bd heap) offset val 2

/-- `virtio_block_init`: the common part. -/
def virtioBlockInit (bd : BlockDevice β) (bs : β) : VirtioDevice :=
  let s := virtioInit 2 8
  { s with configSpace := put (0, bytes (bd.getSectorCount bs) 8) s.configSpace }

theorem maxQueue_pos : 0 < maxQueue := by decide

def BlockState.initial (bs : β) : BlockState β := ⟨bs, false, ⟨0, [], 0, ⟨0, maxQueue_pos⟩, 0⟩⟩

end RiscvEmu
