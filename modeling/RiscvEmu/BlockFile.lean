import RiscvEmu.Virtio

/-! The block device over a file of the host: `bf_read_async`, `bf_write_async` and
`block_device_init` of `temu/temu.c`, over the `stdio` calls that they make. -/

namespace RiscvEmu

open Bytes

def sectorSize : ℕ := 512

/-- A block device, as `struct BlockDevice` gives it to its user: a read gets the buffer and gives
back its new contents, and each gives `ret`. None stands for an access that C leaves undefined. -/
structure BlockDevice (β : Type) where
  getSectorCount : β → BitVec 64
  readAsync : Word → List Byte → Int → β → Option (Int × List Byte × β)
  writeAsync : Word → List Byte → Int → β → Option (Int × β)

/-! ### Files -/

structure HostFile where
  contents : List Byte
  pos : ℕ
  deriving DecidableEq

namespace HostFile

/-- `fseek` from the start of the file, which fails for a negative `long` and then moves nothing. -/
def fseek (offset : Word) (f : HostFile) : HostFile :=
  if offset.slt 0 then f else { f with pos := offset.toNat }

/-- `fread` of `n` bytes into a buffer: what there is up to the end of the file. -/
def fread (buf : List Byte) (n : ℕ) (f : HostFile) : List Byte × HostFile :=
  let got := (f.contents.drop f.pos).take n
  (got ++ buf.drop got.length, { f with pos := f.pos + got.length })

/-- `fwrite`, which fills a gap behind the end of the file with zeros. -/
def fwrite (data : List Byte) (f : HostFile) : HostFile :=
  if data = [] then f
  else
    { contents := f.contents.take f.pos ++ List.replicate (f.pos - f.contents.length) 0 ++ data ++
        f.contents.drop (f.pos + data.length)
      pos := f.pos + data.length }

end HostFile

/-! ### `BlockDeviceFile` -/

inductive BlockDeviceMode
  | ro | rw | snapshot
  deriving DecidableEq

structure BlockDeviceFile where
  f : HostFile
  nbSectors : BitVec 64
  mode : BlockDeviceMode
  sectorTable : ℕ → Option (List Byte)

def bfGetSectorCount (bf : BlockDeviceFile) : BitVec 64 := bf.nbSectors

def seekSector (sectorNum : Word) (f : HostFile) : HostFile :=
  f.fseek (sectorNum * BitVec.ofNat 64 sectorSize)

def snapshotRead (sectorNum : Word) (buf : List Byte) (bf : BlockDeviceFile) :
    Option (List Byte × BlockDeviceFile) :=
  if bf.nbSectors ≤ sectorNum then none
  else match bf.sectorTable sectorNum.toNat with
    | none =>
      let (got, f) := (seekSector sectorNum bf.f).fread buf sectorSize
      some (got, { bf with f := f })
    | some sector => some (sector ++ buf.drop sectorSize, bf)

/-- The loop that reads in snapshot mode, with `n` rounds left and the buffer from the sector on. -/
def snapshotReads : ℕ → Word → List Byte → BlockDeviceFile →
    Option (List Byte × BlockDeviceFile)
  | 0, _, buf, bf => some (buf, bf)
  | n + 1, sectorNum, buf, bf =>
    match snapshotRead sectorNum buf bf with
    | none => none
    | some (buf, bf) =>
      (snapshotReads n (sectorNum + 1) (buf.drop sectorSize) bf).map fun r =>
        (buf.take sectorSize ++ r.1, r.2)

/-- It is undefined where the sectors do not fit into the buffer, and for a negative number of them,
which is a large one for `fread`. -/
def bfReadAsync (sectorNum : Word) (buf : List Byte) (n : Int) (bf : BlockDeviceFile) :
    Option (Int × List Byte × BlockDeviceFile) :=
  if bf.mode = .snapshot then
    if buf.length < n.toNat * sectorSize then none
    else (snapshotReads n.toNat sectorNum buf bf).map fun r => (0, r)
  else if n < 0 ∨ buf.length < n.toNat * sectorSize then none
  else
    let (got, f) := (seekSector sectorNum bf.f).fread buf (n.toNat * sectorSize)
    some (0, got, { bf with f := f })

def BlockDeviceFile.setSector (i : ℕ) (sector : List Byte) (bf : BlockDeviceFile) :
    BlockDeviceFile :=
  { bf with sectorTable := Function.update bf.sectorTable i (some sector) }

def snapshotWrites : ℕ → Word → List Byte → BlockDeviceFile → Option BlockDeviceFile
  | 0, _, _, bf => some bf
  | n + 1, sectorNum, buf, bf =>
    if bf.nbSectors ≤ sectorNum then none
    else snapshotWrites n (sectorNum + 1) (buf.drop sectorSize)
      (bf.setSector sectorNum.toNat (buf.take sectorSize))

def bfWriteAsync (sectorNum : Word) (buf : List Byte) (n : Int) (bf : BlockDeviceFile) :
    Option (Int × BlockDeviceFile) :=
  match bf.mode with
  | .ro => some (-1, bf)
  | .rw =>
    if n < 0 ∨ buf.length < n.toNat * sectorSize then none
    else some (0, { bf with
      f := (seekSector sectorNum bf.f).fwrite (buf.take (n.toNat * sectorSize)) })
  | .snapshot =>
    if sectorNum + BitVec.ofInt 64 n > bf.nbSectors then some (-1, bf)
    else if buf.length < n.toNat * sectorSize then none
    else (snapshotWrites n.toNat sectorNum buf bf).map fun bf => (0, bf)

/-- `block_device_init`, for a file that it can open. -/
def blockDeviceInit (contents : List Byte) (mode : BlockDeviceMode) : BlockDeviceFile where
  f := ⟨contents, contents.length⟩
  nbSectors := BitVec.ofNat 64 (contents.length / 512)
  mode := mode
  sectorTable := fun _ => none

def fileDevice : BlockDevice BlockDeviceFile := ⟨bfGetSectorCount, bfReadAsync, bfWriteAsync⟩

end RiscvEmu
