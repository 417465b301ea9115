import RiscvEmu.State

/-! Sv39 address translation: `sv39va_t`, `sv39pa_t`, `sv39pte_t` and `translate`. -/

namespace RiscvEmu

inductive Ttype
  | inst | load | stor
  deriving DecidableEq

structure Sv39va where
  pageOffset : BitVec 16
  vpn0 : BitVec 16
  vpn1 : BitVec 16
  vpn2 : BitVec 16

def Sv39va.writeReg (val : Word) : Sv39va where
  pageOffset := (val &&& 0xFFF).setWidth 16
  vpn0 := ((val >>> 12) &&& 0x1FF).setWidth 16
  vpn1 := ((val >>> 21) &&& 0x1FF).setWidth 16
  vpn2 := ((val >>> 30) &&& 0x1FF).setWidth 16

structure Sv39pa where
  pageOffset : BitVec 16
  ppn0 : BitVec 16
  ppn1 : BitVec 16
  ppn2 : BitVec 32

/-- The sum is an `unsigned int`, since `PPN2` is a `uint32_t` and the other fields promote to
`int`. -/
def Sv39pa.readReg (p : Sv39pa) : Word :=
  ((p.ppn2 &&& 0x3FFFFFF) <<< 30 + (p.ppn1 &&& 0x1FF).setWidth 32 <<< 21 +
    (p.ppn0 &&& 0x1FF).setWidth 32 <<< 12 + (p.pageOffset &&& 0xFFF).setWidth 32).setWidth 64

/-- `sv39pte_t`, without the fields that `translate` never reads. -/
structure Sv39pte where
  d : Byte
  a : Byte
  x : Byte
  w : Byte
  r : Byte
  v : Byte
  ppn0 : BitVec 16
  ppn1 : BitVec 16
  ppn2 : BitVec 32
  ppn : Word

/-- `PPN` is the 64-bit value of a 32-bit sum. -/
def Sv39pte.writeReg (val : Word) : Sv39pte where
  d := bit1 val 7
  a := bit1 val 6
  x := bit1 val 3
  w := bit1 val 2
  r := bit1 val 1
  v := bit1 val 0
  ppn0 := ((val >>> 10) &&& 0x1FF).setWidth 16
  ppn1 := ((val >>> 19) &&& 0x1FF).setWidth 16
  ppn2 := ((val >>> 28) &&& 0x3FFFFFF).setWidth 32
  ppn := (((val >>> 28) &&& 0x3FFFFFF).setWidth 32 <<< 18 +
    (((val >>> 19) &&& 0x1FF).setWidth 16).setWidth 32 <<< 9 +
    (((val >>> 10) &&& 0x1FF).setWidth 16).setWidth 32 : BitVec 32).setWidth 64

/-- `R == 0` and `W == 1`, or `V == 0`. -/
def Sv39pte.invalid (p : Sv39pte) : Bool := p.v = 0 ∨ (p.r = 0 ∧ p.w = 1)

def Sv39pte.leaf (p : Sv39pte) : Bool := p.r = 1 ∨ p.x = 1

/-- The page-table read that each level of `translate` repeats: below `DRAM_BASE` it only prints an
error. -/
def readPte (mem : Memory) (a : Word) (vpn : BitVec 16) : Option Sv39pte :=
  let pteAddr := a + vpn.setWidth 64 * 8
  let pteAddr := if pteAddr ≥ dramBase then pteAddr - dramBase else pteAddr
  (cell? (pteAddr / 8)).map fun c => Sv39pte.writeReg (mem c)

def finishLeaf (ty : Ttype) (pte : Sv39pte) (pa : Sv39pa) : Word :=
  if ty = .stor ∧ (pte.a = 0 ∨ pte.d = 0) then -1
  else if (ty = .inst ∨ ty = .load) ∧ pte.a = 0 then -1
  else if ty = .stor ∧ pte.w = 0 then -1
  else pa.readReg

/-- The `case 8` body after the bypass tests. -/
def walk (c : Csrs) (mem : Memory) (virtualAddr : Word) (ty : Ttype) : Except Halt Word :=
  let va := Sv39va.writeReg virtualAddr
  match readPte mem (c.satp.ppn * 4096) va.vpn2 with
  | none => .error .outOfRange
  | some pte2 =>
    if pte2.invalid then .ok (-1)
    else if pte2.leaf then .ok (finishLeaf ty pte2 ⟨va.pageOffset, va.vpn0, va.vpn1, pte2.ppn2⟩)
    else match readPte mem (pte2.ppn * 4096) va.vpn1 with
      | none => .error .outOfRange
      | some pte1 =>
        if pte1.invalid then .ok (-1)
        else if pte1.leaf then
          .ok (finishLeaf ty pte1 ⟨va.pageOffset, va.vpn0, pte1.ppn1, pte1.ppn2⟩)
        else match readPte mem (pte1.ppn * 4096) va.vpn0 with
          | none => .error .outOfRange
          | some pte0 =>
            if pte0.invalid then .ok (-1)
            else if pte0.leaf then
              .ok (finishLeaf ty pte0 ⟨va.pageOffset, pte0.ppn0, pte0.ppn1, pte0.ppn2⟩)
            else .ok (-1)

def translate (c : Csrs) (mem : Memory) (virtualAddr : Word) (ty : Ttype) (current : Plevel) :
    Except Halt Word :=
  match c.satp.mode.toNat with
  | 0 => .ok virtualAddr
  | 8 =>
    if current = .mmode ∧ c.mstatus.mprv = 0 then .ok virtualAddr
    else if current = .mmode ∧ c.mstatus.mprv = 1 ∧ ty = .inst then .ok virtualAddr
    else if c.mstatus.mprv = 1 ∧ c.mstatus.mpp = 3 then .ok virtualAddr
    else walk c mem virtualAddr ty
  | 9 => .error (.exit 0)
  | _ => .ok (-1)

end RiscvEmu
