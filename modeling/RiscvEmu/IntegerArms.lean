import RiscvEmu.State

/-! The arms of the opcode `switch` that work on the register file and the PC: `lui`, `auipc`,
`jump`, `jumpr`, `cjump`, `iops`, `iops64`, `rops` and `rops64`. On entry `PC` has already been
advanced by 4. -/

namespace RiscvEmu

def armLui (ins : Word) (s : State) : State :=
  s.writeBack ins (signExtend (ins &&& 0xFFFFF000) 32)

def armAuipc (ins : Word) (s : State) : State :=
  s.writeBack ins ((s.pc - 4) + signExtend (imm31_12 ins <<< 12) 32)

def armJump (ins : Word) (s : State) : State :=
  let wb := s.pc
  ({ s with pc := (s.pc - 4) + signExtend (immJ ins) 21 }).writeBack ins wb

def armJumpr (ins : Word) (s : State) : State :=
  let wb := s.pc
  ({ s with pc := (s.reg (rs1 ins) + signExtend (imm11_0 ins) 12) &&& 0xFFFFFFFFFFFFFFFE }).writeBack
    ins wb

/-- The value of `branch` after the `switch(func3)`; the default arm leaves it alone. -/
def branchTest (ins : Word) (s : State) : Bool :=
  let a := s.reg (rs1 ins)
  let b := s.reg (rs2 ins)
  match (func3 ins).toNat with
  | 0b000 => a = b
  | 0b001 => a ≠ b
  | 0b100 => signedValue a < signedValue b
  | 0b101 => signedValue a ≥ signedValue b
  | 0b110 => a < b
  | 0b111 => a ≥ b
  | _ => s.branch

def armCjump (ins : Word) (s : State) : State :=
  let s := { s with branch := branchTest ins s }
  if s.branch then { s with pc := s.pc - 4 + signExtend (immB ins) 13 } else s

/-- `for (itr=0; itr<n; itr++) wb_data = (wb_data & msb) | (wb_data >> 1)`. -/
def shiftLoop (msb : Word) : Nat → Word → Word
  | 0, wb => wb
  | n + 1, wb => shiftLoop msb n ((wb &&& msb) ||| (wb >>> 1))

/-- The arm's `wb_data` and `itr`. -/
def iopsValue (ins : Word) (s : State) : Word × Word :=
  let a := s.reg (rs1 ins)
  let imm := signExtend (imm11_0 ins) 12
  let shamt := imm11_0 ins &&& 0b111111
  match (func3 ins).toNat with
  | 0b000 => (a + imm, s.itr)
  | 0b010 => (if signedValue a < signedValue imm then 1 else 0, s.itr)
  | 0b011 => (if a < imm then 1 else 0, s.itr)
  | 0b111 => (a &&& imm, s.itr)
  | 0b110 => (a ||| imm, s.itr)
  | 0b100 => (a ^^^ imm, s.itr)
  | 0b001 => (a <<< shamt, s.itr)
  | 0b101 =>
    if func7 ins >>> 1 = 0b000000 then (a >>> shamt, s.itr)
    else if func7 ins >>> 1 = 0b010000 then (shiftLoop (1 <<< 63) shamt.toNat a, shamt)
    else (s.wbData, s.itr)
  | _ => (s.wbData, s.itr)

def armIops (ins : Word) (s : State) : State :=
  let (wb, itr) := iopsValue ins s
  ({ s with itr := itr }).writeBack ins wb

def iops64Value (ins : Word) (s : State) : Word × Word :=
  let a := s.reg (rs1 ins)
  let shamt := imm11_0 ins &&& 0b11111
  match (func3 ins).toNat with
  | 0b000 => (signExtend (mask32 &&& (a + signExtend (imm11_0 ins) 12)) 32, s.itr)
  | 0b001 => (signExtend (mask32 &&& (a <<< shamt)) 32, s.itr)
  | 0b101 =>
    if func7 ins >>> 1 = 0b000000 then
      (signExtend (mask32 &&& ((a &&& mask32) >>> shamt)) 32, s.itr)
    else if func7 ins >>> 1 = 0b010000 then
      (signExtend (mask32 &&& shiftLoop (1 <<< 31) shamt.toNat (a &&& mask32)) 32, shamt)
    else (s.wbData, s.itr)
  | _ => (s.wbData, s.itr)

def armIops64 (ins : Word) (s : State) : State :=
  let (wb, itr) := iops64Value ins s
  ({ s with itr := itr }).writeBack ins wb

/-- `mult_temp` for `MUL`, `MULH`, `MULHSU` and `MULHU`. -/
def multTemp (ins : Word) (s : State) : BitVec 128 :=
  let a := s.reg (rs1 ins)
  let b := s.reg (rs2 ins)
  match (func3 ins).toNat with
  | 0b000 => (a * b).setWidth 128
  | 0b001 => BitVec.ofInt 128 (signedValue a) * BitVec.ofInt 128 (signedValue b)
  | 0b010 => BitVec.ofInt 128 (signedValue a) * b.setWidth 128
  | _ => a.setWidth 128 * b.setWidth 128

def divValue (ins : Word) (s : State) : Option Int :=
  let a := s.reg (rs1 ins)
  let b := s.reg (rs2 ins)
  match (func3 ins).toNat with
  | 0b100 => divi int64 (signedValue a) (signedValue b) 0
  | 0b101 => divi uint64 a.toNat b.toNat 1
  | 0b110 => divi int64 (signedValue a) (signedValue b) 2
  | _ => divi uint64 a.toNat b.toNat 3

/-- The M-extension half of `case rops`. -/
def ropsMul (ins : Word) (s : State) : Res :=
  match (func3 ins).toNat with
  | 0b000 =>
    let s := { s with multTemp := multTemp ins s }
    .fall (s.setReg (rd ins) ((s.multTemp &&& mask64.setWidth 128).setWidth 64))
  | 0b001 | 0b010 | 0b011 =>
    let s := { s with multTemp := multTemp ins s }
    .fall (s.setReg (rd ins) (((s.multTemp >>> 64) &&& mask64.setWidth 128).setWidth 64))
  | _ =>
    match divValue ins s with
    | none => .stop .undefined s
    | some q => .fall (s.setReg (rd ins) (BitVec.ofInt 64 q))

def ropsValue (ins : Word) (s : State) : Word :=
  let a := s.reg (rs1 ins)
  let b := s.reg (rs2 ins)
  match (func3 ins).toNat with
  | 0b000 => a + b
  | 0b010 => if signedValue a < signedValue b then 1 else 0
  | 0b011 => if a < b then 1 else 0
  | 0b111 => a &&& b
  | 0b110 => a ||| b
  | 0b100 => a ^^^ b
  | 0b001 => a <<< (b &&& 0b111111)
  | 0b101 => a >>> (b &&& 0b111111)
  | _ => s.wbData

def ropsValue2 (ins : Word) (s : State) : Word × Word :=
  let a := s.reg (rs1 ins)
  let b := s.reg (rs2 ins)
  match (func3 ins).toNat with
  | 0b000 => (a - b, s.itr)
  | 0b101 => (shiftLoop (1 <<< 63) (b &&& 0b111111).toNat a, b &&& 0b111111)
  | _ => (s.wbData, s.itr)

def armRops (ins : Word) (s : State) : Res :=
  if func7 ins = 0b0000001 then ropsMul ins s
  else if func7 ins = 0b0000000 then .fall (s.writeBack ins (ropsValue ins s))
  else if func7 ins = 0b0100000 then
    let (wb, itr) := ropsValue2 ins s
    .fall (({ s with itr := itr }).writeBack ins wb)
  else .fall s

/-- `DIVW`, `DIVUW`, `REMW` and `REMUW`; the arguments narrow to the template's type. -/
def div32Value (ins : Word) (s : State) : Option Word :=
  let a := s.reg (rs1 ins)
  let b := s.reg (rs2 ins)
  match (func3 ins).toNat with
  | 0b100 =>
    (divi32 int32 (signedValue32 (a &&& mask32)) (signedValue32 (b &&& mask32)) 0).map fun q =>
      signExtend (mask32 &&& BitVec.ofInt 64 q) 32
  | 0b101 =>
    (divi32 uint32 (uint32.wrap a.toNat) (uint32.wrap b.toNat) 1).map fun q =>
      signExtend (BitVec.ofInt 64 q) 32
  | 0b110 =>
    (divi32 int32 (signedValue32 a) (signedValue32 b) 2).map fun q =>
      signExtend (BitVec.ofInt 64 q &&& mask32) 32
  | _ =>
    (divi32 uint32 (uint32.wrap a.toNat) (uint32.wrap b.toNat) 3).map fun q =>
      signExtend (BitVec.ofInt 64 q) 32

/-- The M-extension half of `case rops64`; `func3` 1 to 3 leave `wb_data` alone. -/
def rops64Mul (ins : Word) (s : State) : Res :=
  match (func3 ins).toNat with
  | 0b000 =>
    .fall (s.writeBack ins
      (signExtend (((s.reg (rs1 ins) &&& mask32) * (s.reg (rs2 ins) &&& mask32)) &&& mask32) 32))
  | 0b100 | 0b101 | 0b110 | 0b111 =>
    match div32Value ins s with
    | none => .stop .undefined s
    | some wb => .fall (s.writeBack ins wb)
  | _ => .fall (s.writeBack ins s.wbData)

def rops64Value (ins : Word) (s : State) : Word :=
  let a := s.reg (rs1 ins)
  let b := s.reg (rs2 ins)
  match (func3 ins).toNat with
  | 0b000 => signExtend ((a + b) &&& mask32) 32
  | 0b001 => signExtend ((a <<< (b &&& 0b11111)) &&& mask32) 32
  | 0b101 => signExtend ((a &&& mask32) >>> (b &&& 0b11111)) 32
  | _ => s.wbData

def rops64Value2 (ins : Word) (s : State) : Word × Word :=
  let a := s.reg (rs1 ins)
  let b := s.reg (rs2 ins)
  match (func3 ins).toNat with
  | 0b000 => (signExtend (((a &&& mask32) - (b &&& mask32)) &&& mask32) 32, s.itr)
  | 0b101 =>
    (signExtend (shiftLoop (1 <<< 31) (b &&& 0b11111).toNat (a &&& mask32)) 32, b &&& 0b11111)
  | _ => (s.wbData, s.itr)

def armRops64 (ins : Word) (s : State) : Res :=
  if func7 ins = 0b0000001 then rops64Mul ins s
  else if func7 ins = 0b0000000 then .fall (s.writeBack ins (rops64Value ins s))
  else if func7 ins = 0b0100000 then
    let (wb, itr) := rops64Value2 ins s
    .fall (({ s with itr := itr }).writeBack ins wb)
  else .fall s

end RiscvEmu
