import Mathlib.Data.BitVec
import Mathlib.Logic.Function.Basic

/-! The integer instructions of the RV64I base: their encodings, and what they do to the registers
and the program counter of a hart. -/

namespace Rv64i

abbrev Reg := BitVec 5

abbrev Xlen := BitVec 64

inductive Cond
  | eq | ne | lt | ge | ltu | geu

inductive ImmOp
  | addi | slti | sltiu | xori | ori | andi

inductive ShiftOp
  | sll | srl | sra

inductive RegOp
  | add | sub | sll | slt | sltu | xor | srl | sra | or | and

inductive RegOpW
  | addw | subw | sllw | srlw | sraw

/-- Jump and branch offsets are given without their lowest bit, which is zero. -/
inductive Instr
  | lui (rd : Reg) (imm : BitVec 20)
  | auipc (rd : Reg) (imm : BitVec 20)
  | jal (rd : Reg) (offset : BitVec 20)
  | jalr (rd rs1 : Reg) (imm : BitVec 12)
  | branch (c : Cond) (rs1 rs2 : Reg) (offset : BitVec 12)
  | opImm (o : ImmOp) (rd rs1 : Reg) (imm : BitVec 12)
  | shiftImm (o : ShiftOp) (rd rs1 : Reg) (shamt : BitVec 6)
  | op (o : RegOp) (rd rs1 rs2 : Reg)
  | addiw (rd rs1 : Reg) (imm : BitVec 12)
  | shiftImmW (o : ShiftOp) (rd rs1 : Reg) (shamt : BitVec 5)
  | opW (o : RegOpW) (rd rs1 rs2 : Reg)

/-! ### Encodings -/

def rType (f7 : BitVec 7) (rs2 rs1 : Reg) (f3 : BitVec 3) (rd : Reg) (opc : BitVec 7) : BitVec 32 :=
  f7 ++ rs2 ++ rs1 ++ f3 ++ rd ++ opc

def iType (imm : BitVec 12) (rs1 : Reg) (f3 : BitVec 3) (rd : Reg) (opc : BitVec 7) : BitVec 32 :=
  imm ++ rs1 ++ f3 ++ rd ++ opc

def sType (imm : BitVec 12) (rs2 rs1 : Reg) (f3 : BitVec 3) (opc : BitVec 7) : BitVec 32 :=
  imm.extractLsb' 5 7 ++ rs2 ++ rs1 ++ f3 ++ imm.extractLsb' 0 5 ++ opc

/-- The immediate is an offset without its lowest bit. -/
def bType (imm : BitVec 12) (rs2 rs1 : Reg) (f3 : BitVec 3) (opc : BitVec 7) : BitVec 32 :=
  imm.extractLsb' 11 1 ++ imm.extractLsb' 4 6 ++ rs2 ++ rs1 ++ f3 ++ imm.extractLsb' 0 4 ++
    imm.extractLsb' 10 1 ++ opc

def uType (imm : BitVec 20) (rd : Reg) (opc : BitVec 7) : BitVec 32 := imm ++ rd ++ opc

def jType (imm : BitVec 20) (rd : Reg) (opc : BitVec 7) : BitVec 32 :=
  imm.extractLsb' 19 1 ++ imm.extractLsb' 0 10 ++ imm.extractLsb' 10 1 ++ imm.extractLsb' 11 8 ++
    rd ++ opc

def Cond.funct3 : Cond → BitVec 3
  | .eq => 0b000
  | .ne => 0b001
  | .lt => 0b100
  | .ge => 0b101
  | .ltu => 0b110
  | .geu => 0b111

def ImmOp.funct3 : ImmOp → BitVec 3
  | .addi => 0b000
  | .slti => 0b010
  | .sltiu => 0b011
  | .xori => 0b100
  | .ori => 0b110
  | .andi => 0b111

def ShiftOp.funct3 : ShiftOp → BitVec 3
  | .sll => 0b001
  | .srl | .sra => 0b101

def ShiftOp.funct6 : ShiftOp → BitVec 6
  | .sll | .srl => 0b000000
  | .sra => 0b010000

def RegOp.funct3 : RegOp → BitVec 3
  | .add | .sub => 0b000
  | .sll => 0b001
  | .slt => 0b010
  | .sltu => 0b011
  | .xor => 0b100
  | .srl | .sra => 0b101
  | .or => 0b110
  | .and => 0b111

def RegOp.funct7 : RegOp → BitVec 7
  | .sub | .sra => 0b0100000
  | _ => 0b0000000

def RegOpW.funct3 : RegOpW → BitVec 3
  | .addw | .subw => 0b000
  | .sllw => 0b001
  | .srlw | .sraw => 0b101

def RegOpW.funct7 : RegOpW → BitVec 7
  | .subw | .sraw => 0b0100000
  | _ => 0b0000000

def encode : Instr → BitVec 32
  | .lui rd imm => uType imm rd 0b0110111
  | .auipc rd imm => uType imm rd 0b0010111
  | .jal rd offset => jType offset rd 0b1101111
  | .jalr rd rs1 imm => iType imm rs1 0b000 rd 0b1100111
  | .branch c rs1 rs2 offset => bType offset rs2 rs1 c.funct3 0b1100011
  | .opImm o rd rs1 imm => iType imm rs1 o.funct3 rd 0b0010011
  | .shiftImm o rd rs1 shamt => iType (o.funct6 ++ shamt) rs1 o.funct3 rd 0b0010011
  | .op o rd rs1 rs2 => rType o.funct7 rs2 rs1 o.funct3 rd 0b0110011
  | .addiw rd rs1 imm => iType imm rs1 0b000 rd 0b0011011
  | .shiftImmW o rd rs1 shamt => iType (o.funct6 ++ 0#1 ++ shamt) rs1 o.funct3 rd 0b0011011
  | .opW o rd rs1 rs2 => rType o.funct7 rs2 rs1 o.funct3 rd 0b0111011

/-! ### Execution -/

structure Hart where
  x : Reg → Xlen
  pc : Xlen

namespace Hart

def read (h : Hart) (r : Reg) : Xlen := if r = 0 then 0 else h.x r

def result (h : Hart) (rd : Reg) (v : Xlen) : Hart := ⟨Function.update h.x rd v, h.pc + 4⟩

def goto (x : Reg → Xlen) (target : Xlen) : Option Hart :=
  if target &&& 3 = 0 then some ⟨x, target⟩ else none

def link (h : Hart) (rd : Reg) (target : Xlen) : Option Hart :=
  goto (Function.update h.x rd (h.pc + 4)) target

end Hart

def Cond.test (c : Cond) (a b : Xlen) : Bool :=
  match c with
  | .eq => a = b
  | .ne => a ≠ b
  | .lt => a.slt b
  | .ge => !a.slt b
  | .ltu => a.ult b
  | .geu => !a.ult b

def ImmOp.eval (o : ImmOp) (a b : Xlen) : Xlen :=
  match o with
  | .addi => a + b
  | .slti => if a.slt b then 1 else 0
  | .sltiu => if a.ult b then 1 else 0
  | .xori => a ^^^ b
  | .ori => a ||| b
  | .andi => a &&& b

def ShiftOp.eval {w : ℕ} (o : ShiftOp) (a : BitVec w) (n : ℕ) : BitVec w :=
  match o with
  | .sll => a <<< n
  | .srl => a >>> n
  | .sra => a.sshiftRight n

def RegOp.eval (o : RegOp) (a b : Xlen) : Xlen :=
  match o with
  | .add => a + b
  | .sub => a - b
  | .sll => a <<< (b.extractLsb' 0 6).toNat
  | .slt => if a.slt b then 1 else 0
  | .sltu => if a.ult b then 1 else 0
  | .xor => a ^^^ b
  | .srl => a >>> (b.extractLsb' 0 6).toNat
  | .sra => a.sshiftRight (b.extractLsb' 0 6).toNat
  | .or => a ||| b
  | .and => a &&& b

def RegOpW.eval (o : RegOpW) (a b : BitVec 32) : BitVec 32 :=
  match o with
  | .addw => a + b
  | .subw => a - b
  | .sllw => a <<< (b.extractLsb' 0 5).toNat
  | .srlw => a >>> (b.extractLsb' 0 5).toNat
  | .sraw => a.sshiftRight (b.extractLsb' 0 5).toNat

def exec (i : Instr) (h : Hart) : Option Hart :=
  match i with
  | .lui rd imm => some (h.result rd ((imm ++ 0#12).signExtend 64))
  | .auipc rd imm => some (h.result rd (h.pc + (imm ++ 0#12).signExtend 64))
  | .jal rd offset => h.link rd (h.pc + (offset ++ 0#1).signExtend 64)
  | .jalr rd rs1 imm => h.link rd ((h.read rs1 + imm.signExtend 64) &&& ~~~1)
  | .branch c rs1 rs2 offset =>
    if c.test (h.read rs1) (h.read rs2) then
      Hart.goto h.x (h.pc + (offset ++ 0#1).signExtend 64)
    else some ⟨h.x, h.pc + 4⟩
  | .opImm o rd rs1 imm => some (h.result rd (o.eval (h.read rs1) (imm.signExtend 64)))
  | .shiftImm o rd rs1 shamt => some (h.result rd (o.eval (h.read rs1) shamt.toNat))
  | .op o rd rs1 rs2 => some (h.result rd (o.eval (h.read rs1) (h.read rs2)))
  | .addiw rd rs1 imm =>
    some (h.result rd (((h.read rs1 + imm.signExtend 64).setWidth 32).signExtend 64))
  | .shiftImmW o rd rs1 shamt =>
    some (h.result rd ((o.eval ((h.read rs1).setWidth 32) shamt.toNat).signExtend 64))
  | .opW o rd rs1 rs2 =>
    some (h.result rd
      ((o.eval ((h.read rs1).setWidth 32) ((h.read rs2).setWidth 32)).signExtend 64))

end Rv64i
