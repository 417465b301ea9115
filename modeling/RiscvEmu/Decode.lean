import RiscvEmu.Basic

/-! The decode stage of the loop body: opcode and instruction fields of the fetched word. -/

namespace RiscvEmu

/-- `opcode_t`; `other` stands for the values that no `case` label names. -/
inductive Opcode
  | lui | auipc | jump | jumpr | cjump | load | store | iops | iops64 | rops | rops64
  | amo | fence | systm | fd1 | fd2 | fd3 | fd4 | fd5 | fd6 | fd7 | other
  deriving DecidableEq

/-- `static_cast<opcode_t>(instruction & 0b1111111)`. -/
def opcode (instruction : Word) : Opcode :=
  match (instruction &&& 0b1111111).toNat with
  | 0b0110111 => .lui
  | 0b0010111 => .auipc
  | 0b1101111 => .jump
  | 0b1100111 => .jumpr
  | 0b1100011 => .cjump
  | 0b0000011 => .load
  | 0b0100011 => .store
  | 0b0010011 => .iops
  | 0b0011011 => .iops64
  | 0b0110011 => .rops
  | 0b0111011 => .rops64
  | 0b0101111 => .amo
  | 0b0001111 => .fence
  | 0b1110011 => .systm
  | 0b0000111 => .fd1
  | 0b0100111 => .fd2
  | 0b1000011 => .fd3
  | 0b1000111 => .fd4
  | 0b1001011 => .fd5
  | 0b1001111 => .fd6
  | 0b1010011 => .fd7
  | _ => .other

def rd (instruction : Word) : Word := (instruction >>> 7) &&& 0b11111

def func3 (instruction : Word) : Word := (instruction >>> 12) &&& 0b111

def rs1 (instruction : Word) : Word := (instruction >>> 15) &&& 0b11111

def rs2 (instruction : Word) : Word := (instruction >>> 20) &&& 0b11111

def func7 (instruction : Word) : Word := (instruction >>> 25) &&& 0b1111111

def imm11_0 (instruction : Word) : Word := (instruction >>> 20) &&& 0b111111111111

def imm31_12 (instruction : Word) : Word := (instruction >>> 12) &&& 0xFFFFF

def immJ (instruction : Word) : Word :=
  ((instruction >>> 31) &&& 0b1) <<< 20 + (instruction &&& (0b11111111 <<< 12)) +
    ((instruction >>> 20) &&& 0b1) <<< 11 + ((instruction >>> 21) &&& 0b1111111111) <<< 1

def immB (instruction : Word) : Word :=
  ((instruction >>> 31) &&& 0b1) <<< 12 + ((instruction >>> 7) &&& 0b1) <<< 11 +
    ((instruction >>> 25) &&& 0b111111) <<< 5 + ((instruction >>> 7) &&& 0b11110)

def immS (instruction : Word) : Word :=
  ((instruction >>> 25) &&& 0b1111111) <<< 5 + ((instruction >>> 7) &&& 0b11111)

def amoOp (instruction : Word) : Word := (instruction >>> 27) &&& 0b11111

end RiscvEmu
