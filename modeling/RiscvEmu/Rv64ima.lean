import RiscvEmu.Lib.Words
import RiscvEmu.Rv64i

/-! The encodings of the rest of RV64IMA, of the CSR instructions and of the privileged instructions.
`FENCE.I` and `URET` are counted among them. -/

namespace Rv64ima

open Rv64i

inductive LoadOp
  | lb | lh | lw | ld | lbu | lhu | lwu

inductive StoreOp
  | sb | sh | sw | sd

inductive MulOp
  | mul | mulh | mulhsu | mulhu | div | divu | rem | remu

inductive MulOpW
  | mulw | divw | divuw | remw | remuw

inductive RmwOp
  | swap | add | xor | and | or | min | max | minu | maxu

inductive AtomicWidth
  | w | d

inductive CsrForm
  | rw | rs | rc | rwi | rsi | rci

inductive Privileged
  | ecall | ebreak | uret | sret | mret | wfi

/-- The fields that a fence ignores are given as they are; `aqrl` are the ordering bits. -/
inductive Instr
  | base (i : Rv64i.Instr)
  | load (o : LoadOp) (rd rs1 : Reg) (imm : BitVec 12)
  | store (o : StoreOp) (rs1 rs2 : Reg) (imm : BitVec 12)
  | fence (rd rs1 : Reg) (imm : BitVec 12)
  | fenceI (rd rs1 : Reg) (imm : BitVec 12)
  | mul (o : MulOp) (rd rs1 rs2 : Reg)
  | mulW (o : MulOpW) (rd rs1 rs2 : Reg)
  | lr (len : AtomicWidth) (aqrl : BitVec 2) (rd rs1 : Reg)
  | sc (len : AtomicWidth) (aqrl : BitVec 2) (rd rs1 rs2 : Reg)
  | rmw (o : RmwOp) (len : AtomicWidth) (aqrl : BitVec 2) (rd rs1 rs2 : Reg)
  | csr (o : CsrForm) (rd src : Reg) (csr : BitVec 12)
  | privileged (p : Privileged)
  | sfenceVma (rs1 rs2 : Reg)

def LoadOp.funct3 : LoadOp → BitVec 3
  | .lb => 0b000
  | .lh => 0b001
  | .lw => 0b010
  | .ld => 0b011
  | .lbu => 0b100
  | .lhu => 0b101
  | .lwu => 0b110

def LoadOp.size : LoadOp → ℕ
  | .lb | .lbu => 1
  | .lh | .lhu => 2
  | .lw | .lwu => 4
  | .ld => 8

def LoadOp.extend (o : LoadOp) (x : BitVec (8 * o.size)) : BitVec 64 :=
  match o with
  | .lb | .lh | .lw => x.signExtend 64
  | .lbu | .lhu | .lwu | .ld => x.setWidth 64

def StoreOp.funct3 : StoreOp → BitVec 3
  | .sb => 0b000
  | .sh => 0b001
  | .sw => 0b010
  | .sd => 0b011

def StoreOp.size : StoreOp → ℕ
  | .sb => 1
  | .sh => 2
  | .sw => 4
  | .sd => 8

def MulOp.funct3 : MulOp → BitVec 3
  | .mul => 0b000
  | .mulh => 0b001
  | .mulhsu => 0b010
  | .mulhu => 0b011
  | .div => 0b100
  | .divu => 0b101
  | .rem => 0b110
  | .remu => 0b111

def MulOpW.funct3 : MulOpW → BitVec 3
  | .mulw => 0b000
  | .divw => 0b100
  | .divuw => 0b101
  | .remw => 0b110
  | .remuw => 0b111

def RmwOp.funct5 : RmwOp → BitVec 5
  | .swap => 0b00001
  | .add => 0b00000
  | .xor => 0b00100
  | .and => 0b01100
  | .or => 0b01000
  | .min => 0b10000
  | .max => 0b10100
  | .minu => 0b11000
  | .maxu => 0b11100

def AtomicWidth.funct3 : AtomicWidth → BitVec 3
  | .w => 0b010
  | .d => 0b011

def CsrForm.funct3 : CsrForm → BitVec 3
  | .rw => 0b001
  | .rs => 0b010
  | .rc => 0b011
  | .rwi => 0b101
  | .rsi => 0b110
  | .rci => 0b111

def Privileged.funct12 : Privileged → BitVec 12
  | .ecall => 0x000
  | .ebreak => 0x001
  | .uret => 0x002
  | .sret => 0x102
  | .mret => 0x302
  | .wfi => 0x105

def encode : Instr → BitVec 32
  | .base i => Rv64i.encode i
  | .load o rd rs1 imm => iType imm rs1 o.funct3 rd 0b0000011
  | .store o rs1 rs2 imm => sType imm rs2 rs1 o.funct3 0b0100011
  | .fence rd rs1 imm => iType imm rs1 0b000 rd 0b0001111
  | .fenceI rd rs1 imm => iType imm rs1 0b001 rd 0b0001111
  | .mul o rd rs1 rs2 => rType 0b0000001 rs2 rs1 o.funct3 rd 0b0110011
  | .mulW o rd rs1 rs2 => rType 0b0000001 rs2 rs1 o.funct3 rd 0b0111011
  | .lr len aqrl rd rs1 => rType (0b00010#5 ++ aqrl) 0 rs1 len.funct3 rd 0b0101111
  | .sc len aqrl rd rs1 rs2 => rType (0b00011#5 ++ aqrl) rs2 rs1 len.funct3 rd 0b0101111
  | .rmw o len aqrl rd rs1 rs2 => rType (o.funct5 ++ aqrl) rs2 rs1 len.funct3 rd 0b0101111
  | .csr o rd src csr => iType csr src o.funct3 rd 0b1110011
  | .privileged p => iType p.funct12 0 0b000 0 0b1110011
  | .sfenceVma rs1 rs2 => rType 0b0001001 rs2 rs1 0b000 0 0b1110011

def Defined (w : BitVec 32) : Prop := ∃ i, encode i = w

theorem low_append {n : ℕ} (x : BitVec n) (opc : BitVec 7) : (x ++ opc).setWidth 7 = opc := by
  refine BitVec.eq_of_getLsbD_eq fun i hi => ?_
  rw [BitVec.getLsbD_setWidth, BitVec.getLsbD_append, decide_eq_true hi, Bool.true_and, if_pos hi]

def opcodes : List (BitVec 7) :=
  [0b0110111, 0b0010111, 0b1101111, 0b1100111, 0b1100011, 0b0000011, 0b0100011, 0b0010011,
    0b0011011, 0b0110011, 0b0111011, 0b0101111, 0b0001111, 0b1110011]

theorem Defined.opcode {w : BitVec 32} (h : Defined w) : w.setWidth 7 ∈ opcodes := by
  have low {n : ℕ} {x : BitVec n} {opc : BitVec 7} (ho : opc ∈ opcodes) :
      (x ++ opc).setWidth 7 ∈ opcodes := by
    rw [low_append]
    exact ho
  obtain ⟨i, rfl⟩ := h
  cases i with
  | base i => cases i <;> exact low (by decide)
  | _ => exact low (by decide)

theorem rType_split (w : BitVec 32) : rType (w.extractLsb' 25 7) (w.extractLsb' 20 5)
    (w.extractLsb' 15 5) (w.extractLsb' 12 3) (w.extractLsb' 7 5) (w.extractLsb' 0 7) = w := by
  refine BitVec.eq_of_toNat_eq ?_
  have hw := w.isLt
  simp only [rType, Words.toNat_append, BitVec.extractLsb'_toNat, Nat.shiftRight_eq_div_pow]
  omega

theorem defined_csr (f7 : BitVec 7) (r2 r1 d : Reg) {f3 : BitVec 3} (h0 : f3 ≠ 0b000)
    (h4 : f3 ≠ 0b100) : Defined (rType f7 r2 r1 f3 d 0b1110011) := by
  have hall : ∀ f : BitVec 3, f = 0b000 ∨ f = 0b100 ∨
      f ∈ [CsrForm.rw, .rs, .rc, .rwi, .rsi, .rci].map CsrForm.funct3 := by decide
  obtain ⟨o, -, rfl⟩ := List.mem_map.mp (((hall f3).resolve_left h0).resolve_left h4)
  exact ⟨.csr o d r1 (f7 ++ r2), rfl⟩

end Rv64ima
