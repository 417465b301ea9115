import RiscvEmu.Lib.Bytes
import RiscvEmu.Rv64ima

/-! The unprivileged part of RV64IMA on one hart and a byte-addressed memory: what its instructions do
when none of them traps. -/

namespace Rv64ima

open Bytes Rv64i

deriving instance DecidableEq for AtomicWidth

/-- The reservation is that of the last load-reserved, until the next store-conditional. -/
structure Machine where
  hart : Hart
  mem : Xlen → BitVec 8
  resv : Option (AtomicWidth × Xlen)

/-! ### Memory -/

def loadBytes (mem : Xlen → BitVec 8) (a : Xlen) (n : ℕ) : BitVec (8 * n) :=
  little (8 * n) ((List.range n).map fun i => mem (a + BitVec.ofNat 64 i))

/-- The `n` low bytes of a value are put from an address on. Addresses wrap around. -/
def storeBytes {w : ℕ} (mem : Xlen → BitVec 8) (a : Xlen) (n : ℕ) (v : BitVec w) : Xlen → BitVec 8 :=
  fun b => if (b - a).toNat < n then byte v (b - a).toNat else mem b

theorem byte_loadBytes (mem : Xlen → BitVec 8) (a : Xlen) {n i : ℕ} (hi : i < n) :
    byte (loadBytes mem a n) i = mem (a + BitVec.ofNat 64 i) := by
  rw [loadBytes, byte_little _ _ (by omega), List.getD_eq_getElem?_getD, List.getElem?_map,
    List.getElem?_range hi]
  rfl

/-! ### Operations -/

section

variable {w : ℕ}

/-- Division by zero has the quotient -1 and leaves the dividend as the remainder. -/
def quotient (a b : BitVec w) : BitVec w := if b = 0 then -1 else a.sdiv b

def quotientU (a b : BitVec w) : BitVec w := if b = 0 then -1 else a / b

def remainder (a b : BitVec w) : BitVec w := if b = 0 then a else a.srem b

def remainderU (a b : BitVec w) : BitVec w := if b = 0 then a else a % b

def RmwOp.eval (o : RmwOp) (a b : BitVec w) : BitVec w :=
  match o with
  | .swap => b
  | .add => a + b
  | .xor => a ^^^ b
  | .and => a &&& b
  | .or => a ||| b
  | .min => if a.sle b then a else b
  | .max => if a.sle b then b else a
  | .minu => if a.ule b then a else b
  | .maxu => if a.ule b then b else a

end

def MulOp.eval (o : MulOp) (a b : Xlen) : Xlen :=
  match o with
  | .mul => a * b
  | .mulh => BitVec.ofInt 64 (a.toInt * b.toInt / 2 ^ 64)
  | .mulhsu => BitVec.ofInt 64 (a.toInt * b.toNat / 2 ^ 64)
  | .mulhu => BitVec.ofInt 64 (a.toNat * b.toNat / 2 ^ 64)
  | .div => quotient a b
  | .divu => quotientU a b
  | .rem => remainder a b
  | .remu => remainderU a b

def MulOpW.eval (o : MulOpW) (a b : BitVec 32) : BitVec 32 :=
  match o with
  | .mulw => a * b
  | .divw => quotient a b
  | .divuw => quotientU a b
  | .remw => remainder a b
  | .remuw => remainderU a b

def AtomicWidth.size : AtomicWidth → ℕ
  | .w => 4
  | .d => 8

/-! ### Execution -/

def address (h : Hart) (rs1 : Reg) (imm : BitVec 12) : Xlen := h.read rs1 + imm.signExtend 64

/-- None for an instruction that traps, and for the CSR and privileged ones, which are not described. A
store-conditional fails without its reservation only. -/
def exec (i : Instr) (m : Machine) : Option Machine :=
  match i with
  | .base i => (Rv64i.exec i m.hart).map fun h => { m with hart := h }
  | .load o rd rs1 imm =>
    let v := loadBytes m.mem (address m.hart rs1 imm) o.size
    some { m with hart := m.hart.result rd (o.extend v) }
  | .store o rs1 rs2 imm =>
    some { m with
      hart := ⟨m.hart.x, m.hart.pc + 4⟩
      mem := storeBytes m.mem (address m.hart rs1 imm) o.size (m.hart.read rs2) }
  | .fence .. | .fenceI .. => some { m with hart := ⟨m.hart.x, m.hart.pc + 4⟩ }
  | .mul o rd rs1 rs2 =>
    some { m with hart := m.hart.result rd (o.eval (m.hart.read rs1) (m.hart.read rs2)) }
  | .mulW o rd rs1 rs2 =>
    let v := o.eval ((m.hart.read rs1).setWidth 32) ((m.hart.read rs2).setWidth 32)
    some { m with hart := m.hart.result rd (v.signExtend 64) }
  | .lr len _ rd rs1 =>
    let a := m.hart.read rs1
    if a.toNat % len.size = 0 then
      some { m with
        hart := m.hart.result rd ((loadBytes m.mem a len.size).signExtend 64)
        resv := some (len, a) }
    else none
  | .sc len _ rd rs1 rs2 =>
    let a := m.hart.read rs1
    if a.toNat % len.size = 0 then
      if m.resv = some (len, a) then
        some ⟨m.hart.result rd 0, storeBytes m.mem a len.size (m.hart.read rs2), none⟩
      else some { m with hart := m.hart.result rd 1, resv := none }
    else none
  | .rmw o len _ rd rs1 rs2 =>
    let a := m.hart.read rs1
    let old := loadBytes m.mem a len.size
    if a.toNat % len.size = 0 then
      some { m with
        hart := m.hart.result rd (old.signExtend 64)
        mem := storeBytes m.mem a len.size
          (o.eval old ((m.hart.read rs2).setWidth (8 * len.size))) }
    else none
  | .csr .. | .privileged .. | .sfenceVma .. => none

def Step (i : Instr) (m m' : Machine) : Prop :=
  encode i = loadBytes m.mem m.hart.pc 4 ∧ exec i m = some m'

/-! ### The program counter -/

theorem goto_aligned {x : Reg → Xlen} {target : Xlen} {h : Hart}
    (hg : Hart.goto x target = some h) : h.pc.toNat % 4 = 0 := by
  unfold Hart.goto at hg
  split at hg
  · rename_i hlow
    cases hg
    have hmod : (target &&& 3).toNat = target.toNat % 4 := Nat.and_two_pow_sub_one_eq_mod _ 2
    rw [← hmod, hlow]
    rfl
  · cases hg

theorem next_aligned {pc : Xlen} (h : pc.toNat % 4 = 0) : (pc + 4).toNat % 4 = 0 := by
  rw [BitVec.toNat_add]
  show (pc.toNat + 4) % 2 ^ 64 % 4 = 0
  omega

theorem base_aligned {i : Rv64i.Instr} {h h' : Hart} (he : Rv64i.exec i h = some h')
    (hp : h.pc.toNat % 4 = 0) : h'.pc.toNat % 4 = 0 := by
  cases i with
  | jal rd offset => exact goto_aligned he
  | jalr rd rs1 imm => exact goto_aligned he
  | branch c rs1 rs2 offset =>
    unfold Rv64i.exec at he
    dsimp only at he
    split at he
    · exact goto_aligned he
    · cases he
      exact next_aligned hp
  | _ =>
    cases he
    exact next_aligned hp

theorem exec_aligned {i : Instr} {m m' : Machine} (he : exec i m = some m')
    (hp : m.hart.pc.toNat % 4 = 0) : m'.hart.pc.toNat % 4 = 0 := by
  cases i with
  | base i =>
    obtain ⟨h, hb, rfl⟩ := Option.map_eq_some_iff.mp he
    exact base_aligned hb hp
  | lr len aqrl rd rs1 =>
    unfold exec at he
    dsimp only at he
    split at he
    · cases he
      exact next_aligned hp
    · cases he
  | sc len aqrl rd rs1 rs2 =>
    unfold exec at he
    dsimp only at he
    split at he
    · split at he
      · cases he
        exact next_aligned hp
      · cases he
        exact next_aligned hp
    · cases he
  | rmw o len aqrl rd rs1 rs2 =>
    unfold exec at he
    dsimp only at he
    split at he
    · cases he
      exact next_aligned hp
    · cases he
  | csr => cases he
  | privileged => cases he
  | sfenceVma => cases he
  | _ =>
    cases he
    exact next_aligned hp

end Rv64ima
