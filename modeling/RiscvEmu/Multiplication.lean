import RiscvEmu.IntegerRefinement

/-! The multiplications of `case rops` and `case rops64`. The high halves are taken from a product of
128 bits, to which the signed operands are converted modulo `2 ^ 128`. -/

namespace RiscvEmu

/-- In every state that holds these operands, an instruction of the kind writes `v` to `rd` and changes
nothing else. -/
def Computes (kind : Word → Prop) (a b v : Word) : Prop :=
  ∀ inp ins s, kind ins → s.reg (rs1 ins) = a → s.reg (rs2 ins) = b →
    ∃ t, execute inp ins s = .fall t ∧
      t.toMachine = { s.toMachine with regFile := s.regSet (rd ins) v }

/-! ### The high half -/

/-- `((mult_temp) >> 64) & MASK64`. -/
def highHalf (x : BitVec 128) : Word := ((x >>> 64) &&& mask64.setWidth 128).setWidth 64

theorem and_mask64 (x : BitVec 128) : (x &&& mask64.setWidth 128).setWidth 64 = x.setWidth 64 := by
  have hand : (x &&& mask64.setWidth 128).toNat = x.toNat % 2 ^ 64 :=
    Nat.and_two_pow_sub_one_eq_mod _ 64
  refine BitVec.eq_of_toNat_eq ?_
  rw [BitVec.toNat_setWidth, BitVec.toNat_setWidth, hand]
  exact Nat.mod_mod _ _

/-- The upper half of a product modulo `2 ^ 128` is that of the exact product, rounded down. -/
theorem highHalf_ofInt (x : Int) :
    highHalf (BitVec.ofInt 128 x) = BitVec.ofInt 64 (x / 2 ^ 64) := by
  refine BitVec.eq_of_toNat_eq ?_
  rw [highHalf, and_mask64, BitVec.toNat_setWidth, BitVec.toNat_ushiftRight, BitVec.toNat_ofInt,
    BitVec.toNat_ofInt, Nat.shiftRight_eq_div_pow]
  omega

theorem recombine_signed {x : Int} (hlo : -2 ^ 127 ≤ x) (hhi : x < 2 ^ 127) :
    (BitVec.ofInt 64 (x / 2 ^ 64)).toInt * 2 ^ 64 + (BitVec.ofInt 64 x).toNat = x := by
  rw [BitVec.toInt_ofInt, BitVec.toNat_ofInt, Int.bmod_def]
  omega

theorem recombine_unsigned {x : ℕ} (h : x < 2 ^ 128) :
    (BitVec.ofInt 64 ((x : Int) / 2 ^ 64)).toNat * 2 ^ 64 + (BitVec.ofInt 64 (x : Int)).toNat = x := by
  rw [BitVec.toNat_ofInt, BitVec.toNat_ofInt]
  omega

/-! ### The five instructions -/

inductive MulKind
  | mul | mulh | mulhsu | mulhu | mulw
  deriving DecidableEq

namespace MulKind

def opcode : MulKind → Opcode
  | mulw => .rops64
  | _ => .rops

def funct3 : MulKind → Word
  | mul => 0b000
  | mulh => 0b001
  | mulhsu => 0b010
  | mulhu => 0b011
  | mulw => 0b000

def Encodes (k : MulKind) (ins : Word) : Prop :=
  RiscvEmu.opcode ins = k.opcode ∧ func7 ins = 0b0000001 ∧ func3 ins = k.funct3

def result (k : MulKind) (a b : Word) : Word :=
  match k with
  | mul => ((a * b).setWidth 128 &&& mask64.setWidth 128).setWidth 64
  | mulh => highHalf (BitVec.ofInt 128 (signedValue a) * BitVec.ofInt 128 (signedValue b))
  | mulhsu => highHalf (BitVec.ofInt 128 (signedValue a) * b.setWidth 128)
  | mulhu => highHalf (a.setWidth 128 * b.setWidth 128)
  | mulw => signExtend (((a &&& mask32) * (b &&& mask32)) &&& mask32) 32

end MulKind

theorem computes_result (k : MulKind) (a b : Word) : Computes k.Encodes a b (k.result a b) := by
  rintro inp ins s ⟨ho, h7, h3⟩ rfl rfl
  unfold execute armRops armRops64 ropsMul rops64Mul multTemp
  rw [ho, h7, h3]
  cases k <;> exact ⟨_, rfl, rfl⟩

theorem setWidth_eq_ofInt (a : Word) : a.setWidth 128 = BitVec.ofInt 128 a.toNat := by
  refine BitVec.eq_of_toNat_eq ?_
  rw [BitVec.ofInt_natCast, BitVec.toNat_ofNat, BitVec.toNat_setWidth]

theorem mulh_result (a b : Word) :
    MulKind.mulh.result a b = BitVec.ofInt 64 (a.toInt * b.toInt / 2 ^ 64) := by
  show highHalf (BitVec.ofInt 128 (signedValue a) * BitVec.ofInt 128 (signedValue b)) = _
  rw [signedValue_eq, signedValue_eq, ← BitVec.ofInt_mul]
  exact highHalf_ofInt _

theorem mulhsu_result (a b : Word) :
    MulKind.mulhsu.result a b = BitVec.ofInt 64 (a.toInt * b.toNat / 2 ^ 64) := by
  show highHalf (BitVec.ofInt 128 (signedValue a) * b.setWidth 128) = _
  rw [signedValue_eq, setWidth_eq_ofInt, ← BitVec.ofInt_mul]
  exact highHalf_ofInt _

theorem mulhu_result (a b : Word) :
    MulKind.mulhu.result a b = BitVec.ofInt 64 (a.toNat * b.toNat / 2 ^ 64) := by
  show highHalf (a.setWidth 128 * b.setWidth 128) = _
  rw [setWidth_eq_ofInt, setWidth_eq_ofInt, ← BitVec.ofInt_mul]
  exact highHalf_ofInt _

theorem mul_result (a b : Word) :
    MulKind.mul.result a b = BitVec.ofInt 64 (a.toInt * b.toInt) ∧
      MulKind.mul.result a b = BitVec.ofInt 64 (a.toInt * b.toNat) ∧
      MulKind.mul.result a b = BitVec.ofInt 64 (a.toNat * b.toNat) := by
  have hlow : MulKind.mul.result a b = a * b := by
    show ((a * b).setWidth 128 &&& mask64.setWidth 128).setWidth 64 = a * b
    rw [and_mask64, BitVec.setWidth_setWidth_of_le _ (by decide), BitVec.setWidth_eq]
  have hnat (x : Word) : BitVec.ofInt 64 (x.toNat : Int) = x := by
    rw [BitVec.ofInt_natCast, BitVec.ofNat_toNat, BitVec.setWidth_eq]
  rw [hlow]
  refine ⟨?_, ?_, ?_⟩
  · rw [BitVec.ofInt_mul, BitVec.ofInt_toInt, BitVec.ofInt_toInt]
  · rw [BitVec.ofInt_mul, BitVec.ofInt_toInt, hnat]
  · rw [BitVec.ofInt_mul, hnat, hnat]

theorem mulw_result (a b : Word) :
    MulKind.mulw.result a b = (a.setWidth 32 * b.setWidth 32).signExtend 64 := by
  show signExtend (((a &&& mask32) * (b &&& mask32)) &&& mask32) 32 = _
  rw [signExtend_mask32, BitVec.setWidth_mul _ _ (by decide), setWidth_mask32, setWidth_mask32]

/-! ### The products -/

/-- The low half of the product of `a` and `b`, its high halves for signed, mixed and unsigned
operands, and the product of the low words, as the architecture defines them. -/
structure RiscvProducts (a b lo ss su uu w : Word) : Prop where
  low : lo.toNat = a.toNat * b.toNat % 2 ^ 64
  signed : ss.toInt * 2 ^ 64 + lo.toNat = a.toInt * b.toInt
  mixed : su.toInt * 2 ^ 64 + lo.toNat = a.toInt * b.toNat
  unsigned : uu.toNat * 2 ^ 64 + lo.toNat = a.toNat * b.toNat
  word : w = (a.setWidth 32 * b.setWidth 32).signExtend 64

theorem natAbs_toInt_le (a : Word) : a.toInt.natAbs ≤ 2 ^ 63 := by
  have hlo : -2 ^ 63 ≤ a.toInt := BitVec.le_toInt a
  have hhi : a.toInt < 2 ^ 63 := BitVec.toInt_lt
  omega

theorem mul_bounds (a : Word) {y : Int} (hy : y.natAbs < 2 ^ 64) :
    -2 ^ 127 ≤ a.toInt * y ∧ a.toInt * y < 2 ^ 127 := by
  have hmul : (a.toInt * y).natAbs ≤ 2 ^ 63 * (2 ^ 64 - 1) := by
    rw [Int.natAbs_mul]
    exact Nat.mul_le_mul (natAbs_toInt_le a) (Nat.le_sub_one_of_lt hy)
  omega

/-- The five instructions give the architecture's results, so that each high half and the low half
make up the exact product. -/
theorem multiplication_correct (a b : Word) :
    ∃ lo ss su uu w, Computes MulKind.mul.Encodes a b lo ∧ Computes MulKind.mulh.Encodes a b ss ∧
      Computes MulKind.mulhsu.Encodes a b su ∧ Computes MulKind.mulhu.Encodes a b uu ∧
      Computes MulKind.mulw.Encodes a b w ∧ RiscvProducts a b lo ss su uu w := by
  obtain ⟨hss, hsu, huu⟩ := mul_result a b
  refine ⟨_, _, _, _, _, computes_result .mul a b, computes_result .mulh a b,
    computes_result .mulhsu a b, computes_result .mulhu a b, computes_result .mulw a b, ?_⟩
  constructor
  -- each high half goes with the form of the low half that has the same factors
  · rw [huu, ← Int.natCast_mul, BitVec.ofInt_natCast, BitVec.toNat_ofNat]
  · obtain ⟨hlo, hhi⟩ := mul_bounds a (lt_of_le_of_lt (natAbs_toInt_le b) (by decide))
    rw [mulh_result, hss]
    exact recombine_signed hlo hhi
  · obtain ⟨hlo, hhi⟩ := mul_bounds a (y := b.toNat) b.isLt
    rw [mulhsu_result, hsu]
    exact recombine_signed hlo hhi
  · have hlt : a.toNat * b.toNat < 2 ^ 128 := by
      have hmul := Nat.mul_lt_mul'' a.isLt b.isLt
      rwa [← Nat.pow_add] at hmul
    rw [mulhu_result, huu, ← Int.natCast_mul]
    exact recombine_unsigned hlt
  · exact mulw_result a b

end RiscvEmu
