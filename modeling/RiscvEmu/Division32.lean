import RiscvEmu.Division
import RiscvEmu.Multiplication

/-! The 32-bit divisions of `case rops64`. The signed instructions pass their operands through
`signed_value32`, the unsigned ones leave the narrowing to the parameters of `divi32`, and of every
operand only the low word counts. -/

namespace RiscvEmu

/-! ### Conversions -/

theorem toDouble_of_small {n : Int} (h : n.natAbs < 2 ^ 53) : toDouble n = n := by
  have hlog : n.natAbs.log2 - 52 = 0 := by
    by_cases h0 : n.natAbs = 0
    · rw [h0]
      decide
    · have hlt : n.natAbs.log2 < 53 := (Nat.log2_lt h0).mpr h
      omega
  unfold toDouble
  dsimp only
  rw [if_pos hlog]

theorem setWidth_ofInt (q : Int) : (BitVec.ofInt 64 q).setWidth 32 = BitVec.ofInt 32 q := by
  refine BitVec.eq_of_toNat_eq ?_
  rw [BitVec.toNat_setWidth, BitVec.toNat_ofInt, BitVec.toNat_ofInt]
  omega

theorem signExtend_masked (q : Int) :
    signExtend (BitVec.ofInt 64 q &&& mask32) 32 = (BitVec.ofInt 32 q).signExtend 64 := by
  rw [signExtend_mask32, setWidth_ofInt]

theorem signExtend_unsigned (v : BitVec 32) :
    signExtend (BitVec.ofInt 64 v.toNat) 32 = v.signExtend 64 := by
  rw [BitVec.ofInt_natCast, BitVec.ofNat_toNat]
  exact signExtend_eq v (by decide) (by decide)

theorem uint32_wrap (x : Word) : uint32.wrap x.toNat = (x.setWidth 32).toNat := by
  show ((BitVec.ofInt 32 (x.toNat : Int)).toNat : Int) = _
  rw [BitVec.ofInt_natCast]
  rfl

/-! ### The four instructions -/

namespace DivOp

def EncodesW (o : DivOp) (ins : Word) : Prop :=
  opcode ins = .rops64 ∧ func7 ins = 0b0000001 ∧ func3 ins = o.funct3

def resultW (o : DivOp) (x y : Word) : Option Word :=
  match o with
  | div =>
    (divi32 int32 (signedValue32 (x &&& mask32)) (signedValue32 (y &&& mask32)) 0).map fun q =>
      signExtend (mask32 &&& BitVec.ofInt 64 q) 32
  | divu =>
    (divi32 uint32 (uint32.wrap x.toNat) (uint32.wrap y.toNat) 1).map fun q =>
      signExtend (BitVec.ofInt 64 q) 32
  | rem =>
    (divi32 int32 (signedValue32 x) (signedValue32 y) 2).map fun q =>
      signExtend (BitVec.ofInt 64 q &&& mask32) 32
  | remu =>
    (divi32 uint32 (uint32.wrap x.toNat) (uint32.wrap y.toNat) 3).map fun q =>
      signExtend (BitVec.ofInt 64 q) 32

def divi32 (o : DivOp) (a b : BitVec 32) : Option Int :=
  match o with
  | div => RiscvEmu.divi32 int32 a.toInt b.toInt 0
  | divu => RiscvEmu.divi32 uint32 a.toNat b.toNat 1
  | rem => RiscvEmu.divi32 int32 a.toInt b.toInt 2
  | remu => RiscvEmu.divi32 uint32 a.toNat b.toNat 3

/-- Whatever the high words, the instruction writes the sign extension of `v`. -/
def WritesW (o : DivOp) (a b v : BitVec 32) : Prop :=
  ∀ x y : Word, x.setWidth 32 = a → y.setWidth 32 = b →
    Computes o.EncodesW x y (v.signExtend 64)

end DivOp

theorem computes_of_resultW {o : DivOp} {x y v : Word} (h : o.resultW x y = some v) :
    Computes o.EncodesW x y v := by
  rintro inp ins s ⟨ho, h7, h3⟩ rfl rfl
  have hval : div32Value ins s = some v := by
    unfold div32Value
    rw [h3, ← h]
    cases o <;> rfl
  unfold execute armRops64 rops64Mul
  rw [ho, h7, h3, hval]
  cases o <;> exact ⟨_, rfl, rfl⟩

theorem writesW_of_signed {a b v : BitVec 32} {o : DivOp} (ho : o = .div ∨ o = .rem) {q : Int}
    (h : o.divi32 a b = some q) (hv : BitVec.ofInt 32 q = v) : o.WritesW a b v := by
  rintro x y rfl rfl
  apply computes_of_resultW
  rw [← hv, ← signExtend_masked]
  rcases ho with rfl | rfl
  · unfold DivOp.resultW
    simp only [signedValue32_eq, setWidth_mask32]
    rw [show divi32 int32 _ _ 0 = some q from h, BitVec.and_comm]
    rfl
  · unfold DivOp.resultW
    simp only [signedValue32_eq]
    rw [show divi32 int32 _ _ 2 = some q from h]
    rfl

theorem writesW_of_unsigned {a b v : BitVec 32} {o : DivOp} (ho : o = .divu ∨ o = .remu)
    (h : o.divi32 a b = some (v.toNat : Int)) : o.WritesW a b v := by
  rintro x y rfl rfl
  apply computes_of_resultW
  rw [← signExtend_unsigned]
  rcases ho with rfl | rfl
  · unfold DivOp.resultW
    simp only [uint32_wrap]
    rw [show divi32 uint32 _ _ 1 = _ from h]
    rfl
  · unfold DivOp.resultW
    simp only [uint32_wrap]
    rw [show divi32 uint32 _ _ 3 = _ from h]
    rfl

/-! ### What `divi32` returns -/

theorem ofInt_wrap_int32 (x : Int) : BitVec.ofInt 32 (int32.wrap x) = BitVec.ofInt 32 x :=
  BitVec.ofInt_toInt

theorem int32_wrap_toInt (a : BitVec 32) : int32.wrap a.toInt = a.toInt :=
  congrArg BitVec.toInt BitVec.ofInt_toInt

theorem toInt_ne_zero {n : ℕ} {b : BitVec n} (hb : b ≠ 0) : ¬ b.toInt = 0 :=
  fun h => hb (BitVec.toInt_inj.mp (h.trans BitVec.toInt_zero.symm))

theorem toNat_ne_zero {n : ℕ} {b : BitVec n} (hb : b ≠ 0) : ¬ (b.toNat : Int) = 0 :=
  fun h => hb (BitVec.eq_of_toNat_eq (Int.natCast_eq_zero.mp h))

/-- The overflow test holds for `-2 ^ 31` and -1 only, since 32 bits fit into a double. -/
theorem guard32_iff (a b : BitVec 32) :
    (toDouble a.toInt = -2 ^ 31 ∧ b.toInt = int32.wrap (-1)) ↔
      a = BitVec.intMin 32 ∧ b = -1 := by
  have hlo : -2 ^ 31 ≤ a.toInt := BitVec.le_toInt a
  have hhi : a.toInt < 2 ^ 31 := BitVec.toInt_lt
  have hmin : (BitVec.intMin 32).toInt = -2 ^ 31 := by decide
  rw [toDouble_of_small (by omega), ← hmin, BitVec.toInt_inj]
  exact and_congr_right' (BitVec.toInt_inj (y := (-1 : BitVec 32)))

theorem unsigned_guard32 (a b : BitVec 32) :
    ¬ (toDouble (a.toNat : Int) = -2 ^ 31 ∧ (b.toNat : Int) = uint32.wrap (-1)) := by
  rintro ⟨h, -⟩
  have hpos := toDouble_nonneg (Int.natCast_nonneg a.toNat)
  omega

theorem divw_writes {a b : BitVec 32} (hb : b ≠ 0) : DivOp.div.WritesW a b (a.sdiv b) := by
  by_cases hg : a = BitVec.intMin 32 ∧ b = -1
  · have hq : DivOp.div.divi32 a b = some (int32.wrap (-2 ^ 31)) := by
      show divi32 int32 a.toInt b.toInt 0 = _
      unfold divi32
      rw [if_neg (toInt_ne_zero hb), if_pos ((guard32_iff a b).mpr hg)]
      rfl
    refine writesW_of_signed (.inl rfl) hq ?_
    rw [hg.1, hg.2]
    decide
  · have hq : DivOp.div.divi32 a b = some (int32.wrap (a.toInt.tdiv b.toInt)) := by
      show divi32 int32 a.toInt b.toInt 0 = _
      unfold divi32
      rw [if_neg (toInt_ne_zero hb), if_neg (mt (guard32_iff a b).mp hg), int32_wrap_toInt,
        int32_wrap_toInt]
      rfl
    refine writesW_of_signed (.inl rfl) hq ?_
    rw [ofInt_wrap_int32, ← BitVec.toInt_inj, BitVec.toInt_sdiv, BitVec.toInt_ofInt]

theorem remw_writes {a b : BitVec 32} (hb : b ≠ 0) : DivOp.rem.WritesW a b (a.srem b) := by
  by_cases hg : a = BitVec.intMin 32 ∧ b = -1
  · have hr : DivOp.rem.divi32 a b = some 0 := by
      show divi32 int32 a.toInt b.toInt 2 = _
      unfold divi32
      rw [if_neg (toInt_ne_zero hb), if_pos ((guard32_iff a b).mpr hg)]
      rfl
    refine writesW_of_signed (.inr rfl) hr ?_
    rw [hg.2, srem_neg_one (by decide)]
    rfl
  · have hr : DivOp.rem.divi32 a b = some (int32.wrap (a.toInt.tmod b.toInt)) := by
      show divi32 int32 a.toInt b.toInt 2 = _
      unfold divi32
      rw [if_neg (toInt_ne_zero hb), if_neg (mt (guard32_iff a b).mp hg), int32_wrap_toInt,
        int32_wrap_toInt]
      rfl
    refine writesW_of_signed (.inr rfl) hr ?_
    rw [ofInt_wrap_int32, ← BitVec.toInt_srem, BitVec.ofInt_toInt]

theorem divuw_writes {a b : BitVec 32} (hb : b ≠ 0) : DivOp.divu.WritesW a b (a / b) := by
  apply writesW_of_unsigned (.inl rfl)
  show divi32 uint32 a.toNat b.toNat 1 = _
  unfold divi32
  rw [if_neg (toNat_ne_zero hb), if_neg (unsigned_guard32 a b), BitVec.toNat_udiv]
  exact congrArg some (Int.ofNat_tdiv _ _).symm

theorem remuw_writes {a b : BitVec 32} (hb : b ≠ 0) : DivOp.remu.WritesW a b (a % b) := by
  apply writesW_of_unsigned (.inr rfl)
  show divi32 uint32 a.toNat b.toNat 3 = _
  unfold divi32
  rw [if_neg (toNat_ne_zero hb), if_neg (unsigned_guard32 a b), BitVec.toNat_umod]
  exact congrArg some (Int.ofNat_tmod _ _).symm

theorem writesW_zero (o : DivOp) (a : BitVec 32) :
    o.WritesW a 0 (match o with | .div | .divu => -1 | .rem | .remu => a) := by
  cases o with
  | div => exact writesW_of_signed (.inl rfl) (q := int32.wrap (-1)) rfl rfl
  | divu => exact writesW_of_unsigned (.inl rfl) rfl
  | rem => exact writesW_of_signed (.inr rfl) (q := a.toInt) rfl BitVec.ofInt_toInt
  | remu => exact writesW_of_unsigned (.inr rfl) rfl

/-! ### The architecture's divisions -/

structure RiscvDivisionW (a b q qu r ru : BitVec 32) : Prop where
  quotient : b ≠ 0 → ¬ (a = BitVec.intMin 32 ∧ b = -1) → q.toInt = a.toInt.tdiv b.toInt
  remainder : b ≠ 0 → r.toInt = a.toInt.tmod b.toInt
  quotientU : b ≠ 0 → qu.toNat = a.toNat / b.toNat
  remainderU : b ≠ 0 → ru.toNat = a.toNat % b.toNat
  byZero : b = 0 → q = -1 ∧ qu = -1 ∧ r = a ∧ ru = a
  overflow : b = -1 → (q = BitVec.intMin 32 ∧ r = 0 ↔ a = BitVec.intMin 32)

theorem riscvDivisionW {a b : BitVec 32} (hb : b ≠ 0) :
    RiscvDivisionW a b (a.sdiv b) (a / b) (a.srem b) (a % b) where
  quotient _ hne := by
    refine BitVec.toInt_sdiv_of_ne_or_ne a b ?_
    by_cases ha : a = BitVec.intMin 32
    · exact .inr fun hb1 => hne ⟨ha, hb1⟩
    · exact .inl ha
  remainder _ := BitVec.toInt_srem a b
  quotientU _ := BitVec.toNat_udiv
  remainderU _ := BitVec.toNat_umod
  byZero h0 := absurd h0 hb
  overflow h1 := by
    subst h1
    rw [sdiv_neg_one_eq_min_iff, and_iff_left (srem_neg_one (by decide) a)]

theorem riscvDivisionW_zero (a : BitVec 32) : RiscvDivisionW a 0 (-1) (-1) a a where
  quotient h := absurd rfl h
  remainder h := absurd rfl h
  quotientU h := absurd rfl h
  remainderU h := absurd rfl h
  byZero _ := ⟨rfl, rfl, rfl, rfl⟩
  overflow h := absurd h (by decide)

/-- The results depend on the low words only, and they are the architecture's. -/
theorem division32_correct (a b : BitVec 32) :
    ∃ q qu r ru, DivOp.div.WritesW a b q ∧ DivOp.divu.WritesW a b qu ∧
      DivOp.rem.WritesW a b r ∧ DivOp.remu.WritesW a b ru ∧ RiscvDivisionW a b q qu r ru := by
  by_cases hb : b = 0
  · subst hb
    exact ⟨_, _, _, _, writesW_zero .div a, writesW_zero .divu a, writesW_zero .rem a,
      writesW_zero .remu a, riscvDivisionW_zero a⟩
  · exact ⟨_, _, _, _, divw_writes hb, divuw_writes hb, remw_writes hb, remuw_writes hb,
      riscvDivisionW hb⟩

end RiscvEmu
