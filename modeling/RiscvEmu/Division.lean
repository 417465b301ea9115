import RiscvEmu.IntegerRefinement

/-! The 64-bit divisions of `case rops`: what `divi` returns for every pair of operands, and where its
overflow test, a comparison of doubles, departs from the integer one. -/

namespace RiscvEmu

variable {ins : Word} {s : State}

/-! ### Conversion to double -/

theorem toDouble_nonneg {n : Int} (h : 0 ≤ n) : 0 ≤ toDouble n := by
  unfold toDouble
  dsimp only
  split
  · exact h
  · exact Int.mul_nonneg (Int.sign_nonneg_iff.mpr h) (Int.natCast_nonneg _)

theorem toDouble_natAbs_lt {n : Int} (h : n.natAbs < 2 ^ 62) : (toDouble n).natAbs < 2 ^ 63 := by
  have hlog : n.natAbs.log2 < 62 := by
    by_cases h0 : n.natAbs = 0
    · rw [h0]
      decide
    · exact (Nat.log2_lt h0).mpr h
  unfold toDouble
  dsimp only
  split
  · exact h.trans (by decide)
  generalize he : n.natAbs.log2 - 52 = e
  have hstep : (2 : ℕ) ^ e ≤ 2 ^ 9 := Nat.pow_le_pow_right (by decide) (by omega)
  have hfloor : n.natAbs / 2 ^ e * 2 ^ e ≤ n.natAbs := Nat.div_mul_le_self _ _
  -- rounding up adds at most one unit in the last place
  have hup (p : Prop) [Decidable p] : (if p then n.natAbs / 2 ^ e + 1 else n.natAbs / 2 ^ e) * 2 ^ e ≤
      n.natAbs / 2 ^ e * 2 ^ e + 2 ^ e := by
    split
    · rw [Nat.add_mul, one_mul]
    · exact Nat.le_add_right _ _
  rw [Int.natAbs_mul, Int.natAbs_natCast]
  have hsign : n.sign.natAbs ≤ 1 := by
    rw [Int.natAbs_sign]
    split <;> decide
  refine lt_of_le_of_lt (Nat.mul_le_mul hsign (hup _)) ?_
  omega

theorem log2_eq_62 {m : ℕ} (hlo : 2 ^ 62 ≤ m) (hhi : m < 2 ^ 63) : m.log2 = 62 := by
  have h0 : m ≠ 0 := by omega
  have hle : 62 ≤ m.log2 := (Nat.le_log2 h0).mpr hlo
  have hlt : m.log2 < 63 := (Nat.log2_lt h0).mpr hhi
  omega

/-- The 512 numbers above `-2 ^ 63` convert to the same double: the last of them lies halfway and
goes to the even neighbour. -/
theorem toDouble_eq_min_iff {n : Int} (h : -2 ^ 63 ≤ n) :
    toDouble n = -2 ^ 63 ↔ n ≤ -2 ^ 63 + 512 := by
  rcases lt_or_ge n 0 with hneg | hpos
  · by_cases hsmall : n.natAbs < 2 ^ 62
    · have hlt := toDouble_natAbs_lt hsmall
      omega
    by_cases hmin : n = -2 ^ 63
    · subst hmin
      decide
    have hlog : n.natAbs.log2 = 62 := log2_eq_62 (by omega) (by omega)
    have hsign : n.sign = -1 := Int.sign_eq_neg_one_of_neg hneg
    unfold toDouble
    simp only [hlog, hsign, Nat.reduceSub, OfNat.ofNat_ne_zero, if_false]
    split <;> omega
  · have hd := toDouble_nonneg hpos
    omega

/-! ### The four instructions -/

inductive DivOp
  | div | divu | rem | remu
  deriving DecidableEq

namespace DivOp

def funct3 : DivOp → Word
  | div => 0b100
  | divu => 0b101
  | rem => 0b110
  | remu => 0b111

def Encodes (o : DivOp) (ins : Word) : Prop :=
  opcode ins = .rops ∧ func7 ins = 0b0000001 ∧ func3 ins = o.funct3

def divi (o : DivOp) (a b : Word) : Option Int :=
  match o with
  | div => RiscvEmu.divi int64 (signedValue a) (signedValue b) 0
  | divu => RiscvEmu.divi uint64 a.toNat b.toNat 1
  | rem => RiscvEmu.divi int64 (signedValue a) (signedValue b) 2
  | remu => RiscvEmu.divi uint64 a.toNat b.toNat 3

/-- In every state that holds these operands, the instruction writes `v` to `rd` and nothing else. -/
def Writes (o : DivOp) (a b v : Word) : Prop :=
  ∀ inp ins s, o.Encodes ins → s.reg (rs1 ins) = a → s.reg (rs2 ins) = b →
    execute inp ins s = .fall (s.setReg (rd ins) v)

end DivOp

theorem execute_division {o : DivOp} {inp : Input} (h : o.Encodes ins) :
    execute inp ins s = match o.divi (s.reg (rs1 ins)) (s.reg (rs2 ins)) with
      | none => .stop .undefined s
      | some q => .fall (s.setReg (rd ins) (BitVec.ofInt 64 q)) := by
  obtain ⟨ho, h7, h3⟩ := h
  have hval : divValue ins s = o.divi (s.reg (rs1 ins)) (s.reg (rs2 ins)) := by
    unfold divValue
    rw [h3]
    cases o <;> rfl
  unfold execute armRops ropsMul
  rw [ho, h7, h3, ← hval]
  cases o <;> rfl

theorem DivOp.writes_of_divi {o : DivOp} {a b : Word} {q : Int} (h : o.divi a b = some q) :
    o.Writes a b (BitVec.ofInt 64 q) := by
  intro inp ins s he h1 h2
  rw [execute_division he, h1, h2, h]

def DivOp.sample (o : DivOp) : Word := 0x022081B3 + o.funct3 <<< 12

def operands (a b : Word) : State :=
  { boot (fun _ => 0) 0 with regFile := fun r => if r = 1 then a else b }

theorem DivOp.Writes.unique {o : DivOp} {a b v w : Word} (hv : o.Writes a b v)
    (hw : o.Writes a b w) : v = w := by
  have he : o.Encodes o.sample := by cases o <;> exact ⟨rfl, rfl, rfl⟩
  have h1 : (operands a b).reg (rs1 o.sample) = a := by cases o <;> rfl
  have h2 : (operands a b).reg (rs2 o.sample) = b := by cases o <;> rfl
  have hboth := (hv (quiet 0) _ _ he h1 h2).symm.trans (hw (quiet 0) _ _ he h1 h2)
  have hfile := congrArg (fun t : State => t.regFile ((rd o.sample).setWidth 5))
    (Res.fall.inj hboth)
  unfold State.setReg Machine.regSet at hfile
  simpa only [Function.update_self] using hfile

/-! ### What `divi` returns -/

theorem ofInt_wrap_int64 (x : Int) : BitVec.ofInt 64 (int64.wrap x) = BitVec.ofInt 64 x :=
  BitVec.ofInt_toInt

theorem int64_wrap_toInt (a : Word) : int64.wrap a.toInt = a.toInt :=
  congrArg BitVec.toInt BitVec.ofInt_toInt

theorem toInt_eq_neg_one_iff (b : Word) : b.toInt = int64.wrap (-1) ↔ b = -1 :=
  BitVec.toInt_inj (y := (-1 : Word))

theorem toInt_eq_zero_iff (b : Word) : b.toInt = 0 ↔ b = 0 := BitVec.toInt_inj (y := (0 : Word))

theorem toNat_eq_zero_iff (b : Word) : (b.toNat : Int) = 0 ↔ b = 0 := by
  rw [Int.natCast_eq_zero]
  exact BitVec.toNat_inj (y := (0 : Word))

def Overflows (a b : Word) : Prop := a.toInt ≤ -2 ^ 63 + 512 ∧ b = -1

theorem guard_iff (a b : Word) :
    (toDouble a.toInt = -2 ^ 63 ∧ b.toInt = int64.wrap (-1)) ↔ Overflows a b := by
  have hmin : -2 ^ 63 ≤ a.toInt := BitVec.le_toInt a
  rw [toDouble_eq_min_iff hmin, toInt_eq_neg_one_iff]
  rfl

theorem unsigned_guard (a b : Word) :
    ¬ (toDouble (a.toNat : Int) = -2 ^ 63 ∧ (b.toNat : Int) = uint64.wrap (-1)) := by
  rintro ⟨h, -⟩
  have hpos := toDouble_nonneg (Int.natCast_nonneg a.toNat)
  omega

theorem div_writes_overflow {a b : Word} (h : Overflows a b) :
    DivOp.div.Writes a b (BitVec.intMin 64) := by
  have hb : ¬ b.toInt = 0 := by
    rw [h.2]
    decide
  have hq : DivOp.div.divi a b = some (int64.wrap (-2 ^ 63)) := by
    unfold DivOp.divi divi
    simp only [signedValue_eq]
    rw [if_neg hb, if_pos ((guard_iff a b).mpr h)]
  exact DivOp.writes_of_divi hq

theorem div_writes {a b : Word} (hb : b ≠ 0) (h : ¬ Overflows a b) :
    DivOp.div.Writes a b (a.sdiv b) := by
  have hq : DivOp.div.divi a b = some (int64.wrap (a.toInt.tdiv b.toInt)) := by
    unfold DivOp.divi divi
    simp only [signedValue_eq, int64_wrap_toInt]
    rw [if_neg (mt (toInt_eq_zero_iff b).mp hb), if_neg (mt (guard_iff a b).mp h)]
  have hw := DivOp.writes_of_divi hq
  rw [ofInt_wrap_int64] at hw
  have hs : a.sdiv b = BitVec.ofInt 64 (a.toInt.tdiv b.toInt) := by
    rw [← BitVec.toInt_inj, BitVec.toInt_sdiv, BitVec.toInt_ofInt]
  rwa [hs]

theorem rem_writes {a b : Word} (hb : b ≠ 0) : DivOp.rem.Writes a b (a.srem b) := by
  have hr : DivOp.rem.divi a b = some (a.srem b).toInt := by
    unfold DivOp.divi divi
    simp only [signedValue_eq, int64_wrap_toInt]
    rw [if_neg (mt (toInt_eq_zero_iff b).mp hb), BitVec.toInt_srem]
    split
    · -- where the test holds the divisor is -1, and the remainder is zero anyway
      rename_i hg
      rw [hg.2]
      exact congrArg some ((Int.tmod_neg _ 1).trans (Int.tmod_one _)).symm
    · rw [← BitVec.toInt_srem]
      exact congrArg some (int64_wrap_toInt _)
  have hw := DivOp.writes_of_divi hr
  rwa [BitVec.ofInt_toInt] at hw

theorem divu_writes {a b : Word} (hb : b ≠ 0) : DivOp.divu.Writes a b (a / b) := by
  have hq : DivOp.divu.divi a b = some ((a / b).toNat : Int) := by
    show divi uint64 a.toNat b.toNat 1 = _
    unfold divi
    rw [if_neg (mt (toNat_eq_zero_iff b).mp hb), if_neg (unsigned_guard a b), BitVec.toNat_udiv]
    exact congrArg some (Int.ofNat_tdiv _ _).symm
  have hw := DivOp.writes_of_divi hq
  rwa [BitVec.ofInt_natCast, BitVec.ofNat_toNat, BitVec.setWidth_eq] at hw

theorem remu_writes {a b : Word} (hb : b ≠ 0) : DivOp.remu.Writes a b (a % b) := by
  have hr : DivOp.remu.divi a b = some ((a % b).toNat : Int) := by
    show divi uint64 a.toNat b.toNat 3 = _
    unfold divi
    rw [if_neg (mt (toNat_eq_zero_iff b).mp hb), if_neg (unsigned_guard a b), BitVec.toNat_umod]
    exact congrArg some (Int.ofNat_tmod _ _).symm
  have hw := DivOp.writes_of_divi hr
  rwa [BitVec.ofInt_natCast, BitVec.ofNat_toNat, BitVec.setWidth_eq] at hw

theorem writes_zero (o : DivOp) (a : Word) :
    o.Writes a 0 (match o with | .div | .divu => -1 | .rem | .remu => a) := by
  cases o with
  | div => exact DivOp.writes_of_divi (o := .div) (a := a) (b := 0) (q := int64.wrap (-1)) rfl
  | divu =>
    exact DivOp.writes_of_divi (o := .divu) (a := a) (b := 0) (q := uint64.wrap mask64.toNat) rfl
  | rem =>
    have hw := DivOp.writes_of_divi (o := .rem) (a := a) (b := 0) (q := signedValue a) rfl
    rwa [signedValue_eq, BitVec.ofInt_toInt] at hw
  | remu =>
    have hw := DivOp.writes_of_divi (o := .remu) (a := a) (b := 0) (q := a.toNat) rfl
    rwa [BitVec.ofInt_natCast, BitVec.ofNat_toNat, BitVec.setWidth_eq] at hw

/-! ### The architecture's divisions -/

/-- Quotients and remainders of `a` by `b`, signed and unsigned, as the architecture defines them. -/
structure RiscvDivision (a b q qu r ru : Word) : Prop where
  quotient : b ≠ 0 → ¬ (a = BitVec.intMin 64 ∧ b = -1) → q.toInt = a.toInt.tdiv b.toInt
  remainder : b ≠ 0 → r.toInt = a.toInt.tmod b.toInt
  quotientU : b ≠ 0 → qu.toNat = a.toNat / b.toNat
  remainderU : b ≠ 0 → ru.toNat = a.toNat % b.toNat
  recompose : b ≠ 0 → a = b * q + r
  recomposeU : b ≠ 0 → a = b * qu + ru
  byZero : b = 0 → q = -1 ∧ qu = -1 ∧ r = a ∧ ru = a
  overflow : b = -1 → (q = BitVec.intMin 64 ∧ r = 0 ↔ a = BitVec.intMin 64)

def DividesCorrectly (a b : Word) : Prop :=
  ∃ q qu r ru, DivOp.div.Writes a b q ∧ DivOp.divu.Writes a b qu ∧ DivOp.rem.Writes a b r ∧
    DivOp.remu.Writes a b ru ∧ RiscvDivision a b q qu r ru

theorem recompose_signed {n : ℕ} (a b : BitVec n) : a = b * a.sdiv b + a.srem b := by
  have hq : a.sdiv b = BitVec.ofInt n (a.toInt.tdiv b.toInt) := by
    rw [← BitVec.toInt_inj, BitVec.toInt_sdiv, BitVec.toInt_ofInt]
  have hr : a.srem b = BitVec.ofInt n (a.toInt.tmod b.toInt) := by
    rw [← BitVec.toInt_srem, BitVec.ofInt_toInt]
  calc
    a = BitVec.ofInt n (b.toInt * a.toInt.tdiv b.toInt + a.toInt.tmod b.toInt) := by
      rw [Int.mul_tdiv_add_tmod, BitVec.ofInt_toInt]
    _ = b * a.sdiv b + a.srem b := by
      rw [BitVec.ofInt_add, BitVec.ofInt_mul, BitVec.ofInt_toInt, hq, hr]

theorem recompose_unsigned {n : ℕ} (a b : BitVec n) : a = b * (a / b) + a % b := by
  refine BitVec.eq_of_toNat_eq ?_
  rw [BitVec.toNat_add, BitVec.toNat_mul, BitVec.toNat_udiv, BitVec.toNat_umod,
    Nat.mod_add_mod, Nat.div_add_mod, Nat.mod_eq_of_lt a.isLt]

theorem sdiv_neg_one_eq_min_iff {n : ℕ} (a : BitVec n) :
    a.sdiv (-1) = BitVec.intMin n ↔ a = BitVec.intMin n := by
  constructor
  · intro hq
    by_contra ha
    exact BitVec.sdiv_ne_intMin_of_ne_intMin ha hq
  · rintro rfl
    exact BitVec.intMin_sdiv_neg_one

theorem srem_neg_one {n : ℕ} (hn : 0 < n) (a : BitVec n) : a.srem (-1) = 0 := by
  have hneg : (-1 : BitVec n).toInt = -1 := by
    refine (congrArg BitVec.toInt BitVec.neg_one_eq_allOnes).trans ?_
    rw [BitVec.toInt_allOnes, if_pos hn]
  rw [← BitVec.toInt_inj, BitVec.toInt_srem, hneg, Int.tmod_neg, Int.tmod_one]
  exact BitVec.toInt_zero.symm

theorem riscvDivision {a b : Word} (hb : b ≠ 0) :
    RiscvDivision a b (a.sdiv b) (a / b) (a.srem b) (a % b) where
  quotient _ hne := by
    refine BitVec.toInt_sdiv_of_ne_or_ne a b ?_
    by_cases ha : a = BitVec.intMin 64
    · exact .inr fun hb1 => hne ⟨ha, hb1⟩
    · exact .inl ha
  remainder _ := BitVec.toInt_srem a b
  quotientU _ := BitVec.toNat_udiv
  remainderU _ := BitVec.toNat_umod
  recompose _ := recompose_signed a b
  recomposeU _ := recompose_unsigned a b
  byZero h0 := absurd h0 hb
  overflow h1 := by
    subst h1
    rw [sdiv_neg_one_eq_min_iff, and_iff_left (srem_neg_one (by decide) a)]

theorem riscvDivision_zero (a : Word) : RiscvDivision a 0 (-1) (-1) a a where
  quotient h := absurd rfl h
  remainder h := absurd rfl h
  quotientU h := absurd rfl h
  remainderU h := absurd rfl h
  recompose h := absurd rfl h
  recomposeU h := absurd rfl h
  byZero _ := ⟨rfl, rfl, rfl, rfl⟩
  overflow h := absurd h (by decide)

/-- The dividends that the double conversion takes for `-2 ^ 63`. -/
def TakenForMin (a : Word) : Prop := -2 ^ 63 < a.toInt ∧ a.toInt ≤ -2 ^ 63 + 512

theorem divides_of_not_taken {a b : Word} (h : ¬ (b = -1 ∧ TakenForMin a)) :
    DividesCorrectly a b := by
  by_cases hb : b = 0
  · subst hb
    exact ⟨_, _, _, _, writes_zero .div a, writes_zero .divu a, writes_zero .rem a,
      writes_zero .remu a, riscvDivision_zero a⟩
  have hq : DivOp.div.Writes a b (a.sdiv b) := by
    by_cases ho : Overflows a b
    · -- only the least dividend is left, for which the architecture has the same quotient
      have hmin : -2 ^ 63 ≤ a.toInt := BitVec.le_toInt a
      have heq : a.toInt = -2 ^ 63 := by
        by_contra hne
        exact h ⟨ho.2, by omega, ho.1⟩
      have ha : a = BitVec.intMin 64 := by
        rw [← BitVec.toInt_inj, heq]
        decide
      have hw := div_writes_overflow ho
      rwa [← (sdiv_neg_one_eq_min_iff a).mpr ha, ← ho.2] at hw
    · exact div_writes hb ho
  exact ⟨_, _, _, _, hq, divu_writes hb, rem_writes hb, remu_writes hb, riscvDivision hb⟩

/-- The divisions are the architecture's except for the negations of the 512 numbers next to
`-2 ^ 63`: there the quotient is `-2 ^ 63`. -/
theorem division_iff (a b : Word) : DividesCorrectly a b ↔ ¬ (b = -1 ∧ TakenForMin a) := by
  constructor
  · rintro ⟨q, qu, r, ru, hq, -, -, -, hd⟩ ⟨rfl, hlo, hhi⟩
    have hmin : q = BitVec.intMin 64 := hq.unique (div_writes_overflow ⟨hhi, rfl⟩)
    have hne : a ≠ BitVec.intMin 64 := by
      rintro rfl
      exact absurd hlo (by decide)
    -- the quotient would be a positive number, and the source gives the least one
    have htrunc := hd.quotient (by decide) fun h => hne h.1
    rw [hmin, show ((-1 : Word).toInt) = -1 from rfl, Int.tdiv_neg, Int.tdiv_one,
      show (BitVec.intMin 64).toInt = -2 ^ 63 by decide] at htrunc
    have hmax : a.toInt < 2 ^ 63 := BitVec.toInt_lt
    omega
  · exact divides_of_not_taken

/-- `(-2 ^ 63 + 1) / -1`, which is `2 ^ 63 - 1`. -/
theorem division_wrong : ¬ ∀ a b, DividesCorrectly a b := by
  intro h
  have hq : DivOp.div.Writes 0x8000000000000001 (-1) 0x8000000000000000 :=
    DivOp.writes_of_divi (o := .div) (q := -2 ^ 63) (by decide)
  obtain ⟨q, qu, r, ru, hw, -, -, -, hd⟩ := h 0x8000000000000001 (-1)
  have htrunc := hd.quotient (by decide) (by decide)
  rw [hw.unique hq] at htrunc
  exact absurd htrunc (by decide)

end RiscvEmu
