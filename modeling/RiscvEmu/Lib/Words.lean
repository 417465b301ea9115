import Mathlib.Data.BitVec

/-! Idioms of C programs on unsigned words that hold narrower ones: sign extension by an exclusive
or and a subtraction, the arithmetic shift by one, and fields of a concatenation. -/

namespace Words

variable {n v : ℕ}

def msbMask (v n : ℕ) : BitVec v := BitVec.twoPow v (n - 1)

theorem getLsbD_msbMask (i : ℕ) (hn : 0 < n) (hv : n ≤ v) :
    (msbMask v n).getLsbD i = decide (i = n - 1) := by
  rw [msbMask, BitVec.getLsbD_twoPow, decide_eq_true (show n - 1 < v by omega), Bool.true_and]
  exact decide_eq_decide.mpr eq_comm

theorem toNat_msbMask (hn : 0 < n) (hv : n ≤ v) : (msbMask v n).toNat = 2 ^ (n - 1) :=
  BitVec.toNat_twoPow_of_lt (by omega)

theorem getLsbD_setWidth_msb (x : BitVec n) (hn : 0 < n) (hv : n ≤ v) :
    (x.setWidth v).getLsbD (n - 1) = x.msb := by
  rw [BitVec.getLsbD_setWidth, decide_eq_true (show n - 1 < v by omega), Bool.true_and,
    BitVec.msb_eq_getLsbD_last]

theorem xor_eq_add {y : BitVec v} (hn : 0 < n) (hv : n ≤ v) (h : y.getLsbD (n - 1) = false) :
    y ^^^ msbMask v n = y + msbMask v n := by
  have hand : y &&& msbMask v n = 0#v := by
    refine BitVec.eq_of_getLsbD_eq fun i hi => ?_
    rw [BitVec.getLsbD_and, getLsbD_msbMask i hn hv, BitVec.getLsbD_zero]
    by_cases h' : i = n - 1
    · rw [h', h, Bool.false_and]
    · rw [decide_eq_false h', Bool.and_false]
  rw [BitVec.add_eq_or_of_and_eq_zero _ _ hand]
  refine BitVec.eq_of_getLsbD_eq fun i hi => ?_
  have hbit := congrArg (fun z => z.getLsbD i) hand
  simp only [BitVec.getLsbD_and, BitVec.getLsbD_zero] at hbit
  rw [BitVec.getLsbD_xor, BitVec.getLsbD_or]
  revert hbit
  cases y.getLsbD i <;> cases (msbMask v n).getLsbD i <;> decide

/-- Sign extension: flip the sign bit, and subtract it. -/
theorem xor_sub_msbMask (x : BitVec n) (hn : 0 < n) (hv : n ≤ v) :
    (x.setWidth v ^^^ msbMask v n) - msbMask v n = x.signExtend v := by
  cases hmsb : x.msb with
  | false =>
    rw [xor_eq_add hn hv (by rw [getLsbD_setWidth_msb x hn hv, hmsb]), BitVec.add_sub_cancel,
      BitVec.signExtend_eq_setWidth_of_msb_false hmsb]
  | true =>
    -- the flipped word has no sign bit, so that flipping it back adds the sign bit
    have hflip : (x.setWidth v ^^^ msbMask v n) + msbMask v n = x.setWidth v := by
      rw [← xor_eq_add hn hv, BitVec.xor_assoc, BitVec.xor_self, BitVec.xor_zero]
      rw [BitVec.getLsbD_xor, getLsbD_setWidth_msb x hn hv, hmsb, getLsbD_msbMask _ hn hv]
      simp
    have hsub : x.setWidth v ^^^ msbMask v n = x.setWidth v - msbMask v n :=
      eq_sub_of_add_eq hflip
    have hx : x.toNat < 2 ^ n := x.isLt
    have hpow : 2 ^ n = 2 * 2 ^ (n - 1) := by
      rw [← Nat.pow_succ', Nat.succ_eq_add_one, Nat.sub_add_cancel hn]
    have hle : 2 ^ n ≤ 2 ^ v := Nat.pow_le_pow_right (by decide) hv
    rw [hsub]
    refine BitVec.eq_of_toNat_eq ?_
    rw [BitVec.toNat_signExtend, hmsb, if_pos rfl, BitVec.toNat_sub, BitVec.toNat_sub,
      toNat_msbMask hn hv, BitVec.toNat_setWidth, Nat.mod_eq_of_lt (show x.toNat < 2 ^ v by omega)]
    have hge : 2 ^ (n - 1) ≤ x.toNat := BitVec.toNat_ge_of_msb_true hmsb
    rw [show 2 ^ v - 2 ^ (n - 1) + x.toNat = 2 ^ v + (x.toNat - 2 ^ (n - 1)) by omega,
      Nat.add_mod_left, Nat.mod_eq_of_lt (show x.toNat - 2 ^ (n - 1) < 2 ^ v by omega),
      Nat.mod_eq_of_lt (show 2 ^ v - 2 ^ (n - 1) + (x.toNat - 2 ^ (n - 1)) < 2 ^ v by omega)]
    omega

/-- One step of an arithmetic shift to the right: keep the sign bit, and shift the rest. -/
theorem sshiftRight_one (x : BitVec n) (hn : 0 < n) (hv : n ≤ v) :
    (x.setWidth v &&& msbMask v n) ||| (x.setWidth v >>> 1) = (x.sshiftRight 1).setWidth v := by
  refine BitVec.eq_of_getLsbD_eq fun i hi => ?_
  rw [BitVec.getLsbD_or, BitVec.getLsbD_and, BitVec.getLsbD_ushiftRight,
    getLsbD_msbMask i hn hv, BitVec.getLsbD_setWidth, BitVec.getLsbD_setWidth,
    BitVec.getLsbD_setWidth, BitVec.getLsbD_sshiftRight, decide_eq_true hi, Bool.true_and]
  by_cases hlast : i = n - 1
  · subst hlast
    rw [BitVec.getLsbD_of_ge x (1 + (n - 1)) (by omega), ← BitVec.msb_eq_getLsbD_last,
      if_neg (show ¬ 1 + (n - 1) < n by omega), decide_eq_false (show ¬ n ≤ n - 1 by omega)]
    simp
  · by_cases hlt : i < n
    · rw [if_pos (show 1 + i < n by omega), decide_eq_false hlast,
        decide_eq_false (show ¬ n ≤ i by omega), decide_eq_true (show 1 + i < v by omega)]
      simp
    · rw [BitVec.getLsbD_of_ge x (1 + i) (by omega), decide_eq_true (show n ≤ i by omega),
        decide_eq_false hlast]
      simp

theorem toNat_append {m n : ℕ} (x : BitVec m) (y : BitVec n) :
    (x ++ y).toNat = x.toNat * 2 ^ n + y.toNat := by
  rw [BitVec.toNat_append, Nat.shiftLeft_eq, Nat.mul_comm, ← Nat.two_pow_add_eq_or_of_lt y.isLt]

theorem toNat_append_div {m n : ℕ} (x : BitVec m) (y : BitVec n) :
    (x ++ y).toNat / 2 ^ n = x.toNat := by
  rw [toNat_append, Nat.mul_comm, Nat.mul_add_div (Nat.two_pow_pos n), Nat.div_eq_of_lt y.isLt,
    Nat.add_zero]

theorem toNat_append_mod {m n : ℕ} (x : BitVec m) (y : BitVec n) :
    (x ++ y).toNat % 2 ^ n = y.toNat := by
  rw [toNat_append, Nat.mul_comm, Nat.mul_add_mod, Nat.mod_eq_of_lt y.isLt]

theorem toNat_append_div_add {m n : ℕ} (x : BitVec m) (y : BitVec n) (z i : ℕ)
    (h : z / 2 ^ i = (x ++ y).toNat) : z / 2 ^ (i + n) = x.toNat := by
  rw [Nat.pow_add, ← Nat.div_div_eq_div_mul, h, toNat_append_div]

theorem field_div (x i j k : ℕ) : x / 2 ^ i % 2 ^ (j + k) / 2 ^ j = x / 2 ^ (i + j) % 2 ^ k := by
  rw [Nat.pow_add 2 j k, Nat.mod_mul_right_div_self, Nat.div_div_eq_div_mul, ← Nat.pow_add]

theorem field_mod (x i j k : ℕ) : x / 2 ^ i % 2 ^ (j + k) % 2 ^ j = x / 2 ^ i % 2 ^ j :=
  Nat.mod_mod_of_dvd _ ⟨2 ^ k, Nat.pow_add 2 j k⟩

end Words
