import RiscvEmu.Decode
import RiscvEmu.Csr
import RiscvEmu.Lib.Words
import RiscvEmu.Rv64i

/-! The fields and immediates that the decode stage takes out of the encodings of the RV64I base. -/

namespace RiscvEmu

open Rv64i

/-! ### Instruction fields -/

/-- The fields of a word in the layout of register-register instructions, with which the other
layouts agree where they have the same fields. -/
structure Fields (ins : Word) (f7 : BitVec 7) (r2 r1 : Reg) (f3 : BitVec 3) (d : Reg)
    (opc : BitVec 7) : Prop where
  opcode : (ins &&& 0b1111111).toNat = opc.toNat
  rd : (rd ins).setWidth 5 = d
  func3 : (func3 ins).toNat = f3.toNat
  rs1 : (rs1 ins).setWidth 5 = r1
  rs2 : (rs2 ins).setWidth 5 = r2
  func7 : (func7 ins).toNat = f7.toNat
  imm : (imm11_0 ins).toNat = f7.toNat * 2 ^ 5 + r2.toNat

theorem toNat_setWidth_word (w : BitVec 32) : (w.setWidth 64).toNat = w.toNat :=
  BitVec.toNat_setWidth_of_le (by decide)

theorem eq_of_toNat_word {w : Word} {r : Reg} (h : w.toNat = r.toNat) : w.setWidth 5 = r := by
  refine BitVec.eq_of_toNat_eq ?_
  rw [BitVec.toNat_setWidth, h, Nat.mod_eq_of_lt r.isLt]

theorem rType_fields (f7 : BitVec 7) (r2 r1 : Reg) (f3 : BitVec 3) (d : Reg) (opc : BitVec 7) :
    Fields ((rType f7 r2 r1 f3 d opc).setWidth 64) f7 r2 r1 f3 d opc := by
  have hins := toNat_setWidth_word (rType f7 r2 r1 f3 d opc)
  generalize (rType f7 r2 r1 f3 d opc).setWidth 64 = ins at hins
  -- the word from each field upwards
  have h7 : ins.toNat / 2 ^ 7 = (f7 ++ r2 ++ r1 ++ f3 ++ d).toNat := by
    rw [hins]
    exact Words.toNat_append_div _ opc
  have h12 : ins.toNat / 2 ^ 12 = (f7 ++ r2 ++ r1 ++ f3).toNat :=
    Words.toNat_append_div_add _ d _ 7 h7
  have h15 : ins.toNat / 2 ^ 15 = (f7 ++ r2 ++ r1).toNat := Words.toNat_append_div_add _ f3 _ 12 h12
  have h20 : ins.toNat / 2 ^ 20 = (f7 ++ r2).toNat := Words.toNat_append_div_add _ r1 _ 15 h15
  have h25 : ins.toNat / 2 ^ 25 = f7.toNat := Words.toNat_append_div_add _ r2 _ 20 h20
  have hrd : (rd ins).toNat = d.toNat :=
    (toNat_field ins 7 5 (by decide)).trans (by rw [h7, Words.toNat_append_mod])
  have hrs1 : (rs1 ins).toNat = r1.toNat :=
    (toNat_field ins 15 5 (by decide)).trans (by rw [h15, Words.toNat_append_mod])
  have hrs2 : (rs2 ins).toNat = r2.toNat :=
    (toNat_field ins 20 5 (by decide)).trans (by rw [h20, Words.toNat_append_mod])
  refine ⟨?_, eq_of_toNat_word hrd, ?_, eq_of_toNat_word hrs1, eq_of_toNat_word hrs2, ?_, ?_⟩
  · rw [← Words.toNat_append_mod (f7 ++ r2 ++ r1 ++ f3 ++ d) opc, ← rType, ← hins]
    exact Nat.and_two_pow_sub_one_eq_mod _ 7
  · exact (toNat_field ins 12 3 (by decide)).trans (by rw [h12, Words.toNat_append_mod])
  · exact (toNat_field ins 25 7 (by decide)).trans (by rw [h25, Nat.mod_eq_of_lt f7.isLt])
  · refine (toNat_field ins 20 12 (by decide)).trans ?_
    rw [h20, Nat.mod_eq_of_lt (f7 ++ r2).isLt, Words.toNat_append]

theorem toNat_extract {w : ℕ} (x : BitVec w) (i n : ℕ) :
    (x.extractLsb' i n).toNat = x.toNat / 2 ^ i % 2 ^ n := by
  rw [BitVec.extractLsb'_toNat, Nat.shiftRight_eq_div_pow]

theorem iType_eq (imm : BitVec 12) (r1 : Reg) (f3 : BitVec 3) (d : Reg) (opc : BitVec 7) :
    iType imm r1 f3 d opc = rType (imm.extractLsb' 5 7) (imm.extractLsb' 0 5) r1 f3 d opc := by
  refine BitVec.eq_of_toNat_eq ?_
  simp only [iType, rType, Words.toNat_append, toNat_extract]
  omega

theorem iType_fields (imm : BitVec 12) (r1 : Reg) (f3 : BitVec 3) (d : Reg) (opc : BitVec 7) :
    Fields ((iType imm r1 f3 d opc).setWidth 64) (imm.extractLsb' 5 7) (imm.extractLsb' 0 5) r1 f3 d
      opc := by
  rw [iType_eq]
  exact rType_fields ..

theorem sType_fields (imm : BitVec 12) (r2 r1 : Reg) (f3 : BitVec 3) (opc : BitVec 7) :
    Fields ((sType imm r2 r1 f3 opc).setWidth 64) (imm.extractLsb' 5 7) r2 r1 f3
      (imm.extractLsb' 0 5) opc := rType_fields ..

theorem bType_eq (imm : BitVec 12) (r2 r1 : Reg) (f3 : BitVec 3) (opc : BitVec 7) :
    bType imm r2 r1 f3 opc = rType (imm.extractLsb' 11 1 ++ imm.extractLsb' 4 6) r2 r1 f3
      (imm.extractLsb' 0 4 ++ imm.extractLsb' 10 1) opc := by
  refine BitVec.eq_of_toNat_eq ?_
  simp only [bType, rType, Words.toNat_append, toNat_extract]
  omega

theorem bType_fields (imm : BitVec 12) (r2 r1 : Reg) (f3 : BitVec 3) (opc : BitVec 7) :
    Fields ((bType imm r2 r1 f3 opc).setWidth 64) (imm.extractLsb' 11 1 ++ imm.extractLsb' 4 6) r2 r1
      f3 (imm.extractLsb' 0 4 ++ imm.extractLsb' 10 1) opc := by
  rw [bType_eq]
  exact rType_fields ..

/-- The fields of a word with the opcode, `rd` and a 20-bit immediate. -/
structure UpperFields (ins : Word) (imm : BitVec 20) (d : Reg) (opc : BitVec 7) : Prop where
  opcode : (ins &&& 0b1111111).toNat = opc.toNat
  rd : (rd ins).setWidth 5 = d
  word : ins.toNat = imm.toNat * 2 ^ 12 + d.toNat * 2 ^ 7 + opc.toNat

theorem uType_fields (imm : BitVec 20) (d : Reg) (opc : BitVec 7) :
    UpperFields ((uType imm d opc).setWidth 64) imm d opc := by
  have hw : (uType imm d opc).toNat = imm.toNat * 2 ^ 12 + d.toNat * 2 ^ 7 + opc.toNat := by
    simp only [uType, Words.toNat_append]
    omega
  have hins := toNat_setWidth_word (uType imm d opc)
  rw [hw] at hins
  generalize (uType imm d opc).setWidth 64 = ins at hins
  have hd := d.isLt
  have ho := opc.isLt
  have hopc : (ins &&& 0b1111111).toNat = ins.toNat % 2 ^ 7 := Nat.and_two_pow_sub_one_eq_mod _ 7
  have hrd : (rd ins).toNat = ins.toNat / 2 ^ 7 % 2 ^ 5 := toNat_field ins 7 5 (by decide)
  refine ⟨by omega, BitVec.eq_of_toNat_eq ?_, hins⟩
  rw [BitVec.toNat_setWidth]
  omega

theorem jType_fields (imm : BitVec 20) (d : Reg) (opc : BitVec 7) :
    UpperFields ((jType imm d opc).setWidth 64) (imm.extractLsb' 19 1 ++ imm.extractLsb' 0 10 ++
      imm.extractLsb' 10 1 ++ imm.extractLsb' 11 8) d opc := uType_fields ..

/-! ### Immediates -/

theorem signExtend_eq {n : ℕ} (x : BitVec n) (hn : 0 < n) (hv : n ≤ 64) :
    signExtend (x.setWidth 64) n = x.signExtend 64 := by
  have hm : ((1 <<< (n - 1) : ℕ) : Word) = Words.msbMask 64 n := by
    refine BitVec.eq_of_toNat_eq ?_
    rw [Words.toNat_msbMask hn hv, Nat.shiftLeft_eq, one_mul]
    exact Nat.mod_eq_of_lt (Nat.pow_lt_pow_right (by decide) (by omega))
  rw [← Words.xor_sub_msbMask x hn hv, ← hm]
  rfl

theorem toNat_field_shiftLeft (x : Word) (i k j : ℕ) (h : k + j ≤ 64) :
    (((x >>> i) &&& BitVec.ofNat 64 (2 ^ k - 1)) <<< j).toNat =
      x.toNat / 2 ^ i % 2 ^ k * 2 ^ j := by
  have hlt : x.toNat / 2 ^ i % 2 ^ k * 2 ^ j < 2 ^ 64 := by
    calc x.toNat / 2 ^ i % 2 ^ k * 2 ^ j
        < 2 ^ k * 2 ^ j :=
          Nat.mul_lt_mul_of_pos_right (Nat.mod_lt _ (Nat.two_pow_pos k)) (Nat.two_pow_pos j)
      _ = 2 ^ (k + j) := (Nat.pow_add 2 k j).symm
      _ ≤ 2 ^ 64 := Nat.pow_le_pow_right (by decide) h
  rw [BitVec.toNat_shiftLeft, toNat_field x i k (by omega), Nat.shiftLeft_eq, Nat.mod_eq_of_lt hlt]

theorem toNat_field_masked (x : Word) (i k : ℕ) (h : k + i ≤ 64) :
    (x &&& (BitVec.ofNat 64 (2 ^ k - 1) <<< i)).toNat = x.toNat / 2 ^ i % 2 ^ k * 2 ^ i := by
  rw [← toNat_field_shiftLeft x i k i h]
  refine congrArg _ (BitVec.eq_of_getLsbD_eq fun b hb => ?_)
  simp only [BitVec.getLsbD_and, BitVec.getLsbD_shiftLeft, BitVec.getLsbD_ushiftRight]
  by_cases hlt : b < i
  · simp [hlt]
  · rw [show i + (b - i) = b by omega]
    simp [hlt, hb]

theorem imm11_0_iType (imm : BitVec 12) (r1 : Reg) (f3 : BitVec 3) (d : Reg) (opc : BitVec 7) :
    imm11_0 ((iType imm r1 f3 d opc).setWidth 64) = imm.setWidth 64 := by
  have hf := (iType_fields imm r1 f3 d opc).imm
  rw [toNat_extract, toNat_extract] at hf
  have himm := imm.isLt
  refine BitVec.eq_of_toNat_eq ?_
  rw [hf, BitVec.toNat_setWidth]
  omega

section

variable {ins : Word} {f7 : BitVec 7} {r2 r1 d : Reg} {f3 : BitVec 3} {opc : BitVec 7}

theorem Fields.toNat_func7 (h : Fields ins f7 r2 r1 f3 d opc) :
    ins.toNat / 2 ^ 25 % 2 ^ 7 = f7.toNat := by
  rw [← h.func7]
  exact (toNat_field ins 25 7 (by decide)).symm

theorem Fields.toNat_rd (h : Fields ins f7 r2 r1 f3 d opc) :
    ins.toNat / 2 ^ 7 % 2 ^ 5 = d.toNat := by
  have hrd : (RiscvEmu.rd ins).toNat = ins.toNat / 2 ^ 7 % 2 ^ 5 := toNat_field ins 7 5 (by decide)
  rw [← h.rd, BitVec.toNat_setWidth, hrd, Nat.mod_mod]

theorem Fields.immS (h : Fields ins f7 r2 r1 f3 d opc) :
    (immS ins).toNat = f7.toNat * 2 ^ 5 + d.toNat := by
  have h7 := f7.isLt
  have hhi := toNat_field_shiftLeft ins 25 7 5 (by decide)
  have hlo := toNat_field ins 7 5 (by decide)
  have hsum : (RiscvEmu.immS ins).toNat =
      (ins.toNat / 2 ^ 25 % 2 ^ 7 * 2 ^ 5 + ins.toNat / 2 ^ 7 % 2 ^ 5) % 2 ^ 64 := by
    rw [← hhi, ← hlo, ← BitVec.toNat_add]
    rfl
  rw [hsum, h.toNat_func7, h.toNat_rd]
  omega

theorem Fields.immB (h : Fields ins f7 r2 r1 f3 d opc) :
    (immB ins).toNat = f7.toNat / 2 ^ 6 * 2 ^ 12 + d.toNat % 2 ^ 1 * 2 ^ 11 +
      f7.toNat % 2 ^ 6 * 2 ^ 5 + d.toNat / 2 ^ 1 * 2 ^ 1 := by
  have h7 := f7.isLt
  have hd := d.isLt
  have h12 := toNat_field_shiftLeft ins 31 1 12 (by decide)
  have h11 := toNat_field_shiftLeft ins 7 1 11 (by decide)
  have h5 := toNat_field_shiftLeft ins 25 6 5 (by decide)
  have hlow := toNat_field_masked (ins >>> 7) 1 4 (by decide)
  have hsum : (RiscvEmu.immB ins).toNat = (((ins.toNat / 2 ^ 31 % 2 ^ 1 * 2 ^ 12 +
      ins.toNat / 2 ^ 7 % 2 ^ 1 * 2 ^ 11) % 2 ^ 64 + ins.toNat / 2 ^ 25 % 2 ^ 6 * 2 ^ 5) % 2 ^ 64 +
        (ins >>> 7).toNat / 2 ^ 1 % 2 ^ 4 * 2 ^ 1) % 2 ^ 64 := by
    rw [← h12, ← h11, ← BitVec.toNat_add, ← h5, ← BitVec.toNat_add, ← hlow, ← BitVec.toNat_add]
    rfl
  have hb12 : ins.toNat / 2 ^ 31 % 2 ^ 1 = f7.toNat / 2 ^ 6 := by
    rw [← h.toNat_func7]
    exact (Words.field_div ins.toNat 25 6 1).symm
  have hb5 : ins.toNat / 2 ^ 25 % 2 ^ 6 = f7.toNat % 2 ^ 6 := by
    rw [← h.toNat_func7]
    exact (Words.field_mod ins.toNat 25 6 1).symm
  have hb11 : ins.toNat / 2 ^ 7 % 2 ^ 1 = d.toNat % 2 ^ 1 := by
    rw [← h.toNat_rd]
    exact (Words.field_mod ins.toNat 7 1 4).symm
  have hb1 : (ins >>> 7).toNat / 2 ^ 1 % 2 ^ 4 = d.toNat / 2 ^ 1 := by
    rw [← h.toNat_rd, BitVec.toNat_ushiftRight, Nat.shiftRight_eq_div_pow, Nat.div_div_eq_div_mul,
      ← Nat.pow_add]
    exact (Words.field_div ins.toNat 7 1 4).symm
  rw [hsum, hb12, hb5, hb11, hb1]
  clear hsum hb12 hb5 hb11 hb1 h12 h11 h5 hlow
  omega

theorem UpperFields.immJ {imm : BitVec 20} (h : UpperFields ins imm d opc) :
    (immJ ins).toNat = imm.toNat / 2 ^ 8 / 2 ^ 1 / 2 ^ 10 * 2 ^ 20 + imm.toNat % 2 ^ 8 * 2 ^ 12 +
      imm.toNat / 2 ^ 8 % 2 ^ 1 * 2 ^ 11 + imm.toNat / 2 ^ 8 / 2 ^ 1 % 2 ^ 10 * 2 ^ 1 := by
  have himm := imm.isLt
  have hd := d.isLt
  have ho := opc.isLt
  have hword : ins.toNat / 2 ^ 12 = imm.toNat := by
    have hw := h.word
    omega
  have h20 := toNat_field_shiftLeft ins 31 1 20 (by decide)
  have h12 := toNat_field_masked ins 12 8 (by decide)
  have h11 := toNat_field_shiftLeft ins 20 1 11 (by decide)
  have h1 := toNat_field_shiftLeft ins 21 10 1 (by decide)
  have hsum : (RiscvEmu.immJ ins).toNat = (((ins.toNat / 2 ^ 31 % 2 ^ 1 * 2 ^ 20 +
      ins.toNat / 2 ^ 12 % 2 ^ 8 * 2 ^ 12) % 2 ^ 64 + ins.toNat / 2 ^ 20 % 2 ^ 1 * 2 ^ 11) % 2 ^ 64 +
        ins.toNat / 2 ^ 21 % 2 ^ 10 * 2 ^ 1) % 2 ^ 64 := by
    rw [← h20, ← h12, ← BitVec.toNat_add, ← h11, ← BitVec.toNat_add, ← h1, ← BitVec.toNat_add]
    rfl
  have hdiv : ∀ n, ins.toNat / 2 ^ (12 + n) = imm.toNat / 2 ^ n := fun n => by
    rw [Nat.pow_add, ← Nat.div_div_eq_div_mul, hword]
  have h9 : imm.toNat / 2 ^ 8 / 2 ^ 1 = imm.toNat / 2 ^ 9 := Nat.div_div_eq_div_mul ..
  have h19 : imm.toNat / 2 ^ 9 / 2 ^ 10 = imm.toNat / 2 ^ 19 := Nat.div_div_eq_div_mul ..
  have hb20 : imm.toNat / 2 ^ 19 < 2 ^ 1 := Nat.div_lt_of_lt_mul himm
  have hb12 : imm.toNat % 2 ^ 8 < 2 ^ 8 := Nat.mod_lt _ (by decide)
  have hb11 : imm.toNat / 2 ^ 8 % 2 ^ 1 < 2 ^ 1 := Nat.mod_lt _ (by decide)
  have hb1 : imm.toNat / 2 ^ 9 % 2 ^ 10 < 2 ^ 10 := Nat.mod_lt _ (by decide)
  rw [hsum, hdiv 19, hdiv 0, hdiv 8, hdiv 9, h9, h19, Nat.mod_eq_of_lt hb20, Nat.pow_zero,
    Nat.div_one]
  generalize imm.toNat / 2 ^ 19 = a at hb20 ⊢
  generalize imm.toNat % 2 ^ 8 = b at hb12 ⊢
  generalize imm.toNat / 2 ^ 8 % 2 ^ 1 = c at hb11 ⊢
  generalize imm.toNat / 2 ^ 9 % 2 ^ 10 = e at hb1 ⊢
  omega

end

theorem immS_sType (imm : BitVec 12) (r2 r1 : Reg) (f3 : BitVec 3) (opc : BitVec 7) :
    immS ((sType imm r2 r1 f3 opc).setWidth 64) = imm.setWidth 64 := by
  have hf := (sType_fields imm r2 r1 f3 opc).immS
  rw [toNat_extract, toNat_extract] at hf
  have himm := imm.isLt
  refine BitVec.eq_of_toNat_eq ?_
  rw [hf, BitVec.toNat_setWidth]
  omega

theorem immB_bType (imm : BitVec 12) (r2 r1 : Reg) (f3 : BitVec 3) (opc : BitVec 7) :
    immB ((bType imm r2 r1 f3 opc).setWidth 64) = (imm ++ 0#1).setWidth 64 := by
  have hf := (bType_fields imm r2 r1 f3 opc).immB
  rw [Words.toNat_append_div, Words.toNat_append_div, Words.toNat_append_mod,
    Words.toNat_append_mod] at hf
  simp only [toNat_extract] at hf
  have himm := imm.isLt
  refine BitVec.eq_of_toNat_eq ?_
  rw [hf, BitVec.toNat_setWidth, Words.toNat_append, BitVec.toNat_ofNat]
  omega

theorem immJ_jType (imm : BitVec 20) (d : Reg) (opc : BitVec 7) :
    immJ ((jType imm d opc).setWidth 64) = (imm ++ 0#1).setWidth 64 := by
  have hf := (jType_fields imm d opc).immJ
  rw [Words.toNat_append_div, Words.toNat_append_mod, Words.toNat_append_div,
    Words.toNat_append_mod, Words.toNat_append_div, Words.toNat_append_mod] at hf
  simp only [toNat_extract] at hf
  have himm := imm.isLt
  refine BitVec.eq_of_toNat_eq ?_
  rw [hf, BitVec.toNat_setWidth, Words.toNat_append, BitVec.toNat_ofNat]
  omega

end RiscvEmu
