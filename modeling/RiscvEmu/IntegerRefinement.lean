import RiscvEmu.Encodings
import RiscvEmu.Turn

/-! An iteration of the loop at an integer instruction of the RV64I base does what the architecture
says. -/

namespace RiscvEmu

open Rv64i

/-! ### Values -/

theorem signedValue_eq (x : Word) : signedValue x = x.toInt := by
  unfold signedValue
  split
  · have h : signExtend (x.setWidth 64) 64 = x.signExtend 64 :=
      signExtend_eq x (by decide) (by decide)
    rw [BitVec.setWidth_eq, BitVec.signExtend_eq] at h
    exact congrArg BitVec.toInt h
  · rfl

theorem and_mask32 (x : Word) : x &&& mask32 = (x.setWidth 32).setWidth 64 := by
  refine BitVec.eq_of_toNat_eq ?_
  have h : (x &&& mask32).toNat = x.toNat % 2 ^ 32 := Nat.and_two_pow_sub_one_eq_mod _ 32
  rw [h, BitVec.toNat_setWidth, BitVec.toNat_setWidth]
  omega

theorem setWidth_up_down (a : BitVec 32) : (a.setWidth 64).setWidth 32 = a := by
  rw [BitVec.setWidth_setWidth (by decide), BitVec.setWidth_eq]

theorem setWidth_mask32 (x : Word) : (x &&& mask32).setWidth 32 = x.setWidth 32 := by
  rw [and_mask32, setWidth_up_down]

theorem signExtend_mask32 (x : Word) :
    signExtend (x &&& mask32) 32 = (x.setWidth 32).signExtend 64 := by
  rw [and_mask32]
  exact signExtend_eq _ (by decide) (by decide)

theorem signedValue32_eq (x : Word) : signedValue32 x = (x.setWidth 32).toInt := by
  have hext := signExtend_mask32 x
  unfold signExtend at hext
  have hlow : ((x.setWidth 32).signExtend 64).setWidth 32 = x.setWidth 32 :=
    BitVec.eq_of_getLsbD_eq fun i hi => by
      rw [BitVec.getLsbD_setWidth, BitVec.getLsbD_signExtend, decide_eq_true hi,
        decide_eq_true (show i < 64 by omega), if_pos hi, Bool.true_and, Bool.true_and]
  unfold signedValue32
  dsimp only
  split
  · exact congrArg BitVec.toInt ((congrArg (BitVec.setWidth 32) hext).trans hlow)
  · rw [setWidth_mask32]

/-- The loop of the shift instructions is the arithmetic shift. -/
theorem shiftLoop_eq {w : ℕ} (hw : 0 < w) (hv : w ≤ 64) (n : ℕ) (y : BitVec w) :
    shiftLoop (Words.msbMask 64 w) n (y.setWidth 64) = (y.sshiftRight n).setWidth 64 := by
  induction n generalizing y with
  | zero => rw [shiftLoop, BitVec.sshiftRight_zero]
  | succ n ih => rw [shiftLoop, Words.sshiftRight_one y hw hv, ih, ← BitVec.sshiftRight_add,
      Nat.add_comm]

theorem shiftLoop_word (n : ℕ) (a : Word) : shiftLoop (1 <<< 63) n a = a.sshiftRight n := by
  have h : shiftLoop (Words.msbMask 64 64) n (a.setWidth 64) = (a.sshiftRight n).setWidth 64 :=
    shiftLoop_eq (by decide) (Nat.le_refl 64) n a
  rwa [BitVec.setWidth_eq, BitVec.setWidth_eq] at h

theorem shiftLoop_mask32 (n : ℕ) (a : Word) :
    shiftLoop (1 <<< 31) n (a &&& mask32) = ((a.setWidth 32).sshiftRight n).setWidth 64 := by
  rw [and_mask32]
  exact shiftLoop_eq (by decide) (by decide) n (a.setWidth 32)

theorem toNat_setWidth_imm (imm : BitVec 12) : (imm.setWidth 64).toNat = imm.toNat :=
  BitVec.toNat_setWidth_of_le (by decide)

/-! ### Arms -/

/-- The state at the opcode `switch` shows this hart: `x0` has been cleared, and the PC advanced. -/
structure Shows (d : State) (h : Hart) : Prop where
  regs : d.regFile = Function.update h.x 0 0
  pc : d.pc = h.pc + 4

section

variable {inp : Input} {ins : Word} {d s' : State} {h : Hart}

theorem Shows.reg {r : Reg} {x : Word} (hs : Shows d h) (hx : x.setWidth 5 = r) :
    d.reg x = h.read r := by
  rw [Machine.reg, hs.regs, hx, Function.update_apply]
  rfl

theorem Shows.pc_sub (hs : Shows d h) : d.pc - 4 = h.pc := by
  rw [hs.pc, BitVec.add_sub_cancel]

/-- The arm leaves the registers and the PC of this hart, and everything else as it was. -/
def Retires (inp : Input) (ins : Word) (d : State) (h : Hart) : Prop :=
  ∃ s', execute inp ins d = .fall s' ∧
    s'.toMachine = { d.toMachine with regFile := s'.regFile, pc := h.pc } ∧
    ∀ r ≠ 0, s'.regFile r = h.x r

theorem update_of_shows (hs : Shows d h) (r : Reg) (v : Word) :
    ∀ q ≠ 0, Function.update d.regFile r v q = Function.update h.x r v q := by
  intro q hq
  rw [hs.regs, Function.update_apply, Function.update_apply, Function.update_apply, if_neg hq]

theorem retires_result {r : Reg} {v : Word} (hs : Shows d h) (hrd : (rd ins).setWidth 5 = r)
    (hx : execute inp ins d = .fall s')
    (hm : s'.toMachine = { d.toMachine with regFile := d.regSet (rd ins) v }) :
    Retires inp ins d (h.result r v) := by
  rw [Machine.regSet, hrd] at hm
  refine ⟨s', hx, ?_, fun q hq => ?_⟩
  · rw [hm, Hart.result, ← hs.pc]
  · rw [hm]
    exact update_of_shows hs r v q hq

theorem retires_link {r : Reg} {target : Word} {h' : Hart} (hs : Shows d h)
    (hrd : (rd ins).setWidth 5 = r) (hx : execute inp ins d = .fall s')
    (hm : s'.toMachine = { d.toMachine with regFile := d.regSet (rd ins) d.pc, pc := target })
    (hl : h.link r target = some h') : Retires inp ins d h' := by
  rw [Machine.regSet, hrd, hs.pc] at hm
  unfold Hart.link Hart.goto at hl
  split at hl
  · cases hl
    refine ⟨s', hx, by rw [hm], fun q hq => ?_⟩
    rw [hm]
    exact update_of_shows hs r _ q hq
  · cases hl

end

section

variable {inp : Input} {d : State} {h h' : Hart} {r r1 r2 : Reg}

abbrev insOf (i : Instr) : Word := (encode i).setWidth 64

theorem upper_imm {ins : Word} {imm : BitVec 20} {opc : BitVec 7}
    (hu : UpperFields ins imm r opc) : ins &&& 0xFFFFF000 = (imm ++ 0#12).setWidth 64 := by
  have himm := imm.isLt
  have hd := r.isLt
  have ho := opc.isLt
  have hmask : (ins &&& 0xFFFFF000).toNat = ins.toNat / 2 ^ 12 % 2 ^ 20 * 2 ^ 12 :=
    toNat_field_masked ins 12 20 (by decide)
  refine BitVec.eq_of_toNat_eq ?_
  rw [hmask, hu.word, BitVec.toNat_setWidth, Words.toNat_append, BitVec.toNat_ofNat]
  omega

theorem upper_imm_shifted {ins : Word} {imm : BitVec 20} {opc : BitVec 7}
    (hu : UpperFields ins imm r opc) : imm31_12 ins <<< 12 = (imm ++ 0#12).setWidth 64 := by
  have himm := imm.isLt
  have hd := r.isLt
  have ho := opc.isLt
  have hfield : (imm31_12 ins <<< 12).toNat = ins.toNat / 2 ^ 12 % 2 ^ 20 * 2 ^ 12 :=
    toNat_field_shiftLeft ins 12 20 12 (by decide)
  refine BitVec.eq_of_toNat_eq ?_
  rw [hfield, hu.word, BitVec.toNat_setWidth, Words.toNat_append, BitVec.toNat_ofNat]
  omega

theorem retires_lui {imm : BitVec 20} (hs : Shows d h) :
    Retires inp (insOf (.lui r imm)) d (h.result r ((imm ++ 0#12).signExtend 64)) := by
  have hu : UpperFields (insOf (.lui r imm)) imm r 0b0110111 := uType_fields imm r _
  have ho : opcode (insOf (.lui r imm)) = .lui := by
    unfold opcode
    rw [hu.opcode]
    rfl
  have hx : execute inp (insOf (.lui r imm)) d = .fall (armLui (insOf (.lui r imm)) d) := by
    unfold execute
    rw [ho]
  refine retires_result hs hu.rd hx ?_
  rw [← signExtend_eq (imm ++ 0#12) (by decide) (by decide), ← upper_imm hu]
  rfl

theorem retires_auipc {imm : BitVec 20} (hs : Shows d h) :
    Retires inp (insOf (.auipc r imm)) d (h.result r (h.pc + (imm ++ 0#12).signExtend 64)) := by
  have hu : UpperFields (insOf (.auipc r imm)) imm r 0b0010111 := uType_fields imm r _
  have ho : opcode (insOf (.auipc r imm)) = .auipc := by
    unfold opcode
    rw [hu.opcode]
    rfl
  have hx : execute inp (insOf (.auipc r imm)) d = .fall (armAuipc (insOf (.auipc r imm)) d) := by
    unfold execute
    rw [ho]
  refine retires_result hs hu.rd hx ?_
  rw [← signExtend_eq (imm ++ 0#12) (by decide) (by decide), ← upper_imm_shifted hu, ← hs.pc_sub]
  rfl

theorem retires_jal {offset : BitVec 20} (hs : Shows d h)
    (hl : h.link r (h.pc + (offset ++ 0#1).signExtend 64) = some h') :
    Retires inp (insOf (.jal r offset)) d h' := by
  have hu : UpperFields (insOf (.jal r offset)) _ r 0b1101111 := jType_fields offset r _
  have ho : opcode (insOf (.jal r offset)) = .jump := by
    unfold opcode
    rw [hu.opcode]
    rfl
  have hx : execute inp (insOf (.jal r offset)) d = .fall (armJump (insOf (.jal r offset)) d) := by
    unfold execute
    rw [ho]
  refine retires_link hs hu.rd hx ?_ hl
  rw [← signExtend_eq (offset ++ 0#1) (by decide) (by decide), ← immJ_jType offset r 0b1101111,
    ← hs.pc_sub]
  rfl

theorem retires_jalr {imm : BitVec 12} (hs : Shows d h)
    (hl : h.link r ((h.read r1 + imm.signExtend 64) &&& ~~~1) = some h') :
    Retires inp (insOf (.jalr r r1 imm)) d h' := by
  have hf : Fields (insOf (.jalr r r1 imm)) _ _ r1 0b000 r 0b1100111 := iType_fields imm r1 _ r _
  have ho : opcode (insOf (.jalr r r1 imm)) = .jumpr := by
    unfold opcode
    rw [hf.opcode]
    rfl
  have hx : execute inp (insOf (.jalr r r1 imm)) d =
      .fall (armJumpr (insOf (.jalr r r1 imm)) d) := by
    unfold execute
    rw [ho]
  refine retires_link hs hf.rd hx ?_ hl
  rw [← signExtend_eq imm (by decide) (by decide), ← imm11_0_iType imm r1 0b000 r 0b1100111,
    ← hs.reg hf.rs1]
  rfl

theorem branchTest_eq {ins : Word} {f7 : BitVec 7} {c : Cond} {rd : Reg} {opc : BitVec 7}
    (hs : Shows d h) (hf : Fields ins f7 r2 r1 c.funct3 rd opc) :
    branchTest ins d = c.test (h.read r1) (h.read r2) := by
  unfold branchTest
  dsimp only
  rw [hf.func3, hs.reg hf.rs1, hs.reg hf.rs2]
  cases c with
  | eq => rfl
  | ne => rfl
  | lt =>
    simp only [Cond.funct3, Cond.test, signedValue_eq, BitVec.slt]
    rfl
  | ge =>
    simp only [Cond.funct3, Cond.test, signedValue_eq, BitVec.slt, ge_iff_le, ← decide_not, not_lt]
    rfl
  | ltu => rfl
  | geu =>
    simp only [Cond.funct3, Cond.test, BitVec.ult, ge_iff_le, ← decide_not, not_lt, BitVec.le_def]
    rfl

theorem retires_branch {c : Cond} {offset : BitVec 12} (hs : Shows d h)
    (he : exec (.branch c r1 r2 offset) h = some h') :
    Retires inp (insOf (.branch c r1 r2 offset)) d h' := by
  have hf : Fields (insOf (.branch c r1 r2 offset)) _ r2 r1 c.funct3 _ 0b1100011 :=
    bType_fields offset r2 r1 _ _
  have ho : opcode (insOf (.branch c r1 r2 offset)) = .cjump := by
    unfold opcode
    rw [hf.opcode]
    rfl
  have hx : execute inp (insOf (.branch c r1 r2 offset)) d =
      .fall (armCjump (insOf (.branch c r1 r2 offset)) d) := by
    unfold execute
    rw [ho]
  have htarget : d.pc - 4 + signExtend (immB (insOf (.branch c r1 r2 offset))) 13 =
      h.pc + (offset ++ 0#1).signExtend 64 := by
    rw [hs.pc_sub, ← signExtend_eq (offset ++ 0#1) (by decide) (by decide),
      ← immB_bType offset r2 r1 c.funct3 0b1100011]
    rfl
  have hregs : ∀ q ≠ 0, d.regFile q = h.x q := fun q hq => by
    rw [hs.regs, Function.update_of_ne hq]
  refine ⟨_, hx, ?_⟩
  unfold armCjump
  dsimp only
  rw [branchTest_eq hs hf, htarget]
  -- a taken branch to a misaligned target would trap, which `he` excludes
  unfold exec at he
  dsimp only at he
  split at he
  · rename_i htest
    rw [if_pos htest]
    unfold Hart.goto at he
    split at he
    · cases he
      exact ⟨rfl, hregs⟩
    · cases he
  · rename_i htest
    cases he
    rw [if_neg htest]
    refine ⟨?_, hregs⟩
    rw [← hs.pc]

/-! ### Register and immediate operations -/

theorem retires_of_iops {ins : Word} {f7 : BitVec 7} {f3 : BitVec 3} {v : Word}
    (hs : Shows d h) (hf : Fields ins f7 r2 r1 f3 r 0b0010011) (hv : (iopsValue ins d).1 = v) :
    Retires inp ins d (h.result r v) := by
  have ho : opcode ins = .iops := by
    unfold opcode
    rw [hf.opcode]
    rfl
  have hx : execute inp ins d = .fall (armIops ins d) := by
    unfold execute
    rw [ho]
  refine retires_result hs hf.rd hx ?_
  rw [← hv]
  rfl

theorem retires_opImm {o : ImmOp} {imm : BitVec 12} (hs : Shows d h) :
    Retires inp (insOf (.opImm o r r1 imm)) d
      (h.result r (o.eval (h.read r1) (imm.signExtend 64))) := by
  have hf : Fields (insOf (.opImm o r r1 imm)) _ _ r1 o.funct3 r 0b0010011 :=
    iType_fields imm r1 _ r _
  have himm : signExtend (imm11_0 (insOf (.opImm o r r1 imm))) 12 = imm.signExtend 64 := by
    rw [← signExtend_eq imm (by decide) (by decide), ← imm11_0_iType imm r1 o.funct3 r 0b0010011]
    rfl
  refine retires_of_iops hs hf ?_
  unfold iopsValue
  dsimp only
  rw [hf.func3, hs.reg hf.rs1, himm]
  cases o with
  | slti =>
    simp only [ImmOp.funct3, ImmOp.eval, signedValue_eq, BitVec.slt, decide_eq_true_eq]
    rfl
  | sltiu =>
    simp only [ImmOp.funct3, ImmOp.eval, BitVec.ult, decide_eq_true_eq]
    rfl
  | _ => rfl

theorem toNat_shamt {n : ℕ} {x : Word} {y : ℕ} (hn : n ≤ 64) (hx : x.toNat = y) :
    (x &&& BitVec.ofNat 64 (2 ^ n - 1)).toNat = y % 2 ^ n := by
  have hfield := toNat_field x 0 n hn
  rwa [BitVec.ushiftRight_zero, Nat.pow_zero, Nat.div_one, hx] at hfield

theorem Fields.selector {ins : Word} {f7 : BitVec 7} {f3 : BitVec 3} {opc : BitVec 7} {f : BitVec 6}
    (hf : Fields ins f7 r2 r1 f3 r opc) (h7 : f7.toNat / 2 ^ 1 = f.toNat) :
    RiscvEmu.func7 ins >>> 1 = f.setWidth 64 := by
  refine BitVec.eq_of_toNat_eq ?_
  rw [BitVec.toNat_ushiftRight, hf.func7, Nat.shiftRight_eq_div_pow, h7,
    BitVec.toNat_setWidth_of_le (by decide)]

theorem iopsValue_sll {ins : Word} (h3 : (func3 ins).toNat = 0b001) :
    (iopsValue ins d).1 = d.reg (rs1 ins) <<< (imm11_0 ins &&& 0b111111).toNat := by
  unfold iopsValue
  dsimp only
  rw [h3]
  rfl

theorem iopsValue_srl {ins : Word} (h3 : (func3 ins).toNat = 0b101)
    (h6 : func7 ins >>> 1 = 0b000000) :
    (iopsValue ins d).1 = d.reg (rs1 ins) >>> (imm11_0 ins &&& 0b111111).toNat := by
  unfold iopsValue
  dsimp only
  rw [h3]
  exact congrArg Prod.fst (if_pos h6)

theorem iopsValue_sra {ins : Word} (h3 : (func3 ins).toNat = 0b101)
    (h6 : func7 ins >>> 1 = 0b010000) :
    (iopsValue ins d).1 = shiftLoop (1 <<< 63) (imm11_0 ins &&& 0b111111).toNat
      (d.reg (rs1 ins)) := by
  unfold iopsValue
  dsimp only
  rw [h3]
  simp only [h6]
  rfl

theorem retires_shiftImm {o : ShiftOp} {shamt : BitVec 6} (hs : Shows d h) :
    Retires inp (insOf (.shiftImm o r r1 shamt)) d
      (h.result r (o.eval (h.read r1) shamt.toNat)) := by
  have hf : Fields (insOf (.shiftImm o r r1 shamt)) _ _ r1 o.funct3 r 0b0010011 :=
    iType_fields (o.funct6 ++ shamt) r1 _ r _
  have himm : (imm11_0 (insOf (.shiftImm o r r1 shamt))).toNat = (o.funct6 ++ shamt).toNat := by
    rw [← toNat_setWidth_imm, ← imm11_0_iType (o.funct6 ++ shamt) r1 o.funct3 r 0b0010011]
    rfl
  have hshamt : (imm11_0 (insOf (.shiftImm o r r1 shamt)) &&& 0b111111).toNat = shamt.toNat :=
    (toNat_shamt (n := 6) (by decide) himm).trans (Words.toNat_append_mod o.funct6 shamt)
  have hsel : func7 (insOf (.shiftImm o r r1 shamt)) >>> 1 = o.funct6.setWidth 64 := by
    refine hf.selector ?_
    rw [toNat_extract, Words.field_div _ 5 1 6, Words.toNat_append_div, Nat.mod_eq_of_lt o.funct6.isLt]
  refine retires_of_iops hs hf ?_
  cases o with
  | sll =>
    rw [iopsValue_sll hf.func3, hs.reg hf.rs1, hshamt]
    rfl
  | srl =>
    rw [iopsValue_srl hf.func3 hsel, hs.reg hf.rs1, hshamt]
    rfl
  | sra =>
    rw [iopsValue_sra hf.func3 hsel, hs.reg hf.rs1, hshamt, shiftLoop_word]
    rfl

theorem Fields.func7_eq {ins : Word} {f7 : BitVec 7} {f3 : BitVec 3} {opc : BitVec 7}
    (hf : Fields ins f7 r2 r1 f3 r opc) : RiscvEmu.func7 ins = f7.setWidth 64 := by
  refine BitVec.eq_of_toNat_eq ?_
  rw [hf.func7, BitVec.toNat_setWidth_of_le (by decide)]

theorem toNat_low6 (x : Word) : (x &&& 0b111111).toNat = (x.extractLsb' 0 6).toNat := by
  rw [toNat_extract, Nat.pow_zero, Nat.div_one]
  exact toNat_shamt (n := 6) (by decide) rfl

theorem toNat_low5 (x : Word) :
    (x &&& 0b11111).toNat = ((x.setWidth 32).extractLsb' 0 5).toNat := by
  rw [toNat_extract, Nat.pow_zero, Nat.div_one, BitVec.toNat_setWidth,
    Nat.mod_mod_of_dvd _ (by decide)]
  exact toNat_shamt (n := 5) (by decide) rfl

theorem ropsValue_eq {ins : Word} {f7 : BitVec 7} {opc : BitVec 7} {o : RegOp} (hs : Shows d h)
    (hf : Fields ins f7 r2 r1 o.funct3 r opc) (h7 : o.funct7 = 0b0000000) :
    ropsValue ins d = o.eval (h.read r1) (h.read r2) := by
  have hshamt := toNat_low6 (h.read r2)
  unfold ropsValue
  dsimp only
  rw [hf.func3, hs.reg hf.rs1, hs.reg hf.rs2]
  cases o with
  | slt =>
    simp only [RegOp.funct3, RegOp.eval, signedValue_eq, BitVec.slt, decide_eq_true_eq]
    rfl
  | sltu =>
    simp only [RegOp.funct3, RegOp.eval, BitVec.ult, decide_eq_true_eq]
    rfl
  | sll => exact congrArg (fun n : ℕ => h.read r1 <<< n) hshamt
  | srl => exact congrArg (fun n : ℕ => h.read r1 >>> n) hshamt
  | sub => cases h7
  | sra => cases h7
  | _ => rfl

theorem ropsValue2_eq {ins : Word} {f7 : BitVec 7} {opc : BitVec 7} {o : RegOp} (hs : Shows d h)
    (hf : Fields ins f7 r2 r1 o.funct3 r opc) (h7 : o.funct7 = 0b0100000) :
    (ropsValue2 ins d).1 = o.eval (h.read r1) (h.read r2) := by
  have hshamt := toNat_low6 (h.read r2)
  unfold ropsValue2
  dsimp only
  rw [hf.func3, hs.reg hf.rs1, hs.reg hf.rs2]
  cases o with
  | sub => rfl
  | sra => exact (shiftLoop_word _ _).trans (congrArg (h.read r1).sshiftRight hshamt)
  | _ => cases h7

theorem RegOp.funct7_cases (o : RegOp) : o.funct7 = 0b0000000 ∨ o.funct7 = 0b0100000 := by
  cases o <;> decide

theorem retires_op {o : RegOp} (hs : Shows d h) :
    Retires inp (insOf (.op o r r1 r2)) d (h.result r (o.eval (h.read r1) (h.read r2))) := by
  have hf : Fields (insOf (.op o r r1 r2)) o.funct7 r2 r1 o.funct3 r 0b0110011 :=
    rType_fields _ r2 r1 _ r _
  have h7 := hf.func7_eq
  have ho : opcode (insOf (.op o r r1 r2)) = .rops := by
    unfold opcode
    rw [hf.opcode]
    rfl
  rcases RegOp.funct7_cases o with hbase | hbase
  · have hx : execute inp (insOf (.op o r r1 r2)) d =
        .fall (d.writeBack (insOf (.op o r r1 r2)) (ropsValue (insOf (.op o r r1 r2)) d)) := by
      unfold execute armRops
      rw [ho, h7, hbase]
      rfl
    refine retires_result hs hf.rd hx ?_
    rw [ropsValue_eq hs hf hbase]
    rfl
  · have hx : execute inp (insOf (.op o r r1 r2)) d =
        .fall (({ d with itr := (ropsValue2 (insOf (.op o r r1 r2)) d).2 }).writeBack
          (insOf (.op o r r1 r2)) (ropsValue2 (insOf (.op o r r1 r2)) d).1) := by
      unfold execute armRops
      rw [ho, h7, hbase]
      rfl
    refine retires_result hs hf.rd hx ?_
    rw [ropsValue2_eq hs hf hbase]
    rfl

/-! ### The W forms -/

theorem retires_of_iops64 {ins : Word} {f7 : BitVec 7} {f3 : BitVec 3} {v : Word}
    (hs : Shows d h) (hf : Fields ins f7 r2 r1 f3 r 0b0011011) (hv : (iops64Value ins d).1 = v) :
    Retires inp ins d (h.result r v) := by
  have ho : opcode ins = .iops64 := by
    unfold opcode
    rw [hf.opcode]
    rfl
  have hx : execute inp ins d = .fall (armIops64 ins d) := by
    unfold execute
    rw [ho]
  refine retires_result hs hf.rd hx ?_
  rw [← hv]
  rfl

theorem retires_addiw {imm : BitVec 12} (hs : Shows d h) :
    Retires inp (insOf (.addiw r r1 imm)) d
      (h.result r (((h.read r1 + imm.signExtend 64).setWidth 32).signExtend 64)) := by
  have hf : Fields (insOf (.addiw r r1 imm)) _ _ r1 0b000 r 0b0011011 :=
    iType_fields imm r1 _ r _
  have himm : signExtend (imm11_0 (insOf (.addiw r r1 imm))) 12 = imm.signExtend 64 := by
    rw [← signExtend_eq imm (by decide) (by decide), ← imm11_0_iType imm r1 0b000 r 0b0011011]
    rfl
  refine retires_of_iops64 hs hf ?_
  unfold iops64Value
  dsimp only
  rw [hf.func3, hs.reg hf.rs1, himm, ← signExtend_mask32, BitVec.and_comm]
  rfl

theorem srl_mask32 (a : Word) (n : ℕ) :
    (a &&& mask32) >>> n = ((a.setWidth 32) >>> n).setWidth 64 := by
  rw [and_mask32, BitVec.setWidth_ushiftRight (by decide)]

theorem signExtend_low (y : BitVec 32) : signExtend (y.setWidth 64) 32 = y.signExtend 64 :=
  signExtend_eq y (by decide) (by decide)

theorem sub_mask32 (a b : Word) :
    ((a &&& mask32) - (b &&& mask32)).setWidth 32 = a.setWidth 32 - b.setWidth 32 := by
  rw [and_mask32, and_mask32]
  generalize a.setWidth 32 = x
  generalize b.setWidth 32 = y
  have hx := x.isLt
  have hy := y.isLt
  refine BitVec.eq_of_toNat_eq ?_
  rw [BitVec.toNat_setWidth, BitVec.toNat_sub, BitVec.toNat_sub, toNat_setWidth_word,
    toNat_setWidth_word]
  omega

theorem iops64Value_slliw {ins : Word} (h3 : (func3 ins).toNat = 0b001) :
    (iops64Value ins d).1 =
      (((d.reg (rs1 ins)).setWidth 32) <<< (imm11_0 ins &&& 0b11111).toNat).signExtend 64 := by
  rw [← BitVec.setWidth_shiftLeft_of_le (by decide), ← signExtend_mask32, BitVec.and_comm]
  unfold iops64Value
  dsimp only
  rw [h3]
  rfl

theorem iops64Value_srliw {ins : Word} (h3 : (func3 ins).toNat = 0b101)
    (h6 : func7 ins >>> 1 = 0b000000) :
    (iops64Value ins d).1 =
      (((d.reg (rs1 ins)).setWidth 32) >>> (imm11_0 ins &&& 0b11111).toNat).signExtend 64 := by
  have hval : (iops64Value ins d).1 =
      signExtend (mask32 &&& ((d.reg (rs1 ins) &&& mask32) >>> (imm11_0 ins &&& 0b11111).toNat))
        32 := by
    unfold iops64Value
    dsimp only
    rw [h3]
    exact congrArg Prod.fst (if_pos h6)
  rw [hval, BitVec.and_comm, srl_mask32, signExtend_mask32, BitVec.setWidth_setWidth_of_le _ (by decide),
    BitVec.setWidth_eq]

theorem iops64Value_sraiw {ins : Word} (h3 : (func3 ins).toNat = 0b101)
    (h6 : func7 ins >>> 1 = 0b010000) :
    (iops64Value ins d).1 = (((d.reg (rs1 ins)).setWidth 32).sshiftRight
      (imm11_0 ins &&& 0b11111).toNat).signExtend 64 := by
  have hval : (iops64Value ins d).1 =
      signExtend (mask32 &&& shiftLoop (1 <<< 31) (imm11_0 ins &&& 0b11111).toNat
        (d.reg (rs1 ins) &&& mask32)) 32 := by
    unfold iops64Value
    dsimp only
    rw [h3]
    simp only [h6]
    rfl
  rw [hval, BitVec.and_comm, shiftLoop_mask32, signExtend_mask32,
    BitVec.setWidth_setWidth_of_le _ (by decide), BitVec.setWidth_eq]

theorem retires_shiftImmW {o : ShiftOp} {shamt : BitVec 5} (hs : Shows d h) :
    Retires inp (insOf (.shiftImmW o r r1 shamt)) d
      (h.result r ((o.eval ((h.read r1).setWidth 32) shamt.toNat).signExtend 64)) := by
  have hf : Fields (insOf (.shiftImmW o r r1 shamt)) _ _ r1 o.funct3 r 0b0011011 :=
    iType_fields (o.funct6 ++ 0#1 ++ shamt) r1 _ r _
  have himm : (imm11_0 (insOf (.shiftImmW o r r1 shamt))).toNat =
      (o.funct6 ++ 0#1 ++ shamt).toNat := by
    rw [← toNat_setWidth_imm, ← imm11_0_iType (o.funct6 ++ 0#1 ++ shamt) r1 o.funct3 r 0b0011011]
    rfl
  have hshamt : (imm11_0 (insOf (.shiftImmW o r r1 shamt)) &&& 0b11111).toNat = shamt.toNat :=
    (toNat_shamt (n := 5) (by decide) himm).trans (Words.toNat_append_mod (o.funct6 ++ 0#1) shamt)
  have hsel : func7 (insOf (.shiftImmW o r r1 shamt)) >>> 1 = o.funct6.setWidth 64 := by
    refine hf.selector ?_
    rw [toNat_extract, Words.toNat_append_div, Nat.mod_eq_of_lt (o.funct6 ++ 0#1).isLt,
      Words.toNat_append_div]
  refine retires_of_iops64 hs hf ?_
  cases o with
  | sll =>
    rw [iops64Value_slliw hf.func3, hs.reg hf.rs1, hshamt]
    rfl
  | srl =>
    rw [iops64Value_srliw hf.func3 hsel, hs.reg hf.rs1, hshamt]
    rfl
  | sra =>
    rw [iops64Value_sraiw hf.func3 hsel, hs.reg hf.rs1, hshamt]
    rfl

theorem rops64Value_eq {ins : Word} {f7 : BitVec 7} {opc : BitVec 7} {o : RegOpW} (hs : Shows d h)
    (hf : Fields ins f7 r2 r1 o.funct3 r opc) (h7 : o.funct7 = 0b0000000) :
    rops64Value ins d =
      (o.eval ((h.read r1).setWidth 32) ((h.read r2).setWidth 32)).signExtend 64 := by
  have hshamt := toNat_low5 (h.read r2)
  unfold rops64Value
  dsimp only
  rw [hf.func3, hs.reg hf.rs1, hs.reg hf.rs2]
  cases o with
  | addw =>
    rw [RegOpW.eval, ← BitVec.setWidth_add _ _ (by decide), ← signExtend_mask32]
    rfl
  | sllw =>
    rw [RegOpW.eval, ← hshamt, ← BitVec.setWidth_shiftLeft_of_le (by decide), ← signExtend_mask32]
    rfl
  | srlw =>
    rw [RegOpW.eval, ← hshamt, ← signExtend_low, ← srl_mask32]
    rfl
  | subw => cases h7
  | sraw => cases h7

theorem rops64Value2_eq {ins : Word} {f7 : BitVec 7} {opc : BitVec 7} {o : RegOpW} (hs : Shows d h)
    (hf : Fields ins f7 r2 r1 o.funct3 r opc) (h7 : o.funct7 = 0b0100000) :
    (rops64Value2 ins d).1 =
      (o.eval ((h.read r1).setWidth 32) ((h.read r2).setWidth 32)).signExtend 64 := by
  have hshamt := toNat_low5 (h.read r2)
  unfold rops64Value2
  dsimp only
  rw [hf.func3, hs.reg hf.rs1, hs.reg hf.rs2]
  cases o with
  | subw =>
    rw [RegOpW.eval, ← sub_mask32, ← signExtend_mask32]
    rfl
  | sraw =>
    rw [RegOpW.eval, ← hshamt, ← signExtend_low, ← shiftLoop_mask32]
    rfl
  | _ => cases h7

theorem RegOpW.funct7_cases (o : RegOpW) : o.funct7 = 0b0000000 ∨ o.funct7 = 0b0100000 := by
  cases o <;> decide

theorem retires_opW {o : RegOpW} (hs : Shows d h) :
    Retires inp (insOf (.opW o r r1 r2)) d
      (h.result r
        ((o.eval ((h.read r1).setWidth 32) ((h.read r2).setWidth 32)).signExtend 64)) := by
  have hf : Fields (insOf (.opW o r r1 r2)) o.funct7 r2 r1 o.funct3 r 0b0111011 :=
    rType_fields _ r2 r1 _ r _
  have h7 := hf.func7_eq
  have ho : opcode (insOf (.opW o r r1 r2)) = .rops64 := by
    unfold opcode
    rw [hf.opcode]
    rfl
  rcases RegOpW.funct7_cases o with hbase | hbase
  · have hx : execute inp (insOf (.opW o r r1 r2)) d =
        .fall (d.writeBack (insOf (.opW o r r1 r2)) (rops64Value (insOf (.opW o r r1 r2)) d)) := by
      unfold execute armRops64
      rw [ho, h7, hbase]
      rfl
    refine retires_result hs hf.rd hx ?_
    rw [rops64Value_eq hs hf hbase]
    rfl
  · have hx : execute inp (insOf (.opW o r r1 r2)) d =
        .fall (({ d with itr := (rops64Value2 (insOf (.opW o r r1 r2)) d).2 }).writeBack
          (insOf (.opW o r r1 r2)) (rops64Value2 (insOf (.opW o r r1 r2)) d).1) := by
      unfold execute armRops64
      rw [ho, h7, hbase]
      rfl
    refine retires_result hs hf.rd hx ?_
    rw [rops64Value2_eq hs hf hbase]
    rfl

theorem retires_exec (hs : Shows d h) {i : Instr} (he : exec i h = some h') :
    Retires inp (insOf i) d h' := by
  cases i with
  | lui rd imm =>
    cases he
    exact retires_lui hs
  | auipc rd imm =>
    cases he
    exact retires_auipc hs
  | jal rd offset => exact retires_jal hs he
  | jalr rd rs1 imm => exact retires_jalr hs he
  | branch c rs1 rs2 offset => exact retires_branch hs he
  | opImm o rd rs1 imm =>
    cases he
    exact retires_opImm hs
  | shiftImm o rd rs1 shamt =>
    cases he
    exact retires_shiftImm hs
  | op o rd rs1 rs2 =>
    cases he
    exact retires_op hs
  | addiw rd rs1 imm =>
    cases he
    exact retires_addiw hs
  | shiftImmW o rd rs1 shamt =>
    cases he
    exact retires_shiftImmW hs
  | opW o rd rs1 rs2 =>
    cases he
    exact retires_opW hs

end

/-! ### One iteration -/

theorem selectTrap_idle {m : Machine} (hflags : m.flags = Flags.clear)
    (hmie : m.csr.mie = Mie.initial) : selectTrap m = .ret () m := by
  have hl : m.flags.ldAccFault = false := by rw [hflags]; rfl
  have hi : selectInterrupt m.csr = none := by
    unfold selectInterrupt
    rw [hmie]
    simp [Mie.initial]
  rw [selectTrap_eq hl, hi]
  dsimp only
  rw [selectException_eq, hflags]
  rfl

structure DecodesImmediates : Prop where
  imm11_0 : ∀ imm r1 f3 rd opc,
    imm11_0 ((iType imm r1 f3 rd opc).setWidth 64) = imm.setWidth 64
  immS : ∀ imm r2 r1 f3 opc, immS ((sType imm r2 r1 f3 opc).setWidth 64) = imm.setWidth 64
  immB : ∀ imm r2 r1 f3 opc, immB ((bType imm r2 r1 f3 opc).setWidth 64) = (imm ++ 0#1).setWidth 64
  immJ : ∀ imm rd opc, immJ ((jType imm rd opc).setWidth 64) = (imm ++ 0#1).setWidth 64

theorem decodesImmediates : DecodesImmediates :=
  ⟨imm11_0_iType, immS_sType, immB_bType, immJ_jType⟩

theorem integer_refinement :
    DecodesImmediates ∧ ∀ (inp : Input) (s : State) (i : Instr) (h : Hart),
      fetch (tick inp s.toMachine) = .word (insOf i) → s.flags = Flags.clear →
      s.csr.mie = Mie.initial → exec i ⟨s.regFile, s.pc⟩ = some h →
      ∃ t, Completes inp s t ∧ t.pc = h.pc ∧ ∀ r ≠ 0, t.regFile r = h.x r := by
  refine ⟨decodesImmediates, fun inp s i h hf hflags hmie he => ?_⟩
  have hshows : Shows (decoded { s with toMachine := tick inp s.toMachine }) ⟨s.regFile, s.pc⟩ :=
    ⟨rfl, rfl⟩
  obtain ⟨s', hx, hm, hregs⟩ : Retires inp (insOf i) _ h := retires_exec hshows he
  have hend := atLoopEnd_of_word hf hx
  have hidle : selectTrap (refresh s'.toMachine) = .ret () (refresh s'.toMachine) :=
    selectTrap_idle (by rw [hm]; exact hflags) (by rw [hm]; exact hmie)
  refine ⟨_, (completes_iff_of_atLoopEnd hend).mpr ⟨_, hidle, rfl⟩, ?_, hregs⟩
  rw [hm]
  rfl

/-- `addi x1, x0, -1` at the reset address. -/
theorem integer_refinement_addi :
    ∃ t, Completes (quiet 0) (boot (imageOf [insOf (.opImm .addi 1 0 (-1))]) 0) t ∧
      t.pc = 0x80000004 ∧ t.regFile 1 = -1 := by
  obtain ⟨t, ht, hpc, hregs⟩ := integer_refinement.2 (quiet 0)
    (boot (imageOf [insOf (.opImm .addi 1 0 (-1))]) 0) (.opImm .addi 1 0 (-1)) _
    (by decide +kernel) rfl rfl rfl
  refine ⟨t, ht, hpc, ?_⟩
  rw [hregs 1 (by decide)]
  decide

end RiscvEmu
