import RiscvEmu.AddressMapping
import RiscvEmu.ByteMemory
import RiscvEmu.IntegerRefinement
import RiscvEmu.Sv39Protection

/-! The read-modify-write instructions: the eighteen copies in the `amo` arm against the nine operations
of the architecture. -/

namespace RiscvEmu

open Bytes

variable {inp : Input} {ins pa : Word} {s : State}

/-! ### The operations -/

inductive AmoOp
  | swap | add | xor | and | or | min | max | minu | maxu
  deriving DecidableEq

namespace AmoOp

def selector : AmoOp → ℕ
  | swap => 0b00001
  | add => 0b00000
  | xor => 0b00100
  | and => 0b01100
  | or => 0b01000
  | min => 0b10000
  | max => 0b10100
  | minu => 0b11000
  | maxu => 0b11100

def eval {w : ℕ} (o : AmoOp) (a b : BitVec w) : BitVec w :=
  match o with
  | swap => b
  | add => a + b
  | xor => a ^^^ b
  | and => a &&& b
  | or => a ||| b
  | min => if a.sle b then a else b
  | max => if a.sle b then b else a
  | minu => if a.ule b then a else b
  | maxu => if a.ule b then b else a

def opW : AmoOp → Word → Word → Word
  | swap => fun _ b => b
  | add => fun a b => (a + b) &&& mask32
  | xor => fun a b => (a ^^^ b) &&& mask32
  | and => fun a b => (a &&& b) &&& mask32
  | or => fun a b => (a ||| b) &&& mask32
  | min => fun a b => ofSigned (Min.min (signedValue32 a) (signedValue32 b)) &&& mask32
  | max => fun a b => ofSigned (Max.max (signedValue32 a) (signedValue32 b)) &&& mask32
  | minu => fun a b => (if b < a then b else a) &&& mask32
  | maxu => fun a b => (if a < b then b else a) &&& mask32

def opD : AmoOp → Word → Word → Word
  | swap => fun _ b => b
  | add => fun a b => a + b
  | xor => fun a b => a ^^^ b
  | and => fun a b => a &&& b
  | or => fun a b => a ||| b
  | min => fun a b => ofSigned (Min.min (signedValue a) (signedValue b))
  | max => fun a b => ofSigned (Max.max (signedValue a) (signedValue b))
  | minu => fun a b => if b < a then b else a
  | maxu => fun a b => if a < b then b else a

end AmoOp

def AmoOp.misTval : AmoOp → State → Word
  | maxu => (·.loadAddrPhy)
  | _ => (·.loadAddr)

theorem amoSwitchW_rmw {o : AmoOp} (h : (amoOp ins).toNat = o.selector) (c : Cell) (s : State) :
    amoSwitchW ins c s = amoRmwW o.opW o.misTval ins c s := by
  unfold amoSwitchW
  rw [h]
  cases o <;> rfl

theorem amoSwitchD_rmw {o : AmoOp} (h : (amoOp ins).toNat = o.selector) (c : Cell) (s : State) :
    amoSwitchD ins c s = amoRmwD o.opD ins c s := by
  unfold amoSwitchD
  rw [h]
  cases o <;> rfl

theorem signedValue32_setWidth (a : BitVec 32) : signedValue32 (a.setWidth 64) = a.toInt := by
  rw [signedValue32_eq, setWidth_up_down]

section

variable {w : ℕ} (a b : BitVec w)

theorem ofInt_min : BitVec.ofInt w (min a.toInt b.toInt) = if a.sle b then a else b := by
  rw [min_def, BitVec.sle, apply_ite (BitVec.ofInt w), BitVec.ofInt_toInt, BitVec.ofInt_toInt]
  simp only [decide_eq_true_eq]

theorem ofInt_max : BitVec.ofInt w (max a.toInt b.toInt) = if a.sle b then b else a := by
  rw [max_def, BitVec.sle, apply_ite (BitVec.ofInt w), BitVec.ofInt_toInt, BitVec.ofInt_toInt]
  simp only [decide_eq_true_eq]

theorem ite_lt_swap : (if b < a then b else a) = if a.ule b then a else b := by
  by_cases h : b < a
  · have hn : ¬ a.ule b = true := by
      rw [BitVec.ule_iff_toNat_le]
      exact Nat.not_le_of_lt (BitVec.lt_def.mp h)
    rw [if_pos h, if_neg hn]
  · have hy : a.ule b = true := by
      rw [BitVec.ule_iff_toNat_le]
      exact Nat.le_of_not_lt (mt BitVec.lt_def.mpr h)
    rw [if_neg h, if_pos hy]

theorem ite_lt_ule : (if a < b then b else a) = if a.ule b then b else a := by
  by_cases h : a < b
  · have hy : a.ule b = true := by
      rw [BitVec.ule_iff_toNat_le]
      exact (BitVec.lt_def.mp h).le
    rw [if_pos h, if_pos hy]
  · rw [if_neg h]
    split
    · -- not below and not above: equal
      rename_i hle
      rw [BitVec.ule_iff_toNat_le] at hle
      have hge := Nat.le_of_not_lt (mt BitVec.lt_def.mpr h)
      exact BitVec.eq_of_toNat_eq (Nat.le_antisymm hle hge)
    · rfl

end

theorem setWidth_lt {a b : BitVec 32} : a.setWidth 64 < b.setWidth 64 ↔ a < b := by
  rw [BitVec.lt_def, BitVec.lt_def, BitVec.toNat_setWidth_of_le (by decide),
    BitVec.toNat_setWidth_of_le (by decide)]

theorem setWidth_ofSigned (x : Int) : (ofSigned x).setWidth 32 = BitVec.ofInt 32 x := by
  refine BitVec.eq_of_toNat_eq ?_
  rw [ofSigned, BitVec.toNat_setWidth, BitVec.toNat_ofInt, BitVec.toNat_ofInt]
  omega

theorem AmoOp.opD_eval (o : AmoOp) (a b : Word) : o.opD a b = o.eval a b := by
  cases o with
  | min =>
    simp only [opD, eval, signedValue_eq]
    exact ofInt_min a b
  | max =>
    simp only [opD, eval, signedValue_eq]
    exact ofInt_max a b
  | minu => exact ite_lt_swap a b
  | maxu => exact ite_lt_ule a b
  | _ => rfl

theorem AmoOp.opW_eval (o : AmoOp) (a b : BitVec 32) :
    (o.opW (a.setWidth 64) (b.setWidth 64)).setWidth 32 = o.eval a b := by
  cases o with
  | swap => exact setWidth_up_down b
  | add =>
    simp only [opW, eval]
    rw [setWidth_mask32, BitVec.setWidth_add _ _ (by decide), setWidth_up_down, setWidth_up_down]
  | xor =>
    simp only [opW, eval]
    rw [setWidth_mask32, BitVec.setWidth_xor, setWidth_up_down, setWidth_up_down]
  | and =>
    simp only [opW, eval]
    rw [setWidth_mask32, BitVec.setWidth_and, setWidth_up_down, setWidth_up_down]
  | or =>
    simp only [opW, eval]
    rw [setWidth_mask32, BitVec.setWidth_or, setWidth_up_down, setWidth_up_down]
  | min =>
    simp only [opW, eval, signedValue32_setWidth]
    rw [setWidth_mask32, setWidth_ofSigned]
    exact ofInt_min a b
  | max =>
    simp only [opW, eval, signedValue32_setWidth]
    rw [setWidth_mask32, setWidth_ofSigned]
    exact ofInt_max a b
  | minu =>
    simp only [opW, eval, setWidth_lt]
    rw [setWidth_mask32, apply_ite (BitVec.setWidth 32), setWidth_up_down, setWidth_up_down]
    exact ite_lt_swap a b
  | maxu =>
    simp only [opW, eval, setWidth_lt]
    rw [setWidth_mask32, apply_ite (BitVec.setWidth 32), setWidth_up_down, setWidth_up_down]
    exact ite_lt_ule a b

/-! ### Addresses -/

theorem leafAddress_offset (va w : Word) (k : ℕ) :
    Sv39.leafAddress va k w % 2 ^ 32 % 2 ^ 12 = va.toNat % 2 ^ 12 := by
  unfold Sv39.leafAddress
  have hpow : 2 ^ (12 + 9 * k) = 2 ^ 12 * 2 ^ (9 * k) := Nat.pow_add 2 12 (9 * k)
  have hoff : va.toNat % 2 ^ (12 + 9 * k) % 2 ^ 12 = va.toNat % 2 ^ 12 :=
    Nat.mod_mod_of_dvd _ (hpow ▸ Nat.dvd_mul_right _ _)
  rw [Nat.mod_mod_of_dvd _ (by decide), Nat.add_mod, hoff, hpow, ← Nat.mul_assoc,
    Nat.mul_right_comm, Nat.mul_mod_left, Nat.zero_add, Nat.mod_mod]

theorem translate_offset {c : Csrs} {mem : Memory} {va p : Word} {ty : Ttype} {cp : Plevel}
    (h : translate c mem va ty cp = .ok p) (hp : p ≠ -1) :
    p.toNat % 2 ^ 12 = va.toNat % 2 ^ 12 := by
  unfold translate at h
  split at h
  · cases h
    rfl
  · split_ifs at h
    · cases h
      rfl
    · cases h
      rfl
    · cases h
      rfl
    · obtain ⟨k, w, -, -, hl⟩ := (walk_granted_iff hp).mp h
      rw [hl, leafAddress_offset]
  · cases h
  · cases h
    exact absurd rfl hp

/-! ### The arms on an aligned address -/

theorem amoRmwW_aligned (op : Word → Word → Word) (f : State → Word) (ins : Word) (c : Cell)
    {u : State} {k : ℕ} (hk : u.loadAddrPhy.toNat % 8 = k) (hva : u.loadAddr.toNat % 8 = k)
    (hfit : k + 4 ≤ 8) :
    ∃ t : State, amoRmwW op f ins c u = t ∧
      t.retData = signExtend (slice u.loadData (8 * k) (8 * 4) &&& mask32) 32 ∧
      t.toMachine = u.write .amo c (splice u.loadData
        (op (slice u.loadData (8 * k) (8 * 4) &&& mask32) (u.reg (rs2 ins) &&& mask32))
        (8 * k) (8 * 4)) := by
  refine ⟨_, rfl, ?_, ?_⟩
  all_goals
    unfold amoRmwW
    rw [loadWord_eq, storeWord_eq]
    unfold loadFit storeFit
    simp only [hk, hva, if_pos hfit]

theorem amoRmwD_aligned (op : Word → Word → Word) (ins : Word) (c : Cell) {u : State}
    (h : u.loadAddrPhy.toNat % 8 = 0) :
    ∃ t : State, amoRmwD op ins c u = t ∧ t.retData = u.wbData ∧
      t.toMachine = u.write .amo c (op u.wbData (u.reg (rs2 ins))) := by
  have h0 : ¬ u.loadAddrPhy % 8 ≠ 0 := not_not.mpr
    (BitVec.eq_of_toNat_eq ((toNat_mod_eight u.loadAddrPhy).trans h))
  refine ⟨_, rfl, ?_, ?_⟩
  all_goals
    unfold amoRmwD
    rw [if_neg h0]

/-! ### The instructions -/

namespace Width

def funct3 : Width → ℕ
  | w32 => 0b010
  | w64 => 0b011

def bits : Width → ℕ
  | w32 => 32
  | w64 => 64

def bytes : Width → ℕ
  | w32 => 4
  | w64 => 8

end Width

def IsAmo (w : Width) (o : AmoOp) (ins : Word) : Prop :=
  opcode ins = .amo ∧ (func3 ins).toNat = w.funct3 ∧ (amoOp ins).toNat = o.selector

def Memory.value (mem : Memory) (w : Width) (a : ℕ) : BitVec w.bits :=
  (word mem.byte a w.bytes).setWidth w.bits

/-- `rd` gets the old value, sign-extended; the result of the operation on it and on the operand
replaces it in memory; and every other byte and all other state is as before. -/
structure AmoDone (w : Width) (o : AmoOp) (ins : Word) (a : ℕ) (s t : State) : Prop where
  machine : t.toMachine = { s.toMachine with
    regFile := s.regSet (rd ins) ((s.mem.value w a).signExtend 64)
    mem := t.mem
    bus := t.bus }
  bytes : ∀ x < ramSize, t.mem.byte x =
    put (a, bytes (o.eval (s.mem.value w a) ((s.reg (rs2 ins)).setWidth w.bits)) w.bytes)
      s.mem.byte x

theorem signExtend_setWidth (a : BitVec 32) : signExtend (a.setWidth 64) 32 = a.signExtend 64 := by
  have h := signExtend_mask32 (a.setWidth 64)
  rwa [and_mask32, setWidth_up_down] at h

theorem amoDone_of {w : Width} {o : AmoOp} {a : ℕ} {t : State} {v : Word} (ha : a < ramSize)
    (hfit : a % 8 + w.bytes ≤ 8) (hret : t.retData = (s.mem.value w a).signExtend 64)
    (hmach : t.toMachine = s.write .amo (ramCell a)
      (splice (s.mem (ramCell a)) v (8 * (a % 8)) (8 * w.bytes)))
    (hv : bytes v w.bytes =
      bytes (o.eval (s.mem.value w a) ((s.reg (rs2 ins)).setWidth w.bits)) w.bytes) :
    AmoDone w o ins a s (retToRd ins t) := by
  have hmem : (retToRd ins t).mem =
      s.mem.set (ramCell a) (splice (s.mem (ramCell a)) v (8 * (a % 8)) (8 * w.bytes)) :=
    congrArg Machine.mem hmach
  constructor
  · have hfile : (retToRd ins t).regFile =
        s.regSet (rd ins) ((s.mem.value w a).signExtend 64) := by
      have ht : t.regFile = s.regFile := (congrArg Machine.regFile hmach :)
      unfold retToRd State.setReg Machine.regSet
      rw [hret, ht]
    rw [← hfile]
    unfold retToRd State.setReg
    rw [hmach]
    rfl
  · intro x hx
    rw [hmem, byte_set_splice s.mem v ha hfit hx, hv]

theorem amoW_done {o : AmoOp} {a : ℕ} {u : State} (hop : (amoOp ins).toNat = o.selector)
    (hm : u.toMachine = s.toMachine) (ha : a < ramSize) (h4 : a % 4 = 0)
    (hphy : u.loadAddrPhy.toNat = a) (hva : u.loadAddr.toNat % 8 = a % 8)
    (hd : u.loadData = s.mem (ramCell a)) :
    AmoDone .w32 o ins a s (retToRd ins (amoSwitchW ins (ramCell a) u)) := by
  have hfit : a % 8 + 4 ≤ 8 := by omega
  obtain ⟨t, ht, hret, hmach⟩ := amoRmwW_aligned o.opW o.misTval ins (ramCell a)
    (congrArg (· % 8) hphy) hva hfit
  have hold : slice u.loadData (8 * (a % 8)) (8 * 4) &&& mask32 =
      (s.mem.value .w32 a).setWidth 64 := by
    rw [hd, slice_eq_word s.mem hfit, and_mask32]
    rfl
  have hreg : u.reg (rs2 ins) = s.reg (rs2 ins) := congrArg (fun m : Machine => m.reg (rs2 ins)) hm
  have hw (v : Word) : u.write .amo (ramCell a) v = s.write .amo (ramCell a) v :=
    congrArg (fun m : Machine => m.write .amo (ramCell a) v) hm
  rw [hold] at hret hmach
  rw [hreg, and_mask32 (s.reg _), hd, hw] at hmach
  rw [amoSwitchW_rmw hop, ht]
  refine amoDone_of ha hfit (hret.trans (signExtend_setWidth _)) hmach ?_
  have heval := o.opW_eval (s.mem.value .w32 a) ((s.reg (rs2 ins)).setWidth 32)
  exact (bytes_setWidth _ (by decide)).symm.trans (congrArg (fun v => bytes v 4) heval)

theorem amoD_done {o : AmoOp} {a : ℕ} {u : State} (hop : (amoOp ins).toNat = o.selector)
    (hm : u.toMachine = s.toMachine) (ha : a < ramSize) (h8 : a % 8 = 0)
    (hphy : u.loadAddrPhy.toNat = a) (hd : u.wbData = s.mem (ramCell a)) :
    AmoDone .w64 o ins a s (retToRd ins (amoSwitchD ins (ramCell a) u)) := by
  have hfit : a % 8 + 8 ≤ 8 := by omega
  obtain ⟨t, ht, hret, hmach⟩ := amoRmwD_aligned o.opD ins (ramCell a)
    ((congrArg (· % 8) hphy).trans h8)
  have hold : s.mem (ramCell a) = s.mem.value .w64 a := by
    have hslice := slice_eq_word s.mem hfit
    rw [h8] at hslice
    exact (slice_all _).symm.trans (hslice.trans (BitVec.setWidth_eq _).symm)
  have hreg : u.reg (rs2 ins) = s.reg (rs2 ins) := congrArg (fun m : Machine => m.reg (rs2 ins)) hm
  have hw (v : Word) : u.write .amo (ramCell a) v = s.write .amo (ramCell a) v :=
    congrArg (fun m : Machine => m.write .amo (ramCell a) v) hm
  have hall (v : Word) : splice (s.mem (ramCell a)) v (8 * (a % 8)) (8 * 8) = v := by
    rw [h8]
    exact splice_all _ v
  rw [hd, hold] at hret
  rw [hd, hreg, hw, ← hall (o.opD _ _)] at hmach
  rw [amoSwitchD_rmw hop, ht]
  refine amoDone_of ha hfit (hret.trans (BitVec.signExtend_eq _).symm) hmach ?_
  rw [o.opD_eval, hold]
  exact congrArg (fun v => bytes (o.eval _ v) 8) (BitVec.setWidth_eq _).symm

theorem armAmo_w (h : (func3 ins).toNat = 0b010) : armAmo ins s =
    amoMapped ins s fun c s => amoSwitchW ins c { s with loadData := s.mem c } := by
  unfold armAmo
  rw [h]
  rfl

theorem armAmo_d (h : (func3 ins).toNat = 0b011) : armAmo ins s =
    amoMapped ins s fun c s => amoSwitchD ins c { s with wbData := s.mem c } := by
  unfold armAmo
  rw [h]
  rfl

/-- Every read-modify-write instruction on a naturally aligned address in RAM does what it should. -/
theorem amo_correct {w : Width} {o : AmoOp} (hi : IsAmo w o ins)
    (halign : (s.reg (rs1 ins)).toNat % w.bytes = 0)
    (ht : translate s.csr s.mem (s.reg (rs1 ins)) .stor s.cp = .ok pa) (hlo : dramBase < pa)
    (hhi : (pa - dramBase).toNat < ramSize) :
    ∃ t, execute inp ins s = .fall t ∧ AmoDone w o ins (pa - dramBase).toNat s t := by
  obtain ⟨ho, h3, hop⟩ := hi
  have hp : pa ≠ -1 := by
    rintro rfl
    exact absurd hhi (by decide)
  -- the arms take the offset in the cell from the virtual address, which a translation keeps
  have hoff := translate_offset ht hp
  have hmod := sub_dramBase_mod pa
  have hva : (s.reg (rs1 ins)).toNat % 8 = (pa - dramBase).toNat % 8 := by omega
  have hcell := cell?_div_eight hhi
  rw [execute_amo ho]
  cases w with
  | w32 =>
    have h4 : (s.reg (rs1 ins)).toNat % 4 = 0 := halign
    rw [armAmo_w h3, amoMapped_of_translate ht hp]
    dsimp only
    rw [if_pos hlo, hcell]
    refine ⟨_, rfl, ?_⟩
    exact amoW_done (u := { s with
      loadAddr := s.reg (rs1 ins)
      loadAddrPhy := pa - dramBase
      loadData := s.mem (ramCell (pa - dramBase).toNat) }) hop rfl hhi (by omega) rfl hva rfl
  | w64 =>
    have h8 : (s.reg (rs1 ins)).toNat % 8 = 0 := halign
    rw [armAmo_d h3, amoMapped_of_translate ht hp]
    dsimp only
    rw [if_pos hlo, hcell]
    refine ⟨_, rfl, ?_⟩
    exact amoD_done (u := { s with
      loadAddr := s.reg (rs1 ins)
      loadAddrPhy := pa - dramBase
      wbData := s.mem (ramCell (pa - dramBase).toNat) }) hop rfl hhi (by omega) rfl rfl

/-- `amomax.w x1, x1, (x1)`: the destination is the address and the operand. -/
theorem amo_correct_max : ∃ t, execute (quiet 0) 0xa010a0af (bare 0x80000004) = .fall t ∧
    AmoDone .w32 .max 0xa010a0af ((0x80000004 : Word) - dramBase).toNat (bare 0x80000004) t :=
  amo_correct ⟨rfl, rfl, rfl⟩ rfl rfl (by decide) (by decide)

end RiscvEmu
