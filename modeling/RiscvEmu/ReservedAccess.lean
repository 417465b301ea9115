import RiscvEmu.AtomicOps
import RiscvEmu.Reservation

/-! LR and SC on a naturally aligned address in RAM: what the emulator does with the reservations, the
registers and memory. -/

namespace RiscvEmu

open Bytes

variable {inp : Input} {ins pa : Word} {s u : State} {w : Width} {a : ℕ}

def IsLr (ins : Word) (w : Width) : Prop :=
  opcode ins = .amo ∧ (amoOp ins).toNat = 0b00010 ∧ (func3 ins).toNat = w.funct3

/-- `rd` gets the value, sign-extended, and the reservation of the width is set. -/
def LrDone (w : Width) (ins : Word) (a : ℕ) (s t : State) : Prop :=
  t.toMachine = { s.toMachine with
    regFile := s.regSet (rd ins) ((s.mem.value w a).signExtend 64)
    resv := s.resv.set (s.reg (rs1 ins)) w
    bus := t.bus }

/-- The operand replaces the value in memory, `rd` gets 0, and the reservation is dropped. -/
structure ScSucceeds (w : Width) (ins : Word) (a : ℕ) (s t : State) : Prop where
  machine : t.toMachine = { s.toMachine with
    regFile := s.regSet (rd ins) 0
    mem := t.mem
    resv := s.resv.drop w
    bus := t.bus }
  bytes : ∀ x < ramSize, t.mem.byte x = put (a, bytes (s.reg (rs2 ins)) w.bytes) s.mem.byte x

def ScFails (w : Width) (ins : Word) (s t : State) : Prop :=
  t.toMachine = { s.toMachine with
    regFile := s.regSet (rd ins) 1
    resv := s.resv.drop w
    bus := t.bus }

/-! ### The arms -/

theorem value_cell (mem : Memory) (h8 : a % 8 = 0) :
    mem (ramCell a) = (mem.value .w64 a).signExtend 64 := by
  have hslice := slice_eq_word mem (show a % 8 + 8 ≤ 8 by omega)
  rw [h8] at hslice
  have hval : mem (ramCell a) = mem.value .w64 a :=
    (slice_all _).symm.trans (hslice.trans (BitVec.setWidth_eq _).symm)
  exact hval.trans (BitVec.signExtend_eq _).symm

theorem mod_of_phy (hphy : u.loadAddrPhy.toNat = a) (h8 : a % 8 = 0) : u.loadAddrPhy % 8 = 0 := by
  refine BitVec.eq_of_toNat_eq ?_
  rw [toNat_mod_eight, hphy, h8]
  rfl

theorem lrW_done (hm : u.toMachine = s.toMachine) (h4 : a % 4 = 0)
    (hva : u.loadAddr = s.reg (rs1 ins)) (hphy : u.loadAddrPhy.toNat = a)
    (hd : u.loadData = s.mem (ramCell a)) : LrDone .w32 ins a s (retToRd ins (lrW u)) := by
  have hfit : a % 8 + 4 ≤ 8 := by omega
  have hword : loadWord u.loadAddrPhy u.loadData = (true, word s.mem.byte a 4) := by
    rw [loadWord_eq, loadFit, hphy, if_pos hfit, hd, slice_eq_word s.mem hfit]
  unfold LrDone lrW retToRd State.setReg Machine.regSet
  rw [hword]
  dsimp only
  rw [hm, hva, signExtend_mask32]
  rfl

theorem lrD_done (hm : u.toMachine = s.toMachine) (h8 : a % 8 = 0)
    (hphy : u.loadAddrPhy.toNat = a) (hd : u.wbData = s.mem (ramCell a)) :
    LrDone .w64 ins a s (retToRd ins (lrD ins u)) := by
  have hreg : u.reg (rs1 ins) = s.reg (rs1 ins) := congrArg (fun m : Machine => m.reg (rs1 ins)) hm
  unfold LrDone lrD retToRd State.setReg Machine.regSet
  rw [if_neg (not_not.mpr (mod_of_phy hphy h8))]
  dsimp only
  rw [hreg, hm, hd, value_cell s.mem h8]
  rfl

theorem scW_succeeds (hm : u.toMachine = s.toMachine) (ha : a < ramSize) (h4 : a % 4 = 0)
    (hphy : u.loadAddrPhy.toNat = a) (hd : u.loadData = s.mem (ramCell a))
    (hr : s.resv.Holds (s.reg (rs1 ins)) .w32) :
    ScSucceeds .w32 ins a s (retToRd ins (scW ins (ramCell a) u)) := by
  have hfit : a % 8 + 4 ≤ 8 := by omega
  have hstore : storeWord u.loadAddrPhy u.loadData (s.reg (rs2 ins) &&& mask32) =
      (true, splice (s.mem (ramCell a)) (s.reg (rs2 ins)) (8 * (a % 8)) (8 * 4)) := by
    have hlow : mask32 = low 64 (8 * 4) := rfl
    rw [storeWord_eq, storeFit, hphy, if_pos hfit, hd, hlow, splice_and_low]
  have hpaired : u.resv.valid = true ∧ u.reg (rs1 ins) = u.resv.addr := by
    show u.toMachine.resv.valid = true ∧ u.toMachine.reg (rs1 ins) = u.toMachine.resv.addr
    rw [hm]
    exact hr
  have hreg : u.reg (rs2 ins) = s.reg (rs2 ins) := congrArg (fun m : Machine => m.reg (rs2 ins)) hm
  have hmach : (retToRd ins (scW ins (ramCell a) u)).toMachine = { s.toMachine with
      regFile := s.regSet (rd ins) 0
      mem := s.mem.set (ramCell a)
        (splice (s.mem (ramCell a)) (s.reg (rs2 ins)) (8 * (a % 8)) (8 * 4))
      resv := s.resv.drop .w32
      bus := (scW ins (ramCell a) u).bus } := by
    unfold scW scWStore retToRd State.setReg Machine.regSet
    dsimp only
    rw [if_pos hpaired, hreg, hstore]
    dsimp only
    unfold Machine.write
    rw [hm]
    rfl
  refine ⟨?_, fun x hx => ?_⟩
  · rw [hmach]
  · rw [hmach]
    exact byte_set_splice s.mem _ ha hfit hx

theorem scD_succeeds (hm : u.toMachine = s.toMachine) (ha : a < ramSize) (h8 : a % 8 = 0)
    (hphy : u.loadAddrPhy.toNat = a) (hr : s.resv.Holds (s.reg (rs1 ins)) .w64) :
    ScSucceeds .w64 ins a s (retToRd ins (scD ins (ramCell a) u)) := by
  have hpaired : u.resv.valid64 = true ∧ u.reg (rs1 ins) = u.resv.addr64 := by
    show u.toMachine.resv.valid64 = true ∧ u.toMachine.reg (rs1 ins) = u.toMachine.resv.addr64
    rw [hm]
    exact hr
  have hreg : u.reg (rs2 ins) = s.reg (rs2 ins) := congrArg (fun m : Machine => m.reg (rs2 ins)) hm
  have hmach : (retToRd ins (scD ins (ramCell a) u)).toMachine = { s.toMachine with
      regFile := s.regSet (rd ins) 0
      mem := s.mem.set (ramCell a)
        (splice (s.mem (ramCell a)) (s.reg (rs2 ins)) (8 * (a % 8)) (8 * 8))
      resv := s.resv.drop .w64
      bus := (scD ins (ramCell a) u).bus } := by
    unfold scD scDStore retToRd State.setReg Machine.regSet
    dsimp only
    rw [if_pos hpaired, if_neg (not_not.mpr (mod_of_phy hphy h8)), hreg, h8, splice_all]
    dsimp only
    unfold Machine.write
    rw [hm]
    rfl
  refine ⟨?_, fun x hx => ?_⟩
  · rw [hmach]
  · rw [hmach]
    exact byte_set_splice s.mem _ ha (by omega) hx

theorem scW_fails (c : Cell) (hm : u.toMachine = s.toMachine)
    (hr : ¬ s.resv.Holds (s.reg (rs1 ins)) .w32) :
    ScFails .w32 ins s (retToRd ins (scW ins c u)) := by
  have hn : ¬ (u.resv.valid = true ∧ u.reg (rs1 ins) = u.resv.addr) := by
    show ¬ (u.toMachine.resv.valid = true ∧ u.toMachine.reg (rs1 ins) = u.toMachine.resv.addr)
    rw [hm]
    exact hr
  unfold ScFails scW retToRd State.setReg Machine.regSet
  dsimp only
  rw [if_neg hn]
  dsimp only
  rw [hm]
  rfl

theorem scD_fails (c : Cell) (hm : u.toMachine = s.toMachine)
    (hr : ¬ s.resv.Holds (s.reg (rs1 ins)) .w64) :
    ScFails .w64 ins s (retToRd ins (scD ins c u)) := by
  have hn : ¬ (u.resv.valid64 = true ∧ u.reg (rs1 ins) = u.resv.addr64) := by
    show ¬ (u.toMachine.resv.valid64 = true ∧ u.toMachine.reg (rs1 ins) = u.toMachine.resv.addr64)
    rw [hm]
    exact hr
  unfold ScFails scD retToRd State.setReg Machine.regSet
  dsimp only
  rw [if_neg hn]
  dsimp only
  rw [hm]
  rfl

/-! ### The instructions -/

theorem armAmo_cell (inp : Input) (ho : opcode ins = .amo) (h3 : (func3 ins).toNat = w.funct3)
    (ht : translate s.csr s.mem (s.reg (rs1 ins)) .stor s.cp = .ok pa) (hlo : dramBase < pa)
    (hhi : (pa - dramBase).toNat < ramSize) :
    ∃ u : State, u.toMachine = s.toMachine ∧ u.loadAddr = s.reg (rs1 ins) ∧
      u.loadAddrPhy = pa - dramBase ∧
      match w with
      | .w32 => u.loadData = s.mem (ramCell (pa - dramBase).toNat) ∧ execute inp ins s =
          .fall (retToRd ins (amoSwitchW ins (ramCell (pa - dramBase).toNat) u))
      | .w64 => u.wbData = s.mem (ramCell (pa - dramBase).toNat) ∧ execute inp ins s =
          .fall (retToRd ins (amoSwitchD ins (ramCell (pa - dramBase).toNat) u)) := by
  have hp : pa ≠ -1 := by
    rintro rfl
    exact absurd hhi (by decide)
  have hcell := cell?_div_eight hhi
  cases w with
  | w32 =>
    refine ⟨{ s with
      loadAddr := s.reg (rs1 ins)
      loadAddrPhy := pa - dramBase
      loadData := s.mem (ramCell (pa - dramBase).toNat) }, rfl, rfl, rfl, rfl, ?_⟩
    rw [execute_amo ho, armAmo_w h3, amoMapped_of_translate ht hp]
    dsimp only
    rw [if_pos hlo, hcell]
  | w64 =>
    refine ⟨{ s with
      loadAddr := s.reg (rs1 ins)
      loadAddrPhy := pa - dramBase
      wbData := s.mem (ramCell (pa - dramBase).toNat) }, rfl, rfl, rfl, rfl, ?_⟩
    rw [execute_amo ho, armAmo_d h3, amoMapped_of_translate ht hp]
    dsimp only
    rw [if_pos hlo, hcell]

theorem offset_aligned (halign : (s.reg (rs1 ins)).toNat % w.bytes = 0)
    (ht : translate s.csr s.mem (s.reg (rs1 ins)) .stor s.cp = .ok pa)
    (hhi : (pa - dramBase).toNat < ramSize) : (pa - dramBase).toNat % w.bytes = 0 := by
  have hp : pa ≠ -1 := by
    rintro rfl
    exact absurd hhi (by decide)
  have hoff := translate_offset ht hp
  have hmod := sub_dramBase_mod pa
  cases w with
  | w32 =>
    have h4 : (s.reg (rs1 ins)).toNat % 4 = 0 := halign
    show (pa - dramBase).toNat % 4 = 0
    omega
  | w64 =>
    have h8 : (s.reg (rs1 ins)).toNat % 8 = 0 := halign
    show (pa - dramBase).toNat % 8 = 0
    omega

theorem lr_done (hi : IsLr ins w) (halign : (s.reg (rs1 ins)).toNat % w.bytes = 0)
    (ht : translate s.csr s.mem (s.reg (rs1 ins)) .stor s.cp = .ok pa) (hlo : dramBase < pa)
    (hhi : (pa - dramBase).toNat < ramSize) :
    ∃ t, execute inp ins s = .fall t ∧ LrDone w ins (pa - dramBase).toNat s t := by
  obtain ⟨ho, hop, h3⟩ := hi
  have ha := offset_aligned halign ht hhi
  obtain ⟨u, hm, hva, hphy, hu⟩ := armAmo_cell inp ho h3 ht hlo hhi
  cases w with
  | w32 =>
    have hsw : amoSwitchW ins (ramCell (pa - dramBase).toNat) u = lrW u := by
      unfold amoSwitchW
      rw [hop]
      rfl
    refine ⟨_, hu.2, ?_⟩
    rw [hsw]
    exact lrW_done hm ha hva (congrArg _ hphy) hu.1
  | w64 =>
    have hsw : amoSwitchD ins (ramCell (pa - dramBase).toNat) u = lrD ins u := by
      unfold amoSwitchD
      rw [hop]
      rfl
    refine ⟨_, hu.2, ?_⟩
    rw [hsw]
    exact lrD_done hm ha (congrArg _ hphy) hu.1

theorem sc_done (hi : IsSc ins w) (halign : (s.reg (rs1 ins)).toNat % w.bytes = 0)
    (ht : translate s.csr s.mem (s.reg (rs1 ins)) .stor s.cp = .ok pa) (hlo : dramBase < pa)
    (hhi : (pa - dramBase).toNat < ramSize) :
    ∃ t, execute inp ins s = .fall t ∧
      (s.resv.Holds (s.reg (rs1 ins)) w → ScSucceeds w ins (pa - dramBase).toNat s t) ∧
      (¬ s.resv.Holds (s.reg (rs1 ins)) w → ScFails w ins s t) := by
  obtain ⟨ho, hop, h3⟩ := hi
  have ha := offset_aligned halign ht hhi
  cases w with
  | w32 =>
    obtain ⟨u, hm, hva, hphy, hd, hx⟩ := armAmo_cell inp (w := .w32) ho h3 ht hlo hhi
    rw [amoSwitchW_sc hop] at hx
    exact ⟨_, hx, scW_succeeds hm hhi ha (congrArg _ hphy) hd, scW_fails _ hm⟩
  | w64 =>
    obtain ⟨u, hm, hva, hphy, hd, hx⟩ := armAmo_cell inp (w := .w64) ho h3 ht hlo hhi
    rw [amoSwitchD_sc hop] at hx
    exact ⟨_, hx, scD_succeeds hm hhi ha (congrArg _ hphy), scD_fails _ hm⟩

end RiscvEmu
