import RiscvEmu.Effect
import RiscvEmu.Lib.Runs

/-! What one iteration of the loop can do to the machine: the spec lemmas of the trap functions, and
`iterate_turn`, which reads an iteration as a page fault of the fetch, an arm that continues, or an
arm that reaches the end of the loop body and the trap selection there. -/

namespace RiscvEmu

variable {inp : Input} {ins : Word}

def enter (h : Plevel) (interrupt : Byte) (ecode epc pc : Word) (m : Machine) : Machine :=
  match h with
  | .smode => { enterSmode interrupt ecode epc m with pc := pc }
  | _ => { enterMmode interrupt ecode epc m with pc := pc }

def Csrs.tvec (c : Csrs) : Plevel → Tvec
  | .umode => c.utvec
  | .smode => c.stvec
  | _ => c.mtvec

def Csrs.tval (c : Csrs) : Plevel → Word
  | .umode => c.utval
  | .smode => c.stval
  | _ => c.mtval

def Csrs.pie (c : Csrs) : Plevel → Byte
  | .umode => c.mstatus.upie
  | .smode => c.mstatus.spie
  | _ => c.mstatus.mpie

def Csrs.pp (c : Csrs) : Plevel → Byte
  | .umode => 0
  | .smode => c.mstatus.spp
  | _ => c.mstatus.mpp

def Csrs.xie (c : Csrs) : Plevel → Byte
  | .umode => c.mstatus.uie
  | .smode => c.mstatus.sie
  | _ => c.mstatus.mie

def Csrs.epc (c : Csrs) : Plevel → Word
  | .umode => c.uepc
  | .smode => c.sepc
  | _ => c.mepc

def Csrs.cause (c : Csrs) : Plevel → Cause
  | .umode => c.ucause
  | .smode => c.scause
  | _ => c.mcause

/-- The handling modes in which the emulator goes on. -/
def Plevel.handles (h : Plevel) : Prop := h = .smode ∨ h = .mmode

instance (h : Plevel) : Decidable h.handles := inferInstanceAs (Decidable (_ ∨ _))

section

variable (h : Plevel) (interrupt : Byte) (ecode epc pc : Word) (m : Machine)

@[simp] theorem enter_flags : (enter h interrupt ecode epc pc m).flags = m.flags := by
  cases h <;> rfl

@[simp] theorem enter_regFile : (enter h interrupt ecode epc pc m).regFile = m.regFile := by
  cases h <;> rfl

@[simp] theorem enter_mem : (enter h interrupt ecode epc pc m).mem = m.mem := by
  cases h <;> rfl

@[simp] theorem enter_resv : (enter h interrupt ecode epc pc m).resv = m.resv := by
  cases h <;> rfl

@[simp] theorem enter_bus : (enter h interrupt ecode epc pc m).bus = m.bus := by
  cases h <;> rfl

@[simp] theorem enter_pc : (enter h interrupt ecode epc pc m).pc = pc := by
  cases h <;> rfl

variable {h}

theorem enter_cp (hh : h.handles) : (enter h interrupt ecode epc pc m).cp = h := by
  rcases hh with rfl | rfl <;> rfl

theorem enter_epc (hh : h.handles) : (enter h interrupt ecode epc pc m).csr.epc h = epc := by
  rcases hh with rfl | rfl <;> rfl

theorem enter_cause (hh : h.handles) :
    (enter h interrupt ecode epc pc m).csr.cause h = ⟨interrupt, ecode⟩ := by
  rcases hh with rfl | rfl <;> rfl

end

theorem trapModeSelect_ne_hmode (cause : Word) (interrupt : Bool) (cur : Plevel) (c : Csrs) :
    trapModeSelect cause interrupt cur c ≠ some .hmode := by
  cases cur <;> simp only [trapModeSelect, ne_eq, Option.some.injEq, reduceCtorEq,
    not_false_eq_true] <;> split_ifs <;> simp

theorem trapModeSelect_rank {cause : Word} {interrupt : Bool} {cp h : Plevel} {c : Csrs}
    (ht : trapModeSelect cause interrupt cp c = some h) : cp.code ≤ h.code := by
  cases cp with
  | umode => exact BitVec.le_def.mpr (Nat.zero_le _)
  | smode =>
    simp only [trapModeSelect, Option.some.injEq] at ht
    subst ht
    split_ifs <;> decide
  | hmode => cases ht
  | mmode =>
    cases ht
    decide

theorem excepFunction_of_mode {pc me se ue : Word} {m : Machine} {hm : Plevel}
    (ht : trapModeSelect (modeCode me se ue m.cp) false m.cp m.csr = some hm) (hh : hm.handles) :
    excepFunction pc me se ue m.cp m =
      .ret (m.csr.tvec hm).base { enter hm 0 (modeCode me se ue m.cp) (pc - 4) m.pc m with
        pc := m.pc } := by
  unfold excepFunction
  dsimp only
  rw [ht]
  rcases hh with rfl | rfl <;> rfl

theorem excepFunction_ret {pc ec me se ue : Word} {m m' : Machine}
    (h : excepFunction pc me se ue m.cp m = .ret ec m') :
    ∃ hm, trapModeSelect (modeCode me se ue m.cp) false m.cp m.csr = some hm ∧ hm.handles := by
  unfold excepFunction at h
  dsimp only at h
  split at h
  · cases h
  · cases h
  · rename_i hm
    exact ⟨_, hm, .inl rfl⟩
  · rename_i hm
    exact ⟨_, hm, .inr rfl⟩
  · rename_i hm
    exact absurd hm (trapModeSelect_ne_hmode _ _ _ _)

theorem excepFunction_enters {pc pc' me se ue : Word} {m m' : Machine}
    (h : excepFunction pc me se ue m.cp m = .ret pc' m') :
    ∃ hm ecode epc, hm.handles ∧ trapModeSelect ecode false m.cp m.csr = some hm ∧
      pc' = (m.csr.tvec hm).base ∧ m' = enter hm 0 ecode epc m.pc m := by
  obtain ⟨hm, ht, hh⟩ := excepFunction_ret h
  rw [excepFunction_of_mode ht hh] at h
  cases h
  refine ⟨hm, _, pc - 4, hh, ht, rfl, ?_⟩
  rcases hh with rfl | rfl <;> rfl

theorem modeCode_same {ecode : Word} {cp : Plevel} (h : cp ≠ .hmode) :
    modeCode ecode ecode ecode cp = ecode := by
  cases cp <;> first | rfl | exact absurd rfl h

theorem ne_hmode_of_mode {cause : Word} {interrupt : Bool} {cur hm : Plevel} {c : Csrs}
    (h : trapModeSelect cause interrupt cur c = some hm) : cur ≠ .hmode := by
  rintro rfl
  cases h

theorem raiseExcep_of_mode {pc ecode : Word} {m : Machine} {hm : Plevel}
    (ht : trapModeSelect ecode false m.cp m.csr = some hm) (hh : hm.handles) :
    raiseExcep pc ecode m = .ret () (enter hm 0 ecode (pc - 4) (m.csr.tvec hm).base m) := by
  have hcode : modeCode ecode ecode ecode m.cp = ecode := modeCode_same (ne_hmode_of_mode ht)
  unfold raiseExcep
  rw [excepFunction_of_mode (by rw [hcode]; exact ht) hh, hcode]
  rcases hh with rfl | rfl <;> rfl

theorem raiseExcep_ret {pc ecode : Word} {m m' : Machine}
    (h : raiseExcep pc ecode m = .ret () m') :
    ∃ hm, trapModeSelect ecode false m.cp m.csr = some hm ∧ hm.handles ∧
      m' = enter hm 0 ecode (pc - 4) (m.csr.tvec hm).base m := by
  unfold raiseExcep at h
  split at h
  · cases h
  · rename_i he
    obtain ⟨hm, ht, hh⟩ := excepFunction_ret he
    rw [modeCode_same (ne_hmode_of_mode ht)] at ht
    have heq : raiseExcep pc ecode m = _ := raiseExcep_of_mode ht hh
    unfold raiseExcep at heq
    rw [he] at heq
    cases h
    exact ⟨hm, ht, hh, (Call.ret.inj heq).2⟩

theorem raiseInterrupt_ret {ecode : Word} {m m' : Machine}
    (h : raiseInterrupt ecode m = .ret () m') :
    ∃ hm, trapModeSelect ecode true m.cp m.csr = some hm ∧
      ((m.csr.xie hm ≠ 1 ∧ m' = m) ∨
        (m.csr.xie hm = 1 ∧ hm.handles ∧ (m.csr.tvec hm).mode ≠ 1 ∧
          ((m.csr.tvec hm).mode = 0 → m.cp ≠ .mmode) ∧
          m' = enter hm 1 ecode m.pc
            (if (m.csr.tvec hm).mode = 0 then (m.csr.tvec hm).base else 0) m)) := by
  unfold raiseInterrupt at h
  split at h
  · cases h
  · rename_i he
    cases h
    unfold interruptFunction at he
    dsimp only at he
    split at he
    · cases he
    · rename_i hm ht
      refine ⟨hm, ht, ?_⟩
      cases hm with
      | hmode => exact absurd ht (trapModeSelect_ne_hmode _ _ _ _)
      | umode =>
        -- handling in user mode ends the program, so it was declined
        simp only [true_and, reduceCtorEq, false_and, if_false] at he
        split_ifs at he with hu
        cases he
        exact .inl ⟨hu, rfl⟩
      | smode =>
        simp only [true_and, reduceCtorEq, false_and, if_false] at he
        split_ifs at he with hs h1 h0 hcp
        · cases he
          exact .inr ⟨hs, .inl rfl, h1, fun _ => hcp, by simp [enter, Csrs.tvec, h0]⟩
        · cases he
          -- in a reserved vector mode `new_PC` stays zero
          refine .inr ⟨hs, .inl rfl, h1, fun h => absurd h h0, ?_⟩
          rw [show m.csr.tvec .smode = m.csr.stvec from rfl, if_neg h0]
          rfl
        · cases he
          exact .inl ⟨hs, rfl⟩
      | mmode =>
        simp only [true_and, reduceCtorEq, false_and, if_false] at he
        split_ifs at he with hs h1 h0 hcp
        · cases he
          exact .inr ⟨hs, .inr rfl, h1, fun _ => hcp, by simp [enter, Csrs.tvec, h0]⟩
        · cases he
          refine .inr ⟨hs, .inr rfl, h1, fun h => absurd h h0, ?_⟩
          rw [show m.csr.tvec .mmode = m.csr.mtvec from rfl, if_neg h0]
          rfl
        · cases he
          exact .inl ⟨hs, rfl⟩

theorem raiseInterrupt_declines {ecode : Word} {m : Machine} {hm : Plevel}
    (ht : trapModeSelect ecode true m.cp m.csr = some hm) (he : m.csr.xie hm ≠ 1) :
    raiseInterrupt ecode m = .ret () m := by
  have hf : interruptFunction m.pc ecode m.cp m = .ret m.pc m := by
    unfold interruptFunction
    dsimp only
    rw [ht]
    dsimp only
    rw [if_neg (fun h => he (by rw [h.1]; exact h.2)), if_neg (fun h => he (by rw [h.1]; exact h.2)),
      if_neg (fun h => he (by rw [h.1]; exact h.2))]
  unfold raiseInterrupt
  rw [hf]

theorem raiseInterrupt_takes {ecode : Word} {m : Machine} {hm : Plevel}
    (ht : trapModeSelect ecode true m.cp m.csr = some hm) (he : m.csr.xie hm = 1) (hh : hm.handles)
    (hv : (m.csr.tvec hm).mode ≠ 1) (hp : (m.csr.tvec hm).mode = 0 → m.cp ≠ .mmode) :
    raiseInterrupt ecode m = .ret () (enter hm 1 ecode m.pc
      (if (m.csr.tvec hm).mode = 0 then (m.csr.tvec hm).base else 0) m) := by
  unfold raiseInterrupt interruptFunction
  dsimp only
  rw [ht]
  dsimp only
  by_cases h0 : (m.csr.tvec hm).mode = 0
  · have hcp := hp h0
    rw [if_pos h0]
    rcases hh with rfl | rfl
    · simp only [Csrs.tvec] at hv h0
      rw [if_neg (by simp), if_pos ⟨rfl, he⟩, if_neg hv, if_pos h0, if_neg hcp]
      rfl
    · simp only [Csrs.tvec] at hv h0
      rw [if_neg (by simp), if_neg (by simp), if_pos ⟨rfl, he⟩, if_neg hv, if_pos h0, if_neg hcp]
      rfl
  · rw [if_neg h0]
    rcases hh with rfl | rfl
    · simp only [Csrs.tvec] at hv h0
      rw [if_neg (by simp), if_pos ⟨rfl, he⟩, if_neg hv, if_neg h0]
      rfl
    · simp only [Csrs.tvec] at hv h0
      rw [if_neg (by simp), if_neg (by simp), if_pos ⟨rfl, he⟩, if_neg hv, if_neg h0]
      rfl

/-! ### Page faults -/

def faulted (hm : Plevel) (ecode va : Word) (m : Machine) : Machine :=
  faultTval (setMtval (enter hm 0 ecode (m.pc - 4) (m.csr.tvec hm).base m) va)

def fetchFaulted (hm : Plevel) (m : Machine) : Machine :=
  let m' := setMtval (enter hm 0 causeFetchPageFault m.pc (m.csr.tvec hm).base m) m.pc
  { m' with csr := { m'.csr with utval := m.pc, stval := m.pc } }

@[simp] theorem faultTval_flags (m : Machine) : (faultTval m).flags = m.flags := by
  unfold faultTval
  split <;> rfl

@[simp] theorem faultTval_resv (m : Machine) : (faultTval m).resv = m.resv := by
  unfold faultTval
  split <;> rfl

@[simp] theorem faultTval_bus (m : Machine) : (faultTval m).bus = m.bus := by
  unfold faultTval
  split <;> rfl

@[simp] theorem faultTval_mem (m : Machine) : (faultTval m).mem = m.mem := by
  unfold faultTval
  split <;> rfl

@[simp] theorem faultTval_pc (m : Machine) : (faultTval m).pc = m.pc := by
  unfold faultTval
  split <;> rfl

@[simp] theorem faulted_resv (hm : Plevel) (ecode va : Word) (m : Machine) :
    (faulted hm ecode va m).resv = m.resv := by
  rw [faulted, faultTval_resv]
  exact enter_resv hm 0 ecode _ _ m

@[simp] theorem faulted_bus (hm : Plevel) (ecode va : Word) (m : Machine) :
    (faulted hm ecode va m).bus = m.bus := by
  rw [faulted, faultTval_bus]
  exact enter_bus hm 0 ecode _ _ m

@[simp] theorem faulted_mem (hm : Plevel) (ecode va : Word) (m : Machine) :
    (faulted hm ecode va m).mem = m.mem := by
  rw [faulted, faultTval_mem]
  exact enter_mem hm 0 ecode _ _ m

@[simp] theorem faulted_flags (hm : Plevel) (ecode va : Word) (m : Machine) :
    (faulted hm ecode va m).flags = m.flags := by
  rw [faulted, faultTval_flags]
  exact enter_flags hm 0 ecode _ _ m

@[simp] theorem faulted_pc (hm : Plevel) (ecode va : Word) (m : Machine) :
    (faulted hm ecode va m).pc = (m.csr.tvec hm).base := by
  rw [faulted, faultTval_pc]
  exact enter_pc hm 0 ecode _ _ m

@[simp] theorem fetchFaulted_pc (hm : Plevel) (m : Machine) :
    (fetchFaulted hm m).pc = (m.csr.tvec hm).base := enter_pc hm 0 _ _ _ m

@[simp] theorem fetchFaulted_flags (hm : Plevel) (m : Machine) :
    (fetchFaulted hm m).flags = m.flags := enter_flags hm 0 _ _ _ m

theorem loadPageFault_of_mode {va : Word} {s : State} {hm : Plevel}
    (ht : trapModeSelect causeLoadPageFault false s.cp s.csr = some hm) (hh : hm.handles) :
    loadPageFault va s =
      .cont { s with toMachine := faulted hm causeLoadPageFault va s.toMachine } := by
  unfold loadPageFault
  rw [raiseExcep_of_mode (m := setMtval s.toMachine va) ht hh]
  rcases hh with rfl | rfl <;> rfl

theorem storePageFault_of_mode {va : Word} {s : State} {hm : Plevel}
    (ht : trapModeSelect causeStorePageFault false s.cp s.csr = some hm) (hh : hm.handles) :
    storePageFault va s =
      .cont { s with toMachine := faulted hm causeStorePageFault va s.toMachine } := by
  unfold storePageFault
  rw [raiseExcep_of_mode ht hh]
  rfl

theorem fetchFault_of_mode {m : Machine} {hm : Plevel}
    (ht : trapModeSelect causeFetchPageFault false m.cp m.csr = some hm) (hh : hm.handles) :
    fetchFault m = .ret () (fetchFaulted hm m) := by
  unfold fetchFault
  rw [raiseExcep_of_mode (m := setMtval m m.pc) ht hh, BitVec.add_sub_cancel]
  rcases hh with rfl | rfl <;> rfl

theorem loadPageFault_cont {va : Word} {s s' : State} (h : loadPageFault va s = .cont s') :
    ∃ hm, trapModeSelect causeLoadPageFault false s.cp s.csr = some hm ∧ hm.handles ∧
      s'.toMachine = faulted hm causeLoadPageFault va s.toMachine := by
  have hret := h
  unfold loadPageFault at hret
  split at hret
  · cases hret
  · rename_i hr
    obtain ⟨hm, ht, hh, -⟩ := raiseExcep_ret hr
    rw [loadPageFault_of_mode ht hh] at h
    cases h
    exact ⟨hm, ht, hh, rfl⟩

theorem storePageFault_cont {va : Word} {s s' : State} (h : storePageFault va s = .cont s') :
    ∃ hm, trapModeSelect causeStorePageFault false s.cp s.csr = some hm ∧ hm.handles ∧
      s'.toMachine = faulted hm causeStorePageFault va s.toMachine := by
  have hret := h
  unfold storePageFault at hret
  split at hret
  · cases hret
  · rename_i hr
    obtain ⟨hm, ht, hh, -⟩ := raiseExcep_ret hr
    rw [storePageFault_of_mode ht hh] at h
    cases h
    exact ⟨hm, ht, hh, rfl⟩

theorem fetchFault_ret {m m' : Machine} (h : fetchFault m = .ret () m') :
    ∃ hm, trapModeSelect causeFetchPageFault false m.cp m.csr = some hm ∧ hm.handles ∧
      m' = fetchFaulted hm m := by
  have hret := h
  unfold fetchFault at hret
  split at hret
  · cases hret
  · rename_i hr
    obtain ⟨hm, ht, hh, -⟩ := raiseExcep_ret hr
    rw [fetchFault_of_mode (m := m) ht hh] at h
    cases h
    exact ⟨hm, ht, hh, rfl⟩

/-! ### The arms that continue -/

inductive Continued (ins : Word) (m : Machine) : Machine → Prop
  | fence (ho : opcode ins = .fence) : Continued ins m m
  | fault (hm : Plevel) (ecode va : Word) (hh : hm.handles)
      (ht : trapModeSelect ecode false m.cp m.csr = some hm)
      (hc : ecode = causeLoadPageFault ∨ ecode = causeStorePageFault) :
      Continued ins m (faulted hm ecode va m)

theorem armLoad_cont {s s' : State} (h : armLoad inp ins s = .cont s') :
    Continued ins s.toMachine s'.toMachine ∧
      (s.reg (rs1 ins) + signExtend (imm11_0 ins) 12 ≠ fifoAddrRx ∧
        s.reg (rs1 ins) + signExtend (imm11_0 ins) 12 ≠ fifoAddrTx) ∧
      translate s.csr s.mem (s.reg (rs1 ins) + signExtend (imm11_0 ins) 12) .load s.cp =
        .ok (-1) := by
  unfold armLoad at h
  dsimp only at h
  split at h
  · rename_i hq
    split at h
    · cases h
    · rename_i pa hpa
      split at h
      · rename_i he
        obtain ⟨hm, ht, hh, hs⟩ := loadPageFault_cont h
        rw [hs]
        exact ⟨.fault hm causeLoadPageFault _ hh ht (.inl rfl), hq, he ▸ hpa⟩
      · split at h <;> cases h
  · cases h

theorem storeRam_cont {pa : Word} {s s' : State} : storeRam ins pa s ≠ .cont s' := by
  intro h
  unfold storeRam at h
  dsimp only at h
  split at h
  · cases h
  · split at h <;> cases h

theorem armStore_cont {s s' : State} (h : armStore inp ins s = .cont s') :
    Continued ins s.toMachine s'.toMachine ∧
      s.reg (rs1 ins) + signExtend (immS ins) 12 ≠ fifoAddrTx ∧
      translate s.csr s.mem (s.reg (rs1 ins) + signExtend (immS ins) 12) .stor s.cp = .ok (-1) := by
  unfold armStore at h
  dsimp only at h
  split at h
  · rename_i hq
    split at h
    · cases h
    · rename_i pa hpa
      split at h
      · rename_i he
        obtain ⟨hm, ht, hh, hs⟩ := storePageFault_cont h
        rw [hs]
        exact ⟨.fault hm causeStorePageFault _ hh ht (.inr rfl), hq, he ▸ hpa⟩
      · split at h
        · exact absurd h storeRam_cont
        · split at h <;> cases h
  · cases h

theorem amoMapped_cont {s s' : State} {k : Cell → State → State}
    (h : amoMapped ins s k = .cont s') : Continued ins s.toMachine s'.toMachine ∧
      translate s.csr s.mem (s.reg (rs1 ins)) .stor s.cp = .ok (-1) := by
  unfold amoMapped at h
  dsimp only at h
  split at h
  · cases h
  · rename_i pa hpa
    split at h
    · rename_i he
      obtain ⟨hm, ht, hh, hs⟩ := storePageFault_cont h
      rw [hs]
      exact ⟨.fault hm causeStorePageFault _ hh ht (.inr rfl), he ▸ hpa⟩
    · split at h
      · split at h <;> cases h
      · cases h

theorem armAmo_cont {s s' : State} (h : armAmo ins s = .cont s') :
    Continued ins s.toMachine s'.toMachine ∧
      ((func3 ins).toNat = 0b010 ∨ (func3 ins).toNat = 0b011) ∧
      translate s.csr s.mem (s.reg (rs1 ins)) .stor s.cp = .ok (-1) := by
  unfold armAmo at h
  split at h
  · rename_i h3
    obtain ⟨hc, ht⟩ := amoMapped_cont h
    exact ⟨hc, .inl h3, ht⟩
  · rename_i h3
    obtain ⟨hc, ht⟩ := amoMapped_cont h
    exact ⟨hc, .inr h3, ht⟩
  · cases h

theorem armRops_cont {s s' : State} : armRops ins s ≠ .cont s' := by
  intro h
  unfold armRops ropsMul at h
  split_ifs at h
  split at h <;> (try cases h)
  split at h <;> cases h

theorem armRops64_cont {s s' : State} : armRops64 ins s ≠ .cont s' := by
  intro h
  unfold armRops64 rops64Mul at h
  split_ifs at h
  split at h <;> (try cases h)
  all_goals split at h <;> cases h

theorem armSystm_cont {s s' : State} : armSystm inp ins s ≠ .cont s' := by
  intro h
  unfold armSystm at h
  split at h <;> (try cases h)
  unfold privileged at h
  split at h <;> (try cases h)
  unfold ecall at h
  split at h <;> cases h

theorem execute_cont {s s' : State} (h : execute inp ins s = .cont s') :
    Continued ins s.toMachine s'.toMachine := by
  unfold execute at h
  split at h
  case h_6 => exact (armLoad_cont h).1
  case h_7 => exact (armStore_cont h).1
  case h_10 => exact absurd h armRops_cont
  case h_11 => exact absurd h armRops64_cont
  case h_12 => exact (armAmo_cont h).1
  case h_13 ho =>
    cases h
    exact .fence ho
  case h_14 => exact absurd h armSystm_cont
  all_goals cases h

/-! ### The trap selection -/

/-- The exception that the chain takes when no interrupt is selected, and the flags it leaves. -/
def Flags.first (f : Flags) : Option (Word × Flags) :=
  if f.insAccFault then some (causeFetchAccess, { f with insAccFault := false })
  else if f.illIns then some (causeIllegalInstruction, { f with illIns := false })
  else if f.ebreak then some (causeBreakpoint, { f with ebreak := false })
  else if f.insAddrMissalig then some (causeMisalignedFetch, { f with insAddrMissalig := false })
  else if f.ldAddrMissalig then some (causeMisalignedLoad, { f with ldAddrMissalig := false })
  else if f.storeAddrMissalig then some (causeMisalignedStore, { f with storeAddrMissalig := false })
  else none

theorem first_ne {f g : Flags} {ecode : Word} (h : f.first = some (ecode, g)) : g ≠ f := by
  rintro rfl
  obtain ⟨ld, ia, ii, eb, im, lm, sm⟩ := g
  unfold Flags.first at h
  split_ifs at h <;> simp_all

theorem selectException_eq (m : Machine) :
    selectException m = match m.flags.first with
      | none => .ret () m
      | some (ecode, f) => raiseExcep m.pc ecode { m with flags := f } := by
  unfold selectException Flags.first
  dsimp only
  split_ifs <;> rfl

theorem selectTrap_eq {m : Machine} (h : m.flags.ldAccFault = false) :
    selectTrap m = match selectInterrupt m.csr with
      | some ecode => raiseInterrupt ecode m
      | none => selectException m := by
  unfold selectTrap
  rw [h]
  rfl

inductive Selected (m : Machine) : Machine → Prop
  | none (hl : m.flags.ldAccFault = false) (hi : selectInterrupt m.csr = .none)
      (hf : m.flags.first = .none) : Selected m m
  | declined (ecode : Word) (hm : Plevel) (hl : m.flags.ldAccFault = false)
      (hi : selectInterrupt m.csr = some ecode)
      (ht : trapModeSelect ecode true m.cp m.csr = some hm) (he : m.csr.xie hm ≠ 1) : Selected m m
  | interrupt (ecode : Word) (hm : Plevel) (hl : m.flags.ldAccFault = false)
      (hi : selectInterrupt m.csr = some ecode)
      (ht : trapModeSelect ecode true m.cp m.csr = some hm) (he : m.csr.xie hm = 1)
      (hh : hm.handles) (hv : (m.csr.tvec hm).mode ≠ 1)
      (hp : (m.csr.tvec hm).mode = 0 → m.cp ≠ .mmode) :
      Selected m (enter hm 1 ecode m.pc
        (if (m.csr.tvec hm).mode = 0 then (m.csr.tvec hm).base else 0) m)
  | exception (ecode : Word) (hm : Plevel) (f : Flags)
      (hf : m.flags.ldAccFault = true ∨ selectInterrupt m.csr = .none ∧ m.flags.first = some (ecode, f))
      (hl : m.flags.ldAccFault = true →
        ecode = causeLoadAccess ∧ f = { m.flags with ldAccFault := false })
      (ht : trapModeSelect ecode false m.cp m.csr = some hm) (hh : hm.handles) :
      Selected m (enter hm 0 ecode (m.pc - 4) (m.csr.tvec hm).base { m with flags := f })

theorem selectTrap_ret {m m' : Machine} (h : selectTrap m = .ret () m') : Selected m m' := by
  cases hl : m.flags.ldAccFault with
  | true =>
    unfold selectTrap at h
    rw [hl, if_pos rfl] at h
    obtain ⟨hm, ht, hh, rfl⟩ := raiseExcep_ret h
    exact .exception causeLoadAccess hm _ (.inl hl) (fun _ => ⟨rfl, rfl⟩) ht hh
  | false =>
    rw [selectTrap_eq hl] at h
    split at h
    · rename_i ecode hi
      obtain ⟨hm, ht, ⟨he, rfl⟩ | ⟨he, hh, hv, hp, rfl⟩⟩ := raiseInterrupt_ret h
      · exact .declined ecode hm hl hi ht he
      · exact .interrupt ecode hm hl hi ht he hh hv hp
    · rename_i hi
      rw [selectException_eq] at h
      split at h
      · rename_i hf
        cases h
        exact .none hl hi hf
      · rename_i ecode f hf
        obtain ⟨hm, ht, hh, rfl⟩ := raiseExcep_ret h
        refine .exception ecode hm f (.inr ⟨hi, hf⟩) (fun h => ?_) ht hh
        rw [hl] at h
        cases h

theorem raiseExcep_stop_same {pc ecode : Word} {h : Halt} {m m' : Machine}
    (hs : raiseExcep pc ecode m = .stop h m') : m' = m := by
  unfold raiseExcep excepFunction at hs
  dsimp only at hs
  split at hs
  · rename_i he
    cases hs
    split at he <;> cases he <;> rfl
  · cases hs

theorem excepFunction_stop {pc me se ue : Word} {h : Halt} {m m' : Machine}
    (hs : excepFunction pc me se ue m.cp m = .stop h m') : h = .undefined ∨ h = .exit 4 := by
  unfold excepFunction at hs
  dsimp only at hs
  split at hs
  · cases hs
    exact .inl rfl
  · cases hs
    exact .inr rfl
  all_goals cases hs

theorem raiseExcep_stop {pc ecode : Word} {h : Halt} {m m' : Machine}
    (hs : raiseExcep pc ecode m = .stop h m') : h = .undefined ∨ h = .exit 4 := by
  unfold raiseExcep at hs
  split at hs
  · rename_i he
    cases hs
    exact excepFunction_stop he
  · cases hs

theorem raiseInterrupt_stop {ecode : Word} {h : Halt} {m m' : Machine}
    (hs : raiseInterrupt ecode m = .stop h m') : h ≠ .leave := by
  unfold raiseInterrupt interruptFunction at hs
  dsimp only at hs
  split at hs
  · rename_i he
    cases hs
    split at he
    · cases he
      simp
    · split_ifs at he <;> cases he <;> simp
  · cases hs

theorem selectTrap_stop {h : Halt} {m m' : Machine} (hs : selectTrap m = .stop h m') :
    h ≠ .leave := by
  unfold selectTrap at hs
  split at hs
  · rcases raiseExcep_stop hs with rfl | rfl <;> exact nofun
  · split at hs
    · exact raiseInterrupt_stop hs
    · rw [selectException_eq] at hs
      split at hs
      · cases hs
      · rcases raiseExcep_stop hs with rfl | rfl <;> exact nofun

/-! ### One iteration -/

def atLoopEnd (inp : Input) (s : State) : Option State :=
  let s := { s with toMachine := tick inp s.toMachine }
  match fetch s.toMachine with
  | .word ins =>
    match execute inp ins (decoded s) with
    | .fall s' => some s'
    | _ => none
  | _ => none

theorem iterate_of_atLoopEnd {s s' : State} (h : atLoopEnd inp s = some s') :
    iterate inp s = loopEnd s.pc s' := by
  unfold atLoopEnd at h
  unfold iterate
  dsimp only at h ⊢
  split at h
  · rename_i hf
    rw [hf]
    split at h
    · rename_i hx
      cases h
      dsimp only
      rw [hx]
      rfl
    · cases h
  · cases h

theorem execute_of_atLoopEnd {s s' : State} (h : atLoopEnd inp s = some s')
    (hf : fetch (tick inp s.toMachine) = .word ins) :
    execute inp ins (decoded { s with toMachine := tick inp s.toMachine }) = .fall s' := by
  unfold atLoopEnd at h
  dsimp only at h
  rw [hf] at h
  dsimp only at h
  split at h
  · rename_i hx
    cases h
    exact hx
  · cases h

theorem atLoopEnd_effect {s s' : State} (h : atLoopEnd inp s = some s') :
    ∃ ins, fetch (tick inp s.toMachine) = .word ins ∧
      Effect inp ins (advance (tick inp s.toMachine)) s'.toMachine := by
  unfold atLoopEnd at h
  dsimp only at h
  split at h
  · rename_i ins hf
    split at h
    · rename_i hx
      cases h
      exact ⟨ins, hf, execute_effect hx⟩
    · cases h
  · cases h

inductive Turn (inp : Input) (s : State) : Machine → Prop
  | fetchFault (hm : Plevel) (hh : hm.handles)
      (ht : trapModeSelect causeFetchPageFault false s.cp s.csr = some hm) :
      Turn inp s (fetchFaulted hm (tick inp s.toMachine))
  | cont (ins : Word) (m : Machine) (hf : fetch (tick inp s.toMachine) = .word ins)
      (hc : Continued ins (advance (tick inp s.toMachine)) m) : Turn inp s m
  | fall (s' : State) (ins : Word) (m : Machine) (hl : atLoopEnd inp s = some s')
      (hf : fetch (tick inp s.toMachine) = .word ins)
      (he : Effect inp ins (advance (tick inp s.toMachine)) s'.toMachine)
      (ht : Selected (refresh s'.toMachine) m) : Turn inp s m

theorem loopEnd_next {lpc : Word} {s t : State} (h : loopEnd lpc s = .next t) :
    selectTrap (refresh s.toMachine) = .ret () t.toMachine := by
  unfold loopEnd at h
  split at h
  · cases h
  · rename_i hs
    split at h
    · cases h
    · cases h
      exact hs

theorem selected_of_atLoopEnd {s s' t : State} (h : atLoopEnd inp s = some s')
    (hn : Next inp s t) : Selected (refresh s'.toMachine) t.toMachine := by
  rw [Next, iterate_of_atLoopEnd h] at hn
  exact selectTrap_ret (loopEnd_next hn)

theorem selected_mem {m m' : Machine} (h : Selected m m') : m'.mem = m.mem := by
  cases h with
  | none => rfl
  | declined => rfl
  | interrupt => exact enter_mem ..
  | exception => exact enter_mem ..

theorem next_turn {s t : State} (h : Next inp s t) : Turn inp s t.toMachine := by
  cases hl : atLoopEnd inp s with
  | some s' =>
    obtain ⟨ins, hf, he⟩ := atLoopEnd_effect hl
    rw [Next, iterate_of_atLoopEnd hl] at h
    exact .fall s' ins _ hl hf he (selectTrap_ret (loopEnd_next h))
  | none =>
    unfold Next iterate at h
    unfold atLoopEnd at hl
    dsimp only at h hl
    split at h
    · cases h
    · split at h
      · cases h
      · rename_i hr
        cases h
        obtain ⟨hm, ht, hh, rfl⟩ := fetchFault_ret hr
        exact .fetchFault hm hh ht
    · rename_i ins hf
      rw [hf] at hl
      split at h
      · cases h
      · rename_i hx
        cases h
        exact .cont ins _ hf (execute_cont hx)
      · rename_i hx
        dsimp only at hl
        rw [hx] at hl
        cases hl

/-- The iteration went through to its end: the loop goes on from `u`, or it stops there because the
program counter is where it was. -/
def Completes (inp : Input) (s u : State) : Prop :=
  iterate inp s = .next u ∨ iterate inp s = .halt .leave u

theorem iterate_of_word {s : State} (h : fetch (tick inp s.toMachine) = .word ins) :
    iterate inp s =
      match execute inp ins (decoded { s with toMachine := tick inp s.toMachine }) with
      | .stop h s => .halt h s
      | .cont s => .next s
      | .fall s' => loopEnd s.pc s' := by
  unfold iterate
  dsimp only
  rw [h]
  rfl

theorem atLoopEnd_of_word {s s' : State} (h : fetch (tick inp s.toMachine) = .word ins)
    (hx : execute inp ins (decoded { s with toMachine := tick inp s.toMachine }) = .fall s') :
    atLoopEnd inp s = some s' := by
  unfold atLoopEnd
  dsimp only
  rw [h]
  dsimp only
  rw [hx]

theorem completes_iff_of_atLoopEnd {s s' u : State} (h : atLoopEnd inp s = some s') :
    Completes inp s u ↔
      ∃ m, selectTrap (refresh s'.toMachine) = .ret () m ∧ u = { s' with toMachine := m } := by
  unfold Completes
  rw [iterate_of_atLoopEnd h, loopEnd]
  split
  · rename_i hs
    simp only [hs, reduceCtorEq, Step.halt.injEq, false_or, false_and, exists_false, iff_false,
      not_and]
    exact fun hl => absurd hl (selectTrap_stop hs)
  · rename_i m hs
    simp only [hs, Call.ret.injEq, true_and, exists_eq_left']
    split <;> simp [eq_comm]

def next? (inp : Input) (s : State) : Option State :=
  match iterate inp s with
  | .next t => some t
  | .halt _ _ => none

theorem next_of_next? {s t : State} (h : next? inp s = some t) : Next inp s t := by
  unfold next? at h
  split at h
  · rename_i hn
    cases h
    exact hn
  · cases h

open Runs in
theorem exists_run (s : State) (is : List Input) (p : State → Bool)
    (h : (drive next? is s).any p = true) : ∃ t, Run Next s is.reverse t ∧ p t = true := by
  obtain ⟨t, hr, hp⟩ := exists_run_of_drive h
  exact ⟨t, hr.mono fun _ _ _ => next_of_next?, hp⟩

open Runs in
theorem exists_guarded_run (guard : Input → State → Prop) [∀ i s, Decidable (guard i s)]
    (s : State) (is : List Input) (p : State → Bool)
    (h : (drive (fun i s => if guard i s then next? i s else none) is s).any p = true) :
    ∃ t, Run (Guarded guard Next) s is.reverse t ∧ p t = true := by
  obtain ⟨t, hr, hp⟩ := exists_run_of_drive h
  refine ⟨t, hr.mono fun i a b hab => ?_, hp⟩
  split at hab
  · rename_i hg
    exact ⟨hg, next_of_next? hab⟩
  · cases hab

end RiscvEmu
