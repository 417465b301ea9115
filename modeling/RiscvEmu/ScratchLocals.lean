import RiscvEmu.ByteMemory
import RiscvEmu.CsrInstructions
import RiscvEmu.Turn

/-! Whether an iteration depends on the locals that earlier iterations have left behind: the
iterations in which it does are those of `Stale`. -/

namespace RiscvEmu

variable {inp : Input} {ins : Word} {m : Machine} {l k : Locals}

/-- The architectural part of the machine: `x0` is zero whatever its slot holds, and the bus history
is not state. -/
def Machine.arch (m : Machine) : Machine :=
  { m with regFile := Function.update m.regFile 0 0, bus := [] }

def Locals.zero : Locals := ⟨false, false, false, 0, 0, 0, 0, 0, 0, 0, 0, 0, 0, 0, 0⟩

def State.bare (s : State) : State := ⟨s.arch, .zero⟩

def Res.bare : Res → Res
  | .fall s => .fall s.bare
  | .cont s => .cont s.bare
  | .stop h s => .stop h s.bare

def Step.bare : Step → Step
  | .next s => .next s.bare
  | .halt h s => .halt h s.bare

def Step.state : Step → State
  | .next s => s
  | .halt _ s => s

/-! ### The end of the loop body -/

def Machine.dress (m : Machine) (r : BitVec 5 → Word) (x : Memory) (b : List BusEvent) : Machine :=
  { m with regFile := r, mem := x, bus := b }

def Call.dress {α : Type} (r : BitVec 5 → Word) (x : Memory) (b : List BusEvent) : Call α → Call α
  | .ret a m => .ret a (m.dress r x b)
  | .stop h m => .stop h (m.dress r x b)

section

variable (r : BitVec 5 → Word) (x : Memory) (b : List BusEvent)

@[simp] theorem dress_csr (m : Machine) : (m.dress r x b).csr = m.csr := rfl

@[simp] theorem dress_cp (m : Machine) : (m.dress r x b).cp = m.cp := rfl

@[simp] theorem dress_pc (m : Machine) : (m.dress r x b).pc = m.pc := rfl

@[simp] theorem dress_flags (m : Machine) : (m.dress r x b).flags = m.flags := rfl

theorem excepFunction_dress (pc me se ue : Word) (cur : Plevel) (m : Machine) :
    excepFunction pc me se ue cur (m.dress r x b) =
      (excepFunction pc me se ue cur m).dress r x b := by
  unfold excepFunction
  rw [dress_csr]
  dsimp only
  split <;> rfl

theorem interruptFunction_dress (pc ecode : Word) (cur : Plevel) (m : Machine) :
    interruptFunction pc ecode cur (m.dress r x b) =
      (interruptFunction pc ecode cur m).dress r x b := by
  unfold interruptFunction
  rw [dress_csr]
  dsimp only
  split
  · rfl
  · split_ifs <;> rfl

theorem raiseExcep_dress (pc ecode : Word) (m : Machine) :
    raiseExcep pc ecode (m.dress r x b) = (raiseExcep pc ecode m).dress r x b := by
  unfold raiseExcep
  rw [excepFunction_dress, dress_cp]
  cases excepFunction pc ecode ecode ecode m.cp m <;> rfl

theorem raiseInterrupt_dress (ecode : Word) (m : Machine) :
    raiseInterrupt ecode (m.dress r x b) = (raiseInterrupt ecode m).dress r x b := by
  unfold raiseInterrupt
  rw [interruptFunction_dress, dress_cp, dress_pc]
  cases interruptFunction m.pc ecode m.cp m <;> rfl

theorem selectTrap_dress (m : Machine) :
    selectTrap (m.dress r x b) = (selectTrap m).dress r x b := by
  have hexcep (f : Flags) (ecode : Word) :
      raiseExcep (m.dress r x b).pc ecode { m.dress r x b with flags := f } =
        (raiseExcep m.pc ecode { m with flags := f }).dress r x b :=
    raiseExcep_dress r x b m.pc ecode { m with flags := f }
  unfold selectTrap
  rw [dress_flags, dress_csr]
  split
  · exact hexcep _ _
  · split
    · exact raiseInterrupt_dress r x b _ m
    · rw [selectException_eq, selectException_eq, dress_flags]
      split
      · rfl
      · exact hexcep _ _

end

def Call.machine {α : Type} : Call α → Machine
  | .ret _ m => m
  | .stop _ m => m

theorem selectTrap_regFile (m : Machine) : (selectTrap m).machine.regFile = m.regFile := by
  have h := congrArg (fun c => (Call.machine c).regFile)
    (selectTrap_dress m.regFile m.mem m.bus m)
  refine Eq.trans h ?_
  cases selectTrap m <;> rfl

theorem selectTrap_mem (m : Machine) : (selectTrap m).machine.mem = m.mem := by
  have h := congrArg (fun c => (Call.machine c).mem) (selectTrap_dress m.regFile m.mem m.bus m)
  refine Eq.trans h ?_
  cases selectTrap m <;> rfl

theorem arch_dress {m t : Machine} (hr : t.regFile = m.regFile) (hm : t.mem = m.mem) :
    (t.dress (Function.update m.regFile 0 0) m.mem []).arch = t.arch := by
  unfold Machine.arch Machine.dress
  rw [← hr, ← hm, Function.update_idem]

theorem loopEnd_bare (lpc : Word) (s : State) :
    (loopEnd lpc s).bare = (loopEnd lpc s.bare).bare := by
  have hbare : selectTrap (refresh s.bare.toMachine) = (selectTrap (refresh s.toMachine)).dress
      (Function.update s.regFile 0 0) s.mem [] :=
    selectTrap_dress (Function.update s.regFile 0 0) s.mem [] (refresh s.toMachine)
  have hreg := selectTrap_regFile (refresh s.toMachine)
  have hmem := selectTrap_mem (refresh s.toMachine)
  unfold loopEnd
  rw [hbare]
  cases hs : selectTrap (refresh s.toMachine) with
  | stop h m =>
    rw [hs] at hreg hmem
    have harch := arch_dress (m := s.toMachine) hreg hmem
    exact congrArg (fun m => Step.halt h ⟨m, .zero⟩) harch.symm
  | ret u m =>
    rw [hs] at hreg hmem
    have harch := arch_dress (m := s.toMachine) hreg hmem
    unfold Call.dress
    dsimp only
    rw [dress_pc]
    split
    · exact congrArg (fun m => Step.halt .leave ⟨m, .zero⟩) harch.symm
    · exact congrArg (fun m => Step.next ⟨m, .zero⟩) harch.symm

def conclude (lpc : Word) : Res → Step
  | .stop h s => .halt h s
  | .cont s => .next s
  | .fall s => loopEnd lpc s

theorem arch_arch (m : Machine) : m.arch.arch = m.arch := by
  unfold Machine.arch
  rw [Function.update_idem]

theorem conclude_bare (lpc : Word) (r : Res) :
    (conclude lpc r).bare = (conclude lpc r.bare).bare := by
  cases r with
  | stop h s => exact congrArg (fun m => Step.halt h ⟨m, .zero⟩) (arch_arch s.toMachine).symm
  | cont s => exact congrArg (fun m => Step.next ⟨m, .zero⟩) (arch_arch s.toMachine).symm
  | fall s => exact loopEnd_bare lpc s

/-! ### The arms -/

theorem iterate_word (hf : fetch (tick inp m) = .word ins) (l : Locals) :
    iterate inp ⟨m, l⟩ =
      conclude m.pc (execute inp ins ⟨advance (tick inp m), { l with wbData := 0 }⟩) := by
  rw [iterate_of_word (s := ⟨m, l⟩) hf]
  rfl

section

variable (h : l.wbData = k.wbData)
include h

theorem iopsValue_locals : (iopsValue ins ⟨m, l⟩).1 = (iopsValue ins ⟨m, k⟩).1 := by
  unfold iopsValue
  dsimp only
  rw [h]
  split <;> first | rfl | split_ifs <;> rfl

theorem iops64Value_locals : (iops64Value ins ⟨m, l⟩).1 = (iops64Value ins ⟨m, k⟩).1 := by
  unfold iops64Value
  dsimp only
  rw [h]
  split <;> first | rfl | split_ifs <;> rfl

theorem ropsValue_locals : ropsValue ins ⟨m, l⟩ = ropsValue ins ⟨m, k⟩ := by
  unfold ropsValue
  dsimp only
  rw [h]

theorem ropsValue2_locals : (ropsValue2 ins ⟨m, l⟩).1 = (ropsValue2 ins ⟨m, k⟩).1 := by
  unfold ropsValue2
  dsimp only
  rw [h]
  split <;> rfl

theorem rops64Value_locals : rops64Value ins ⟨m, l⟩ = rops64Value ins ⟨m, k⟩ := by
  unfold rops64Value
  dsimp only
  rw [h]

theorem rops64Value2_locals : (rops64Value2 ins ⟨m, l⟩).1 = (rops64Value2 ins ⟨m, k⟩).1 := by
  unfold rops64Value2
  dsimp only
  rw [h]
  split <;> rfl

theorem armRops_locals : (armRops ins ⟨m, l⟩).bare = (armRops ins ⟨m, k⟩).bare := by
  unfold armRops
  split
  · unfold ropsMul
    split
    · rfl
    · rfl
    · rfl
    · rfl
    · rw [show divValue ins ⟨m, l⟩ = divValue ins ⟨m, k⟩ from rfl]
      cases divValue ins ⟨m, k⟩ <;> rfl
  · split
    · rw [ropsValue_locals h]
      rfl
    · split
      · exact congrArg (fun v => Res.fall (State.bare (State.writeBack ⟨m, .zero⟩ ins v)))
          (ropsValue2_locals h)
      · rfl

theorem armRops64_locals : (armRops64 ins ⟨m, l⟩).bare = (armRops64 ins ⟨m, k⟩).bare := by
  unfold armRops64
  split
  · unfold rops64Mul
    split
    case h_6 => exact congrArg (fun v => Res.fall (State.bare (State.writeBack ⟨m, .zero⟩ ins v))) h
    case h_1 => rfl
    all_goals
      rw [show div32Value ins ⟨m, l⟩ = div32Value ins ⟨m, k⟩ from rfl]
      cases div32Value ins ⟨m, k⟩ <;> rfl
  · split
    · rw [rops64Value_locals h]
      rfl
    · split
      · exact congrArg (fun v => Res.fall (State.bare (State.writeBack ⟨m, .zero⟩ ins v)))
          (rops64Value2_locals h)
      · rfl

end

/-! ### Loads -/

theorem loadNarrow_locals (access : Word → Word → Bool × Word) (extend : Word → Word)
    (ha : l.loadAddr = k.loadAddr) (hp : l.loadAddrPhy = k.loadAddrPhy)
    (hd : l.loadData = k.loadData) :
    (loadNarrow access extend ins ⟨m, l⟩).toMachine =
      (loadNarrow access extend ins ⟨m, k⟩).toMachine := by
  unfold loadNarrow loadMissalig
  dsimp only
  rw [ha, hp, hd]
  split <;> rfl

theorem loadSwitch_locals (ha : l.loadAddr = k.loadAddr) (hp : l.loadAddrPhy = k.loadAddrPhy)
    (hd : l.loadData = k.loadData) :
    (loadSwitch ins ⟨m, l⟩).toMachine = (loadSwitch ins ⟨m, k⟩).toMachine := by
  unfold loadSwitch
  split
  case h_7 =>
    unfold loadLd loadMissalig
    dsimp only
    rw [ha, hp, hd]
    split <;> rfl
  case h_8 => rfl
  all_goals exact loadNarrow_locals _ _ ha hp hd

theorem loadFifo_locals (h : l.loadAddr = k.loadAddr) :
    (loadFifo inp ins ⟨m, l⟩).toMachine = (loadFifo inp ins ⟨m, k⟩).toMachine := by
  unfold loadFifo
  dsimp only
  rw [h]
  split
  · split <;> rfl
  · split <;> rfl

theorem loadPageFault_locals (va : Word) :
    (loadPageFault va ⟨m, l⟩).bare = (loadPageFault va ⟨m, k⟩).bare := by
  unfold loadPageFault
  dsimp only
  cases raiseExcep m.pc causeLoadPageFault (setMtval m va) <;> rfl

theorem storePageFault_locals (va : Word) :
    (storePageFault va ⟨m, l⟩).bare = (storePageFault va ⟨m, k⟩).bare := by
  unfold storePageFault
  dsimp only
  cases raiseExcep m.pc causeStorePageFault m <;> rfl

theorem bare_fall {s t : State} (h : s.toMachine = t.toMachine) :
    (Res.fall s).bare = (Res.fall t).bare :=
  congrArg (fun m : Machine => Res.fall ⟨m.arch, .zero⟩) h

theorem armLoad_locals : (armLoad inp ins ⟨m, l⟩).bare = (armLoad inp ins ⟨m, k⟩).bare := by
  unfold armLoad
  dsimp only
  generalize m.reg (rs1 ins) + signExtend (imm11_0 ins) 12 = va
  split
  · split
    · rfl
    · rename_i pa _
      split
      · exact loadPageFault_locals va
      · cases loadMapped inp pa m with
        | stop h m => rfl
        | ret d m => exact bare_fall (loadSwitch_locals rfl rfl rfl)
  · exact bare_fall (loadFifo_locals rfl)

/-! ### The system arm -/

theorem csrCommit_locals (data : Word) {commit : State → State}
    (hcommit : ∀ (m : Machine) (l k : Locals), l.csrData = k.csrData →
      (commit ⟨m, l⟩).toMachine = (commit ⟨m, k⟩).toMachine) (h : l.csrData = k.csrData) :
    (csrCommit ins data commit ⟨m, l⟩).toMachine = (csrCommit ins data commit ⟨m, k⟩).toMachine := by
  unfold csrCommit
  dsimp only
  split
  · rfl
  · exact hcommit _ _ _ h

theorem csrArm_locals {body : State → State}
    (hbody : ∀ (m : Machine) (l k : Locals), l.csrData = k.csrData →
      (body ⟨m, l⟩).toMachine = (body ⟨m, k⟩).toMachine) :
    (csrArm inp ins body ⟨m, l⟩).toMachine = (csrArm inp ins body ⟨m, k⟩).toMachine := by
  unfold csrArm
  dsimp only
  split
  · exact hbody _ _ _ rfl
  · rfl

theorem commitNonzero_locals (m : Machine) (l k : Locals) (h : l.csrData = k.csrData) :
    (commitNonzero ins ⟨m, l⟩).toMachine = (commitNonzero ins ⟨m, k⟩).toMachine := by
  unfold commitNonzero
  dsimp only
  rw [h]
  split <;> rfl

theorem commitAlways_locals (m : Machine) (l k : Locals) (h : l.csrData = k.csrData) :
    (commitAlways ins ⟨m, l⟩).toMachine = (commitAlways ins ⟨m, k⟩).toMachine := by
  unfold commitAlways
  dsimp only
  rw [h]
  rfl

theorem privileged_locals : (privileged ins ⟨m, l⟩).bare = (privileged ins ⟨m, k⟩).bare := by
  unfold privileged
  split
  · unfold ecall
    dsimp only
    cases excepFunction m.pc causeMachineEcall causeSupervisorEcall causeUserEcall m.cp m <;> rfl
  all_goals rfl

theorem armSystm_locals : (armSystm inp ins ⟨m, l⟩).bare = (armSystm inp ins ⟨m, k⟩).bare := by
  unfold armSystm
  split
  · refine bare_fall (csrArm_locals fun m l k h => ?_)
    exact csrCommit_locals _ commitNonzero_locals h
  · refine bare_fall (csrArm_locals fun m l k h => ?_)
    dsimp only
    split
    · exact commitAlways_locals m l k h
    · rw [h]
      exact csrCommit_locals _ commitAlways_locals rfl
  · refine bare_fall (csrArm_locals fun m l k h => ?_)
    dsimp only
    rw [h]
    exact csrCommit_locals _ commitAlways_locals rfl
  · refine bare_fall (csrArm_locals fun m l k h => ?_)
    exact csrCommit_locals _ commitNonzero_locals h
  · refine bare_fall (csrArm_locals fun m l k h => ?_)
    dsimp only
    rw [h]
    exact csrCommit_locals _ commitAlways_locals rfl
  · refine bare_fall (csrArm_locals fun m l k h => ?_)
    dsimp only
    rw [h]
    exact csrCommit_locals _ commitAlways_locals rfl
  · exact privileged_locals
  · rfl

/-! ### Branches -/

/-- A branch with one of the two `func3` values without a test, which is taken or not as the last
branch was. It makes no difference where it leads to the next instruction. -/
def StaleBranch (ins : Word) : Prop :=
  opcode ins = .cjump ∧ ((func3 ins).toNat = 2 ∨ (func3 ins).toNat = 3) ∧
    signExtend (immB ins) 13 ≠ 4

theorem branchTest_stale (h : (func3 ins).toNat = 2 ∨ (func3 ins).toNat = 3) (s : State) :
    branchTest ins s = s.branch := by
  unfold branchTest
  obtain h | h := h <;> rw [h] <;> rfl

theorem branchTest_locals (h : ¬ ((func3 ins).toNat = 2 ∨ (func3 ins).toNat = 3)) :
    branchTest ins ⟨m, l⟩ = branchTest ins ⟨m, k⟩ := by
  have hlt : (func3 ins).toNat < 8 := by
    have := toNat_field ins 12 3 (by decide)
    exact this ▸ Nat.mod_lt _ (by decide)
  unfold branchTest
  generalize (func3 ins).toNat = f at h hlt
  interval_cases f
  case «2» => exact absurd (.inl rfl) h
  case «3» => exact absurd (.inr rfl) h
  all_goals rfl

theorem armCjump_toMachine (s : State) : (armCjump ins s).toMachine =
    if branchTest ins s then { s.toMachine with pc := s.pc - 4 + signExtend (immB ins) 13 }
    else s.toMachine := by
  unfold armCjump
  dsimp only
  split <;> rfl

theorem armCjump_locals (ho : opcode ins = .cjump) (h : ¬ StaleBranch ins) :
    (armCjump ins ⟨m, l⟩).toMachine = (armCjump ins ⟨m, k⟩).toMachine := by
  rw [armCjump_toMachine, armCjump_toMachine]
  by_cases hf : (func3 ins).toNat = 2 ∨ (func3 ins).toNat = 3
  · have himm : signExtend (immB ins) 13 = 4 := by
      by_contra hne
      exact h ⟨ho, hf, hne⟩
    have hpc : { m with pc := m.pc - 4 + signExtend (immB ins) 13 } = m := by
      rw [himm, BitVec.sub_add_cancel]
    simp only [hpc, ite_self]
  · rw [branchTest_locals hf]

/-! ### Stores -/

def storeTarget (ins : Word) (m : Machine) : Option Cell :=
  let va := m.reg (rs1 ins) + signExtend (immS ins) 12
  if va ≠ fifoAddrTx then
    match translate m.csr m.mem va .stor m.cp with
    | .error _ => none
    | .ok pa =>
      if pa = -1 then none
      else if pa ≥ dramBase then
        if pa - dramBase ≥ (1 : Word) <<< 28 then none else cell? ((pa - dramBase) / 8)
      else none
  else none

/-- A store with a `func3` that names no width: `wb_data` is still zero, and it is written if the
last store or AMO succeeded. -/
def StaleStore (ins : Word) (m : Machine) : Prop :=
  opcode ins = .store ∧ 4 ≤ (func3 ins).toNat ∧ ∃ c, storeTarget ins m = some c ∧ m.mem c ≠ 0

theorem armStore_of_target {c : Cell} (h : storeTarget ins m = some c) :
    ∃ a p, ∀ l : Locals, armStore inp ins ⟨m, l⟩ = .fall (storeCommit c (storeSwitch ins
      ⟨m, { l with storeAddr := a, storeAddrPhy := p, storeData := m.mem c }⟩)) := by
  unfold storeTarget at h
  dsimp only at h
  split at h
  · rename_i hva
    split at h
    · cases h
    · rename_i pa hpa
      split_ifs at h with h1 hge hlt
      refine ⟨m.reg (rs1 ins) + signExtend (immS ins) 12, pa - dramBase, fun l => ?_⟩
      unfold armStore storeRam
      dsimp only
      rw [if_pos hva]
      simp only [hpa, if_neg h1, if_pos hge, if_neg hlt, h]
  · cases h

theorem armStore_of_no_target (h : storeTarget ins m = none) :
    (armStore inp ins ⟨m, l⟩).bare = (armStore inp ins ⟨m, k⟩).bare := by
  unfold storeTarget at h
  unfold armStore
  dsimp only at h ⊢
  split
  · rename_i hva
    rw [if_pos hva] at h
    split
    · rfl
    · rename_i pa hpa
      simp only [hpa] at h
      split
      · exact storePageFault_locals _
      · rename_i h1
        rw [if_neg h1] at h
        split
        · rename_i hge
          rw [if_pos hge] at h
          unfold storeRam
          dsimp only
          split
          · rfl
          · rename_i hlt
            rw [if_neg hlt] at h
            rw [h]
            rfl
        · cases storePeripheral inp pa (m.reg (rs2 ins)) m <;> rfl
  · rfl

theorem storeSwitch_other (h : 4 ≤ (func3 ins).toNat) (s : State) : storeSwitch ins s = s := by
  unfold storeSwitch
  dsimp only
  split <;> first | omega | rfl

theorem set_zero_of_eq {mem : Memory} {c : Cell} (h : mem c = 0) : mem.set c 0 = mem := by
  unfold Memory.set
  rw [← h, Function.update_eq_self]

theorem storeCommit_locals {c : Cell} (hp : l.storeAddrPhy = k.storeAddrPhy)
    (hd : l.storeData = k.storeData) (hl : l.wbData = 0) (hk : k.wbData = 0)
    (h : 4 ≤ (func3 ins).toNat → m.mem c = 0) :
    (storeCommit c (storeSwitch ins ⟨m, l⟩)).arch = (storeCommit c (storeSwitch ins ⟨m, k⟩)).arch := by
  by_cases hf : (func3 ins).toNat < 3
  · rw [storeSwitch_narrow _ rfl hf rfl, storeSwitch_narrow _ rfl hf rfl]
    cases hok : (storeFit (2 ^ (func3 ins).toNat) k.storeAddrPhy k.storeData
        (m.reg (rs2 ins) &&& Bytes.low 64 (8 * 2 ^ (func3 ins).toNat))).1 with
    | false =>
      rw [storeCommit_of_failure c (by rw [← hok, ← hp, ← hd]),
        storeCommit_of_failure c (by rw [← hok])]
    | true =>
      rw [storeCommit_of_success c (by rw [← hok, ← hp, ← hd]),
        storeCommit_of_success c (by rw [← hok])]
      unfold Machine.arch Machine.write
      dsimp only
      rw [hp, hd]
  · by_cases hf3 : (func3 ins).toNat = 3
    · rw [storeSwitch_double _ hf3, storeSwitch_double _ hf3]
      dsimp only
      rw [hp]
      split
      · rw [storeCommit_of_success c rfl, storeCommit_of_success c rfl]
      · rw [storeCommit_of_failure c rfl, storeCommit_of_failure c rfl]
    · -- no width is named: `wb_data` is still zero, and the cell is zero where it is written
      have hf4 : 4 ≤ (func3 ins).toNat := by omega
      have hset := set_zero_of_eq (h hf4)
      rw [storeSwitch_other hf4, storeSwitch_other hf4]
      have hcommit (j : Locals) (hj : j.wbData = 0) : (storeCommit c ⟨m, j⟩).arch = m.arch := by
        cases hok : j.lsSuccess with
        | false => rw [storeCommit_of_failure c hok]
        | true =>
          rw [storeCommit_of_success c hok]
          unfold Machine.arch Machine.write
          dsimp only
          rw [hj, hset]
      rw [hcommit l hl, hcommit k hk]

theorem armStore_locals (ho : opcode ins = .store) (h : ¬ StaleStore ins m) (hl : l.wbData = 0)
    (hk : k.wbData = 0) : (armStore inp ins ⟨m, l⟩).bare = (armStore inp ins ⟨m, k⟩).bare := by
  cases ht : storeTarget ins m with
  | none => exact armStore_of_no_target ht
  | some c =>
    obtain ⟨a, p, harm⟩ := @armStore_of_target inp ins m c ht
    rw [harm, harm]
    refine congrArg (fun m : Machine => Res.fall ⟨m, .zero⟩) (storeCommit_locals rfl rfl hl hk ?_)
    intro hf
    by_contra hne
    exact h ⟨ho, hf, c, ht, hne⟩

/-! ### Atomics -/

def amoTarget (ins : Word) (m : Machine) : Option (Word × Cell) :=
  match translate m.csr m.mem (m.reg (rs1 ins)) .stor m.cp with
  | .error _ => none
  | .ok pa =>
    if pa = -1 then none
    else if pa > 0x80000000 then
      (cell? ((pa - 0x80000000) / 8)).map fun c => (pa - 0x80000000, c)
    else none

def amoOps : List ℕ := [2, 3, 1, 0, 4, 12, 8, 16, 20, 24, 28]

/-- The 32-bit arms that end without an assignment to `ret_data`. -/
def KeepsRetW (ins off : Word) : Prop :=
  (amoOp ins).toNat ∉ amoOps ∨ ((amoOp ins).toNat ≠ 3 ∧ 4 < off.toNat % 8)

def KeepsRetD (ins off : Word) (m : Machine) : Prop :=
  (amoOp ins).toNat ∉ amoOps ∨
    (off.toNat % 8 ≠ 0 ∧ ((amoOp ins).toNat = 3 → m.resv.Holds (m.reg (rs1 ins)) .w64))

def StaleRet (ins : Word) (m : Machine) : Prop :=
  opcode ins = .amo ∧ rd ins ≠ 0 ∧ ∃ off c, amoTarget ins m = some (off, c) ∧
    ((func3 ins).toNat = 2 ∧ KeepsRetW ins off ∨ (func3 ins).toNat = 3 ∧ KeepsRetD ins off m)

theorem amoMapped_of_target {f : Cell → State → State} {off : Word} {c : Cell}
    (h : amoTarget ins m = some (off, c)) : amoMapped ins ⟨m, l⟩ f =
      .fall (retToRd ins (f c ⟨m, { l with loadAddr := m.reg (rs1 ins), loadAddrPhy := off }⟩)) := by
  unfold amoTarget at h
  split at h
  · cases h
  · rename_i pa hpa
    split_ifs at h with h1 hgt
    obtain ⟨c', hc, he⟩ := Option.map_eq_some_iff.mp h
    cases he
    unfold amoMapped
    dsimp only
    simp only [hpa, if_neg h1, if_pos hgt, hc]

theorem amoMapped_of_no_target {f : Cell → State → State} (h : amoTarget ins m = none) :
    (amoMapped ins ⟨m, l⟩ f).bare = (amoMapped ins ⟨m, k⟩ f).bare := by
  unfold amoTarget at h
  unfold amoMapped
  dsimp only
  split
  · rfl
  · rename_i pa hpa
    simp only [hpa] at h
    split
    · exact storePageFault_locals _
    · rename_i h1
      rw [if_neg h1] at h
      split
      · rename_i hgt
        rw [if_pos hgt, Option.map_eq_none_iff] at h
        rw [h]
        rfl
      · rfl

/-- What an AMO arm leaves behind does not depend on the locals, except for `ret_data` where the
arm keeps it. -/
structure Leaves (keeps : Prop) (f : State → State) (m : Machine) (l k : Locals) : Prop where
  machine : (f ⟨m, l⟩).toMachine = (f ⟨m, k⟩).toMachine
  assigned : ¬ keeps → (f ⟨m, l⟩).retData = (f ⟨m, k⟩).retData
  kept : keeps → (f ⟨m, l⟩).retData = l.retData

theorem loadWord_false {a d wb : Word} (h : loadWord a d = (false, wb)) : 4 < a.toNat % 8 := by
  have hf := loadFit_fails 4 a d
  rw [← loadWord_eq, h] at hf
  have := hf.mp rfl
  omega

theorem loadWord_true {a d wb : Word} (h : loadWord a d = (true, wb)) : ¬ 4 < a.toNat % 8 := by
  have hf := loadFit_fails 4 a d
  rw [← loadWord_eq, h] at hf
  intro hlt
  exact Bool.noConfusion (hf.mpr (by omega))

theorem misaligned_iff (a : Word) : a % 8 ≠ 0 ↔ a.toNat % 8 ≠ 0 := by
  rw [← toNat_mod_eight, ne_eq, ne_eq, ← BitVec.toNat_inj]
  rfl

section

variable {c : Cell} (ha : l.loadAddr = k.loadAddr) (hp : l.loadAddrPhy = k.loadAddrPhy)

include ha hp

theorem amoRmwW_leaves (op : Word → Word → Word) {mis : State → Word}
    (hmis : mis ⟨m, l⟩ = mis ⟨m, k⟩) (hd : l.loadData = k.loadData) :
    Leaves (4 < l.loadAddrPhy.toNat % 8) (amoRmwW op mis ins c) m l k := by
  unfold amoRmwW
  cases hload : loadWord l.loadAddrPhy l.loadData with
  | mk ok wb =>
    have hload' := hload
    rw [hp, hd] at hload'
    cases ok with
    | false =>
      refine ⟨?_, fun h => absurd (loadWord_false hload) h, fun _ => ?_⟩
      · simp only [hload, hload', storeMissalig, hmis]
      · simp only [hload, storeMissalig]
    | true =>
      refine ⟨?_, fun _ => ?_, fun h => absurd h (loadWord_true hload)⟩
      · simp only [hload, hload']
        rw [ha, hd]
      · simp only [hload, hload']

theorem lrW_leaves (hd : l.loadData = k.loadData) :
    Leaves (4 < l.loadAddrPhy.toNat % 8) lrW m l k := by
  unfold lrW
  cases hload : loadWord l.loadAddrPhy l.loadData with
  | mk ok wb =>
    have hload' := hload
    rw [hp, hd] at hload'
    cases ok with
    | false =>
      refine ⟨?_, fun h => absurd (loadWord_false hload) h, fun _ => ?_⟩
      · simp only [hload, hload', storeMissalig, ha]
      · simp only [hload, storeMissalig]
    | true =>
      refine ⟨?_, fun _ => ?_, fun h => absurd h (loadWord_true hload)⟩
      · simp only [hload, hload']
        rw [ha, hp]
      · simp only [hload, hload']

theorem scWStore_leaves (hd : l.loadData = k.loadData) : Leaves False (scWStore ins c) m l k := by
  unfold scWStore
  cases hstore : storeWord l.loadAddrPhy l.loadData (m.reg (rs2 ins) &&& mask32) with
  | mk ok wb =>
    have hstore' := hstore
    rw [hp, hd] at hstore'
    refine ⟨?_, fun _ => ?_, False.elim⟩
    · cases ok
      · simp only [hstore, hstore', storeMissalig]
        rw [ha, hp]
      · simp only [hstore, hstore']
        rw [ha, hp]
    · cases ok <;> simp only [hstore, hstore', storeMissalig]

theorem scW_leaves (hd : l.loadData = k.loadData) : Leaves False (scW ins c) m l k := by
  have hstore : Leaves False (scWStore ins c) m l k := scWStore_leaves ha hp hd
  unfold scW
  refine ⟨?_, fun _ => ?_, False.elim⟩
  · dsimp only
    split
    · rw [hstore.machine]
    · simp only [ha, hp]
  · dsimp only
    split
    · exact hstore.assigned not_false
    · rfl

theorem lrD_leaves (hw : l.wbData = k.wbData) :
    Leaves (l.loadAddrPhy.toNat % 8 ≠ 0) (lrD ins) m l k := by
  have halign := misaligned_iff l.loadAddrPhy
  unfold lrD
  refine ⟨?_, fun h => ?_, fun h => ?_⟩
  · simp only [← hp]
    split
    · simp only [storeMissalig, ha]
    · simp only [ha, hp]
  · simp only [← hp, if_neg (mt halign.mp h), hw]
  · simp only [if_pos (halign.mpr h), storeMissalig]

theorem amoRmwD_leaves (op : Word → Word → Word) (hw : l.wbData = k.wbData) :
    Leaves (l.loadAddrPhy.toNat % 8 ≠ 0) (amoRmwD op ins c) m l k := by
  have halign := misaligned_iff l.loadAddrPhy
  unfold amoRmwD
  refine ⟨?_, fun h => ?_, fun h => ?_⟩
  · simp only [← hp]
    split
    · simp only [storeMissalig, ha]
    · simp only [hw]
  · simp only [← hp, if_neg (mt halign.mp h), hw]
  · simp only [if_pos (halign.mpr h), storeMissalig]

theorem scD_leaves : Leaves (l.loadAddrPhy.toNat % 8 ≠ 0 ∧ m.resv.Holds (m.reg (rs1 ins)) .w64)
    (scD ins c) m l k := by
  have halign := misaligned_iff l.loadAddrPhy
  unfold scD scDStore
  refine ⟨?_, fun h => ?_, fun h => ?_⟩
  · dsimp only
    rw [← hp, ha]
    split
    · split <;> rfl
    · rfl
  · dsimp only
    rw [← hp]
    split
    · rename_i hr
      have h0 : ¬ l.loadAddrPhy % 8 ≠ 0 := fun h0 => h ⟨halign.mp h0, hr⟩
      simp only [if_neg h0]
    · rfl
  · dsimp only
    have hr : m.resv.valid64 = true ∧ m.reg (rs1 ins) = m.resv.addr64 := h.2
    simp only [if_pos hr, if_pos (halign.mpr h.1), storeMissalig]

end

theorem Leaves.congr {p q : Prop} {f g : State → State} (h : Leaves p f m l k) (hpq : p ↔ q)
    (hfg : ∀ s, g s = f s) : Leaves q g m l k := by
  obtain rfl : g = f := funext hfg
  exact ⟨h.machine, fun hq => h.assigned (mt hpq.mp hq), fun hq => h.kept (hpq.mpr hq)⟩

theorem amoSwitchW_other {c : Cell} (h : (amoOp ins).toNat ∉ amoOps) (s : State) :
    amoSwitchW ins c s = illegal ins s := by
  unfold amoSwitchW
  split
  case h_12 => rfl
  all_goals
    rename_i hop
    exact absurd (hop ▸ (by decide)) h

theorem amoSwitchD_other {c : Cell} (h : (amoOp ins).toNat ∉ amoOps) (s : State) :
    amoSwitchD ins c s = s := by
  unfold amoSwitchD
  split
  case h_12 => rfl
  all_goals
    rename_i hop
    exact absurd (hop ▸ (by decide)) h

theorem amoSwitchW_leaves {c : Cell} (ha : l.loadAddr = k.loadAddr)
    (hp : l.loadAddrPhy = k.loadAddrPhy) (hd : l.loadData = k.loadData) :
    Leaves (KeepsRetW ins l.loadAddrPhy) (amoSwitchW ins c) m l k := by
  by_cases hop : (amoOp ins).toNat ∈ amoOps
  · have rmw (op : Word → Word → Word) {mis : State → Word} (hmis : mis ⟨m, l⟩ = mis ⟨m, k⟩) :
        Leaves _ (amoRmwW op mis ins c) m l k := amoRmwW_leaves ha hp op hmis hd
    unfold KeepsRetW amoSwitchW
    simp only [amoOps, List.mem_cons, List.not_mem_nil, or_false] at hop
    obtain h | h | h | h | h | h | h | h | h | h | h := hop
    · exact (lrW_leaves ha hp hd).congr (by simp [h, amoOps]) fun s => by rw [h]; rfl
    · exact (scW_leaves ha hp hd).congr (by simp [h, amoOps]) fun s => by rw [h]; rfl
    all_goals
      first
        | exact (rmw _ ha).congr (by simp [h, amoOps]) fun s => by rw [h]; rfl
        | exact (rmw _ hp).congr (by simp [h, amoOps]) fun s => by rw [h]; rfl
  · have hkeeps : KeepsRetW ins l.loadAddrPhy := .inl hop
    refine ⟨?_, fun h => absurd hkeeps h, fun _ => ?_⟩
    · rw [amoSwitchW_other hop, amoSwitchW_other hop]
      rfl
    · rw [amoSwitchW_other hop]
      rfl

theorem amoSwitchD_leaves {c : Cell} (ha : l.loadAddr = k.loadAddr)
    (hp : l.loadAddrPhy = k.loadAddrPhy) (hw : l.wbData = k.wbData) :
    Leaves (KeepsRetD ins l.loadAddrPhy m) (amoSwitchD ins c) m l k := by
  by_cases hop : (amoOp ins).toNat ∈ amoOps
  · have rmw (op : Word → Word → Word) : Leaves _ (amoRmwD op ins c) m l k :=
      amoRmwD_leaves ha hp op hw
    have sc : Leaves _ (scD ins c) m l k := scD_leaves ha hp
    unfold KeepsRetD amoSwitchD
    simp only [amoOps, List.mem_cons, List.not_mem_nil, or_false] at hop
    obtain h | h | h | h | h | h | h | h | h | h | h := hop
    · exact (lrD_leaves ha hp hw).congr (by simp [h, amoOps]) fun s => by rw [h]; rfl
    · exact sc.congr (by simp [h, amoOps]) fun s => by rw [h]; rfl
    all_goals exact (rmw _).congr (by simp [h, amoOps]) fun s => by rw [h]; rfl
  · have hkeeps : KeepsRetD ins l.loadAddrPhy m := .inl hop
    refine ⟨?_, fun h => absurd hkeeps h, fun _ => ?_⟩
    · rw [amoSwitchD_other hop, amoSwitchD_other hop]
    · rw [amoSwitchD_other hop]

/-- The tail of an AMO: what it writes to `rd` matters unless `rd` is `x0`. -/
theorem retToRd_arch {s t : State} (hm : s.toMachine = t.toMachine)
    (hr : rd ins ≠ 0 → s.retData = t.retData) : (retToRd ins s).arch = (retToRd ins t).arch := by
  have hreg : Function.update (s.regSet (rd ins) s.retData) 0 0 =
      Function.update (t.regSet (rd ins) t.retData) 0 0 := by
    unfold Machine.regSet
    rw [hm]
    by_cases h : rd ins = 0
    · rw [(rd_setWidth_eq_zero ins).mpr h, Function.update_idem, Function.update_idem]
    · rw [hr h]
  unfold retToRd State.setReg Machine.arch
  dsimp only
  rw [hreg, hm]

theorem armAmo_locals (ho : opcode ins = .amo) (h : ¬ StaleRet ins m) :
    (armAmo ins ⟨m, l⟩).bare = (armAmo ins ⟨m, k⟩).bare := by
  have tail {keeps : Prop} {f : State → State} {l' k' : Locals} (hf : Leaves keeps f m l' k')
      (hk : rd ins ≠ 0 → ¬ keeps) : (Res.fall (retToRd ins (f ⟨m, l'⟩))).bare =
        (Res.fall (retToRd ins (f ⟨m, k'⟩))).bare :=
    congrArg (fun m : Machine => Res.fall ⟨m, .zero⟩)
      (retToRd_arch hf.machine fun hrd => hf.assigned (hk hrd))
  unfold armAmo
  cases ht : amoTarget ins m with
  | none =>
    split
    · exact amoMapped_of_no_target ht
    · exact amoMapped_of_no_target ht
    · rfl
  | some p =>
    obtain ⟨off, c⟩ := p
    split
    · rename_i hf
      rw [amoMapped_of_target ht, amoMapped_of_target ht]
      exact tail (amoSwitchW_leaves rfl rfl rfl) fun hrd hk =>
        h ⟨ho, hrd, off, c, ht, .inl ⟨hf, hk⟩⟩
    · rename_i hf
      rw [amoMapped_of_target ht, amoMapped_of_target ht]
      exact tail (amoSwitchD_leaves rfl rfl rfl) fun hrd hk =>
        h ⟨ho, hrd, off, c, ht, .inr ⟨hf, hk⟩⟩
    · rfl

/-! ### One iteration -/

/-- The iterations whose result depends on what earlier ones have left in the scratch locals. -/
def Stale (inp : Input) (m : Machine) : Prop :=
  ∃ ins, fetch (tick inp m) = .word ins ∧
    (StaleBranch ins ∨ StaleStore ins (advance (tick inp m)) ∨ StaleRet ins (advance (tick inp m)))

theorem execute_locals (hl : l.wbData = 0) (hk : k.wbData = 0)
    (h : ¬ (StaleBranch ins ∨ StaleStore ins m ∨ StaleRet ins m)) :
    (execute inp ins ⟨m, l⟩).bare = (execute inp ins ⟨m, k⟩).bare := by
  obtain ⟨hbranch, hrest⟩ := not_or.mp h
  obtain ⟨hstore, hret⟩ := not_or.mp hrest
  have hwb : l.wbData = k.wbData := hl.trans hk.symm
  unfold execute
  split
  case h_5 ho => exact bare_fall (armCjump_locals ho hbranch)
  case h_6 => exact armLoad_locals
  case h_7 ho => exact armStore_locals ho hstore hl hk
  case h_8 =>
    exact congrArg (fun v => Res.fall (State.bare (State.writeBack ⟨m, .zero⟩ ins v)))
      (iopsValue_locals hwb)
  case h_9 =>
    exact congrArg (fun v => Res.fall (State.bare (State.writeBack ⟨m, .zero⟩ ins v)))
      (iops64Value_locals hwb)
  case h_10 => exact armRops_locals hwb
  case h_11 => exact armRops64_locals hwb
  case h_12 ho => exact armAmo_locals ho hret
  case h_14 => exact armSystm_locals
  all_goals rfl

theorem iterate_locals (h : ¬ Stale inp m) (l k : Locals) :
    (iterate inp ⟨m, l⟩).bare = (iterate inp ⟨m, k⟩).bare := by
  cases hf : fetch (tick inp m) with
  | stop hlt =>
    unfold iterate
    simp only [hf]
    rfl
  | fault =>
    unfold iterate
    simp only [hf]
    cases fetchFault (tick inp m) <;> rfl
  | word ins =>
    have hx : (execute inp ins ⟨_, { l with wbData := 0 }⟩).bare =
        (execute inp ins ⟨_, { k with wbData := 0 }⟩).bare :=
      execute_locals rfl rfl fun hs => h ⟨ins, hf, hs⟩
    rw [iterate_word hf, iterate_word hf, conclude_bare, hx, ← conclude_bare]

/-! ### The stale iterations -/

structure SamePc (a b : Machine) : Prop where
  pc : a.pc = b.pc
  sepc : a.csr.sepc = b.csr.sepc
  mepc : a.csr.mepc = b.csr.mepc

section

variable {p q ecode : Word}

theorem pc_of_raiseExcep (f : Flags)
    (h : SamePc (raiseExcep p ecode { m with pc := p, flags := f }).machine
      (raiseExcep q ecode { m with pc := q, flags := f }).machine) : p = q := by
  unfold raiseExcep excepFunction at h
  dsimp only at h
  cases ht : trapModeSelect (modeCode ecode ecode ecode m.cp) false m.cp m.csr with
  | none =>
    rw [ht] at h
    exact h.pc
  | some hm =>
    rw [ht] at h
    cases hm with
    | umode => exact h.pc
    | smode => exact sub_left_inj.mp h.sepc
    | hmode => exact h.pc
    | mmode => exact sub_left_inj.mp h.mepc

theorem pc_of_raiseInterrupt (h : SamePc (raiseInterrupt ecode { m with pc := p }).machine
    (raiseInterrupt ecode { m with pc := q }).machine) : p = q := by
  unfold raiseInterrupt interruptFunction at h
  dsimp only at h
  cases ht : trapModeSelect ecode true m.cp m.csr with
  | none =>
    rw [ht] at h
    exact h.pc
  | some hm =>
    simp only [ht] at h
    split_ifs at h <;> first | exact h.pc | exact h.sepc | exact h.mepc

theorem pc_of_selectTrap (h : SamePc (selectTrap { m with pc := p }).machine
    (selectTrap { m with pc := q }).machine) : p = q := by
  unfold selectTrap at h
  dsimp only at h
  split at h
  · exact pc_of_raiseExcep _ h
  · split at h
    · exact pc_of_raiseInterrupt h
    · rw [selectException_eq, selectException_eq] at h
      dsimp only at h
      split at h
      · exact h.pc
      · exact pc_of_raiseExcep _ h

end

theorem loopEnd_machine (lpc : Word) (s : State) :
    (loopEnd lpc s).state.toMachine = (selectTrap (refresh s.toMachine)).machine := by
  unfold loopEnd
  cases selectTrap (refresh s.toMachine) with
  | stop h m => rfl
  | ret u m =>
    dsimp only
    split <;> rfl

theorem arch_of_bare {a b : Step} (h : a.bare = b.bare) : a.state.arch = b.state.arch := by
  have hs := congrArg (fun x => (Step.state x).toMachine) h
  cases a <;> cases b <;> exact hs

theorem iterate_fall {s : State} (hf : fetch (tick inp m) = .word ins) (l : Locals)
    (hx : execute inp ins ⟨advance (tick inp m), { l with wbData := 0 }⟩ = .fall s) :
    iterate inp ⟨m, l⟩ = loopEnd m.pc s := by
  rw [iterate_word hf, hx]
  rfl

theorem samePc_of_arch {a b : Machine} (h : a.arch = b.arch) : SamePc a b :=
  ⟨show a.arch.pc = b.arch.pc by rw [h], show a.arch.csr.sepc = b.arch.csr.sepc by rw [h],
    show a.arch.csr.mepc = b.arch.csr.mepc by rw [h]⟩

theorem mem_of_loopEnd {lpc : Word} {s t : State}
    (h : (loopEnd lpc s).bare = (loopEnd lpc t).bare) : s.mem = t.mem := by
  have hmem := congrArg Machine.mem (arch_of_bare h)
  change (loopEnd lpc s).state.toMachine.mem = (loopEnd lpc t).state.toMachine.mem at hmem
  rw [loopEnd_machine, loopEnd_machine, selectTrap_mem, selectTrap_mem] at hmem
  exact hmem

theorem regFile_of_loopEnd {lpc : Word} {s t : State} {r : BitVec 5} (hr : r ≠ 0)
    (h : (loopEnd lpc s).bare = (loopEnd lpc t).bare) : s.regFile r = t.regFile r := by
  have hreg := congrArg (fun m => Machine.regFile m r) (arch_of_bare h)
  change Function.update (loopEnd lpc s).state.toMachine.regFile 0 0 r =
    Function.update (loopEnd lpc t).state.toMachine.regFile 0 0 r at hreg
  rw [Function.update_of_ne hr, Function.update_of_ne hr, loopEnd_machine, loopEnd_machine,
    selectTrap_regFile, selectTrap_regFile] at hreg
  exact hreg

theorem pc_of_loopEnd {lpc p q : Word} {s t : State} (hs : s.toMachine = { m with pc := p })
    (ht : t.toMachine = { m with pc := q }) (h : (loopEnd lpc s).bare = (loopEnd lpc t).bare) :
    p = q := by
  have hpc := samePc_of_arch (arch_of_bare h)
  rw [loopEnd_machine, loopEnd_machine, hs, ht] at hpc
  exact pc_of_selectTrap (m := refresh m) hpc

def Locals.used : Locals := { Locals.zero with branch := true, lsSuccess := true, retData := 1 }

theorem staleBranch_differs (hf : fetch (tick inp m) = .word ins) (h : StaleBranch ins) :
    (iterate inp ⟨m, .used⟩).bare ≠ (iterate inp ⟨m, .zero⟩).bare := by
  obtain ⟨ho, hf3, himm⟩ := h
  have hrun (l : Locals) : iterate inp ⟨m, l⟩ =
      loopEnd m.pc (armCjump ins ⟨advance (tick inp m), { l with wbData := 0 }⟩) := by
    refine iterate_fall hf l ?_
    unfold execute
    rw [ho]
  have hused : (armCjump ins ⟨advance (tick inp m), { Locals.used with wbData := 0 }⟩).toMachine =
      { advance (tick inp m) with
        pc := (advance (tick inp m)).pc - 4 + signExtend (immB ins) 13 } := by
    rw [armCjump_toMachine, branchTest_stale hf3]
    rfl
  have hzero : (armCjump ins ⟨advance (tick inp m), { Locals.zero with wbData := 0 }⟩).toMachine =
      { advance (tick inp m) with pc := (advance (tick inp m)).pc } := by
    rw [armCjump_toMachine, branchTest_stale hf3]
    rfl
  intro heq
  rw [hrun, hrun] at heq
  have hpc := pc_of_loopEnd hused hzero heq
  exact himm ((eq_sub_of_add_eq' hpc).trans (sub_sub_cancel _ _))

theorem staleStore_differs (hf : fetch (tick inp m) = .word ins)
    (h : StaleStore ins (advance (tick inp m))) :
    (iterate inp ⟨m, .used⟩).bare ≠ (iterate inp ⟨m, .zero⟩).bare := by
  obtain ⟨ho, hf4, c, ht, hne⟩ := h
  obtain ⟨a, p, harm⟩ := @armStore_of_target inp ins (advance (tick inp m)) c ht
  have hrun (l : Locals) : iterate inp ⟨m, l⟩ = loopEnd m.pc (storeCommit c
      ⟨advance (tick inp m), { l with
        wbData := 0
        storeAddr := a
        storeAddrPhy := p
        storeData := (advance (tick inp m)).mem c }⟩) := by
    refine iterate_fall hf l ?_
    rw [execute_store ho, harm, storeSwitch_other hf4]
  intro heq
  rw [hrun, hrun] at heq
  have hmem := congrFun (mem_of_loopEnd heq) c
  rw [storeCommit_of_success c rfl, storeCommit_of_failure c rfl] at hmem
  exact hne (hmem.symm.trans (Memory.set_same ..))

/-- The arm of a stale AMO ends with the old `ret_data`, which goes to `rd`. -/
theorem armAmo_keeps (h : StaleRet ins m) (l : Locals) :
    ∃ s, armAmo ins ⟨m, l⟩ = .fall s ∧ s.regFile ((rd ins).setWidth 5) = l.retData := by
  obtain ⟨-, -, off, c, ht, hkeeps⟩ := h
  have hreg (s : State) : (retToRd ins s).regFile ((rd ins).setWidth 5) = s.retData :=
    Function.update_self ..
  obtain ⟨hf, hk⟩ | ⟨hf, hk⟩ := hkeeps
  · let t : Locals := { l with
      loadAddr := m.reg (rs1 ins), loadAddrPhy := off, loadData := m.mem c }
    have hleaves : Leaves _ (amoSwitchW ins c) m t t := amoSwitchW_leaves rfl rfl rfl
    refine ⟨_, ?_, (hreg _).trans (hleaves.kept hk)⟩
    unfold armAmo
    rw [hf]
    exact amoMapped_of_target ht
  · let t : Locals := { l with
      loadAddr := m.reg (rs1 ins), loadAddrPhy := off, wbData := m.mem c }
    have hleaves : Leaves _ (amoSwitchD ins c) m t t := amoSwitchD_leaves rfl rfl rfl
    refine ⟨_, ?_, (hreg _).trans (hleaves.kept hk)⟩
    unfold armAmo
    rw [hf]
    exact amoMapped_of_target ht

theorem staleRet_differs (hf : fetch (tick inp m) = .word ins)
    (h : StaleRet ins (advance (tick inp m))) :
    (iterate inp ⟨m, .used⟩).bare ≠ (iterate inp ⟨m, .zero⟩).bare := by
  have hrun (l : Locals) : ∃ s, iterate inp ⟨m, l⟩ = loopEnd m.pc s ∧
      s.regFile ((rd ins).setWidth 5) = l.retData := by
    obtain ⟨s, hs, hret⟩ := armAmo_keeps h { l with wbData := 0 }
    exact ⟨s, iterate_fall hf l ((execute_amo h.1).trans hs), hret⟩
  obtain ⟨s, hs, hused⟩ := hrun .used
  obtain ⟨t, ht, hzero⟩ := hrun .zero
  intro heq
  rw [hs, ht] at heq
  have hreg := regFile_of_loopEnd (mt (rd_setWidth_eq_zero ins).mp h.2.1) heq
  rw [hused, hzero] at hreg
  exact absurd hreg (by decide)

theorem stale_differs (h : Stale inp m) :
    (iterate inp ⟨m, .used⟩).bare ≠ (iterate inp ⟨m, .zero⟩).bare := by
  obtain ⟨ins, hf, h | h | h⟩ := h
  · exact staleBranch_differs hf h
  · exact staleStore_differs hf h
  · exact staleRet_differs hf h

/-- An iteration depends on nothing but the architectural state, unless it is one of the stale
ones. -/
theorem step_architectural_iff (inp : Input) (m : Machine) :
    (∀ l k : Locals, (iterate inp ⟨m, l⟩).bare = (iterate inp ⟨m, k⟩).bare) ↔ ¬ Stale inp m :=
  ⟨fun h hs => stale_differs hs (h .used .zero), fun h l k => iterate_locals h l k⟩

/-- `beq x0, x0, 8`, a `nop`, a branch by 8 whose `func3` is 2, and a `nop`. -/
def staleProgram : List Word := [0x00000463, 0x00000013, 0x00002463, 0x00000013]

open Runs in
/-- The second branch is taken because the first one was. -/
theorem step_not_architectural :
    ∃ s, Run Next (boot (imageOf staleProgram) 0) [quiet 0] s ∧
      (iterate (quiet 0) s).bare ≠ (iterate (quiet 0) ⟨s.toMachine, .zero⟩).bare := by
  obtain ⟨s, hs, hp⟩ := exists_run (boot (imageOf staleProgram) 0) [quiet 0]
    (fun s => (iterate (quiet 0) s).state.pc = 0x80000010 &&
      (iterate (quiet 0) ⟨s.toMachine, .zero⟩).state.pc = 0x8000000c) (by decide +kernel)
  refine ⟨s, hs, fun h => ?_⟩
  simp only [Bool.and_eq_true, decide_eq_true_eq] at hp
  have hpc := (samePc_of_arch (arch_of_bare h)).pc
  rw [hp.1, hp.2] at hpc
  exact absurd hpc (by decide)

end RiscvEmu
