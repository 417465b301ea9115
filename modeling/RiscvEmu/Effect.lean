import RiscvEmu.Loop

/-! What an arm of the opcode `switch` can do to the machine, said once: `Effect` lists the ways in
which an arm reaches the end of the loop body, `execute_effect` shows that there are no others, and
`execute_cont` does the same for the arms that `continue`. -/

namespace RiscvEmu

variable {inp : Input} {ins : Word}

/-- `plic_read` of the claim register while an interrupt is signalled. -/
def claimIrq (m : Machine) : Machine :=
  setSeip { m with plic := { m.plic with servedIrq := true } } 0

def LoadSide (m m' : Machine) : Prop := m' = m ∨ m.csr.mip.seip = 1 ∧ m' = claimIrq m

def completeIrq (m : Machine) : Machine :=
  setSeip { m with plic := { m.plic with servedIrq := false } } (if m.plic.pendingIrq then 1 else 0)

def setTimecmp (m : Machine) (v : Word) : Machine :=
  { m with
    mem := m.mem.set mtimecmpCell v
    csr := { m.csr with mip := { m.csr.mip with stip := 0 } }
    bus := .mtimecmp v :: m.bus }

def Reserve.set (r : Reserve) (va : Word) : Width → Reserve
  | .w32 => { r with valid := true, addr := va }
  | .w64 => { r with valid64 := true, addr64 := va }

def Reserve.drop (r : Reserve) : Width → Reserve
  | .w32 => { r with valid := false, addr := 0 }
  | .w64 => { r with valid64 := false, addr64 := 0 }

def Reserve.Holds (r : Reserve) (va : Word) : Width → Prop
  | .w32 => r.valid = true ∧ va = r.addr
  | .w64 => r.valid64 = true ∧ va = r.addr64

def IsCsr (ins : Word) : Prop := opcode ins = .systm ∧ func3 ins ≠ 0b000 ∧ func3 ins ≠ 0b100

/-- What the six CSR instructions write to a register that holds `old`, by `func3`. -/
def csrOperandOf (k : Nat) (ins : Word) (m : Machine) (old : Word) : Word :=
  match k with
  | 0b001 => m.reg (rs1 ins)
  | 0b010 => m.reg (rs1 ins) ||| old
  | 0b011 => old &&& (mask64 - m.reg (rs1 ins))
  | 0b101 => rs1 ins
  | 0b110 => rs1 ins ||| old
  | _ => old &&& (mask64 - rs1 ins)

def csrOperand (ins : Word) : Machine → Word → Word := csrOperandOf (func3 ins).toNat ins

def jumps (ins : Word) : Prop := opcode ins = .jump ∨ opcode ins = .jumpr ∨ opcode ins = .cjump

inductive Effect (inp : Input) (ins : Word) (m : Machine) : Machine → Prop
  | regs (r : BitVec 5 → Word) : Effect inp ins m { m with regFile := r }
  | jump (r : BitVec 5 → Word) (pc : Word) (h : jumps ins) :
      Effect inp ins m { m with regFile := r, pc := pc }
  | load (m' : Machine) (r : BitVec 5 → Word) (h : LoadSide m m') (ho : opcode ins = .load) :
      Effect inp ins m { m' with regFile := r }
  | loadMis (m' : Machine) (va : Word) (h : LoadSide m m') (ho : opcode ins = .load) :
      Effect inp ins m (setMtval { m' with flags := { m'.flags with ldAddrMissalig := true } } va)
  | fifo (r : BitVec 5 → Word) (q : List Byte) (ho : opcode ins = .load) :
      Effect inp ins m { m with regFile := r, fifoQueue := q }
  | emit (b : Byte) (ho : opcode ins = .store) : Effect inp ins m { m with out := m.out ++ [b] }
  | store (c : Cell) (v : Word) (ho : opcode ins = .store) :
      Effect inp ins m (m.write .store c v)
  | timecmp (v : Word) (ho : opcode ins = .store) : Effect inp ins m (setTimecmp m v)
  | complete (ho : opcode ins = .store) : Effect inp ins m (completeIrq m)
  | device (as : List DeviceAct) (m' : Machine) (h : deviceActs as m = .ret () m')
      (ho : opcode ins = .store) : Effect inp ins m m'
  | amo (c : Cell) (v : Word) (r : BitVec 5 → Word) (ho : opcode ins = .amo) :
      Effect inp ins m { m.write .amo c v with regFile := r }
  | amoMis (va : Word) (r : BitVec 5 → Word) (ho : opcode ins = .amo) :
      Effect inp ins m (setMtval
        { m with flags := { m.flags with storeAddrMissalig := true }, regFile := r } va)
  | lr (w : Width) (va pa : Word) (r : BitVec 5 → Word) (ho : opcode ins = .amo) :
      Effect inp ins m
        { m with resv := m.resv.set va w, regFile := r, bus := .lr w va pa :: m.bus }
  | scFail (w : Width) (va pa : Word) (r : BitVec 5 → Word) (ho : opcode ins = .amo) :
      Effect inp ins m
        { m with resv := m.resv.drop w, regFile := r, bus := .sc w va pa false :: m.bus }
  | scMis (w : Width) (va pa : Word) (r : BitVec 5 → Word) (ho : opcode ins = .amo) :
      Effect inp ins m (setMtval
        { m with
          flags := { m.flags with storeAddrMissalig := true }
          resv := m.resv.drop w
          regFile := r
          bus := .sc w va pa false :: m.bus } va)
  | scOk (w : Width) (va pa : Word) (c : Cell) (v : Word) (r : BitVec 5 → Word)
      (h : m.resv.Holds va w) (hc : cell? (pa / 8) = some c) (ho : opcode ins = .amo) :
      Effect inp ins m
        { m.write .sc c v with
          resv := m.resv.drop w
          regFile := r
          bus := .sc w va pa true :: .ram .sc c v :: m.bus }
  | illegal (r : BitVec 5 → Word) :
      Effect inp ins m (setMtval
        { m with flags := { m.flags with illIns := true }, regFile := r } ins)
  | csr (n : CsrName) (c : Csrs) (r : BitVec 5 → Word) (hn : readable m.cp n)
      (hc : m.csr.assign (csrOperand ins m (m.csr.value n)) n = some c)
      (ha : n.addr = imm11_0 ins) (ho : IsCsr ins) :
      Effect inp ins m { m with csr := c, regFile := r }
  | ecall (pc : Word) (m' : Machine)
      (h : excepFunction m.pc causeMachineEcall causeSupervisorEcall causeUserEcall m.cp m =
        .ret pc m') (ho : opcode ins = .systm) : Effect inp ins m { m' with pc := pc }
  | ebreak (ho : opcode ins = .systm) :
      Effect inp ins m { m with flags := { m.flags with ebreak := true } }
  | mret (ho : opcode ins = .systm) (hi : func3 ins = 0 ∧ imm11_0 ins = 770) :
      Effect inp ins m (mret m)
  | sret (ho : opcode ins = .systm) (hi : func3 ins = 0 ∧ imm11_0 ins = 258) :
      Effect inp ins m (sret m)

theorem toNat_eq_iff {x : Word} {n : Nat} (h : x.toNat = n) : x = BitVec.ofNat 64 n := by
  rw [← h, BitVec.ofNat_toNat, BitVec.setWidth_eq]

theorem deviceActs_invariant {P : Machine → Prop}
    (hwrite : ∀ m c v, P m → P (m.write .dma c v))
    (hirq : ∀ m p b, b ≤ 1 → P m → P (setSeip { m with plic := p } b)) {as : List DeviceAct}
    {m m' : Machine} (h : deviceActs as m = .ret () m') (h0 : P m) : P m' := by
  induction as generalizing m with
  | nil =>
    cases h
    exact h0
  | cons a as ih =>
    unfold deviceActs at h
    split at h
    · cases h
    · rename_i m1 ha
      refine ih h ?_
      have read {inRange : Bool} (hr : dmaRead inRange m = .ret () m1) : P m1 := by
        unfold dmaRead at hr
        split at hr
        · cases hr
          exact h0
        · cases hr
      have write {target : Option (Cell × Word)} (hw : dmaWrite target m = .ret () m1) : P m1 := by
        unfold dmaWrite at hw
        split at hw
        · cases hw
        · cases hw
          exact hwrite m _ _ h0
      cases a with
      | read8 addr => exact read ha
      | read16 addr => exact read ha
      | read32 addr => exact read ha
      | write8 addr data => exact write ha
      | write16 addr data => exact write ha
      | write32 addr data => exact write ha
      | setIrq state =>
        cases ha
        unfold plicSetIrqEmu
        dsimp only
        split_ifs <;> exact hirq m _ _ (by decide) h0

theorem armCjump_effect (s : State) (ho : opcode ins = .cjump) :
    Effect inp ins s.toMachine (armCjump ins s).toMachine := by
  unfold armCjump
  dsimp only
  split
  · exact .jump s.regFile _ (.inr (.inr ho))
  · exact .regs s.regFile

theorem armRops_effect {s s' : State} (h : armRops ins s = .fall s') :
    Effect inp ins s.toMachine s'.toMachine := by
  unfold armRops at h
  split at h
  · unfold ropsMul at h
    split at h
    · cases h
      exact .regs _
    · cases h
      exact .regs _
    · cases h
      exact .regs _
    · cases h
      exact .regs _
    · split at h
      · cases h
      · cases h
        exact .regs _
  · split at h
    · cases h
      exact .regs _
    · split at h
      · cases h
        exact .regs _
      · cases h
        exact .regs s.regFile

theorem armRops64_effect {s s' : State} (h : armRops64 ins s = .fall s') :
    Effect inp ins s.toMachine s'.toMachine := by
  unfold armRops64 at h
  split at h
  · unfold rops64Mul at h
    split at h
    · cases h
      exact .regs _
    · split at h
      · cases h
      · cases h
        exact .regs _
    · split at h
      · cases h
      · cases h
        exact .regs _
    · split at h
      · cases h
      · cases h
        exact .regs _
    · split at h
      · cases h
      · cases h
        exact .regs _
    · cases h
      exact .regs _
  · split at h
    · cases h
      exact .regs _
    · split at h
      · cases h
        exact .regs _
      · cases h
        exact .regs s.regFile

/-! ### Loads and stores -/

theorem loadNarrow_cases (access : Word → Word → Bool × Word) (extend : Word → Word) (s : State) :
    (∃ r, (loadNarrow access extend ins s).toMachine = { s.toMachine with regFile := r }) ∨
      (loadNarrow access extend ins s).toMachine =
        setMtval { s.toMachine with flags := { s.flags with ldAddrMissalig := true } }
          s.loadAddr := by
  unfold loadNarrow
  split
  · exact .inr rfl
  · exact .inl ⟨_, rfl⟩

theorem loadSwitch_cases (ins : Word) (s : State) :
    (∃ r, (loadSwitch ins s).toMachine = { s.toMachine with regFile := r }) ∨
      (loadSwitch ins s).toMachine =
        setMtval { s.toMachine with flags := { s.flags with ldAddrMissalig := true } }
          s.loadAddr := by
  unfold loadSwitch
  split
  · exact loadNarrow_cases _ _ s
  · exact loadNarrow_cases _ _ s
  · exact loadNarrow_cases _ _ s
  · exact loadNarrow_cases _ _ s
  · exact loadNarrow_cases _ _ s
  · exact loadNarrow_cases _ _ s
  · unfold loadLd
    split
    · exact .inl ⟨_, rfl⟩
    · exact .inr rfl
  · exact .inl ⟨s.regFile, rfl⟩

theorem plicRead_side (off : Word) (m : Machine) : LoadSide m (plicRead off m).2 := by
  unfold plicRead
  split
  · exact .inl rfl
  · split
    · split
      · rename_i h
        exact .inr ⟨h, rfl⟩
      · exact .inl rfl
    · exact .inl rfl

theorem loadPeripheral_side {pa v : Word} {m m' : Machine}
    (h : loadPeripheral inp pa m = .ret v m') : LoadSide m m' := by
  unfold loadPeripheral at h
  split at h
  · cases h
    exact .inl rfl
  · split at h
    · cases h
      exact plicRead_side _ m
    · split at h
      · cases h
        exact .inl rfl
      · cases h

theorem loadMapped_side {pa : Word} {r : Word × Word} {m m' : Machine}
    (h : loadMapped inp pa m = .ret r m') : LoadSide m m' := by
  unfold loadMapped at h
  dsimp only at h
  split at h
  · split at h
    · cases h
    · split at h
      · cases h
      · cases h
        exact .inl rfl
  · split at h
    · cases h
    · rename_i hp
      cases h
      exact loadPeripheral_side hp

theorem loadFifo_effect (s : State) (ho : opcode ins = .load) :
    Effect inp ins s.toMachine (loadFifo inp ins s).toMachine := by
  unfold loadFifo
  split
  · split
    · exact .fifo _ _ ho
    · exact .regs _
  · split
    · exact .regs _
    · exact .fifo _ _ ho

theorem armLoad_effect {s s' : State} (ho : opcode ins = .load)
    (h : armLoad inp ins s = .fall s') : Effect inp ins s.toMachine s'.toMachine := by
  unfold armLoad at h
  dsimp only at h
  split at h
  · split at h
    · cases h
    · split at h
      · unfold loadPageFault at h
        split at h <;> cases h
      · split at h
        · cases h
        · rename_i m' hm
          cases h
          have side := loadMapped_side hm
          rcases loadSwitch_cases ins _ with ⟨r, hr⟩ | hr
          · rw [hr]
            exact .load m' r side ho
          · rw [hr]
            exact .loadMis m' _ side ho
  · cases h
    let addr := s.reg (rs1 ins) + signExtend (imm11_0 ins) 12
    have he : Effect inp ins s.toMachine (loadFifo inp ins { s with loadAddr := addr }).toMachine :=
      loadFifo_effect { s with loadAddr := addr } ho
    exact he

theorem storeSwitch_toMachine (ins : Word) (s : State) :
    (storeSwitch ins s).toMachine = s.toMachine := by
  unfold storeSwitch
  dsimp only
  split <;> first | rfl | (split <;> rfl)

theorem storeRam_effect {pa : Word} {s s' : State} (ho : opcode ins = .store)
    (h : storeRam ins pa s = .fall s') : Effect inp ins s.toMachine s'.toMachine := by
  unfold storeRam at h
  dsimp only at h
  split at h
  · cases h
  · split at h
    · cases h
    · cases h
      unfold storeCommit
      split
      · simp only [storeSwitch_toMachine]
        exact .store _ _ ho
      · rw [storeSwitch_toMachine]
        exact .regs s.regFile

theorem storePeripheral_effect {pa v : Word} {m m' : Machine} (ho : opcode ins = .store)
    (h : storePeripheral inp pa v m = .ret () m') : Effect inp ins m m' := by
  unfold storePeripheral clintWrite plicWrite at h
  split at h
  · split at h
    · cases h
      exact .timecmp v ho
    · cases h
      exact .regs m.regFile
  · split at h
    · split at h
      · cases h
        have hc : Effect inp ins m (completeIrq m) := .complete ho
        unfold completeIrq at hc
        dsimp only
        split <;> simp_all
      · cases h
        exact .regs m.regFile
    · split at h
      · exact .device _ m' h ho
      · cases h

theorem armStore_effect {s s' : State} (ho : opcode ins = .store)
    (h : armStore inp ins s = .fall s') : Effect inp ins s.toMachine s'.toMachine := by
  unfold armStore at h
  dsimp only at h
  split at h
  · split at h
    · cases h
    · split at h
      · unfold storePageFault at h
        split at h <;> cases h
      · split at h
        · have he : Effect inp ins _ _ := storeRam_effect ho h
          exact he
        · split at h
          · cases h
          · rename_i hm
            cases h
            exact storePeripheral_effect ho hm
  · cases h
    exact .emit _ ho

/-! ### The AMO arm -/

theorem amoSwitchW_effect {c : Cell} (s : State) (ho : opcode ins = .amo)
    (hc : cell? (s.loadAddrPhy / 8) = some c) (ha : s.loadAddr = s.reg (rs1 ins)) :
    Effect inp ins s.toMachine (retToRd ins (amoSwitchW ins c s)).toMachine := by
  have rmw (op : Word → Word → Word) (mis : State → Word) :
      Effect inp ins s.toMachine (retToRd ins (amoRmwW op mis ins c s)).toMachine := by
    unfold amoRmwW
    split
    · exact .amoMis _ _ ho
    · exact .amo c _ _ ho
  unfold amoSwitchW
  split
  · unfold lrW
    split
    · exact .amoMis _ _ ho
    · exact .lr .w32 _ _ _ ho
  · unfold scW
    split
    · rename_i hr
      unfold scWStore
      dsimp only
      split
      · exact .scMis .w32 _ _ _ ho
      · exact .scOk .w32 _ _ c _ _ ⟨hr.1, ha ▸ hr.2⟩ hc ho
    · exact .scFail .w32 _ _ _ ho
  · exact rmw _ _
  · exact rmw _ _
  · exact rmw _ _
  · exact rmw _ _
  · exact rmw _ _
  · exact rmw _ _
  · exact rmw _ _
  · exact rmw _ _
  · exact rmw _ _
  · exact .illegal _

theorem amoSwitchD_effect {c : Cell} (s : State) (ho : opcode ins = .amo)
    (hc : cell? (s.loadAddrPhy / 8) = some c) (ha : s.loadAddr = s.reg (rs1 ins)) :
    Effect inp ins s.toMachine (retToRd ins (amoSwitchD ins c s)).toMachine := by
  have rmw (op : Word → Word → Word) :
      Effect inp ins s.toMachine (retToRd ins (amoRmwD op ins c s)).toMachine := by
    unfold amoRmwD
    split
    · exact .amoMis _ _ ho
    · exact .amo c _ _ ho
  unfold amoSwitchD
  split
  · unfold lrD
    split
    · exact .amoMis _ _ ho
    · rw [← ha]
      exact .lr .w64 _ _ _ ho
  · unfold scD
    split
    · rename_i hr
      unfold scDStore
      dsimp only
      split
      · exact .scMis .w64 _ _ _ ho
      · exact .scOk .w64 _ _ c _ _ ⟨hr.1, ha ▸ hr.2⟩ hc ho
    · exact .scFail .w64 _ _ _ ho
  · exact rmw _
  · exact rmw _
  · exact rmw _
  · exact rmw _
  · exact rmw _
  · exact rmw _
  · exact rmw _
  · exact rmw _
  · exact rmw _
  · exact .regs _

theorem amoMapped_fall {s s' : State} {k : Cell → State → State}
    (h : amoMapped ins s k = .fall s') :
    ∃ t c, t.toMachine = s.toMachine ∧ t.loadAddr = s.reg (rs1 ins) ∧
      cell? (t.loadAddrPhy / 8) = some c ∧ s' = retToRd ins (k c t) := by
  unfold amoMapped at h
  dsimp only at h
  split at h
  · cases h
  · split at h
    · unfold storePageFault at h
      split at h <;> cases h
    · split at h
      · split at h
        · cases h
        · rename_i hc
          cases h
          exact ⟨{ s with loadAddr := s.reg (rs1 ins), loadAddrPhy := _ }, _, rfl, rfl, hc, rfl⟩
      · cases h

theorem armAmo_effect {s s' : State} (ho : opcode ins = .amo) (h : armAmo ins s = .fall s') :
    Effect inp ins s.toMachine s'.toMachine := by
  unfold armAmo at h
  split at h
  · obtain ⟨t, c, ht, ha, hc, rfl⟩ := amoMapped_fall h
    rw [← ht] at ha ⊢
    exact amoSwitchW_effect { t with loadData := t.mem c } ho hc ha
  · obtain ⟨t, c, ht, ha, hc, rfl⟩ := amoMapped_fall h
    rw [← ht] at ha ⊢
    exact amoSwitchD_effect { t with wbData := t.mem c } ho hc ha
  · cases h
    exact .regs s.regFile

/-! ### The system arm -/

def CsrReads (ins v : Word) (m : Machine) : Prop :=
  ∀ n, CsrName.ofAddr (imm11_0 ins) = some n → readable m.cp n ∧ v = m.csr.value n

theorem csrCommit_effect {v data : Word} {commit : State → State} (s : State) (ho : IsCsr ins)
    (hcommit : ∀ t, ∃ r, (commit t).toMachine = { t.toMachine with regFile := r })
    (hr : CsrReads ins v s.toMachine) (hd : data = csrOperand ins s.toMachine v) :
    Effect inp ins s.toMachine (csrCommit ins data commit s).toMachine := by
  unfold csrCommit csrWrite
  cases hn : CsrName.ofAddr (imm11_0 ins) with
  | none => exact .illegal s.regFile
  | some n =>
    obtain ⟨hread, rfl⟩ := hr n hn
    dsimp only [Option.bind_some]
    split
    · exact .illegal s.regFile
    · rename_i c hc
      obtain ⟨r, hreg⟩ := hcommit { s with csrBool := true, csr := c }
      rw [hreg]
      rw [hd] at hc
      exact .csr n c r hread hc (CsrName.addr_of_ofAddr hn) ho

theorem csrArm_effect {body : State → State} (s : State)
    (hbody : ∀ v, CsrReads ins v s.toMachine →
      Effect inp ins s.toMachine (body { s with csrData := v }).toMachine) :
    Effect inp ins s.toMachine (csrArm inp ins body s).toMachine := by
  unfold csrArm
  split
  · rename_i v hv
    refine hbody v fun n hn => ?_
    unfold csrRead at hv
    rw [hn] at hv
    dsimp only at hv
    split at hv
    · rename_i hread
      exact ⟨hread, (Prod.mk.inj hv).1.symm⟩
    · simp at hv
  · exact .illegal s.regFile

theorem commitNonzero_regs (t : State) :
    ∃ r, (commitNonzero ins t).toMachine = { t.toMachine with regFile := r } := by
  unfold commitNonzero
  split
  · exact ⟨_, rfl⟩
  · exact ⟨t.regFile, rfl⟩

theorem commitAlways_regs (t : State) :
    ∃ r, (commitAlways ins t).toMachine = { t.toMachine with regFile := r } := ⟨_, rfl⟩

theorem csrOperand_of_func3 {m : Machine} {old : Word} {k : Nat} (hk : (func3 ins).toNat = k) :
    csrOperand ins m old = csrOperandOf k ins m old := by
  rw [csrOperand, hk]

theorem csrrs_effect (s : State) (ho : IsCsr ins) (h3 : (func3 ins).toNat = 0b010) :
    Effect inp ins s.toMachine (csrrs inp ins s).toMachine := by
  refine csrArm_effect s fun v hr => ?_
  dsimp only
  split
  · exact .regs _
  · exact csrCommit_effect { s with csrData := v, storeData := _ } ho commitAlways_regs hr
      (csrOperand_of_func3 h3).symm

theorem privileged_effect {s s' : State} (ho : opcode ins = .systm) (h0 : func3 ins = 0)
    (h : privileged ins s = .fall s') : Effect inp ins s.toMachine s'.toMachine := by
  unfold privileged at h
  split at h
  · unfold ecall at h
    split at h
    · cases h
    · rename_i he
      cases h
      exact .ecall _ _ he ho
  · cases h
    exact .ebreak ho
  · rename_i hi
    cases h
    exact .mret ho ⟨h0, toNat_eq_iff hi⟩
  · rename_i hi
    cases h
    exact .sret ho ⟨h0, toNat_eq_iff hi⟩
  · cases h
  · cases h
    exact .regs s.regFile

theorem isCsr_of_func3 {k : Nat} (ho : opcode ins = .systm) (hk : (func3 ins).toNat = k)
    (h0 : k ≠ 0b000) (h4 : k ≠ 0b100) : IsCsr ins := by
  refine ⟨ho, fun h => h0 ?_, fun h => h4 ?_⟩ <;> rw [← hk, h] <;> rfl

theorem armSystm_effect {s s' : State} (ho : opcode ins = .systm)
    (h : armSystm inp ins s = .fall s') : Effect inp ins s.toMachine s'.toMachine := by
  unfold armSystm at h
  split at h
  · rename_i h3
    cases h
    exact csrArm_effect s fun v hr => csrCommit_effect { s with csrData := v, storeData := _ }
      (isCsr_of_func3 ho h3 (by decide) (by decide)) commitNonzero_regs hr (csrOperand_of_func3 h3).symm
  · rename_i h3
    cases h
    exact csrrs_effect s (isCsr_of_func3 ho h3 (by decide) (by decide)) h3
  · rename_i h3
    cases h
    exact csrArm_effect s fun v hr => csrCommit_effect { s with csrData := v, storeData := _ }
      (isCsr_of_func3 ho h3 (by decide) (by decide)) commitAlways_regs hr (csrOperand_of_func3 h3).symm
  · rename_i h3
    cases h
    exact csrArm_effect s fun v hr => csrCommit_effect { s with csrData := v }
      (isCsr_of_func3 ho h3 (by decide) (by decide)) commitNonzero_regs hr (csrOperand_of_func3 h3).symm
  · rename_i h3
    cases h
    exact csrArm_effect s fun v hr => csrCommit_effect { s with csrData := v, storeData := _ }
      (isCsr_of_func3 ho h3 (by decide) (by decide)) commitAlways_regs hr (csrOperand_of_func3 h3).symm
  · rename_i h3
    cases h
    exact csrArm_effect s fun v hr => csrCommit_effect { s with csrData := v, storeData := _ }
      (isCsr_of_func3 ho h3 (by decide) (by decide)) commitAlways_regs hr (csrOperand_of_func3 h3).symm
  · rename_i h0
    exact privileged_effect ho (toNat_eq_iff h0) h
  · cases h
    exact .regs s.regFile

/-- Every way to the end of the loop body is one of the listed effects. -/
theorem execute_effect {s s' : State} (h : execute inp ins s = .fall s') :
    Effect inp ins s.toMachine s'.toMachine := by
  unfold execute at h
  split at h
  case h_1 | h_2 | h_8 | h_9 =>
    cases h
    exact .regs _
  case h_3 ho =>
    cases h
    exact .jump _ _ (.inl ho)
  case h_4 ho =>
    cases h
    exact .jump _ _ (.inr (.inl ho))
  case h_5 ho =>
    cases h
    exact armCjump_effect s ho
  case h_6 ho => exact armLoad_effect ho h
  case h_7 ho => exact armStore_effect ho h
  case h_10 => exact armRops_effect h
  case h_11 => exact armRops64_effect h
  case h_12 ho => exact armAmo_effect ho h
  case h_13 => cases h
  case h_14 ho => exact armSystm_effect ho h
  all_goals
    cases h
    first | exact .illegal s.regFile | exact .regs s.regFile

end RiscvEmu
