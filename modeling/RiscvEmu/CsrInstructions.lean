import RiscvEmu.Effect

/-! The six CSR instructions are atomic: they either raise an illegal instruction and change nothing
else, or read the register, write it and set `rd`. -/

namespace RiscvEmu

variable {inp : Input} {ins : Word}

def illegalMachine (ins : Word) (m : Machine) : Machine :=
  setMtval { m with flags := { m.flags with illIns := true } } ins

inductive CsrOp
  | rw | rs | rc | rwi | rsi | rci

namespace CsrOp

def func3 : CsrOp → Nat
  | rw => 0b001
  | rs => 0b010
  | rc => 0b011
  | rwi => 0b101
  | rsi => 0b110
  | rci => 0b111

/-- The register `rs1`, or the five bits in its place. -/
def source (ins : Word) (m : Machine) : CsrOp → Word
  | rw | rs | rc => m.reg (rs1 ins)
  | rwi | rsi | rci => rs1 ins

def result (old src : Word) : CsrOp → Word
  | rw | rwi => src
  | rs | rsi => old ||| src
  | rc | rci => old &&& ~~~src

/-- `CSRRS` reads the three counters without a write. -/
def OnlyReads (a : Word) (o : CsrOp) : Prop :=
  o = rs ∧ (a = CsrName.cycle.addr ∨ a = CsrName.time.addr ∨ a = CsrName.instret.addr)

end CsrOp

/-- The register is read and then written, and the value read goes to `rd`; nothing else changes. -/
def CsrCommits (o : CsrOp) (inp : Input) (ins : Word) (m m' : Machine) : Prop :=
  ∃ old c, csrRead (imm11_0 ins) inp.fallOff m.cp m.csr = (old, true) ∧
    (o.OnlyReads (imm11_0 ins) → c = m.csr) ∧
    (¬ o.OnlyReads (imm11_0 ins) →
      csrWrite (imm11_0 ins) (o.result old (o.source ins m)) m.csr = some c) ∧
    (∀ r ≠ 0, m'.regFile r = if r = (rd ins).setWidth 5 then old else m.regFile r) ∧
    m' = { m with csr := c, regFile := m'.regFile }

def CsrAtomic (o : CsrOp) (inp : Input) (ins : Word) (m m' : Machine) : Prop :=
  m' = illegalMachine ins m ∨ CsrCommits o inp ins m m'

theorem rd_toNat (ins : Word) : (rd ins).toNat = ins.toNat / 2 ^ 7 % 2 ^ 5 :=
  toNat_field ins 7 5 (by decide)

theorem rd_setWidth_eq_zero (ins : Word) : (rd ins).setWidth 5 = 0 ↔ rd ins = 0 := by
  have h := rd_toNat ins
  rw [← BitVec.toNat_inj, ← BitVec.toNat_inj, BitVec.toNat_setWidth]
  show (rd ins).toNat % 2 ^ 5 = 0 ↔ (rd ins).toNat = 0
  omega

theorem func3_lt (ins : Word) : (func3 ins).toNat < 8 := by
  unfold func3
  rw [BitVec.toNat_and]
  exact Nat.lt_succ_of_le Nat.and_le_right

theorem IsCsr.exists_op (h : IsCsr ins) : ∃ o : CsrOp, (func3 ins).toNat = o.func3 := by
  obtain ⟨-, h0, h4⟩ := h
  have hlt := func3_lt ins
  have h0' : (func3 ins).toNat ≠ 0 := fun h => h0 (toNat_eq_iff h)
  have h4' : (func3 ins).toNat ≠ 4 := fun h => h4 (toNat_eq_iff h)
  obtain h | h | h | h | h | h : (func3 ins).toNat = 1 ∨ (func3 ins).toNat = 2 ∨
      (func3 ins).toNat = 3 ∨ (func3 ins).toNat = 5 ∨ (func3 ins).toNat = 6 ∨
      (func3 ins).toNat = 7 := by omega
  · exact ⟨.rw, h⟩
  · exact ⟨.rs, h⟩
  · exact ⟨.rc, h⟩
  · exact ⟨.rwi, h⟩
  · exact ⟨.rsi, h⟩
  · exact ⟨.rci, h⟩

theorem mask64_sub (x : Word) : mask64 - x = ~~~x := BitVec.allOnes_sub_eq_not x

def SetsRd (ins v : Word) (commit : State → State) : Prop :=
  ∀ t : State, t.csrData = v →
    (commit t).toMachine = { t.toMachine with regFile := (commit t).regFile } ∧
    ∀ r ≠ 0, (commit t).regFile r = if r = (rd ins).setWidth 5 then v else t.regFile r

theorem commitAlways_setsRd (v : Word) : SetsRd ins v (commitAlways ins) := by
  intro t ht
  refine ⟨rfl, fun r _ => ?_⟩
  rw [← ht]
  exact Function.update_apply _ _ _ _

theorem commitNonzero_setsRd (v : Word) : SetsRd ins v (commitNonzero ins) := by
  intro t ht
  unfold commitNonzero
  split
  · exact commitAlways_setsRd v t ht
  · rename_i hrd
    refine ⟨rfl, fun r hr => ?_⟩
    rw [(rd_setWidth_eq_zero ins).mpr (not_not.mp hrd), if_neg hr]

theorem csrCommit_atomic {o : CsrOp} {v data : Word} {commit : State → State} {s : State}
    (hr : csrRead (imm11_0 ins) inp.fallOff s.cp s.csr = (v, true)) (hv : s.csrData = v)
    (hd : data = o.result v (o.source ins s.toMachine)) (ho : ¬ o.OnlyReads (imm11_0 ins))
    (hc : SetsRd ins v commit) :
    CsrAtomic o inp ins s.toMachine (csrCommit ins data commit s).toMachine := by
  unfold csrCommit
  split
  · exact .inl rfl
  · rename_i c hw
    obtain ⟨hm, hreg⟩ := hc { s with csrBool := true, csr := c } hv
    rw [hd] at hw
    exact .inr ⟨v, c, hr, fun h => absurd h ho, fun _ => hw, hreg, hm⟩

theorem csrArm_atomic {o : CsrOp} {body : State → State} {s : State}
    (hb : ∀ v, csrRead (imm11_0 ins) inp.fallOff s.cp s.csr = (v, true) →
      CsrAtomic o inp ins s.toMachine (body { s with csrData := v }).toMachine) :
    CsrAtomic o inp ins s.toMachine (csrArm inp ins body s).toMachine := by
  unfold csrArm
  split
  · rename_i v hr
    exact hb v hr
  · exact .inl rfl

theorem csrrs_atomic (s : State) : CsrAtomic .rs inp ins s.toMachine (csrrs inp ins s).toMachine := by
  apply csrArm_atomic
  intro v hr
  dsimp only
  split
  · rename_i hro
    obtain ⟨hm, hreg⟩ := @commitAlways_setsRd ins v { s with csrData := v } rfl
    exact .inr ⟨v, s.csr, hr, fun _ => rfl, fun h => absurd ⟨rfl, hro⟩ h, hreg, hm⟩
  · rename_i hro
    exact csrCommit_atomic (s := { s with csrData := v, storeData := _ }) hr rfl
      (BitVec.or_comm _ _) (fun h => hro h.2) (commitAlways_setsRd v)

theorem armSystm_atomic {o : CsrOp} (h3 : (func3 ins).toNat = o.func3) (s : State) :
    ∃ s', armSystm inp ins s = .fall s' ∧ CsrAtomic o inp ins s.toMachine s'.toMachine := by
  have hro {k : CsrOp} (hk : k ≠ .rs) : ¬ k.OnlyReads (imm11_0 ins) := fun h => hk h.1
  unfold armSystm
  rw [h3]
  cases o with
  | rw =>
    refine ⟨_, rfl, csrArm_atomic fun v hr => ?_⟩
    exact csrCommit_atomic (s := { s with csrData := v, storeData := _ }) hr rfl rfl
      (hro nofun) (commitNonzero_setsRd v)
  | rs => exact ⟨_, rfl, csrrs_atomic s⟩
  | rc =>
    refine ⟨_, rfl, csrArm_atomic fun v hr => ?_⟩
    exact csrCommit_atomic (s := { s with csrData := v, storeData := _ }) hr rfl
      (congrArg (v &&& ·) (mask64_sub _)) (hro nofun) (commitAlways_setsRd v)
  | rwi =>
    refine ⟨_, rfl, csrArm_atomic fun v hr => ?_⟩
    exact csrCommit_atomic (s := { s with csrData := v }) hr rfl rfl (hro nofun)
      (commitNonzero_setsRd v)
  | rsi =>
    refine ⟨_, rfl, csrArm_atomic fun v hr => ?_⟩
    exact csrCommit_atomic (s := { s with csrData := v, storeData := _ }) hr rfl
      (BitVec.or_comm _ _) (hro nofun) (commitAlways_setsRd v)
  | rci =>
    refine ⟨_, rfl, csrArm_atomic fun v hr => ?_⟩
    exact csrCommit_atomic (s := { s with csrData := v, storeData := _ }) hr rfl
      (congrArg (v &&& ·) (mask64_sub _)) (hro nofun) (commitAlways_setsRd v)

theorem armSystm_refused {s : State} (ho : IsCsr ins)
    (hr : ∀ n, CsrName.ofAddr (imm11_0 ins) = some n → readable s.cp n = false) :
    ∃ s', armSystm inp ins s = .fall s' ∧ s'.toMachine = illegalMachine ins s.toMachine := by
  obtain ⟨o, h3⟩ := ho.exists_op
  obtain ⟨s', hx, h⟩ := @armSystm_atomic inp ins o h3 s
  refine ⟨s', hx, h.resolve_right ?_⟩
  rintro ⟨old, c, hread, -, hwrite, -⟩
  cases hn : CsrName.ofAddr (imm11_0 ins) with
  | some n =>
    unfold csrRead at hread
    rw [hn] at hread
    dsimp only at hread
    rw [hr n hn] at hread
    cases hread
  | none =>
    have hro : ¬ o.OnlyReads (imm11_0 ins) := by
      rintro ⟨-, h | h | h⟩ <;> (rw [h, CsrName.ofAddr_addr] at hn; cases hn)
    have hw := hwrite hro
    unfold csrWrite at hw
    rw [hn] at hw
    cases hw

/-- Every CSR instruction, with any register number, `rd` and `rs1`, in every state. -/
theorem csr_instructions_atomic (o : CsrOp) (inp : Input) (ins : Word) (s : State)
    (ho : opcode ins = .systm) (h3 : (func3 ins).toNat = o.func3) :
    ∃ s', execute inp ins s = .fall s' ∧ CsrAtomic o inp ins s.toMachine s'.toMachine := by
  rw [execute_systm ho]
  exact armSystm_atomic h3 s

def exchangeState : State :=
  let s := boot (fun _ => 0) 0
  { s with regFile := fun r => if r = 1 then 5 else 0, csr := { s.csr with mscratch := 7 } }

/-- `csrrw x1, mscratch, x1` exchanges the two. -/
theorem csr_instructions_atomic_exchange :
    ∃ s', execute (quiet 0) 0x340090f3 exchangeState = .fall s' ∧
      CsrAtomic .rw (quiet 0) 0x340090f3 exchangeState.toMachine s'.toMachine ∧
      s'.regFile 1 = 7 ∧ s'.csr.mscratch = 5 := by
  obtain ⟨s', hx, ha⟩ :=
    csr_instructions_atomic .rw (quiet 0) 0x340090f3 exchangeState rfl rfl
  refine ⟨s', hx, ha, ?_⟩
  cases hx
  exact ⟨by decide, by decide⟩

end RiscvEmu
