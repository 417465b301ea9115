import RiscvEmu.TrapFrame

/-! The round trip of a machine trap: `mret` restores the program counter and the privilege that the
entry has recorded, and sets `MIE` whatever the entry has saved of it. -/

namespace RiscvEmu

open Runs

variable {inp : Input} {ins : Word} {s t u : State} {k : TrapKind} {m : Machine} {epc : Word}

/-- An `mret` with `mepc` and `mstatus` as the entry has left them, but for `SD`, which follows `FS`. -/
structure ReturnsFrom (inp : Input) (t u : State) : Prop where
  mepc : u.csr.mepc = t.csr.mepc
  mstatus : ∃ sd, u.csr.mstatus = { t.csr.mstatus with sd := sd }
  mret : ∃ ins, fetch (tick inp u.toMachine) = .word ins ∧ IsMret ins

/-- Every such `mret` goes back to where the trap came from. -/
def MachineRoundTrip (m : Machine) (epc : Word) (t : State) : Prop :=
  ∀ inp u, ReturnsFrom inp t u → ∃ u', atLoopEnd inp u = some u' ∧ u'.pc = epc ∧ u'.cp = m.cp ∧
    u'.csr.mstatus.mie = m.csr.mstatus.mie

theorem ofByte_code {cp : Plevel} : Plevel.ofByte cp.code = cp := by
  cases cp <;> rfl

theorem mret_after_trap (ht : Trap inp s .mmode k m epc t) {i : Input} (hr : ReturnsFrom i t u) :
    ∃ u', atLoopEnd i u = some u' ∧ u'.pc = epc ∧ u'.cp = m.cp ∧ u'.csr.mstatus.mie = 1 := by
  have hk := ht.took (.inr rfl)
  obtain ⟨hepc, ⟨sd, hmst⟩, ins, hf, hi⟩ := hr
  refine ⟨_, atLoopEnd_of_word hf (mret_falls i (switchState i u) hi),
    hepc.trans hk.entered.epc, ?_, rfl⟩
  show Plevel.ofByte u.csr.mstatus.mpp = m.cp
  have hmpp : u.csr.mstatus.mpp = t.csr.mstatus.mpp := by
    rw [hmst]
  rw [hmpp, hk.entered.mpp]
  exact ofByte_code

theorem exists_returnsFrom (t : State) : ∃ i u, ReturnsFrom i t u := by
  let b := boot (imageOf [0x30200073]) 0
  refine ⟨quiet 0, { b with csr := { b.csr with mepc := t.csr.mepc, mstatus := t.csr.mstatus } },
    rfl, ⟨t.csr.mstatus.sd, rfl⟩, 0x30200073, ?_, by decide⟩
  have hb : fetch (tick (quiet 0) b.toMachine) = .word 0x30200073 := by decide +kernel
  exact hb

/-- The round trip is complete exactly when interrupts were on at the entry. -/
theorem machine_round_trip_iff (ht : Trap inp s .mmode k m epc t) :
    MachineRoundTrip m epc t ↔ m.csr.mstatus.mie = 1 := by
  constructor
  · intro h
    obtain ⟨i, u, hr⟩ := exists_returnsFrom t
    obtain ⟨u', hl, -, -, hone⟩ := mret_after_trap ht hr
    obtain ⟨u'', hl', -, -, hmie⟩ := h i u hr
    cases hl.symm.trans hl'
    exact hmie.symm.trans hone
  · intro hmie i u hr
    obtain ⟨u', hl, hpc, hcp, hone⟩ := mret_after_trap ht hr
    exact ⟨u', hl, hpc, hcp, hone.trans hmie.symm⟩

/-- An `ecall` at reset, where interrupts are on. -/
theorem machine_round_trip_ecall : ∃ t, Trap (quiet 0) (boot (imageOf [0x73]) 0) .mmode .call
    (boot (imageOf [0x73]) 0).toMachine dramBase t ∧
      MachineRoundTrip (boot (imageOf [0x73]) 0).toMachine dramBase t := by
  have hf : fetch (tick (quiet 0) (boot (imageOf [0x73]) 0).toMachine) = .word 0x73 := by
    decide +kernel
  have hc : IsEcall (quiet 0) (boot (imageOf [0x73]) 0) := ⟨0x73, hf, rfl, rfl, rfl⟩
  obtain ⟨t, hl, -⟩ := atLoopEnd_of_ecall hc rfl (.inr rfl)
  exact ⟨t, .call t hc rfl hl, (machine_round_trip_iff (.call t hc rfl hl)).mpr rfl⟩

/-- `csrrwi mstatus, 0` and `ecall`: the handler returns with interrupts on. -/
theorem machine_round_trip_fails :
    ¬ ∀ (image : Memory) (time : Word) (is : List Input) (inp : Input) (s t : State)
      (k : TrapKind) (m : Machine) (epc : Word), Run Next (boot image time) is s →
      Trap inp s .mmode k m epc t → MachineRoundTrip m epc t := by
  intro h
  obtain ⟨s, hr, hs⟩ := exists_run (boot (imageOf [0x30005073, 0x73]) 0) [quiet 0]
    (fun s => decide (fetch (tick (quiet 0) s.toMachine) = .word 0x73 ∧
      trapModeSelect (ecallCause s.cp) false s.cp s.csr = some .mmode ∧
      s.csr.mstatus.mie ≠ 1)) (by decide +kernel)
  obtain ⟨hf, hm, hmie⟩ := of_decide_eq_true hs
  have hc : IsEcall (quiet 0) s := ⟨0x73, hf, rfl, rfl, rfl⟩
  obtain ⟨t, hl, -⟩ := atLoopEnd_of_ecall hc hm (.inr rfl)
  have htrap := Trap.call t hc hm hl
  obtain ⟨i, u, hret⟩ := exists_returnsFrom t
  obtain ⟨u', hl', -, -, hone⟩ := mret_after_trap htrap hret
  obtain ⟨u'', hl'', -, -, hsame⟩ := h _ _ _ _ _ _ _ _ _ hr htrap i u hret
  cases hl'.symm.trans hl''
  exact hmie (hsame.symm.trans hone)

end RiscvEmu
