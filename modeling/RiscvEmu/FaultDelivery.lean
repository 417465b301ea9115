import RiscvEmu.Control

/-! Delivery of page faults and of `ecall`. The five fault paths end in the same architectural
result, and so does an `ecall` that no flag of an earlier instruction disturbs. -/

namespace RiscvEmu

open Runs

variable {inp : Input} {ins : Word}

/-- The trap taken into `h` by the instruction that `m` is at. -/
structure Delivered (h : Plevel) (ecode : Word) (tval : Option Word) (m m' : Machine) : Prop where
  cp : m'.cp = h
  rank : m.cp.code ≤ h.code
  epc : m'.csr.epc h = m.pc
  cause : m'.csr.cause h = ⟨0, ecode⟩
  pc : m'.pc = (m.csr.tvec h).base
  pie : m'.csr.pie h = m.csr.xie h
  xie : m'.csr.xie h = 0
  pp : m'.csr.pp h = m.cp.code
  tval : ∀ va ∈ tval, m'.csr.tval h = va
  regs : ∀ r ≠ 0, m'.regFile r = m.regFile r
  resv : m'.resv = m.resv
  mem : m'.mem = m.mem

/-- The instruction at the program counter, with its page fault: the cause and the address. -/
inductive PageFault (inp : Input) (s : State) : Word → Word → Prop
  | fetch (hu : ¬(s.cp = .umode ∧ s.pc = 0))
      (ht : translate s.csr (tick inp s.toMachine).mem s.pc .inst s.cp = .ok (-1)) :
      PageFault inp s causeFetchPageFault s.pc
  | load (ins va : Word) (hf : fetch (tick inp s.toMachine) = .word ins) (ho : opcode ins = .load)
      (hva : va = (advance s.toMachine).reg (rs1 ins) + signExtend (imm11_0 ins) 12)
      (hq : va ≠ fifoAddrRx ∧ va ≠ fifoAddrTx)
      (ht : translate s.csr (tick inp s.toMachine).mem va .load s.cp = .ok (-1)) :
      PageFault inp s causeLoadPageFault va
  | store (ins va : Word) (hf : fetch (tick inp s.toMachine) = .word ins)
      (ho : opcode ins = .store)
      (hva : va = (advance s.toMachine).reg (rs1 ins) + signExtend (immS ins) 12)
      (hq : va ≠ fifoAddrTx)
      (ht : translate s.csr (tick inp s.toMachine).mem va .stor s.cp = .ok (-1)) :
      PageFault inp s causeStorePageFault va
  | amo (ins va : Word) (hf : fetch (tick inp s.toMachine) = .word ins) (ho : opcode ins = .amo)
      (hw : (func3 ins).toNat = 0b010 ∨ (func3 ins).toNat = 0b011)
      (hva : va = (advance s.toMachine).reg (rs1 ins))
      (ht : translate s.csr (tick inp s.toMachine).mem va .stor s.cp = .ok (-1)) :
      PageFault inp s causeStorePageFault va

def IsEcall (inp : Input) (s : State) : Prop :=
  ∃ ins, fetch (tick inp s.toMachine) = .word ins ∧ opcode ins = .systm ∧
    (func3 ins).toNat = 0b000 ∧ (imm11_0 ins).toNat = 0

def ecallCause : Plevel → Word :=
  modeCode causeMachineEcall causeSupervisorEcall causeUserEcall

/-! ### Page faults -/

theorem handles_of_ne_umode {cause : Word} {interrupt : Bool} {cp h : Plevel} {c : Csrs}
    (ht : trapModeSelect cause interrupt cp c = some h) (hu : h ≠ .umode) : h.handles := by
  cases h with
  | umode => exact absurd rfl hu
  | smode => exact .inl rfl
  | hmode => exact absurd ht (trapModeSelect_ne_hmode _ _ _ _)
  | mmode => exact .inr rfl

theorem delivered_faulted {h : Plevel} {ecode va : Word} {m : Machine}
    (ht : trapModeSelect ecode false m.cp m.csr = some h) (hh : h.handles) :
    Delivered h ecode (some va) m (faulted h ecode va (advance m)) := by
  have hrank := trapModeSelect_rank ht
  have hepc : m.pc + 4 - 4 = m.pc := BitVec.add_sub_cancel _ _
  rcases hh with rfl | rfl
  · exact ⟨rfl, hrank, hepc, rfl, rfl, rfl, rfl, rfl, fun _ hv => Option.some.inj hv,
      fun r hr => Function.update_of_ne hr _ _, rfl, rfl⟩
  · exact ⟨rfl, hrank, hepc, rfl, rfl, rfl, rfl, rfl, fun _ hv => Option.some.inj hv,
      fun r hr => Function.update_of_ne hr _ _, rfl, rfl⟩

theorem delivered_fetchFaulted {h : Plevel} {m : Machine}
    (ht : trapModeSelect causeFetchPageFault false m.cp m.csr = some h) (hh : h.handles) :
    Delivered h causeFetchPageFault (some m.pc) m (fetchFaulted h m) := by
  have hrank := trapModeSelect_rank ht
  rcases hh with rfl | rfl
  · exact ⟨rfl, hrank, rfl, rfl, rfl, rfl, rfl, rfl, fun _ hv => Option.some.inj hv,
      fun _ _ => rfl, rfl, rfl⟩
  · exact ⟨rfl, hrank, rfl, rfl, rfl, rfl, rfl, rfl, fun _ hv => Option.some.inj hv,
      fun _ _ => rfl, rfl, rfl⟩

theorem fetch_of_fault {m : Machine} (hu : ¬(m.cp = .umode ∧ m.pc = 0))
    (ht : translate m.csr m.mem m.pc .inst m.cp = .ok (-1)) : fetch m = .fault := by
  unfold fetch
  rw [ht]
  dsimp only
  rw [if_neg hu, if_pos rfl]

section

variable {s : State} {va : Word} {h : Plevel}

theorem armLoad_of_fault (hva : va = s.reg (rs1 ins) + signExtend (imm11_0 ins) 12)
    (hq : va ≠ fifoAddrRx ∧ va ≠ fifoAddrTx) (ht : translate s.csr s.mem va .load s.cp = .ok (-1))
    (hm : trapModeSelect causeLoadPageFault false s.cp s.csr = some h) (hh : h.handles) :
    ∃ t, armLoad inp ins s = .cont t ∧
      t.toMachine = faulted h causeLoadPageFault va s.toMachine := by
  subst hva
  unfold armLoad
  dsimp only
  rw [if_pos hq, ht]
  dsimp only
  rw [if_pos rfl]
  exact ⟨_, loadPageFault_of_mode hm hh, rfl⟩

theorem armStore_of_fault (hva : va = s.reg (rs1 ins) + signExtend (immS ins) 12)
    (hq : va ≠ fifoAddrTx) (ht : translate s.csr s.mem va .stor s.cp = .ok (-1))
    (hm : trapModeSelect causeStorePageFault false s.cp s.csr = some h) (hh : h.handles) :
    ∃ t, armStore inp ins s = .cont t ∧
      t.toMachine = faulted h causeStorePageFault va s.toMachine := by
  subst hva
  unfold armStore
  dsimp only
  rw [if_pos hq, ht]
  dsimp only
  rw [if_pos rfl]
  exact ⟨_, storePageFault_of_mode hm hh, rfl⟩

theorem amoMapped_of_fault {k : Cell → State → State} (hva : va = s.reg (rs1 ins))
    (ht : translate s.csr s.mem va .stor s.cp = .ok (-1))
    (hm : trapModeSelect causeStorePageFault false s.cp s.csr = some h) (hh : h.handles) :
    ∃ t, amoMapped ins s k = .cont t ∧
      t.toMachine = faulted h causeStorePageFault va s.toMachine := by
  subst hva
  unfold amoMapped
  dsimp only
  rw [ht]
  dsimp only
  rw [if_pos rfl]
  exact ⟨_, storePageFault_of_mode hm hh, rfl⟩

theorem armAmo_of_fault (hw : (func3 ins).toNat = 0b010 ∨ (func3 ins).toNat = 0b011)
    (hva : va = s.reg (rs1 ins)) (ht : translate s.csr s.mem va .stor s.cp = .ok (-1))
    (hm : trapModeSelect causeStorePageFault false s.cp s.csr = some h) (hh : h.handles) :
    ∃ t, armAmo ins s = .cont t ∧
      t.toMachine = faulted h causeStorePageFault va s.toMachine := by
  unfold armAmo
  rcases hw with hw | hw <;> rw [hw] <;> exact amoMapped_of_fault hva ht hm hh

end

theorem iterate_of_cont {s t : State} (hf : fetch (tick inp s.toMachine) = .word ins)
    (hx : execute inp ins (decoded { s with toMachine := tick inp s.toMachine }) = .cont t) :
    iterate inp s = .next t := by
  rw [iterate_of_word hf, hx]

theorem pageFault_next {s : State} {ecode va : Word} {h : Plevel} (hp : PageFault inp s ecode va)
    (ht : trapModeSelect ecode false s.cp s.csr = some h) (hh : h.handles) :
    ∃ t, iterate inp s = .next t ∧
      (ecode = causeFetchPageFault ∧ va = s.pc ∧
          t.toMachine = fetchFaulted h (tick inp s.toMachine) ∨
        ecode ≠ causeFetchPageFault ∧
          t.toMachine = faulted h ecode va (advance (tick inp s.toMachine))) := by
  cases hp with
  | fetch hz htr =>
    have hf := fetch_of_fault (m := tick inp s.toMachine) hz htr
    refine ⟨{ s with toMachine := fetchFaulted h (tick inp s.toMachine) }, ?_,
      .inl ⟨rfl, rfl, rfl⟩⟩
    unfold iterate
    dsimp only
    rw [hf]
    dsimp only
    rw [fetchFault_of_mode (m := tick inp s.toMachine) ht hh]
  | load ins va hf ho hva hq htr =>
    obtain ⟨t, hx, he⟩ := armLoad_of_fault (s := decoded { s with toMachine := tick inp s.toMachine })
      hva hq htr ht hh
    exact ⟨t, iterate_of_cont hf (by rw [execute_load ho]; exact hx), .inr ⟨by decide, he⟩⟩
  | store ins va hf ho hva hq htr =>
    obtain ⟨t, hx, he⟩ := armStore_of_fault (s := decoded { s with toMachine := tick inp s.toMachine })
      hva hq htr ht hh
    exact ⟨t, iterate_of_cont hf (by rw [execute_store ho]; exact hx), .inr ⟨by decide, he⟩⟩
  | amo ins va hf ho hw hva htr =>
    obtain ⟨t, hx, he⟩ := armAmo_of_fault (s := decoded { s with toMachine := tick inp s.toMachine })
      hw hva htr ht hh
    exact ⟨t, iterate_of_cont hf (by rw [execute_amo ho]; exact hx), .inr ⟨by decide, he⟩⟩

theorem pageFault_delivered {s : State} {ecode va : Word} {h : Plevel}
    (hp : PageFault inp s ecode va) (ht : trapModeSelect ecode false s.cp s.csr = some h)
    (hu : h ≠ .umode) :
    ∃ t, iterate inp s = .next t ∧
      Delivered h ecode (some va) (tick inp s.toMachine) t.toMachine := by
  have hh := handles_of_ne_umode ht hu
  obtain ⟨t, hn, ⟨rfl, rfl, hm⟩ | ⟨-, hm⟩⟩ := pageFault_next hp ht hh
  · exact ⟨t, hn, hm ▸ delivered_fetchFaulted (m := tick inp s.toMachine) ht hh⟩
  · exact ⟨t, hn, hm ▸ delivered_faulted (m := tick inp s.toMachine) ht hh⟩

/-! ### Ecall -/

theorem selectInterrupt_congr {c c' : Csrs} (he : c.mie = c'.mie) (hp : c.mip = c'.mip) :
    selectInterrupt c = selectInterrupt c' := by
  unfold selectInterrupt
  rw [he, hp]

def ecalled (h : Plevel) (m : Machine) : Machine :=
  enter h 0 (ecallCause m.cp) m.pc (m.csr.tvec h).base (advance m)

theorem ecall_of_mode {s : State} {h : Plevel}
    (ht : trapModeSelect (ecallCause s.cp) false s.cp s.csr = some h) (hh : h.handles) :
    ecall s = .fall { s with
      toMachine := enter h 0 (ecallCause s.cp) (s.pc - 4) (s.csr.tvec h).base s.toMachine } := by
  have he : excepFunction s.pc causeMachineEcall causeSupervisorEcall causeUserEcall s.cp
      s.toMachine = _ := excepFunction_of_mode ht hh
  unfold ecall
  rw [he]
  rcases hh with rfl | rfl <;> rfl

theorem atLoopEnd_of_ecall {s : State} {h : Plevel} (hc : IsEcall inp s)
    (ht : trapModeSelect (ecallCause s.cp) false s.cp s.csr = some h) (hh : h.handles) :
    ∃ s', atLoopEnd inp s = some s' ∧ s'.toMachine = ecalled h (tick inp s.toMachine) := by
  obtain ⟨ins, hf, ho, h3, hi⟩ := hc
  let t := decoded { s with toMachine := tick inp s.toMachine }
  have hx : execute inp ins t = ecall t := by
    rw [execute_systm ho, armSystm, h3, privileged, hi]
    rfl
  rw [ecall_of_mode (s := t) ht hh] at hx
  refine ⟨_, atLoopEnd_of_word hf hx, ?_⟩
  have hepc : t.pc - 4 = s.pc := BitVec.add_sub_cancel _ _
  rw [hepc]
  rfl

theorem delivered_ecalled {h : Plevel} {m : Machine}
    (ht : trapModeSelect (ecallCause m.cp) false m.cp m.csr = some h) (hh : h.handles) :
    Delivered h (ecallCause m.cp) none m (refresh (ecalled h m)) := by
  have hrank := trapModeSelect_rank ht
  rcases hh with rfl | rfl
  · exact ⟨rfl, hrank, rfl, rfl, rfl, rfl, rfl, rfl, nofun,
      fun r hr => Function.update_of_ne hr _ _, rfl, rfl⟩
  · exact ⟨rfl, hrank, rfl, rfl, rfl, rfl, rfl, rfl, nofun,
      fun r hr => Function.update_of_ne hr _ _, rfl, rfl⟩

theorem ecallCause_ge {cp : Plevel} (h : cp ≠ .hmode) : 8 ≤ ecallCause cp := by
  cases cp <;> first | decide | exact absurd rfl h

theorem flags_clear_of_first {f : Flags} (hl : f.ldAccFault = false) (h : f.first = none) :
    f = Flags.clear := by
  obtain ⟨ld, ia, ii, eb, im, lm, sm⟩ := f
  unfold Flags.first at h
  split_ifs at h with h1 h2 h3 h4 h5 h6
  simp only [Bool.not_eq_true] at *
  subst_vars
  rfl

theorem ecall_delivered_iff {s : State} {h : Plevel} (hc : IsEcall inp s)
    (hi : selectInterrupt (refresh (tick inp s.toMachine)).csr = none)
    (ht : trapModeSelect (ecallCause s.cp) false s.cp s.csr = some h) (hu : h ≠ .umode) :
    (∃ t, Completes inp s t ∧
      Delivered h (ecallCause s.cp) none (tick inp s.toMachine) t.toMachine) ↔
      s.flags = Flags.clear := by
  have hh := handles_of_ne_umode ht hu
  obtain ⟨s', hl, hs'⟩ := atLoopEnd_of_ecall hc ht hh
  have hflags : (refresh s'.toMachine).flags = s.flags := by
    rw [hs']
    exact enter_flags h 0 _ _ _ _
  have hsel : selectInterrupt (refresh s'.toMachine).csr = none := by
    rw [← hi, hs']
    rcases hh with rfl | rfl <;> exact selectInterrupt_congr rfl rfl
  constructor
  · rintro ⟨t, ht', hd⟩
    obtain ⟨m, hret, rfl⟩ := (completes_iff_of_atLoopEnd hl).mp ht'
    cases selectTrap_ret hret with
    | none hacc _ hfirst =>
      rw [hflags] at hacc hfirst
      exact flags_clear_of_first hacc hfirst
    | declined e k _ he =>
      rw [hsel] at he
      cases he
    | interrupt e k _ he =>
      rw [hsel] at he
      cases he
    | exception e k f he hacc _ hh' =>
      -- the leftover exception overwrites the cause that the `ecall` has just set
      have hcp : k = h := (enter_cp 0 e _ _ _ hh').symm.trans hd.cp
      subst hcp
      have hcause := (enter_cause 0 e _ _ _ hh').symm.trans hd.cause
      have hcode : e = ecallCause s.cp := (Cause.mk.inj hcause).2
      have hge := ecallCause_ge (ne_hmode_of_mode ht)
      have hlt : e < 8 := by
        rcases he with he | ⟨-, he⟩
        · rw [(hacc he).1]
          decide
        · exact first_code he
      rw [hcode] at hlt
      exact absurd hge (BitVec.not_le.mpr hlt)
  · intro hf
    refine ⟨_, (completes_iff_of_atLoopEnd hl).mpr ⟨refresh s'.toMachine, ?_, rfl⟩, ?_⟩
    · rw [selectTrap_eq (by rw [hflags, hf]; rfl), hsel]
      dsimp only
      rw [selectException_eq, hflags, hf]
      rfl
    · have hd := delivered_ecalled (m := tick inp s.toMachine) ht hh
      rw [← hs'] at hd
      exact hd

def TrapsDelivered (inp : Input) (s : State) : Prop :=
  (∀ ecode va h, PageFault inp s ecode va → trapModeSelect ecode false s.cp s.csr = some h →
    h ≠ .umode → ∃ t, iterate inp s = .next t ∧
      Delivered h ecode (some va) (tick inp s.toMachine) t.toMachine) ∧
  ∀ h, IsEcall inp s → selectInterrupt (refresh (tick inp s.toMachine)).csr = none →
    trapModeSelect (ecallCause s.cp) false s.cp s.csr = some h → h ≠ .umode →
    ∃ t, Completes inp s t ∧
      Delivered h (ecallCause s.cp) none (tick inp s.toMachine) t.toMachine

/-- Page faults always are; an `ecall` is unless an earlier instruction has left a flag set. -/
theorem traps_delivered_iff (inp : Input) (s : State) :
    TrapsDelivered inp s ↔
      ∀ h, IsEcall inp s → selectInterrupt (refresh (tick inp s.toMachine)).csr = none →
        trapModeSelect (ecallCause s.cp) false s.cp s.csr = some h → h ≠ .umode →
        s.flags = Flags.clear := by
  constructor
  · rintro ⟨-, he⟩ h hc hi ht hu
    exact (ecall_delivered_iff hc hi ht hu).mp (he h hc hi ht hu)
  · intro hf
    refine ⟨fun ecode va h hp ht hu => pageFault_delivered hp ht hu, fun h hc hi ht hu => ?_⟩
    exact (ecall_delivered_iff hc hi ht hu).mpr (hf h hc hi ht hu)

/-- `csrrwi mstatus, 0`; `addi x1, x0, 32`; `csrrw x0, mie, x1`; `lui x2, 0x2004`; `sd x1, 0(x2)`,
which sets `mtimecmp`; a word that is no instruction; and `ecall`. -/
def leftoverProgram : List Word :=
  [0x30005073, 0x02000093, 0x30409073, 0x02004137, 0x00113023, 0x00000007, 0x00000073]

/-- The timer interrupt is pending and masked while the illegal word is executed, and the clock is
set back before the `ecall`. -/
theorem traps_not_delivered :
    ¬ ∀ (image : Memory) (time : Word) (is : List Input) (s : State) (inp : Input),
      Run Next (boot image time) is s → TrapsDelivered inp s := by
  intro h
  obtain ⟨t, hr, ht⟩ := exists_run (boot (imageOf leftoverProgram) 0)
    ((List.replicate 5 (quiet 0)) ++ [quiet 4])
    (fun s => decide (s.flags.illIns = true ∧ fetch (tick (quiet 0) s.toMachine) = .word 0x73 ∧
      selectInterrupt (refresh (tick (quiet 0) s.toMachine)).csr = none ∧
      trapModeSelect (ecallCause s.cp) false s.cp s.csr = some .mmode)) (by decide +kernel)
  obtain ⟨hill, hf, hi, hm⟩ := of_decide_eq_true ht
  have hc : IsEcall (quiet 0) t := ⟨0x73, hf, rfl, rfl, rfl⟩
  have hflags := (ecall_delivered_iff hc hi hm (by decide)).mp
    ((h _ _ _ _ _ hr).2 _ hc hi hm (by decide))
  rw [hflags] at hill
  cases hill

end RiscvEmu
