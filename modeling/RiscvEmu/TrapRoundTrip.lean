import RiscvEmu.CsrViews
import RiscvEmu.FaultDelivery
import RiscvEmu.PreciseTraps

/-! The round trip of a supervisor trap: what trap entry saves survives a handler of any length, and
the `sret` that ends the handler restores it. -/

namespace RiscvEmu

open Packed Runs

variable {inp : Input} {ins : Word} {s t u : State} {mode : Plevel} {sie : Byte} {addr : Word}

/-- The trap selection takes the exception of a flag, and `f` are the flags that it leaves. -/
def Raises (m : Machine) (ecode : Word) (f : Flags) : Prop :=
  (m.flags.ldAccFault = true ∧ ecode = causeLoadAccess ∧
      f = { m.flags with ldAccFault := false }) ∨
    (m.flags.ldAccFault = false ∧ selectInterrupt m.csr = none ∧ m.flags.first = some (ecode, f))

def TakesInterrupt (m : Machine) (h : Plevel) (ecode : Word) : Prop :=
  m.flags.ldAccFault = false ∧ selectInterrupt m.csr = some ecode ∧
    trapModeSelect ecode true m.cp m.csr = some h ∧ m.csr.xie h = 1

/-- The trap selection takes no exception, and no interrupt for machine mode. -/
def NoOtherTrap (m : Machine) : Prop :=
  (∀ ecode f, ¬ Raises m ecode f) ∧ ∀ ecode, ¬ TakesInterrupt m .mmode ecode

/-- The iteration from `s` enters a trap that supervisor mode handles: the mode and the `SIE` at the
entry, and the address of the faulting instruction or, for an interrupt, of the next one. -/
inductive SupervisorEntry (inp : Input) (s : State) : Plevel → Byte → Word → Prop
  | pageFault (ecode va : Word) (hp : PageFault inp s ecode va)
      (ht : trapModeSelect ecode false s.cp s.csr = some .smode) :
      SupervisorEntry inp s s.cp s.csr.mstatus.sie s.pc
  | ecall (hc : IsEcall inp s)
      (ht : trapModeSelect (ecallCause s.cp) false s.cp s.csr = some .smode)
      (hq : ∀ s' ∈ atLoopEnd inp s, NoOtherTrap (refresh s'.toMachine)) :
      SupervisorEntry inp s s.cp s.csr.mstatus.sie s.pc
  | exception (s' : State) (ecode : Word) (f : Flags) (hl : atLoopEnd inp s = some s')
      (hx : Raises (refresh s'.toMachine) ecode f)
      (ht : trapModeSelect ecode false s'.cp s'.csr = some .smode) :
      SupervisorEntry inp s s'.cp s'.csr.mstatus.sie s.pc
  | interrupt (s' : State) (ecode : Word) (hl : atLoopEnd inp s = some s')
      (hi : TakesInterrupt (refresh s'.toMachine) .smode ecode) :
      SupervisorEntry inp s s'.cp s'.csr.mstatus.sie s'.pc

/-- A CSR instruction with `x0` or zero as its operand, in one of the forms that combine it with the
old value. -/
def ReadsOnly (ins : Word) : Prop := func3 ins ≠ 0b001 ∧ func3 ins ≠ 0b101 ∧ rs1 ins = 0

structure HandlerStep (inp : Input) (u : State) : Prop where
  fault : ∀ ecode va, ¬ PageFault inp u ecode va
  ecall : ¬ IsEcall inp u
  trap : ∀ s' ∈ atLoopEnd inp u, NoOtherTrap (refresh s'.toMachine)
  xret : ∀ ins ∈ (fetch (tick inp u.toMachine)).word?, ¬ IsMret ins ∧ ¬ IsSret ins
  write : ∀ ins ∈ (fetch (tick inp u.toMachine)).word?, IsCsr ins →
    imm11_0 ins = CsrName.sepc.addr ∨ imm11_0 ins = CsrName.sstatus.addr ∨
      imm11_0 ins = CsrName.mstatus.addr → ReadsOnly ins

/-- From `t` on, no supervisor interrupt is taken in the handler, and the `sret` that ends it restores
the program counter, the privilege and `SIE`. -/
def RoundTrip (mode : Plevel) (sie : Byte) (addr : Word) (t : State) : Prop :=
  ∀ js u, Run (Guarded HandlerStep Next) t js u → ∀ inp,
    (HandlerStep inp u → ∀ s' ∈ atLoopEnd inp u, ∀ ecode,
      ¬ TakesInterrupt (refresh s'.toMachine) .smode ecode) ∧
    ∀ ins, fetch (tick inp u.toMachine) = .word ins → IsSret ins →
      ∃ s', atLoopEnd inp u = some s' ∧ s'.pc = addr ∧ s'.cp = mode ∧ s'.csr.mstatus.sie = sie

/-! ### What trap entry saves -/

structure Saved (mode : Plevel) (sie : Byte) (addr : Word) (m : Machine) : Prop where
  cp : m.cp = .smode
  sepc : m.csr.sepc = addr
  spp : m.csr.mstatus.spp = mode.code
  spie : m.csr.mstatus.spie = sie
  sie : m.csr.mstatus.sie = 0

theorem saved_enter (i : Byte) (e epc pc : Word) (m : Machine) :
    Saved m.cp m.csr.mstatus.sie epc (enter .smode i e epc pc m) := ⟨rfl, rfl, rfl, rfl, rfl⟩

theorem Delivered.saved {e : Word} {v : Option Word} {m m' : Machine}
    (h : Delivered .smode e v m m') : Saved m.cp m.csr.mstatus.sie m.pc m' :=
  ⟨h.cp, h.epc, h.pp, h.pie, h.xie⟩

theorem Saved.refresh {m : Machine} (h : Saved mode sie addr m) :
    Saved mode sie addr (refresh m) := ⟨h.cp, h.sepc, h.spp, h.spie, h.sie⟩

/-- With `SIE` clear in supervisor mode, no interrupt goes to supervisor mode. -/
theorem Saved.no_interrupt {m : Machine} (h : Saved mode sie addr m) (ecode : Word) :
    ¬ TakesInterrupt m .smode ecode := by
  rintro ⟨-, -, -, hx⟩
  have hx' : m.csr.mstatus.sie = 1 := hx
  rw [h.sie] at hx'
  exact absurd hx' (by decide)

theorem raises_of_exception {m : Machine} {ecode : Word} {f : Flags}
    (hf : m.flags.ldAccFault = true ∨
      selectInterrupt m.csr = .none ∧ m.flags.first = some (ecode, f))
    (hl : m.flags.ldAccFault = true →
      ecode = causeLoadAccess ∧ f = { m.flags with ldAccFault := false }) : Raises m ecode f := by
  cases hacc : m.flags.ldAccFault with
  | true => exact .inl ⟨hacc, hl hacc⟩
  | false =>
    rw [hacc] at hf
    exact .inr ⟨hacc, hf.resolve_left Bool.false_ne_true⟩

theorem Saved.selected {m m' : Machine} (h : Saved mode sie addr m) (hq : NoOtherTrap m)
    (hs : Selected m m') : m' = m := by
  cases hs with
  | none => rfl
  | declined => rfl
  | interrupt e k hl hi ht hx hk =>
    rcases hk with rfl | rfl
    · exact absurd ⟨hl, hi, ht, hx⟩ (h.no_interrupt e)
    · exact absurd ⟨hl, hi, ht, hx⟩ (hq.2 e)
  | exception e k f hf hl => exact absurd (raises_of_exception hf hl) (hq.1 e f)

theorem selectTrap_of_raises {m : Machine} {ecode : Word} {f : Flags} {h : Plevel}
    (hx : Raises m ecode f) (ht : trapModeSelect ecode false m.cp m.csr = some h)
    (hh : h.handles) : selectTrap m =
      .ret () (enter h 0 ecode (m.pc - 4) (m.csr.tvec h).base { m with flags := f }) := by
  rcases hx with ⟨hl, rfl, rfl⟩ | ⟨hl, hi, hf⟩
  · unfold selectTrap
    rw [if_pos hl]
    exact raiseExcep_of_mode (m := { m with flags := { m.flags with ldAccFault := false } }) ht hh
  · exact selectTrap_raised hl hf hi ht hh

theorem selected_of_takes {m m' : Machine} {ecode : Word} {h : Plevel}
    (hi : TakesInterrupt m h ecode) (hs : Selected m m') :
    ∃ pc, m' = enter h 1 ecode m.pc pc m := by
  obtain ⟨hl, hsel, ht, hx⟩ := hi
  cases hs with
  | none _ hn =>
    rw [hsel] at hn
    cases hn
  | declined e k _ he hk hx' =>
    rw [hsel] at he
    cases he
    rw [ht] at hk
    cases hk
    exact absurd hx hx'
  | interrupt e k _ he hk =>
    rw [hsel] at he
    cases he
    rw [ht] at hk
    cases hk
    exact ⟨_, rfl⟩
  | exception e k f hf =>
    rw [hl, hsel] at hf
    rcases hf with hf | ⟨hf, -⟩ <;> cases hf

theorem loopEnd_of_next {s' : State} (hl : atLoopEnd inp s = some s') (hn : Next inp s t) :
    selectTrap (refresh s'.toMachine) = .ret () t.toMachine := by
  rw [Next, iterate_of_atLoopEnd hl] at hn
  exact loopEnd_next hn

theorem saved_of_entry (he : SupervisorEntry inp s mode sie addr) (hn : Next inp s t)
    (hf : (∃ s' ∈ atLoopEnd inp s, ∃ ecode f, Raises (refresh s'.toMachine) ecode f) →
      s.flags = Flags.clear) : Saved mode sie addr t.toMachine := by
  cases he with
  | pageFault ecode va hp ht =>
    obtain ⟨t', hit, hd⟩ := pageFault_delivered hp ht (by decide)
    rw [Next, hit] at hn
    cases hn
    exact hd.saved
  | ecall hc ht hq =>
    obtain ⟨s', hl, hs'⟩ := atLoopEnd_of_ecall hc ht (.inl rfl)
    have hd : Saved s.cp s.csr.mstatus.sie s.pc (refresh s'.toMachine) := by
      rw [hs']
      exact (delivered_ecalled (m := tick inp s.toMachine) ht (.inl rfl)).saved
    rw [hd.selected (hq s' hl) (selectTrap_ret (loopEnd_of_next hl hn))]
    exact hd
  | exception s' ecode f hl hx ht =>
    have hsel := loopEnd_of_next hl hn
    rw [selectTrap_of_raises (m := refresh s'.toMachine) hx ht (.inl rfl)] at hsel
    have hm := (Call.ret.inj hsel).2
    -- the flag is one that this instruction has raised at its own address
    have hpc : s'.pc - 4 = s.pc := by
      rcases atLoopEnd_raised hl (hf ⟨s', hl, ecode, f, hx⟩) with hc | ⟨e, -, -, hpc⟩
      · rcases hx with ⟨h1, -⟩ | ⟨-, -, h1⟩
        · have h1' : s'.flags.ldAccFault = true := h1
          rw [hc] at h1'
          cases h1'
        · have h1' : s'.flags.first = some (ecode, f) := h1
          rw [hc] at h1'
          cases h1'
      · rw [hpc]
        exact BitVec.add_sub_cancel _ _
    rw [← hm, ← hpc]
    exact saved_enter 0 ecode (s'.pc - 4) _ { refresh s'.toMachine with flags := f }
  | interrupt s' ecode hl hi =>
    obtain ⟨pc, hm⟩ := selected_of_takes hi (selectTrap_ret (loopEnd_of_next hl hn))
    rw [hm]
    exact saved_enter 1 ecode s'.pc pc (refresh s'.toMachine)

/-! ### What an instruction of the handler changes -/

structure Kept (m m' : Machine) : Prop where
  cp : m'.cp = m.cp
  sepc : m'.csr.sepc = m.csr.sepc
  spp : m'.csr.mstatus.spp = m.csr.mstatus.spp
  spie : m'.csr.mstatus.spie = m.csr.mstatus.spie
  sie : m'.csr.mstatus.sie = m.csr.mstatus.sie

theorem Kept.refl (m : Machine) : Kept m m := ⟨rfl, rfl, rfl, rfl, rfl⟩

theorem Saved.kept {m m' : Machine} (h : Saved mode sie addr m) (hk : Kept m m') :
    Saved mode sie addr m' :=
  ⟨hk.cp.trans h.cp, hk.sepc.trans h.sepc, hk.spp.trans h.spp, hk.spie.trans h.spie,
    hk.sie.trans h.sie⟩

theorem Effect.kept {m m' : Machine} (he : Effect inp ins m m') (ho : opcode ins ≠ .systm) :
    Kept m m' := by
  have side {m1 : Machine} (hs : LoadSide m m1) : Kept m m1 := by
    rcases hs with rfl | ⟨-, rfl⟩ <;> exact ⟨rfl, rfl, rfl, rfl, rfl⟩
  cases he with
  | load m1 r hs =>
    have hk := side hs
    exact ⟨hk.cp, hk.sepc, hk.spp, hk.spie, hk.sie⟩
  | loadMis m1 va hs =>
    have hk := side hs
    exact ⟨hk.cp, hk.sepc, hk.spp, hk.spie, hk.sie⟩
  | device as m1 hd =>
    refine deviceActs_invariant (P := Kept m) ?_ ?_ hd (Kept.refl m)
    · exact fun _ _ _ hk => ⟨hk.cp, hk.sepc, hk.spp, hk.spie, hk.sie⟩
    · exact fun _ _ _ _ hk => ⟨hk.cp, hk.sepc, hk.spp, hk.spie, hk.sie⟩
  | csr n c r hn hc ha hi => exact absurd hi.1 ho
  | ecall pc m1 hx hs => exact absurd hs ho
  | mret hs => exact absurd hs ho
  | sret hs => exact absurd hs ho
  | _ => exact ⟨rfl, rfl, rfl, rfl, rfl⟩

theorem assign_value_self {c : Csrs} (h : c.InWidth) {n : CsrName}
    (hn : n = .sepc ∨ n = .sstatus ∨ n = .mstatus) : c.assign (c.value n) n = some c := by
  have hm : Mstatus.writeReg c.mstatus.readReg = c.mstatus := Mstatus.writeReg_readReg h.mstatus
  rcases hn with rfl | rfl | rfl
  · rfl
  · have hs : sstatusWriteReg c.mstatus (sstatusReadReg c.mstatus) = c.mstatus := by
      rw [← hm, sstatusReadReg_writeReg, sstatusWriteReg_writeReg, splice_self]
    exact congrArg (fun x => some { c with mstatus := x }) hs
  · exact congrArg (fun x => some { c with mstatus := x }) hm

theorem kept_of_assign {c c' : Csrs} {n : CsrName} {v : Word} (hc : c.assign v n = some c')
    (hn : ¬(n = .sepc ∨ n = .sstatus ∨ n = .mstatus)) :
    c'.sepc = c.sepc ∧ c'.mstatus.spp = c.mstatus.spp ∧ c'.mstatus.spie = c.mstatus.spie ∧
      c'.mstatus.sie = c.mstatus.sie := by
  cases n with
  | sepc => exact absurd (.inl rfl) hn
  | sstatus => exact absurd (.inr (.inl rfl)) hn
  | mstatus => exact absurd (.inr (.inr rfl)) hn
  | cycle => cases hc
  | _ =>
    cases hc
    exact ⟨rfl, rfl, rfl, rfl⟩

theorem ReadsOnly.result {o : CsrOp} {m : Machine} (hr : ReadsOnly ins)
    (h3 : (func3 ins).toNat = o.func3) (h0 : m.regFile 0 = 0) (old : Word) :
    o.result old (o.source ins m) = old := by
  obtain ⟨h1, h5, hs⟩ := hr
  have hreg : m.reg (rs1 ins) = 0 := by
    rw [hs]
    exact h0
  cases o with
  | rw => exact absurd (toNat_eq_iff h3) h1
  | rwi => exact absurd (toNat_eq_iff h3) h5
  | rs =>
    show old ||| m.reg (rs1 ins) = old
    rw [hreg]
    exact BitVec.or_zero
  | rc =>
    show old &&& ~~~m.reg (rs1 ins) = old
    rw [hreg]
    exact BitVec.and_allOnes
  | rsi =>
    show old ||| rs1 ins = old
    rw [hs]
    exact BitVec.or_zero
  | rci =>
    show old &&& ~~~rs1 ins = old
    rw [hs]
    exact BitVec.and_allOnes

/-- A CSR instruction of the handler writes none of the three registers, or writes back what it has
read. -/
theorem kept_of_atomic {o : CsrOp} {m m' : Machine} (ha : CsrAtomic o inp ins m m')
    (h3 : (func3 ins).toNat = o.func3) (h0 : m.regFile 0 = 0) (hw : m.csr.InWidth)
    (hr : imm11_0 ins = CsrName.sepc.addr ∨ imm11_0 ins = CsrName.sstatus.addr ∨
      imm11_0 ins = CsrName.mstatus.addr → ReadsOnly ins) : Kept m m' := by
  rcases ha with rfl | ⟨old, c, hread, honly, hwrite, -, hm⟩
  · exact ⟨rfl, rfl, rfl, rfl, rfl⟩
  · rw [hm]
    by_cases ho : o.OnlyReads (imm11_0 ins)
    · rw [honly ho]
      exact ⟨rfl, rfl, rfl, rfl, rfl⟩
    · obtain ⟨n, hn, hc⟩ := Option.bind_eq_some_iff.mp (hwrite ho)
      have haddr := CsrName.addr_of_ofAddr hn
      by_cases hs : n = .sepc ∨ n = .sstatus ∨ n = .mstatus
      · -- the operand is zero, so the value read is written back
        have hro : ReadsOnly ins := by
          apply hr
          rw [← haddr]
          rcases hs with rfl | rfl | rfl
          · exact .inl rfl
          · exact .inr (.inl rfl)
          · exact .inr (.inr rfl)
        have hold : old = m.csr.value n := by
          unfold csrRead at hread
          rw [hn] at hread
          dsimp only at hread
          split at hread
          · exact (Prod.mk.inj hread).1.symm
          · cases hread
        rw [hro.result h3 h0, hold, assign_value_self hw hs] at hc
        cases hc
        exact ⟨rfl, rfl, rfl, rfl, rfl⟩
      · obtain ⟨hsepc, hspp, hspie, hsie⟩ := kept_of_assign hc hs
        exact ⟨rfl, hsepc, hspp, hspie, hsie⟩

theorem armSystm_of_not_csr {s' : State} (ho : opcode ins = .systm) (hc : ¬ IsCsr ins)
    (hx : armSystm inp ins s = .fall s') :
    (func3 ins = 0 ∧ privileged ins s = .fall s') ∨ s' = s := by
  by_cases h0 : func3 ins = 0
  · left
    unfold armSystm at hx
    rw [h0] at hx
    exact ⟨h0, hx⟩
  · right
    have h4 : func3 ins = 0b100 := by
      by_contra h4
      exact hc ⟨ho, h0, h4⟩
    unfold armSystm at hx
    rw [h4] at hx
    cases hx
    rfl

theorem kept_of_fall {s' : State} (hg : HandlerStep inp u) (hw : u.csr.InWidth)
    (hl : atLoopEnd inp u = some s') : Kept (switchMachine inp u) s'.toMachine := by
  obtain ⟨ins, hf, he⟩ := atLoopEnd_effect hl
  have hx := execute_of_atLoopEnd hl hf
  by_cases ho : opcode ins = .systm
  · rw [execute_systm ho] at hx
    by_cases hc : IsCsr ins
    · obtain ⟨o, h3⟩ := hc.exists_op
      obtain ⟨t', ht', ha⟩ := @armSystm_atomic inp ins o h3
        (decoded { u with toMachine := tick inp u.toMachine })
      rw [ht'] at hx
      cases hx
      exact kept_of_atomic ha h3 (Function.update_self 0 0 u.regFile) { hw with }
        (hg.write ins (mem_word?.mpr hf) hc)
    · -- of the privileged instructions only the ones without an effect are left
      rcases armSystm_of_not_csr ho hc hx with ⟨h3, hp⟩ | rfl
      · have hret := hg.xret ins (mem_word?.mpr hf)
        unfold privileged at hp
        split at hp
        · rename_i hi
          exact absurd ⟨ins, hf, ho, congrArg BitVec.toNat h3, hi⟩ hg.ecall
        · cases hp
          exact ⟨rfl, rfl, rfl, rfl, rfl⟩
        · rename_i hi
          exact absurd ⟨ho, h3, toNat_eq_iff hi⟩ hret.1
        · rename_i hi
          exact absurd ⟨ho, h3, toNat_eq_iff hi⟩ hret.2
        · cases hp
        · cases hp
          exact Kept.refl _
      · exact Kept.refl _
  · exact he.kept ho

/-! ### Steps of the handler -/

theorem pageFault_of_fetch (hf : fetch (tick inp s.toMachine) = .fault) :
    PageFault inp s causeFetchPageFault s.pc := by
  unfold fetch at hf
  split at hf
  · cases hf
  · rename_i pa ht
    split at hf
    · cases hf
    · rename_i hu
      split at hf
      · rename_i hpa
        subst hpa
        exact .fetch hu ht
      · split at hf
        · split at hf <;> cases hf
        · cases hf

theorem pageFault_of_cont (hf : fetch (tick inp s.toMachine) = .word ins)
    (hx : execute inp ins (decoded { s with toMachine := tick inp s.toMachine }) = .cont t) :
    t = decoded { s with toMachine := tick inp s.toMachine } ∨
      ∃ ecode va, PageFault inp s ecode va := by
  unfold execute at hx
  split at hx
  case h_6 ho =>
    obtain ⟨-, hq, ht⟩ := armLoad_cont hx
    exact .inr ⟨_, _, .load ins _ hf ho rfl hq ht⟩
  case h_7 ho =>
    obtain ⟨-, hq, ht⟩ := armStore_cont hx
    exact .inr ⟨_, _, .store ins _ hf ho rfl hq ht⟩
  case h_10 => exact absurd hx armRops_cont
  case h_11 => exact absurd hx armRops64_cont
  case h_12 ho =>
    obtain ⟨-, h3, ht⟩ := armAmo_cont hx
    exact .inr ⟨_, _, .amo ins _ hf ho h3 rfl ht⟩
  case h_13 =>
    cases hx
    exact .inl rfl
  case h_14 => exact absurd hx armSystm_cont
  all_goals cases hx

theorem saved_step (hg : HandlerStep inp u) (hw : u.csr.InWidth)
    (hs : Saved mode sie addr u.toMachine) (hn : Next inp u t) : Saved mode sie addr t.toMachine := by
  have hsw : Saved mode sie addr (switchMachine inp u) := ⟨hs.cp, hs.sepc, hs.spp, hs.spie, hs.sie⟩
  cases hl : atLoopEnd inp u with
  | some s' =>
    have hs' := (hsw.kept (kept_of_fall hg hw hl)).refresh
    rw [hs'.selected (hg.trap s' hl) (selectTrap_ret (loopEnd_of_next hl hn))]
    exact hs'
  | none =>
    -- a fence, since the handler takes no page fault
    unfold Next iterate at hn
    dsimp only at hn
    split at hn
    · cases hn
    · rename_i hf
      exact absurd (pageFault_of_fetch hf) (hg.fault _ _)
    · rename_i ins hf
      split at hn
      · cases hn
      · rename_i t' hx
        cases hn
        rcases pageFault_of_cont hf hx with rfl | ⟨ecode, va, hp⟩
        · exact hsw
        · exact absurd hp (hg.fault ecode va)
      · rename_i s' hx
        rw [atLoopEnd_of_word hf hx] at hl
        cases hl

theorem saved_run {js : List Input} (hr : Run (Guarded HandlerStep Next) t js u)
    (hw : t.csr.InWidth) (hs : Saved mode sie addr t.toMachine) :
    u.csr.InWidth ∧ Saved mode sie addr u.toMachine :=
  Run.invariant (P := fun u => u.csr.InWidth ∧ Saved mode sie addr u.toMachine) ⟨hw, hs⟩
    (fun inp u _ h hn => ⟨(inWidth_control inp u).turn (next_turn hn.2) h.1,
      saved_step hn.1 h.1 h.2 hn.2⟩) hr

theorem sret_restores (hs : Saved mode sie addr u.toMachine)
    (hf : fetch (tick inp u.toMachine) = .word ins) (hi : IsSret ins) :
    ∃ s', atLoopEnd inp u = some s' ∧ s'.pc = addr ∧ s'.cp = mode ∧ s'.csr.mstatus.sie = sie := by
  refine ⟨_, atLoopEnd_of_word hf (sret_falls inp (switchState inp u) hi), hs.sepc, ?_, hs.spie⟩
  show Plevel.ofByte u.csr.mstatus.spp = mode
  rw [hs.spp]
  cases mode <;> rfl

/-- Every supervisor trap is a round trip, if no flag was left set at the top of the iteration that
takes the exception of a flag. -/
theorem supervisor_trap_round_trip {image : Memory} {time : Word} {is : List Input}
    (h : Run Next (boot image time) is s) (hn : Next inp s t)
    (he : SupervisorEntry inp s mode sie addr)
    (hf : (∃ s' ∈ atLoopEnd inp s, ∃ ecode f, Raises (refresh s'.toMachine) ecode f) →
      s.flags = Flags.clear) : RoundTrip mode sie addr t := by
  have hw : t.csr.InWidth := inWidth_of_reachable (h.next hn)
  intro js u hr inp
  -- the handler keeps what the entry has saved, at every one of its instructions
  obtain ⟨hwu, hs⟩ := saved_run hr hw (saved_of_entry he hn hf)
  refine ⟨fun hg s' hl ecode => ?_, fun ins hfi hi => sret_restores hs hfi hi⟩
  have hsw : Saved mode sie addr (switchMachine inp u) := ⟨hs.cp, hs.sepc, hs.spp, hs.spie, hs.sie⟩
  exact (hsw.kept (kept_of_fall hg hwu hl)).refresh.no_interrupt ecode

theorem noOtherTrap_of_clear {m : Machine} (hf : m.flags = Flags.clear)
    (hi : selectInterrupt m.csr = none) : NoOtherTrap m := by
  constructor
  · rintro ecode f (⟨h, -⟩ | ⟨-, -, h⟩) <;> (rw [hf] at h; cases h)
  · rintro ecode ⟨-, h, -⟩
    rw [hi] at h
    cases h

theorem handlerStep_of_iops (hf : fetch (tick inp u.toMachine) = .word ins) (ho : opcode ins = .iops)
    (hq : ∀ s' ∈ atLoopEnd inp u, NoOtherTrap (refresh s'.toMachine)) : HandlerStep inp u := by
  have other {ins' : Word} (hf' : fetch (tick inp u.toMachine) = .word ins') :
      opcode ins' = .iops := by
    cases hf.symm.trans hf'
    exact ho
  refine ⟨fun ecode va hp => ?_, ?_, hq, fun ins' hw => ?_, fun ins' hw hc => ?_⟩
  · cases hp with
    | fetch hu ht => cases hf.symm.trans (fetch_of_fault hu ht)
    | load ins' va hf' ho' => cases (other hf').symm.trans ho'
    | store ins' va hf' ho' => cases (other hf').symm.trans ho'
    | amo ins' va hf' ho' => cases (other hf').symm.trans ho'
  · rintro ⟨ins', hf', ho', -⟩
    cases (other hf').symm.trans ho'
  · have ho' := other (mem_word?.mp hw)
    exact ⟨fun h => absurd (ho'.symm.trans h.1) (by decide),
      fun h => absurd (ho'.symm.trans h.1) (by decide)⟩
  · cases (other (mem_word?.mp hw)).symm.trans hc.1

/-- `addi x1, x0, 256`; `csrrw x0, medeleg, x1`; `auipc x3, 0`; `addi x3, x3, 24`;
`csrrw x0, mepc, x3`; `addi x4, x3, 4`; `csrrw x0, stvec, x4`; `mret` into user mode; there `ecall`;
and the handler, `addi x5, x0, 1` and an `sret`. -/
def supervisorCallProgram : List Word :=
  [0x10000093, 0x30209073, 0x00000197, 0x01818193, 0x34119073, 0x00418213, 0x10521073, 0x30200073,
    0x00000073, 0x00100293, 0x10200073]

/-- An `ecall` of user mode that is delegated to supervisor mode, the `addi` of its handler, and the
return. -/
theorem supervisor_trap_round_trip_ecall :
    ∃ s t u s' : State, s.cp = .umode ∧ IsEcall (quiet 0) s ∧ Next (quiet 0) s t ∧
      t.cp = .smode ∧ Next (quiet 0) t u ∧ u.reg 5 = 1 ∧ atLoopEnd (quiet 0) u = some s' ∧
      s'.pc = s.pc ∧ s'.cp = .umode ∧ s'.csr.mstatus.sie = s.csr.mstatus.sie := by
  obtain ⟨s, hr, hs⟩ := exists_run (boot (imageOf supervisorCallProgram) 0)
    (List.replicate 8 (quiet 0))
    (fun s => decide (s.cp = .umode ∧ fetch (tick (quiet 0) s.toMachine) = .word 0x73 ∧
      trapModeSelect (ecallCause s.cp) false s.cp s.csr = some .smode ∧
      (∀ s' ∈ atLoopEnd (quiet 0) s, s'.flags = Flags.clear ∧
        selectInterrupt (refresh s'.toMachine).csr = none) ∧
      (next? (quiet 0) s).any fun t =>
        t.cp = .smode ∧ fetch (tick (quiet 0) t.toMachine) = .word 0x00100293 ∧
        (∀ t' ∈ atLoopEnd (quiet 0) t, t'.flags = Flags.clear ∧
          selectInterrupt (refresh t'.toMachine).csr = none) ∧
        (next? (quiet 0) t).any fun u =>
          u.reg 5 = 1 ∧ fetch (tick (quiet 0) u.toMachine) = .word 0x10200073))
    (by decide +kernel)
  obtain ⟨hcp, hf, hm, hq, hany⟩ := of_decide_eq_true hs
  obtain ⟨t, hn, ht⟩ := (Option.any_eq_true _ _).mp hany
  obtain ⟨htcp, htf, htq, hany⟩ := of_decide_eq_true ht
  obtain ⟨u, hnu, hu⟩ := (Option.any_eq_true _ _).mp hany
  obtain ⟨hx5, huf⟩ := of_decide_eq_true hu
  have hc : IsEcall (quiet 0) s := ⟨0x73, hf, rfl, rfl, rfl⟩
  have hquiet : ∀ s' ∈ atLoopEnd (quiet 0) s, NoOtherTrap (refresh s'.toMachine) :=
    fun s' hl => noOtherTrap_of_clear (hq s' hl).1 (hq s' hl).2
  have hstep : HandlerStep (quiet 0) t := handlerStep_of_iops htf rfl fun t' hl =>
    noOtherTrap_of_clear (htq t' hl).1 (htq t' hl).2
  have hround := supervisor_trap_round_trip hr (next_of_next? hn) (.ecall hc hm hquiet)
    (by
      rintro ⟨s', hl, ecode, f, hx⟩
      exact absurd hx ((hquiet s' hl).1 ecode f))
  have hhandler : Run (Guarded HandlerStep Next) t [quiet 0] u :=
    Run.start.next ⟨hstep, next_of_next? hnu⟩
  obtain ⟨s', hl, hpc, hmode, hsie⟩ := (hround _ u hhandler (quiet 0)).2 _ huf (by decide)
  exact ⟨s, t, u, s', hcp, hc, next_of_next? hn, htcp, next_of_next? hnu, hx5, hl, hpc,
    hmode.trans hcp, hsie⟩

/-- `csrrwi mstatus, 0`; `csrrwi medeleg, 4`; `addi x1, x0, 32`; `csrrw x0, mie, x1`;
`lui x2, 0x2004`; `sd x1, 0(x2)`; `auipc x3, 0`; `addi x3, x3, 24`; `csrrw x0, sepc, x3`;
`addi x4, x3, 12`; `csrrw x0, stvec, x4`; `sret` into user mode; there a word that is no instruction;
`jal x0, 8`; `nop`; and the handler, an `sret`. -/
def leftoverJumpProgram : List Word :=
  [0x30005073, 0x30225073, 0x02000093, 0x30409073, 0x02004137, 0x00113023, 0x00000197, 0x01818193,
    0x14119073, 0x00c18213, 0x10521073, 0x10200073, 0x00000007, 0x0080006f, 0x00000013, 0x10200073]

/-- The flag of the illegal word is delivered with the jump, and the return goes to neither. -/
theorem supervisor_trap_not_round_trip :
    ¬ ∀ (image : Memory) (time : Word) (is : List Input) (inp : Input) (s t : State)
      (mode : Plevel) (sie : Byte) (addr : Word), Run Next (boot image time) is s →
      Next inp s t → SupervisorEntry inp s mode sie addr → RoundTrip mode sie addr t := by
  intro h
  obtain ⟨s, hr, hs⟩ := exists_run (boot (imageOf leftoverJumpProgram) 0)
    ((List.replicate 12 (quiet 0)) ++ [quiet 4])
    (fun s => decide (((atLoopEnd (quiet 0) s).any fun s' =>
        s'.flags.ldAccFault = false ∧ selectInterrupt (refresh s'.toMachine).csr = none ∧
        s'.flags.first = some (causeIllegalInstruction, Flags.clear) ∧
        trapModeSelect causeIllegalInstruction false s'.cp s'.csr = some .smode) ∧
      (next? (quiet 0) s).any fun t =>
        fetch (tick (quiet 0) t.toMachine) = .word 0x10200073 ∧
        ∀ s'' ∈ atLoopEnd (quiet 0) t, s''.pc ≠ s.pc)) (by decide +kernel)
  obtain ⟨hentry, hany⟩ := of_decide_eq_true hs
  obtain ⟨s', hl, hs'⟩ := (Option.any_eq_true _ _).mp hentry
  obtain ⟨hacc, hi, hfirst, hm⟩ := of_decide_eq_true hs'
  obtain ⟨t, hn, ht⟩ := (Option.any_eq_true _ _).mp hany
  obtain ⟨htf, hne⟩ := of_decide_eq_true ht
  have hround := h _ _ _ _ _ _ _ _ _ hr (next_of_next? hn)
    (.exception s' _ _ hl (.inr ⟨hacc, hi, hfirst⟩) hm)
  obtain ⟨s'', hl'', hpc, -⟩ := (hround [] t .start (quiet 0)).2 _ htf (by decide)
  exact hne s'' hl'' hpc

end RiscvEmu
