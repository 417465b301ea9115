import RiscvEmu.Control
import RiscvEmu.CsrWellFormed
import RiscvEmu.CsrInstructions
import RiscvEmu.PreciseTraps

/-! Confinement of user and supervisor mode: which registers a step may change and when it may raise
the privilege. `csr_read` checks the privilege for `mstatus` and `sstatus` only, `csr_write`, `mret`
and `sret` not at all. -/

namespace RiscvEmu

open Runs

variable {inp : Input} {ins : Word} {cp : Plevel}

/-- Bits 9 to 8 of the register number name a privilege above `cp`. -/
def TooLow (cp : Plevel) (a : Word) : Prop := cp.code.toNat < ((a >>> 8) &&& 0b11).toNat

instance (cp : Plevel) (a : Word) : Decidable (TooLow cp a) := inferInstanceAs (Decidable (_ < _))

def Plevel.Less (cp : Plevel) : Prop := cp = .umode ∨ cp = .smode

def CsrName.shared : CsrName → Bool
  | .mstatus | .sstatus | .ustatus | .mip | .sip | .mie | .sie => true
  | _ => false

def CsrName.trap : CsrName → Bool
  | .mepc | .sepc | .uepc | .mcause | .scause | .ucause | .mtval | .stval | .utval => true
  | _ => false

/-- The fields of `mstatus` above a privilege; `SD` follows `FS` on every iteration. -/
def Mstatus.above (cp : Plevel) (m : Mstatus) : Mstatus :=
  let m := { m with uie := 0, upie := 0, sd := 0 }
  if cp = .smode then
    { m with sie := 0, spie := 0, spp := 0, fs := 0, xs := 0, sum := 0, mxr := 0, uxl := 0 }
  else m

def Mstatus.unstacked (m : Mstatus) : Mstatus :=
  { m with sie := 0, spie := 0, spp := 0, mie := 0, mpie := 0, mpp := 0 }

def Mie.above (cp : Plevel) (e : Mie) : Mie :=
  let e := { e with ueie := 0, utie := 0, usie := 0 }
  if cp = .smode then { e with seie := 0, stie := 0, ssie := 0 } else e

/-- The fields of `mip` above a privilege; the platform drives `SEIP` and `STIP`. -/
def Mip.above (cp : Plevel) (p : Mip) : Mip :=
  let p := { p with ueip := 0, utip := 0, usip := 0, seip := 0, stip := 0 }
  if cp = .smode then { p with ssip := 0 } else p

structure Confined (cp : Plevel) (c c' : Csrs) : Prop where
  value : ∀ n : CsrName, TooLow cp n.addr → n.shared = false → c'.value n = c.value n
  mstatus : c'.mstatus.above cp = c.mstatus.above cp
  mie : c'.mie.above cp = c.mie.above cp
  mip : c'.mip.above cp = c.mip.above cp

/-- A trap entry into `h`: it sets the program counter to the `tvec` base, and above the old
privilege it changes nothing but the trap registers and the stacks of `mstatus`. -/
structure Trapped (h : Plevel) (m m' : Machine) : Prop where
  handles : h.handles
  cp : m'.cp = h
  pc : m'.pc = (m'.csr.tvec h).base
  xie : m'.csr.xie h = 0
  value : ∀ n : CsrName, TooLow m.cp n.addr → n.shared = false → n.trap = false →
    m'.csr.value n = m.csr.value n
  mstatus : (m'.csr.mstatus.above m.cp).unstacked = (m.csr.mstatus.above m.cp).unstacked
  mie : m'.csr.mie.above m.cp = m.csr.mie.above m.cp
  mip : m'.csr.mip.above m.cp = m.csr.mip.above m.cp

def Refused (ins : Word) (cp : Plevel) : Prop :=
  (IsCsr ins ∧ TooLow cp (imm11_0 ins)) ∨ (IsMret ins ∧ cp ≠ .mmode) ∨ (IsSret ins ∧ cp = .umode)

structure ConfinedStep (inp : Input) (s t : State) : Prop where
  csr : (∃ h, Trapped h s.toMachine t.toMachine) ∨
    (t.cp.code ≤ s.cp.code ∧ Confined s.cp s.csr t.csr)
  refused : ∀ ins, fetch (tick inp s.toMachine) = .word ins → Refused ins s.cp →
    ∃ h : Plevel, h.handles ∧
      t.toMachine = enter h 0 causeIllegalInstruction s.pc (s.csr.tvec h).base
        (refresh (setMtval (advance (tick inp s.toMachine)) ins))

/-! ### The condition -/

/-- The written value leaves alone what the view shares with a privilege above the current one. -/
def keepsAbove (cp : Plevel) (c : Csrs) (v : Word) : CsrName → Bool
  | .ustatus => (ustatusWriteReg c.mstatus v).above cp = c.mstatus.above cp
  | .sip => (Mip.writeReg v).above cp = c.mip.above cp
  | .sie => (Mie.writeReg v).above cp = c.mie.above cp
  | _ => true

/-- The instruction is no insufficiently privileged access that `csr_read` lets through, no write of
a privileged bit through a view, and no return from a mode above the current one. -/
def Permits (ins : Word) (m : Machine) : Prop :=
  (IsCsr ins → ∀ n ∈ CsrName.ofAddr (imm11_0 ins),
    (TooLow m.cp n.addr → n = .mstatus ∨ n = .sstatus) ∧
      keepsAbove m.cp m.csr (csrOperand ins m (m.csr.value n)) n) ∧
  ¬(IsMret ins ∧ m.cp ≠ .mmode) ∧ ¬(IsSret ins ∧ m.cp = .umode)

instance (ins : Word) (m : Machine) : Decidable (Permits ins m) :=
  inferInstanceAs (Decidable ((_ → ∀ _ ∈ _, (_ → _) ∧ _) ∧ _))

/-- An interrupt that is taken finds no reserved `tvec` mode. -/
def Vectors (m : Machine) : Prop :=
  ∀ e ∈ selectInterrupt m.csr, ∀ h ∈ trapModeSelect e true m.cp m.csr,
    m.csr.xie h = 1 → (m.csr.tvec h).mode = 0 ∨ (m.csr.tvec h).mode = 1

instance (m : Machine) : Decidable (Vectors m) :=
  Option.decidableForallMem (selectInterrupt m.csr)

def Permitted (inp : Input) (s : State) : Prop :=
  Undisturbed inp s ∧ (∀ s' ∈ atLoopEnd inp s, Vectors (refresh s'.toMachine)) ∧
    ∀ ins ∈ (fetch (tick inp s.toMachine)).word?, Permits ins (advance (tick inp s.toMachine))

instance (inp : Input) (s : State) : Decidable (Permitted inp s) :=
  haveI := Option.decidableForallMem (p := (Permits · (advance (tick inp s.toMachine))))
    (fetch (tick inp s.toMachine)).word?
  inferInstanceAs (Decidable (_ ∧ (∀ _ ∈ _, _) ∧ _))

/-! ### What is above a privilege -/

def Csrs.above (cp : Plevel) (c : Csrs) : Csrs :=
  let c := { c with
    mstatus := c.mstatus.above cp
    mie := c.mie.above cp
    mip := c.mip.above cp
    uepc := 0
    utvec := ⟨0, 0⟩
    ucause := ⟨0, 0⟩
    utval := 0
    cycle := 0
    timeCsr := 0
    instret := 0 }
  if cp = .smode then
    { c with
      sscratch := 0
      sedeleg := 0
      sideleg := 0
      sepc := 0
      stvec := ⟨0, 0⟩
      scause := ⟨0, 0⟩
      satp := ⟨0, 0, 0⟩
      stval := 0
      scounteren := 0 }
  else c

def Csrs.unstacked (c : Csrs) : Csrs :=
  { c with
    mstatus := c.mstatus.unstacked
    mepc := 0
    sepc := 0
    uepc := 0
    mcause := ⟨0, 0⟩
    scause := ⟨0, 0⟩
    ucause := ⟨0, 0⟩
    mtval := 0
    stval := 0
    utval := 0 }

theorem value_above (hcp : cp.Less) {c : Csrs} {n : CsrName} (hn : TooLow cp n.addr)
    (hs : n.shared = false) : (c.above cp).value n = c.value n := by
  rcases hcp with rfl | rfl <;> cases n <;>
    first | exact absurd hs Bool.noConfusion | exact absurd hn (by decide +kernel) | rfl

theorem value_unstacked {c : Csrs} {n : CsrName} (hs : n.shared = false) (ht : n.trap = false) :
    c.unstacked.value n = c.value n := by
  cases n <;>
    first | exact absurd hs Bool.noConfusion | exact absurd ht Bool.noConfusion | rfl

theorem confined_of_above (hcp : cp.Less) {c c' : Csrs} (h : c'.above cp = c.above cp) :
    Confined cp c c' where
  value n hn hs := by rw [← value_above hcp hn hs, h, value_above hcp hn hs]
  mstatus := by
    have hm := congrArg Csrs.mstatus h
    rcases hcp with rfl | rfl <;> exact hm
  mie := by
    have hm := congrArg Csrs.mie h
    rcases hcp with rfl | rfl <;> exact hm
  mip := by
    have hm := congrArg Csrs.mip h
    rcases hcp with rfl | rfl <;> exact hm

theorem not_readable (hcp : cp.Less) {n : CsrName} (ht : TooLow cp n.addr)
    (hn : n = .mstatus ∨ n = .sstatus) : readable cp n = false := by
  rcases hn with rfl | rfl <;> rcases hcp with rfl | rfl <;>
    first | rfl | exact absurd ht (by decide)

theorem assign_above (hcp : cp.Less) {c c' : Csrs} {n : CsrName} {v : Word}
    (hc : c.assign v n = some c') (hn : ¬ TooLow cp n.addr) (hk : keepsAbove cp c v n = true) :
    c'.above cp = c.above cp := by
  cases n with
  | ustatus =>
    cases hc
    have hm := of_decide_eq_true hk
    simp only [Csrs.above, hm]
  | sip =>
    cases hc
    have hm := of_decide_eq_true hk
    simp only [Csrs.above, hm]
  | sie =>
    cases hc
    have hm := of_decide_eq_true hk
    simp only [Csrs.above, hm]
  | pmpaddr i => exact absurd (by clear hc hn hk; rcases hcp with rfl | rfl <;> revert i <;> decide) hn
  | pmpcfg i => exact absurd (by clear hc hn hk; rcases hcp with rfl | rfl <;> revert i <;> decide) hn
  | _ =>
    rcases hcp with rfl | rfl <;>
      first | exact absurd (by decide +kernel) hn | (cases hc <;> rfl)

theorem above_loadSide (hcp : cp.Less) {m m' : Machine} (h : LoadSide m m') :
    m'.cp = m.cp ∧ m'.csr.above cp = m.csr.above cp := by
  rcases h with rfl | ⟨-, rfl⟩
  · exact ⟨rfl, rfl⟩
  · exact ⟨rfl, by rcases hcp with rfl | rfl <;> rfl⟩

theorem above_device (hcp : cp.Less) {as : List DeviceAct} {m m' : Machine}
    (h : deviceActs as m = .ret () m') : m'.cp = m.cp ∧ m'.csr.above cp = m.csr.above cp := by
  refine deviceActs_invariant (P := fun x => x.cp = m.cp ∧ x.csr.above cp = m.csr.above cp)
    (fun _ _ _ h => h) (fun x p b _ hx => ⟨hx.1, Eq.trans ?_ hx.2⟩) h ⟨rfl, rfl⟩
  rcases hcp with rfl | rfl <;> rfl

theorem unstacked_setMtval (hcp : cp.Less) (m : Machine) (v : Word) :
    ((setMtval m v).csr.above cp).unstacked = (m.csr.above cp).unstacked := by
  rcases hcp with rfl | rfl <;> rfl

theorem unstacked_enter (hcp : cp.Less) {h : Plevel} (hh : h.handles) (i : Byte)
    (e epc pc : Word) (m : Machine) :
    ((enter h i e epc pc m).csr.above cp).unstacked = (m.csr.above cp).unstacked := by
  rcases hcp with rfl | rfl <;> rcases hh with rfl | rfl <;> rfl

theorem enter_xie {h : Plevel} (hh : h.handles) (i : Byte) (e epc pc : Word) (m : Machine) :
    (enter h i e epc pc m).csr.xie h = 0 := by
  rcases hh with rfl | rfl <;> rfl

theorem enter_tvec {h k : Plevel} (hh : h.handles) (i : Byte) (e epc pc : Word) (m : Machine) :
    (enter h i e epc pc m).csr.tvec k = m.csr.tvec k := by
  rcases hh with rfl | rfl <;> cases k <;> rfl

structure InHandler (cp h : Plevel) (c : Csrs) (m' : Machine) : Prop where
  handles : h.handles
  mode : m'.cp = h
  pc : m'.pc = (m'.csr.tvec h).base
  xie : m'.csr.xie h = 0
  unstacked : (m'.csr.above cp).unstacked = (c.above cp).unstacked

theorem InHandler.trapped {h : Plevel} {m m' : Machine} (hcp : m.cp.Less)
    (hi : InHandler m.cp h m.csr m') : Trapped h m m' where
  handles := hi.handles
  cp := hi.mode
  pc := hi.pc
  xie := hi.xie
  value n hn hs ht := by
    rw [← value_above hcp hn hs, ← value_unstacked hs ht, hi.unstacked, value_unstacked hs ht,
      value_above hcp hn hs]
  mstatus := by
    have hm := congrArg Csrs.mstatus hi.unstacked
    rcases hcp with hc | hc <;> rw [hc] at hm ⊢ <;> exact hm
  mie := by
    have hm := congrArg Csrs.mie hi.unstacked
    rcases hcp with hc | hc <;> rw [hc] at hm ⊢ <;> exact hm
  mip := by
    have hm := congrArg Csrs.mip hi.unstacked
    rcases hcp with hc | hc <;> rw [hc] at hm ⊢ <;> exact hm

theorem inHandler_enter {h : Plevel} {c : Csrs} {m : Machine} (hcp : cp.Less) (hh : h.handles)
    (hu : (m.csr.above cp).unstacked = (c.above cp).unstacked) (i : Byte) (e epc : Word) :
    InHandler cp h c (enter h i e epc (m.csr.tvec h).base m) where
  handles := hh
  mode := enter_cp _ _ _ _ _ hh
  pc := by rw [enter_pc, enter_tvec hh]
  xie := enter_xie hh _ _ _ _ _
  unstacked := (unstacked_enter hcp hh i e epc _ m).trans hu

/-- `spp` holds one bit, as every write to it ensures. -/
def SppBit (c : Csrs) : Prop := c.mstatus.spp = 0 ∨ c.mstatus.spp = 1

theorem sret_rank {m : Machine} (hm : m.cp = .smode) (hs : SppBit m.csr) :
    (sret m).cp.code ≤ m.cp.code := by
  rw [hm]
  show (Plevel.ofByte m.csr.mstatus.spp).code ≤ _
  rcases hs with hs | hs <;> rw [hs] <;> decide

/-- What a permitted instruction below machine mode does before the trap selection: nothing above
its privilege, or it raises a flag, or it is an `ecall`. -/
theorem Effect.confined {m m' : Machine} (he : Effect inp ins m m') (hcp : m.cp.Less)
    (hs : SppBit m.csr) (hp : Permits ins m) :
    (m'.cp.code ≤ m.cp.code ∧ m'.csr.above m.cp = m.csr.above m.cp) ∨
      (m'.cp = m.cp ∧ m'.flags ≠ Flags.clear ∧
        (m'.csr.above m.cp).unstacked = (m.csr.above m.cp).unstacked) ∨
      ∃ h, InHandler m.cp h m.csr m' := by
  cases he with
  | load m1 r h =>
    obtain ⟨hc, ha⟩ := above_loadSide hcp h
    exact .inl ⟨by rw [hc]; exact BitVec.le_refl _, ha⟩
  | loadMis m1 va h =>
    obtain ⟨hc, ha⟩ := above_loadSide hcp h
    refine .inr (.inl ⟨hc, fun hf => ?_, ?_⟩)
    · exact absurd (congrArg Flags.ldAddrMissalig hf) Bool.noConfusion
    · rw [unstacked_setMtval hcp]
      exact congrArg Csrs.unstacked ha
  | timecmp v =>
    refine .inl ⟨BitVec.le_refl _, ?_⟩
    rcases hcp with hc | hc <;> rw [hc] <;> rfl
  | complete =>
    refine .inl ⟨BitVec.le_refl _, ?_⟩
    rcases hcp with hc | hc <;> rw [hc] <;> rfl
  | device as m1 h =>
    obtain ⟨hc, ha⟩ := above_device hcp h
    exact .inl ⟨by rw [hc]; exact BitVec.le_refl _, ha⟩
  | amoMis va r =>
    exact .inr (.inl ⟨rfl, fun hf => absurd (congrArg Flags.storeAddrMissalig hf) Bool.noConfusion,
      unstacked_setMtval hcp _ _⟩)
  | scMis w va pa r =>
    exact .inr (.inl ⟨rfl, fun hf => absurd (congrArg Flags.storeAddrMissalig hf) Bool.noConfusion,
      unstacked_setMtval hcp _ _⟩)
  | illegal r =>
    exact .inr (.inl ⟨rfl, fun hf => absurd (congrArg Flags.illIns hf) Bool.noConfusion,
      unstacked_setMtval hcp _ _⟩)
  | ebreak => exact .inr (.inl ⟨rfl, fun hf => absurd (congrArg Flags.ebreak hf) Bool.noConfusion, rfl⟩)
  | csr n c r hr hc ha ho =>
    obtain ⟨hn, hk⟩ := hp.1 ho n (by rw [← ha, CsrName.ofAddr_addr]; rfl)
    -- `csr_read` has refused the register if the number names a mode above
    have hlow : ¬ TooLow m.cp n.addr := fun ht => by
      rw [not_readable hcp ht (hn ht)] at hr
      cases hr
    exact .inl ⟨BitVec.le_refl _, assign_above hcp hc hlow hk⟩
  | ecall pc m1 h ho =>
    obtain ⟨k, e, epc, hk, -, rfl, rfl⟩ := excepFunction_enters h
    have hi := inHandler_enter (m := m) hcp hk rfl 0 e epc
    refine .inr (.inr ⟨k, ?_⟩)
    rcases hk with rfl | rfl <;> exact hi
  | mret ho hi =>
    refine absurd ⟨⟨ho, hi.1, hi.2⟩, fun hm => ?_⟩ hp.2.1
    rcases hcp with hc | hc <;> rw [hc] at hm <;> cases hm
  | sret ho hi =>
    rcases hcp with hc | hc
    · exact absurd ⟨⟨ho, hi.1, hi.2⟩, hc⟩ hp.2.2
    · refine .inl ⟨sret_rank hc hs, ?_⟩
      rw [hc]
      rfl
  | _ => exact .inl ⟨BitVec.le_refl _, rfl⟩

/-! ### The step -/

theorem above_advance (hcp : cp.Less) (m : Machine) :
    (advance (tick inp m)).csr.above cp = m.csr.above cp := by
  rcases hcp with rfl | rfl <;> rfl

theorem above_refresh (hcp : cp.Less) (m : Machine) :
    (refresh m).csr.above cp = m.csr.above cp := by
  rcases hcp with rfl | rfl <;> rfl

theorem inHandler_fetchFaulted {h : Plevel} {m : Machine} (hcp : cp.Less) (hh : h.handles) :
    InHandler cp h m.csr (fetchFaulted h (tick inp m)) := by
  rcases hh with rfl | rfl
  · exact ⟨.inl rfl, rfl, rfl, rfl, by rcases hcp with rfl | rfl <;> rfl⟩
  · exact ⟨.inr rfl, rfl, rfl, rfl, by rcases hcp with rfl | rfl <;> rfl⟩

theorem inHandler_faulted {h : Plevel} {m : Machine} (hcp : cp.Less) (hh : h.handles)
    (ecode va : Word) : InHandler cp h m.csr (faulted h ecode va (advance (tick inp m))) := by
  rcases hh with rfl | rfl
  · exact ⟨.inl rfl, rfl, rfl, rfl, by rcases hcp with rfl | rfl <;> rfl⟩
  · exact ⟨.inr rfl, rfl, rfl, rfl, by rcases hcp with rfl | rfl <;> rfl⟩

theorem selected_inHandler {c : Csrs} {m m' : Machine} (hs : Selected m m') (hcp : cp.Less)
    (hv : Vectors m) (hu : (m.csr.above cp).unstacked = (c.above cp).unstacked) :
    (∃ h, InHandler cp h c m') ∨
      (m' = m ∧ (selectInterrupt m.csr = none → m.flags.first = none)) := by
  cases hs with
  | none _ hi hf => exact .inr ⟨rfl, fun _ => hf⟩
  | declined e k _ hi =>
    refine .inr ⟨rfl, fun h => ?_⟩
    rw [hi] at h
    cases h
  | interrupt e k _ hi ht he hh hne =>
    have h0 : (m.csr.tvec k).mode = 0 := (hv e hi k ht he).resolve_right hne
    rw [if_pos h0]
    exact .inl ⟨k, inHandler_enter hcp hh hu 1 e _⟩
  | exception e k f _ _ ht hh =>
    exact .inl ⟨k, inHandler_enter (m := { m with flags := f }) hcp hh hu 0 e _⟩

theorem Turn.confined {s : State} {m : Machine} (ht : Turn inp s m) (hcp : s.cp.Less)
    (hs : SppBit s.csr) (hf : s.flags = Flags.clear) (hp : Permitted inp s) :
    (∃ h, Trapped h s.toMachine m) ∨ (m.cp.code ≤ s.cp.code ∧ Confined s.cp s.csr m.csr) := by
  obtain ⟨hu, hv, hpi⟩ := hp
  cases ht with
  | fetchFault h hh => exact .inl ⟨h, (inHandler_fetchFaulted hcp hh).trapped hcp⟩
  | cont ins m hw hc =>
    cases hc with
    | fence => exact .inr ⟨BitVec.le_refl _, confined_of_above hcp (above_advance hcp _)⟩
    | fault h ecode va hh => exact .inl ⟨h, (inHandler_faulted hcp hh ecode va).trapped hcp⟩
  | fall s' ins m hl hw he hsel =>
    have hins : Permits ins (advance (tick inp s.toMachine)) := hpi ins (by rw [hw]; rfl)
    have hadv : (advance (tick inp s.toMachine)).csr.above s.cp = s.csr.above s.cp :=
      above_advance hcp s.toMachine
    have hst : ((refresh s'.toMachine).csr.above s.cp).unstacked = (s'.csr.above s.cp).unstacked :=
      congrArg Csrs.unstacked (above_refresh hcp _)
    rcases he.confined hcp hs hins with ⟨hrank, ha⟩ | ⟨hmode, hflag, ha⟩ | ⟨h, hi⟩
    · -- nothing above the privilege has changed so far
      have ha' : s'.csr.above s.cp = s.csr.above s.cp := ha.trans hadv
      rcases selected_inHandler hsel hcp (hv s' hl) (hst.trans (congrArg _ ha')) with
        ⟨h, hi⟩ | ⟨rfl, -⟩
      · exact .inl ⟨h, hi.trapped hcp⟩
      · exact .inr ⟨hrank, confined_of_above hcp ((above_refresh hcp _).trans ha')⟩
    · -- a raised flag is delivered, since the step is undisturbed
      have ha' := hst.trans (ha.trans (congrArg Csrs.unstacked hadv))
      rcases selected_inHandler hsel hcp (hv s' hl) ha' with ⟨h, hi⟩ | ⟨rfl, hn⟩
      · exact .inl ⟨h, hi.trapped hcp⟩
      · obtain ⟨e, hfirst, -⟩ := (atLoopEnd_raised hl hf).resolve_left hflag
        cases hfirst.symm.trans (hn (hu s' hl _ hfirst).1)
    · -- an `ecall` is a trap already, whatever the selection adds
      have ha' := hst.trans (hi.unstacked.trans (congrArg Csrs.unstacked hadv))
      rcases selected_inHandler hsel hcp (hv s' hl) ha' with ⟨k, hk⟩ | ⟨rfl, -⟩
      · exact .inl ⟨k, hk.trapped hcp⟩
      · have hr : InHandler s.cp h s.csr (refresh s'.toMachine) :=
          ⟨hi.handles, hi.mode, hi.pc, hi.xie, ha'⟩
        exact .inl ⟨h, hr.trapped hcp⟩

/-! ### Refused instructions -/

/-- A permitted instruction that is refused ends in the illegal instruction exception, and changes
nothing else. -/
theorem refused_taken {s t : State} (hcp : s.cp.Less) (hf : s.flags = Flags.clear)
    (hp : Permitted inp s) (hw : fetch (tick inp s.toMachine) = .word ins) (hr : Refused ins s.cp)
    (hn : Next inp s t) :
    ∃ h : Plevel, h.handles ∧
      t.toMachine = enter h 0 causeIllegalInstruction s.pc (s.csr.tvec h).base
        (refresh (setMtval (advance (tick inp s.toMachine)) ins)) := by
  obtain ⟨hu, -, hpi⟩ := hp
  obtain ⟨hpc, hpm, hps⟩ := hpi ins (by rw [hw]; rfl)
  rcases hr with ⟨ho, htl⟩ | hr | hr
  · have hread (n : CsrName) (h : CsrName.ofAddr (imm11_0 ins) = some n) :
        readable s.cp n = false := by
      have ht : TooLow s.cp n.addr := by rwa [CsrName.addr_of_ofAddr h]
      exact not_readable hcp ht ((hpc ho n h).1 ht)
    let d := decoded { s with toMachine := tick inp s.toMachine }
    obtain ⟨s', hx, hs'⟩ : ∃ s', armSystm inp ins d = .fall s' ∧
        s'.toMachine = illegalMachine ins d.toMachine := armSystm_refused ho hread
    have hl : atLoopEnd inp s = some s' := atLoopEnd_of_word hw (by rw [execute_systm ho.1, hx])
    have hfirst : s'.flags.first = some (causeIllegalInstruction, Flags.clear) := by
      rw [hs']
      show Flags.first { s.flags with illIns := true } = _
      rw [hf]
      rfl
    -- an undisturbed step meets no interrupt, and a mode handles its exception
    obtain ⟨hi, h, hm, hh⟩ := hu s' hl _ hfirst
    have hacc : (refresh s'.toMachine).flags.ldAccFault = false := by
      rw [hs']
      show s.flags.ldAccFault = false
      rw [hf]
      rfl
    rw [Next, iterate_of_atLoopEnd hl] at hn
    have hret := loopEnd_next hn
    rw [selectTrap_raised hacc hfirst hi hm hh] at hret
    have hepc : s.pc + 4 - 4 = s.pc := BitVec.add_sub_cancel _ _
    refine ⟨h, hh, (Call.ret.inj hret).2.symm.trans ?_⟩
    rw [hs', ← hf]
    show enter h 0 causeIllegalInstruction (s.pc + 4 - 4) _ _ = _
    rw [hepc]
    rcases hh with rfl | rfl <;> rfl
  · exact absurd hr hpm
  · exact absurd hr hps

/-! ### The invariant -/

theorem Csrs.InWidth.sppBit {c : Csrs} (h : c.InWidth) : SppBit c := by
  have hle : c.mstatus.spp.toNat ≤ 1 := BitVec.le_def.mp h.mstatus.spp
  rcases Nat.le_one_iff_eq_zero_or_eq_one.mp hle with he | he
  · exact .inl (BitVec.eq_of_toNat_eq he)
  · exact .inr (BitVec.eq_of_toNat_eq he)

/-- In every run, a step below machine mode is confined if it meets the condition and no exception flag
is left over from the steps before it, as none is after undisturbed ones. -/
theorem less_privileged_confined {image : Memory} {time : Word} {is : List Input} {s t : State}
    (h : Run Next (boot image time) is s) (hf : s.flags = Flags.clear) (hp : Permitted inp s)
    (hcp : s.cp = .umode ∨ s.cp = .smode) (hn : Next inp s t) : ConfinedStep inp s t := by
  have hs : SppBit s.csr := (inWidth_of_reachable h).sppBit
  exact ⟨(next_turn hn).confined hcp hs hf hp, fun ins hw hr => refused_taken hcp hf hp hw hr hn⟩

/-- `auipc x1, 0`; `addi x1, x1, 20`; `csrrw x0, mepc, x1`; `mret` into user mode, to the last word;
a `nop` that is skipped; and there `csrrw x0, mtvec, x1`. -/
def escapeProgram : List Word :=
  [0x00000097, 0x01408093, 0x34109073, 0x30200073, 0x00000013, 0x30509073]

/-- The same behind a `csrrwi x0, sie, 2` of the firmware, with `csrrw x0, mstatus, x1` at the end. -/
def refusedProgram : List Word :=
  [0x10415073, 0x00000097, 0x01408093, 0x34109073, 0x30200073, 0x00000013, 0x30009073]

/-- User mode is refused `mstatus`, with nothing else changed, after the firmware has written `sie`. -/
theorem less_privileged_confined_mstatus :
    ∃ s t, s.cp = .umode ∧ s.csr.mie.ssie = 1 ∧ ConfinedStep (quiet 0) s t ∧ t.cp = .mmode := by
  obtain ⟨s, hr, hs⟩ := exists_run (boot (imageOf refusedProgram) 0) (List.replicate 5 (quiet 0))
    (fun s => decide (s.cp = .umode ∧ s.csr.mie.ssie = 1 ∧ s.flags = Flags.clear ∧
      Permitted (quiet 0) s ∧ (next? (quiet 0) s).any fun t => t.cp = .mmode)) (by decide +kernel)
  obtain ⟨hcp, hsie, hf, hp, hany⟩ := of_decide_eq_true hs
  obtain ⟨t, hn, ht⟩ := (Option.any_eq_true _ _).mp hany
  exact ⟨s, t, hcp, hsie, less_privileged_confined hr hf hp (.inl hcp) (next_of_next? hn),
    of_decide_eq_true ht⟩

/-- User mode redirects the machine-mode trap vector. -/
theorem less_privileged_not_confined :
    ¬ ∀ (image : Memory) (time : Word) (is : List Input) (s t : State) (inp : Input),
      Run Next (boot image time) is s → s.cp = .umode ∨ s.cp = .smode → Next inp s t →
      ConfinedStep inp s t := by
  intro h
  obtain ⟨s, hr, hs⟩ := exists_run (boot (imageOf escapeProgram) 0) (List.replicate 4 (quiet 0))
    (fun s => decide (s.cp = .umode ∧ s.csr.mtvec.readReg = 0 ∧
      (next? (quiet 0) s).any fun t => t.cp = .umode ∧ t.csr.mtvec.readReg = 0x80000014))
    (by decide +kernel)
  obtain ⟨hcp, hv, hany⟩ := of_decide_eq_true hs
  obtain ⟨t, hn, ht⟩ := (Option.any_eq_true _ _).mp hany
  obtain ⟨htc, htv⟩ := of_decide_eq_true ht
  rcases (h _ _ _ _ _ _ hr (.inl hcp) (next_of_next? hn)).csr with ⟨k, hk⟩ | ⟨-, hc⟩
  · have hk' := hk.cp.symm.trans htc
    rcases hk.handles with rfl | rfl <;> cases hk'
  · have hsame := hc.value .mtvec (by rw [hcp]; decide) rfl
    have hval : t.csr.mtvec.readReg = s.csr.mtvec.readReg := hsame
    rw [htv, hv] at hval
    exact absurd hval (by decide)

end RiscvEmu
