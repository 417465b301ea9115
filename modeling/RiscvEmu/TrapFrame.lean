import RiscvEmu.AtomicTraps
import RiscvEmu.TrapRoundTrip

/-! What a trap does to the trap registers of the two modes: it should write those of its handling mode
and no others. Every entry sets `mstatus.MPP`, and the arms leave the address or the instruction word in
`mtval` before the mode is known. -/

namespace RiscvEmu

open Runs

variable {inp : Input} {ins : Word} {s s' t : State}

/-! ### What an arm leaves in `mtval` -/

def dataAddress (ins : Word) (m : Machine) : Word :=
  match opcode ins with
  | .load => m.reg (rs1 ins) + signExtend (imm11_0 ins) 12
  | .store => m.reg (rs1 ins) + signExtend (immS ins) 12
  | _ => m.reg (rs1 ins)

/-- The faulting address or the instruction word that an exception of this instruction carries. -/
def carries (ins : Word) (m : Machine) (ecode : Word) : Option Word :=
  if ecode = causeIllegalInstruction then some ins
  else if ecode = causeMisalignedLoad ∨ ecode = causeMisalignedStore then some (dataAddress ins m)
  else none

instance (w : Width) (o : AmoOp) (ins : Word) : Decidable (IsAmo w o ins) :=
  inferInstanceAs (Decidable (_ ∧ _ ∧ _))

/-- The offset into RAM, which AMOMAXU.W reports in place of the address. -/
def physicalOffset (ins : Word) (m : Machine) : Option Word :=
  match translate m.csr m.mem (m.reg (rs1 ins)) .stor m.cp with
  | .ok pa => some (pa - dramBase)
  | .error _ => none

/-- What the arm that raises the exception leaves in `mtval`. -/
def records (ins : Word) (m : Machine) (ecode : Word) : Option Word :=
  if ecode = causeMisalignedStore ∧ IsAmo .w32 .maxu ins then physicalOffset ins m
  else carries ins m ecode

def Reports (v : Word) (u u' : State) : Prop :=
  u.flags.storeAddrMissalig = false → u'.flags.storeAddrMissalig = true → u'.csr.mtval = v

section

variable {c : Cell} {u u' : State} {v : Word}

theorem reports_of_flags (h : u'.flags.storeAddrMissalig = u.flags.storeAddrMissalig) :
    Reports v u u' := by
  intro hc hf
  rw [h, hc] at hf
  cases hf

theorem lrW_reports : Reports u.loadAddr u (lrW u) := by
  unfold lrW
  split
  · exact fun _ _ => rfl
  · exact reports_of_flags rfl

theorem amoRmwW_reports (op : Word → Word → Word) (f : State → Word) :
    Reports (f u) u (amoRmwW op f ins c u) := by
  unfold amoRmwW
  split
  · exact fun _ _ => rfl
  · exact reports_of_flags rfl

theorem scW_reports : Reports u.loadAddr u (scW ins c u) := by
  unfold scW scWStore
  dsimp only
  split
  · split
    · exact fun _ _ => rfl
    · exact reports_of_flags rfl
  · exact reports_of_flags rfl

theorem lrD_reports : Reports u.loadAddr u (lrD ins u) := by
  unfold lrD
  split
  · exact fun _ _ => rfl
  · exact reports_of_flags rfl

theorem amoRmwD_reports (op : Word → Word → Word) :
    Reports u.loadAddr u (amoRmwD op ins c u) := by
  unfold amoRmwD
  split
  · exact fun _ _ => rfl
  · exact reports_of_flags rfl

theorem scD_reports : Reports u.loadAddr u (scD ins c u) := by
  unfold scD scDStore
  dsimp only
  split
  · split
    · exact fun _ _ => rfl
    · exact reports_of_flags rfl
  · exact reports_of_flags rfl

theorem amoSwitchW_reports (h3 : (func3 ins).toNat = 0b010) (ho : opcode ins = .amo) :
    Reports (if IsAmo .w32 .maxu ins then u.loadAddrPhy else u.loadAddr) u
      (amoSwitchW ins c u) := by
  by_cases hmaxu : (amoOp ins).toNat = AmoOp.maxu.selector
  · rw [if_pos ⟨ho, h3, hmaxu⟩, amoSwitchW_rmw hmaxu]
    exact amoRmwW_reports _ _
  · rw [if_neg fun h => hmaxu h.2.2]
    unfold amoSwitchW
    split
    · exact lrW_reports
    · exact scW_reports
    case h_11 h => exact absurd h hmaxu
    case h_12 => exact reports_of_flags rfl
    all_goals exact amoRmwW_reports _ _

theorem amoSwitchD_reports (ins : Word) (c : Cell) (u : State) :
    Reports u.loadAddr u (amoSwitchD ins c u) := by
  unfold amoSwitchD
  split
  · exact lrD_reports
  · exact scD_reports
  case h_12 => exact reports_of_flags rfl
  all_goals exact amoRmwD_reports _

end

/-! ### The arms -/

theorem carries_misalignedStore (ho : opcode ins = .amo) (m : Machine) :
    carries ins m causeMisalignedStore = some (m.reg (rs1 ins)) := by
  unfold carries dataAddress
  rw [if_neg (by decide), if_pos (Or.inr rfl), ho]

theorem records_misalignedStore {m : Machine} {pa : Word} (ho : opcode ins = .amo)
    (ht : translate m.csr m.mem (m.reg (rs1 ins)) .stor m.cp = .ok pa) :
    records ins m causeMisalignedStore =
      some (if IsAmo .w32 .maxu ins then pa - dramBase else m.reg (rs1 ins)) := by
  unfold records physicalOffset
  by_cases hi : IsAmo .w32 .maxu ins
  · rw [if_pos ⟨rfl, hi⟩, if_pos hi, ht]
  · rw [if_neg fun h => hi h.2, if_neg hi, carries_misalignedStore ho]

theorem armAmo_reports (ho : opcode ins = .amo) (h : armAmo ins s = .fall s')
    (hc : s.flags.storeAddrMissalig = false) (hf : s'.flags.storeAddrMissalig = true) :
    records ins s.toMachine causeMisalignedStore = some s'.csr.mtval := by
  unfold armAmo at h
  split at h
  · rename_i h3
    obtain ⟨pa, c, ht, -, -, rfl⟩ := amoMapped_translates h
    have hrep := amoSwitchW_reports (c := c) (u := { s with
      loadAddr := s.reg (rs1 ins)
      loadAddrPhy := pa - dramBase
      loadData := s.mem c }) h3 ho hc hf
    rw [records_misalignedStore ho ht]
    exact congrArg some hrep.symm
  · rename_i h3
    obtain ⟨pa, c, ht, -, -, rfl⟩ := amoMapped_translates h
    have hw : ¬ IsAmo .w32 .maxu ins := by
      intro hi
      exact absurd (hi.2.1.symm.trans h3) (by decide)
    have hrep := amoSwitchD_reports ins c { s with
      loadAddr := s.reg (rs1 ins)
      loadAddrPhy := pa - dramBase
      wbData := s.mem c } hc hf
    rw [records_misalignedStore ho ht, if_neg hw]
    exact congrArg some hrep.symm
  · cases h
    rw [hc] at hf
    cases hf

section

variable {u : State}

theorem loadNarrow_reports {access : Word → Word → Bool × Word} {extend : Word → Word}
    (hc : u.flags.ldAddrMissalig = false)
    (hf : (loadNarrow access extend ins u).flags.ldAddrMissalig = true) :
    (loadNarrow access extend ins u).csr.mtval = u.loadAddr := by
  unfold loadNarrow at hf ⊢
  split at hf
  · rfl
  · have hsame : u.flags.ldAddrMissalig = true := hf
    rw [hc] at hsame
    cases hsame

theorem loadSwitch_reports (hc : u.flags.ldAddrMissalig = false)
    (hf : (loadSwitch ins u).flags.ldAddrMissalig = true) :
    (loadSwitch ins u).csr.mtval = u.loadAddr := by
  unfold loadSwitch at hf ⊢
  split at hf
  case h_7 =>
    unfold loadLd at hf ⊢
    split at hf
    · have hsame : u.flags.ldAddrMissalig = true := hf
      rw [hc] at hsame
      cases hsame
    · rename_i h8
      rw [if_neg h8]
      rfl
  case h_8 =>
    rw [hc] at hf
    cases hf
  all_goals exact loadNarrow_reports hc hf

end

theorem armLoad_reports (h : armLoad inp ins s = .fall s')
    (hc : s.flags.ldAddrMissalig = false) (hf : s'.flags.ldAddrMissalig = true) :
    s'.csr.mtval = s.reg (rs1 ins) + signExtend (imm11_0 ins) 12 := by
  unfold armLoad at h
  dsimp only at h
  split at h
  · split at h
    · cases h
    · split at h
      · unfold loadPageFault at h
        split at h <;> cases h
      · split at h
        · cases h
        · rename_i m hm
          cases h
          have hm' : m.flags.ldAddrMissalig = false := by
            rw [(raised_of_loadSide (loadMapped_side hm)).1]
            exact hc
          exact loadSwitch_reports hm' hf
  · cases h
    -- the console raises nothing
    have hsame : s.flags.ldAddrMissalig = true := by
      rw [← hf]
      unfold loadFifo
      dsimp only
      split
      · split <;> rfl
      · split <;> rfl
    rw [hc] at hsame
    cases hsame

/-! ### The instruction that raises an exception -/

structure SameTraps (c c' : Csrs) : Prop where
  epc : ∀ o, c'.epc o = c.epc o
  cause : ∀ o, c'.cause o = c.cause o
  xie : ∀ o, c'.xie o = c.xie o
  pie : ∀ o, c'.pie o = c.pie o
  pp : ∀ o, c'.pp o = c.pp o

/-- An instruction that raises an exception has changed no trap register but `mtval`. -/
structure RaisedBy (ins : Word) (ecode : Word) (m m' : Machine) : Prop where
  cp : m'.cp = m.cp
  pc : m'.pc = m.pc
  same : SameTraps m.csr m'.csr
  stval : m'.csr.stval = m.csr.stval
  mtval : m'.csr.mtval = (records ins m ecode).getD m.csr.mtval

theorem raises_first {m : Machine} {ecode : Word} {f g : Flags} (hx : Raises (refresh m) ecode f)
    (hg : m.flags = g) (hl : g.ldAccFault = false) : g.first = some (ecode, f) := by
  subst hg
  rcases hx with ⟨h, -⟩ | ⟨-, -, h⟩
  · have h' : m.flags.ldAccFault = true := h
    rw [hl] at h'
    cases h'
  · exact h

theorem SameTraps.refl (c : Csrs) : SameTraps c c :=
  ⟨fun _ => rfl, fun _ => rfl, fun _ => rfl, fun _ => rfl, fun _ => rfl⟩

theorem SameTraps.trans {c c' c'' : Csrs} (h : SameTraps c c') (h' : SameTraps c' c'') :
    SameTraps c c'' :=
  ⟨fun o => (h'.epc o).trans (h.epc o), fun o => (h'.cause o).trans (h.cause o),
    fun o => (h'.xie o).trans (h.xie o), fun o => (h'.pie o).trans (h.pie o),
    fun o => (h'.pp o).trans (h.pp o)⟩

theorem sameTraps_tvals (c : Csrs) (v w x : Word) :
    SameTraps c { c with mtval := v, stval := w, utval := x } :=
  ⟨fun _ => rfl, fun _ => rfl, fun _ => rfl, fun _ => rfl, fun _ => rfl⟩

theorem sameTraps_refresh (m : Machine) : SameTraps m.csr (refresh m).csr := by
  refine ⟨fun _ => rfl, fun _ => rfl, ?_, ?_, ?_⟩ <;> (intro o; cases o <;> rfl)

theorem sameTraps_of_loadSide {m m' : Machine} (hs : LoadSide m m') :
    SameTraps m.csr m'.csr ∧ m'.cp = m.cp ∧ m'.csr.stval = m.csr.stval := by
  rcases hs with rfl | ⟨-, rfl⟩
  · exact ⟨SameTraps.refl _, rfl, rfl⟩
  · refine ⟨⟨?_, ?_, ?_, ?_, ?_⟩, rfl, rfl⟩ <;> exact fun _ => rfl

theorem raisedBy_of_amo {ecode va : Word} {f : Flags} {m : Machine} (hc : s.flags = Flags.clear)
    (ho : opcode ins = .amo) (hx : execute inp ins s = .fall s')
    (hr : Raises (refresh s'.toMachine) ecode f) (hm : s'.toMachine = setMtval m va)
    (hl : m.flags = { s.flags with storeAddrMissalig := true }) (hcp : m.cp = s.cp)
    (hpc : m.pc = s.pc) (hcsr : m.csr = s.csr) :
    RaisedBy ins ecode s.toMachine s'.toMachine := by
  have hflags : s'.flags = { Flags.clear with storeAddrMissalig := true } := by
    have hset : s'.flags = (setMtval m va).flags := congrArg Machine.flags hm
    rw [hset, setMtval, hl, hc]
  have hfirst := raises_first hr hflags rfl
  cases hfirst
  rw [execute_amo ho] at hx
  have hva := armAmo_reports ho hx (by rw [hc]; rfl) (by rw [hflags])
  refine ⟨?_, ?_, ?_, ?_, ?_⟩
  · exact (congrArg Machine.cp hm).trans hcp
  · exact (congrArg Machine.pc hm).trans hpc
  · rw [hm, ← hcsr]
    exact sameTraps_tvals m.csr va _ _
  · rw [hm, ← hcsr]
    rfl
  · rw [hva]
    rfl

theorem raisedBy_of_loadMis {ecode va : Word} {f : Flags} {m : Machine}
    (hc : s.flags = Flags.clear) (ho : opcode ins = .load) (hx : execute inp ins s = .fall s')
    (hs : LoadSide s.toMachine m)
    (hm : s'.toMachine =
      setMtval { m with flags := { m.flags with ldAddrMissalig := true } } va)
    (hr : Raises (refresh s'.toMachine) ecode f) :
    RaisedBy ins ecode s.toMachine s'.toMachine := by
  obtain ⟨hflags, hpc⟩ := raised_of_loadSide hs
  obtain ⟨hsame, hcp, hstval⟩ := sameTraps_of_loadSide hs
  have hl : s'.flags = { Flags.clear with ldAddrMissalig := true } := by
    rw [hm]
    simp only [setMtval, hflags, hc]
  have hfirst := raises_first hr hl rfl
  cases hfirst
  rw [execute_load ho] at hx
  have hva := armLoad_reports hx (by rw [hc]; rfl) (by rw [hl])
  rw [hm] at hva ⊢
  refine ⟨hcp, hpc, hsame.trans (sameTraps_tvals _ _ _ _), hstval, ?_⟩
  rw [hva]
  unfold records carries dataAddress
  rw [if_neg (fun h => absurd h.1 (by decide)), if_neg (by decide), if_pos (Or.inl rfl), ho]
  rfl

theorem raisedBy_of_fall {ecode : Word} {f : Flags} (hc : s.flags = Flags.clear)
    (hx : execute inp ins s = .fall s') (hr : Raises (refresh s'.toMachine) ecode f) :
    RaisedBy ins ecode s.toMachine s'.toMachine := by
  have clear {m : Machine} (hr : Raises (refresh m) ecode f) (hm : m.flags = Flags.clear) :
      False := by
    have hfirst := raises_first hr hm rfl
    cases hfirst
  -- these effects raise a flag; under the others the flags stay clear
  have he := execute_effect hx
  generalize hm' : s'.toMachine = m' at he hr ⊢
  have hfl : s.toMachine.flags = Flags.clear := hc
  cases he with
  | loadMis m1 va hs ho =>
    rw [← hm'] at hr ⊢
    exact raisedBy_of_loadMis hc ho hx hs hm' hr
  | amoMis va r ho =>
    rw [← hm'] at hr ⊢
    exact raisedBy_of_amo hc ho hx hr hm' rfl rfl rfl rfl
  | scMis w va pa r ho =>
    rw [← hm'] at hr ⊢
    exact raisedBy_of_amo hc ho hx hr hm' rfl rfl rfl rfl
  | illegal r =>
    have hl : (setMtval { s.toMachine with
        flags := { s.flags with illIns := true }, regFile := r } ins).flags =
        { Flags.clear with illIns := true } := by
      simp only [setMtval, hc]
    have hfirst := raises_first hr hl rfl
    cases hfirst
    refine ⟨rfl, rfl, sameTraps_tvals _ _ _ _, rfl, ?_⟩
    unfold records carries
    rw [if_neg (fun h => absurd h.1 (by decide)), if_pos rfl]
    rfl
  | ebreak ho =>
    have hl : ({ s.toMachine with flags := { s.flags with ebreak := true } } : Machine).flags =
        { Flags.clear with ebreak := true } := by
      simp only [hc]
    have hfirst := raises_first hr hl rfl
    cases hfirst
    refine ⟨rfl, rfl, SameTraps.refl _, rfl, ?_⟩
    unfold records carries
    rw [if_neg (fun h => absurd h.1 (by decide)), if_neg (by decide), if_neg (by decide)]
    rfl
  | load m1 r hs => exact (clear hr ((raised_of_loadSide hs).1.trans hfl)).elim
  | device as m1 hd =>
    refine (clear hr ?_).elim
    exact deviceActs_invariant (P := fun x => x.flags = Flags.clear) (fun _ _ _ h => h)
      (fun _ _ _ _ h => h) hd hfl
  | ecall pc m1 hx' =>
    obtain ⟨hm, e, epc, -, -, -, rfl⟩ := excepFunction_enters hx'
    exact (clear hr ((enter_flags hm 0 e epc _ _).trans hfl)).elim
  | _ => exact (clear hr hfl).elim

/-! ### Traps -/

/-- What the trap is: a page fault, an `ecall`, the exception of this instruction, with what it carries
and what its arm has left in `mtval`, an exception whose flag an earlier instruction has left set, or an
interrupt. -/
inductive TrapKind
  | page (ecode va : Word)
  | call
  | raised (v w : Option Word)
  | left (v : Option Word)
  | interrupt

/-- The iteration from `s` enters a trap that `h` handles: the machine before the trap, the address that
is recorded, and the state after the entry. -/
inductive Trap (inp : Input) (s : State) (h : Plevel) :
    TrapKind → Machine → Word → State → Prop
  | page (t : State) (ecode va : Word) (hp : PageFault inp s ecode va)
      (ht : trapModeSelect ecode false s.cp s.csr = some h) (hn : iterate inp s = .next t) :
      Trap inp s h (.page ecode va) s.toMachine s.pc t
  | call (t : State) (hc : IsEcall inp s)
      (ht : trapModeSelect (ecallCause s.cp) false s.cp s.csr = some h)
      (hl : atLoopEnd inp s = some t) : Trap inp s h .call s.toMachine s.pc t
  | raised (s' t : State) (ins ecode : Word) (f : Flags) (hc : s.flags = Flags.clear)
      (hf : fetch (tick inp s.toMachine) = .word ins) (hl : atLoopEnd inp s = some s')
      (hx : Raises (refresh s'.toMachine) ecode f)
      (ht : trapModeSelect ecode false s'.cp s'.csr = some h) (hn : Completes inp s t) :
      Trap inp s h (.raised (carries ins (switchMachine inp s) ecode)
        (records ins (switchMachine inp s) ecode)) s.toMachine s.pc t
  | left (s' t : State) (v : Option Word) (ecode : Word) (f : Flags) (hc : s.flags ≠ Flags.clear)
      (hl : atLoopEnd inp s = some s') (hx : Raises (refresh s'.toMachine) ecode f)
      (ht : trapModeSelect ecode false s'.cp s'.csr = some h) (hn : Completes inp s t) :
      Trap inp s h (.left v) s'.toMachine (s'.pc - 4) t
  | interrupt (s' t : State) (ecode : Word) (hl : atLoopEnd inp s = some s')
      (hi : TakesInterrupt (refresh s'.toMachine) h ecode) (hn : Completes inp s t) :
      Trap inp s h .interrupt s'.toMachine s'.pc t

def TrapKind.tval : TrapKind → Option Word
  | page _ va => some va
  | raised v _ => v
  | left v => v
  | _ => none

/-- A trap that `h` handles leaves the registers of the other mode alone, and what it carries is in the
`tval` of `h`. -/
structure TrapFrame (h : Plevel) (m : Machine) (tval : Option Word) (t : State) : Prop where
  other : ∀ o, o.handles → o ≠ h → t.csr.epc o = m.csr.epc o ∧ t.csr.cause o = m.csr.cause o ∧
    t.csr.tval o = m.csr.tval o ∧ t.csr.xie o = m.csr.xie o ∧ t.csr.pie o = m.csr.pie o ∧
    t.csr.pp o = m.csr.pp o
  tval : ∀ v ∈ tval, t.csr.tval h = v

/-- The registers hold before the trap what the code will write to them. -/
def TrapKind.Harmless (k : TrapKind) (h : Plevel) (m : Machine) : Prop :=
  match h with
  | .smode => m.csr.mstatus.mpp = m.cp.code ∧
      match k with
      | page ecode va => m.csr.mtval = if ecode = causeFetchPageFault then va else 0
      | raised v w => (∀ x ∈ w, m.csr.mtval = x) ∧ ∀ x ∈ v, m.csr.stval = x
      | left v => ∀ x ∈ v, m.csr.stval = x
      | _ => True
  | _ =>
      match k with
      | page ecode va => ecode = causeFetchPageFault → m.csr.stval = va
      | raised v w => ∀ x ∈ v, w.getD m.csr.mtval = x
      | left v => ∀ x ∈ v, m.csr.mtval = x
      | _ => True

/-! ### What the entry writes -/

structure Entered (h : Plevel) (m : Machine) (epc : Word) (c : Csrs) : Prop where
  epc : c.epc h = epc
  mpp : c.mstatus.mpp = m.cp.code
  other : ∀ o, o.handles → o ≠ h → c.epc o = m.csr.epc o ∧ c.cause o = m.csr.cause o ∧
    c.xie o = m.csr.xie o ∧ c.pie o = m.csr.pie o
  spp : h = .mmode → c.mstatus.spp = m.csr.mstatus.spp

namespace TrapKind

def mtval (k : TrapKind) (h : Plevel) (c : Csrs) : Word :=
  match k with
  | page ecode va => if h = .smode ∧ ecode ≠ causeFetchPageFault then 0 else va
  | raised _ w => w.getD c.mtval
  | _ => c.mtval

def stval (k : TrapKind) (h : Plevel) (c : Csrs) : Word :=
  match k with
  | page ecode va => if h = .smode ∨ ecode = causeFetchPageFault then va else c.stval
  | _ => c.stval

end TrapKind

structure Took (k : TrapKind) (h : Plevel) (m : Machine) (epc : Word) (t : Machine) : Prop where
  handles : h.handles
  entered : Entered h m epc t.csr
  mtval : t.csr.mtval = k.mtval h m.csr
  stval : t.csr.stval = k.stval h m.csr

section

variable {k : TrapKind} {h : Plevel} {m m' : Machine} {epc ecode va : Word}

theorem entered_enter (hh : h.handles) (i : Byte) (e epc pc : Word) (m : Machine) :
    Entered h m epc (enter h i e epc pc m).csr := by
  rcases hh with rfl | rfl
  · refine ⟨rfl, rfl, ?_, nofun⟩
    rintro o (rfl | rfl) ho
    · exact absurd rfl ho
    · exact ⟨rfl, rfl, rfl, rfl⟩
  · refine ⟨rfl, rfl, ?_, fun _ => rfl⟩
    rintro o (rfl | rfl) ho
    · exact ⟨rfl, rfl, rfl, rfl⟩
    · exact absurd rfl ho

theorem Entered.congr {c c' : Csrs} (he : Entered h m epc c) (hs : SameTraps c c') :
    Entered h m epc c' := by
  refine ⟨(hs.epc h).trans he.epc, (hs.pp .mmode).trans he.mpp, ?_, ?_⟩
  · intro o ho hne
    rw [hs.epc, hs.cause, hs.xie, hs.pie]
    exact he.other o ho hne
  · intro hm
    exact (hs.pp .smode).trans (he.spp hm)

theorem took_faulted (va : Word) (hh : h.handles) (hne : ecode ≠ causeFetchPageFault) :
    Took (.page ecode va) h m m.pc (faulted h ecode va (advance m)) := by
  have hepc : m.pc + 4 - 4 = m.pc := BitVec.add_sub_cancel _ _
  have he := entered_enter hh 0 ecode (m.pc + 4 - 4) (m.csr.tvec h).base m
  have hf : Entered h m m.pc (faulted h ecode va (advance m)).csr := by
    rw [← hepc]
    apply he.congr
    rcases hh with rfl | rfl <;> exact sameTraps_tvals _ _ _ _
  rcases hh with rfl | rfl
  · have hmt : TrapKind.mtval (.page ecode va) .smode m.csr = 0 := by
      simp [TrapKind.mtval, hne]
    have hst : TrapKind.stval (.page ecode va) .smode m.csr = va := by
      simp [TrapKind.stval]
    exact ⟨.inl rfl, hf, hmt.symm, hst.symm⟩
  · have hmt : TrapKind.mtval (.page ecode va) .mmode m.csr = va := by
      simp [TrapKind.mtval]
    have hst : TrapKind.stval (.page ecode va) .mmode m.csr = m.csr.stval := by
      simp [TrapKind.stval, hne]
    exact ⟨.inr rfl, hf, hmt.symm, hst.symm⟩

theorem took_fetchFaulted (hh : h.handles) :
    Took (.page causeFetchPageFault m.pc) h m m.pc (fetchFaulted h m) := by
  have he := entered_enter hh 0 causeFetchPageFault m.pc (m.csr.tvec h).base m
  have hmt : TrapKind.mtval (.page causeFetchPageFault m.pc) h m.csr = m.pc := by
    simp [TrapKind.mtval]
  have hst : TrapKind.stval (.page causeFetchPageFault m.pc) h m.csr = m.pc := by
    simp [TrapKind.stval]
  exact ⟨hh, he.congr (sameTraps_tvals _ _ _ _), hmt.symm, hst.symm⟩

theorem Took.of_tick {k : TrapKind} (ht : Took k h (tick inp m) epc m') : Took k h m epc m' :=
  ⟨ht.handles, ⟨ht.entered.epc, ht.entered.mpp, ht.entered.other, ht.entered.spp⟩, ht.mtval,
    ht.stval⟩

theorem took_enter {m0 : Machine} {k : TrapKind} (hh : h.handles) (i : Byte) (e pc : Word)
    (hcp : m.cp = m0.cp) (hs : SameTraps m0.csr m.csr) (hmt : m.csr.mtval = k.mtval h m0.csr)
    (hst : m.csr.stval = k.stval h m0.csr) : Took k h m0 epc (enter h i e epc pc m) := by
  have he := entered_enter hh i e epc pc m
  refine ⟨hh, ⟨he.epc, he.mpp.trans (congrArg Plevel.code hcp), ?_, ?_⟩, ?_, ?_⟩
  · intro o ho hne
    rw [← hs.epc, ← hs.cause, ← hs.xie, ← hs.pie]
    exact he.other o ho hne
  · intro hm
    exact (he.spp hm).trans (hs.pp .smode)
  · rw [← hmt]
    rcases hh with rfl | rfl <;> rfl
  · rw [← hst]
    rcases hh with rfl | rfl <;> rfl

end

/-! ### The claims of the two modes -/

section

variable {k : TrapKind} {h : Plevel} {m : Machine} {epc : Word}

theorem Trap.took (ht : Trap inp s h k m epc t) (hh : h.handles) :
    Took k h m epc t.toMachine := by
  cases ht with
  | page t ecode va hp ht hn =>
    obtain ⟨t', hn', hm⟩ := pageFault_next hp ht hh
    cases hn.symm.trans hn'
    rcases hm with ⟨rfl, rfl, hm⟩ | ⟨hne, hm⟩
    · rw [hm]
      exact (took_fetchFaulted hh).of_tick
    · rw [hm]
      exact (took_faulted va hh hne).of_tick
  | call t hc ht hl =>
    obtain ⟨s', hl', hm⟩ := atLoopEnd_of_ecall hc ht hh
    cases hl.symm.trans hl'
    rw [hm]
    exact took_enter (m := advance (tick inp s.toMachine)) hh 0 _ _ rfl
      ⟨fun _ => rfl, fun _ => rfl, fun _ => rfl, fun _ => rfl, fun _ => rfl⟩ rfl rfl
  | raised s' t ins ecode f hc hf hl hx ht hn =>
    obtain ⟨m, hsel, rfl⟩ := (completes_iff_of_atLoopEnd hl).mp hn
    have hr := raisedBy_of_fall (s := decoded { s with toMachine := tick inp s.toMachine }) hc
      (execute_of_atLoopEnd hl hf) hx
    rw [selectTrap_of_raises (m := refresh s'.toMachine) hx ht hh] at hsel
    cases hsel
    -- the program counter is one instruction ahead at the end of the loop body
    have hpc : s'.pc - 4 = s.pc := by
      have hadv : s'.pc = s.pc + 4 := hr.pc
      rw [hadv]
      exact BitVec.add_sub_cancel _ _
    have hepc : (refresh s'.toMachine).pc - 4 = s.pc := hpc
    rw [hepc]
    have hsame : SameTraps s.csr s'.csr :=
      ⟨hr.same.epc, hr.same.cause, hr.same.xie, hr.same.pie, hr.same.pp⟩
    exact took_enter (m := { refresh s'.toMachine with flags := f }) hh 0 ecode _ hr.cp
      (hsame.trans (sameTraps_refresh s'.toMachine)) hr.mtval hr.stval
  | left s' t v ecode f hc hl hx ht hn =>
    obtain ⟨m, hsel, rfl⟩ := (completes_iff_of_atLoopEnd hl).mp hn
    rw [selectTrap_of_raises (m := refresh s'.toMachine) hx ht hh] at hsel
    cases hsel
    exact took_enter (m := { refresh s'.toMachine with flags := f }) hh 0 ecode _ rfl
      (sameTraps_refresh s'.toMachine) rfl rfl
  | interrupt s' t ecode hl hi hn =>
    obtain ⟨m, hsel, rfl⟩ := (completes_iff_of_atLoopEnd hl).mp hn
    obtain ⟨pc, rfl⟩ := selected_of_takes hi (selectTrap_ret hsel)
    exact took_enter (m := refresh s'.toMachine) hh 1 ecode _ rfl
      (sameTraps_refresh s'.toMachine) rfl rfl

theorem Took.frame_smode {v : Option Word} (hk : Took k .smode m epc t.toMachine) :
    TrapFrame .smode m v t ↔ m.csr.mstatus.mpp = m.cp.code ∧ k.mtval .smode m.csr = m.csr.mtval ∧
      ∀ x ∈ v, k.stval .smode m.csr = x := by
  have hm : Plevel.mmode.handles := .inr rfl
  constructor
  · rintro ⟨ho, hv⟩
    obtain ⟨-, -, htval, -, -, hpp⟩ := ho .mmode hm (by decide)
    exact ⟨hpp.symm.trans hk.entered.mpp, hk.mtval.symm.trans htval,
      fun x hx => hk.stval.symm.trans (hv x hx)⟩
  · rintro ⟨hpp, htval, hv⟩
    refine ⟨?_, fun x hx => hk.stval.trans (hv x hx)⟩
    rintro o (rfl | rfl) hne
    · exact absurd rfl hne
    · obtain ⟨hepc, hcause, hxie, hpie⟩ := hk.entered.other .mmode hm (by decide)
      exact ⟨hepc, hcause, hk.mtval.trans htval, hxie, hpie, hk.entered.mpp.trans hpp.symm⟩

theorem Took.frame_mmode {v : Option Word} (hk : Took k .mmode m epc t.toMachine) :
    TrapFrame .mmode m v t ↔ k.stval .mmode m.csr = m.csr.stval ∧
      ∀ x ∈ v, k.mtval .mmode m.csr = x := by
  have hs : Plevel.smode.handles := .inl rfl
  constructor
  · rintro ⟨ho, hv⟩
    obtain ⟨-, -, htval, -, -, -⟩ := ho .smode hs (by decide)
    exact ⟨hk.stval.symm.trans htval, fun x hx => hk.mtval.symm.trans (hv x hx)⟩
  · rintro ⟨htval, hv⟩
    refine ⟨?_, fun x hx => hk.mtval.trans (hv x hx)⟩
    rintro o (rfl | rfl) hne
    · obtain ⟨hepc, hcause, hxie, hpie⟩ := hk.entered.other .smode hs (by decide)
      exact ⟨hepc, hcause, hk.stval.trans htval, hxie, hpie, hk.entered.spp rfl⟩
    · exact absurd rfl hne

theorem getD_eq_iff {w : Option Word} {x : Word} : w.getD x = x ↔ ∀ y ∈ w, x = y := by
  cases w with
  | none => simp
  | some y => simp [eq_comm]

theorem harmless_smode : k.Harmless .smode m ↔ m.csr.mstatus.mpp = m.cp.code ∧
    k.mtval .smode m.csr = m.csr.mtval ∧ ∀ x ∈ k.tval, k.stval .smode m.csr = x := by
  refine and_congr Iff.rfl ?_
  cases k with
  | page ecode va =>
    dsimp only
    rw [eq_comm]
    by_cases hf : ecode = causeFetchPageFault <;>
      simp [TrapKind.mtval, TrapKind.stval, TrapKind.tval, hf]
  | raised v w => exact and_congr getD_eq_iff.symm Iff.rfl
  | left v => simp [TrapKind.mtval, TrapKind.stval, TrapKind.tval]
  | call => simp [TrapKind.mtval, TrapKind.tval]
  | interrupt => simp [TrapKind.mtval, TrapKind.tval]

theorem harmless_mmode : k.Harmless .mmode m ↔
    k.stval .mmode m.csr = m.csr.stval ∧ ∀ x ∈ k.tval, k.mtval .mmode m.csr = x := by
  cases k with
  | page ecode va =>
    by_cases hf : ecode = causeFetchPageFault
    · simp only [TrapKind.Harmless, TrapKind.mtval, TrapKind.stval, TrapKind.tval, hf]
      simp [eq_comm]
    · simp [TrapKind.Harmless, TrapKind.mtval, TrapKind.stval, TrapKind.tval, hf]
  | raised v w => simp [TrapKind.Harmless, TrapKind.mtval, TrapKind.stval, TrapKind.tval]
  | left v => simp [TrapKind.Harmless, TrapKind.mtval, TrapKind.stval, TrapKind.tval]
  | call => simp [TrapKind.Harmless, TrapKind.stval, TrapKind.tval]
  | interrupt => simp [TrapKind.Harmless, TrapKind.stval, TrapKind.tval]

/-- A trap writes the registers of its handling mode and no others exactly when the other mode's hold
before it what the code writes to them. -/
theorem trap_frame_iff (ht : Trap inp s h k m epc t) (hh : h.handles) :
    TrapFrame h m k.tval t ↔ k.Harmless h m := by
  have hk := ht.took hh
  rcases hh with rfl | rfl
  · rw [hk.frame_smode, harmless_smode]
  · rw [hk.frame_mmode, harmless_mmode]

end

/-- At reset, an `ecall`, and a word that is no instruction, which `mtval` gets. -/
theorem trap_frame_reset :
    (∃ t, Trap (quiet 0) (boot (imageOf [0x73]) 0) .mmode .call
      (boot (imageOf [0x73]) 0).toMachine dramBase t ∧
        TrapFrame .mmode (boot (imageOf [0x73]) 0).toMachine none t) ∧
    ∃ t, Trap (quiet 0) (boot (imageOf [7]) 0) .mmode (.raised (some 7) (some 7))
      (boot (imageOf [7]) 0).toMachine dramBase t ∧
        TrapFrame .mmode (boot (imageOf [7]) 0).toMachine (some 7) t := by
  constructor
  · have hf : fetch (tick (quiet 0) (boot (imageOf [0x73]) 0).toMachine) = .word 0x73 := by
      decide +kernel
    have hc : IsEcall (quiet 0) (boot (imageOf [0x73]) 0) := ⟨0x73, hf, rfl, rfl, rfl⟩
    obtain ⟨t, hl, -⟩ := atLoopEnd_of_ecall hc rfl (.inr rfl)
    exact ⟨t, .call t hc rfl hl, (trap_frame_iff (.call t hc rfl hl) (.inr rfl)).mpr trivial⟩
  · have hf : fetch (tick (quiet 0) (boot (imageOf [7]) 0).toMachine) = .word 7 := by
      decide +kernel
    have hend : (atLoopEnd (quiet 0) (boot (imageOf [7]) 0)).any fun s' =>
        decide (s'.flags.ldAccFault = false ∧ selectInterrupt (refresh s'.toMachine).csr = none ∧
          s'.flags.first = some (causeIllegalInstruction, Flags.clear) ∧
          trapModeSelect causeIllegalInstruction false s'.cp s'.csr = some .mmode) := by
      decide +kernel
    have hnext : (next? (quiet 0) (boot (imageOf [7]) 0)).isSome := by decide +kernel
    obtain ⟨s', hl, hs'⟩ := (Option.any_eq_true _ _).mp hend
    obtain ⟨hacc, hi, hfirst, hm⟩ := of_decide_eq_true hs'
    obtain ⟨t, ht⟩ := Option.isSome_iff_exists.mp hnext
    have htrap : Trap (quiet 0) (boot (imageOf [7]) 0) .mmode (.raised (some 7) (some 7))
        (boot (imageOf [7]) 0).toMachine dramBase t :=
      .raised s' t 7 causeIllegalInstruction _ rfl hf hl (.inr ⟨hacc, hi, hfirst⟩) hm
        (.inl (next_of_next? ht))
    refine ⟨t, htrap, (trap_frame_iff htrap (.inr rfl)).mpr ?_⟩
    rintro x ⟨⟩
    rfl

/-- `csrrwi medeleg, 4`; `auipc x3, 0`; `addi x3, x3, 16`; `csrrw x0, sepc, x3`; `sret` into user mode;
there a word that is no instruction. -/
def delegatedIllegalProgram : List Word :=
  [0x30225073, 0x00000197, 0x01018193, 0x14119073, 0x10200073, 0x00000007]

/-- The illegal instruction goes to supervisor mode, and its word to `mtval`. -/
theorem trap_frame_fails :
    ¬ ∀ (image : Memory) (time : Word) (is : List Input) (inp : Input) (s t : State) (h : Plevel)
      (k : TrapKind) (m : Machine) (epc : Word), Run Next (boot image time) is s →
      Trap inp s h k m epc t → h.handles → TrapFrame h m k.tval t := by
  intro h
  obtain ⟨s, hr, hs⟩ := exists_run (boot (imageOf delegatedIllegalProgram) 0)
    (List.replicate 5 (quiet 0))
    (fun s => decide (s.flags = Flags.clear ∧ fetch (tick (quiet 0) s.toMachine) = .word 7 ∧
      ((atLoopEnd (quiet 0) s).any fun s' =>
        s'.flags.ldAccFault = false ∧ selectInterrupt (refresh s'.toMachine).csr = none ∧
        s'.flags.first = some (causeIllegalInstruction, Flags.clear) ∧
        trapModeSelect causeIllegalInstruction false s'.cp s'.csr = some .smode) ∧
      (next? (quiet 0) s).any fun t => t.csr.stval ≠ 7)) (by decide +kernel)
  obtain ⟨hc, hf, hentry, hany⟩ := of_decide_eq_true hs
  obtain ⟨s', hl, hs'⟩ := (Option.any_eq_true _ _).mp hentry
  obtain ⟨hacc, hi, hfirst, hm⟩ := of_decide_eq_true hs'
  obtain ⟨t, hn, ht⟩ := (Option.any_eq_true _ _).mp hany
  have htrap := Trap.raised s' t 7 _ _ hc hf hl (.inr ⟨hacc, hi, hfirst⟩) hm
    (.inl (next_of_next? hn))
  have hframe := h _ _ _ _ _ _ _ _ _ _ hr htrap (.inl rfl)
  have hcarries : carries 7 (switchMachine (quiet 0) s) causeIllegalInstruction = some 7 := if_pos rfl
  exact of_decide_eq_true ht (hframe.tval 7 hcarries)

end RiscvEmu
