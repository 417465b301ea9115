import RiscvEmu.Control
import RiscvEmu.CsrInstructions

/-! The stop at the end of the loop body, where the program counter is that of the instruction just
executed. From a stop that `Rests`, every later iteration finds the machine as it was. -/

namespace RiscvEmu

open Runs

variable {inp i : Input} {ins : Word}

def Csrs.uncounted (c : Csrs) : Csrs := { c with cycle := 0, instret := 0, timeCsr := 0 }

structure Unchanged (m m' : Machine) : Prop where
  regs : ∀ r, r ≠ 0 → m'.regFile r = m.regFile r
  mem : ∀ c, c ≠ mtimeCell → m'.mem c = m.mem c
  csr : m'.csr.uncounted = m.csr.uncounted
  cp : m'.cp = m.cp
  pc : m'.pc = m.pc

def Advances (inp : Input) (s : State) : Prop := s.mtime ≤ inp.timeInMicros * 10

/-- Whatever the clock does, every further iteration goes through and changes nothing. -/
def Stuck (t : State) : Prop :=
  ∀ is u, Run (fun i a b => Advances i a ∧ Completes i a b) t is u →
    Unchanged t.toMachine u.toMachine ∧ ∀ i, Advances i u → ∃ v, Completes i u v

/-- `if (lPC==PC)` stops the iteration from `s` in `t`. -/
def StopsAt (inp : Input) (s t : State) : Prop :=
  ∃ s', atLoopEnd inp s = some s' ∧ loopEnd s.pc s' = .halt .leave t

/-- The iteration that stops has done no more than bring the clock, `mip.STIP` and `mstatus.SD` up
to date, and the machine is stuck. -/
def SoundStop (inp : Input) (s t : State) : Prop :=
  Unchanged (refresh (tick inp s.toMachine)) t.toMachine ∧ Stuck t

def Masked (m : Machine) : Prop :=
  match selectInterrupt m.csr with
  | some ecode => ∃ h, trapModeSelect ecode true m.cp m.csr = some h ∧ m.csr.xie h ≠ 1
  | none => m.flags.first = none

/-- The jumps and trap returns that find in place what they write, the program counter apart. -/
inductive Idles (ins : Word) (m : Machine) : Prop
  | cjump (ho : opcode ins = .cjump)
  | link (ho : opcode ins = .jump ∨ opcode ins = .jumpr)
      (hl : rd ins = 0 ∨ m.reg (rd ins) = m.pc + 4)
  | mret (hi : IsMret ins) (hc : m.cp = .umode)
      (hs : m.csr.mstatus.mie = 1 ∧ m.csr.mstatus.mpp = 0 ∧ m.csr.mstatus.mpie = 0)
  | sret (hi : IsSret ins) (hc : m.cp = .umode)
      (hs : m.csr.mstatus.sie = 1 ∧ m.csr.mstatus.spp = 0 ∧ m.csr.mstatus.spie = 1)

def TimerSettled (inp : Input) (m : Machine) : Prop :=
  m.mtimecmp ≤ inp.timeInMicros * 10 ∨ m.mtimecmp = -1

/-- The condition on the state before the iteration under which a stop is sound. -/
def Rests (inp : Input) (s : State) : Prop :=
  ∃ ins, Idles ins s.toMachine ∧
    (∀ i, inp.timeInMicros * 10 ≤ i.timeInMicros * 10 → ins ∈ executed i s) ∧
    TimerSettled inp s.toMachine ∧ Masked (refresh (tick inp s.toMachine))

/-! ### Machines that an iteration cannot tell apart -/

def Csrs.settled (c : Csrs) : Csrs :=
  { c.uncounted with
    mstatus := { c.mstatus with sd := 0 }
    mip := { c.mip with stip := 0 } }

structure Same (m n : Machine) : Prop where
  regs : ∀ r, r ≠ 0 → n.regFile r = m.regFile r
  mem : ∀ c, c ≠ mtimeCell → n.mem c = m.mem c
  csr : n.csr.settled = m.csr.settled
  cp : n.cp = m.cp
  pc : n.pc = m.pc
  flags : n.flags = m.flags

theorem Same.refl (m : Machine) : Same m m :=
  ⟨fun _ _ => rfl, fun _ _ => rfl, rfl, rfl, rfl, rfl⟩

theorem Same.trans {m n k : Machine} (h : Same m n) (h' : Same n k) : Same m k where
  regs r hr := (h'.regs r hr).trans (h.regs r hr)
  mem c hc := (h'.mem c hc).trans (h.mem c hc)
  csr := h'.csr.trans h.csr
  cp := h'.cp.trans h.cp
  pc := h'.pc.trans h.pc
  flags := h'.flags.trans h.flags

theorem Unchanged.symm {m n : Machine} (h : Unchanged m n) : Unchanged n m where
  regs r hr := (h.regs r hr).symm
  mem c hc := (h.mem c hc).symm
  csr := h.csr.symm
  cp := h.cp.symm
  pc := h.pc.symm

theorem Unchanged.trans {m n k : Machine} (h : Unchanged m n) (h' : Unchanged n k) :
    Unchanged m k where
  regs r hr := (h'.regs r hr).trans (h.regs r hr)
  mem c hc := (h'.mem c hc).trans (h.mem c hc)
  csr := h'.csr.trans h.csr
  cp := h'.cp.trans h.cp
  pc := h'.pc.trans h.pc

theorem same_tick (inp : Input) (m : Machine) : Same m (tick inp m) where
  regs _ _ := rfl
  mem _ hc := Memory.set_of_ne m.mem hc _
  csr := rfl
  cp := rfl
  pc := rfl
  flags := rfl

theorem same_refresh (m : Machine) : Same m (refresh m) :=
  ⟨fun _ _ => rfl, fun _ _ => rfl, rfl, rfl, rfl, rfl⟩

theorem Same.of_unchanged {m n : Machine} (h : Unchanged m n) (hf : n.flags = m.flags) :
    Same m n where
  regs := h.regs
  mem := h.mem
  csr := congrArg (fun c : Csrs => { c with
    mstatus := { c.mstatus with sd := 0 }
    mip := { c.mip with stip := 0 } }) h.csr
  cp := h.cp
  pc := h.pc
  flags := hf

/-- Once the pending bit agrees, `refresh` makes the same registers out of settled ones. -/
theorem refresh_uncounted {m n : Machine} (h : n.csr.settled = m.csr.settled)
    (ht : n.mtime ≥ n.mtimecmp ↔ m.mtime ≥ m.mtimecmp) :
    (refresh n).csr.uncounted = (refresh m).csr.uncounted := by
  have key (k : Machine) : (refresh k).csr.uncounted =
      { k.csr.settled with
        mstatus := { k.csr.settled.mstatus with
          sd := if k.csr.settled.mstatus.fs = 3 then 1 else 0 }
        mip := { k.csr.settled.mip with stip := if k.mtime ≥ k.mtimecmp then 1 else 0 } } := rfl
  rw [key, key, h]
  simp only [ht]

theorem mtime_tick (inp : Input) (m : Machine) : (tick inp m).mtime = inp.timeInMicros * 10 :=
  Memory.set_same m.mem mtimeCell _

theorem mem_tick {m n : Machine} (h : Same m n) (inp : Input) :
    (tick inp n).mem = (tick inp m).mem := by
  funext c
  by_cases hc : c = mtimeCell
  · rw [hc]
    exact (mtime_tick inp n).trans (mtime_tick inp m).symm
  · exact ((same_tick inp n).mem c hc).trans
      ((h.mem c hc).trans ((same_tick inp m).mem c hc).symm)

theorem translate_settled (c : Csrs) (mem : Memory) (va : Word) (ty : Ttype) (cp : Plevel) :
    translate c.settled mem va ty cp = translate c mem va ty cp := rfl

theorem fetch_same {m n : Machine} (h : Same m n) (inp : Input) :
    fetch (tick inp n) = fetch (tick inp m) := by
  have hcsr : (tick inp n).csr.settled = (tick inp m).csr.settled := h.csr
  have hpc : (tick inp n).pc = (tick inp m).pc := h.pc
  have hcp : (tick inp n).cp = (tick inp m).cp := h.cp
  unfold fetch
  rw [← translate_settled, hcsr, translate_settled, mem_tick h, hpc, hcp]

theorem executed_same {s a : State} (h : Same s.toMachine a.toMachine) (inp : Input) :
    executed inp a = executed inp s := congrArg Fetched.word? (fetch_same h inp)

/-! ### The instructions that rest -/

def landing (ins : Word) (d : State) : Word :=
  match opcode ins with
  | .jump => d.pc - 4 + signExtend (immJ ins) 21
  | .jumpr => (d.reg (rs1 ins) + signExtend (imm11_0 ins) 12) &&& 0xFFFFFFFFFFFFFFFE
  | .cjump => if branchTest ins d then d.pc - 4 + signExtend (immB ins) 13 else d.pc
  | _ => if imm11_0 ins = 770 then d.csr.mepc else d.csr.sepc

structure Lands (ins : Word) (d d' : State) : Prop where
  regs : ∀ r, r ≠ 0 → d'.regFile r = d.regFile r
  mem : d'.mem = d.mem
  csr : d'.csr = d.csr
  cp : d'.cp = d.cp
  pc : d'.pc = landing ins d
  flags : d'.flags = d.flags
  branch : opcode ins = .cjump → d'.branch = branchTest ins d

theorem regSet_idle {m : Machine} {r v : Word} (h : r = 0 ∨ m.reg r = v) {x : BitVec 5}
    (hx : x ≠ 0) : m.regSet r v x = m.regFile x := by
  unfold Machine.regSet
  by_cases hr : x = r.setWidth 5
  · subst hr
    rw [Function.update_self]
    rcases h with rfl | h
    · exact absurd rfl hx
    · exact h.symm
  · exact Function.update_of_ne hr _ _

theorem switch_reg {m : Machine} {r : Word} (h : r.setWidth 5 ≠ (0 : BitVec 5)) :
    (advance (tick inp m)).reg r = m.reg r := Function.update_of_ne h _ _

theorem link_idle {m : Machine} {r : Word} (h : r = 0 ∨ m.reg r = m.pc + 4) {x : BitVec 5}
    (hx : x ≠ 0) :
    (advance (tick inp m)).regSet r (m.pc + 4) x = (advance (tick inp m)).regFile x := by
  by_cases hr : r.setWidth 5 = (0 : BitVec 5)
  · unfold Machine.regSet
    rw [hr, Function.update_of_ne hx]
  · refine regSet_idle (h.imp_right fun h => ?_) hx
    rw [switch_reg hr, h]

theorem mret_idle {m : Mstatus} (h : m.mie = 1 ∧ m.mpp = 0 ∧ m.mpie = 0) :
    { m with mie := 1, mpp := 0, mpie := 0 } = m := by
  cases m
  obtain ⟨rfl, rfl, rfl⟩ := h
  rfl

theorem sret_idle {m : Mstatus} (h : m.sie = 1 ∧ m.spp = 0 ∧ m.spie = 1) :
    { m with spp := 0, sie := m.spie, spie := 1 } = m := by
  cases m
  obtain ⟨rfl, rfl, rfl⟩ := h
  rfl

theorem execute_idles {s : State} (h : Idles ins s.toMachine) (inp : Input) :
    ∃ d, execute inp ins (switchState inp s) = .fall d ∧ Lands ins (switchState inp s) d := by
  cases h with
  | cjump ho =>
    refine ⟨armCjump ins (switchState inp s), by unfold execute; rw [ho], ?_⟩
    unfold armCjump
    dsimp only
    split_ifs with hb
    · exact ⟨fun _ _ => rfl, rfl, rfl, rfl, by simp only [landing, ho, hb, if_true], rfl,
        fun _ => rfl⟩
    · exact ⟨fun _ _ => rfl, rfl, rfl, rfl,
        by simp only [landing, ho, hb, Bool.false_eq_true, if_false], rfl, fun _ => rfl⟩
  | link ho hl =>
    rcases ho with ho | ho
    · exact ⟨armJump ins (switchState inp s), by unfold execute; rw [ho],
        fun r hr => link_idle hl hr, rfl, rfl, rfl, by rw [landing, ho]; rfl, rfl,
        fun h => by rw [ho] at h; cases h⟩
    · exact ⟨armJumpr ins (switchState inp s), by unfold execute; rw [ho],
        fun r hr => link_idle hl hr, rfl, rfl, rfl, by rw [landing, ho]; rfl, rfl,
        fun h => by rw [ho] at h; cases h⟩
  | mret hi hc hs =>
    refine ⟨_, mret_falls inp _ hi, fun _ _ => rfl, rfl, ?_, ?_, ?_, rfl, ?_⟩
    · exact congrArg (fun x => { (switchState inp s).csr with mstatus := x }) (mret_idle hs)
    · exact (congrArg Plevel.ofByte hs.2.1).trans hc.symm
    · rw [landing, hi.1]
      exact (if_pos hi.2.2).symm
    · rw [hi.1]
      exact nofun
  | sret hi hc hs =>
    refine ⟨_, sret_falls inp _ hi, fun _ _ => rfl, rfl, ?_, ?_, ?_, rfl, ?_⟩
    · exact congrArg (fun x => { (switchState inp s).csr with mstatus := x }) (sret_idle hs)
    · exact (congrArg Plevel.ofByte hs.2.1).trans hc.symm
    · rw [landing, hi.1, hi.2.2]
      rfl
    · rw [hi.1]
      exact nofun

/-- A branch test comes out again as before, also where its `func3` leaves `branch` alone. -/
theorem branchTest_again {a b : State} (hr : b.regFile = a.regFile)
    (hb : b.branch = branchTest ins a) : branchTest ins b = branchTest ins a := by
  have hreg (r : Word) : b.reg r = a.reg r := congrFun hr _
  unfold branchTest at hb ⊢
  simp only [hreg]
  split
  -- the other values of `func3` have no arm
  case h_7 h0 h1 h4 h5 h6 h7 => simpa only [h0, h1, h4, h5, h6, h7] using hb
  all_goals rfl

/-! ### The end of the iteration -/

theorem Masked.congr {m n : Machine} (h : Masked m) (hc : n.csr.uncounted = m.csr.uncounted)
    (hp : n.cp = m.cp) (hf : n.flags = m.flags) : Masked n := by
  have key (k : Machine) : Masked k ↔
      match selectInterrupt k.csr.uncounted with
      | some ecode => ∃ h, trapModeSelect ecode true k.cp k.csr.uncounted = some h ∧
          k.csr.uncounted.xie h ≠ 1
      | none => k.flags.first = none := Iff.rfl
  rw [key, hc, hp, hf]
  exact (key m).mp h

theorem selectTrap_masked {m : Machine} (h : Masked m) (hl : m.flags.ldAccFault = false) :
    selectTrap m = .ret () m := by
  unfold Masked at h
  rw [selectTrap_eq hl]
  cases hi : selectInterrupt m.csr with
  | some ecode =>
    rw [hi] at h
    obtain ⟨k, hk, hx⟩ := h
    exact raiseInterrupt_declines hk hx
  | none =>
    rw [hi] at h
    have hf : m.flags.first = none := h
    dsimp only
    rw [selectException_eq, hf]

/-- The clock only takes even values. -/
theorem TimerSettled.later {m : Machine} (h : TimerSettled inp m)
    (hl : inp.timeInMicros * 10 ≤ i.timeInMicros * 10) :
    i.timeInMicros * 10 ≥ m.mtimecmp ↔ inp.timeInMicros * 10 ≥ m.mtimecmp := by
  rcases h with h | h
  · exact iff_of_true (BitVec.le_trans h hl) h
  · -- the last value of the register is odd, so the clock never gets there
    have odd (x : Word) : ¬ x * 10 ≥ -1 := by
      intro hx
      have hx := BitVec.le_def.mp hx
      rw [BitVec.toNat_mul] at hx
      change 2 ^ 64 - 1 ≤ x.toNat * 10 % 2 ^ 64 at hx
      omega
    rw [h]
    exact iff_of_false (odd _) (odd _)

/-! ### From one iteration to all of them -/

/-- A state that the instruction at rest cannot tell from `s`. -/
structure Resting (ins : Word) (s a : State) : Prop where
  same : Same s.toMachine a.toMachine
  branch : opcode ins = .cjump → branchTest ins (decoded a) = branchTest ins (decoded s)

variable {s a t : State}

theorem Resting.idles (h : Resting ins s a) (hi : Idles ins s.toMachine) :
    Idles ins a.toMachine := by
  have hm : a.csr.settled.mstatus = s.csr.settled.mstatus := congrArg Csrs.mstatus h.same.csr
  cases hi with
  | cjump ho => exact .cjump ho
  | link ho hl =>
    refine .link ho (or_iff_not_imp_left.mpr fun h0 => ?_)
    rw [h.same.pc, ← hl.resolve_left h0]
    exact h.same.regs _ fun hz => h0 ((rd_setWidth_eq_zero ins).mp hz)
  | mret hi hc hs =>
    refine .mret hi (h.same.cp.trans hc) ⟨?_, ?_, ?_⟩
    · exact (congrArg Mstatus.mie hm).trans hs.1
    · exact (congrArg Mstatus.mpp hm).trans hs.2.1
    · exact (congrArg Mstatus.mpie hm).trans hs.2.2
  | sret hi hc hs =>
    refine .sret hi (h.same.cp.trans hc) ⟨?_, ?_, ?_⟩
    · exact (congrArg Mstatus.sie hm).trans hs.1
    · exact (congrArg Mstatus.spp hm).trans hs.2.1
    · exact (congrArg Mstatus.spie hm).trans hs.2.2

theorem Same.advanced {m n : Machine} (h : Same m n) :
    (advance n).regFile = (advance m).regFile := by
  funext r
  change Function.update n.regFile 0 0 r = Function.update m.regFile 0 0 r
  by_cases hr : r = 0
  · rw [hr, Function.update_self, Function.update_self]
  · rw [Function.update_of_ne hr, Function.update_of_ne hr, h.regs r hr]

theorem Resting.landing_eq (h : Resting ins s a) :
    landing ins (switchState i a) = landing ins (switchState inp s) := by
  have hpc : (switchState i a).pc = (switchState inp s).pc := congrArg (· + 4) h.same.pc
  have hreg (r : Word) : (switchState i a).reg r = (switchState inp s).reg r :=
    congrFun h.same.advanced _
  have hmepc : (switchState i a).csr.mepc = (switchState inp s).csr.mepc :=
    (congrArg Csrs.mepc h.same.csr : a.csr.settled.mepc = s.csr.settled.mepc)
  have hsepc : (switchState i a).csr.sepc = (switchState inp s).csr.sepc :=
    (congrArg Csrs.sepc h.same.csr : a.csr.settled.sepc = s.csr.settled.sepc)
  have hb : opcode ins = .cjump →
      branchTest ins (switchState i a) = branchTest ins (switchState inp s) := h.branch
  unfold landing
  rw [hpc, hreg, hmepc, hsepc]
  split
  · rfl
  · rfl
  · rename_i ho
    rw [hb ho]
  · rfl

theorem Resting.falls (h : Resting ins s a) (hi : Idles ins s.toMachine)
    (hw : ins ∈ executed i s) :
    ∃ d, atLoopEnd i a = some d ∧ Lands ins (switchState i a) d := by
  obtain ⟨d, hx, hd⟩ := execute_idles (h.idles hi) i
  rw [← executed_same h.same] at hw
  exact ⟨d, atLoopEnd_of_word (executed_iff.mp hw) hx, hd⟩

theorem mtimecmp_tick (inp : Input) (m : Machine) : (tick inp m).mtimecmp = m.mtimecmp :=
  (same_tick inp m).mem mtimecmpCell (by decide)

theorem Resting.refreshed (h : Resting ins s a) {d : State} (hd : Lands ins (switchState i a) d)
    (ht : TimerSettled inp s.toMachine)
    (hl : inp.timeInMicros * 10 ≤ i.timeInMicros * 10) :
    (refresh d.toMachine).csr.uncounted = (refresh (tick inp s.toMachine)).csr.uncounted := by
  have hcsr : d.csr.settled = s.csr.settled := by
    rw [hd.csr]
    exact h.same.csr
  have hmtime : d.mtime = i.timeInMicros * 10 :=
    (congrFun hd.mem mtimeCell).trans (mtime_tick i a.toMachine)
  have hcmp : d.mtimecmp = s.mtimecmp :=
    (congrFun hd.mem mtimecmpCell).trans
      ((mtimecmp_tick i a.toMachine).trans (h.same.mem mtimecmpCell (by decide)))
  refine refresh_uncounted hcsr ?_
  rw [hmtime, hcmp, mtime_tick, mtimecmp_tick]
  exact ht.later hl

theorem Resting.completes (h : Resting ins s a) (hi : Idles ins s.toMachine)
    (hw : ins ∈ executed i s) (ht : TimerSettled inp s.toMachine)
    (hl : inp.timeInMicros * 10 ≤ i.timeInMicros * 10)
    (hm : Masked (refresh (tick inp s.toMachine))) (hf : s.flags.ldAccFault = false) :
    ∃ d, atLoopEnd i a = some d ∧ Lands ins (switchState i a) d ∧
      selectTrap (refresh d.toMachine) = .ret () (refresh d.toMachine) := by
  obtain ⟨d, hx, hd⟩ := h.falls hi hw
  have hflags : d.flags = s.flags := hd.flags.trans h.same.flags
  have hcp : d.cp = s.cp := hd.cp.trans h.same.cp
  refine ⟨d, hx, hd, selectTrap_masked (hm.congr (h.refreshed hd ht hl) hcp hflags) ?_⟩
  exact (congrArg Flags.ldAccFault hflags).trans hf

theorem Resting.lands (h : Resting ins s a) {d : State} (hd : Lands ins (switchState i a) d)
    (hpc : landing ins (switchState i a) = s.pc) (ht : TimerSettled inp s.toMachine)
    (hl : inp.timeInMicros * 10 ≤ i.timeInMicros * 10) :
    Unchanged (refresh (tick inp s.toMachine)) (refresh d.toMachine) ∧
      Resting ins s { d with toMachine := refresh d.toMachine } := by
  have hregs (r : BitVec 5) (hr : r ≠ 0) : d.regFile r = s.regFile r :=
    (hd.regs r hr).trans ((Function.update_of_ne hr _ _).trans (h.same.regs r hr))
  have hmem (c : Cell) (hc : c ≠ mtimeCell) : d.mem c = s.mem c := by
    rw [hd.mem]
    exact ((same_tick i a.toMachine).mem c hc).trans (h.same.mem c hc)
  have hun : Unchanged (refresh (tick inp s.toMachine)) (refresh d.toMachine) :=
    ⟨hregs, fun c hc => (hmem c hc).trans ((same_tick inp s.toMachine).mem c hc).symm,
      h.refreshed hd ht hl, hd.cp.trans h.same.cp, hd.pc.trans hpc⟩
  have hsame : Same s.toMachine (refresh d.toMachine) :=
    (same_tick inp s.toMachine).trans ((same_refresh _).trans
      (.of_unchanged hun (hd.flags.trans h.same.flags)))
  refine ⟨hun, hsame, fun ho => ?_⟩
  have hagain : branchTest ins (decoded { d with toMachine := refresh d.toMachine }) =
      branchTest ins (decoded a) :=
    branchTest_again (hsame.advanced.trans h.same.advanced.symm) (hd.branch ho)
  exact hagain.trans (h.branch ho)

theorem Resting.refl (ins : Word) (s : State) : Resting ins s s := ⟨.refl _, fun _ => rfl⟩

structure RestingSince (inp : Input) (ins : Word) (s a : State) : Prop extends Resting ins s a where
  unchanged : Unchanged (refresh (tick inp s.toMachine)) a.toMachine
  later : inp.timeInMicros * 10 ≤ a.mtime

theorem Resting.since (h : Resting ins s a) {d : State} (hd : Lands ins (switchState i a) d)
    (hpc : landing ins (switchState i a) = s.pc) (ht : TimerSettled inp s.toMachine)
    (hl : inp.timeInMicros * 10 ≤ i.timeInMicros * 10) :
    RestingSince inp ins s { d with toMachine := refresh d.toMachine } := by
  obtain ⟨hun, hk⟩ := h.lands hd hpc ht hl
  have hmtime : d.mtime = i.timeInMicros * 10 :=
    (congrFun hd.mem mtimeCell).trans (mtime_tick i a.toMachine)
  exact ⟨hk, hun, by rw [← hmtime] at hl; exact hl⟩

theorem stuck_of_restingSince (hi : Idles ins s.toMachine)
    (hw : ∀ i, inp.timeInMicros * 10 ≤ i.timeInMicros * 10 → ins ∈ executed i s)
    (ht : TimerSettled inp s.toMachine) (hm : Masked (refresh (tick inp s.toMachine)))
    (hf : s.flags.ldAccFault = false) (hpc : landing ins (switchState inp s) = s.pc)
    (hs : RestingSince inp ins s t) : Stuck t := by
  intro is u hr
  have hu : RestingSince inp ins s u := hr.invariant hs fun i a b ha hab => by
    have hl : inp.timeInMicros * 10 ≤ i.timeInMicros * 10 := BitVec.le_trans ha.later hab.1
    obtain ⟨d, hx, hd, hsel⟩ := ha.completes hi (hw i hl) ht hl hm hf
    -- an iteration has one outcome, so the run has gone to the state that the machine rests in
    obtain ⟨m, hret, rfl⟩ := (completes_iff_of_atLoopEnd hx).mp hab.2
    rw [hsel] at hret
    cases hret
    exact ha.since hd (ha.landing_eq.trans hpc) ht hl
  refine ⟨hs.unchanged.symm.trans hu.unchanged, fun i hadv => ?_⟩
  have hl : inp.timeInMicros * 10 ≤ i.timeInMicros * 10 := BitVec.le_trans hu.later hadv
  obtain ⟨d, hx, -, hsel⟩ := hu.completes hi (hw i hl) ht hl hm hf
  exact ⟨_, (completes_iff_of_atLoopEnd hx).mpr ⟨_, hsel, rfl⟩⟩

theorem soundStop_of_rests (hf : s.flags.ldAccFault = false) (hs : StopsAt inp s t)
    (hr : Rests inp s) : SoundStop inp s t := by
  obtain ⟨ins, hi, hw, ht, hm⟩ := hr
  have hl : inp.timeInMicros * 10 ≤ inp.timeInMicros * 10 := BitVec.le_refl _
  have h := Resting.refl ins s
  obtain ⟨d, hx, hd, hsel⟩ := h.completes hi (hw inp hl) ht hl hm hf
  obtain ⟨s', hx', hstop⟩ := hs
  rw [hx] at hx'
  cases hx'
  unfold loopEnd at hstop
  rw [hsel] at hstop
  dsimp only at hstop
  split_ifs at hstop with hpc
  cases hstop
  have hland : landing ins (switchState inp s) = s.pc := (hpc.trans hd.pc).symm
  have hk := h.since hd hland ht hl
  exact ⟨hk.unchanged, stuck_of_restingSince hi hw ht hm hf hland hk⟩

/-! ### Stops in a run -/

theorem first_ldAccFault {f g : Flags} {ecode : Word} (h : f.first = some (ecode, g)) :
    g.ldAccFault = f.ldAccFault := by
  unfold Flags.first at h
  split_ifs at h <;> cases h <;> rfl

theorem Effect.ldAccFault {m m' : Machine} (he : Effect inp ins m m') :
    m'.flags.ldAccFault = m.flags.ldAccFault := by
  have side {x : Machine} (hs : LoadSide m x) : x.flags.ldAccFault = m.flags.ldAccFault := by
    rcases hs with rfl | ⟨-, rfl⟩ <;> rfl
  cases he with
  | load x r hs => exact side (x := x) hs
  | loadMis x va hs => exact side (x := x) hs
  | device as x h =>
    exact deviceActs_invariant (P := fun x => x.flags.ldAccFault = m.flags.ldAccFault)
      (fun _ _ _ h => h) (fun _ _ _ _ h => h) h rfl
  | ecall pc x h =>
    obtain ⟨hm, e, epc, -, -, -, rfl⟩ := excepFunction_enters h
    exact congrArg Flags.ldAccFault (enter_flags hm 0 e epc _ m)
  | _ => rfl

theorem Selected.ldAccFault {m m' : Machine} (h : Selected m m')
    (hl : m.flags.ldAccFault = false) : m'.flags.ldAccFault = false := by
  cases h with
  | none => exact hl
  | declined => exact hl
  | interrupt ecode hm => exact (congrArg Flags.ldAccFault (enter_flags hm ..)).trans hl
  | exception ecode hm f hf =>
    have hfirst := (hf.resolve_left (by rw [hl]; exact nofun)).2
    exact (congrArg Flags.ldAccFault (enter_flags hm ..)).trans ((first_ldAccFault hfirst).trans hl)

theorem ldAccFault_next (hl : s.flags.ldAccFault = false) (h : Next inp s t) :
    t.flags.ldAccFault = false := by
  have hturn := next_turn h
  generalize t.toMachine = m at hturn ⊢
  cases hturn with
  | fetchFault hm hh => exact (congrArg Flags.ldAccFault (fetchFaulted_flags hm _)).trans hl
  | cont ins _ hf hc =>
    cases hc with
    | fence => exact hl
    | fault hm ecode va => exact (congrArg Flags.ldAccFault (faulted_flags hm ecode va _)).trans hl
  | fall s' ins _ hx hf he ht => exact ht.ldAccFault (he.ldAccFault.trans hl)

/-- `LD_ACC_FAULT` is tested at the end of the loop body and set nowhere. -/
theorem ldAccFault_of_run {image : Memory} {time : Word} {is : List Input}
    (h : Run Next (boot image time) is s) : s.flags.ldAccFault = false :=
  Run.invariant (P := fun s : State => s.flags.ldAccFault = false) rfl
    (fun _ _ _ => ldAccFault_next) h

/-- In any run, a stop in a state that rests is sound. -/
theorem infinite_loop_sound {image : Memory} {time : Word} {is : List Input}
    (hrun : Run Next (boot image time) is s) (hs : StopsAt inp s t) (hr : Rests inp s) :
    SoundStop inp s t := soundStop_of_rests (ldAccFault_of_run hrun) hs hr

def stop? (inp : Input) (s : State) : Option State :=
  (atLoopEnd inp s).bind fun s' =>
    match loopEnd s.pc s' with
    | .halt .leave t => some t
    | _ => none

theorem stopsAt_of_stop? (h : stop? inp s = some t) : StopsAt inp s t := by
  obtain ⟨s', hs', h⟩ := Option.bind_eq_some_iff.mp h
  refine ⟨s', hs', ?_⟩
  split at h
  · rename_i hl
    cases h
    exact hl
  · cases h

theorem boot_mem {c : Cell} (h : c ≠ mtimeCell) (h' : c ≠ mtimecmpCell) (image : Memory)
    (time : Word) : (boot image time).mem c = image c := by
  show ((image.set mtimeCell 0).set mtimecmpCell (-1)) c = image c
  rw [Memory.set_of_ne _ h', Memory.set_of_ne _ h]

theorem fetch_dramBase {m : Machine} (hs : m.csr.satp.mode = 0) (hp : m.pc = dramBase) :
    fetch m = .word (mask32 &&& m.mem ⟨0, by decide⟩) := by
  have htr : translate m.csr m.mem m.pc .inst m.cp = .ok dramBase := by
    unfold translate
    rw [hs, hp]
    rfl
  have hexit : ¬(m.cp = .umode ∧ dramBase = 0) := fun h => absurd h.2 (by decide)
  unfold fetch
  rw [htr, hp]
  exact if_neg hexit

theorem fetch_boot (image : Memory) (time : Word) (i : Input) :
    fetch (tick i (boot image time).toMachine) = .word (mask32 &&& image ⟨0, by decide⟩) := by
  rw [fetch_dramBase rfl rfl, (same_tick i _).mem _ (by decide), boot_mem (by decide) (by decide)]

/-- `j .` -/
def restImage : Memory := imageOf [0x0000006f]

theorem restImage_rests : Rests (quiet 0) (boot restImage 0) := by
  refine ⟨0x0000006f, .link (.inl (by decide)) (.inl (by decide)), fun i _ => ?_, .inr rfl, ?_⟩
  · exact executed_iff.mpr (fetch_boot restImage 0 i)
  · exact (rfl : (boot restImage 0).flags.first = none)

theorem infinite_loop_sound_reset :
    ∃ t, StopsAt (quiet 0) (boot restImage 0) t ∧ SoundStop (quiet 0) (boot restImage 0) t := by
  obtain ⟨t, ht⟩ := Option.isSome_iff_exists.mp
    (show (stop? (quiet 0) (boot restImage 0)).isSome = true by decide +kernel)
  have hs := stopsAt_of_stop? ht
  have hrun : Run Next (boot restImage 0) [] (boot restImage 0) := .start
  exact ⟨t, hs, infinite_loop_sound hrun hs restImage_rests⟩

/-- `mtimecmp` is set to 20, `mie.STIE` and `mideleg` let the supervisor timer interrupt through,
and `mret` goes to supervisor mode with `mstatus.SIE` set, where a `j .` waits for it. -/
def timerProgram : List Word :=
  [0x020040b7, 0x01400113, 0x0020b023, 0x02000193, 0x30419073, 0x30319073, 0x00000217, 0x02420213,
    0x34121073, 0x00420213, 0x10521073, 0x000012b7, 0x80228293, 0x30029073, 0x30200073, 0x0000006f]

/-- The loop stops at the `j .` two microseconds before the handler would have been entered. -/
theorem infinite_loop_fails :
    ¬ ∀ (image : Memory) (time : Word) (is : List Input) (s t : State) (inp : Input),
      Run Next (boot image time) is s → StopsAt inp s t → SoundStop inp s t := by
  intro h
  obtain ⟨s, hr, hs⟩ := exists_run (boot (imageOf timerProgram) 0) (List.replicate 15 (quiet 0))
    (fun s => (stop? (quiet 0) s).any fun t : State => decide (t.mtime ≤ 20) &&
      (next? (quiet 2) t).any fun u : State => decide (u.pc ≠ t.pc))
    (by decide +kernel)
  obtain ⟨t, ht, hs⟩ := (Option.any_eq_true _ _).mp hs
  obtain ⟨hle, hs⟩ := Bool.and_eq_true_iff.mp hs
  obtain ⟨u, hu, hpc⟩ := (Option.any_eq_true _ _).mp hs
  have hadv : Advances (quiet 2) t := of_decide_eq_true (p := t.mtime ≤ 20) hle
  obtain ⟨-, hstuck⟩ := h _ _ _ _ _ _ hr (stopsAt_of_stop? ht)
  have hrun : Run (fun i a b => Advances i a ∧ Completes i a b) t [quiet 2] u :=
    .next .start ⟨hadv, .inl (next_of_next? hu)⟩
  exact of_decide_eq_true hpc (hstuck _ _ hrun).1.pc

end RiscvEmu
