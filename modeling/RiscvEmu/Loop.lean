import RiscvEmu.IntegerArms
import RiscvEmu.System

/-! One iteration of the `while (1)` loop: the per-iteration counters and clock, the fetch, the
opcode `switch`, and the selection of an interrupt or exception at the end. -/

namespace RiscvEmu

/-- The top of the loop, up to `time_csr = mtime`. -/
def tick (inp : Input) (m : Machine) : Machine :=
  let n := m.cycleCount + 1
  let mtime := inp.timeInMicros * 10
  { m with
    cycleCount := n
    mem := m.mem.set mtimeCell mtime
    csr := { m.csr with cycle := n, instret := n, timeCsr := mtime } }

inductive Fetched
  | word (instruction : Word)
  | fault
  | stop (h : Halt)
  deriving DecidableEq

def fetch (m : Machine) : Fetched :=
  match translate m.csr m.mem m.pc .inst m.cp with
  | .error h => .stop h
  | .ok pa =>
    if m.cp = .umode ∧ m.pc = 0 then .stop (.exit 0)
    else if pa = -1 then .fault
    else if pa ≥ dramBase then
      match getINST ((pa - dramBase) / 4) m.mem with
      | none => .stop .outOfRange
      | some w => .word w
    else .stop .leave

def fetchFault (m : Machine) : Call Unit :=
  match raiseExcep (m.pc + 4) causeFetchPageFault (setMtval m m.pc) with
  | .stop h m => .stop h m
  | .ret () m =>
    .ret () { m with csr := { m.csr with utval := m.csr.mtval, stval := m.csr.mtval } }

def execute (inp : Input) (ins : Word) (s : State) : Res :=
  match opcode ins with
  | .lui => .fall (armLui ins s)
  | .auipc => .fall (armAuipc ins s)
  | .jump => .fall (armJump ins s)
  | .jumpr => .fall (armJumpr ins s)
  | .cjump => .fall (armCjump ins s)
  | .load => armLoad inp ins s
  | .store => armStore inp ins s
  | .iops => .fall (armIops ins s)
  | .iops64 => .fall (armIops64 ins s)
  | .rops => armRops ins s
  | .rops64 => armRops64 ins s
  | .amo => armAmo ins s
  | .fence => .cont s
  | .systm => armSystm inp ins s
  | .fd1 | .fd2 | .fd3 | .fd4 | .fd5 | .fd6 | .fd7 => .fall (illegal ins s)
  | .other => .fall s

section

variable {inp : Input} {ins : Word} {s : State}

theorem execute_load (h : opcode ins = .load) : execute inp ins s = armLoad inp ins s := by
  unfold execute
  rw [h]

theorem execute_store (h : opcode ins = .store) : execute inp ins s = armStore inp ins s := by
  unfold execute
  rw [h]

theorem execute_amo (h : opcode ins = .amo) : execute inp ins s = armAmo ins s := by
  unfold execute
  rw [h]

theorem execute_systm (h : opcode ins = .systm) : execute inp ins s = armSystm inp ins s := by
  unfold execute
  rw [h]

end

/-- `mstatus.sd` and `mip.STIP` after the `switch`. -/
def refresh (m : Machine) : Machine :=
  { m with csr := { m.csr with
    mstatus := { m.csr.mstatus with sd := if m.csr.mstatus.fs = 3 then 1 else 0 }
    mip := { m.csr.mip with stip := if m.mtime ≥ m.mtimecmp then 1 else 0 } } }

/-- The nine interrupt tests of the `else if` chain, in its order. -/
def selectInterrupt (c : Csrs) : Option Word :=
  if c.mie.meie &&& c.mip.meip ≠ 0 then some causeMachineExtInt
  else if c.mie.mtie &&& c.mip.mtip ≠ 0 then some causeMachineTimerInt
  else if c.mie.msie &&& c.mip.msip ≠ 0 then some causeMachineSoftInt
  else if c.mie.seie &&& c.mip.seip ≠ 0 then some causeSupervisorExtInt
  else if c.mie.stie &&& c.mip.stip ≠ 0 then some causeSupervisorTimerInt
  else if c.mie.ssie &&& c.mip.ssip ≠ 0 then some causeSupervisorSoftInt
  else if c.mie.ueie &&& c.mip.ueip ≠ 0 then some causeUserExtInt
  else if c.mie.utie &&& c.mip.utip ≠ 0 then some causeUserTimerInt
  else if c.mie.usie &&& c.mip.usip ≠ 0 then some causeUserSoftInt
  else none

def selectException (m : Machine) : Call Unit :=
  let f := m.flags
  if f.insAccFault then
    raiseExcep m.pc causeFetchAccess { m with flags := { f with insAccFault := false } }
  else if f.illIns then
    raiseExcep m.pc causeIllegalInstruction { m with flags := { f with illIns := false } }
  else if f.ebreak then
    raiseExcep m.pc causeBreakpoint { m with flags := { f with ebreak := false } }
  else if f.insAddrMissalig then
    raiseExcep m.pc causeMisalignedFetch { m with flags := { f with insAddrMissalig := false } }
  else if f.ldAddrMissalig then
    raiseExcep m.pc causeMisalignedLoad { m with flags := { f with ldAddrMissalig := false } }
  else if f.storeAddrMissalig then
    raiseExcep m.pc causeMisalignedStore { m with flags := { f with storeAddrMissalig := false } }
  else .ret () m

/-- The whole chain: a load access fault, then interrupts, then the other exceptions. -/
def selectTrap (m : Machine) : Call Unit :=
  if m.flags.ldAccFault then
    raiseExcep m.pc causeLoadAccess { m with flags := { m.flags with ldAccFault := false } }
  else
    match selectInterrupt m.csr with
    | some ecode => raiseInterrupt ecode m
    | none => selectException m

/-- The end of the loop body, where an instruction that was at `lpc` may turn out to have jumped to
itself. -/
def loopEnd (lpc : Word) (s : State) : Step :=
  match selectTrap (refresh s.toMachine) with
  | .stop h m => .halt h { s with toMachine := m }
  | .ret () m =>
    if lpc = m.pc then .halt .leave { s with toMachine := m } else .next { s with toMachine := m }

/-- `reg_file[0] = 0` and `PC += 4`, between the fetch and the opcode `switch`. -/
def advance (m : Machine) : Machine :=
  { m with regFile := Function.update m.regFile 0 0, pc := m.pc + 4 }

def decoded (s : State) : State := { s with toMachine := advance s.toMachine, wbData := 0 }

def iterate (inp : Input) (s : State) : Step :=
  let s := { s with toMachine := tick inp s.toMachine }
  match fetch s.toMachine with
  | .stop h => .halt h s
  | .fault =>
    match fetchFault s.toMachine with
    | .stop h m => .halt h { s with toMachine := m }
    | .ret () m => .next { s with toMachine := m }
  | .word ins =>
    match execute inp ins (decoded s) with
    | .stop h s => .halt h s
    | .cont s => .next s
    | .fall s' => loopEnd s.pc s'

def Next (inp : Input) (s t : State) : Prop := iterate inp s = .next t

/-- The load loop, from line `i` of `data_hex.txt` on; none where `memory.at` throws. -/
def loadImage : Word → List Word → Memory → Option Memory
  | _, [], mem => some mem
  | i, temp :: lines, mem =>
    match cell? (i / 2) with
    | none => none
    | some c => loadImage (i + 1) lines
        (mem.set c (if i % 2 = 0 then temp else mem c ||| temp <<< 32))

def imageOf (program : List Word) : Memory :=
  (loadImage 0 program fun _ => 0).getD fun _ => 0

/-- The outside world at a given time, with no key pressed and no virtio device. -/
def quiet (timeInMicros : Word) : Input :=
  ⟨timeInMicros, none, 0, fun _ => 0, fun _ _ _ => []⟩

/-- `main` at its first `while (1)`, for the memory that the load loop has filled and the value of
`time(NULL)`. -/
def boot (image : Memory) (time : Word) : State where
  cycleCount := 0
  pc := dramBase
  cp := .mmode
  regFile := fun _ => 0
  csr :=
    { mstatus := { Mstatus.initial with fs := 1 }
      mscratch := 0
      sscratch := 0
      medeleg := 0
      sedeleg := 0
      mideleg := 0
      sideleg := 0
      misa := 0b101000001000100000001 ||| (0b1 <<< 63)
      mepc := 0
      sepc := 0
      uepc := 0
      cycle := 0
      timeCsr := time
      instret := 0
      mhartid := 0
      mvendorid := 0
      marchid := 0
      mimpid := 0
      mtval := 0
      stval := 0
      utval := 0
      mcounteren := 0
      scounteren := 0
      pmpaddr := fun _ => 0
      pmpcfg := fun _ => 0
      mtvec := ⟨0, 0⟩
      stvec := ⟨0, 0⟩
      utvec := ⟨0, 0⟩
      mcause := ⟨0, 0⟩
      scause := ⟨0, 0⟩
      ucause := ⟨0, 0⟩
      satp := ⟨0, 0, 0⟩
      mip := Mip.initial
      mie := Mie.initial }
  mem := (image.set mtimeCell 0).set mtimecmpCell (-1)
  flags := Flags.clear
  resv := ⟨false, 0, false, 0⟩
  plic := ⟨false, false⟩
  fifoQueue := []
  out := []
  bus := []
  branch := false
  lsSuccess := false
  csrBool := false
  wbData := 0
  retData := 0
  loadData := 0
  storeData := 0
  loadAddr := 0
  loadAddrPhy := 0
  storeAddr := 0
  storeAddrPhy := 0
  csrData := 0
  val := 0
  itr := 0
  multTemp := 0

end RiscvEmu
