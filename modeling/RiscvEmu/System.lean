import RiscvEmu.Amo

/-! The `systm` arm: the six CSR instructions, ECALL, EBREAK and the trap returns. -/

namespace RiscvEmu

/-- The part that the six CSR arms share once `csr_read` has succeeded: write `data`, and on success
let `commit` update `rd`. -/
def csrCommit (ins data : Word) (commit : State → State) (s : State) : State :=
  match csrWrite (imm11_0 ins) data s.csr with
  | none => illegal ins { s with csrBool := false }
  | some csr => commit { s with csrBool := true, csr := csr }

/-- `csr_data = csr_read(imm11_0)`, then `body` or an illegal instruction. -/
def csrArm (inp : Input) (ins : Word) (body : State → State) (s : State) : State :=
  match csrRead (imm11_0 ins) inp.fallOff s.cp s.csr with
  | (v, true) => body { s with csrData := v }
  | (v, false) => illegal ins { s with csrData := v }

/-- `if (rd!=0) reg_file[rd] = csr_data`, in `CSRRW` and `CSRRWI`. -/
def commitNonzero (ins : Word) (s : State) : State :=
  if rd ins ≠ 0 then s.setReg (rd ins) s.csrData else s

/-- `reg_file[rd] = csr_data`, in the other four. -/
def commitAlways (ins : Word) (s : State) : State := s.setReg (rd ins) s.csrData

def csrrw (inp : Input) (ins : Word) : State → State :=
  csrArm inp ins fun s =>
    let s := { s with storeData := s.reg (rs1 ins) }
    csrCommit ins s.storeData (commitNonzero ins) s

def csrrs (inp : Input) (ins : Word) : State → State :=
  csrArm inp ins fun s =>
    if imm11_0 ins = CsrName.cycle.addr ∨ imm11_0 ins = CsrName.time.addr ∨
        imm11_0 ins = CsrName.instret.addr then commitAlways ins s
    else
      let s := { s with storeData := s.reg (rs1 ins) ||| s.csrData }
      csrCommit ins s.storeData (commitAlways ins) s

def csrrc (inp : Input) (ins : Word) : State → State :=
  csrArm inp ins fun s =>
    let s := { s with storeData := s.csrData &&& (mask64 - s.reg (rs1 ins)) }
    csrCommit ins s.storeData (commitAlways ins) s

def csrrwi (inp : Input) (ins : Word) : State → State :=
  csrArm inp ins fun s => csrCommit ins (rs1 ins) (commitNonzero ins) s

def csrrsi (inp : Input) (ins : Word) : State → State :=
  csrArm inp ins fun s =>
    let s := { s with storeData := rs1 ins ||| s.csrData }
    csrCommit ins s.storeData (commitAlways ins) s

def csrrci (inp : Input) (ins : Word) : State → State :=
  csrArm inp ins fun s =>
    let s := { s with storeData := s.csrData &&& (mask64 - rs1 ins) }
    csrCommit ins s.storeData (commitAlways ins) s

def ecall (s : State) : Res :=
  match excepFunction s.pc causeMachineEcall causeSupervisorEcall causeUserEcall s.cp
      s.toMachine with
  | .stop h m => .stop h { s with toMachine := m }
  | .ret pc m => .fall { s with toMachine := { m with pc := pc } }

/-- `mret`: `mie` becomes 1 whatever `mpie` is. -/
def mret (m : Machine) : Machine :=
  { m with
    pc := m.csr.mepc
    cp := Plevel.ofByte m.csr.mstatus.mpp
    csr := { m.csr with mstatus := { m.csr.mstatus with mie := 1, mpp := 0b00, mpie := 0 } } }

def sret (m : Machine) : Machine :=
  { m with
    pc := m.csr.sepc
    cp := Plevel.ofByte m.csr.mstatus.spp
    csr := { m.csr with
      mstatus := { m.csr.mstatus with spp := 0b0, sie := m.csr.mstatus.spie, spie := 1 } } }

/-- The `switch (imm11_0)` under `func3 == 0`; `uret` exits first. -/
def privileged (ins : Word) (s : State) : Res :=
  match (imm11_0 ins).toNat with
  | 0 => ecall s
  | 1 => .fall { s with flags := { s.flags with ebreak := true } }
  | 770 => .fall { s with toMachine := mret s.toMachine }
  | 258 => .fall { s with toMachine := sret s.toMachine }
  | 2 => .stop (.exit 0) s
  | _ => .fall s

def armSystm (inp : Input) (ins : Word) (s : State) : Res :=
  match (func3 ins).toNat with
  | 0b001 => .fall (csrrw inp ins s)
  | 0b010 => .fall (csrrs inp ins s)
  | 0b011 => .fall (csrrc inp ins s)
  | 0b101 => .fall (csrrwi inp ins s)
  | 0b110 => .fall (csrrsi inp ins s)
  | 0b111 => .fall (csrrci inp ins s)
  | 0b000 => privileged ins s
  | _ => .fall s

end RiscvEmu
