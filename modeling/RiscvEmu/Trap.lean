import RiscvEmu.State

/-! `trap_mode_select`, `excep_function` and `interrupt_function`. -/

namespace RiscvEmu

/-- Bit `cause` of a delegation register. -/
def delegated (reg cause : Word) : Bool := (reg >>> cause) &&& 0b1 = 1

/-- `trap_mode_select`; no value where control runs off its end. -/
def trapModeSelect (cause : Word) (interrupt : Bool) (current : Plevel) (c : Csrs) :
    Option Plevel :=
  match current with
  | .mmode => some .mmode
  | .smode =>
    let mtrap := if interrupt then c.mideleg else c.medeleg
    some (if delegated mtrap cause then .smode else .mmode)
  | .umode =>
    let mtrap := if interrupt then c.mideleg else c.medeleg
    let strap := if interrupt then c.sideleg else c.sedeleg
    some (if delegated mtrap cause then
      if delegated strap cause then .umode else .smode
    else .mmode)
  | .hmode => none

/-- The `SMODE` branch of both trap functions, without the `new_PC`. -/
def enterSmode (interrupt : Byte) (ecode epc : Word) (m : Machine) : Machine :=
  { m with
    cp := .smode
    csr := { m.csr with
      mstatus := { m.csr.mstatus with
        mpp := m.cp.code
        spp := m.cp.code
        spie := m.csr.mstatus.sie
        sie := 0 }
      scause := ⟨interrupt, ecode⟩
      sepc := epc } }

/-- The `MMODE` branch of both trap functions, without the `new_PC`. -/
def enterMmode (interrupt : Byte) (ecode epc : Word) (m : Machine) : Machine :=
  { m with
    cp := .mmode
    csr := { m.csr with
      mstatus := { m.csr.mstatus with
        mpp := m.cp.code
        mpie := m.csr.mstatus.mie
        mie := 0 }
      mcause := ⟨interrupt, ecode⟩
      mepc := epc } }

/-- The `ecode` that `excep_function` takes from its three arguments. -/
def modeCode (mecode secode uecode : Word) : Plevel → Word
  | .umode => uecode
  | .smode => secode
  | .mmode => mecode
  | .hmode => 0

/-- The `UMODE` branch of `interrupt_function` exits before it changes anything, and so does the
one of `excep_function`. -/
def excepFunction (pc mecode secode uecode : Word) (current : Plevel) (m : Machine) : Call Word :=
  let ecode := modeCode mecode secode uecode current
  match trapModeSelect ecode false current m.csr with
  | none => .stop .undefined m
  | some .umode => .stop (.exit 4) m
  | some .smode => .ret m.csr.stvec.base (enterSmode 0 ecode (pc - 4) m)
  | some .mmode => .ret m.csr.mtvec.base (enterMmode 0 ecode (pc - 4) m)
  | some .hmode => .ret pc m

def interruptFunction (pc mecode : Word) (current : Plevel) (m : Machine) : Call Word :=
  let ecode := mecode
  match trapModeSelect ecode true current m.csr with
  | none => .stop .undefined m
  | some handlingMode =>
    if handlingMode = .umode ∧ m.csr.mstatus.uie = 1 then .stop (.exit 1) m
    else if handlingMode = .smode ∧ m.csr.mstatus.sie = 1 then
      let m' := enterSmode 1 ecode pc m
      if m.csr.stvec.mode = 0b1 then .stop (.exit 2) m'
      else if m.csr.stvec.mode = 0b0 then
        if current = .mmode then .stop (.exit 5) m' else .ret m.csr.stvec.base m'
      else .ret 0 m'
    else if handlingMode = .mmode ∧ m.csr.mstatus.mie = 1 then
      let m' := enterMmode 1 ecode pc m
      if m.csr.mtvec.mode = 0b1 then .stop (.exit 3) m'
      else if m.csr.mtvec.mode = 0b0 then
        if current = .mmode then .stop (.exit 5) m' else .ret m.csr.mtvec.base m'
      else .ret 0 m'
    else .ret pc m

def raiseExcep (pc ecode : Word) (m : Machine) : Call Unit :=
  match excepFunction pc ecode ecode ecode m.cp m with
  | .stop h m => .stop h m
  | .ret pc m => .ret () { m with pc := pc }

def raiseInterrupt (ecode : Word) (m : Machine) : Call Unit :=
  match interruptFunction m.pc ecode m.cp m with
  | .stop h m => .stop h m
  | .ret pc m => .ret () { m with pc := pc }

end RiscvEmu
