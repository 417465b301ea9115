import RiscvEmu.LoadStore

/-! The `amo` arm: LR, SC and the read-modify-write instructions, in their 32-bit and 64-bit
copies. -/

namespace RiscvEmu

/-- `mtval = v; STORE_ADDR_MISSALIG = true`. -/
def storeMissalig (v : Word) (s : State) : State :=
  { s with
    flags := { s.flags with storeAddrMissalig := true }
    csr := { s.csr with mtval := v } }

/-- `mtval = instruction; ILL_INS = true`. -/
def illegal (ins : Word) (s : State) : State :=
  { s with
    flags := { s.flags with illIns := true }
    csr := { s.csr with mtval := ins } }

def lrW (s : State) : State :=
  match loadWord s.loadAddrPhy s.loadData with
  | (false, wb) => storeMissalig s.loadAddr { s with lsSuccess := false, wbData := wb }
  | (true, wb) =>
    { s with
      lsSuccess := true
      wbData := wb
      retData := signExtend (wb &&& mask32) 32
      resv := { s.resv with valid := true, addr := s.loadAddr }
      bus := .lr .w32 s.loadAddr s.loadAddrPhy :: s.bus }

def scWStore (ins : Word) (c : Cell) (s : State) : State :=
  let s := { s with storeData := s.reg (rs2 ins) &&& mask32 }
  match storeWord s.loadAddrPhy s.loadData s.storeData with
  | (false, wb) =>
    storeMissalig s.loadAddr { s with
      lsSuccess := false
      wbData := wb
      retData := 1
      bus := .sc .w32 s.loadAddr s.loadAddrPhy false :: s.bus }
  | (true, wb) =>
    let s := { s with toMachine := s.write .sc c wb }
    { s with
      lsSuccess := true
      wbData := wb
      retData := 0
      bus := .sc .w32 s.loadAddr s.loadAddrPhy true :: s.bus }

def scW (ins : Word) (c : Cell) (s : State) : State :=
  let s :=
    if s.resv.valid ∧ s.reg (rs1 ins) = s.resv.addr then scWStore ins c s
    else { s with retData := 1, bus := .sc .w32 s.loadAddr s.loadAddrPhy false :: s.bus }
  { s with resv := { s.resv with valid := false, addr := 0 } }

/-- The body that the nine `AMO*.W` arms repeat. The result is spliced in at the offset of the
virtual address, and `misTval` is what a misaligned access reports. -/
def amoRmwW (op : Word → Word → Word) (misTval : State → Word) (ins : Word) (c : Cell)
    (s : State) : State :=
  match loadWord s.loadAddrPhy s.loadData with
  | (false, wb) => storeMissalig (misTval s) { s with lsSuccess := false, wbData := wb }
  | (true, wb) =>
    let res := op (wb &&& mask32) (s.reg (rs2 ins) &&& mask32)
    let (ok, data) := storeWord s.loadAddr s.loadData res
    let s := { s with toMachine := s.write .amo c data }
    { s with
      lsSuccess := ok
      retData := signExtend (wb &&& mask32) 32
      wbData := res
      storeData := data }

/-- `min` and `max` of `int32_t` or `int64_t` values, converted back. -/
def ofSigned (x : Int) : Word := BitVec.ofInt 64 x

def amoswapW := amoRmwW (fun _ b => b) (·.loadAddr)
def amoaddW := amoRmwW (fun a b => (a + b) &&& mask32) (·.loadAddr)
def amoxorW := amoRmwW (fun a b => (a ^^^ b) &&& mask32) (·.loadAddr)
def amoandW := amoRmwW (fun a b => (a &&& b) &&& mask32) (·.loadAddr)
def amoorW := amoRmwW (fun a b => (a ||| b) &&& mask32) (·.loadAddr)
def amominW := amoRmwW
  (fun a b => ofSigned (min (signedValue32 a) (signedValue32 b)) &&& mask32) (·.loadAddr)
def amomaxW := amoRmwW
  (fun a b => ofSigned (max (signedValue32 a) (signedValue32 b)) &&& mask32) (·.loadAddr)
def amominuW := amoRmwW (fun a b => (if b < a then b else a) &&& mask32) (·.loadAddr)
-- The only arm that reports the physical offset.
def amomaxuW := amoRmwW (fun a b => (if a < b then b else a) &&& mask32) (·.loadAddrPhy)

/-- The `switch (amo_op)` of the 32-bit half; the default arm raises an illegal instruction. -/
def amoSwitchW (ins : Word) (c : Cell) (s : State) : State :=
  match (amoOp ins).toNat with
  | 0b00010 => lrW s
  | 0b00011 => scW ins c s
  | 0b00001 => amoswapW ins c s
  | 0b00000 => amoaddW ins c s
  | 0b00100 => amoxorW ins c s
  | 0b01100 => amoandW ins c s
  | 0b01000 => amoorW ins c s
  | 0b10000 => amominW ins c s
  | 0b10100 => amomaxW ins c s
  | 0b11000 => amominuW ins c s
  | 0b11100 => amomaxuW ins c s
  | _ => illegal ins s

def lrD (ins : Word) (s : State) : State :=
  if s.loadAddrPhy % 8 ≠ 0 then storeMissalig s.loadAddr s
  else
    { s with
      retData := s.wbData
      resv := { s.resv with valid64 := true, addr64 := s.reg (rs1 ins) }
      bus := .lr .w64 s.loadAddr s.loadAddrPhy :: s.bus }

def scDStore (ins : Word) (c : Cell) (s : State) : State :=
  let s := { s with storeData := s.reg (rs2 ins) }
  if s.loadAddrPhy % 8 ≠ 0 then
    storeMissalig s.loadAddr { s with bus := .sc .w64 s.loadAddr s.loadAddrPhy false :: s.bus }
  else
    let s := { s with toMachine := s.write .sc c s.storeData }
    { s with retData := 0, bus := .sc .w64 s.loadAddr s.loadAddrPhy true :: s.bus }

def scD (ins : Word) (c : Cell) (s : State) : State :=
  let s :=
    if s.resv.valid64 ∧ s.reg (rs1 ins) = s.resv.addr64 then scDStore ins c s
    else { s with retData := 1, bus := .sc .w64 s.loadAddr s.loadAddrPhy false :: s.bus }
  { s with resv := { s.resv with valid64 := false, addr64 := 0 } }

/-- The body that the nine `AMO*.D` arms repeat. -/
def amoRmwD (op : Word → Word → Word) (ins : Word) (c : Cell) (s : State) : State :=
  if s.loadAddrPhy % 8 ≠ 0 then storeMissalig s.loadAddr s
  else
    let res := op s.wbData (s.reg (rs2 ins))
    let s := { s with retData := s.wbData, wbData := res }
    { s with toMachine := s.write .amo c res }

def amoswapD := amoRmwD fun _ b => b
def amoaddD := amoRmwD fun a b => a + b
def amoxorD := amoRmwD fun a b => a ^^^ b
def amoandD := amoRmwD fun a b => a &&& b
def amoorD := amoRmwD fun a b => a ||| b
def amominD := amoRmwD fun a b => ofSigned (min (signedValue a) (signedValue b))
def amomaxD := amoRmwD fun a b => ofSigned (max (signedValue a) (signedValue b))
def amominuD := amoRmwD fun a b => if b < a then b else a
def amomaxuD := amoRmwD fun a b => if a < b then b else a

/-- The `switch (amo_op)` of the 64-bit half; the default arm only prints. -/
def amoSwitchD (ins : Word) (c : Cell) (s : State) : State :=
  match (amoOp ins).toNat with
  | 0b00010 => lrD ins s
  | 0b00011 => scD ins c s
  | 0b00001 => amoswapD ins c s
  | 0b00000 => amoaddD ins c s
  | 0b00100 => amoxorD ins c s
  | 0b01100 => amoandD ins c s
  | 0b01000 => amoorD ins c s
  | 0b10000 => amominD ins c s
  | 0b10100 => amomaxD ins c s
  | 0b11000 => amominuD ins c s
  | 0b11100 => amomaxuD ins c s
  | _ => s

/-- `reg_file[rd] = ret_data`, the tail of both halves. -/
def retToRd (ins : Word) (s : State) : State := s.setReg (rd ins) s.retData

/-- The translation and address mapping that both halves start with; `k` goes on with the cell. -/
def amoMapped (ins : Word) (s : State) (k : Cell → State → State) : Res :=
  let s := { s with loadAddr := s.reg (rs1 ins) }
  match translate s.csr s.mem s.loadAddr .stor s.cp with
  | .error h => .stop h s
  | .ok pa =>
    let s := { s with loadAddrPhy := pa }
    if pa = -1 then storePageFault s.loadAddr s
    else if pa > 0x80000000 then
      let s := { s with loadAddrPhy := pa - 0x80000000 }
      match cell? (s.loadAddrPhy / 8) with
      | none => .stop .outOfRange s
      | some c => .fall (retToRd ins (k c s))
    else .stop (.exit 0) s

def armAmo (ins : Word) (s : State) : Res :=
  match (func3 ins).toNat with
  | 0b010 => amoMapped ins s fun c s => amoSwitchW ins c { s with loadData := s.mem c }
  | 0b011 => amoMapped ins s fun c s => amoSwitchD ins c { s with wbData := s.mem c }
  | _ => .fall s

end RiscvEmu
