import RiscvEmu.Device
import RiscvEmu.Translate

/-! The `load` and `store` arms. -/

namespace RiscvEmu

/-- `switch(cp)` after a page fault: move the address to the `tval` of the new mode. -/
def faultTval (m : Machine) : Machine :=
  match m.cp with
  | .smode => { m with csr := { m.csr with stval := m.csr.mtval, mtval := 0 } }
  | .umode => { m with csr := { m.csr with utval := m.csr.mtval, mtval := 0 } }
  | _ => m

def setMtval (m : Machine) (v : Word) : Machine := { m with csr := { m.csr with mtval := v } }

/-- A load page fault sets `mtval` before it takes the exception. -/
def loadPageFault (loadAddr : Word) (s : State) : Res :=
  match raiseExcep s.pc causeLoadPageFault (setMtval s.toMachine loadAddr) with
  | .stop h m => .stop h { s with toMachine := m }
  | .ret () m => .cont { s with toMachine := faultTval m }

/-- The store and AMO page faults set `mtval` after they have taken the exception. -/
def storePageFault (addr : Word) (s : State) : Res :=
  match raiseExcep s.pc causeStorePageFault s.toMachine with
  | .stop h m => .stop h { s with toMachine := m }
  | .ret () m => .cont { s with toMachine := faultTval (setMtval m addr) }

def loadMissalig (s : State) : State :=
  { s with
    flags := { s.flags with ldAddrMissalig := true }
    csr := { s.csr with mtval := s.loadAddr } }

/-- One of `LB`, `LH`, `LW`, `LBU`, `LHU`, `LWU`: the accessor, and what is done to its value. -/
def loadNarrow (access : Word → Word → Bool × Word) (extend : Word → Word) (ins : Word)
    (s : State) : State :=
  match access s.loadAddrPhy s.loadData with
  | (false, wb) => loadMissalig { s with wbData := wb }
  | (true, wb) => s.writeBack ins (extend wb)

def loadLb := loadNarrow loadByte fun wb => signExtend (wb &&& 0xFF) 8
def loadLh := loadNarrow loadHalfw fun wb => signExtend (wb &&& 0xFFFF) 16
def loadLw := loadNarrow loadWord fun wb => signExtend (wb &&& 0xFFFFFFFF) 32
def loadLbu := loadNarrow loadByte fun wb => wb &&& 0xFF
def loadLhu := loadNarrow loadHalfw fun wb => wb &&& 0xFFFF
def loadLwu := loadNarrow loadWord fun wb => wb &&& 0xFFFFFFFF

def loadLd (ins : Word) (s : State) : State :=
  if s.loadAddrPhy % 8 = 0 then s.writeBack ins s.loadData else loadMissalig s

def loadSwitch (ins : Word) (s : State) : State :=
  match (func3 ins).toNat with
  | 0b000 => loadLb ins s
  | 0b001 => loadLh ins s
  | 0b010 => loadLw ins s
  | 0b100 => loadLbu ins s
  | 0b101 => loadLhu ins s
  | 0b110 => loadLwu ins s
  | 0b011 => loadLd ins s
  | _ => s

/-- The peripheral half of the address mapping of a load: `load_data`, or `exit(0)`. -/
def loadPeripheral (inp : Input) (pa : Word) (m : Machine) : Call Word :=
  if pa ≥ clintBase ∧ pa ≤ clintBase + clintSize then .ret (clintRead (pa - clintBase) m) m
  else if pa ≥ plicBase ∧ pa ≤ plicBase + plicSize then
    let (v, m) := plicRead (pa - plicBase) m
    .ret (v <<< (if pa % 8 ≠ 0 then 32 else 0)) m
  else if pa ≥ virtioBase ∧ pa ≤ virtioBase + virtioSize then
    let virt := pa / 8 * 8
    .ret ((inp.virtioMmioRead ((virt - virtioBase + 4).setWidth 32)).setWidth 64 <<< 32 +
      (inp.virtioMmioRead ((virt - virtioBase).setWidth 32)).setWidth 64) m
  else .stop (.exit 0) m

def loadMapped (inp : Input) (pa : Word) (m : Machine) : Call (Word × Word) :=
  if pa ≥ dramBase then
    let off := pa - dramBase
    if off > dramSize then .stop (.exit 0) m
    else match cell? (off / 8) with
      | none => .stop .outOfRange m
      | some c => .ret (off, m.mem c) m
  else match loadPeripheral inp pa m with
    | .stop h m => .stop h m
    | .ret v m => .ret (pa, v) m

def loadFifo (inp : Input) (ins : Word) (s : State) : State :=
  if s.loadAddr = fifoAddrRx then
    match inp.getchar with
    | some ch => ({ s with fifoQueue := s.fifoQueue ++ [ch] }).writeBack ins 0
    | none => s.writeBack ins 2
  else
    match s.fifoQueue with
    | [] => s.writeBack ins (-1)
    | ch :: rest => ({ s with fifoQueue := rest }).writeBack ins (ch.setWidth 64)

def armLoad (inp : Input) (ins : Word) (s : State) : Res :=
  let s := { s with loadAddr := s.reg (rs1 ins) + signExtend (imm11_0 ins) 12 }
  if s.loadAddr ≠ fifoAddrRx ∧ s.loadAddr ≠ fifoAddrTx then
    match translate s.csr s.mem s.loadAddr .load s.cp with
    | .error h => .stop h s
    | .ok pa =>
      let s := { s with loadAddrPhy := pa }
      if pa = -1 then loadPageFault s.loadAddr s
      else match loadMapped inp pa s.toMachine with
        | .stop h m => .stop h { s with toMachine := m }
        | .ret (pa, data) m =>
          .fall (loadSwitch ins { s with toMachine := m, loadAddrPhy := pa, loadData := data })
  else .fall (loadFifo inp ins s)

/-- The `switch(func3)` of the store arm, where `store_data` is the cell. The default arm assigns
none of the locals. -/
def storeSwitch (ins : Word) (s : State) : State :=
  let v := s.reg (rs2 ins)
  match (func3 ins).toNat with
  | 0b000 =>
    let (ok, wb) := storeByte s.storeAddrPhy s.storeData (v &&& 0xFF)
    { s with val := v &&& 0xFF, lsSuccess := ok, wbData := wb }
  | 0b001 =>
    let (ok, wb) := storeHalfw s.storeAddrPhy s.storeData (v &&& 0xFFFF)
    { s with val := v &&& 0xFFFF, lsSuccess := ok, wbData := wb }
  | 0b010 =>
    let (ok, wb) := storeWord s.storeAddrPhy s.storeData (v &&& 0xFFFFFFFF)
    { s with val := v &&& 0xFFFFFFFF, lsSuccess := ok, wbData := wb }
  | 0b011 =>
    if s.storeAddrPhy % 8 = 0 then { s with wbData := v, lsSuccess := true }
    else { s with lsSuccess := false }
  | _ => s

/-- `if (ls_success) memory.at(store_addr_phy/8) = wb_data`. -/
def storeCommit (c : Cell) (s : State) : State :=
  if s.lsSuccess then { s with toMachine := s.write .store c s.wbData } else s

def storeRam (ins pa : Word) (s : State) : Res :=
  let s := { s with storeAddrPhy := pa - dramBase }
  if s.storeAddrPhy ≥ (1 : Word) <<< 28 then .stop (.exit 0) s
  else match cell? (s.storeAddrPhy / 8) with
    | none => .stop .outOfRange s
    | some c => .fall (storeCommit c (storeSwitch ins { s with storeData := s.mem c }))

def storePeripheral (inp : Input) (pa v : Word) (m : Machine) : Call Unit :=
  if pa ≥ clintBase ∧ pa ≤ clintBase + clintSize then .ret () (clintWrite (pa - clintBase) v m)
  else if pa ≥ plicBase ∧ pa ≤ plicBase + plicSize then .ret () (plicWrite (pa - plicBase) m)
  else if pa ≥ virtioBase ∧ pa ≤ virtioBase + virtioSize then
    deviceActs (inp.virtioMmioWrite ((pa - virtioBase).setWidth 32)
      ((v &&& 0xFFFFFFFF).setWidth 32) m.mem) m
  else .stop (.exit 0) m

def armStore (inp : Input) (ins : Word) (s : State) : Res :=
  let s := { s with storeAddr := s.reg (rs1 ins) + signExtend (immS ins) 12 }
  if s.storeAddr ≠ fifoAddrTx then
    match translate s.csr s.mem s.storeAddr .stor s.cp with
    | .error h => .stop h s
    | .ok pa =>
      let s := { s with storeAddrPhy := pa }
      if pa = -1 then storePageFault s.storeAddr s
      else if pa ≥ dramBase then storeRam ins pa s
      else match storePeripheral inp pa (s.reg (rs2 ins)) s.toMachine with
        | .stop h m => .stop h { s with toMachine := m }
        | .ret () m => .fall { s with toMachine := m }
  else .fall { s with out := s.out ++ [(s.reg (rs2 ins)).setWidth 8] }

end RiscvEmu
