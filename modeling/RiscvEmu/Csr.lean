import RiscvEmu.Basic

/-! The control and status registers of `csr_file.h`: their storage, the packing of the structured
ones, and `csr_read` and `csr_write`. -/

namespace RiscvEmu

/-- `mstatus_t`, with every `uint8_t` field. -/
structure Mstatus where
  uie : Byte
  sie : Byte
  mie : Byte
  upie : Byte
  spie : Byte
  mpie : Byte
  spp : Byte
  mpp : Byte
  fs : Byte
  xs : Byte
  mprv : Byte
  sum : Byte
  mxr : Byte
  tvm : Byte
  tw : Byte
  tsr : Byte
  uxl : Byte
  sxl : Byte
  sd : Byte
  deriving DecidableEq

/-- `(val >> i) & 0b1`, stored in a `uint8_t`. -/
def bit1 (val : Word) (i : Nat) : Byte := ((val >>> i) &&& 0b1).setWidth 8

/-- `(val >> i) & 0b11`, stored in a `uint8_t`. -/
def bit2 (val : Word) (i : Nat) : Byte := ((val >>> i) &&& 0b11).setWidth 8

theorem toNat_field (val : Word) (i k : Nat) (hk : k ≤ 64) :
    ((val >>> i) &&& BitVec.ofNat 64 (2 ^ k - 1)).toNat = val.toNat / 2 ^ i % 2 ^ k := by
  have hmask : 2 ^ k - 1 < 2 ^ 64 :=
    Nat.lt_of_lt_of_le (Nat.sub_lt (Nat.two_pow_pos k) one_pos)
      (Nat.pow_le_pow_right (by decide) hk)
  rw [BitVec.toNat_and, BitVec.toNat_ofNat, Nat.mod_eq_of_lt hmask, Nat.and_two_pow_sub_one_eq_mod,
    BitVec.toNat_ushiftRight, Nat.shiftRight_eq_div_pow]

theorem bit1_toNat (val : Word) (i : Nat) : (bit1 val i).toNat = val.toNat / 2 ^ i % 2 := by
  have h := toNat_field val i 1 (by decide)
  rw [bit1, BitVec.toNat_setWidth, show (0b1 : Word) = BitVec.ofNat 64 (2 ^ 1 - 1) from rfl, h]
  omega

theorem bit1_cases (val : Word) (i : Nat) : bit1 val i = 0 ∨ bit1 val i = 1 := by
  have h := bit1_toNat val i
  rcases Nat.mod_two_eq_zero_or_one (val.toNat / 2 ^ i) with h' | h' <;> rw [h'] at h
  · exact .inl (BitVec.eq_of_toNat_eq h)
  · exact .inr (BitVec.eq_of_toNat_eq h)

theorem bit1_eq_one_iff (val : Word) (i : Nat) : bit1 val i = 1 ↔ val.getLsbD i = true := by
  rw [← BitVec.toNat_inj, bit1_toNat, BitVec.getLsbD, Nat.testBit_eq_decide_div_mod_eq,
    decide_eq_true_iff]
  rfl

theorem bit1_eq_zero_iff (val : Word) (i : Nat) : bit1 val i = 0 ↔ val.getLsbD i = false := by
  rw [← Bool.not_eq_true, ← bit1_eq_one_iff]
  rcases bit1_cases val i with h | h <;> rw [h] <;> decide

/-- A `uint8_t` field moved to its position in the packed register. -/
def field (x : Byte) (i : Nat) : Word := x.setWidth 64 <<< i

def Mstatus.initial : Mstatus where
  uie := 0
  sie := 1
  mie := 1
  upie := 0
  spie := 0
  mpie := 0
  spp := 0
  mpp := 0b0
  fs := 0
  xs := 0
  mprv := 0
  sum := 0
  mxr := 0
  tvm := 0
  tw := 0
  tsr := 0
  uxl := 2
  sxl := 0
  sd := 0

def Mstatus.readReg (m : Mstatus) : Word :=
  field m.sd 63 + field m.sxl 34 + field m.uxl 32 + field m.tsr 22 + field m.tw 21 +
    field m.tvm 20 + field m.mxr 19 + field m.sum 18 + field m.mprv 17 + field m.xs 15 +
    field m.fs 13 + field m.mpp 11 + field m.spp 8 + field m.mpie 7 + field m.spie 5 +
    field m.upie 4 + field m.mie 3 + field m.sie 1 + field m.uie 0

def Mstatus.writeReg (val : Word) : Mstatus where
  uie := bit1 val 0
  sie := bit1 val 1
  mie := bit1 val 3
  upie := bit1 val 4
  spie := bit1 val 5
  mpie := bit1 val 7
  spp := bit1 val 8
  mpp := bit2 val 11
  fs := bit2 val 13
  xs := bit2 val 15
  mprv := bit1 val 17
  sum := bit1 val 18
  mxr := bit1 val 19
  tvm := bit1 val 20
  tw := bit1 val 21
  tsr := bit1 val 22
  uxl := bit2 val 32
  sxl := bit2 val 34
  sd := bit1 val 63

def sstatusReadReg (m : Mstatus) : Word :=
  field m.sd 63 + field m.uxl 32 + field m.mxr 19 + field m.sum 18 + field m.xs 15 +
    field m.fs 13 + field m.spp 8 + field m.spie 5 + field m.upie 4 + field m.sie 1 + field m.uie 0

def sstatusWriteReg (m : Mstatus) (val : Word) : Mstatus :=
  { m with
    uie := bit1 val 0
    sie := bit1 val 1
    upie := bit1 val 4
    spie := bit1 val 5
    spp := bit1 val 8
    fs := bit2 val 13
    xs := bit2 val 15
    sum := bit1 val 18
    mxr := bit1 val 19
    uxl := bit2 val 32
    sd := bit1 val 63 }

def ustatusReadReg (m : Mstatus) : Word :=
  field m.sd 63 + field m.uxl 32 + field m.mxr 19 + field m.sum 18 + field m.xs 15 +
    field m.fs 13 + field m.upie 4 + field m.uie 0

-- The read side packs `upie` at bit 4; this side unpacks it from bit 5.
def ustatusWriteReg (m : Mstatus) (val : Word) : Mstatus :=
  { m with
    uie := bit1 val 0
    upie := bit1 val 5
    fs := bit2 val 13
    xs := bit2 val 15
    sum := bit1 val 18
    mxr := bit1 val 19
    uxl := bit2 val 32
    sd := bit1 val 63 }

/-- `mtvec_t`, `stvec_t` and `utvec_t`: three copies of one structure. -/
structure Tvec where
  mode : Byte
  base : Word
  deriving DecidableEq

def Tvec.readReg (t : Tvec) : Word :=
  (t.mode &&& 0b11).setWidth 64 + (t.base &&& (mask64 - 0b11))

def Tvec.writeReg (val : Word) : Tvec where
  mode := (val &&& 0b11).setWidth 8
  base := val &&& (mask64 - 0b11)

/-- `mcause_t`, `scause_t` and `ucause_t`: three copies of one structure. -/
structure Cause where
  interrupt : Byte
  ecode : Word
  deriving DecidableEq

def Cause.readReg (c : Cause) : Word := (((1 <<< 63) - 1) &&& c.ecode) + field c.interrupt 63

def Cause.writeReg (val : Word) : Cause where
  interrupt := bit1 val 63
  ecode := val &&& ((1 <<< 63) - 1)

structure Satp where
  ppn : Word
  asid : BitVec 16
  mode : Byte
  deriving DecidableEq

def Satp.readReg (s : Satp) : Word :=
  ((s.mode &&& 0xF).setWidth 64 <<< 60) + (s.asid.setWidth 64 <<< 44) + (s.ppn &&& 0xFFFFFFFFFFF)

def Satp.writeReg (val : Word) : Satp where
  ppn := val &&& 0xFFFFFFFFFFF
  asid := ((val >>> 44) &&& 0xFFFF).setWidth 16
  mode := ((val >>> 60) &&& 0xF).setWidth 8

structure Mip where
  meip : Byte
  seip : Byte
  ueip : Byte
  mtip : Byte
  stip : Byte
  utip : Byte
  msip : Byte
  ssip : Byte
  usip : Byte
  deriving DecidableEq

def Mip.initial : Mip := ⟨0, 0, 0, 0, 0, 0, 0, 0, 0⟩

def Mip.readReg (p : Mip) : Word :=
  field (p.meip &&& 0b1) 11 + field (p.seip &&& 0b1) 9 + field (p.ueip &&& 0b1) 8 +
    field (p.mtip &&& 0b1) 7 + field (p.stip &&& 0b1) 5 + field (p.utip &&& 0b1) 4 +
    field (p.msip &&& 0b1) 3 + field (p.ssip &&& 0b1) 1 + field (p.usip &&& 0b1) 0

def Mip.writeReg (val : Word) : Mip where
  meip := bit1 val 11
  seip := bit1 val 9
  ueip := bit1 val 8
  mtip := bit1 val 7
  stip := bit1 val 5
  utip := bit1 val 4
  msip := bit1 val 3
  ssip := bit1 val 1
  usip := bit1 val 0

structure Mie where
  meie : Byte
  seie : Byte
  ueie : Byte
  mtie : Byte
  stie : Byte
  utie : Byte
  msie : Byte
  ssie : Byte
  usie : Byte
  deriving DecidableEq

def Mie.initial : Mie := ⟨0, 0, 0, 0, 0, 0, 0, 0, 0⟩

def Mie.readReg (e : Mie) : Word :=
  field (e.meie &&& 0b1) 11 + field (e.seie &&& 0b1) 9 + field (e.ueie &&& 0b1) 8 +
    field (e.mtie &&& 0b1) 7 + field (e.stie &&& 0b1) 5 + field (e.utie &&& 0b1) 4 +
    field (e.msie &&& 0b1) 3 + field (e.ssie &&& 0b1) 1 + field (e.usie &&& 0b1) 0

def Mie.writeReg (val : Word) : Mie where
  meie := bit1 val 11
  seie := bit1 val 9
  ueie := bit1 val 8
  mtie := bit1 val 7
  stie := bit1 val 5
  utie := bit1 val 4
  msie := bit1 val 3
  ssie := bit1 val 1
  usie := bit1 val 0

/-- The global registers of `csr_file.h`. -/
structure Csrs where
  mstatus : Mstatus
  mscratch : Word
  sscratch : Word
  medeleg : Word
  sedeleg : Word
  mideleg : Word
  sideleg : Word
  misa : Word
  mepc : Word
  sepc : Word
  uepc : Word
  cycle : Word
  timeCsr : Word
  instret : Word
  mhartid : Word
  mvendorid : Word
  marchid : Word
  mimpid : Word
  mtval : Word
  stval : Word
  utval : Word
  mcounteren : Word
  scounteren : Word
  pmpaddr : Fin 10 → Word
  pmpcfg : Fin 4 → Word
  mtvec : Tvec
  stvec : Tvec
  utvec : Tvec
  mcause : Cause
  scause : Cause
  ucause : Cause
  satp : Satp
  mip : Mip
  mie : Mie

/-- The case labels shared by `csr_read` and `csr_write`. -/
inductive CsrName
  | mstatus | sstatus | ustatus | mscratch | sscratch | misa | mepc | sepc | uepc
  | mtvec | stvec | utvec | mcause | scause | ucause | medeleg | sedeleg | mideleg | sideleg
  | cycle | time | instret | mhartid | mvendorid | marchid | mimpid | satp
  | mtval | stval | utval | mip | sip | mie | sie | scounteren | mcounteren
  | pmpaddr (i : Fin 10) | pmpcfg (i : Fin 4)
  deriving DecidableEq

namespace CsrName

/-- The `#define`d register numbers. -/
def addr : CsrName → Word
  | mstatus => 0x300
  | sstatus => 0x100
  | ustatus => 0x000
  | mscratch => 0x340
  | sscratch => 0x140
  | misa => 0x301
  | mepc => 0x341
  | sepc => 0x141
  | uepc => 0x041
  | mtvec => 0x305
  | stvec => 0x105
  | utvec => 0x005
  | mcause => 0x342
  | scause => 0x142
  | ucause => 0x042
  | medeleg => 0x302
  | sedeleg => 0x102
  | mideleg => 0x303
  | sideleg => 0x103
  | cycle => 0xC00
  | time => 0xC01
  | instret => 0xC02
  | mhartid => 0xF14
  | mvendorid => 0xF11
  | marchid => 0xF12
  | mimpid => 0xF13
  | satp => 0x180
  | mtval => 0x343
  | stval => 0x143
  | utval => 0x043
  | mip => 0x344
  | sip => 0x144
  | mie => 0x304
  | sie => 0x104
  | scounteren => 0x106
  | mcounteren => 0x306
  | pmpaddr i => 0x3B0 + BitVec.ofNat 64 i
  | pmpcfg i => 0x3A0 + BitVec.ofNat 64 i

def all : List CsrName :=
  [mstatus, sstatus, ustatus, mscratch, sscratch, misa, mepc, sepc, uepc, mtvec, stvec, utvec,
    mcause, scause, ucause, medeleg, sedeleg, mideleg, sideleg, cycle, time, instret, mhartid,
    mvendorid, marchid, mimpid, satp, mtval, stval, utval, mip, sip, mie, sie, scounteren,
    mcounteren] ++ (List.finRange 10).map pmpaddr ++ (List.finRange 4).map pmpcfg

/-- The case that the `switch (csr_addr)` selects; none for its default. -/
def ofAddr (a : Word) : Option CsrName := all.find? fun c => c.addr = a

theorem addr_of_ofAddr {a : Word} {c : CsrName} (h : ofAddr a = some c) : c.addr = a := by
  simpa using List.find?_some h

theorem ofAddr_addr (c : CsrName) : ofAddr c.addr = some c := by
  cases c with
  | pmpaddr i => revert i; decide
  | pmpcfg i => revert i; decide
  | _ => rfl

end CsrName

/-- One case of the `switch` in `csr_read`. -/
def Csrs.value (c : Csrs) : CsrName → Word
  | .mstatus => c.mstatus.readReg
  | .sstatus => sstatusReadReg c.mstatus
  | .ustatus => ustatusReadReg c.mstatus
  | .mscratch => c.mscratch
  | .sscratch => c.sscratch
  | .misa => c.misa
  | .mepc => c.mepc
  | .sepc => c.sepc
  | .uepc => c.uepc
  | .mtvec => c.mtvec.readReg
  | .stvec => c.stvec.readReg
  | .utvec => c.utvec.readReg
  | .mcause => c.mcause.readReg
  | .scause => c.scause.readReg
  | .ucause => c.ucause.readReg
  | .medeleg => c.medeleg
  | .sedeleg => c.sedeleg
  | .mideleg => c.mideleg
  | .sideleg => c.sideleg
  | .cycle => c.cycle
  | .time => c.timeCsr
  | .instret => c.instret
  | .mhartid => c.mhartid
  | .mvendorid => c.mvendorid
  | .marchid => c.marchid
  | .mimpid => c.mimpid
  | .satp => c.satp.readReg
  | .mtval => c.mtval
  | .stval => c.stval
  | .utval => c.utval
  | .mip => c.mip.readReg
  | .sip => c.mip.readReg
  | .mie => c.mie.readReg
  | .sie => c.mie.readReg
  | .scounteren => c.scounteren
  | .mcounteren => c.mcounteren
  | .pmpaddr i => c.pmpaddr i
  | .pmpcfg i => c.pmpcfg i

/-- The two privilege tests that `csr_read` makes. -/
def readable (cp : Plevel) : CsrName → Bool
  | .mstatus => cp = .mmode
  | .sstatus => cp = .mmode ∨ cp = .smode
  | _ => true

/-- `csr_read`: the value returned and the final `csr_read_success`. The default case returns
nothing, so the caller reads whatever `fallOff` is left in the return register. -/
def csrRead (csrAddr : Word) (fallOff : Word) (cp : Plevel) (c : Csrs) : Word × Bool :=
  match CsrName.ofAddr csrAddr with
  | none => (fallOff, true)
  | some n => if readable cp n then (c.value n, true) else (1, false)

/-- One case of the `switch` in `csr_write`; only `CYCLE` refuses. -/
def Csrs.assign (c : Csrs) (val : Word) : CsrName → Option Csrs
  | .mstatus => some { c with mstatus := Mstatus.writeReg val }
  | .sstatus => some { c with mstatus := sstatusWriteReg c.mstatus val }
  | .ustatus => some { c with mstatus := ustatusWriteReg c.mstatus val }
  | .mscratch => some { c with mscratch := val }
  | .sscratch => some { c with sscratch := val }
  | .misa => some { c with misa := val }
  | .mepc => some { c with mepc := val }
  | .sepc => some { c with sepc := val }
  | .uepc => some { c with uepc := val }
  | .mtvec => some { c with mtvec := Tvec.writeReg val }
  | .stvec => some { c with stvec := Tvec.writeReg val }
  | .utvec => some { c with utvec := Tvec.writeReg val }
  | .mcause => some { c with mcause := Cause.writeReg val }
  | .scause => some { c with scause := Cause.writeReg val }
  | .ucause => some { c with ucause := Cause.writeReg val }
  | .medeleg => some { c with medeleg := val }
  | .sedeleg => some { c with sedeleg := val }
  | .mideleg => some { c with mideleg := val }
  | .sideleg => some { c with sideleg := val }
  | .cycle => none
  | .time => some { c with timeCsr := val }
  | .instret => some { c with instret := val }
  | .mhartid => some { c with mhartid := val }
  | .mvendorid => some { c with mvendorid := val }
  | .marchid => some { c with marchid := val }
  | .mimpid => some { c with mimpid := val }
  | .satp => some { c with satp := Satp.writeReg val }
  | .mtval => some { c with mtval := val }
  | .stval => some { c with stval := val }
  | .utval => some { c with utval := val }
  | .mip => some { c with mip := Mip.writeReg val }
  | .sip => some { c with mip := Mip.writeReg val }
  | .mie => some { c with mie := Mie.writeReg val }
  | .sie => some { c with mie := Mie.writeReg val }
  | .scounteren => some { c with scounteren := val }
  | .mcounteren => some { c with mcounteren := val }
  | .pmpaddr i => some { c with pmpaddr := Function.update c.pmpaddr i val }
  | .pmpcfg i => some { c with pmpcfg := Function.update c.pmpcfg i val }

/-- `csr_write`: none where it returns false, and then nothing is written. -/
def csrWrite (csrAddr val : Word) (c : Csrs) : Option Csrs :=
  (CsrName.ofAddr csrAddr).bind (c.assign val)

end RiscvEmu
