import RiscvEmu.AccessWidths
import RiscvEmu.AtomicOps
import RiscvEmu.Division32
import RiscvEmu.GuestMemory
import RiscvEmu.ReservedAccess
import RiscvEmu.UntranslatedAccess

/-! Programs over a view of the memory vector: the memory that they see, the accesses that they may
make, and where in RAM these find it. While a program keeps to what the view grants and to what the
emulator supports, the loop goes through the states of the RV64IMA machine over that memory, whatever
the clock, the keyboard and the devices do. -/

namespace RiscvEmu

open Bytes Rv64ima Runs

/-- A way in which programs see the memory vector. `Env` is the control state that it is for. -/
structure MemoryView where
  Env : Csrs → Plevel → Prop
  Shows : Memory → (Word → Byte) → Prop
  Grants : Ttype → Word → ℕ → Prop
  phys : Word → Word
  env_of_eq : ∀ {c c' : Csrs} {cp : Plevel}, c'.satp = c.satp →
    c'.mstatus.mprv = c.mstatus.mprv → Env c cp → Env c' cp
  translated : ∀ {c : Csrs} {cp : Plevel} {mem : Memory} {f : Word → Byte} {ty : Ttype} {a : Word}
    {n : ℕ}, Env c cp → Shows mem f → Grants ty a n → translate c mem a ty cp = .ok (phys a)
  inRam : ∀ {ty : Ttype} {a : Word} {n : ℕ}, Grants ty a n → InRam ramSize (phys a) n
  bytes : ∀ {mem : Memory} {f : Word → Byte} {ty : Ttype} {a : Word} {n : ℕ}, Shows mem f →
    Grants ty a n → ∀ i < n, mem.byte ((phys a - dramBase).toNat + i) = f (a + BitVec.ofNat 64 i)
  put : ∀ {mem mem' : Memory} {f : Word → Byte} {a : Word} {n w : ℕ} {v : BitVec w}, Shows mem f →
    Grants .stor a n → (∀ x < ramSize,
      mem'.byte x = Bytes.put ((phys a - dramBase).toNat, Bytes.bytes v n) mem.byte x) →
    Shows mem' (storeBytes f a n v)
  set_mtime : ∀ {mem : Memory} {f : Word → Byte} (v : Word), Shows mem f → Shows (mem.set mtimeCell v) f

/-! ### What is supported -/

/-- The emulator keeps a reservation for each width. The LR and SC of one width do not come between
those of the other. -/
def KeepsWidth (i : Instr) (resv : Option (AtomicWidth × Word)) : Prop :=
  match i with
  | .lr len .. | .sc len .. => ∀ r ∈ resv, r.1 = len
  | _ => True

instance (i : Instr) (resv : Option (AtomicWidth × Word)) : Decidable (KeepsWidth i resv) :=
  match i with
  | .lr .. | .sc .. => Option.decidableForallMem (p := fun r : AtomicWidth × Word => r.1 = _) resv
  | .base _ | .load .. | .store .. | .fence .. | .fenceI .. | .mul .. | .mulW .. | .rmw ..
  | .csr .. | .privileged _ | .sfenceVma .. => .isTrue trivial

instance (a : Word) : Decidable (TakenForMin a) := inferInstanceAs (Decidable (_ ∧ _))

def widthOf : AtomicWidth → Width
  | .w => .w32
  | .d => .w64

def Reserve.Shows (r : Reserve) (resv : Option (AtomicWidth × Word)) : Prop :=
  ∀ len va, r.Holds va (widthOf len) ↔ resv = some (len, va)

namespace MemoryView

variable (V : MemoryView)

/-- `load_addr_phy > DRAM_BASE` -/
def AmoAccessible (len : AtomicWidth) (a : Word) : Prop :=
  V.Grants .stor a len.size ∧ V.phys a ≠ dramBase

/-- The data accesses and the divisions that the emulator carries out as the architecture does. -/
def Accessible (i : Instr) (h : Rv64i.Hart) : Prop :=
  match i with
  | .load o _ rs1 imm =>
    V.Grants .load (address h rs1 imm) o.size ∧ address h rs1 imm ∉ Path.load.console
  -- the bound of the store arm is not that of the vector
  | .store o rs1 _ imm =>
    V.Grants .stor (address h rs1 imm) o.size ∧
      (V.phys (address h rs1 imm) - dramBase).toNat < 2 ^ 28 ∧
      address h rs1 imm ∉ Path.store.console
  | .mul o _ rs1 rs2 => o.funct3 = MulOp.div.funct3 → ¬ (h.read rs2 = -1 ∧ TakenForMin (h.read rs1))
  | .lr len _ _ rs1 | .sc len _ _ rs1 _ | .rmw _ len _ _ rs1 _ => V.AmoAccessible len (h.read rs1)
  | _ => True

/-- A step of the architecture's machine that the emulator supports. It leaves the loop at an
instruction that goes to itself, and in user mode at address 0. -/
structure SupportedStep (i : Instr) (m m' : Rv64ima.Machine) : Prop where
  step : Rv64ima.Step i m m'
  fetch : V.Grants .inst m.hart.pc 4
  nonzero : m.hart.pc ≠ 0
  accessible : V.Accessible i m.hart
  width : KeepsWidth i m.resv
  moves : m.hart.pc ≠ m'.hart.pc

/-- The state shows this machine, with no trap pending or enabled. -/
structure Realizes (s : State) (m : Rv64ima.Machine) : Prop where
  regs : ∀ r ≠ 0, s.regFile r = m.hart.x r
  pc : s.pc = m.hart.pc
  mem : V.Shows s.mem m.mem
  resv : s.resv.Shows m.resv
  aligned : Aligned s.pc
  env : V.Env s.csr s.cp
  flags : s.flags = Flags.clear
  mie : s.csr.mie = Mie.initial

/-! ### Arms -/

structure LeavesMachine (d t : State) (m : Rv64ima.Machine) : Prop where
  regs : ∀ r ≠ 0, t.regFile r = m.hart.x r
  pc : t.pc = m.hart.pc
  mem : V.Shows t.mem m.mem
  resv : t.resv.Shows m.resv
  csr : t.csr = d.csr
  cp : t.cp = d.cp
  flags : t.flags = d.flags

def Executes (inp : Input) (ins : Word) (d : State) (m : Rv64ima.Machine) : Prop :=
  ∃ t, (execute inp ins d = .fall t ∨ execute inp ins d = .cont t) ∧ V.LeavesMachine d t m

end MemoryView

abbrev wordOf (i : Instr) : Word := (encode i).setWidth 64

section

variable {V : MemoryView} {inp : Input} {ins : Word} {d : State} {h h' : Rv64i.Hart}
  {f : Word → Byte} {v : Option (AtomicWidth × Word)} {r r1 r2 : Rv64i.Reg}

theorem Retires.executes (hret : Retires inp ins d h') (hm : V.Shows d.mem f)
    (hv : d.resv.Shows v) : V.Executes inp ins d ⟨h', f, v⟩ := by
  obtain ⟨t, hx, ht, hregs⟩ := hret
  refine ⟨t, .inl hx, hregs, ?_, ?_, ?_, ?_, ?_, ?_⟩
  · rw [ht]
  · rw [ht]
    exact hm
  · rw [ht]
    exact hv
  · rw [ht]
  · rw [ht]
  · rw [ht]

theorem load_address {imm : BitVec 12} {f3 : BitVec 3} {opc : BitVec 7} (hs : Shows d h)
    (hi : ins = (Rv64i.iType imm r1 f3 r opc).setWidth 64) :
    Path.load.address ins d.toMachine = address h r1 imm := by
  subst hi
  have hf := iType_fields imm r1 f3 r opc
  rw [Path.address, address, hs.reg hf.rs1, imm11_0_iType, signExtend_eq imm (by decide) (by decide)]

theorem store_address {imm : BitVec 12} {f3 : BitVec 3} {opc : BitVec 7} (hs : Shows d h)
    (hi : ins = (Rv64i.sType imm r2 r1 f3 opc).setWidth 64) :
    Path.store.address ins d.toMachine = address h r1 imm := by
  subst hi
  have hf := sType_fields imm r2 r1 f3 opc
  rw [Path.address, address, hs.reg hf.rs1, immS_sType, signExtend_eq imm (by decide) (by decide)]

theorem retires_load {o : LoadOp} {imm : BitVec 12} (hs : Shows d h) (hm : V.Shows d.mem f)
    (he : V.Env d.csr d.cp) (hg : V.Grants .load (address h r1 imm) o.size)
    (hq : address h r1 imm ∉ Path.load.console) :
    Retires inp (wordOf (.load o r r1 imm)) d
      (h.result r (o.extend (loadBytes f (address h r1 imm) o.size))) := by
  have hf : Fields (wordOf (.load o r r1 imm)) _ _ r1 o.funct3 r 0b0000011 :=
    iType_fields imm r1 _ r _
  have ho : opcode (wordOf (.load o r r1 imm)) = .load := by
    unfold opcode
    rw [hf.opcode]
    rfl
  have ha : Path.load.address (wordOf (.load o r r1 imm)) d.toMachine = address h r1 imm :=
    load_address hs rfl
  have hr := V.inRam hg
  have hsize : V.phys (address h r1 imm) - dramBase ≤ dramSize :=
    BitVec.le_def.mpr (Nat.le_of_lt hr.below)
  have hx := accepts_load_of (ramAddress_of_offset hr.below).1 hsize inp _ d ho (ha ▸ hq)
    (ha.symm ▸ V.translated he hm hg)
  unfold Path.UsesCell at hx
  rw [cell?_div_eight hr.below] at hx
  have hv := loadValue_fit (o := o)
    (d := d.mem (ramCell (V.phys (address h r1 imm) - dramBase).toNat)) rfl hr.fits
  rw [hr.extract (V.bytes hm hg)] at hv
  refine retires_result hs hf.rd (hx.trans (congrArg Res.fall (loadSwitch_some hf.func3 hv))) rfl

theorem executes_store {o : StoreOp} {imm : BitVec 12} (hs : Shows d h) (hm : V.Shows d.mem f)
    (hv : d.resv.Shows v) (he : V.Env d.csr d.cp) (hg : V.Grants .stor (address h r1 imm) o.size)
    (hb : (V.phys (address h r1 imm) - dramBase).toNat < 2 ^ 28)
    (hq : address h r1 imm ∉ Path.store.console) :
    V.Executes inp (wordOf (.store o r1 r2 imm)) d
      ⟨⟨h.x, h.pc + 4⟩, storeBytes f (address h r1 imm) o.size (h.read r2), v⟩ := by
  have hf : Fields (wordOf (.store o r1 r2 imm)) _ r2 r1 o.funct3 _ 0b0100011 :=
    sType_fields imm r2 r1 _ _
  have ho : opcode (wordOf (.store o r1 r2 imm)) = .store := by
    unfold opcode
    rw [hf.opcode]
    rfl
  have ha : Path.store.address (wordOf (.store o r1 r2 imm)) d.toMachine = address h r1 imm :=
    store_address hs rfl
  have hram := V.inRam hg
  have h3 : (func3 (wordOf (.store o r1 r2 imm))).toNat < 4 := by
    rw [hf.func3]
    cases o <;> decide
  have hwidth : storeWidth (wordOf (.store o r1 r2 imm)) = o.size := by
    rw [storeWidth, hf.func3]
    cases o <;> rfl
  have hra := ramAddress_of_offset hram.below
  have ht : translate d.csr d.mem (Path.store.address (wordOf (.store o r1 r2 imm)) d.toMachine)
      .stor d.cp = .ok (V.phys (address h r1 imm)) := ha.symm ▸ V.translated he hm hg
  obtain ⟨u, hu, hpa, hd, hx⟩ := execute_store_ram inp ho (ha.symm ▸ hq) ht hra hb
  have hok : (storeSwitch (wordOf (.store o r1 r2 imm)) u).lsSuccess = true :=
    (storeSwitch_success h3 u).mpr (by rw [hpa, hwidth]; exact hram.fits)
  have hbytes := (stores_of_fit h3 hu hpa hd hra (by rw [hwidth]; exact hram.fits)).bytes
  have hregs : ∀ q ≠ 0, d.regFile q = h.x q := fun q hq => by
    rw [hs.regs, Function.update_of_ne hq]
  rw [hwidth, hs.reg hf.rs2] at hbytes
  refine ⟨_, .inl hx, ?_, ?_, V.put hm hg hbytes, ?_, ?_, ?_, ?_⟩
  all_goals rw [storeCommit_of_success _ hok, storeSwitch_toMachine, hu]
  · exact hregs
  · exact hs.pc
  · exact hv
  · rfl
  · rfl
  · rfl

theorem executes_fence {ins : Word} (ho : opcode ins = .fence) (hs : Shows d h)
    (hm : V.Shows d.mem f) (hv : d.resv.Shows v) :
    V.Executes inp ins d ⟨⟨h.x, h.pc + 4⟩, f, v⟩ := by
  refine ⟨d, .inr ?_, fun q hq => ?_, hs.pc, hm, hv, rfl, rfl, rfl⟩
  · unfold execute
    rw [ho]
  · rw [hs.regs, Function.update_of_ne hq]

/-! ### Multiplication and division -/

theorem quotient_writes {a b : Word} (hn : ¬ (b = -1 ∧ TakenForMin a)) :
    DivOp.div.Writes a b (quotient a b) := by
  obtain ⟨q, qu, r, ru, hq, -, -, -, hd⟩ := divides_of_not_taken hn
  have heq : q = quotient a b := by
    unfold quotient
    split
    · rename_i hb
      exact (hd.byZero hb).1
    · rename_i hb
      by_cases hmin : a = BitVec.intMin 64 ∧ b = -1
      · rw [((hd.overflow hmin.2).mpr hmin.1).1, hmin.2]
        exact ((sdiv_neg_one_eq_min_iff a).mpr hmin.1).symm
      · rw [← BitVec.toInt_inj, hd.quotient hb hmin]
        exact (BitVec.toInt_sdiv_of_ne_or_ne a b (by rwa [ne_eq, ne_eq, ← not_and_or])).symm
  rwa [heq] at hq

theorem DivOp.Writes.computes {o : DivOp} {a b v : Word} (hw : o.Writes a b v) :
    Computes o.Encodes a b v :=
  fun inp ins s he h1 h2 => ⟨_, hw inp ins s he h1 h2, rfl⟩

theorem Computes.congr {kind : Word → Prop} {a b v w : Word} (hc : Computes kind a b v)
    (h : v = w) : Computes kind a b w := h ▸ hc

theorem writes_ite {o : DivOp} {a b v w : Word} (hz : o.Writes a 0 v)
    (hn : b ≠ 0 → o.Writes a b w) : o.Writes a b (if b = 0 then v else w) := by
  split
  · rename_i hb
    rwa [hb]
  · rename_i hb
    exact hn hb

theorem writesW_ite {o : DivOp} {a b v w : BitVec 32} (hz : o.WritesW a 0 v)
    (hn : b ≠ 0 → o.WritesW a b w) : o.WritesW a b (if b = 0 then v else w) := by
  split
  · rename_i hb
    rwa [hb]
  · rename_i hb
    exact hn hb

def EncodesMul (o : Opcode) (f3 : BitVec 3) (ins : Word) : Prop :=
  opcode ins = o ∧ func7 ins = 0b0000001 ∧ func3 ins = f3.setWidth 64

theorem computes_mul {o : MulOp} {a b : Word}
    (hn : o.funct3 = MulOp.div.funct3 → ¬ (b = -1 ∧ TakenForMin a)) :
    Computes (EncodesMul .rops o.funct3) a b (o.eval a b) := by
  cases o with
  | mul =>
    refine (computes_result .mul a b).congr ((mul_result a b).1.trans ?_)
    rw [BitVec.ofInt_mul, BitVec.ofInt_toInt, BitVec.ofInt_toInt]
    rfl
  | mulh => exact (computes_result .mulh a b).congr (mulh_result a b)
  | mulhsu => exact (computes_result .mulhsu a b).congr (mulhsu_result a b)
  | mulhu => exact (computes_result .mulhu a b).congr (mulhu_result a b)
  | div => exact (quotient_writes (hn rfl)).computes
  | divu => exact (writes_ite (writes_zero .divu a) divu_writes).computes
  | rem => exact (writes_ite (writes_zero .rem a) rem_writes).computes
  | remu => exact (writes_ite (writes_zero .remu a) remu_writes).computes

theorem computes_mulW {o : MulOpW} (x y : Word) :
    Computes (EncodesMul .rops64 o.funct3) x y
      ((o.eval (x.setWidth 32) (y.setWidth 32)).signExtend 64) := by
  cases o with
  | mulw => exact (computes_result .mulw x y).congr (mulw_result x y)
  | divw => exact writesW_ite (writesW_zero .div _) divw_writes x y rfl rfl
  | divuw => exact writesW_ite (writesW_zero .divu _) divuw_writes x y rfl rfl
  | remw => exact writesW_ite (writesW_zero .rem _) remw_writes x y rfl rfl
  | remuw => exact writesW_ite (writesW_zero .remu _) remuw_writes x y rfl rfl

theorem retires_computed {o : Opcode} {opc : BitVec 7} {f3 : BitVec 3} {v : Word}
    (hs : Shows d h) (hf : Fields ins 0b0000001 r2 r1 f3 r opc) (ho : opcode ins = o)
    (hc : Computes (EncodesMul o f3) (h.read r1) (h.read r2) v) :
    Retires inp ins d (h.result r v) := by
  have h3 : func3 ins = f3.setWidth 64 := by
    refine BitVec.eq_of_toNat_eq ?_
    rw [hf.func3, BitVec.toNat_setWidth_of_le (by decide)]
  obtain ⟨t, hx, ht⟩ := hc inp ins d ⟨ho, hf.func7_eq, h3⟩ (hs.reg hf.rs1) (hs.reg hf.rs2)
  exact retires_result hs hf.rd hx ht

theorem retires_mul {o : MulOp} (hs : Shows d h)
    (hn : o.funct3 = MulOp.div.funct3 → ¬ (h.read r2 = -1 ∧ TakenForMin (h.read r1))) :
    Retires inp (wordOf (.mul o r r1 r2)) d (h.result r (o.eval (h.read r1) (h.read r2))) := by
  have hf : Fields (wordOf (.mul o r r1 r2)) _ r2 r1 o.funct3 r 0b0110011 :=
    rType_fields _ r2 r1 _ r _
  have ho : opcode (wordOf (.mul o r r1 r2)) = .rops := by
    unfold opcode
    rw [hf.opcode]
    rfl
  exact retires_computed hs hf ho (computes_mul hn)

theorem retires_mulW {o : MulOpW} (hs : Shows d h) :
    Retires inp (wordOf (.mulW o r r1 r2)) d (h.result r
      ((o.eval ((h.read r1).setWidth 32) ((h.read r2).setWidth 32)).signExtend 64)) := by
  have hf : Fields (wordOf (.mulW o r r1 r2)) _ r2 r1 o.funct3 r 0b0111011 :=
    rType_fields _ r2 r1 _ r _
  have ho : opcode (wordOf (.mulW o r r1 r2)) = .rops64 := by
    unfold opcode
    rw [hf.opcode]
    rfl
  exact retires_computed hs hf ho (computes_mulW _ _)

/-! ### Reservations -/

theorem widthOf_inj {len len' : AtomicWidth} : widthOf len = widthOf len' ↔ len = len' := by
  cases len <;> cases len' <;> decide

section

variable {ρ : Reserve} {len : AtomicWidth} {va : Word}

theorem Reserve.Shows.set (hv : ρ.Shows v) (hk : ∀ q ∈ v, q.1 = len) :
    (ρ.set va (widthOf len)).Shows (some (len, va)) := by
  intro len' va'
  rw [holds_set]
  split
  · rename_i hl
    rw [widthOf_inj.mp hl, Option.some.injEq, Prod.mk.injEq, and_iff_right rfl, eq_comm]
  · rename_i hl
    rw [widthOf_inj] at hl
    rw [hv len' va']
    refine iff_of_false (fun hs => hl (hk _ hs)) fun hs => hl ?_
    exact (Prod.mk.inj (Option.some.inj hs)).1.symm

theorem Reserve.Shows.drop (hv : ρ.Shows v) (hk : ∀ q ∈ v, q.1 = len) :
    (ρ.drop (widthOf len)).Shows none := by
  intro len' va'
  rw [holds_drop, ne_eq, widthOf_inj, hv len' va']
  exact iff_of_false (fun hs => hs.1 (hk _ hs.2)) nofun

end

/-! ### Atomics -/

def amoOf : RmwOp → AmoOp
  | .swap => .swap
  | .add => .add
  | .xor => .xor
  | .and => .and
  | .or => .or
  | .min => .min
  | .max => .max
  | .minu => .minu
  | .maxu => .maxu

theorem amoOf_eval {w : ℕ} (o : RmwOp) (a b : BitVec w) : (amoOf o).eval a b = o.eval a b := by
  cases o <;> rfl

theorem selector_of_fields {f5 : BitVec 5} {aqrl : BitVec 2} {f3 : BitVec 3}
    (hf : Fields ins (f5 ++ aqrl) r2 r1 f3 r 0b0101111) :
    opcode ins = .amo ∧ (amoOp ins).toNat = f5.toNat := by
  have h5 : (amoOp ins).toNat = (func7 ins).toNat / 2 ^ 2 := by
    have h27 : (amoOp ins).toNat = ins.toNat / 2 ^ 27 % 2 ^ 5 := toNat_field ins 27 5 (by decide)
    have h25 : (func7 ins).toNat = ins.toNat / 2 ^ 25 % 2 ^ 7 := toNat_field ins 25 7 (by decide)
    omega
  refine ⟨?_, ?_⟩
  · unfold opcode
    rw [hf.opcode]
    rfl
  · rw [h5, hf.func7, Words.toNat_append_div]

structure AtomicOperand (w : Width) (ins : Word) (d : State) (a p : Word) (old : BitVec w.bits) :
    Prop where
  address : d.reg (rs1 ins) = a
  aligned : (d.reg (rs1 ins)).toNat % w.bytes = 0
  translated : translate d.csr d.mem (d.reg (rs1 ins)) .stor d.cp = .ok p
  above : dramBase < p
  below : (p - dramBase).toNat < ramSize
  value : d.mem.value w (p - dramBase).toNat = old

theorem atomicOperand {w : Width} {old : BitVec w.bits} (h1 : (rs1 ins).setWidth 5 = r1)
    (hs : Shows d h) (hm : V.Shows d.mem f) (he : V.Env d.csr d.cp)
    (hg : V.Grants .stor (h.read r1) w.bytes) (hne : V.phys (h.read r1) ≠ dramBase)
    (halign : (h.read r1).toNat % w.bytes = 0)
    (hold : (loadBytes f (h.read r1) w.bytes).setWidth w.bits = old) :
    AtomicOperand w ins d (h.read r1) (V.phys (h.read r1)) old where
  address := hs.reg h1
  aligned := by rwa [hs.reg h1]
  translated := by rw [hs.reg h1, V.translated he hm hg]
  above := BitVec.lt_of_le_ne (ramAddress_of_offset (V.inRam hg).below).1 (Ne.symm hne)
  below := (V.inRam hg).below
  value := by
    have hbits : w.bits ≤ 64 := by cases w <;> decide
    rw [Memory.value, (V.inRam hg).word (V.bytes hm hg), BitVec.setWidth_setWidth_of_le _ hbits,
      hold]

theorem executes_amo {w : Width} {o : AmoOp} {old : BitVec w.bits} (hi : IsAmo w o ins)
    (hrd : (rd ins).setWidth 5 = r) (h2 : (rs2 ins).setWidth 5 = r2) (hs : Shows d h)
    (hm : V.Shows d.mem f) (hv : d.resv.Shows v) (hg : V.Grants .stor (h.read r1) w.bytes)
    (ha : AtomicOperand w ins d (h.read r1) (V.phys (h.read r1)) old) :
    V.Executes inp ins d ⟨h.result r (old.signExtend 64), storeBytes f (h.read r1) w.bytes
      (o.eval old ((h.read r2).setWidth w.bits)), v⟩ := by
  obtain ⟨t, hx, hdone⟩ : ∃ t, execute inp ins d = .fall t ∧ _ :=
    amo_correct hi ha.aligned ha.translated ha.above ha.below
  have hbytes := hdone.bytes
  rw [ha.value, hs.reg h2] at hbytes
  refine ⟨t, .inl hx, fun q hq => ?_, ?_, V.put hm hg hbytes, ?_, ?_, ?_, ?_⟩
  all_goals rw [hdone.machine]
  · dsimp only
    rw [ha.value, Machine.regSet, hrd]
    exact update_of_shows hs r _ q hq
  · exact hs.pc
  · exact hv

theorem executes_lr (len : AtomicWidth) {old : BitVec (widthOf len).bits}
    (hi : IsLr ins (widthOf len)) (hrd : (rd ins).setWidth 5 = r) (hs : Shows d h)
    (hm : V.Shows d.mem f) (hv : d.resv.Shows v) (hk : ∀ q ∈ v, q.1 = len)
    (ha : AtomicOperand (widthOf len) ins d (h.read r1) (V.phys (h.read r1)) old) :
    V.Executes inp ins d
      ⟨h.result r (old.signExtend 64), f, some (len, h.read r1)⟩ := by
  obtain ⟨t, hx, hdone⟩ : ∃ t, execute inp ins d = .fall t ∧ _ :=
    lr_done hi ha.aligned ha.translated ha.above ha.below
  rw [LrDone, ha.value, ha.address] at hdone
  refine ⟨t, .inl hx, fun q hq => ?_, ?_, ?_, ?_, ?_, ?_, ?_⟩
  all_goals rw [hdone]
  · dsimp only
    rw [Machine.regSet, hrd]
    exact update_of_shows hs r _ q hq
  · exact hs.pc
  · exact hm
  · exact hv.set hk

theorem executes_sc (len : AtomicWidth) {old : BitVec (widthOf len).bits}
    (hi : IsSc ins (widthOf len)) (hrd : (rd ins).setWidth 5 = r) (h2 : (rs2 ins).setWidth 5 = r2)
    (hs : Shows d h) (hm : V.Shows d.mem f) (hv : d.resv.Shows v) (hk : ∀ q ∈ v, q.1 = len)
    (hg : V.Grants .stor (h.read r1) (widthOf len).bytes)
    (ha : AtomicOperand (widthOf len) ins d (h.read r1) (V.phys (h.read r1)) old) :
    V.Executes inp ins d (if v = some (len, h.read r1) then
      ⟨h.result r 0, storeBytes f (h.read r1) (widthOf len).bytes (h.read r2), none⟩
    else ⟨h.result r 1, f, none⟩) := by
  obtain ⟨t, hx, hsucc, hfail⟩ : ∃ t, execute inp ins d = .fall t ∧ _ :=
    sc_done hi ha.aligned ha.translated ha.above ha.below
  rw [ha.address, hv len] at hsucc hfail
  split
  · rename_i hpaired
    obtain ⟨hmach, hbytes⟩ := hsucc hpaired
    rw [hs.reg h2] at hbytes
    refine ⟨t, .inl hx, fun q hq => ?_, ?_, V.put hm hg hbytes, ?_, ?_, ?_, ?_⟩
    all_goals rw [hmach]
    · dsimp only
      rw [Machine.regSet, hrd]
      exact update_of_shows hs r _ q hq
    · exact hs.pc
    · exact hv.drop hk
  · rename_i hpaired
    have hmach := hfail hpaired
    unfold ScFails at hmach
    refine ⟨t, .inl hx, fun q hq => ?_, ?_, ?_, ?_, ?_, ?_, ?_⟩
    all_goals rw [hmach]
    · dsimp only
      rw [Machine.regSet, hrd]
      exact update_of_shows hs r _ q hq
    · exact hs.pc
    · exact hm
    · exact hv.drop hk

/-! ### Steps -/

theorem opcode_fence {imm : BitVec 12} {f3 : BitVec 3} :
    opcode ((Rv64i.iType imm r1 f3 r 0b0001111).setWidth 64) = .fence := by
  have hf := iType_fields imm r1 f3 r 0b0001111
  unfold opcode
  rw [hf.opcode]
  rfl

section

variable {len : AtomicWidth} {aqrl : BitVec 2} {m' : Rv64ima.Machine}

theorem executes_of_lr (hs : Shows d h) (hm : V.Shows d.mem f) (hv : d.resv.Shows v)
    (he : V.Env d.csr d.cp) (ha : V.AmoAccessible len (h.read r1)) (hk : ∀ q ∈ v, q.1 = len)
    (hx : exec (.lr len aqrl r r1) ⟨h, f, v⟩ = some m') :
    V.Executes inp (wordOf (.lr len aqrl r r1)) d m' := by
  have hf : Fields (wordOf (.lr len aqrl r r1)) _ 0 r1 len.funct3 r 0b0101111 :=
    rType_fields _ 0 r1 _ r _
  obtain ⟨ho, hop⟩ := selector_of_fields hf
  unfold exec at hx
  dsimp only at hx
  split at hx
  · rename_i halign
    cases hx
    cases len with
    | w =>
      exact executes_lr .w ⟨ho, hop, hf.func3⟩ hf.rd hs hm hv hk
        (atomicOperand hf.rs1 hs hm he ha.1 ha.2 halign (BitVec.setWidth_eq _))
    | d =>
      exact executes_lr .d ⟨ho, hop, hf.func3⟩ hf.rd hs hm hv hk
        (atomicOperand hf.rs1 hs hm he ha.1 ha.2 halign (BitVec.setWidth_eq _))
  · cases hx

theorem executes_of_sc (hs : Shows d h) (hm : V.Shows d.mem f) (hv : d.resv.Shows v)
    (he : V.Env d.csr d.cp) (ha : V.AmoAccessible len (h.read r1)) (hk : ∀ q ∈ v, q.1 = len)
    (hx : exec (.sc len aqrl r r1 r2) ⟨h, f, v⟩ = some m') :
    V.Executes inp (wordOf (.sc len aqrl r r1 r2)) d m' := by
  have hf : Fields (wordOf (.sc len aqrl r r1 r2)) _ r2 r1 len.funct3 r 0b0101111 :=
    rType_fields _ r2 r1 _ r _
  obtain ⟨ho, hop⟩ := selector_of_fields hf
  unfold exec at hx
  dsimp only at hx
  rw [← apply_ite some] at hx
  split at hx
  · rename_i halign
    cases hx
    cases len with
    | w =>
      exact executes_sc .w ⟨ho, hop, hf.func3⟩ hf.rd hf.rs2 hs hm hv hk ha.1
        (atomicOperand hf.rs1 hs hm he ha.1 ha.2 halign rfl)
    | d =>
      exact executes_sc .d ⟨ho, hop, hf.func3⟩ hf.rd hf.rs2 hs hm hv hk ha.1
        (atomicOperand hf.rs1 hs hm he ha.1 ha.2 halign rfl)
  · cases hx

theorem executes_of_rmw {o : RmwOp} (hs : Shows d h) (hm : V.Shows d.mem f)
    (hv : d.resv.Shows v) (he : V.Env d.csr d.cp) (ha : V.AmoAccessible len (h.read r1))
    (hx : exec (.rmw o len aqrl r r1 r2) ⟨h, f, v⟩ = some m') :
    V.Executes inp (wordOf (.rmw o len aqrl r r1 r2)) d m' := by
  have hf : Fields (wordOf (.rmw o len aqrl r r1 r2)) _ r2 r1 len.funct3 r 0b0101111 :=
    rType_fields _ r2 r1 _ r _
  obtain ⟨ho, hop⟩ := selector_of_fields hf
  have hsel : (amoOp (wordOf (.rmw o len aqrl r r1 r2))).toNat = (amoOf o).selector := by
    rw [hop]
    cases o <;> rfl
  unfold exec at hx
  dsimp only at hx
  split at hx
  · rename_i halign
    cases hx
    rw [← amoOf_eval]
    cases len with
    | w =>
      exact executes_amo (w := .w32) ⟨ho, hf.func3, hsel⟩ hf.rd hf.rs2 hs hm hv ha.1
        (atomicOperand hf.rs1 hs hm he ha.1 ha.2 halign (BitVec.setWidth_eq _))
    | d =>
      exact executes_amo (w := .w64) ⟨ho, hf.func3, hsel⟩ hf.rd hf.rs2 hs hm hv ha.1
        (atomicOperand hf.rs1 hs hm he ha.1 ha.2 halign (BitVec.setWidth_eq _))
  · cases hx

end

theorem executes_of_exec {i : Instr} {m' : Rv64ima.Machine} (hs : Shows d h)
    (hm : V.Shows d.mem f) (hv : d.resv.Shows v) (he : V.Env d.csr d.cp)
    (ha : V.Accessible i h) (hk : KeepsWidth i v) (hx : exec i ⟨h, f, v⟩ = some m') :
    V.Executes inp (wordOf i) d m' := by
  cases i with
  | base i =>
    obtain ⟨h', hb, rfl⟩ := Option.map_eq_some_iff.mp hx
    exact (retires_exec hs hb).executes hm hv
  | load o rd rs1 imm =>
    cases hx
    exact (retires_load hs hm he ha.1 ha.2).executes hm hv
  | store o rs1 rs2 imm =>
    cases hx
    exact executes_store hs hm hv he ha.1 ha.2.1 ha.2.2
  | fence rd rs1 imm =>
    cases hx
    exact executes_fence opcode_fence hs hm hv
  | fenceI rd rs1 imm =>
    cases hx
    exact executes_fence opcode_fence hs hm hv
  | mul o rd rs1 rs2 =>
    cases hx
    exact (retires_mul hs ha).executes hm hv
  | mulW o rd rs1 rs2 =>
    cases hx
    exact (retires_mulW hs).executes hm hv
  | lr len aqrl rd rs1 => exact executes_of_lr hs hm hv he ha hk hx
  | sc len aqrl rd rs1 rs2 => exact executes_of_sc hs hm hv he ha hk hx
  | rmw o len aqrl rd rs1 rs2 => exact executes_of_rmw hs hm hv he ha hx
  | csr => cases hx
  | privileged => cases hx
  | sfenceVma => cases hx

end

namespace MemoryView

section

variable {V : MemoryView} {f : Word → Byte} {m m' : Rv64ima.Machine} {i : Instr} {s : State}

theorem fetch_view {k : Machine} (he : V.Env k.csr k.cp) (hm : V.Shows k.mem f)
    (hg : V.Grants .inst k.pc 4) (h0 : k.pc ≠ 0) (hp : Aligned k.pc) :
    fetch k = .word ((loadBytes f k.pc 4).setWidth 64) := by
  have ht := V.translated he hm hg
  have hr := V.inRam hg
  have hbase := (ramAddress_of_offset hr.below).1
  have halign : Aligned (V.phys k.pc - dramBase) := by
    have hmod : k.pc.toNat % 4 = 0 := hp
    have hoff := translate_offset ht hr.ne_top
    have height := sub_dramBase_mod (V.phys k.pc)
    unfold Aligned
    omega
  have hlt : ((V.phys k.pc - dramBase) / 4 / 2).toNat < memSize := by
    have hbelow := hr.below
    rw [ramSize_eq] at hbelow
    rw [BitVec.toNat_udiv, BitVec.toNat_udiv]
    show (V.phys k.pc - dramBase).toNat / 4 / 2 < 2 ^ 28
    omega
  unfold fetch
  rw [ht]
  dsimp only
  rw [if_neg fun hnull => h0 hnull.2, if_neg hr.ne_top, if_pos hbase]
  cases hw : getINST ((V.phys k.pc - dramBase) / 4) k.mem with
  | none =>
    unfold getINST cell? at hw
    rw [dif_pos hlt] at hw
    cases hw
  | some w => rw [getINST_aligned halign hw, hr.word (V.bytes hm hg)]

theorem Realizes.env_tick (hr : V.Realizes s m) (inp : Input) :
    V.Env (tick inp s.toMachine).csr s.cp :=
  V.env_of_eq (c := s.csr) rfl rfl hr.env

theorem Realizes.fetches (hr : V.Realizes s m) (hst : V.SupportedStep i m m') (inp : Input) :
    fetch (tick inp s.toMachine) = .word (wordOf i) := by
  have hpc : (tick inp s.toMachine).pc = m.hart.pc := hr.pc
  rw [fetch_view (hr.env_tick inp) (V.set_mtime _ hr.mem) (hpc.symm ▸ hst.fetch)
    (hpc.symm ▸ hst.nonzero) hr.aligned, hpc, wordOf, hst.step.1]

theorem Realizes.shows (hr : V.Realizes s m) (inp : Input) :
    RiscvEmu.Shows (decoded { s with toMachine := tick inp s.toMachine }) m.hart := by
  refine ⟨funext fun q => ?_, congrArg (· + 4) hr.pc⟩
  show Function.update s.regFile 0 0 q = Function.update m.hart.x 0 0 q
  by_cases hq : q = 0
  · rw [hq, Function.update_self, Function.update_self]
  · rw [Function.update_of_ne hq, Function.update_of_ne hq, hr.regs q hq]

/-- One iteration of the loop for a step of the machine. -/
theorem Realizes.step (hr : V.Realizes s m) (hst : V.SupportedStep i m m') (inp : Input) :
    ∃ t, Next inp s t ∧ V.Realizes t m' := by
  have hmem : V.Shows (decoded { s with toMachine := tick inp s.toMachine }).mem m.mem :=
    V.set_mtime _ hr.mem
  obtain ⟨t, hx, hl⟩ : V.Executes inp (wordOf i) _ m' :=
    executes_of_exec (hr.shows inp) hmem hr.resv (hr.env_tick inp) hst.accessible hst.width
      hst.step.2
  have halign : Aligned t.pc := by
    rw [hl.pc]
    exact exec_aligned hst.step.2 (hr.pc ▸ hr.aligned)
  have hcsr : t.csr.satp = s.csr.satp ∧ t.csr.mstatus = s.csr.mstatus ∧ t.csr.mie = s.csr.mie := by
    rw [hl.csr]
    exact ⟨rfl, rfl, rfl⟩
  have hcp : t.cp = s.cp := hl.cp
  have hflags : t.flags = Flags.clear := hl.flags.trans hr.flags
  have hmie : t.csr.mie = Mie.initial := hcsr.2.2.trans hr.mie
  have henv : V.Env t.csr t.cp := by
    rw [hcp]
    exact V.env_of_eq hcsr.1 (congrArg Mstatus.mprv hcsr.2.1) hr.env
  -- a fence goes on by `continue`, everything else by way of the end of the loop body
  rcases hx with hx | hx
  · have hidle : selectTrap (refresh t.toMachine) = .ret () (refresh t.toMachine) :=
      selectTrap_idle hflags hmie
    have hmove : s.pc ≠ (refresh t.toMachine).pc := by
      rw [hr.pc, show (refresh t.toMachine).pc = m'.hart.pc from hl.pc]
      exact hst.moves
    refine ⟨{ t with toMachine := refresh t.toMachine }, ?_, ?_⟩
    · rw [Next, iterate_of_word (hr.fetches hst inp), hx]
      dsimp only
      rw [loopEnd, hidle]
      dsimp only
      rw [if_neg hmove]
    · have hrefresh : V.Env (refresh t.toMachine).csr t.cp :=
        V.env_of_eq (c := t.csr) rfl rfl henv
      exact ⟨hl.regs, hl.pc, hl.mem, hl.resv, halign, hrefresh, hflags, hmie⟩
  · refine ⟨t, ?_, hl.regs, hl.pc, hl.mem, hl.resv, halign, henv, hflags, hmie⟩
    rw [Next, iterate_of_word (hr.fetches hst inp), hx]

/-- A run of the architecture's machine, given by the instructions that it executes: from a state that
shows its start, the loop goes through as many iterations to a state that shows its end, whatever their
inputs are. -/
theorem Realizes.runs {code : List Instr} (h : Run V.SupportedStep m code m')
    (hr : V.Realizes s m) (is : List Input) (hlen : is.length = code.length) :
    ∃ t, Run Next s is t ∧ V.Realizes t m' := by
  induction h generalizing is with
  | start =>
    cases List.eq_nil_of_length_eq_zero hlen
    exact ⟨s, .start, hr⟩
  | next _ hst ih =>
    cases is with
    | nil => cases hlen
    | cons inp is =>
      obtain ⟨t, ht, hrt⟩ := ih is (Nat.succ.inj hlen)
      obtain ⟨u, hu, hru⟩ := hrt.step hst inp
      exact ⟨u, .next ht hu, hru⟩

/-! ### Runs that are driven -/

instance (V : MemoryView) [∀ ty a n, Decidable (V.Grants ty a n)] (i : Instr) (h : Rv64i.Hart) :
    Decidable (V.Accessible i h) :=
  match i with
  | .load .. | .lr .. | .sc .. | .rmw .. => inferInstanceAs (Decidable (_ ∧ _))
  | .store .. => inferInstanceAs (Decidable (_ ∧ _ ∧ _))
  | .mul .. => inferInstanceAs (Decidable (_ → ¬ (_ ∧ _)))
  | .base _ | .fence .. | .fenceI .. | .mulW .. | .csr .. | .privileged _ | .sfenceVma .. =>
    .isTrue trivial

def step? (V : MemoryView) [∀ ty a n, Decidable (V.Grants ty a n)] (i : Instr)
    (m : Rv64ima.Machine) : Option Rv64ima.Machine :=
  (exec i m).filter fun m' => decide (encode i = loadBytes m.mem m.hart.pc 4 ∧
    V.Grants .inst m.hart.pc 4 ∧ m.hart.pc ≠ 0 ∧ V.Accessible i m.hart ∧ KeepsWidth i m.resv ∧
    m.hart.pc ≠ m'.hart.pc)

theorem supportedStep_of [∀ ty a n, Decidable (V.Grants ty a n)] (h : V.step? i m = some m') :
    V.SupportedStep i m m' := by
  obtain ⟨he, hd⟩ := Option.filter_eq_some_iff.mp h
  obtain ⟨hw, hf, h0, ha, hk, hm⟩ := of_decide_eq_true hd
  exact ⟨⟨hw, he⟩, hf, h0, ha, hk, hm⟩

end

end MemoryView

end RiscvEmu
