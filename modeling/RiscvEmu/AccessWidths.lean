import RiscvEmu.AddressMapping
import RiscvEmu.ByteMemory
import RiscvEmu.Encodings
import RiscvEmu.Rv64ima

/-! The width of an access is selected by the generic load and store arms, after the devices have been
read and before they are written: what that makes of the two CLINT registers. -/

namespace RiscvEmu

open Bytes Rv64ima

variable {inp : Input} {ins : Word} {s : State} {k n : ℕ}

/-! ### The width selection -/

def accessed (r : Bool × Word) : Option Word := if r.1 then some r.2 else none

/-- The `switch(func3)` of the load arm: the value for `rd`, or none where it sets
`LD_ADDR_MISSALIG`. -/
def loadValue (o : LoadOp) (loadAddrPhy loadData : Word) : Option Word :=
  match o with
  | .lb => (accessed (loadByte loadAddrPhy loadData)).map fun wb => signExtend (wb &&& 0xFF) 8
  | .lh => (accessed (loadHalfw loadAddrPhy loadData)).map fun wb => signExtend (wb &&& 0xFFFF) 16
  | .lw => (accessed (loadWord loadAddrPhy loadData)).map fun wb => signExtend (wb &&& 0xFFFFFFFF) 32
  | .lbu => (accessed (loadByte loadAddrPhy loadData)).map fun wb => wb &&& 0xFF
  | .lhu => (accessed (loadHalfw loadAddrPhy loadData)).map fun wb => wb &&& 0xFFFF
  | .lwu => (accessed (loadWord loadAddrPhy loadData)).map fun wb => wb &&& 0xFFFFFFFF
  | .ld => if loadAddrPhy % 8 = 0 then some loadData else none

/-- The `switch(func3)` of the store arm: `wb_data`, or none where `ls_success` is false. -/
def storeValue (o : StoreOp) (storeAddrPhy storeData v : Word) : Option Word :=
  match o with
  | .sb => accessed (storeByte storeAddrPhy storeData (v &&& 0xFF))
  | .sh => accessed (storeHalfw storeAddrPhy storeData (v &&& 0xFFFF))
  | .sw => accessed (storeWord storeAddrPhy storeData (v &&& 0xFFFFFFFF))
  | .sd => if storeAddrPhy % 8 = 0 then some v else none

theorem loadNarrow_some {access : Word → Word → Bool × Word} {extend : Word → Word} {v : Word}
    (h : (accessed (access s.loadAddrPhy s.loadData)).map extend = some v) :
    loadNarrow access extend ins s = s.writeBack ins v := by
  obtain ⟨wb, hwb, rfl⟩ := Option.map_eq_some_iff.mp h
  unfold loadNarrow
  cases ha : access s.loadAddrPhy s.loadData with
  | mk ok x =>
    rw [ha, accessed] at hwb
    cases ok with
    | true =>
      cases hwb
      rfl
    | false => cases hwb

theorem loadSwitch_some {o : LoadOp} {v : Word} (ho : (func3 ins).toNat = o.funct3.toNat)
    (h : loadValue o s.loadAddrPhy s.loadData = some v) :
    loadSwitch ins s = s.writeBack ins v := by
  unfold loadSwitch
  rw [ho]
  cases o with
  | lb => exact loadNarrow_some h
  | lh => exact loadNarrow_some h
  | lw => exact loadNarrow_some h
  | lbu => exact loadNarrow_some h
  | lhu => exact loadNarrow_some h
  | lwu => exact loadNarrow_some h
  | ld =>
    have h : (if s.loadAddrPhy % 8 = 0 then some s.loadData else none) = some v := h
    split at h
    · rename_i h0
      cases h
      exact if_pos h0
    · cases h

section

variable {a d v : Word}

theorem accessed_loadFit (hk : a.toNat % 8 = k) (hfit : k + n ≤ 8) :
    accessed (loadFit n a d) = some ((d.extractLsb' (8 * k) (8 * n)).setWidth 64) := by
  unfold accessed loadFit
  rw [hk, if_pos hfit, ← slice_eq_extract]
  rfl

theorem accessed_storeFit (hk : a.toNat % 8 = k) (hfit : k + n ≤ 8) :
    accessed (storeFit n a d (v &&& low 64 (8 * n))) = some (splice d v (8 * k) (8 * n)) := by
  unfold accessed storeFit
  rw [hk, if_pos hfit, splice_and_low]
  rfl

theorem accessed_signed (hk : a.toNat % 8 = k) (hfit : k + n ≤ 8) (hn : 0 < n) :
    (accessed (loadFit n a d)).map (fun wb => signExtend (wb &&& low 64 (8 * n)) (8 * n)) =
      some ((d.extractLsb' (8 * k) (8 * n)).signExtend 64) := by
  rw [accessed_loadFit hk hfit, Option.map_some, ← slice_eq_extract, slice_and_low,
    slice_eq_extract, signExtend_eq _ (by omega) (by omega)]

theorem accessed_unsigned (hk : a.toNat % 8 = k) (hfit : k + n ≤ 8) :
    (accessed (loadFit n a d)).map (fun wb => wb &&& low 64 (8 * n)) =
      some ((d.extractLsb' (8 * k) (8 * n)).setWidth 64) := by
  rw [accessed_loadFit hk hfit, Option.map_some, ← slice_eq_extract, slice_and_low]

theorem loadValue_fit {o : LoadOp} (hk : a.toNat % 8 = k) (hfit : k + o.size ≤ 8) :
    loadValue o a d = some (o.extend (d.extractLsb' (8 * k) (8 * o.size))) := by
  unfold loadValue
  rw [loadByte_eq, loadHalfw_eq, loadWord_eq]
  cases o with
  | lb => exact accessed_signed (n := 1) hk hfit (by decide)
  | lh => exact accessed_signed (n := 2) hk hfit (by decide)
  | lw => exact accessed_signed (n := 4) hk hfit (by decide)
  | lbu => exact accessed_unsigned (n := 1) hk hfit
  | lhu => exact accessed_unsigned (n := 2) hk hfit
  | lwu => exact accessed_unsigned (n := 4) hk hfit
  | ld =>
    obtain rfl : k = 0 := by
      have h8 : LoadOp.ld.size = 8 := rfl
      omega
    have h0 : a % 8 = 0 := BitVec.eq_of_toNat_eq ((toNat_mod_eight a).trans hk)
    have hall : (d.extractLsb' 0 64).setWidth 64 = d := by rw [← slice_eq_extract, slice_all]
    exact (if_pos h0).trans (congrArg some hall.symm)

theorem storeValue_fit {o : StoreOp} (hk : a.toNat % 8 = k) (hfit : k + o.size ≤ 8) :
    storeValue o a d v = some (splice d v (8 * k) (8 * o.size)) := by
  unfold storeValue
  rw [storeByte_eq, storeHalfw_eq, storeWord_eq]
  cases o with
  | sb => exact accessed_storeFit (n := 1) hk hfit
  | sh => exact accessed_storeFit (n := 2) hk hfit
  | sw => exact accessed_storeFit (n := 4) hk hfit
  | sd =>
    obtain rfl : k = 0 := by
      have h8 : StoreOp.sd.size = 8 := rfl
      omega
    have h0 : a % 8 = 0 := BitVec.eq_of_toNat_eq ((toNat_mod_eight a).trans hk)
    exact (if_pos h0).trans (congrArg some (splice_all d v).symm)

end

/-! ### The CLINT -/

inductive ClintReg
  | mtime | mtimecmp

namespace ClintReg

def offset : ClintReg → ℕ
  | mtime => 0xbff8
  | mtimecmp => 0x4000

def value (m : Machine) : ClintReg → Word
  | mtime => m.mtime
  | mtimecmp => m.mtimecmp

def address (r : ClintReg) (k : ℕ) : Word := clintBase + BitVec.ofNat 64 (r.offset + k)

end ClintReg

/-- The load is one of the bytes of the register from byte `k` on. -/
structure LoadsRegister (ins : Word) (s : State) (o : LoadOp) (r : ClintReg) (k : ℕ) : Prop where
  selects : Path.load.Selects ins
  width : (func3 ins).toNat = o.funct3.toNat
  console : Path.load.address ins s.toMachine ∉ Path.load.console
  translated : translate s.csr s.mem (Path.load.address ins s.toMachine) .load s.cp =
    .ok (r.address k)
  aligned : k % o.size = 0
  inside : k + o.size ≤ 8

structure StoresTimecmp (ins : Word) (s : State) (o : StoreOp) (k : ℕ) : Prop where
  selects : Path.store.Selects ins
  width : (func3 ins).toNat = o.funct3.toNat
  console : Path.store.address ins s.toMachine ∉ Path.store.console
  translated : translate s.csr s.mem (Path.store.address ins s.toMachine) .stor s.cp =
    .ok (ClintReg.mtimecmp.address k)
  aligned : k % o.size = 0
  inside : k + o.size ≤ 8

/-- The load returns the addressed bytes of the register, and does nothing else. -/
def ReturnsBytes (inp : Input) (ins : Word) (s : State) (o : LoadOp) (r : ClintReg) (k : ℕ) : Prop :=
  ∃ t, execute inp ins s = .fall t ∧ t.toMachine = { s.toMachine with
    regFile := s.regSet (rd ins)
      (o.extend ((r.value s.toMachine).extractLsb' (8 * k) (8 * o.size))) }

/-- The store changes the addressed bytes of `mtimecmp`, and nothing else in memory. -/
def ChangesBytes (inp : Input) (ins : Word) (s : State) (o : StoreOp) (k : ℕ) : Prop :=
  ∃ t, execute inp ins s = .fall t ∧ t.mem = s.mem.set mtimecmpCell
    (splice s.mtimecmp (s.reg (rs2 ins)) (8 * k) (8 * o.size))

namespace ClintReg

variable {r : ClintReg}

theorem toNat_address (r : ClintReg) (hk : k < 8) :
    (r.address k).toNat = 0x2000000 + r.offset + k := by
  have hr : r.offset ≤ 0xbff8 := by cases r <;> decide
  have hb : clintBase.toNat = 0x2000000 := rfl
  rw [address, BitVec.toNat_add, BitVec.toNat_ofNat, hb]
  omega

theorem address_mod (r : ClintReg) (hk : k < 8) : (r.address k).toNat % 8 = k := by
  rw [r.toNat_address hk]
  cases r
  · show (0x2000000 + 0xbff8 + k) % 8 = k
    omega
  · show (0x2000000 + 0x4000 + k) % 8 = k
    omega

theorem address_inClint (r : ClintReg) (hk : k < 8) :
    clintBase ≤ r.address k ∧ r.address k ≤ clintBase + clintSize := by
  have hr : r.offset ≤ 0xbff8 := by cases r <;> decide
  have ha := r.toNat_address hk
  refine ⟨BitVec.le_def.mpr ?_, BitVec.le_def.mpr ?_⟩
  · show 0x2000000 ≤ _
    omega
  · show _ ≤ 0x20c0000
    omega

theorem toNat_offset (r : ClintReg) (hk : k < 8) :
    (r.address k - clintBase).toNat = r.offset + k := by
  have hle := (r.address_inClint hk).1
  have hb : clintBase.toNat = 0x2000000 := rfl
  rw [BitVec.toNat_sub_of_le hle, r.toNat_address hk, hb]
  omega

theorem address_lt_dram (r : ClintReg) (hk : k < 8) : ¬ r.address k ≥ dramBase := by
  have hr : r.offset ≤ 0xbff8 := by cases r <;> decide
  have ha := r.toNat_address hk
  rw [ge_iff_le, base_le_iff]
  omega

theorem address_ne (r : ClintReg) (hk : k < 8) : r.address k ≠ -1 := by
  have hlt := r.address_lt_dram hk
  intro h
  rw [h] at hlt
  exact hlt (by decide)

end ClintReg

theorem clintRead_register (m : Machine) (r : ClintReg) (hk : k < 8) :
    clintRead (r.address k - clintBase) m = if k = 0 then r.value m else 0 := by
  unfold clintRead
  rw [r.toNat_offset hk]
  cases r <;> interval_cases k <;> rfl

theorem clintWrite_register (m : Machine) (v : Word) (hk : k < 8) :
    (clintWrite (ClintReg.mtimecmp.address k - clintBase) v m).mem =
      if k = 0 then m.mem.set mtimecmpCell v else m.mem := by
  unfold clintWrite
  rw [ClintReg.toNat_offset _ hk]
  interval_cases k <;> rfl

theorem setWidth_extend (o : LoadOp) (x : BitVec (8 * o.size)) :
    (o.extend x).setWidth (8 * o.size) = x := by
  have hsize : 8 * o.size ≤ 64 := by cases o <;> decide
  have hsigned : (x.signExtend 64).setWidth (8 * o.size) = x := by
    refine BitVec.eq_of_getLsbD_eq fun i hi => ?_
    rw [BitVec.getLsbD_setWidth, BitVec.getLsbD_signExtend, decide_eq_true hi,
      decide_eq_true (Nat.lt_of_lt_of_le hi hsize), if_pos hi]
    rfl
  have hunsigned : (x.setWidth 64).setWidth (8 * o.size) = x := by
    rw [BitVec.setWidth_setWidth_of_le _ hsize, BitVec.setWidth_eq]
  cases o with
  | lb => exact hsigned
  | lh => exact hsigned
  | lw => exact hsigned
  | lbu => exact hunsigned
  | lhu => exact hunsigned
  | lwu => exact hunsigned
  | ld => exact hunsigned

theorem extend_injective (o : LoadOp) : Function.Injective o.extend := by
  intro x y h
  rw [← setWidth_extend o x, h, setWidth_extend]

theorem LoadsRegister.executes {o : LoadOp} {r : ClintReg} (h : LoadsRegister ins s o r k) :
    execute inp ins s = .fall ({ s with
      loadAddr := Path.load.address ins s.toMachine
      loadAddrPhy := r.address k
      loadData := if k = 0 then r.value s.toMachine else 0 }.writeBack ins
        (o.extend ((if k = 0 then r.value s.toMachine else 0).extractLsb' (8 * k) (8 * o.size)))) := by
  have hsize : 0 < o.size := by cases o <;> decide
  have hk : k < 8 := by
    have hin := h.inside
    omega
  rw [execute_load h.selects, armLoad_translated h.console h.translated]
  dsimp only
  rw [if_neg (r.address_ne hk), loadMapped, if_neg (r.address_lt_dram hk), loadPeripheral,
    if_pos (r.address_inClint hk)]
  dsimp only
  rw [clintRead_register _ r hk]
  exact congrArg Res.fall (loadSwitch_some h.width (loadValue_fit (r.address_mod hk) h.inside))

theorem returnsBytes_iff {o : LoadOp} {r : ClintReg} (h : LoadsRegister ins s o r k) :
    ReturnsBytes inp ins s o r k ↔
      k = 0 ∨ ∀ i < o.size, byte (r.value s.toMachine) (k + i) = 0 := by
  have hzero (i : ℕ) : byte (0 : Word) i = 0 := by simp [byte]
  have hfield : ReturnsBytes inp ins s o r k ↔
      (if k = 0 then r.value s.toMachine else 0).extractLsb' (8 * k) (8 * o.size) =
        (r.value s.toMachine).extractLsb' (8 * k) (8 * o.size) := by
    unfold ReturnsBytes
    rw [h.executes]
    constructor
    · rintro ⟨t, ht, hm⟩
      cases ht
      have hreg := congrFun (congrArg Machine.regFile hm) ((rd ins).setWidth 5)
      simp only [State.writeBack, State.setReg, Machine.regSet, Function.update_self] at hreg
      exact extend_injective o hreg
    · intro he
      refine ⟨_, rfl, ?_⟩
      rw [he]
      rfl
  rw [hfield]
  by_cases h0 : k = 0
  · rw [if_pos h0]
    exact iff_of_true rfl (.inl h0)
  · rw [if_neg h0, eq_comm, extract_eq_iff]
    simp only [hzero, h0, false_or]

theorem StoresTimecmp.executes {o : StoreOp} (h : StoresTimecmp ins s o k) (inp : Input) :
    ∃ t, execute inp ins s = .fall t ∧
      t.mem = if k = 0 then s.mem.set mtimecmpCell (s.reg (rs2 ins)) else s.mem := by
  have hsize : 0 < o.size := by cases o <;> decide
  have hk : k < 8 := by
    have hin := h.inside
    omega
  rw [execute_store h.selects, armStore_translated h.console h.translated]
  dsimp only
  rw [if_neg (ClintReg.address_ne _ hk), if_neg (ClintReg.address_lt_dram _ hk), storePeripheral,
    if_pos (ClintReg.address_inClint _ hk)]
  exact ⟨_, rfl, clintWrite_register _ _ hk⟩

theorem changesBytes_iff {o : StoreOp} (h : StoresTimecmp ins s o k) :
    ChangesBytes inp ins s o k ↔
      (k = 0 ∧ ∀ i < 8, o.size ≤ i → byte (s.reg (rs2 ins)) i = byte s.mtimecmp i) ∨
        (k ≠ 0 ∧ ∀ i < o.size, byte s.mtimecmp (k + i) = byte (s.reg (rs2 ins)) i) := by
  obtain ⟨t, hx, hmem⟩ := h.executes inp
  have hset (v w : Word) : s.mem.set mtimecmpCell v = s.mem.set mtimecmpCell w ↔ v = w := by
    refine ⟨fun he => ?_, congrArg _⟩
    rw [← Memory.set_same s.mem mtimecmpCell v, he, Memory.set_same]
  have hkept (w : Word) : s.mem = s.mem.set mtimecmpCell w ↔ s.mtimecmp = w := by
    have hself : s.mem.set mtimecmpCell s.mtimecmp = s.mem := Function.update_eq_self _ _
    rw [← hset, hself]
  have hchanges : ChangesBytes inp ins s o k ↔ t.mem = s.mem.set mtimecmpCell
      (splice s.mtimecmp (s.reg (rs2 ins)) (8 * k) (8 * o.size)) := by
    unfold ChangesBytes
    rw [hx]
    constructor
    · rintro ⟨u, hu, he⟩
      cases hu
      exact he
    · exact fun he => ⟨t, rfl, he⟩
  rw [hchanges, hmem]
  by_cases h0 : k = 0
  · -- the whole register is replaced, so the bytes above the width must have been there
    subst h0
    rw [if_pos rfl, hset, eq_splice_low_iff _ _ _ rfl]
    simp only [true_and, ne_eq, not_true_eq_false, false_and, or_false]
    exact forall_congr' fun i => by rw [show 8 * i < 64 ↔ i < 8 by omega]
  · -- the store is ignored
    rw [if_neg h0, hkept, eq_splice_self_iff _ _ _ _ rfl (by have hin := h.inside; omega)]
    simp only [h0, false_and, ne_eq, not_false_eq_true, true_and, false_or]

/-- The accesses that honour their width: loads of the first bytes, and of bytes that are zero;
stores of the first bytes that leave the bytes above as they are, and of bytes that are there
already. -/
theorem clint_width_iff (inp : Input) (ins : Word) (s : State) (k : ℕ) :
    (∀ o r, LoadsRegister ins s o r k → (ReturnsBytes inp ins s o r k ↔
      k = 0 ∨ ∀ i < o.size, byte (r.value s.toMachine) (k + i) = 0)) ∧
    (∀ o, StoresTimecmp ins s o k → (ChangesBytes inp ins s o k ↔
      (k = 0 ∧ ∀ i < 8, o.size ≤ i → byte (s.reg (rs2 ins)) i = byte s.mtimecmp i) ∨
        (k ≠ 0 ∧ ∀ i < o.size, byte s.mtimecmp (k + i) = byte (s.reg (rs2 ins)) i))) :=
  ⟨fun _ _ => returnsBytes_iff, fun _ => changesBytes_iff⟩

def clintState : State := { bare 0x2004000 with regFile := fun r => if r = 1 then 0x2004000 else 0 }

/-- `lw x2, 4(x1)` is a load of the upper half of `mtimecmp`, and does not get it. -/
example : LoadsRegister 0x0040a103 clintState .lw .mtimecmp 4 ∧
    ¬ ReturnsBytes (quiet 0) 0x0040a103 clintState .lw .mtimecmp 4 := by
  have hl : LoadsRegister 0x0040a103 clintState .lw .mtimecmp 4 :=
    ⟨rfl, rfl, by decide, rfl, rfl, by decide⟩
  refine ⟨hl, fun h => ?_⟩
  have hzero := ((returnsBytes_iff hl).mp h).resolve_left (by decide) 0 (by decide)
  exact absurd hzero (by decide)

/-- `sw x0, 0(x1)` with the address of `mtimecmp` in `x1`, which resets all of the register. -/
theorem clint_width_fails : ¬ ∀ (inp : Input) (ins : Word) (s : State) (k : ℕ),
    (∀ o r, LoadsRegister ins s o r k → ReturnsBytes inp ins s o r k) ∧
      ∀ o, StoresTimecmp ins s o k → ChangesBytes inp ins s o k := by
  intro h
  have hs : StoresTimecmp 0x0000a023 clintState .sw 0 :=
    { selects := rfl
      width := rfl
      console := by decide
      translated := rfl
      aligned := rfl
      inside := by decide }
  have hc := (changesBytes_iff hs).mp ((h (quiet 0) _ clintState 0).2 .sw hs)
  rcases hc with ⟨-, hkept⟩ | ⟨hne, -⟩
  · have hbyte : byte (0 : Word) 4 = byte (-1 : Word) 4 := hkept 4 (by decide) (by decide)
    exact absurd hbyte (by decide)
  · exact hne rfl

end RiscvEmu
