import Mathlib.Tactic.IntervalCases
import RiscvEmu.Lib.Bytes
import RiscvEmu.Lib.Runs
import RiscvEmu.Loop

/-! The vector of 64-bit cells is a byte-addressed little-endian memory: for the accessors of the
guest's loads and stores, and for those of the device. -/

namespace RiscvEmu

open Bytes

/-! ### The accessors -/

/-- What the store accessors have in common: `n` bytes that do not cross the end of the cell. -/
def storeFit (n : ℕ) (storeAddr loadData value : Word) : Bool × Word :=
  if storeAddr.toNat % 8 + n ≤ 8 then
    (true, splice loadData value (8 * (storeAddr.toNat % 8)) (8 * n))
  else (false, -1)

def loadFit (n : ℕ) (loadAddr loadData : Word) : Bool × Word :=
  if loadAddr.toNat % 8 + n ≤ 8 then
    (true, slice loadData (8 * (loadAddr.toNat % 8)) (8 * n))
  else (false, -1)

theorem toNat_mod_eight (a : Word) : (a % 8).toNat = a.toNat % 8 := BitVec.toNat_umod

theorem storeWord_eq : storeWord = storeFit 4 := by
  funext a ld v
  unfold storeWord storeFit
  rw [toNat_mod_eight]
  have hk : a.toNat % 8 < 8 := Nat.mod_lt _ (by decide)
  generalize a.toNat % 8 = k at hk ⊢
  interval_cases k <;> rfl

theorem storeHalfw_eq : storeHalfw = storeFit 2 := by
  funext a ld v
  unfold storeHalfw storeFit
  rw [toNat_mod_eight]
  have hk : a.toNat % 8 < 8 := Nat.mod_lt _ (by decide)
  generalize a.toNat % 8 = k at hk ⊢
  interval_cases k <;> rfl

theorem splice_byte {ld v hi lo : Word} {k : ℕ} (hhi : hi = hole 64 0 (k + 8))
    (hlo : lo = low 64 k) :
    (ld &&& hi) + ((v &&& 0xFF) <<< k) + (ld &&& lo) = splice ld v k 8 := by
  rw [splice, and_hole, hhi, hlo, add_right_comm]
  rfl

theorem storeByte_eq : storeByte = storeFit 1 := by
  funext a ld v
  unfold storeByte storeFit
  rw [toNat_mod_eight]
  have hk : a.toNat % 8 < 8 := Nat.mod_lt _ (by decide)
  generalize a.toNat % 8 = k at hk ⊢
  rw [if_pos (by omega)]
  -- the first case has no bits below the byte, and the last one none above it
  have hfirst : (ld &&& (0xFFFFFFFFFFFFFF <<< 8)) + (v &&& 0xFF) = splice ld v 0 8 := by
    rw [splice, BitVec.shiftLeft_zero]
    rfl
  have hlast : ((v &&& 0xFF) <<< 56) + (ld &&& 0xFFFFFFFFFFFFFF) = splice ld v 56 8 := by
    rw [splice, add_comm]
    rfl
  interval_cases k
  case «0» => exact congrArg (Prod.mk true) hfirst
  case «7» => exact congrArg (Prod.mk true) hlast
  all_goals exact congrArg (Prod.mk true) (splice_byte (by decide) (by decide))

theorem loadWord_eq : loadWord = loadFit 4 := by
  funext a ld
  unfold loadWord loadFit
  rw [toNat_mod_eight]
  have hk : a.toNat % 8 < 8 := Nat.mod_lt _ (by decide)
  generalize a.toNat % 8 = k at hk ⊢
  interval_cases k <;> rfl

theorem loadHalfw_eq : loadHalfw = loadFit 2 := by
  funext a ld
  unfold loadHalfw loadFit
  rw [toNat_mod_eight]
  have hk : a.toNat % 8 < 8 := Nat.mod_lt _ (by decide)
  generalize a.toNat % 8 = k at hk ⊢
  interval_cases k <;> rfl

theorem loadByte_eq : loadByte = loadFit 1 := by
  funext a ld
  unfold loadByte loadFit
  rw [toNat_mod_eight]
  have hk : a.toNat % 8 < 8 := Nat.mod_lt _ (by decide)
  generalize a.toNat % 8 = k at hk ⊢
  interval_cases k <;> rfl

theorem storeFit_fails (n : ℕ) (a ld v : Word) :
    (storeFit n a ld v).1 = false ↔ 8 < a.toNat % 8 + n := by
  unfold storeFit
  split <;> simp <;> omega

theorem loadFit_fails (n : ℕ) (a ld : Word) :
    (loadFit n a ld).1 = false ↔ 8 < a.toNat % 8 + n := by
  unfold loadFit
  split <;> simp <;> omega

/-! ### The bytes of the vector -/

abbrev ramSize : ℕ := 8 * memSize

def ramCell (x : ℕ) : Cell := ⟨x / 8 % memSize, Nat.mod_lt _ (by decide)⟩

def Memory.byte (mem : Memory) (x : ℕ) : Byte := Bytes.byte (mem (ramCell x)) (x % 8)

def word (ram : ℕ → Byte) (x n : ℕ) : Word := little 64 ((List.range n).map fun i => ram (x + i))

theorem cell?_div_eight {a : Word} (h : a.toNat < ramSize) :
    cell? (a / 8) = some (ramCell a.toNat) := by
  rw [cell?_eq_some, BitVec.toNat_udiv]
  exact Nat.mod_eq_of_lt (Nat.div_lt_of_lt_mul h)

theorem ramCell_eq_iff {x y : ℕ} (hx : x < ramSize) (hy : y < ramSize) :
    ramCell x = ramCell y ↔ x / 8 = y / 8 := by
  rw [Fin.ext_iff]
  show x / 8 % memSize = y / 8 % memSize ↔ _
  rw [Nat.mod_eq_of_lt (Nat.div_lt_of_lt_mul hx), Nat.mod_eq_of_lt (Nat.div_lt_of_lt_mul hy)]

theorem word_congr {f g : ℕ → Byte} {x n : ℕ} (h : ∀ i < n, f (x + i) = g (x + i)) :
    word f x n = word g x n := by
  unfold word
  exact congrArg _ (List.map_congr_left fun i hi => h i (List.mem_range.mp hi))

theorem Memory.ext_byte {mem mem' : Memory} (h : ∀ x < ramSize, mem.byte x = mem'.byte x) :
    mem = mem' := by
  funext c
  refine eq_of_byte_eq fun i hi => ?_
  have hi : i < 8 := by omega
  have hcell : ramCell (8 * c.val + i) = c := by
    refine Fin.ext ?_
    show (8 * c.val + i) / 8 % memSize = c.val
    rw [show (8 * c.val + i) / 8 = c.val by omega, Nat.mod_eq_of_lt c.isLt]
  have hlt : 8 * c.val + i < ramSize := by
    have hc := c.isLt
    have hsize : ramSize = 8 * memSize := rfl
    omega
  have hbyte := h (8 * c.val + i) hlt
  rw [Memory.byte, Memory.byte, hcell, show (8 * c.val + i) % 8 = i by omega] at hbyte
  exact hbyte

theorem slice_eq_word (mem : Memory) {x n : ℕ} (hfit : x % 8 + n ≤ 8) :
    slice (mem (ramCell x)) (8 * (x % 8)) (8 * n) = word mem.byte x n := by
  rw [slice_eq_little _ _ _ rfl]
  refine congrArg _ (List.map_congr_left fun i hi => ?_)
  have hi : i < n := List.mem_range.mp hi
  have hdiv : (x + i) / 8 = x / 8 := by omega
  have hc : ramCell (x + i) = ramCell x := Fin.ext (congrArg (· % memSize) hdiv)
  rw [Memory.byte, hc, show (x + i) % 8 = x % 8 + i by omega]

theorem byte_set_splice (mem : Memory) (v : Word) {a n x : ℕ} (ha : a < ramSize)
    (hfit : a % 8 + n ≤ 8) (hx : x < ramSize) :
    (mem.set (ramCell a) (splice (mem (ramCell a)) v (8 * (a % 8)) (8 * n))).byte x =
      put (a, bytes v n) mem.byte x := by
  rw [put_bytes]
  unfold Memory.byte
  by_cases hc : x / 8 = a / 8
  · rw [(ramCell_eq_iff hx ha).mpr hc, Memory.set_same, byte_splice _ _ _ _ _ (by omega)]
    by_cases hin : a ≤ x ∧ x < a + n
    · rw [if_pos hin, if_pos (by omega), show x % 8 - a % 8 = x - a by omega]
    · rw [if_neg hin, if_neg (by omega)]
  · rw [Memory.set_of_ne _ (mt (ramCell_eq_iff hx ha).mp hc), if_neg (by omega)]

/-! ### Stores -/

/-- A store: by the RAM half of the store arm, with the register file at that point, or by DMA. -/
inductive Store
  | arm (ins pa : Word) (regFile : BitVec 5 → Word)
  | dma (act : DeviceAct)

namespace Store

def run : Store → State → Option State
  | .arm ins pa regFile, s =>
    match storeRam ins pa { s with regFile := regFile } with
    | .fall t => some t
    | _ => none
  | .dma act, s =>
    match deviceAct act s.toMachine with
    | .ret () m => some { s with toMachine := m }
    | .stop _ _ => none

/-- The stores of the claimed sequences: `SB`, `SH`, `SW` and `SD` in range, a DMA byte anywhere,
and DMA halfwords and words at naturally aligned addresses. -/
def InRange : Store → Prop
  | .arm ins pa _ => (func3 ins).toNat < 4 ∧ (pa - dramBase).toNat < 2 ^ 28
  | .dma (.write8 addr _) => (addr - dramBase).toNat < ramSize
  | .dma (.write16 addr _) => (addr - dramBase).toNat < ramSize ∧ addr.toNat % 2 = 0
  | .dma (.write32 addr _) => (addr - dramBase).toNat < ramSize ∧ addr.toNat % 4 = 0
  | .dma _ => False

/-- The bytes that a store writes, and where: none if it does not fit into one doubleword. -/
def put : Store → ℕ × List Byte
  | .arm ins pa regFile =>
    let n := 2 ^ (func3 ins).toNat
    ((pa - dramBase).toNat,
      if (pa - dramBase).toNat % 8 + n ≤ 8 then bytes (regFile ((rs2 ins).setWidth 5)) n else [])
  | .dma (.write8 addr data) => ((addr - dramBase).toNat, bytes data 1)
  | .dma (.write16 addr data) => ((addr - dramBase).toNat, bytes data 2)
  | .dma (.write32 addr data) => ((addr - dramBase).toNat, bytes data 4)
  | .dma _ => (0, [])

end Store

def Memory.Holds (mem : Memory) (ram : ℕ → Byte) : Prop := ∀ x < ramSize, mem.byte x = ram x

theorem put_nil (a : ℕ) (f : ℕ → Byte) : put (a, []) f = f := by
  funext x
  unfold put written
  split <;> rfl

theorem sub_dramBase_mod (addr : Word) : (addr - dramBase).toNat % 8 = addr.toNat % 8 := by
  rw [BitVec.toNat_sub]
  show (2 ^ 64 - 2 ^ 31 + addr.toNat) % 2 ^ 64 % 8 = _
  omega

theorem splice_and_low (w v : Word) (b n : ℕ) : splice w (v &&& low 64 n) b n = splice w v b n := by
  rw [splice, splice, BitVec.and_assoc, BitVec.and_self]

theorem storeCommit_fit {n : ℕ} {c : Cell} {s : State} {a ld v : Word}
    (h : (s.lsSuccess, s.wbData) = storeFit n a ld v) : (storeCommit c s).mem =
      if a.toNat % 8 + n ≤ 8 then s.mem.set c (splice ld v (8 * (a.toNat % 8)) (8 * n))
      else s.mem := by
  unfold storeFit at h
  unfold storeCommit
  by_cases hfit : a.toNat % 8 + n ≤ 8
  · rw [if_pos hfit] at h ⊢
    obtain ⟨hok, hwb⟩ := Prod.mk.inj h
    rw [hok, hwb]
    rfl
  · rw [if_neg hfit] at h ⊢
    rw [(Prod.mk.inj h).1]
    rfl

theorem storeSwitch_narrow {ins : Word} {k : ℕ} (s : State) (hk : (func3 ins).toNat = k)
    (h : k < 3) {v : Word} (hv : v = s.reg (rs2 ins) &&& low 64 (8 * 2 ^ k)) :
    storeSwitch ins s = { s with
      val := v
      lsSuccess := (storeFit (2 ^ k) s.storeAddrPhy s.storeData v).1
      wbData := (storeFit (2 ^ k) s.storeAddrPhy s.storeData v).2 } := by
  subst hv
  unfold storeSwitch
  rw [hk, storeByte_eq, storeHalfw_eq, storeWord_eq]
  interval_cases k <;> rfl

theorem storeSwitch_double {ins : Word} (s : State) (hk : (func3 ins).toNat = 3) :
    storeSwitch ins s =
      if s.storeAddrPhy % 8 = 0 then { s with wbData := s.reg (rs2 ins), lsSuccess := true }
      else { s with lsSuccess := false } := by
  unfold storeSwitch
  rw [hk]
  rfl

theorem storeCommit_of_success {s : State} (c : Cell) (h : s.lsSuccess = true) :
    storeCommit c s = { s with toMachine := s.write .store c s.wbData } := if_pos h

theorem storeCommit_of_failure {s : State} (c : Cell) (h : s.lsSuccess = false) :
    storeCommit c s = s := if_neg (Bool.eq_false_iff.mp h)

theorem storeCommit_mem (ins : Word) (s : State) (c : Cell) (hf : (func3 ins).toNat < 4) :
    (storeCommit c (storeSwitch ins s)).mem =
      if s.storeAddrPhy.toNat % 8 + 2 ^ (func3 ins).toNat ≤ 8 then
        s.mem.set c (splice s.storeData (s.reg (rs2 ins)) (8 * (s.storeAddrPhy.toNat % 8))
          (8 * 2 ^ (func3 ins).toNat))
      else s.mem := by
  generalize hk : (func3 ins).toNat = k at hf
  by_cases h : k < 3
  · rw [storeSwitch_narrow s hk h rfl, storeCommit_fit (n := 2 ^ k) rfl, splice_and_low]
  · obtain rfl : k = 3 := by omega
    rw [storeSwitch_double s hk]
    by_cases h : s.storeAddrPhy % 8 = 0
    · have h' : s.storeAddrPhy.toNat % 8 = 0 := toNat_mod_eight s.storeAddrPhy ▸ congrArg _ h
      rw [if_pos h, storeCommit_of_success c rfl, if_pos (by omega), h']
      exact congrArg (s.mem.set c) (splice_all _ _).symm
    · have h' : s.storeAddrPhy.toNat % 8 ≠ 0 := fun h' =>
        h (BitVec.eq_of_toNat_eq ((toNat_mod_eight s.storeAddrPhy).trans h'))
      rw [if_neg h, storeCommit_of_failure c rfl, if_neg (by omega)]

theorem put_congr {p : ℕ × List Byte} {f g : ℕ → Byte} {x : ℕ} (h : f x = g x) :
    Bytes.put p f x = Bytes.put p g x := by
  unfold Bytes.put
  rw [h]

theorem Memory.Holds.set_splice {mem : Memory} {ram : ℕ → Byte} (h : mem.Holds ram) (v : Word)
    {a n : ℕ} (ha : a < ramSize) (hfit : a % 8 + n ≤ 8) :
    (mem.set (ramCell a) (splice (mem (ramCell a)) v (8 * (a % 8)) (8 * n))).Holds
      (Bytes.put (a, bytes v n) ram) := by
  intro x hx
  rw [byte_set_splice mem v ha hfit hx]
  exact put_congr (h x hx)

theorem dmaWrite_holds {n : ℕ} {addr : Word} (data : Word) {m : Machine} {ram : ℕ → Byte}
    (ha : (addr - dramBase).toNat < ramSize) (hfit : addr.toNat % 8 + n ≤ 8)
    (hm : m.mem.Holds ram) :
    ∃ m', dmaWrite (memWrite (storeFit n) addr data m.mem) m = .ret () m' ∧
      m'.mem.Holds (Bytes.put ((addr - dramBase).toNat, bytes data n) ram) := by
  have hmod := sub_dramBase_mod addr
  have hcell := cell?_div_eight ha
  generalize (addr - dramBase).toNat = a at ha hmod hcell ⊢
  have hput := hm.set_splice data ha (by rw [hmod]; exact hfit)
  rw [hmod] at hput
  refine ⟨m.write .dma (ramCell a)
    (splice (m.mem (ramCell a)) data (8 * (addr.toNat % 8)) (8 * n)), ?_, hput⟩
  unfold memWrite storeFit dmaWrite
  rw [hcell]
  simp only [if_pos hfit, Option.map_some]

theorem storeRam_eq {ins pa : Word} {s : State} {a : ℕ} (ha : (pa - dramBase).toNat = a)
    (h : a < 2 ^ 28) : storeRam ins pa s = .fall (storeCommit (ramCell a) (storeSwitch ins
      { s with storeAddrPhy := pa - dramBase, storeData := s.mem (ramCell a) })) := by
  have hlt : ¬ pa - dramBase ≥ (1 : Word) <<< 28 := by
    rw [ge_iff_le, BitVec.le_def, not_le, ha]
    exact h
  have hcell : cell? ((pa - dramBase) / 8) = some (ramCell a) := by
    rw [cell?_div_eight (by rw [ha]; exact Nat.lt_trans h (by decide)), ha]
  unfold storeRam
  simp only [if_neg hlt, hcell]

theorem storeRam_holds {ins pa : Word} {s : State} {ram : ℕ → Byte} {n : ℕ}
    (hf : (func3 ins).toNat < 4) (hn : 2 ^ (func3 ins).toNat = n)
    (ha : (pa - dramBase).toNat < 2 ^ 28) (hs : s.mem.Holds ram) :
    ∃ t, storeRam ins pa s = .fall t ∧ t.mem.Holds (Bytes.put ((pa - dramBase).toNat,
      if (pa - dramBase).toNat % 8 + n ≤ 8 then bytes (s.reg (rs2 ins)) n else []) ram) := by
  subst hn
  refine ⟨_, storeRam_eq rfl ha, ?_⟩
  rw [storeCommit_mem _ _ _ hf]
  by_cases hfit : (pa - dramBase).toNat % 8 + 2 ^ (func3 ins).toNat ≤ 8
  · simp only [if_pos hfit]
    exact hs.set_splice _ (Nat.lt_trans ha (by decide)) hfit
  · simp only [if_neg hfit, put_nil]
    exact hs

theorem Store.run_holds {st : Store} {s : State} {ram : ℕ → Byte} (h : st.InRange)
    (hs : s.mem.Holds ram) : ∃ t, st.run s = some t ∧ t.mem.Holds (Bytes.put st.put ram) := by
  cases st with
  | arm ins pa regFile =>
    obtain ⟨hf, ha⟩ := h
    obtain ⟨t, ht, hram⟩ := storeRam_holds (s := { s with regFile := regFile }) hf rfl ha hs
    exact ⟨t, by simp only [Store.run, ht], hram⟩
  | dma act =>
    cases act with
    | write8 addr data =>
      obtain ⟨m, hm, hram⟩ := dmaWrite_holds (n := 1) data h (by omega) hs
      exact ⟨{ s with toMachine := m }, by
        unfold Store.run deviceAct memWrite8
        simp only [storeByte_eq, hm], hram⟩
    | write16 addr data =>
      obtain ⟨m, hm, hram⟩ := dmaWrite_holds (n := 2) data h.1 (by have := h.2; omega) hs
      exact ⟨{ s with toMachine := m }, by
        unfold Store.run deviceAct memWrite16
        simp only [storeHalfw_eq, hm], hram⟩
    | write32 addr data =>
      obtain ⟨m, hm, hram⟩ := dmaWrite_holds (n := 4) data h.1 (by have := h.2; omega) hs
      exact ⟨{ s with toMachine := m }, by
        unfold Store.run deviceAct memWrite32
        simp only [storeWord_eq, hm], hram⟩
    | read8 _ => exact h.elim
    | read16 _ => exact h.elim
    | read32 _ => exact h.elim
    | setIrq _ => exact h.elim

theorem drive_holds {stores : List Store} {s : State} {ram : ℕ → Byte}
    (h : ∀ st ∈ stores, st.InRange) (hs : s.mem.Holds ram) :
    ∃ t, Runs.drive Store.run stores s = some t ∧
      t.mem.Holds ((stores.map Store.put).foldl (fun f p => Bytes.put p f) ram) := by
  induction stores generalizing s ram with
  | nil => exact ⟨s, rfl, hs⟩
  | cons st stores ih =>
    obtain ⟨u, hu, hram⟩ := Store.run_holds (h st (List.mem_cons_self ..)) hs
    obtain ⟨t, ht, hram⟩ := ih (fun st' hst => h st' (List.mem_cons_of_mem _ hst)) hram
    exact ⟨t, by rw [Runs.drive, hu, Option.bind_some, ht], hram⟩

/-! ### Loads -/

def CpuReads (m : Machine) (ram : ℕ → Byte) : Prop :=
  ∀ inp pa, (pa - dramBase).toNat < ramSize → ∃ data,
    loadMapped inp pa m = .ret (pa - dramBase, data) m ∧
    ((pa - dramBase).toNat % 8 + 1 ≤ 8 →
      loadByte (pa - dramBase) data = (true, word ram (pa - dramBase).toNat 1)) ∧
    ((pa - dramBase).toNat % 8 + 2 ≤ 8 →
      loadHalfw (pa - dramBase) data = (true, word ram (pa - dramBase).toNat 2)) ∧
    ((pa - dramBase).toNat % 8 + 4 ≤ 8 →
      loadWord (pa - dramBase) data = (true, word ram (pa - dramBase).toNat 4)) ∧
    ((pa - dramBase).toNat % 8 = 0 → data = word ram (pa - dramBase).toNat 8)

def DmaReads (m : Machine) (ram : ℕ → Byte) : Prop :=
  ∀ addr, (addr - dramBase).toNat < ramSize →
    (addr.toNat % 8 + 1 ≤ 8 →
      memRead8 addr m.mem = some ((word ram (addr - dramBase).toNat 1).setWidth 8)) ∧
    (addr.toNat % 8 + 2 ≤ 8 →
      memRead16 addr m.mem = some ((word ram (addr - dramBase).toNat 2).setWidth 16)) ∧
    (addr.toNat % 8 + 4 ≤ 8 →
      memRead32 addr m.mem = some ((word ram (addr - dramBase).toNat 4).setWidth 32))

section

variable {mem : Memory} {ram : ℕ → Byte} (h : mem.Holds ram)
include h

theorem Memory.Holds.word {x n : ℕ} (hx : x < ramSize) (hfit : x % 8 + n ≤ 8) :
    slice (mem (ramCell x)) (8 * (x % 8)) (8 * n) = word ram x n := by
  rw [slice_eq_word mem hfit]
  refine word_congr fun i hi => h _ ?_
  have : ramSize = 8 * memSize := rfl
  omega

/-- An accessor gets the address, or the offset into RAM, with the same low bits. -/
theorem Memory.Holds.loadFit {x n : ℕ} {a : Word} (hx : x < ramSize)
    (ha : a.toNat % 8 = x % 8) (hfit : x % 8 + n ≤ 8) :
    loadFit n a (mem (ramCell x)) = (true, RiscvEmu.word ram x n) := by
  unfold RiscvEmu.loadFit
  rw [ha, if_pos hfit, h.word hx hfit]

end

theorem loadMapped_inRam {inp : Input} {pa : Word} {m : Machine}
    (hx : (pa - dramBase).toNat < ramSize) :
    loadMapped inp pa m = .ret (pa - dramBase, m.mem (ramCell (pa - dramBase).toNat)) m := by
  have hge : pa ≥ dramBase := by
    rw [ge_iff_le, BitVec.le_def]
    rw [BitVec.toNat_sub] at hx
    have hlt := pa.isLt
    have hbase : dramBase.toNat = 2 ^ 31 := rfl
    have hsize : ramSize = 2 ^ 31 := rfl
    omega
  have hle : ¬ pa - dramBase > dramSize := by
    rw [gt_iff_lt, BitVec.lt_def, not_lt]
    exact hx.le
  unfold loadMapped
  simp only [if_pos hge, if_neg hle, cell?_div_eight hx]

theorem cpuReads {m : Machine} {ram : ℕ → Byte} (h : m.mem.Holds ram) : CpuReads m ram := by
  intro inp pa hx
  refine ⟨m.mem (ramCell (pa - dramBase).toNat), loadMapped_inRam hx, ?_⟩
  rw [loadByte_eq, loadHalfw_eq, loadWord_eq]
  refine ⟨h.loadFit hx rfl, h.loadFit hx rfl, h.loadFit hx rfl, fun h0 => ?_⟩
  have hall := h.word (n := 8) hx (by omega)
  rw [h0] at hall
  rw [← hall]
  exact (slice_all _).symm

theorem dmaReads {m : Machine} {ram : ℕ → Byte} (h : m.mem.Holds ram) : DmaReads m ram := by
  intro addr hx
  have hmod := sub_dramBase_mod addr
  have hcell := cell?_div_eight hx
  have hload {n : ℕ} (hfit : addr.toNat % 8 + n ≤ 8) :=
    h.loadFit hx hmod.symm (n := n) (by rw [hmod]; exact hfit)
  unfold memRead8 memRead16 memRead32
  rw [hcell, loadByte_eq, loadHalfw_eq, loadWord_eq]
  refine ⟨fun hfit => ?_, fun hfit => ?_, fun hfit => ?_⟩
  all_goals rw [Option.map_some, hload hfit]

/-! ### The memory -/

/-- The accessors fail exactly where an access crosses the end of the doubleword. -/
def AccessorsFit : Prop :=
  ∀ a ld v : Word,
    ((storeByte a ld v).1 = false ↔ 8 < a.toNat % 8 + 1) ∧
    ((storeHalfw a ld v).1 = false ↔ 8 < a.toNat % 8 + 2) ∧
    ((storeWord a ld v).1 = false ↔ 8 < a.toNat % 8 + 4) ∧
    ((loadByte a ld).1 = false ↔ 8 < a.toNat % 8 + 1) ∧
    ((loadHalfw a ld).1 = false ↔ 8 < a.toNat % 8 + 2) ∧
    ((loadWord a ld).1 = false ↔ 8 < a.toNat % 8 + 4)

theorem accessorsFit : AccessorsFit := by
  intro a ld v
  rw [storeByte_eq, storeHalfw_eq, storeWord_eq, loadByte_eq, loadHalfw_eq, loadWord_eq]
  exact ⟨storeFit_fails .., storeFit_fails .., storeFit_fails .., loadFit_fails ..,
    loadFit_fails .., loadFit_fails ..⟩

/-- After any sequence of stores, of the guest and of the device, every byte of RAM is the one last
written to its address, or the initial one, and this is what every load returns. -/
theorem memory_byteAddressed (s : State) (stores : List Store) (h : ∀ st ∈ stores, st.InRange) :
    AccessorsFit ∧ ∃ t, Runs.drive Store.run stores s = some t ∧
      ∃ ram : ℕ → Byte,
        (∀ x, ram x = (lastWritten (stores.map Store.put) x).getD (s.mem.byte x)) ∧
        (∀ x, (∀ st ∈ stores, x < st.put.1 ∨ st.put.1 + st.put.2.length ≤ x) →
          ram x = s.mem.byte x) ∧
        (∀ x < ramSize, t.mem.byte x = ram x) ∧ CpuReads t.toMachine ram ∧
        DmaReads t.toMachine ram := by
  obtain ⟨t, ht, hram⟩ := drive_holds h fun x _ => rfl
  have hlast (x : ℕ) := foldl_put (stores.map Store.put) s.mem.byte x
  refine ⟨accessorsFit, t, ht, _, hlast, fun x hx => ?_, hram, cpuReads hram, dmaReads hram⟩
  rw [hlast, lastWritten_eq_none fun p hp => ?_]
  · rfl
  · obtain ⟨st, hst, rfl⟩ := List.mem_map.mp hp
    exact written_eq_none.mpr (hx st hst)

/-- `SH` at offset 4, a DMA byte over its upper half, and a DMA word below. -/
def overlapping : List Store :=
  [.arm 0x00101023 0x80000004 fun _ => 0x1234, .dma (.write8 0x80000005 0xAB),
    .dma (.write32 0x80000000 0x55667788)]

theorem memory_byteAddressed_overlapping : AccessorsFit ∧
    ∃ t, Runs.drive Store.run overlapping (boot (fun _ => 0) 0) = some t ∧
      ∃ ram : ℕ → Byte,
        (∀ x, ram x = (lastWritten (overlapping.map Store.put) x).getD
          ((boot (fun _ => 0) 0).mem.byte x)) ∧
        (∀ x, (∀ st ∈ overlapping, x < st.put.1 ∨ st.put.1 + st.put.2.length ≤ x) →
          ram x = (boot (fun _ => 0) 0).mem.byte x) ∧
        (∀ x < ramSize, t.mem.byte x = ram x) ∧ CpuReads t.toMachine ram ∧
        DmaReads t.toMachine ram :=
  memory_byteAddressed (boot (fun _ => 0) 0) overlapping (by
    rintro st (_ | ⟨_, _ | ⟨_, _ | ⟨_, ⟨⟩⟩⟩⟩)
    · exact ⟨by decide, by decide⟩
    · exact show _ < _ by decide
    · exact ⟨by decide, by decide⟩)

end RiscvEmu
