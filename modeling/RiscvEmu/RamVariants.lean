import RiscvEmu.AccessWidths

/-! The RAM of `ramtest`, an array of bytes that is read and written in doublewords at the address of
the access, beside the vector of 64-bit cells. Both hand the doubleword to the same accessors. -/

namespace RiscvEmu

open Bytes Rv64ima

inductive RamOp
  | load (o : LoadOp) (addr : Word)
  | store (o : StoreOp) (addr value : Word)

namespace RamOp

def addr : RamOp → Word
  | load _ a => a
  | store _ a _ => a

def size : RamOp → ℕ
  | load o _ => o.size
  | store o _ _ => o.size

def Fits (op : RamOp) : Prop := op.addr.toNat < ramSize ∧ op.addr.toNat % 8 + op.size ≤ 8

end RamOp

/-- `uint8_t *memory`. -/
abbrev ByteRam := ℕ → Byte

/-- `read_double`; none outside of the array. -/
def readDouble (addr : Word) (memory : ByteRam) : Option Word :=
  if addr.toNat + 8 ≤ ramSize then some (word memory addr.toNat 8) else none

def writeDouble (addr : Word) (memory : ByteRam) (value : Word) : Option ByteRam :=
  if addr.toNat + 8 ≤ ramSize then some (put (addr.toNat, bytes value 8) memory) else none

/-- The RAM branch of the load and the store arm: the value for `rd`, and the memory. -/
def cellOp : RamOp → Memory → Option (Option Word × Memory)
  | .load o a, mem => (cell? (a / 8)).map fun c => (loadValue o a (mem c), mem)
  | .store o a v, mem => (cell? (a / 8)).map fun c =>
    match storeValue o a (mem c) v with
    | none => (none, mem)
    | some wbData => (none, mem.set c wbData)

/-- The same branch in `ramtest`. -/
def byteOp : RamOp → ByteRam → Option (Option Word × ByteRam)
  | .load o a, memory => (readDouble a memory).map fun loadData => (loadValue o a loadData, memory)
  | .store o a v, memory =>
    (readDouble a memory).bind fun storeData =>
      match storeValue o a storeData v with
      | none => some (none, memory)
      | some wbData => (writeDouble a memory wbData).map fun memory => (none, memory)

def runOps {σ : Type} (step : RamOp → σ → Option (Option Word × σ)) :
    List RamOp → σ → Option (List (Option Word) × σ)
  | [], s => some ([], s)
  | op :: ops, s =>
    (step op s).bind fun r => (runOps step ops r.2).map fun rs => (r.1 :: rs.1, rs.2)

/-- Over every beginning of the sequence, both return the same values and leave the same bytes. -/
def SameRam (ops : List RamOp) (mem : Memory) (memory : ByteRam) : Prop :=
  ∀ pre, pre <+: ops → ∃ vals mem' memory', runOps cellOp pre mem = some (vals, mem') ∧
    runOps byteOp pre memory = some (vals, memory') ∧ mem'.Holds memory'

/-! ### The cells are the RAM of the arms -/

variable {inp : Input} {ins pa : Word} {s : State}

theorem storeCommit_value {o : StoreOp} (ho : (func3 ins).toNat = o.funct3.toNat) (c : Cell) :
    (storeCommit c (storeSwitch ins s)).mem =
      match storeValue o s.storeAddrPhy s.storeData (s.reg (rs2 ins)) with
      | none => s.mem
      | some wbData => s.mem.set c wbData := by
  have narrow (r : Bool × Word) (v : Word) :
      (storeCommit c { s with val := v, lsSuccess := r.1, wbData := r.2 }).mem =
        match accessed r with
        | none => s.mem
        | some wbData => s.mem.set c wbData := by
    obtain ⟨ok, x⟩ := r
    cases ok with
    | true => rfl
    | false => rfl
  unfold storeSwitch
  rw [ho]
  cases o with
  | sb => exact narrow _ _
  | sh => exact narrow _ _
  | sw => exact narrow _ _
  | sd =>
    by_cases h0 : s.storeAddrPhy % 8 = 0
    · have hv : storeValue .sd s.storeAddrPhy s.storeData (s.reg (rs2 ins)) =
          some (s.reg (rs2 ins)) := if_pos h0
      rw [hv]
      show (storeCommit c (if s.storeAddrPhy % 8 = 0 then _ else _)).mem = _
      rw [if_pos h0]
      rfl
    · have hv : storeValue .sd s.storeAddrPhy s.storeData (s.reg (rs2 ins)) = none := if_neg h0
      rw [hv]
      show (storeCommit c (if s.storeAddrPhy % 8 = 0 then _ else _)).mem = _
      rw [if_neg h0]
      rfl

theorem storeRam_cellOp {o : StoreOp} (ho : (func3 ins).toNat = o.funct3.toNat)
    (ha : (pa - dramBase).toNat < 2 ^ 28) : ∃ t, storeRam ins pa s = .fall t ∧
      cellOp (.store o (pa - dramBase) (s.reg (rs2 ins))) s.mem = some (none, t.mem) := by
  have hlt : (pa - dramBase).toNat < ramSize := Nat.lt_trans ha (by decide)
  refine ⟨_, storeRam_eq rfl ha, ?_⟩
  rw [storeCommit_value ho, cellOp, cell?_div_eight hlt, Option.map_some]
  dsimp only
  split <;> rfl

theorem loadMapped_cellOp (o : LoadOp) (ha : (pa - dramBase).toNat < ramSize) :
    ∃ data, loadMapped inp pa s.toMachine = .ret (pa - dramBase, data) s.toMachine ∧
      cellOp (.load o (pa - dramBase)) s.mem = some (loadValue o (pa - dramBase) data, s.mem) := by
  refine ⟨s.mem (ramCell (pa - dramBase).toNat), loadMapped_inRam ha, ?_⟩
  rw [cellOp, cell?_div_eight ha, Option.map_some]

/-! ### Memory of bytes -/

namespace RamOp

def valueAt (ram : ℕ → Byte) (x : ℕ) : RamOp → Option Word
  | load o _ => some (o.extend ((word ram x o.size).setWidth (8 * o.size)))
  | store _ _ _ => none

def afterAt (ram : ℕ → Byte) (x : ℕ) : RamOp → ℕ → Byte
  | load _ _ => ram
  | store o _ v => put (x, bytes v o.size) ram

/-- Where the access of `ramtest` goes: the offset into the doubleword is added a second time. -/
def shifted (op : RamOp) : ℕ := op.addr.toNat + op.addr.toNat % 8

def Indifferent (ram : ℕ → Byte) : RamOp → Prop
  | load o a => ∀ i < o.size, ram (shifted (load o a) + i) = ram (a.toNat + i)
  | store o a v => ∀ x, put (shifted (store o a v), bytes v o.size) ram x =
      put (a.toNat, bytes v o.size) ram x

/-- The access is at a multiple of 8, or the wrong bytes are like the right ones. -/
def Placed (ram : ℕ → Byte) (op : RamOp) : Prop :=
  op.addr.toNat % 8 = 0 ∨ op.addr.toNat + 8 ≤ ramSize ∧ op.Indifferent ram

def AllPlaced : List RamOp → (ℕ → Byte) → Prop
  | [], _ => True
  | op :: ops, ram => op.Placed ram ∧ AllPlaced ops (op.afterAt ram op.addr.toNat)

end RamOp

theorem byte_word (ram : ℕ → Byte) (x : ℕ) {n i : ℕ} (hn : n ≤ 8) (hi : i < n) :
    byte (word ram x n) i = ram (x + i) := by
  rw [word, byte_little _ _ (by omega), List.getD_eq_getElem?_getD, List.getElem?_map,
    List.getElem?_range hi]
  rfl

theorem extract_word (ram : ℕ → Byte) {x k n : ℕ} (h : k + n ≤ 8) :
    (word ram x 8).extractLsb' (8 * k) (8 * n) = (word ram (x + k) n).setWidth (8 * n) := by
  refine eq_of_byte_eq fun i hi => ?_
  have hi : i < n := by omega
  rw [byte_extract _ _ _ _ hi, byte_setWidth _ _ (by omega), byte_word _ _ le_rfl (by omega),
    byte_word _ _ (by omega) hi, Nat.add_assoc]

theorem word_eq_iff (ram : ℕ → Byte) (x y : ℕ) {n : ℕ} (hn : n ≤ 8) :
    (word ram x n).setWidth (8 * n) = (word ram y n).setWidth (8 * n) ↔
      ∀ i < n, ram (x + i) = ram (y + i) := by
  constructor
  · intro h i hi
    have hbyte := congrArg (byte · i) h
    rwa [byte_setWidth _ _ (by omega), byte_setWidth _ _ (by omega), byte_word _ _ hn hi,
      byte_word _ _ hn hi] at hbyte
  · intro h
    have hlist : ((List.range n).map fun i => ram (x + i)) = (List.range n).map fun i => ram (y + i) :=
      List.map_congr_left fun i hi => h i (List.mem_range.mp hi)
    rw [word, word, hlist]

theorem extract_cell {mem : Memory} {ram : ℕ → Byte} (hm : mem.Holds ram) {x n : ℕ}
    (hx : x < ramSize) (h : x % 8 + n ≤ 8) :
    (mem (ramCell x)).extractLsb' (8 * (x % 8)) (8 * n) = (word ram x n).setWidth (8 * n) := by
  rw [← hm.word hx h, slice_eq_extract, BitVec.setWidth_setWidth_of_le _ (by omega),
    BitVec.setWidth_eq]

/-! ### One access -/

section

variable {op : RamOp} {mem : Memory} {ram : ℕ → Byte}

theorem cellOp_holds (hf : op.Fits) (hm : mem.Holds ram) :
    ∃ mem', cellOp op mem = some (op.valueAt ram op.addr.toNat, mem') ∧
      mem'.Holds (op.afterAt ram op.addr.toNat) := by
  cases op with
  | load o a =>
    have ha : a.toNat < ramSize := hf.1
    have hfit : a.toNat % 8 + o.size ≤ 8 := hf.2
    refine ⟨mem, ?_, hm⟩
    rw [cellOp, cell?_div_eight ha, Option.map_some, loadValue_fit rfl hfit, extract_cell hm ha hfit]
    rfl
  | store o a v =>
    have ha : a.toNat < ramSize := hf.1
    have hfit : a.toNat % 8 + o.size ≤ 8 := hf.2
    refine ⟨_, ?_, hm.set_splice v ha hfit⟩
    rw [cellOp, cell?_div_eight ha, Option.map_some, storeValue_fit rfl hfit]
    rfl

theorem put_splice (v : Word) {x k n : ℕ} (h : k + n ≤ 8) :
    put (x, bytes (splice (word ram x 8) v (8 * k) (8 * n)) 8) ram = put (x + k, bytes v n) ram := by
  funext y
  rw [put_bytes, put_bytes]
  by_cases hin : x ≤ y ∧ y < x + 8
  · rw [if_pos hin, byte_splice _ _ _ _ _ (by omega)]
    by_cases hk : x + k ≤ y ∧ y < x + k + n
    · rw [if_pos (by omega), if_pos hk, Nat.sub_add_eq]
    · rw [if_neg (by omega), if_neg hk, byte_word _ _ le_rfl (by omega), Nat.add_sub_cancel' hin.1]
  · rw [if_neg hin, if_neg (by omega)]

/-- The bytes behave as if the access were at the shifted offset. -/
theorem byteOp_eq (hf : op.Fits) (h8 : op.addr.toNat + 8 ≤ ramSize) :
    byteOp op ram = some (op.valueAt ram op.shifted, op.afterAt ram op.shifted) := by
  cases op with
  | load o a =>
    have hfit : a.toNat % 8 + o.size ≤ 8 := hf.2
    have hread : readDouble a ram = some (word ram a.toNat 8) := if_pos h8
    rw [byteOp, hread, Option.map_some, loadValue_fit rfl hfit, extract_word ram hfit]
    rfl
  | store o a v =>
    have hfit : a.toNat % 8 + o.size ≤ 8 := hf.2
    have hread : readDouble a ram = some (word ram a.toNat 8) := if_pos h8
    have hvalue := storeValue_fit (d := word ram a.toNat 8) (v := v) rfl hfit
    rw [byteOp, hread, Option.bind_some, hvalue]
    dsimp only
    rw [writeDouble, if_pos (show a.toNat + 8 ≤ ramSize from h8), Option.map_some]
    exact congrArg (fun f => some (none, f)) (put_splice v hfit)

theorem byteOp_outside (h8 : ¬ op.addr.toNat + 8 ≤ ramSize) : byteOp op ram = none := by
  cases op with
  | load o a =>
    have hread : readDouble a ram = none := if_neg h8
    rw [byteOp, hread, Option.map_none]
  | store o a v =>
    have hread : readDouble a ram = none := if_neg h8
    rw [byteOp, hread, Option.bind_none]

theorem indifferent_iff : op.Indifferent ram ↔
    op.valueAt ram op.shifted = op.valueAt ram op.addr.toNat ∧
      op.afterAt ram op.shifted = op.afterAt ram op.addr.toNat := by
  cases op with
  | load o a =>
    have hsize : o.size ≤ 8 := by cases o <;> decide
    refine (word_eq_iff ram _ _ hsize).symm.trans ⟨fun h => ⟨?_, rfl⟩, fun h => ?_⟩
    · exact congrArg (fun x => some (o.extend x)) h
    · exact extend_injective o (Option.some.inj h.1)
  | store o a v =>
    exact ⟨fun h => ⟨rfl, funext h⟩, fun h => congrFun h.2⟩

theorem afterAt_beyond {x y : ℕ} (ram : ℕ → Byte) (hy : y + op.size ≤ ramSize)
    (hx : ramSize ≤ x) : op.afterAt ram y x = ram x := by
  cases op with
  | load o a => rfl
  | store o a v =>
    have hy : y + o.size ≤ ramSize := hy
    rw [RamOp.afterAt, put_bytes, if_neg (by omega)]

end

/-! ### Sequences -/

section

variable {σ : Type} {step : RamOp → σ → Option (Option Word × σ)} {op : RamOp} {ops : List RamOp}
  {s t : σ} {v : Option Word}

theorem runOps_cons (h : step op s = some (v, t)) : runOps step (op :: ops) s =
    (runOps step ops t).map fun rs => (v :: rs.1, rs.2) := by
  rw [runOps, h, Option.bind_some]

theorem runOps_singleton (h : step op s = some (v, t)) : runOps step [op] s = some ([v], t) := by
  rw [runOps_cons h]
  rfl

end

variable {mem : Memory} {ram : ℕ → Byte} {ops : List RamOp}

theorem RamOp.Placed.byteOp {op : RamOp} (hp : op.Placed ram) (hf : op.Fits) :
    byteOp op ram = some (op.valueAt ram op.addr.toNat, op.afterAt ram op.addr.toNat) := by
  rcases hp with h0 | ⟨h8, hind⟩
  · have hshift : op.shifted = op.addr.toNat := by rw [RamOp.shifted, h0, Nat.add_zero]
    have ha := hf.1
    have hsize : ramSize = 8 * memSize := rfl
    rw [byteOp_eq hf (by omega), hshift]
  · obtain ⟨hvalue, hafter⟩ := indifferent_iff.mp hind
    rw [byteOp_eq hf h8, hvalue, hafter]

theorem placed_of_sameRam {op : RamOp} {mem' : Memory} (hf : op.Fits)
    (hcell : cellOp op mem = some (op.valueAt ram op.addr.toNat, mem'))
    (hold : mem'.Holds (op.afterAt ram op.addr.toNat)) (h : SameRam [op] mem ram) :
    op.Placed ram := by
  obtain ⟨vals, mem1, ram1, hc, hb, hram⟩ := h [op] (List.prefix_refl _)
  rw [runOps_singleton hcell] at hc
  cases hc
  by_cases h8 : op.addr.toNat + 8 ≤ ramSize
  · have hrun : byteOp op ram = _ := byteOp_eq hf h8
    rw [runOps_singleton hrun] at hb
    obtain ⟨hvals, hafter⟩ := Prod.mk.inj (Option.some.inj hb)
    subst hafter
    refine .inr ⟨h8, indifferent_iff.mpr ⟨(List.cons.inj hvals).1, funext fun x => ?_⟩⟩
    by_cases hx : x < ramSize
    · exact (hram x hx).symm.trans (hold x hx)
    · -- past the end of the array neither access has written anything
      have hsize := hf.2
      rw [afterAt_beyond ram (by unfold RamOp.shifted; omega) (Nat.le_of_not_lt hx),
        afterAt_beyond ram (by omega) (Nat.le_of_not_lt hx)]
  · rw [runOps, byteOp_outside h8] at hb
    cases hb

theorem sameRam_cons {op : RamOp} {mem' : Memory} (hf : op.Fits)
    (hcell : cellOp op mem = some (op.valueAt ram op.addr.toNat, mem'))
    (hold : mem'.Holds (op.afterAt ram op.addr.toNat)) (hm : mem.Holds ram) :
    SameRam (op :: ops) mem ram ↔
      op.Placed ram ∧ SameRam ops mem' (op.afterAt ram op.addr.toNat) := by
  constructor
  · intro h
    have hp : op.Placed ram := placed_of_sameRam hf hcell hold fun pre hpre =>
      h pre (hpre.trans ⟨ops, rfl⟩)
    refine ⟨hp, fun pre hpre => ?_⟩
    obtain ⟨vals, mem1, ram1, hc, hb, hram⟩ := h (op :: pre) (List.cons_prefix_cons.mpr ⟨rfl, hpre⟩)
    rw [runOps_cons hcell] at hc
    rw [runOps_cons (hp.byteOp hf)] at hb
    obtain ⟨⟨vals', mem2⟩, hc', he⟩ := Option.map_eq_some_iff.mp hc
    obtain ⟨⟨vals'', ram2⟩, hb', he'⟩ := Option.map_eq_some_iff.mp hb
    cases he
    cases he'
    exact ⟨vals', mem2, ram2, hc', hb', hram⟩
  · rintro ⟨hp, h⟩ pre hpre
    cases pre with
    | nil => exact ⟨[], mem, ram, rfl, rfl, hm⟩
    | cons op' pre =>
      obtain ⟨rfl, hrest⟩ := List.cons_prefix_cons.mp hpre
      obtain ⟨vals, mem1, ram1, hc, hb, hram⟩ := h pre hrest
      refine ⟨op'.valueAt ram op'.addr.toNat :: vals, mem1, ram1, ?_, ?_, hram⟩
      · rw [runOps_cons hcell, hc, Option.map_some]
      · rw [runOps_cons (hp.byteOp hf), hb, Option.map_some]

/-- The two variants agree on a sequence exactly when every access is at a multiple of 8, or finds and
leaves the same bytes at twice its offset into the doubleword. -/
theorem ram_variants_iff (hf : ∀ op ∈ ops, op.Fits) (hm : mem.Holds ram) :
    SameRam ops mem ram ↔ RamOp.AllPlaced ops ram := by
  induction ops generalizing mem ram with
  | nil =>
    refine iff_of_true (fun pre hpre => ?_) trivial
    obtain rfl := List.prefix_nil.mp hpre
    exact ⟨[], mem, ram, rfl, rfl, hm⟩
  | cons op ops ih =>
    have hop : op.Fits := hf op (List.mem_cons_self ..)
    obtain ⟨mem', hcell, hold⟩ := cellOp_holds hop hm
    rw [sameRam_cons hop hcell hold hm,
      ih (fun op' hmem => hf op' (List.mem_cons_of_mem _ hmem)) hold]
    rfl

/-- A doubleword is stored, and its low word is loaded. -/
theorem ram_variants_aligned :
    SameRam [.store .sd 8 0x1234, .load .lw 8] (fun _ => 0) (Memory.byte fun _ => 0) ↔
      RamOp.AllPlaced [.store .sd 8 0x1234, .load .lw 8] (Memory.byte fun _ => 0) := by
  refine ram_variants_iff (fun op hop => ?_) fun _ _ => rfl
  rcases List.mem_cons.mp hop with rfl | hop
  · exact ⟨by decide, by decide⟩
  · obtain rfl := List.mem_singleton.mp hop
    exact ⟨by decide, by decide⟩

/-- `lw` at offset 4, where the next doubleword is not like the upper half of the first. -/
theorem ram_variants_differ : ¬ ∀ (ops : List RamOp) (mem : Memory) (ram : ByteRam),
    (∀ op ∈ ops, op.Fits) → mem.Holds ram → SameRam ops mem ram := by
  intro h
  let mem : Memory := Memory.set (fun _ => 0) 1 1
  have hf : ∀ op ∈ [RamOp.load .lw 4], op.Fits := by
    intro op hop
    obtain rfl := List.mem_singleton.mp hop
    exact ⟨by decide, by decide⟩
  have hm : mem.Holds mem.byte := fun _ _ => rfl
  have hop := hf _ (List.mem_singleton_self _)
  obtain ⟨mem', hcell, hold⟩ := cellOp_holds hop hm
  obtain ⟨hplaced, -⟩ := (sameRam_cons hop hcell hold hm).mp (h [.load .lw 4] mem mem.byte hf hm)
  rcases hplaced with h0 | ⟨-, hind⟩
  · exact absurd h0 (by decide)
  · have hbyte : mem.byte 8 = mem.byte 4 := hind 0 (by decide)
    exact absurd hbyte (by decide)

end RiscvEmu
