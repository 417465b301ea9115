import RiscvEmu.AccessBounds

/-! The accesses that are listed for a fetch and for an arm are those that they make: no other cell of
the memory vector has an influence on what they do, they change no other cell, and where an index is
beyond the vector they end there. -/

namespace RiscvEmu

open Sv39

variable {inp : Input} {ins p va v : Word} {s : State} {m : Machine} {mem other : Memory}
  {cs : List Cell} {c : Cell} {r : ℕ}

/-- The cells of an access. The two registers of the CLINT are references into the vector. -/
def Access.cells : Access → List Cell
  | .memory _ i => (cell? i).toList
  | .device _ p =>
    if InClint p then
      match (p - clintBase).toNat with
      | 0xbff8 => [mtimeCell]
      | 0x4000 => [mtimecmpCell]
      | _ => []
    else []

def cells (as : List Access) : List Cell := as.flatMap Access.cells

def Memory.within (mem : Memory) (cs : List Cell) (other : Memory) : Memory :=
  fun c => if c ∈ cs then mem c else other c

def Machine.within (m : Machine) (cs : List Cell) (other : Memory) : Machine :=
  { m with mem := m.mem.within cs other }

def State.within (s : State) (cs : List Cell) (other : Memory) : State :=
  { s with mem := s.mem.within cs other }

def Call.within {α : Type} (x : Call α) (cs : List Cell) (other : Memory) : Call α :=
  match x with
  | .ret a m => .ret a (m.within cs other)
  | .stop h m => .stop h (m.within cs other)

def Res.within (x : Res) (cs : List Cell) (other : Memory) : Res :=
  match x with
  | .fall s => .fall (s.within cs other)
  | .cont s => .cont (s.within cs other)
  | .stop h s => .stop h (s.within cs other)

section

variable (m : Machine) (s : State) (cs : List Cell) (other : Memory)

@[simp] theorem Machine.within_csr : (m.within cs other).csr = m.csr := rfl

@[simp] theorem Machine.within_cp : (m.within cs other).cp = m.cp := rfl

@[simp] theorem Machine.within_pc : (m.within cs other).pc = m.pc := rfl

@[simp] theorem Machine.within_plic : (m.within cs other).plic = m.plic := rfl

@[simp] theorem Machine.within_reg (r : Word) : (m.within cs other).reg r = m.reg r := rfl

@[simp] theorem State.within_toMachine :
    (s.within cs other).toMachine = s.toMachine.within cs other := rfl

@[simp] theorem State.within_toLocals : (s.within cs other).toLocals = s.toLocals := rfl

theorem State.within_csr : (s.within cs other).csr = s.csr := rfl

theorem State.within_cp : (s.within cs other).cp = s.cp := rfl

theorem State.within_pc : (s.within cs other).pc = s.pc := rfl

theorem State.within_resv : (s.within cs other).resv = s.resv := rfl

theorem State.within_fifoQueue : (s.within cs other).fifoQueue = s.fifoQueue := rfl

theorem State.within_reg (r : Word) : (s.within cs other).reg r = s.reg r := rfl

end

theorem within_read (h : c ∈ cs) : mem.within cs other c = mem c := if_pos h

theorem within_set (h : c ∈ cs) (v : Word) :
    (mem.within cs other).set c v = (mem.set c v).within cs other := by
  funext d
  rw [Memory.within, Memory.set_apply, Memory.set_apply]
  by_cases hd : d = c
  · rw [if_pos hd, if_pos hd, hd, if_pos h]
  · rw [if_neg hd, if_neg hd]
    rfl

theorem within_write (h : c ∈ cs) (w : Writer) (v : Word) :
    (m.within cs other).write w c v = (m.write w c v).within cs other := by
  unfold Machine.write Machine.within
  dsimp only
  rw [within_set h]

theorem mem_cells {as : List Access} {a : Access} (ha : a ∈ as) (hc : c ∈ a.cells) : c ∈ cells as :=
  List.mem_flatMap.mpr ⟨a, ha, hc⟩

theorem mem_memory_cells {i : Word} (h : cell? i = some c) : c ∈ (Access.memory r i).cells := by
  rw [Access.cells, h]
  exact List.mem_singleton_self c

/-! ### Translation -/

theorem walkFrom_congr {ty : Ttype} {mem' : Memory} (ls : List Level) {n : ℕ} {page : Word}
    (h : ∀ r i, Access.memory r i ∈ walkReads mem n page (ls.map Level.vpn) →
      ∀ x, cell? i = some x → mem x = mem' x) :
    walkFrom mem ty page ls = walkFrom mem' ty page ls := by
  induction ls generalizing n page with
  | nil => rfl
  | cons l ls ih =>
    rw [List.map_cons] at h
    have hcell := h _ _ (List.mem_cons_self ..)
    have he : entry mem page l.vpn = entry mem' page l.vpn :=
      Option.map_congr fun x hx => hcell x hx
    unfold walkFrom
    rw [readPte_eq_entry, readPte_eq_entry, ← he]
    cases hw : entry mem page l.vpn with
    | none => rfl
    | some w =>
      dsimp only [Option.map_some]
      split
      · rfl
      rename_i hi
      split
      · rfl
      rename_i hl
      apply ih (n := ppn w)
      intro r i hm
      refine h r i (List.mem_cons_of_mem _ ?_)
      rw [hw]
      dsimp only
      rwa [if_neg (not_or.mpr ⟨mt (invalid_writeReg w).mpr hi, mt (leaf_writeReg w).mpr hl⟩)]

theorem translate_congr {k : Csrs} {ty : Ttype} {cp : Plevel} {mem' : Memory}
    (h : ∀ r i, Access.memory r i ∈ translateReads k mem va ty cp →
      ∀ x, cell? i = some x → mem x = mem' x) :
    translate k mem va ty cp = translate k mem' va ty cp := by
  unfold translateReads at h
  by_cases hw : Walks k ty cp
  · rw [if_pos hw] at h
    rw [translate_of_walks hw, translate_of_walks hw]
    exact walkFrom_congr _ h
  · unfold translate
    split
    · rfl
    · rename_i hmode
      split
      · rfl
      rename_i h1
      split
      · rfl
      rename_i h2
      split
      · rfl
      rename_i h3
      exact absurd ⟨BitVec.eq_of_toNat_eq hmode, h1, h2, h3⟩ hw
    · rfl
    · rfl

theorem translate_within (other : Memory) {k : Csrs} {ty : Ttype} {cp : Plevel}
    {f : ℕ → Word → List Access} (h : cells (mapped k mem va ty cp f) ⊆ cs) :
    translate k (mem.within cs other) va ty cp = translate k mem va ty cp := by
  refine (translate_congr fun r i hm x hx => (within_read (h ?_)).symm).symm
  exact mem_cells (List.mem_append_left _ hm) (mem_memory_cells hx)

theorem cells_subset_mapped {k : Csrs} {ty : Ttype} {cp : Plevel} {f : ℕ → Word → List Access}
    (ht : translate k mem va ty cp = .ok p) (hp : p ≠ -1) (h : cells (mapped k mem va ty cp f) ⊆ cs) :
    cells (f (requested k mem va ty cp) p) ⊆ cs := by
  intro x hx
  obtain ⟨a, ha, hx⟩ := List.mem_flatMap.mp hx
  refine h (mem_cells ?_ hx)
  unfold mapped
  rw [ht]
  dsimp only
  rw [if_neg hp]
  exact List.mem_append_right _ ha

/-! ### Traps -/

theorem excepFunction_within (cs : List Cell) (other : Memory) (pc me se ue : Word) (cur : Plevel)
    (m : Machine) :
    excepFunction pc me se ue cur (m.within cs other) =
      (excepFunction pc me se ue cur m).within cs other := by
  unfold excepFunction
  rw [Machine.within_csr]
  dsimp only
  split <;> rfl

theorem raiseExcep_within (pc ecode : Word) (m : Machine) :
    raiseExcep pc ecode (m.within cs other) = (raiseExcep pc ecode m).within cs other := by
  unfold raiseExcep
  rw [excepFunction_within, Machine.within_cp]
  cases excepFunction pc ecode ecode ecode m.cp m <;> rfl

theorem loadPageFault_within (va : Word) (s : State) :
    loadPageFault va (s.within cs other) = (loadPageFault va s).within cs other := by
  have h : raiseExcep s.pc causeLoadPageFault (setMtval (s.within cs other).toMachine va) = _ :=
    raiseExcep_within s.pc causeLoadPageFault (setMtval s.toMachine va)
  unfold loadPageFault
  rw [State.within_pc, h]
  cases raiseExcep s.pc causeLoadPageFault (setMtval s.toMachine va) with
  | stop e m => rfl
  | ret u m =>
    unfold Call.within faultTval
    dsimp only
    rw [Machine.within_cp]
    split <;> rfl

theorem storePageFault_within (va : Word) (s : State) :
    storePageFault va (s.within cs other) = (storePageFault va s).within cs other := by
  have h : raiseExcep s.pc causeStorePageFault (s.within cs other).toMachine = _ :=
    raiseExcep_within s.pc causeStorePageFault s.toMachine
  unfold storePageFault
  rw [State.within_pc, h]
  cases raiseExcep s.pc causeStorePageFault s.toMachine with
  | stop e m => rfl
  | ret u m =>
    unfold Call.within faultTval
    dsimp only
    rw [show (setMtval (m.within cs other) va).cp = (setMtval m va).cp from rfl]
    split <;> rfl

/-! ### Loads -/

theorem device_cells (hv : InClint p) : (Access.device r p).cells =
    match (p - clintBase).toNat with
    | 0xbff8 => [mtimeCell]
    | 0x4000 => [mtimecmpCell]
    | _ => [] := if_pos hv

theorem clintRead_within (hv : InClint p) (h : (Access.device r p).cells ⊆ cs) (m : Machine) :
    clintRead (p - clintBase) (m.within cs other) = clintRead (p - clintBase) m := by
  rw [device_cells hv] at h
  unfold clintRead
  split
  · rename_i ho
    rw [ho] at h
    exact within_read (h (List.mem_singleton_self _))
  · rename_i ho
    rw [ho] at h
    exact within_read (h (List.mem_singleton_self _))
  · rfl

theorem loadPeripheral_within (h : InPeripheral p → (Access.device r p).cells ⊆ cs) (m : Machine) :
    loadPeripheral inp p (m.within cs other) = (loadPeripheral inp p m).within cs other := by
  unfold loadPeripheral
  split
  · rename_i hv
    rw [clintRead_within hv (h (.inl hv))]
    rfl
  split
  · unfold plicRead
    dsimp only
    split
    · rfl
    split
    · rw [Machine.within_csr]
      split <;> rfl
    · rfl
  split <;> rfl

theorem loadMapped_within (inp : Input) (other : Memory) (h : cells (loadAccess r p) ⊆ cs)
    (m : Machine) :
    loadMapped inp p (m.within cs other) = (loadMapped inp p m).within cs other := by
  unfold loadAccess at h
  unfold loadMapped
  by_cases hb : p ≥ dramBase
  · rw [if_pos hb] at h
    rw [if_pos hb, if_pos hb]
    dsimp only
    by_cases hlim : p - dramBase > dramSize
    · rw [if_pos hlim, if_pos hlim]
      rfl
    · rw [if_neg hlim] at h
      rw [if_neg hlim, if_neg hlim]
      cases hc : cell? ((p - dramBase) / 8) with
      | none => rfl
      | some c =>
        have hmem : c ∈ cs := h (mem_cells (List.mem_singleton_self _) (mem_memory_cells hc))
        have hread : (m.within cs other).mem c = m.mem c := within_read hmem
        dsimp only
        rw [hread]
        rfl
  · rw [if_neg hb] at h
    rw [if_neg hb, if_neg hb, loadPeripheral_within (r := r) (fun hd => ?_) m]
    · cases loadPeripheral inp p m <;> rfl
    · rw [if_pos hd] at h
      exact fun x hx => h (mem_cells (List.mem_singleton_self _) hx)

theorem loadNarrow_within (access : Word → Word → Bool × Word) (extend : Word → Word) (s : State) :
    loadNarrow access extend ins (s.within cs other) =
      (loadNarrow access extend ins s).within cs other := by
  unfold loadNarrow
  rw [State.within_toLocals]
  split <;> rfl

theorem loadSwitch_within (ins : Word) (s : State) :
    loadSwitch ins (s.within cs other) = (loadSwitch ins s).within cs other := by
  unfold loadSwitch
  split
  · exact loadNarrow_within _ _ s
  · exact loadNarrow_within _ _ s
  · exact loadNarrow_within _ _ s
  · exact loadNarrow_within _ _ s
  · exact loadNarrow_within _ _ s
  · exact loadNarrow_within _ _ s
  · unfold loadLd
    rw [State.within_toLocals]
    split <;> rfl
  · rfl

theorem loadFifo_within (inp : Input) (ins : Word) (cs : List Cell) (other : Memory) (s : State) :
    loadFifo inp ins (s.within cs other) = (loadFifo inp ins s).within cs other := by
  unfold loadFifo
  rw [State.within_toLocals, State.within_fifoQueue]
  split
  · split <;> rfl
  · split <;> rfl

theorem armLoad_within (h : cells (armAccesses inp ins s) ⊆ cs) (ho : opcode ins = .load) :
    armLoad inp ins (s.within cs other) = (armLoad inp ins s).within cs other := by
  unfold armAccesses at h
  rw [ho] at h
  dsimp only at h
  by_cases hq : Path.load.address ins s.toMachine ∈ Path.load.console
  · have hva := mem_load_console.mp hq
    have hn : ¬ (s.reg (rs1 ins) + signExtend (imm11_0 ins) 12 ≠ fifoAddrRx ∧
        s.reg (rs1 ins) + signExtend (imm11_0 ins) 12 ≠ fifoAddrTx) := fun hn => hva.elim hn.1 hn.2
    have hfifo := loadFifo_within inp ins cs other
      { s with loadAddr := s.reg (rs1 ins) + signExtend (imm11_0 ins) 12 }
    unfold armLoad
    dsimp only
    rw [if_neg hn]
    exact (if_neg hn).trans (congrArg Res.fall hfifo)
  · rw [if_neg hq] at h
    have ht := translate_within other h
    cases hx : translate s.csr s.mem (Path.load.address ins s.toMachine) .load s.cp with
    | error e =>
      rw [armLoad_error hq hx, armLoad_error (s := s.within cs other) hq (ht.trans hx)]
      rfl
    | ok p =>
      rw [armLoad_translated hq hx, armLoad_translated (s := s.within cs other) hq (ht.trans hx)]
      dsimp only
      by_cases hp : p = -1
      · rw [if_pos hp, if_pos hp]
        exact loadPageFault_within _ { s with
          loadAddr := Path.load.address ins s.toMachine
          loadAddrPhy := p }
      · rw [if_neg hp, if_neg hp]
        have hl := loadMapped_within inp other (cells_subset_mapped hx hp h) s.toMachine
        rw [State.within_toMachine, hl]
        cases loadMapped inp p s.toMachine with
        | stop e m => rfl
        | ret x m => exact congrArg Res.fall (loadSwitch_within ins { s with
            toMachine := m
            loadAddr := Path.load.address ins s.toMachine
            loadAddrPhy := x.1
            loadData := x.2 })

/-! ### Stores -/

/-- Of what a DMA read finds, the machine only sees whether its cell is in range. -/
theorem dmaRead_within {β : Type} (o : Option Cell) (f g : Cell → β) (m : Machine) :
    dmaRead (o.map f).isSome (m.within cs other) =
      (dmaRead (o.map g).isSome m).within cs other := by
  cases o <;> rfl

theorem dmaWrite_within {t : Option (Cell × Word)} (h : ∀ x ∈ t, x.1 ∈ cs) (m : Machine) :
    dmaWrite t (m.within cs other) = (dmaWrite t m).within cs other := by
  cases t with
  | none => rfl
  | some x => exact congrArg (Call.ret ()) (within_write (h x rfl) _ _)

theorem memWrite_within {store : Word → Word → Word → Bool × Word} {addr data : Word}
    (h : ∀ c ∈ cell? ((addr - dramBase) / 8), c ∈ cs) (m : Machine) :
    dmaWrite (memWrite store addr data (m.within cs other).mem) (m.within cs other) =
      (dmaWrite (memWrite store addr data m.mem) m).within cs other := by
  have hw : memWrite store addr data (m.within cs other).mem = memWrite store addr data m.mem := by
    unfold memWrite
    refine Option.map_congr fun c hc => ?_
    rw [show (m.within cs other).mem c = m.mem c from within_read (h c hc)]
  rw [hw]
  refine dmaWrite_within (fun x hx => ?_) m
  obtain ⟨c, hc, rfl⟩ := Option.map_eq_some_iff.mp hx
  exact h c hc

theorem deviceAct_within {a : DeviceAct}
    (h : ∀ addr ∈ a.address?, ∀ c ∈ cell? ((addr - dramBase) / 8), c ∈ cs) (m : Machine) :
    deviceAct a (m.within cs other) = (deviceAct a m).within cs other := by
  cases a with
  | read8 addr => exact dmaRead_within (cell? ((addr - dramBase) / 8)) _ _ m
  | read16 addr => exact dmaRead_within (cell? ((addr - dramBase) / 8)) _ _ m
  | read32 addr => exact dmaRead_within (cell? ((addr - dramBase) / 8)) _ _ m
  | write8 addr data => exact memWrite_within (h addr rfl) m
  | write16 addr data => exact memWrite_within (h addr rfl) m
  | write32 addr data => exact memWrite_within (h addr rfl) m
  | setIrq state =>
    refine congrArg (Call.ret ()) ?_
    unfold plicSetIrqEmu
    split
    · dsimp only
      rw [Machine.within_plic]
      split <;> rfl
    · rfl

theorem deviceAct_inRange {a : DeviceAct} {addr : Word} {m' : Machine} (ha : a.address? = some addr)
    (h : deviceAct a m = .ret () m') : (cell? ((addr - dramBase) / 8)).isSome := by
  have hread {b : Bool} (hr : dmaRead b m = .ret () m') : b = true := by
    cases b with
    | true => rfl
    | false => cases hr
  have hwrite {store : Word → Word → Word → Bool × Word} {addr data : Word}
      (hw : dmaWrite (memWrite store addr data m.mem) m = .ret () m') :
      (cell? ((addr - dramBase) / 8)).isSome := by
    unfold memWrite at hw
    cases hc : cell? ((addr - dramBase) / 8) with
    | none =>
      rw [hc] at hw
      cases hw
    | some c => rfl
  cases a with
  | read8 =>
    cases ha
    exact Option.isSome_map.symm.trans (hread h)
  | read16 =>
    cases ha
    exact Option.isSome_map.symm.trans (hread h)
  | read32 =>
    cases ha
    exact Option.isSome_map.symm.trans (hread h)
  | write8 =>
    cases ha
    exact hwrite h
  | write16 =>
    cases ha
    exact hwrite h
  | write32 =>
    cases ha
    exact hwrite h
  | setIrq => cases ha

theorem deviceActs_within {as : List DeviceAct} (h : cells (dmaAccesses as) ⊆ cs) (m : Machine) :
    deviceActs as (m.within cs other) = (deviceActs as m).within cs other := by
  induction as generalizing m with
  | nil => rfl
  | cons a as ih =>
    have ha : ∀ addr ∈ a.address?, ∀ c ∈ cell? ((addr - dramBase) / 8), c ∈ cs := by
      intro addr haddr c hc
      refine h ?_
      rw [dmaAccesses, show a.address? = some addr from haddr]
      exact mem_cells (List.mem_cons_self ..) (mem_memory_cells hc)
    rw [deviceActs, deviceActs, deviceAct_within ha]
    cases hx : deviceAct a m with
    | stop e m' => rfl
    | ret u m' =>
      refine ih (fun x hx' => h ?_) m'
      obtain ⟨b, hb, hx'⟩ := List.mem_flatMap.mp hx'
      refine mem_cells ?_ hx'
      rw [dmaAccesses]
      split
      · exact hb
      · rename_i addr haddr
        -- the call has returned, so its address is in range
        rw [if_pos (deviceAct_inRange haddr hx)]
        exact List.mem_cons_of_mem _ hb

theorem storeSwitch_within (cs : List Cell) (other : Memory) (ins : Word) (s : State) :
    storeSwitch ins (s.within cs other) = (storeSwitch ins s).within cs other := by
  unfold storeSwitch
  dsimp only
  split
  · rfl
  · rfl
  · rfl
  · rw [State.within_toLocals]
    split <;> rfl
  · rfl

theorem storeCommit_within (h : c ∈ cs) (s : State) :
    storeCommit c (s.within cs other) = (storeCommit c s).within cs other := by
  have hw : (s.within cs other).write .store c s.wbData =
      (s.write .store c s.wbData).within cs other := within_write (m := s.toMachine) h _ _
  unfold storeCommit
  rw [State.within_toLocals, hw]
  split <;> rfl

theorem storeRam_within (hb : p ≥ dramBase) (h : cells (storeAccess inp v mem r p) ⊆ cs)
    (s : State) : storeRam ins p (s.within cs other) = (storeRam ins p s).within cs other := by
  unfold storeAccess at h
  rw [if_pos hb] at h
  unfold storeRam
  dsimp only
  by_cases hlim : p - dramBase ≥ (1 : Word) <<< 28
  · rw [if_pos hlim, if_pos hlim]
    rfl
  · rw [if_neg hlim] at h
    rw [if_neg hlim, if_neg hlim]
    cases hc : cell? ((p - dramBase) / 8) with
    | none => rfl
    | some c =>
      have hmem : c ∈ cs := h (mem_cells (List.mem_singleton_self _) (mem_memory_cells hc))
      have hread : (s.within cs other).mem c = s.mem c := within_read hmem
      have hswitch := storeSwitch_within cs other ins
        { s with storeAddrPhy := p - dramBase, storeData := s.mem c }
      dsimp only
      rw [hread]
      exact congrArg Res.fall ((congrArg (storeCommit c) hswitch).trans (storeCommit_within hmem _))

theorem storePeripheral_within (other : Memory) (hb : ¬ p ≥ dramBase)
    (h : cells (storeAccess inp v mem r p) ⊆ cs)
    (hin : ∀ o x mem', inp.virtioMmioWrite o x mem' = inp.virtioMmioWrite o x mem) (m : Machine) :
    storePeripheral inp p v (m.within cs other) = (storePeripheral inp p v m).within cs other := by
  unfold storeAccess at h
  rw [if_neg hb] at h
  unfold storePeripheral
  split
  · -- the write of `mtimecmp`
    rename_i hv
    have hnot : ¬ InVirtio p := fun hx => hx.not_others.1 hv
    have hd : InPeripheral p := .inl hv
    rw [if_neg hnot, if_pos hd] at h
    have hcells : (Access.device r p).cells ⊆ cs :=
      fun x hx => h (mem_cells (List.mem_singleton_self _) hx)
    rw [device_cells hv] at hcells
    refine congrArg (Call.ret ()) ?_
    unfold clintWrite
    split
    · rename_i ho
      rw [ho] at hcells
      unfold Machine.within
      dsimp only
      rw [within_set (hcells (List.mem_singleton_self _))]
    · rfl
  split
  · refine congrArg (Call.ret ()) ?_
    unfold plicWrite
    split
    · dsimp only
      rw [Machine.within_plic]
      split <;> rfl
    · rfl
  split
  · rename_i hv
    have hvirtio : InVirtio p := hv
    rw [if_pos hvirtio] at h
    -- what the device does is the same for both memories
    rw [hin _ _ (m.within cs other).mem, hin _ _ m.mem]
    refine deviceActs_within (fun x hx => h ?_) m
    obtain ⟨a, ha, hx⟩ := List.mem_flatMap.mp hx
    exact mem_cells (List.mem_cons_of_mem _ ha) hx
  · rfl

theorem armStore_within (h : cells (armAccesses inp ins s) ⊆ cs) (ho : opcode ins = .store)
    (hin : ∀ o x mem', inp.virtioMmioWrite o x mem' = inp.virtioMmioWrite o x s.mem) :
    armStore inp ins (s.within cs other) = (armStore inp ins s).within cs other := by
  unfold armAccesses at h
  rw [ho] at h
  dsimp only at h
  by_cases hq : Path.store.address ins s.toMachine ∈ Path.store.console
  · have hn : ¬ s.reg (rs1 ins) + signExtend (immS ins) 12 ≠ fifoAddrTx :=
      not_not.mpr (mem_store_console.mp hq)
    unfold armStore
    dsimp only
    rw [if_neg hn]
    exact if_neg hn
  · rw [if_neg hq] at h
    have ht := translate_within other h
    cases hx : translate s.csr s.mem (Path.store.address ins s.toMachine) .stor s.cp with
    | error e =>
      rw [armStore_error hq hx, armStore_error (s := s.within cs other) hq (ht.trans hx)]
      rfl
    | ok p =>
      rw [armStore_translated hq hx, armStore_translated (s := s.within cs other) hq (ht.trans hx)]
      dsimp only
      by_cases hp : p = -1
      · rw [if_pos hp, if_pos hp]
        exact storePageFault_within _ { s with
          storeAddr := Path.store.address ins s.toMachine
          storeAddrPhy := p }
      rw [if_neg hp, if_neg hp]
      have hcells := cells_subset_mapped hx hp h
      by_cases hb : p ≥ dramBase
      · rw [if_pos hb, if_pos hb]
        exact storeRam_within hb hcells { s with
          storeAddr := Path.store.address ins s.toMachine
          storeAddrPhy := p }
      · rw [if_neg hb, if_neg hb]
        have hs := storePeripheral_within other hb hcells hin s.toMachine
        rw [State.within_toMachine, Machine.within_reg, hs]
        cases storePeripheral inp p (s.reg (rs2 ins)) s.toMachine <;> rfl

/-! ### Atomics -/

theorem amoRmwW_within (op : Word → Word → Word) {mis : State → Word} (h : c ∈ cs)
    (hmis : ∀ s : State, mis (s.within cs other) = mis s) (s : State) :
    amoRmwW op mis ins c (s.within cs other) = (amoRmwW op mis ins c s).within cs other := by
  have hw (x : Word) : (s.within cs other).write .amo c x = (s.write .amo c x).within cs other :=
    within_write (m := s.toMachine) h _ _
  unfold amoRmwW
  rw [hmis, State.within_toLocals]
  split
  · rfl
  · dsimp only
    rw [hw]
    rfl

theorem scWStore_within (h : c ∈ cs) (s : State) :
    scWStore ins c (s.within cs other) = (scWStore ins c s).within cs other := by
  have hw (x : Word) : (s.within cs other).write .sc c x = (s.write .sc c x).within cs other :=
    within_write (m := s.toMachine) h _ _
  unfold scWStore
  dsimp only
  rw [State.within_reg, State.within_toLocals]
  split
  · rfl
  · rw [show ({ s.within cs other with storeData := s.reg (rs2 ins) &&& mask32 } : State).write .sc c _ =
      (s.within cs other).write .sc c _ from rfl, hw]
    rfl

theorem scW_within (h : c ∈ cs) (s : State) :
    scW ins c (s.within cs other) = (scW ins c s).within cs other := by
  unfold scW
  dsimp only
  rw [State.within_resv, State.within_reg, scWStore_within h]
  split <;> rfl

theorem lrW_within (s : State) : lrW (s.within cs other) = (lrW s).within cs other := by
  unfold lrW
  rw [State.within_toLocals]
  split <;> rfl

theorem amoSwitchW_within (h : c ∈ cs) (s : State) :
    amoSwitchW ins c (s.within cs other) = (amoSwitchW ins c s).within cs other := by
  unfold amoSwitchW
  split
  · exact lrW_within s
  · exact scW_within h s
  · exact amoRmwW_within _ h (fun _ => rfl) s
  · exact amoRmwW_within _ h (fun _ => rfl) s
  · exact amoRmwW_within _ h (fun _ => rfl) s
  · exact amoRmwW_within _ h (fun _ => rfl) s
  · exact amoRmwW_within _ h (fun _ => rfl) s
  · exact amoRmwW_within _ h (fun _ => rfl) s
  · exact amoRmwW_within _ h (fun _ => rfl) s
  · exact amoRmwW_within _ h (fun _ => rfl) s
  · exact amoRmwW_within _ h (fun _ => rfl) s
  · rfl

theorem amoRmwD_within (op : Word → Word → Word) (h : c ∈ cs) (s : State) :
    amoRmwD op ins c (s.within cs other) = (amoRmwD op ins c s).within cs other := by
  have hw (x : Word) : (s.within cs other).write .amo c x = (s.write .amo c x).within cs other :=
    within_write (m := s.toMachine) h _ _
  unfold amoRmwD
  rw [State.within_toLocals]
  split
  · rfl
  · dsimp only
    rw [show ({ s.within cs other with retData := _, wbData := _ } : State).write .amo c _ =
      (s.within cs other).write .amo c _ from rfl, hw]
    rfl

theorem scDStore_within (h : c ∈ cs) (s : State) :
    scDStore ins c (s.within cs other) = (scDStore ins c s).within cs other := by
  have hw (x : Word) : (s.within cs other).write .sc c x = (s.write .sc c x).within cs other :=
    within_write (m := s.toMachine) h _ _
  unfold scDStore
  dsimp only
  rw [State.within_toLocals]
  split
  · rfl
  · rw [show ({ s.within cs other with storeData := _ } : State).write .sc c _ =
      (s.within cs other).write .sc c _ from rfl, hw]
    rfl

theorem scD_within (h : c ∈ cs) (s : State) :
    scD ins c (s.within cs other) = (scD ins c s).within cs other := by
  unfold scD
  dsimp only
  rw [State.within_resv, State.within_reg, scDStore_within h]
  split <;> rfl

theorem amoSwitchD_within (h : c ∈ cs) (s : State) :
    amoSwitchD ins c (s.within cs other) = (amoSwitchD ins c s).within cs other := by
  unfold amoSwitchD
  split
  · unfold lrD
    rw [State.within_toLocals]
    split <;> rfl
  · exact scD_within h s
  · exact amoRmwD_within _ h s
  · exact amoRmwD_within _ h s
  · exact amoRmwD_within _ h s
  · exact amoRmwD_within _ h s
  · exact amoRmwD_within _ h s
  · exact amoRmwD_within _ h s
  · exact amoRmwD_within _ h s
  · exact amoRmwD_within _ h s
  · exact amoRmwD_within _ h s
  · rfl

theorem amoMapped_within {k : Cell → State → State}
    (h : cells (mapped s.csr s.mem (s.reg (rs1 ins)) .stor s.cp amoAccess) ⊆ cs)
    (hk : ∀ c ∈ cs, ∀ t : State, k c (t.within cs other) = (k c t).within cs other) :
    amoMapped ins (s.within cs other) k = (amoMapped ins s k).within cs other := by
  have ht := translate_within other h
  cases hx : translate s.csr s.mem (s.reg (rs1 ins)) .stor s.cp with
  | error e =>
    rw [amoMapped_error hx, amoMapped_error (s := s.within cs other) (ht.trans hx)]
    rfl
  | ok p =>
    by_cases hp : p = -1
    · subst hp
      rw [amoMapped_fault hx, amoMapped_fault (s := s.within cs other) (ht.trans hx)]
      exact storePageFault_within _ { s with loadAddr := s.reg (rs1 ins), loadAddrPhy := -1 }
    · rw [amoMapped_of_translate hx hp,
        amoMapped_of_translate (s := s.within cs other) (ht.trans hx) hp]
      have hcells := cells_subset_mapped hx hp h
      unfold amoAccess at hcells
      dsimp only
      by_cases hb : p > dramBase
      · rw [if_pos hb] at hcells
        rw [if_pos hb, if_pos hb]
        cases hc : cell? ((p - dramBase) / 8) with
        | none => rfl
        | some c =>
          have hmem : c ∈ cs := hcells (mem_cells (List.mem_singleton_self _) (mem_memory_cells hc))
          have happly := hk c hmem { s with
            loadAddr := s.reg (rs1 ins)
            loadAddrPhy := p - dramBase }
          exact congrArg (fun t => Res.fall (retToRd ins t)) happly
      · rw [if_neg hb, if_neg hb]
        rfl

theorem armAmo_within (h : cells (armAccesses inp ins s) ⊆ cs) (ho : opcode ins = .amo) :
    armAmo ins (s.within cs other) = (armAmo ins s).within cs other := by
  unfold armAccesses at h
  rw [ho] at h
  dsimp only at h
  unfold armAmo
  generalize (func3 ins).toNat = k at h ⊢
  match k with
  | 0 => rfl
  | 1 => rfl
  | 2 =>
    refine amoMapped_within h fun c hc t => ?_
    rw [show (t.within cs other).mem c = t.mem c from within_read hc]
    exact amoSwitchW_within hc { t with loadData := t.mem c }
  | 3 =>
    refine amoMapped_within h fun c hc t => ?_
    rw [show (t.within cs other).mem c = t.mem c from within_read hc]
    exact amoSwitchD_within hc { t with wbData := t.mem c }
  | k + 4 => rfl

/-! ### The other arms -/

theorem armRops_within (s : State) :
    armRops ins (s.within cs other) = (armRops ins s).within cs other := by
  unfold armRops
  split
  · unfold ropsMul
    split
    · rfl
    · rfl
    · rfl
    · rfl
    · rw [show divValue ins (s.within cs other) = divValue ins s from rfl]
      split <;> rfl
  split
  · rfl
  split <;> rfl

theorem armRops64_within (s : State) :
    armRops64 ins (s.within cs other) = (armRops64 ins s).within cs other := by
  have hdiv : div32Value ins (s.within cs other) = div32Value ins s := rfl
  unfold armRops64
  split
  · unfold rops64Mul
    split
    · rfl
    · rw [hdiv]
      split <;> rfl
    · rw [hdiv]
      split <;> rfl
    · rw [hdiv]
      split <;> rfl
    · rw [hdiv]
      split <;> rfl
    · rfl
  split
  · rfl
  split <;> rfl

theorem csrCommit_within {data : Word} {commit : State → State}
    (h : ∀ t : State, commit (t.within cs other) = (commit t).within cs other) (s : State) :
    csrCommit ins data commit (s.within cs other) = (csrCommit ins data commit s).within cs other := by
  unfold csrCommit
  rw [State.within_csr]
  cases csrWrite (imm11_0 ins) data s.csr with
  | none => rfl
  | some k => exact h { s with csrBool := true, csr := k }

theorem csrArm_within {body : State → State}
    (h : ∀ t : State, body (t.within cs other) = (body t).within cs other) (s : State) :
    csrArm inp ins body (s.within cs other) = (csrArm inp ins body s).within cs other := by
  unfold csrArm
  rw [State.within_csr, State.within_cp]
  obtain ⟨v, b⟩ := csrRead (imm11_0 ins) inp.fallOff s.cp s.csr
  cases b with
  | true => exact h { s with csrData := v }
  | false => rfl

theorem commitNonzero_within (s : State) :
    commitNonzero ins (s.within cs other) = (commitNonzero ins s).within cs other := by
  unfold commitNonzero
  split <;> rfl

theorem armSystm_within (s : State) :
    armSystm inp ins (s.within cs other) = (armSystm inp ins s).within cs other := by
  have halways (t : State) :
      commitAlways ins (t.within cs other) = (commitAlways ins t).within cs other := rfl
  unfold armSystm
  split
  · exact congrArg Res.fall (csrArm_within
      (fun t => csrCommit_within commitNonzero_within { t with storeData := t.reg (rs1 ins) }) s)
  · refine congrArg Res.fall (csrArm_within (fun t => ?_) s)
    dsimp only
    split
    · rfl
    · exact csrCommit_within halways { t with storeData := t.reg (rs1 ins) ||| t.csrData }
  · exact congrArg Res.fall (csrArm_within (fun t => csrCommit_within halways
      { t with storeData := t.csrData &&& (mask64 - t.reg (rs1 ins)) }) s)
  · exact congrArg Res.fall (csrArm_within (csrCommit_within commitNonzero_within) s)
  · exact congrArg Res.fall (csrArm_within (fun t => csrCommit_within halways
      { t with storeData := rs1 ins ||| t.csrData }) s)
  · exact congrArg Res.fall (csrArm_within (fun t => csrCommit_within halways
      { t with storeData := t.csrData &&& (mask64 - rs1 ins) }) s)
  · unfold privileged
    split
    · have he := excepFunction_within cs other s.pc causeMachineEcall causeSupervisorEcall
        causeUserEcall s.cp s.toMachine
      unfold ecall
      rw [State.within_cp, State.within_pc, State.within_toMachine, he]
      cases excepFunction s.pc causeMachineEcall causeSupervisorEcall causeUserEcall s.cp
        s.toMachine <;> rfl
    · rfl
    · rfl
    · rfl
    · rfl
    · rfl
  · rfl

/-- An arm neither reads nor writes a cell outside of its accesses. -/
theorem execute_within (h : cells (armAccesses inp ins s) ⊆ cs)
    (hin : ∀ o x mem', inp.virtioMmioWrite o x mem' = inp.virtioMmioWrite o x s.mem) :
    execute inp ins (s.within cs other) = (execute inp ins s).within cs other := by
  cases ho : opcode ins with
  | load =>
    rw [execute_load ho, execute_load ho]
    exact armLoad_within h ho
  | store =>
    rw [execute_store ho, execute_store ho]
    exact armStore_within h ho hin
  | amo =>
    rw [execute_amo ho, execute_amo ho]
    exact armAmo_within h ho
  | systm =>
    rw [execute_systm ho, execute_systm ho]
    exact armSystm_within s
  | rops =>
    unfold execute
    rw [ho]
    exact armRops_within s
  | rops64 =>
    unfold execute
    rw [ho]
    exact armRops64_within s
  | cjump =>
    unfold execute
    rw [ho]
    dsimp only
    refine congrArg Res.fall ?_
    unfold armCjump
    rw [show branchTest ins (s.within cs other) = branchTest ins s from rfl]
    dsimp only
    split <;> rfl
  | _ =>
    unfold execute
    rw [ho]
    rfl

/-! ### The fetch -/

theorem fetch_within (h : cells (fetchAccesses m) ⊆ cs) : fetch (m.within cs other) = fetch m := by
  have ht := translate_within other h
  unfold fetch
  rw [show translate (m.within cs other).csr (m.within cs other).mem (m.within cs other).pc .inst
    (m.within cs other).cp = _ from ht, Machine.within_cp,
    Machine.within_pc]
  cases hx : translate m.csr m.mem m.pc .inst m.cp with
  | error e => rfl
  | ok p =>
    dsimp only
    by_cases hu : m.cp = .umode ∧ m.pc = 0
    · rw [if_pos hu, if_pos hu]
    by_cases hp : p = -1
    · rw [if_neg hu, if_neg hu, if_pos hp, if_pos hp]
    rw [if_neg hu, if_neg hu, if_neg hp, if_neg hp]
    have hcells := cells_subset_mapped hx hp h
    rw [if_neg hu, fetchAccess] at hcells
    by_cases hb : p ≥ dramBase
    · rw [if_pos hb] at hcells
      rw [if_pos hb, if_pos hb]
      unfold getINST
      cases hc : cell? ((p - dramBase) / 4 / 2) with
      | none => rfl
      | some c =>
        have hmem : c ∈ cs := hcells (mem_cells (List.mem_singleton_self _) (mem_memory_cells hc))
        have hread : (m.within cs other).mem c = m.mem c := within_read hmem
        dsimp only
        rw [hread]
    · rw [if_neg hb, if_neg hb]

/-! ### Indices beyond the vector -/

def Beyond (as : List Access) : Prop := ∃ r i, Access.memory r i ∈ as ∧ cell? i = none

theorem not_beyond_nil : ¬ Beyond [] := by
  rintro ⟨r, i, h, -⟩
  cases h

theorem beyond_cons {a : Access} {as : List Access} :
    Beyond (a :: as) ↔ (∃ r i, a = .memory r i ∧ cell? i = none) ∨ Beyond as := by
  constructor
  · rintro ⟨r, i, h, hi⟩
    rcases List.mem_cons.mp h with rfl | h
    · exact .inl ⟨r, i, rfl, hi⟩
    · exact .inr ⟨r, i, h, hi⟩
  · rintro (⟨r, i, rfl, hi⟩ | ⟨r, i, h, hi⟩)
    · exact ⟨r, i, List.mem_cons_self .., hi⟩
    · exact ⟨r, i, List.mem_cons_of_mem _ h, hi⟩

theorem beyond_memory {i : Word} : Beyond [.memory r i] ↔ cell? i = none := by
  rw [beyond_cons, or_iff_left not_beyond_nil]
  constructor
  · rintro ⟨r', i', h, hi⟩
    cases h
    exact hi
  · exact fun h => ⟨r, i, rfl, h⟩

theorem not_beyond_device {as : List Access} (h : Beyond (.device r p :: as)) : Beyond as := by
  rcases beyond_cons.mp h with ⟨r', i, h, -⟩ | h
  · cases h
  · exact h

theorem walkFrom_beyond {ty : Ttype} (ls : List Level) {n : ℕ} {page : Word}
    (h : Beyond (walkReads mem n page (ls.map Level.vpn))) :
    walkFrom mem ty page ls = .error .outOfRange := by
  induction ls generalizing n page with
  | nil => exact absurd h not_beyond_nil
  | cons l ls ih =>
    rw [List.map_cons, walkReads, beyond_cons] at h
    unfold walkFrom
    rw [readPte_eq_entry]
    rcases h with ⟨r, i, ha, hi⟩ | h
    · cases ha
      rw [entry, hi]
      rfl
    · cases hw : entry mem page l.vpn with
      | none => rfl
      | some w =>
        rw [hw] at h
        dsimp only [Option.map_some] at h ⊢
        split at h
        · exact absurd h not_beyond_nil
        · rename_i hstop
          obtain ⟨hi, hl⟩ := not_or.mp hstop
          rw [if_neg (mt (invalid_writeReg w).mp hi), if_neg (mt (leaf_writeReg w).mp hl)]
          exact ih h

theorem mapped_beyond {k : Csrs} {ty : Ttype} {cp : Plevel} {f : ℕ → Word → List Access}
    (h : Beyond (mapped k mem va ty cp f)) :
    translate k mem va ty cp = .error .outOfRange ∨ ∃ p, translate k mem va ty cp = .ok p ∧
      p ≠ -1 ∧ Beyond (f (requested k mem va ty cp) p) := by
  obtain ⟨r, i, hm, hi⟩ := h
  unfold mapped at hm
  rcases List.mem_append.mp hm with hm | hm
  · left
    unfold translateReads at hm
    split at hm
    · rename_i hw
      rw [translate_of_walks hw]
      exact walkFrom_beyond _ ⟨r, i, hm, hi⟩
    · cases hm
  · right
    split at hm
    · cases hm
    · rename_i p ht
      split at hm
      · cases hm
      · rename_i hp
        exact ⟨p, ht, hp, r, i, hm, hi⟩

theorem fetch_beyond (h : Beyond (fetchAccesses m)) : fetch m = .stop .outOfRange := by
  unfold fetch
  rcases mapped_beyond h with ht | ⟨p, ht, hp, hf⟩
  · rw [ht]
  · rw [ht]
    dsimp only
    split at hf
    · exact absurd hf not_beyond_nil
    rename_i hu
    rw [if_neg hu, if_neg hp]
    unfold fetchAccess at hf
    split at hf
    · rename_i hb
      rw [if_pos hb, getINST, beyond_memory.mp hf]
    · exact absurd hf not_beyond_nil

theorem loadMapped_beyond (h : Beyond (loadAccess r p)) (m : Machine) :
    loadMapped inp p m = .stop .outOfRange m := by
  unfold loadAccess at h
  unfold loadMapped
  split at h
  · rename_i hb
    split at h
    · exact absurd h not_beyond_nil
    · rename_i hlim
      rw [if_pos hb]
      dsimp only
      rw [if_neg hlim, beyond_memory.mp h]
  · split at h
    · exact absurd (not_beyond_device h) not_beyond_nil
    · exact absurd h not_beyond_nil

theorem deviceActs_beyond {as : List DeviceAct} (h : Beyond (dmaAccesses as)) (m : Machine) :
    ∃ m', deviceActs as m = .stop .outOfRange m' := by
  induction as generalizing m with
  | nil => exact absurd h not_beyond_nil
  | cons a as ih =>
    rw [deviceActs]
    cases hx : deviceAct a m with
    | stop e m' =>
      obtain rfl := deviceAct_stop hx
      exact ⟨m', rfl⟩
    | ret u m' =>
      refine ih ?_ m'
      rw [dmaAccesses] at h
      split at h
      · exact h
      · rename_i addr haddr
        have hin := deviceAct_inRange haddr hx
        rw [if_pos hin] at h
        rcases beyond_cons.mp h with ⟨r, i, ha, hi⟩ | h
        · cases ha
          rw [hi] at hin
          cases hin
        · exact h

theorem armLoad_beyond (h : Beyond (armAccesses inp ins s)) (ho : opcode ins = .load) :
    ∃ t, armLoad inp ins s = .stop .outOfRange t := by
  unfold armAccesses at h
  rw [ho] at h
  dsimp only at h
  split at h
  · exact absurd h not_beyond_nil
  rename_i hq
  rcases mapped_beyond h with ht | ⟨p, ht, hp, hf⟩
  · exact ⟨_, armLoad_error hq ht⟩
  · rw [armLoad_translated hq ht]
    dsimp only
    rw [if_neg hp, loadMapped_beyond hf]
    exact ⟨_, rfl⟩

theorem armStore_beyond (h : Beyond (armAccesses inp ins s)) (ho : opcode ins = .store) :
    ∃ t, armStore inp ins s = .stop .outOfRange t := by
  unfold armAccesses at h
  rw [ho] at h
  dsimp only at h
  split at h
  · exact absurd h not_beyond_nil
  rename_i hq
  rcases mapped_beyond h with ht | ⟨p, ht, hp, hf⟩
  · exact ⟨_, armStore_error hq ht⟩
  rw [armStore_translated hq ht]
  dsimp only
  rw [if_neg hp]
  unfold storeAccess at hf
  by_cases hb : p ≥ dramBase
  · rw [if_pos hb] at hf ⊢
    unfold storeRam
    dsimp only
    split at hf
    · exact absurd hf not_beyond_nil
    · rename_i hlim
      rw [if_neg hlim, beyond_memory.mp hf]
      exact ⟨_, rfl⟩
  · rw [if_neg hb] at hf ⊢
    split at hf
    · rename_i hv
      obtain ⟨m', hd⟩ := deviceActs_beyond (not_beyond_device hf) s.toMachine
      rw [storePeripheral_virtio _ hv, hd]
      exact ⟨_, rfl⟩
    · split at hf
      · exact absurd (not_beyond_device hf) not_beyond_nil
      · exact absurd hf not_beyond_nil

theorem amoMapped_beyond {k : Cell → State → State}
    (h : Beyond (mapped s.csr s.mem (s.reg (rs1 ins)) .stor s.cp amoAccess)) :
    ∃ t, amoMapped ins s k = .stop .outOfRange t := by
  rcases mapped_beyond h with ht | ⟨p, ht, hp, hf⟩
  · exact ⟨_, amoMapped_error ht⟩
  rw [amoMapped_of_translate ht hp]
  dsimp only
  unfold amoAccess at hf
  split at hf
  · rename_i hb
    rw [if_pos hb, beyond_memory.mp hf]
    exact ⟨_, rfl⟩
  · exact absurd hf not_beyond_nil

/-- An arm one of whose indices is beyond the vector ends in the exception of `memory.at`. -/
theorem execute_beyond (h : Beyond (armAccesses inp ins s)) :
    ∃ t, execute inp ins s = .stop .outOfRange t := by
  cases ho : opcode ins with
  | load =>
    rw [execute_load ho]
    exact armLoad_beyond h ho
  | store =>
    rw [execute_store ho]
    exact armStore_beyond h ho
  | amo =>
    rw [execute_amo ho]
    unfold armAccesses at h
    rw [ho] at h
    dsimp only at h
    unfold armAmo
    generalize (func3 ins).toNat = k at h ⊢
    match k with
    | 0 => exact absurd h not_beyond_nil
    | 1 => exact absurd h not_beyond_nil
    | 2 => exact amoMapped_beyond h
    | 3 => exact amoMapped_beyond h
    | k + 4 => exact absurd h not_beyond_nil
  | _ =>
    unfold armAccesses at h
    rw [ho] at h
    exact absurd h not_beyond_nil

end RiscvEmu
