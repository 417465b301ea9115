import RiscvEmu.FaultDelivery
import RiscvEmu.Sv39Walk

/-! From a virtual address to what is accessed: which physical addresses the load, store and AMO
arms take for RAM, and when a load or store depends on its virtual address only through the physical
one. -/

namespace RiscvEmu

open Runs

variable {inp : Input} {ins ins' p va va' : Word} {s : State}

/-- The four copies of the address mapping in the opcode `switch`. -/
inductive Path
  | load | store | amoW | amoD
  deriving DecidableEq

namespace Path

def Selects (ins : Word) : Path → Prop
  | load => opcode ins = .load
  | store => opcode ins = .store
  | amoW => opcode ins = .amo ∧ (func3 ins).toNat = 0b010
  | amoD => opcode ins = .amo ∧ (func3 ins).toNat = 0b011

def address (ins : Word) (m : Machine) : Path → Word
  | load => m.reg (rs1 ins) + signExtend (imm11_0 ins) 12
  | store => m.reg (rs1 ins) + signExtend (immS ins) 12
  | amoW | amoD => m.reg (rs1 ins)

/-- The virtual addresses at which the arm does not call `translate`. -/
def console : Path → List Word
  | load => [fifoAddrRx, fifoAddrTx]
  | store => [fifoAddrTx]
  | amoW | amoD => []

def type : Path → Ttype
  | load => .load
  | store | amoW | amoD => .stor

def onCell (ins p : Word) (c : Cell) (s : State) : Path → State
  | load => loadSwitch ins { s with
      loadAddr := load.address ins s.toMachine
      loadAddrPhy := p - dramBase
      loadData := s.mem c }
  | store => storeCommit c (storeSwitch ins { s with
      storeAddr := store.address ins s.toMachine
      storeAddrPhy := p - dramBase
      storeData := s.mem c })
  | amoW => retToRd ins (amoSwitchW ins c { s with
      loadAddr := amoW.address ins s.toMachine
      loadAddrPhy := p - dramBase
      loadData := s.mem c })
  | amoD => retToRd ins (amoSwitchD ins c { s with
      loadAddr := amoD.address ins s.toMachine
      loadAddrPhy := p - dramBase
      wbData := s.mem c })

def UsesCell (inp : Input) (ins p : Word) (s : State) (k : Path) : Prop :=
  match cell? ((p - dramBase) / 8) with
  | none => ∃ t, execute inp ins s = .stop .outOfRange t
  | some c => execute inp ins s = .fall (k.onCell ins p c s)

def Accepts (k : Path) (p : Word) : Prop :=
  ∀ inp ins s, k.Selects ins → k.address ins s.toMachine ∉ k.console →
    translate s.csr s.mem (k.address ins s.toMachine) k.type s.cp = .ok p →
    k.UsesCell inp ins p s

end Path

def RamAgrees (p : Word) : Prop :=
  ∀ k : Path, k.Accepts p ↔ dramBase ≤ p ∧ p < dramBase + dramSize

/-! ### The arms behind `translate` -/

theorem mem_load_console {v : Word} : v ∈ Path.load.console ↔ v = fifoAddrRx ∨ v = fifoAddrTx := by
  simp only [Path.console, List.mem_cons, List.not_mem_nil, or_false]

theorem mem_store_console {v : Word} : v ∈ Path.store.console ↔ v = fifoAddrTx := by
  simp only [Path.console, List.mem_cons, List.not_mem_nil, or_false]

theorem armLoad_off_console (hq : Path.load.address ins s.toMachine ∉ Path.load.console) :
    armLoad inp ins s =
      let va := Path.load.address ins s.toMachine
      match translate s.csr s.mem va .load s.cp with
      | .error h => .stop h { s with loadAddr := va }
      | .ok p =>
        if p = -1 then loadPageFault va { s with loadAddr := va, loadAddrPhy := p }
        else match loadMapped inp p s.toMachine with
        | .stop h m => .stop h { s with toMachine := m, loadAddr := va, loadAddrPhy := p }
        | .ret (pa, data) m => .fall (loadSwitch ins { s with
            toMachine := m
            loadAddr := va
            loadAddrPhy := pa
            loadData := data }) := by
  rw [mem_load_console, not_or] at hq
  exact if_pos hq

theorem armLoad_translated (hq : Path.load.address ins s.toMachine ∉ Path.load.console)
    (ht : translate s.csr s.mem (Path.load.address ins s.toMachine) .load s.cp = .ok p) :
    armLoad inp ins s =
      let va := Path.load.address ins s.toMachine
      if p = -1 then loadPageFault va { s with loadAddr := va, loadAddrPhy := p }
      else match loadMapped inp p s.toMachine with
      | .stop h m => .stop h { s with toMachine := m, loadAddr := va, loadAddrPhy := p }
      | .ret (pa, data) m => .fall (loadSwitch ins { s with
          toMachine := m
          loadAddr := va
          loadAddrPhy := pa
          loadData := data }) := by
  rw [armLoad_off_console hq]
  dsimp only
  rw [ht]

theorem armStore_off_console (hq : Path.store.address ins s.toMachine ∉ Path.store.console) :
    armStore inp ins s =
      let va := Path.store.address ins s.toMachine
      match translate s.csr s.mem va .stor s.cp with
      | .error h => .stop h { s with storeAddr := va }
      | .ok p =>
        let t := { s with storeAddr := va, storeAddrPhy := p }
        if p = -1 then storePageFault va t
        else if p ≥ dramBase then storeRam ins p t
        else match storePeripheral inp p (s.reg (rs2 ins)) s.toMachine with
          | .stop h m => .stop h { t with toMachine := m }
          | .ret () m => .fall { t with toMachine := m } := by
  rw [mem_store_console] at hq
  exact if_pos hq

theorem armStore_translated (hq : Path.store.address ins s.toMachine ∉ Path.store.console)
    (ht : translate s.csr s.mem (Path.store.address ins s.toMachine) .stor s.cp = .ok p) :
    armStore inp ins s =
      let va := Path.store.address ins s.toMachine
      let t := { s with storeAddr := va, storeAddrPhy := p }
      if p = -1 then storePageFault va t
      else if p ≥ dramBase then storeRam ins p t
      else match storePeripheral inp p (s.reg (rs2 ins)) s.toMachine with
        | .stop h m => .stop h { t with toMachine := m }
        | .ret () m => .fall { t with toMachine := m } := by
  rw [armStore_off_console hq]
  dsimp only
  rw [ht]

theorem amoMapped_of_translate {k : Cell → State → State}
    (ht : translate s.csr s.mem (s.reg (rs1 ins)) .stor s.cp = .ok p) (hp : p ≠ -1) :
    amoMapped ins s k =
      let t := { s with loadAddr := s.reg (rs1 ins), loadAddrPhy := p }
      if p > dramBase then
        match cell? ((p - dramBase) / 8) with
        | none => .stop .outOfRange { t with loadAddrPhy := p - dramBase }
        | some c => .fall (retToRd ins (k c { t with loadAddrPhy := p - dramBase }))
      else .stop (.exit 0) t := by
  unfold amoMapped
  dsimp only
  rw [ht]
  dsimp only
  rw [if_neg hp]
  rfl

theorem armLoad_console (hq : Path.load.address ins s.toMachine ∈ Path.load.console) :
    ∃ t, armLoad inp ins s = .fall t := by
  have hva := mem_load_console.mp hq
  exact ⟨_, if_neg fun hn => hva.elim hn.1 hn.2⟩

theorem armStore_console (hq : Path.store.address ins s.toMachine ∈ Path.store.console) :
    ∃ t, armStore inp ins s = .fall t :=
  ⟨_, if_neg (not_not.mpr (mem_store_console.mp hq))⟩

section

variable {h : Halt}

theorem armLoad_error (hq : Path.load.address ins s.toMachine ∉ Path.load.console)
    (ht : translate s.csr s.mem (Path.load.address ins s.toMachine) .load s.cp = .error h) :
    armLoad inp ins s = .stop h { s with loadAddr := Path.load.address ins s.toMachine } := by
  rw [armLoad_off_console hq]
  dsimp only
  rw [ht]

theorem armStore_error (hq : Path.store.address ins s.toMachine ∉ Path.store.console)
    (ht : translate s.csr s.mem (Path.store.address ins s.toMachine) .stor s.cp = .error h) :
    armStore inp ins s = .stop h { s with storeAddr := Path.store.address ins s.toMachine } := by
  rw [armStore_off_console hq]
  dsimp only
  rw [ht]

theorem amoMapped_error {k : Cell → State → State}
    (ht : translate s.csr s.mem (s.reg (rs1 ins)) .stor s.cp = .error h) :
    amoMapped ins s k = .stop h { s with loadAddr := s.reg (rs1 ins) } := by
  unfold amoMapped
  dsimp only
  rw [ht]

theorem amoMapped_fault {k : Cell → State → State}
    (ht : translate s.csr s.mem (s.reg (rs1 ins)) .stor s.cp = .ok (-1)) :
    amoMapped ins s k = storePageFault (s.reg (rs1 ins))
      { s with loadAddr := s.reg (rs1 ins), loadAddrPhy := -1 } := by
  unfold amoMapped
  dsimp only
  rw [ht]
  dsimp only
  rw [if_pos rfl]

end

/-! ### RAM -/

theorem toNat_sub_base (h : dramBase ≤ p) : (p - dramBase).toNat = p.toNat - 2 ^ 31 :=
  BitVec.toNat_sub_of_le h

theorem base_le_iff : dramBase ≤ p ↔ 2 ^ 31 ≤ p.toNat := BitVec.le_def

/-- Below `DRAM_BASE` the subtraction wraps around, far beyond the memory vector. -/
theorem cell?_of_lt (h : p < dramBase) : cell? ((p - dramBase) / 8) = none := by
  have hp : p.toNat < 2 ^ 31 := BitVec.lt_def.mp h
  have hsub : (p - dramBase).toNat = 2 ^ 64 - 2 ^ 31 + p.toNat := by
    rw [BitVec.toNat_sub]
    show (2 ^ 64 - 2 ^ 31 + p.toNat) % 2 ^ 64 = _
    omega
  cases hc : cell? ((p - dramBase) / 8) with
  | none => rfl
  | some c =>
    have hv := cell?_eq_some.mp hc
    rw [BitVec.toNat_udiv, hsub] at hv
    have hlt : c.val < 2 ^ 28 := c.isLt
    rw [hv] at hlt
    exact absurd hlt (by show ¬ (2 ^ 64 - 2 ^ 31 + p.toNat) / 8 < 2 ^ 28; omega)

theorem accepts_load_of (hb : dramBase ≤ p) (hs : p - dramBase ≤ dramSize) :
    Path.load.Accepts p := by
  intro inp ins s ho hq ht
  have hp : p ≠ -1 := by
    rintro rfl
    exact absurd hs (by decide)
  unfold Path.UsesCell
  rw [execute_load ho, armLoad_translated hq ht]
  dsimp only
  rw [if_neg hp, loadMapped, if_pos hb]
  dsimp only
  rw [if_neg (BitVec.not_lt.mpr hs)]
  cases cell? ((p - dramBase) / 8) with
  | none => exact ⟨_, rfl⟩
  | some c => rfl

theorem accepts_store_of (hb : dramBase ≤ p) (hs : p - dramBase < (1 : Word) <<< 28) :
    Path.store.Accepts p := by
  intro inp ins s ho hq ht
  have hp : p ≠ -1 := by
    rintro rfl
    exact absurd hs (by decide)
  unfold Path.UsesCell
  rw [execute_store ho, armStore_translated hq ht]
  dsimp only
  rw [if_neg hp, if_pos hb, storeRam]
  dsimp only
  rw [if_neg (BitVec.not_le.mpr hs)]
  cases cell? ((p - dramBase) / 8) with
  | none => exact ⟨_, rfl⟩
  | some c => rfl

theorem execute_amoMapped {k : Path} (hk : k = .amoW ∨ k = .amoD) (hs : k.Selects ins) :
    ∃ f : Cell → State → State, execute inp ins s = amoMapped ins s f ∧
      ∀ c, k.onCell ins p c s = retToRd ins (f c { s with
        loadAddr := s.reg (rs1 ins)
        loadAddrPhy := p - dramBase }) := by
  rcases hk with rfl | rfl
  · refine ⟨fun c t => amoSwitchW ins c { t with loadData := t.mem c }, ?_, fun _ => rfl⟩
    rw [execute_amo hs.1, armAmo, hs.2]
    rfl
  · refine ⟨fun c t => amoSwitchD ins c { t with wbData := t.mem c }, ?_, fun _ => rfl⟩
    rw [execute_amo hs.1, armAmo, hs.2]
    rfl

theorem accepts_amo_of {k : Path} (hk : k = .amoW ∨ k = .amoD) (hb : dramBase < p)
    (hp : p ≠ -1) : k.Accepts p := by
  intro inp ins s hs _ ht
  obtain ⟨f, hx, hf⟩ := @execute_amoMapped inp ins p s k hk hs
  have ht' : translate s.csr s.mem (s.reg (rs1 ins)) .stor s.cp = .ok p := by
    rcases hk with rfl | rfl <;> exact ht
  unfold Path.UsesCell
  rw [hx, amoMapped_of_translate ht' hp]
  dsimp only
  rw [if_pos hb]
  cases cell? ((p - dramBase) / 8) with
  | none => exact ⟨_, rfl⟩
  | some c => exact congrArg Res.fall (hf c).symm

/-! ### What is refused -/

def bare (p : Word) : State := { boot (fun _ => 0) 0 with regFile := fun _ => p }

/-- `ld x2, 0(x1)`, `sd x0, 0(x1)`, `lr.w x2, (x1)` and `lr.d x2, (x1)`. -/
def Path.sample : Path → Word
  | .load => 0x0000b103
  | .store => 0x0000b023
  | .amoW => 0x1000a12f
  | .amoD => 0x1000b12f

theorem sample_selects (k : Path) : k.Selects k.sample := by
  cases k with
  | load => rfl
  | store => rfl
  | amoW => exact ⟨rfl, rfl⟩
  | amoD => exact ⟨rfl, rfl⟩

theorem sample_address (k : Path) (p : Word) : k.address k.sample (bare p).toMachine = p := by
  cases k with
  | load => exact BitVec.add_zero p
  | store => exact BitVec.add_zero p
  | amoW => rfl
  | amoD => rfl

theorem throws_of_accepts {k : Path} (h : k.Accepts p) (hq : p ∉ k.console)
    (hc : cell? ((p - dramBase) / 8) = none) :
    ∃ t, execute (quiet 0) k.sample (bare p) = .stop .outOfRange t := by
  have hu := h (quiet 0) k.sample (bare p) (sample_selects k) (by rwa [sample_address])
    (by rw [sample_address]; rfl)
  unfold Path.UsesCell at hu
  rwa [hc] at hu

theorem loadPeripheral_stop {h : Halt} {m m' : Machine}
    (hs : loadPeripheral inp p m = .stop h m') : h = .exit 0 := by
  unfold loadPeripheral at hs
  split_ifs at hs
  cases hs
  rfl

theorem storePeripheral_quiet {v : Word} {h : Halt} {m m' : Machine}
    (hs : storePeripheral (quiet 0) p v m = .stop h m') : h = .exit 0 := by
  unfold storePeripheral at hs
  split_ifs at hs
  · cases hs
  · cases hs
    rfl

theorem cell?_of_size_le (hs : dramSize ≤ p - dramBase) :
    cell? ((p - dramBase) / 8) = none := by
  cases hc : cell? ((p - dramBase) / 8) with
  | none => rfl
  | some c =>
    have hv := cell?_eq_some.mp hc
    rw [BitVec.toNat_udiv] at hv
    have hlt : c.val < 2 ^ 28 := c.isLt
    have hle : 2 ^ 31 ≤ (p - dramBase).toNat := BitVec.le_def.mp hs
    rw [hv] at hlt
    exact absurd hlt (by show ¬ (p - dramBase).toNat / 8 < 2 ^ 28; omega)

theorem accepts_load_iff (p : Word) :
    Path.load.Accepts p ↔ dramBase ≤ p ∧ p - dramBase ≤ dramSize := by
  refine ⟨fun h => ?_, fun h => accepts_load_of h.1 h.2⟩
  by_contra hn
  have hq : p ∉ Path.load.console := by
    intro hq
    rcases mem_load_console.mp hq with rfl | rfl <;> exact hn (by decide)
  have hc : cell? ((p - dramBase) / 8) = none := by
    by_cases hb : dramBase ≤ p
    · exact cell?_of_size_le (BitVec.le_of_lt (BitVec.not_le.mp fun hs => hn ⟨hb, hs⟩))
    · exact cell?_of_lt (BitVec.not_le.mp hb)
  obtain ⟨t, ht⟩ := throws_of_accepts h hq hc
  rw [execute_load rfl] at ht
  by_cases hp : p = -1
  · -- this address reads as a page fault, which does not throw
    subst hp
    obtain ⟨t', ht', -⟩ : ∃ t', armLoad (quiet 0) Path.load.sample (bare (-1)) = .cont t' ∧ _ :=
      armLoad_of_fault rfl (by decide) rfl rfl (.inr rfl)
    rw [ht'] at ht
    cases ht
  · rw [armLoad_translated (p := p) (by rwa [sample_address]) (by rw [sample_address]; rfl)] at ht
    dsimp only at ht
    rw [if_neg hp, loadMapped] at ht
    by_cases hb : dramBase ≤ p
    · have hs : p - dramBase > dramSize := BitVec.not_le.mp fun hs => hn ⟨hb, hs⟩
      rw [if_pos hb] at ht
      dsimp only at ht
      rw [if_pos hs] at ht
      cases ht
    · rw [if_neg hb] at ht
      cases hl : loadPeripheral (quiet 0) p (bare p).toMachine with
      | ret v m =>
        rw [hl] at ht
        cases ht
      | stop h' m =>
        rw [hl] at ht
        cases ht
        cases loadPeripheral_stop hl

/-- Sv39 with one gigapage, which maps `0x20001030` to the address of the transmit register. -/
def mappedConsole : State :=
  { boot (fun _ => 0) 0 with
    cp := .smode
    csr := { (boot (fun _ => 0) 0).csr with satp := ⟨0x80000, 0, 8⟩ }
    mem := Memory.set (fun _ => 0) 0 (0x3 <<< 28 ||| 0xCF)
    regFile := fun _ => 0x20001030 }

theorem not_accepts_store_console : ¬ Path.store.Accepts fifoAddrTx := by
  intro h
  have hu := h (quiet 0) Path.store.sample mappedConsole rfl (by decide +kernel) rfl
  have hx : ∃ t, execute (quiet 0) Path.store.sample mappedConsole = .stop (.exit 0) t := ⟨_, rfl⟩
  obtain ⟨t, ht⟩ := hx
  unfold Path.UsesCell at hu
  rw [ht] at hu
  split at hu
  · obtain ⟨u, hu⟩ := hu
    cases hu
  · cases hu

theorem accepts_store_iff (p : Word) :
    Path.store.Accepts p ↔ dramBase ≤ p ∧ p - dramBase < (1 : Word) <<< 28 := by
  refine ⟨fun h => ?_, fun h => accepts_store_of h.1 h.2⟩
  by_contra hn
  by_cases hq : p ∈ Path.store.console
  · cases mem_store_console.mp hq
    -- without translation the store goes to the console, so the address is reached by another one
    exact not_accepts_store_console h
  have hu := h (quiet 0) Path.store.sample (bare p) rfl (by rwa [sample_address])
    (by rw [sample_address]; rfl)
  unfold Path.UsesCell at hu
  rw [execute_store rfl] at hu
  by_cases hp : p = -1
  · subst hp
    obtain ⟨t', ht', -⟩ : ∃ t', armStore (quiet 0) Path.store.sample (bare (-1)) = .cont t' ∧ _ :=
      armStore_of_fault rfl (by decide) rfl rfl (.inr rfl)
    rw [ht', cell?_of_size_le (by decide)] at hu
    obtain ⟨t, ht⟩ := hu
    cases ht
  · rw [armStore_translated (p := p) (by rwa [sample_address]) (by rw [sample_address]; rfl)] at hu
    dsimp only at hu
    rw [if_neg hp] at hu
    by_cases hb : dramBase ≤ p
    · -- the bound of the store arm is the number of cells, not of bytes
      have hs : p - dramBase ≥ (1 : Word) <<< 28 := BitVec.not_lt.mp fun hs => hn ⟨hb, hs⟩
      rw [if_pos hb, storeRam] at hu
      dsimp only at hu
      rw [if_pos hs] at hu
      split at hu
      · obtain ⟨t, ht⟩ := hu
        cases ht
      · cases hu
    · rw [if_neg hb, cell?_of_lt (BitVec.not_le.mp hb)] at hu
      obtain ⟨t, ht⟩ := hu
      cases hl : storePeripheral (quiet 0) p ((bare p).reg (rs2 Path.store.sample))
          (bare p).toMachine with
      | ret u m =>
        rw [hl] at ht
        cases ht
      | stop h' m =>
        rw [hl] at ht
        cases ht
        cases storePeripheral_quiet hl

theorem accepts_amo_iff {k : Path} (hk : k = .amoW ∨ k = .amoD) (p : Word) :
    k.Accepts p ↔ dramBase < p ∧ p ≠ -1 := by
  refine ⟨fun h => ?_, fun h => accepts_amo_of hk h.1 h.2⟩
  by_contra hn
  have hq : p ∉ k.console := by rcases hk with rfl | rfl <;> exact nofun
  have hu := h (quiet 0) k.sample (bare p) (sample_selects k) (by rwa [sample_address])
    (by rw [sample_address]; rfl)
  obtain ⟨f, hx, -⟩ := @execute_amoMapped (quiet 0) k.sample p (bare p) k hk (sample_selects k)
  unfold Path.UsesCell at hu
  by_cases hp : p = -1
  · subst hp
    obtain ⟨t', ht', -⟩ : ∃ t', amoMapped k.sample (bare (-1)) f = .cont t' ∧ _ :=
      amoMapped_of_fault rfl rfl rfl (.inr rfl)
    rw [hx, ht', cell?_of_size_le (by decide)] at hu
    obtain ⟨t, ht⟩ := hu
    cases ht
  · have hb : ¬ p > dramBase := fun hb => hn ⟨hb, hp⟩
    rw [hx, amoMapped_of_translate (p := p) rfl hp] at hu
    dsimp only at hu
    rw [if_neg hb] at hu
    split at hu
    · obtain ⟨t, ht⟩ := hu
      cases ht
    · cases hu

/-- All four paths agree exactly below RAM, in its first 256 MiB without the first byte, and at the
value by which `translate` reports a fault. -/
theorem ram_agrees_iff (p : Word) :
    RamAgrees p ↔ p < dramBase ∨ (dramBase < p ∧ p < dramBase + 1 <<< 28) ∨ p = -1 := by
  have hp := p.isLt
  have hb : dramBase ≤ p ↔ 2 ^ 31 ≤ p.toNat := base_le_iff
  have hlt : dramBase < p ↔ 2 ^ 31 < p.toNat := BitVec.lt_def
  have hbelow : p < dramBase ↔ p.toNat < 2 ^ 31 := BitVec.lt_def
  have hsize : p < dramBase + dramSize ↔ p.toNat < 2 ^ 32 := BitVec.lt_def
  have hshort : p < dramBase + 1 <<< 28 ↔ p.toNat < 2 ^ 31 + 2 ^ 28 := BitVec.lt_def
  have hone : p = -1 ↔ p.toNat = 2 ^ 64 - 1 := BitVec.toNat_inj.symm
  have hload : Path.load.Accepts p ↔ 2 ^ 31 ≤ p.toNat ∧ p.toNat ≤ 2 ^ 32 := by
    rw [accepts_load_iff, hb]
    refine and_congr_right fun h => ?_
    rw [BitVec.le_def, toNat_sub_base (hb.mpr h)]
    show p.toNat - 2 ^ 31 ≤ 2 ^ 31 ↔ _
    omega
  have hstore : Path.store.Accepts p ↔ 2 ^ 31 ≤ p.toNat ∧ p.toNat < 2 ^ 31 + 2 ^ 28 := by
    rw [accepts_store_iff, hb]
    refine and_congr_right fun h => ?_
    rw [BitVec.lt_def, toNat_sub_base (hb.mpr h)]
    show p.toNat - 2 ^ 31 < 2 ^ 28 ↔ _
    omega
  have hamo {k : Path} (hk : k = .amoW ∨ k = .amoD) :
      k.Accepts p ↔ 2 ^ 31 < p.toNat ∧ p.toNat ≠ 2 ^ 64 - 1 := by
    rw [accepts_amo_iff hk, hlt, ne_eq, hone]
  rw [hbelow, hlt, hshort, hone]
  constructor
  · -- the two AMO arms have the same bounds
    intro h
    have h1 := h .load
    have h2 := h .store
    have h3 := h .amoW
    rw [hload, hb, hsize] at h1
    rw [hstore, hb, hsize] at h2
    rw [hamo (.inl rfl), hb, hsize] at h3
    omega
  · intro h k
    rw [hb, hsize]
    cases k with
    | load =>
      rw [hload]
      omega
    | store =>
      rw [hstore]
      omega
    | amoW =>
      rw [hamo (.inl rfl)]
      omega
    | amoD =>
      rw [hamo (.inr rfl)]
      omega

/-- The doubleword at `0x90000000` can be loaded, and the store of it ends the emulator. -/
theorem ram_not_agrees : ¬ ∀ p, RamAgrees p := by
  intro h
  have hstore := (h 0x90000000 .store).mpr (by decide)
  exact absurd ((accepts_store_iff _).mp hstore) (by decide)

/-! ### Device selection -/

def Translates (s : State) (ty : Ttype) : Prop :=
  s.csr.satp.mode = 8 ∧ ¬ Sv39.Bypass s.csr ty s.cp

/-- Two accesses end alike. The machines are the same, but for the address that a misaligned access
reports. -/
inductive Alike (va va' : Word) : Res → Res → Prop
  | fall {s s' : State} (h : s.toMachine = s'.toMachine) : Alike va va' (.fall s) (.fall s')
  | misaligned {s s' : State} (m : Machine) (hf : m.flags.ldAddrMissalig = true)
      (h : s.toMachine = setMtval m va) (h' : s'.toMachine = setMtval m va') :
      Alike va va' (.fall s) (.fall s')
  | stop (e : Halt) {s s' : State} (h : s.toMachine = s'.toMachine) :
      Alike va va' (.stop e s) (.stop e s')

/-- In `s`, loads from the two virtual addresses depend on the physical address only. -/
structure LoadsByPhysical (s : State) (va va' : Word) : Prop where
  unmapped : ∀ v ∈ [va, va'], ∀ inp ins, opcode ins = .load →
    Path.load.address ins s.toMachine = v → translate s.csr s.mem v .load s.cp = .ok (-1) →
    ∃ t : State, t.toMachine = s.toMachine ∧ execute inp ins s = loadPageFault v t
  alike : ∀ inp ins ins' pa, opcode ins = .load → opcode ins' = .load → func3 ins = func3 ins' →
    rd ins = rd ins' → Path.load.address ins s.toMachine = va →
    Path.load.address ins' s.toMachine = va' → pa ≠ -1 →
    translate s.csr s.mem va .load s.cp = .ok pa →
    translate s.csr s.mem va' .load s.cp = .ok pa →
    Alike va va' (execute inp ins s) (execute inp ins' s)

structure StoresByPhysical (s : State) (va va' : Word) : Prop where
  unmapped : ∀ v ∈ [va, va'], ∀ inp ins, opcode ins = .store →
    Path.store.address ins s.toMachine = v → translate s.csr s.mem v .stor s.cp = .ok (-1) →
    ∃ t : State, t.toMachine = s.toMachine ∧ execute inp ins s = storePageFault v t
  alike : ∀ inp ins ins' pa, opcode ins = .store → opcode ins' = .store →
    func3 ins = func3 ins' → rs2 ins = rs2 ins' → Path.store.address ins s.toMachine = va →
    Path.store.address ins' s.toMachine = va' → pa ≠ -1 →
    translate s.csr s.mem va .stor s.cp = .ok pa →
    translate s.csr s.mem va' .stor s.cp = .ok pa →
    Alike va va' (execute inp ins s) (execute inp ins' s)

theorem loadNarrow_alike (access : Word → Word → Bool × Word) (extend : Word → Word)
    (hrd : rd ins = rd ins') (s : State) (va' : Word) :
    Alike s.loadAddr va' (.fall (loadNarrow access extend ins s))
      (.fall (loadNarrow access extend ins' { s with loadAddr := va' })) := by
  unfold loadNarrow
  dsimp only
  split
  · exact .misaligned { s.toMachine with flags := { s.flags with ldAddrMissalig := true } } rfl rfl
      rfl
  · apply Alike.fall
    rw [State.writeBack, State.writeBack, hrd]
    rfl

theorem loadSwitch_alike (h3 : func3 ins = func3 ins') (hrd : rd ins = rd ins') (s : State)
    (va' : Word) : Alike s.loadAddr va' (.fall (loadSwitch ins s))
      (.fall (loadSwitch ins' { s with loadAddr := va' })) := by
  unfold loadSwitch
  rw [← h3]
  split
  · exact loadNarrow_alike _ _ hrd s va'
  · exact loadNarrow_alike _ _ hrd s va'
  · exact loadNarrow_alike _ _ hrd s va'
  · exact loadNarrow_alike _ _ hrd s va'
  · exact loadNarrow_alike _ _ hrd s va'
  · exact loadNarrow_alike _ _ hrd s va'
  · unfold loadLd
    dsimp only
    split
    · apply Alike.fall
      rw [State.writeBack, State.writeBack, hrd]
      rfl
    · exact .misaligned { s.toMachine with flags := { s.flags with ldAddrMissalig := true } } rfl
        rfl rfl
  · exact .fall rfl

theorem loadsByPhysical (hva : va ∉ Path.load.console) (hva' : va' ∉ Path.load.console)
    (s : State) : LoadsByPhysical s va va' where
  unmapped v hv inp ins ho ha ht := by
    have hq : v ∉ Path.load.console := by
      simp only [List.mem_cons, List.not_mem_nil, or_false] at hv
      rcases hv with rfl | rfl
      · exact hva
      · exact hva'
    subst ha
    rw [execute_load ho, armLoad_translated hq ht]
    dsimp only
    rw [if_pos rfl]
    refine ⟨{ s with loadAddr := _, loadAddrPhy := -1 }, rfl, rfl⟩
  alike inp ins ins' pa ho ho' h3 hrd ha ha' hpa ht ht' := by
    subst ha ha'
    rw [execute_load ho, execute_load ho', armLoad_translated hva ht, armLoad_translated hva' ht']
    dsimp only
    rw [if_neg hpa, if_neg hpa]
    cases loadMapped inp pa s.toMachine with
    | stop h m => exact .stop h rfl
    | ret r m =>
      exact loadSwitch_alike h3 hrd { s with
        toMachine := m
        loadAddr := Path.load.address ins s.toMachine
        loadAddrPhy := r.1
        loadData := r.2 } _

theorem storeSwitch_congr (h3 : func3 ins = func3 ins') (h2 : rs2 ins = rs2 ins') (s : State) :
    storeSwitch ins s = storeSwitch ins' s := by
  unfold storeSwitch
  rw [h3, h2]

theorem storeSwitch_storeAddr (a : Word) (s : State) :
    storeSwitch ins { s with storeAddr := a } = { storeSwitch ins s with storeAddr := a } := by
  unfold storeSwitch
  dsimp only
  split
  · rfl
  · rfl
  · rfl
  · split <;> rfl
  · rfl

theorem storeCommit_storeAddr (a : Word) (c : Cell) (s : State) :
    (storeCommit c { s with storeAddr := a }).toMachine = (storeCommit c s).toMachine := by
  unfold storeCommit
  dsimp only
  split <;> rfl

theorem storeRam_alike (h3 : func3 ins = func3 ins') (h2 : rs2 ins = rs2 ins') (s : State)
    (a : Word) :
    Alike va va' (storeRam ins p s) (storeRam ins' p { s with storeAddr := a }) := by
  unfold storeRam
  dsimp only
  split
  · exact .stop _ rfl
  · split
    · exact .stop _ rfl
    · rename_i c _
      apply Alike.fall
      rw [← storeSwitch_congr h3 h2]
      have hs := @storeSwitch_storeAddr ins a { s with
        storeAddrPhy := p - dramBase
        storeData := s.mem c }
      exact ((congrArg (fun t => (storeCommit c t).toMachine) hs).trans
        (storeCommit_storeAddr a c _)).symm

theorem storesByPhysical (hva : va ∉ Path.store.console) (hva' : va' ∉ Path.store.console)
    (s : State) : StoresByPhysical s va va' where
  unmapped v hv inp ins ho ha ht := by
    have hq : v ∉ Path.store.console := by
      simp only [List.mem_cons, List.not_mem_nil, or_false] at hv
      rcases hv with rfl | rfl
      · exact hva
      · exact hva'
    subst ha
    rw [execute_store ho, armStore_translated hq ht]
    dsimp only
    rw [if_pos rfl]
    exact ⟨{ s with storeAddr := _, storeAddrPhy := -1 }, rfl, rfl⟩
  alike inp ins ins' pa ho ho' h3 h2 ha ha' hpa ht ht' := by
    subst ha ha'
    rw [execute_store ho, execute_store ho', armStore_translated hva ht,
      armStore_translated hva' ht']
    dsimp only
    rw [if_neg hpa, if_neg hpa]
    split
    · exact storeRam_alike h3 h2 { s with
        storeAddr := Path.store.address ins s.toMachine
        storeAddrPhy := pa } _
    · rw [← h2]
      cases storePeripheral inp pa (s.reg (rs2 ins)) s.toMachine with
      | stop h m => exact .stop h rfl
      | ret u m => exact .fall rfl

def unmapped (v : Word) : State :=
  { boot (fun _ => 0) 0 with
    cp := .smode
    csr := { (boot (fun _ => 0) 0).csr with satp := ⟨0x80000, 0, 8⟩ }
    regFile := fun _ => v }

theorem unmapped_translates (v : Word) (ty : Ttype) : Translates (unmapped v) ty := by
  refine ⟨rfl, ?_⟩
  rintro (⟨h, -⟩ | ⟨h, -⟩ | ⟨h, -⟩)
  · cases h
  · cases h
  · exact absurd h (by decide : ¬ (0 : Byte) = 1)

theorem loadPageFault_ne_fall {v : Word} {t u : State} : loadPageFault v t ≠ .fall u := by
  unfold loadPageFault
  split <;> exact nofun

theorem storePageFault_ne_fall {v : Word} {t u : State} : storePageFault v t ≠ .fall u := by
  unfold storePageFault
  split <;> exact nofun

/-- A FIFO address that is not mapped is loaded from. -/
theorem not_loadsByPhysical {v : Word} (hv : v ∈ Path.load.console) (hm : v ∈ [va, va']) :
    ¬ LoadsByPhysical (unmapped v) va va' := by
  intro h
  rcases mem_load_console.mp hv with rfl | rfl
  · obtain ⟨t, -, ht⟩ := h.unmapped _ hm (quiet 0) Path.load.sample rfl (by decide +kernel) rfl
    exact loadPageFault_ne_fall ht.symm
  · obtain ⟨t, -, ht⟩ := h.unmapped _ hm (quiet 0) Path.load.sample rfl (by decide +kernel) rfl
    exact loadPageFault_ne_fall ht.symm

theorem not_storesByPhysical {v : Word} (hv : v ∈ Path.store.console) (hm : v ∈ [va, va']) :
    ¬ StoresByPhysical (unmapped v) va va' := by
  intro h
  cases mem_store_console.mp hv
  obtain ⟨t, -, ht⟩ := h.unmapped _ hm (quiet 0) Path.store.sample rfl (by decide +kernel) rfl
  exact storePageFault_ne_fall ht.symm

/-- Under translation, loads and stores depend on the physical address only, but for the virtual
addresses of the FIFO. -/
theorem loads_stores_by_physical_iff (va va' : Word) :
    ((∀ s, Translates s .load → LoadsByPhysical s va va') ↔
      va ∉ Path.load.console ∧ va' ∉ Path.load.console) ∧
    ((∀ s, Translates s .stor → StoresByPhysical s va va') ↔
      va ∉ Path.store.console ∧ va' ∉ Path.store.console) := by
  refine ⟨⟨fun h => ⟨?_, ?_⟩, fun h s _ => loadsByPhysical h.1 h.2 s⟩,
    ⟨fun h => ⟨?_, ?_⟩, fun h s _ => storesByPhysical h.1 h.2 s⟩⟩
  · intro hv
    exact not_loadsByPhysical hv (List.mem_cons_self ..) (h _ (unmapped_translates va _))
  · intro hv
    exact not_loadsByPhysical hv (.tail _ (List.mem_cons_self ..)) (h _ (unmapped_translates va' _))
  · intro hv
    exact not_storesByPhysical hv (List.mem_cons_self ..) (h _ (unmapped_translates va _))
  · intro hv
    exact not_storesByPhysical hv (.tail _ (List.mem_cons_self ..))
      (h _ (unmapped_translates va' _))

/-- `satp` is set to an empty page table, and `mstatus` so that loads from machine mode are translated
as in supervisor mode; then `ld x5, 0x30(x4)` loads from the transmit register. -/
def consoleProgram : List Word :=
  [0x000210b7, 0x80008093, 0x00100113, 0x03f11113, 0x000801b7, 0x00118193, 0x00316133, 0x18011073,
    0xe0001237, 0x02021213, 0x02025213, 0x30009073, 0x03023283]

/-- The load of `consoleProgram` finds no page, and falls through to the end of the loop body. -/
def loadsUnmapped (s : State) : Bool :=
  decide (s.csr.satp.mode = 8 ∧ s.csr.mstatus.mprv = 1 ∧ s.csr.mstatus.mpp = 1) &&
    decide (Path.load.address 0x03023283 s.toMachine = fifoAddrTx) &&
    decide ((translate s.csr s.mem fifoAddrTx .load s.cp).toOption = some (-1)) &&
    match execute (quiet 0) 0x03023283 s with
    | .fall _ => true
    | _ => false

theorem loads_stores_not_by_physical :
    ¬ ∀ (image : Memory) (time : Word) (is : List Input) (s : State) (inp : Input) (va va' : Word),
      Run Next (boot image time) is s →
        let t := decoded { s with toMachine := tick inp s.toMachine }
        (Translates t .load → LoadsByPhysical t va va') ∧
          (Translates t .stor → StoresByPhysical t va va') := by
  intro h
  obtain ⟨s, hr, hs⟩ := exists_run (boot (imageOf consoleProgram) 0) (List.replicate 12 (quiet 0))
    (fun s => loadsUnmapped (decoded { s with toMachine := tick (quiet 0) s.toMachine }))
    (by decide +kernel)
  have hl := (h _ _ _ s (quiet 0) fifoAddrTx fifoAddrTx hr).1
  generalize decoded { s with toMachine := tick (quiet 0) s.toMachine } = t at hs hl
  unfold loadsUnmapped at hs
  simp only [Bool.and_eq_true, decide_eq_true_iff] at hs
  obtain ⟨⟨⟨⟨hmode, hmprv, hmpp⟩, ha⟩, ht⟩, hx⟩ := hs
  have hb : ¬ Sv39.Bypass t.csr .load t.cp := by
    rintro (⟨-, hb⟩ | ⟨-, hb⟩ | ⟨-, hb⟩)
    · exact absurd (hmprv.symm.trans hb) (by decide)
    · cases hb
    · exact absurd (hmpp.symm.trans hb) (by decide)
  obtain ⟨u, -, hu⟩ := (hl ⟨hmode, hb⟩).unmapped _ (List.mem_cons_self ..) (quiet 0) 0x03023283 rfl
    ha (ok_of_toOption ht)
  rw [hu] at hx
  split at hx
  · rename_i hw
    exact loadPageFault_ne_fall hw
  · cases hx

end RiscvEmu
