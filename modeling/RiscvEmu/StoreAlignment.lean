import RiscvEmu.AddressMapping
import RiscvEmu.ByteMemory

/-! A store to RAM either writes exactly its bytes or raises the misaligned-store exception: which
stores do, and which do neither. -/

namespace RiscvEmu

open Bytes

variable {inp : Input} {ins pa : Word} {s t : State}

def IsStore (ins : Word) : Prop := opcode ins = .store ∧ (func3 ins).toNat < 4

def storeWidth (ins : Word) : ℕ := 2 ^ (func3 ins).toNat

def RamAddress (pa : Word) : Prop := dramBase ≤ pa ∧ pa < dramBase + dramSize

/-- One write to the memory vector, which changes exactly the addressed bytes, and no exception. -/
structure StoresBytes (ins pa : Word) (s t : State) : Prop where
  write : ∃ c v, t.bus = .ram .store c v :: s.bus
  bytes : ∀ x < ramSize, t.mem.byte x =
    put ((pa - dramBase).toNat, bytes (s.reg (rs2 ins)) (storeWidth ins)) s.mem.byte x
  flags : t.flags = s.flags

/-- Memory is as before, and the misaligned-store exception is raised for the virtual address. -/
structure RefusesStore (ins : Word) (s t : State) : Prop where
  mem : t.mem = s.mem
  before : s.flags.storeAddrMissalig = false
  raised : t.flags.storeAddrMissalig = true
  tval : t.csr.mtval = Path.store.address ins s.toMachine

def AllOrNothing (inp : Input) (ins pa : Word) (s : State) : Prop :=
  ∃ t, execute inp ins s = .fall t ∧ (StoresBytes ins pa s t ∨ RefusesStore ins s t)

/-! ### The RAM half of the arm -/

theorem ramAddress_toNat (h : RamAddress pa) : (pa - dramBase).toNat < ramSize := by
  obtain ⟨hlo, hhi⟩ := h
  rw [toNat_sub_base hlo]
  have hlt := BitVec.lt_def.mp hhi
  have hend : (dramBase + dramSize).toNat = 2 ^ 31 + 2 ^ 31 := rfl
  have hle := base_le_iff.mp hlo
  show _ < 2 ^ 31
  omega

theorem storeSwitch_success (hf : (func3 ins).toNat < 4) (s : State) :
    (storeSwitch ins s).lsSuccess = true ↔ s.storeAddrPhy.toNat % 8 + storeWidth ins ≤ 8 := by
  unfold storeWidth
  generalize hk : (func3 ins).toNat = k at hf
  by_cases h : k < 3
  · have hfail := storeFit_fails (2 ^ k) s.storeAddrPhy s.storeData
      (s.reg (rs2 ins) &&& low 64 (8 * 2 ^ k))
    rw [storeSwitch_narrow s hk h rfl, ← Bool.not_eq_false, hfail]
    omega
  · obtain rfl : k = 3 := by omega
    have hmod := toNat_mod_eight s.storeAddrPhy
    rw [storeSwitch_double s hk]
    by_cases h0 : s.storeAddrPhy % 8 = 0
    · rw [h0] at hmod
      rw [if_pos h0]
      exact iff_of_true rfl (by rw [← hmod]; decide)
    · have hne : s.storeAddrPhy.toNat % 8 ≠ 0 := fun he =>
        h0 (BitVec.eq_of_toNat_eq (hmod.trans he))
      rw [if_neg h0]
      refine iff_of_false Bool.false_ne_true ?_
      omega

theorem execute_storeRam (hs : opcode ins = .store)
    (hq : Path.store.address ins s.toMachine ∉ Path.store.console)
    (ht : translate s.csr s.mem (Path.store.address ins s.toMachine) .stor s.cp = .ok pa)
    (hr : RamAddress pa) : execute inp ins s = storeRam ins pa { s with
      storeAddr := Path.store.address ins s.toMachine
      storeAddrPhy := pa } := by
  have hp : pa ≠ -1 := by
    rintro rfl
    exact absurd (ramAddress_toNat hr) (by decide)
  rw [execute_store hs, armStore_translated hq ht]
  dsimp only
  rw [if_neg hp, if_pos hr.1]

theorem execute_store_ram (inp : Input) (hs : opcode ins = .store)
    (hq : Path.store.address ins s.toMachine ∉ Path.store.console)
    (ht : translate s.csr s.mem (Path.store.address ins s.toMachine) .stor s.cp = .ok pa)
    (hr : RamAddress pa) (hb : (pa - dramBase).toNat < 2 ^ 28) :
    ∃ u : State, u.toMachine = s.toMachine ∧ u.storeAddrPhy = pa - dramBase ∧
      u.storeData = s.mem (ramCell (pa - dramBase).toNat) ∧
      execute inp ins s =
        .fall (storeCommit (ramCell (pa - dramBase).toNat) (storeSwitch ins u)) := by
  refine ⟨{ s with
    storeAddr := Path.store.address ins s.toMachine
    storeAddrPhy := pa - dramBase
    storeData := s.mem (ramCell (pa - dramBase).toNat) }, rfl, rfl, rfl, ?_⟩
  rw [execute_storeRam hs hq ht hr]
  exact storeRam_eq rfl hb

theorem stores_of_fit (hf : (func3 ins).toNat < 4) {u : State}
    (hm : u.toMachine = s.toMachine) (hp : u.storeAddrPhy = pa - dramBase)
    (hd : u.storeData = s.mem (ramCell (pa - dramBase).toNat)) (hr : RamAddress pa)
    (hfit : (pa - dramBase).toNat % 8 + storeWidth ins ≤ 8) :
    StoresBytes ins pa s (storeCommit (ramCell (pa - dramBase).toNat) (storeSwitch ins u)) := by
  have hok : (storeSwitch ins u).lsSuccess = true :=
    (storeSwitch_success hf u).mpr (by rw [hp]; exact hfit)
  have hmem := storeCommit_mem ins u (ramCell (pa - dramBase).toNat) hf
  have hreg : u.reg (rs2 ins) = s.reg (rs2 ins) := congrArg (fun m : Machine => m.reg (rs2 ins)) hm
  have humem : u.mem = s.mem := congrArg Machine.mem hm
  rw [hp, hd, hreg, humem, ← storeWidth, if_pos hfit] at hmem
  refine ⟨⟨ramCell (pa - dramBase).toNat, (storeSwitch ins u).wbData, ?_⟩, ?_, ?_⟩
  · rw [storeCommit_of_success _ hok, storeSwitch_toMachine, hm]
    rfl
  · intro x hx
    rw [hmem]
    exact byte_set_splice s.mem _ (ramAddress_toNat hr) hfit hx
  · rw [storeCommit_of_success _ hok, storeSwitch_toMachine, hm]
    rfl

theorem neither_of_same (h : t.toMachine = s.toMachine) :
    ¬ (StoresBytes ins pa s t ∨ RefusesStore ins s t) := by
  rintro (⟨⟨c, v, hw⟩, -, -⟩ | ⟨-, hb, ha, -⟩)
  · rw [h] at hw
    exact absurd hw (List.cons_ne_self _ _).symm
  · rw [h, hb] at ha
    exact Bool.false_ne_true ha

/-- A store to RAM does what it should exactly when it is off the console address and below the arm's
bound, and does not cross the end of a doubleword. -/
theorem store_all_or_nothing_iff (hs : IsStore ins)
    (ht : translate s.csr s.mem (Path.store.address ins s.toMachine) .stor s.cp = .ok pa)
    (hr : RamAddress pa) : AllOrNothing inp ins pa s ↔
      Path.store.address ins s.toMachine ≠ fifoAddrTx ∧ (pa - dramBase).toNat < 2 ^ 28 ∧
        (pa - dramBase).toNat % 8 + storeWidth ins ≤ 8 := by
  obtain ⟨ho, hf⟩ := hs
  by_cases hq : Path.store.address ins s.toMachine ∈ Path.store.console
  · have hva := mem_store_console.mp hq
    -- the console takes the store: nothing is written, and no exception is raised
    refine iff_of_false ?_ fun h => h.1 hva
    rintro ⟨t, hx, ht⟩
    rw [execute_store ho, armStore] at hx
    dsimp only at hx
    rw [if_neg fun hne => hne hva] at hx
    cases hx
    rcases ht with ⟨⟨c, v, hw⟩, -, -⟩ | ⟨-, hb, ha, -⟩
    · exact absurd hw (List.cons_ne_self _ _).symm
    · exact Bool.false_ne_true (hb.symm.trans ha)
  have hva : Path.store.address ins s.toMachine ≠ fifoAddrTx := mt mem_store_console.mpr hq
  by_cases hb : (pa - dramBase).toNat < 2 ^ 28
  · obtain ⟨u, hm, hp, hd, hx⟩ := execute_store_ram inp ho hq ht hr hb
    by_cases hfit : (pa - dramBase).toNat % 8 + storeWidth ins ≤ 8
    · exact iff_of_true ⟨_, hx, .inl (stores_of_fit hf hm hp hd hr hfit)⟩ ⟨hva, hb, hfit⟩
    · -- across the end of a doubleword the store is dropped without an exception
      refine iff_of_false ?_ fun h => hfit h.2.2
      rintro ⟨t, hx', ht⟩
      have hfail : (storeSwitch ins u).lsSuccess = false := by
        rw [← Bool.not_eq_true, storeSwitch_success hf, hp]
        exact hfit
      cases hx.symm.trans hx'
      refine neither_of_same ?_ ht
      rw [storeCommit_of_failure _ hfail, storeSwitch_toMachine, hm]
  · -- beyond the bound of the arm the emulator exits
    refine iff_of_false ?_ fun h => hb h.2.1
    rintro ⟨t, hx, -⟩
    have hge : pa - dramBase ≥ (1 : Word) <<< 28 := by
      rw [ge_iff_le, BitVec.le_def]
      exact Nat.le_of_not_lt hb
    rw [execute_storeRam ho hq ht hr, storeRam] at hx
    dsimp only at hx
    rw [if_pos hge] at hx
    cases hx

def swIns : Word := 0x0020a023

theorem store_all_or_nothing_aligned :
    AllOrNothing (quiet 0) swIns 0x80000004 (bare 0x80000004) ↔
      Path.store.address swIns (bare 0x80000004).toMachine ≠ fifoAddrTx ∧
        ((0x80000004 : Word) - dramBase).toNat < 2 ^ 28 ∧
        ((0x80000004 : Word) - dramBase).toNat % 8 + storeWidth swIns ≤ 8 :=
  store_all_or_nothing_iff ⟨rfl, by decide⟩ rfl ⟨by decide, by decide⟩

/-- A store of a word three bytes before the end of a doubleword. -/
theorem store_neither :
    ¬ ∀ (inp : Input) (ins pa : Word) (s : State), IsStore ins →
      translate s.csr s.mem (Path.store.address ins s.toMachine) .stor s.cp = .ok pa →
      RamAddress pa → AllOrNothing inp ins pa s := by
  intro h
  obtain ⟨t, hx, ht⟩ := h (quiet 0) swIns 0x80000005 (bare 0x80000005) ⟨rfl, by decide⟩ rfl
    ⟨by decide, by decide⟩
  have htrans : translate (bare 0x80000005).csr (bare 0x80000005).mem
      (Path.store.address swIns (bare 0x80000005).toMachine) .stor (bare 0x80000005).cp =
        .ok 0x80000005 := rfl
  obtain ⟨u, hm, hp, -, hu⟩ := execute_store_ram (quiet 0) rfl (by decide) htrans
    ⟨by decide, by decide⟩ (by decide)
  have hfail : (storeSwitch swIns u).lsSuccess = false := by
    rw [← Bool.not_eq_true, storeSwitch_success (by decide), hp]
    decide
  cases hu.symm.trans hx
  refine neither_of_same ?_ ht
  rw [storeCommit_of_failure _ hfail, storeSwitch_toMachine, hm]

end RiscvEmu
