import RiscvEmu.AccessBounds

/-! Accesses that are not translated: in Bare mode, and in machine mode with MPRV clear. `translate`
looks at the mode of `satp` before it looks at the privilege, and its callers take the value -1 for a
page fault. -/

namespace RiscvEmu

variable {inp : Input} {ins va p : Word} {s t : State} {c : Csrs} {mem : Memory} {cp : Plevel}
  {ty : Ttype}

def Untranslated (c : Csrs) (cp : Plevel) : Prop :=
  c.satp.mode = 0 ∨ cp = .mmode ∧ c.mstatus.mprv = 0

def Path.pageFault (va : Word) (s : State) : Path → Res
  | load => loadPageFault va s
  | store | amoW | amoD => storePageFault va s

def Path.Faults (inp : Input) (ins : Word) (s : State) (k : Path) : Prop :=
  ∃ t : State, t.toMachine = s.toMachine ∧
    execute inp ins s = k.pageFault (k.address ins s.toMachine) t

/-- The access is given its virtual address, and no caller takes that for a page fault. -/
structure GivenAddress (c : Csrs) (mem : Memory) (va : Word) (ty : Ttype) (cp : Plevel) : Prop where
  physical : translate c mem va ty cp = .ok va
  fetches : ty = .inst → ∀ m : Machine, m.csr = c → m.mem = mem → m.cp = cp → m.pc = va →
    fetch m ≠ .fault
  arms : ∀ k : Path, k.type = ty → ∀ inp ins (s : State), s.csr = c → s.mem = mem → s.cp = cp →
    k.Selects ins → k.address ins s.toMachine = va → va ∉ k.console → ¬ k.Faults inp ins s

/-! ### How the callers end -/

/-- The program ends in an address mapping or in `memory.at`. -/
def Res.Breaks (x : Res) : Prop := ∃ h s, x = .stop h s ∧ (h = .exit 0 ∨ h = .outOfRange)

theorem loadPageFault_not_breaks : ¬ (loadPageFault va s).Breaks := by
  rintro ⟨h, t, hx, hh⟩
  unfold loadPageFault at hx
  split at hx
  · rename_i he
    cases hx
    rcases raiseExcep_stop he with rfl | rfl <;> rcases hh with hh | hh <;> cases hh
  · cases hx

theorem storePageFault_not_breaks : ¬ (storePageFault va s).Breaks := by
  rintro ⟨h, t, hx, hh⟩
  unfold storePageFault at hx
  split at hx
  · rename_i he
    cases hx
    rcases raiseExcep_stop he with rfl | rfl <;> rcases hh with hh | hh <;> cases hh
  · cases hx

theorem deviceActs_stop {as : List DeviceAct} {m m' : Machine} {h : Halt}
    (hx : deviceActs as m = .stop h m') : h = .outOfRange := by
  induction as generalizing m with
  | nil => cases hx
  | cons a as ih =>
    unfold deviceActs at hx
    split at hx
    · rename_i ha
      cases hx
      exact deviceAct_stop ha
    · exact ih hx

theorem storePeripheral_stop {m m' : Machine} {v : Word} {h : Halt}
    (hx : storePeripheral inp p v m = .stop h m') : h = .exit 0 ∨ h = .outOfRange := by
  unfold storePeripheral at hx
  split at hx
  · cases hx
  split at hx
  · cases hx
  split at hx
  · exact .inr (deviceActs_stop hx)
  · cases hx
    exact .inl rfl

theorem loadMapped_stop {m m' : Machine} {h : Halt} (hx : loadMapped inp p m = .stop h m') :
    h = .exit 0 ∨ h = .outOfRange := by
  unfold loadMapped at hx
  split at hx
  · dsimp only at hx
    split at hx
    · cases hx
      exact .inl rfl
    · split at hx <;> cases hx
      exact .inr rfl
  · split at hx
    · rename_i hl
      cases hx
      exact .inl (loadPeripheral_stop hl)
    · cases hx

/-! ### What the callers do -/

theorem fetch_ne_fault {m : Machine} (ht : translate m.csr m.mem m.pc .inst m.cp = .ok p)
    (hp : p ≠ -1) : fetch m ≠ .fault := by
  intro hf
  unfold fetch at hf
  rw [ht] at hf
  dsimp only at hf
  rw [if_neg hp] at hf
  split at hf
  · cases hf
  · split at hf
    · split at hf <;> cases hf
    · cases hf

def Res.Past (x : Res) : Prop := x.Breaks ∨ ∃ t, x = .fall t

theorem pageFault_not_past (k : Path) (va : Word) (t : State) : ¬ (k.pageFault va t).Past := by
  have hload : ¬ (loadPageFault va t).Past := by
    rintro (hb | ⟨t', ht⟩)
    · exact loadPageFault_not_breaks hb
    · unfold loadPageFault at ht
      split at ht <;> cases ht
  have hstore : ¬ (storePageFault va t).Past := by
    rintro (hb | ⟨t', ht⟩)
    · exact storePageFault_not_breaks hb
    · unfold storePageFault at ht
      split at ht <;> cases ht
  cases k with
  | load => exact hload
  | store => exact hstore
  | amoW => exact hstore
  | amoD => exact hstore

theorem load_past (hq : Path.load.address ins s.toMachine ∉ Path.load.console)
    (ht : translate s.csr s.mem (Path.load.address ins s.toMachine) .load s.cp = .ok p)
    (hp : p ≠ -1) : (armLoad inp ins s).Past := by
  rw [armLoad_translated hq ht]
  dsimp only
  rw [if_neg hp]
  cases hl : loadMapped inp p s.toMachine with
  | stop h m => exact .inl ⟨h, _, rfl, loadMapped_stop hl⟩
  | ret x m => exact .inr ⟨_, rfl⟩

theorem storeRam_past (ins p : Word) (s : State) : (storeRam ins p s).Past := by
  unfold storeRam
  dsimp only
  split
  · exact .inl ⟨_, _, rfl, .inl rfl⟩
  · split
    · exact .inl ⟨_, _, rfl, .inr rfl⟩
    · exact .inr ⟨_, rfl⟩

theorem store_past (hq : Path.store.address ins s.toMachine ∉ Path.store.console)
    (ht : translate s.csr s.mem (Path.store.address ins s.toMachine) .stor s.cp = .ok p)
    (hp : p ≠ -1) : (armStore inp ins s).Past := by
  rw [armStore_translated hq ht]
  dsimp only
  rw [if_neg hp]
  split
  · exact storeRam_past _ _ _
  · cases hl : storePeripheral inp p (s.reg (rs2 ins)) s.toMachine with
    | stop h m => exact .inl ⟨h, _, rfl, storePeripheral_stop hl⟩
    | ret x m => exact .inr ⟨_, rfl⟩

theorem amo_past {k : Cell → State → State}
    (ht : translate s.csr s.mem (s.reg (rs1 ins)) .stor s.cp = .ok p) (hp : p ≠ -1) :
    (amoMapped ins s k).Past := by
  rw [amoMapped_of_translate ht hp]
  dsimp only
  split
  · split
    · exact .inl ⟨_, _, rfl, .inr rfl⟩
    · exact .inr ⟨_, rfl⟩
  · exact .inl ⟨_, _, rfl, .inl rfl⟩

theorem past_of_translate (k : Path) (hs : k.Selects ins)
    (hq : k.address ins s.toMachine ∉ k.console)
    (ht : translate s.csr s.mem (k.address ins s.toMachine) k.type s.cp = .ok p) (hp : p ≠ -1) :
    (execute inp ins s).Past := by
  cases k with
  | load =>
    rw [execute_load hs]
    exact load_past hq ht hp
  | store =>
    rw [execute_store hs]
    exact store_past hq ht hp
  | amoW =>
    obtain ⟨f, hx, -⟩ := @execute_amoMapped inp ins p s .amoW (.inl rfl) hs
    rw [hx]
    exact amo_past ht hp
  | amoD =>
    obtain ⟨f, hx, -⟩ := @execute_amoMapped inp ins p s .amoD (.inr rfl) hs
    rw [hx]
    exact amo_past ht hp

/-! ### What `translate` does -/

theorem translate_bare (h : c.satp.mode = 0) (va : Word) : translate c mem va ty cp = .ok va := by
  unfold translate
  rw [h]
  rfl

theorem translate_machine (h8 : c.satp.mode = 8) (hm : cp = .mmode ∧ c.mstatus.mprv = 0)
    (va : Word) : translate c mem va ty cp = .ok va := by
  unfold translate
  rw [h8]
  exact if_pos hm

theorem translate_other (h0 : c.satp.mode ≠ 0) (h8 : c.satp.mode ≠ 8)
    (ht : translate c mem va ty cp = .ok p) : p = -1 := by
  unfold translate at ht
  split at ht
  · rename_i hmode
    exact absurd (BitVec.eq_of_toNat_eq hmode) h0
  · rename_i hmode
    exact absurd (BitVec.eq_of_toNat_eq hmode) h8
  · cases ht
  · cases ht
    rfl

theorem faults_load (hs : Path.load.Selects ins)
    (hq : Path.load.address ins s.toMachine ∉ Path.load.console)
    (ht : translate s.csr s.mem (Path.load.address ins s.toMachine) .load s.cp = .ok (-1)) :
    Path.load.Faults inp ins s := by
  let va := Path.load.address ins s.toMachine
  refine ⟨{ s with loadAddr := va, loadAddrPhy := -1 }, rfl, ?_⟩
  rw [execute_load hs, armLoad_translated hq ht]
  exact if_pos rfl

theorem faults_store (hs : Path.store.Selects ins)
    (hq : Path.store.address ins s.toMachine ∉ Path.store.console)
    (ht : translate s.csr s.mem (Path.store.address ins s.toMachine) .stor s.cp = .ok (-1)) :
    Path.store.Faults inp ins s := by
  let va := Path.store.address ins s.toMachine
  refine ⟨{ s with storeAddr := va, storeAddrPhy := -1 }, rfl, ?_⟩
  rw [execute_store hs, armStore_translated hq ht]
  exact if_pos rfl

theorem not_givenAddress_top : ¬ GivenAddress c mem (-1) ty cp := by
  intro h
  have ht := h.physical
  let s : State := { bare (-1) with csr := c, mem := mem, cp := cp }
  cases ty with
  | inst =>
    have hu : ¬ (cp = .umode ∧ (-1 : Word) = 0) := fun hu => absurd hu.2 (by decide)
    exact h.fetches rfl { s.toMachine with pc := -1 } rfl rfl rfl rfl (fetch_of_fault hu ht)
  | load =>
    have ha : Path.load.address Path.load.sample s.toMachine = -1 := sample_address .load (-1)
    have hq : Path.load.address Path.load.sample s.toMachine ∉ Path.load.console := by
      rw [ha]
      decide
    refine h.arms .load rfl (quiet 0) Path.load.sample s rfl rfl rfl (sample_selects .load) ha
      (ha ▸ hq) (faults_load (sample_selects .load) hq ?_)
    rw [ha]
    exact ht
  | stor =>
    have ha : Path.store.address Path.store.sample s.toMachine = -1 := sample_address .store (-1)
    have hq : Path.store.address Path.store.sample s.toMachine ∉ Path.store.console := by
      rw [ha]
      decide
    refine h.arms .store rfl (quiet 0) Path.store.sample s rfl rfl rfl (sample_selects .store) ha
      (ha ▸ hq) (faults_store (sample_selects .store) hq ?_)
    rw [ha]
    exact ht

theorem givenAddress_of_translate (ht : translate c mem va ty cp = .ok va) (hva : va ≠ -1) :
    GivenAddress c mem va ty cp where
  physical := ht
  fetches hty m hc hm hcp hpc := by
    subst hc hm hcp hpc hty
    exact fetch_ne_fault ht hva
  arms k hty inp ins s hc hm hcp hs ha hq := by
    subst hc hm hcp ha hty
    rintro ⟨t, -, hx⟩
    have hpast : (execute inp ins s).Past := past_of_translate k hs hq ht hva
    rw [hx] at hpast
    exact pageFault_not_past k _ t hpast

/-- An access that is not translated is given its address exactly when the mode of `satp` is Bare or
Sv39 and the address is not the highest one. -/
theorem untranslated_access_iff (hu : Untranslated c cp) :
    GivenAddress c mem va ty cp ↔ (c.satp.mode = 0 ∨ c.satp.mode = 8) ∧ va ≠ -1 := by
  constructor
  · intro h
    have hva : va ≠ -1 := by
      rintro rfl
      exact not_givenAddress_top h
    refine ⟨?_, hva⟩
    by_contra hmode
    rw [not_or] at hmode
    exact hva (translate_other hmode.1 hmode.2 h.physical)
  · rintro ⟨h0 | h8, hva⟩
    · exact givenAddress_of_translate (translate_bare h0 va) hva
    · rcases hu with h0 | hm
      · rw [h0] at h8
        exact absurd h8 (by decide)
      · exact givenAddress_of_translate (translate_machine h8 hm va) hva

/-- A load from `DRAM_BASE` at reset. -/
theorem untranslated_access_reset :
    GivenAddress (boot (fun _ => 0) 0).csr (fun _ => 0) dramBase .load .mmode ↔
      ((boot (fun _ => 0) 0).csr.satp.mode = 0 ∨ (boot (fun _ => 0) 0).csr.satp.mode = 8) ∧
        dramBase ≠ -1 :=
  untranslated_access_iff (.inl rfl)

/-- At reset, the load from the highest address takes a page fault. -/
theorem untranslated_access_fails : ¬ ∀ (c : Csrs) (mem : Memory) (va : Word) (ty : Ttype)
    (cp : Plevel), Untranslated c cp → GivenAddress c mem va ty cp := by
  intro h
  have hg := h (boot (fun _ => 0) 0).csr (fun _ => 0) (-1) .load .mmode (.inl rfl)
  exact not_givenAddress_top hg

end RiscvEmu
