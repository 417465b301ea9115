import RiscvEmu.AddressMapping
import RiscvEmu.Control
import RiscvEmu.Sv39Protection

/-! The accesses that an iteration makes to the memory vector and to the devices, each with the
physical address that is asked for, and when all of them stay where they belong. -/

namespace RiscvEmu

open Runs Sv39

variable {inp : Input} {ins p : Word} {s : State} {c : Csrs} {mem : Memory} {va : Word} {ty : Ttype}
  {cp : Plevel} {r : ℕ}

/-- A call of `memory.at`, or of a device. -/
inductive Access
  | memory (requested : ℕ) (index : Word)
  | device (requested : ℕ) (address : Word)

/-- The index is in the vector and belongs to the address that is asked for; the device is the one
at that address. -/
def Access.Proper : Access → Prop
  | .memory r i => i.toNat < memSize ∧ 2 ^ 31 ≤ r ∧ i.toNat = (r - 2 ^ 31) / 8
  | .device r p => p.toNat = r

/-! ### Translation -/

def Walks (c : Csrs) (ty : Ttype) (cp : Plevel) : Prop :=
  c.satp.mode = 8 ∧ ¬(cp = .mmode ∧ c.mstatus.mprv = 0) ∧
    ¬(cp = .mmode ∧ c.mstatus.mprv = 1 ∧ ty = .inst) ∧ ¬(c.mstatus.mprv = 1 ∧ c.mstatus.mpp = 3)

instance (c : Csrs) (ty : Ttype) (cp : Plevel) : Decidable (Walks c ty cp) :=
  inferInstanceAs (Decidable (_ ∧ _ ∧ _ ∧ _))

/-- The reads of page-table entries, from the page number `n` of the architecture and the one of the
source. -/
def walkReads (mem : Memory) : ℕ → Word → List (BitVec 16) → List Access
  | _, _, [] => []
  | n, page, vpn :: vpns =>
    .memory (n * 4096 + vpn.toNat * 8) (entryIndex page vpn) ::
      match entry mem page vpn with
      | none => []
      | some w =>
        if Invalid w ∨ Leaf w then []
        else walkReads mem (ppn w) (Sv39pte.writeReg w).ppn vpns

def translateReads (c : Csrs) (mem : Memory) (va : Word) (ty : Ttype) (cp : Plevel) :
    List Access :=
  if Walks c ty cp then
    walkReads mem c.satp.ppn.toNat c.satp.ppn ((levels (Sv39va.writeReg va)).map Level.vpn)
  else []

/-- The physical address that is asked for: of 56 bits behind a page table, else the virtual one. -/
def requested (c : Csrs) (mem : Memory) (va : Word) (ty : Ttype) (cp : Plevel) : ℕ :=
  if Walks c ty cp then
    match tableLeaf c mem va with
    | some (k, w) => leafAddress va k w
    | none => 0
  else va.toNat

/-- The accesses of `translate`, and those that `f` lists for the address that is asked for and the
result of `translate`. -/
def mapped (c : Csrs) (mem : Memory) (va : Word) (ty : Ttype) (cp : Plevel)
    (f : ℕ → Word → List Access) : List Access :=
  translateReads c mem va ty cp ++
    match translate c mem va ty cp with
    | .error _ => []
    | .ok p => if p = -1 then [] else f (requested c mem va ty cp) p

def Ttype.pageFault : Ttype → Word
  | .inst => causeFetchPageFault
  | .load => causeLoadPageFault
  | .stor => causeStorePageFault

def Handled (ecode : Word) (cp : Plevel) (c : Csrs) : Prop :=
  ∃ h, trapModeSelect ecode false cp c = some h ∧ h.handles

/-- No Sv48, all page-table entries in RAM, and the address faults, with a handler, or satisfies `P`. -/
structure Mapped (c : Csrs) (mem : Memory) (va : Word) (ty : Ttype) (cp : Plevel) (P : ℕ → Prop) :
    Prop where
  mode : c.satp.mode ≠ 9
  entries : Walks c ty cp → ∀ a ∈ visited c mem va, InRam a
  faults : translate c mem va ty cp = .ok (-1) → Handled ty.pageFault cp c
  goes : translate c mem va ty cp ≠ .ok (-1) → P (requested c mem va ty cp)

theorem inRam_of_proper {i : Word} (h : (Access.memory r i).Proper) : InRam r := by
  obtain ⟨hlt, hle, hi⟩ := h
  rw [hi] at hlt
  have hlt' : (r - 2 ^ 31) / 8 < 2 ^ 28 := hlt
  exact ⟨hle, by omega⟩

theorem proper_of_inRam {i : Word} (h : InRam r) (hi : i.toNat = (r - 2 ^ 31) / 8) :
    (Access.memory r i).Proper := by
  obtain ⟨hle, hlt⟩ := h
  refine ⟨?_, hle, hi⟩
  rw [hi]
  show _ < 2 ^ 28
  omega

theorem walkReads_proper_iff {page : Word} {n : ℕ} (vpns : List (BitVec 16))
    (hp : page.toNat = n ∨ page.toNat = n % 2 ^ 32) :
    (∀ a ∈ walkReads mem n page vpns, a.Proper) ↔
      ∀ x ∈ slots mem n (vpns.map BitVec.toNat), InRam x := by
  induction vpns generalizing n page with
  | nil => exact iff_of_true nofun nofun
  | cons vpn vpns ih =>
    rw [List.map_cons]
    by_cases hr : InRam (n * 4096 + vpn.toNat * 8)
    · have hpage : page.toNat = n := by
        have hlt := hr.2
        omega
      have hhead : (Access.memory (n * 4096 + vpn.toNat * 8) (entryIndex page vpn)).Proper :=
        proper_of_inRam hr (entryIndex_of_inRam hpage rfl hr)
      rw [walkReads, entry_of_inRam hpage rfl hr, List.forall_mem_cons]
      dsimp only
      generalize hw : ramWord mem (n * 4096 + vpn.toNat * 8) = w
      by_cases hstop : Invalid w ∨ Leaf w
      · rw [if_pos hstop, slots_of_stop (hw ▸ hstop)]
        exact iff_of_true ⟨hhead, nofun⟩ fun x hx => List.mem_singleton.mp hx ▸ hr
      · obtain ⟨hi, hl⟩ := not_or.mp hstop
        rw [if_neg hstop, slots_of_pointer (hw ▸ hi) (hw ▸ hl), List.forall_mem_cons, hw,
          ih (.inr (ppn_toNat w))]
        exact and_congr_left' (iff_of_true hhead hr)
    · refine iff_of_false (fun h => hr (inRam_of_proper (h _ (List.mem_cons_self ..)))) fun h => ?_
      exact hr (h _ (by unfold slots; exact List.mem_cons_self ..))

theorem translateReads_proper_iff : (∀ a ∈ translateReads c mem va ty cp, a.Proper) ↔
    (Walks c ty cp → ∀ a ∈ visited c mem va, InRam a) := by
  have hv : visited c mem va = slots mem c.satp.ppn.toNat
      (((levels (Sv39va.writeReg va)).map Level.vpn).map BitVec.toNat) := by
    rw [visited, vpns_eq_map]
  unfold translateReads
  by_cases hw : Walks c ty cp
  · rw [if_pos hw, walkReads_proper_iff _ (.inl rfl), ← hv]
    exact ⟨fun h _ => h, fun h => h hw⟩
  · rw [if_neg hw]
    exact iff_of_true (List.forall_mem_nil _) fun h => absurd h hw

theorem translate_of_walks (h : Walks c ty cp) : translate c mem va ty cp = walk c mem va ty := by
  obtain ⟨hmode, h1, h2, h3⟩ := h
  unfold translate
  simp only [hmode]
  rw [if_neg h1, if_neg h2, if_neg h3]
  rfl

theorem translate_of_not_walks (mem : Memory) (va : Word) (h : ¬ Walks c ty cp) :
    translate c mem va ty cp = .ok va ∨ translate c mem va ty cp = .ok (-1) ∨
      (c.satp.mode = 9 ∧ translate c mem va ty cp = .error (.exit 0)) := by
  unfold translate
  split
  · exact .inl rfl
  · rename_i hmode
    split
    · exact .inl rfl
    rename_i h1
    split
    · exact .inl rfl
    rename_i h2
    split
    · exact .inl rfl
    rename_i h3
    exact absurd ⟨BitVec.eq_of_toNat_eq hmode, h1, h2, h3⟩ h
  · rename_i hmode
    exact .inr (.inr ⟨BitVec.eq_of_toNat_eq hmode, rfl⟩)
  · exact .inr (.inl rfl)

/-- The source's physical address, of 64 bits without a walk and of 32 behind one. -/
def Truncates (p : Word) (r : ℕ) : Prop := p.toNat = r ∨ p.toNat = r % 2 ^ 32

theorem Truncates.eq_of_lt (h : Truncates p r) (hr : r < 2 ^ 32) : p.toNat = r := by
  unfold Truncates at h
  omega

theorem tableLeafFrom_of_slots {page : Word} {n : ℕ} {x : ℕ × Word} (vpns : List (BitVec 16))
    (hp : page.toNat = n ∨ page.toNat = n % 2 ^ 32)
    (hram : ∀ a ∈ slots mem n (vpns.map BitVec.toNat), InRam a)
    (h : leafFrom mem page vpns = some x) : tableLeafFrom mem n (vpns.map BitVec.toNat) = some x := by
  induction vpns generalizing n page with
  | nil => cases h
  | cons vpn vpns ih =>
    rw [List.map_cons] at hram ⊢
    have hr : InRam (n * 4096 + vpn.toNat * 8) :=
      hram _ (by unfold slots; exact List.mem_cons_self ..)
    have hpage : page.toNat = n := by
      have hlt := hr.2
      omega
    have he := entry_of_inRam hpage rfl hr mem
    rw [tableLeafFrom]
    dsimp only
    rw [if_pos hr]
    by_cases hi : Invalid (ramWord mem (n * 4096 + vpn.toNat * 8))
    · rw [leafFrom_of_invalid he hi] at h
      cases h
    by_cases hl : Leaf (ramWord mem (n * 4096 + vpn.toNat * 8))
    · rw [leafFrom_of_leaf he hi hl] at h
      rw [if_neg hi, if_pos hl, List.length_map, h]
    · rw [leafFrom_of_pointer he hi hl] at h
      rw [if_neg hi, if_neg hl]
      rw [slots_of_pointer hi hl] at hram
      exact ih (.inr (ppn_toNat _)) (fun a ha => hram a (List.mem_cons_of_mem _ ha)) h

theorem tableLeaf_of_visited {x : ℕ × Word} (hram : ∀ a ∈ visited c mem va, InRam a)
    (h : leaf c mem va = some x) : tableLeaf c mem va = some x := by
  rw [visited, vpns_eq_map] at hram
  rw [tableLeaf, vpns_eq_map]
  exact tableLeafFrom_of_slots _ (.inl rfl) hram h

theorem requested_truncates (hram : Walks c ty cp → ∀ a ∈ visited c mem va, InRam a)
    (h : translate c mem va ty cp = .ok p) (hp : p ≠ -1) :
    Truncates p (requested c mem va ty cp) := by
  unfold requested
  by_cases hw : Walks c ty cp
  · rw [translate_of_walks hw, walk_granted_iff hp] at h
    obtain ⟨k, w, hl, -, hpa⟩ := h
    rw [if_pos hw, tableLeaf_of_visited (hram hw) hl]
    exact .inr hpa
  · rw [if_neg hw]
    rcases translate_of_not_walks mem va hw with ht | ht | ⟨-, ht⟩
    · rw [ht] at h
      cases h
      exact .inl rfl
    · rw [ht] at h
      cases h
      exact absurd rfl hp
    · rw [ht] at h
      cases h

theorem translate_ok (hmode : c.satp.mode ≠ 9)
    (hram : Walks c ty cp → ∀ a ∈ visited c mem va, InRam a) :
    ∃ p, translate c mem va ty cp = .ok p := by
  by_cases hw : Walks c ty cp
  · obtain ⟨p, hp, -⟩ := walk_spec ty (hram hw)
    exact ⟨p, (translate_of_walks hw).trans hp⟩
  · rcases translate_of_not_walks mem va hw with ht | ht | ⟨h9, -⟩
    · exact ⟨_, ht⟩
    · exact ⟨_, ht⟩
    · exact absurd h9 hmode

theorem mode_of_ok (h : translate c mem va ty cp = .ok p) : c.satp.mode ≠ 9 := by
  intro h9
  unfold translate at h
  simp only [h9] at h
  cases h

theorem mapped_iff {f : ℕ → Word → List Access} {P : ℕ → Prop} {stops : Prop}
    (herror : ∀ h, translate c mem va ty cp = .error h → stops)
    (hfault : translate c mem va ty cp = .ok (-1) → (¬ stops ↔ Handled ty.pageFault cp c))
    (hgo : ∀ p, translate c mem va ty cp = .ok p → p ≠ -1 →
      Truncates p (requested c mem va ty cp) →
      ((∀ a ∈ f (requested c mem va ty cp) p, a.Proper) ∧ ¬ stops ↔
        P (requested c mem va ty cp))) :
    (∀ a ∈ mapped c mem va ty cp f, a.Proper) ∧ ¬ stops ↔ Mapped c mem va ty cp P := by
  unfold mapped
  rw [List.forall_mem_append, translateReads_proper_iff]
  -- with an entry outside RAM both sides fail, whatever `translate` makes of it
  by_cases hram : Walks c ty cp → ∀ a ∈ visited c mem va, InRam a
  swap
  · exact iff_of_false (fun hx => hram hx.1.1) fun hx => hram hx.entries
  cases ht : translate c mem va ty cp with
  | error h =>
    refine iff_of_false (fun hx => hx.2 (herror h ht)) fun hx => ?_
    obtain ⟨p, hp⟩ := translate_ok hx.mode hram
    rw [ht] at hp
    cases hp
  | ok p =>
    have hmode := mode_of_ok ht
    dsimp only
    by_cases hp : p = -1
    · subst hp
      rw [if_pos rfl, hfault ht]
      exact ⟨fun hx => ⟨hmode, hram, fun _ => hx.2, fun hne => absurd ht hne⟩,
        fun hx => ⟨⟨hram, nofun⟩, hx.faults ht⟩⟩
    · rw [if_neg hp, and_assoc, hgo p ht hp (requested_truncates hram ht hp)]
      have hne : translate c mem va ty cp ≠ .ok (-1) := fun hx => by
        rw [ht] at hx
        exact hp (Except.ok.inj hx)
      exact ⟨fun hx => ⟨hmode, hram, fun hf => absurd hf hne, fun _ => hx.2⟩,
        fun hx => ⟨hram, hx.goes hne⟩⟩

/-! ### Where the program ends -/

def Res.Stops (x : Res) : Prop := ∃ h s, x = .stop h s

theorem Res.stops_stop (h : Halt) (s : State) : (Res.stop h s).Stops := ⟨h, s, rfl⟩

theorem Res.not_stops_fall (s : State) : ¬ (Res.fall s).Stops := by
  rintro ⟨h, t, hx⟩
  cases hx

theorem raiseExcep_stops_iff (pc ecode : Word) (m : Machine) :
    (∃ h m', raiseExcep pc ecode m = .stop h m') ↔ ¬ Handled ecode m.cp m.csr := by
  cases hr : raiseExcep pc ecode m with
  | stop h m' =>
    refine iff_of_true ⟨h, m', rfl⟩ ?_
    rintro ⟨k, ht, hk⟩
    rw [raiseExcep_of_mode ht hk] at hr
    cases hr
  | ret u m' =>
    obtain ⟨k, ht, hk, -⟩ := raiseExcep_ret hr
    exact iff_of_false (by rintro ⟨h, t, hx⟩; cases hx) (not_not.mpr ⟨k, ht, hk⟩)

theorem loadPageFault_stops_iff :
    (loadPageFault va s).Stops ↔ ¬ Handled causeLoadPageFault s.cp s.csr := by
  refine Iff.trans ?_ (raiseExcep_stops_iff s.pc _ (setMtval s.toMachine va))
  unfold loadPageFault
  cases raiseExcep s.pc causeLoadPageFault (setMtval s.toMachine va) with
  | stop h m => exact iff_of_true ⟨h, _, rfl⟩ ⟨h, m, rfl⟩
  | ret u m =>
    refine iff_of_false ?_ ?_
    · rintro ⟨h, t, hx⟩
      cases hx
    · rintro ⟨h, t, hx⟩
      cases hx

theorem storePageFault_stops_iff :
    (storePageFault va s).Stops ↔ ¬ Handled causeStorePageFault s.cp s.csr := by
  refine Iff.trans ?_ (raiseExcep_stops_iff s.pc _ s.toMachine)
  unfold storePageFault
  cases raiseExcep s.pc causeStorePageFault s.toMachine with
  | stop h m => exact iff_of_true ⟨h, _, rfl⟩ ⟨h, m, rfl⟩
  | ret u m =>
    refine iff_of_false ?_ ?_
    · rintro ⟨h, t, hx⟩
      cases hx
    · rintro ⟨h, t, hx⟩
      cases hx

/-! ### Devices -/

def InClint (p : Word) : Prop := p ≥ clintBase ∧ p ≤ clintBase + clintSize

def InPlic (p : Word) : Prop := p ≥ plicBase ∧ p ≤ plicBase + plicSize

def InVirtio (p : Word) : Prop := p ≥ virtioBase ∧ p ≤ virtioBase + virtioSize

def InPeripheral (p : Word) : Prop := InClint p ∨ InPlic p ∨ InVirtio p

instance (p : Word) : Decidable (InClint p) := inferInstanceAs (Decidable (_ ∧ _))

instance (p : Word) : Decidable (InVirtio p) := inferInstanceAs (Decidable (_ ∧ _))

instance (p : Word) : Decidable (InPeripheral p) :=
  inferInstanceAs (Decidable (_ ∧ _ ∨ _ ∧ _ ∨ _ ∧ _))

def Peripheral (r : ℕ) : Prop := ∃ p : Word, p.toNat = r ∧ InPeripheral p

theorem InPeripheral.lt (h : InPeripheral p) : p.toNat < 2 ^ 31 := by
  rcases h with ⟨-, h⟩ | ⟨-, h⟩ | ⟨-, h⟩
  · have hle : p.toNat ≤ 0x20c0000 := BitVec.le_def.mp h
    omega
  · have hle : p.toNat ≤ 0x40500000 := BitVec.le_def.mp h
    omega
  · have hle : p.toNat ≤ 0x40011000 := BitVec.le_def.mp h
    omega

theorem Truncates.inPeripheral (h : Truncates p r) (hr : Peripheral r) :
    p.toNat = r ∧ InPeripheral p := by
  obtain ⟨q, rfl, hq⟩ := hr
  have hp : p.toNat = q.toNat := h.eq_of_lt (Nat.lt_trans hq.lt (by decide))
  exact ⟨hp, BitVec.eq_of_toNat_eq hp ▸ hq⟩

/-! ### The paths -/

theorem loadPeripheral_of_not {m : Machine} (h : ¬ InPeripheral p) :
    loadPeripheral inp p m = .stop (.exit 0) m := by
  unfold loadPeripheral
  split
  · rename_i h1
    exact absurd (.inl h1) h
  split
  · rename_i h2
    exact absurd (.inr (.inl h2)) h
  split
  · rename_i h3
    exact absurd (.inr (.inr h3)) h
  · rfl

theorem loadPeripheral_of (inp : Input) (m : Machine) (h : InPeripheral p) :
    ∃ v m', loadPeripheral inp p m = .ret v m' := by
  unfold loadPeripheral
  split
  · exact ⟨_, _, rfl⟩
  rename_i h1
  split
  · exact ⟨_, _, rfl⟩
  rename_i h2
  split
  · exact ⟨_, _, rfl⟩
  · rename_i h3
    exact absurd h (not_or.mpr ⟨h1, not_or.mpr ⟨h2, h3⟩⟩)

def loadAccess (r : ℕ) (p : Word) : List Access :=
  if p ≥ dramBase then if p - dramBase > dramSize then [] else [.memory r ((p - dramBase) / 8)]
  else if InPeripheral p then [.device r p] else []

def amoAccess (r : ℕ) (p : Word) : List Access :=
  if p > dramBase then [.memory r ((p - dramBase) / 8)] else []

def fetchAccess (r : ℕ) (p : Word) : List Access :=
  if p ≥ dramBase then [.memory r ((p - dramBase) / 4 / 2)] else []

def DeviceAct.address? : DeviceAct → Option Word
  | .read8 addr | .read16 addr | .read32 addr => some addr
  | .write8 addr _ | .write16 addr _ | .write32 addr _ => some addr
  | .setIrq _ => none

/-- The DMA accesses, up to the first at which `memory.at` throws. -/
def dmaAccesses : List DeviceAct → List Access
  | [] => []
  | a :: as =>
    match a.address? with
    | none => dmaAccesses as
    | some addr => .memory addr.toNat ((addr - dramBase) / 8) ::
        if (cell? ((addr - dramBase) / 8)).isSome then dmaAccesses as else []

def virtioActs (inp : Input) (p v : Word) (mem : Memory) : List DeviceAct :=
  inp.virtioMmioWrite ((p - virtioBase).setWidth 32) ((v &&& 0xFFFFFFFF).setWidth 32) mem

def storeAccess (inp : Input) (v : Word) (mem : Memory) (r : ℕ) (p : Word) : List Access :=
  if p ≥ dramBase then
    if p - dramBase ≥ (1 : Word) <<< 28 then [] else [.memory r ((p - dramBase) / 8)]
  else if InVirtio p then .device r p :: dmaAccesses (virtioActs inp p v mem)
  else if InPeripheral p then [.device r p]
  else []

theorem toNat_ram_index (h : dramBase ≤ p) :
    ((p - dramBase) / 8).toNat = (p.toNat - 2 ^ 31) / 8 := by
  rw [BitVec.toNat_udiv, toNat_sub_base h]
  rfl

theorem proper_ram (hb : dramBase ≤ p) (hr : p.toNat = r) (hin : InRam r) :
    (Access.memory r ((p - dramBase) / 8)).Proper := by
  apply proper_of_inRam hin
  rw [toNat_ram_index hb, hr]

theorem cell?_isSome_of_proper {i : Word} (h : (Access.memory r i).Proper) :
    ∃ c, cell? i = some c := by
  unfold cell?
  rw [dif_pos h.1]
  exact ⟨_, rfl⟩

theorem base_le_of_inRam (hp : p.toNat = r) (h : InRam r) : dramBase ≤ p :=
  base_le_iff.mpr (hp ▸ h.1)

theorem not_base_le_of_lt (h : p.toNat < 2 ^ 31) : ¬ p ≥ dramBase :=
  fun hb => absurd (base_le_iff.mp hb) (Nat.not_le.mpr h)

theorem loadMapped_iff (inp : Input) (m : Machine) (ht : Truncates p r) :
    (∀ a ∈ loadAccess r p, a.Proper) ∧ ¬ (∃ h m', loadMapped inp p m = .stop h m') ↔
      InRam r ∨ Peripheral r := by
  unfold loadAccess loadMapped
  constructor
  · rintro ⟨ha, hs⟩
    by_cases hb : p ≥ dramBase
    · rw [if_pos hb] at ha hs
      dsimp only at hs
      by_cases hlim : p - dramBase > dramSize
      · rw [if_pos hlim] at hs
        exact absurd ⟨_, _, rfl⟩ hs
      · -- `dramSize` itself passes the test of the source, but its index is not proper
        rw [if_neg hlim] at ha
        exact .inl (inRam_of_proper (ha _ (List.mem_cons_self ..)))
    · rw [if_neg hb] at ha hs
      by_cases hd : InPeripheral p
      · rw [if_pos hd] at ha
        exact .inr ⟨p, ha _ (List.mem_cons_self ..), hd⟩
      · rw [loadPeripheral_of_not hd] at hs
        exact absurd ⟨_, _, rfl⟩ hs
  · rintro (hr | hr)
    · have hp := ht.eq_of_lt hr.2
      have hb := base_le_of_inRam hp hr
      have hlim : ¬ p - dramBase > dramSize := by
        rw [gt_iff_lt, BitVec.lt_def, toNat_sub_base hb, hp]
        show ¬ 2 ^ 31 < r - 2 ^ 31
        have := hr.2
        omega
      have ha := proper_ram hb hp hr
      obtain ⟨c, hc⟩ := cell?_isSome_of_proper ha
      rw [if_pos hb, if_pos hb, if_neg hlim]
      dsimp only
      rw [if_neg hlim, hc]
      refine ⟨fun a h => List.mem_singleton.mp h ▸ ha, ?_⟩
      rintro ⟨h, m', hx⟩
      cases hx
    · obtain ⟨hp, hd⟩ := ht.inPeripheral hr
      have hb := not_base_le_of_lt hd.lt
      rw [if_neg hb, if_neg hb, if_pos hd]
      refine ⟨fun a h => List.mem_singleton.mp h ▸ hp, ?_⟩
      rintro ⟨h, m', hx⟩
      obtain ⟨v, m1, hl⟩ := loadPeripheral_of inp m hd
      rw [hl] at hx
      cases hx

theorem amoMapped_iff {k : Cell → State → State} (ht : Truncates p r)
    (hx : translate s.csr s.mem (s.reg (rs1 ins)) .stor s.cp = .ok p) (hp : p ≠ -1) :
    (∀ a ∈ amoAccess r p, a.Proper) ∧ ¬ (amoMapped ins s k).Stops ↔ InRam r ∧ r ≠ 2 ^ 31 := by
  rw [amoMapped_of_translate hx hp]
  unfold amoAccess
  dsimp only
  by_cases hb : p > dramBase
  · rw [if_pos hb, if_pos hb]
    have hlt : 2 ^ 31 < p.toNat := BitVec.lt_def.mp hb
    constructor
    · rintro ⟨ha, -⟩
      have hr := inRam_of_proper (ha _ (List.mem_cons_self ..))
      have hpr := ht.eq_of_lt hr.2
      exact ⟨hr, by omega⟩
    · rintro ⟨hr, -⟩
      have ha := proper_ram (BitVec.le_of_lt hb) (ht.eq_of_lt hr.2) hr
      obtain ⟨c, hc⟩ := cell?_isSome_of_proper ha
      rw [hc]
      exact ⟨fun a h => List.mem_singleton.mp h ▸ ha, Res.not_stops_fall _⟩
  · rw [if_neg hb, if_neg hb]
    refine iff_of_false (fun h => h.2 (Res.stops_stop _ _)) ?_
    rintro ⟨hr, hne⟩
    have hpr := ht.eq_of_lt hr.2
    have hle : ¬ 2 ^ 31 < p.toNat := fun hlt => hb (BitVec.lt_def.mpr hlt)
    have := hr.1
    omega

theorem fetch_iff {m : Machine} (ht : Truncates p r)
    (hx : translate m.csr m.mem m.pc .inst m.cp = .ok p) (hp : p ≠ -1)
    (hu : ¬(m.cp = .umode ∧ m.pc = 0)) :
    (∀ a ∈ fetchAccess r p, a.Proper) ∧ ¬ (∃ h, fetch m = .stop h) ↔ InRam r := by
  unfold fetch fetchAccess
  rw [hx]
  dsimp only
  rw [if_neg hu, if_neg hp]
  by_cases hb : p ≥ dramBase
  · rw [if_pos hb, if_pos hb]
    constructor
    · exact fun h => inRam_of_proper (h.1 _ (List.mem_cons_self ..))
    · intro hr
      have hi : ((p - dramBase) / 4 / 2).toNat = (r - 2 ^ 31) / 8 := by
        rw [BitVec.toNat_udiv, BitVec.toNat_udiv, toNat_sub_base hb, ht.eq_of_lt hr.2]
        exact Nat.div_div_eq_div_mul ..
      have ha := proper_of_inRam hr hi
      obtain ⟨c, hc⟩ := cell?_isSome_of_proper ha
      refine ⟨fun a h => List.mem_singleton.mp h ▸ ha, ?_⟩
      rintro ⟨h, hf⟩
      rw [getINST, hc] at hf
      cases hf
  · rw [if_neg hb, if_neg hb]
    exact iff_of_false (fun h => h.2 ⟨_, rfl⟩)
      fun hr => hb (base_le_of_inRam (ht.eq_of_lt hr.2) hr)

/-! ### DMA -/

def DmaInRam (as : List DeviceAct) : Prop := ∀ a ∈ as, ∀ addr ∈ a.address?, InRam addr.toNat

theorem proper_dma_iff {addr : Word} :
    (Access.memory addr.toNat ((addr - dramBase) / 8)).Proper ↔ InRam addr.toNat :=
  ⟨inRam_of_proper, fun h => proper_ram (base_le_of_inRam rfl h) rfl h⟩

theorem dmaAccesses_iff (as : List DeviceAct) :
    (∀ a ∈ dmaAccesses as, a.Proper) ↔ DmaInRam as := by
  unfold DmaInRam
  induction as with
  | nil => exact iff_of_true nofun nofun
  | cons a as ih =>
    rw [List.forall_mem_cons, dmaAccesses]
    cases ha : a.address? with
    | none =>
      dsimp only
      rw [ih]
      exact ⟨fun h => ⟨nofun, h⟩, fun h => h.2⟩
    | some addr =>
      dsimp only
      rw [List.forall_mem_cons, proper_dma_iff]
      have haddr : (∀ x ∈ some addr, InRam x.toNat) ↔ InRam addr.toNat := by
        simp only [Option.mem_def, Option.some.injEq, forall_eq']
      rw [haddr]
      refine and_congr_right fun hr => ?_
      obtain ⟨c, hc⟩ := cell?_isSome_of_proper (proper_dma_iff.mpr hr)
      rw [hc, ← ih]
      rfl

theorem dmaRead_stop {b : Bool} {m m' : Machine} {h : Halt} (hx : dmaRead b m = .stop h m') :
    h = .outOfRange := by
  cases b with
  | true => cases hx
  | false =>
    cases hx
    rfl

theorem dmaWrite_stop {t : Option (Cell × Word)} {m m' : Machine} {h : Halt}
    (hx : dmaWrite t m = .stop h m') : h = .outOfRange := by
  cases t with
  | none =>
    cases hx
    rfl
  | some cv => cases hx

theorem deviceAct_stop {a : DeviceAct} {m m' : Machine} {h : Halt}
    (hx : deviceAct a m = .stop h m') : h = .outOfRange := by
  cases a with
  | read8 => exact dmaRead_stop hx
  | read16 => exact dmaRead_stop hx
  | read32 => exact dmaRead_stop hx
  | write8 => exact dmaWrite_stop hx
  | write16 => exact dmaWrite_stop hx
  | write32 => exact dmaWrite_stop hx
  | setIrq => cases hx

theorem deviceAct_ret {a : DeviceAct} (m : Machine) (h : ∀ addr ∈ a.address?, InRam addr.toNat) :
    ∃ m', deviceAct a m = .ret () m' := by
  have hcell (addr : Word) (ha : addr ∈ a.address?) :
      ∃ c, cell? ((addr - dramBase) / 8) = some c :=
    cell?_isSome_of_proper (proper_dma_iff.mpr (h addr ha))
  cases a with
  | read8 addr =>
    obtain ⟨c, hc⟩ := hcell addr rfl
    exact ⟨m, by rw [deviceAct, memRead8, hc]; rfl⟩
  | read16 addr =>
    obtain ⟨c, hc⟩ := hcell addr rfl
    exact ⟨m, by rw [deviceAct, memRead16, hc]; rfl⟩
  | read32 addr =>
    obtain ⟨c, hc⟩ := hcell addr rfl
    exact ⟨m, by rw [deviceAct, memRead32, hc]; rfl⟩
  | write8 addr data =>
    obtain ⟨c, hc⟩ := hcell addr rfl
    exact ⟨_, by rw [deviceAct, memWrite8, memWrite, hc]; rfl⟩
  | write16 addr data =>
    obtain ⟨c, hc⟩ := hcell addr rfl
    exact ⟨_, by rw [deviceAct, memWrite16, memWrite, hc]; rfl⟩
  | write32 addr data =>
    obtain ⟨c, hc⟩ := hcell addr rfl
    exact ⟨_, by rw [deviceAct, memWrite32, memWrite, hc]; rfl⟩
  | setIrq state => exact ⟨_, rfl⟩

theorem deviceActs_ret {as : List DeviceAct} (m : Machine) (h : DmaInRam as) :
    ∃ m', deviceActs as m = .ret () m' := by
  induction as generalizing m with
  | nil => exact ⟨m, rfl⟩
  | cons a as ih =>
    obtain ⟨m1, h1⟩ := deviceAct_ret m (h a (List.mem_cons_self ..))
    obtain ⟨m2, h2⟩ := ih m1 fun b hb => h b (List.mem_cons_of_mem _ hb)
    exact ⟨m2, by rw [deviceActs, h1]; exact h2⟩

/-! ### Stores -/

def StoreHandles (r : ℕ) : Prop := (InRam r ∧ r < 2 ^ 31 + 2 ^ 28) ∨ Peripheral r

theorem InVirtio.not_others (h : InVirtio p) : ¬ InClint p ∧ ¬ InPlic p := by
  have hlo : 0x40010000 ≤ p.toNat := BitVec.le_def.mp h.1
  have hhi : p.toNat ≤ 0x40011000 := BitVec.le_def.mp h.2
  refine ⟨fun hc => ?_, fun hc => ?_⟩
  · have hle : p.toNat ≤ 0x20c0000 := BitVec.le_def.mp hc.2
    omega
  · have hle : 0x40100000 ≤ p.toNat := BitVec.le_def.mp hc.1
    omega

theorem storePeripheral_virtio {m : Machine} (v : Word) (h : InVirtio p) :
    storePeripheral inp p v m = deviceActs (virtioActs inp p v m.mem) m := by
  obtain ⟨h1, h2⟩ := h.not_others
  unfold storePeripheral
  split
  · rename_i hc
    exact absurd hc h1
  split
  · rename_i hc
    exact absurd hc h2
  split
  · rfl
  · rename_i hc
    exact absurd h hc

theorem storePeripheral_other (inp : Input) (m : Machine) (v : Word) (h : InPeripheral p)
    (hv : ¬ InVirtio p) :
    ∃ m', storePeripheral inp p v m = .ret () m' := by
  unfold storePeripheral
  split
  · exact ⟨_, rfl⟩
  rename_i h1
  split
  · exact ⟨_, rfl⟩
  rename_i h2
  exact absurd h (not_or.mpr ⟨h1, not_or.mpr ⟨h2, hv⟩⟩)

theorem storePeripheral_of_not {m : Machine} (v : Word) (h : ¬ InPeripheral p) :
    storePeripheral inp p v m = .stop (.exit 0) m := by
  unfold storePeripheral
  split
  · rename_i h1
    exact absurd (.inl h1) h
  split
  · rename_i h2
    exact absurd (.inr (.inl h2)) h
  split
  · rename_i h3
    exact absurd (.inr (.inr h3)) h
  · rfl

theorem storeRam_iff (ht : Truncates p r) (hb : p ≥ dramBase) (v : Word) (mem : Memory) :
    (∀ a ∈ storeAccess inp v mem r p, a.Proper) ∧ ¬ (storeRam ins p s).Stops ↔
      StoreHandles r := by
  have hsub := toNat_sub_base hb
  have hpb := base_le_iff.mp hb
  unfold storeAccess storeRam
  rw [if_pos hb]
  dsimp only
  by_cases hlim : p - dramBase ≥ (1 : Word) <<< 28
  · rw [if_pos hlim, if_pos hlim]
    have hle : 2 ^ 28 ≤ p.toNat - 2 ^ 31 := hsub ▸ BitVec.le_def.mp hlim
    refine iff_of_false (fun h => h.2 (Res.stops_stop _ _)) ?_
    -- the arm exits, and so handles neither RAM nor a device here
    rintro (⟨hr, hlt⟩ | hr)
    · have := ht.eq_of_lt hr.2
      omega
    · obtain ⟨-, hd⟩ := ht.inPeripheral hr
      exact not_base_le_of_lt hd.lt hb
  · rw [if_neg hlim, if_neg hlim]
    have hlt : p.toNat - 2 ^ 31 < 2 ^ 28 := hsub ▸ BitVec.lt_def.mp (BitVec.not_le.mp hlim)
    constructor
    · rintro ⟨ha, -⟩
      have hr := inRam_of_proper (ha _ (List.mem_cons_self ..))
      have hpr := ht.eq_of_lt hr.2
      exact .inl ⟨hr, by omega⟩
    · rintro (⟨hr, -⟩ | hr)
      · have ha := proper_ram hb (ht.eq_of_lt hr.2) hr
        obtain ⟨c, hc⟩ := cell?_isSome_of_proper ha
        rw [hc]
        exact ⟨fun a h => List.mem_singleton.mp h ▸ ha, Res.not_stops_fall _⟩
      · obtain ⟨-, hd⟩ := ht.inPeripheral hr
        exact absurd hb (not_base_le_of_lt hd.lt)

theorem storePeripheral_iff (ht : Truncates p r) (hb : ¬ p ≥ dramBase) (v : Word) (m : Machine)
    (hdma : DmaInRam (virtioActs inp p v m.mem)) :
    (∀ a ∈ storeAccess inp v m.mem r p, a.Proper) ∧
        ¬ (∃ h m', storePeripheral inp p v m = .stop h m') ↔ StoreHandles r := by
  have hram : ¬ (InRam r ∧ r < 2 ^ 31 + 2 ^ 28) :=
    fun h => hb (base_le_of_inRam (ht.eq_of_lt h.1.2) h.1)
  unfold storeAccess StoreHandles
  rw [if_neg hb, or_iff_right hram]
  by_cases hv : InVirtio p
  · rw [if_pos hv, storePeripheral_virtio v hv, List.forall_mem_cons, dmaAccesses_iff]
    obtain ⟨m1, h1⟩ := deviceActs_ret m hdma
    rw [h1]
    constructor
    · rintro ⟨⟨hp, -⟩, -⟩
      exact ⟨p, hp, .inr (.inr hv)⟩
    · intro hr
      refine ⟨⟨(ht.inPeripheral hr).1, hdma⟩, ?_⟩
      rintro ⟨h, m', hx⟩
      cases hx
  rw [if_neg hv]
  by_cases hd : InPeripheral p
  · rw [if_pos hd]
    obtain ⟨m1, h1⟩ := storePeripheral_other inp m v hd hv
    rw [h1]
    constructor
    · rintro ⟨ha, -⟩
      exact ⟨p, ha _ (List.mem_cons_self ..), hd⟩
    · intro hr
      refine ⟨fun a h => List.mem_singleton.mp h ▸ (ht.inPeripheral hr).1, ?_⟩
      rintro ⟨h, m', hx⟩
      cases hx
  · rw [storePeripheral_of_not v hd]
    exact iff_of_false (fun h => h.2 ⟨_, _, rfl⟩) fun h => hd (ht.inPeripheral h).2

/-! ### The arms and the fetch -/

/-- The accesses of the arm that executes `ins`. The other arms make none. -/
def armAccesses (inp : Input) (ins : Word) (s : State) : List Access :=
  match opcode ins with
  | .load =>
    if Path.load.address ins s.toMachine ∈ Path.load.console then []
    else mapped s.csr s.mem (Path.load.address ins s.toMachine) .load s.cp loadAccess
  | .store =>
    if Path.store.address ins s.toMachine ∈ Path.store.console then []
    else mapped s.csr s.mem (Path.store.address ins s.toMachine) .stor s.cp
      (storeAccess inp (s.reg (rs2 ins)) s.mem)
  | .amo =>
    match (func3 ins).toNat with
    | 0b010 | 0b011 => mapped s.csr s.mem (s.reg (rs1 ins)) .stor s.cp amoAccess
    | _ => []
  | _ => []

def IsAccess (ins : Word) : Prop := opcode ins = .load ∨ opcode ins = .store ∨ opcode ins = .amo

/-- The arm's page-table entries are in RAM, and it faults, with a handler, or its physical address is
one that it handles. -/
def ArmHandles (ins : Word) (s : State) : Prop :=
  match opcode ins with
  | .load => Path.load.address ins s.toMachine ∈ Path.load.console ∨
      Mapped s.csr s.mem (Path.load.address ins s.toMachine) .load s.cp
        fun r => InRam r ∨ Peripheral r
  | .store => Path.store.address ins s.toMachine ∈ Path.store.console ∨
      Mapped s.csr s.mem (Path.store.address ins s.toMachine) .stor s.cp StoreHandles
  | .amo =>
    match (func3 ins).toNat with
    | 0b010 | 0b011 => Mapped s.csr s.mem (s.reg (rs1 ins)) .stor s.cp
        fun r => InRam r ∧ r ≠ 2 ^ 31
    | _ => True
  | _ => True

def fetchAccesses (m : Machine) : List Access :=
  mapped m.csr m.mem m.pc .inst m.cp fun r p =>
    if m.cp = .umode ∧ m.pc = 0 then [] else fetchAccess r p

def FetchStops (m : Machine) : Prop :=
  (∃ h, fetch m = .stop h) ∨ fetch m = .fault ∧ ∃ h m', fetchFault m = .stop h m'

def FetchHandles (m : Machine) : Prop :=
  ¬(m.cp = .umode ∧ m.pc = 0) ∧ Mapped m.csr m.mem m.pc .inst m.cp InRam

theorem load_iff (hq : Path.load.address ins s.toMachine ∉ Path.load.console) :
    (∀ a ∈ mapped s.csr s.mem (Path.load.address ins s.toMachine) .load s.cp loadAccess,
        a.Proper) ∧ ¬ (armLoad inp ins s).Stops ↔
      Mapped s.csr s.mem (Path.load.address ins s.toMachine) .load s.cp
        fun r => InRam r ∨ Peripheral r := by
  apply mapped_iff
  · intro h ht
    exact ⟨h, _, armLoad_error hq ht⟩
  · intro ht
    rw [armLoad_translated hq ht]
    dsimp only
    rw [if_pos rfl, loadPageFault_stops_iff, not_not]
    rfl
  · intro p ht hp htr
    rw [armLoad_translated hq ht, ← loadMapped_iff inp s.toMachine htr]
    dsimp only
    rw [if_neg hp]
    refine and_congr_right' (not_congr ?_)
    cases hl : loadMapped inp p s.toMachine with
    | stop h m => exact iff_of_true (Res.stops_stop _ _) ⟨h, m, rfl⟩
    | ret x m => exact iff_of_false (Res.not_stops_fall _) (by rintro ⟨h, m', ⟨⟩⟩)

theorem store_iff (hq : Path.store.address ins s.toMachine ∉ Path.store.console)
    (hdma : ∀ p, DmaInRam (virtioActs inp p (s.reg (rs2 ins)) s.mem)) :
    (∀ a ∈ mapped s.csr s.mem (Path.store.address ins s.toMachine) .stor s.cp
        (storeAccess inp (s.reg (rs2 ins)) s.mem), a.Proper) ∧ ¬ (armStore inp ins s).Stops ↔
      Mapped s.csr s.mem (Path.store.address ins s.toMachine) .stor s.cp StoreHandles := by
  apply mapped_iff
  · intro h ht
    exact ⟨h, _, armStore_error hq ht⟩
  · intro ht
    rw [armStore_translated hq ht]
    dsimp only
    rw [if_pos rfl, storePageFault_stops_iff, not_not]
    rfl
  · intro p ht hp htr
    rw [armStore_translated hq ht]
    dsimp only
    rw [if_neg hp]
    by_cases hb : p ≥ dramBase
    · rw [if_pos hb]
      exact storeRam_iff htr hb _ _
    · rw [if_neg hb, ← storePeripheral_iff htr hb _ _ (hdma p)]
      refine and_congr_right' (not_congr ?_)
      cases hl : storePeripheral inp p (s.reg (rs2 ins)) s.toMachine with
      | stop h m => exact iff_of_true (Res.stops_stop _ _) ⟨h, m, rfl⟩
      | ret x m => exact iff_of_false (Res.not_stops_fall _) (by rintro ⟨h, m', ⟨⟩⟩)

theorem amo_iff {k : Cell → State → State} :
    (∀ a ∈ mapped s.csr s.mem (s.reg (rs1 ins)) .stor s.cp amoAccess, a.Proper) ∧
        ¬ (amoMapped ins s k).Stops ↔
      Mapped s.csr s.mem (s.reg (rs1 ins)) .stor s.cp fun r => InRam r ∧ r ≠ 2 ^ 31 := by
  apply mapped_iff
  · intro h ht
    exact ⟨h, _, amoMapped_error ht⟩
  · intro ht
    rw [amoMapped_fault ht, storePageFault_stops_iff, not_not]
    rfl
  · intro p ht hp htr
    exact amoMapped_iff htr ht hp

/-- The accesses of an arm are proper and the arm does not end the program exactly where it handles its
address, if the DMA of the device is in RAM. -/
theorem arm_iff (hi : IsAccess ins)
    (hdma : ∀ p, DmaInRam (virtioActs inp p (s.reg (rs2 ins)) s.mem)) :
    (∀ a ∈ armAccesses inp ins s, a.Proper) ∧ ¬ (execute inp ins s).Stops ↔ ArmHandles ins s := by
  unfold armAccesses ArmHandles
  rcases hi with ho | ho | ho
  · rw [execute_load ho, ho]
    dsimp only
    by_cases hq : Path.load.address ins s.toMachine ∈ Path.load.console
    · obtain ⟨t, ht⟩ := armLoad_console hq
      rw [if_pos hq, ht]
      exact iff_of_true ⟨nofun, Res.not_stops_fall _⟩ (.inl hq)
    · rw [if_neg hq, load_iff hq, or_iff_right hq]
  · rw [execute_store ho, ho]
    dsimp only
    by_cases hq : Path.store.address ins s.toMachine ∈ Path.store.console
    · obtain ⟨t, ht⟩ := armStore_console hq
      rw [if_pos hq, ht]
      exact iff_of_true ⟨nofun, Res.not_stops_fall _⟩ (.inl hq)
    · rw [if_neg hq, store_iff hq hdma, or_iff_right hq]
  · rw [execute_amo ho, ho]
    unfold armAmo
    generalize (func3 ins).toNat = k
    have hother : (∀ a ∈ ([] : List Access), a.Proper) ∧ ¬ (Res.fall s).Stops ↔ True :=
      iff_of_true ⟨nofun, Res.not_stops_fall _⟩ trivial
    match k with
    | 0 => exact hother
    | 1 => exact hother
    | 2 => exact amo_iff
    | 3 => exact amo_iff
    | k + 4 => exact hother

theorem fetches_iff (m : Machine) :
    (∀ a ∈ fetchAccesses m, a.Proper) ∧ ¬ FetchStops m ↔ FetchHandles m := by
  unfold FetchHandles fetchAccesses FetchStops
  by_cases hu : m.cp = .umode ∧ m.pc = 0
  · have hstop : ∃ h, fetch m = .stop h := by
      unfold fetch
      split
      · exact ⟨_, rfl⟩
      · rw [if_pos hu]
        exact ⟨_, rfl⟩
    exact iff_of_false (fun h => h.2 (.inl hstop)) fun h => h.1 hu
  rw [and_iff_right hu]
  apply mapped_iff
  · intro h ht
    unfold fetch
    rw [ht]
    exact .inl ⟨_, rfl⟩
  · intro ht
    have hfault := fetch_of_fault hu ht
    have hstop : ¬ ∃ h, fetch m = .stop h := by
      rintro ⟨h, hx⟩
      rw [hfault] at hx
      cases hx
    have hraise := raiseExcep_stops_iff (m.pc + 4) causeFetchPageFault (setMtval m m.pc)
    rw [or_iff_right hstop, and_iff_right hfault, fetchFault]
    refine Iff.trans (not_congr ?_) ((not_congr hraise).trans not_not)
    cases raiseExcep (m.pc + 4) causeFetchPageFault (setMtval m m.pc) with
    | stop h m' => exact iff_of_true ⟨h, m', rfl⟩ ⟨h, m', rfl⟩
    | ret u m' =>
      refine iff_of_false ?_ ?_
      · rintro ⟨h, t, hx⟩
        cases hx
      · rintro ⟨h, t, hx⟩
        cases hx
  · intro p ht hp htr
    rw [if_neg hu, ← fetch_iff htr ht hp hu]
    refine and_congr_right' (not_congr (or_iff_left ?_))
    -- the address is not that of a fault
    rintro ⟨hf, -⟩
    unfold fetch at hf
    rw [ht] at hf
    dsimp only at hf
    rw [if_neg hu, if_neg hp] at hf
    split at hf
    · split at hf <;> cases hf
    · cases hf

end RiscvEmu
