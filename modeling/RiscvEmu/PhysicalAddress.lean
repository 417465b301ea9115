import RiscvEmu.Sv39Protection

/-! The page numbers and physical addresses of Sv39 have 44 and 56 bits; the emulator computes them as
sums of 32 bits. -/

namespace RiscvEmu

open Sv39

variable {c : Csrs} {mem : Memory} {va p : Word} {ty : Ttype} {cp : Plevel}

/-! ### Composition of the fields -/

structure Sv39pa.InWidth (p : Sv39pa) : Prop where
  pageOffset : p.pageOffset.toNat < 2 ^ 12
  ppn0 : p.ppn0.toNat < 2 ^ 9
  ppn1 : p.ppn1.toNat < 2 ^ 9
  ppn2 : p.ppn2.toNat < 2 ^ 26

/-- `PPN2:PPN1:PPN0:offset`. -/
def Sv39pa.address (p : Sv39pa) : ℕ :=
  p.ppn2.toNat * 2 ^ 30 + p.ppn1.toNat * 2 ^ 21 + p.ppn0.toNat * 2 ^ 12 + p.pageOffset.toNat

theorem ppn_exact_iff (w : Word) : (Sv39pte.writeReg w).ppn.toNat = ppn w ↔ ppn w < 2 ^ 32 := by
  rw [ppn_toNat]
  exact Nat.mod_eq_iff_lt (by decide)

theorem readReg_exact_iff {p : Sv39pa} (h : p.InWidth) :
    p.readReg.toNat = p.address ↔ p.address < 2 ^ 32 := by
  have hsum : p.readReg.toNat = p.address % 2 ^ 32 := by
    rw [readReg_toNat, Nat.mod_eq_of_lt h.ppn2, Nat.mod_eq_of_lt h.ppn1, Nat.mod_eq_of_lt h.ppn0,
      Nat.mod_eq_of_lt h.pageOffset]
    rfl
  rw [hsum]
  exact Nat.mod_eq_iff_lt (by decide)

/-! ### The architecture's walk -/

def Sv39.page (w : Word) : Word := (w >>> 10) &&& BitVec.ofNat 64 (2 ^ 44 - 1)

theorem page_toNat (w : Word) : (page w).toNat = ppn w := toNat_field w 10 44 (by decide)

/-- The leaf that a walk with full page numbers finds, with its level. -/
def Sv39.archLeafFrom (mem : Memory) (page : Word) : List (BitVec 16) → Option (ℕ × Word)
  | [] => none
  | vpn :: vpns =>
    match entry mem page vpn with
    | none => none
    | some w =>
      if Invalid w then none
      else if Leaf w then some (vpns.length, w)
      else archLeafFrom mem (Sv39.page w) vpns

def Sv39.archLeaf (c : Csrs) (mem : Memory) (va : Word) : Option (ℕ × Word) :=
  archLeafFrom mem c.satp.ppn ((levels (Sv39va.writeReg va)).map Level.vpn)

theorem page_lt_of_entry {page w : Word} {vpn : BitVec 16} (hp : page.toNat < 2 ^ 44)
    (h : entry mem page vpn = some w) : page.toNat < 2 ^ 32 := by
  unfold entry at h
  obtain ⟨cell, hc, -⟩ := Option.map_eq_some_iff.mp h
  have hlt : (entryIndex page vpn).toNat < 2 ^ 28 := by
    rw [← cell?_eq_some.mp hc]
    exact cell.isLt
  have haddr : (page * 4096 + vpn.setWidth 64 * 8).toNat = page.toNat * 4096 + vpn.toNat * 8 := by
    have hv := vpn.isLt
    rw [BitVec.toNat_add, BitVec.toNat_mul, BitVec.toNat_mul, BitVec.toNat_setWidth]
    show (page.toNat * 4096 % 2 ^ 64 + vpn.toNat % 2 ^ 64 * 8 % 2 ^ 64) % 2 ^ 64 = _
    omega
  have hbase : dramBase.toNat = 2 ^ 31 := rfl
  unfold entryIndex at hlt
  dsimp only at hlt
  split at hlt
  · rename_i hge
    have h8 : (8 : Word).toNat = 8 := rfl
    rw [BitVec.toNat_udiv, BitVec.toNat_sub_of_le hge, haddr, hbase, h8] at hlt
    omega
  · rename_i hge
    rw [ge_iff_le, BitVec.le_def, haddr, hbase] at hge
    omega

theorem leafFrom_of_arch {page : Word} {vs : List (BitVec 16)} {x : ℕ × Word}
    (h : archLeafFrom mem page vs = some x) : leafFrom mem page vs = some x := by
  induction vs generalizing page with
  | nil => cases h
  | cons vpn vs ih =>
    unfold archLeafFrom at h
    unfold leafFrom
    cases he : entry mem page vpn with
    | none =>
      rw [he] at h
      cases h
    | some w =>
      rw [he] at h
      dsimp only at h ⊢
      by_cases hi : Invalid w
      · rw [if_pos hi] at h
        cases h
      rw [if_neg hi] at h ⊢
      by_cases hl : Leaf w
      · rw [if_pos hl] at h ⊢
        exact h
      rw [if_neg hl] at h ⊢
      -- the next table is read at its full page number, which therefore is not truncated
      have hpage : (Sv39pte.writeReg w).ppn = Sv39.page w := by
        refine BitVec.eq_of_toNat_eq ?_
        rw [page_toNat]
        refine (ppn_exact_iff w).mpr ?_
        rw [← page_toNat]
        cases vs with
        | nil => cases h
        | cons k ks =>
          unfold archLeafFrom at h
          cases he' : entry mem (Sv39.page w) k with
          | none =>
            rw [he'] at h
            cases h
          | some w' =>
            refine page_lt_of_entry ?_ he'
            rw [page_toNat]
            exact Nat.mod_lt _ (by decide)
      rw [hpage]
      exact ih h

theorem leaf_of_arch {x : ℕ × Word} (h : archLeaf c mem va = some x) :
    leaf c mem va = some x := leafFrom_of_arch h

/-! ### Translations -/

structure Sv39.TranslatesTo (c : Csrs) (mem : Memory) (va : Word) (ty : Ttype) (cp : Plevel)
    (p : Word) : Prop where
  mode : c.satp.mode = 8
  walks : ¬ Bypass c ty cp
  result : translate c mem va ty cp = .ok p
  granted : p ≠ -1

theorem Sv39.TranslatesTo.leaf (h : TranslatesTo c mem va ty cp p) :
    ∃ k w, leaf c mem va = some (k, w) ∧ p.toNat = leafAddress va k w % 2 ^ 32 := by
  have hw := h.result
  rw [translate_of_not_bypass mem va h.mode h.walks] at hw
  obtain ⟨k, w, hl, -, hp⟩ := (walk_granted_iff h.granted).mp hw
  exact ⟨k, w, hl, hp⟩

def Sv39.Composed (c : Csrs) (mem : Memory) (va p : Word) : Prop :=
  ∃ k w, archLeaf c mem va = some (k, w) ∧ p.toNat = leafAddress va k w

theorem composed_iff (h : TranslatesTo c mem va ty cp p) : Composed c mem va p ↔
    ∃ k w, archLeaf c mem va = some (k, w) ∧ leafAddress va k w < 2 ^ 32 := by
  obtain ⟨k, w, hl, hp⟩ := h.leaf
  constructor
  · rintro ⟨k', w', ha, hp'⟩
    have hlt : leafAddress va k w % 2 ^ 32 < 2 ^ 32 := Nat.mod_lt _ (by decide)
    exact ⟨k', w', ha, by omega⟩
  · rintro ⟨k', w', ha, hlt⟩
    have hsame := hl.symm.trans (leaf_of_arch ha)
    cases hsame
    exact ⟨k, w, ha, hp.trans (Nat.mod_eq_of_lt hlt)⟩

theorem frame_of_page {w : Word} (h : TranslatesTo c mem va ty cp p)
    (hl : leaf c mem va = some (0, w)) : p.toNat / 2 ^ 12 = ppn w % 2 ^ 20 := by
  obtain ⟨k, w', hl', hp⟩ := h.leaf
  cases hl.symm.trans hl'
  rw [hp]
  unfold leafAddress
  show (ppn w / 2 ^ 0 * 2 ^ 12 + va.toNat % 2 ^ 12) % 2 ^ 32 / 2 ^ 12 = _
  omega

structure Sv39.ComposesAddresses : Prop where
  ppn : ∀ w, (Sv39pte.writeReg w).ppn.toNat = ppn w
  address : ∀ p : Sv39pa, p.InWidth → p.readReg.toNat = p.address
  translation : ∀ c mem va ty cp p, TranslatesTo c mem va ty cp p → Composed c mem va p
  frames : ∀ c c' mem mem' va va' ty ty' cp cp' p p' w w', TranslatesTo c mem va ty cp p →
    TranslatesTo c' mem' va' ty' cp' p' → leaf c mem va = some (0, w) →
    leaf c' mem' va' = some (0, w') → Sv39.ppn w ≠ Sv39.ppn w' →
    p.toNat / 2 ^ 12 ≠ p'.toNat / 2 ^ 12

/-- Each composition is right exactly when its result has 32 bits, and frames are distinct when the page
numbers differ in their low 20 bits. -/
theorem address_composition_iff (v : Word) (a : Sv39pa) (c c' : Csrs) (mem mem' : Memory)
    (va va' : Word) (ty ty' : Ttype) (cp cp' : Plevel) (p p' w w' : Word) :
    ((Sv39pte.writeReg v).ppn.toNat = ppn v ↔ ppn v < 2 ^ 32) ∧
    (a.InWidth → (a.readReg.toNat = a.address ↔ a.address < 2 ^ 32)) ∧
    (TranslatesTo c mem va ty cp p → (Composed c mem va p ↔
      ∃ k w, archLeaf c mem va = some (k, w) ∧ leafAddress va k w < 2 ^ 32)) ∧
    (TranslatesTo c mem va ty cp p → TranslatesTo c' mem' va' ty' cp' p' →
      leaf c mem va = some (0, w) → leaf c' mem' va' = some (0, w') → ppn w ≠ ppn w' →
      (p.toNat / 2 ^ 12 ≠ p'.toNat / 2 ^ 12 ↔ ppn w % 2 ^ 20 ≠ ppn w' % 2 ^ 20)) := by
  refine ⟨ppn_exact_iff v, fun h => readReg_exact_iff h, fun h => composed_iff h, ?_⟩
  intro h h' hl hl' _
  rw [frame_of_page h hl, frame_of_page h' hl']

/-- The entry whose page number is `2 ^ 32`. -/
theorem not_composesAddresses : ¬ ComposesAddresses := by
  intro h
  have hppn := h.ppn (1 <<< 42)
  exact absurd hppn (by decide)

end RiscvEmu
