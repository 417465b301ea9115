import RiscvEmu.Sv39Walk
import RiscvEmu.Turn

/-! The protection that Sv39 asks for, against the accesses that `translate` grants. -/

namespace RiscvEmu

open Runs

variable {c : Csrs} {mem : Memory} {va p : Word} {ty : Ttype} {cp : Plevel}

namespace Sv39

/-! ### The rules -/

def effective (c : Csrs) (ty : Ttype) (cp : Plevel) : Plevel :=
  if ty ≠ .inst ∧ c.mstatus.mprv = 1 then Plevel.ofByte c.mstatus.mpp else cp

def Canonical (va : Word) : Prop := ∀ i < 25, va.getLsbD (39 + i) = va.getLsbD 38

def user (w : Word) : Bool := w.getLsbD 4

/-- The leaf of a page table, with its level. The tables have page numbers of 44 bits and lie in RAM:
elsewhere there is no entry. -/
def tableLeafFrom (mem : Memory) (page : ℕ) : List ℕ → Option (ℕ × Word)
  | [] => none
  | vpn :: vpns =>
    let a := page * 4096 + vpn * 8
    if InRam a then
      let w := ramWord mem a
      if Invalid w then none
      else if Leaf w then some (vpns.length, w)
      else tableLeafFrom mem (ppn w) vpns
    else none

def tableLeaf (c : Csrs) (mem : Memory) (va : Word) : Option (ℕ × Word) :=
  tableLeafFrom mem c.satp.ppn.toNat (vpns va)

/-- The leaf at which the walk of the emulator ends, with its level. -/
def leafFrom (mem : Memory) (page : Word) : List (BitVec 16) → Option (ℕ × Word)
  | [] => none
  | vpn :: vpns =>
    match entry mem page vpn with
    | none => none
    | some w =>
      if Invalid w then none
      else if Leaf w then some (vpns.length, w)
      else leafFrom mem (Sv39pte.writeReg w).ppn vpns

def leaf (c : Csrs) (mem : Memory) (va : Word) : Option (ℕ × Word) :=
  leafFrom mem c.satp.ppn ((levels (Sv39va.writeReg va)).map Level.vpn)

def leafAddress (va : Word) (k : ℕ) (w : Word) : ℕ :=
  ppn w / 2 ^ (9 * k) * 2 ^ (12 + 9 * k) + va.toNat % 2 ^ (12 + 9 * k)

/-- The rules for an access through the leaf `w` of level `k`, but for `W`. -/
structure Lawful (c : Csrs) (ty : Ttype) (priv : Plevel) (va : Word) (k : ℕ) (w : Word) :
    Prop where
  canonical : Canonical va
  aligned : ppn w % 2 ^ (9 * k) = 0
  inst : ty = .inst → executable w = true
  load : ty = .load → readable w = true ∨ (executable w = true ∧ c.mstatus.mxr = 1)
  user : priv = .umode → user w = true
  supervisor : priv = .smode → Sv39.user w = true → c.mstatus.sum = 1 ∧ ty ≠ .inst

/-- The rules allow the access, at the address `p`: the one that the leaf of the page table gives. -/
def Allows (c : Csrs) (mem : Memory) (va : Word) (ty : Ttype) (cp : Plevel) (p : Word) : Prop :=
  effective c ty cp = .mmode ∨ ∃ k w, tableLeaf c mem va = some (k, w) ∧
    Lawful c ty (effective c ty cp) va k w ∧ (ty = .stor → writable w = true) ∧
    p.toNat = leafAddress va k w

/-- No access is granted that the rules do not allow. -/
def Protects (c : Csrs) (mem : Memory) (va : Word) (ty : Ttype) (cp : Plevel) : Prop :=
  ∀ p, p ≠ -1 → translate c mem va ty cp = .ok p → Allows c mem va ty cp p

/-- A leaf that passes the tests of `translate` is the one of the page table, gives an address of 32
bits, and passes the tests that `translate` omits; and a fetch that `MPRV` exempts from translation finds
its own address mapped. -/
def Suffices (c : Csrs) (mem : Memory) (va : Word) (ty : Ttype) (cp : Plevel) : Prop :=
  effective c ty cp = .mmode ∨
    if c.mstatus.mprv = 1 ∧ c.mstatus.mpp = 3 then
      va = -1 ∨ ∃ k w, tableLeaf c mem va = some (k, w) ∧
        Lawful c ty (effective c ty cp) va k w ∧ va.toNat = leafAddress va k w
    else ∀ k w, leaf c mem va = some (k, w) → Denied ty w ∨
      (tableLeaf c mem va = some (k, w) ∧ leafAddress va k w < 2 ^ 32 ∧
        Lawful c ty (effective c ty cp) va k w)

end Sv39

open Sv39

/-! ### What the walk grants -/

def Addresses (va : Word) : List Level → Prop
  | [] => True
  | l :: ls => (∀ w, (l.pa (Sv39pte.writeReg w)).readReg.toNat =
      leafAddress va ls.length w % 2 ^ 32) ∧ Addresses va ls

theorem addresses_levels (va : Word) : Addresses va (levels (Sv39va.writeReg va)) := by
  have hoff : (Sv39va.writeReg va).pageOffset.toNat = va.toNat % 2 ^ 12 := by
    have h : (va &&& 0xFFF).toNat = va.toNat % 2 ^ 12 := Nat.and_two_pow_sub_one_eq_mod _ 12
    show (va &&& 0xFFF).toNat % 2 ^ 16 = _
    rw [h]
    omega
  refine ⟨fun w => ?_, fun w => ?_, fun w => ?_, trivial⟩
  · rw [readReg_toNat]
    dsimp only
    rw [pte_ppn2_toNat, vpn1_toNat, vpn0_toNat, hoff]
    unfold leafAddress ppn
    show _ = (w.toNat / 2 ^ 10 % 2 ^ 44 / 2 ^ 18 * 2 ^ 30 + va.toNat % 2 ^ 30) % 2 ^ 32
    omega
  · rw [readReg_toNat]
    dsimp only
    rw [pte_ppn2_toNat, pte_ppn1_toNat, vpn0_toNat, hoff]
    unfold leafAddress ppn
    show _ = (w.toNat / 2 ^ 10 % 2 ^ 44 / 2 ^ 9 * 2 ^ 21 + va.toNat % 2 ^ 21) % 2 ^ 32
    omega
  · rw [readReg_toNat]
    dsimp only
    rw [pte_ppn2_toNat, pte_ppn1_toNat, pte_ppn0_toNat, hoff]
    unfold leafAddress ppn
    show _ = (w.toNat / 2 ^ 10 % 2 ^ 44 / 2 ^ 0 * 2 ^ 12 + va.toNat % 2 ^ 12) % 2 ^ 32
    omega

section

variable {page w : Word} {vpn : BitVec 16} {vpns : List (BitVec 16)}

theorem leafFrom_of_invalid (he : entry mem page vpn = some w) (hi : Invalid w) :
    leafFrom mem page (vpn :: vpns) = none := by
  rw [leafFrom, he]
  exact if_pos hi

theorem leafFrom_of_leaf (he : entry mem page vpn = some w) (hi : ¬ Invalid w) (hl : Leaf w) :
    leafFrom mem page (vpn :: vpns) = some (vpns.length, w) := by
  rw [leafFrom, he]
  exact (if_neg hi).trans (if_pos hl)

theorem leafFrom_of_pointer (he : entry mem page vpn = some w) (hi : ¬ Invalid w)
    (hl : ¬ Leaf w) :
    leafFrom mem page (vpn :: vpns) = leafFrom mem (Sv39pte.writeReg w).ppn vpns := by
  rw [leafFrom, he]
  exact (if_neg hi).trans (if_neg hl)

/-- The leaf of a page table is the one that the emulator finds: the entries before it lie in RAM. -/
theorem leafFrom_of_table {n : ℕ} {x : ℕ × Word} (hp : page.toNat = n)
    (h : tableLeafFrom mem n (vpns.map BitVec.toNat) = some x) : leafFrom mem page vpns = some x := by
  induction vpns generalizing n page with
  | nil => cases h
  | cons vpn vpns ih =>
    rw [List.map_cons, tableLeafFrom] at h
    dsimp only at h
    split at h
    · rename_i hr
      have he := entry_of_inRam hp rfl hr mem
      generalize ramWord mem (n * 4096 + vpn.toNat * 8) = w at h he
      by_cases hi : Invalid w
      · rw [if_pos hi] at h
        cases h
      rw [if_neg hi] at h
      by_cases hl : Leaf w
      · rw [if_pos hl, List.length_map] at h
        rw [leafFrom_of_leaf he hi hl, h]
      rw [if_neg hl] at h
      rw [leafFrom_of_pointer he hi hl]
      -- the next table is in RAM, so its page number is not truncated
      refine ih ?_ h
      cases vpns with
      | nil => cases h
      | cons k ks =>
        rw [List.map_cons, tableLeafFrom] at h
        dsimp only at h
        split at h
        · rename_i hr'
          exact ppn_of_inRam hr'
        · cases h
    · cases h

theorem finishLeaf_granted_iff {pa : Sv39pa} {n : ℕ} (hn : pa.readReg.toNat = n) (hp : p ≠ -1) :
    finishLeaf ty (Sv39pte.writeReg w) pa = p ↔ ¬ Denied ty w ∧ p.toNat = n := by
  by_cases hd : Denied ty w
  · rw [finishLeaf_denied _ hd]
    exact iff_of_false (fun h => hp h.symm) fun h => h.1 hd
  · rw [finishLeaf_allowed _ hd, ← hn, ← BitVec.toNat_inj, eq_comm]
    exact ⟨fun h => ⟨hd, h⟩, fun h => h.2⟩

end

theorem vpns_eq_map (va : Word) :
    vpns va = ((levels (Sv39va.writeReg va)).map Level.vpn).map BitVec.toNat := by
  rw [vpns_eq_levels, List.map_map]
  rfl

theorem leaf_of_table {x : ℕ × Word} (h : tableLeaf c mem va = some x) : leaf c mem va = some x := by
  rw [tableLeaf, vpns_eq_map] at h
  exact leafFrom_of_table rfl h

theorem walkFrom_granted_iff {ls : List Level} (ha : Addresses va ls) (hp : p ≠ -1)
    (page : Word) : walkFrom mem ty page ls = .ok p ↔
      ∃ k w, leafFrom mem page (ls.map Level.vpn) = some (k, w) ∧ ¬ Denied ty w ∧
        p.toNat = leafAddress va k w % 2 ^ 32 := by
  have hfault : ¬(Except.ok (-1) : Except Halt Word) = .ok p := fun h => hp (Except.ok.inj h).symm
  induction ls generalizing page with
  | nil =>
    refine iff_of_false hfault ?_
    rintro ⟨k, w, h, -⟩
    cases h
  | cons l ls ih =>
    rw [List.map_cons]
    cases he : entry mem page l.vpn with
    | none =>
      have hread : readPte mem (page * 4096) l.vpn = none := by rw [readPte_eq_entry, he]; rfl
      refine iff_of_false ?_ ?_
      · rw [walkFrom, hread]
        intro h
        cases h
      · rintro ⟨k, w, h, -⟩
        rw [leafFrom, he] at h
        cases h
    | some w =>
      have hread : readPte mem (page * 4096) l.vpn = some (Sv39pte.writeReg w) := by
        rw [readPte_eq_entry, he]
        rfl
      by_cases hi : Invalid w
      · -- the fault is reported as the address `-1`, and there is no leaf
        rw [walkFrom_of_invalid hread hi, leafFrom_of_invalid he hi]
        refine iff_of_false hfault ?_
        rintro ⟨k, w', h, -⟩
        cases h
      by_cases hl : Leaf w
      · have hgrant : finishLeaf ty (Sv39pte.writeReg w) (l.pa (Sv39pte.writeReg w)) = p ↔ _ :=
          finishLeaf_granted_iff (ha.1 w) hp
        rw [walkFrom_of_leaf hread hi hl, leafFrom_of_leaf he hi hl, List.length_map,
          Except.ok.injEq, hgrant]
        simp only [Option.some.injEq, Prod.mk.injEq, and_assoc, exists_eq_left', exists_and_left]
      · rw [walkFrom_of_pointer hread hi hl, leafFrom_of_pointer he hi hl]
        exact ih ha.2 _

theorem walk_granted_iff (hp : p ≠ -1) : walk c mem va ty = .ok p ↔
    ∃ k w, leaf c mem va = some (k, w) ∧ ¬ Denied ty w ∧ p.toNat = leafAddress va k w % 2 ^ 32 :=
  walkFrom_granted_iff (addresses_levels va) hp c.satp.ppn

/-! ### `translate` -/

theorem writable_of_not_denied {w : Word} (h : ¬ Denied ty w) (hs : ty = .stor) :
    writable w = true := by
  by_contra hw
  exact h (.inr ⟨hs, .inr (Bool.not_eq_true _ ▸ hw)⟩)

theorem effective_of_bypass (h : Bypass c ty cp) (he : effective c ty cp ≠ .mmode) :
    ty = .inst ∧ c.mstatus.mprv = 1 ∧ c.mstatus.mpp = 3 := by
  unfold effective at he
  obtain ⟨hcp, h0⟩ | ⟨hcp, ht⟩ | ⟨h1, h3⟩ := h
  · rw [if_neg] at he
    · exact absurd hcp he
    · rw [h0]
      exact fun hc => absurd hc.2 (by decide)
  · rw [if_neg fun hc => hc.1 ht] at he
    exact absurd hcp he
  · refine ⟨?_, h1, h3⟩
    by_contra ht
    rw [if_pos ⟨ht, h1⟩, h3] at he
    exact he rfl

theorem translate_of_exempt (hmode : c.satp.mode = 8) (h1 : c.mstatus.mprv = 1)
    (h3 : c.mstatus.mpp = 3) : translate c mem va ty cp = .ok va := by
  unfold translate
  simp only [hmode]
  rw [if_neg fun h => absurd (h1.symm.trans h.2) (by decide)]
  show ite _ _ _ = _
  split
  · rfl
  · exact if_pos ⟨h1, h3⟩

/-- `translate` enforces the protection of Sv39 exactly where the tests that it makes suffice. -/
theorem sv39_protects_iff (mem : Memory) (va : Word) (ty : Ttype) (cp : Plevel)
    (hmode : c.satp.mode = 8) : Protects c mem va ty cp ↔ Suffices c mem va ty cp := by
  unfold Protects Suffices Allows
  by_cases he : effective c ty cp = .mmode
  · exact iff_of_true (fun _ _ _ => .inl he) (.inl he)
  simp only [he, false_or]
  by_cases hb : Bypass c ty cp
  · -- only `MPRV` exempts an access below machine mode, and only a fetch
    obtain ⟨rfl, h13⟩ := effective_of_bypass hb he
    rw [if_pos h13]
    simp only [translate_of_exempt hmode h13.1 h13.2, Except.ok.injEq]
    constructor
    · intro h
      by_cases hva : va = -1
      · exact .inl hva
      · obtain ⟨k, w, hl, hw, -, hp⟩ := h va hva rfl
        exact .inr ⟨k, w, hl, hw, hp⟩
    · rintro (hva | ⟨k, w, hl, hw, hp⟩) p hne rfl
      · exact absurd hva hne
      · exact ⟨k, w, hl, hw, nofun, hp⟩
  · rw [if_neg fun h13 => hb (.inr (.inr h13))]
    simp only [translate_of_not_bypass mem va hmode hb]
    constructor
    · intro h k w hl
      by_cases hd : Denied ty w
      · exact .inl hd
      -- the address that the leaf gives is granted, in its low 32 bits
      have hlt : leafAddress va k w % 2 ^ 32 < 2 ^ 32 := Nat.mod_lt _ (by decide)
      have hp : (BitVec.ofNat 64 (leafAddress va k w % 2 ^ 32)).toNat =
          leafAddress va k w % 2 ^ 32 := by
        rw [BitVec.toNat_ofNat]
        exact Nat.mod_eq_of_lt (by omega)
      have hne : BitVec.ofNat 64 (leafAddress va k w % 2 ^ 32) ≠ -1 := by
        intro h
        rw [h] at hp
        rw [← hp] at hlt
        exact absurd hlt (by decide)
      obtain ⟨k', w', ht, hw, -, hpa⟩ := h _ hne ((walk_granted_iff hne).mpr ⟨k, w, hl, hd, hp⟩)
      cases hl.symm.trans (leaf_of_table ht)
      exact .inr ⟨ht, by omega, hw⟩
    · intro h p hp ht
      obtain ⟨k, w, hl, hd, hpa⟩ := (walk_granted_iff hp).mp ht
      obtain ⟨htable, hlt, hw⟩ := (h k w hl).resolve_left hd
      exact ⟨k, w, htable, hw, writable_of_not_denied hd, hpa.trans (Nat.mod_eq_of_lt hlt)⟩

/-- A load of supervisor mode from a page that it may read. -/
theorem sv39_protects_threeLevels : Protects rootCsrs threeLevels 0x123 .load .smode := by
  apply (sv39_protects_iff threeLevels 0x123 .load .smode rfl).mpr
  refine .inr ?_
  rw [if_neg (by decide)]
  intro k w hl
  have hleaf : leaf rootCsrs threeLevels 0x123 = some (0, (0x80005 <<< 10 ||| 0xCF : Word)) := by
    decide +kernel
  cases hleaf.symm.trans hl
  exact .inr ⟨by decide +kernel, by decide, by unfold Canonical; decide, by decide, nofun,
    fun _ => .inl (by decide), nofun, fun _ hu => absurd hu (by decide)⟩

/-- `satp` is set to the page table at the start of RAM, and `mret` goes to user mode at
`0x200000000`. The entry for it lies behind the code: a gigapage that is not for user mode. -/
def supervisorPageProgram : List Word :=
  [0x00100113, 0x03f11113, 0x000801b7, 0x00316133, 0x18011073, 0x00100093, 0x02109093, 0x34109073,
    0x30200073, 0, 0, 0, 0, 0, 0, 0, 0x200000cf, 0]

theorem sv39_not_protects :
    ¬ ∀ (image : Memory) (time : Word) (is : List Input) (s : State) (va : Word) (ty : Ttype),
      Run Next (boot image time) is s → s.csr.satp.mode = 8 →
        Protects s.csr s.mem va ty s.cp := by
  intro h
  obtain ⟨s, hr, hs⟩ := exists_run (boot (imageOf supervisorPageProgram) 0)
    (List.replicate 9 (quiet 0)) (fun s => decide (s.cp = .umode ∧ s.csr.satp.mode = 8 ∧
      (translate s.csr s.mem s.pc .inst s.cp).toOption = some 0x80000000 ∧
      tableLeaf s.csr s.mem s.pc = some (2, 0x200000cf))) (by decide +kernel)
  obtain ⟨hcp, hmode, ht, hl⟩ := of_decide_eq_true hs
  have he : effective s.csr .inst s.cp = .umode := hcp
  have ha := h _ _ _ _ s.pc .inst hr hmode _ (by decide) (ok_of_toOption ht)
  rcases ha with hm | ⟨k, w, hw, hlaw, -⟩
  · rw [he] at hm
    cases hm
  · cases hl.symm.trans hw
    exact absurd (hlaw.user he) (by decide)

end RiscvEmu
