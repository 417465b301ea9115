import RiscvEmu.Loop

/-! The Sv39 walk of `translate` against the walk of the architecture, which is stated over physical
addresses and 44-bit page numbers as natural numbers. -/

namespace RiscvEmu

namespace Sv39

/-! ### The architecture -/

def valid (w : Word) : Bool := w.getLsbD 0

def readable (w : Word) : Bool := w.getLsbD 1

def writable (w : Word) : Bool := w.getLsbD 2

def executable (w : Word) : Bool := w.getLsbD 3

def accessed (w : Word) : Bool := w.getLsbD 6

def dirty (w : Word) : Bool := w.getLsbD 7

def ppn (w : Word) : ℕ := w.toNat / 2 ^ 10 % 2 ^ 44

def Invalid (w : Word) : Prop := valid w = false ∨ (readable w = false ∧ writable w = true)

def Leaf (w : Word) : Prop := readable w = true ∨ executable w = true

instance (w : Word) : Decidable (Invalid w) := inferInstanceAs (Decidable (_ ∨ _ ∧ _))

instance (w : Word) : Decidable (Leaf w) := inferInstanceAs (Decidable (_ ∨ _))

def InRam (a : ℕ) : Prop := 2 ^ 31 ≤ a ∧ a < 2 ^ 32

instance (a : ℕ) : Decidable (InRam a) := inferInstanceAs (Decidable (_ ∧ _))

def ramWord (mem : Memory) (a : ℕ) : Word := mem ⟨(a - 2 ^ 31) / 8 % memSize, Nat.mod_lt _ (by decide)⟩

/-- The addresses of the entries that a walk visits, from a page number and the indices of the
levels that are left. -/
def slots (mem : Memory) (page : ℕ) : List ℕ → List ℕ
  | [] => []
  | vpn :: vpns =>
    let a := page * 4096 + vpn * 8
    let w := ramWord mem a
    a :: if Invalid w ∨ Leaf w then [] else slots mem (ppn w) vpns

def vpns (va : Word) : List ℕ :=
  [va.toNat / 2 ^ 30 % 2 ^ 9, va.toNat / 2 ^ 21 % 2 ^ 9, va.toNat / 2 ^ 12 % 2 ^ 9]

def visited (c : Csrs) (mem : Memory) (va : Word) : List ℕ :=
  slots mem c.satp.ppn.toNat (vpns va)

def path (c : Csrs) (mem : Memory) (va : Word) : List Word := (visited c mem va).map (ramWord mem)

def Denied (ty : Ttype) (w : Word) : Prop :=
  accessed w = false ∨ ty = .stor ∧ (dirty w = false ∨ writable w = false)

/-- The visited entries end in a page fault: one is invalid, the one of the third level is no leaf,
or the leaf denies the access. -/
def Faults (ty : Ttype) (ws : List Word) : Prop :=
  (∃ w ∈ ws, Invalid w) ∨ (∃ w, ws[2]? = some w ∧ ¬ Leaf w) ∨
    ∃ w, ws.getLast? = some w ∧ Leaf w ∧ Denied ty w

def Bypass (c : Csrs) (ty : Ttype) (cp : Plevel) : Prop :=
  (cp = .mmode ∧ c.mstatus.mprv = 0) ∨ (cp = .mmode ∧ ty = .inst) ∨
    (c.mstatus.mprv = 1 ∧ c.mstatus.mpp = 3)

end Sv39

open Sv39

/-! ### Fields -/

theorem vpn2_toNat (va : Word) : (Sv39va.writeReg va).vpn2.toNat = va.toNat / 2 ^ 30 % 2 ^ 9 := by
  show ((va >>> 30) &&& BitVec.ofNat 64 (2 ^ 9 - 1)).toNat % 2 ^ 16 = _
  rw [toNat_field va 30 9 (by decide)]
  omega

theorem vpn1_toNat (va : Word) : (Sv39va.writeReg va).vpn1.toNat = va.toNat / 2 ^ 21 % 2 ^ 9 := by
  show ((va >>> 21) &&& BitVec.ofNat 64 (2 ^ 9 - 1)).toNat % 2 ^ 16 = _
  rw [toNat_field va 21 9 (by decide)]
  omega

theorem vpn0_toNat (va : Word) : (Sv39va.writeReg va).vpn0.toNat = va.toNat / 2 ^ 12 % 2 ^ 9 := by
  show ((va >>> 12) &&& BitVec.ofNat 64 (2 ^ 9 - 1)).toNat % 2 ^ 16 = _
  rw [toNat_field va 12 9 (by decide)]
  omega

theorem toNat_packed (p2 : BitVec 32) (p1 p0 : BitVec 16) :
    ((p2 <<< 18 + p1.setWidth 32 <<< 9 + p0.setWidth 32 : BitVec 32).setWidth 64).toNat =
      (p2.toNat * 2 ^ 18 + p1.toNat * 2 ^ 9 + p0.toNat) % 2 ^ 32 := by
  have h1 := p1.isLt
  have h0 := p0.isLt
  simp only [BitVec.toNat_setWidth, BitVec.toNat_add, BitVec.toNat_shiftLeft, Nat.shiftLeft_eq]
  omega

theorem pte_ppn0_toNat (w : Word) :
    (Sv39pte.writeReg w).ppn0.toNat = w.toNat / 2 ^ 10 % 2 ^ 9 := by
  show ((w >>> 10) &&& BitVec.ofNat 64 (2 ^ 9 - 1)).toNat % 2 ^ 16 = _
  rw [toNat_field w 10 9 (by decide)]
  omega

theorem pte_ppn1_toNat (w : Word) :
    (Sv39pte.writeReg w).ppn1.toNat = w.toNat / 2 ^ 19 % 2 ^ 9 := by
  show ((w >>> 19) &&& BitVec.ofNat 64 (2 ^ 9 - 1)).toNat % 2 ^ 16 = _
  rw [toNat_field w 19 9 (by decide)]
  omega

theorem pte_ppn2_toNat (w : Word) :
    (Sv39pte.writeReg w).ppn2.toNat = w.toNat / 2 ^ 28 % 2 ^ 26 := by
  show ((w >>> 28) &&& BitVec.ofNat 64 (2 ^ 26 - 1)).toNat % 2 ^ 32 = _
  rw [toNat_field w 28 26 (by decide)]
  omega

theorem ppn_toNat (w : Word) : (Sv39pte.writeReg w).ppn.toNat = ppn w % 2 ^ 32 := by
  have h := toNat_packed (Sv39pte.writeReg w).ppn2 (Sv39pte.writeReg w).ppn1
    (Sv39pte.writeReg w).ppn0
  rw [pte_ppn0_toNat, pte_ppn1_toNat, pte_ppn2_toNat] at h
  refine h.trans ?_
  unfold ppn
  omega

theorem invalid_writeReg (w : Word) : (Sv39pte.writeReg w).invalid = true ↔ Invalid w := by
  show decide (bit1 w 0 = 0 ∨ (bit1 w 1 = 0 ∧ bit1 w 2 = 1)) = true ↔ _
  rw [decide_eq_true_iff, bit1_eq_zero_iff, bit1_eq_zero_iff, bit1_eq_one_iff]
  rfl

theorem leaf_writeReg (w : Word) : (Sv39pte.writeReg w).leaf = true ↔ Leaf w := by
  show decide (bit1 w 1 = 1 ∨ bit1 w 3 = 1) = true ↔ _
  rw [decide_eq_true_iff, bit1_eq_one_iff, bit1_eq_one_iff]
  rfl

/-! ### One level -/

def Sv39.entryIndex (page : Word) (vpn : BitVec 16) : Word :=
  let a := page * 4096 + vpn.setWidth 64 * 8
  (if a ≥ dramBase then a - dramBase else a) / 8

/-- The page-table entry with a given index, in the cell from which `translate` reads it. -/
def Sv39.entry (mem : Memory) (page : Word) (vpn : BitVec 16) : Option Word :=
  (cell? (entryIndex page vpn)).map mem

theorem readPte_eq_entry (mem : Memory) (page : Word) (vpn : BitVec 16) :
    readPte mem (page * 4096) vpn = (entry mem page vpn).map Sv39pte.writeReg := by
  unfold readPte entry
  rw [Option.map_map]
  rfl

section

variable {page : Word} {vpn : BitVec 16} {n k : ℕ} (hp : page.toNat = n) (hv : vpn.toNat = k)
  (h : InRam (n * 4096 + k * 8))
include hp hv h

theorem entryIndex_of_inRam : (entryIndex page vpn).toNat = (n * 4096 + k * 8 - 2 ^ 31) / 8 := by
  obtain ⟨hlo, hhi⟩ := h
  have hk : k < 2 ^ 16 := hv ▸ vpn.isLt
  have haddr : (page * 4096 + vpn.setWidth 64 * 8).toNat = n * 4096 + k * 8 := by
    rw [BitVec.toNat_add, BitVec.toNat_mul, BitVec.toNat_mul, BitVec.toNat_setWidth, hp, hv]
    show (n * 4096 % 2 ^ 64 + k % 2 ^ 64 * 8 % 2 ^ 64) % 2 ^ 64 = _
    omega
  have hbase : dramBase ≤ page * 4096 + vpn.setWidth 64 * 8 := by
    rw [BitVec.le_def, haddr]
    exact hlo
  unfold entryIndex
  dsimp only
  rw [if_pos hbase, BitVec.toNat_udiv, BitVec.toNat_sub_of_le hbase, haddr]
  rfl

theorem entry_of_inRam (mem : Memory) :
    entry mem page vpn = some (ramWord mem (n * 4096 + k * 8)) := by
  have hi := entryIndex_of_inRam hp hv h
  have hc : cell? (entryIndex page vpn) =
      some ⟨(n * 4096 + k * 8 - 2 ^ 31) / 8 % memSize, Nat.mod_lt _ (by decide)⟩ := by
    rw [cell?_eq_some, hi]
    have := h.2
    exact Nat.mod_eq_of_lt (by show _ < 2 ^ 28; omega)
  rw [entry, hc]
  rfl

theorem readPte_of_inRam (mem : Memory) :
    readPte mem (page * 4096) vpn = some (Sv39pte.writeReg (ramWord mem (n * 4096 + k * 8))) := by
  rw [readPte_eq_entry, entry_of_inRam hp hv h]
  rfl

end

/-- The page number of a pointer whose table entry lies in RAM is not truncated. -/
theorem ppn_of_inRam {w : Word} {k : ℕ} (h : InRam (ppn w * 4096 + k * 8)) :
    (Sv39pte.writeReg w).ppn.toNat = ppn w := by
  rw [ppn_toNat]
  have := h.2
  omega

/-! ### The leaf -/

theorem readReg_toNat (p : Sv39pa) : p.readReg.toNat =
    (p.ppn2.toNat % 2 ^ 26 * 2 ^ 30 + p.ppn1.toNat % 2 ^ 9 * 2 ^ 21 +
      p.ppn0.toNat % 2 ^ 9 * 2 ^ 12 + p.pageOffset.toNat % 2 ^ 12) % 2 ^ 32 := by
  have m26 (x : ℕ) : x &&& 0x3FFFFFF = x % 2 ^ 26 := Nat.and_two_pow_sub_one_eq_mod x 26
  have m9 (x : ℕ) : x &&& 0x1FF = x % 2 ^ 9 := Nat.and_two_pow_sub_one_eq_mod x 9
  have m12 (x : ℕ) : x &&& 0xFFF = x % 2 ^ 12 := Nat.and_two_pow_sub_one_eq_mod x 12
  have h2 : (p.ppn2 &&& 0x3FFFFFF).toNat = p.ppn2.toNat % 2 ^ 26 := m26 _
  have h1 : (p.ppn1 &&& 0x1FF).toNat = p.ppn1.toNat % 2 ^ 9 := m9 _
  have h0 : (p.ppn0 &&& 0x1FF).toNat = p.ppn0.toNat % 2 ^ 9 := m9 _
  have ho : (p.pageOffset &&& 0xFFF).toNat = p.pageOffset.toNat % 2 ^ 12 := m12 _
  unfold Sv39pa.readReg
  simp only [BitVec.toNat_setWidth, BitVec.toNat_add, BitVec.toNat_shiftLeft, Nat.shiftLeft_eq, h2,
    h1, h0, ho]
  omega

theorem readReg_ne (p : Sv39pa) : p.readReg ≠ -1 := by
  intro h
  have hlt : p.readReg.toNat < 2 ^ 32 := by
    rw [readReg_toNat]
    exact Nat.mod_lt _ (by decide)
  rw [h] at hlt
  exact absurd hlt (by decide)

theorem readReg_offset (p : Sv39pa) : p.readReg.toNat % 2 ^ 12 = p.pageOffset.toNat % 2 ^ 12 := by
  rw [readReg_toNat]
  omega

theorem readReg_frame {p q : Sv39pa} (h0 : p.ppn0 = q.ppn0) (h1 : p.ppn1 = q.ppn1)
    (h2 : p.ppn2 = q.ppn2) : p.readReg.toNat / 2 ^ 12 = q.readReg.toNat / 2 ^ 12 := by
  rw [readReg_toNat, readReg_toNat, h0, h1, h2]
  omega

theorem finishLeaf_denied {ty : Ttype} {w : Word} (pa : Sv39pa) (h : Denied ty w) :
    finishLeaf ty (Sv39pte.writeReg w) pa = -1 := by
  have ha : accessed w = false → (Sv39pte.writeReg w).a = 0 := (bit1_eq_zero_iff w 6).mpr
  have hd : dirty w = false → (Sv39pte.writeReg w).d = 0 := (bit1_eq_zero_iff w 7).mpr
  have hw : writable w = false → (Sv39pte.writeReg w).w = 0 := (bit1_eq_zero_iff w 2).mpr
  unfold finishLeaf
  obtain h | ⟨rfl, h | h⟩ := h
  · cases ty <;> simp [ha h]
  · simp [hd h]
  · simp [hw h]

theorem finishLeaf_allowed {ty : Ttype} {w : Word} (pa : Sv39pa) (h : ¬ Denied ty w) :
    finishLeaf ty (Sv39pte.writeReg w) pa = pa.readReg := by
  have ha : (Sv39pte.writeReg w).a = 0 → accessed w = false := (bit1_eq_zero_iff w 6).mp
  have hd : (Sv39pte.writeReg w).d = 0 → dirty w = false := (bit1_eq_zero_iff w 7).mp
  have hw : (Sv39pte.writeReg w).w = 0 → writable w = false := (bit1_eq_zero_iff w 2).mp
  unfold finishLeaf
  rw [if_neg, if_neg, if_neg]
  · rintro ⟨hs, h0⟩
    exact h (.inr ⟨hs, .inr (hw h0)⟩)
  · rintro ⟨-, h0⟩
    exact h (.inl (ha h0))
  · rintro ⟨hs, h0 | h0⟩
    · exact h (.inl (ha h0))
    · exact h (.inr ⟨hs, .inl (hd h0)⟩)

/-! ### The walk -/

/-- One level of the walk: the index into its table, and the address that a leaf gives. -/
structure Level where
  vpn : BitVec 16
  pa : Sv39pte → Sv39pa

def levels (va : Sv39va) : List Level :=
  [⟨va.vpn2, fun pte => ⟨va.pageOffset, va.vpn0, va.vpn1, pte.ppn2⟩⟩,
    ⟨va.vpn1, fun pte => ⟨va.pageOffset, va.vpn0, pte.ppn1, pte.ppn2⟩⟩,
    ⟨va.vpn0, fun pte => ⟨va.pageOffset, pte.ppn0, pte.ppn1, pte.ppn2⟩⟩]

def walkFrom (mem : Memory) (ty : Ttype) (page : Word) : List Level → Except Halt Word
  | [] => .ok (-1)
  | l :: ls =>
    match readPte mem (page * 4096) l.vpn with
    | none => .error .outOfRange
    | some pte =>
      if pte.invalid then .ok (-1)
      else if pte.leaf then .ok (finishLeaf ty pte (l.pa pte))
      else walkFrom mem ty pte.ppn ls

theorem walk_eq_walkFrom (c : Csrs) (mem : Memory) (va : Word) (ty : Ttype) :
    walk c mem va ty = walkFrom mem ty c.satp.ppn (levels (Sv39va.writeReg va)) := rfl

section
variable {mem : Memory} {ty : Ttype} {page w : Word} {l : Level} {ls : List Level}
  (hread : readPte mem (page * 4096) l.vpn = some (Sv39pte.writeReg w))
include hread

theorem walkFrom_of_invalid (hi : Invalid w) : walkFrom mem ty page (l :: ls) = .ok (-1) := by
  simp only [walkFrom, hread]
  rw [if_pos ((invalid_writeReg w).mpr hi)]

theorem walkFrom_of_leaf (hi : ¬ Invalid w) (hl : Leaf w) : walkFrom mem ty page (l :: ls) =
    .ok (finishLeaf ty (Sv39pte.writeReg w) (l.pa (Sv39pte.writeReg w))) := by
  simp only [walkFrom, hread]
  rw [if_neg (mt (invalid_writeReg w).mp hi), if_pos ((leaf_writeReg w).mpr hl)]

theorem walkFrom_of_pointer (hi : ¬ Invalid w) (hl : ¬ Leaf w) :
    walkFrom mem ty page (l :: ls) = walkFrom mem ty (Sv39pte.writeReg w).ppn ls := by
  simp only [walkFrom, hread]
  rw [if_neg (mt (invalid_writeReg w).mp hi), if_neg (mt (leaf_writeReg w).mp hl)]

end

theorem vpns_eq_levels (va : Word) :
    vpns va = (levels (Sv39va.writeReg va)).map fun l => l.vpn.toNat := by
  simp only [levels, List.map_cons, List.map_nil, vpn2_toNat, vpn1_toNat, vpn0_toNat, vpns]

theorem slots_of_stop {mem : Memory} {page vpn : ℕ} {ks : List ℕ}
    (h : Invalid (ramWord mem (page * 4096 + vpn * 8)) ∨
      Leaf (ramWord mem (page * 4096 + vpn * 8))) :
    slots mem page (vpn :: ks) = [page * 4096 + vpn * 8] := by
  simp only [slots, if_pos h]

theorem slots_of_pointer {mem : Memory} {page vpn : ℕ} {ks : List ℕ}
    (hi : ¬ Invalid (ramWord mem (page * 4096 + vpn * 8)))
    (hl : ¬ Leaf (ramWord mem (page * 4096 + vpn * 8))) :
    slots mem page (vpn :: ks) = (page * 4096 + vpn * 8) ::
      slots mem (ppn (ramWord mem (page * 4096 + vpn * 8))) ks := by
  simp only [slots, if_neg (not_or.mpr ⟨hi, hl⟩)]

/-- How a walk over `ls` ends at the entry `w`, with result `r`, after `n` pointers. -/
inductive Ends (ty : Ttype) (ls : List Level) (n : ℕ) (w : Word) : Word → Prop
  | invalid (hi : Invalid w) : Ends ty ls n w (-1)
  | pointer (hl : ¬ Leaf w) (hn : n + 1 = ls.length) : Ends ty ls n w (-1)
  | leaf (hi : ¬ Invalid w) (hl : Leaf w) (l : Level) (h : l ∈ ls) :
    Ends ty ls n w (finishLeaf ty (Sv39pte.writeReg w) (l.pa (Sv39pte.writeReg w)))

theorem Ends.cons {ty : Ttype} {ls : List Level} {n : ℕ} {w r : Word} (l : Level)
    (h : Ends ty ls n w r) : Ends ty (l :: ls) (n + 1) w r := by
  cases h with
  | invalid hi => exact .invalid hi
  | pointer hl hn => exact .pointer hl (congrArg (· + 1) hn)
  | leaf hi hl k hk => exact .leaf hi hl k (List.mem_cons_of_mem _ hk)

/-- The walk reads the visited entries in order: pointers, and the entry at which it ends. -/
theorem walkFrom_ends {mem : Memory} (ty : Ttype) (l : Level) (ls : List Level) {page : Word}
    {n : ℕ} (hp : page.toNat = n)
    (hram : ∀ a ∈ slots mem n ((l :: ls).map fun l => l.vpn.toNat), InRam a) :
    ∃ ps w r, (slots mem n ((l :: ls).map fun l => l.vpn.toNat)).map (ramWord mem) = ps ++ [w] ∧
      (∀ p ∈ ps, ¬ Invalid p ∧ ¬ Leaf p) ∧ ps.length < (l :: ls).length ∧
      walkFrom mem ty page (l :: ls) = .ok r ∧ Ends ty (l :: ls) ps.length w r := by
  induction ls generalizing l page n with
  | nil =>
    have hread := readPte_of_inRam hp rfl (hram _ (List.mem_cons_self ..)) mem
    generalize hw : ramWord mem (n * 4096 + l.vpn.toNat * 8) = w at hread
    have hpath : (slots mem n [l.vpn.toNat]).map (ramWord mem) = [] ++ [w] := by
      simp only [slots, ite_self, List.map_singleton, hw, List.nil_append]
    by_cases hi : Invalid w
    · exact ⟨[], w, -1, hpath, nofun, by simp, walkFrom_of_invalid hread hi, .invalid hi⟩
    by_cases hl : Leaf w
    · exact ⟨[], w, _, hpath, nofun, by simp, walkFrom_of_leaf hread hi hl,
        .leaf hi hl l (List.mem_cons_self ..)⟩
    · exact ⟨[], w, -1, hpath, nofun, by simp, walkFrom_of_pointer hread hi hl, .pointer hl rfl⟩
  | cons k ks ih =>
    have hread := readPte_of_inRam hp rfl (hram _ (List.mem_cons_self ..)) mem
    have hstop := @slots_of_stop mem n l.vpn.toNat ((k :: ks).map fun l => l.vpn.toNat)
    have hpointer := @slots_of_pointer mem n l.vpn.toNat ((k :: ks).map fun l => l.vpn.toNat)
    generalize hw : ramWord mem (n * 4096 + l.vpn.toNat * 8) = w at hread hstop hpointer
    rw [List.map_cons] at hram ⊢
    by_cases hi : Invalid w
    · refine ⟨[], w, -1, ?_, nofun, by simp, walkFrom_of_invalid hread hi, .invalid hi⟩
      rw [hstop (.inl hi), List.map_singleton, hw, List.nil_append]
    by_cases hl : Leaf w
    · refine ⟨[], w, _, ?_, nofun, by simp, walkFrom_of_leaf hread hi hl,
        .leaf hi hl l (List.mem_cons_self ..)⟩
      rw [hstop (.inr hl), List.map_singleton, hw, List.nil_append]
    -- a pointer: the walk goes on from the table it names
    rw [hpointer hi hl] at hram ⊢
    have hnext : ∀ a ∈ slots mem (ppn w) ((k :: ks).map fun l => l.vpn.toNat), InRam a :=
      fun a ha => hram a (List.mem_cons_of_mem _ ha)
    have hpage : (Sv39pte.writeReg w).ppn.toNat = ppn w :=
      ppn_of_inRam (hnext _ (List.mem_cons_self ..))
    obtain ⟨ps, w', r, hpath, hps, hlen, hwalk, hends⟩ := ih k hpage hnext
    refine ⟨w :: ps, w', r, ?_, ?_, Nat.succ_lt_succ hlen,
      (walkFrom_of_pointer hread hi hl).trans hwalk, hends.cons l⟩
    · rw [List.map_cons, hw, hpath, List.cons_append]
    · rintro p (_ | ⟨_, hp⟩)
      · exact ⟨hi, hl⟩
      · exact hps p hp

theorem Ends.eq_fault_iff {ty : Ttype} {ls : List Level} {ps : List Word} {w r : Word}
    (h : Ends ty ls ps.length w r) (hls : ls.length = 3) (hlen : ps.length < 3)
    (hps : ∀ p ∈ ps, ¬ Invalid p ∧ ¬ Leaf p) : r = -1 ↔ Faults ty (ps ++ [w]) := by
  have hlast : (ps ++ [w]).getLast? = some w := List.getLast?_concat
  have hthird (x : Word) (hx : (ps ++ [w])[2]? = some x) : x = w := by
    rw [List.getElem?_append_right (by omega)] at hx
    exact (List.mem_singleton.mp (List.mem_of_getElem? hx))
  have hinvalid (x : Word) (hx : x ∈ ps ++ [w]) (hi : Invalid x) : Invalid w := by
    obtain hx | hx := List.mem_append.mp hx
    · exact absurd hi (hps x hx).1
    · exact List.mem_singleton.mp hx ▸ hi
  cases h with
  | invalid hi => exact iff_of_true rfl (.inl ⟨w, by simp, hi⟩)
  | pointer hl hn =>
    refine iff_of_true rfl (.inr (.inl ⟨w, ?_, hl⟩))
    rw [List.getElem?_append_right (by omega), show 2 - ps.length = 0 by omega]
    rfl
  | leaf hi hl l hmem =>
    by_cases hd : Denied ty w
    · exact iff_of_true (finishLeaf_denied _ hd) (.inr (.inr ⟨w, hlast, hl, hd⟩))
    · refine iff_of_false ?_ ?_
      · rw [finishLeaf_allowed _ hd]
        exact readReg_ne _
      · rintro (⟨x, hx, hxi⟩ | ⟨x, hx, hxl⟩ | ⟨x, hx, -, hxd⟩)
        · exact hi (hinvalid x hx hxi)
        · exact hxl (hthird x hx ▸ hl)
        · exact hd (Option.some.inj (hlast.symm.trans hx) ▸ hxd)

theorem Ends.offset {ty : Ttype} {va w r : Word} {n : ℕ}
    (h : Ends ty (levels (Sv39va.writeReg va)) n w r) (hr : r ≠ -1) :
    r.toNat % 2 ^ 12 = va.toNat % 2 ^ 12 := by
  cases h with
  | invalid hi => exact absurd rfl hr
  | pointer hl hn => exact absurd rfl hr
  | leaf hi hl l hmem =>
    have ho (pte : Sv39pte) : (l.pa pte).pageOffset = (va &&& 0xFFF).setWidth 16 := by
      simp only [levels, List.mem_cons, List.not_mem_nil, or_false] at hmem
      obtain rfl | rfl | rfl := hmem <;> rfl
    have hd : ¬ Denied ty w := fun hd => hr (finishLeaf_denied _ hd)
    rw [finishLeaf_allowed _ hd, readReg_offset, ho]
    have : (va &&& 0xFFF).toNat = va.toNat % 2 ^ 12 := Nat.and_two_pow_sub_one_eq_mod _ 12
    rw [BitVec.toNat_setWidth, this]
    omega

/-! ### Equal page numbers -/

def SameFrame (r s : Word) : Prop :=
  (r = -1 ↔ s = -1) ∧ (r ≠ -1 → r.toNat / 2 ^ 12 = s.toNat / 2 ^ 12)

theorem SameFrame.refl (r : Word) : SameFrame r r := ⟨Iff.rfl, fun _ => rfl⟩

def Level.Agree (k l : Level) : Prop :=
  k.vpn = l.vpn ∧ ∀ pte, (k.pa pte).ppn0 = (l.pa pte).ppn0 ∧ (k.pa pte).ppn1 = (l.pa pte).ppn1 ∧
    (k.pa pte).ppn2 = (l.pa pte).ppn2

theorem finishLeaf_sameFrame (ty : Ttype) (pte : Sv39pte) {p q : Sv39pa} (h0 : p.ppn0 = q.ppn0)
    (h1 : p.ppn1 = q.ppn1) (h2 : p.ppn2 = q.ppn2) :
    SameFrame (finishLeaf ty pte p) (finishLeaf ty pte q) := by
  unfold finishLeaf
  split
  · exact .refl _
  split
  · exact .refl _
  split
  · exact .refl _
  · exact ⟨iff_of_false (readReg_ne p) (readReg_ne q), fun _ => readReg_frame h0 h1 h2⟩

theorem walkFrom_sameFrame {mem : Memory} {ty : Ttype} {page : Word} {ks ls : List Level}
    (h : List.Forall₂ Level.Agree ks ls) {r s : Word} (hr : walkFrom mem ty page ks = .ok r)
    (hs : walkFrom mem ty page ls = .ok s) : SameFrame r s := by
  induction h generalizing page with
  | nil =>
    cases hr
    cases hs
    exact .refl _
  | @cons k l ks ls hkl _ ih =>
    obtain ⟨hv, hpa⟩ := hkl
    unfold walkFrom at hr hs
    rw [hv] at hr
    cases hread : readPte mem (page * 4096) l.vpn with
    | none => simp only [hread, reduceCtorEq] at hr
    | some pte =>
      simp only [hread] at hr hs
      split at hr
      · rename_i hi
        rw [if_pos hi] at hs
        cases hr
        cases hs
        exact .refl _
      rename_i hi
      rw [if_neg hi] at hs
      split at hr
      · rename_i hl
        rw [if_pos hl] at hs
        cases hr
        cases hs
        exact finishLeaf_sameFrame ty pte (hpa pte).1 (hpa pte).2.1 (hpa pte).2.2
      · rename_i hl
        rw [if_neg hl] at hs
        exact ih hr hs

def Sv39.pageNumber (va : Word) : ℕ := va.toNat / 2 ^ 12 % 2 ^ 27

theorem vpns_eq_of_pageNumber {va vb : Word} (h : Sv39.pageNumber va = Sv39.pageNumber vb) :
    vpns va = vpns vb := by
  unfold Sv39.pageNumber at h
  unfold vpns
  have h2 : va.toNat / 2 ^ 30 % 2 ^ 9 = vb.toNat / 2 ^ 30 % 2 ^ 9 := by omega
  have h1 : va.toNat / 2 ^ 21 % 2 ^ 9 = vb.toNat / 2 ^ 21 % 2 ^ 9 := by omega
  have h0 : va.toNat / 2 ^ 12 % 2 ^ 9 = vb.toNat / 2 ^ 12 % 2 ^ 9 := by omega
  rw [h2, h1, h0]

theorem levels_agree {va vb : Word} (h : vpns va = vpns vb) :
    List.Forall₂ Level.Agree (levels (Sv39va.writeReg va)) (levels (Sv39va.writeReg vb)) := by
  rw [vpns_eq_levels, vpns_eq_levels] at h
  simp only [levels, List.map_cons, List.map_nil, List.cons.injEq, BitVec.toNat_inj] at h
  obtain ⟨h2, h1, h0, -⟩ := h
  exact .cons ⟨h2, fun _ => ⟨h0, h1, rfl⟩⟩
    (.cons ⟨h1, fun _ => ⟨h0, rfl, rfl⟩⟩ (.cons ⟨h0, fun _ => ⟨rfl, rfl, rfl⟩⟩ .nil))

/-! ### `translate` -/

theorem ok_of_toOption {x : Except Halt Word} {r : Word} (h : x.toOption = some r) : x = .ok r := by
  cases x with
  | error e => cases h
  | ok a => exact congrArg _ (Option.some.inj h)

theorem translate_of_not_bypass {c : Csrs} {ty : Ttype} {cp : Plevel} (mem : Memory) (va : Word)
    (hmode : c.satp.mode = 8) (h : ¬ Bypass c ty cp) :
    translate c mem va ty cp = walk c mem va ty := by
  obtain ⟨h1, h23⟩ := not_or.mp h
  obtain ⟨h2, h3⟩ := not_or.mp h23
  unfold translate
  simp only [hmode]
  rw [if_neg h1, if_neg fun hc => h2 ⟨hc.1, hc.2.2⟩, if_neg h3]
  rfl

theorem walk_spec {c : Csrs} {mem : Memory} {va : Word} (ty : Ttype)
    (hram : ∀ a ∈ visited c mem va, InRam a) : ∃ r, walk c mem va ty = .ok r ∧
      (r = -1 ↔ Faults ty (path c mem va)) ∧ (r ≠ -1 → r.toNat % 2 ^ 12 = va.toNat % 2 ^ 12) := by
  have hslots : visited c mem va = slots mem c.satp.ppn.toNat
      ((levels (Sv39va.writeReg va)).map fun l => l.vpn.toNat) := by
    rw [visited, vpns_eq_levels]
  obtain ⟨ps, w, r, hpath, hps, hlen, hwalk, hends⟩ :=
    walkFrom_ends (n := c.satp.ppn.toNat) ty _ _ rfl (hslots ▸ hram)
  refine ⟨r, hwalk, ?_, @Ends.offset _ va _ _ _ hends⟩
  rw [path, hslots]
  exact (hends.eq_fault_iff rfl hlen hps).trans (by rw [← hpath]; rfl)

/-- The Sv39 walk of `translate` is the one of the architecture, whenever the entries that the
architecture's walk visits lie in RAM. -/
theorem sv39_walk (c : Csrs) (mem : Memory) (va : Word) (ty : Ttype) (cp : Plevel)
    (hmode : c.satp.mode = 8) (hbypass : ¬ Bypass c ty cp)
    (hram : ∀ a ∈ visited c mem va, InRam a) :
    ∃ r, translate c mem va ty cp = .ok r ∧
      (r = -1 ↔ Faults ty (path c mem va)) ∧
      (r ≠ -1 → r.toNat % 2 ^ 12 = va.toNat % 2 ^ 12) ∧
      ∀ vb, Sv39.pageNumber va = Sv39.pageNumber vb →
        ∃ s, translate c mem vb ty cp = .ok s ∧ SameFrame r s := by
  obtain ⟨r, hr, hfault, hoffset⟩ := walk_spec ty hram
  refine ⟨r, (translate_of_not_bypass mem va hmode hbypass).trans hr, hfault, hoffset, ?_⟩
  intro vb hpage
  -- the indices are those of the page, so the walks are the same
  have hv := vpns_eq_of_pageNumber hpage
  have hram' : ∀ a ∈ visited c mem vb, InRam a := by
    unfold visited at hram ⊢
    rwa [← hv]
  obtain ⟨s, hs, -⟩ := walk_spec ty hram'
  exact ⟨s, (translate_of_not_bypass mem vb hmode hbypass).trans hs,
    walkFrom_sameFrame (levels_agree hv) hr hs⟩

/-- A root, a second-level and a third-level table in the first three pages of RAM, which map page 0
to the frame `0x80005`. -/
def threeLevels : Memory :=
  Memory.set (Memory.set (Memory.set (fun _ => 0) 0 (0x80001 <<< 10 ||| 0x01))
    512 (0x80002 <<< 10 ||| 0x01)) 1024 (0x80005 <<< 10 ||| 0xCF)

def rootCsrs : Csrs := { (boot threeLevels 0).csr with satp := ⟨0x80000, 0, 8⟩ }

theorem sv39_walk_threeLevels :
    ∃ r, translate rootCsrs threeLevels 0x123 .load .smode = .ok r ∧
      (r = -1 ↔ Faults .load (path rootCsrs threeLevels 0x123)) ∧
      (r ≠ -1 → r.toNat % 2 ^ 12 = (0x123 : Word).toNat % 2 ^ 12) ∧
      ∀ vb, Sv39.pageNumber 0x123 = Sv39.pageNumber vb →
        ∃ s, translate rootCsrs threeLevels vb .load .smode = .ok s ∧ SameFrame r s :=
  sv39_walk rootCsrs threeLevels 0x123 .load .smode rfl (by unfold Bypass; decide)
    (by decide +kernel)

end RiscvEmu
