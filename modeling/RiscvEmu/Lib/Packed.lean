import Mathlib.Data.BitVec

/-! Registers that pack narrow fields. The register is the sum of its fields, each moved to its slot,
and a field is read back by a shift and a mask; on fields that fit their slots, packing and unpacking
are inverse to each other. -/

namespace Packed

variable {w n : ℕ}

abbrev Slot := ℕ × ℕ

/-- The slots lie below bit `m`, highest first, and do not overlap. -/
def Layout : ℕ → List Slot → Prop
  | _, [] => True
  | m, (p, k) :: ss => p + k ≤ m ∧ Layout p ss

instance decidableLayout : ∀ m ss, Decidable (Layout m ss)
  | _, [] => inferInstanceAs (Decidable True)
  | _, (p, _) :: ss =>
    haveI := decidableLayout p ss
    inferInstanceAs (Decidable (_ ∧ _))

def Fits : List Slot → List (BitVec n) → Prop
  | [], [] => True
  | (_, k) :: ss, x :: xs => x.toNat < 2 ^ k ∧ Fits ss xs
  | _, _ => False

def pack : List Slot → List (BitVec n) → BitVec w
  | (p, _) :: ss, x :: xs => x.setWidth w <<< p + pack ss xs
  | _, _ => 0

def extract (n : ℕ) (v : BitVec w) (p k : ℕ) : BitVec n :=
  ((v >>> p) &&& BitVec.ofNat w (2 ^ k - 1)).setWidth n

def unpack (n : ℕ) (ss : List Slot) (v : BitVec w) : List (BitVec n) :=
  ss.map fun s => extract n v s.1 s.2

def mask : List Slot → BitVec w
  | [] => 0
  | (p, k) :: ss => BitVec.ofNat w (2 ^ k - 1) <<< p ||| mask ss

/-- The word `u` with the bits of `m` replaced by those of `v`. -/
def splice (u v m : BitVec w) : BitVec w := (u &&& ~~~m) ||| (v &&& m)

def Below (p : ℕ) (r : BitVec w) : Prop := ∀ j, p ≤ j → r.getLsbD j = false

theorem getLsbD_ones (j k : ℕ) :
    (BitVec.ofNat w (2 ^ k - 1)).getLsbD j = (decide (j < w) && decide (j < k)) := by
  rw [BitVec.getLsbD_ofNat, Nat.testBit_two_pow_sub_one]

theorem getLsbD_extract (v : BitVec w) (p k j : ℕ) :
    (extract n v p k).getLsbD j = (decide (j < n) && decide (j < k) && v.getLsbD (p + j)) := by
  rw [extract, BitVec.getLsbD_setWidth, BitVec.getLsbD_and, BitVec.getLsbD_ushiftRight,
    getLsbD_ones]
  by_cases hj : j < w
  · rw [decide_eq_true hj, Bool.true_and, Bool.and_comm (v.getLsbD _), Bool.and_assoc]
  · rw [BitVec.getLsbD_of_ge v (p + j) (by omega), Bool.false_and, Bool.and_false, Bool.and_false]

theorem getLsbD_of_lt {x : BitVec n} {k j : ℕ} (h : x.toNat < 2 ^ k) (hj : k ≤ j) :
    x.getLsbD j = false :=
  Nat.testBit_lt_two_pow (Nat.lt_of_lt_of_le h (Nat.pow_le_pow_right (by decide) hj))

theorem and_eq_zero_of_below {p : ℕ} {x r : BitVec w} (hx : ∀ j < p, x.getLsbD j = false)
    (hr : Below p r) : x &&& r = 0#w := by
  apply BitVec.eq_of_getLsbD_eq
  intro j _
  rw [BitVec.getLsbD_and, BitVec.getLsbD_zero]
  by_cases h : j < p
  · rw [hx j h, Bool.false_and]
  · rw [hr j (by omega), Bool.and_false]

theorem getLsbD_shifted {p j : ℕ} (x : BitVec n) (h : j < p) :
    (x.setWidth w <<< p).getLsbD j = false := by
  rw [BitVec.getLsbD_shiftLeft, decide_eq_true h, Bool.not_true, Bool.and_false, Bool.false_and]

theorem shifted_and {p : ℕ} {r : BitVec w} (x : BitVec n) (hr : Below p r) :
    x.setWidth w <<< p &&& r = 0#w :=
  and_eq_zero_of_below (fun _ h => getLsbD_shifted x h) hr

theorem getLsbD_cons {p : ℕ} {r : BitVec w} (x : BitVec n) (hr : Below p r) (j : ℕ) :
    (x.setWidth w <<< p + r).getLsbD j =
      if j < p then r.getLsbD j else decide (j < w) && x.getLsbD (j - p) := by
  rw [BitVec.add_eq_or_of_and_eq_zero _ _ (shifted_and x hr), BitVec.getLsbD_or,
    BitVec.getLsbD_shiftLeft, BitVec.getLsbD_setWidth]
  by_cases h : j < p
  · rw [if_pos h, decide_eq_true h, Bool.not_true, Bool.and_false, Bool.false_and, Bool.false_or]
  · rw [if_neg h, hr j (by omega), Bool.or_false, decide_eq_false h, Bool.not_false, Bool.and_true]
    by_cases hw : j < w
    · rw [decide_eq_true (show j - p < w by omega), Bool.true_and]
    · rw [decide_eq_false hw, Bool.false_and, Bool.false_and]

theorem pack_below {m : ℕ} {ss : List Slot} {xs : List (BitVec n)} (hl : Layout m ss)
    (hf : Fits ss xs) : Below m (pack (w := w) ss xs) := by
  induction ss generalizing m xs with
  | nil =>
    intro j _
    cases xs with
    | nil => exact BitVec.getLsbD_zero
    | cons => exact absurd hf id
  | cons s ss ih =>
    obtain ⟨p, k⟩ := s
    cases xs with
    | nil => exact absurd hf id
    | cons x xs =>
      intro j hj
      have hp := hl.1
      rw [pack, getLsbD_cons x (ih hl.2 hf.2), if_neg (by omega),
        getLsbD_of_lt hf.1 (by omega), Bool.and_false]

theorem mask_below {m : ℕ} {ss : List Slot} (hl : Layout m ss) :
    Below m (mask (w := w) ss) := by
  induction ss generalizing m with
  | nil =>
    intro j _
    exact BitVec.getLsbD_zero
  | cons s ss ih =>
    obtain ⟨p, k⟩ := s
    intro j hj
    have hp := hl.1
    rw [mask, BitVec.getLsbD_or, ih hl.2 j (by omega), BitVec.getLsbD_shiftLeft, getLsbD_ones,
      decide_eq_false (show ¬ j - p < k by omega), Bool.and_false, Bool.and_false, Bool.or_false]

theorem slot_le {m : ℕ} {ss : List Slot} (hl : Layout m ss) : ∀ s ∈ ss, s.1 + s.2 ≤ m := by
  induction ss generalizing m with
  | nil => exact nofun
  | cons s ss ih =>
    obtain ⟨p, k⟩ := s
    intro t ht
    rcases List.mem_cons.mp ht with rfl | ht
    · exact hl.1
    · exact (ih hl.2 t ht).trans ((Nat.le_add_right p k).trans hl.1)

theorem extract_head {p k : ℕ} {r : BitVec w} {x : BitVec n} (hr : Below p r)
    (hx : x.toNat < 2 ^ k) (hw : p + k ≤ w) : extract n (x.setWidth w <<< p + r) p k = x := by
  apply BitVec.eq_of_getLsbD_eq
  intro j hj
  rw [getLsbD_extract, getLsbD_cons x hr, if_neg (by omega), Nat.add_sub_cancel_left,
    decide_eq_true hj, Bool.true_and]
  by_cases hk : j < k
  · rw [decide_eq_true hk, decide_eq_true (show p + j < w by omega), Bool.true_and, Bool.true_and]
  · rw [decide_eq_false hk, Bool.false_and, getLsbD_of_lt hx (by omega)]

theorem extract_tail {p q l : ℕ} {r : BitVec w} (x : BitVec n) (hr : Below p r) (hq : q + l ≤ p) :
    extract n (x.setWidth w <<< p + r) q l = extract n r q l := by
  apply BitVec.eq_of_getLsbD_eq
  intro j _
  rw [getLsbD_extract, getLsbD_extract, getLsbD_cons x hr]
  by_cases hl : j < l
  · rw [if_pos (by omega)]
  · rw [decide_eq_false hl, Bool.and_false, Bool.false_and, Bool.false_and]

theorem unpack_pack {m : ℕ} {ss : List Slot} {xs : List (BitVec n)} (hl : Layout m ss)
    (ht : m ≤ w) (hf : Fits ss xs) : unpack n ss (pack (w := w) ss xs) = xs := by
  induction ss generalizing m xs with
  | nil =>
    cases xs with
    | nil => rfl
    | cons => exact absurd hf id
  | cons s ss ih =>
    obtain ⟨p, k⟩ := s
    cases xs with
    | nil => exact absurd hf id
    | cons x xs =>
      have hb : Below p (pack (w := w) ss xs) := pack_below hl.2 hf.2
      have hp := hl.1
      have hrest : unpack n ss (x.setWidth w <<< p + pack ss xs) = xs := by
        rw [← ih hl.2 (by omega) hf.2]
        apply List.map_congr_left
        intro t ht
        rw [ih hl.2 (by omega) hf.2]
        exact extract_tail x hb (slot_le hl.2 t ht)
      exact congrArg₂ List.cons (extract_head hb hf.1 (by omega)) hrest

theorem fits_unpack (ss : List Slot) (v : BitVec w) : Fits ss (unpack n ss v) := by
  induction ss with
  | nil => trivial
  | cons s ss ih =>
    refine ⟨Nat.lt_pow_two_of_testBit _ fun j hj => ?_, ih⟩
    have h := getLsbD_extract (n := n) v s.1 s.2 j
    rw [decide_eq_false (show ¬ j < s.2 by omega), Bool.and_false, Bool.false_and] at h
    exact h

/-- Packing what was read keeps the bits of the slots. -/
theorem pack_unpack {m : ℕ} {ss : List Slot} (hl : Layout m ss) (ht : m ≤ w)
    (hn : ∀ s ∈ ss, s.2 ≤ n) (v : BitVec w) : pack ss (unpack n ss v) = v &&& mask ss := by
  induction ss generalizing m with
  | nil => exact BitVec.and_zero.symm
  | cons s ss ih =>
    obtain ⟨p, k⟩ := s
    have hp := hl.1
    have hk : k ≤ n := hn (p, k) (List.mem_cons_self ..)
    have hrest := ih hl.2 (by omega) fun s hs => hn s (List.mem_cons_of_mem _ hs)
    have hb : Below p (pack (w := w) ss (unpack n ss v)) := pack_below hl.2 (fits_unpack ss v)
    apply BitVec.eq_of_getLsbD_eq
    intro j hj
    refine (getLsbD_cons (extract n v p k) hb j).trans ?_
    rw [mask, BitVec.getLsbD_and, BitVec.getLsbD_or, BitVec.getLsbD_shiftLeft, getLsbD_ones,
      decide_eq_true hj, Bool.true_and, Bool.true_and]
    by_cases hlt : j < p
    · rw [if_pos hlt, hrest, BitVec.getLsbD_and, decide_eq_true hlt, Bool.not_true, Bool.false_and,
        Bool.false_or]
    · rw [if_neg hlt, mask_below hl.2 j (by omega), decide_eq_false hlt, getLsbD_extract,
        Nat.add_sub_of_le (Nat.le_of_not_lt hlt), decide_eq_true (show j - p < w by omega),
        Bool.not_false, Bool.true_and, Bool.true_and, Bool.or_false]
      by_cases hk : j - p < k
      · rw [decide_eq_true hk, decide_eq_true (show j - p < n by omega), Bool.true_and,
          Bool.true_and, Bool.and_true]
      · rw [decide_eq_false hk, Bool.and_false, Bool.false_and, Bool.and_false]

theorem pack_and_mask {m : ℕ} {ss : List Slot} {xs : List (BitVec n)} (hl : Layout m ss)
    (ht : m ≤ w) (hn : ∀ s ∈ ss, s.2 ≤ n) (hf : Fits ss xs) :
    pack (w := w) ss xs &&& mask ss = pack ss xs := by
  rw [← pack_unpack hl ht hn, unpack_pack hl ht hf]

/-! ### Carries -/

def parts : List Slot → List (BitVec n) → List (BitVec w)
  | (p, _) :: ss, x :: xs => x.setWidth w <<< p :: parts ss xs
  | _, _ => []

theorem sum_parts (ss : List Slot) (xs : List (BitVec n)) :
    (parts (w := w) ss xs).sum = pack ss xs := by
  induction ss generalizing xs with
  | nil => rfl
  | cons s ss ih =>
    cases xs with
    | nil => rfl
    | cons x xs => exact congrArg (x.setWidth w <<< s.1 + ·) (ih xs)

theorem parts_below {m : ℕ} {ss : List Slot} {xs : List (BitVec n)} (hl : Layout m ss)
    (hf : Fits ss xs) : ∀ y ∈ parts (w := w) ss xs, Below m y := by
  induction ss generalizing m xs with
  | nil => exact nofun
  | cons s ss ih =>
    obtain ⟨p, k⟩ := s
    cases xs with
    | nil => exact nofun
    | cons x xs =>
      have hp := hl.1
      intro y hy j hj
      rcases List.mem_cons.mp hy with rfl | hy
      · rw [BitVec.getLsbD_shiftLeft, BitVec.getLsbD_setWidth,
          getLsbD_of_lt hf.1 (show k ≤ j - p by omega), Bool.and_false, Bool.and_false]
      · exact ih hl.2 hf.2 y hy j (by omega)

/-- No carry runs from one field into another: the summands have no bit in common. -/
theorem parts_disjoint {m : ℕ} {ss : List Slot} {xs : List (BitVec n)} (hl : Layout m ss)
    (hf : Fits ss xs) : (parts (w := w) ss xs).Pairwise fun x y => x &&& y = 0 := by
  induction ss generalizing m xs with
  | nil => exact .nil
  | cons s ss ih =>
    cases xs with
    | nil => exact .nil
    | cons x xs =>
      refine List.pairwise_cons.mpr ⟨fun y hy => ?_, ih hl.2 hf.2⟩
      exact shifted_and x (parts_below hl.2 hf.2 y hy)

/-! ### Packed registers -/

/-- `read` and `write` are the packing and the unpacking of the fields of `α`. -/
structure Packs {α : Type*} (ss : List Slot) (InWidth : α → Prop) (fields : α → List (BitVec n))
    (read : α → BitVec w) (write : BitVec w → α) : Prop where
  layout : Layout w ss
  width : ∀ s ∈ ss, s.2 ≤ n
  fits : ∀ a, InWidth a → Fits ss (fields a)
  read_eq : ∀ a, InWidth a → read a = pack ss (fields a)
  fields_write : ∀ v, fields (write v) = unpack n ss v
  inWidth_write : ∀ v, InWidth (write v)

section

variable {α : Type*} {ss : List Slot} {InWidth : α → Prop} {fields : α → List (BitVec n)}
  {read : α → BitVec w} {write : BitVec w → α}

theorem Packs.read_write (h : Packs ss InWidth fields read write) (v : BitVec w) :
    read (write v) = v &&& mask ss := by
  rw [h.read_eq _ (h.inWidth_write v), h.fields_write]
  exact pack_unpack h.layout le_rfl h.width v

theorem Packs.fields_write_read (h : Packs ss InWidth fields read write) {a : α} (ha : InWidth a) :
    fields (write (read a)) = fields a := by
  rw [h.fields_write, h.read_eq a ha]
  exact unpack_pack h.layout le_rfl (h.fits a ha)

theorem Packs.sum_eq (h : Packs ss InWidth fields read write) {a : α} (ha : InWidth a) :
    read a = (parts ss (fields a)).sum := by
  rw [h.read_eq a ha, sum_parts]

theorem Packs.disjoint (h : Packs ss InWidth fields read write) {a : α} (ha : InWidth a) :
    (parts (w := w) ss (fields a)).Pairwise fun x y => x &&& y = 0 :=
  parts_disjoint h.layout (h.fits a ha)

end

/-! ### Splicing -/

theorem getLsbD_splice (u v m : BitVec w) (j : ℕ) :
    (splice u v m).getLsbD j = if m.getLsbD j then v.getLsbD j else u.getLsbD j := by
  by_cases hj : j < w
  · rw [splice, BitVec.getLsbD_or, BitVec.getLsbD_and, BitVec.getLsbD_and, BitVec.getLsbD_not,
      decide_eq_true hj, Bool.true_and]
    cases m.getLsbD j <;> simp
  · rw [BitVec.getLsbD_of_ge _ _ (by omega), BitVec.getLsbD_of_ge _ _ (by omega),
      BitVec.getLsbD_of_ge _ _ (by omega), BitVec.getLsbD_of_ge _ _ (by omega)]
    rfl

theorem splice_self (u m : BitVec w) : splice u (u &&& m) m = u := by
  apply BitVec.eq_of_getLsbD_eq
  intro j _
  rw [getLsbD_splice, BitVec.getLsbD_and]
  cases m.getLsbD j with
  | true => rw [if_pos rfl, Bool.and_true]
  | false => rw [if_neg Bool.false_ne_true]

theorem splice_and_self (u v m : BitVec w) : splice u v m &&& m = v &&& m := by
  apply BitVec.eq_of_getLsbD_eq
  intro j _
  rw [BitVec.getLsbD_and, BitVec.getLsbD_and, getLsbD_splice]
  cases m.getLsbD j with
  | true => rw [if_pos rfl]
  | false => rw [Bool.and_false, Bool.and_false]

theorem splice_and_of_disjoint {m l : BitVec w} (h : m &&& l = 0#w) (u v : BitVec w) :
    splice u v m &&& l = u &&& l := by
  apply BitVec.eq_of_getLsbD_eq
  intro j _
  have hj := congrArg (fun z => z.getLsbD j) h
  rw [BitVec.getLsbD_and, BitVec.getLsbD_and, getLsbD_splice]
  simp only [BitVec.getLsbD_and, BitVec.getLsbD_zero] at hj
  cases hm : m.getLsbD j with
  | true =>
    rw [hm, Bool.true_and] at hj
    rw [hj, Bool.and_false, Bool.and_false]
  | false => rw [if_neg Bool.false_ne_true]

theorem extract_splice_in {m : BitVec w} {p k : ℕ} (h : ∀ j < k, m.getLsbD (p + j) = true)
    (u v : BitVec w) : extract n (splice u v m) p k = extract n v p k := by
  apply BitVec.eq_of_getLsbD_eq
  intro j _
  rw [getLsbD_extract, getLsbD_extract]
  by_cases hk : j < k
  · rw [getLsbD_splice, if_pos (h j hk)]
  · rw [decide_eq_false hk, Bool.and_false, Bool.false_and, Bool.false_and]

theorem extract_splice_out {m : BitVec w} {p k : ℕ} (h : ∀ j < k, m.getLsbD (p + j) = false)
    (u v : BitVec w) : extract n (splice u v m) p k = extract n u p k := by
  apply BitVec.eq_of_getLsbD_eq
  intro j _
  rw [getLsbD_extract, getLsbD_extract]
  by_cases hk : j < k
  · rw [getLsbD_splice, if_neg (by rw [h j hk]; exact Bool.false_ne_true)]
  · rw [decide_eq_false hk, Bool.and_false, Bool.false_and, Bool.false_and]

/-- Outside of `m` a splice is the old word exactly when nothing else that it writes changes. -/
theorem splice_frame_iff {u f r m l : BitVec w} (hu : u &&& f = u) (hr : r &&& f = r)
    (hl : r &&& ~~~m = l) (x : BitVec w) :
    splice u x r &&& f &&& ~~~m = u &&& ~~~m ↔ x &&& l = u &&& l := by
  have key : ∀ u x r f m : Bool, (u && f) = u → (r && f) = r →
      (((if r then x else u) && f && !m) = (u && !m) ↔
        (x && (r && !m)) = (u && (r && !m))) := by decide
  have hbit (j : ℕ) (hj : j < w) :
      ((splice u x r &&& f &&& ~~~m).getLsbD j = (u &&& ~~~m).getLsbD j ↔
        (x &&& l).getLsbD j = (u &&& l).getLsbD j) := by
    have huj := congrArg (fun z => z.getLsbD j) hu
    have hrj := congrArg (fun z => z.getLsbD j) hr
    simp only [BitVec.getLsbD_and] at huj hrj
    subst hl
    simp only [BitVec.getLsbD_and, BitVec.getLsbD_not, getLsbD_splice, decide_eq_true hj,
      Bool.true_and]
    exact key _ _ _ _ _ huj hrj
  constructor
  · intro h
    exact BitVec.eq_of_getLsbD_eq fun j hj => (hbit j hj).mp (congrArg (fun z => z.getLsbD j) h)
  · intro h
    exact BitVec.eq_of_getLsbD_eq fun j hj => (hbit j hj).mpr (congrArg (fun z => z.getLsbD j) h)

theorem splice_and {f r m : BitVec w} (hr : m &&& r = m) (hf : m &&& f = m) (u x : BitVec w) :
    splice u x r &&& f &&& m = x &&& m := by
  have key : ∀ u x r f m : Bool, (m && r) = m → (m && f) = m →
      ((if r then x else u) && f && m) = (x && m) := by decide
  apply BitVec.eq_of_getLsbD_eq
  intro j _
  have hrj := congrArg (fun z => z.getLsbD j) hr
  have hfj := congrArg (fun z => z.getLsbD j) hf
  simp only [BitVec.getLsbD_and] at hrj hfj
  simp only [BitVec.getLsbD_and, getLsbD_splice]
  exact key _ _ _ _ _ hrj hfj

end Packed
