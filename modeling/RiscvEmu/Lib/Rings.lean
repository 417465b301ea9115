import Mathlib.Data.BitVec
import Mathlib.Data.List.Basic
import Mathlib.Data.Nat.ModEq

/-! Ring buffers whose indices run freely: an index is a counter of a fixed width that wraps around,
and its position in a ring is its remainder. -/

namespace Rings

variable {w : ℕ} {a b c i j : BitVec w}

/-- The indices from `a` on and before `b`, around the end of the counter. -/
def span (a b : BitVec w) : List (BitVec w) :=
  (List.range (b - a).toNat).map fun i => a + BitVec.ofNat w i

def position (size : ℕ) (i : BitVec w) : ℕ := i.toNat % size

theorem length_span (a b : BitVec w) : (span a b).length = (b - a).toNat := by
  rw [span, List.length_map, List.length_range]

theorem span_self (a : BitVec w) : span a a = [] := by
  rw [span, BitVec.sub_self, BitVec.toNat_zero]
  rfl

theorem toNat_one_of_lt (h : 1 < 2 ^ w) : (1 : BitVec w).toNat = 1 := Nat.mod_eq_of_lt h

theorem toNat_sub_one {d : BitVec w} (h : d ≠ 0) : (d - 1).toNat + 1 = d.toNat := by
  have hpos : 0 < d.toNat := Nat.pos_of_ne_zero fun h0 => h (BitVec.eq_of_toNat_eq h0)
  have hone : (1 : BitVec w).toNat = 1 := toNat_one_of_lt (Nat.lt_of_le_of_lt hpos d.isLt)
  have hle : (1 : BitVec w) ≤ d := by
    rw [BitVec.le_def, hone]
    exact hpos
  rw [BitVec.toNat_sub_of_le hle, hone]
  exact Nat.sub_add_cancel hpos

theorem span_of_ne (h : a ≠ b) : span a b = a :: span (a + 1) b := by
  have hlen : (b - (a + 1)).toNat + 1 = (b - a).toNat := by
    rw [← sub_sub]
    exact toNat_sub_one (sub_ne_zero.mpr h.symm)
  unfold span
  rw [← hlen, List.range_succ_eq_map, List.map_cons, List.map_map]
  refine congrArg₂ _ (add_zero a) (List.map_congr_left fun k _ => ?_)
  rw [Function.comp_apply, Nat.succ_eq_add_one, Nat.add_comm, BitVec.ofNat_add, ← add_assoc]
  rfl

theorem mem_span : i ∈ span a b ↔ (i - a).toNat < (b - a).toNat := by
  unfold span
  rw [List.mem_map]
  constructor
  · rintro ⟨k, hk, rfl⟩
    have hk := List.mem_range.mp hk
    have hlt := (b - a).isLt
    rw [add_sub_cancel_left, BitVec.toNat_ofNat, Nat.mod_eq_of_lt (by omega)]
    exact hk
  · intro h
    refine ⟨(i - a).toNat, List.mem_range.mpr h, ?_⟩
    rw [BitVec.ofNat_toNat, BitVec.setWidth_eq, add_sub_cancel]

/-- The low bits of an index are its position in a ring whose size is a power of two. -/
theorem toNat_and_sub_one {n : BitVec w} {k : ℕ} (hn : n.toNat = 2 ^ k) (i : BitVec w) :
    (i &&& (n - 1)).toNat = position n.toNat i := by
  have hne : n ≠ 0 := by
    rintro rfl
    exact (Nat.two_pow_pos k).ne hn
  have hsub := toNat_sub_one hne
  rw [BitVec.toNat_and, Nat.eq_sub_of_add_eq hsub, hn, Nat.and_two_pow_sub_one_eq_mod, position]

theorem position_injOn {k : ℕ} (h : (b - a).toNat ≤ 2 ^ k) (hi : i ∈ span a b)
    (hj : j ∈ span a b) (hp : position (2 ^ k) i = position (2 ^ k) j) : i = j := by
  rw [mem_span] at hi hj
  by_cases hk : k ≤ w
  · have hdvd : 2 ^ k ∣ 2 ^ w := Nat.pow_dvd_pow 2 hk
    have hpos (x : BitVec w) : position (2 ^ k) x = (a.toNat + (x - a).toNat) % 2 ^ k := by
      rw [position, ← Nat.mod_mod_of_dvd (a.toNat + (x - a).toNat) hdvd, ← BitVec.toNat_add,
        add_sub_cancel]
    rw [hpos, hpos] at hp
    have hmod : (i - a).toNat ≡ (j - a).toNat [MOD 2 ^ k] :=
      Nat.ModEq.add_left_cancel' a.toNat hp
    have heq := Nat.ModEq.eq_of_lt_of_lt hmod (by omega) (by omega)
    exact sub_left_injective (BitVec.eq_of_toNat_eq heq)
  · have hlt : 2 ^ w < 2 ^ k := Nat.pow_lt_pow_right (by decide) (Nat.lt_of_not_le hk)
    unfold position at hp
    rw [Nat.mod_eq_of_lt (i.isLt.trans hlt), Nat.mod_eq_of_lt (j.isLt.trans hlt)] at hp
    exact BitVec.eq_of_toNat_eq hp

end Rings
