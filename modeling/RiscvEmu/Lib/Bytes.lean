import Mathlib.Data.BitVec
import Mathlib.Data.List.Basic

/-! Byte-addressed memories over wide cells: bit fields of a word, their little-endian bytes, and
memories as functions from addresses that are written in ranges. -/

namespace Bytes

/-! ### Fields of a word -/

section Fields

variable {W : ℕ}

def low (W n : ℕ) : BitVec W := BitVec.ofNat W (2 ^ n - 1)

/-- Every bit but the `n` ones from bit `b` on. -/
def hole (W b n : ℕ) : BitVec W := ~~~ (low W n <<< b)

/-- The `n` bits from bit `b` on. -/
def slice (w : BitVec W) (b n : ℕ) : BitVec W := (w >>> b) &&& low W n

/-- `w` with the `n` low bits of `v` in the place of its `n` bits from bit `b` on. -/
def splice (w v : BitVec W) (b n : ℕ) : BitVec W := (w &&& hole W b n) + ((v &&& low W n) <<< b)

theorem getLsbD_low (n i : ℕ) (hi : i < W) : (low W n).getLsbD i = decide (i < n) := by
  rw [low, BitVec.getLsbD_ofNat, Nat.testBit_two_pow_sub_one, decide_eq_true hi, Bool.true_and]

theorem getLsbD_hole (b n i : ℕ) (hi : i < W) :
    (hole W b n).getLsbD i = !(decide (b ≤ i) && decide (i - b < n)) := by
  rw [hole, BitVec.getLsbD_not, decide_eq_true hi, Bool.true_and, BitVec.getLsbD_shiftLeft,
    decide_eq_true hi, Bool.true_and, getLsbD_low n (i - b) (by omega)]
  simp only [← decide_not, Nat.not_lt]

theorem getLsbD_slice (w : BitVec W) (b n i : ℕ) (hi : i < W) :
    (slice w b n).getLsbD i = (w.getLsbD (b + i) && decide (i < n)) := by
  rw [slice, BitVec.getLsbD_and, BitVec.getLsbD_ushiftRight, getLsbD_low n i hi]

theorem slice_eq_extract (w : BitVec W) (b n : ℕ) :
    slice w b n = (w.extractLsb' b n).setWidth W := by
  refine BitVec.eq_of_getLsbD_eq fun i hi => ?_
  rw [getLsbD_slice _ _ _ _ hi, BitVec.getLsbD_setWidth, BitVec.getLsbD_extractLsb',
    decide_eq_true hi, Bool.true_and, Bool.and_comm]

theorem slice_and_low (w : BitVec W) (b n : ℕ) : slice w b n &&& low W n = slice w b n := by
  rw [slice, BitVec.and_assoc, BitVec.and_self]

theorem slice_all (w : BitVec W) : slice w 0 W = w := by
  refine BitVec.eq_of_getLsbD_eq fun i hi => ?_
  rw [getLsbD_slice _ _ _ _ hi, decide_eq_true hi, Bool.and_true, Nat.zero_add]

/-- The two summands of a splice have no bit in common. -/
theorem splice_eq_or (w v : BitVec W) (b n : ℕ) :
    splice w v b n = (w &&& hole W b n) ||| ((v &&& low W n) <<< b) := by
  refine BitVec.add_eq_or_of_and_eq_zero _ _ (BitVec.eq_of_getLsbD_eq fun i hi => ?_)
  have hlow : (low W n).getLsbD (i - b) = decide (i - b < n) := getLsbD_low n (i - b) (by omega)
  simp only [BitVec.getLsbD_and, BitVec.getLsbD_shiftLeft, getLsbD_hole b n i hi, hlow,
    BitVec.getLsbD_zero, decide_eq_true hi, Bool.true_and]
  by_cases hb : b ≤ i <;> by_cases hn : i - b < n <;> simp [hb, hn]

theorem getLsbD_splice (w v : BitVec W) (b n i : ℕ) (hi : i < W) :
    (splice w v b n).getLsbD i = if b ≤ i ∧ i < b + n then v.getLsbD (i - b) else w.getLsbD i := by
  have hlow : (low W n).getLsbD (i - b) = decide (i - b < n) := getLsbD_low n (i - b) (by omega)
  rw [splice_eq_or]
  simp only [BitVec.getLsbD_or, BitVec.getLsbD_and, BitVec.getLsbD_shiftLeft,
    getLsbD_hole b n i hi, hlow, decide_eq_true hi, Bool.true_and]
  by_cases hb : b ≤ i
  · have hsub : i - b < n ↔ i < b + n := by omega
    by_cases hn : i < b + n <;> simp [hb, hn, hsub]
  · simp [hb]

theorem splice_all (w v : BitVec W) : splice w v 0 W = v := by
  refine BitVec.eq_of_getLsbD_eq fun i hi => ?_
  rw [getLsbD_splice _ _ _ _ _ hi, if_pos (by omega), Nat.sub_zero]

theorem and_hole (w : BitVec W) (b n : ℕ) :
    w &&& hole W b n = (w &&& hole W 0 (b + n)) + (w &&& low W b) := by
  rw [BitVec.add_eq_or_of_and_eq_zero]
  all_goals
    refine BitVec.eq_of_getLsbD_eq fun i hi => ?_
    simp only [BitVec.getLsbD_and, BitVec.getLsbD_or, getLsbD_hole _ _ i hi, getLsbD_low b i hi,
      BitVec.getLsbD_zero]
    cases w.getLsbD i <;> grind

end Fields

/-! ### Bytes of a word -/

section Words

variable {W : ℕ}

def byte (w : BitVec W) (i : ℕ) : BitVec 8 := (w >>> (8 * i)).setWidth 8

def bytes (w : BitVec W) (n : ℕ) : List (BitVec 8) := (List.range n).map (byte w)

def little (W : ℕ) : List (BitVec 8) → BitVec W
  | [] => 0
  | x :: xs => x.setWidth W ||| little W xs <<< 8

@[simp] theorem length_bytes (w : BitVec W) (n : ℕ) : (bytes w n).length = n := by
  rw [bytes, List.length_map, List.length_range]

theorem getElem?_bytes (w : BitVec W) (n i : ℕ) :
    (bytes w n)[i]? = if i < n then some (byte w i) else none := by
  rw [bytes, List.getElem?_map]
  by_cases h : i < n
  · rw [List.getElem?_range h, if_pos h]
    rfl
  · rw [List.getElem?_eq_none (by rw [List.length_range]; omega), if_neg h]
    rfl

theorem getLsbD_byte (w : BitVec W) (i k : ℕ) (hk : k < 8) :
    (byte w i).getLsbD k = w.getLsbD (8 * i + k) := by
  rw [byte, BitVec.getLsbD_setWidth, decide_eq_true hk, Bool.true_and, BitVec.getLsbD_ushiftRight]

theorem toNat_byte (w : BitVec W) (i : ℕ) : (byte w i).toNat = w.toNat / 2 ^ (8 * i) % 2 ^ 8 := by
  rw [byte, BitVec.toNat_setWidth, BitVec.toNat_ushiftRight, Nat.shiftRight_eq_div_pow]

theorem byte_of_lt {w : BitVec W} {i : ℕ} (h : w.toNat < 2 ^ (8 * i)) : byte w i = 0 := by
  refine BitVec.eq_of_toNat_eq ?_
  rw [toNat_byte, Nat.div_eq_of_lt h]
  rfl

theorem byte_or (v w : BitVec W) (i : ℕ) : byte (v ||| w) i = byte v i ||| byte w i := by
  refine BitVec.eq_of_getLsbD_eq fun k hk => ?_
  rw [BitVec.getLsbD_or, getLsbD_byte _ _ _ hk, getLsbD_byte _ _ _ hk, getLsbD_byte _ _ _ hk,
    BitVec.getLsbD_or]

theorem byte_shiftLeft (w : BitVec W) (o i : ℕ) (hi : 8 * i + 8 ≤ W) :
    byte (w <<< (8 * o)) i = if o ≤ i then byte w (i - o) else 0 := by
  refine BitVec.eq_of_getLsbD_eq fun k hk => ?_
  rw [getLsbD_byte _ _ _ hk, BitVec.getLsbD_shiftLeft,
    decide_eq_true (show 8 * i + k < W by omega), Bool.true_and]
  split
  · rw [getLsbD_byte _ _ _ hk, decide_eq_false (show ¬ 8 * i + k < 8 * o by omega), Bool.not_false,
      Bool.true_and]
    congr 1
    omega
  · rw [decide_eq_true (show 8 * i + k < 8 * o by omega)]
    exact BitVec.getLsbD_zero.symm

theorem byte_setWidth {V : ℕ} (w : BitVec W) (i : ℕ) (hi : 8 * i + 8 ≤ V) :
    byte (w.setWidth V) i = byte w i := by
  refine BitVec.eq_of_getLsbD_eq fun k hk => ?_
  rw [getLsbD_byte _ _ _ hk, getLsbD_byte _ _ _ hk, BitVec.getLsbD_setWidth,
    decide_eq_true (show 8 * i + k < V by omega), Bool.true_and]

theorem bytes_setWidth {V n : ℕ} (w : BitVec W) (hn : 8 * n ≤ V) :
    bytes (w.setWidth V) n = bytes w n := by
  refine List.map_congr_left fun i hi => ?_
  have hlt := List.mem_range.mp hi
  exact byte_setWidth w i (by omega)

theorem eq_of_byte_eq {v w : BitVec W} (h : ∀ i, 8 * i < W → byte v i = byte w i) : v = w := by
  refine BitVec.eq_of_getLsbD_eq fun k hk => ?_
  have hbyte := congrArg (fun x => x.getLsbD (k % 8)) (h (k / 8) (by omega))
  simp only [getLsbD_byte _ _ _ (Nat.mod_lt k (by decide))] at hbyte
  rwa [Nat.div_add_mod] at hbyte

theorem byte_little (xs : List (BitVec 8)) (i : ℕ) (hi : 8 * i + 8 ≤ W) :
    byte (little W xs) i = xs.getD i 0 := by
  induction xs generalizing i with
  | nil =>
    refine BitVec.eq_of_getLsbD_eq fun k hk => ?_
    rw [getLsbD_byte _ _ _ hk]
    simp [little]
  | cons x xs ih =>
    refine BitVec.eq_of_getLsbD_eq fun k hk => ?_
    rw [getLsbD_byte _ _ _ hk, little, BitVec.getLsbD_or, BitVec.getLsbD_setWidth,
      BitVec.getLsbD_shiftLeft, decide_eq_true (show 8 * i + k < W by omega)]
    cases i with
    | zero => simp [hk]
    | succ i =>
      have hx : x.getLsbD (8 * (i + 1) + k) = false := BitVec.getLsbD_of_ge _ _ (by omega)
      have hge : ¬ 8 * (i + 1) + k < 8 := by omega
      rw [hx, ← show 8 * i + k = 8 * (i + 1) + k - 8 by omega, ← getLsbD_byte _ _ _ hk,
        ih i (by omega)]
      simp [hge]

theorem toNat_little_lt (xs : List (BitVec 8)) : (little W xs).toNat < 2 ^ (8 * xs.length) := by
  induction xs with
  | nil =>
    show 0 % 2 ^ W < 1
    rw [Nat.zero_mod]
    exact Nat.one_pos
  | cons x xs ih =>
    have hx : (x.setWidth W).toNat < 2 ^ (8 * (xs.length + 1)) := by
      have hle : 2 ^ 8 ≤ 2 ^ (8 * (xs.length + 1)) :=
        Nat.pow_le_pow_right (by decide) (by omega)
      rw [BitVec.toNat_setWidth]
      exact Nat.lt_of_le_of_lt (Nat.mod_le _ _) (Nat.lt_of_lt_of_le x.isLt hle)
    have hxs : (little W xs <<< 8).toNat < 2 ^ (8 * (xs.length + 1)) := by
      have hpow : 2 ^ (8 * (xs.length + 1)) = 2 ^ (8 * xs.length) * 2 ^ 8 := Nat.pow_add ..
      rw [BitVec.toNat_shiftLeft, Nat.shiftLeft_eq, hpow]
      exact Nat.lt_of_le_of_lt (Nat.mod_le _ _) (Nat.mul_lt_mul_of_pos_right ih (by decide))
    rw [little, BitVec.toNat_or]
    exact Nat.or_lt_two_pow hx hxs

theorem toNat_little_cons (x : BitVec 8) {xs : List (BitVec 8)} (h : 8 * (xs.length + 1) ≤ W) :
    (little W (x :: xs)).toNat = x.toNat + 2 ^ 8 * (little W xs).toNat := by
  have hx : x.toNat < 2 ^ W :=
    Nat.lt_of_lt_of_le x.isLt (Nat.pow_le_pow_right (by decide) (by omega))
  have hxs : (little W xs).toNat * 2 ^ 8 < 2 ^ W := by
    have hpow : 2 ^ (8 * (xs.length + 1)) = 2 ^ (8 * xs.length) * 2 ^ 8 := Nat.pow_add ..
    have hle := Nat.pow_le_pow_right (show 0 < 2 by decide) h
    rw [hpow] at hle
    exact Nat.lt_of_lt_of_le (Nat.mul_lt_mul_of_pos_right (toNat_little_lt xs) (by decide)) hle
  -- the shifted part has no bit in common with the first byte
  have hor := Nat.shiftLeft_add_eq_or_of_lt x.isLt (little W xs).toNat
  rw [Nat.shiftLeft_eq] at hor
  rw [little, BitVec.toNat_or, BitVec.toNat_shiftLeft, BitVec.toNat_setWidth, Nat.mod_eq_of_lt hx,
    Nat.shiftLeft_eq, Nat.mod_eq_of_lt hxs, Nat.or_comm, ← hor, Nat.add_comm, Nat.mul_comm]

theorem byte_slice (w : BitVec W) (o n i : ℕ) (hi : 8 * i + 8 ≤ W) :
    byte (slice w (8 * o) (8 * n)) i = if i < n then byte w (o + i) else 0 := by
  refine BitVec.eq_of_getLsbD_eq fun k hk => ?_
  rw [getLsbD_byte _ _ _ hk, getLsbD_slice _ _ _ _ (by omega)]
  split
  · rw [getLsbD_byte _ _ _ hk, decide_eq_true (show 8 * i + k < 8 * n by omega), Bool.and_true]
    congr 1
    omega
  · rw [decide_eq_false (show ¬ 8 * i + k < 8 * n by omega), Bool.and_false]
    exact BitVec.getLsbD_zero.symm

theorem byte_extract (w : BitVec W) (o n i : ℕ) (hi : i < n) :
    byte (w.extractLsb' (8 * o) (8 * n)) i = byte w (o + i) := by
  refine BitVec.eq_of_getLsbD_eq fun b hb => ?_
  rw [getLsbD_byte _ _ _ hb, getLsbD_byte _ _ _ hb, BitVec.getLsbD_extractLsb',
    decide_eq_true (show 8 * i + b < 8 * n by omega), Bool.true_and]
  congr 1
  omega

theorem extract_eq_iff (v w : BitVec W) (j k n : ℕ) :
    v.extractLsb' (8 * j) (8 * n) = w.extractLsb' (8 * k) (8 * n) ↔
      ∀ i < n, byte v (j + i) = byte w (k + i) := by
  constructor
  · intro h i hi
    rw [← byte_extract v j n i hi, ← byte_extract w k n i hi, h]
  · intro h
    refine eq_of_byte_eq fun i hi => ?_
    have hi : i < n := by omega
    rw [byte_extract v j n i hi, byte_extract w k n i hi]
    exact h i hi

theorem slice_eq_little (w : BitVec W) (o n : ℕ) (hW : W % 8 = 0) :
    slice w (8 * o) (8 * n) = little W ((List.range n).map fun i => byte w (o + i)) := by
  refine eq_of_byte_eq fun i hi => ?_
  rw [byte_slice _ _ _ _ (by omega), byte_little _ _ (by omega), List.getD_eq_getElem?_getD,
    List.getElem?_map]
  split
  · rename_i h
    rw [List.getElem?_range h]
    rfl
  · rename_i h
    rw [List.getElem?_eq_none (by rw [List.length_range]; omega)]
    rfl

theorem byte_splice (w v : BitVec W) (o n i : ℕ) (hi : 8 * i + 8 ≤ W) :
    byte (splice w v (8 * o) (8 * n)) i =
      if o ≤ i ∧ i < o + n then byte v (i - o) else byte w i := by
  refine BitVec.eq_of_getLsbD_eq fun k hk => ?_
  rw [getLsbD_byte _ _ _ hk, getLsbD_splice _ _ _ _ _ (by omega)]
  by_cases h : o ≤ i ∧ i < o + n
  · rw [if_pos h, if_pos (by omega), getLsbD_byte _ _ _ hk]
    congr 1
    omega
  · rw [if_neg h, if_neg (by omega), getLsbD_byte _ _ _ hk]

theorem eq_splice_low_iff (w v : BitVec W) (n : ℕ) (hW : W % 8 = 0) :
    v = splice w v (8 * 0) (8 * n) ↔ ∀ i, 8 * i < W → n ≤ i → byte v i = byte w i := by
  constructor
  · intro h i hi hn
    rw [h, byte_splice _ _ _ _ _ (by omega), if_neg (by omega)]
  · intro h
    refine eq_of_byte_eq fun i hi => ?_
    rw [byte_splice _ _ _ _ _ (by omega)]
    by_cases hn : i < n
    · rw [if_pos (by omega), Nat.sub_zero]
    · rw [if_neg (by omega)]
      exact h i hi (Nat.le_of_not_lt hn)

theorem eq_splice_self_iff (w v : BitVec W) (o n : ℕ) (hW : W % 8 = 0) (hfit : 8 * (o + n) ≤ W) :
    w = splice w v (8 * o) (8 * n) ↔ ∀ i < n, byte w (o + i) = byte v i := by
  constructor
  · intro h i hi
    rw [h, byte_splice _ _ _ _ _ (by omega), if_pos (by omega), Nat.add_sub_cancel_left]
  · intro h
    refine eq_of_byte_eq fun i hi => ?_
    rw [byte_splice _ _ _ _ _ (by omega)]
    split
    · rename_i hin
      rw [← h (i - o) (by omega), Nat.add_sub_cancel' hin.1]
    · rfl

end Words

/-! ### Memories -/

section Memories

variable {β : Type*}

/-- What a write of `p.2` from address `p.1` on puts at an address. -/
def written (p : ℕ × List β) (x : ℕ) : Option β := if p.1 ≤ x then p.2[x - p.1]? else none

def put (p : ℕ × List β) (f : ℕ → β) : ℕ → β := fun x => (written p x).getD (f x)

def lastWritten : List (ℕ × List β) → ℕ → Option β
  | [], _ => none
  | p :: ps, x => (lastWritten ps x).or (written p x)

theorem written_eq_none {p : ℕ × List β} {x : ℕ} :
    written p x = none ↔ x < p.1 ∨ p.1 + p.2.length ≤ x := by
  unfold written
  split
  · rw [List.getElem?_eq_none_iff]
    omega
  · simp only [true_iff]
    omega

theorem put_bytes {W : ℕ} (v : BitVec W) (a n : ℕ) (f : ℕ → BitVec 8) (x : ℕ) :
    put (a, bytes v n) f x = if a ≤ x ∧ x < a + n then byte v (x - a) else f x := by
  unfold put written
  by_cases hle : a ≤ x
  · rw [if_pos hle, getElem?_bytes]
    by_cases hlt : x < a + n
    · rw [if_pos (show x - a < n by omega), if_pos ⟨hle, hlt⟩]
      rfl
    · rw [if_neg (show ¬ x - a < n by omega), if_neg fun h => hlt h.2]
      rfl
  · rw [if_neg hle, if_neg fun h => hle h.1]
    rfl

theorem put_append (a : ℕ) (xs ys : List β) (f : ℕ → β) :
    put (a + xs.length, ys) (put (a, xs) f) = put (a, xs ++ ys) f := by
  funext x
  unfold put written
  dsimp only
  rw [List.getElem?_append]
  by_cases hle : a ≤ x
  · by_cases hlt : x < a + xs.length
    · have hin : x - a < xs.length := by omega
      rw [if_neg (show ¬ a + xs.length ≤ x by omega), if_pos hle, if_pos hle, if_pos hin]
      rfl
    · have hout : ¬ x - a < xs.length := by omega
      rw [if_pos (show a + xs.length ≤ x by omega), if_pos hle, if_pos hle, if_neg hout,
        List.getElem?_eq_none (show xs.length ≤ x - a by omega), Nat.sub_add_eq]
      rfl
  · rw [if_neg (show ¬ a + xs.length ≤ x by omega), if_neg hle, if_neg hle]
    rfl

theorem map_put (a : ℕ) (xs : List β) (f : ℕ → β) :
    (List.range xs.length).map (fun i => put (a, xs) f (a + i)) = xs := by
  refine List.ext_getElem? fun i => ?_
  rw [List.getElem?_map]
  by_cases hi : i < xs.length
  · have hput : put (a, xs) f (a + i) = xs[i] := by
      unfold put written
      rw [if_pos (Nat.le_add_right a i), Nat.add_sub_cancel_left, List.getElem?_eq_getElem hi]
      rfl
    rw [List.getElem?_range hi, Option.map_some, hput, List.getElem?_eq_getElem hi]
  · have hle : xs.length ≤ i := Nat.le_of_not_lt hi
    rw [List.getElem?_eq_none (by rwa [List.length_range]), List.getElem?_eq_none hle]
    rfl

theorem foldl_put (ps : List (ℕ × List β)) (f : ℕ → β) (x : ℕ) :
    ps.foldl (fun f p => put p f) f x = (lastWritten ps x).getD (f x) := by
  induction ps generalizing f with
  | nil => rfl
  | cons p ps ih =>
    rw [List.foldl_cons, ih, lastWritten]
    cases lastWritten ps x with
    | none => rfl
    | some b => rfl

theorem lastWritten_eq_none {ps : List (ℕ × List β)} {x : ℕ}
    (h : ∀ p ∈ ps, written p x = none) : lastWritten ps x = none := by
  induction ps with
  | nil => rfl
  | cons p ps ih =>
    rw [lastWritten, ih fun q hq => h q (List.mem_cons_of_mem _ hq), h p (List.mem_cons_self ..)]
    rfl

/-- Writes that put the same at an address, where one of them covers it. -/
theorem lastWritten_eq_some {ps : List (ℕ × List β)} {x : ℕ} {b : β}
    (hsame : ∀ p ∈ ps, written p x = none ∨ written p x = some b)
    (hcover : ∃ p ∈ ps, written p x = some b) : lastWritten ps x = some b := by
  induction ps with
  | nil =>
    obtain ⟨p, hp, -⟩ := hcover
    cases hp
  | cons p ps ih =>
    have hrest : ∀ q ∈ ps, written q x = none ∨ written q x = some b :=
      fun q hq => hsame q (List.mem_cons_of_mem _ hq)
    rw [lastWritten]
    by_cases hlater : ∃ q ∈ ps, written q x = some b
    · rw [ih hrest hlater, Option.some_or]
    · -- nothing after the first write covers the address
      have hnone : ∀ q ∈ ps, written q x = none := fun q hq =>
        (hrest q hq).resolve_right fun hs => hlater ⟨q, hq, hs⟩
      obtain ⟨q, hq, hs⟩ := hcover
      rcases List.mem_cons.mp hq with rfl | hq
      · rw [lastWritten_eq_none hnone, hs, Option.none_or]
      · exact absurd ⟨q, hq, hs⟩ hlater

end Memories

end Bytes
