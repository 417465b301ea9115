import Mathlib.Data.BitVec

/-! Numbers in hexadecimal digits, the high digit first. -/

namespace Hex

def digit? (c : Char) : Option ℕ :=
  if '0' ≤ c ∧ c ≤ '9' then some (c.toNat - 48)
  else if 'A' ≤ c ∧ c ≤ 'F' then some (c.toNat - 55)
  else if 'a' ≤ c ∧ c ≤ 'f' then some (c.toNat - 87)
  else none

/-- The number that the digits continue, where `n` stands before them. -/
def number? : ℕ → List Char → Option ℕ
  | n, [] => some n
  | n, c :: cs => (digit? c).bind fun d => number? (16 * n + d) cs

structure Pair (ds : List Char) (b : BitVec 8) : Prop where
  length : ds.length = 2
  value : number? 0 ds = some b.toNat

theorem number?_append (n : ℕ) (xs ys : List Char) :
    number? n (xs ++ ys) = (number? n xs).bind fun m => number? m ys := by
  induction xs generalizing n with
  | nil => rfl
  | cons x xs ih =>
    rw [List.cons_append, number?, number?, Option.bind_assoc]
    exact congrArg _ (funext fun d => ih (16 * n + d))

/-- The digits before a number only shift it. -/
theorem number?_start {ds : List Char} {v : ℕ} (n : ℕ) (h : number? 0 ds = some v) :
    number? n ds = some (16 ^ ds.length * n + v) := by
  have key : ∀ (ds : List Char) (k v : ℕ), number? k ds = some v →
      ∀ n, number? (n + k) ds = some (16 ^ ds.length * n + v) := by
    intro ds
    induction ds with
    | nil =>
      intro k v h n
      cases h
      rw [number?, List.length_nil, Nat.pow_zero, one_mul]
    | cons c cs ih =>
      intro k v h n
      obtain ⟨d, hd, h⟩ := Option.bind_eq_some_iff.mp h
      have hrest := ih (16 * k + d) v h (16 * n)
      rw [number?, hd, Option.bind_some, Nat.mul_add, Nat.add_assoc, hrest, List.length_cons,
        Nat.pow_succ, Nat.mul_assoc]
  have hn := key ds 0 v h n
  rwa [Nat.add_zero] at hn

theorem Pair.number? {ds : List Char} {b : BitVec 8} (h : Pair ds b) (n : ℕ) :
    Hex.number? n ds = some (256 * n + b.toNat) := by
  rw [number?_start n h.value, h.length]
  rfl

theorem digit?_of_mem {n v : ℕ} {ds : List Char} {c : Char} (h : number? n ds = some v)
    (hc : c ∈ ds) : ∃ d, digit? c = some d := by
  induction ds generalizing n with
  | nil => cases hc
  | cons x xs ih =>
    obtain ⟨d, hd, hrest⟩ := Option.bind_eq_some_iff.mp h
    rcases List.mem_cons.mp hc with rfl | hc
    · exact ⟨d, hd⟩
    · exact ih hrest hc

end Hex
