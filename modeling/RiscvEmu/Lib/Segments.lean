import RiscvEmu.Lib.Bytes

/-! Segments of a memory, read one after the other and written one after the other. -/

namespace Segments

open Bytes

variable {β : Type*} {f g : ℕ → β} {xs ys : List β} {ss ts : List (ℕ × ℕ)} {a l o x : ℕ}

def range (f : ℕ → β) (a l : ℕ) : List β := (List.range l).map fun i => f (a + i)

def gather (f : ℕ → β) : List (ℕ × ℕ) → List β
  | [] => []
  | (a, l) :: ss => range f a l ++ gather f ss

/-- The values put into the segments in their order, as long as there are values. -/
def scatter : List (ℕ × ℕ) → List β → (ℕ → β) → ℕ → β
  | [], _, f => f
  | (a, l) :: ss, xs, f => scatter ss (xs.drop l) (put (a, xs.take l) f)

def total : List (ℕ × ℕ) → ℕ
  | [] => 0
  | (_, l) :: ss => l + total ss

def skip : List (ℕ × ℕ) → ℕ → List (ℕ × ℕ)
  | [], _ => []
  | (a, l) :: ss, o => if o < l then (a + o, l - o) :: ss else skip ss (o - l)

def Mem (x : ℕ) (s : ℕ × ℕ) : Prop := s.1 ≤ x ∧ x < s.1 + s.2

def Touches (ss : List (ℕ × ℕ)) (x : ℕ) : Prop := ∃ s ∈ ss, Mem x s

def Apart (s t : ℕ × ℕ) : Prop := ∀ x, Mem x s → ¬ Mem x t

instance (x : ℕ) (s : ℕ × ℕ) : Decidable (Mem x s) := inferInstanceAs (Decidable (_ ∧ _))

theorem mem_of_inside {s t : ℕ × ℕ} {x : ℕ} (h : t.1 ≤ s.1 ∧ s.1 + s.2 ≤ t.1 + t.2)
    (hx : Mem x s) : Mem x t := ⟨h.1.trans hx.1, hx.2.trans_le h.2⟩

instance (s t : ℕ × ℕ) : Decidable (Apart s t) :=
  decidable_of_iff (s.1 + s.2 ≤ t.1 ∨ t.1 + t.2 ≤ s.1 ∨ s.2 = 0 ∨ t.2 = 0) <| by
    constructor
    · rintro h x ⟨hx, hx'⟩ ⟨hy, hy'⟩
      omega
    · intro h
      by_contra hn
      exact h (max s.1 t.1) ⟨by omega, by omega⟩ ⟨by omega, by omega⟩

theorem Apart.symm {s t : ℕ × ℕ} (h : Apart s t) : Apart t s := fun x ht hs => h x hs ht

theorem touches_cons {s : ℕ × ℕ} : Touches (s :: ss) x ↔ Mem x s ∨ Touches ss x := by
  constructor
  · rintro ⟨t, ht, hx⟩
    rcases List.mem_cons.mp ht with rfl | ht
    · exact .inl hx
    · exact .inr ⟨t, ht, hx⟩
  · rintro (hx | ⟨t, ht, hx⟩)
    · exact ⟨s, List.mem_cons_self .., hx⟩
    · exact ⟨t, List.mem_cons_of_mem _ ht, hx⟩

/-! ### Ranges -/

@[simp] theorem length_range (f : ℕ → β) (a l : ℕ) : (range f a l).length = l := by
  rw [range, List.length_map, List.length_range]

theorem range_congr (h : ∀ y, Mem y (a, l) → f y = g y) : range f a l = range g a l := by
  refine List.map_congr_left fun i hi => h _ ⟨Nat.le_add_right a i, ?_⟩
  exact Nat.add_lt_add_left (List.mem_range.mp hi) a

theorem range_add (f : ℕ → β) (a k l : ℕ) :
    range f a (k + l) = range f a k ++ range f (a + k) l := by
  unfold range
  rw [List.range_add, List.map_append, List.map_map]
  simp only [Nat.add_assoc]
  rfl

theorem drop_range (f : ℕ → β) (a l o : ℕ) :
    (range f a l).drop o = range f (a + o) (l - o) := by
  by_cases ho : o ≤ l
  · obtain ⟨k, rfl⟩ := Nat.exists_eq_add_of_le ho
    rw [range_add, List.drop_left' (length_range f a o), Nat.add_sub_cancel_left]
  · rw [List.drop_of_length_le (by rw [length_range]; omega), Nat.sub_eq_zero_of_le (by omega)]
    rfl

theorem take_range (f : ℕ → β) (a l k : ℕ) :
    (range f a l).take k = range f a (min k l) := by
  by_cases hk : k ≤ l
  · obtain ⟨m, rfl⟩ := Nat.exists_eq_add_of_le hk
    rw [range_add, List.take_left' (length_range f a k), Nat.min_eq_left (Nat.le_add_right k m)]
  · rw [List.take_of_length_le (by rw [length_range]; omega), Nat.min_eq_right (by omega)]

theorem range_put (a : ℕ) (xs : List β) (f : ℕ → β) : range (put (a, xs) f) a xs.length = xs :=
  map_put a xs f

/-! ### Writes -/

theorem written_eq_none_iff : written (a, xs) x = none ↔ ¬ Mem x (a, xs.length) := by
  rw [written_eq_none]
  unfold Mem
  dsimp only
  omega

theorem put_of_not_mem (h : ¬ Mem x (a, xs.length)) : put (a, xs) f x = f x := by
  rw [put, written_eq_none_iff.mpr h]
  rfl

theorem range_put_of_apart {b : ℕ} (h : Apart (a, l) (b, xs.length)) :
    range (put (b, xs) f) a l = range f a l :=
  range_congr fun y hy => put_of_not_mem (h y hy)

/-! ### Gathering -/

theorem length_gather (f : ℕ → β) (ss : List (ℕ × ℕ)) : (gather f ss).length = total ss := by
  induction ss with
  | nil => rfl
  | cons s ss ih => rw [gather, List.length_append, length_range, ih, total]

theorem gather_congr (h : ∀ y, Touches ss y → f y = g y) : gather f ss = gather g ss := by
  induction ss with
  | nil => rfl
  | cons s ss ih =>
    rw [gather, gather, range_congr fun y hy => h y (touches_cons.mpr (.inl hy)),
      ih fun y hy => h y (touches_cons.mpr (.inr hy))]

theorem gather_skip (f : ℕ → β) (ss : List (ℕ × ℕ)) (o : ℕ) :
    gather f (skip ss o) = (gather f ss).drop o := by
  induction ss generalizing o with
  | nil => rw [skip, gather, List.drop_nil]
  | cons s ss ih =>
    obtain ⟨a, l⟩ := s
    rw [skip]
    split
    · rename_i ho
      rw [gather, gather, List.drop_append_of_le_length (by rw [length_range]; omega), drop_range]
    · rename_i ho
      rw [ih, gather, List.drop_append, length_range,
        List.drop_of_length_le (l := range f a l) (by rw [length_range]; omega), List.nil_append]

theorem total_skip (ss : List (ℕ × ℕ)) (o : ℕ) : total (skip ss o) = total ss - o := by
  have h := congrArg List.length (gather_skip (fun _ => ()) ss o)
  rwa [length_gather, List.length_drop, length_gather] at h

theorem skip_of_total_le (h : total ss ≤ o) : skip ss o = [] := by
  induction ss generalizing o with
  | nil => rfl
  | cons s ss ih =>
    have hle : s.2 + total ss ≤ o := h
    rw [skip, if_neg (by omega)]
    exact ih (by omega)

/-! ### Scattering -/

theorem scatter_nil (ss : List (ℕ × ℕ)) (f : ℕ → β) : scatter ss [] f = f := by
  induction ss with
  | nil => rfl
  | cons s ss ih =>
    have hput : put (s.1, []) f = f := by
      funext x
      exact put_of_not_mem fun hx => Nat.not_lt.mpr hx.1 hx.2
    rw [scatter, List.drop_nil, List.take_nil, hput, ih]

theorem scatter_skip_zero (ss : List (ℕ × ℕ)) (xs : List β) (f : ℕ → β) :
    scatter (skip ss 0) xs f = scatter ss xs f := by
  induction ss with
  | nil => rfl
  | cons s ss ih =>
    obtain ⟨a, l⟩ := s
    rw [skip]
    split
    · rfl
    · rename_i hl
      obtain rfl := Nat.le_zero.mp (Nat.le_of_not_lt hl)
      have hput : put (a, xs.take 0) f = f := by
        funext x
        exact put_of_not_mem fun hx => Nat.not_lt.mpr hx.1 hx.2
      rw [Nat.sub_self, ih, scatter, hput, List.drop_zero]

theorem scatter_of_not_touches (h : ¬ Touches ss x) : scatter ss xs f x = f x := by
  induction ss generalizing xs f with
  | nil => rfl
  | cons s ss ih =>
    rw [touches_cons, not_or] at h
    rw [scatter, ih h.2]
    refine put_of_not_mem fun hx => h.1 ⟨hx.1, Nat.lt_of_lt_of_le hx.2 ?_⟩
    have hle : (xs.take s.2).length ≤ s.2 := List.length_take_le _ _
    dsimp only
    omega

/-- Values put into segments that are apart and that they fill are read back. -/
theorem gather_scatter (h : ss.Pairwise Apart) (hlen : xs.length = total ss) :
    gather (scatter ss xs f) ss = xs := by
  induction ss generalizing xs f with
  | nil =>
    rw [gather]
    exact (List.length_eq_zero_iff.mp hlen).symm
  | cons s ss ih =>
    obtain ⟨a, l⟩ := s
    obtain ⟨hs, hss⟩ := List.pairwise_cons.mp h
    have hlen : xs.length = l + total ss := hlen
    have htake : (xs.take l).length = l := List.length_take_of_le (by omega)
    have hhead : range (scatter ss (xs.drop l) (put (a, xs.take l) f)) a l = xs.take l := by
      have hkeep : ∀ y, Mem y (a, l) → ¬ Touches ss y := by
        rintro y hy ⟨t, ht, hyt⟩
        exact hs t ht y hy hyt
      rw [range_congr fun y hy => scatter_of_not_touches (hkeep y hy)]
      have hrange := range_put a (xs.take l) f
      rwa [htake] at hrange
    rw [gather, scatter, hhead, ih hss (by rw [List.length_drop]; omega), List.take_append_drop]

/-! ### Moving values between segments and a list -/

/-- `l` values moved between address `a` and a list: from the start of the list into the memory, or
from the memory to the end of the list. -/
def moveOne (into : Bool) (a l : ℕ) (p : (ℕ → β) × List β) : (ℕ → β) × List β :=
  if into then (put (a, p.2.take l) p.1, p.2.drop l) else (p.1, p.2 ++ range p.1 a l)

theorem moveOne_of_not_mem {into : Bool} {p : (ℕ → β) × List β} (h : ¬ Mem x (a, l)) :
    (moveOne into a l p).1 x = p.1 x := by
  cases into with
  | true =>
    refine put_of_not_mem fun hx => h ⟨hx.1, Nat.lt_of_lt_of_le hx.2 ?_⟩
    exact Nat.add_le_add_left (List.length_take_le _ _) a
  | false => rfl

def moveAll (into : Bool) : List (ℕ × ℕ) → ℕ → (ℕ → β) × List β → (ℕ → β) × List β
  | [], _, p => p
  | (a, l) :: ss, c, p =>
    if c ≤ l then moveOne into a c p else moveAll into ss (c - l) (moveOne into a l p)

theorem moveAll_zero {into : Bool} (ss : List (ℕ × ℕ)) (p : (ℕ → β) × List β) :
    moveAll into ss 0 p = p := by
  cases ss with
  | nil => rfl
  | cons s ss =>
    rw [moveAll, if_pos (Nat.zero_le _)]
    cases into with
    | true =>
      have hput : put (s.1, p.2.take 0) p.1 = p.1 := by
        funext y
        exact put_of_not_mem fun hy => Nat.not_lt.mpr hy.1 hy.2
      exact Prod.ext hput rfl
    | false => exact Prod.ext rfl (List.append_nil _)

theorem moveAll_from (ss : List (ℕ × ℕ)) (c : ℕ) (f : ℕ → β) (xs : List β) :
    moveAll false ss c (f, xs) = (f, xs ++ (gather f ss).take c) := by
  induction ss generalizing c xs with
  | nil => rw [moveAll, gather, List.take_nil, List.append_nil]
  | cons s ss ih =>
    obtain ⟨a, l⟩ := s
    have hlen : (range f a l).length = l := length_range f a l
    rw [moveAll, gather]
    split
    · rename_i hc
      rw [List.take_append_of_le_length (by omega), take_range, Nat.min_eq_left hc]
      rfl
    · rename_i hc
      have hone : moveOne false a l (f, xs) = (f, xs ++ range f a l) := rfl
      have htake : (range f a l).take c = range f a l := List.take_of_length_le (by omega)
      rw [hone, ih, List.take_append, hlen, htake, List.append_assoc]

theorem moveAll_into (ss : List (ℕ × ℕ)) {c : ℕ} (f : ℕ → β) {xs : List β} (hc : c ≤ xs.length) :
    (moveAll true ss c (f, xs)).1 = scatter ss (xs.take c) f := by
  induction ss generalizing c f xs with
  | nil => rfl
  | cons s ss ih =>
    obtain ⟨a, l⟩ := s
    rw [moveAll, scatter, List.take_take, List.drop_take]
    split
    · rename_i hl
      rw [Nat.min_eq_right hl, Nat.sub_eq_zero_of_le hl, List.take_zero, scatter_nil]
      rfl
    · rename_i hl
      have hone : moveOne true a l (f, xs) = (put (a, xs.take l) f, xs.drop l) := rfl
      rw [hone, ih _ (by rw [List.length_drop]; omega), Nat.min_eq_left (by omega)]

end Segments
