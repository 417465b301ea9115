import RiscvEmu.ImageLoading

/-! From a flat binary to the memory vector: `freedom-bin2hex.py`, by which `main` has `elf2hex` write
`data_hex.txt` for its argument, and the load loop, which reads it. -/

namespace RiscvEmu

open Bytes

/-! ### `freedom-bin2hex.py` -/

/-- `grouper(iterable, n, fillvalue)`: ABCDEFG in threes is ABC, DEF and Gxx. There are no rows of
length zero. -/
def grouper {α : Type} (xs : List α) (n : ℕ) (fillvalue : α) : List (List α) :=
  (List.range ((xs.length + n - 1) / n)).map fun i =>
    (List.range n).map fun j => xs.getD (n * i + j) fillvalue

def hexDigit (d : ℕ) : Char := Char.ofNat (if d < 10 then 48 + d else 87 + d)

/-- `'{:02x}'.format(b)` -/
def format02x (b : Byte) : List Char := [hexDigit (b.toNat / 16), hexDigit (b.toNat % 16)]

def convert (bitWidth : ℕ) (infile : List Byte) : List (List Char) :=
  (grouper infile (bitWidth / 8) 0).map fun row => row.reverse.flatMap format02x

/-- None where `main` calls `sys.exit`. -/
def bin2hex (bitWidth : ℕ) (infile : List Byte) : Option (List (List Char)) :=
  if bitWidth % 8 ≠ 0 then none else some (convert bitWidth infile)

/-! ### Reading a row -/

theorem pair_format02x (b : Byte) : Hex.Pair (format02x b) b := by
  have hdigit : ∀ d < 16, Hex.digit? (hexDigit d) = some d := by decide
  refine ⟨rfl, ?_⟩
  rw [format02x, Hex.number?, hdigit _ (by omega), Option.bind_some, Hex.number?,
    hdigit _ (Nat.mod_lt _ (by decide)), Option.bind_some, Hex.number?]
  exact congrArg some (by omega)

theorem number?_row {row : List Byte} (h : 8 * row.length ≤ 64) :
    Hex.number? 0 (row.reverse.flatMap format02x) = some (little 64 row).toNat := by
  induction row with
  | nil => rfl
  | cons b row ih =>
    rw [List.length_cons] at h
    rw [List.reverse_cons, List.flatMap_append, List.flatMap_singleton, Hex.number?_append,
      ih (by omega), Option.bind_some, (pair_format02x b).number?, toNat_little_cons b h]
    exact congrArg some (Nat.add_comm _ _)

theorem stoul_row {row : List Byte} (hne : row ≠ []) (h : 8 * row.length ≤ 64) :
    stoul (row.reverse.flatMap format02x) = some (little 64 row) := by
  refine stoul_of_number ?_ (number?_row h)
  obtain ⟨b, hb⟩ := List.exists_mem_of_ne_nil _ (List.reverse_ne_nil_iff.mpr hne)
  exact List.ne_nil_of_mem (List.mem_flatMap_of_mem hb (List.mem_cons_self ..))

/-! ### The load loop -/

def rowWords (bin : List Byte) : List Word :=
  (List.range ((bin.length + 3) / 4)).map fun i => word (bin.getD · 0) (0 + 4 * i) 4

theorem mapM_stoul_convert (bin : List Byte) :
    (convert 32 bin).mapM stoul = some (rowWords bin) := by
  rw [convert, grouper, List.map_map]
  refine mapM_stoul fun i _ => ?_
  rw [Function.comp_apply, Nat.zero_add]
  exact stoul_row (List.ne_nil_of_length_eq_add_one (n := 3) rfl) (by rw [List.length_map]; decide)

theorem toNat_rowWord {bin : List Byte} {w : Word} (h : w ∈ rowWords bin) : w.toNat < 2 ^ 32 := by
  obtain ⟨i, -, rfl⟩ := List.mem_map.mp h
  exact toNat_little_lt _

theorem loadImage_none {program : List Word} {k : ℕ} {mem : Memory} (hk : 4 * k ≤ ramSize)
    (hgt : ramSize < 4 * k + 4 * program.length) :
    loadImage (BitVec.ofNat 64 k) program mem = none := by
  have hsize : ramSize = 2 ^ 31 := rfl
  induction program generalizing k mem with
  | nil =>
    rw [List.length_nil] at hgt
    omega
  | cons temp program ih =>
    rw [List.length_cons] at hgt
    rw [loadImage]
    by_cases hlt : 4 * k < ramSize
    · rw [(cell_of_line_index hlt).1]
      dsimp only
      rw [show BitVec.ofNat 64 k + 1 = BitVec.ofNat 64 (k + 1) from (BitVec.ofNat_add k 1).symm]
      exact ih (by omega) (by omega)
    · have hcell : cell? (BitVec.ofNat 64 k / 2) = none := by
        unfold cell?
        refine dif_neg ?_
        rw [BitVec.toNat_udiv, BitVec.toNat_ofNat]
        show ¬ k % 2 ^ 64 / 2 < 2 ^ 28
        omega
      rw [hcell]

/-! ### The binary in memory -/

theorem loadText_convert {bin : List Byte} (h : bin.length ≤ ramSize) :
    ∃ mem, loadText (convert 32 bin) = some mem ∧ mem.Holds (bin.getD · 0) := by
  have hsize : ramSize = 2 ^ 31 := rfl
  have hlen : (rowWords bin).length = (bin.length + 3) / 4 := by
    rw [rowWords, List.length_map, List.length_range]
  have hzero : Memory.Holds (fun _ => 0) fun _ => 0 := fun _ _ => byte_of_lt (Nat.two_pow_pos _)
  have hfit : 4 * 0 + 4 * (rowWords bin).length ≤ ramSize := by omega
  obtain ⟨mem, hmem, hram⟩ := loadImage_holds hfit (fun _ => toNat_rowWord) (fun _ _ => rfl) hzero
  refine ⟨mem, ?_, fun x hx => ?_⟩
  · rw [loadText, mapM_stoul_convert, Option.bind_some]
    exact hmem
  · rw [hram x hx, rowWords, flatMap_words]
    unfold put written
    dsimp only
    rw [if_pos (Nat.zero_le x), Nat.sub_zero, List.getElem?_map]
    by_cases hlt : x < 4 * ((bin.length + 3) / 4)
    · rw [List.getElem?_range hlt, Option.map_some, Option.getD_some, Nat.zero_add]
    · have hrows : (List.range (4 * ((bin.length + 3) / 4)))[x]? = none :=
        List.getElem?_eq_none (by rw [List.length_range]; omega)
      have hbin : bin[x]? = none := List.getElem?_eq_none (by omega)
      rw [hrows, List.getD_eq_getElem?_getD, hbin]
      rfl

theorem loadText_convert_none {bin : List Byte} (h : ramSize < bin.length) :
    loadText (convert 32 bin) = none := by
  have hsize : ramSize = 2 ^ 31 := rfl
  rw [loadText, mapM_stoul_convert, Option.bind_some]
  refine loadImage_none (k := 0) (by omega) ?_
  rw [rowWords, List.length_map, List.length_range]
  omega

/-- A binary is loaded exactly when it is no larger than the vector, and then the vector holds its
bytes, and zeros behind them. -/
theorem binary_loads (bin : List Byte) : ∃ lines, bin2hex 32 bin = some lines ∧
    ((∃ mem, loadText lines = some mem) ↔ bin.length ≤ ramSize) ∧
    ∀ mem, loadText lines = some mem → mem.Holds fun x => bin.getD x 0 := by
  refine ⟨convert 32 bin, rfl, ⟨fun ⟨mem, hmem⟩ => ?_, fun h => ?_⟩, fun mem hmem => ?_⟩
  · by_contra hgt
    rw [loadText_convert_none (Nat.lt_of_not_le hgt)] at hmem
    cases hmem
  · obtain ⟨mem, hmem, -⟩ := loadText_convert h
    exact ⟨mem, hmem⟩
  · by_cases h : bin.length ≤ ramSize
    · obtain ⟨u, hu, hold⟩ := loadText_convert h
      cases hu.symm.trans hmem
      exact hold
    · rw [loadText_convert_none (Nat.lt_of_not_le h)] at hmem
      cases hmem

example : bin2hex 32 [0x93, 0x00, 0x50, 0x00, 0x13] =
    some [['0', '0', '5', '0', '0', '0', '9', '3'], ['0', '0', '0', '0', '0', '0', '1', '3']] := by
  decide

end RiscvEmu
