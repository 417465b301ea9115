import Mathlib.Data.List.DropRight
import RiscvEmu.ByteMemory
import RiscvEmu.Lib.Hex

/-! From a Verilog-hex image to the memory vector: `utils/payload/comp.py`, which writes
`data_hex.txt`, and the load loop, which reads it. A text file is the list of its lines. -/

namespace RiscvEmu

open Bytes

/-! ### `comp.py` -/

def isSpace (c : Char) : Bool := c.toNat ∈ [9, 10, 11, 12, 13, 32]

/-- `int(s, 16)` of a number without a sign or a prefix; none where it raises. -/
def int16 (s : List Char) : Option ℕ :=
  match (s.dropWhile isSpace).rdropWhile isSpace with
  | [] => none
  | ds => Hex.number? 0 ds

def split (s : List Char) : List (List Char) := (s.splitOnP isSpace).filter (· ≠ [])

/-- The element that an index selects in a list of length `n`; negative indices count from its
end. -/
def listIndex (n : ℕ) (i : Int) : Option ℕ :=
  if 0 ≤ i then if i < n then some i.toNat else none
  else if 0 ≤ n + i then some (n + i).toNat
  else none

/-- `mem`, the list of words of four texts each. -/
abbrev WordTexts := ℕ → ℕ → List Char

/-- `mem[curr_addr>>2][3-(curr_addr & 0b11)] = value`. -/
def setValue (value : List Char) (currAddr : Int) (mem : WordTexts) : Option WordTexts :=
  (listIndex (1 <<< 20) (currAddr / 4)).map fun i =>
    Function.update mem i (Function.update (mem i) (3 - (currAddr % 4).toNat) value)

def setValues : List (List Char) → Int → WordTexts → Option (Int × WordTexts)
  | [], currAddr, mem => some (currAddr, mem)
  | value :: vals, currAddr, mem =>
    (setValue value currAddr mem).bind fun mem => setValues vals (currAddr + 1) mem

def setLines (intAddr : ℕ) : List (List Char) → Int → WordTexts → Option WordTexts
  | [], _, mem => some mem
  | val :: lines, currAddr, mem =>
    if '@' ∉ val then
      (setValues (split val) currAddr mem).bind fun r => setLines intAddr lines r.1 r.2
    else (int16 (val.drop 1)).bind fun a => setLines intAddr lines (a - intAddr) mem

/-- `data_hex.txt` for `g.hex`. -/
def comp : List (List Char) → Option (List (List Char))
  | [] => none
  | first :: lines =>
    (int16 (first.drop 1)).bind fun intAddr =>
      (setLines intAddr lines 0 fun _ _ => ['0', '0']).map fun mem =>
        (List.range (1 <<< 20)).map fun i => mem i 0 ++ mem i 1 ++ mem i 2 ++ mem i 3

/-! ### The load loop -/

/-- A `0x` counts as a prefix only where a digit follows. -/
def dropPrefix (line : List Char) : List Char :=
  if (line.take 2 = ['0', 'x'] ∨ line.take 2 = ['0', 'X']) ∧
      ((line.drop 2).head?.bind Hex.digit?).isSome then line.drop 2
  else line

/-- `stoul(line,nullptr,16)` of a line that starts with a digit. -/
def stoul (line : List Char) : Option Word :=
  match (dropPrefix line).takeWhile fun c => (Hex.digit? c).isSome with
  | [] => none
  | ds => ((Hex.number? 0 ds).filter (· < 2 ^ 64)).map (BitVec.ofNat 64)

def loadText (lines : List (List Char)) : Option Memory :=
  (lines.mapM stoul).bind fun program => loadImage 0 program fun _ => 0

/-! ### Images -/

inductive HexLine
  | address (a : ℕ)
  | data (bs : List Byte)

/-- The lines of an image after the first one, which gives the address `base`. -/
structure HexImage where
  base : ℕ
  lines : List HexLine

/-- What the lines give, in their order, where the next byte is the one at `a`. -/
def HexLine.writes : ℕ → List HexLine → List (ℕ × List Byte)
  | _, [] => []
  | _, .address a :: lines => writes a lines
  | a, .data bs :: lines => (a, bs) :: writes (a + bs.length) lines

/-- The byte that the image gives for an address; zero if it does not mention the address. -/
def HexImage.byte (image : HexImage) (a : ℕ) : Byte :=
  (lastWritten (HexLine.writes image.base image.lines) a).getD 0

inductive DataText : List Byte → List Char → Prop
  | nil : DataText [] []
  | space {bs : List Byte} {c : Char} {t : List Char} (hc : isSpace c = true)
      (h : DataText bs t) : DataText bs (c :: t)
  | byte {b : Byte} {bs : List Byte} {ds : List Char} {c : Char} {t : List Char}
      (hd : Hex.Pair ds b) (hc : isSpace c = true) (h : DataText bs t) :
      DataText (b :: bs) (ds ++ c :: t)

inductive LineText : HexLine → List Char → Prop
  | address {a : ℕ} {ds ws : List Char} (hd : Hex.number? 0 ds = some a) (hne : ds ≠ [])
      (hws : ∀ c ∈ ws, isSpace c = true) : LineText (.address a) ('@' :: (ds ++ ws))
  | data {bs : List Byte} {t : List Char} (h : DataText bs t) : LineText (.data bs) t

def HexImage.Text (image : HexImage) (file : List (List Char)) : Prop :=
  List.Forall₂ LineText (.address image.base :: image.lines) file

/-- Every section begins in the 4 MiB from the first one on. -/
def HexImage.SectionsFit (image : HexImage) : Prop :=
  ∀ a, .address a ∈ image.lines → image.base ≤ a ∧ a < image.base + 4 * 2 ^ 20

def HexImage.Fits (image : HexImage) : Prop :=
  ∀ p ∈ HexLine.writes image.base image.lines, p.1 + p.2.length ≤ image.base + 4 * 2 ^ 20

/-! ### Reading the text -/

theorem not_isSpace_of_digit {c : Char} {d : ℕ} (h : Hex.digit? c = some d) :
    isSpace c = false := by
  rw [Bool.eq_false_iff]
  intro hs
  have hc : c = Char.ofNat c.toNat := (Char.ofNat_toNat c).symm
  have hmem : c.toNat ∈ [9, 10, 11, 12, 13, 32] := of_decide_eq_true hs
  have hnone : ∀ n ∈ [9, 10, 11, 12, 13, 32], Hex.digit? (Char.ofNat n) = none := by decide
  rw [hc, hnone _ hmem] at h
  cases h

theorem not_space_of_number {n v : ℕ} {ds : List Char} (h : Hex.number? n ds = some v) :
    ∀ c ∈ ds, isSpace c = false := fun _ hc =>
  not_isSpace_of_digit (Hex.digit?_of_mem h hc).choose_spec

theorem at_not_mem_of_number {n v : ℕ} {ds : List Char} (h : Hex.number? n ds = some v) :
    '@' ∉ ds := by
  intro hc
  obtain ⟨d, hd⟩ := Hex.digit?_of_mem h hc
  cases hd

theorem int16_of_number {ds ws : List Char} {a : ℕ} (hd : Hex.number? 0 ds = some a)
    (hne : ds ≠ []) (hws : ∀ c ∈ ws, isSpace c = true) : int16 (ds ++ ws) = some a := by
  have hds := not_space_of_number hd
  have hleft : (ds ++ ws).dropWhile isSpace = ds ++ ws := by
    obtain ⟨c, cs, rfl⟩ := List.exists_cons_of_ne_nil hne
    exact List.dropWhile_cons_of_neg (by rw [hds c (List.mem_cons_self ..)]; decide)
  have hright : (ds ++ ws).rdropWhile isSpace = ds := by
    rw [List.rdropWhile, List.reverse_append,
      List.dropWhile_append_of_pos fun c hc => hws c (List.mem_reverse.mp hc)]
    refine List.rdropWhile_eq_self_iff.mpr fun hl => ?_
    rw [hds _ (List.getLast_mem hl)]
    decide
  unfold int16
  rw [hleft, hright]
  split
  · exact absurd rfl hne
  · exact hd

theorem split_dataText {bs : List Byte} {t : List Char} (h : DataText bs t) :
    List.Forall₂ Hex.Pair (split t) bs := by
  induction h with
  | nil => exact .nil
  | space hc _ ih =>
    rw [split, List.splitOnP_cons_eq_if_modifyHead, if_pos hc, List.filter_cons_of_neg (by simp)]
    exact ih
  | @byte b bs ds c t hd hc _ ih =>
    have hne : ds ≠ [] := by
      rintro rfl
      cases hd.length
    rw [split, List.splitOnP_append_cons_of_forall_mem (not_space_of_number hd.value) c hc,
      List.filter_cons_of_pos (by simpa using hne)]
    exact .cons hd ih

theorem at_not_mem_dataText {bs : List Byte} {t : List Char} (h : DataText bs t) : '@' ∉ t := by
  have hspace {c : Char} (hc : isSpace c = true) : '@' ≠ c := by
    rintro rfl
    cases hc
  induction h with
  | nil => exact List.not_mem_nil
  | space hc _ ih => exact List.not_mem_cons_of_ne_of_not_mem (hspace hc) ih
  | byte hd hc _ ih =>
    rw [List.mem_append, not_or]
    exact ⟨at_not_mem_of_number hd.value, List.not_mem_cons_of_ne_of_not_mem (hspace hc) ih⟩

/-! ### The table of texts -/

variable {base x : ℕ} {mem t : WordTexts} {ram : ℕ → Byte}

/-- The words are texts of the bytes from `base` on, the high byte of a word first. -/
def WordTexts.Hold (mem : WordTexts) (base : ℕ) (ram : ℕ → Byte) : Prop :=
  ∀ i < 2 ^ 20, ∀ j < 4, Hex.Pair (mem i j) (ram (base + (4 * i + (3 - j))))

theorem put_singleton (b : Byte) (f : ℕ → Byte) : put (x, [b]) f = Function.update f x b := by
  funext y
  rw [Function.update_apply]
  unfold put written
  dsimp only
  by_cases hy : y = x
  · rw [hy, if_pos le_rfl, if_pos rfl, Nat.sub_self]
    rfl
  · rw [if_neg hy]
    by_cases hle : x ≤ y
    · rw [if_pos hle, List.getElem?_eq_none (by rw [List.length_singleton]; omega)]
      rfl
    · rw [if_neg hle]
      rfl

theorem listIndex_word (hx : base ≤ x) :
    listIndex (1 <<< 20) (((x : Int) - base) / 4) =
      if x < base + 4 * 2 ^ 20 then some ((x - base) / 4) else none := by
  have hdiv : ((x : Int) - base) / 4 = ((x - base) / 4 : ℕ) := by omega
  unfold listIndex
  rw [hdiv, if_pos (Int.natCast_nonneg _), Int.toNat_natCast]
  by_cases h : x < base + 4 * 2 ^ 20
  · rw [if_pos h, if_pos (by rw [Int.ofNat_lt]; show _ < 2 ^ 20; omega)]
  · rw [if_neg h, if_neg (by rw [Int.ofNat_lt]; show ¬ _ < 2 ^ 20; omega)]

theorem setValue_holds {value : List Char} {b : Byte} (hv : Hex.Pair value b) (hx : base ≤ x)
    (hlt : x < base + 4 * 2 ^ 20) (hm : mem.Hold base ram) :
    ∃ t, setValue value (x - base) mem = some t ∧ t.Hold base (put (x, [b]) ram) := by
  have hmod : (((x : Int) - base) % 4).toNat = (x - base) % 4 := by omega
  unfold setValue
  rw [listIndex_word hx, if_pos hlt, hmod]
  refine ⟨Function.update mem ((x - base) / 4)
    (Function.update (mem ((x - base) / 4)) (3 - (x - base) % 4) value), rfl, fun i hi j hj => ?_⟩
  rw [put_singleton]
  by_cases hij : i = (x - base) / 4 ∧ j = 3 - (x - base) % 4
  · obtain ⟨rfl, rfl⟩ := hij
    have haddr : base + (4 * ((x - base) / 4) + (3 - (3 - (x - base) % 4))) = x := by omega
    rw [Function.update_self, Function.update_self, haddr, Function.update_self]
    exact hv
  · have haddr : base + (4 * i + (3 - j)) ≠ x := by
      intro h
      exact hij ⟨by omega, by omega⟩
    rw [Function.update_of_ne haddr]
    by_cases hi' : i = (x - base) / 4
    · have hj' : j ≠ 3 - (x - base) % 4 := fun hj' => hij ⟨hi', hj'⟩
      rw [hi', Function.update_self, Function.update_of_ne hj', ← hi']
      exact hm i hi j hj
    · rw [Function.update_of_ne hi']
      exact hm i hi j hj

theorem setValue_none {value : List Char} (hx : base ≤ x) (hge : base + 4 * 2 ^ 20 ≤ x) :
    setValue value (x - base) mem = none := by
  unfold setValue
  rw [listIndex_word hx, if_neg (Nat.not_lt_of_le hge)]
  rfl

theorem setValues_holds {vals : List (List Char)} {bs : List Byte}
    (hv : List.Forall₂ Hex.Pair vals bs) (hx : base ≤ x)
    (hle : x + bs.length ≤ base + 4 * 2 ^ 20) (hm : mem.Hold base ram) :
    ∃ t, setValues vals (x - base) mem = some (((x + bs.length : ℕ) : Int) - base, t) ∧
      t.Hold base (put (x, bs) ram) := by
  induction hv generalizing x mem ram with
  | nil =>
    refine ⟨mem, rfl, ?_⟩
    rw [put_nil]
    exact hm
  | @cons value b vals bs hb _ ih =>
    rw [List.length_cons] at hle
    obtain ⟨u, hu, hold⟩ := setValue_holds hb hx (by omega) hm
    obtain ⟨t, ht, hold⟩ := ih (x := x + 1) (by omega) (by omega) hold
    have hnext : (x : Int) - base + 1 = ((x + 1 : ℕ) : Int) - base := by omega
    have happend := put_append x [b] bs ram
    rw [List.length_singleton, List.singleton_append] at happend
    rw [happend] at hold
    refine ⟨t, ?_, hold⟩
    rw [setValues, hu, Option.bind_some, hnext, ht, List.length_cons, Nat.add_right_comm,
      Nat.add_assoc]

theorem setValues_none {vals : List (List Char)} {bs : List Byte}
    (hv : List.Forall₂ Hex.Pair vals bs) (hx : base ≤ x) (hin : x ≤ base + 4 * 2 ^ 20)
    (hgt : base + 4 * 2 ^ 20 < x + bs.length) (hm : mem.Hold base ram) :
    setValues vals (x - base) mem = none := by
  induction hv generalizing x mem ram with
  | nil =>
    rw [List.length_nil] at hgt
    omega
  | @cons value b vals bs hb _ ih =>
    rw [List.length_cons] at hgt
    rw [setValues]
    by_cases hlt : x < base + 4 * 2 ^ 20
    · obtain ⟨u, hu, hold⟩ := setValue_holds hb hx hlt hm
      have hnext : (x : Int) - base + 1 = ((x + 1 : ℕ) : Int) - base := by omega
      rw [hu, Option.bind_some, hnext]
      exact ih (by omega) (by omega) (by omega) hold
    · rw [setValue_none hx (Nat.le_of_not_lt hlt)]
      rfl

/-! ### The lines -/

theorem setLines_data {s : List Char} {file : List (List Char)} {bs : List Byte} {a : Int}
    (h : DataText bs s) : setLines base (s :: file) a mem =
      (setValues (split s) a mem).bind fun r => setLines base file r.1 r.2 := by
  rw [setLines, if_pos (at_not_mem_dataText h)]

theorem setLines_address {file : List (List Char)} {ds ws : List Char} {a : ℕ} {c : Int}
    (hd : Hex.number? 0 ds = some a) (hne : ds ≠ []) (hws : ∀ c ∈ ws, isSpace c = true) :
    setLines base (('@' :: (ds ++ ws)) :: file) c mem = setLines base file (a - base) mem := by
  rw [setLines, if_neg (not_not.mpr (List.mem_cons_self ..)), List.drop_succ_cons, List.drop_zero,
    int16_of_number hd hne hws, Option.bind_some]

theorem setLines_holds {ls : List HexLine} {file : List (List Char)}
    (ht : List.Forall₂ LineText ls file) (hs : ∀ a, .address a ∈ ls → base ≤ a) (hx : base ≤ x)
    (hf : ∀ p ∈ HexLine.writes x ls, p.1 + p.2.length ≤ base + 4 * 2 ^ 20)
    (hm : mem.Hold base ram) : ∃ t, setLines base file (x - base) mem = some t ∧
      t.Hold base ((HexLine.writes x ls).foldl (fun f p => put p f) ram) := by
  induction ht generalizing x mem ram with
  | nil => exact ⟨mem, rfl, hm⟩
  | @cons l s ls file hl _ ih =>
    have hrest : ∀ a, HexLine.address a ∈ ls → base ≤ a :=
      fun a ha => hs a (List.mem_cons_of_mem _ ha)
    cases hl with
    | address hd hne hws =>
      rw [setLines_address hd hne hws]
      exact ih hrest (hs _ (List.mem_cons_self ..)) hf hm
    | data h =>
      obtain ⟨u, hu, hold⟩ := setValues_holds (split_dataText h) hx
        (hf (x, _) (List.mem_cons_self ..)) hm
      rw [setLines_data h, hu]
      exact ih hrest (Nat.le_add_right_of_le hx) (fun p hp => hf p (List.mem_cons_of_mem _ hp)) hold

theorem setLines_none {ls : List HexLine} {file : List (List Char)}
    (ht : List.Forall₂ LineText ls file)
    (hs : ∀ a, .address a ∈ ls → base ≤ a ∧ a < base + 4 * 2 ^ 20) (hx : base ≤ x)
    (hin : x ≤ base + 4 * 2 ^ 20)
    (hf : ∃ p ∈ HexLine.writes x ls, base + 4 * 2 ^ 20 < p.1 + p.2.length)
    (hm : mem.Hold base ram) : setLines base file (x - base) mem = none := by
  induction ht generalizing x mem ram with
  | nil =>
    obtain ⟨p, hp, -⟩ := hf
    cases hp
  | @cons l s ls file hl _ ih =>
    have hrest : ∀ a, HexLine.address a ∈ ls → base ≤ a ∧ a < base + 4 * 2 ^ 20 :=
      fun a ha => hs a (List.mem_cons_of_mem _ ha)
    cases hl with
    | @address a ds ws hd hne hws =>
      obtain ⟨hlo, hhi⟩ := hs a (List.mem_cons_self ..)
      rw [setLines_address hd hne hws]
      exact ih hrest hlo hhi.le hf hm
    | @data bs _ h =>
      rw [setLines_data h]
      by_cases hle : x + bs.length ≤ base + 4 * 2 ^ 20
      · obtain ⟨u, hu, hold⟩ := setValues_holds (split_dataText h) hx hle hm
        obtain ⟨p, hp, hgt⟩ := hf
        rcases List.mem_cons.mp hp with rfl | hp
        · exact absurd hle (Nat.not_le_of_lt hgt)
        · rw [hu]
          exact ih hrest (Nat.le_add_right_of_le hx) hle ⟨p, hp, hgt⟩ hold
      · rw [setValues_none (split_dataText h) hx hin (Nat.lt_of_not_le hle) hm]
        rfl

/-! ### From lines to cells -/

theorem toNat_word_four (f : ℕ → Byte) (y : ℕ) : (word f y 4).toNat =
    256 * (256 * (256 * (f (y + 3)).toNat + (f (y + 2)).toNat) + (f (y + 1)).toNat) +
      (f y).toNat := by
  have hlist : (List.range 4).map (fun i => f (y + i)) = [f y, f (y + 1), f (y + 2), f (y + 3)] :=
    rfl
  have hnil : (little 64 []).toNat = 0 := rfl
  rw [word, hlist, toNat_little_cons _ (show 8 * 4 ≤ 64 by decide),
    toNat_little_cons _ (show 8 * 3 ≤ 64 by decide), toNat_little_cons _ (show 8 * 2 ≤ 64 by decide),
    toNat_little_cons _ (show 8 * 1 ≤ 64 by decide), hnil]
  omega

theorem stoul_of_number {line : List Char} {w : Word} (hne : line ≠ [])
    (hn : Hex.number? 0 line = some w.toNat) : stoul line = some w := by
  have hdigit : ∀ c ∈ line, (Hex.digit? c).isSome := by
    intro c hc
    obtain ⟨d, hd⟩ := Hex.digit?_of_mem hn hc
    rw [hd]
    rfl
  have hplain : dropPrefix line = line := by
    refine if_neg fun h => ?_
    have hx (x : Char) (hx : line.take 2 = ['0', x]) : (Hex.digit? x).isSome :=
      hdigit x (List.mem_of_mem_take (hx ▸ List.mem_cons_of_mem _ (List.mem_singleton_self x)))
    rcases h.1 with h | h
    · exact absurd (hx 'x' h) (by decide)
    · exact absurd (hx 'X' h) (by decide)
  have hall : line.takeWhile (fun c => (Hex.digit? c).isSome) = line :=
    List.takeWhile_eq_self_iff.mpr hdigit
  unfold stoul
  rw [hplain, hall]
  split
  · exact absurd rfl hne
  · rw [hn, Option.filter_some, if_pos (decide_eq_true w.isLt), Option.map_some,
      BitVec.ofNat_toNat, BitVec.setWidth_eq]

example : stoul ['0', 'x', '1', 'f'] = some 0x1f := by decide

theorem stoul_word {f : ℕ → Byte} {y : ℕ} {d0 d1 d2 d3 : List Char} (h0 : Hex.Pair d0 (f (y + 3)))
    (h1 : Hex.Pair d1 (f (y + 2))) (h2 : Hex.Pair d2 (f (y + 1))) (h3 : Hex.Pair d3 (f y)) :
    stoul (d0 ++ d1 ++ d2 ++ d3) = some (word f y 4) := by
  refine stoul_of_number (fun h => ?_) ?_
  · have hlen := congrArg List.length h
    rw [List.length_append, h3.length, List.length_nil] at hlen
    omega
  · rw [Hex.number?_append, Hex.number?_append, Hex.number?_append, h0.number?, Option.bind_some,
      h1.number?, Option.bind_some, h2.number?, Option.bind_some, h3.number?, Nat.mul_zero,
      Nat.zero_add, toNat_word_four]

theorem mapM_stoul {l : List ℕ} {line : ℕ → List Char} {w : ℕ → Word}
    (h : ∀ i ∈ l, stoul (line i) = some (w i)) : (l.map line).mapM stoul = some (l.map w) := by
  induction l with
  | nil => rfl
  | cons i l ih =>
    rw [List.map_cons, List.mapM_cons, h i (List.mem_cons_self ..),
      ih fun j hj => h j (List.mem_cons_of_mem _ hj)]
    rfl

/-- Line `k` is half of the cell of its first byte, the lower half where `k` is even. -/
theorem cell_of_line_index {k : ℕ} (hk : 4 * k < ramSize) :
    cell? (BitVec.ofNat 64 k / 2) = some (ramCell (4 * k)) ∧
      (BitVec.ofNat 64 k % 2 = 0 ↔ 4 * k % 8 = 0) := by
  have hsize : ramSize = 2 ^ 31 := rfl
  have hnat : (BitVec.ofNat 64 k).toNat = k := by
    rw [BitVec.toNat_ofNat]
    omega
  constructor
  · rw [cell?_eq_some, BitVec.toNat_udiv, hnat]
    show 4 * k / 8 % memSize = k / 2
    rw [Nat.mod_eq_of_lt (by show _ < 2 ^ 28; omega)]
    omega
  · rw [← BitVec.toNat_inj, BitVec.toNat_umod, hnat]
    show k % 2 = 0 ↔ _
    omega

theorem byte_of_holds {mem : Memory} {ram : ℕ → Byte} (hm : mem.Holds ram) {a i : ℕ}
    (ha : a < ramSize) (hi : i < 8) : byte (mem (ramCell a)) i = ram (8 * (a / 8) + i) := by
  have hsize : ramSize = 2 ^ 31 := rfl
  have hy : 8 * (a / 8) + i < ramSize := by omega
  have hcell : ramCell (8 * (a / 8) + i) = ramCell a := (ramCell_eq_iff hy ha).mpr (by omega)
  have hbyte : mem.byte (8 * (a / 8) + i) = ram (8 * (a / 8) + i) := hm _ hy
  rw [Memory.byte, hcell, Nat.mul_add_mod, Nat.mod_eq_of_lt hi] at hbyte
  exact hbyte


/-- What the loop makes of a cell is the splice of the word, since the bytes above are still zero. -/
theorem cell_of_line {old temp : Word} {o : ℕ} (ho : o = 0 ∨ o = 4) (ht : temp.toNat < 2 ^ 32)
    (hz : ∀ i < 8, o ≤ i → byte old i = 0) :
    (if o = 0 then temp else old ||| temp <<< 32) = splice old temp (8 * o) (8 * 4) := by
  have hhigh (i : ℕ) (hi : 4 ≤ i) : byte temp i = 0 :=
    byte_of_lt (Nat.lt_of_lt_of_le ht (Nat.pow_le_pow_right (by decide) (by omega)))
  refine eq_of_byte_eq fun i hi => ?_
  have hi : i < 8 := by omega
  rw [byte_splice _ _ _ _ _ (by omega)]
  rcases ho with rfl | rfl
  · rw [if_pos rfl]
    by_cases hlt : i < 4
    · rw [if_pos (by omega), Nat.sub_zero]
    · rw [if_neg (by omega), hhigh i (by omega), hz i hi (by omega)]
  · rw [if_neg (by decide), byte_or, show (32 : ℕ) = 8 * 4 from rfl,
      byte_shiftLeft _ _ _ (by omega)]
    by_cases hlt : i < 4
    · rw [if_neg (by omega), if_neg (by omega)]
      exact BitVec.or_zero
    · rw [if_pos (by omega), if_pos (by omega), hz i hi (by omega)]
      exact BitVec.zero_or

theorem loadImage_holds {program : List Word} {k : ℕ} {mem : Memory} {ram : ℕ → Byte}
    (hk : 4 * k + 4 * program.length ≤ ramSize) (hw : ∀ w ∈ program, w.toNat < 2 ^ 32)
    (hz : ∀ y, 4 * k ≤ y → ram y = 0) (hm : mem.Holds ram) :
    ∃ u, loadImage (BitVec.ofNat 64 k) program mem = some u ∧
      u.Holds (put (4 * k, program.flatMap (bytes · 4)) ram) := by
  induction program generalizing k mem ram with
  | nil =>
    refine ⟨mem, rfl, ?_⟩
    rw [List.flatMap_nil, put_nil]
    exact hm
  | cons temp program ih =>
    rw [List.length_cons] at hk
    obtain ⟨hcell, hparity⟩ := cell_of_line_index (k := k) (by omega)
    have hold := hm.set_splice temp (a := 4 * k) (n := 4) (by omega) (by omega)
    have hzero : ∀ i < 8, 4 * k % 8 ≤ i → byte (mem (ramCell (4 * k))) i = 0 := by
      intro i hi hle
      rw [byte_of_holds hm (by omega) hi]
      exact hz _ (by omega)
    -- the cells are still zero from this line on, so the sum of the loop is a splice
    rw [← cell_of_line (by omega) (hw temp (List.mem_cons_self ..)) hzero] at hold
    have hz' : ∀ y, 4 * (k + 1) ≤ y → put (4 * k, bytes temp 4) ram y = 0 := by
      intro y hy
      rw [put_bytes, if_neg (by omega)]
      exact hz y (by omega)
    obtain ⟨u, hu, hram⟩ := ih (k := k + 1) (by omega)
      (fun w hmem => hw w (List.mem_cons_of_mem _ hmem)) hz' hold
    refine ⟨u, ?_, ?_⟩
    · rw [loadImage, hcell]
      dsimp only
      rw [show BitVec.ofNat 64 k + 1 = BitVec.ofNat 64 (k + 1) from (BitVec.ofNat_add k 1).symm]
      simp only [hparity]
      exact hu
    · have happend := put_append (4 * k) (bytes temp 4) (program.flatMap (bytes · 4)) ram
      rw [length_bytes, ← Nat.mul_succ] at happend
      rw [happend] at hram
      exact hram

/-! ### The image in memory -/

variable {image : HexImage} {file : List (List Char)}

theorem comp_of_text (ht : image.Text file) : ∃ lines,
    List.Forall₂ LineText image.lines lines ∧ comp file =
      (setLines image.base lines ((image.base : Int) - image.base) fun _ _ => ['0', '0']).map
        fun mem => (List.range (1 <<< 20)).map fun i => mem i 0 ++ mem i 1 ++ mem i 2 ++ mem i 3 := by
  cases ht with
  | @cons _ first _ lines hfirst hlines =>
    cases hfirst with
    | address hd hne hws =>
      refine ⟨lines, hlines, ?_⟩
      rw [comp, List.drop_succ_cons, List.drop_zero, int16_of_number hd hne hws, Int.sub_self]
      rfl

theorem zeros_hold (base : ℕ) : WordTexts.Hold (fun _ _ => ['0', '0']) base fun _ => 0 :=
  fun _ _ _ _ => ⟨rfl, rfl⟩

theorem comp_fits (ht : image.Text file) (hs : image.SectionsFit) (hf : image.Fits) :
    ∃ mem : WordTexts, mem.Hold image.base image.byte ∧ comp file =
      some ((List.range (1 <<< 20)).map fun i => mem i 0 ++ mem i 1 ++ mem i 2 ++ mem i 3) := by
  obtain ⟨lines, hl, hcomp⟩ := comp_of_text ht
  obtain ⟨mem, hmem, hold⟩ := setLines_holds hl (fun a ha => (hs a ha).1) le_rfl hf
    (zeros_hold image.base)
  refine ⟨mem, ?_, ?_⟩
  · intro i hi j hj
    have hpair := hold i hi j hj
    rw [foldl_put] at hpair
    exact hpair
  · rw [hcomp, hmem, Option.map_some]

theorem comp_overflows (ht : image.Text file) (hs : image.SectionsFit) (hf : ¬ image.Fits) :
    comp file = none := by
  obtain ⟨lines, hl, hcomp⟩ := comp_of_text ht
  have hover : ∃ p ∈ HexLine.writes image.base image.lines,
      image.base + 4 * 2 ^ 20 < p.1 + p.2.length := by
    unfold HexImage.Fits at hf
    push Not at hf
    exact hf
  rw [hcomp, setLines_none hl hs le_rfl (Nat.le_add_right _ _) hover (zeros_hold image.base),
    Option.map_none]

theorem byte_beyond (hf : image.Fits) {x : ℕ} (hx : 4 * 2 ^ 20 ≤ x) :
    image.byte (image.base + x) = 0 := by
  unfold HexImage.byte
  rw [lastWritten_eq_none fun p hp => written_eq_none.mpr (.inr ?_)]
  · rfl
  · exact (hf p hp).trans (Nat.add_le_add_left hx _)

theorem flatMap_words (f : ℕ → Byte) (base n : ℕ) :
    ((List.range n).map fun i => word f (base + 4 * i) 4).flatMap (bytes · 4) =
      (List.range (4 * n)).map fun x => f (base + x) := by
  have hword (y : ℕ) : bytes (word f y 4) 4 = (List.range 4).map fun i => f (y + i) := by
    refine List.map_congr_left fun i hi => ?_
    have hi : i < 4 := List.mem_range.mp hi
    rw [word, byte_little _ _ (by omega), List.getD_eq_getElem?_getD, List.getElem?_map,
      List.getElem?_range hi]
    rfl
  induction n with
  | zero => rfl
  | succ n ih =>
    rw [List.range_succ, List.map_append, List.flatMap_append, ih, Nat.mul_succ, List.range_add,
      List.map_append, List.map_map]
    refine congrArg _ ?_
    show bytes (word f (base + 4 * n) 4) 4 ++ [] = _
    rw [List.append_nil, hword]
    simp only [Nat.add_assoc]
    rfl

theorem loadText_holds {mem : WordTexts} {f : ℕ → Byte} {base : ℕ} (hm : mem.Hold base f)
    (hf : ∀ x, 4 * 2 ^ 20 ≤ x → f (base + x) = 0) :
    ∃ u, loadText ((List.range (1 <<< 20)).map fun i => mem i 0 ++ mem i 1 ++ mem i 2 ++ mem i 3) =
      some u ∧ u.Holds fun x => f (base + x) := by
  have hlines : ∀ i ∈ List.range (1 <<< 20),
      stoul (mem i 0 ++ mem i 1 ++ mem i 2 ++ mem i 3) = some (word f (base + 4 * i) 4) := by
    intro i hi
    have hi : i < 2 ^ 20 := List.mem_range.mp hi
    exact stoul_word (hm i hi 0 (by decide)) (hm i hi 1 (by decide)) (hm i hi 2 (by decide))
      (hm i hi 3 (by decide))
  have hsmall : ∀ w ∈ (List.range (1 <<< 20)).map fun i => word f (base + 4 * i) 4,
      w.toNat < 2 ^ 32 := by
    intro w hw
    obtain ⟨i, -, rfl⟩ := List.mem_map.mp hw
    exact toNat_little_lt _
  have hlen : 4 * 0 + 4 * ((List.range (1 <<< 20)).map fun i => word f (base + 4 * i) 4).length ≤
      ramSize := by
    rw [List.length_map, List.length_range]
    decide
  have hzero : Memory.Holds (fun _ => 0) fun _ => 0 := fun _ _ => byte_of_lt (Nat.two_pow_pos _)
  obtain ⟨u, hu, hram⟩ := loadImage_holds hlen hsmall (fun _ _ => rfl) hzero
  refine ⟨u, ?_, fun x hx => ?_⟩
  · rw [loadText, mapM_stoul hlines, Option.bind_some]
    exact hu
  · rw [hram x hx, flatMap_words]
    unfold put written
    dsimp only
    rw [if_pos (Nat.zero_le x), Nat.sub_zero, List.getElem?_map,
      show 4 * 1 <<< 20 = 4 * 2 ^ 20 from rfl]
    -- the lines end at 4 MiB, and the vector is zero behind them
    by_cases hlt : x < 4 * 2 ^ 20
    · rw [List.getElem?_range hlt]
      rfl
    · have hle : 4 * 2 ^ 20 ≤ x := Nat.le_of_not_lt hlt
      rw [List.getElem?_eq_none (by rwa [List.length_range]), hf x hle]
      rfl

/-! ### The two readers -/

/-- The fetch and the load read the same word, and both throw outside of the vector. -/
def FetchAgrees (mem : Memory) (p : Word) : Prop :=
  (getINST (p / 4) mem).map (Prod.mk true) = (cell? (p / 8)).map fun c => loadWord p (mem c)

theorem fetch_agrees (mem : Memory) {p : Word} (hp : p % 4 = 0) : FetchAgrees mem p := by
  have hp4 : p.toNat % 4 = 0 := by
    have h := congrArg BitVec.toNat hp
    rwa [BitVec.toNat_umod] at h
  have hdiv : p / 4 / 2 = p / 8 := by
    refine BitVec.eq_of_toNat_eq ?_
    rw [BitVec.toNat_udiv, BitVec.toNat_udiv, BitVec.toNat_udiv]
    exact Nat.div_div_eq_div_mul _ 4 2
  have hparity : p / 4 % 2 = 0 ↔ p.toNat % 8 = 0 := by
    rw [← BitVec.toNat_inj, BitVec.toNat_umod, BitVec.toNat_udiv]
    show p.toNat / 4 % 2 = 0 ↔ _
    omega
  unfold FetchAgrees getINST
  rw [hdiv]
  cases cell? (p / 8) with
  | none => rfl
  | some c =>
    dsimp only
    rw [Option.map_some, Option.map_some, loadWord_eq, loadFit,
      if_pos (show p.toNat % 8 + 4 ≤ 8 by omega)]
    refine congrArg some (congrArg (Prod.mk true) ?_)
    by_cases h0 : p.toNat % 8 = 0
    · rw [if_pos (hparity.mpr h0), h0, BitVec.and_comm]
      rfl
    · rw [if_neg (mt hparity.mp h0), show p.toNat % 8 = 4 by omega]
      refine BitVec.eq_of_getLsbD_eq fun i hi => ?_
      rw [getLsbD_slice _ _ _ _ hi, BitVec.getLsbD_ushiftRight]
      by_cases hi4 : i < 8 * 4
      · rw [decide_eq_true hi4, Bool.and_true]
      · rw [decide_eq_false hi4, Bool.and_false]
        exact BitVec.getLsbD_of_ge _ _ (by omega)

/-- An image whose sections begin in the 4 MiB from the first one on is converted when all of its
bytes lie there, and then every byte of the vector is the one that the image gives, or zero; and for
every memory the fetch reads the words that a load reads. -/
theorem image_loads (ht : image.Text file) (hs : image.SectionsFit) :
    ((∃ lines, comp file = some lines) ↔ image.Fits) ∧
    (∀ lines, comp file = some lines → ∃ mem, loadText lines = some mem ∧
      ∀ x : Word, x.toNat < ramSize → ∃ c, cell? (x / 8) = some c ∧
        loadByte x (mem c) = (true, (image.byte (image.base + x.toNat)).setWidth 64)) ∧
    ∀ (mem : Memory) (p : Word), p % 4 = 0 → FetchAgrees mem p := by
  have hiff : (∃ lines, comp file = some lines) ↔ image.Fits := by
    constructor
    · rintro ⟨lines, hl⟩
      by_contra hf
      rw [comp_overflows ht hs hf] at hl
      cases hl
    · intro hf
      obtain ⟨mem, -, hcomp⟩ := comp_fits ht hs hf
      exact ⟨_, hcomp⟩
  refine ⟨hiff, fun lines hl => ?_, fun mem p hp => fetch_agrees mem hp⟩
  have hf := hiff.mp ⟨lines, hl⟩
  obtain ⟨texts, hold, hcomp⟩ := comp_fits ht hs hf
  obtain rfl := Option.some.inj (hcomp.symm.trans hl)
  obtain ⟨mem, hmem, hram⟩ := loadText_holds hold fun x hx => byte_beyond hf hx
  refine ⟨mem, hmem, fun x hx => ⟨ramCell x.toNat, cell?_div_eight hx, ?_⟩⟩
  have hone (b : Byte) : little 64 [b] = b.setWidth 64 := by simp [little]
  rw [loadByte_eq, hram.loadFit hx rfl (by omega)]
  exact congrArg (Prod.mk true) (hone _)

theorem dataText_of_pairs {l : List (List Char × Byte)} (h : ∀ p ∈ l, Hex.Pair p.1 p.2) :
    DataText (l.map Prod.snd) (l.flatMap (fun p => p.1 ++ [' ']) ++ ['\n']) := by
  induction l with
  | nil => exact .space (by decide) .nil
  | cons p l ih =>
    obtain ⟨hp, hl⟩ := List.forall_mem_cons.mp h
    have hrest := @DataText.byte p.2 _ p.1 ' ' _ hp (by decide) (ih hl)
    rw [List.map_cons, List.flatMap_cons, List.append_assoc, List.append_assoc]
    exact hrest

theorem lineText_of_digits {a : ℕ} {ds : List Char} (hd : Hex.number? 0 ds = some a)
    (hne : ds ≠ []) : LineText (.address a) ('@' :: (ds ++ ['\n'])) :=
  .address hd hne fun c hc => List.mem_singleton.mp hc ▸ (by decide)

/-- Two bytes from `0x80000000` on, one at `0x80000008`, and one at `0x80000004`. -/
def threeSections : HexImage :=
  ⟨0x80000000, [.data [0x13, 0x05], .address 0x80000008, .data [0x97], .address 0x80000004,
    .data [0x01]]⟩

def threeSectionsText : List (List Char) :=
  [['@', '8', '0', '0', '0', '0', '0', '0', '0', '\n'], ['1', '3', ' ', '0', '5', ' ', '\n'],
    ['@', '8', '0', '0', '0', '0', '0', '0', '8', '\n'], ['9', '7', ' ', '\n'],
    ['@', '8', '0', '0', '0', '0', '0', '0', '4', '\n'], ['0', '1', ' ', '\n']]

theorem threeSections_text : threeSections.Text threeSectionsText := by
  have address (d : Char) {a : ℕ}
      (hd : Hex.number? 0 ['8', '0', '0', '0', '0', '0', '0', d] = some a) :=
    lineText_of_digits hd (List.cons_ne_nil _ _)
  have pair {a b : Char} {v : Byte} (h : Hex.number? 0 [a, b] = some v.toNat) :
      Hex.Pair [a, b] v := ⟨rfl, h⟩
  have h13 : Hex.Pair ['1', '3'] 0x13 := pair (by decide)
  have h05 : Hex.Pair ['0', '5'] 0x05 := pair (by decide)
  have first : DataText [0x13, 0x05] ['1', '3', ' ', '0', '5', ' ', '\n'] :=
    dataText_of_pairs (l := [(_, _), (_, _)]) (List.forall_mem_cons.mpr
      ⟨h13, List.forall_mem_singleton.mpr h05⟩)
  have second : DataText [0x97] ['9', '7', ' ', '\n'] :=
    dataText_of_pairs (l := [(_, _)]) (List.forall_mem_singleton.mpr (pair (by decide)))
  have third : DataText [0x01] ['0', '1', ' ', '\n'] :=
    dataText_of_pairs (l := [(_, _)]) (List.forall_mem_singleton.mpr (pair (by decide)))
  exact .cons (address '0' (by decide)) (.cons (.data first) (.cons (address '8' (by decide))
    (.cons (.data second) (.cons (address '4' (by decide)) (.cons (.data third) .nil)))))

/-- The sections need not be in the order of their addresses. -/
theorem image_loads_threeSections :
    ((∃ lines, comp threeSectionsText = some lines) ↔ threeSections.Fits) ∧
    (∀ lines, comp threeSectionsText = some lines → ∃ mem, loadText lines = some mem ∧
      ∀ x : Word, x.toNat < ramSize → ∃ c, cell? (x / 8) = some c ∧
        loadByte x (mem c) =
          (true, (threeSections.byte (threeSections.base + x.toNat)).setWidth 64)) ∧
    ∀ (mem : Memory) (p : Word), p % 4 = 0 → FetchAgrees mem p := by
  refine image_loads threeSections_text fun a ha => ?_
  have hmem : a = 0x80000008 ∨ a = 0x80000004 := by simpa [threeSections] using ha
  rcases hmem with rfl | rfl <;> decide

end RiscvEmu
