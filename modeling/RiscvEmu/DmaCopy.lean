import RiscvEmu.AccessWidths

/-! `virtio_memcpy_to_ram` and `virtio_memcpy_from_ram` of the device, on top of `mem_write8` and
`mem_read8`. -/

namespace RiscvEmu

open Bytes

variable {addr : Word} {buf : List Byte} {m : Machine}

def virtioPageSize : Word := 4096

/-- `min_int(count, VIRTIO_PAGE_SIZE - (addr & (VIRTIO_PAGE_SIZE - 1)))`. The `int` values of the two
copies are given by their value. -/
def pageChunk (addr : Word) (count : Int) : Int :=
  min count (virtioPageSize - (addr &&& (virtioPageSize - 1))).toNat

theorem toNat_pageRest (addr : Word) :
    (virtioPageSize - (addr &&& (virtioPageSize - 1))).toNat = 4096 - addr.toNat % 4096 := by
  have hand : (addr &&& (virtioPageSize - 1)).toNat = addr.toNat % 4096 := by
    rw [BitVec.toNat_and]
    exact Nat.and_two_pow_sub_one_eq_mod addr.toNat 12
  have hle : addr &&& (virtioPageSize - 1) ≤ virtioPageSize := by
    rw [BitVec.le_def, hand]
    exact (Nat.mod_lt _ (by decide)).le
  rw [BitVec.toNat_sub_of_le hle, hand]
  rfl

theorem pageChunk_pos {count : Int} (h : 0 < count) : 0 < pageChunk addr count := by
  have hmod : addr.toNat % 4096 < 4096 := Nat.mod_lt _ (by decide)
  rw [pageChunk, toNat_pageRest]
  omega

theorem pageChunk_le (addr : Word) (count : Int) : pageChunk addr count ≤ count := min_le_left _ _

/-- What `l` rounds of `mem_write8(addr+i, *(buf+i))` do. -/
def writeRounds (addr : Word) (buf : List Byte) : ℕ → Machine → Call Unit
  | 0, m => .ret () m
  | i + 1, m =>
    match writeRounds addr buf i m with
    | .stop h m => .stop h m
    | .ret () m =>
      match buf[i]? with
      | none => .stop .undefined m
      | some b => dmaWrite (memWrite8 (addr + BitVec.ofNat 64 i) (b.setWidth 64) m.mem) m

/-- `buf` is what there is from the pointer on. -/
def virtioMemcpyToRam (addr : Word) (buf : List Byte) (count : Int) (m : Machine) : Call Unit :=
  if hpos : 0 < count then
    let l := pageChunk addr count
    have : count - l < count := Int.sub_lt_self _ (pageChunk_pos hpos)
    match writeRounds addr buf l.toNat m with
    | .stop h m => .stop h m
    | .ret () m => virtioMemcpyToRam (addr + BitVec.ofInt 64 l) (buf.drop l.toNat) (count - l) m
  else .ret () m
termination_by count.toNat

/-- What `l` rounds of `*(buf+i) = mem_read8(addr+i)` put into the buffer. -/
def readRounds (addr : Word) (mem : Memory) : ℕ → Option (List Byte)
  | 0 => some []
  | i + 1 => do
    let bytes ← readRounds addr mem i
    let b ← memRead8 (addr + BitVec.ofNat 64 i) mem
    return bytes ++ [b]

def virtioMemcpyFromRam (addr : Word) (count : Int) (mem : Memory) : Option (List Byte) :=
  if hpos : 0 < count then
    let l := pageChunk addr count
    have : count - l < count := Int.sub_lt_self _ (pageChunk_pos hpos)
    do
      let bytes ← readRounds addr mem l.toNat
      let rest ← virtioMemcpyFromRam (addr + BitVec.ofInt 64 l) (count - l) mem
      return bytes ++ rest
  else some []
termination_by count.toNat

/-! ### The range in RAM -/

structure RamRange (addr : Word) (n : ℕ) : Prop where
  base : dramBase ≤ addr
  fits : (addr - dramBase).toNat + n ≤ ramSize

namespace RamRange

variable {i n : ℕ} (h : RamRange addr n)
include h

theorem toNat_add (hi : i ≤ n) : (addr + BitVec.ofNat 64 i).toNat = addr.toNat + i := by
  have hbase := base_le_iff.mp h.base
  have hoff := toNat_sub_base h.base
  have hfits := h.fits
  have hsize : ramSize = 2 ^ 31 := rfl
  rw [BitVec.toNat_add, BitVec.toNat_ofNat]
  omega

theorem base_add (hi : i ≤ n) : dramBase ≤ addr + BitVec.ofNat 64 i := by
  have hbase := base_le_iff.mp h.base
  rw [base_le_iff, h.toNat_add hi]
  omega

theorem offset_add (hi : i ≤ n) :
    (addr + BitVec.ofNat 64 i - dramBase).toNat = (addr - dramBase).toNat + i := by
  have hbase := base_le_iff.mp h.base
  rw [toNat_sub_base (h.base_add hi), toNat_sub_base h.base, h.toNat_add hi]
  omega

theorem rest (hi : i ≤ n) : RamRange (addr + BitVec.ofNat 64 i) (n - i) where
  base := h.base_add hi
  fits := by
    have hfits := h.fits
    rw [h.offset_add hi]
    omega

end RamRange

theorem exists_pageChunk (addr : Word) {count : ℕ} (h : 0 < count) :
    ∃ l : ℕ, pageChunk addr count = l ∧ 0 < l ∧ l ≤ count := by
  have hpos : 0 < pageChunk addr count := pageChunk_pos (by omega)
  have hle := pageChunk_le addr count
  exact ⟨(pageChunk addr count).toNat, by omega, by omega, by omega⟩

/-! ### Copying to RAM -/

theorem bytes_one (b : Byte) : bytes (b.setWidth 64) 1 = [b] := by
  have hbyte : byte (b.setWidth 64) 0 = b := by
    rw [byte, Nat.mul_zero, BitVec.ushiftRight_zero, BitVec.setWidth_setWidth_of_le _ (by decide),
      BitVec.setWidth_eq]
  exact congrArg (fun x => [x]) hbyte

theorem memWrite8_holds {ram : ℕ → Byte} (b : Byte) (ha : (addr - dramBase).toNat < ramSize)
    (hm : m.mem.Holds ram) :
    ∃ t, dmaWrite (memWrite8 addr (b.setWidth 64) m.mem) m = .ret () t ∧
      t.mem.Holds (put ((addr - dramBase).toNat, [b]) ram) := by
  have hw := dmaWrite_holds (n := 1) (b.setWidth 64) ha (by omega) hm
  rw [bytes_one, ← storeByte_eq] at hw
  exact hw

theorem writeRounds_holds {n l : ℕ} {ram : ℕ → Byte} (h : RamRange addr n) (hn : l ≤ n)
    (hl : l ≤ buf.length) (hm : m.mem.Holds ram) :
    ∃ t, writeRounds addr buf l m = .ret () t ∧
      t.mem.Holds (put ((addr - dramBase).toNat, buf.take l) ram) := by
  induction l with
  | zero =>
    refine ⟨m, rfl, ?_⟩
    rw [List.take_zero, put_nil]
    exact hm
  | succ l ih =>
    obtain ⟨u, hu, hram⟩ := ih (by omega) (by omega)
    have hget : buf[l]? = some buf[l] := List.getElem?_eq_getElem hl
    have hoff := h.offset_add (i := l) (by omega)
    have hfits := h.fits
    have hlt : (addr + BitVec.ofNat 64 l - dramBase).toNat < ramSize := by
      rw [hoff]
      omega
    obtain ⟨t, ht, hram⟩ := memWrite8_holds buf[l] hlt hram
    refine ⟨t, ?_, ?_⟩
    · rw [writeRounds, hu]
      dsimp only
      rw [hget]
      exact ht
    · -- the new byte continues the ones that are there
      have hlen : (buf.take l).length = l := List.length_take_of_le (by omega)
      have happend := put_append (addr - dramBase).toNat (buf.take l) [buf[l]] ram
      rw [hlen, List.take_append_getElem] at happend
      rw [hoff, happend] at hram
      exact hram

theorem memcpyToRam_holds {count : ℕ} {ram : ℕ → Byte} (h : RamRange addr count)
    (hb : count ≤ buf.length) (hm : m.mem.Holds ram) :
    ∃ t, virtioMemcpyToRam addr buf count m = .ret () t ∧
      t.mem.Holds (put ((addr - dramBase).toNat, buf.take count) ram) := by
  induction count using Nat.strong_induction_on generalizing addr buf m ram with
  | _ count ih =>
    rw [virtioMemcpyToRam]
    by_cases hpos : 0 < count
    · obtain ⟨l, hl, hlpos, hle⟩ := exists_pageChunk addr hpos
      obtain ⟨u, hu, hram⟩ := writeRounds_holds h hle (Nat.le_trans hle hb) hm
      have hlen : count - l ≤ (buf.drop l).length := by
        rw [List.length_drop]
        omega
      obtain ⟨t, ht, hram⟩ := ih (count - l) (by omega) (h.rest hle) hlen hram
      refine ⟨t, ?_, ?_⟩
      · rw [dif_pos (Int.natCast_pos.mpr hpos)]
        dsimp only
        rw [hl, Int.toNat_natCast, hu, BitVec.ofInt_natCast, ← Int.natCast_sub hle]
        exact ht
      · have hlen : (buf.take l).length = l := List.length_take_of_le (by omega)
        have happend := put_append (addr - dramBase).toNat (buf.take l)
          ((buf.drop l).take (count - l)) ram
        rw [hlen, ← List.take_add, Nat.add_sub_cancel' hle] at happend
        rw [h.offset_add hle, happend] at hram
        exact hram
    · obtain rfl : count = 0 := by omega
      refine ⟨m, dif_neg (by decide), ?_⟩
      rw [List.take_zero, put_nil]
      exact hm

/-! ### Copying from RAM -/

theorem word_one (ram : ℕ → Byte) (x : ℕ) : (word ram x 1).setWidth 8 = ram x := by
  have hbyte : byte (word ram x 1) 0 = ram x := byte_little _ _ (by decide)
  rw [byte, Nat.mul_zero, BitVec.ushiftRight_zero] at hbyte
  exact hbyte

theorem memRead8_holds {ram : ℕ → Byte} (ha : (addr - dramBase).toNat < ramSize)
    (hm : m.mem.Holds ram) : memRead8 addr m.mem = some (ram (addr - dramBase).toNat) := by
  rw [(dmaReads hm addr ha).1 (by omega), word_one]

theorem readRounds_eq {n l : ℕ} {ram : ℕ → Byte} (h : RamRange addr n) (hn : l ≤ n)
    (hm : m.mem.Holds ram) : readRounds addr m.mem l =
      some ((List.range l).map fun i => ram ((addr - dramBase).toNat + i)) := by
  induction l with
  | zero => rfl
  | succ l ih =>
    have hoff := h.offset_add (i := l) (by omega)
    have hfits := h.fits
    have hread : memRead8 (addr + BitVec.ofNat 64 l) m.mem = _ :=
      memRead8_holds (by rw [hoff]; omega) hm
    rw [readRounds, ih (by omega), hread, hoff, List.range_succ, List.map_append]
    rfl

theorem memcpyFromRam_eq {count : ℕ} {ram : ℕ → Byte} (h : RamRange addr count)
    (hm : m.mem.Holds ram) : virtioMemcpyFromRam addr count m.mem =
      some ((List.range count).map fun i => ram ((addr - dramBase).toNat + i)) := by
  induction count using Nat.strong_induction_on generalizing addr with
  | _ count ih =>
    rw [virtioMemcpyFromRam]
    by_cases hpos : 0 < count
    · obtain ⟨l, hl, hlpos, hle⟩ := exists_pageChunk addr hpos
      have hrest := ih (count - l) (by omega) (h.rest hle)
      have hrange : List.range count =
          List.range l ++ (List.range (count - l)).map (l + ·) := by
        rw [← List.range_add, Nat.add_sub_cancel' hle]
      rw [dif_pos (Int.natCast_pos.mpr hpos)]
      dsimp only
      rw [hl, Int.toNat_natCast, readRounds_eq h hle hm, BitVec.ofInt_natCast,
        ← Int.natCast_sub hle, hrest, h.offset_add hle, hrange, List.map_append, List.map_map]
      simp only [Nat.add_assoc]
      rfl
    · obtain rfl : count = 0 := by omega
      exact dif_neg (by decide)

/-! ### Copying in parts -/

def copyParts (addr : Word) (buf : List Byte) : List (ℕ × ℕ) → Machine → Call Unit
  | [], m => .ret () m
  | (o, l) :: parts, m =>
    match virtioMemcpyToRam (addr + BitVec.ofNat 64 o) (buf.drop o) l m with
    | .stop h m => .stop h m
    | .ret () m => copyParts addr buf parts m

/-- The parts are parts of `n` bytes, and no byte is left out. -/
structure Covers (parts : List (ℕ × ℕ)) (n : ℕ) : Prop where
  within : ∀ p ∈ parts, p.1 + p.2 ≤ n
  covers : ∀ i < n, ∃ p ∈ parts, p.1 ≤ i ∧ i < p.1 + p.2

def partPut (a : ℕ) (buf : List Byte) (p : ℕ × ℕ) : ℕ × List Byte :=
  (a + p.1, (buf.drop p.1).take p.2)

theorem copyParts_holds {parts : List (ℕ × ℕ)} {ram : ℕ → Byte} (h : RamRange addr buf.length)
    (hin : ∀ p ∈ parts, p.1 + p.2 ≤ buf.length) (hm : m.mem.Holds ram) :
    ∃ t, copyParts addr buf parts m = .ret () t ∧ t.mem.Holds
      ((parts.map (partPut (addr - dramBase).toNat buf)).foldl (fun f p => put p f) ram) := by
  induction parts generalizing m ram with
  | nil => exact ⟨m, rfl, hm⟩
  | cons p parts ih =>
    obtain ⟨o, l⟩ := p
    have hp : o + l ≤ buf.length := hin (o, l) (List.mem_cons_self ..)
    have hpart : RamRange (addr + BitVec.ofNat 64 o) l :=
      have hrest := h.rest (i := o) (by omega)
      ⟨hrest.base, by have hfits := hrest.fits; omega⟩
    have hlen : l ≤ (buf.drop o).length := by
      rw [List.length_drop]
      omega
    obtain ⟨u, hu, hram⟩ := memcpyToRam_holds hpart hlen hm
    rw [h.offset_add (by omega)] at hram
    obtain ⟨t, ht, hram⟩ := ih (fun q hq => hin q (List.mem_cons_of_mem _ hq)) hram
    refine ⟨t, ?_, hram⟩
    rw [copyParts, hu]
    exact ht

theorem written_partPut {a o l x : ℕ} (hx : a + o ≤ x ∧ x < a + o + l) :
    written (partPut a buf (o, l)) x = written (a, buf) x := by
  unfold written partPut
  dsimp only
  rw [if_pos hx.1, if_pos (by omega), List.getElem?_take_of_lt (by omega), List.getElem?_drop,
    show o + (x - (a + o)) = x - a by omega]

theorem written_partPut_of_not {a o l x : ℕ} (hx : ¬ (a + o ≤ x ∧ x < a + o + l)) :
    written (partPut a buf (o, l)) x = none := by
  rw [written_eq_none, partPut, List.length_take]
  dsimp only
  omega

theorem foldl_partPut {parts : List (ℕ × ℕ)} (h : Covers parts buf.length) (a : ℕ)
    (ram : ℕ → Byte) (x : ℕ) :
    (parts.map (partPut a buf)).foldl (fun f p => put p f) ram x = put (a, buf) ram x := by
  rw [foldl_put, put]
  congr 1
  by_cases hx : a ≤ x ∧ x < a + buf.length
  · have hlt : x - a < buf.length := by omega
    have hwhole : written (a, buf) x = some buf[x - a] := by
      unfold written
      rw [if_pos hx.1]
      exact List.getElem?_eq_getElem hlt
    rw [hwhole]
    refine lastWritten_eq_some (fun p hp => ?_) ?_
    · obtain ⟨⟨o, l⟩, hp, rfl⟩ := List.mem_map.mp hp
      by_cases hin : a + o ≤ x ∧ x < a + o + l
      · exact .inr ((written_partPut hin).trans hwhole)
      · exact .inl (written_partPut_of_not hin)
    · obtain ⟨⟨o, l⟩, hp, hlo, hhi⟩ := h.covers (x - a) (by omega)
      exact ⟨_, List.mem_map_of_mem hp, (written_partPut (by omega)).trans hwhole⟩
  · have hnone : written (a, buf) x = none := written_eq_none.mpr (by dsimp only; omega)
    rw [hnone]
    refine lastWritten_eq_none fun p hp => ?_
    obtain ⟨⟨o, l⟩, hmem, rfl⟩ := List.mem_map.mp hp
    have hin : o + l ≤ buf.length := h.within (o, l) hmem
    exact written_partPut_of_not (by omega)

/-- A copy to RAM returns with exactly the bytes of the buffer in the range; a copy back reads them;
and copies of parts that cover the buffer, in any order, leave the same memory. -/
theorem dma_copies (m : Machine) (h : RamRange addr buf.length) :
    ∃ t, virtioMemcpyToRam addr buf buf.length m = .ret () t ∧
      (∀ x < ramSize, t.mem.byte x = put ((addr - dramBase).toNat, buf) m.mem.byte x) ∧
      virtioMemcpyFromRam addr buf.length t.mem = some buf ∧
      ∀ parts, Covers parts buf.length →
        ∃ u, copyParts addr buf parts m = .ret () u ∧ u.mem = t.mem := by
  have hm : m.mem.Holds m.mem.byte := fun _ _ => rfl
  obtain ⟨t, ht, hram⟩ := memcpyToRam_holds h le_rfl hm
  rw [List.take_length] at hram
  refine ⟨t, ht, hram, ?_, fun parts hc => ?_⟩
  · rw [memcpyFromRam_eq h hram, map_put]
  · obtain ⟨u, hu, hparts⟩ := copyParts_holds h hc.within hm
    refine ⟨u, hu, Memory.ext_byte fun x hx => ?_⟩
    rw [hparts x hx, hram x hx, foldl_partPut hc]

/-- Four bytes over the end of a page and of a doubleword. -/
theorem dma_copies_page : ∃ t,
    virtioMemcpyToRam 0x80000ffe [1, 2, 3, 4] 4 (boot (fun _ => 0) 0).toMachine = .ret () t ∧
      (∀ x < ramSize, t.mem.byte x = put ((0x80000ffe - dramBase).toNat, [1, 2, 3, 4])
        (boot (fun _ => 0) 0).mem.byte x) ∧
      virtioMemcpyFromRam 0x80000ffe 4 t.mem = some [1, 2, 3, 4] ∧
      ∀ parts, Covers parts 4 → ∃ u,
        copyParts 0x80000ffe [1, 2, 3, 4] parts (boot (fun _ => 0) 0).toMachine = .ret () u ∧
          u.mem = t.mem :=
  dma_copies (boot (fun _ => 0) 0).toMachine ⟨by decide, by decide⟩

end RiscvEmu
