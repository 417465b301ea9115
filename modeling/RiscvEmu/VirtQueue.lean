import RiscvEmu.Lib.Segments
import RiscvEmu.VirtioBlock

/-! The queues against what their descriptors say: a chain of descriptors is two lists of segments of
RAM, one to read and one to write, and the copies between a device and a queue gather and scatter
their bytes. -/

namespace RiscvEmu

open Bytes Programs Segments

/-! ### Values of `int` -/

section Ints

variable {a b : BitVec 32}

theorem toInt_of_lt (h : a.toNat < 2 ^ 31) : a.toInt = a.toNat :=
  BitVec.toInt_eq_toNat_of_lt (by omega)

theorem slt_iff (ha : a.toNat < 2 ^ 31) (hb : b.toNat < 2 ^ 31) : a.slt b ↔ a.toNat < b.toNat := by
  rw [BitVec.slt_iff_toInt_lt, toInt_of_lt ha, toInt_of_lt hb, Int.ofNat_lt]

theorem minInt_of_le (ha : a.toNat < 2 ^ 31) (hb : b.toNat < 2 ^ 31) (h : a.toNat ≤ b.toNat) :
    minInt a b = a := by
  unfold minInt
  split
  · rfl
  · rename_i hlt
    rw [slt_iff ha hb] at hlt
    exact BitVec.eq_of_toNat_eq (by omega)

theorem minInt_of_ge (ha : a.toNat < 2 ^ 31) (hb : b.toNat < 2 ^ 31) (h : b.toNat ≤ a.toNat) :
    minInt a b = b :=
  if_neg fun hlt => Nat.not_lt.mpr h ((slt_iff ha hb).mp hlt)

theorem signExtend_of_lt (h : a.toNat < 2 ^ 31) : a.signExtend 64 = BitVec.ofNat 64 a.toNat := by
  have hmsb : a.msb = false := BitVec.msb_eq_false_iff_two_mul_lt.mpr (by omega)
  rw [BitVec.signExtend_eq_setWidth_of_msb_false hmsb, BitVec.ofNat_toNat]

theorem toNat_sub_of_le (h : b.toNat ≤ a.toNat) : (a - b).toNat = a.toNat - b.toNat :=
  BitVec.toNat_sub_of_le h

end Ints

variable {δ : Type} {x y z : Attached δ} {ram ram' : ℕ → Byte} {q : Fin maxQueue}

/-! ### The machine under the device -/

def DmaOnly (m m' : Machine) : Prop := ∃ mem bus, m' = { m with mem := mem, bus := bus }

theorem DmaOnly.refl (m : Machine) : DmaOnly m m := ⟨m.mem, m.bus, rfl⟩

theorem DmaOnly.trans {m₁ m₂ m₃ : Machine} (h : DmaOnly m₁ m₂) (h' : DmaOnly m₂ m₃) :
    DmaOnly m₁ m₃ := by
  obtain ⟨mem, bus, rfl⟩ := h
  obtain ⟨mem', bus', rfl⟩ := h'
  exact ⟨mem', bus', rfl⟩

theorem dmaWrite_dmaOnly {target : Option (Cell × Word)} {m m' : Machine}
    (h : dmaWrite target m = .ret () m') : DmaOnly m m' := by
  unfold dmaWrite at h
  split at h
  · cases h
  · cases h
    exact ⟨_, _, rfl⟩

theorem writeRounds_dmaOnly {addr : Word} {buf : List Byte} {l : ℕ} {m m' : Machine}
    (h : writeRounds addr buf l m = .ret () m') : DmaOnly m m' := by
  induction l generalizing m' with
  | zero =>
    cases h
    exact .refl _
  | succ l ih =>
    rw [writeRounds] at h
    split at h
    · cases h
    · rename_i u hu
      split at h
      · cases h
      · exact (ih hu).trans (dmaWrite_dmaOnly h)

theorem virtioMemcpyToRam_dmaOnly {addr : Word} {buf : List Byte} {count : Int} {m m' : Machine}
    (h : virtioMemcpyToRam addr buf count m = .ret () m') : DmaOnly m m' := by
  induction addr, buf, count, m using virtioMemcpyToRam.induct with
  | case1 addr buf count m hpos l hlt e u hu =>
    rw [virtioMemcpyToRam, dif_pos hpos] at h
    dsimp only at h
    rw [hu] at h
    cases h
  | case2 addr buf count m hpos l hlt u hu ih =>
    rw [virtioMemcpyToRam, dif_pos hpos] at h
    dsimp only at h
    rw [hu] at h
    exact (writeRounds_dmaOnly hu).trans (ih h)
  | case3 addr buf count m hpos =>
    rw [virtioMemcpyToRam, dif_neg hpos] at h
    cases h
    exact .refl _

structure Copied (x y : Attached δ) : Prop where
  common : y.common = x.common
  ext : y.ext = x.ext
  machine : DmaOnly x.machine y.machine

theorem Copied.refl (x : Attached δ) : Copied x x := ⟨rfl, rfl, .refl _⟩

theorem Copied.trans (h : Copied x y) (h' : Copied y z) : Copied x z :=
  ⟨h'.common.trans h.common, h'.ext.trans h.ext, h.machine.trans h'.machine⟩

theorem memcpyFromRam_returns {addr : Word} {n : BitVec 32} (h : RamRange addr n.toNat)
    (hn : n.toNat < 2 ^ 31) (hm : x.machine.mem.Holds ram) :
    (memcpyFromRam addr n : Dev δ _).Returns x (range ram (addr - dramBase).toNat n.toNat) x := by
  refine Prog.returns_step.mpr ?_
  rw [toInt_of_lt hn, memcpyFromRam_eq h hm]
  rfl

theorem memcpyToRam_returns {addr : Word} {buf : List Byte} {n : BitVec 32}
    (h : RamRange addr n.toNat) (hn : n.toNat < 2 ^ 31) (hb : n.toNat ≤ buf.length)
    (hm : x.machine.mem.Holds ram) : ∃ y, (memcpyToRam addr buf n).Returns x () y ∧
      y.machine.mem.Holds (put ((addr - dramBase).toNat, buf.take n.toNat) ram) ∧ Copied x y := by
  obtain ⟨t, ht, hram⟩ := memcpyToRam_holds h hb hm
  rw [← toInt_of_lt hn] at ht
  refine ⟨{ x with machine := t, acts := x.acts ++ copyActs addr buf n.toInt.toNat }, ?_, hram,
    rfl, rfl, virtioMemcpyToRam_dmaOnly ht⟩
  refine Prog.returns_step.mpr ?_
  rw [ht]

/-! ### Chains of descriptors -/

def descAddress (table : Word) (i : BitVec 16) : Word := table + i.setWidth 64 * 16

def slot (table : Word) (i : BitVec 16) : ℕ × ℕ := ((descAddress table i - dramBase).toNat, 16)

def descAt (ram : ℕ → Byte) (table : Word) (i : BitVec 16) : VirtioDesc :=
  .ofBytes (range ram (slot table i).1 16)

def VirtioDesc.segment (d : VirtioDesc) : ℕ × ℕ := ((d.addr - dramBase).toNat, d.len.toNat)

instance (addr : Word) (n : ℕ) : Decidable (RamRange addr n) :=
  decidable_of_iff (dramBase ≤ addr ∧ (addr - dramBase).toNat + n ≤ ramSize)
    ⟨fun h => ⟨h.1, h.2⟩, fun h => ⟨h.base, h.fits⟩⟩

/-- The descriptors that are linked from index `i` on, up to the one that has no next one. -/
def Chain (ram : ℕ → Byte) (table : Word) : BitVec 16 → List VirtioDesc → Prop
  | _, [] => False
  | i, d :: ds => RamRange (descAddress table i) 16 ∧ descAt ram table i = d ∧
      if d.hasNext then Chain ram table d.next ds else ds = []

instance decidableChain (ram : ℕ → Byte) (table : Word) :
    ∀ (i : BitVec 16) (ds : List VirtioDesc), Decidable (Chain ram table i ds)
  | _, [] => inferInstanceAs (Decidable False)
  | i, d :: ds =>
    have := decidableChain ram table d.next ds
    inferInstanceAs (Decidable (RamRange (descAddress table i) 16 ∧ descAt ram table i = d ∧
      if d.hasNext then Chain ram table d.next ds else ds = []))

def Follows (ram : ℕ → Byte) (table : Word) (d : VirtioDesc) (ds : List VirtioDesc) : Prop :=
  if d.hasNext then Chain ram table d.next ds else ds = []

def slots (table : Word) : BitVec 16 → List VirtioDesc → List (ℕ × ℕ)
  | _, [] => []
  | i, d :: ds => slot table i :: slots table d.next ds

variable {table : Word} {i : BitVec 16} {d e : VirtioDesc} {ds es : List VirtioDesc}

theorem Chain.congr (h : Chain ram table i ds)
    (hs : ∀ y, Touches (slots table i ds) y → ram y = ram' y) : Chain ram' table i ds := by
  induction ds generalizing i with
  | nil => exact h
  | cons d ds ih =>
    obtain ⟨hr, hd, hnext⟩ := h
    refine ⟨hr, ?_, ?_⟩
    · rw [← hd]
      exact congrArg VirtioDesc.ofBytes
        (range_congr fun y hy => (hs y (touches_cons.mpr (.inl hy))).symm)
    · split at hnext
      · rename_i hn
        rw [if_pos hn]
        exact ih hnext fun y hy => hs y (touches_cons.mpr (.inr hy))
      · rename_i hn
        rw [if_neg hn]
        exact hnext

theorem Follows.congr (h : Follows ram table d ds)
    (hs : ∀ y, Touches (slots table d.next ds) y → ram y = ram' y) : Follows ram' table d ds := by
  unfold Follows at h ⊢
  split at h
  · rename_i hn
    rw [if_pos hn]
    exact h.congr hs
  · rename_i hn
    rw [if_neg hn]
    exact h

theorem Follows.suffix (h : Follows ram table d ds) (hs : e :: es <:+ d :: ds) :
    Follows ram table e es := by
  induction ds generalizing d with
  | nil =>
    obtain h' | h' := List.suffix_cons_iff.mp hs
    · cases h'
      exact h
    · cases List.suffix_nil.mp h'
  | cons d' ds ih =>
    obtain h' | h' := List.suffix_cons_iff.mp hs
    · cases h'
      exact h
    · unfold Follows at h
      split at h
      · exact ih h.2.2 h'
      · cases h

theorem getDesc_returns (hq : (x.common.queue q).descAddr = table)
    (hr : RamRange (descAddress table i) 16) (hm : x.machine.mem.Holds ram) :
    (getDesc q i).Returns x (descAt ram table i) x := by
  subst hq
  refine .bind (Prog.returns_reads.mpr ⟨rfl, rfl⟩) ?_
  refine .bind (memcpyFromRam_returns (n := 16) hr (by decide) hm) ?_
  exact Prog.returns_pure.mpr ⟨rfl, rfl⟩

theorem Follows.getDesc_returns (hq : (x.common.queue q).descAddr = table)
    (h : Follows ram table d (e :: es)) (hm : x.machine.mem.Holds ram) :
    (getDesc q d.next).Returns x e x ∧ Follows ram table e es := by
  unfold Follows at h
  split at h
  · obtain ⟨hr, rfl, hnext⟩ := h
    exact ⟨RiscvEmu.getDesc_returns hq hr hm, hnext⟩
  · cases h

theorem Follows.hasNext_iff (h : Follows ram table d ds) : d.hasNext = !ds.isEmpty := by
  unfold Follows at h
  split at h
  · rename_i hn
    cases ds with
    | nil => exact h.elim
    | cons e es => exact hn
  · rename_i hn
    subst h
    exact Bool.eq_false_iff.mpr hn

/-! ### The sizes of a chain -/

/-- The sum of the lengths, as an `int` holds it. -/
def lens (ds : List VirtioDesc) : BitVec 32 := (ds.map VirtioDesc.len).sum

def part (write : Bool) (ds : List VirtioDesc) : List VirtioDesc :=
  ds.takeWhile fun d => d.write = write

def rest (ds : List VirtioDesc) : List VirtioDesc := ds.dropWhile fun d => d.write = false

/-- The two sizes of a chain in which no read descriptor follows a write descriptor. -/
def rwSize (ds : List VirtioDesc) : Option (BitVec 32 × BitVec 32) :=
  if (rest ds).all VirtioDesc.write then some (lens (part false ds), lens (rest ds)) else none

theorem lens_cons (d : VirtioDesc) (ds : List VirtioDesc) : lens (d :: ds) = d.len + lens ds := by
  rw [lens, lens, List.map_cons, List.sum_cons]

theorem part_of_eq {w : Bool} (hw : d.write = w) : part w (d :: ds) = d :: part w ds :=
  List.takeWhile_cons_of_pos (decide_eq_true hw)

theorem part_of_ne {w : Bool} (hw : d.write ≠ w) : part w (d :: ds) = [] :=
  List.takeWhile_cons_of_neg (by rw [decide_eq_true_iff]; exact hw)

theorem rest_of_read (hw : d.write = false) : rest (d :: ds) = rest ds :=
  List.dropWhile_cons_of_pos (decide_eq_true hw)

theorem rest_of_write (hw : d.write = true) : rest (d :: ds) = d :: ds :=
  List.dropWhile_cons_of_neg (by rw [decide_eq_true_iff, hw]; decide)

/-! The rounds of the two loops. -/

section Rounds

variable {r : BitVec 32} {o : Option VirtioDesc × BitVec 32} {w : Option (BitVec 32)}

theorem readSizes_write (hw : d.write = true) :
    (readSizes q (d, r)).Returns x (some d, r) x := by
  refine Prog.Returns.loop_done ?_
  dsimp only
  rw [if_pos hw]
  exact Prog.returns_pure.mpr ⟨rfl, rfl⟩

theorem readSizes_last (hw : d.write = false) (hn : d.hasNext = false) :
    (readSizes q (d, r)).Returns x (none, r + d.len) x := by
  refine Prog.Returns.loop_done ?_
  dsimp only
  rw [hw, hn]
  exact Prog.returns_pure.mpr ⟨rfl, rfl⟩

theorem readSizes_next (hw : d.write = false) (hn : d.hasNext = true)
    (he : (getDesc q d.next).Returns x e x) (h : (readSizes q (e, r + d.len)).Returns x o x) :
    (readSizes q (d, r)).Returns x o x := by
  refine Prog.Returns.loop_next ?_ h
  dsimp only
  rw [hw, hn]
  exact .bind he (Prog.returns_pure.mpr ⟨rfl, rfl⟩)

theorem writeSizes_read (hw : d.write = false) : (writeSizes q (d, r)).Returns x none x := by
  refine Prog.Returns.loop_done ?_
  dsimp only
  rw [hw]
  exact Prog.returns_pure.mpr ⟨rfl, rfl⟩

theorem writeSizes_last (hw : d.write = true) (hn : d.hasNext = false) :
    (writeSizes q (d, r)).Returns x (some (r + d.len)) x := by
  refine Prog.Returns.loop_done ?_
  dsimp only
  rw [hw, hn]
  exact Prog.returns_pure.mpr ⟨rfl, rfl⟩

theorem writeSizes_next (hw : d.write = true) (hn : d.hasNext = true)
    (he : (getDesc q d.next).Returns x e x) (h : (writeSizes q (e, r + d.len)).Returns x w x) :
    (writeSizes q (d, r)).Returns x w x := by
  refine Prog.Returns.loop_next ?_ h
  dsimp only
  rw [hw, hn]
  exact .bind he (Prog.returns_pure.mpr ⟨rfl, rfl⟩)

end Rounds

section Walks

variable (hq : (x.common.queue q).descAddr = table) (hm : x.machine.mem.Holds ram)
include hq hm

theorem readSizes_returns (h : Follows ram table d ds) (r : BitVec 32) :
    (readSizes q (d, r)).Returns x ((rest (d :: ds)).head?, r + lens (part false (d :: ds))) x := by
  induction ds generalizing d r with
  | nil =>
    cases hw : d.write with
    | true =>
      rw [part_of_ne (hw ▸ Bool.noConfusion), rest_of_write hw]
      exact (BitVec.add_zero r).symm ▸ readSizes_write hw
    | false =>
      rw [part_of_eq hw, rest_of_read hw, lens_cons]
      exact (BitVec.add_zero d.len).symm ▸ readSizes_last hw h.hasNext_iff
  | cons e ds ih =>
    cases hw : d.write with
    | true =>
      rw [part_of_ne (hw ▸ Bool.noConfusion), rest_of_write hw]
      exact (BitVec.add_zero r).symm ▸ readSizes_write hw
    | false =>
      obtain ⟨he, hrest⟩ := h.getDesc_returns hq hm
      rw [part_of_eq hw, rest_of_read hw, lens_cons, ← BitVec.add_assoc]
      exact readSizes_next hw h.hasNext_iff he (ih hrest (r + d.len))

theorem writeSizes_returns (h : Follows ram table d ds) (r : BitVec 32) :
    (writeSizes q (d, r)).Returns x
      (if (d :: ds).all VirtioDesc.write then some (r + lens (d :: ds)) else none) x := by
  induction ds generalizing d r with
  | nil =>
    rw [List.all_cons, List.all_nil, Bool.and_true, lens_cons]
    cases hw : d.write with
    | true => exact (BitVec.add_zero d.len).symm ▸ writeSizes_last hw h.hasNext_iff
    | false => exact writeSizes_read hw
  | cons e ds ih =>
    rw [List.all_cons, lens_cons, ← BitVec.add_assoc]
    cases hw : d.write with
    | true =>
      obtain ⟨he, hrest⟩ := h.getDesc_returns hq hm
      exact writeSizes_next hw h.hasNext_iff he (ih hrest (r + d.len))
    | false => exact writeSizes_read hw

theorem getDescRwSize_returns (h : Chain ram table i ds) :
    (getDescRwSize q i).Returns x (rwSize ds) x := by
  cases ds with
  | nil => exact h.elim
  | cons d ds =>
    obtain ⟨hr, rfl, hnext⟩ := h
    have hfollows : Follows ram table (descAt ram table i) ds := hnext
    refine .bind (getDesc_returns hq hr hm) (.bind (readSizes_returns hq hm hfollows 0) ?_)
    rw [zero_add, rwSize]
    dsimp only
    cases hrest : rest (descAt ram table i :: ds) with
    | nil => exact Prog.returns_pure.mpr ⟨rfl, rfl⟩
    | cons e es =>
      have hsuffix : e :: es <:+ descAt ram table i :: ds :=
        hrest ▸ List.dropWhile_suffix _
      refine .bind (writeSizes_returns hq hm (hfollows.suffix hsuffix) 0) ?_
      rw [zero_add]
      refine Prog.returns_pure.mpr ⟨?_, rfl⟩
      split <;> rfl

end Walks

/-! ### Copies between a queue and a buffer -/

def segments (write : Bool) (ds : List VirtioDesc) : List (ℕ × ℕ) :=
  (part write ds).map VirtioDesc.segment

/-- The buffer of a descriptor is in RAM, and an `int` holds its length. -/
structure InBounds (d : VirtioDesc) : Prop where
  range : RamRange d.addr d.len.toNat
  small : d.len.toNat < 2 ^ 31

instance (d : VirtioDesc) : Decidable (InBounds d) :=
  decidable_of_iff (RamRange d.addr d.len.toNat ∧ d.len.toNat < 2 ^ 31)
    ⟨fun h => ⟨h.1, h.2⟩, fun h => ⟨h.range, h.small⟩⟩

theorem segments_of_eq {w : Bool} (hw : d.write = w) :
    segments w (d :: ds) = d.segment :: segments w ds := by
  rw [segments, part_of_eq hw, List.map_cons, segments]

theorem segments_nil (w : Bool) : segments w [] = [] := rfl

theorem segments_of_ne {w : Bool} (hw : d.write ≠ w) : segments w (d :: ds) = [] := by
  rw [segments, part_of_ne hw, List.map_nil]

theorem InBounds.drop {o : BitVec 32} (h : InBounds d) (ho : o.toNat ≤ d.len.toNat) :
    RamRange (d.addr + o.signExtend 64) (d.len.toNat - o.toNat) ∧
      (d.addr + o.signExtend 64 - dramBase).toNat = d.segment.1 + o.toNat := by
  rw [signExtend_of_lt (Nat.lt_of_le_of_lt ho h.small)]
  exact ⟨h.range.rest ho, h.range.offset_add ho⟩

theorem RamRange.mono {addr : Word} {n k : ℕ} (h : RamRange addr n) (hk : k ≤ n) :
    RamRange addr k where
  base := h.base
  fits := Nat.le_trans (Nat.add_le_add_left hk _) h.fits

/-- The side of the buffer that a copy works on: what is to come, or what it has put there. -/
def side (w : Bool) (buf : List Byte) (pos : ℕ) : List Byte := if w then buf.drop pos else buf

/-- The buffer after a part, of which `side` is the side that the copy works on. -/
def kept (w : Bool) (buf side : List Byte) : List Byte := if w then buf else side

theorem overwrite_end (bytes buf : List Byte) : overwrite buf.length bytes buf = buf ++ bytes := by
  rw [overwrite, List.take_length, List.drop_of_length_le (Nat.le_add_right ..), List.append_nil]

theorem copyPart_returns {s : Copying} {l : BitVec 32} {w : Bool} (hd : InBounds s.desc)
    (ho : s.offset.toNat ≤ s.desc.len.toNat) (hl : l.toNat ≤ s.desc.len.toNat - s.offset.toNat)
    (hp : w = false → s.pos = s.buf.length) (hb : w = true → s.pos + l.toNat ≤ s.buf.length)
    (hm : x.machine.mem.Holds ram) : ∃ y,
    let p := moveOne w (s.desc.segment.1 + s.offset.toNat) l.toNat (ram, side w s.buf s.pos)
    (copyPart w s l).Returns x (kept w s.buf p.2) y ∧ y.machine.mem.Holds p.1 ∧ Copied x y ∧
      (w = false → y = x) := by
  obtain ⟨hr, hoff⟩ := hd.drop ho
  have hr := hr.mono hl
  have hsmall : l.toNat < 2 ^ 31 := by
    have := hd.small
    omega
  cases w with
  | true =>
    have hlen : l.toNat ≤ (s.buf.drop s.pos).length := by
      have := hb rfl
      rw [List.length_drop]
      omega
    obtain ⟨y, hy, hram, hcopied⟩ := memcpyToRam_returns hr hsmall hlen hm
    rw [hoff] at hram
    exact ⟨y, .bind hy (Prog.returns_pure.mpr ⟨rfl, rfl⟩), hram, hcopied, fun h => by cases h⟩
  | false =>
    have hread := memcpyFromRam_returns (x := x) hr hsmall hm
    rw [hoff] at hread
    refine ⟨x, .bind hread (Prog.returns_pure.mpr ⟨?_, rfl⟩), hm, .refl x, fun _ => rfl⟩
    rw [hp rfl, overwrite_end]
    rfl

/-! A round of the copy loop, by what it comes to. -/

theorem not_back {l : BitVec 32} {pos : ℕ} (h : l.toNat < 2 ^ 31) : ¬ (pos + l.toInt < 0) := by
  rw [toInt_of_lt h]
  omega

section Rounds

variable {s : Copying} {l : BitVec 32} {w : Bool} {b : List Byte}
  (hl : minInt s.count (s.desc.len - s.offset) = l) (hb : (copyPart w s l).Returns x b y)
include hl hb

theorem copyRound_done (hc : s.count - l = 0) :
    (copyRound q w s).Returns x (.inr (true, b)) y := by
  subst hl
  refine .bind hb ?_
  rw [if_pos hc]
  exact Prog.returns_pure.mpr ⟨rfl, rfl⟩

variable (hc : s.count - l ≠ 0) (hpos : l.toNat < 2 ^ 31) (ho : s.offset + l = s.desc.len)
include hc hpos ho

theorem copyRound_last (hn : s.desc.hasNext = false) :
    (copyRound q w s).Returns x (.inr (false, b)) y := by
  subst hl
  refine .bind hb ?_
  rw [if_neg hc, if_neg (not_back hpos), if_neg (not_not.mpr ho), hn]
  exact Prog.returns_pure.mpr ⟨rfl, rfl⟩

variable (hn : s.desc.hasNext = true) (he : (getDesc q s.desc.next).Returns y e y)
include hn he

theorem copyRound_turn (hw : e.write ≠ w) :
    (copyRound q w s).Returns x (.inr (false, b)) y := by
  subst hl
  refine .bind hb ?_
  rw [if_neg hc, if_neg (not_back hpos), if_neg (not_not.mpr ho), hn]
  refine .bind he ?_
  rw [if_pos hw]
  exact Prog.returns_pure.mpr ⟨rfl, rfl⟩

theorem copyRound_next (hw : e.write = w) :
    (copyRound q w s).Returns x (.inl ⟨e, 0, s.count - l, b, s.pos + l.toNat⟩) y := by
  have hforward : (s.pos + l.toInt).toNat = s.pos + l.toNat := by
    rw [toInt_of_lt hpos]
    omega
  rw [← hforward]
  subst hl
  refine .bind hb ?_
  rw [if_neg hc, if_neg (not_back hpos), if_neg (not_not.mpr ho), hn]
  refine .bind he ?_
  rw [if_neg (not_not.mpr hw)]
  exact Prog.returns_pure.mpr ⟨rfl, rfl⟩

end Rounds

def segmentsFrom (w : Bool) (d : VirtioDesc) (o : BitVec 32) (ds : List VirtioDesc) :
    List (ℕ × ℕ) :=
  (d.segment.1 + o.toNat, d.len.toNat - o.toNat) :: segments w ds

theorem segmentsFrom_zero {w : Bool} (hw : d.write = w) :
    segmentsFrom w d 0 ds = segments w (d :: ds) := by
  rw [segments_of_eq hw]
  rfl

structure Buffers (table : Word) (w : Bool) (d : VirtioDesc) (ds : List VirtioDesc) : Prop where
  inBounds : ∀ e ∈ part w (d :: ds), InBounds e
  apart : w = true → ∀ s ∈ segments w (d :: ds), ∀ t ∈ slots table d.next ds, Apart s t

theorem Buffers.tail {w : Bool} (h : Buffers table w d (e :: ds)) (hw : d.write = w) :
    Buffers table w e ds where
  inBounds f hf := h.inBounds f (part_of_eq hw ▸ List.mem_cons_of_mem _ hf)
  apart hwrite s hs t ht := h.apart hwrite s (segments_of_eq hw ▸ List.mem_cons_of_mem _ hs) t
    (List.mem_cons_of_mem _ ht)

section Loop

variable {w : Bool} {o count : BitVec 32} {buf : List Byte} {pos : ℕ}

theorem copyLoop_fits (hd : InBounds d) (ho : o.toNat ≤ d.len.toNat)
    (hle : count.toNat ≤ d.len.toNat - o.toNat) (hp : w = false → pos = buf.length)
    (hb : w = true → pos + count.toNat ≤ buf.length) (hm : x.machine.mem.Holds ram) : ∃ y,
    let p := moveAll w (segmentsFrom w d o ds) count.toNat (ram, side w buf pos)
    (Prog.loop (copyRound q w) ⟨d, o, count, buf, pos⟩).Returns x
        (decide (count.toNat ≤ total (segmentsFrom w d o ds)), kept w buf p.2) y ∧
      y.machine.mem.Holds p.1 ∧ Copied x y ∧ (w = false → y = x) := by
  have hlen := hd.small
  have hroom : (d.len - o).toNat = d.len.toNat - o.toNat := toNat_sub_of_le ho
  have hl : minInt count (d.len - o) = count := minInt_of_le (by omega) (by omega) (by omega)
  have htotal : count.toNat ≤ total (segmentsFrom w d o ds) := Nat.le_add_right_of_le hle
  obtain ⟨y, hy, hrest⟩ := copyPart_returns (s := ⟨d, o, count, buf, pos⟩) hd ho hle hp hb hm
  have hmove : moveAll w (segmentsFrom w d o ds) count.toNat (ram, side w buf pos) =
      moveOne w (d.segment.1 + o.toNat) count.toNat (ram, side w buf pos) := if_pos hle
  refine ⟨y, ?_, ?_⟩
  · rw [hmove, decide_eq_true htotal]
    exact .loop_done (copyRound_done hl hy (BitVec.sub_self count))
  · rw [hmove]
    exact hrest

/-- What the tests of a round need to know when the copy goes on behind this descriptor. -/
structure GoesOn (d : VirtioDesc) (o count : BitVec 32) : Prop where
  part : minInt count (d.len - o) = d.len - o
  room : (d.len - o).toNat = d.len.toNat - o.toNat
  left : (count - (d.len - o)).toNat = count.toNat - (d.len.toNat - o.toNat)
  more : count - (d.len - o) ≠ 0
  forward : (d.len - o).toNat < 2 ^ 31
  atEnd : o + (d.len - o) = d.len

theorem goesOn (hd : InBounds d) (ho : o.toNat ≤ d.len.toNat) (hc : count.toNat < 2 ^ 31)
    (hgt : d.len.toNat - o.toNat < count.toNat) : GoesOn d o count := by
  have hlen := hd.small
  have hroom : (d.len - o).toNat = d.len.toNat - o.toNat := toNat_sub_of_le ho
  have hleft : (count - (d.len - o)).toNat = count.toNat - (d.len.toNat - o.toNat) := by
    rw [toNat_sub_of_le (by omega), hroom]
  refine ⟨minInt_of_ge hc (by omega) (by omega), hroom, hleft, fun h0 => ?_,
    by omega, by rw [add_comm, sub_add_cancel]⟩
  rw [h0] at hleft
  have hzero : (0 : BitVec 32).toNat = 0 := rfl
  omega

theorem moveAll_stop (p : (ℕ → Byte) × List Byte) (hnone : segments w ds = [])
    (hgt : d.len.toNat - o.toNat < count.toNat) :
    moveAll w (segmentsFrom w d o ds) count.toNat p =
        moveOne w (d.segment.1 + o.toNat) (d.len.toNat - o.toNat) p ∧
      decide (count.toNat ≤ total (segmentsFrom w d o ds)) = false := by
  rw [segmentsFrom, hnone]
  exact ⟨if_neg (Nat.not_le.mpr hgt), decide_eq_false (Nat.not_le.mpr hgt)⟩

theorem Buffers.table_kept (h : Buffers table w d ds) (hw : d.write = w) (buf : List Byte)
    (ho : o.toNat ≤ d.len.toNat) {z : ℕ} (hz : Touches (slots table d.next ds) z) :
    ram z = (moveOne w (d.segment.1 + o.toNat) (d.len.toNat - o.toNat) (ram, buf)).1 z := by
  cases w with
  | false => rfl
  | true =>
    obtain ⟨t, ht, hz⟩ := hz
    refine (moveOne_of_not_mem (p := (ram, buf)) fun hmem => ?_).symm
    have happart := h.apart rfl d.segment (segments_of_eq hw ▸ List.mem_cons_self ..) t ht
    have hlen : d.segment.2 = d.len.toNat := rfl
    have hlo : d.segment.1 + o.toNat ≤ z := hmem.1
    have hhi : z < d.segment.1 + o.toNat + (d.len.toNat - o.toNat) := hmem.2
    exact happart z ⟨by omega, by omega⟩ hz

theorem side_after (w : Bool) (ram : ℕ → Byte) (buf : List Byte) (pos a l : ℕ) :
    side w (kept w buf (moveOne w a l (ram, side w buf pos)).2) (pos + l) =
      (moveOne w a l (ram, side w buf pos)).2 := by
  cases w with
  | true => exact List.drop_drop.symm
  | false => rfl

theorem pos_after (ram : ℕ → Byte) (a l : ℕ) (hw : w = false) (hp : pos = buf.length) : pos + l =
    (kept w buf (moveOne w a l (ram, side w buf pos)).2).length := by
  subst hw
  have hput : kept false buf (moveOne false a l (ram, side false buf pos)).2 = buf ++ range ram a l :=
    rfl
  rw [hput, List.length_append, length_range, hp]

theorem length_kept {b : List Byte} (hw : w = true) : (kept w buf b).length = buf.length := by
  subst hw
  rfl

theorem kept_kept (b c : List Byte) : kept w (kept w buf b) c = kept w buf c := by
  cases w <;> rfl

/-- The copy moves the bytes between the segments and the buffer, and succeeds if the segments hold
as many. -/
theorem copyLoop_returns (hq : (x.common.queue q).descAddr = table)
    (hm : x.machine.mem.Holds ram) (h : Follows ram table d ds) (hw : d.write = w)
    (hbuf : Buffers table w d ds) (ho : o.toNat ≤ d.len.toNat) (hc : count.toNat < 2 ^ 31)
    (hp : w = false → pos = buf.length) (hb : w = true → pos + count.toNat ≤ buf.length) : ∃ y,
    let p := moveAll w (segmentsFrom w d o ds) count.toNat (ram, side w buf pos)
    (Prog.loop (copyRound q w) ⟨d, o, count, buf, pos⟩).Returns x
        (decide (count.toNat ≤ total (segmentsFrom w d o ds)), kept w buf p.2) y ∧
      y.machine.mem.Holds p.1 ∧ Copied x y ∧ (w = false → y = x) := by
  -- the induction is on the descriptors behind the one that the copy is at
  induction ds generalizing d o count buf pos x ram with
  | nil =>
    have hd : InBounds d := hbuf.inBounds d (part_of_eq hw ▸ List.mem_cons_self ..)
    by_cases hle : count.toNat ≤ d.len.toNat - o.toNat
    · exact copyLoop_fits hd ho hle hp hb hm
    -- no descriptor comes behind this one, so the copy ends with bytes missing
    have hgt := Nat.lt_of_not_le hle
    obtain ⟨hl, hroom, -, hmore, hpos, hend⟩ := goesOn hd ho hc hgt
    obtain ⟨y, hy, hrest⟩ := copyPart_returns (s := ⟨d, o, count, buf, pos⟩) hd ho hroom.le hp
      (fun hw => by have := hb hw; dsimp only; omega) hm
    rw [hroom] at hy hrest
    obtain ⟨hmove, hfalse⟩ := moveAll_stop (w := w) (ram, side w buf pos) (segments_nil w) hgt
    refine ⟨y, ?_, ?_⟩
    · rw [hmove, hfalse]
      exact .loop_done (copyRound_last hl hy hmore hpos hend h.hasNext_iff)
    · rw [hmove]
      exact hrest
  | cons e ds ih =>
    have hd : InBounds d := hbuf.inBounds d (part_of_eq hw ▸ List.mem_cons_self ..)
    by_cases hle : count.toNat ≤ d.len.toNat - o.toNat
    · exact copyLoop_fits hd ho hle hp hb hm
    have hgt := Nat.lt_of_not_le hle
    obtain ⟨hl, hroom, hleft, hmore, hpos, hend⟩ := goesOn hd ho hc hgt
    obtain ⟨y, hy, hram, hcopied, hsame⟩ := copyPart_returns (s := ⟨d, o, count, buf, pos⟩) hd ho
      hroom.le hp (fun hw => by have := hb hw; dsimp only; omega) hm
    rw [hroom] at hy hram
    have hqy : (y.common.queue q).descAddr = table := hcopied.common ▸ hq
    -- the part leaves the table as it was, from which the next descriptor is read
    obtain ⟨he, hnext⟩ := (h.congr fun z hz => hbuf.table_kept hw (side w buf pos) ho hz)
      |>.getDesc_returns hqy hram
    by_cases hwe : e.write = w
    · have hmove : moveAll w (segmentsFrom w d o (e :: ds)) count.toNat (ram, side w buf pos) =
          moveAll w (segmentsFrom w e 0 ds) (count - (d.len - o)).toNat
            (moveOne w (d.segment.1 + o.toNat) (d.len.toNat - o.toNat) (ram, side w buf pos)) := by
        rw [hleft, segmentsFrom_zero hwe]
        exact if_neg hle
      have htotal : count.toNat ≤ total (segmentsFrom w d o (e :: ds)) ↔
          (count - (d.len - o)).toNat ≤ total (segmentsFrom w e 0 ds) := by
        rw [hleft, segmentsFrom_zero hwe, segmentsFrom, total]
        omega
      have hafter (hw : w = false) := pos_after ram (d.segment.1 + o.toNat)
        (d.len.toNat - o.toNat) hw (hp hw)
      have hroomy : w = true → pos + (d.len.toNat - o.toNat) + (count - (d.len - o)).toNat ≤
          (kept w buf (moveOne w (d.segment.1 + o.toNat) (d.len.toNat - o.toNat)
            (ram, side w buf pos)).2).length := by
        intro hw
        have := hb hw
        rw [hleft, length_kept hw]
        omega
      have hside := side_after w ram buf pos (d.segment.1 + o.toNat) (d.len.toNat - o.toNat)
      have hround := copyRound_next (s := ⟨d, o, count, buf, pos⟩) hl hy hmore hpos hend
        h.hasNext_iff he hwe
      dsimp only at hround hram hnext
      rw [hroom] at hround
      generalize moveOne w (d.segment.1 + o.toNat) (d.len.toNat - o.toNat) (ram, side w buf pos) = p
        at hmove hafter hroomy hside hround hram hnext
      obtain ⟨z, hz, hramz, hcopiedz, hsamez⟩ := ih hqy hram hnext hwe (hbuf.tail hw)
        (show (0 : BitVec 32).toNat ≤ _ from Nat.zero_le _) (by omega) hafter hroomy
      rw [hside, kept_kept] at hz
      rw [hside] at hramz
      refine ⟨z, ?_, ?_, hcopied.trans hcopiedz, fun hw => (hsamez hw).trans (hsame hw)⟩
      · rw [hmove, decide_eq_decide.mpr htotal]
        exact .loop_next hround hz
      · rw [hmove]
        exact hramz
    · -- the next descriptor is for the other direction, where the source gives up
      obtain ⟨hmove, hfalse⟩ := moveAll_stop (ram, side w buf pos) (segments_of_ne hwe) hgt
      refine ⟨y, ?_, ?_⟩
      · rw [hmove, hfalse]
        exact .loop_done (copyRound_turn hl hy hmore hpos hend h.hasNext_iff he hwe)
      · rw [hmove]
        exact ⟨hram, hcopied, hsame⟩

end Loop

/-! Where a copy starts. -/

theorem firstWrite_returns (hq : (x.common.queue q).descAddr = table)
    (hm : x.machine.mem.Holds ram) (h : Follows ram table d ds) :
    (firstWrite q d).Returns x (rest (d :: ds)).head? x := by
  induction ds generalizing d with
  | nil =>
    cases hw : d.write with
    | true =>
      rw [rest_of_write hw]
      refine .loop_done ?_
      rw [hw]
      exact Prog.returns_pure.mpr ⟨rfl, rfl⟩
    | false =>
      have hn : d.hasNext = false := h.hasNext_iff
      rw [rest_of_read hw]
      refine .loop_done ?_
      rw [hw, hn]
      exact Prog.returns_pure.mpr ⟨rfl, rfl⟩
  | cons e ds ih =>
    cases hw : d.write with
    | true =>
      rw [rest_of_write hw]
      refine .loop_done ?_
      rw [hw]
      exact Prog.returns_pure.mpr ⟨rfl, rfl⟩
    | false =>
      have hn : d.hasNext = true := h.hasNext_iff
      obtain ⟨he, hnext⟩ := h.getDesc_returns hq hm
      rw [rest_of_read hw]
      refine .loop_next ?_ (ih hnext)
      rw [hw, hn]
      exact .bind he (Prog.returns_pure.mpr ⟨rfl, rfl⟩)

structure Found (ram : ℕ → Byte) (table : Word) (w : Bool) (ss : List (ℕ × ℕ)) (o : ℕ)
    (e : VirtioDesc) (p : BitVec 32) (es : List VirtioDesc) : Prop where
  follows : Follows ram table e es
  write : e.write = w
  buffers : Buffers table w e es
  lt : p.toNat < e.len.toNat
  segments : skip ss o = segmentsFrom w e p es

section

variable {w : Bool} {o : BitVec 32}

theorem atOffset_other (hw : d.write ≠ w) : (atOffset q w (d, o)).Returns x none x := by
  refine .loop_done ?_
  dsimp only
  rw [if_pos hw]
  exact Prog.returns_pure.mpr ⟨rfl, rfl⟩

variable (hw : d.write = w)
include hw

theorem atOffset_here (ho : o < d.len) : (atOffset q w (d, o)).Returns x (some (d, o)) x := by
  refine .loop_done ?_
  dsimp only
  rw [if_neg (not_not.mpr hw), if_pos ho]
  exact Prog.returns_pure.mpr ⟨rfl, rfl⟩

variable (ho : ¬ o < d.len)
include ho

theorem atOffset_last (hn : d.hasNext = false) : (atOffset q w (d, o)).Returns x none x := by
  refine .loop_done ?_
  dsimp only
  rw [if_neg (not_not.mpr hw), if_neg ho, hn]
  exact Prog.returns_pure.mpr ⟨rfl, rfl⟩

theorem atOffset_next {r : Option (VirtioDesc × BitVec 32)} (hn : d.hasNext = true)
    (he : (getDesc q d.next).Returns x e x) (h : (atOffset q w (e, o - d.len)).Returns x r x) :
    (atOffset q w (d, o)).Returns x r x := by
  refine .loop_next ?_ h
  dsimp only
  rw [if_neg (not_not.mpr hw), if_neg ho, hn]
  exact .bind he (Prog.returns_pure.mpr ⟨rfl, rfl⟩)

end

theorem atOffset_returns {w : Bool} (hq : (x.common.queue q).descAddr = table)
    (hm : x.machine.mem.Holds ram) (h : Follows ram table d ds)
    (hbuf : d.write = w → Buffers table w d ds) (o : BitVec 32) :
    (total (segments w (d :: ds)) ≤ o.toNat ∧ (atOffset q w (d, o)).Returns x none x) ∨
      ∃ e p es, (atOffset q w (d, o)).Returns x (some (e, p)) x ∧
        Found ram table w (segments w (d :: ds)) o.toNat e p es := by
  induction ds generalizing d o with
  | nil =>
    by_cases hw : d.write = w
    · rw [segments_of_eq hw]
      by_cases ho : o < d.len
      · exact .inr ⟨d, o, [], atOffset_here hw ho, h, hw, hbuf hw, ho, if_pos ho⟩
      · exact .inl ⟨Nat.le_of_not_lt ho, atOffset_last hw ho h.hasNext_iff⟩
    · rw [segments_of_ne hw]
      exact .inl ⟨Nat.zero_le _, atOffset_other hw⟩
  | cons d' ds ih =>
    by_cases hw : d.write = w
    · rw [segments_of_eq hw]
      by_cases ho : o < d.len
      · exact .inr ⟨d, o, _, atOffset_here hw ho, h, hw, hbuf hw, ho, if_pos ho⟩
      · have hle : d.len.toNat ≤ o.toNat := Nat.le_of_not_lt ho
        have hsub : (o - d.len).toNat = o.toNat - d.len.toNat := toNat_sub_of_le hle
        obtain ⟨he, hnext⟩ := h.getDesc_returns hq hm
        have hskip : skip (d.segment :: segments w (d' :: ds)) o.toNat =
            skip (segments w (d' :: ds)) (o.toNat - d.len.toNat) := if_neg ho
        rcases ih hnext (fun _ => (hbuf hw).tail hw) (o - d.len) with
          ⟨htotal, hr⟩ | ⟨e, p, es, hr, hfollows, hwe, hbufe, hlt, hseg⟩
        · refine .inl ⟨?_, atOffset_next hw ho h.hasNext_iff he hr⟩
          have htotal' : total (d.segment :: segments w (d' :: ds)) =
            d.len.toNat + total (segments w (d' :: ds)) := rfl
          omega
        · refine .inr ⟨e, p, es, atOffset_next hw ho h.hasNext_iff he hr, hfollows, hwe, hbufe,
            hlt, ?_⟩
          rw [hskip, ← hsub, hseg]
    · rw [segments_of_ne hw]
      exact .inl ⟨Nat.zero_le _, atOffset_other hw⟩

def start (w : Bool) (ds : List VirtioDesc) : List VirtioDesc := if w then rest ds else ds

theorem start_suffix (w : Bool) (ds : List VirtioDesc) : start w ds <:+ ds := by
  unfold start
  split
  · exact List.dropWhile_suffix _
  · exact List.suffix_refl _

theorem slots_suffix (h : Follows ram table d ds) (hs : e :: es <:+ d :: ds) :
    ∀ t ∈ slots table e.next es, t ∈ slots table d.next ds := by
  induction ds generalizing d with
  | nil =>
    obtain h' | h' := List.suffix_cons_iff.mp hs
    · cases h'
      exact fun t ht => ht
    · cases List.suffix_nil.mp h'
  | cons d' ds ih =>
    obtain h' | h' := List.suffix_cons_iff.mp hs
    · cases h'
      exact fun t ht => ht
    · unfold Follows at h
      split at h
      · exact fun t ht => List.mem_cons_of_mem _ (ih h.2.2 h' t ht)
      · cases h

structure ChainBuffers (table : Word) (i : BitVec 16) (w : Bool) (ds : List VirtioDesc) : Prop where
  inBounds : ∀ e ∈ part w (start w ds), InBounds e
  apart : w = true → ∀ s ∈ segments w (start w ds), ∀ t ∈ slots table i ds, Apart s t

theorem ChainBuffers.suffix {w : Bool} (h : ChainBuffers table i w (d :: ds))
    (hf : Follows ram table d ds) (hs : start w (d :: ds) = e :: es) : Buffers table w e es where
  inBounds f hmem := h.inBounds f (hs ▸ hmem)
  apart hw s hmem t ht := h.apart hw s (hs ▸ hmem) t
    (List.mem_cons_of_mem _ (slots_suffix hf (hs ▸ start_suffix w (d :: ds)) t ht))

theorem moved_none {w : Bool} {ss : List (ℕ × ℕ)} {count : BitVec 32} {buf : List Byte}
    {c : Dev δ (Bool × List Byte)} (h : ss = []) (hpos : count ≠ 0) (hm : x.machine.mem.Holds ram)
    (hr : c.Returns x (false, buf) x) : ∃ y,
    let p := moveAll w ss count.toNat (ram, buf)
    c.Returns x (decide (count.toNat ≤ total ss), kept w buf p.2) y ∧
      y.machine.mem.Holds p.1 ∧ Copied x y ∧ (w = false → y = x) := by
  subst h
  have hfalse : decide (count.toNat ≤ total []) = false :=
    decide_eq_false fun hle => hpos (BitVec.eq_of_toNat_eq (Nat.le_zero.mp hle))
  refine ⟨x, ?_, hm, .refl x, fun _ => rfl⟩
  rw [hfalse, show kept w buf (moveAll w [] count.toNat (ram, buf)).2 = buf from ite_self _]
  exact hr

theorem firstDesc_returns {w : Bool} (hq : (x.common.queue q).descAddr = table)
    (hm : x.machine.mem.Holds ram) (h : Follows ram table d ds) :
    (firstDesc q w d).Returns x (start w (d :: ds)).head? x := by
  cases w with
  | true => exact firstWrite_returns hq hm h
  | false => exact Prog.returns_pure.mpr ⟨rfl, rfl⟩

theorem memcpyToFromQueue_returns {w : Bool} {count : BitVec 32} (offset : BitVec 32)
    (buf : List Byte) (hq : (x.common.queue q).descAddr = table) (hm : x.machine.mem.Holds ram)
    (h : Chain ram table i ds) (hbuf : ChainBuffers table i w ds) (hc : count.toNat < 2 ^ 31)
    (hp : w = false → buf = []) (hb : w = true → count.toNat ≤ buf.length) : ∃ y,
    let ss := skip (segments w (start w ds)) offset.toNat
    let p := moveAll w ss count.toNat (ram, buf)
    (memcpyToFromQueue buf q i offset count w).Returns x
        (decide (count.toNat ≤ total ss), kept w buf p.2) y ∧
      y.machine.mem.Holds p.1 ∧ Copied x y ∧ (w = false → y = x) := by
  by_cases hzero : count = 0
  · subst hzero
    refine ⟨x, ?_, ?_⟩
    · rw [memcpyToFromQueue, if_pos rfl, show (0 : BitVec 32).toNat = 0 from rfl, moveAll_zero,
        decide_eq_true (Nat.zero_le _)]
      exact Prog.returns_pure.mpr ⟨congrArg (Prod.mk true) (ite_self _), rfl⟩
    · rw [show (0 : BitVec 32).toNat = 0 from rfl, moveAll_zero]
      exact ⟨hm, .refl x, fun _ => rfl⟩
  cases ds with
  | nil => exact h.elim
  | cons d ds =>
    obtain ⟨hr, rfl, hnext⟩ := h
    -- to the first descriptor for the direction, then to the one that has the offset
    have hf : Follows ram table (descAt ram table i) ds := hnext
    have hfirst := firstDesc_returns (w := w) hq hm hf
    unfold memcpyToFromQueue
    rw [if_neg hzero]
    cases hstart : start w (descAt ram table i :: ds) with
    | nil =>
      rw [hstart] at hfirst
      exact moved_none rfl hzero hm (.bind (getDesc_returns hq hr hm)
        (.bind hfirst (Prog.returns_pure.mpr ⟨rfl, rfl⟩)))
    | cons e es =>
      have hfe := hf.suffix (hstart ▸ start_suffix w _)
      rw [hstart] at hfirst
      rcases atOffset_returns hq hm hfe (fun _ => hbuf.suffix hf hstart) offset with
        ⟨htotal, hoff⟩ | ⟨e', p, es', hoff, hfollows, hwrite, hbufs, hlt, hseg⟩
      · exact moved_none (skip_of_total_le htotal) hzero hm (.bind (getDesc_returns hq hr hm)
          (.bind hfirst (.bind hoff (Prog.returns_pure.mpr ⟨rfl, rfl⟩))))
      · rw [hseg]
        have hnone : w = false → 0 = buf.length := fun hw => by rw [hp hw]; rfl
        have hroom : w = true → 0 + count.toNat ≤ buf.length := fun hw => by
          rw [Nat.zero_add]
          exact hb hw
        obtain ⟨y, hy, hrest⟩ := copyLoop_returns hq hm hfollows hwrite hbufs hlt.le hc hnone hroom
        rw [show side w buf 0 = buf from ite_self _] at hy hrest
        exact ⟨y, .bind (getDesc_returns hq hr hm) (.bind hfirst (.bind hoff hy)), hrest⟩

/-! ### A queue with two requests -/

def QueueState.atStart : QueueState := ⟨1, 8, 0, 0x80000000, 0x80000080, 0x80000098, false⟩

/-- The table of two chains, the available ring, and the headers of a write of the first sector and of
a read of it. -/
def busyMemory : Memory := fun c =>
  [0x800000e0, 0x0001000100000010, 0x80000200, 0x0002000100000200, 0x80000400, 0x0000000200000001,
    0x800000f0, 0x0004000100000010, 0x80000800, 0x0000000200000201, 0, 0, 0, 0, 0, 0,
    0x0003000000020000, 0, 0, 0, 0, 0, 0, 0, 0, 0, 0, 0, 1].getD c.val 0

def busyChain (head : BitVec 16) : List VirtioDesc :=
  if head = 0 then
    [⟨0x800000e0, 16, 1, 1⟩, ⟨0x80000200, 512, 1, 2⟩, ⟨0x80000400, 1, 2, 0⟩]
  else [⟨0x800000f0, 16, 1, 4⟩, ⟨0x80000800, 513, 2, 0⟩]

def busyDevice (ext : δ) : Attached δ where
  machine := { (boot (fun _ => 0) 0).toMachine with mem := busyMemory }
  acts := []
  common := { virtioInit 2 8 with queue := fun _ => .atStart }
  ext := ext

/-! ### Copies -/

/-- A copy from a queue gathers the read buffers of the chain: it gets what they hold from the offset
on, as far as there are bytes, and succeeds if there are as many as asked for. -/
theorem memcpyFromQueue_returns (offset count : BitVec 32)
    (hq : (x.common.queue q).descAddr = table) (hm : x.machine.mem.Holds ram)
    (h : Chain ram table i ds) (hin : ∀ e ∈ part false ds, InBounds e)
    (hc : count.toNat < 2 ^ 31) :
    (memcpyFromQueue q i offset count).Returns x
      (decide (count.toNat ≤ total (segments false ds) - offset.toNat),
        ((gather ram (segments false ds)).drop offset.toNat).take count.toNat) x := by
  have hbufs : ChainBuffers table i false ds := ⟨hin, nofun⟩
  obtain ⟨y, hy, -, -, hsame⟩ := memcpyToFromQueue_returns offset [] hq hm h hbufs hc
    (fun _ => rfl) nofun
  obtain rfl := hsame rfl
  rw [moveAll_from, gather_skip, total_skip, List.nil_append] at hy
  exact hy

/-- The sector of the write. -/
theorem memcpyFromQueue_busy : (memcpyFromQueue 0 0 16 512).Returns (busyDevice ())
    (decide ((512 : BitVec 32).toNat ≤ total (segments false (busyChain 0)) - 16),
      ((gather busyMemory.byte (segments false (busyChain 0))).drop 16).take 512) (busyDevice ()) :=
  memcpyFromQueue_returns 16 512 rfl (fun _ _ => rfl) (by decide +kernel) (by decide) (by decide)

/-- Read buffers of 8, -1, 8 and 1 bytes, as an `int` counts them. -/
def backMemory : Memory := fun c =>
  [0x80000100, 0x0001000100000008, 0x80000200, 0x00020001ffffffff, 0x80000300, 0x0003000100000008,
    0x80000400, 0x0000000000000001].getD c.val 0

-- the second buffer takes the copy back by a byte, and the header is still filled
example : (match (memcpyFromQueue 0 0 0 16 : Dev Unit _).run 5
      { busyDevice () with machine := { (boot (fun _ => 0) 0).toMachine with mem := backMemory } } with
    | .ret (ok, bytes) _ => ok && bytes.length == 16
    | _ => false) = true := by decide +kernel

/-- A copy to a queue scatters the buffer over the write buffers of the chain, and writes nothing
else. -/
theorem memcpyToQueue_returns {count : BitVec 32} (offset : BitVec 32) (buf : List Byte)
    (hq : (x.common.queue q).descAddr = table) (hm : x.machine.mem.Holds ram)
    (h : Chain ram table i ds) (hbuf : ChainBuffers table i true ds) (hc : count.toNat < 2 ^ 31)
    (hb : count.toNat ≤ buf.length) : ∃ y, (memcpyToQueue q i offset buf count).Returns x () y ∧
      y.machine.mem.Holds (scatter (skip (segments true (rest ds)) offset.toNat)
        (buf.take count.toNat) ram) ∧ Copied x y := by
  obtain ⟨y, hy, hram, hcopied, -⟩ := memcpyToFromQueue_returns offset buf hq hm h hbuf hc nofun
    fun _ => hb
  rw [moveAll_into _ _ hb] at hram
  exact ⟨y, .bind hy (Prog.returns_pure.mpr ⟨rfl, rfl⟩), hram, hcopied⟩

def spreadMemory : Memory := fun c =>
  [0x80000100, 0x0001000100000008, 0x80000200, 0x0002000300000004, 0x80000300,
    0x0000000200000004].getD c.val 0

def spreadChain : List VirtioDesc :=
  [⟨0x80000100, 8, 1, 1⟩, ⟨0x80000200, 4, 3, 2⟩, ⟨0x80000300, 4, 2, 0⟩]

def spreadDevice : Attached Unit :=
  { busyDevice () with machine := { (boot (fun _ => 0) 0).toMachine with mem := spreadMemory } }

/-- The last byte of the first write buffer, and the first two of the second. -/
theorem memcpyToQueue_spread : ∃ y, (memcpyToQueue 0 0 3 [1, 2, 3] 3).Returns spreadDevice () y ∧
    y.machine.mem.byte 0x203 = 1 ∧ y.machine.mem.byte 0x300 = 2 ∧ y.machine.mem.byte 0x301 = 3 ∧
    Copied spreadDevice y := by
  have hchain : Chain spreadMemory.byte 0x80000000 0 spreadChain := by decide +kernel
  have hbufs : ChainBuffers 0x80000000 0 true spreadChain := ⟨by decide, by decide⟩
  have hcount : (3 : BitVec 32).toNat < 2 ^ 31 := by decide
  obtain ⟨y, hy, hram, hcopied⟩ := memcpyToQueue_returns (q := 0) (x := spreadDevice) 3 [1, 2, 3]
    rfl (fun _ _ => rfl) hchain hbufs hcount le_rfl
  exact ⟨y, hy, (hram 0x203 (by decide)).trans (by decide +kernel),
    (hram 0x300 (by decide)).trans (by decide +kernel),
    (hram 0x301 (by decide)).trans (by decide +kernel), hcopied⟩

end RiscvEmu
