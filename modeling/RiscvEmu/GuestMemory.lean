import RiscvEmu.InstructionAlignment
import RiscvEmu.Rv64Machine
import RiscvEmu.StoreAlignment

/-! The memory vector as the memory of an RV64IMA machine: what is fetched, loaded and stored there
without translation. -/

namespace RiscvEmu

open Bytes Rv64ima

variable {mem mem' : Memory} {f : Word → Byte} {a : Word} {bound n x : ℕ}

/-- The vector holds the memory from `DRAM_BASE` on, but for the doubleword that the top of the loop
overwrites with the time. -/
def Memory.Contains (mem : Memory) (f : Word → Byte) : Prop :=
  ∀ x < ramSize, x / 8 ≠ mtimeCell.val → mem.byte x = f (dramBase + BitVec.ofNat 64 x)

/-- The `n` bytes from `a` on are in one doubleword of the vector, and not in that of the time. -/
structure InRam (bound : ℕ) (a : Word) (n : ℕ) : Prop where
  below : (a - dramBase).toNat < bound
  fits : (a - dramBase).toNat % 8 + n ≤ 8
  timer : (a - dramBase).toNat / 8 ≠ mtimeCell.val

instance : Decidable (InRam bound a n) :=
  decidable_of_iff ((a - dramBase).toNat < bound ∧ (a - dramBase).toNat % 8 + n ≤ 8 ∧
    (a - dramBase).toNat / 8 ≠ mtimeCell.val)
    ⟨fun h => ⟨h.1, h.2.1, h.2.2⟩, fun h => ⟨h.below, h.fits, h.timer⟩⟩

/-! ### Addresses -/

theorem ramSize_eq : ramSize = 2 ^ 31 := rfl

theorem toNat_of_offset (h : (a - dramBase).toNat < ramSize) :
    a.toNat = 2 ^ 31 + (a - dramBase).toNat := by
  rw [ramSize_eq] at h
  have hsub : a - dramBase + dramBase = a := BitVec.sub_add_cancel a dramBase
  have hadd := congrArg BitVec.toNat hsub
  rw [BitVec.toNat_add, show dramBase.toNat = 2 ^ 31 from rfl, Nat.mod_eq_of_lt (by omega)] at hadd
  omega

theorem ramCell_eq {c : Cell} (hx : x < ramSize) : ramCell x = c ↔ x / 8 = c.val := by
  rw [Fin.ext_iff]
  show x / 8 % memSize = c.val ↔ _
  rw [Nat.mod_eq_of_lt (Nat.div_lt_of_lt_mul hx)]

theorem ramAddress_of_offset (h : (a - dramBase).toNat < ramSize) : RamAddress a := by
  have ha := toNat_of_offset h
  rw [ramSize_eq] at h
  refine ⟨BitVec.le_def.mpr ?_, BitVec.lt_def.mpr ?_⟩
  · show 2 ^ 31 ≤ _
    omega
  · show _ < 2 ^ 32
    omega

theorem offset_add (a : Word) (i : ℕ) :
    dramBase + BitVec.ofNat 64 ((a - dramBase).toNat + i) = a + BitVec.ofNat 64 i := by
  rw [BitVec.ofNat_add, BitVec.ofNat_toNat, BitVec.setWidth_eq, ← BitVec.add_assoc,
    BitVec.add_comm dramBase, BitVec.sub_add_cancel]

/-- The distance from an address to an offset: addresses before it are far away. -/
theorem toNat_distance (ha : (a - dramBase).toNat < ramSize) (hx : x < ramSize) :
    (dramBase + BitVec.ofNat 64 x - a).toNat =
      if (a - dramBase).toNat ≤ x then x - (a - dramBase).toNat
      else 2 ^ 64 + x - (a - dramBase).toNat := by
  have hsub : dramBase + BitVec.ofNat 64 x - a = BitVec.ofNat 64 x - (a - dramBase) := by
    rw [BitVec.sub_eq_iff_eq_add, BitVec.add_comm dramBase]
    nth_rewrite 2 [← BitVec.sub_add_cancel a dramBase]
    rw [← BitVec.add_assoc, BitVec.sub_add_cancel]
  rw [ramSize_eq] at ha hx
  rw [hsub, BitVec.toNat_sub, BitVec.toNat_ofNat]
  split <;> omega

/-! ### Reading -/

theorem Memory.Contains.byte_at (h : mem.Contains f) (hr : InRam ramSize a n) {i : ℕ} (hi : i < n) :
    mem.byte ((a - dramBase).toNat + i) = f (a + BitVec.ofNat 64 i) := by
  obtain ⟨hlt, hfit, htime⟩ := hr
  have hsize := ramSize_eq
  have hdiv : ((a - dramBase).toNat + i) / 8 = (a - dramBase).toNat / 8 := by omega
  rw [h _ (by omega) (by rwa [hdiv]), offset_add]

section

variable {p : Word} (hr : InRam ramSize p n)
  (hbytes : ∀ i < n, mem.byte ((p - dramBase).toNat + i) = f (a + BitVec.ofNat 64 i))
include hr hbytes

theorem InRam.extract :
    (mem (ramCell (p - dramBase).toNat)).extractLsb' (8 * ((p - dramBase).toNat % 8)) (8 * n) =
      loadBytes f a n := by
  have hfit := hr.fits
  refine eq_of_byte_eq fun i hi => ?_
  have hin : i < n := by omega
  have hcell : ramCell ((p - dramBase).toNat + i) = ramCell (p - dramBase).toNat :=
    Fin.ext (congrArg (· % memSize) (by omega : ((p - dramBase).toNat + i) / 8 = _))
  rw [byte_extract _ _ _ _ hin, byte_loadBytes _ _ hin, ← hbytes i hin, Memory.byte, hcell,
    show ((p - dramBase).toNat + i) % 8 = (p - dramBase).toNat % 8 + i by omega]

theorem InRam.word :
    RiscvEmu.word mem.byte (p - dramBase).toNat n = (loadBytes f a n).setWidth 64 := by
  rw [← slice_eq_word mem hr.fits, slice_eq_extract, hr.extract hbytes]

end

theorem InRam.ne_top (hr : InRam ramSize a n) : a ≠ -1 := by
  rintro rfl
  exact absurd hr.below (by decide)

/-! ### Writing -/

theorem Memory.Contains.put {w : ℕ} {v : BitVec w} (h : mem.Contains f) (hr : InRam ramSize a n)
    (hput : ∀ x < ramSize,
      mem'.byte x = Bytes.put ((a - dramBase).toNat, bytes v n) mem.byte x) :
    mem'.Contains (storeBytes f a n v) := by
  intro x hx htime
  have hfit := hr.fits
  have hlt := hr.below
  have hdist := toNat_distance hr.below hx
  rw [hput x hx, put_bytes, storeBytes, hdist]
  by_cases hle : (a - dramBase).toNat ≤ x
  · rw [if_pos hle]
    by_cases hin : x < (a - dramBase).toNat + n
    · rw [if_pos ⟨hle, hin⟩, if_pos (by omega)]
    · rw [if_neg fun hb => hin hb.2, if_neg (by omega)]
      exact h x hx htime
  · rw [if_neg hle, if_neg fun hb => hle hb.1, if_neg (by omega)]
    exact h x hx htime

theorem Memory.Contains.set_mtime (h : mem.Contains f) (v : Word) :
    (mem.set mtimeCell v).Contains f := by
  intro x hx htime
  rw [Memory.byte, Memory.set_of_ne _ (mt (ramCell_eq hx).mp htime)]
  exact h x hx htime

theorem contains_byte (mem : Memory) : mem.Contains fun a => mem.byte (a - dramBase).toNat := by
  intro x hx _
  have hx : x < 2 ^ 64 := Nat.lt_trans hx (by decide)
  dsimp only
  rw [BitVec.add_comm, BitVec.add_sub_cancel, BitVec.toNat_ofNat, Nat.mod_eq_of_lt hx]

end RiscvEmu
