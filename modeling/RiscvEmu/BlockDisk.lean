import RiscvEmu.BlockServer
import Mathlib.Data.List.GetD

/-! The file device against a store of bytes: what its three modes make of reads and writes, and
what the requests of a queue make of the store. -/

namespace RiscvEmu

open Bytes Segments

variable {bf bf' : BlockDeviceFile} {f : HostFile}

/-! ### Files -/

namespace HostFile

def image (f : HostFile) : ℕ → Byte := fun i => f.contents.getD i 0

theorem getD_append (xs ys : List Byte) (i : ℕ) :
    (xs ++ ys).getD i 0 = if i < xs.length then xs.getD i 0 else ys.getD (i - xs.length) 0 := by
  split
  · rename_i h
    exact List.getD_append _ _ _ _ h
  · rename_i h
    exact List.getD_append_right _ _ _ _ (Nat.le_of_not_lt h)

theorem getD_padded (xs : List Byte) (p i : ℕ) (h : i < p) :
    (xs.take p ++ List.replicate (p - xs.length) 0).getD i 0 = xs.getD i 0 := by
  rw [getD_append, List.length_take]
  split
  · rw [List.getD_eq_getElem?_getD, List.getElem?_take_of_lt h, List.getD_eq_getElem?_getD]
  · rw [List.getD_eq_getElem?_getD, List.getElem?_replicate, List.getD_eq_getElem?_getD,
      List.getElem?_eq_none (l := xs) (by omega)]
    split <;> rfl

theorem length_padded (xs : List Byte) (p : ℕ) :
    (xs.take p ++ List.replicate (p - xs.length) 0).length = p := by
  rw [List.length_append, List.length_take, List.length_replicate]
  omega

theorem fwrite_image (data : List Byte) (f : HostFile) :
    (f.fwrite data).image = put (f.pos, data) f.image := by
  unfold fwrite
  split
  · rename_i h
    rw [h, put_nil]
  · funext i
    have hpad := length_padded f.contents f.pos
    unfold image
    dsimp only
    rw [List.append_assoc, getD_append, hpad, getD_append data]
    by_cases hi : i < f.pos
    · rw [if_pos hi, getD_padded _ _ _ hi, put_of_not_mem fun h => Nat.not_lt.mpr h.1 hi]
    rw [if_neg hi]
    by_cases hd : i - f.pos < data.length
    · have hw : written (f.pos, data) i = data[i - f.pos]? := if_pos (Nat.le_of_not_lt hi)
      rw [if_pos hd, put, hw, List.getD_eq_getElem?_getD, List.getElem?_eq_getElem hd]
      rfl
    · rw [if_neg hd, put_of_not_mem fun h => hd (by have := h.2; dsimp only at this; omega),
        List.getD_eq_getElem?_getD, List.getElem?_drop, List.getD_eq_getElem?_getD,
        show f.pos + data.length + (i - f.pos - data.length) = i by omega]

theorem length_fwrite (data : List Byte) (f : HostFile) :
    f.contents.length ≤ (f.fwrite data).contents.length := by
  unfold fwrite
  split
  · exact le_rfl
  · dsimp only
    rw [List.length_append, List.length_append, length_padded, List.length_drop]
    omega

theorem fread_contents (buf : List Byte) (n : ℕ) (f : HostFile) :
    (f.fread buf n).2.contents = f.contents := rfl

theorem length_fread {buf : List Byte} {n : ℕ} (h : n ≤ buf.length) :
    (f.fread buf n).1.length = buf.length := by
  unfold fread
  dsimp only
  rw [List.length_append, List.length_drop, List.length_take, List.length_drop]
  omega

theorem fread_image {buf : List Byte} {n : ℕ} (h : f.pos + n ≤ f.contents.length) :
    (f.fread buf n).1 = range f.image f.pos n ++ buf.drop n := by
  have hlen : ((f.contents.drop f.pos).take n).length = n := by
    rw [List.length_take, List.length_drop]
    omega
  have hgot : (f.contents.drop f.pos).take n = range f.image f.pos n := by
    refine List.ext_getElem (hlen.trans (length_range _ _ _).symm) fun i hi hi' => ?_
    have hin : f.pos + i < f.contents.length := by omega
    simp only [range, List.getElem_take, List.getElem_drop, List.getElem_map, List.getElem_range]
    exact (List.getD_eq_getElem _ _ hin).symm
  unfold fread
  dsimp only
  rw [hlen, hgot]

end HostFile

/-! ### The file device -/

/-- The bytes of the disk: those of the sector table, and behind it those of the file. -/
def BlockDeviceFile.image (bf : BlockDeviceFile) : ℕ → Byte := fun i =>
  match bf.sectorTable (i / sectorSize) with
  | none => bf.f.image i
  | some sector => sector.getD (i % sectorSize) 0

/-- What holds of an open disk: the file has all of the sectors, and the table only whole ones. -/
structure BlockDeviceFile.WellFormed (bf : BlockDeviceFile) : Prop where
  capacity : bf.nbSectors.toNat * sectorSize ≤ bf.f.contents.length
  small : bf.nbSectors.toNat * sectorSize < 2 ^ 63
  sectors : ∀ i sector, bf.sectorTable i = some sector → sector.length = sectorSize
  plain : bf.mode ≠ .snapshot → ∀ i, bf.sectorTable i = none

structure BlockDeviceFile.Kept (bf bf' : BlockDeviceFile) : Prop where
  mode : bf'.mode = bf.mode
  nbSectors : bf'.nbSectors = bf.nbSectors
  contents : bf.mode ≠ .rw → bf'.f.contents = bf.f.contents

theorem blockDeviceInit_wellFormed {contents : List Byte} (mode : BlockDeviceMode)
    (h : contents.length < 2 ^ 63) : (blockDeviceInit contents mode).WellFormed := by
  have hle : contents.length / 512 * 512 ≤ contents.length := Nat.div_mul_le_self _ _
  have hnb : (blockDeviceInit contents mode).nbSectors.toNat = contents.length / 512 := by
    show (BitVec.ofNat 64 (contents.length / 512)).toNat = _
    rw [BitVec.toNat_ofNat]
    omega
  refine ⟨?_, ?_, fun i sector hs => (by cases hs), fun _ _ => rfl⟩
  · rw [hnb]
    exact hle
  · rw [hnb]
    exact hle.trans_lt h

theorem seekSector_eq {sectorNum : Word} (h : sectorNum.toNat * sectorSize < 2 ^ 63) :
    seekSector sectorNum f = { f with pos := sectorNum.toNat * sectorSize } := by
  have hmul : (sectorNum * BitVec.ofNat 64 sectorSize).toNat = sectorNum.toNat * sectorSize := by
    rw [BitVec.toNat_mul, BitVec.toNat_ofNat, show sectorSize % 2 ^ 64 = sectorSize from rfl]
    omega
  have hpos : (sectorNum * BitVec.ofNat 64 sectorSize).slt 0 = false := by
    rw [Bool.eq_false_iff]
    intro hs
    rw [BitVec.slt_iff_toInt_lt, BitVec.toInt_eq_toNat_of_lt (by omega)] at hs
    exact absurd hs (Int.not_lt.mpr (Int.natCast_nonneg _))
  rw [seekSector, HostFile.fseek, hpos, hmul]
  rfl

theorem image_of_plain (h : ∀ i, bf.sectorTable i = none) : bf.image = bf.f.image := by
  funext i
  rw [BlockDeviceFile.image, h]

theorem image_setFile (g : HostFile) (h : ∀ i, bf.sectorTable i = none) :
    ({ bf with f := g } : BlockDeviceFile).image = g.image :=
  image_of_plain h

section

variable {sectorNum : Word} {n : ℕ} (buf : List Byte) (hw : bf.WellFormed)
  (hfit : sectorNum.toNat + n ≤ bf.nbSectors.toNat)
include hw hfit

theorem sector_lt : (sectorNum.toNat + n) * sectorSize ≤ bf.f.contents.length ∧
    sectorNum.toNat * sectorSize < 2 ^ 63 := by
  have hle := Nat.mul_le_mul_right sectorSize hfit
  have hstart : sectorNum.toNat * sectorSize ≤ (sectorNum.toNat + n) * sectorSize :=
    Nat.mul_le_mul_right sectorSize (Nat.le_add_right _ _)
  exact ⟨hle.trans hw.capacity, (hstart.trans hle).trans_lt hw.small⟩

theorem fread_sectors : ((seekSector sectorNum bf.f).fread buf (n * sectorSize)).1 =
    range bf.f.image (sectorNum.toNat * sectorSize) (n * sectorSize) ++
      buf.drop (n * sectorSize) := by
  obtain ⟨hend, hstart⟩ := sector_lt hw hfit
  rw [seekSector_eq hstart, HostFile.fread_image (by dsimp only; rw [← Nat.add_mul]; exact hend)]
  rfl

end

/-! ### Snapshots -/

theorem sector_next {s : Word} {n : ℕ} (h : s.toNat + (n + 1) ≤ bf.nbSectors.toNat) :
    (s + 1).toNat = s.toNat + 1 := by
  have hnb := bf.nbSectors.isLt
  rw [BitVec.toNat_add, show (1 : Word).toNat = 1 from rfl]
  omega

theorem sector_of_mem {s i : ℕ} (h : Mem i (s * sectorSize, sectorSize)) :
    i / sectorSize = s ∧ i % sectorSize = i - s * sectorSize := by
  have hlo : s * 512 ≤ i := h.1
  have hhi : i < s * 512 + 512 := h.2
  unfold sectorSize
  omega

theorem sector_of_not_mem {s i : ℕ} (h : ¬ Mem i (s * sectorSize, sectorSize)) :
    i / sectorSize ≠ s := by
  rintro rfl
  refine h ⟨Nat.div_mul_le_self _ _, ?_⟩
  have hlt : i % 512 < 512 := Nat.mod_lt _ (by decide)
  show i < i / 512 * 512 + 512
  omega

theorem snapshotRead_eq {s : Word} {n : ℕ} (buf : List Byte) (hw : bf.WellFormed)
    (h : s.toNat + (n + 1) ≤ bf.nbSectors.toNat) : ∃ bf',
    snapshotRead s buf bf =
        some (range bf.image (s.toNat * sectorSize) sectorSize ++ buf.drop sectorSize, bf') ∧
      bf'.image = bf.image ∧ bf'.WellFormed ∧ bf.Kept bf' := by
  have hlt : ¬ bf.nbSectors ≤ s := by
    rw [BitVec.le_def]
    omega
  unfold snapshotRead
  rw [if_neg hlt]
  cases ht : bf.sectorTable s.toNat with
  | none =>
    -- a sector that the snapshot has not written comes from the file
    have hread := fread_sectors (n := 1) buf hw (h.trans' (by omega) : s.toNat + 1 ≤ _)
    have himage : range bf.image (s.toNat * sectorSize) sectorSize =
        range bf.f.image (s.toNat * sectorSize) sectorSize := by
      refine range_congr fun y hy => ?_
      rw [BlockDeviceFile.image, (sector_of_mem hy).1, ht]
    rw [Nat.one_mul] at hread
    refine ⟨{ bf with f := ((seekSector s bf.f).fread buf sectorSize).2 }, ?_, ?_⟩
    · dsimp only
      rw [hread, himage]
    · have hcontents : ((seekSector s bf.f).fread buf sectorSize).2.contents = bf.f.contents := by
        rw [HostFile.fread_contents, seekSector_eq (sector_lt hw (h.trans' (by omega) :
          s.toNat + 1 ≤ _)).2]
      refine ⟨?_, ⟨?_, hw.small, hw.sectors, hw.plain⟩, rfl, rfl, fun _ => hcontents⟩
      · funext i
        unfold BlockDeviceFile.image HostFile.image
        dsimp only
        rw [hcontents]
      · dsimp only
        rw [hcontents]
        exact hw.capacity
  | some sector =>
    have hlen := hw.sectors _ _ ht
    have himage : range bf.image (s.toNat * sectorSize) sectorSize = sector := by
      refine List.ext_getElem ((length_range _ _ _).trans hlen.symm) fun i hi hi' => ?_
      have hmem : Mem (s.toNat * sectorSize + i) (s.toNat * sectorSize, sectorSize) :=
        ⟨Nat.le_add_right _ _, Nat.add_lt_add_left (hlen ▸ hi') _⟩
      obtain ⟨hdiv, hmod⟩ := sector_of_mem hmem
      simp only [range, List.getElem_map, List.getElem_range]
      rw [BlockDeviceFile.image, hdiv, ht, hmod, Nat.add_sub_cancel_left]
      exact List.getD_eq_getElem _ _ hi'
    exact ⟨bf, by rw [himage], rfl, hw, rfl, rfl, fun _ => rfl⟩

theorem snapshotReads_eq {s : Word} {n : ℕ} {buf : List Byte} (hw : bf.WellFormed)
    (h : s.toNat + n ≤ bf.nbSectors.toNat) (hbuf : n * sectorSize ≤ buf.length) : ∃ bf',
    snapshotReads n s buf bf = some (range bf.image (s.toNat * sectorSize) (n * sectorSize) ++
        buf.drop (n * sectorSize), bf') ∧
      bf'.image = bf.image ∧ bf'.WellFormed ∧ bf.Kept bf' := by
  induction n generalizing s buf bf with
  | zero =>
    refine ⟨bf, ?_, rfl, hw, rfl, rfl, fun _ => rfl⟩
    rw [Nat.zero_mul]
    rfl
  | succ n ih =>
    rw [Nat.succ_mul] at hbuf
    obtain ⟨bf1, hread, himage1, hw1, hkept1⟩ := snapshotRead_eq buf hw h
    have hlen : (range bf.image (s.toNat * sectorSize) sectorSize).length = sectorSize :=
      length_range _ _ _
    have hnext := sector_next h
    have hrest : n * sectorSize ≤ (buf.drop sectorSize).length := by
      rw [List.length_drop]
      omega
    obtain ⟨bf2, hreads, himage2, hw2, hkept2⟩ := ih (s := s + 1) hw1
      (by rw [hnext, hkept1.nbSectors]; omega) hrest
    refine ⟨bf2, ?_, himage2.trans himage1, hw2, hkept2.mode.trans hkept1.mode,
      hkept2.nbSectors.trans hkept1.nbSectors, fun hne => ?_⟩
    · have hdrop : (range bf.image (s.toNat * sectorSize) sectorSize ++
          buf.drop sectorSize).drop sectorSize = buf.drop sectorSize := List.drop_left' hlen
      have htake : (range bf.image (s.toNat * sectorSize) sectorSize ++
          buf.drop sectorSize).take sectorSize =
            range bf.image (s.toNat * sectorSize) sectorSize := List.take_left' hlen
      rw [snapshotReads, hread]
      dsimp only
      rw [hdrop, htake, hreads, Option.map_some, himage1, hnext, List.drop_drop]
      dsimp only
      rw [Nat.succ_mul s.toNat, Nat.succ_mul n, Nat.add_comm (n * sectorSize), range_add,
        List.append_assoc]
    · exact (hkept2.contents (by rw [hkept1.mode]; exact hne)).trans (hkept1.contents hne)

theorem image_setSector {s : ℕ} {sector : List Byte} (h : sector.length = sectorSize) :
    (bf.setSector s sector).image = put (s * sectorSize, sector) bf.image := by
  funext i
  unfold BlockDeviceFile.image BlockDeviceFile.setSector
  dsimp only
  by_cases hi : Mem i (s * sectorSize, sectorSize)
  · obtain ⟨hdiv, hmod⟩ := sector_of_mem hi
    have hlt : i - s * sectorSize < sector.length := by
      have hhi : i < s * sectorSize + sectorSize := hi.2
      have hlo : s * sectorSize ≤ i := hi.1
      omega
    have hwritten : written (s * sectorSize, sector) i = sector[i - s * sectorSize]? := if_pos hi.1
    rw [hdiv, Function.update_self, put, hwritten, hmod, List.getElem?_eq_getElem hlt]
    exact List.getD_eq_getElem _ _ hlt
  · rw [Function.update_of_ne (sector_of_not_mem hi), put_of_not_mem (h ▸ hi)]

theorem setSector_wellFormed (s : ℕ) {sector : List Byte} (hw : bf.WellFormed)
    (hmode : bf.mode = .snapshot) (h : sector.length = sectorSize) :
    (bf.setSector s sector).WellFormed := by
  refine ⟨hw.capacity, hw.small, fun i t ht => ?_, fun hne => absurd hmode hne⟩
  have ht : Function.update bf.sectorTable s (some sector) i = some t := ht
  by_cases hi : i = s
  · rw [hi, Function.update_self] at ht
    cases ht
    exact h
  · rw [Function.update_of_ne hi] at ht
    exact hw.sectors i t ht

theorem snapshotWrites_eq {s : Word} {n : ℕ} {buf : List Byte} (hw : bf.WellFormed)
    (hmode : bf.mode = .snapshot) (h : s.toNat + n ≤ bf.nbSectors.toNat)
    (hbuf : n * sectorSize ≤ buf.length) : ∃ bf', snapshotWrites n s buf bf = some bf' ∧
      bf'.image = put (s.toNat * sectorSize, buf.take (n * sectorSize)) bf.image ∧
      bf'.WellFormed ∧ bf.Kept bf' := by
  induction n generalizing s buf bf with
  | zero =>
    refine ⟨bf, rfl, ?_, hw, rfl, rfl, fun _ => rfl⟩
    rw [Nat.zero_mul, List.take_zero, put_nil]
  | succ n ih =>
    rw [Nat.succ_mul] at hbuf
    have hlt : ¬ bf.nbSectors ≤ s := by
      rw [BitVec.le_def]
      omega
    have hlen : (buf.take sectorSize).length = sectorSize := List.length_take_of_le (by omega)
    have hnext := sector_next h
    have hrest : n * sectorSize ≤ (buf.drop sectorSize).length := by
      rw [List.length_drop]
      omega
    have hw1 := setSector_wellFormed s.toNat hw hmode hlen
    obtain ⟨bf2, hwrites, himage2, hw2, hkept2⟩ := ih (s := s + 1) hw1 hmode
      (by rw [hnext]; exact (Nat.add_right_comm _ _ _).trans_le h) hrest
    refine ⟨bf2, ?_, ?_, hw2, hkept2.mode, hkept2.nbSectors, hkept2.contents⟩
    · rw [snapshotWrites, if_neg hlt]
      exact hwrites
    · have happend := put_append (s.toNat * sectorSize) (buf.take sectorSize)
        ((buf.drop sectorSize).take (n * sectorSize)) bf.image
      rw [hlen, ← List.take_add] at happend
      rw [himage2, image_setSector hlen, hnext, Nat.succ_mul s.toNat, happend, Nat.succ_mul n,
        Nat.add_comm (n * sectorSize)]

/-! ### The two accesses, in every mode -/

section

variable {sectorNum : Word} {n : ℕ} {buf : List Byte} (hw : bf.WellFormed)
  (hfit : sectorNum.toNat + n ≤ bf.nbSectors.toNat) (hbuf : n * sectorSize ≤ buf.length)
include hw hfit hbuf

theorem bfReadAsync_eq : ∃ bf', bfReadAsync sectorNum buf n bf =
      some (0, range bf.image (sectorNum.toNat * sectorSize) (n * sectorSize) ++
        buf.drop (n * sectorSize), bf') ∧
    bf'.image = bf.image ∧ bf'.WellFormed ∧ bf.Kept bf' := by
  by_cases hmode : bf.mode = .snapshot
  · obtain ⟨bf', hr, hrest⟩ := snapshotReads_eq hw hfit hbuf
    refine ⟨bf', ?_, hrest⟩
    rw [bfReadAsync, if_pos hmode, Int.toNat_natCast, if_neg (Nat.not_lt.mpr hbuf), hr,
      Option.map_some]
  · have hcontents : ((seekSector sectorNum bf.f).fread buf (n * sectorSize)).2.contents =
        bf.f.contents := by
      rw [HostFile.fread_contents, seekSector_eq (sector_lt hw hfit).2]
    refine ⟨{ bf with f := ((seekSector sectorNum bf.f).fread buf (n * sectorSize)).2 }, ?_, ?_⟩
    · rw [bfReadAsync, if_neg hmode, Int.toNat_natCast,
        if_neg (not_or.mpr ⟨Int.not_lt.mpr (Int.natCast_nonneg n), Nat.not_lt.mpr hbuf⟩),
        image_of_plain (hw.plain hmode), ← fread_sectors buf hw hfit]
    · refine ⟨?_, ⟨?_, hw.small, hw.sectors, hw.plain⟩, rfl, rfl, fun _ => hcontents⟩
      · unfold BlockDeviceFile.image HostFile.image
        dsimp only
        rw [hcontents]
      · dsimp only
        rw [hcontents]
        exact hw.capacity

theorem bfWriteAsync_eq (hmode : bf.mode ≠ .ro) : ∃ bf', bfWriteAsync sectorNum buf n bf =
      some (0, bf') ∧
    bf'.image = put (sectorNum.toNat * sectorSize, buf.take (n * sectorSize)) bf.image ∧
    bf'.WellFormed ∧ bf.Kept bf' := by
  unfold bfWriteAsync
  split
  · rename_i hro
    exact absurd hro hmode
  · rename_i hrw
    have hplain : bf.mode ≠ .snapshot := by
      rw [hrw]
      decide
    have htable := hw.plain hplain
    rw [Int.toNat_natCast, if_neg (not_or.mpr ⟨Int.not_lt.mpr (Int.natCast_nonneg n),
      Nat.not_lt.mpr hbuf⟩), seekSector_eq (sector_lt hw hfit).2]
    refine ⟨_, rfl, ?_, ⟨?_, hw.small, hw.sectors, hw.plain⟩, rfl, rfl, fun hne => absurd hrw hne⟩
    · rw [image_setFile _ htable, image_of_plain htable]
      exact HostFile.fwrite_image _ _
    · exact hw.capacity.trans (HostFile.length_fwrite (buf.take (n * sectorSize))
        ⟨bf.f.contents, sectorNum.toNat * sectorSize⟩)
  · rename_i hsnap
    have hnb := bf.nbSectors.isLt
    have hend : ¬ sectorNum + BitVec.ofInt 64 n > bf.nbSectors := by
      rw [gt_iff_lt, BitVec.lt_def, BitVec.toNat_add, BitVec.ofInt_natCast, BitVec.toNat_ofNat]
      omega
    obtain ⟨bf', hwrites, hrest⟩ := snapshotWrites_eq hw hsnap hfit hbuf
    refine ⟨bf', ?_, hrest⟩
    rw [if_neg hend, Int.toNat_natCast, if_neg (Nat.not_lt.mpr hbuf), hwrites, Option.map_some]

end

theorem fileDevice_synchronous : Synchronous fileDevice fun bf => bf.mode ≠ .snapshot where
  read {bf} sectorNum buf n hmode hbuf := by
    obtain ⟨got, f, hread⟩ : ∃ got f, (seekSector sectorNum bf.f).fread buf (n * sectorSize) =
      (got, f) := ⟨_, _, rfl⟩
    have hlen : got.length = buf.length := by
      rw [← HostFile.length_fread (f := seekSector sectorNum bf.f) hbuf, hread]
    refine ⟨0, got, { bf with f := f }, ?_, le_rfl, hlen, hmode⟩
    show bfReadAsync sectorNum buf n bf = _
    rw [bfReadAsync, if_neg hmode, Int.toNat_natCast, if_neg (not_or.mpr
      ⟨Int.not_lt.mpr (Int.natCast_nonneg n), Nat.not_lt.mpr hbuf⟩), hread]
  write {bf} sectorNum buf n hmode hbuf := by
    show ∃ ret disk', bfWriteAsync sectorNum buf n bf = _ ∧ _
    unfold bfWriteAsync
    split
    · exact ⟨-1, bf, rfl, by decide, hmode⟩
    · rw [Int.toNat_natCast, if_neg (not_or.mpr ⟨Int.not_lt.mpr (Int.natCast_nonneg n),
        Nat.not_lt.mpr hbuf⟩)]
      exact ⟨0, _, rfl, le_rfl, hmode⟩
    · rename_i hsnap
      exact absurd hsnap hmode

def busyServer : Server BlockDeviceFile :=
  ⟨busyMemory.byte, blockDeviceInit (List.replicate 512 0) .rw, []⟩

theorem blockNotify_serves_busy : ∃ y,
    (blockWrite fileDevice (fun _ => 0) 0x050 (BitVec.ofNat 32 (0 : Fin maxQueue))).Returns
        (busyDevice (.initial busyServer.disk)) () y ∧
      Stands (fun bf => bf.mode ≠ .snapshot) 0 (busyDevice (.initial busyServer.disk))
        busyMemory.byte (half busyMemory.byte (QueueState.atStart.availArea.1 + 2)) y
        (Server.serveAll fileDevice .atStart busyChain
          (QueueState.atStart.waits (fun _ _ => 0) busyMemory.byte) busyServer) := by
  have hholds : (busyDevice (BlockState.initial busyServer.disk)).machine.mem.Holds
    busyMemory.byte := fun _ _ => rfl
  exact blockNotify_serves (fun _ _ => 0) fileDevice_synchronous BlockDeviceMode.noConfusion rfl
    hholds QueueState.atStart_layout rfl busy_holdsRequest

/-! ### The store of bytes -/

def Request.sectors (r : Request) : ℕ :=
  if r.header.type = virtioBlkTIn then (r.room - 1) / sectorSize
  else r.data.length / sectorSize

def Request.start (r : Request) : ℕ := r.header.sectorNum.toNat * sectorSize

def Request.Within (r : Request) (nbSectors : ℕ) : Prop :=
  r.header.type = virtioBlkTIn ∨ r.header.type = virtioBlkTOut →
    r.header.sectorNum.toNat + r.sectors ≤ nbSectors

instance (r : Request) (nbSectors : ℕ) : Decidable (r.Within nbSectors) :=
  inferInstanceAs (Decidable (_ → _))

/-- What the driver gets back for a read: the bytes of the sectors, then what was in the buffer, with
the status as the last byte. -/
def storeRead (heap : ℕ → Byte) (r : Request) (image : ℕ → Byte) : List Byte :=
  (range image r.start (r.sectors * sectorSize) ++
    ((List.range r.room).map heap).drop (r.sectors * sectorSize)).set (r.room - 1) virtioBlkSOk

def storeAnswer (writable : Bool) (heap : ℕ → Byte) (r : Request) (image : ℕ → Byte) :
    Option (List Byte) × (ℕ → Byte) :=
  if r.header.type = virtioBlkTIn then (some (storeRead heap r image), image)
  else if r.header.type = virtioBlkTOut then
    if writable then
      (some [virtioBlkSOk], put (r.start, r.data.take (r.sectors * sectorSize)) image)
    else (some [virtioBlkSIoerr], image)
  else (none, image)

theorem fileAnswer_eq {r : Request} (heap : ℕ → Byte) (hw : bf.WellFormed)
    (hr : r.Within bf.nbSectors.toNat) :
    let a := answer fileDevice heap r bf
    (a.1, a.2.image) = storeAnswer (bf.mode ≠ .ro) heap r bf.image ∧ a.2.WellFormed ∧
      bf.Kept a.2 := by
  unfold answer storeAnswer
  by_cases hin : r.header.type = virtioBlkTIn
  · have hsectors : r.sectors = (r.room - 1) / sectorSize := if_pos hin
    have hbuf : r.sectors * sectorSize ≤ ((List.range r.room).map heap).length := by
      rw [List.length_map, List.length_range, hsectors]
      exact (Nat.div_mul_le_self _ _).trans (Nat.sub_le _ _)
    obtain ⟨bf', hread, himage, hw', hkept⟩ := bfReadAsync_eq hw (hr (.inl hin)) hbuf
    have hanswer : answerIn fileDevice heap r bf = (some (storeRead heap r bf.image), bf') := by
      have hread : fileDevice.readAsync r.header.sectorNum ((List.range r.room).map heap)
        r.sectors bf = _ := hread
      rw [answerIn, ← hsectors, hread, storeRead, Request.start]
      dsimp only
      rw [blockStatus, if_neg (lt_irrefl 0)]
    rw [if_pos hin, if_pos hin, hanswer]
    exact ⟨by rw [himage], hw', hkept⟩
  rw [if_neg hin, if_neg hin]
  by_cases hout : r.header.type = virtioBlkTOut
  · have hsectors : r.sectors = r.data.length / sectorSize := if_neg hin
    have hbuf : r.sectors * sectorSize ≤ r.data.length := by
      rw [hsectors]
      exact Nat.div_mul_le_self _ _
    rw [if_pos hout, if_pos hout, answerOut, ← hsectors]
    by_cases hro : bf.mode = .ro
    · have hwrite : fileDevice.writeAsync r.header.sectorNum r.data r.sectors bf =
          some (-1, bf) := by
        show bfWriteAsync _ _ _ bf = _
        rw [bfWriteAsync, hro]
      rw [hwrite, if_neg (by rw [hro]; decide)]
      exact ⟨rfl, hw, rfl, rfl, fun _ => rfl⟩
    · obtain ⟨bf', hwrite, himage, hw', hkept⟩ := bfWriteAsync_eq hw (hr (.inr hout)) hbuf hro
      have hwrite : fileDevice.writeAsync r.header.sectorNum r.data r.sectors bf = _ := hwrite
      rw [hwrite, if_pos (by rw [decide_eq_true_iff]; exact hro)]
      exact ⟨by rw [himage]; rfl, hw', hkept⟩
  · rw [if_neg hout, if_neg hout]
    exact ⟨rfl, hw, rfl, rfl, fun _ => rfl⟩

section

variable {β : Type} (bd : BlockDevice β)

/-- The answers to requests in order, each with what `malloc` finds for it, and the disk after
them. -/
def answers : List ((ℕ → Byte) × Request) → β → List (Option (List Byte)) × β
  | [], disk => ([], disk)
  | (heap, r) :: rs, disk =>
    let (a, disk) := answer bd heap r disk
    let (as, disk) := answers rs disk
    (a :: as, disk)

def storeAnswers (writable : Bool) : List ((ℕ → Byte) × Request) → (ℕ → Byte) →
    List (Option (List Byte)) × (ℕ → Byte)
  | [], image => ([], image)
  | (heap, r) :: rs, image =>
    let (a, image) := storeAnswer writable heap r image
    let (as, image) := storeAnswers writable rs image
    (a :: as, image)

end

/-- The file device is a store of bytes: requests within the disk get the store's answers and leave
the store's bytes, in the file and in a snapshot alike; what is not opened for writing gets an error
for every write; and only in the mode for writing does the file change. -/
theorem fileDevice_refines {rs : List ((ℕ → Byte) × Request)} (hw : bf.WellFormed)
    (hr : ∀ r ∈ rs, r.2.Within bf.nbSectors.toNat) :
    let a := answers fileDevice rs bf
    (a.1, a.2.image) = storeAnswers (bf.mode ≠ .ro) rs bf.image ∧ a.2.WellFormed ∧
      bf.Kept a.2 := by
  induction rs generalizing bf with
  | nil => exact ⟨rfl, hw, rfl, rfl, fun _ => rfl⟩
  | cons r rs ih =>
    obtain ⟨heq, hw1, hkept1⟩ := fileAnswer_eq r.1 hw (hr r (List.mem_cons_self ..))
    obtain ⟨heq2, hw2, hkept2⟩ := ih hw1 fun t ht =>
      hkept1.nbSectors ▸ hr t (List.mem_cons_of_mem _ ht)
    rw [hkept1.mode] at heq2
    refine ⟨?_, hw2, hkept2.mode.trans hkept1.mode, hkept2.nbSectors.trans hkept1.nbSectors,
      fun hne => (hkept2.contents (hkept1.mode ▸ hne)).trans (hkept1.contents hne)⟩
    rw [storeAnswers, ← heq]
    dsimp only
    rw [← heq2]
    rfl

/-- The two requests of the queue, to a snapshot of a disk with one sector. -/
theorem fileDevice_refines_snapshot :
    let rs : List ((ℕ → Byte) × Request) :=
      [(fun _ => 0, requestOf busyMemory.byte (busyChain 0)),
        (fun _ => 7, requestOf busyMemory.byte (busyChain 3))]
    let bf := blockDeviceInit (List.replicate 512 0) .snapshot
    let a := answers fileDevice rs bf
    (a.1, a.2.image) = storeAnswers true rs bf.image ∧ a.2.WellFormed ∧ bf.Kept a.2 :=
  fileDevice_refines (blockDeviceInit_wellFormed .snapshot (by decide +kernel)) (by
    rw [List.forall_mem_cons, List.forall_mem_singleton]
    decide +kernel)

/-! ### What is read back -/

def Request.area (r : Request) : ℕ × ℕ := (r.start, r.sectors * sectorSize)

theorem storeAnswers_of_apart {a : ℕ × ℕ} {rs : List ((ℕ → Byte) × Request)} (image : ℕ → Byte)
    (h : ∀ r ∈ rs, r.2.header.type = virtioBlkTOut → Apart a r.2.area) :
    range (storeAnswers true rs image).2 a.1 a.2 = range image a.1 a.2 := by
  induction rs generalizing image with
  | nil => rfl
  | cons p rs ih =>
    obtain ⟨heap, r⟩ := p
    have hrest : range (storeAnswers true ((heap, r) :: rs) image).2 a.1 a.2 =
        range (storeAnswer true heap r image).2 a.1 a.2 :=
      ih _ fun t ht => h t (List.mem_cons_of_mem _ ht)
    rw [hrest, storeAnswer]
    by_cases hin : r.header.type = virtioBlkTIn
    · rw [if_pos hin]
    rw [if_neg hin]
    by_cases hout : r.header.type = virtioBlkTOut
    · have hsectors : r.sectors = r.data.length / sectorSize := if_neg hin
      rw [if_pos hout, if_pos rfl]
      refine range_put_of_apart ?_
      rw [List.length_take_of_le (by rw [hsectors]; exact Nat.div_mul_le_self _ _)]
      exact h (heap, r) (List.mem_cons_self ..) hout
    · rw [if_neg hout]

theorem Request.writeSectors {r : Request} (hout : r.header.type = virtioBlkTOut)
    (hwhole : sectorSize ∣ r.data.length) : r.sectors * sectorSize = r.data.length := by
  have hne : r.header.type ≠ virtioBlkTIn := by
    rw [hout]
    decide
  rw [Request.sectors, if_neg hne, Nat.div_mul_cancel hwhole]

theorem storeRead_eq {r : Request} {image : ℕ → Byte} {xs : List Byte} (heap : ℕ → Byte)
    (hlen : r.sectors * sectorSize = xs.length) (hroom : r.room = xs.length + 1)
    (himage : range image r.start xs.length = xs) : storeRead heap r image = xs ++ [virtioBlkSOk] := by
  have hdrop : ((List.range r.room).map heap).drop xs.length = [heap xs.length] := by
    rw [hroom, List.range_succ, List.map_append]
    exact List.drop_left' (by rw [List.length_map, List.length_range])
  rw [storeRead, hlen, himage, hdrop, hroom, Nat.add_sub_cancel,
    List.set_append_right _ _ le_rfl, Nat.sub_self]
  rfl

/-- A read of the sectors that a write has filled gets what has been written, if no request between
them writes to these sectors. -/
theorem file_read_back {r r' : Request} {rs : List ((ℕ → Byte) × Request)} (heap heap' : ℕ → Byte)
    (hw : bf.WellFormed) (hmode : bf.mode ≠ .ro)
    (hwithin : ∀ t ∈ r :: rs.map Prod.snd ++ [r'], t.Within bf.nbSectors.toNat)
    (hout : r.header.type = virtioBlkTOut)
    (helse : ∀ t ∈ rs.map Prod.snd, t.header.type = virtioBlkTOut → Apart r.area t.area)
    (hin : r'.header.type = virtioBlkTIn) (hsame : r'.area = r.area)
    (hroom : r'.room = r.data.length + 1) (hwhole : sectorSize ∣ r.data.length) :
    (answer fileDevice heap' r'
      (answers fileDevice rs (answer fileDevice heap r bf).2).2).1 =
        some (r.data ++ [virtioBlkSOk]) := by
  have hne : ¬ r.header.type = virtioBlkTIn := by
    rw [hout]
    decide
  have hsectors := Request.writeSectors hout hwhole
  obtain ⟨h1, hw1, hkept1⟩ := fileAnswer_eq heap hw (hwithin r (List.mem_append_left _
    (List.mem_cons_self ..)))
  obtain ⟨h2, hw2, hkept2⟩ := fileDevice_refines hw1 fun t (ht : t ∈ rs) =>
    hkept1.nbSectors ▸ hwithin t.2 (List.mem_append_left _
      (List.mem_cons_of_mem _ (List.mem_map_of_mem ht)))
  obtain ⟨h3, -, -⟩ := fileAnswer_eq heap' hw2 (r := r') (by
    rw [hkept2.nbSectors, hkept1.nbSectors]
    exact hwithin r' (List.mem_append_right _ (List.mem_singleton_self _)))
  have hwritable : decide (bf.mode ≠ .ro) = true := decide_eq_true hmode
  rw [hkept1.mode, hwritable] at h2
  rw [hwritable, storeAnswer, if_neg hne, if_pos hout, if_pos rfl, hsectors, List.take_length] at h1
  rw [storeAnswer, if_pos hin] at h3
  refine (congrArg Prod.fst h3).trans (congrArg some ?_)
  -- what the requests between write is apart from the area
  have hkeep := storeAnswers_of_apart (answer fileDevice heap r bf).2.image
    fun t ht => helse t.2 (List.mem_map_of_mem ht)
  have himage1 : (answer fileDevice heap r bf).2.image = put (r.start, r.data) bf.image :=
    congrArg Prod.snd h1
  have himage2 : (answers fileDevice rs (answer fileDevice heap r bf).2).2.image =
    (storeAnswers true rs (answer fileDevice heap r bf).2.image).2 := congrArg Prod.snd h2
  have harea : r.area = (r.start, r.data.length) := congrArg (Prod.mk r.start) hsectors
  refine storeRead_eq heap' ((congrArg Prod.snd hsame).trans hsectors) hroom ?_
  rw [himage2, show r'.start = r.start from congrArg Prod.fst hsame]
  rw [harea] at hkeep
  refine hkeep.trans ?_
  rw [himage1]
  exact range_put _ _ _

theorem file_read_back_busy :
    (answer fileDevice (fun _ => 0) (requestOf busyMemory.byte (busyChain 3))
      (answers fileDevice [] (answer fileDevice (fun _ => 0)
        (requestOf busyMemory.byte (busyChain 0))
        (blockDeviceInit (List.replicate 512 0) .rw)).2).2).1 =
      some ((requestOf busyMemory.byte (busyChain 0)).data ++ [virtioBlkSOk]) :=
  file_read_back (fun _ => 0) (fun _ => 0) (blockDeviceInit_wellFormed .rw (by decide +kernel))
    (by decide) (by decide +kernel) (by decide +kernel) nofun (by decide +kernel) (by decide +kernel)
    (by decide +kernel) (by decide +kernel)

end RiscvEmu
