import RiscvEmu.Basic

/-! The store and load accessors of `emu.h`, over one 64-bit cell, and the memory vector. The
C++ functions return a success flag and assign `wb_data`; here the pair is returned. -/

namespace RiscvEmu

def storeWord (storeAddr loadData value : Word) : Bool × Word :=
  match (storeAddr % 8).toNat with
  | 0 => (true, (loadData &&& 0xFFFFFFFF00000000) + ((value &&& 0xFFFFFFFF) <<< 0))
  | 1 => (true, (loadData &&& 0xFFFFFF00000000FF) + ((value &&& 0xFFFFFFFF) <<< 8))
  | 2 => (true, (loadData &&& 0xFFFF00000000FFFF) + ((value &&& 0xFFFFFFFF) <<< 16))
  | 3 => (true, (loadData &&& 0xFF00000000FFFFFF) + ((value &&& 0xFFFFFFFF) <<< 24))
  | 4 => (true, (loadData &&& 0x00000000FFFFFFFF) + ((value &&& 0xFFFFFFFF) <<< 32))
  | _ => (false, -1)

def storeHalfw (storeAddr loadData value : Word) : Bool × Word :=
  match (storeAddr % 8).toNat with
  | 0 => (true, (loadData &&& 0xFFFFFFFFFFFF0000) + ((value &&& 0xFFFF) <<< 0))
  | 1 => (true, (loadData &&& 0xFFFFFFFFFF0000FF) + ((value &&& 0xFFFF) <<< 8))
  | 2 => (true, (loadData &&& 0xFFFFFFFF0000FFFF) + ((value &&& 0xFFFF) <<< 16))
  | 3 => (true, (loadData &&& 0xFFFFFF0000FFFFFF) + ((value &&& 0xFFFF) <<< 24))
  | 4 => (true, (loadData &&& 0xFFFF0000FFFFFFFF) + ((value &&& 0xFFFF) <<< 32))
  | 5 => (true, (loadData &&& 0xFF0000FFFFFFFFFF) + ((value &&& 0xFFFF) <<< 40))
  | 6 => (true, (loadData &&& 0x0000FFFFFFFFFFFF) + ((value &&& 0xFFFF) <<< 48))
  | _ => (false, -1)

def storeByte (storeAddr loadData value : Word) : Bool × Word :=
  match (storeAddr % 8).toNat with
  | 0 => (true, (loadData &&& (0xFFFFFFFFFFFFFF <<< 8)) + (value &&& 0xFF))
  | 1 => (true, (loadData &&& (0xFFFFFFFFFFFF <<< 16)) + ((value &&& 0xFF) <<< 8) +
      (loadData &&& 0xFF))
  | 2 => (true, (loadData &&& (0xFFFFFFFFFF <<< 24)) + ((value &&& 0xFF) <<< 16) +
      (loadData &&& 0xFFFF))
  | 3 => (true, (loadData &&& (0xFFFFFFFF <<< 32)) + ((value &&& 0xFF) <<< 24) +
      (loadData &&& 0xFFFFFF))
  | 4 => (true, (loadData &&& (0xFFFFFF <<< 40)) + ((value &&& 0xFF) <<< 32) +
      (loadData &&& 0xFFFFFFFF))
  | 5 => (true, (loadData &&& (0xFFFF <<< 48)) + ((value &&& 0xFF) <<< 40) +
      (loadData &&& 0xFFFFFFFFFF))
  | 6 => (true, (loadData &&& (0xFF <<< 56)) + ((value &&& 0xFF) <<< 48) +
      (loadData &&& 0xFFFFFFFFFFFF))
  | 7 => (true, ((value &&& 0xFF) <<< 56) + (loadData &&& 0xFFFFFFFFFFFFFF))
  | _ => (false, -1)

def loadWord (loadAddr loadData : Word) : Bool × Word :=
  match (loadAddr % 8).toNat with
  | 0 => (true, (loadData >>> 0) &&& 0xFFFFFFFF)
  | 1 => (true, (loadData >>> 8) &&& 0xFFFFFFFF)
  | 2 => (true, (loadData >>> 16) &&& 0xFFFFFFFF)
  | 3 => (true, (loadData >>> 24) &&& 0xFFFFFFFF)
  | 4 => (true, (loadData >>> 32) &&& 0xFFFFFFFF)
  | _ => (false, -1)

def loadHalfw (loadAddr loadData : Word) : Bool × Word :=
  match (loadAddr % 8).toNat with
  | 0 => (true, (loadData >>> 0) &&& 0xFFFF)
  | 1 => (true, (loadData >>> 8) &&& 0xFFFF)
  | 2 => (true, (loadData >>> 16) &&& 0xFFFF)
  | 3 => (true, (loadData >>> 24) &&& 0xFFFF)
  | 4 => (true, (loadData >>> 32) &&& 0xFFFF)
  | 5 => (true, (loadData >>> 40) &&& 0xFFFF)
  | 6 => (true, (loadData >>> 48) &&& 0xFFFF)
  | _ => (false, -1)

def loadByte (loadAddr loadData : Word) : Bool × Word :=
  match (loadAddr % 8).toNat with
  | 0 => (true, loadData &&& 0xFF)
  | 1 => (true, (loadData >>> 8) &&& 0xFF)
  | 2 => (true, (loadData >>> 16) &&& 0xFF)
  | 3 => (true, (loadData >>> 24) &&& 0xFF)
  | 4 => (true, (loadData >>> 32) &&& 0xFF)
  | 5 => (true, (loadData >>> 40) &&& 0xFF)
  | 6 => (true, (loadData >>> 48) &&& 0xFF)
  | 7 => (true, (loadData >>> 56) &&& 0xFF)
  | _ => (false, -1)

/-- `1 << MEM_SIZE`, the length of the memory vector. -/
abbrev memSize : Nat := 2 ^ 28

abbrev Cell := Fin memSize

instance : NeZero memSize := ⟨by decide⟩

/-- `vector<uint_t> memory(1<<MEM_SIZE)`. -/
abbrev Memory := Cell → Word

/-- The cell that `memory.at(i)` refers to; none when the call throws. -/
def cell? (i : Word) : Option Cell :=
  if h : i.toNat < memSize then some ⟨i.toNat, h⟩ else none

def Memory.set (mem : Memory) (c : Cell) (v : Word) : Memory := Function.update mem c v

@[simp] theorem Memory.set_same (mem : Memory) (c : Cell) (v : Word) : mem.set c v c = v := by
  rw [Memory.set, Function.update_self]

theorem Memory.set_apply (mem : Memory) (c d : Cell) (v : Word) :
    mem.set c v d = if d = c then v else mem d := by
  rw [Memory.set, Function.update_apply]

theorem Memory.set_of_ne (mem : Memory) {c d : Cell} (h : d ≠ c) (v : Word) :
    mem.set c v d = mem d := by
  rw [Memory.set, Function.update_of_ne h]

theorem cell?_eq_some {i : Word} {c : Cell} : cell? i = some c ↔ c.val = i.toNat := by
  unfold cell?
  split
  · rw [Option.some.injEq, Fin.ext_iff, eq_comm]
  · rename_i h
    simp only [reduceCtorEq, false_iff]
    intro hc
    exact h (hc ▸ c.isLt)

def getINST (pc : Word) (mem : Memory) : Option Word :=
  match cell? (pc / 2) with
  | none => none
  | some c => some (if pc % 2 = 0 then mask32 &&& mem c else mem c >>> 32)

end RiscvEmu
