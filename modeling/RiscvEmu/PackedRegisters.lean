import RiscvEmu.CsrViews

/-! Reading and writing the packed registers: each is a list of fields in disjoint slots, so a read
after a write keeps the implemented bits, and writing back what was read restores the fields. -/

namespace RiscvEmu

open Packed

/-! ### Vectors, causes and `satp` as packed words -/

def tvecSlots : List Slot := [(2, 62), (0, 2)]

def Tvec.fields (t : Tvec) : List Word := [t.base >>> 2, t.mode.setWidth 64]

def causeSlots : List Slot := [(63, 1), (0, 63)]

def Cause.fields (c : Cause) : List Word := [c.interrupt.setWidth 64, c.ecode]

def satpSlots : List Slot := [(60, 4), (44, 16), (0, 44)]

def Satp.fields (s : Satp) : List Word := [s.mode.setWidth 64, s.asid.setWidth 64, s.ppn]

theorem setWidth_extract {n k : ℕ} (hk : k ≤ n) (v : Word) (p : ℕ) :
    (extract n v p k).setWidth 64 = extract 64 v p k := by
  apply BitVec.eq_of_getLsbD_eq
  intro j hj
  rw [BitVec.getLsbD_setWidth, getLsbD_extract, getLsbD_extract]
  by_cases h : j < k
  · rw [decide_eq_true hj, decide_eq_true (show j < n by omega)]
    rfl
  · rw [decide_eq_false h, Bool.and_false, Bool.and_false, Bool.false_and, Bool.and_false]

theorem extract_low (v : Word) (k : ℕ) :
    extract 64 v 0 k = v &&& BitVec.ofNat 64 (2 ^ k - 1) := by
  rw [extract, BitVec.ushiftRight_zero, BitVec.setWidth_eq]

theorem toNat_and_low {x : Word} {k : ℕ} (hk : k ≤ 64) (h : x.toNat < 2 ^ k) :
    x &&& BitVec.ofNat 64 (2 ^ k - 1) = x := by
  have hx := toNat_field x 0 k hk
  rw [BitVec.ushiftRight_zero, Nat.pow_zero, Nat.div_one, Nat.mod_eq_of_lt h] at hx
  exact BitVec.eq_of_toNat_eq hx

theorem toNat_setWidth_byte (x : Byte) : (x.setWidth 64).toNat = x.toNat := by
  rw [BitVec.toNat_setWidth, Nat.mod_eq_of_lt (x.isLt.trans (by decide))]

theorem and_three_of_le {x : Byte} (h : x ≤ 3) : x &&& 0b11 = x := by
  refine BitVec.eq_of_toNat_eq ?_
  have hx : x.toNat ≤ 3 := BitVec.le_def.mp h
  have hand : (x &&& 0b11).toNat = x.toNat % 4 := Nat.and_two_pow_sub_one_eq_mod _ 2
  omega

theorem and_fifteen_of_le {x : Byte} (h : x ≤ 15) : x &&& 0xF = x := by
  refine BitVec.eq_of_toNat_eq ?_
  have hx : x.toNat ≤ 15 := BitVec.le_def.mp h
  have hand : (x &&& 0xF).toNat = x.toNat % 16 := Nat.and_two_pow_sub_one_eq_mod _ 4
  omega

theorem shift_up_down {b : Word} (h : b.toNat % 4 = 0) : b >>> 2 <<< 2 = b := by
  refine BitVec.eq_of_toNat_eq ?_
  have hb := b.isLt
  rw [BitVec.toNat_shiftLeft, BitVec.toNat_ushiftRight, Nat.shiftLeft_eq, Nat.shiftRight_eq_div_pow]
  omega

theorem and_high {b : Word} (h : b.toNat % 4 = 0) : b &&& (mask64 - 0b11) = b := by
  have hlow : b &&& 3 = 0 := by
    refine BitVec.eq_of_toNat_eq ?_
    rw [toNat_and_three, h]
    rfl
  apply BitVec.eq_of_getLsbD_eq
  intro j hj
  have hbit := congrArg (fun z => z.getLsbD j) hlow
  have hmask : ∀ j < 64, (mask64 - 0b11).getLsbD j = !(3 : Word).getLsbD j := by decide
  simp only [BitVec.getLsbD_and] at hbit ⊢
  rw [hmask j hj]
  cases h3 : (3 : Word).getLsbD j with
  | true =>
    rw [h3, Bool.and_true] at hbit
    rw [hbit]
    exact (Bool.and_false _).trans BitVec.getLsbD_zero.symm
  | false => exact Bool.and_true _

theorem Tvec.packs : Packs tvecSlots Tvec.InWidth Tvec.fields Tvec.readReg Tvec.writeReg where
  layout := by decide
  width := by decide
  fits t h := by
    have hb := t.base.isLt
    have hm : t.mode.toNat ≤ 3 := BitVec.le_def.mp h.mode
    refine ⟨?_, ?_, trivial⟩
    · rw [BitVec.toNat_ushiftRight, Nat.shiftRight_eq_div_pow]
      omega
    · rw [toNat_setWidth_byte]
      omega
  read_eq t h := by
    rw [Tvec.readReg, and_three_of_le h.mode, and_high h.base, add_comm]
    simp only [tvecSlots, Tvec.fields, pack, BitVec.setWidth_eq, shift_up_down h.base,
      BitVec.shiftLeft_zero]
    rw [show (0 : Word) = 0#64 from rfl, BitVec.add_zero]
  fields_write v := by
    have hmode : ((v &&& 0b11).setWidth 8).setWidth 64 = extract 64 v 0 2 := by
      rw [← setWidth_extract (n := 8) (by decide), extract, BitVec.ushiftRight_zero]
      rfl
    have hbase : (v &&& (mask64 - 0b11)) >>> 2 = extract 64 v 2 62 := by
      rw [extract, BitVec.setWidth_eq]
      apply BitVec.eq_of_getLsbD_eq
      intro j hj
      rw [BitVec.getLsbD_ushiftRight, BitVec.getLsbD_and, BitVec.getLsbD_and,
        BitVec.getLsbD_ushiftRight]
      have hmask : ∀ j < 64, (mask64 - 0b11).getLsbD (2 + j) =
          (BitVec.ofNat 64 (2 ^ 62 - 1)).getLsbD j := by decide
      rw [hmask j hj]
    exact congrArg₂ (fun x y => [x, y]) hbase hmode
  inWidth_write := Tvec.inWidth_writeReg

theorem Cause.packs :
    Packs causeSlots Cause.InWidth Cause.fields Cause.readReg Cause.writeReg where
  layout := by decide
  width := by decide
  fits c h := by
    have hi : c.interrupt.toNat ≤ 1 := BitVec.le_def.mp h.interrupt
    refine ⟨?_, h.ecode, trivial⟩
    rw [toNat_setWidth_byte]
    omega
  read_eq c h := by
    have hcode : ((1 <<< 63) - 1) &&& c.ecode = c.ecode := by
      rw [BitVec.and_comm]
      exact toNat_and_low (k := 63) (by decide) h.ecode
    rw [Cause.readReg, hcode, add_comm]
    simp only [causeSlots, Cause.fields, pack, BitVec.setWidth_eq, BitVec.shiftLeft_zero, field]
    rw [show (0 : Word) = 0#64 from rfl, BitVec.add_zero]
  fields_write v := by
    have hi : (bit1 v 63).setWidth 64 = extract 64 v 63 1 :=
      setWidth_extract (n := 8) (k := 1) (by decide) v 63
    have hcode : v &&& ((1 <<< 63) - 1) = extract 64 v 0 63 := (extract_low v 63).symm
    exact congrArg₂ (fun x y => [x, y]) hi hcode
  inWidth_write := Cause.inWidth_writeReg

theorem Satp.packs : Packs satpSlots Satp.InWidth Satp.fields Satp.readReg Satp.writeReg where
  layout := by decide
  width := by decide
  fits s h := by
    have hm : s.mode.toNat ≤ 15 := BitVec.le_def.mp h.mode
    have ha := s.asid.isLt
    refine ⟨?_, ?_, h.ppn, trivial⟩
    · rw [toNat_setWidth_byte]
      omega
    · rw [BitVec.toNat_setWidth]
      omega
  read_eq s h := by
    have hppn : s.ppn &&& 0xFFFFFFFFFFF = s.ppn := toNat_and_low (k := 44) (by decide) h.ppn
    rw [Satp.readReg, and_fifteen_of_le h.mode, hppn, BitVec.add_assoc]
    simp only [satpSlots, Satp.fields, pack, BitVec.setWidth_eq, BitVec.shiftLeft_zero]
    rw [show (0 : Word) = 0#64 from rfl, BitVec.add_zero]
  fields_write v := by
    have hmode : (((v >>> 60) &&& 0xF).setWidth 8).setWidth 64 = extract 64 v 60 4 :=
      setWidth_extract (n := 8) (k := 4) (by decide) v 60
    have hasid : (((v >>> 44) &&& 0xFFFF).setWidth 16).setWidth 64 = extract 64 v 44 16 :=
      setWidth_extract (n := 16) (k := 16) (by decide) v 44
    have hppn : v &&& 0xFFFFFFFFFFF = extract 64 v 0 44 := (extract_low v 44).symm
    exact congrArg₂ List.cons hmode (congrArg₂ (fun x y => [x, y]) hasid hppn)
  inWidth_write := Satp.inWidth_writeReg

/-! ### The other registers -/

theorem Mstatus.packs : Packs slots InWidth fields readReg writeReg where
  layout := by decide
  width := by decide
  fits _ h := fits h
  read_eq m _ := readReg_eq_pack m
  fields_write _ := rfl
  inWidth_write := inWidth_writeReg

/-- The view packs its fields whatever the rest of `mstatus` is. -/
theorem sstatus_packs (m : Mstatus) : Packs sstatusSlots
    (fun m => Fits sstatusSlots (sstatusFields m)) sstatusFields sstatusReadReg
    (sstatusWriteReg m) where
  layout := by decide
  width := by decide
  fits _ h := h
  read_eq m _ := sstatusReadReg_eq_pack m
  fields_write _ := rfl
  inWidth_write v := fits_unpack sstatusSlots v

theorem Mip.packs : Packs interruptSlots InWidth fields readReg writeReg where
  layout := by decide
  width := by decide
  fits _ h := fits h
  read_eq _ h := readReg_eq_pack h
  fields_write _ := rfl
  inWidth_write := inWidth_writeReg

theorem Mie.packs : Packs interruptSlots InWidth fields readReg writeReg where
  layout := by decide
  width := by decide
  fits _ h := fits h
  read_eq _ h := readReg_eq_pack h
  fields_write _ := rfl
  inWidth_write := inWidth_writeReg

/-! ### Fields determine the register -/

theorem setWidth_byte_injective {x y : Byte} (h : x.setWidth 64 = y.setWidth 64) : x = y := by
  refine BitVec.eq_of_toNat_eq ?_
  rw [← toNat_setWidth_byte x, h, toNat_setWidth_byte]

theorem Mip.fields_injective {p q : Mip} (h : p.fields = q.fields) : p = q := by
  cases p
  cases q
  simp only [fields, List.cons.injEq, and_true] at h
  simp only [h]

theorem Mie.fields_injective {e f : Mie} (h : e.fields = f.fields) : e = f := by
  cases e
  cases f
  simp only [fields, List.cons.injEq, and_true] at h
  simp only [h]

theorem Tvec.fields_injective {t u : Tvec} (ht : t.InWidth) (hu : u.InWidth)
    (h : t.fields = u.fields) : t = u := by
  simp only [fields, List.cons.injEq, and_true] at h
  have hbase : t.base = u.base := by
    rw [← shift_up_down ht.base, h.1, shift_up_down hu.base]
  have hmode := setWidth_byte_injective h.2
  cases t
  cases u
  exact congrArg₂ Tvec.mk hmode hbase

theorem Cause.fields_injective {c d : Cause} (h : c.fields = d.fields) : c = d := by
  simp only [fields, List.cons.injEq, and_true] at h
  have hi := setWidth_byte_injective h.1
  cases c
  cases d
  exact congrArg₂ Cause.mk hi h.2

theorem Satp.fields_injective {s t : Satp} (h : s.fields = t.fields) : s = t := by
  simp only [fields, List.cons.injEq, and_true] at h
  obtain ⟨hm, ha, hp⟩ := h
  have hmode := setWidth_byte_injective hm
  have hasid : s.asid = t.asid := by
    refine BitVec.eq_of_toNat_eq ?_
    have hnat := congrArg BitVec.toNat ha
    rw [BitVec.toNat_setWidth, BitVec.toNat_setWidth] at hnat
    have hs := s.asid.isLt
    have ht := t.asid.isLt
    omega
  cases s
  cases t
  simp only at hmode hasid hp
  rw [hmode, hasid, hp]

theorem Tvec.writeReg_readReg {t : Tvec} (h : t.InWidth) : writeReg t.readReg = t :=
  fields_injective (inWidth_writeReg _) h (packs.fields_write_read h)

theorem Cause.writeReg_readReg {c : Cause} (h : c.InWidth) : writeReg c.readReg = c :=
  fields_injective (packs.fields_write_read h)

theorem Satp.writeReg_readReg {s : Satp} (h : s.InWidth) : writeReg s.readReg = s :=
  fields_injective (packs.fields_write_read h)

theorem Mip.writeReg_readReg {p : Mip} (h : p.InWidth) : writeReg p.readReg = p :=
  fields_injective (packs.fields_write_read h)

theorem Mie.writeReg_readReg {e : Mie} (h : e.InWidth) : writeReg e.readReg = e :=
  fields_injective (packs.fields_write_read h)

/-! ### The packed registers of the CSR file -/

inductive PackedReg
  | mstatus | sstatus | mtvec | stvec | utvec | mcause | scause | ucause | satp | mip | mie
  deriving DecidableEq

namespace PackedReg

def name : PackedReg → CsrName
  | mstatus => .mstatus
  | sstatus => .sstatus
  | mtvec => .mtvec
  | stvec => .stvec
  | utvec => .utvec
  | mcause => .mcause
  | scause => .scause
  | ucause => .ucause
  | satp => .satp
  | mip => .mip
  | mie => .mie

def implemented : PackedReg → Word
  | mstatus => 0x8000000F007FF9BB
  | sstatus => 0x80000003000DE133
  | mip | mie => 0xBBB
  | _ => mask64

def InWidth (r : PackedReg) (c : Csrs) : Prop :=
  match r with
  | mstatus => c.mstatus.InWidth
  | sstatus => Fits sstatusSlots (sstatusFields c.mstatus)
  | mtvec => c.mtvec.InWidth
  | stvec => c.stvec.InWidth
  | utvec => c.utvec.InWidth
  | mcause => c.mcause.InWidth
  | scause => c.scause.InWidth
  | ucause => c.ucause.InWidth
  | satp => c.satp.InWidth
  | mip => c.mip.InWidth
  | mie => c.mie.InWidth

def parts (r : PackedReg) (c : Csrs) : List Word :=
  match r with
  | mstatus => Packed.parts Mstatus.slots c.mstatus.fields
  | sstatus => Packed.parts sstatusSlots (sstatusFields c.mstatus)
  | mtvec => Packed.parts tvecSlots c.mtvec.fields
  | stvec => Packed.parts tvecSlots c.stvec.fields
  | utvec => Packed.parts tvecSlots c.utvec.fields
  | mcause => Packed.parts causeSlots c.mcause.fields
  | scause => Packed.parts causeSlots c.scause.fields
  | ucause => Packed.parts causeSlots c.ucause.fields
  | satp => Packed.parts satpSlots c.satp.fields
  | mip => Packed.parts interruptSlots c.mip.fields
  | mie => Packed.parts interruptSlots c.mie.fields

def restore (r : PackedReg) (d c : Csrs) : Csrs :=
  match r with
  | mstatus => { c with mstatus := d.mstatus }
  | sstatus => { c with mstatus := { c.mstatus with
      uie := d.mstatus.uie
      sie := d.mstatus.sie
      upie := d.mstatus.upie
      spie := d.mstatus.spie
      spp := d.mstatus.spp
      fs := d.mstatus.fs
      xs := d.mstatus.xs
      sum := d.mstatus.sum
      mxr := d.mstatus.mxr
      uxl := d.mstatus.uxl
      sd := d.mstatus.sd } }
  | mtvec => { c with mtvec := d.mtvec }
  | stvec => { c with stvec := d.stvec }
  | utvec => { c with utvec := d.utvec }
  | mcause => { c with mcause := d.mcause }
  | scause => { c with scause := d.scause }
  | ucause => { c with ucause := d.ucause }
  | satp => { c with satp := d.satp }
  | mip => { c with mip := d.mip }
  | mie => { c with mie := d.mie }

end PackedReg

theorem sstatusWriteReg_readReg {m d : Mstatus} (h : Fits sstatusSlots (sstatusFields d)) :
    sstatusWriteReg m (sstatusReadReg d) = { m with
      uie := d.uie
      sie := d.sie
      upie := d.upie
      spie := d.spie
      spp := d.spp
      fs := d.fs
      xs := d.xs
      sum := d.sum
      mxr := d.mxr
      uxl := d.uxl
      sd := d.sd } := by
  have hf := (sstatus_packs m).fields_write_read h
  simp only [sstatusFields, List.cons.injEq, and_true] at hf
  obtain ⟨hsd, huxl, hmxr, hsum, hxs, hfs, hspp, hspie, hupie, hsie, huie⟩ := hf
  apply Mstatus.fields_injective
  simp only [Mstatus.fields, List.cons.injEq, and_true]
  exact ⟨hsd, rfl, huxl, rfl, rfl, rfl, hmxr, hsum, rfl, hxs, hfs, rfl, hspp, rfl, hspie, hupie, rfl,
    hsie, huie⟩

namespace PackedReg

variable {r : PackedReg} {c : Csrs}

theorem read_write (r : PackedReg) (c : Csrs) (v : Word) :
    ∃ d, c.assign v r.name = some d ∧ d.value r.name = v &&& r.implemented := by
  have under (m : Word) {x l : Word} (h : x = v &&& l) (hl : l = m) : x = v &&& m := by
    rw [h, hl]
  cases r with
  | mstatus => exact ⟨_, rfl, under _ (Mstatus.packs.read_write v) (by decide)⟩
  | sstatus => exact ⟨_, rfl, under _ ((sstatus_packs c.mstatus).read_write v) (by decide)⟩
  | mtvec => exact ⟨_, rfl, under _ (Tvec.packs.read_write v) (by decide)⟩
  | stvec => exact ⟨_, rfl, under _ (Tvec.packs.read_write v) (by decide)⟩
  | utvec => exact ⟨_, rfl, under _ (Tvec.packs.read_write v) (by decide)⟩
  | mcause => exact ⟨_, rfl, under _ (Cause.packs.read_write v) (by decide)⟩
  | scause => exact ⟨_, rfl, under _ (Cause.packs.read_write v) (by decide)⟩
  | ucause => exact ⟨_, rfl, under _ (Cause.packs.read_write v) (by decide)⟩
  | satp => exact ⟨_, rfl, under _ (Satp.packs.read_write v) (by decide)⟩
  | mip => exact ⟨_, rfl, under _ (Mip.packs.read_write v) (by decide)⟩
  | mie => exact ⟨_, rfl, under _ (Mie.packs.read_write v) (by decide)⟩

theorem write_read (h : r.InWidth c) (c' : Csrs) :
    c'.assign (c.value r.name) r.name = some (r.restore c c') := by
  cases r with
  | mstatus => exact congrArg (fun x => some { c' with mstatus := x }) (Mstatus.writeReg_readReg h)
  | sstatus => exact congrArg (fun x => some { c' with mstatus := x }) (sstatusWriteReg_readReg h)
  | mtvec => exact congrArg (fun x => some { c' with mtvec := x }) (Tvec.writeReg_readReg h)
  | stvec => exact congrArg (fun x => some { c' with stvec := x }) (Tvec.writeReg_readReg h)
  | utvec => exact congrArg (fun x => some { c' with utvec := x }) (Tvec.writeReg_readReg h)
  | mcause => exact congrArg (fun x => some { c' with mcause := x }) (Cause.writeReg_readReg h)
  | scause => exact congrArg (fun x => some { c' with scause := x }) (Cause.writeReg_readReg h)
  | ucause => exact congrArg (fun x => some { c' with ucause := x }) (Cause.writeReg_readReg h)
  | satp => exact congrArg (fun x => some { c' with satp := x }) (Satp.writeReg_readReg h)
  | mip => exact congrArg (fun x => some { c' with mip := x }) (Mip.writeReg_readReg h)
  | mie => exact congrArg (fun x => some { c' with mie := x }) (Mie.writeReg_readReg h)

theorem value_eq_sum (h : r.InWidth c) :
    c.value r.name = (r.parts c).sum ∧ (r.parts c).Pairwise fun x y => x &&& y = 0 := by
  cases r with
  | mstatus => exact ⟨Mstatus.packs.sum_eq h, Mstatus.packs.disjoint h⟩
  | sstatus => exact ⟨(sstatus_packs c.mstatus).sum_eq h, (sstatus_packs c.mstatus).disjoint h⟩
  | mtvec => exact ⟨Tvec.packs.sum_eq h, Tvec.packs.disjoint h⟩
  | stvec => exact ⟨Tvec.packs.sum_eq h, Tvec.packs.disjoint h⟩
  | utvec => exact ⟨Tvec.packs.sum_eq h, Tvec.packs.disjoint h⟩
  | mcause => exact ⟨Cause.packs.sum_eq h, Cause.packs.disjoint h⟩
  | scause => exact ⟨Cause.packs.sum_eq h, Cause.packs.disjoint h⟩
  | ucause => exact ⟨Cause.packs.sum_eq h, Cause.packs.disjoint h⟩
  | satp => exact ⟨Satp.packs.sum_eq h, Satp.packs.disjoint h⟩
  | mip => exact ⟨Mip.packs.sum_eq h, Mip.packs.disjoint h⟩
  | mie => exact ⟨Mie.packs.sum_eq h, Mie.packs.disjoint h⟩

end PackedReg

/-- A packed register keeps the implemented bits of what is written, gives back exactly its fields when
its value is written anywhere, and is a sum of summands with no bit in common. -/
theorem packed_registers (r : PackedReg) (c : Csrs) :
    (∀ v, ∃ d, c.assign v r.name = some d ∧ d.value r.name = v &&& r.implemented) ∧
      (r.InWidth c → (∀ c', c'.assign (c.value r.name) r.name = some (r.restore c c')) ∧
        c.value r.name = (r.parts c).sum ∧ (r.parts c).Pairwise fun x y => x &&& y = 0) :=
  ⟨r.read_write c, fun h => ⟨PackedReg.write_read h, PackedReg.value_eq_sum h⟩⟩

end RiscvEmu
