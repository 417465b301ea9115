import RiscvEmu.CsrWellFormed
import RiscvEmu.Lib.Packed

/-! The restricted views of `mstatus`, `mie` and `mip`. Each register is a packed word, a write through
a view is a splice of the written value into it, and a read through a view is the register under a
mask; from this follows when a view is coherent with the full register. -/

namespace RiscvEmu

open Packed

variable {s : State}

/-! ### `mstatus` and its views as packed words -/

def Mstatus.slots : List Slot :=
  [(63, 1), (34, 2), (32, 2), (22, 1), (21, 1), (20, 1), (19, 1), (18, 1), (17, 1), (15, 2), (13, 2),
    (11, 2), (8, 1), (7, 1), (5, 1), (4, 1), (3, 1), (1, 1), (0, 1)]

def Mstatus.fields (m : Mstatus) : List Byte :=
  [m.sd, m.sxl, m.uxl, m.tsr, m.tw, m.tvm, m.mxr, m.sum, m.mprv, m.xs, m.fs, m.mpp, m.spp, m.mpie,
    m.spie, m.upie, m.mie, m.sie, m.uie]

def sstatusSlots : List Slot :=
  [(63, 1), (32, 2), (19, 1), (18, 1), (15, 2), (13, 2), (8, 1), (5, 1), (4, 1), (1, 1), (0, 1)]

def sstatusFields (m : Mstatus) : List Byte :=
  [m.sd, m.uxl, m.mxr, m.sum, m.xs, m.fs, m.spp, m.spie, m.upie, m.sie, m.uie]

def ustatusSlots : List Slot :=
  [(63, 1), (32, 2), (19, 1), (18, 1), (15, 2), (13, 2), (4, 1), (0, 1)]

def ustatusFields (m : Mstatus) : List Byte :=
  [m.sd, m.uxl, m.mxr, m.sum, m.xs, m.fs, m.upie, m.uie]

def mstatusMask : Word := mask Mstatus.slots

def sstatusMask : Word := mask sstatusSlots

def ustatusMask : Word := mask ustatusSlots

theorem Mstatus.readReg_eq_pack (m : Mstatus) : m.readReg = pack slots m.fields := by
  simp only [readReg, field, slots, fields, pack, BitVec.add_assoc]
  rw [show (0 : Word) = 0#64 from rfl, BitVec.add_zero]

theorem sstatusReadReg_eq_pack (m : Mstatus) :
    sstatusReadReg m = pack sstatusSlots (sstatusFields m) := by
  simp only [sstatusReadReg, field, sstatusSlots, sstatusFields, pack, BitVec.add_assoc]
  rw [show (0 : Word) = 0#64 from rfl, BitVec.add_zero]

theorem ustatusReadReg_eq_pack (m : Mstatus) :
    ustatusReadReg m = pack ustatusSlots (ustatusFields m) := by
  simp only [ustatusReadReg, field, ustatusSlots, ustatusFields, pack, BitVec.add_assoc]
  rw [show (0 : Word) = 0#64 from rfl, BitVec.add_zero]

theorem Mstatus.fields_injective {m m' : Mstatus} (h : m.fields = m'.fields) : m = m' := by
  cases m
  cases m'
  simp only [fields, List.cons.injEq, and_true] at h
  simp only [h]

theorem Mstatus.fits {m : Mstatus} (h : m.InWidth) : Fits slots m.fields := by
  have lt {x b : Byte} {k : ℕ} (hx : x ≤ b) (hb : b.toNat < 2 ^ k) : x.toNat < 2 ^ k :=
    lt_of_le_of_lt (BitVec.le_def.mp hx) hb
  exact ⟨lt h.sd (by decide), lt h.sxl (by decide), lt h.uxl (by decide), lt h.tsr (by decide),
    lt h.tw (by decide), lt h.tvm (by decide), lt h.mxr (by decide), lt h.sum (by decide),
    lt h.mprv (by decide), lt h.xs (by decide), lt h.fs (by decide), lt h.mpp (by decide),
    lt h.spp (by decide), lt h.mpie (by decide), lt h.spie (by decide), lt h.upie (by decide),
    lt h.mie (by decide), lt h.sie (by decide), lt h.uie (by decide), trivial⟩

theorem Mstatus.writeReg_readReg {m : Mstatus} (h : m.InWidth) : writeReg m.readReg = m := by
  apply fields_injective
  rw [readReg_eq_pack]
  exact unpack_pack (m := 64) (by decide) le_rfl (fits h)

theorem Mstatus.readReg_writeReg (v : Word) : (writeReg v).readReg = v &&& mstatusMask := by
  rw [readReg_eq_pack]
  exact pack_unpack (n := 8) (m := 64) (by decide) le_rfl (by decide) v

theorem sstatusReadReg_writeReg (v : Word) :
    sstatusReadReg (Mstatus.writeReg v) = v &&& sstatusMask := by
  rw [sstatusReadReg_eq_pack]
  exact pack_unpack (n := 8) (m := 64) (by decide) le_rfl (by decide) v

theorem ustatusReadReg_writeReg (v : Word) :
    ustatusReadReg (Mstatus.writeReg v) = v &&& ustatusMask := by
  rw [ustatusReadReg_eq_pack]
  exact pack_unpack (n := 8) (m := 64) (by decide) le_rfl (by decide) v

theorem sstatusWriteReg_writeReg (u v : Word) :
    sstatusWriteReg (Mstatus.writeReg u) v = Mstatus.writeReg (splice u v sstatusMask) := by
  have inside (p k : ℕ) (h : ∀ j < k, sstatusMask.getLsbD (p + j) = true) :
      extract 8 v p k = extract 8 (splice u v sstatusMask) p k := (extract_splice_in h u v).symm
  have outside (p k : ℕ) (h : ∀ j < k, sstatusMask.getLsbD (p + j) = false) :
      extract 8 u p k = extract 8 (splice u v sstatusMask) p k := (extract_splice_out h u v).symm
  apply Mstatus.fields_injective
  simp only [Mstatus.fields, List.cons.injEq, and_true]
  exact ⟨inside 63 1 (by decide), outside 34 2 (by decide), inside 32 2 (by decide),
    outside 22 1 (by decide), outside 21 1 (by decide), outside 20 1 (by decide),
    inside 19 1 (by decide), inside 18 1 (by decide), outside 17 1 (by decide),
    inside 15 2 (by decide), inside 13 2 (by decide), outside 11 2 (by decide),
    inside 8 1 (by decide), outside 7 1 (by decide), inside 5 1 (by decide),
    inside 4 1 (by decide), outside 3 1 (by decide), inside 1 1 (by decide),
    inside 0 1 (by decide)⟩

/-- The value that a write through `ustatus` stores: bit 4 comes from bit 5. -/
def ustatusSource (v : Word) : Word := splice v (v >>> 1) 0x10

theorem ustatusWriteReg_writeReg (u v : Word) :
    ustatusWriteReg (Mstatus.writeReg u) v =
      Mstatus.writeReg (splice u (ustatusSource v) ustatusMask) := by
  have inside (p k : ℕ) (h : ∀ j < k, ustatusMask.getLsbD (p + j) = true)
      (h4 : ∀ j < k, (0x10 : Word).getLsbD (p + j) = false) :
      extract 8 v p k = extract 8 (splice u (ustatusSource v) ustatusMask) p k :=
    ((extract_splice_in h u _).trans (extract_splice_out h4 v _)).symm
  have outside (p k : ℕ) (h : ∀ j < k, ustatusMask.getLsbD (p + j) = false) :
      extract 8 u p k = extract 8 (splice u (ustatusSource v) ustatusMask) p k :=
    (extract_splice_out h u _).symm
  have upie : extract 8 v 5 1 = extract 8 (splice u (ustatusSource v) ustatusMask) 4 1 := by
    rw [extract_splice_in (by decide), ustatusSource, extract_splice_in (by decide)]
    unfold extract
    rw [← BitVec.shiftRight_add]
  apply Mstatus.fields_injective
  simp only [Mstatus.fields, List.cons.injEq, and_true]
  exact ⟨inside 63 1 (by decide) (by decide), outside 34 2 (by decide),
    inside 32 2 (by decide) (by decide), outside 22 1 (by decide), outside 21 1 (by decide),
    outside 20 1 (by decide), inside 19 1 (by decide) (by decide),
    inside 18 1 (by decide) (by decide), outside 17 1 (by decide),
    inside 15 2 (by decide) (by decide), inside 13 2 (by decide) (by decide),
    outside 11 2 (by decide), outside 8 1 (by decide), outside 7 1 (by decide),
    outside 5 1 (by decide), upie, outside 3 1 (by decide), outside 1 1 (by decide),
    inside 0 1 (by decide) (by decide)⟩

/-! ### `mip` and `mie` as packed words -/

def interruptSlots : List Slot :=
  [(11, 1), (9, 1), (8, 1), (7, 1), (5, 1), (4, 1), (3, 1), (1, 1), (0, 1)]

def interruptMask : Word := mask interruptSlots

def Mip.fields (p : Mip) : List Byte :=
  [p.meip, p.seip, p.ueip, p.mtip, p.stip, p.utip, p.msip, p.ssip, p.usip]

def Mie.fields (e : Mie) : List Byte :=
  [e.meie, e.seie, e.ueie, e.mtie, e.stie, e.utie, e.msie, e.ssie, e.usie]

theorem and_one_of_le {x : Byte} (h : x ≤ 1) : x &&& 0b1 = x := by
  rcases (show x = 0 ∨ x = 1 by
    simp only [← BitVec.toNat_inj]
    have := BitVec.le_def.mp h
    show x.toNat = 0 ∨ x.toNat = 1
    have : x.toNat ≤ 1 := this
    omega) with rfl | rfl <;> rfl

theorem Mip.readReg_eq_pack {p : Mip} (h : p.InWidth) :
    p.readReg = pack interruptSlots p.fields := by
  simp only [readReg, and_one_of_le h.meip, and_one_of_le h.seip, and_one_of_le h.ueip,
    and_one_of_le h.mtip, and_one_of_le h.stip, and_one_of_le h.utip, and_one_of_le h.msip,
    and_one_of_le h.ssip, and_one_of_le h.usip, field, interruptSlots, fields, pack,
    BitVec.add_assoc]
  rw [show (0 : Word) = 0#64 from rfl, BitVec.add_zero]

theorem Mie.readReg_eq_pack {e : Mie} (h : e.InWidth) :
    e.readReg = pack interruptSlots e.fields := by
  simp only [readReg, and_one_of_le h.meie, and_one_of_le h.seie, and_one_of_le h.ueie,
    and_one_of_le h.mtie, and_one_of_le h.stie, and_one_of_le h.utie, and_one_of_le h.msie,
    and_one_of_le h.ssie, and_one_of_le h.usie, field, interruptSlots, fields, pack,
    BitVec.add_assoc]
  rw [show (0 : Word) = 0#64 from rfl, BitVec.add_zero]

theorem Mip.readReg_writeReg (v : Word) : (Mip.writeReg v).readReg = v &&& interruptMask := by
  rw [readReg_eq_pack (inWidth_writeReg v)]
  exact pack_unpack (n := 8) (m := 64) (by decide) le_rfl (by decide) v

theorem Mie.readReg_writeReg (v : Word) : (Mie.writeReg v).readReg = v &&& interruptMask := by
  rw [readReg_eq_pack (inWidth_writeReg v)]
  exact pack_unpack (n := 8) (m := 64) (by decide) le_rfl (by decide) v

theorem toNat_lt_of_le {x : Byte} (h : x ≤ 1) : x.toNat < 2 ^ 1 :=
  Nat.lt_succ_of_le (BitVec.le_def.mp h)

theorem Mip.fits {p : Mip} (h : p.InWidth) : Fits interruptSlots p.fields :=
  ⟨toNat_lt_of_le h.meip, toNat_lt_of_le h.seip, toNat_lt_of_le h.ueip, toNat_lt_of_le h.mtip,
    toNat_lt_of_le h.stip, toNat_lt_of_le h.utip, toNat_lt_of_le h.msip, toNat_lt_of_le h.ssip,
    toNat_lt_of_le h.usip, trivial⟩

theorem Mie.fits {e : Mie} (h : e.InWidth) : Fits interruptSlots e.fields :=
  ⟨toNat_lt_of_le h.meie, toNat_lt_of_le h.seie, toNat_lt_of_le h.ueie, toNat_lt_of_le h.mtie,
    toNat_lt_of_le h.stie, toNat_lt_of_le h.utie, toNat_lt_of_le h.msie, toNat_lt_of_le h.ssie,
    toNat_lt_of_le h.usie, trivial⟩

theorem Mip.readReg_and {p : Mip} (h : p.InWidth) : p.readReg &&& interruptMask = p.readReg := by
  rw [readReg_eq_pack h]
  exact pack_and_mask (m := 64) (by decide) le_rfl (by decide) (fits h)

theorem Mie.readReg_and {e : Mie} (h : e.InWidth) : e.readReg &&& interruptMask = e.readReg := by
  rw [readReg_eq_pack h]
  exact pack_and_mask (m := 64) (by decide) le_rfl (by decide) (fits h)

theorem Mstatus.readReg_and {m : Mstatus} (h : m.InWidth) :
    m.readReg &&& mstatusMask = m.readReg := by
  rw [readReg_eq_pack]
  exact pack_and_mask (m := 64) (by decide) le_rfl (by decide) (fits h)

/-! ### Views -/

inductive View
  | sstatus | ustatus | sie | sip
  deriving DecidableEq

namespace View

def name : View → CsrName
  | sstatus => .sstatus
  | ustatus => .ustatus
  | sie => .sie
  | sip => .sip

def full : View → CsrName
  | sstatus | ustatus => .mstatus
  | sie => .mie
  | sip => .mip

/-- The bits that belong to the privilege of the view: all but the machine-level ones for the
supervisor's views, and `UIE` and `UPIE` for `ustatus`. -/
def bits : View → Word
  | sstatus => 0x80000003000DE133
  | ustatus => 0x11
  | sie | sip => 0x333

def stray : View → Word
  | sstatus => 0
  | ustatus => 0x80000003000DE000
  | sie | sip => 0x888

end View

def CsrName.storage : CsrName → CsrName
  | sstatus | ustatus => mstatus
  | sie => mie
  | sip => mip
  | n => n

/-- What a write of `v` through a view should do. -/
structure Coherent (w : View) (v : Word) (c c' : Csrs) : Prop where
  others : ∀ n : CsrName, n.storage ≠ w.full → c'.value n = c.value n
  frame : c'.value w.full &&& ~~~w.bits = c.value w.full &&& ~~~w.bits
  view : c'.value w.name &&& w.bits = v &&& w.bits
  full : c'.value w.full &&& w.bits = c'.value w.name &&& w.bits

def View.Faithful (w : View) (v : Word) (c : Csrs) : Prop :=
  v &&& w.stray = c.value w.full &&& w.stray ∧ (w = .ustatus → v.getLsbD 4 = v.getLsbD 5)

/-- The register after the write is a splice of `x` into it under the mask `r`, and the view shows it
under the mask `q`. -/
theorem coherent_iff_of_splice {w : View} {v u x r f q : Word} {c c' : Csrs}
    (ho : ∀ n : CsrName, n.storage ≠ w.full → c'.value n = c.value n)
    (hu : c.value w.full = u) (hf : c'.value w.full = splice u x r &&& f)
    (hq : c'.value w.name = splice u x r &&& q) (huf : u &&& f = u) (hrf : r &&& f = r)
    (hbr : w.bits &&& r = w.bits) (hbf : w.bits &&& f = w.bits) (hbq : w.bits &&& q = w.bits)
    (hs : r &&& ~~~w.bits = w.stray) :
    Coherent w v c c' ↔ x &&& w.stray = u &&& w.stray ∧ x &&& w.bits = v &&& w.bits := by
  have hframe := splice_frame_iff huf hrf hs x
  have hview := splice_and hbr hbq u x
  have hfull := splice_and hbr hbf u x
  constructor
  · rintro ⟨-, h1, h2, -⟩
    rw [hf, hu] at h1
    rw [hq] at h2
    exact ⟨hframe.mp h1, hview.symm.trans h2⟩
  · rintro ⟨h1, h2⟩
    refine ⟨ho, ?_, ?_, ?_⟩
    · rw [hf, hu]
      exact hframe.mpr h1
    · rw [hq]
      exact hview.trans h2
    · rw [hf, hq]
      exact hfull.trans hview.symm

theorem ustatusSource_bits (v : Word) :
    ustatusSource v &&& 0x11 = v &&& 0x11 ↔ v.getLsbD 4 = v.getLsbD 5 := by
  have h0 : ∀ j < 64, (0x10 : Word).getLsbD j = decide (j = 4) := by decide
  have h1 : ∀ j < 64, (0x11 : Word).getLsbD j = (decide (j = 4) || decide (j = 0)) := by decide
  constructor
  · intro h
    have hbit := congrArg (fun z => z.getLsbD 4) h
    simp only [BitVec.getLsbD_and, ustatusSource, getLsbD_splice, BitVec.getLsbD_ushiftRight,
      h0 4 (by decide), h1 4 (by decide), decide_true, if_true, Bool.true_or, Bool.and_true] at hbit
    exact hbit.symm
  · intro h
    apply BitVec.eq_of_getLsbD_eq
    intro j hj
    rw [BitVec.getLsbD_and, BitVec.getLsbD_and, ustatusSource, getLsbD_splice, h0 j hj, h1 j hj]
    by_cases h4 : j = 4
    · subst h4
      rw [if_pos (decide_eq_true rfl), BitVec.getLsbD_ushiftRight, h]
    · rw [if_neg (by rw [decide_eq_true_iff]; exact h4)]

theorem value_of_storage_ne {c : Csrs} {x : Mstatus} {n : CsrName} (hn : n.storage ≠ .mstatus) :
    { c with mstatus := x }.value n = c.value n := by
  cases n <;> first | exact absurd rfl hn | rfl

theorem coherent_sstatus_iff {c : Csrs} (h : c.InWidth) (v : Word) :
    Coherent .sstatus v c { c with mstatus := sstatusWriteReg c.mstatus v } ↔
      View.Faithful .sstatus v c := by
  have hc : sstatusWriteReg c.mstatus v =
      Mstatus.writeReg (splice c.mstatus.readReg v sstatusMask) := by
    rw [← sstatusWriteReg_writeReg, Mstatus.writeReg_readReg h.mstatus]
  rw [hc]
  refine (coherent_iff_of_splice (w := .sstatus) (fun _ hn => value_of_storage_ne hn) rfl
    (Mstatus.readReg_writeReg _) (sstatusReadReg_writeReg _) (Mstatus.readReg_and h.mstatus)
    (by decide) (by decide) (by decide) (by decide) (by decide)).trans ?_
  exact ⟨fun hx => ⟨hx.1, nofun⟩, fun hx => ⟨hx.1, rfl⟩⟩

theorem coherent_ustatus_iff {c : Csrs} (h : c.InWidth) (v : Word) :
    Coherent .ustatus v c { c with mstatus := ustatusWriteReg c.mstatus v } ↔
      View.Faithful .ustatus v c := by
  have hc : ustatusWriteReg c.mstatus v =
      Mstatus.writeReg (splice c.mstatus.readReg (ustatusSource v) ustatusMask) := by
    rw [← ustatusWriteReg_writeReg, Mstatus.writeReg_readReg h.mstatus]
  rw [hc]
  refine (coherent_iff_of_splice (w := .ustatus) (fun _ hn => value_of_storage_ne hn) rfl
    (Mstatus.readReg_writeReg _) (ustatusReadReg_writeReg _) (Mstatus.readReg_and h.mstatus)
    (by decide) (by decide) (by decide) (by decide) (by decide)).trans ?_
  -- the source of `UPIE` is not a stray bit
  have hs : ustatusSource v &&& View.stray .ustatus = v &&& View.stray .ustatus :=
    splice_and_of_disjoint (by decide) v (v >>> 1)
  rw [hs]
  exact and_congr_right fun _ => ⟨fun hx _ => (ustatusSource_bits v).mp hx,
    fun hx => (ustatusSource_bits v).mpr (hx rfl)⟩

theorem coherent_sie_iff {c : Csrs} (h : c.InWidth) (v : Word) :
    Coherent .sie v c { c with mie := Mie.writeReg v } ↔ View.Faithful .sie v c := by
  have hv : ({ c with mie := Mie.writeReg v } : Csrs).value .mie =
      splice c.mie.readReg v interruptMask &&& interruptMask := by
    rw [splice_and_self]
    exact Mie.readReg_writeReg v
  have ho (n : CsrName) (hn : n.storage ≠ .mie) :
      ({ c with mie := Mie.writeReg v } : Csrs).value n = c.value n := by
    cases n <;> first | exact absurd rfl hn | rfl
  refine (coherent_iff_of_splice (w := .sie) ho rfl hv hv (Mie.readReg_and h.mie)
    (by decide) (by decide) (by decide) (by decide) (by decide)).trans ?_
  exact ⟨fun hx => ⟨hx.1, nofun⟩, fun hx => ⟨hx.1, rfl⟩⟩

theorem coherent_sip_iff {c : Csrs} (h : c.InWidth) (v : Word) :
    Coherent .sip v c { c with mip := Mip.writeReg v } ↔ View.Faithful .sip v c := by
  have hv : ({ c with mip := Mip.writeReg v } : Csrs).value .mip =
      splice c.mip.readReg v interruptMask &&& interruptMask := by
    rw [splice_and_self]
    exact Mip.readReg_writeReg v
  have ho (n : CsrName) (hn : n.storage ≠ .mip) :
      ({ c with mip := Mip.writeReg v } : Csrs).value n = c.value n := by
    cases n <;> first | exact absurd rfl hn | rfl
  refine (coherent_iff_of_splice (w := .sip) ho rfl hv hv (Mip.readReg_and h.mip)
    (by decide) (by decide) (by decide) (by decide) (by decide)).trans ?_
  exact ⟨fun hx => ⟨hx.1, nofun⟩, fun hx => ⟨hx.1, rfl⟩⟩

theorem csrWrite_iff {c d : Csrs} {n : CsrName} {v : Word} {P : Csrs → Prop}
    (h : c.assign v n = some d) : (∃ c', csrWrite n.addr v c = some c' ∧ P c') ↔ P d := by
  have hw : csrWrite n.addr v c = some d := by
    rw [csrWrite, CsrName.ofAddr_addr]
    exact h
  simp only [hw, Option.some.injEq, exists_eq_left']

theorem coherent_iff {c : Csrs} (h : c.InWidth) (w : View) (v : Word) :
    (∃ c', csrWrite w.name.addr v c = some c' ∧ Coherent w v c c') ↔ w.Faithful v c := by
  cases w with
  | sstatus => exact (csrWrite_iff rfl).trans (coherent_sstatus_iff h v)
  | ustatus => exact (csrWrite_iff rfl).trans (coherent_ustatus_iff h v)
  | sie => exact (csrWrite_iff rfl).trans (coherent_sie_iff h v)
  | sip => exact (csrWrite_iff rfl).trans (coherent_sip_iff h v)

open Runs

/-- In every reachable state, a write through a view is coherent with the full register exactly when it
repeats the bits above the privilege of the view, and its two candidates for `UPIE` agree. -/
theorem views_coherent_iff {image : Memory} {time : Word} {is : List Input}
    (h : Run Next (boot image time) is s) (w : View) (v : Word) :
    (∃ c', csrWrite w.name.addr v s.csr = some c' ∧ Coherent w v s.csr c') ↔
      w.Faithful v s.csr :=
  coherent_iff (inWidth_of_reachable h) w v

theorem views_coherent_sstatus :
    ∃ c', csrWrite CsrName.sstatus.addr 0x100 (boot (fun _ => 0) 0).csr = some c' ∧
      Coherent .sstatus 0x100 (boot (fun _ => 0) 0).csr c' :=
  (views_coherent_iff .start .sstatus 0x100).mpr ⟨rfl, nofun⟩

/-- Through `sie`, which `MIDELEG` does not restrict, the machine external interrupt is enabled. -/
theorem views_not_coherent :
    ¬ ∀ (image : Memory) (time : Word) (is : List Input) (s : State) (w : View) (v : Word),
      Run Next (boot image time) is s →
        ∃ c', csrWrite w.name.addr v s.csr = some c' ∧ Coherent w v s.csr c' := by
  intro h
  have hc := (coherent_iff (inWidth_boot (fun _ => 0) 0) .sie 0x800).mp (h _ _ _ _ _ _ .start)
  exact absurd hc.1 (by decide)

end RiscvEmu
