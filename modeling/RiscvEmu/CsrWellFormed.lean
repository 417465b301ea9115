import RiscvEmu.Control
import RiscvEmu.CsrInstructions

/-! Well-formedness of the control and status registers: every field stays within its width, and
`mstatus.SD` follows `mstatus.FS`. -/

namespace RiscvEmu

variable {inp : Input} {ins : Word} {s : State}

structure Mstatus.InWidth (m : Mstatus) : Prop where
  uie : m.uie ≤ 1
  sie : m.sie ≤ 1
  mie : m.mie ≤ 1
  upie : m.upie ≤ 1
  spie : m.spie ≤ 1
  mpie : m.mpie ≤ 1
  spp : m.spp ≤ 1
  mpp : m.mpp ≤ 3
  fs : m.fs ≤ 3
  xs : m.xs ≤ 3
  mprv : m.mprv ≤ 1
  sum : m.sum ≤ 1
  mxr : m.mxr ≤ 1
  tvm : m.tvm ≤ 1
  tw : m.tw ≤ 1
  tsr : m.tsr ≤ 1
  uxl : m.uxl ≤ 3
  sxl : m.sxl ≤ 3
  sd : m.sd ≤ 1

structure Mip.InWidth (p : Mip) : Prop where
  meip : p.meip ≤ 1
  seip : p.seip ≤ 1
  ueip : p.ueip ≤ 1
  mtip : p.mtip ≤ 1
  stip : p.stip ≤ 1
  utip : p.utip ≤ 1
  msip : p.msip ≤ 1
  ssip : p.ssip ≤ 1
  usip : p.usip ≤ 1

structure Mie.InWidth (e : Mie) : Prop where
  meie : e.meie ≤ 1
  seie : e.seie ≤ 1
  ueie : e.ueie ≤ 1
  mtie : e.mtie ≤ 1
  stie : e.stie ≤ 1
  utie : e.utie ≤ 1
  msie : e.msie ≤ 1
  ssie : e.ssie ≤ 1
  usie : e.usie ≤ 1

structure Tvec.InWidth (t : Tvec) : Prop where
  mode : t.mode ≤ 3
  base : t.base.toNat % 4 = 0

structure Cause.InWidth (c : Cause) : Prop where
  interrupt : c.interrupt ≤ 1
  ecode : c.ecode.toNat < 2 ^ 63

structure Satp.InWidth (s : Satp) : Prop where
  ppn : s.ppn.toNat < 2 ^ 44
  mode : s.mode ≤ 15

structure Csrs.InWidth (c : Csrs) : Prop where
  mstatus : c.mstatus.InWidth
  mip : c.mip.InWidth
  mie : c.mie.InWidth
  mtvec : c.mtvec.InWidth
  stvec : c.stvec.InWidth
  utvec : c.utvec.InWidth
  mcause : c.mcause.InWidth
  scause : c.scause.InWidth
  ucause : c.ucause.InWidth
  satp : c.satp.InWidth

/-! ### The unpacking functions -/

theorem bit1_le (v : Word) (i : ℕ) : bit1 v i ≤ 1 := by
  rcases bit1_cases v i with h | h <;> rw [h] <;> decide

theorem bit2_toNat (v : Word) (i : ℕ) : (bit2 v i).toNat = v.toNat / 2 ^ i % 4 := by
  have h := toNat_field v i 2 (by decide)
  rw [bit2, BitVec.toNat_setWidth, show (0b11 : Word) = BitVec.ofNat 64 (2 ^ 2 - 1) from rfl, h]
  omega

theorem bit2_le (v : Word) (i : ℕ) : bit2 v i ≤ 3 := by
  rw [BitVec.le_def, bit2_toNat]
  exact Nat.le_of_lt_succ (Nat.mod_lt _ (by decide))

theorem Mstatus.inWidth_writeReg (v : Word) : (Mstatus.writeReg v).InWidth := by
  constructor <;> first | exact bit1_le v _ | exact bit2_le v _

theorem inWidth_sstatusWriteReg {m : Mstatus} (h : m.InWidth) (v : Word) :
    (sstatusWriteReg m v).InWidth := by
  constructor
  case mie => exact h.mie
  case mpie => exact h.mpie
  case mpp => exact h.mpp
  case mprv => exact h.mprv
  case tvm => exact h.tvm
  case tw => exact h.tw
  case tsr => exact h.tsr
  case sxl => exact h.sxl
  all_goals first | exact bit1_le v _ | exact bit2_le v _

theorem inWidth_ustatusWriteReg {m : Mstatus} (h : m.InWidth) (v : Word) :
    (ustatusWriteReg m v).InWidth := by
  constructor
  case sie => exact h.sie
  case mie => exact h.mie
  case spie => exact h.spie
  case mpie => exact h.mpie
  case spp => exact h.spp
  case mpp => exact h.mpp
  case mprv => exact h.mprv
  case tvm => exact h.tvm
  case tw => exact h.tw
  case tsr => exact h.tsr
  case sxl => exact h.sxl
  all_goals first | exact bit1_le v _ | exact bit2_le v _

theorem Mip.inWidth_writeReg (v : Word) : (Mip.writeReg v).InWidth := by
  constructor <;> exact bit1_le v _

theorem Mie.inWidth_writeReg (v : Word) : (Mie.writeReg v).InWidth := by
  constructor <;> exact bit1_le v _

theorem toNat_byte_field (v : Word) (i k : ℕ) (hk : k ≤ 8) :
    (((v >>> i) &&& BitVec.ofNat 64 (2 ^ k - 1)).setWidth 8).toNat = v.toNat / 2 ^ i % 2 ^ k := by
  rw [BitVec.toNat_setWidth, toNat_field v i k (by omega)]
  apply Nat.mod_eq_of_lt
  exact lt_of_lt_of_le (Nat.mod_lt _ (Nat.two_pow_pos k)) (Nat.pow_le_pow_right (by decide) hk)

theorem toNat_and_three (v : Word) : (v &&& 3).toNat = v.toNat % 4 :=
  Nat.and_two_pow_sub_one_eq_mod _ 2

theorem Tvec.inWidth_writeReg (v : Word) : (Tvec.writeReg v).InWidth := by
  constructor
  · have h := toNat_byte_field v 0 2 (by decide)
    rw [BitVec.ushiftRight_zero] at h
    exact BitVec.le_def.mpr (h.trans_le (Nat.le_of_lt_succ (Nat.mod_lt _ (by decide))))
  · have hmask : (v &&& (mask64 - 0b11)) &&& 3 = 0 := by
      rw [BitVec.and_assoc, show (mask64 - 0b11) &&& (3 : Word) = 0#64 by decide]
      exact BitVec.and_zero
    have h := toNat_and_three (v &&& (mask64 - 0b11))
    rw [hmask] at h
    exact h.symm

theorem Cause.inWidth_writeReg (v : Word) : (Cause.writeReg v).InWidth := by
  constructor
  · exact bit1_le v 63
  · exact Nat.lt_succ_of_le Nat.and_le_right

theorem Satp.inWidth_writeReg (v : Word) : (Satp.writeReg v).InWidth := by
  constructor
  · exact Nat.lt_succ_of_le Nat.and_le_right
  · have h := toNat_byte_field v 60 4 (by decide)
    exact BitVec.le_def.mpr (h.trans_le (Nat.le_of_lt_succ (Nat.mod_lt _ (by decide))))

/-! ### The invariant -/

theorem inWidth_assign {c c' : Csrs} {n : CsrName} {v : Word} (h : c.InWidth)
    (hc : c.assign v n = some c') : c'.InWidth := by
  cases n with
  | mstatus =>
    cases hc
    exact { h with mstatus := Mstatus.inWidth_writeReg v }
  | sstatus =>
    cases hc
    exact { h with mstatus := inWidth_sstatusWriteReg h.mstatus v }
  | ustatus =>
    cases hc
    exact { h with mstatus := inWidth_ustatusWriteReg h.mstatus v }
  | mtvec =>
    cases hc
    exact { h with mtvec := Tvec.inWidth_writeReg v }
  | stvec =>
    cases hc
    exact { h with stvec := Tvec.inWidth_writeReg v }
  | utvec =>
    cases hc
    exact { h with utvec := Tvec.inWidth_writeReg v }
  | mcause =>
    cases hc
    exact { h with mcause := Cause.inWidth_writeReg v }
  | scause =>
    cases hc
    exact { h with scause := Cause.inWidth_writeReg v }
  | ucause =>
    cases hc
    exact { h with ucause := Cause.inWidth_writeReg v }
  | satp =>
    cases hc
    exact { h with satp := Satp.inWidth_writeReg v }
  | mip =>
    cases hc
    exact { h with mip := Mip.inWidth_writeReg v }
  | sip =>
    cases hc
    exact { h with mip := Mip.inWidth_writeReg v }
  | mie =>
    cases hc
    exact { h with mie := Mie.inWidth_writeReg v }
  | sie =>
    cases hc
    exact { h with mie := Mie.inWidth_writeReg v }
  | cycle => cases hc
  | _ =>
    cases hc
    exact { h with }

theorem inWidth_enter {m : Machine} {h : Plevel} {b : Bool} {i : Byte} {ecode : Word}
    (epc pc : Word) (ht : trapModeSelect ecode b m.cp m.csr = some h) (hh : h.handles) (hi : i ≤ 1)
    (he : ecode ≤ 15) (hw : m.csr.InWidth) : (enter h i ecode epc pc m).csr.InWidth := by
  have hcause : Cause.InWidth ⟨i, ecode⟩ :=
    ⟨hi, lt_of_le_of_lt (BitVec.le_def.mp he) (by decide)⟩
  have hcode : m.cp.code ≤ 3 := by
    generalize m.cp = cp
    cases cp <;> decide
  rcases hh with rfl | rfl
  · have hspp : m.cp.code ≤ 1 := by
      generalize m.cp = cp at ht
      cases cp with
      | umode => decide
      | smode => decide
      | hmode => cases ht
      | mmode => cases ht
    exact { hw with
      mstatus := { hw.mstatus with
        mpp := hcode
        spp := hspp
        spie := hw.mstatus.sie
        sie := show (0 : Byte) ≤ 1 by decide }
      scause := hcause }
  · exact { hw with
      mstatus := { hw.mstatus with
        mpp := hcode
        mpie := hw.mstatus.mie
        mie := show (0 : Byte) ≤ 1 by decide }
      mcause := hcause }

theorem inWidth_control (inp : Input) (s : State) :
    ControlInvariant inp s fun m => m.csr.InWidth where
  frame h _ hc := hc ▸ h
  tick h := { h with }
  tval _ _ _ h := { h with }
  seip b hb h := { h with mip := { h.mip with seip := hb } }
  stip b hb h := { h with mip := { h.mip with stip := hb } }
  sd b hb h := { h with mstatus := { h.mstatus with sd := hb } }
  assign _ _ _ _ hc h := inWidth_assign h hc
  enter epc pc ht hh hi he h := inWidth_enter epc pc ht hh hi he h
  mret _ _ h := { h with
    mstatus := { h.mstatus with
      mie := show (1 : Byte) ≤ 1 by decide
      mpp := show (0b00 : Byte) ≤ 3 by decide
      mpie := show (0 : Byte) ≤ 1 by decide } }
  sret _ _ h := { h with
    mstatus := { h.mstatus with
      spp := show (0b0 : Byte) ≤ 1 by decide
      sie := h.mstatus.spie
      spie := show (1 : Byte) ≤ 1 by decide } }

theorem Mstatus.inWidth_initial : ({ Mstatus.initial with fs := 1 } : Mstatus).InWidth := by
  constructor <;> decide

theorem inWidth_boot (image : Memory) (time : Word) : (boot image time).csr.InWidth where
  mstatus := Mstatus.inWidth_initial
  mip := by constructor <;> exact (by decide : (0 : Byte) ≤ 1)
  mie := by constructor <;> exact (by decide : (0 : Byte) ≤ 1)
  mtvec := Tvec.inWidth_writeReg 0
  stvec := Tvec.inWidth_writeReg 0
  utvec := Tvec.inWidth_writeReg 0
  mcause := Cause.inWidth_writeReg 0
  scause := Cause.inWidth_writeReg 0
  ucause := Cause.inWidth_writeReg 0
  satp := Satp.inWidth_writeReg 0

section

open Runs

theorem inWidth_of_run {guard : Input → State → Prop} {image : Memory} {time : Word}
    {is : List Input} (h : Run (Guarded guard Next) (boot image time) is s) : s.csr.InWidth :=
  control_of_run (P := fun m => m.csr.InWidth) (fun inp s _ _ => inWidth_control inp s)
    (inWidth_boot image time) h

theorem inWidth_of_reachable {image : Memory} {time : Word} {is : List Input}
    (h : Run Next (boot image time) is s) : s.csr.InWidth :=
  @inWidth_of_run _ (fun _ _ => True) _ _ _ (h.mono fun _ _ _ hn => ⟨trivial, hn⟩)

end

/-! ### The privilege -/

structure Defined (m : Machine) : Prop where
  cp : m.cp ≠ .hmode
  csr : m.csr.InWidth

theorem ofByte_ne_hmode {x : Byte} (h : x ≤ 3) (h2 : x ≠ 2) : Plevel.ofByte x ≠ .hmode := by
  have hx : x.toNat ≤ 3 := BitVec.le_def.mp h
  have hx2 : x.toNat ≠ 2 := fun he => h2 (BitVec.eq_of_toNat_eq he)
  obtain he | he | he : x = 0 ∨ x = 1 ∨ x = 3 := by
    simp only [← BitVec.toNat_inj]
    show x.toNat = 0 ∨ x.toNat = 1 ∨ x.toNat = 3
    omega
  · rw [he]
    decide
  · rw [he]
    decide
  · rw [he]
    decide

/-- The step executes no `mret` while `MPP` is reserved. -/
def ReturnsDefined (inp : Input) (s : State) : Prop :=
  ∀ ins ∈ (fetch (tick inp s.toMachine)).word?, IsMret ins → s.csr.mstatus.mpp ≠ 2

instance (inp : Input) (s : State) : Decidable (ReturnsDefined inp s) :=
  haveI := Option.decidableForallMem (fetch (tick inp s.toMachine)).word?
    (p := fun ins => IsMret ins → s.csr.mstatus.mpp ≠ 2)
  inferInstanceAs (Decidable (∀ _ ∈ _, _))

theorem defined_control (hr : ReturnsDefined inp s) : ControlInvariant inp s Defined where
  frame h hcp hc := ⟨hcp ▸ h.cp, hc ▸ h.csr⟩
  tick h := ⟨h.cp, (inWidth_control inp s).tick h.csr⟩
  tval a b c h := ⟨h.cp, (inWidth_control inp s).tval a b c h.csr⟩
  seip b hb h := ⟨h.cp, (inWidth_control inp s).seip b hb h.csr⟩
  stip b hb h := ⟨h.cp, (inWidth_control inp s).stip b hb h.csr⟩
  sd b hb h := ⟨h.cp, (inWidth_control inp s).sd b hb h.csr⟩
  assign hf ho ha hn hc h := ⟨h.cp, (inWidth_control inp s).assign hf ho ha hn hc h.csr⟩
  enter epc pc ht hh hi he h := by
    refine ⟨?_, inWidth_enter epc pc ht hh hi he h.csr⟩
    rw [enter_cp _ _ _ _ _ hh]
    rcases hh with rfl | rfl <;> decide
  mret hf hi h :=
    ⟨ofByte_ne_hmode h.csr.mstatus.mpp (hr _ (mem_word?.mpr hf) hi),
      (inWidth_control inp s).mret hf hi h.csr⟩
  sret hf hi h := by
    have hle : s.csr.mstatus.spp ≤ 1 := h.csr.mstatus.spp
    refine ⟨ofByte_ne_hmode (x := s.csr.mstatus.spp) ?_ ?_,
      (inWidth_control inp s).sret hf hi h.csr⟩
    · exact BitVec.le_trans hle (by decide)
    · rintro h2
      rw [h2] at hle
      exact absurd hle (by decide)

theorem defined_boot (image : Memory) (time : Word) : Defined (boot image time).toMachine :=
  ⟨nofun, inWidth_boot image time⟩

/-! ### `MPP` and `SD` -/

def KeepsMpp (inp : Input) (s : State) : Prop :=
  s.cp = .mmode → ∀ ins ∈ (fetch (tick inp s.toMachine)).word?, IsCsr ins →
    imm11_0 ins = CsrName.mstatus.addr →
    bit2 (csrOperand ins (switchMachine inp s) ((switchMachine inp s).csr.value .mstatus)) 11 ≠ 2

instance (inp : Input) (s : State) : Decidable (KeepsMpp inp s) :=
  haveI := Option.decidableForallMem (fetch (tick inp s.toMachine)).word?
    (p := fun ins => IsCsr ins → imm11_0 ins = CsrName.mstatus.addr →
      bit2 (csrOperand ins (switchMachine inp s) ((switchMachine inp s).csr.value .mstatus)) 11 ≠ 2)
  inferInstanceAs (Decidable (_ → ∀ _ ∈ _, _))

structure MppDefined (m : Machine) : Prop extends Defined m where
  mpp : m.csr.mstatus.mpp ≠ 2

theorem mpp_assign {c c' : Csrs} {n : CsrName} {v : Word} (hc : c.assign v n = some c') :
    c'.mstatus.mpp = if n = .mstatus then bit2 v 11 else c.mstatus.mpp := by
  cases n <;> cases hc <;> rfl

theorem code_ne_two {cp : Plevel} (h : cp ≠ .hmode) : cp.code ≠ 2 := by
  cases cp with
  | umode => decide
  | smode => decide
  | hmode => exact absurd rfl h
  | mmode => decide

theorem mppDefined_control (hs : MppDefined s.toMachine) (hk : KeepsMpp inp s) :
    ControlInvariant inp s MppDefined :=
  have hd := @defined_control inp s fun _ _ _ => hs.mpp
  { frame := fun h hcp hc => ⟨hd.frame h.1 hcp hc, hc ▸ h.mpp⟩
    tick := fun h => ⟨hd.tick h.1, h.mpp⟩
    tval := fun a b c h => ⟨hd.tval a b c h.1, h.mpp⟩
    seip := fun b hb h => ⟨hd.seip b hb h.1, h.mpp⟩
    stip := fun b hb h => ⟨hd.stip b hb h.1, h.mpp⟩
    sd := fun b hb h => ⟨hd.sd b hb h.1, h.mpp⟩
    assign := fun {_ n _} hf ho ha hn hc h => by
      refine ⟨hd.assign hf ho ha hn hc h.1, ?_⟩
      have hmpp := mpp_assign hc
      by_cases he : n = .mstatus
      · rw [if_pos he] at hmpp
        subst he
        have hcp : s.cp = .mmode := of_decide_eq_true hn
        intro h2
        exact hk hcp _ (mem_word?.mpr hf) ho ha.symm (hmpp.symm.trans h2)
      · rw [if_neg he] at hmpp
        exact fun h2 => h.mpp (hmpp.symm.trans h2)
    enter := fun epc pc ht hh hi he h => by
      refine ⟨hd.enter epc pc ht hh hi he h.1, ?_⟩
      rcases hh with rfl | rfl <;> exact code_ne_two h.cp
    mret := fun hf hi h => ⟨hd.mret hf hi h.1, show (0b00 : Byte) ≠ 2 by decide⟩
    sret := fun hf hi h => ⟨hd.sret hf hi h.1, h.mpp⟩ }

def SdFollows (c : Csrs) : Prop := c.mstatus.sd = 1 ↔ c.mstatus.fs = 3

theorem sdFollows_refresh (m : Machine) : SdFollows (refresh m).csr := by
  show (if m.csr.mstatus.fs = 3 then (1 : Byte) else 0) = 1 ↔ m.csr.mstatus.fs = 3
  split
  · rename_i h
    exact ⟨fun _ => h, fun _ => rfl⟩
  · rename_i h
    exact ⟨fun h0 => absurd h0 (by decide), fun hfs => absurd hfs h⟩

/-- The iterations that leave by `continue` do not recompute `SD`, and do not change `FS`. -/
theorem sdFollows_turn {m : Machine} (ht : Turn inp s m) (h : SdFollows s.csr) :
    SdFollows m.csr := by
  cases ht with
  | fetchFault k hk _ => rcases hk with rfl | rfl <;> exact h
  | cont ins m _ hc =>
    cases hc with
    | fence => exact h
    | fault k e va hk _ _ => rcases hk with rfl | rfl <;> exact h
  | fall s' ins m _ _ _ hs =>
    have hr := sdFollows_refresh s'.toMachine
    cases hs with
    | none => exact hr
    | declined => exact hr
    | interrupt e k _ _ _ _ hk => rcases hk with rfl | rfl <;> exact hr
    | exception e k f _ _ _ hk => rcases hk with rfl | rfl <;> exact hr

structure Csrs.WellFormed (c : Csrs) : Prop extends c.InWidth where
  mpp : c.mstatus.mpp = 0 ∨ c.mstatus.mpp = 1 ∨ c.mstatus.mpp = 3
  sd : c.mstatus.sd = 1 ↔ c.mstatus.fs = 3

open Runs

/-- Every register is well formed at the top of every iteration, whatever is executed. -/
theorem csrs_well_formed {image : Memory} {time : Word} {is : List Input}
    (h : Run (Guarded KeepsMpp Next) (boot image time) is s) : s.csr.WellFormed := by
  have hm : MppDefined s.toMachine :=
    control_of_run (fun _ _ hk hs => mppDefined_control hs hk)
      ⟨defined_boot image time, show (0b0 : Byte) ≠ 2 by decide⟩ h
  have hsd : SdFollows s.csr :=
    Run.invariant (P := fun s => SdFollows s.csr) (s := boot image time)
      (by decide : (0 : Byte) = 1 ↔ (1 : Byte) = 3)
      (fun _ _ _ hs hn => sdFollows_turn (next_turn hn.2) hs) h
  refine { hm.csr with mpp := ?_, sd := hsd }
  have hle := BitVec.le_def.mp hm.csr.mstatus.mpp
  have hne : s.csr.mstatus.mpp.toNat ≠ 2 := fun he => hm.mpp (BitVec.eq_of_toNat_eq he)
  simp only [← BitVec.toNat_inj]
  show _ = 0 ∨ _ = 1 ∨ _ = 3
  have hle' : s.csr.mstatus.mpp.toNat ≤ 3 := hle
  omega

def dirtyProgram : List Word := [0x000060b7, 0x30009073]

theorem csrs_well_formed_dirty :
    ∃ s : State, s.csr.mstatus.fs = 3 ∧ s.csr.mstatus.sd = 1 ∧ s.csr.WellFormed := by
  obtain ⟨s, hr, hs⟩ := exists_guarded_run KeepsMpp (boot (imageOf dirtyProgram) 0)
    (List.replicate 2 (quiet 0)) (fun s => decide (s.csr.mstatus.fs = 3)) (by decide +kernel)
  have hfs := of_decide_eq_true hs
  have hw := csrs_well_formed hr
  exact ⟨s, hfs, hw.sd.mpr hfs, hw⟩

/-! ### Trap entry always finds a mode -/

/-- The mode is U, S or M, and both trap functions find a handling mode for it. -/
structure ModeFound (cp : Plevel) : Prop where
  mode : cp = .umode ∨ cp = .smode ∨ cp = .mmode
  select : ∀ cause interrupt c, ∃ h : Plevel, h ≠ .hmode ∧
    trapModeSelect cause interrupt cp c = some h
  excep : ∀ pc me se ue m m', excepFunction pc me se ue cp m ≠ .stop .undefined m'

theorem modeFound_of_ne {cp : Plevel} (h : cp ≠ .hmode) : ModeFound cp := by
  have hsel (cause : Word) (interrupt : Bool) (c : Csrs) :
      ∃ k : Plevel, k ≠ .hmode ∧ trapModeSelect cause interrupt cp c = some k := by
    cases hm : trapModeSelect cause interrupt cp c with
    | some k => exact ⟨k, fun hk => trapModeSelect_ne_hmode cause interrupt cp c (hk ▸ hm), rfl⟩
    | none =>
      cases cp with
      | umode => cases hm
      | smode => cases hm
      | hmode => exact absurd rfl h
      | mmode => cases hm
  refine ⟨?_, hsel, ?_⟩
  · cases cp with
    | umode => exact .inl rfl
    | smode => exact .inr (.inl rfl)
    | hmode => exact absurd rfl h
    | mmode => exact .inr (.inr rfl)
  · intro pc me se ue m m' he
    obtain ⟨k, -, hk⟩ := hsel (modeCode me se ue cp) false m.csr
    unfold excepFunction at he
    dsimp only at he
    rw [hk] at he
    cases k <;> cases he

/-- In a run that executes no `mret` while `MPP` is reserved, the privilege is a defined mode at the
top of every iteration and where the next one selects its trap. -/
theorem privilege_defined {image : Memory} {time : Word} {is : List Input}
    (h : Run (Guarded ReturnsDefined Next) (boot image time) is s) :
    ModeFound s.cp ∧ ∀ inp, ReturnsDefined inp s → ∀ s' ∈ atLoopEnd inp s, ModeFound s'.cp := by
  have hd : Defined s.toMachine :=
    control_of_run (fun _ _ hr _ => defined_control hr) (defined_boot image time) h
  refine ⟨modeFound_of_ne hd.cp, fun inp hr s' hs' => ?_⟩
  obtain ⟨ins, hf, he⟩ := atLoopEnd_effect hs'
  have hc := defined_control hr
  exact modeFound_of_ne (hc.effect hf he (hc.frame (hc.tick hd) rfl rfl)).cp

/-- `auipc x1, 0`; `addi x1, x1, 16`; `csrrw x0, mepc, x1`; `mret` into user mode. -/
def returnProgram : List Word := [0x00000097, 0x01008093, 0x34109073, 0x30200073]

theorem privilege_defined_umode : ∃ s : State, s.cp = .umode ∧ ModeFound s.cp := by
  obtain ⟨s, hr, hs⟩ := exists_guarded_run ReturnsDefined (boot (imageOf returnProgram) 0)
    (List.replicate 4 (quiet 0)) (fun s => decide (s.cp = .umode)) (by decide +kernel)
  exact ⟨s, of_decide_eq_true hs, (privilege_defined hr).1⟩

def reservedProgram : List Word := [0x000010b7, 0x30009073, 0x30200073]

theorem privilege_not_defined :
    ¬ ∀ (image : Memory) (time : Word) (is : List Input) (s : State),
      Run Next (boot image time) is s → ModeFound s.cp := by
  intro h
  obtain ⟨s, hr, hs⟩ := exists_run (boot (imageOf reservedProgram) 0) (List.replicate 3 (quiet 0))
    (fun s => decide (s.cp = .hmode)) (by decide +kernel)
  have hm := (h _ _ _ _ hr).mode
  rw [of_decide_eq_true hs] at hm
  rcases hm with hm | hm | hm <;> cases hm

end RiscvEmu
