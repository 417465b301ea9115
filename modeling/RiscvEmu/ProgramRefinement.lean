import RiscvEmu.BinaryLoading
import RiscvEmu.MemoryView

/-! Programs on physical addresses. While a program keeps to what the emulator supports, the loop goes
through the states of the RV64IMA machine, whatever the clock, the keyboard and the devices do. -/

namespace RiscvEmu

open Bytes Rv64ima Runs

/-! ### What is supported -/

/-- `load_addr_phy > DRAM_BASE` -/
def AmoAccessible (len : AtomicWidth) (a : Word) : Prop := InRam ramSize a len.size ∧ a ≠ dramBase

instance (len : AtomicWidth) (a : Word) : Decidable (AmoAccessible len a) :=
  inferInstanceAs (Decidable (_ ∧ _))

/-- The data accesses and the divisions that the emulator carries out as the architecture does. -/
def Accessible (i : Instr) (h : Rv64i.Hart) : Prop :=
  match i with
  | .load o _ rs1 imm =>
    InRam ramSize (address h rs1 imm) o.size ∧ address h rs1 imm ∉ Path.load.console
  -- the bound of the store arm is not that of the vector
  | .store o rs1 _ imm => InRam (2 ^ 28) (address h rs1 imm) o.size
  | .mul o _ rs1 rs2 => o.funct3 = MulOp.div.funct3 → ¬ (h.read rs2 = -1 ∧ TakenForMin (h.read rs1))
  | .lr len _ _ rs1 | .sc len _ _ rs1 _ | .rmw _ len _ _ rs1 _ => AmoAccessible len (h.read rs1)
  | _ => True

instance (i : Instr) (h : Rv64i.Hart) : Decidable (Accessible i h) :=
  match i with
  | .load .. => inferInstanceAs (Decidable (_ ∧ _))
  | .store .. => inferInstanceAs (Decidable (InRam ..))
  | .mul .. => inferInstanceAs (Decidable (_ → ¬ (_ ∧ _)))
  | .lr .. | .sc .. | .rmw .. => inferInstanceAs (Decidable (AmoAccessible ..))
  | .base _ | .fence .. | .fenceI .. | .mulW .. | .csr .. | .privileged _ | .sfenceVma .. =>
    .isTrue trivial

/-- A step of the architecture's machine that the emulator supports. It leaves the loop at an
instruction that goes to itself. -/
structure SupportedStep (i : Instr) (m m' : Rv64ima.Machine) : Prop where
  step : Rv64ima.Step i m m'
  fetch : InRam ramSize m.hart.pc 4
  accessible : Accessible i m.hart
  width : KeepsWidth i m.resv
  moves : m.hart.pc ≠ m'.hart.pc

/-! ### States -/

def Physical (c : Csrs) (cp : Plevel) : Prop :=
  c.satp.mode = 0 ∨ c.satp.mode = 8 ∧ cp = .mmode ∧ c.mstatus.mprv = 0

structure Realizes (s : State) (m : Rv64ima.Machine) : Prop where
  regs : ∀ r ≠ 0, s.regFile r = m.hart.x r
  pc : s.pc = m.hart.pc
  mem : s.mem.Contains m.mem
  resv : s.resv.Shows m.resv
  aligned : Aligned s.pc
  physical : Physical s.csr s.cp
  flags : s.flags = Flags.clear
  mie : s.csr.mie = Mie.initial

theorem Physical.translate {c : Csrs} {cp : Plevel} (h : Physical c cp) (mem : Memory) (va : Word)
    (ty : Ttype) : translate c mem va ty cp = .ok va := by
  rcases h with h0 | ⟨h8, hm⟩
  · exact translate_bare h0 va
  · exact translate_machine h8 hm va

/-! ### The view -/

def physicalView : MemoryView where
  Env := Physical
  Shows := Memory.Contains
  Grants _ a n := InRam ramSize a n
  phys a := a
  env_of_eq hs hm h := by
    unfold Physical at h ⊢
    rwa [hs, hm]
  translated he _ _ := he.translate _ _ _
  inRam h := h
  bytes hm hr _ hi := hm.byte_at hr hi
  put hm hr h := hm.put hr h
  set_mtime v hm := hm.set_mtime v

theorem realizes_physicalView {s : State} {m : Rv64ima.Machine} :
    physicalView.Realizes s m ↔ Realizes s m :=
  ⟨fun h => ⟨h.regs, h.pc, h.mem, h.resv, h.aligned, h.env, h.flags, h.mie⟩,
    fun h => ⟨h.regs, h.pc, h.mem, h.resv, h.aligned, h.physical, h.flags, h.mie⟩⟩

theorem Accessible.physicalView {i : Instr} {h : Rv64i.Hart} (ha : Accessible i h) :
    RiscvEmu.physicalView.Accessible i h := by
  cases i with
  | store o rs1 rs2 imm =>
    have hb : InRam (2 ^ 28) (address h rs1 imm) o.size := ha
    refine ⟨⟨Nat.lt_trans hb.below (by decide), hb.fits, hb.timer⟩, hb.below, ?_⟩
    rw [mem_store_console]
    intro heq
    have hlt := hb.below
    rw [heq] at hlt
    exact absurd hlt (by decide)
  | base | load | fence | fenceI | mul | mulW | lr | sc | rmw | csr | privileged | sfenceVma =>
    exact ha

theorem SupportedStep.physicalView {i : Instr} {m m' : Rv64ima.Machine} (h : SupportedStep i m m') :
    RiscvEmu.physicalView.SupportedStep i m m' where
  step := h.step
  fetch := h.fetch
  nonzero h0 := by
    have hbase := (ramAddress_of_offset h.fetch.below).1
    rw [h0] at hbase
    exact absurd hbase (by decide)
  accessible := h.accessible.physicalView
  width := h.width
  moves := h.moves

/-! ### Programs -/

/-- A run of the architecture's machine, given by the instructions that it executes: from a state that
shows its start, the loop goes through as many iterations to a state that shows its end, whatever their
inputs are. -/
theorem program_refinement {s : State} {m m' : Rv64ima.Machine} {code : List Instr}
    (h : Run SupportedStep m code m') (hr : Realizes s m) (is : List Input)
    (hlen : is.length = code.length) : ∃ t, Run Next s is t ∧ Realizes t m' := by
  have hview : Run physicalView.SupportedStep m code m' := h.mono fun _ _ _ => (·.physicalView)
  obtain ⟨t, ht, hrt⟩ := (realizes_physicalView.mpr hr).runs hview is hlen
  exact ⟨t, ht, realizes_physicalView.mp hrt⟩

/-! ### From reset -/

def resetMachine (image : Memory) (time : Word) : Rv64ima.Machine :=
  ⟨⟨fun _ => 0, dramBase⟩, fun a => (boot image time).mem.byte (a - dramBase).toNat, none⟩

theorem realizes_boot (image : Memory) (time : Word) :
    Realizes (boot image time) (resetMachine image time) where
  regs _ _ := rfl
  pc := rfl
  mem := contains_byte _
  resv len _ := by cases len <;> exact iff_of_false (fun h => Bool.false_ne_true h.1) nofun
  aligned := show Aligned dramBase by decide
  physical := .inl rfl
  flags := rfl
  mie := rfl

def supportedStep? (i : Instr) (m : Rv64ima.Machine) : Option Rv64ima.Machine :=
  (exec i m).filter fun m' => decide (encode i = loadBytes m.mem m.hart.pc 4 ∧
    InRam ramSize m.hart.pc 4 ∧ Accessible i m.hart ∧ KeepsWidth i m.resv ∧
    m.hart.pc ≠ m'.hart.pc)

theorem supportedStep_of {i : Instr} {m m' : Rv64ima.Machine} (h : supportedStep? i m = some m') :
    SupportedStep i m m' := by
  obtain ⟨he, hd⟩ := Option.filter_eq_some_iff.mp h
  obtain ⟨hw, hf, ha, hk, hm⟩ := of_decide_eq_true hd
  exact ⟨⟨hw, he⟩, hf, ha, hk, hm⟩

/-- A doubleword is stored, doubled by an LR and an SC, loaded and multiplied. -/
def squareProgram : List Instr :=
  [.base (.auipc 1 0), .base (.opImm .addi 1 1 64), .base (.opImm .addi 2 0 7), .store .sd 1 2 0,
    .lr .d 0 3 1, .base (.op .add 3 3 2), .sc .d 0 6 1 3, .load .ld 4 1 0, .mul .mul 5 4 2]

theorem program_refinement_square : ∃ t,
    Run Next (boot (imageOf (squareProgram.map wordOf)) 0) (List.replicate 9 (quiet 0)) t ∧
      t.regFile 5 = 98 := by
  have hdrive : (drive supportedStep? squareProgram
      (resetMachine (imageOf (squareProgram.map wordOf)) 0)).any
        (fun m => decide (m.hart.x 5 = 98)) = true := by decide +kernel
  obtain ⟨m, hm, hx⟩ := exists_run_of_drive hdrive
  obtain ⟨t, ht, hrt⟩ := program_refinement (hm.mono fun _ _ _ => supportedStep_of)
    (realizes_boot _ _) (List.replicate 9 (quiet 0)) rfl
  exact ⟨t, ht, (hrt.regs 5 (by decide)).trans (of_decide_eq_true hx)⟩

/-! ### From an image -/

/-- The machine at reset with these bytes from `DRAM_BASE` on. The emulator has set `mtimecmp` to all
ones. -/
def loadedMachine (ram : ℕ → Byte) : Rv64ima.Machine where
  hart := ⟨fun _ => 0, dramBase⟩
  mem a :=
    if (a - dramBase).toNat / 8 = mtimecmpCell.val then 0xFF
    else ram (a - dramBase).toNat
  resv := none

def HexImage.machine (image : HexImage) : Rv64ima.Machine :=
  loadedMachine fun x => image.byte (image.base + x)

theorem realizes_loaded {ram : ℕ → Byte} {mem : Memory} (hm : mem.Holds ram) (time : Word) :
    Realizes (boot mem time) (loadedMachine ram) := by
  have hreset := realizes_boot mem time
  refine ⟨fun _ _ => rfl, rfl, fun x hx htime => ?_, hreset.resv, hreset.aligned, hreset.physical,
    rfl, rfl⟩
  have hones : ∀ k < 8, byte (-1 : Word) k = 0xFF := by decide
  have hx64 : x < 2 ^ 64 := Nat.lt_trans hx (by decide)
  have hoff : (dramBase + BitVec.ofNat 64 x - dramBase).toNat = x := by
    rw [BitVec.add_comm, BitVec.add_sub_cancel, BitVec.toNat_ofNat, Nat.mod_eq_of_lt hx64]
  unfold loadedMachine
  dsimp only
  rw [hoff]
  show byte (((mem.set mtimeCell 0).set mtimecmpCell (-1)) (ramCell x)) (x % 8) = _
  split
  · rename_i hcmp
    rw [(ramCell_eq hx).mpr hcmp, Memory.set_same]
    exact hones _ (Nat.mod_lt _ (by decide))
  · rename_i hcmp
    rw [Memory.set_of_ne _ (mt (ramCell_eq hx).mp hcmp),
      Memory.set_of_ne _ (mt (ramCell_eq hx).mp htime)]
    exact hm x hx

/-- An image whose bytes fit is converted and loaded, and from reset the loop goes through the run of
the architecture's machine that has the bytes of the image in memory. -/
theorem image_runs {image : HexImage} {file : List (List Char)} {code : List Instr}
    {m' : Rv64ima.Machine} (ht : image.Text file) (hs : image.SectionsFit) (hf : image.Fits)
    (h : Run SupportedStep image.machine code m') :
    ∃ lines mem, comp file = some lines ∧ loadText lines = some mem ∧
      ∀ (time : Word) (is : List Input), is.length = code.length →
        ∃ t, Run Next (boot mem time) is t ∧ Realizes t m' := by
  obtain ⟨texts, hold, hcomp⟩ := comp_fits ht hs hf
  obtain ⟨mem, hmem, hram⟩ := loadText_holds hold fun x hx => byte_beyond hf hx
  exact ⟨_, mem, hcomp, hmem, fun time is hlen =>
    program_refinement h (realizes_loaded hram time) is hlen⟩

/-- `addi x1, x0, 5`; and, in sections of their own, a `nop` at `0x80000008` and `addi x2, x1, 1` before
it. -/
def addiImage : HexImage :=
  ⟨0x80000000, [.data [0x93, 0x00, 0x50, 0x00], .address 0x80000008, .data [0x13, 0x00, 0x00, 0x00],
    .address 0x80000004, .data [0x13, 0x81, 0x10, 0x00]]⟩

def addiImageText : List (List Char) :=
  [['@', '8', '0', '0', '0', '0', '0', '0', '0', '\n'],
    ['9', '3', ' ', '0', '0', ' ', '5', '0', ' ', '0', '0', ' ', '\n'],
    ['@', '8', '0', '0', '0', '0', '0', '0', '8', '\n'],
    ['1', '3', ' ', '0', '0', ' ', '0', '0', ' ', '0', '0', ' ', '\n'],
    ['@', '8', '0', '0', '0', '0', '0', '0', '4', '\n'],
    ['1', '3', ' ', '8', '1', ' ', '1', '0', ' ', '0', '0', ' ', '\n']]

theorem addiImage_text : addiImage.Text addiImageText := by
  have address (d : Char) {a : ℕ}
      (hd : Hex.number? 0 ['8', '0', '0', '0', '0', '0', '0', d] = some a) :=
    lineText_of_digits hd (List.cons_ne_nil _ _)
  have word {a b c d e f g h : Char} {w x y z : Byte} (hw : Hex.number? 0 [a, b] = some w.toNat)
      (hx : Hex.number? 0 [c, d] = some x.toNat) (hy : Hex.number? 0 [e, f] = some y.toNat)
      (hz : Hex.number? 0 [g, h] = some z.toNat) : LineText (.data [w, x, y, z])
        [a, b, ' ', c, d, ' ', e, f, ' ', g, h, ' ', '\n'] := by
    refine .data (dataText_of_pairs (l := [([a, b], w), ([c, d], x), ([e, f], y), ([g, h], z)]) ?_)
    simp only [List.forall_mem_cons, List.not_mem_nil, false_implies, implies_true, and_true]
    exact ⟨⟨rfl, hw⟩, ⟨rfl, hx⟩, ⟨rfl, hy⟩, rfl, hz⟩
  exact .cons (address '0' (by decide)) (.cons (word (by decide) (by decide) (by decide) (by decide))
    (.cons (address '8' (by decide)) (.cons (word (by decide) (by decide) (by decide) (by decide))
      (.cons (address '4' (by decide))
        (.cons (word (by decide) (by decide) (by decide) (by decide)) .nil)))))

theorem image_runs_addi :
    ∃ lines mem, comp addiImageText = some lines ∧ loadText lines = some mem ∧
      ∃ t, Run Next (boot mem 0) [quiet 0, quiet 0] t ∧ t.regFile 2 = 6 := by
  have hdrive : (drive supportedStep? [.base (.opImm .addi 1 0 5), .base (.opImm .addi 2 1 1)]
      addiImage.machine).any (fun m => decide (m.hart.x 2 = 6)) = true := by decide +kernel
  have hs : addiImage.SectionsFit := by
    intro a ha
    have hmem : a = 0x80000008 ∨ a = 0x80000004 := by simpa [addiImage] using ha
    rcases hmem with rfl | rfl <;> decide
  have hf : addiImage.Fits := by
    unfold HexImage.Fits
    decide
  obtain ⟨m, hm, hx⟩ := exists_run_of_drive hdrive
  obtain ⟨lines, mem, hcomp, hmem, hruns⟩ :=
    image_runs addiImage_text hs hf (hm.mono fun _ _ _ => supportedStep_of)
  obtain ⟨t, ht, hrt⟩ := hruns 0 [quiet 0, quiet 0] rfl
  exact ⟨lines, mem, hcomp, hmem, t, ht, (hrt.regs 2 (by decide)).trans (of_decide_eq_true hx)⟩

/-! ### From a binary -/

/-- A binary that is no larger than the vector is converted and loaded, and from reset the loop goes
through the run of the architecture's machine that has the binary in memory. -/
theorem binary_runs {bin : List Byte} {code : List Instr} {m' : Rv64ima.Machine}
    (hsize : bin.length ≤ ramSize)
    (h : Run SupportedStep (loadedMachine fun x => bin.getD x 0) code m') :
    ∃ lines mem, bin2hex 32 bin = some lines ∧ loadText lines = some mem ∧
      ∀ (time : Word) (is : List Input), is.length = code.length →
        ∃ t, Run Next (boot mem time) is t ∧ Realizes t m' := by
  obtain ⟨mem, hmem, hold⟩ := loadText_convert hsize
  exact ⟨_, mem, rfl, hmem, fun time is hlen =>
    program_refinement h (realizes_loaded hold time) is hlen⟩

/-- `addi x1, x0, 5`, and the first half of `addi x2, x1, 1`. -/
def addiBinary : List Byte := [0x93, 0x00, 0x50, 0x00, 0x13, 0x81]

theorem binary_runs_addi :
    ∃ lines mem, bin2hex 32 addiBinary = some lines ∧ loadText lines = some mem ∧
      ∃ t, Run Next (boot mem 0) [quiet 0] t ∧ t.regFile 1 = 5 := by
  have hdrive : (drive supportedStep? [.base (.opImm .addi 1 0 5)]
      (loadedMachine fun x => addiBinary.getD x 0)).any (fun m => decide (m.hart.x 1 = 5)) = true := by
    decide +kernel
  obtain ⟨m, hm, hx⟩ := exists_run_of_drive hdrive
  obtain ⟨lines, mem, hlines, hmem, hruns⟩ :=
    binary_runs (show addiBinary.length ≤ ramSize by decide)
      (hm.mono fun _ _ _ => supportedStep_of)
  obtain ⟨t, ht, hrt⟩ := hruns 0 [quiet 0] rfl
  exact ⟨lines, mem, hlines, hmem, t, ht, (hrt.regs 1 (by decide)).trans (of_decide_eq_true hx)⟩

end RiscvEmu
