import RiscvEmu.MemoryView

/-! Programs below machine mode, in an address space that Sv39 page tables give them. The program sees
the pages that it has rights to as its memory; it cannot change anything else in RAM. -/

namespace RiscvEmu

open Bytes Rv64ima Runs Sv39

/-! ### What a walk reads -/

namespace Sv39

def indices (va : Word) : List (BitVec 16) := (levels (Sv39va.writeReg va)).map Level.vpn

def cellsFrom (mem : Memory) (page : Word) : List (BitVec 16) → List Cell
  | [] => []
  | vpn :: vpns =>
    match cell? (entryIndex page vpn) with
    | none => []
    | some c =>
      c :: if Invalid (mem c) ∨ Leaf (mem c) then []
        else cellsFrom mem (Sv39pte.writeReg (mem c)).ppn vpns

theorem leafFrom_congr {mem mem' : Memory} {page : Word} {vpns : List (BitVec 16)}
    (h : ∀ c ∈ cellsFrom mem page vpns, mem' c = mem c) :
    leafFrom mem' page vpns = leafFrom mem page vpns := by
  induction vpns generalizing page with
  | nil => rfl
  | cons vpn vpns ih =>
    unfold cellsFrom at h
    unfold leafFrom entry
    cases hc : cell? (entryIndex page vpn) with
    | none => rfl
    | some c =>
      rw [hc] at h
      dsimp only at h
      have hcell : mem' c = mem c := h c (List.mem_cons_self ..)
      simp only [Option.map_some]
      rw [hcell]
      by_cases hi : Invalid (mem c)
      · rw [if_pos hi, if_pos hi]
      by_cases hl : Leaf (mem c)
      · rw [if_neg hi, if_pos hl, if_neg hi, if_pos hl]
      · rw [if_neg (not_or.mpr ⟨hi, hl⟩)] at h
        rw [if_neg hi, if_neg hl, if_neg hi, if_neg hl]
        exact ih fun c hmem => h c (List.mem_cons_of_mem _ hmem)

end Sv39

/-! ### Pages -/

def pageOf (va : Word) : BitVec 52 := va.extractLsb' 12 52

def pageBase (p : BitVec 52) : Word := p ++ (0 : BitVec 12)

theorem toNat_pageOf (va : Word) : (pageOf va).toNat = va.toNat / 2 ^ 12 := by
  have hlt := va.isLt
  rw [pageOf, BitVec.extractLsb'_toNat, Nat.shiftRight_eq_div_pow]
  omega

theorem toNat_pageBase (p : BitVec 52) : (pageBase p).toNat = p.toNat * 2 ^ 12 :=
  (Words.toNat_append p (0 : BitVec 12)).trans (Nat.add_zero _)

theorem indices_page (va : Word) : indices (pageBase (pageOf va)) = indices va := by
  have hbase : (pageBase (pageOf va)).toNat = va.toNat / 2 ^ 12 * 2 ^ 12 := by
    rw [toNat_pageBase, toNat_pageOf]
  have h2 : (Sv39va.writeReg (pageBase (pageOf va))).vpn2 = (Sv39va.writeReg va).vpn2 := by
    refine BitVec.eq_of_toNat_eq ?_
    rw [vpn2_toNat, vpn2_toNat, hbase]
    omega
  have h1 : (Sv39va.writeReg (pageBase (pageOf va))).vpn1 = (Sv39va.writeReg va).vpn1 := by
    refine BitVec.eq_of_toNat_eq ?_
    rw [vpn1_toNat, vpn1_toNat, hbase]
    omega
  have h0 : (Sv39va.writeReg (pageBase (pageOf va))).vpn0 = (Sv39va.writeReg va).vpn0 := by
    refine BitVec.eq_of_toNat_eq ?_
    rw [vpn0_toNat, vpn0_toNat, hbase]
    omega
  show [_, _, _] = [_, _, _]
  rw [h2, h1, h0]

theorem leafAddress_page (va : Word) (k : ℕ) (w : Word) :
    leafAddress va k w = leafAddress (pageBase (pageOf va)) k w + va.toNat % 2 ^ 12 := by
  have hmod (x : ℕ) : x % 2 ^ (12 + 9 * k) = x % 2 ^ 12 + 2 ^ 12 * (x / 2 ^ 12 % 2 ^ (9 * k)) := by
    rw [Nat.pow_add, Nat.mod_mul]
  unfold leafAddress
  rw [hmod va.toNat, hmod (pageBase (pageOf va)).toNat, toNat_pageBase, toNat_pageOf,
    Nat.mul_mod_left, Nat.mul_div_cancel _ (by decide)]
  omega

/-! ### Address spaces -/

/-- The pages that a program has rights to, each in a frame of its own. `rest` is what RAM holds
outside of the pages that the program may write: the tables, whose entries are not in these pages. -/
structure AddressSpace where
  satp : Satp
  rest : Memory
  frame : BitVec 52 → BitVec 52
  rights : BitVec 52 → Ttype → Bool
  sv39 : satp.mode = 8
  injective : ∀ {p q : BitVec 52} {ty ty' : Ttype}, rights p ty = true → rights q ty' = true →
    frame p = frame q → p = q
  maps : ∀ {p : BitVec 52} {ty : Ttype}, rights p ty = true → ∃ k w,
    leafFrom rest satp.ppn (indices (pageBase p)) = some (k, w) ∧ ¬ Denied ty w ∧
      leafAddress (pageBase p) k w % 2 ^ 32 = (frame p).toNat * 2 ^ 12
  apart : ∀ {p : BitVec 52} {ty : Ttype} {c : Cell}, rights p ty = true →
    c ∈ cellsFrom rest satp.ppn (indices (pageBase p)) → c ≠ mtimeCell ∧
      ∀ q, rights q .stor = true → (frame q).toNat ≠ 2 ^ 19 + c.val / 2 ^ 9

namespace AddressSpace

variable (σ : AddressSpace)

def phys (va : Word) : Word := σ.frame (pageOf va) ++ va.extractLsb' 0 12

def Writable (c : Cell) : Prop :=
  ∃ q, σ.rights q .stor = true ∧ (σ.frame q).toNat = 2 ^ 19 + c.val / 2 ^ 9

/-- The vector has the memory that the program sees in the frames, and the rest as it was. The top of
the loop overwrites the doubleword of the time. -/
structure Shows (mem : Memory) (f : Word → Byte) : Prop where
  rest : ∀ c, c ≠ mtimeCell → ¬ σ.Writable c → mem c = σ.rest c
  bytes : ∀ {va : Word} {ty : Ttype}, σ.rights (pageOf va) ty = true →
    (σ.phys va - dramBase).toNat < ramSize →
    (σ.phys va - dramBase).toNat / 8 ≠ mtimeCell.val →
    mem.byte (σ.phys va - dramBase).toNat = f va

def Grants (ty : Ttype) (a : Word) (n : ℕ) : Prop :=
  σ.rights (pageOf a) ty = true ∧ InRam ramSize (σ.phys a) n

instance : Decidable (σ.Grants ty a n) := inferInstanceAs (Decidable (_ ∧ _))

variable {σ} {mem mem' : Memory} {f : Word → Byte} {ty : Ttype} {a : Word} {n : ℕ}

theorem toNat_phys (va : Word) :
    (σ.phys va).toNat = (σ.frame (pageOf va)).toNat * 2 ^ 12 + va.toNat % 2 ^ 12 := by
  have happ := Words.toNat_append (σ.frame (pageOf va)) (va.extractLsb' 0 12)
  rw [BitVec.extractLsb'_toNat, Nat.shiftRight_zero] at happ
  exact happ

/-! ### Translation -/

theorem translated {c : Csrs} {cp : Plevel} (hs : c.satp = σ.satp) (hcp : cp ≠ .mmode)
    (hmprv : c.mstatus.mprv = 0) (hm : σ.Shows mem f) (hg : σ.Grants ty a n) :
    translate c mem a ty cp = .ok (σ.phys a) := by
  have hbypass : ¬ Bypass c ty cp := by
    rintro (⟨h, -⟩ | ⟨h, -⟩ | ⟨h, -⟩)
    · exact hcp h
    · exact hcp h
    · rw [hmprv] at h
      exact absurd h (by decide)
  obtain ⟨k, w, hleaf, hdenied, haddr⟩ := σ.maps hg.1
  have hwalk : leaf c mem a = some (k, w) := by
    have hcongr := leafFrom_congr fun c hc =>
      hm.rest c (σ.apart hg.1 hc).1 fun ⟨q, hq, hframe⟩ => (σ.apart hg.1 hc).2 q hq hframe
    rw [indices_page, ← hs] at hcongr hleaf
    exact hcongr.trans hleaf
  have hphys : (σ.phys a).toNat = leafAddress a k w % 2 ^ 32 := by
    rw [leafAddress_page, toNat_phys, ← haddr]
    have hdvd : 2 ^ 12 ∣ leafAddress (pageBase (pageOf a)) k w % 2 ^ 32 := ⟨_, by rw [haddr, mul_comm]⟩
    omega
  rw [translate_of_not_bypass mem a (hs ▸ σ.sv39) hbypass]
  exact (walk_granted_iff hg.2.ne_top).mpr ⟨k, w, hwalk, hdenied, hphys⟩

/-! ### Bytes -/

section

variable (hg : σ.Grants ty a n)
include hg

theorem Grants.offset_mod : (σ.phys a - dramBase).toNat % 2 ^ 12 = a.toNat % 2 ^ 12 := by
  have hbase := toNat_of_offset hg.2.below
  rw [toNat_phys] at hbase
  omega

theorem Grants.page_add {i : ℕ} (hi : i < n) : pageOf (a + BitVec.ofNat 64 i) = pageOf a ∧
    (σ.phys (a + BitVec.ofNat 64 i) - dramBase).toNat = (σ.phys a - dramBase).toNat + i := by
  have hfit := hg.2.fits
  have hmod := hg.offset_mod
  have hlt := a.isLt
  have hsum : (a + BitVec.ofNat 64 i).toNat = a.toNat + i := by
    rw [BitVec.toNat_add, BitVec.toNat_ofNat]
    omega
  have hpage : pageOf (a + BitVec.ofNat 64 i) = pageOf a := by
    refine BitVec.eq_of_toNat_eq ?_
    rw [toNat_pageOf, toNat_pageOf, hsum]
    omega
  refine ⟨hpage, ?_⟩
  have hphys : (σ.phys (a + BitVec.ofNat 64 i)).toNat = (σ.phys a).toNat + i := by
    rw [toNat_phys, toNat_phys, hpage, hsum]
    omega
  have hbase := toNat_of_offset hg.2.below
  have hbelow := hg.2.below
  rw [ramSize_eq] at hbelow
  rw [BitVec.toNat_sub, hphys, hbase]
  show (2 ^ 64 - 2 ^ 31 + _) % 2 ^ 64 = _
  omega

theorem Grants.bytes (hm : σ.Shows mem f) {i : ℕ} (hi : i < n) :
    mem.byte ((σ.phys a - dramBase).toNat + i) = f (a + BitVec.ofNat 64 i) := by
  obtain ⟨hpage, hoff⟩ := hg.page_add hi
  have hfit := hg.2.fits
  have hbelow := hg.2.below
  have htime := hg.2.timer
  rw [ramSize_eq] at hbelow
  have hright : σ.rights (pageOf (a + BitVec.ofNat 64 i)) ty = true := by
    rw [hpage]
    exact hg.1
  rw [← hoff]
  refine hm.bytes hright ?_ ?_
  · rw [hoff, ramSize_eq]
    omega
  · rw [hoff]
    omega

end

theorem Grants.writable (hg : σ.Grants .stor a n) :
    σ.Writable (ramCell (σ.phys a - dramBase).toNat) := by
  refine ⟨pageOf a, hg.1, ?_⟩
  have hbase := toNat_of_offset hg.2.below
  have hbelow := hg.2.below
  rw [ramSize_eq] at hbelow
  rw [toNat_phys] at hbase
  have hcell : (ramCell (σ.phys a - dramBase).toNat).val = (σ.phys a - dramBase).toNat / 8 :=
    Nat.mod_eq_of_lt (show _ < 2 ^ 28 by omega)
  rw [hcell]
  omega

theorem Shows.put {w : ℕ} {v : BitVec w} (hm : σ.Shows mem f) (hg : σ.Grants .stor a n)
    (hput : ∀ x < ramSize, mem'.byte x =
      Bytes.put ((σ.phys a - dramBase).toNat, Bytes.bytes v n) mem.byte x) :
    σ.Shows mem' (storeBytes f a n v) := by
  have hfit := hg.2.fits
  have hbelow := hg.2.below
  rw [ramSize_eq] at hbelow
  refine ⟨fun c hc hw => ?_, fun {va ty} hr hlt htime => ?_⟩
  · rw [← hm.rest c hc hw]
    refine eq_of_byte_eq fun i hi => ?_
    have hcell := c.isLt
    have hx : 8 * c.val + i < ramSize := by
      rw [ramSize_eq]
      have hsize : c.val < 2 ^ 28 := hcell
      omega
    have hat : ramCell (8 * c.val + i) = c := (ramCell_eq hx).mpr (by omega)
    have hbyte := hput _ hx
    rw [put_bytes, if_neg, Memory.byte, Memory.byte, hat] at hbyte
    · rwa [show (8 * c.val + i) % 8 = i by omega] at hbyte
    · -- the bytes of the write are in another cell
      intro hin
      refine hw ?_
      have hsame : ramCell (σ.phys a - dramBase).toNat = c :=
        (ramCell_eq (by rw [ramSize_eq]; omega)).mpr (by omega)
      exact hsame ▸ hg.writable
  · rw [hput _ hlt, put_bytes, storeBytes, hm.bytes hr hlt htime]
    by_cases hin : (va - a).toNat < n
    · have hva : va = a + BitVec.ofNat 64 (va - a).toNat := by
        rw [BitVec.ofNat_toNat, BitVec.setWidth_eq, BitVec.add_comm, BitVec.sub_add_cancel]
      have hoff := (hg.page_add hin).2
      rw [← hva] at hoff
      rw [if_pos hin, if_pos (by omega)]
      congr 1
      omega
    · rw [if_neg hin, if_neg]
      -- an address in the range has the frame of the page, and with it the page
      intro hrange
      have hbase := toNat_of_offset hlt
      have hbase' := toNat_of_offset hg.2.below
      have hmod := hg.offset_mod
      rw [toNat_phys] at hbase hbase'
      have hframe : σ.frame (pageOf va) = σ.frame (pageOf a) := BitVec.eq_of_toNat_eq (by omega)
      have hpage := congrArg BitVec.toNat (σ.injective hr hg.1 hframe)
      rw [toNat_pageOf, toNat_pageOf] at hpage
      refine hin ?_
      rw [BitVec.toNat_sub]
      have hlt' := va.isLt
      omega

theorem Shows.set_mtime (hm : σ.Shows mem f) (v : Word) : σ.Shows (mem.set mtimeCell v) f := by
  refine ⟨fun c hc hw => ?_, fun hr hlt htime => ?_⟩
  · rw [Memory.set_of_ne _ hc]
    exact hm.rest c hc hw
  · rw [Memory.byte, Memory.set_of_ne _ (mt (ramCell_eq hlt).mp htime)]
    exact hm.bytes hr hlt htime

variable (σ) in
def view : MemoryView where
  Env c cp := c.satp = σ.satp ∧ cp ≠ .mmode ∧ c.mstatus.mprv = 0
  Shows := σ.Shows
  Grants := σ.Grants
  phys := σ.phys
  env_of_eq hs hm h := ⟨hs.trans h.1, h.2.1, hm.trans h.2.2⟩
  translated he hm hg := translated he.1 he.2.1 he.2.2 hm hg
  inRam hg := hg.2
  bytes hm hg _ hi := hg.bytes hm hi
  put hm hg h := hm.put hg h
  set_mtime v hm := hm.set_mtime v

instance (σ : AddressSpace) (ty : Ttype) (a : Word) (n : ℕ) : Decidable (σ.view.Grants ty a n) :=
  inferInstanceAs (Decidable (σ.Grants ty a n))

theorem shows_rest (σ : AddressSpace) :
    σ.Shows σ.rest fun va => σ.rest.byte (σ.phys va - dramBase).toNat :=
  ⟨fun _ _ _ => rfl, fun _ _ _ => rfl⟩

end AddressSpace

/-! ### Programs -/

/-- A program below machine mode that keeps to its address space: the loop goes through the states of
the architecture's machine whose memory is what the pages hold, and of the vector nothing changes but
the frames of the pages that the program may write, and the time. -/
theorem address_space_refinement {σ : AddressSpace} {s : State} {m m' : Rv64ima.Machine}
    {code : List Instr} (h : Run σ.view.SupportedStep m code m') (hr : σ.view.Realizes s m)
    (is : List Input) (hlen : is.length = code.length) :
    ∃ t, Run Next s is t ∧ σ.view.Realizes t m' ∧
      ∀ c, c ≠ mtimeCell → ¬ σ.Writable c → t.mem c = s.mem c := by
  obtain ⟨t, ht, hrt⟩ := hr.runs h is hlen
  refine ⟨t, ht, hrt, fun c hc hw => ?_⟩
  have hs : σ.Shows s.mem m.mem := hr.mem
  have hend : σ.Shows t.mem m'.mem := hrt.mem
  rw [hend.rest c hc hw, hs.rest c hc hw]

/-- Page 0 has the program and page 1 the data: a doubleword is stored, loaded and squared. -/
def pagedProgram : List Instr :=
  [.base (.lui 1 1), .base (.opImm .addi 2 0 7), .store .sd 1 2 0, .load .ld 3 1 0, .mul .mul 4 3 2]

/-- Three levels of tables, the program from `0x80005010` on, and the frame of page 1. -/
def pagedMemory : Memory :=
  let tables := Memory.set threeLevels 1025 (0x80006 <<< 10 ||| 0xCF)
  (((tables.set 2562 (wordOf (.base (.lui 1 1)) ||| wordOf (.base (.opImm .addi 2 0 7)) <<< 32)).set
    2563 (wordOf (.store .sd 1 2 0) ||| wordOf (.load .ld 3 1 0) <<< 32)).set
    2564 (wordOf (.mul .mul 4 3 2)))

def pagedRights (p : BitVec 52) (ty : Ttype) : Bool :=
  if p = 0 then decide (ty = .inst) else if p = 1 then decide (ty ≠ .inst) else false

theorem pagedRights_cases {p : BitVec 52} {ty : Ttype} (h : pagedRights p ty = true) :
    p = 0 ∧ ty = .inst ∨ p = 1 ∧ ty ≠ .inst := by
  unfold pagedRights at h
  split_ifs at h with h0 h1
  · exact .inl ⟨h0, of_decide_eq_true h⟩
  · exact .inr ⟨h1, of_decide_eq_true h⟩

theorem pagedMemory_cells {p : BitVec 52} {ty : Ttype} (h : pagedRights p ty = true) :
    ∀ c ∈ cellsFrom pagedMemory 0x80000 (indices (pageBase p)), c = 0 ∨ c = 512 ∨ c.val / 512 = 2 := by
  have h0 : cellsFrom pagedMemory 0x80000 (indices (pageBase 0)) = [0, 512, 1024] := by
    decide +kernel
  have h1 : cellsFrom pagedMemory 0x80000 (indices (pageBase 1)) = [0, 512, 1025] := by
    decide +kernel
  have hthird {x c : Cell} (hx : x.val / 512 = 2) (hc : c ∈ [0, 512, x]) :
      c = 0 ∨ c = 512 ∨ c.val / 512 = 2 := by
    simp only [List.mem_cons, List.not_mem_nil, or_false] at hc
    rcases hc with rfl | rfl | rfl
    · exact .inl rfl
    · exact .inr (.inl rfl)
    · exact .inr (.inr hx)
  rcases pagedRights_cases h with ⟨rfl, -⟩ | ⟨rfl, -⟩
  · exact h0 ▸ fun _ => hthird rfl
  · exact h1 ▸ fun _ => hthird rfl

def pagedSpace : AddressSpace where
  satp := ⟨0x80000, 0, 8⟩
  rest := pagedMemory
  frame p := if p = 0 then 0x80005 else 0x80006
  rights := pagedRights
  sv39 := rfl
  injective hp hq hf := by
    rcases pagedRights_cases hp with ⟨rfl, -⟩ | ⟨rfl, -⟩ <;>
      rcases pagedRights_cases hq with ⟨rfl, -⟩ | ⟨rfl, -⟩
    · rfl
    · exact absurd hf (by decide)
    · exact absurd hf (by decide)
    · rfl
  maps hp := by
    rcases pagedRights_cases hp with ⟨rfl, -⟩ | ⟨rfl, -⟩
    · refine ⟨0, 0x80005 <<< 10 ||| 0xCF, by decide +kernel, ?_, by decide⟩
      rintro (h | ⟨-, h | h⟩) <;> exact absurd h (by decide)
    · refine ⟨0, 0x80006 <<< 10 ||| 0xCF, by decide +kernel, ?_, by decide⟩
      rintro (h | ⟨-, h | h⟩) <;> exact absurd h (by decide)
  apart {p ty c} hp hc := by
    refine ⟨?_, fun q hq hframe => ?_⟩
    · rintro rfl
      exact absurd (pagedMemory_cells hp _ hc) (by decide)
    · have hwritable : (0x80006 : BitVec 52).toNat = 2 ^ 19 + c.val / 2 ^ 9 := by
        rcases pagedRights_cases hq with ⟨-, h⟩ | ⟨rfl, -⟩
        · cases h
        · exact hframe
      rcases pagedMemory_cells hp _ hc with rfl | rfl | h
      · exact absurd hwritable (by decide)
      · exact absurd hwritable (by decide)
      · rw [show (2 ^ 9 : ℕ) = 512 from rfl, h] at hwritable
        exact absurd hwritable (by decide)

def pagedState : State :=
  { boot pagedMemory 0 with
    mem := pagedMemory
    csr := { (boot pagedMemory 0).csr with satp := ⟨0x80000, 0, 8⟩ }
    cp := .umode
    pc := 0x10 }

def pagedMachine : Rv64ima.Machine :=
  ⟨⟨fun _ => 0, 0x10⟩, fun va => pagedMemory.byte (pagedSpace.phys va - dramBase).toNat, none⟩

theorem realizes_paged : pagedSpace.view.Realizes pagedState pagedMachine where
  regs _ _ := rfl
  pc := rfl
  mem := pagedSpace.shows_rest
  resv len _ := by cases len <;> exact iff_of_false (fun h => Bool.false_ne_true h.1) nofun
  aligned := show Aligned 0x10 by decide
  env := ⟨rfl, nofun, rfl⟩
  flags := rfl
  mie := rfl

theorem address_space_refinement_paged : ∃ t,
    Run Next pagedState (List.replicate 5 (quiet 0)) t ∧ t.regFile 4 = 49 ∧
      t.mem 1025 = pagedMemory 1025 := by
  have hdrive : (drive pagedSpace.view.step? pagedProgram pagedMachine).any
      (fun m => decide (m.hart.x 4 = 49)) = true := by decide +kernel
  obtain ⟨m, hm, hx⟩ := exists_run_of_drive hdrive
  obtain ⟨t, ht, hrt, hrest⟩ := address_space_refinement
    (hm.mono fun _ _ _ => MemoryView.supportedStep_of) realizes_paged
    (List.replicate 5 (quiet 0)) rfl
  refine ⟨t, ht, (hrt.regs 4 (by decide)).trans (of_decide_eq_true hx), hrest 1025 (by decide) ?_⟩
  rintro ⟨q, hq, hframe⟩
  rcases pagedRights_cases hq with ⟨-, h⟩ | ⟨rfl, -⟩
  · cases h
  · exact absurd hframe (by decide)

end RiscvEmu
