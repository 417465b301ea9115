import RiscvEmu.AtomicOps
import RiscvEmu.Reservation

/-! A misaligned atomic instruction should trap without any other effect. The arms handle the case one
by one, and the tail that they share writes `rd` all the same. -/

namespace RiscvEmu

open Bytes

variable {inp : Input} {ins pa : Word} {s t : State} {w : Width}

inductive Atomic
  | lr | sc | rmw (o : AmoOp)
  deriving DecidableEq

def Atomic.selector : Atomic → ℕ
  | lr => 0b00010
  | sc => 0b00011
  | rmw o => o.selector

def IsAtomic (w : Width) (a : Atomic) (ins : Word) : Prop :=
  opcode ins = .amo ∧ (func3 ins).toNat = w.funct3 ∧ (amoOp ins).toNat = a.selector

/-- The arm rejects the translated address: an SC looks at it only when its reservation holds. -/
def Rejects (w : Width) (a : Atomic) (ins pa : Word) (s : State) : Prop :=
  8 < (pa - dramBase).toNat % 8 + w.bytes ∧
    (a = .sc → s.resv.Holds (s.reg (rs1 ins)) w)

/-- The misaligned-store exception for the address in `rs1`, and nothing else. -/
structure TrapsCleanly (ins : Word) (s t : State) : Prop where
  flag : t.flags.storeAddrMissalig = true
  tval : t.csr.mtval = s.reg (rs1 ins)
  regs : ∀ r ≠ 0, t.regFile r = s.regFile r
  mem : t.mem = s.mem

/-- `ret_data` when a rejecting arm gets to the tail: only SC.W assigns it. -/
def Atomic.tail (a : Atomic) (w : Width) (s : State) : Word :=
  if a = .sc ∧ w = .w32 then 1 else s.retData

def Atomic.tval (a : Atomic) (w : Width) (s : State) : Word :=
  match w, a with
  | .w32, .rmw o => o.misTval s
  | _, _ => s.loadAddr

/-! ### Addresses of atomics -/

theorem lt_ramSize_of_cell? {a : Word} {c : Cell} (h : cell? (a / 8) = some c) :
    a.toNat < ramSize := by
  have hval := cell?_eq_some.mp h
  rw [BitVec.toNat_udiv] at hval
  have hdiv : a.toNat / 8 < memSize := hval ▸ c.isLt
  have hmul := (Nat.div_lt_iff_lt_mul (by decide)).mp hdiv
  exact hmul.trans_eq (Nat.mul_comm memSize 8)

theorem amoMapped_translates {k : Cell → State → State} (h : amoMapped ins s k = .fall t) :
    ∃ pa c, translate s.csr s.mem (s.reg (rs1 ins)) .stor s.cp = .ok pa ∧ dramBase < pa ∧
      (pa - dramBase).toNat < ramSize ∧ t = retToRd ins (k c { s with
        loadAddr := s.reg (rs1 ins)
        loadAddrPhy := pa - dramBase }) := by
  cases ht : translate s.csr s.mem (s.reg (rs1 ins)) .stor s.cp with
  | error e =>
    unfold amoMapped at h
    dsimp only at h
    rw [ht] at h
    cases h
  | ok pa =>
    by_cases hp : pa = -1
    · obtain ⟨t', hx⟩ : ∃ t', amoMapped ins s k = storePageFault (s.reg (rs1 ins)) t' := by
        unfold amoMapped
        dsimp only
        rw [ht]
        dsimp only
        rw [if_pos hp]
        exact ⟨_, rfl⟩
      rw [hx] at h
      unfold storePageFault at h
      split at h <;> cases h
    · rw [amoMapped_of_translate ht hp] at h
      dsimp only at h
      split at h
      · rename_i hlo
        split at h
        · cases h
        · rename_i hcell
          cases h
          exact ⟨pa, _, rfl, hlo, lt_ramSize_of_cell? hcell, rfl⟩
      · cases h

/-! ### The arms -/

structure Rejected (v r : Word) (u u' : State) : Prop where
  flag : u'.flags.storeAddrMissalig = true
  tval : u'.csr.mtval = v
  regFile : u'.regFile = u.regFile
  mem : u'.mem = u.mem
  ret : u'.retData = r

section

variable {c : Cell} {u : State}

theorem loadFit_of_misfit {n : ℕ} {a : Word} (h : 8 < a.toNat % 8 + n) (ld : Word) :
    loadFit n a ld = (false, -1) := if_neg (Nat.not_le_of_lt h)

theorem storeFit_of_misfit {n : ℕ} {a : Word} (h : 8 < a.toNat % 8 + n) (ld v : Word) :
    storeFit n a ld v = (false, -1) := if_neg (Nat.not_le_of_lt h)

theorem lrW_rejected (h : 8 < u.loadAddrPhy.toNat % 8 + 4) :
    Rejected u.loadAddr u.retData u (lrW u) := by
  unfold lrW
  rw [loadWord_eq, loadFit_of_misfit h]
  exact ⟨rfl, rfl, rfl, rfl, rfl⟩

theorem amoRmwW_rejected (op : Word → Word → Word) (f : State → Word)
    (h : 8 < u.loadAddrPhy.toNat % 8 + 4) :
    Rejected (f u) u.retData u (amoRmwW op f ins c u) := by
  unfold amoRmwW
  rw [loadWord_eq, loadFit_of_misfit h]
  exact ⟨rfl, rfl, rfl, rfl, rfl⟩

theorem scW_rejected (h : 8 < u.loadAddrPhy.toNat % 8 + 4)
    (hr : u.resv.Holds (u.reg (rs1 ins)) .w32) :
    Rejected u.loadAddr 1 u (scW ins c u) := by
  have hv : u.resv.valid = true ∧ u.reg (rs1 ins) = u.resv.addr := hr
  unfold scW scWStore
  rw [storeWord_eq, if_pos hv]
  simp only [storeFit_of_misfit h]
  exact ⟨rfl, rfl, rfl, rfl, rfl⟩

theorem mod_ne_zero_of_misfit {a : Word} (h : 8 < a.toNat % 8 + 8) : a % 8 ≠ 0 := by
  intro h0
  have hmod := toNat_mod_eight a
  rw [h0] at hmod
  have hz : (0 : Word).toNat = 0 := rfl
  omega

theorem lrD_rejected (h : 8 < u.loadAddrPhy.toNat % 8 + 8) :
    Rejected u.loadAddr u.retData u (lrD ins u) := by
  unfold lrD
  rw [if_pos (mod_ne_zero_of_misfit h)]
  exact ⟨rfl, rfl, rfl, rfl, rfl⟩

theorem amoRmwD_rejected (op : Word → Word → Word) (h : 8 < u.loadAddrPhy.toNat % 8 + 8) :
    Rejected u.loadAddr u.retData u (amoRmwD op ins c u) := by
  unfold amoRmwD
  rw [if_pos (mod_ne_zero_of_misfit h)]
  exact ⟨rfl, rfl, rfl, rfl, rfl⟩

theorem scD_rejected (h : 8 < u.loadAddrPhy.toNat % 8 + 8)
    (hr : u.resv.Holds (u.reg (rs1 ins)) .w64) :
    Rejected u.loadAddr u.retData u (scD ins c u) := by
  have hv : u.resv.valid64 = true ∧ u.reg (rs1 ins) = u.resv.addr64 := hr
  unfold scD scDStore
  rw [if_pos hv]
  dsimp only
  rw [if_pos (mod_ne_zero_of_misfit h)]
  exact ⟨rfl, rfl, rfl, rfl, rfl⟩

end

/-! ### The instructions -/

section

variable {a : Atomic} {c : Cell} {u u' : State}

theorem switchW_rejected (hop : (amoOp ins).toNat = a.selector)
    (h : 8 < u.loadAddrPhy.toNat % 8 + 4)
    (hr : a = .sc → u.resv.Holds (u.reg (rs1 ins)) .w32) :
    Rejected (a.tval .w32 u) (a.tail .w32 u) u (amoSwitchW ins c u) := by
  cases a with
  | lr =>
    have harm : amoSwitchW ins c u = lrW u := by
      unfold amoSwitchW
      rw [hop]
      rfl
    rw [harm]
    exact lrW_rejected h
  | sc =>
    rw [amoSwitchW_sc hop]
    exact scW_rejected h (hr rfl)
  | rmw o =>
    rw [amoSwitchW_rmw hop]
    exact amoRmwW_rejected o.opW o.misTval h

theorem switchD_rejected (hop : (amoOp ins).toNat = a.selector)
    (h : 8 < u.loadAddrPhy.toNat % 8 + 8)
    (hr : a = .sc → u.resv.Holds (u.reg (rs1 ins)) .w64) :
    Rejected (a.tval .w64 u) (a.tail .w64 u) u (amoSwitchD ins c u) := by
  cases a with
  | lr =>
    have harm : amoSwitchD ins c u = lrD ins u := by
      unfold amoSwitchD
      rw [hop]
      rfl
    rw [harm]
    exact lrD_rejected h
  | sc =>
    rw [amoSwitchD_sc hop]
    exact scD_rejected h (hr rfl)
  | rmw o =>
    rw [amoSwitchD_rmw hop]
    exact amoRmwD_rejected o.opD h

theorem update_kept_iff {f : BitVec 5 → Word} {i : BitVec 5} {v : Word} :
    (∀ x ≠ 0, Function.update f i v x = f x) ↔ i = 0 ∨ f i = v := by
  constructor
  · intro hall
    by_cases h0 : i = 0
    · exact Or.inl h0
    · have hat := hall i h0
      rw [Function.update_self] at hat
      exact Or.inr hat.symm
  · intro hor x hx
    by_cases hxi : x = i
    · subst hxi
      rw [Function.update_self]
      exact (hor.resolve_left hx).symm
    · exact Function.update_of_ne hxi _ _

/-- The tail writes `rd`, so the trap is clean when it writes what is there. -/
theorem Rejected.cleanly_iff {v r : Word} (h : Rejected v r u u')
    (hm : u.toMachine = s.toMachine) : TrapsCleanly ins s (retToRd ins u') ↔
      ((rd ins).setWidth 5 = (0 : BitVec 5) ∨ s.reg (rd ins) = r) ∧ v = s.reg (rs1 ins) := by
  have hfile : (retToRd ins u').regFile = s.regSet (rd ins) r := by
    have hu : u.regFile = s.regFile := congrArg Machine.regFile hm
    unfold retToRd State.setReg Machine.regSet
    rw [h.ret, h.regFile, hu]
  have hkeep : (∀ x ≠ 0, (retToRd ins u').regFile x = s.regFile x) ↔
      ((rd ins).setWidth 5 = (0 : BitVec 5) ∨ s.reg (rd ins) = r) := by
    rw [hfile]
    exact update_kept_iff
  have hmem : (retToRd ins u').mem = s.mem := h.mem.trans (congrArg Machine.mem hm)
  constructor
  · intro ht
    exact ⟨hkeep.mp ht.regs, h.tval.symm.trans ht.tval⟩
  · rintro ⟨hrd, hv⟩
    exact ⟨h.flag, h.tval.trans hv, hkeep.mpr hrd, hmem⟩

end

/-- A misaligned atomic traps without another effect exactly when the tail happens to write to `rd` what
`rd` holds, and, for AMOMAXU.W, the address is its own offset into RAM. -/
theorem atomic_trap_iff {a : Atomic} (hi : IsAtomic w a ins)
    (ht : translate s.csr s.mem (s.reg (rs1 ins)) .stor s.cp = .ok pa) (hlo : dramBase < pa)
    (hhi : (pa - dramBase).toNat < ramSize) (hr : Rejects w a ins pa s) :
    (∃ t, execute inp ins s = .fall t ∧ TrapsCleanly ins s t) ↔
      ((rd ins).setWidth 5 = (0 : BitVec 5) ∨ s.reg (rd ins) = a.tail w s) ∧
        (w = .w32 → a = .rmw .maxu → pa - dramBase = s.reg (rs1 ins)) := by
  obtain ⟨ho, h3, hop⟩ := hi
  obtain ⟨hmis, hresv⟩ := hr
  have hp : pa ≠ -1 := by
    rintro rfl
    exact absurd hhi (by decide)
  have hcell := cell?_div_eight hhi
  rw [execute_amo ho]
  cases w with
  | w32 =>
    rw [armAmo_w h3, amoMapped_of_translate ht hp]
    dsimp only
    rw [if_pos hlo, hcell]
    simp only [Res.fall.injEq, exists_eq_left']
    have hrej := switchW_rejected (c := ramCell (pa - dramBase).toNat) (u := { s with
      loadAddr := s.reg (rs1 ins)
      loadAddrPhy := pa - dramBase
      loadData := s.mem (ramCell (pa - dramBase).toNat) }) hop hmis hresv
    rw [hrej.cleanly_iff (s := s) rfl]
    refine and_congr Iff.rfl ?_
    -- AMOMAXU.W alone reports something else than the address
    cases a with
    | lr => simp [Atomic.tval]
    | sc => simp [Atomic.tval]
    | rmw o => cases o <;> simp [Atomic.tval, AmoOp.misTval]
  | w64 =>
    rw [armAmo_d h3, amoMapped_of_translate ht hp]
    dsimp only
    rw [if_pos hlo, hcell]
    simp only [Res.fall.injEq, exists_eq_left']
    have hrej := switchD_rejected (c := ramCell (pa - dramBase).toNat) (u := { s with
      loadAddr := s.reg (rs1 ins)
      loadAddrPhy := pa - dramBase
      wbData := s.mem (ramCell (pa - dramBase).toNat) }) hop hmis hresv
    rw [hrej.cleanly_iff (s := s) rfl]
    refine and_congr Iff.rfl ?_
    simp [Atomic.tval]

/-- `lr.w x0, (x1)` one byte past the word. -/
theorem atomic_trap_zero :
    (∃ t, execute (quiet 0) 0x1000a02f (bare 0x80000005) = .fall t ∧
      TrapsCleanly 0x1000a02f (bare 0x80000005) t) ↔
      ((rd 0x1000a02f).setWidth 5 = (0 : BitVec 5) ∨ (bare 0x80000005).reg (rd 0x1000a02f) =
        Atomic.lr.tail .w32 (bare 0x80000005)) ∧
        (Width.w32 = .w32 → Atomic.lr = .rmw .maxu →
          (0x80000005 : Word) - dramBase = (bare 0x80000005).reg (rs1 0x1000a02f)) :=
  atomic_trap_iff ⟨rfl, rfl, rfl⟩ rfl (by decide) (by decide)
    ⟨by decide, by simp⟩

/-- The same load with `x2` as its destination, which becomes the old `ret_data`. -/
theorem atomic_trap_clobbers :
    ¬ ∀ (inp : Input) (w : Width) (a : Atomic) (ins pa : Word) (s : State), IsAtomic w a ins →
      translate s.csr s.mem (s.reg (rs1 ins)) .stor s.cp = .ok pa → dramBase < pa →
      (pa - dramBase).toNat < ramSize → Rejects w a ins pa s →
      ∃ t, execute inp ins s = .fall t ∧ TrapsCleanly ins s t := by
  intro h
  obtain ⟨t, hx, ht⟩ := h (quiet 0) .w32 .lr 0x1000a12f 0x80000005 (bare 0x80000005)
    ⟨rfl, rfl, rfl⟩ rfl (by decide) (by decide) ⟨by decide, by simp⟩
  have htwo : t.regFile 2 = 0 := by
    cases hx
    rfl
  have hsame : t.regFile 2 = 0x80000005 := ht.regs 2 (by decide)
  exact absurd (htwo.symm.trans hsame) (by decide)

end RiscvEmu
