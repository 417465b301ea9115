import RiscvEmu.Encodings
import RiscvEmu.Rv64ima
import RiscvEmu.TrapFrame

/-! Words that encode no instruction. Each nested `switch` treats them in its own way, and only the
floating-point opcodes and, for one that gets that far, the 32-bit half of the `amo` arm raise the
exception. -/

namespace RiscvEmu

open Runs

variable {inp : Input} {ins : Word} {s s' t u u' : State}

/-! ### The arms that raise nothing -/

def KeepsIllIns (u u' : State) : Prop := u'.flags.illIns = u.flags.illIns

theorem armCjump_keepsIllIns (ins : Word) (u : State) : KeepsIllIns u (armCjump ins u) := by
  unfold armCjump KeepsIllIns
  dsimp only
  split <;> rfl

theorem loadNarrow_keepsIllIns (access : Word → Word → Bool × Word) (extend : Word → Word) (ins : Word)
    (u : State) : KeepsIllIns u (loadNarrow access extend ins u) := by
  unfold loadNarrow KeepsIllIns
  split <;> rfl

theorem loadSwitch_keepsIllIns (ins : Word) (u : State) : KeepsIllIns u (loadSwitch ins u) := by
  unfold loadSwitch
  split
  case h_7 =>
    unfold loadLd KeepsIllIns
    split <;> rfl
  case h_8 => rfl
  all_goals exact loadNarrow_keepsIllIns _ _ ins u

theorem armLoad_keepsIllIns (h : armLoad inp ins u = .fall u') : KeepsIllIns u u' := by
  unfold armLoad at h
  dsimp only at h
  split at h
  · split at h
    · cases h
    · split at h
      · unfold loadPageFault at h
        split at h <;> cases h
      · split at h
        · cases h
        · rename_i m hm
          cases h
          have hside : m.flags.illIns = u.flags.illIns :=
            congrArg Flags.illIns (raised_of_loadSide (loadMapped_side hm)).1
          exact (loadSwitch_keepsIllIns ins _).trans hside
  · cases h
    unfold loadFifo KeepsIllIns
    dsimp only
    split
    · split <;> rfl
    · split <;> rfl

theorem storePeripheral_keepsIllIns {pa v : Word} {m m' : Machine}
    (h : storePeripheral inp pa v m = .ret () m') : m'.flags.illIns = m.flags.illIns := by
  unfold storePeripheral at h
  split at h
  · cases h
    unfold clintWrite
    split <;> rfl
  · split at h
    · cases h
      unfold plicWrite
      dsimp only
      split_ifs <;> rfl
    · split at h
      · exact deviceActs_invariant (P := fun x => x.flags.illIns = m.flags.illIns)
          (fun _ _ _ h => h) (fun _ _ _ _ h => h) h rfl
      · cases h

theorem armStore_keepsIllIns (h : armStore inp ins u = .fall u') : KeepsIllIns u u' := by
  unfold armStore at h
  dsimp only at h
  split at h
  · split at h
    · cases h
    · split at h
      · unfold storePageFault at h
        split at h <;> cases h
      · split at h
        · unfold storeRam at h
          dsimp only at h
          split at h
          · cases h
          · split at h
            · cases h
            · cases h
              unfold storeCommit KeepsIllIns
              split
              · exact congrArg (·.flags.illIns) (storeSwitch_toMachine ins _)
              · exact congrArg (·.flags.illIns) (storeSwitch_toMachine ins _)
        · split at h
          · cases h
          · rename_i m hm
            cases h
            exact storePeripheral_keepsIllIns hm
  · cases h
    rfl

theorem armRops_keepsIllIns (h : armRops ins u = .fall u') : KeepsIllIns u u' := by
  unfold armRops at h
  split at h
  · unfold ropsMul at h
    split at h
    case h_5 =>
      split at h
      · cases h
      · cases h
        rfl
    all_goals
      cases h
      rfl
  · split at h
    · cases h
      rfl
    · split at h
      · cases h
        rfl
      · cases h
        rfl

theorem armRops64_keepsIllIns (h : armRops64 ins u = .fall u') : KeepsIllIns u u' := by
  unfold armRops64 at h
  split at h
  · unfold rops64Mul at h
    split at h
    case h_1 =>
      cases h
      rfl
    case h_6 =>
      cases h
      rfl
    all_goals
      split at h
      · cases h
      · cases h
        rfl
  · split at h
    · cases h
      rfl
    · split at h
      · cases h
        rfl
      · cases h
        rfl

theorem privileged_keepsIllIns (h : privileged ins u = .fall u') : KeepsIllIns u u' := by
  unfold privileged at h
  split at h
  · unfold ecall at h
    split at h
    · cases h
    · rename_i hx
      cases h
      obtain ⟨hm, e, epc, -, -, -, rfl⟩ := excepFunction_enters hx
      exact congrArg Flags.illIns (enter_flags hm 0 e epc u.pc u.toMachine)
  · cases h
    rfl
  · cases h
    rfl
  · cases h
    rfl
  · cases h
  · cases h
    rfl

/-! ### The atomics -/

section

variable {c : Cell}

theorem lrW_keepsIllIns (u : State) : KeepsIllIns u (lrW u) := by
  unfold lrW KeepsIllIns
  split <;> rfl

theorem scW_keepsIllIns (ins : Word) (c : Cell) (u : State) : KeepsIllIns u (scW ins c u) := by
  unfold scW scWStore KeepsIllIns
  dsimp only
  split
  · split <;> rfl
  · rfl

theorem amoRmwW_keepsIllIns (op : Word → Word → Word) (f : State → Word) (ins : Word) (c : Cell)
    (u : State) : KeepsIllIns u (amoRmwW op f ins c u) := by
  unfold amoRmwW KeepsIllIns
  split <;> rfl

theorem lrD_keepsIllIns (ins : Word) (u : State) : KeepsIllIns u (lrD ins u) := by
  unfold lrD KeepsIllIns
  split <;> rfl

theorem scD_keepsIllIns (ins : Word) (c : Cell) (u : State) : KeepsIllIns u (scD ins c u) := by
  unfold scD scDStore KeepsIllIns
  dsimp only
  split
  · split <;> rfl
  · rfl

theorem amoRmwD_keepsIllIns (op : Word → Word → Word) (ins : Word) (c : Cell) (u : State) :
    KeepsIllIns u (amoRmwD op ins c u) := by
  unfold amoRmwD KeepsIllIns
  split <;> rfl

theorem amoSwitchD_keepsIllIns (ins : Word) (c : Cell) (u : State) :
    KeepsIllIns u (amoSwitchD ins c u) := by
  unfold amoSwitchD
  split
  · exact lrD_keepsIllIns ins u
  · exact scD_keepsIllIns ins c u
  case h_12 => rfl
  all_goals exact amoRmwD_keepsIllIns _ ins c u

def KnownAmo (ins : Word) : Prop := ∃ a : Atomic, (amoOp ins).toNat = a.selector

theorem amoSwitchW_keepsIllIns (hk : KnownAmo ins) (c : Cell) (u : State) :
    KeepsIllIns u (amoSwitchW ins c u) := by
  obtain ⟨a, ha⟩ := hk
  cases a with
  | lr =>
    unfold amoSwitchW
    rw [ha]
    exact lrW_keepsIllIns u
  | sc =>
    rw [amoSwitchW_sc ha]
    exact scW_keepsIllIns ins c u
  | rmw o =>
    rw [amoSwitchW_rmw ha]
    exact amoRmwW_keepsIllIns o.opW o.misTval ins c u

theorem amoSwitchW_unknown (hk : ¬ KnownAmo ins) (c : Cell) (u : State) :
    amoSwitchW ins c u = illegal ins u := by
  unfold amoSwitchW
  split
  case h_12 => rfl
  case h_1 h => exact absurd ⟨.lr, h⟩ hk
  case h_2 h => exact absurd ⟨.sc, h⟩ hk
  case h_3 h => exact absurd ⟨.rmw .swap, h⟩ hk
  case h_4 h => exact absurd ⟨.rmw .add, h⟩ hk
  case h_5 h => exact absurd ⟨.rmw .xor, h⟩ hk
  case h_6 h => exact absurd ⟨.rmw .and, h⟩ hk
  case h_7 h => exact absurd ⟨.rmw .or, h⟩ hk
  case h_8 h => exact absurd ⟨.rmw .min, h⟩ hk
  case h_9 h => exact absurd ⟨.rmw .max, h⟩ hk
  case h_10 h => exact absurd ⟨.rmw .minu, h⟩ hk
  case h_11 h => exact absurd ⟨.rmw .maxu, h⟩ hk

end

def ReachesRam (ins : Word) (m : Machine) : Prop :=
  ∃ pa, translate m.csr m.mem (m.reg (rs1 ins)) .stor m.cp = .ok pa ∧ dramBase < pa ∧
    (pa - dramBase).toNat < ramSize

def UnknownAmoW (ins : Word) : Prop :=
  opcode ins = .amo ∧ (func3 ins).toNat = 0b010 ∧ ¬ KnownAmo ins

theorem armAmo_keepsIllIns (h : armAmo ins u = .fall u') (ho : opcode ins = .amo) :
    KeepsIllIns u u' ∨ UnknownAmoW ins ∧ ReachesRam ins u.toMachine := by
  unfold armAmo at h
  split at h
  · rename_i h3
    obtain ⟨pa, c, ht, hlo, hhi, rfl⟩ := amoMapped_translates h
    by_cases hk : KnownAmo ins
    · exact .inl (amoSwitchW_keepsIllIns hk c _)
    · exact .inr ⟨⟨ho, h3, hk⟩, pa, ht, hlo, hhi⟩
  · obtain ⟨pa, c, -, -, -, rfl⟩ := amoMapped_translates h
    exact .inl (amoSwitchD_keepsIllIns ins c _)
  · cases h
    exact .inl rfl

/-! ### The words that raise the exception -/

def IsFloat (ins : Word) : Prop :=
  opcode ins ∈ [.fd1, .fd2, .fd3, .fd4, .fd5, .fd6, .fd7]

theorem execute_float (h : IsFloat ins) (u : State) :
    execute inp ins u = .fall (illegal ins u) := by
  unfold execute
  unfold IsFloat at h
  cases ho : opcode ins <;> rw [ho] at h <;> first | rfl | exact absurd h (by decide)

/-- An arm that raises the exception is that of a floating-point opcode, of a CSR instruction, or of a
32-bit atomic with an unknown selector that reaches RAM. -/
theorem raises_of_execute (hx : execute inp ins u = .fall u') (hc : u.flags.illIns = false)
    (hf : u'.flags.illIns = true) :
    IsFloat ins ∨ IsCsr ins ∨ UnknownAmoW ins ∧ ReachesRam ins u.toMachine := by
  have keeps (hk : KeepsIllIns u u') : False := by
    have hsame : u'.flags.illIns = false := hk.trans hc
    rw [hf] at hsame
    cases hsame
  have hx' := hx
  unfold execute at hx'
  cases ho : opcode ins <;> rw [ho] at hx' <;> dsimp only at hx'
  case load => exact (keeps (armLoad_keepsIllIns hx')).elim
  case store => exact (keeps (armStore_keepsIllIns hx')).elim
  case rops => exact (keeps (armRops_keepsIllIns hx')).elim
  case rops64 => exact (keeps (armRops64_keepsIllIns hx')).elim
  case amo =>
    rcases armAmo_keepsIllIns hx' ho with hk | hr
    · exact (keeps hk).elim
    · exact .inr (.inr hr)
  case fence => cases hx'
  case systm =>
    by_cases hcsr : IsCsr ins
    · exact .inr (.inl hcsr)
    · rcases armSystm_of_not_csr ho hcsr hx' with ⟨-, hp⟩ | rfl
      · exact (keeps (privileged_keepsIllIns hp)).elim
      · exact (keeps rfl).elim
  case cjump =>
    cases hx'
    exact (keeps (armCjump_keepsIllIns ins u)).elim
  case fd1 | fd2 | fd3 | fd4 | fd5 | fd6 | fd7 =>
    left
    unfold IsFloat
    rw [ho]
    decide
  all_goals
    cases hx'
    exact (keeps rfl).elim

/-! ### Undefined words -/

theorem low_of_systm (h : opcode ins = .systm) : (ins &&& 0b1111111).toNat = 0b1110011 := by
  unfold opcode at h
  split at h <;> first | assumption | cases h

theorem not_isCsr_of_undefined {w : BitVec 32} (hu : ¬ Rv64ima.Defined w) :
    ¬ IsCsr (w.setWidth 64) := by
  rintro ⟨ho, h0, h4⟩
  have hf := rType_fields (w.extractLsb' 25 7) (w.extractLsb' 20 5) (w.extractLsb' 15 5)
    (w.extractLsb' 12 3) (w.extractLsb' 7 5) (w.extractLsb' 0 7)
  rw [Rv64ima.rType_split] at hf
  -- the decoder and the encoder take the same bits
  have hopc : w.extractLsb' 0 7 = 0b1110011 :=
    BitVec.eq_of_toNat_eq (hf.opcode.symm.trans (low_of_systm ho))
  have hf3 {f : BitVec 3} (h : func3 (w.setWidth 64) ≠ f.setWidth 64) :
      w.extractLsb' 12 3 ≠ f := by
    rintro rfl
    refine h (BitVec.eq_of_toNat_eq (hf.func3.trans ?_))
    exact (BitVec.toNat_setWidth_of_le (by decide)).symm
  apply hu
  rw [← Rv64ima.rType_split w, hopc]
  exact Rv64ima.defined_csr _ _ _ _ (hf3 h0) (hf3 h4)

/-- The instruction raises the illegal-instruction exception itself, and the iteration delivers it and
does nothing else. The first part excludes an exception that an earlier instruction left behind, and a
silent word in a state that already looks as it would after the trap. -/
def TrapsAsIllegal (inp : Input) (s : State) : Prop :=
  (∃ s', atLoopEnd inp { s with flags := Flags.clear } = some s' ∧ s'.flags.illIns = true) ∧
    ∃ h t, Completes inp s t ∧
      Delivered h causeIllegalInstruction none (tick inp s.toMachine) t.toMachine

def flagged (ins : Word) (r : BitVec 5 → Word) (m : Machine) : Machine :=
  setMtval { m with flags := { m.flags with illIns := true }, regFile := r } ins

theorem first_illIns {f : Flags} (hi : f.insAccFault = false) (h : f.illIns = true) :
    f.first = some (causeIllegalInstruction, { f with illIns := false }) := by
  unfold Flags.first
  rw [hi, h]
  rfl

theorem selectInterrupt_flagged {m : Machine} (ins : Word) (r : BitVec 5 → Word) :
    selectInterrupt (refresh (flagged ins r (advance m))).csr = selectInterrupt (refresh m).csr :=
  selectInterrupt_congr rfl rfl

section

variable {r : BitVec 5 → Word}

theorem refresh_flags_flagged (hm : s'.toMachine = flagged ins r (switchMachine inp s)) :
    (refresh s'.toMachine).flags = { s.flags with illIns := true } := by
  rw [hm]
  rfl

theorem selectInterrupt_of_flagged (hm : s'.toMachine = flagged ins r (switchMachine inp s))
    (hi : selectInterrupt (refresh (tick inp s.toMachine)).csr = none) :
    selectInterrupt (refresh s'.toMachine).csr = none := by
  rw [hm]
  exact (selectInterrupt_flagged ins r).trans hi

theorem flagged_of_delivered {h : Plevel} (hl : atLoopEnd inp s = some s')
    (hm : s'.toMachine = flagged ins r (switchMachine inp s))
    (hi : selectInterrupt (refresh (tick inp s.toMachine)).csr = none) (hc : Completes inp s t)
    (hd : Delivered h causeIllegalInstruction none (tick inp s.toMachine) t.toMachine) :
    (s.flags.ldAccFault = false ∧ s.flags.insAccFault = false) ∧
      (trapModeSelect causeIllegalInstruction false s.cp s.csr = some h ∧ h.handles) ∧
      ∀ x ≠ 0, r x = s.regFile x := by
  have hsel := selectInterrupt_of_flagged hm hi
  have hflags := refresh_flags_flagged hm
  have hregs : (refresh s'.toMachine).regFile = r := congrArg Machine.regFile hm
  obtain ⟨m, hret, rfl⟩ := (completes_iff_of_atLoopEnd hl).mp hc
  cases selectTrap_ret hret with
  | none hacc _ hfirst =>
    -- the flag is set, so the chain has something to take
    have hclear := flags_clear_of_first hacc hfirst
    rw [hflags] at hclear
    exact absurd (congrArg Flags.illIns hclear) Bool.noConfusion
  | declined e k _ he =>
    rw [hsel] at he
    cases he
  | interrupt e k _ he =>
    rw [hsel] at he
    cases he
  | exception e k f he hl' ht hh =>
    -- what `Delivered` says of the mode and the cause identifies the exception
    have hcp : k = h := (enter_cp 0 e _ _ _ hh).symm.trans hd.cp
    subst hcp
    have hcause : e = causeIllegalInstruction :=
      (Cause.mk.inj ((enter_cause 0 e _ _ _ hh).symm.trans hd.cause)).2
    subst hcause
    have hacc : s.flags.ldAccFault = false := by
      by_contra hne
      rw [hflags] at hl'
      exact absurd (hl' (Bool.not_eq_false _ ▸ hne)).1 (by decide)
    refine ⟨⟨hacc, ?_⟩, ⟨?_, hh⟩, ?_⟩
    · by_contra hne
      -- a fetch access fault comes first and has another cause
      have hins : s.flags.insAccFault = true := Bool.not_eq_false _ ▸ hne
      rw [hflags] at he
      rcases he with he | ⟨-, he⟩
      · rw [hacc] at he
        cases he
      · unfold Flags.first at he
        rw [if_pos hins] at he
        exact absurd (Prod.mk.inj (Option.some.inj he)).1 (by decide)
    · rw [hm] at ht
      exact ht
    · intro x hx
      have hkept := enter_regFile k 0 causeIllegalInstruction ((refresh s'.toMachine).pc - 4)
        ((refresh s'.toMachine).csr.tvec k).base { refresh s'.toMachine with flags := f }
      rw [← hregs]
      exact (congrFun hkept x).symm.trans (hd.regs x hx)

theorem delivered_of_flagged {h : Plevel} (hl : atLoopEnd inp s = some s')
    (hm : s'.toMachine = flagged ins r (switchMachine inp s))
    (hi : selectInterrupt (refresh (tick inp s.toMachine)).csr = none)
    (hacc : s.flags.ldAccFault = false) (hins : s.flags.insAccFault = false)
    (ht : trapModeSelect causeIllegalInstruction false s.cp s.csr = some h) (hh : h.handles)
    (hr : ∀ x ≠ 0, r x = s.regFile x) :
    ∃ t, Completes inp s t ∧
      Delivered h causeIllegalInstruction none (tick inp s.toMachine) t.toMachine := by
  have hflags := refresh_flags_flagged hm
  have hx : Raises (refresh s'.toMachine) causeIllegalInstruction
      { s.flags with illIns := false } := by
    refine .inr ⟨?_, selectInterrupt_of_flagged hm hi, ?_⟩
    · rw [hflags]
      exact hacc
    · rw [hflags]
      exact first_illIns hins rfl
  have ht' : trapModeSelect causeIllegalInstruction false (refresh s'.toMachine).cp
      (refresh s'.toMachine).csr = some h := by
    rw [hm]
    exact ht
  refine ⟨_, (completes_iff_of_atLoopEnd hl).mpr ⟨_, selectTrap_of_raises hx ht' hh, rfl⟩, ?_⟩
  have hrank := trapModeSelect_rank ht
  have hepc : s.pc + 4 - 4 = s.pc := BitVec.add_sub_cancel _ _
  show Delivered h causeIllegalInstruction none (tick inp s.toMachine)
    (enter h 0 causeIllegalInstruction ((refresh s'.toMachine).pc - 4)
      ((refresh s'.toMachine).csr.tvec h).base
      { refresh s'.toMachine with flags := { s.flags with illIns := false } })
  rw [hm]
  rcases hh with rfl | rfl <;>
    exact ⟨rfl, hrank, hepc, rfl, rfl, rfl, rfl, rfl, nofun, hr, rfl, rfl⟩

theorem flagged_delivered_iff (hl : atLoopEnd inp s = some s')
    (hm : s'.toMachine = flagged ins r (switchMachine inp s))
    (hi : selectInterrupt (refresh (tick inp s.toMachine)).csr = none) :
    (∃ h t, Completes inp s t ∧
      Delivered h causeIllegalInstruction none (tick inp s.toMachine) t.toMachine) ↔
      (s.flags.ldAccFault = false ∧ s.flags.insAccFault = false) ∧
        (∃ h, trapModeSelect causeIllegalInstruction false s.cp s.csr = some h ∧ h.handles) ∧
        ∀ x ≠ 0, r x = s.regFile x := by
  constructor
  · rintro ⟨h, t, hc, hd⟩
    obtain ⟨hclear, hmode, hr⟩ := flagged_of_delivered hl hm hi hc hd
    exact ⟨hclear, ⟨h, hmode⟩, hr⟩
  · rintro ⟨⟨hacc, hins⟩, ⟨h, ht, hh⟩, hr⟩
    exact ⟨h, delivered_of_flagged hl hm hi hacc hins ht hh hr⟩

end

/-! ### Which undefined words trap -/

theorem advance_regFile (m : Machine) {x : BitVec 5} (hx : x ≠ 0) :
    (advance m).regFile x = m.regFile x := Function.update_of_ne hx _ _

theorem advance_kept_iff {m : Machine} {r v : Word} :
    (∀ x ≠ 0, (advance m).regSet r v x = m.regFile x) ↔
      r.setWidth 5 = (0 : BitVec 5) ∨ m.reg r = v := by
  have hset (x : BitVec 5) (hx : x ≠ 0) : (advance m).regSet r v x =
      Function.update m.regFile (r.setWidth 5) v x := by
    unfold Machine.regSet
    rw [Function.update_apply, Function.update_apply, advance_regFile m hx]
  have hall : (∀ x ≠ 0, (advance m).regSet r v x = m.regFile x) ↔
      ∀ x ≠ 0, Function.update m.regFile (r.setWidth 5) v x = m.regFile x :=
    forall₂_congr fun x hx => by rw [hset x hx]
  exact hall.trans update_kept_iff

theorem float_atLoopEnd (hf : fetch (tick inp s.toMachine) = .word ins) (h : IsFloat ins) :
    ∃ s', atLoopEnd inp s = some s' ∧
      s'.toMachine = flagged ins (switchMachine inp s).regFile (switchMachine inp s) :=
  ⟨_, atLoopEnd_of_word hf (execute_float h _), rfl⟩

/-- The tail of the arm writes `rd` with what an earlier atomic left in `ret_data`. -/
theorem unknownAmoW_atLoopEnd (hf : fetch (tick inp s.toMachine) = .word ins)
    (h : UnknownAmoW ins) (hr : ReachesRam ins (switchMachine inp s)) :
    ∃ s', atLoopEnd inp s = some s' ∧
      s'.toMachine = flagged ins ((switchMachine inp s).regSet (rd ins) s.retData)
        (switchMachine inp s) := by
  obtain ⟨ho, h3, hk⟩ := h
  obtain ⟨pa, ht, hlo, hhi⟩ := hr
  have hp : pa ≠ -1 := by
    rintro rfl
    exact absurd hhi (by decide)
  -- nothing between the decoder and the tail assigns `ret_data`
  have hx : ∃ s', execute inp ins (switchState inp s) = .fall s' ∧
      s'.toMachine = flagged ins ((switchMachine inp s).regSet (rd ins) s.retData)
        (switchMachine inp s) := by
    rw [execute_amo ho, armAmo_w h3, amoMapped_of_translate (s := switchState inp s) ht hp]
    dsimp only
    rw [if_pos hlo, cell?_div_eight hhi]
    dsimp only
    rw [amoSwitchW_unknown hk]
    exact ⟨_, rfl, rfl⟩
  obtain ⟨s', hx, hm⟩ := hx
  exact ⟨s', atLoopEnd_of_word hf hx, hm⟩

/-- An undefined word traps and does nothing else exactly when it is a floating-point instruction, or a
32-bit atomic whose address lies in RAM and whose tail writes to `rd` what `rd` holds, and in addition no
access fault is left over and a mode handles the exception. -/
theorem undefined_traps_iff {w : BitVec 32} (hu : ¬ Rv64ima.Defined w)
    (hf : fetch (tick inp s.toMachine) = .word (w.setWidth 64))
    (hi : selectInterrupt (refresh (tick inp s.toMachine)).csr = none) :
    TrapsAsIllegal inp s ↔
      (s.flags.ldAccFault = false ∧ s.flags.insAccFault = false) ∧
        (∃ h, trapModeSelect causeIllegalInstruction false s.cp s.csr = some h ∧ h.handles) ∧
        (IsFloat (w.setWidth 64) ∨
          UnknownAmoW (w.setWidth 64) ∧ ReachesRam (w.setWidth 64) (switchMachine inp s) ∧
            ((rd (w.setWidth 64)).setWidth 5 = (0 : BitVec 5) ∨
              s.reg (rd (w.setWidth 64)) = s.retData)) := by
  constructor
  · rintro ⟨⟨s', hl, hflag⟩, hd⟩
    have hx := execute_of_atLoopEnd hl hf
    rcases raises_of_execute hx rfl hflag with hfl | hcsr | ⟨ha, hr⟩
    · obtain ⟨t, hl', hm⟩ := float_atLoopEnd hf hfl
      obtain ⟨hclear, hmode, -⟩ := (flagged_delivered_iff hl' hm hi).mp hd
      exact ⟨hclear, hmode, .inl hfl⟩
    · -- the CSR number is no part of the encoding
      exact absurd hcsr (not_isCsr_of_undefined hu)
    · obtain ⟨t, hl', hm⟩ := unknownAmoW_atLoopEnd hf ha hr
      obtain ⟨hclear, hmode, hregs⟩ := (flagged_delivered_iff hl' hm hi).mp hd
      exact ⟨hclear, hmode, .inr ⟨ha, hr, advance_kept_iff.mp hregs⟩⟩
  · rintro ⟨hclear, hmode, hfl | ⟨ha, hr, hrd⟩⟩
    · obtain ⟨t, hl, hm⟩ := float_atLoopEnd hf hfl
      obtain ⟨t', hl', hm'⟩ := float_atLoopEnd (s := { s with flags := Flags.clear }) hf hfl
      refine ⟨⟨t', hl', congrArg (·.flags.illIns) hm'⟩, ?_⟩
      exact (flagged_delivered_iff hl hm hi).mpr ⟨hclear, hmode, fun _ => advance_regFile s.toMachine⟩
    · obtain ⟨t, hl, hm⟩ := unknownAmoW_atLoopEnd hf ha hr
      obtain ⟨t', hl', hm'⟩ :=
        unknownAmoW_atLoopEnd (s := { s with flags := Flags.clear }) hf ha hr
      refine ⟨⟨t', hl', congrArg (·.flags.illIns) hm'⟩, ?_⟩
      exact (flagged_delivered_iff hl hm hi).mpr ⟨hclear, hmode, advance_kept_iff.mpr hrd⟩

/-- `flw` at reset. -/
theorem undefined_traps_float : TrapsAsIllegal (quiet 0) (boot (imageOf [0x00000007]) 0) := by
  have hu : ¬ Rv64ima.Defined 0x00000007 := fun hd => absurd hd.opcode (by decide)
  have hfloat : IsFloat 0x00000007 := by
    unfold IsFloat
    decide
  exact (undefined_traps_iff hu (by decide +kernel) (by decide +kernel)).mpr
    ⟨⟨rfl, rfl⟩, ⟨.mmode, by decide +kernel, .inr rfl⟩, .inl hfloat⟩

/-- The word 0 has an unknown opcode, and the iteration goes on after it. -/
theorem undefined_traps_fails :
    ¬ ∀ (inp : Input) (s : State) (w : BitVec 32), ¬ Rv64ima.Defined w →
      fetch (tick inp s.toMachine) = .word (w.setWidth 64) →
      selectInterrupt (refresh (tick inp s.toMachine)).csr = none →
      ∃ h t, Completes inp s t ∧
        Delivered h causeIllegalInstruction none (tick inp s.toMachine) t.toMachine := by
  intro hall
  have hany : (next? (quiet 0) (boot (imageOf [0]) 0)).any
      (fun t => decide (t.csr.cause t.cp ≠ ⟨0, causeIllegalInstruction⟩)) = true := by
    decide +kernel
  obtain ⟨t, hn, ht⟩ := (Option.any_eq_true _ _).mp hany
  have hnext : iterate (quiet 0) (boot (imageOf [0]) 0) = .next t := next_of_next? hn
  obtain ⟨h, t', hc, hd⟩ := hall (quiet 0) (boot (imageOf [0]) 0) 0
    (fun hdef => absurd hdef.opcode (by decide)) (by decide +kernel) (by decide +kernel)
  unfold Completes at hc
  rw [hnext] at hc
  rcases hc with hc | hc
  · cases hc
    have hcause := hd.cause
    rw [← hd.cp] at hcause
    exact of_decide_eq_true ht hcause
  · cases hc

end RiscvEmu
