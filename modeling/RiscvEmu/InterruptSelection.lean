import RiscvEmu.Turn

/-! Interrupt selection at the end of the loop body. The chain commits to the first source that is
pending and enabled before `interrupt_function` asks whether its handling mode lets it through; the
architecture asks for the first source that is deliverable. -/

namespace RiscvEmu

open Runs

/-- The nine sources in the order of the chain, each with its enable and pending bits. -/
def Csrs.sources (c : Csrs) : List (Word × Byte) :=
  [(causeMachineExtInt, c.mie.meie &&& c.mip.meip), (causeMachineTimerInt, c.mie.mtie &&& c.mip.mtip),
    (causeMachineSoftInt, c.mie.msie &&& c.mip.msip),
    (causeSupervisorExtInt, c.mie.seie &&& c.mip.seip),
    (causeSupervisorTimerInt, c.mie.stie &&& c.mip.stip),
    (causeSupervisorSoftInt, c.mie.ssie &&& c.mip.ssip), (causeUserExtInt, c.mie.ueie &&& c.mip.ueip),
    (causeUserTimerInt, c.mie.utie &&& c.mip.utip), (causeUserSoftInt, c.mie.usie &&& c.mip.usip)]

/-- The handling mode lets the interrupt through: it is more privileged than the current mode, or it
is the current mode and its global enable is set. -/
def lets (m : Machine) (ecode : Word) : Bool :=
  match trapModeSelect ecode true m.cp m.csr with
  | none => false
  | some h => m.cp.code < h.code ∨ (h = m.cp ∧ m.csr.xie h = 1)

def firstDeliverable (m : Machine) : Option Word :=
  (m.csr.sources.find? fun x => x.2 ≠ 0 && lets m x.1).map Prod.fst

/-- The trap that an interrupt takes into its handling mode; the two other `mode` values of a `tvec`
are reserved. -/
structure Interrupted (h : Plevel) (ecode : Word) (m m' : Machine) : Prop where
  cp : m'.cp = h
  epc : m'.csr.epc h = m.pc
  cause : m'.csr.cause h = ⟨1, ecode⟩
  xie : m'.csr.xie h = 0
  direct : (m.csr.tvec h).mode = 0 → m'.pc = (m.csr.tvec h).base
  vectored : (m.csr.tvec h).mode = 1 → m'.pc = (m.csr.tvec h).base + 4 * ecode

def exceptionsOnly (m : Machine) : Call Unit :=
  if m.flags.ldAccFault then selectTrap m else selectException m

/-- The selection takes the first deliverable interrupt, and no interrupt when there is none. -/
def SelectsInterrupt (m : Machine) : Prop :=
  match firstDeliverable m with
  | some ecode => ∃ h m', trapModeSelect ecode true m.cp m.csr = some h ∧
      selectTrap m = .ret () m' ∧ Interrupted h ecode m m'
  | none => selectTrap m = .ret () m ∨ selectTrap m = exceptionsOnly m

/-- The condition under which it does: a load access fault meets no deliverable interrupt, and the
first source that is pending and enabled, if there is one, either is let through into a supervisor
or machine mode that `interrupt_function` implements, or is not enabled globally and hides no
deliverable source. -/
def Selectable (m : Machine) : Prop :=
  if m.flags.ldAccFault then firstDeliverable m = none
  else ∀ ecode, selectInterrupt m.csr = some ecode →
    ∃ h, trapModeSelect ecode true m.cp m.csr = some h ∧
      ((m.csr.xie h ≠ 1 ∧ firstDeliverable m = none) ∨
        (m.csr.xie h = 1 ∧ h.handles ∧ (m.csr.tvec h).mode ≠ 1 ∧
          ((m.csr.tvec h).mode = 0 → m.cp ≠ .mmode)))

def pick : List (Word × Byte) → Option Word
  | [] => none
  | x :: xs => if x.2 ≠ 0 then some x.1 else pick xs

theorem pick_eq_find (l : List (Word × Byte)) :
    pick l = (l.find? fun x => x.2 ≠ 0).map Prod.fst := by
  induction l with
  | nil => rfl
  | cons x xs ih =>
    unfold pick
    split
    · rename_i h
      rw [List.find?_cons_of_pos (by simpa using h)]
      rfl
    · rename_i h
      rw [List.find?_cons_of_neg (by simpa using h), ih]

theorem selectInterrupt_eq_find (c : Csrs) :
    selectInterrupt c = (c.sources.find? fun x => x.2 ≠ 0).map Prod.fst :=
  (show selectInterrupt c = pick c.sources from rfl).trans (pick_eq_find c.sources)

section

variable {α : Type*} {p q : α → Bool} {l : List α} {a : α}

theorem find?_and_of_find? (h : l.find? p = some a) (hq : q a = true) :
    l.find? (fun x => p x && q x) = some a := by
  induction l with
  | nil => cases h
  | cons x xs ih =>
    cases hx : p x with
    | false =>
      rw [List.find?_cons_of_neg (by simp [hx])] at h
      rw [List.find?_cons_of_neg (by simp [hx])]
      exact ih h
    | true =>
      rw [List.find?_cons_of_pos hx] at h
      cases h
      exact List.find?_cons_of_pos (by simp [hx, hq])

end

theorem firstDeliverable_of_lets {m : Machine} {ecode : Word}
    (h : selectInterrupt m.csr = some ecode) (hl : lets m ecode = true) :
    firstDeliverable m = some ecode := by
  rw [selectInterrupt_eq_find, Option.map_eq_some_iff] at h
  obtain ⟨x, hx, rfl⟩ := h
  have hf : (m.csr.sources.find? fun x => x.2 ≠ 0 && lets m x.1) = some x :=
    find?_and_of_find? hx hl
  rw [firstDeliverable, hf, Option.map_some]

theorem firstDeliverable_none {m : Machine} (h : selectInterrupt m.csr = none) :
    firstDeliverable m = none := by
  rw [selectInterrupt_eq_find, Option.map_eq_none_iff, List.find?_eq_none] at h
  unfold firstDeliverable
  rw [Option.map_eq_none_iff, List.find?_eq_none]
  intro x hx hp
  exact h x hx (Bool.and_eq_true_iff.mp hp).1

theorem lets_of_firstDeliverable {m : Machine} {ecode : Word}
    (h : firstDeliverable m = some ecode) : lets m ecode = true := by
  unfold firstDeliverable at h
  rw [Option.map_eq_some_iff] at h
  obtain ⟨x, hx, rfl⟩ := h
  have hp := List.find?_some hx
  exact (Bool.and_eq_true_iff.mp hp).2

theorem code_injective {p q : Plevel} (h : p.code = q.code) : p = q := by
  cases p <;> cases q <;> first | rfl | exact absurd h (by decide)

/-- A handling mode is never below the current one, so a global enable lets its interrupts in. -/
theorem lets_of_xie {m : Machine} {ecode : Word} {h : Plevel}
    (ht : trapModeSelect ecode true m.cp m.csr = some h) (he : m.csr.xie h = 1) :
    lets m ecode = true := by
  unfold lets
  rw [ht]
  dsimp only
  rw [decide_eq_true_iff]
  by_cases hc : h = m.cp
  · exact .inr ⟨hc, he⟩
  · refine .inl (BitVec.lt_of_le_ne (trapModeSelect_rank ht) fun h' => hc ?_)
    exact (code_injective h').symm

theorem interrupted_enter {h : Plevel} {ecode : Word} {m : Machine} (hh : h.handles)
    (hv : (m.csr.tvec h).mode ≠ 1) : Interrupted h ecode m (enter h 1 ecode m.pc
      (if (m.csr.tvec h).mode = 0 then (m.csr.tvec h).base else 0) m) where
  cp := enter_cp _ _ _ _ _ hh
  epc := enter_epc _ _ _ _ _ hh
  cause := enter_cause _ _ _ _ _ hh
  xie := by rcases hh with rfl | rfl <;> rfl
  direct h0 := by rw [enter_pc, if_pos h0]
  vectored h1 := absurd h1 hv

/-- Neither an exception nor a declined interrupt looks like the entry into the handler of a
deliverable interrupt. -/
theorem not_interrupted_exception {h k : Plevel} {ecode ecode' epc pc : Word} {m m' : Machine}
    (hk : k.handles) (hi : Interrupted h ecode m (enter k 0 ecode' epc pc m')) : False := by
  have hcp : k = h := (enter_cp 0 ecode' epc pc m' hk).symm.trans hi.cp
  subst hcp
  have hc := (enter_cause 0 ecode' epc pc m' hk).symm.trans hi.cause
  exact absurd (Cause.mk.inj hc).1 (by decide)

theorem not_interrupted_same {h : Plevel} {ecode : Word} {m : Machine}
    (ht : trapModeSelect ecode true m.cp m.csr = some h) (hl : lets m ecode = true)
    (hi : Interrupted h ecode m m) : False := by
  unfold lets at hl
  rw [ht] at hl
  rcases of_decide_eq_true hl with hlt | ⟨-, he⟩
  · rw [hi.cp] at hlt
    exact absurd hlt (BitVec.lt_irrefl _)
  · exact absurd (hi.xie.symm.trans he) (by decide)

theorem selects_of_ldAccFault {m : Machine} (hl : m.flags.ldAccFault = true) :
    SelectsInterrupt m ↔ firstDeliverable m = none := by
  unfold SelectsInterrupt
  split
  · rename_i ecode hd
    rw [hd]
    refine iff_of_false ?_ (by simp)
    rintro ⟨h, m', -, hs, hi⟩
    cases selectTrap_ret hs with
    | none hf => exact absurd (hl.symm.trans hf) (by decide)
    | declined e k hf => exact absurd (hl.symm.trans hf) (by decide)
    | interrupt e k hf => exact absurd (hl.symm.trans hf) (by decide)
    | exception e k f hf _ _ hk => exact not_interrupted_exception hk hi
  · rename_i hd
    exact iff_of_true (.inr (by rw [exceptionsOnly, if_pos hl])) hd

theorem selectTrap_of_interrupt {m : Machine} {ecode : Word} (hl : m.flags.ldAccFault = false)
    (hp : selectInterrupt m.csr = some ecode) : selectTrap m = raiseInterrupt ecode m := by
  rw [selectTrap_eq hl, hp]

theorem selects_of_selectable {m : Machine} (hl : m.flags.ldAccFault = false)
    (hc : ∀ ecode, selectInterrupt m.csr = some ecode →
      ∃ h, trapModeSelect ecode true m.cp m.csr = some h ∧
        ((m.csr.xie h ≠ 1 ∧ firstDeliverable m = none) ∨
          (m.csr.xie h = 1 ∧ h.handles ∧ (m.csr.tvec h).mode ≠ 1 ∧
            ((m.csr.tvec h).mode = 0 → m.cp ≠ .mmode)))) : SelectsInterrupt m := by
  unfold SelectsInterrupt
  cases hp : selectInterrupt m.csr with
  | none =>
    rw [firstDeliverable_none hp]
    right
    rw [exceptionsOnly, if_neg (by simp [hl]), selectTrap_eq hl, hp]
  | some ecode =>
    obtain ⟨h, ht, ⟨he, hd⟩ | ⟨he, hh, hv, hm⟩⟩ := hc ecode hp
    · rw [hd]
      left
      rw [selectTrap_of_interrupt hl hp, raiseInterrupt_declines ht he]
    · rw [firstDeliverable_of_lets hp (lets_of_xie ht he)]
      refine ⟨h, _, ht, ?_, interrupted_enter hh hv⟩
      rw [selectTrap_of_interrupt hl hp, raiseInterrupt_takes ht he hh hv hm]

theorem selectable_of_selects {m : Machine} (hl : m.flags.ldAccFault = false)
    (hs : SelectsInterrupt m) {ecode : Word} (hp : selectInterrupt m.csr = some ecode) :
    ∃ h, trapModeSelect ecode true m.cp m.csr = some h ∧
      ((m.csr.xie h ≠ 1 ∧ firstDeliverable m = none) ∨
        (m.csr.xie h = 1 ∧ h.handles ∧ (m.csr.tvec h).mode ≠ 1 ∧
          ((m.csr.tvec h).mode = 0 → m.cp ≠ .mmode))) := by
  have htrap := selectTrap_of_interrupt hl hp
  unfold SelectsInterrupt at hs
  split at hs
  · rename_i e hd
    obtain ⟨h, m', ht, hret, hi⟩ := hs
    rw [htrap] at hret
    obtain ⟨k, hk, ⟨he, rfl⟩ | ⟨he, hh, hv, hm, rfl⟩⟩ := raiseInterrupt_ret hret
    · exact (not_interrupted_same ht (lets_of_firstDeliverable hd) hi).elim
    · exact ⟨k, hk, .inr ⟨he, hh, hv, hm⟩⟩
  · rename_i hd
    cases ht : trapModeSelect ecode true m.cp m.csr with
    | none =>
      -- outside the three modes the selection ends in undefined behaviour, with the flags in place
      have hstop : raiseInterrupt ecode m = .stop .undefined m := by
        unfold raiseInterrupt interruptFunction
        dsimp only
        rw [ht]
      rw [htrap, hstop, exceptionsOnly, if_neg (by simp [hl]), selectException_eq] at hs
      rcases hs with hs | hs
      · cases hs
      · split at hs
        · cases hs
        · rename_i hf
          have hsame := congrArg Machine.flags (raiseExcep_stop_same hs.symm)
          exact absurd hsame.symm (first_ne hf)
    | some h =>
      refine ⟨h, rfl, .inl ⟨fun he => ?_, hd⟩⟩
      rw [firstDeliverable_of_lets hp (lets_of_xie ht he)] at hd
      cases hd

theorem selects_iff_selectable (m : Machine) : SelectsInterrupt m ↔ Selectable m := by
  unfold Selectable
  cases hl : m.flags.ldAccFault with
  | true =>
    rw [if_pos rfl]
    exact selects_of_ldAccFault hl
  | false =>
    rw [if_neg Bool.false_ne_true]
    exact ⟨fun hs _ hp => selectable_of_selects hl hs hp, selects_of_selectable hl⟩

/-- At the end of any instruction, the interrupt selection is the architectural one exactly under
that condition. -/
theorem interrupt_selection_iff (s : State) :
    SelectsInterrupt (refresh s.toMachine) ↔ Selectable (refresh s.toMachine) :=
  selects_iff_selectable _

/-- `csrrwi mstatus, 0`; `csrrwi mie, 2`; `auipc x1, 0`; `addi x1, x1, 16`; `csrrw x0, sepc, x1`;
`sret` into user mode; and there `csrrwi mip, 2`. -/
def undeliveredProgram : List Word :=
  [0x30005073, 0x30415073, 0x00000097, 0x01008093, 0x14109073, 0x10200073, 0x34415073]

/-- A supervisor software interrupt in user mode that machine mode would have to take, and whose
global enable is clear. -/
def Ignored (m : Machine) : Prop :=
  firstDeliverable m = some causeSupervisorSoftInt ∧
    trapModeSelect causeSupervisorSoftInt true m.cp m.csr = some .mmode ∧ m.cp = .umode ∧
    m.flags.ldAccFault = false ∧ m.csr.mstatus.mie = 0 ∧
    selectInterrupt m.csr = some causeSupervisorSoftInt

instance (m : Machine) : Decidable (Ignored m) :=
  inferInstanceAs (Decidable (_ ∧ _ ∧ _ ∧ _ ∧ _ ∧ _))

theorem not_selects_of_ignored {m : Machine} (h : Ignored m) : ¬ SelectsInterrupt m := by
  obtain ⟨hd, hm, hcp, hf, hie, hp⟩ := h
  have hne : m.csr.xie .mmode ≠ 1 := by
    show m.csr.mstatus.mie ≠ 1
    rw [hie]
    decide
  intro hsel
  unfold SelectsInterrupt at hsel
  rw [hd] at hsel
  obtain ⟨k, m', hk, hret, hi⟩ := hsel
  rw [selectTrap_of_interrupt hf hp, raiseInterrupt_declines hm hne] at hret
  cases hret
  exact not_interrupted_same hk (lets_of_firstDeliverable hd) hi

/-- The supervisor software interrupt is not delegated, so it is deliverable in user mode; the code
asks for `mstatus.MIE` all the same. -/
theorem interrupt_selection_fails :
    ¬ ∀ (image : Memory) (time : Word) (is : List Input) (s s' : State) (inp : Input),
      Run Next (boot image time) is s → atLoopEnd inp s = some s' →
      SelectsInterrupt (refresh s'.toMachine) := by
  intro h
  obtain ⟨t, hr, ht⟩ := exists_run (boot (imageOf undeliveredProgram) 0)
    (List.replicate 6 (quiet 0))
    (fun s => (atLoopEnd (quiet 0) s).any fun s' => Ignored (refresh s'.toMachine))
    (by decide +kernel)
  obtain ⟨s', hl, hs'⟩ := (Option.any_eq_true _ _).mp ht
  exact not_selects_of_ignored (of_decide_eq_true hs') (h _ _ _ _ _ _ hr hl)

end RiscvEmu
