import RiscvEmu.Turn

/-! Precise synchronous exceptions. An instruction that raises an exception flag has it delivered in
its own iteration exactly when the trap selection finds no interrupt both pending and enabled, since
the interrupt tests come first in the chain even where `interrupt_function` then declines. -/

namespace RiscvEmu

open Runs

variable {inp : Input} {ins : Word}

/-- The instruction raises no exception flag, or the trap selection finds no interrupt and a mode
that handles the exception. -/
def Undisturbed (inp : Input) (s : State) : Prop :=
  ∀ s' ∈ atLoopEnd inp s, ∀ e ∈ s'.flags.first,
    selectInterrupt (refresh s'.toMachine).csr = none ∧
      ∃ hm ∈ trapModeSelect e.1 false s'.cp s'.csr, hm.handles

instance (inp : Input) (s : State) : Decidable (Undisturbed inp s) :=
  inferInstanceAs (Decidable (∀ s' ∈ atLoopEnd inp s, ∀ e ∈ s'.flags.first, _ ∧ _))

/-- What precision asks of the iteration: the exception is delivered in it, with the address of the
instruction as the exception program counter, and no flag stays behind. -/
def Delivers (inp : Input) (s : State) : Prop :=
  ∀ s' ∈ atLoopEnd inp s, ∀ e ∈ s'.flags.first, ∃ hm u, hm.handles ∧ Completes inp s u ∧
    u.cp = hm ∧ u.csr.epc hm = s.pc ∧ u.csr.cause hm = ⟨0, e.1⟩ ∧
    u.pc = (s'.csr.tvec hm).base ∧ u.flags = Flags.clear

/-- What an arm may do with the flags: leave them clear, or raise one at its own address. -/
def Raised (m m' : Machine) : Prop :=
  m'.flags = Flags.clear ∨
    ∃ ecode, m'.flags.first = some (ecode, Flags.clear) ∧ m'.flags.ldAccFault = false ∧ m'.pc = m.pc

theorem raised_of_loadSide {m m' : Machine} (hs : LoadSide m m') :
    m'.flags = m.flags ∧ m'.pc = m.pc := by
  rcases hs with rfl | ⟨-, rfl⟩ <;> exact ⟨rfl, rfl⟩

theorem Effect.raised {m m' : Machine} (he : Effect inp ins m m') (hf : m.flags = Flags.clear) :
    Raised m m' := by
  cases he with
  | load m1 r hs => exact .inl ((raised_of_loadSide hs).1.trans hf)
  | loadMis m1 va hs =>
    obtain ⟨hfl, hpc⟩ := raised_of_loadSide hs
    refine .inr ⟨causeMisalignedLoad, ?_, ?_, hpc⟩
    · simp only [setMtval, hfl, hf]
      rfl
    · simp only [setMtval, hfl, hf]
      rfl
  | device as m1 h =>
    refine .inl ?_
    exact deviceActs_invariant (P := fun x => x.flags = Flags.clear) (fun _ _ _ h => h)
      (fun _ _ _ _ h => h) h hf
  | ecall pc m1 h =>
    obtain ⟨hm, e, epc, -, -, -, rfl⟩ := excepFunction_enters h
    exact .inl ((enter_flags hm 0 e epc _ m).trans hf)
  | amoMis va r =>
    exact .inr ⟨causeMisalignedStore, by simp only [setMtval, hf]; rfl,
      by simp only [setMtval, hf]; rfl, rfl⟩
  | scMis w va pa r =>
    exact .inr ⟨causeMisalignedStore, by simp only [setMtval, hf]; rfl,
      by simp only [setMtval, hf]; rfl, rfl⟩
  | illegal r =>
    exact .inr ⟨causeIllegalInstruction, by simp only [setMtval, hf]; rfl,
      by simp only [setMtval, hf]; rfl, rfl⟩
  | ebreak => exact .inr ⟨causeBreakpoint, by simp only [hf]; rfl, by simp only [hf]; rfl, rfl⟩
  | _ => exact .inl hf

theorem atLoopEnd_raised {s s' : State} (h : atLoopEnd inp s = some s')
    (hf : s.flags = Flags.clear) :
    s'.flags = Flags.clear ∨ ∃ ecode, s'.flags.first = some (ecode, Flags.clear) ∧
      s'.flags.ldAccFault = false ∧ s'.pc = s.pc + 4 := by
  obtain ⟨ins, -, he⟩ := atLoopEnd_effect h
  exact he.raised hf

theorem selectTrap_raised {m : Machine} {ecode : Word} {f : Flags} {hm : Plevel}
    (hl : m.flags.ldAccFault = false) (hf : m.flags.first = some (ecode, f))
    (hi : selectInterrupt m.csr = none) (ht : trapModeSelect ecode false m.cp m.csr = some hm)
    (hh : hm.handles) :
    selectTrap m =
      .ret () (enter hm 0 ecode (m.pc - 4) (m.csr.tvec hm).base { m with flags := f }) := by
  rw [selectTrap_eq hl, hi]
  dsimp only
  rw [selectException_eq, hf]
  dsimp only
  exact raiseExcep_of_mode (m := { m with flags := f }) ht hh

/-- Whatever the selection does to a raised flag, it clears it only by delivering the exception. -/
theorem selected_clear {m m' : Machine} (h : Selected m m') (hl : m.flags.ldAccFault = false)
    {ecode : Word} (hf : m.flags.first = some (ecode, Flags.clear))
    (hc : m'.flags = Flags.clear) :
    selectInterrupt m.csr = none ∧ ∃ hm ∈ trapModeSelect ecode false m.cp m.csr, hm.handles := by
  have raised : m.flags ≠ Flags.clear := by
    intro h
    rw [h] at hf
    cases hf
  cases h with
  | none _ hi hn =>
    rw [hf] at hn
    cases hn
  | declined => exact absurd hc raised
  | interrupt e hm => exact absurd ((enter_flags hm 1 e _ _ m).symm.trans hc) raised
  | exception e hm f he _ ht hh =>
    rw [hl, hf] at he
    obtain ⟨hi, heq⟩ := he.resolve_left Bool.false_ne_true
    cases heq
    exact ⟨hi, hm, ht, hh⟩

theorem selected_flags {m m' : Machine} (h : Selected m m') (hf : m.flags = Flags.clear) :
    m'.flags = Flags.clear := by
  cases h with
  | none => exact hf
  | declined => exact hf
  | interrupt e hm => exact (enter_flags hm 1 e _ _ m).trans hf
  | exception e hm f he =>
    rw [hf] at he
    rcases he with he | ⟨-, he⟩ <;> cases he

theorem selected_consumes {m m' : Machine} (h : Selected m m') (hl : m.flags.ldAccFault = false)
    {ecode : Word} {f : Flags} (hf : m.flags.first = some (ecode, f))
    (hi : selectInterrupt m.csr = none) : m'.flags = f := by
  cases h with
  | none _ _ hn =>
    rw [hf] at hn
    cases hn
  | declined e hm _ he =>
    rw [hi] at he
    cases he
  | interrupt e hm _ he =>
    rw [hi] at he
    cases he
  | exception e hm g he =>
    rw [hl, hf] at he
    cases (he.resolve_left Bool.false_ne_true).2
    exact enter_flags hm 0 ecode _ _ _

/-- One step: an undisturbed iteration from clear flags ends with clear flags. -/
theorem flags_clear_of_turn {s : State} {m : Machine} (hu : Undisturbed inp s) (h : Turn inp s m)
    (hf : s.flags = Flags.clear) : m.flags = Flags.clear := by
  cases h with
  | fetchFault hm => exact (fetchFaulted_flags hm _).trans hf
  | cont ins m hw hc =>
    cases hc with
    | fence => exact hf
    | fault hm ecode va => exact (faulted_flags hm ecode va _).trans hf
  | fall s' ins m hl hw he ht =>
    rcases atLoopEnd_raised hl hf with hc | ⟨ecode, hfirst, hacc, -⟩
    · exact selected_flags ht hc
    · exact selected_consumes ht hacc hfirst (hu s' hl _ hfirst).1

theorem delivers_iff_undisturbed {s : State} (hf : s.flags = Flags.clear) :
    Delivers inp s ↔ Undisturbed inp s := by
  constructor
  · intro hd s' hl e he
    obtain ⟨hm, u, hh, hu, -, -, -, -, hc⟩ := hd s' hl e he
    rcases atLoopEnd_raised hl hf with hclear | ⟨ecode, hfirst, hacc, -⟩
    · rw [hclear] at he
      cases he
    · cases hfirst.symm.trans he
      obtain ⟨m, hm, rfl⟩ := (completes_iff_of_atLoopEnd hl).mp hu
      exact selected_clear (selectTrap_ret hm) hacc hfirst hc
  · intro hu s' hl e he
    rcases atLoopEnd_raised hl hf with hclear | ⟨ecode, hfirst, hacc, hpc⟩
    · rw [hclear] at he
      cases he
    · obtain ⟨hi, hm, hmode, hh⟩ := hu s' hl e he
      cases hfirst.symm.trans he
      have hs := selectTrap_raised (m := refresh s'.toMachine) hacc hfirst hi hmode hh
      refine ⟨hm, _, hh, (completes_iff_of_atLoopEnd hl).mpr ⟨_, hs, rfl⟩, enter_cp _ _ _ _ _ hh,
        ?_, enter_cause _ _ _ _ _ hh, enter_pc _ _ _ _ _ _, enter_flags _ _ _ _ _ _⟩
      rw [enter_epc _ _ _ _ _ hh]
      exact (congrArg (· - 4) hpc).trans (BitVec.add_sub_cancel _ _)

theorem flags_clear_of_run {guard : Input → State → Prop} {image : Memory} {time : Word}
    {is : List Input} {s : State} (hg : ∀ i s, guard i s → Undisturbed i s)
    (h : Run (Guarded guard Next) (boot image time) is s) : s.flags = Flags.clear :=
  Run.invariant (P := fun s => s.flags = Flags.clear) rfl
    (fun i s _ hf hs => flags_clear_of_turn (hg i s hs.1) (next_turn hs.2) hf) h

/-- In a run whose iterations are all undisturbed, every exception flag is clear at the top of every
iteration, and the next exception is delivered precisely if and only if it too is undisturbed. -/
theorem exceptions_precise {image : Memory} {time : Word} {is : List Input} {s : State}
    (h : Run (Guarded Undisturbed Next) (boot image time) is s) :
    s.flags = Flags.clear ∧ ∀ inp, Delivers inp s ↔ Undisturbed inp s := by
  have hf : s.flags = Flags.clear := flags_clear_of_run (fun _ _ hg => hg) h
  exact ⟨hf, fun inp => delivers_iff_undisturbed hf⟩

def illegalProgram : List Word := [0x3400d073, 0x00000007]

/-- The word is delivered with its own address after one undisturbed iteration. -/
theorem exceptions_precise_illegal :
    ∃ s, Run (Guarded Undisturbed Next) (boot (imageOf illegalProgram) 0) [quiet 0] s ∧
      s.pc = dramBase + 4 ∧ Delivers (quiet 0) s := by
  have hu : ∀ s ∈ next? (quiet 0) (boot (imageOf illegalProgram) 0),
      s.pc = dramBase + 4 ∧ Undisturbed (quiet 0) s := by decide +kernel
  cases hn : next? (quiet 0) (boot (imageOf illegalProgram) 0) with
  | none => exact absurd hn (by decide +kernel)
  | some s =>
    obtain ⟨hpc, hs⟩ := hu s hn
    have hr : Run (Guarded Undisturbed Next) (boot (imageOf illegalProgram) 0) [quiet 0] s :=
      .next .start ⟨by decide +kernel, next_of_next? hn⟩
    exact ⟨s, hr, hpc, ((exceptions_precise hr).2 (quiet 0)).mpr hs⟩

/-- `csrrwi mstatus, 0`, `csrrwi mie, 2`, `csrrwi mip, 2` and then a word that is no instruction:
with the interrupt globally masked, the raised flag survives. -/
def maskedProgram : List Word := [0x30005073, 0x30415073, 0x34415073, 0x00000007]

theorem exceptions_not_precise :
    ¬ ∀ (image : Memory) (time : Word) (is : List Input) (s : State),
      Run Next (boot image time) is s → s.flags = Flags.clear := by
  intro h
  obtain ⟨t, hr, ht⟩ := exists_run (boot (imageOf maskedProgram) 0) (List.replicate 4 (quiet 0))
    (fun s => s.flags.illIns) (by decide +kernel)
  have hc := h _ _ _ _ hr
  rw [hc] at ht
  cases ht

end RiscvEmu
