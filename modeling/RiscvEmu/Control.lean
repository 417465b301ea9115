import RiscvEmu.InterruptSelection

/-! The rule for invariants of the privilege and the control and status registers: an iteration
changes them by the steps that `ControlInvariant` lists and by no other. -/

namespace RiscvEmu

variable {inp : Input} {ins : Word} {s : State} {P : Machine → Prop}

def IsMret (ins : Word) : Prop := opcode ins = .systm ∧ func3 ins = 0 ∧ imm11_0 ins = 770

def IsSret (ins : Word) : Prop := opcode ins = .systm ∧ func3 ins = 0 ∧ imm11_0 ins = 258

instance (ins : Word) : Decidable (IsCsr ins) := inferInstanceAs (Decidable (_ ∧ _ ∧ _))

instance (ins : Word) : Decidable (IsMret ins) := inferInstanceAs (Decidable (_ ∧ _ ∧ _))

instance (ins : Word) : Decidable (IsSret ins) := inferInstanceAs (Decidable (_ ∧ _ ∧ _))

def Fetched.word? : Fetched → Option Word
  | .word w => some w
  | _ => none

theorem mem_word? {f : Fetched} : ins ∈ f.word? ↔ f = .word ins := by
  cases f with
  | word w => simp only [Fetched.word?, Option.mem_def, Option.some.injEq, Fetched.word.injEq]
  | fault => simp only [Fetched.word?, Option.mem_def, reduceCtorEq]
  | stop h => simp only [Fetched.word?, Option.mem_def, reduceCtorEq]

def switchMachine (inp : Input) (s : State) : Machine := advance (tick inp s.toMachine)

def switchState (inp : Input) (s : State) : State :=
  decoded { s with toMachine := tick inp s.toMachine }

def executed (inp : Input) (s : State) : Option Word := (fetch (tick inp s.toMachine)).word?

theorem executed_iff : ins ∈ executed inp s ↔ fetch (tick inp s.toMachine) = .word ins := mem_word?

theorem mret_falls (inp : Input) (s : State) (hi : IsMret ins) :
    execute inp ins s = .fall { s with toMachine := mret s.toMachine } := by
  obtain ⟨ho, h3, h12⟩ := hi
  rw [execute_systm ho, armSystm, h3, privileged, h12]
  rfl

theorem sret_falls (inp : Input) (s : State) (hi : IsSret ins) :
    execute inp ins s = .fall { s with toMachine := sret s.toMachine } := by
  obtain ⟨ho, h3, h12⟩ := hi
  rw [execute_systm ho, armSystm, h3, privileged, h12]
  rfl

/-- The steps by which the iteration from `s` may change the privilege and the registers. -/
structure ControlInvariant (inp : Input) (s : State) (P : Machine → Prop) : Prop where
  frame : ∀ {m m' : Machine}, P m → m'.cp = m.cp → m'.csr = m.csr → P m'
  tick : P s.toMachine → P (tick inp s.toMachine)
  tval : ∀ {m : Machine} (a b c : Word), P m →
    P { m with csr := { m.csr with mtval := a, stval := b, utval := c } }
  seip : ∀ {m : Machine} (b : Byte), b ≤ 1 → P m → P (setSeip m b)
  stip : ∀ {m : Machine} (b : Byte), b ≤ 1 → P m →
    P { m with csr := { m.csr with mip := { m.csr.mip with stip := b } } }
  sd : ∀ {m : Machine} (b : Byte), b ≤ 1 → P m →
    P { m with csr := { m.csr with mstatus := { m.csr.mstatus with sd := b } } }
  assign : ∀ {ins : Word} {n : CsrName} {c : Csrs},
    fetch (RiscvEmu.tick inp s.toMachine) = .word ins → IsCsr ins → n.addr = imm11_0 ins →
    readable s.cp n = true → (switchMachine inp s).csr.assign (csrOperand ins (switchMachine inp s)
      ((switchMachine inp s).csr.value n)) n = some c →
    P (switchMachine inp s) → P { switchMachine inp s with csr := c }
  enter : ∀ {m : Machine} {h : Plevel} {b : Bool} {i : Byte} {ecode : Word} (epc pc : Word),
    trapModeSelect ecode b m.cp m.csr = some h → h.handles → i ≤ 1 → ecode ≤ 15 → P m →
    P (RiscvEmu.enter h i ecode epc pc m)
  mret : ∀ {ins : Word}, fetch (RiscvEmu.tick inp s.toMachine) = .word ins → IsMret ins →
    P (switchMachine inp s) → P (RiscvEmu.mret (switchMachine inp s))
  sret : ∀ {ins : Word}, fetch (RiscvEmu.tick inp s.toMachine) = .word ins → IsSret ins →
    P (switchMachine inp s) → P (RiscvEmu.sret (switchMachine inp s))

theorem ecall_enters {pc : Word} {m m' : Machine}
    (h : excepFunction m.pc causeMachineEcall causeSupervisorEcall causeUserEcall m.cp m =
      .ret pc m') :
    ∃ hm ecode, hm.handles ∧ trapModeSelect ecode false m.cp m.csr = some hm ∧ ecode ≤ 15 ∧
      pc = (m.csr.tvec hm).base ∧ m' = enter hm 0 ecode (m.pc - 4) m.pc m := by
  obtain ⟨hm, ht, hh⟩ := excepFunction_ret h
  rw [excepFunction_of_mode ht hh] at h
  cases h
  refine ⟨hm, _, hh, ht, ?_, rfl, ?_⟩
  · generalize m.cp = cp
    cases cp <;> decide
  · rcases hh with rfl | rfl <;> rfl

theorem selectInterrupt_code {c : Csrs} {ecode : Word} (h : selectInterrupt c = some ecode) :
    ecode ≤ 15 := by
  rw [selectInterrupt_eq_find] at h
  obtain ⟨x, hx, rfl⟩ := Option.map_eq_some_iff.mp h
  have hmem : x.1 ∈ c.sources.map Prod.fst := List.mem_map_of_mem (List.mem_of_find?_eq_some hx)
  simp only [Csrs.sources, List.map_cons, List.map_nil, List.mem_cons, List.not_mem_nil,
    or_false] at hmem
  rcases hmem with h | h | h | h | h | h | h | h | h <;> rw [h] <;> decide

theorem first_code {f g : Flags} {ecode : Word} (h : f.first = some (ecode, g)) : ecode < 8 := by
  unfold Flags.first at h
  repeat' split at h
  all_goals cases h <;> decide

namespace ControlInvariant

theorem setMtval {m : Machine} (hP : ControlInvariant inp s P) (v : Word) (h : P m) :
    P (RiscvEmu.setMtval m v) := hP.tval v m.csr.stval m.csr.utval h

theorem faultTval {m : Machine} (hP : ControlInvariant inp s P) (h : P m) :
    P (RiscvEmu.faultTval m) := by
  unfold RiscvEmu.faultTval
  split
  · exact hP.tval 0 m.csr.mtval m.csr.utval h
  · exact hP.tval 0 m.csr.stval m.csr.mtval h
  · exact h

theorem loadSide {m m' : Machine} (hP : ControlInvariant inp s P) (hs : LoadSide m m') (h : P m) :
    P m' := by
  rcases hs with rfl | ⟨-, rfl⟩
  · exact h
  · exact hP.seip 0 (by decide) (hP.frame h rfl rfl)

theorem effect {m : Machine} (hP : ControlInvariant inp s P)
    (hf : fetch (RiscvEmu.tick inp s.toMachine) = .word ins)
    (he : Effect inp ins (switchMachine inp s) m) (h : P (switchMachine inp s)) : P m := by
  cases he with
  | load m1 r hs => exact hP.frame (hP.loadSide hs h) rfl rfl
  | loadMis m1 va hs => exact hP.setMtval va (hP.frame (hP.loadSide hs h) rfl rfl)
  | timecmp v =>
    have h' := hP.stip 0 (by decide) h
    exact hP.frame h' rfl rfl
  | complete =>
    refine hP.seip _ ?_ (hP.frame h rfl rfl)
    split <;> decide
  | device as m1 hd =>
    exact deviceActs_invariant (fun x _ _ h => hP.frame h rfl rfl)
      (fun x _ b hb h => hP.seip b hb (hP.frame h rfl rfl)) hd h
  | amoMis va r => exact hP.setMtval va (hP.frame h rfl rfl)
  | scMis w va pa r => exact hP.setMtval va (hP.frame h rfl rfl)
  | illegal r => exact hP.setMtval ins (hP.frame h rfl rfl)
  | csr n c r hn hc ha ho =>
    have h' := hP.assign hf ho ha hn hc h
    exact hP.frame h' rfl rfl
  | ecall pc m1 hx =>
    obtain ⟨k, e, hk, ht, hle, -, rfl⟩ := ecall_enters hx
    have h' := hP.enter ((switchMachine inp s).pc - 4) (switchMachine inp s).pc ht hk (i := 0)
      (by decide) hle h
    exact hP.frame h' rfl rfl
  | mret ho hi => exact hP.mret hf ⟨ho, hi⟩ h
  | sret ho hi => exact hP.sret hf ⟨ho, hi⟩ h
  | _ => exact hP.frame h rfl rfl

theorem refresh {m : Machine} (hP : ControlInvariant inp s P) (h : P m) :
    P (RiscvEmu.refresh m) := by
  have hsd := hP.sd (if m.csr.mstatus.fs = 3 then 1 else 0) (by split <;> decide) h
  exact hP.stip (if m.mtime ≥ m.mtimecmp then 1 else 0) (by split <;> decide) hsd

theorem selected {m m' : Machine} (hP : ControlInvariant inp s P) (hs : Selected m m') (h : P m) :
    P m' := by
  cases hs with
  | none => exact h
  | declined => exact h
  | interrupt e k _ hi ht _ hk =>
    exact hP.enter _ _ ht hk (by decide) (selectInterrupt_code hi) h
  | exception e k f hf hl ht hk =>
    have he : e ≤ 15 := by
      rcases hf with hacc | ⟨-, hfirst⟩
      · rw [(hl hacc).1]
        decide
      · have hlt := first_code hfirst
        rw [BitVec.lt_def] at hlt
        exact BitVec.le_def.mpr (Nat.le_of_lt (Nat.lt_trans hlt (by decide)))
    exact hP.enter (m := { m with flags := f }) _ _ ht hk (by decide) he
      (hP.frame h rfl rfl)

theorem turn {m : Machine} (hP : ControlInvariant inp s P) (ht : Turn inp s m) (h : P s.toMachine) :
    P m := by
  have h0 : P (RiscvEmu.tick inp s.toMachine) := hP.tick h
  have h1 : P (switchMachine inp s) := hP.frame h0 rfl rfl
  cases ht with
  | fetchFault k hk hm =>
    have he : P (RiscvEmu.enter k 0 causeFetchPageFault s.pc (s.csr.tvec k).base
      (RiscvEmu.tick inp s.toMachine)) := hP.enter _ _ hm hk (by decide) (by decide) h0
    have hv := hP.tval s.pc s.pc s.pc he
    exact hP.frame hv (by rcases hk with rfl | rfl <;> rfl) (by rcases hk with rfl | rfl <;> rfl)
  | cont ins m _ hc =>
    cases hc with
    | fence => exact h1
    | fault k e va hk hm he =>
      have hle : e ≤ 15 := by rcases he with rfl | rfl <;> decide
      exact hP.faultTval (hP.setMtval va (hP.enter _ _ (m := switchMachine inp s) hm hk (by decide)
        hle h1))
  | fall s' ins m _ hf he hs => exact hP.selected hs (hP.refresh (hP.effect hf he h1))

end ControlInvariant

open Runs in
theorem control_of_run {guard : Input → State → Prop} {image : Memory} {time : Word}
    {is : List Input} (hP : ∀ inp s, guard inp s → P s.toMachine → ControlInvariant inp s P)
    (h0 : P (boot image time).toMachine)
    (h : Run (Guarded guard Next) (boot image time) is s) : P s.toMachine :=
  Run.invariant (P := fun s => P s.toMachine) h0
    (fun inp s _ hs hn => (hP inp s hn.1 hs).turn (next_turn hn.2) hs) h

end RiscvEmu
