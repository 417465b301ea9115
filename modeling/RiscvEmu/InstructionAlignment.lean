import RiscvEmu.ByteMemory
import RiscvEmu.CsrWellFormed
import RiscvEmu.Sv39Protection

/-! Where the program counter comes from, and when it is a multiple of 4. -/

namespace RiscvEmu

open Bytes Runs Sv39

variable {inp : Input} {ins p : Word} {s s' t : State}

def Aligned (p : Word) : Prop := p.toNat % 4 = 0

instance (p : Word) : Decidable (Aligned p) := inferInstanceAs (Decidable (_ = _))

def target (ins : Word) (s : State) : Option Word :=
  match opcode ins with
  | .jump => some ((s.pc - 4) + signExtend (immJ ins) 21)
  | .jumpr => some ((s.reg (rs1 ins) + signExtend (imm11_0 ins) 12) &&& 0xFFFFFFFFFFFFFFFE)
  | .cjump => if branchTest ins s then some (s.pc - 4 + signExtend (immB ins) 13) else none
  | _ => none

/-- No jump or taken branch has a misaligned target, and no trap return a misaligned `epc`. -/
def TargetsAligned (inp : Input) (s : State) : Prop :=
  ∀ ins ∈ executed inp s, (∀ p ∈ target ins (switchState inp s), Aligned p) ∧
    (IsMret ins → Aligned s.csr.mepc) ∧ (IsSret ins → Aligned s.csr.sepc)

instance (inp : Input) (s : State) : Decidable (TargetsAligned inp s) :=
  haveI (ins : Word) : Decidable (∀ p ∈ target ins (switchState inp s), Aligned p) :=
    Option.decidableForallMem (p := Aligned) _
  Option.decidableForallMem (executed inp s) (p := fun ins =>
    (∀ p ∈ target ins (switchState inp s), Aligned p) ∧
      (IsMret ins → Aligned s.csr.mepc) ∧ (IsSret ins → Aligned s.csr.sepc))

/-- The iteration raises the misaligned-fetch exception of its own instruction, with no register
written. -/
def RaisesMisaligned (inp : Input) (s : State) : Prop :=
  ∃ (t : State) (k : Plevel), Next inp s t ∧ t.cp = k ∧
    t.csr.cause k = ⟨0, causeMisalignedFetch⟩ ∧ t.csr.epc k = s.pc ∧
    t.pc = (s.csr.tvec k).base ∧ ∀ r ≠ 0, t.regFile r = s.regFile r

structure AlignedIteration (inp : Input) (s : State) : Prop where
  targets : ∀ ins ∈ executed inp s, ∀ p ∈ target ins (switchState inp s), ¬ Aligned p →
    RaisesMisaligned inp s
  returns : ∀ ins ∈ executed inp s, IsMret ins ∨ IsSret ins →
    ∀ s' ∈ atLoopEnd inp s, Aligned s'.pc
  next : ∀ t, Next inp s t → Aligned t.pc
  word : ∀ ins ∈ executed inp s, ∃ pa, Aligned pa ∧ dramBase ≤ pa ∧
    translate (tick inp s.toMachine).csr (tick inp s.toMachine).mem s.pc .inst s.cp = .ok pa ∧
    ins = RiscvEmu.word (tick inp s.toMachine).mem.byte (pa - dramBase).toNat 4

theorem aligned_add_four : Aligned (p + 4) ↔ Aligned p := by
  unfold Aligned
  rw [BitVec.toNat_add]
  show (p.toNat + 4) % 2 ^ 64 % 4 = 0 ↔ _
  omega

theorem aligned_sub_four : Aligned (p - 4) ↔ Aligned p := by
  rw [← aligned_add_four, BitVec.sub_add_cancel]

/-! ### The fetch -/

theorem translate_aligned {c : Csrs} {mem : Memory} {va pa : Word} {ty : Ttype} {cp : Plevel}
    (h : translate c mem va ty cp = .ok pa) (hpa : pa ≠ -1) (hva : Aligned va) : Aligned pa := by
  have hwalk (h : walk c mem va ty = .ok pa) : Aligned pa := by
    obtain ⟨k, w, -, -, hp⟩ := (walk_granted_iff hpa).mp h
    have hdvd : 2 ^ 2 ∣ 2 ^ (12 + 9 * k) := Nat.pow_dvd_pow 2 (by omega)
    have hmod : va.toNat % 2 ^ (12 + 9 * k) % 4 = 0 := (Nat.mod_mod_of_dvd _ hdvd).trans hva
    obtain ⟨d, hd⟩ := hdvd.mul_left (ppn w / 2 ^ (9 * k))
    unfold Aligned
    rw [hp, leafAddress, hd]
    omega
  unfold translate at h
  split at h
  · cases h
    exact hva
  · split at h
    · cases h
      exact hva
    split at h
    · cases h
      exact hva
    split at h
    · cases h
      exact hva
    · exact hwalk h
  · cases h
  · cases h
    exact absurd rfl hpa

theorem getINST_aligned {mem : Memory} {off : Word} (ho : Aligned off)
    (h : getINST (off / 4) mem = some ins) : ins = word mem.byte off.toNat 4 := by
  have hhalf : (off / 4 / 2).toNat = off.toNat / 8 := by
    rw [BitVec.toNat_udiv, BitVec.toNat_udiv]
    exact Nat.div_div_eq_div_mul ..
  have hodd : off / 4 % 2 = 0 ↔ off.toNat / 4 % 2 = 0 := by
    rw [← BitVec.toNat_inj, BitVec.toNat_umod, BitVec.toNat_udiv]
    rfl
  unfold Aligned at ho
  unfold getINST at h
  split at h
  · cases h
  rename_i c hc
  rw [cell?_eq_some, hhalf] at hc
  have hcell : c = ramCell off.toNat := by
    refine Fin.ext (hc.trans (Nat.mod_eq_of_lt ?_).symm)
    rw [← hc]
    exact c.isLt
  rw [← slice_eq_word mem (by omega), ← hcell]
  split at h
  · -- the low half of the cell
    rename_i he
    rw [hodd] at he
    cases h
    rw [show off.toNat % 8 = 0 by omega]
    exact BitVec.and_comm ..
  · -- the high half, shifted down and not masked
    rename_i he
    rw [hodd] at he
    cases h
    rw [show off.toNat % 8 = 4 by omega]
    refine BitVec.eq_of_getLsbD_eq fun i hi => ?_
    rw [getLsbD_slice _ _ _ _ hi, BitVec.getLsbD_ushiftRight]
    by_cases hlt : i < 8 * 4
    · rw [decide_eq_true hlt, Bool.and_true]
    · rw [decide_eq_false hlt, Bool.and_false]
      exact BitVec.getLsbD_of_ge _ _ (by omega)

theorem fetch_aligned {m : Machine} (h : fetch m = .word ins) (hp : Aligned m.pc) :
    ∃ pa, Aligned pa ∧ dramBase ≤ pa ∧ translate m.csr m.mem m.pc .inst m.cp = .ok pa ∧
      ins = word m.mem.byte (pa - dramBase).toNat 4 := by
  unfold fetch at h
  split at h
  · cases h
  rename_i pa ht
  split at h
  · cases h
  split at h
  · cases h
  rename_i hpa
  split at h
  · rename_i hb
    split at h
    · cases h
    rename_i w hw
    cases h
    have ha := translate_aligned ht hpa hp
    have hoff : Aligned (pa - dramBase) := by
      unfold Aligned at ha ⊢
      have hbase : dramBase.toNat = 2 ^ 31 := rfl
      rw [BitVec.toNat_sub_of_le hb, hbase]
      omega
    exact ⟨pa, ha, hb, ht, getINST_aligned hoff hw⟩
  · cases h

/-! ### The iteration -/

theorem tvec_aligned {c : Csrs} (h : c.InWidth) (k : Plevel) : Aligned (c.tvec k).base := by
  cases k with
  | umode => exact h.utvec.base
  | smode => exact h.stvec.base
  | hmode => exact h.mtvec.base
  | mmode => exact h.mtvec.base

theorem jump_pc (hj : jumps ins) (hx : execute inp ins s = .fall s') :
    s'.pc = (target ins s).getD s.pc := by
  unfold execute at hx
  unfold target
  rcases hj with ho | ho | ho
  · rw [ho] at hx ⊢
    cases hx
    rfl
  · rw [ho] at hx ⊢
    cases hx
    rfl
  · rw [ho] at hx ⊢
    cases hx
    dsimp only [armCjump]
    split <;> rfl

theorem jump_falls (inp : Input) (s : State) (hj : jumps ins) :
    ∃ s', execute inp ins s = .fall s' := by
  unfold execute
  rcases hj with ho | ho | ho
  · exact ⟨_, by rw [ho]⟩
  · exact ⟨_, by rw [ho]⟩
  · exact ⟨_, by rw [ho]⟩

theorem target_jumps (h : p ∈ target ins s) : jumps ins := by
  unfold target at h
  split at h
  · rename_i ho
    exact .inl ho
  · rename_i ho
    exact .inr (.inl ho)
  · rename_i ho
    exact .inr (.inr ho)
  · cases h

theorem Effect.pc {m m' : Machine} (he : Effect inp ins m m') (hj : ¬ jumps ins) :
    m'.pc = m.pc ∨ (∃ k : Plevel, m'.pc = (m.csr.tvec k).base) ∨
      (IsMret ins ∧ m'.pc = m.csr.mepc) ∨ (IsSret ins ∧ m'.pc = m.csr.sepc) := by
  cases he with
  | jump r pc h => exact absurd h hj
  | load m1 r hs =>
    rcases hs with rfl | ⟨-, rfl⟩
    · exact .inl rfl
    · exact .inl rfl
  | loadMis m1 va hs =>
    rcases hs with rfl | ⟨-, rfl⟩
    · exact .inl rfl
    · exact .inl rfl
  | device as m1 hd =>
    exact .inl (deviceActs_invariant (P := fun x => x.pc = m.pc) (fun _ _ _ h => h)
      (fun _ _ _ _ h => h) hd rfl)
  | ecall pc m1 hx =>
    obtain ⟨k, -, -, -, -, hpc, -⟩ := ecall_enters hx
    exact .inr (.inl ⟨k, hpc⟩)
  | mret ho hi => exact .inr (.inr (.inl ⟨⟨ho, hi⟩, rfl⟩))
  | sret ho hi => exact .inr (.inr (.inr ⟨⟨ho, hi⟩, rfl⟩))
  | _ => exact .inl rfl

theorem atLoopEnd_aligned (hw : s.csr.InWidth) (hp : Aligned s.pc) (hg : TargetsAligned inp s)
    (hl : atLoopEnd inp s = some s') : Aligned s'.pc := by
  obtain ⟨ins, hf, he⟩ := atLoopEnd_effect hl
  obtain ⟨ht, hm, hs⟩ := hg ins (executed_iff.mpr hf)
  have hnext : Aligned (switchState inp s).pc := aligned_add_four.mpr hp
  by_cases hj : jumps ins
  · rw [jump_pc hj (execute_of_atLoopEnd hl hf)]
    cases htarget : target ins (switchState inp s) with
    | none => exact htarget ▸ hnext
    | some p => exact htarget ▸ ht p htarget
  · rcases he.pc hj with hpc | ⟨k, hpc⟩ | ⟨hi, hpc⟩ | ⟨hi, hpc⟩
    · exact hpc ▸ hnext
    · exact hpc ▸ tvec_aligned hw k
    · exact hpc ▸ hm hi
    · exact hpc ▸ hs hi

theorem selected_aligned {m m' : Machine} (hw : m.csr.InWidth) (hp : Aligned m.pc)
    (hs : Selected m m') : Aligned m'.pc := by
  cases hs with
  | none => exact hp
  | declined => exact hp
  | interrupt e k =>
    rw [enter_pc]
    split
    · exact tvec_aligned hw k
    · rfl
  | exception e k =>
    rw [enter_pc]
    exact tvec_aligned hw k

theorem turn_aligned {m : Machine} (hw : s.csr.InWidth) (hp : Aligned s.pc)
    (hg : TargetsAligned inp s) (ht : Turn inp s m) : Aligned m.pc := by
  have hc := inWidth_control inp s
  have hws : (switchMachine inp s).csr.InWidth := hc.frame (hc.tick hw) rfl rfl
  cases ht with
  | fetchFault k =>
    rw [fetchFaulted_pc]
    exact tvec_aligned hw k
  | cont ins m _ hm =>
    cases hm with
    | fence => exact aligned_add_four.mpr hp
    | fault k =>
      rw [faulted_pc]
      exact tvec_aligned hw k
  | fall s' ins m hl hf he hsel =>
    exact selected_aligned (hc.refresh (hc.effect hf he hws)) (atLoopEnd_aligned hw hp hg hl) hsel

/-! ### Misaligned targets -/

/-- A jump to a misaligned target goes there, or the trap that it meets has another cause or another
`epc`. -/
theorem not_raisesMisaligned (hw : s.csr.InWidth) (hp : Aligned s.pc)
    (hi : ins ∈ executed inp s) (ht : p ∈ target ins (switchState inp s)) (ha : ¬ Aligned p) :
    ¬ RaisesMisaligned inp s := by
  rintro ⟨t, k, hn, hcp, hcause, hepc, hpc, -⟩
  have hf := executed_iff.mp hi
  have hj := target_jumps ht
  obtain ⟨s', hx⟩ := jump_falls inp (switchState inp s) hj
  have hl : atLoopEnd inp s = some s' := atLoopEnd_of_word hf hx
  have hs' : s'.pc = p := by rw [jump_pc hj hx, ht, Option.getD_some]
  rw [Next, iterate_of_atLoopEnd hl] at hn
  have hsel := selectTrap_ret (loopEnd_next hn)
  -- without a trap the misaligned target would be the base of a trap vector
  have hstay (h : t.toMachine = refresh s'.toMachine) : False := by
    have hpc' : t.pc = p := (congrArg Machine.pc h).trans hs'
    rw [← hpc', hpc] at ha
    exact ha (tvec_aligned hw k)
  generalize t.toMachine = u at hsel hcp hcause hepc hstay
  cases hsel with
  | none => exact hstay rfl
  | declined => exact hstay rfl
  | interrupt e h _ _ _ _ hh =>
    rw [enter_cp _ _ _ _ _ hh] at hcp
    subst hcp
    rw [enter_cause _ _ _ _ _ hh] at hcause
    cases hcause
  | exception e h f _ _ _ hh =>
    rw [enter_cp _ _ _ _ _ hh] at hcp
    subst hcp
    rw [enter_epc _ _ _ _ _ hh] at hepc
    -- the selection saves the jump's target less 4, not the address of the jump
    have hpc' : p - 4 = s.pc := hs' ▸ hepc
    exact ha (aligned_sub_four.mp (hpc' ▸ hp))

theorem alignedIteration_iff (hw : s.csr.InWidth) (hp : Aligned s.pc) :
    AlignedIteration inp s ↔ TargetsAligned inp s := by
  constructor
  · intro h ins hi
    refine ⟨fun p ht => ?_, fun hm => ?_, fun hs => ?_⟩
    · by_contra ha
      exact not_raisesMisaligned hw hp hi ht ha (h.targets ins hi p ht ha)
    · exact h.returns ins hi (.inl hm) _
        (atLoopEnd_of_word (executed_iff.mp hi) (mret_falls inp (switchState inp s) hm))
    · exact h.returns ins hi (.inr hs) _
        (atLoopEnd_of_word (executed_iff.mp hi) (sret_falls inp (switchState inp s) hs))
  · intro hg
    exact {
      targets := fun ins hi p ht ha => absurd ((hg ins hi).1 p ht) ha
      returns := fun _ _ _ s' hl => atLoopEnd_aligned hw hp hg hl
      next := fun t hn => turn_aligned hw hp hg (next_turn hn)
      word := fun ins hi => fetch_aligned (executed_iff.mp hi) hp }

/-! ### Runs -/

/-- While all targets are aligned, so is the program counter, and an iteration does what is asked of
it exactly when it keeps to that condition. -/
theorem instruction_alignment {image : Memory} {time : Word} {is : List Input}
    (h : Run (Guarded TargetsAligned Next) (boot image time) is s) :
    Aligned s.pc ∧ ∀ inp, AlignedIteration inp s ↔ TargetsAligned inp s := by
  have hi : s.csr.InWidth ∧ Aligned s.pc :=
    Run.invariant (P := fun s => s.csr.InWidth ∧ Aligned s.pc)
      ⟨inWidth_boot image time, show Aligned dramBase by decide⟩
      (fun inp s t hs hn => ⟨(inWidth_control inp s).turn (next_turn hn.2) hs.1,
        turn_aligned hs.1 hs.2 hn.1 (next_turn hn.2)⟩) h
  exact ⟨hi.2, fun inp => alignedIteration_iff hi.1 hi.2⟩

/-- The trap return of `returnProgram` keeps to the condition. -/
theorem instruction_alignment_mret :
    ∃ s : State, IsMret 0x30200073 ∧ 0x30200073 ∈ executed (quiet 0) s ∧ Aligned s.pc ∧
      AlignedIteration (quiet 0) s := by
  obtain ⟨s, hr, hs⟩ := exists_guarded_run TargetsAligned (boot (imageOf returnProgram) 0)
    (List.replicate 3 (quiet 0))
    (fun s => decide (0x30200073 ∈ executed (quiet 0) s ∧ TargetsAligned (quiet 0) s))
    (by decide +kernel)
  obtain ⟨hi, hg⟩ := of_decide_eq_true hs
  obtain ⟨hp, ha⟩ := instruction_alignment hr
  exact ⟨s, by decide, hi, hp, (ha (quiet 0)).mpr hg⟩

def misalignedProgram : List Word := [0x006000ef]

/-- The jump goes to its target, and the next iteration executes the word below it. -/
theorem instruction_not_aligned :
    ¬ ∀ (image : Memory) (time : Word) (is : List Input) (s : State),
      Run Next (boot image time) is s → Aligned s.pc ∧ ∀ inp, AlignedIteration inp s := by
  intro h
  obtain ⟨s, hr, hs⟩ := exists_run (boot (imageOf misalignedProgram) 0) [quiet 0]
    (fun s => decide (s.pc = 0x80000006)) (by decide +kernel)
  have ha := (h _ _ _ _ hr).1
  rw [of_decide_eq_true hs] at ha
  exact absurd ha (by decide)

end RiscvEmu
