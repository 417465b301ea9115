import RiscvEmu.Turn

/-! LR/SC pairing over runs. The emulator keeps one reservation for each width, keyed by the virtual
address of the LR: an SC succeeds exactly when the most recent LR or SC of its width was an LR with
its virtual address. -/

namespace RiscvEmu

open Runs

variable {inp : Input} {ins : Word}

def BusEvent.pairs (w : Width) : BusEvent → Bool
  | .lr v _ _ => v = w
  | .sc v _ _ _ => v = w
  | _ => false

/-- The most recently executed LR or SC of a width, in a history listed latest first. -/
def lastOf (w : Width) (bus : List BusEvent) : Option BusEvent := bus.find? (·.pairs w)

def Reserved (r : Reserve) (bus : List BusEvent) : Prop :=
  ∀ w va, r.Holds va w ↔ ∃ pa, lastOf w bus = some (.lr w va pa)

section

variable {r : Reserve} {bus : List BusEvent}

theorem lastOf_cons_of_pairs {w : Width} {e : BusEvent} (h : e.pairs w = true) :
    lastOf w (e :: bus) = some e := List.find?_cons_of_pos h

theorem lastOf_cons_of_not {w : Width} {e : BusEvent} (h : ¬ e.pairs w = true) :
    lastOf w (e :: bus) = lastOf w bus := List.find?_cons_of_neg h

theorem holds_set {va va' : Word} {w w' : Width} :
    (r.set va w).Holds va' w' ↔ if w' = w then va' = va else r.Holds va' w' := by
  cases w <;> cases w' <;> simp [Reserve.set, Reserve.Holds]

theorem holds_drop {va' : Word} {w w' : Width} :
    (r.drop w).Holds va' w' ↔ w' ≠ w ∧ r.Holds va' w' := by
  cases w <;> cases w' <;> simp [Reserve.drop, Reserve.Holds]

theorem Reserved.other {e : BusEvent} (h : Reserved r bus) (he : ∀ w, ¬ e.pairs w = true) :
    Reserved r (e :: bus) := by
  intro w va
  rw [lastOf_cons_of_not (he w)]
  exact h w va

theorem Reserved.ram {by' : Writer} {c : Cell} {v : Word} (h : Reserved r bus) :
    Reserved r (.ram by' c v :: bus) := h.other fun _ => Bool.false_ne_true

theorem Reserved.lr {w : Width} {va pa : Word} (h : Reserved r bus) :
    Reserved (r.set va w) (.lr w va pa :: bus) := by
  intro w' va'
  rw [holds_set]
  by_cases hw : w' = w
  · subst hw
    rw [if_pos rfl, lastOf_cons_of_pairs (by simp [BusEvent.pairs])]
    simp [eq_comm]
  · rw [if_neg hw, lastOf_cons_of_not (by simpa [BusEvent.pairs] using Ne.symm hw)]
    exact h w' va'

theorem Reserved.sc {w : Width} {va pa : Word} {b : Bool} (h : Reserved r bus) :
    Reserved (r.drop w) (.sc w va pa b :: bus) := by
  intro w' va'
  rw [holds_drop]
  by_cases hw : w' = w
  · subst hw
    rw [lastOf_cons_of_pairs (by simp [BusEvent.pairs])]
    simp
  · rw [lastOf_cons_of_not (by simpa [BusEvent.pairs] using Ne.symm hw)]
    simp only [ne_eq, hw, not_false_eq_true, true_and]
    exact h w' va'

end

/-! ### The invariant -/

theorem loadSide_frame {m m' : Machine} (h : LoadSide m m') :
    m'.resv = m.resv ∧ m'.bus = m.bus := by
  rcases h with rfl | ⟨-, rfl⟩ <;> exact ⟨rfl, rfl⟩

/-- What an arm does to the reservations it enters in the history. -/
theorem Effect.reserved {m m' : Machine} (he : Effect inp ins m m')
    (h : Reserved m.resv m.bus) : Reserved m'.resv m'.bus := by
  cases he with
  | load m1 r hs =>
    obtain ⟨hr, hb⟩ := loadSide_frame hs
    rwa [hr, hb]
  | loadMis m1 va hs =>
    obtain ⟨hr, hb⟩ := loadSide_frame hs
    simp only [setMtval]
    rwa [hr, hb]
  | store c v => exact h.ram
  | timecmp v => exact h.other fun _ => Bool.false_ne_true
  | device as m1 hd =>
    exact deviceActs_invariant (P := fun x => Reserved x.resv x.bus) (fun _ _ _ h => h.ram)
      (fun _ _ _ _ h => h) hd h
  | amo c v r => exact h.ram
  | lr w va pa r => exact h.lr
  | scFail w va pa r => exact h.sc
  | scMis w va pa r => exact h.sc
  | scOk w va pa c v r => exact h.ram.sc
  | ecall pc m1 hx =>
    obtain ⟨hm, e, epc, -, -, -, rfl⟩ := excepFunction_enters hx
    simp only
    rwa [enter_resv, enter_bus]
  | _ => exact h

theorem selected_frame {m m' : Machine} (h : Selected m m') :
    m'.resv = m.resv ∧ m'.bus = m.bus := by
  cases h with
  | none => exact ⟨rfl, rfl⟩
  | declined => exact ⟨rfl, rfl⟩
  | interrupt e hm => exact ⟨enter_resv hm _ _ _ _ _, enter_bus hm _ _ _ _ _⟩
  | exception e hm => exact ⟨enter_resv hm _ _ _ _ _, enter_bus hm _ _ _ _ _⟩

theorem Turn.reserved {s : State} {m : Machine} (ht : Turn inp s m)
    (h : Reserved s.resv s.bus) : Reserved m.resv m.bus := by
  cases ht with
  | fetchFault hm hh _ =>
    rcases hh with rfl | rfl <;> exact h
  | cont ins m _ hc =>
    cases hc with
    | fence => exact h
    | fault hm ecode va =>
      rw [faulted_resv, faulted_bus]
      exact h
  | fall s' ins m _ _ he hsel =>
    obtain ⟨hr, hb⟩ := selected_frame hsel
    rw [hr, hb]
    exact he.reserved (m := advance (tick inp s.toMachine)) h

theorem reserved_of_run {image : Memory} {time : Word} {is : List Input} {s : State}
    (h : Run Next (boot image time) is s) : Reserved s.resv s.bus := by
  refine Run.invariant (P := fun s => Reserved s.resv s.bus) ?_
    (fun _ _ _ hr hs => (next_turn hs).reserved hr) h
  intro w va
  cases w <;> simp [boot, Reserve.Holds, lastOf]

/-! ### The SC instructions -/

def IsSc (ins : Word) (w : Width) : Prop :=
  opcode ins = .amo ∧ (amoOp ins).toNat = 0b00011 ∧
    (func3 ins).toNat = match w with
      | .w32 => 0b010
      | .w64 => 0b011

/-- An SC drops the reservation of its width; without one it writes nothing and returns 1. -/
structure ScDone (ins : Word) (w : Width) (m : Machine) (s' : State) : Prop where
  dropped : s'.resv = m.resv.drop w
  failed : ¬ m.resv.Holds (m.reg (rs1 ins)) w → s'.mem = m.mem ∧ s'.reg (rd ins) = 1

theorem retToRd_reg (s : State) : (retToRd ins s).reg (rd ins) = s.retData :=
  Function.update_self _ _ _

theorem scW_done (c : Cell) (s : State) :
    ScDone ins .w32 s.toMachine (retToRd ins (scW ins c s)) := by
  constructor
  · unfold scW scWStore
    dsimp only
    split_ifs
    · split <;> rfl
    · rfl
  · intro h
    rw [retToRd_reg]
    have hn : ¬(s.resv.valid = true ∧ s.reg (rs1 ins) = s.resv.addr) := h
    refine ⟨?_, ?_⟩ <;> simp only [scW, if_neg hn]
    rfl

theorem scD_done (c : Cell) (s : State) :
    ScDone ins .w64 s.toMachine (retToRd ins (scD ins c s)) := by
  constructor
  · unfold scD scDStore
    dsimp only
    split_ifs <;> rfl
  · intro h
    rw [retToRd_reg]
    have hn : ¬(s.resv.valid64 = true ∧ s.reg (rs1 ins) = s.resv.addr64) := h
    refine ⟨?_, ?_⟩ <;> simp only [scD, if_neg hn]
    rfl

theorem amoSwitchW_sc (hop : (amoOp ins).toNat = 0b00011) (c : Cell) (s : State) :
    amoSwitchW ins c s = scW ins c s := by
  unfold amoSwitchW
  rw [hop]
  rfl

theorem amoSwitchD_sc (hop : (amoOp ins).toNat = 0b00011) (c : Cell) (s : State) :
    amoSwitchD ins c s = scD ins c s := by
  unfold amoSwitchD
  rw [hop]
  rfl

theorem armAmo_sc {w : Width} {s s' : State} (hsc : IsSc ins w) (h : armAmo ins s = .fall s') :
    ScDone ins w s.toMachine s' := by
  obtain ⟨-, hop, hw⟩ := hsc
  unfold armAmo at h
  cases w with
  | w32 =>
    rw [hw] at h
    obtain ⟨t, c, ht, -, -, rfl⟩ := amoMapped_fall h
    rw [amoSwitchW_sc hop, ← ht]
    exact scW_done c { t with loadData := t.mem c }
  | w64 =>
    rw [hw] at h
    obtain ⟨t, c, ht, -, -, rfl⟩ := amoMapped_fall h
    rw [amoSwitchD_sc hop, ← ht]
    exact scD_done c { t with wbData := t.mem c }

def ScFaults (inp : Input) (ins : Word) (s : State) : Prop :=
  let m := advance (tick inp s.toMachine)
  translate m.csr m.mem (m.reg (rs1 ins)) .stor m.cp = .ok (-1)

theorem amoMapped_not_fault {k : Cell → State → State} {s s' : State}
    (h : amoMapped ins s k = .fall s') :
    translate s.csr s.mem (s.reg (rs1 ins)) .stor s.cp ≠ .ok (-1) := by
  intro ht
  unfold amoMapped at h
  dsimp only at h
  rw [ht] at h
  dsimp only at h
  rw [if_pos rfl] at h
  unfold storePageFault at h
  split at h <;> cases h

theorem armAmo_sc_not_fault {w : Width} {s s' : State} (hsc : IsSc ins w)
    (h : armAmo ins s = .fall s') :
    translate s.csr s.mem (s.reg (rs1 ins)) .stor s.cp ≠ .ok (-1) := by
  obtain ⟨-, -, hw⟩ := hsc
  unfold armAmo at h
  rw [hw] at h
  cases w with
  | w32 => exact amoMapped_not_fault h
  | w64 => exact amoMapped_not_fault h

theorem continued_frame {m m' : Machine} (h : Continued ins m m') :
    m'.mem = m.mem ∧ m'.resv = m.resv := by
  cases h with
  | fence => exact ⟨rfl, rfl⟩
  | fault => exact ⟨faulted_mem .., faulted_resv ..⟩

theorem sc_next {w : Width} {s t : State} (hf : fetch (tick inp s.toMachine) = .word ins)
    (hsc : IsSc ins w) (hn : Next inp s t) :
    (ScFaults inp ins s ∧ t.mem = (tick inp s.toMachine).mem ∧ t.resv = s.resv) ∨
      (¬ ScFaults inp ins s ∧
        ∃ s', atLoopEnd inp s = some s' ∧ t.mem = s'.mem ∧ t.resv = s'.resv) := by
  cases hx : execute inp ins (decoded { s with toMachine := tick inp s.toMachine }) with
  | stop e u =>
    rw [Next, iterate_of_word hf, hx] at hn
    cases hn
  | cont u =>
    rw [Next, iterate_of_word hf, hx] at hn
    cases hn
    rw [execute_amo hsc.1] at hx
    obtain ⟨hc, -, ht⟩ := armAmo_cont hx
    obtain ⟨hmem, hresv⟩ := continued_frame hc
    exact .inl ⟨ht, hmem, hresv⟩
  | fall s' =>
    have hl := atLoopEnd_of_word hf hx
    have hsel := selected_of_atLoopEnd hl hn
    have hmem : t.mem = (refresh s'.toMachine).mem := selected_mem hsel
    have hresv : t.resv = (refresh s'.toMachine).resv := (selected_frame hsel).1
    rw [execute_amo hsc.1] at hx
    exact .inr ⟨armAmo_sc_not_fault hsc hx, s', hl, hmem, hresv⟩

/-- `auipc x1, 0`; `addi x1, x1, 64`; `lr.w x2, (x1)`; `sc.w x3, x0, (x1)`. -/
def pairProgram : List Word := [0x00000097, 0x04008093, 0x1000a12f, 0x1800a1af]

def BusEvent.anyPairs (e : BusEvent) : Bool := e.pairs .w32 || e.pairs .w64

/-- `auipc x1, 0`; `addi x1, x1, 64`; `lr.d x2, (x1)`; `sc.w x3, x0, (x1)`; `sc.d x4, x0, (x1)`. -/
def crossProgram : List Word := [0x00000097, 0x04008093, 0x1000b12f, 0x1800a1af, 0x1800b22f]

/-- `x1` and `x2` become two values of `satp`, `mstatus.MPRV` is set, and between `lr.w x7, (x6)` and
`sc.w x8, x0, (x6)` the program moves from the first address space to the second. -/
def remapProgram : List Word :=
  [0x00100193, 0x03f19193, 0x00080237, 0x00120213, 0x0041e0b3, 0x00108113, 0x000202b7, 0x3002a073,
    0x18009073, 0x00000317, 0x100323af, 0x18011073, 0x1803242f]

def remapImage : Memory :=
  ((imageOf remapProgram).set ⟨0x202, by decide⟩ 0x200000C7).set ⟨0x402, by decide⟩ 0x300000C7

/-- `auipc x1, 0`; `addi x1, x1, 64`; `lui x5, 0x40010`; `lr.w x2, (x1)`; `sw x0, 0(x5)`, which
notifies the virtio device; `sc.w x3, x0, (x1)`. -/
def dmaProgram : List Word := [0x00000097, 0x04008093, 0x400102b7, 0x1000a12f, 0x0002a023, 0x1800a1af]

def dmaInput : Input :=
  { quiet 0 with virtioMmioWrite := fun _ _ _ => [.write32 0x80000040 7] }

theorem cross_run : ∃ s, Run Next (boot (imageOf crossProgram) 0) (List.replicate 5 (quiet 0)) s ∧
    s.bus = [.sc .w64 0x80000040 0x40 true, .ram .sc ⟨8, by decide⟩ 0,
      .sc .w32 0x80000040 0x40 false, .lr .w64 0x80000040 0x40] := by
  obtain ⟨s, hr, hs⟩ := exists_run (boot (imageOf crossProgram) 0) (List.replicate 5 (quiet 0))
    (fun s => decide (s.bus = [.sc .w64 0x80000040 0x40 true, .ram .sc ⟨8, by decide⟩ 0,
      .sc .w32 0x80000040 0x40 false, .lr .w64 0x80000040 0x40])) (by decide +kernel)
  exact ⟨s, hr, of_decide_eq_true hs⟩

theorem remap_run : ∃ s, Run Next (boot remapImage 0) (List.replicate 13 (quiet 0)) s ∧
    s.bus = [.sc .w32 0x80000024 0x40000024 true, .ram .sc ⟨0x8000004, by decide⟩ 0,
      .lr .w32 0x80000024 0x24] := by
  obtain ⟨s, hr, hs⟩ := exists_run (boot remapImage 0) (List.replicate 13 (quiet 0))
    (fun s => decide (s.bus = [.sc .w32 0x80000024 0x40000024 true,
      .ram .sc ⟨0x8000004, by decide⟩ 0, .lr .w32 0x80000024 0x24])) (by decide +kernel)
  exact ⟨s, hr, of_decide_eq_true hs⟩

theorem dma_run : ∃ s, Run Next (boot (imageOf dmaProgram) 0) (List.replicate 6 dmaInput) s ∧
    s.bus = [.sc .w32 0x80000040 0x40 true, .ram .sc ⟨8, by decide⟩ 0, .ram .dma ⟨8, by decide⟩ 7,
      .lr .w32 0x80000040 0x40] := by
  obtain ⟨s, hr, hs⟩ := exists_run (boot (imageOf dmaProgram) 0) (List.replicate 6 dmaInput)
    (fun s => decide (s.bus = [.sc .w32 0x80000040 0x40 true, .ram .sc ⟨8, by decide⟩ 0,
      .ram .dma ⟨8, by decide⟩ 7, .lr .w32 0x80000040 0x40])) (by decide +kernel)
  exact ⟨s, hr, of_decide_eq_true hs⟩

/-- `mtvec` becomes the address of the last word, and `satp` a page table without entries; between
`lr.w x2, (x1)` and `sc.w x3, x0, (x1)` the program sets `mstatus.MPRV`, so that the SC is translated. The
last word is `sc.w x4, x0, (x1)`. -/
def faultProgram : List Word :=
  [0x00000097, 0x04008093, 0xff808313, 0x30531073, 0x00100193, 0x03f19193, 0x00080237, 0x00120213,
    0x0041e1b3, 0x18019073, 0x000202b7, 0x1000a12f, 0x3002a073, 0x1800a1af, 0x1800a22f]

/-- The first SC ends in a page fault and keeps the reservation, and the one in the handler succeeds. -/
theorem fault_run :
    ∃ s t s', Run Next (boot (imageOf faultProgram) 0) (List.replicate 13 (quiet 0)) s ∧
      fetch (tick (quiet 0) s.toMachine) = .word 0x1800a1af ∧ Next (quiet 0) s t ∧
      t.resv.Holds 0x80000040 .w32 ∧ fetch (tick (quiet 0) t.toMachine) = .word 0x1800a22f ∧
      atLoopEnd (quiet 0) t = some s' ∧ s'.reg (rd 0x1800a22f) = 0 := by
  obtain ⟨s, hr, hs⟩ := exists_run (boot (imageOf faultProgram) 0) (List.replicate 13 (quiet 0))
    (fun s => decide (fetch (tick (quiet 0) s.toMachine) = .word 0x1800a1af ∧
      (next? (quiet 0) s).any fun t => t.resv.valid = true ∧ t.resv.addr = 0x80000040 ∧
        fetch (tick (quiet 0) t.toMachine) = .word 0x1800a22f ∧
        (atLoopEnd (quiet 0) t).any fun s' => s'.reg (rd 0x1800a22f) = 0)) (by decide +kernel)
  obtain ⟨hf, hany⟩ := of_decide_eq_true hs
  obtain ⟨t, hn, ht⟩ := (Option.any_eq_true _ _).mp hany
  obtain ⟨hvalid, haddr, hf', hany⟩ := of_decide_eq_true ht
  obtain ⟨s', hl, hret⟩ := (Option.any_eq_true _ _).mp hany
  exact ⟨s, t, s', hr, hf, next_of_next? hn, ⟨hvalid, haddr.symm⟩, hf', hl, of_decide_eq_true hret⟩

end RiscvEmu
