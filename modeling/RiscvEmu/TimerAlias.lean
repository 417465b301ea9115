import RiscvEmu.Turn

/-! The two CLINT timer registers are references into the memory vector that backs the RAM. Every
other doubleword keeps what the last store, SC, AMO or DMA write left in it; the doublewords at
`0x8200bff8` and `0x82004000` do not. -/

namespace RiscvEmu

open Runs

variable {inp : Input} {ins : Word}

def lastRam (mem : Memory) : List BusEvent → Memory
  | [], c => mem c
  | .ram _ d v :: bus, c => if c = d then v else lastRam mem bus c
  | _ :: bus, c => lastRam mem bus c

def lastTimecmp : List BusEvent → Word
  | [] => -1
  | .mtimecmp v :: _ => v
  | _ :: bus => lastTimecmp bus

/-- What a history leaves in a cell of the vector, where the compare register is one of the cells. -/
def lastWrite (mem : Memory) : List BusEvent → Memory
  | [], c => mem c
  | .ram _ d v :: bus, c => if c = d then v else lastWrite mem bus c
  | .mtimecmp v :: bus, c => if c = mtimecmpCell then v else lastWrite mem bus c
  | _ :: bus, c => lastWrite mem bus c

theorem lastWrite_eq_lastRam {mem : Memory} {bus : List BusEvent} {c : Cell}
    (h : c ≠ mtimecmpCell) : lastWrite mem bus c = lastRam mem bus c := by
  induction bus with
  | nil => rfl
  | cons e bus ih =>
    cases e with
    | ram by' d v => rw [lastWrite, lastRam, ih]
    | mtimecmp v => exact (if_neg h).trans ih
    | lr w va pa => exact ih
    | sc w va pa b => exact ih

theorem lastWrite_mtimecmp {mem : Memory} {bus : List BusEvent} (hm : mem mtimecmpCell = -1)
    (h : ∀ by' v, .ram by' mtimecmpCell v ∉ bus) :
    lastWrite mem bus mtimecmpCell = lastTimecmp bus := by
  induction bus with
  | nil => exact hm
  | cons e bus ih =>
    have ih := ih fun by' v he => h by' v (List.mem_cons_of_mem _ he)
    cases e with
    | ram by' d v =>
      have hd : mtimecmpCell ≠ d := by
        rintro rfl
        exact h by' v List.mem_cons_self
      exact (if_neg hd).trans ih
    | mtimecmp v => rw [lastWrite, lastTimecmp, if_pos rfl]
    | lr w va pa => exact ih
    | sc w va pa b => exact ih

/-! ### The invariant -/

def Logged (mem : Memory) (m : Machine) : Prop :=
  ∀ c, c ≠ mtimeCell → m.mem c = lastWrite mem m.bus c

variable {mem : Memory}

theorem Logged.write {m : Machine} {c : Cell} {v : Word} (h : Logged mem m) (w : Writer) :
    Logged mem (m.write w c v) := by
  intro d hd
  show m.mem.set c v d = if d = c then v else lastWrite mem m.bus d
  rw [Memory.set_apply, h d hd]

theorem Logged.setTimecmp {m : Machine} {v : Word} (h : Logged mem m) :
    Logged mem (setTimecmp m v) := by
  intro d hd
  show m.mem.set mtimecmpCell v d = if d = mtimecmpCell then v else lastWrite mem m.bus d
  rw [Memory.set_apply, h d hd]

theorem Logged.tick {m : Machine} (h : Logged mem m) : Logged mem (tick inp m) := by
  intro d hd
  show m.mem.set mtimeCell _ d = _
  rw [Memory.set_of_ne _ hd]
  exact h d hd

theorem Logged.congr {m m' : Machine} (h : Logged mem m) (hm : m'.mem = m.mem)
    (hb : m'.bus = m.bus) : Logged mem m' := by
  intro d hd
  rw [hm, hb]
  exact h d hd

theorem Effect.logged {m m' : Machine} (he : Effect inp ins m m') (h : Logged mem m) :
    Logged mem m' := by
  cases he with
  | load m1 r hs =>
    rcases hs with rfl | ⟨-, rfl⟩ <;> exact h
  | loadMis m1 va hs =>
    rcases hs with rfl | ⟨-, rfl⟩ <;> exact h
  | store c v => exact h.write _
  | timecmp v => exact h.setTimecmp
  | device as m1 hd =>
    exact deviceActs_invariant (P := Logged mem) (fun _ _ _ h => h.write _) (fun _ _ _ _ h => h)
      hd h
  | amo c v r => exact h.write .amo
  | scOk w va pa c v r => exact h.write .sc
  | ecall pc m1 hx =>
    obtain ⟨hm, e, epc, -, -, -, rfl⟩ := excepFunction_enters hx
    exact h.congr (enter_mem hm 0 e epc _ m) (enter_bus hm 0 e epc _ m)
  | _ => exact h

theorem Selected.logged {m m' : Machine} (hs : Selected m m') (h : Logged mem m) :
    Logged mem m' := by
  cases hs with
  | none => exact h
  | declined => exact h
  | interrupt e hm => exact h.congr (enter_mem hm _ _ _ _ _) (enter_bus hm _ _ _ _ _)
  | exception e hm => exact h.congr (enter_mem hm _ _ _ _ _) (enter_bus hm _ _ _ _ _)

theorem Turn.logged {s : State} {m : Machine} (ht : Turn inp s m) (h : Logged mem s.toMachine) :
    Logged mem m := by
  have h' : Logged mem (RiscvEmu.tick inp s.toMachine) := h.tick
  cases ht with
  | fetchFault hm hh _ => rcases hh with rfl | rfl <;> exact h'
  | cont ins m _ hc =>
    cases hc with
    | fence => exact h'
    | fault hm ecode va =>
      exact Logged.congr (m := advance (RiscvEmu.tick inp s.toMachine)) h'
        (faulted_mem hm ecode va _) (faulted_bus hm ecode va _)
  | fall s' ins m _ _ he hsel =>
    have hs' : Logged mem s'.toMachine :=
      he.logged (m := advance (RiscvEmu.tick inp s.toMachine)) h'
    exact hsel.logged (m := refresh s'.toMachine) hs'

theorem logged_of_run {image : Memory} {time : Word} {is : List Input} {s : State}
    (h : Run Next (boot image time) is s) : Logged (boot image time).mem s.toMachine :=
  Run.invariant (P := fun s => Logged (boot image time).mem s.toMachine) (fun _ _ => rfl)
    (fun _ _ _ hl hs => (next_turn hs).logged hl) h

/-! ### Loads -/

theorem loadMapped_ram {pa off data : Word} {m m' : Machine} {c : Cell} (hpa : dramBase ≤ pa)
    (h : loadMapped inp pa m = .ret (off, data) m') (hc : cell? (off / 8) = some c) :
    data = m.mem c := by
  unfold loadMapped at h
  dsimp only at h
  rw [if_pos hpa] at h
  split at h
  · cases h
  · split at h
    · cases h
    · rename_i d hd
      cases h
      cases hd.symm.trans hc
      rfl

/-- In every run, every load from this RAM doubleword reads what was last written there. -/
def RamIntact (c : Cell) : Prop :=
  ∀ (image : Memory) (time : Word) (is : List Input) (s : State) (inp : Input)
    (pa off data : Word) (m : Machine), Run Next (boot image time) is s → dramBase ≤ pa →
    loadMapped inp pa (tick inp s.toMachine) = .ret (off, data) m → cell? (off / 8) = some c →
    data = lastRam (boot image time).mem s.bus c

theorem ramIntact_of_ne {c : Cell} (ht : c ≠ mtimeCell) (hc : c ≠ mtimecmpCell) : RamIntact c := by
  intro image time is s inp pa off data m hr hpa hl hcell
  have hlog : (tick inp s.toMachine).mem c = _ := (logged_of_run hr).tick c ht
  rw [loadMapped_ram hpa hl hcell, hlog]
  exact lastWrite_eq_lastRam hc

/-- The clock itself, without a run, already differs from what `main` stores there. -/
theorem not_ramIntact_mtime : ¬ RamIntact mtimeCell := by
  intro h
  have h0 := h (fun _ => 0) 0 [] _ (quiet 1) 0x8200bff8 0x200bff8 10 _ .start (by decide) rfl
    (by decide)
  exact absurd h0 (by decide +kernel)

/-- `lui x2, 0x2004`; `sd x0, 0(x2)`, a store to the CLINT. -/
def timecmpProgram : List Word := [0x02004137, 0x00013023]

theorem not_ramIntact_mtimecmp : ¬ RamIntact mtimecmpCell := by
  intro h
  obtain ⟨s, hr, hs⟩ := exists_run (boot (imageOf timecmpProgram) 0) (List.replicate 2 (quiet 0))
    (fun s => decide (s.bus = [.mtimecmp 0] ∧ s.mem mtimecmpCell = 0)) (by decide +kernel)
  obtain ⟨hbus, hmem⟩ := of_decide_eq_true hs
  have hl : loadMapped (quiet 0) 0x82004000 (tick (quiet 0) s.toMachine) =
      .ret (0x2004000, s.mem mtimecmpCell) (tick (quiet 0) s.toMachine) := rfl
  have h0 := h _ _ _ s (quiet 0) _ _ _ _ hr (by decide) hl (by decide)
  rw [hbus, hmem] at h0
  exact absurd h0 (by decide +kernel)

/-- A RAM doubleword is separate from the timer in every run exactly when it is neither of the two;
and the compare register is, in a run in which no RAM write hits the second. -/
theorem ram_and_timer_separate (c : Cell) :
    (RamIntact c ↔ c ≠ mtimeCell ∧ c ≠ mtimecmpCell) ∧
    ∀ (image : Memory) (time : Word) (is : List Input) (s : State),
      Run Next (boot image time) is s → (∀ w v, .ram w mtimecmpCell v ∉ s.bus) →
      s.mtimecmp = lastTimecmp s.bus := by
  refine ⟨⟨fun h => ⟨?_, ?_⟩, fun h => ramIntact_of_ne h.1 h.2⟩, fun image time is s hr hw => ?_⟩
  · rintro rfl
    exact not_ramIntact_mtime h
  · rintro rfl
    exact not_ramIntact_mtimecmp h
  · have hlog := logged_of_run hr mtimecmpCell (by decide)
    rw [Machine.mtimecmp, hlog]
    exact lastWrite_mtimecmp (Memory.set_same (image.set mtimeCell 0) mtimecmpCell (-1)) hw

/-- `auipc x1, 0x200c`; `sd x1, -8(x1)`, a store to the RAM address `0x8200bff8`. -/
def clobberedProgram : List Word := [0x0200c097, 0xfe10bc23]

/-- `auipc x1, 0x2004`; `sd x0, 0(x1)`, a store to the RAM address `0x82004000`. -/
def clobberingProgram : List Word := [0x02004097, 0x0000b023]

/-- The store to the first doubleword is lost to the clock, and the store to the second sets the
compare register. -/
theorem ram_and_timer_not_separate :
    (¬ ∀ c, RamIntact c) ∧
    ¬ ∀ (image : Memory) (time : Word) (is : List Input) (s : State),
      Run Next (boot image time) is s → s.mtimecmp = lastTimecmp s.bus := by
  constructor
  · intro h
    obtain ⟨s, hr, hs⟩ := exists_run (boot (imageOf clobberedProgram) 0)
      (List.replicate 2 (quiet 0))
      (fun s => decide (s.bus = [.ram .store mtimeCell 0x8200c000])) (by decide +kernel)
    have hbus := of_decide_eq_true hs
    have hl : loadMapped (quiet 0) 0x8200bff8 (tick (quiet 0) s.toMachine) =
        .ret (0x200bff8, 0) (tick (quiet 0) s.toMachine) := rfl
    have h0 := h mtimeCell _ _ _ s (quiet 0) _ _ _ _ hr (by decide) hl (by decide)
    rw [hbus] at h0
    exact absurd h0 (by decide +kernel)
  · intro h
    obtain ⟨s, hr, hs⟩ := exists_run (boot (imageOf clobberingProgram) 0)
      (List.replicate 2 (quiet 0))
      (fun s => decide (s.bus = [.ram .store mtimecmpCell 0] ∧ s.mtimecmp = 0)) (by decide +kernel)
    obtain ⟨hbus, hmem⟩ := of_decide_eq_true hs
    have h0 := h _ _ _ s hr
    rw [hbus, hmem] at h0
    exact absurd h0 (by decide)

end RiscvEmu
