import RiscvEmu.AccessFootprint
import RiscvEmu.AttachedSystem
import RiscvEmu.PreciseTraps

/-! Containment: no access that the guest drives leaves the place that it asks for, or ends the
emulator. The statement is about the emulator with its device, whose service of a queue can end the
program as well. -/

namespace RiscvEmu

open Programs Runs

variable {inp : Input} {ins : Word} {s t : State} {m m' : Machine}

/-! ### The cells -/

/-- A fetch depends on no cell but those of the accesses, and throws at an index beyond the vector. -/
structure FetchTouches (m : Machine) (as : List Access) : Prop where
  frame : ∀ cs other, cells as ⊆ cs → fetch (m.within cs other) = fetch m
  throws : Beyond as → fetch m = .stop .outOfRange

/-- An arm neither reads nor changes a cell but those of the accesses, and throws at an index beyond
the vector. -/
structure ArmTouches (inp : Input) (ins : Word) (s : State) (as : List Access) : Prop where
  frame : ∀ cs other, cells as ⊆ cs →
    execute inp ins (s.within cs other) = (execute inp ins s).within cs other
  throws : Beyond as → ∃ t, execute inp ins s = .stop .outOfRange t

def dmaCell (addr : Word) : Option Cell :=
  if Sv39.InRam addr.toNat then some (ramCell (addr.toNat - 2 ^ 31)) else none

/-- The DMA helpers read and write the cell of RAM that holds the address, and throw where none does. -/
structure DmaTouches (addr : Word) : Prop where
  read32 : ∀ mem, memRead32 addr mem =
    (dmaCell addr).map fun c => (loadWord addr (mem c)).2.setWidth 32
  read16 : ∀ mem, memRead16 addr mem =
    (dmaCell addr).map fun c => (loadHalfw addr (mem c)).2.setWidth 16
  read8 : ∀ mem, memRead8 addr mem =
    (dmaCell addr).map fun c => (loadByte addr (mem c)).2.setWidth 8
  write : ∀ store data mem, memWrite store addr data mem =
    (dmaCell addr).map fun c => (c, (store addr (mem c) data).2)

theorem fetchTouches (m : Machine) : FetchTouches m (fetchAccesses m) :=
  ⟨fun _ _ h => fetch_within h, fetch_beyond⟩

theorem armTouches (ins : Word) (s : State)
    (hin : ∀ o v mem, inp.virtioMmioWrite o v mem = inp.virtioMmioWrite o v s.mem) :
    ArmTouches inp ins s (armAccesses inp ins s) :=
  ⟨fun _ _ h => execute_within h hin, execute_beyond⟩

theorem cell?_dma (addr : Word) : cell? ((addr - dramBase) / 8) = dmaCell addr := by
  unfold dmaCell
  by_cases hr : Sv39.InRam addr.toNat
  · have hsub := toNat_sub_base (base_le_of_inRam rfl hr)
    rw [if_pos hr, ← hsub]
    refine cell?_div_eight ?_
    rw [hsub]
    have hhi := hr.2
    show _ < 2 ^ 31
    omega
  rw [if_neg hr]
  by_cases hb : dramBase ≤ addr
  · refine cell?_of_size_le (BitVec.le_def.mpr ?_)
    rw [toNat_sub_base hb]
    have hlo := base_le_iff.mp hb
    have hhi : ¬ addr.toNat < 2 ^ 32 := fun h => hr ⟨hlo, h⟩
    show 2 ^ 31 ≤ _
    omega
  · exact cell?_of_lt (BitVec.not_le.mp hb)

theorem dmaTouches (addr : Word) : DmaTouches addr where
  read32 _ := by rw [memRead32, cell?_dma]
  read16 _ := by rw [memRead16, cell?_dma]
  read8 _ := by rw [memRead8, cell?_dma]
  write _ _ _ := by rw [memWrite, cell?_dma]

theorem armAccesses_of_not (h : ¬ IsAccess ins) : armAccesses inp ins s = [] := by
  unfold armAccesses
  split
  · rename_i ho
    exact absurd (.inl ho) h
  · rename_i ho
    exact absurd (.inr (.inl ho)) h
  · rename_i ho
    exact absurd (.inr (.inr ho)) h
  · rfl

theorem dmaInRam_of_ret {as : List DeviceAct} (h : deviceActs as m = .ret () m') : DmaInRam as := by
  induction as generalizing m with
  | nil => exact List.forall_mem_nil _
  | cons a as ih =>
    rw [deviceActs] at h
    split at h
    · cases h
    · rename_i m1 ha
      refine List.forall_mem_cons.mpr ⟨fun addr haddr => ?_, ih h⟩
      have hcell := deviceAct_inRange haddr ha
      rw [cell?_dma, dmaCell] at hcell
      split at hcell
      · assumption
      · cases hcell

/-! ### The end of the loop body -/

/-- The exception that the trap selection takes when no interrupt is pending and enabled. -/
def Flags.due (f : Flags) : Option Word :=
  if f.ldAccFault then some causeLoadAccess else f.first.map Prod.fst

def DeliveredElsewhere (ecode : Word) (m : Machine) (pc : Word) : Prop :=
  ∃ h, trapModeSelect ecode false m.cp m.csr = some h ∧ h.handles ∧ (m.csr.tvec h).base ≠ pc

theorem selectTrap_of_none (hi : selectInterrupt m.csr = none) (hd : m.flags.due = none) :
    selectTrap m = .ret () m := by
  unfold Flags.due at hd
  split at hd
  · cases hd
  · rename_i hl
    rw [selectTrap_eq (Bool.eq_false_iff.mpr hl), hi]
    dsimp only
    rw [selectException_eq, Option.map_eq_none_iff.mp hd]

theorem selectTrap_of_due {ecode : Word} (hi : selectInterrupt m.csr = none)
    (hd : m.flags.due = some ecode) :
    ∃ f, selectTrap m = raiseExcep m.pc ecode { m with flags := f } := by
  unfold Flags.due at hd
  split at hd
  · rename_i hl
    cases hd
    exact ⟨_, if_pos hl⟩
  · rename_i hl
    obtain ⟨⟨e, f⟩, hf, rfl⟩ := Option.map_eq_some_iff.mp hd
    refine ⟨f, ?_⟩
    rw [selectTrap_eq (Bool.eq_false_iff.mpr hl), hi]
    dsimp only
    rw [selectException_eq, hf]

/-- An instruction that does not jump to itself ends the program at the end of the loop body only with
an exception that is not handled, or whose handler is at the instruction. -/
theorem loopEnd_halts_iff {lpc : Word} (hi : selectInterrupt (refresh s.toMachine).csr = none)
    (hpc : lpc ≠ s.pc) : (∃ h t, loopEnd lpc s = .halt h t) ↔
      ¬ ∀ ecode ∈ s.flags.due, DeliveredElsewhere ecode s.toMachine lpc := by
  unfold loopEnd
  cases hd : s.flags.due with
  | none =>
    rw [selectTrap_of_none hi hd]
    dsimp only
    refine iff_of_false ?_ fun h => h (fun _ he => nomatch he)
    rintro ⟨h, t, hx⟩
    rw [if_neg (show ¬ lpc = (refresh s.toMachine).pc from hpc)] at hx
    cases hx
  | some ecode =>
    obtain ⟨f, hx⟩ := selectTrap_of_due (m := refresh s.toMachine) hi hd
    rw [hx]
    constructor
    · rintro ⟨h, t, hh⟩ hall
      obtain ⟨k, ht, hk, hne⟩ := hall ecode rfl
      rw [raiseExcep_of_mode (m := { refresh s.toMachine with flags := f }) ht hk] at hh
      dsimp only at hh
      rw [enter_pc, if_neg (fun heq => hne heq.symm)] at hh
      cases hh
    · intro hn
      cases hr : raiseExcep (refresh s.toMachine).pc ecode { refresh s.toMachine with flags := f } with
      | stop h m => exact ⟨h, _, rfl⟩
      | ret u m =>
        obtain ⟨k, ht, hk, rfl⟩ := raiseExcep_ret hr
        -- the loop is left where the handler is at the instruction itself
        refine ⟨.leave, _, if_pos ?_⟩
        rw [enter_pc]
        by_contra hne
        refine hn fun e he => ?_
        cases he
        exact ⟨k, ht, hk, fun heq => hne heq.symm⟩

theorem access_pc (hi : IsAccess ins) (he : Effect inp ins m m') : m'.pc = m.pc := by
  have hj : ¬ jumps ins := by
    rcases hi with ho | ho | ho <;> exact fun h => by simp [jumps, ho] at h
  have hsystm : opcode ins ≠ .systm := by
    rcases hi with ho | ho | ho <;> rw [ho] <;> exact nofun
  cases he with
  | ecall pc m1 h ho => exact absurd ho hsystm
  | mret ho => exact absurd ho hsystm
  | sret ho => exact absurd ho hsystm
  | jump r pc h => exact absurd h hj
  | load m1 r hs => exact (raised_of_loadSide hs).2
  | loadMis m1 va hs => exact (raised_of_loadSide hs).2
  | device as m1 hd =>
    exact deviceActs_invariant (P := fun x => x.pc = m.pc) (fun _ _ _ h => h) (fun _ _ _ _ h => h)
      hd rfl
  | _ => rfl

/-! ### The device -/

theorem blockWrite_fails_iff {β : Type} {bd : BlockDevice β} {heap : BitVec 16 → ℕ → Byte}
    {offset val : BitVec 32} {a : Attached (BlockState β)} :
    (blockWrite bd heap offset val).Fails a ↔ offset = 0x50 ∧ ∃ h : val.toNat < maxQueue,
      (queueNotify (virtioBlockRecvRequest bd heap) ⟨val.toNat, h⟩).Fails a := by
  constructor
  · intro h
    unfold blockWrite virtioMmioWrite at h
    rw [if_pos rfl] at h
    split at h
    · exact absurd h (modifyCommon_returns _).not_fails
    -- of the registers, only `QUEUE_NOTIFY` runs code that may end the emulator
    unfold registerWrite at h
    split at h
    case h_10 =>
      have h := Prog.fails_modify_bind.mp h
      split at h
      · exact absurd h (Prog.Returns.bind (setIrq_returns false) (modifyCommon_returns _)).not_fails
      · exact absurd h (Prog.not_fails_pure _ _)
    case h_12 ho =>
      split at h
      · rename_i hv
        exact ⟨BitVec.eq_of_toNat_eq ho, hv, h⟩
      · exact absurd h (Prog.not_fails_pure _ _)
    case h_13 =>
      have h := Prog.fails_reads_bind.mp (Prog.fails_modify_bind.mp h)
      split at h
      · exact absurd h (setIrq_returns false).not_fails
      · exact absurd h (Prog.not_fails_pure _ _)
    case h_3 =>
      split at h
      · exact absurd h (modifyCommon_returns _).not_fails
      · exact absurd h (Prog.not_fails_pure _ _)
    case h_14 => exact absurd h (Prog.not_fails_pure _ _)
    all_goals exact absurd h (modifyCommon_returns _).not_fails
  · rintro ⟨rfl, hv, h⟩
    show ((if hv : val.toNat < maxQueue then queueNotify _ ⟨val.toNat, hv⟩ else pure ()) :
      Dev (BlockState β) Unit).Fails a
    rwa [dif_pos hv]

/-! ### The iteration -/

namespace AttachedSystem

variable (w : World) (x : AttachedSystem BlockDeviceFile)

def ticked : Machine := tick (w.input x.common []) x.state.toMachine

def executes : Option Word := executed (w.input x.common []) x.state

/-- What the device has done by the end of a store to it in the next iteration. -/
inductive Receives : List DeviceAct → Prop
  | plain (hs : x.deviceStore w = none) : Receives []
  | store (offset val : BitVec 32) (y : Attached (BlockState BlockDeviceFile))
      (hs : x.deviceStore w = some (offset, val))
      (hw : (blockWrite fileDevice w.heap offset val).Returns
        (x.attached (x.atSwitch w).toMachine) () y) : Receives y.acts

def Halts : Prop :=
  (∃ acts, x.Receives w acts ∧ ∃ h t, iterate (w.input x.common acts) x.state = .halt h t) ∨
    ∃ offset val, x.deviceStore w = some (offset, val) ∧
      (blockWrite fileDevice w.heap offset val).Fails (x.attached (x.atSwitch w).toMachine)

/-- The next iteration reaches the trap selection only with no interrupt pending and enabled. -/
def Uninterrupted : Prop :=
  ∀ acts, x.Receives w acts → ∀ t ∈ atLoopEnd (w.input x.common acts) x.state,
    selectInterrupt (refresh t.toMachine).csr = none

variable {w x}

theorem Receives.dmaInRam {acts : List DeviceAct} (h : x.Receives w acts) : DmaInRam acts := by
  cases h with
  | plain => exact List.forall_mem_nil _
  | store offset val y hs hw =>
    obtain ⟨as, has, hret⟩ :=
      recorded_steps.blockWrite fileDevice_neverDefers w.heap offset val _ _ _ hw
    have has : y.acts = as := has
    rw [has]
    exact dmaInRam_of_ret hret

theorem Receives.unique {as bs : List DeviceAct} (h : x.Receives w as) (h' : x.Receives w bs) :
    as = bs := by
  cases h with
  | plain hs =>
    cases h' with
    | plain => rfl
    | store offset val y hs' =>
      rw [hs] at hs'
      cases hs'
  | store offset val y hs hw =>
    cases h' with
    | plain hs' =>
      rw [hs] at hs'
      cases hs'
    | store offset' val' y' hs' hw' =>
      rw [hs] at hs'
      cases hs'
      rw [(hw.unique hw').2]

theorem executes_iff : ins ∈ x.executes w ↔ RiscvEmu.fetch (x.ticked w) = .word ins := executed_iff

end AttachedSystem

/-- Every access of the next iteration is one that the code makes to the place that it asks for, and an
iteration without another cause, an interrupt or an instruction that is no access, does not end the
program. -/
structure Contained (w : World) (x : AttachedSystem BlockDeviceFile) : Prop where
  fetchTouches : FetchTouches (x.ticked w) (fetchAccesses (x.ticked w))
  fetchProper : ∀ a ∈ fetchAccesses (x.ticked w), a.Proper
  armTouches : ∀ ins ∈ x.executes w, ∀ acts, ArmTouches (w.input x.common acts) ins (x.atSwitch w)
    (armAccesses (w.input x.common acts) ins (x.atSwitch w))
  armProper : ∀ ins ∈ x.executes w,
    ∀ a ∈ armAccesses (w.input x.common []) ins (x.atSwitch w), a.Proper
  dmaTouches : ∀ addr, DmaTouches addr
  dmaProper : ∀ acts, x.Receives w acts → ∀ a ∈ dmaAccesses acts, a.Proper
  lives : (∀ ins ∈ x.executes w, IsAccess ins) → x.Uninterrupted w → ¬ x.Halts w

/-- The fetch and the access handle their addresses, the device serves the queue without leaving RAM,
aborting or becoming undefined, and the exceptions that are due are handled elsewhere. -/
structure Handles (w : World) (x : AttachedSystem BlockDeviceFile) : Prop where
  fetch : FetchHandles (x.ticked w)
  arm : ∀ ins ∈ x.executes w, IsAccess ins → ArmHandles ins (x.atSwitch w)
  notify : ∀ val, x.deviceStore w = some (0x50, val) → ∀ h : val.toNat < maxQueue,
    ¬ (queueNotify (virtioBlockRecvRequest fileDevice w.heap) ⟨val.toNat, h⟩).Fails
      (x.attached (x.atSwitch w).toMachine)
  exceptions : ∀ ins ∈ x.executes w, IsAccess ins → ∀ acts, x.Receives w acts →
    ∀ t ∈ atLoopEnd (w.input x.common acts) x.state,
      selectInterrupt (refresh t.toMachine).csr = none →
      ∀ ecode ∈ t.flags.due, DeliveredElsewhere ecode t.toMachine x.state.pc

section

variable {w : World} {x : AttachedSystem BlockDeviceFile} {acts : List DeviceAct}

theorem deviceStore_of_fetch (h : ∀ ins, fetch (x.ticked w) ≠ .word ins) : x.deviceStore w = none := by
  unfold AttachedSystem.deviceStore
  split
  · rename_i ins hf
    exact absurd hf (h ins)
  · rfl

/-- An iteration that executes an access ends the program in the arm, or with an exception that is due
at the end of the loop body. -/
theorem access_halts_iff (hf : fetch (x.ticked w) = .word ins) (ha : IsAccess ins)
    (hi : ∀ t ∈ atLoopEnd (w.input x.common acts) x.state,
      selectInterrupt (refresh t.toMachine).csr = none) :
    (∃ h t, iterate (w.input x.common acts) x.state = .halt h t) ↔
      (execute (w.input x.common acts) ins (x.atSwitch w)).Stops ∨
        ¬ ∀ t ∈ atLoopEnd (w.input x.common acts) x.state, ∀ ecode ∈ t.flags.due,
          DeliveredElsewhere ecode t.toMachine x.state.pc := by
  have hf : fetch (tick (w.input x.common acts) x.state.toMachine) = .word ins := hf
  rw [iterate_of_word hf]
  have hend : ∀ t, t ∈ atLoopEnd (w.input x.common acts) x.state ↔
      execute (w.input x.common acts) ins (x.atSwitch w) = .fall t :=
    fun t => ⟨fun h => execute_of_atLoopEnd h hf, atLoopEnd_of_word hf⟩
  simp only [hend] at hi ⊢
  have hs : decoded { x.state with toMachine := tick (w.input x.common acts) x.state.toMachine } =
      x.atSwitch w := rfl
  rw [hs]
  cases hx : execute (w.input x.common acts) ins (x.atSwitch w) with
  | stop h s => exact iff_of_true ⟨h, s, rfl⟩ (.inl (Res.stops_stop h s))
  | cont s =>
    refine iff_of_false ?_ ?_
    · rintro ⟨h, t, ⟨⟩⟩
    · rintro (⟨h, t, ⟨⟩⟩ | hn)
      exact hn fun t ht => nomatch ht
  | fall s =>
    have hpc : s.pc = x.state.pc + 4 := access_pc ha (execute_effect hx)
    -- an access does not jump to itself, so the loop is not left because of it
    have hne : x.state.pc ≠ s.pc := by
      rw [hpc]
      bv_omega
    rw [or_iff_right (Res.not_stops_fall s)]
    refine (loopEnd_halts_iff (hi s hx) hne).trans (not_congr ?_)
    constructor
    · intro h t ht
      cases ht
      exact h
    · exact fun h => h s rfl

theorem fetch_halts_iff (hf : ∀ ins, fetch (x.ticked w) ≠ .word ins) :
    (∃ h t, iterate (w.input x.common acts) x.state = .halt h t) ↔ FetchStops (x.ticked w) := by
  unfold iterate FetchStops
  rw [show tick (w.input x.common acts) x.state.toMachine = x.ticked w from rfl]
  dsimp only
  cases hx : fetch (x.ticked w) with
  | word ins => exact absurd hx (hf ins)
  | stop h => exact iff_of_true ⟨h, _, rfl⟩ (.inl ⟨h, rfl⟩)
  | fault =>
    have hstop : ¬ ∃ h, Fetched.fault = .stop h := by
      rintro ⟨h, ⟨⟩⟩
    rw [or_iff_right hstop, and_iff_right rfl]
    dsimp only
    cases fetchFault (x.ticked w) with
    | stop h m => exact iff_of_true ⟨h, _, rfl⟩ ⟨h, m, rfl⟩
    | ret u m =>
      refine iff_of_false ?_ ?_
      · rintro ⟨h, t, ⟨⟩⟩
      · rintro ⟨h, t, ⟨⟩⟩

theorem FetchStops.not_word (h : FetchStops m) (ins : Word) : fetch m ≠ .word ins := by
  rcases h with ⟨e, h⟩ | ⟨h, -⟩ <;> rw [h] <;> exact nofun

theorem input_arm_iff (ha : IsAccess ins) (hd : DmaInRam acts) :
    (∀ a ∈ armAccesses (w.input x.common acts) ins s, a.Proper) ∧
        ¬ (execute (w.input x.common acts) ins s).Stops ↔ ArmHandles ins s :=
  arm_iff ha fun _ => hd

theorem isAccess_of_deviceStore {offset val : BitVec 32} (hs : x.deviceStore w = some (offset, val)) :
    ∀ ins ∈ x.executes w, IsAccess ins := by
  intro ins he
  unfold AttachedSystem.deviceStore at hs
  rw [show fetch (tick (w.input x.common []) x.state.toMachine) = .word ins from
    executed_iff.mp he] at hs
  obtain ⟨pa, ho, -⟩ := virtioStore_eq_some hs
  exact .inr (.inl ho)

theorem Contained.goes (h : Contained w x) (hf : fetch (x.ticked w) = .word ins) (ha : IsAccess ins)
    (hr : x.Receives w acts)
    (hi : ∀ t ∈ atLoopEnd (w.input x.common acts) x.state,
      selectInterrupt (refresh t.toMachine).csr = none) :
    ¬ (execute (w.input x.common acts) ins (x.atSwitch w)).Stops ∧
      ∀ t ∈ atLoopEnd (w.input x.common acts) x.state, ∀ ecode ∈ t.flags.due,
        DeliveredElsewhere ecode t.toMachine x.state.pc := by
  have haccess : ∀ ins' ∈ x.executes w, IsAccess ins' := by
    intro ins' he
    cases (AttachedSystem.executes_iff.mp he).symm.trans hf
    exact ha
  have hun : x.Uninterrupted w := by
    intro bs hbs
    rw [hbs.unique hr]
    exact hi
  have hlives : ¬ ∃ e t, iterate (w.input x.common acts) x.state = .halt e t :=
    fun hx => h.lives haccess hun (.inl ⟨acts, hr, hx⟩)
  rw [access_halts_iff hf ha hi, not_or, not_not] at hlives
  exact hlives

theorem handles_of_contained (h : Contained w x) : Handles w x where
  fetch := by
    refine (fetches_iff _).mp ⟨h.fetchProper, fun hstop => ?_⟩
    have hplain := AttachedSystem.Receives.plain (deviceStore_of_fetch hstop.not_word)
    refine h.lives (fun ins he => ?_) (fun acts _ t ht => ?_)
      (.inl ⟨[], hplain, (fetch_halts_iff hstop.not_word).mpr hstop⟩)
    · exact absurd (AttachedSystem.executes_iff.mp he) (hstop.not_word ins)
    · obtain ⟨ins, hf, -⟩ := atLoopEnd_effect ht
      exact absurd hf (hstop.not_word ins)
  arm ins he ha := by
    have hf := AttachedSystem.executes_iff.mp he
    refine (input_arm_iff ha (List.forall_mem_nil _)).mp ⟨h.armProper ins he, fun hstop => ?_⟩
    cases hs : x.deviceStore w with
    | none =>
      refine (h.goes hf ha (.plain hs) fun t ht => ?_).1 hstop
      obtain ⟨e, u, hx⟩ := hstop
      cases hx.symm.trans (execute_of_atLoopEnd ht hf)
    | some r =>
      -- without a deed of the device the store to it falls through
      unfold AttachedSystem.deviceStore at hs
      rw [show fetch (tick (w.input x.common []) x.state.toMachine) = .word ins from hf] at hs
      have hidle : deviceActs [] (x.atSwitch w).toMachine = .ret () (x.atSwitch w).toMachine := rfl
      obtain ⟨t, ht, -⟩ := execute_virtioStore (w.input x.common []) hs hidle
      rw [ht] at hstop
      exact Res.not_stops_fall t hstop
  notify val hs hv hfail := by
    have hfail := blockWrite_fails_iff.mpr ⟨rfl, hv, hfail⟩
    refine h.lives (isAccess_of_deviceStore hs) (fun acts hr => ?_) (.inr ⟨_, val, hs, hfail⟩)
    cases hr with
    | plain hs' =>
      rw [hs] at hs'
      cases hs'
    | store offset val y hs' hw =>
      rw [hs] at hs'
      cases hs'
      exact absurd hfail hw.not_fails
  exceptions ins he ha acts hr t ht hi := by
    refine (h.goes (AttachedSystem.executes_iff.mp he) ha hr fun u hu => ?_).2 t ht
    cases Option.mem_unique hu ht
    exact hi

theorem contained_of_handles (h : Handles w x) : Contained w x where
  fetchTouches := fetchTouches _
  fetchProper := ((fetches_iff _).mpr h.fetch).1
  armTouches ins _ acts := armTouches ins _ fun _ _ _ => rfl
  armProper ins he := by
    by_cases ha : IsAccess ins
    · exact ((input_arm_iff ha (List.forall_mem_nil _)).mpr (h.arm ins he ha)).1
    · rw [armAccesses_of_not ha]
      exact List.forall_mem_nil _
  dmaTouches := dmaTouches
  dmaProper acts hr := (dmaAccesses_iff acts).mpr hr.dmaInRam
  lives haccess hun := by
    rintro (⟨acts, hr, hx⟩ | ⟨offset, val, hs, hfail⟩)
    · by_cases hf : ∃ ins, fetch (x.ticked w) = .word ins
      · obtain ⟨ins, hf⟩ := hf
        have he : ins ∈ x.executes w := AttachedSystem.executes_iff.mpr hf
        have ha := haccess ins he
        rcases (access_halts_iff hf ha (hun acts hr)).mp hx with hstop | hn
        · exact ((input_arm_iff ha hr.dmaInRam).mpr (h.arm ins he ha)).2 hstop
        · exact hn fun t ht => h.exceptions ins he ha acts hr t ht (hun acts hr t ht)
      · have hf : ∀ ins, fetch (x.ticked w) ≠ .word ins := fun ins hw => hf ⟨ins, hw⟩
        exact ((fetches_iff _).mpr h.fetch).2 ((fetch_halts_iff hf).mp hx)
    · obtain ⟨rfl, hv, hq⟩ := blockWrite_fails_iff.mp hfail
      exact h.notify val hs hv hq

end

/-- `ld x1, 0(x0)` -/
def lowLoadProgram : List Word := [0x00003083]

def lowLoadSystem : AttachedSystem BlockDeviceFile :=
  .boot fileDevice (blockDeviceInit [] .rw) (imageOf lowLoadProgram) 0

end RiscvEmu
