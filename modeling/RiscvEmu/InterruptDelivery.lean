import RiscvEmu.AttachedServer
import RiscvEmu.TrapRoundTrip

/-! The interrupt of the block device on its way to the guest: the device raises its line, the PLIC has
the line in `mip`, and the end of the loop body takes it into the handler. -/

namespace RiscvEmu

open Bytes Programs Runs

/-! ### From the line to `mip` -/

/-- The line is in `mip` unless the guest serves an interrupt, and nothing else is. -/
structure SignalsLine (m : Machine) : Prop where
  raised : m.plic.pendingIrq = true → m.plic.servedIrq = false → m.csr.mip.seip = 1
  justified : m.csr.mip.seip = 1 → m.plic.pendingIrq = true

section

variable {m m' : Machine}

theorem SignalsLine.same (h : SignalsLine m) (hs : SamePlic m m') : SignalsLine m' := by
  obtain ⟨hplic, hseip⟩ := hs
  constructor
  · rw [hplic, hseip]
    exact h.raised
  · rw [hplic, hseip]
    exact h.justified

theorem SignalsLine.apply (h : SignalsLine m) (op : PlicOp) : SignalsLine (op.apply m) := by
  have hzero : (0 : Byte) ≠ 1 := by decide
  cases op with
  | setIrq state =>
    cases state with
    | true =>
      -- `~plic_served_irq` is never zero, so that a raise while one is served sets `SEIP` as well
      rw [PlicOp.apply, plicSetIrqEmu_true]
      exact ⟨fun _ _ => rfl, fun _ => rfl⟩
    | false => exact ⟨fun hp => Bool.noConfusion hp, fun hs => absurd hs hzero⟩
  | claim =>
    rw [PlicOp.apply, plicRead_claim]
    split
    · exact ⟨fun _ hs => Bool.noConfusion hs, fun hs => absurd hs hzero⟩
    · exact h
  | complete =>
    have hseip : (completeIrq m).csr.mip.seip = if m.plic.pendingIrq then 1 else 0 := rfl
    rw [PlicOp.apply, plicWrite_complete]
    refine ⟨fun hp _ => hseip.trans (if_pos hp), fun hs => ?_⟩
    by_contra hp
    exact hzero ((if_neg hp).symm.trans (hseip.symm.trans hs))

theorem SignalsLine.steps (h : SignalsLine m) (hs : PlicSteps m m') : SignalsLine m' := by
  obtain ⟨ops, hsame⟩ := hs
  refine SignalsLine.same ?_ hsame
  induction ops generalizing m with
  | nil => exact h
  | cons op ops ih => exact ih (h.apply op) hsame

end

/-! ### Runs of the system -/

variable {β : Type} {bd : BlockDevice β} {w : World} {x y : AttachedSystem β}

def AttachedSystem.LeavesSeip (w : World) (x : AttachedSystem β) : Prop :=
  RiscvEmu.LeavesSeip (w.input x.common []) x.state

theorem SystemNext.plicSteps (h : SystemNext bd w x y) (hw : x.LeavesSeip w) :
    PlicSteps x.state.toMachine y.state.toMachine := by
  cases h with
  | plain t hs hn => exact (next_turn hn).plicSteps hw
  | store offset val z t hs hz hn => exact (next_turn hn).plicSteps hw

/-- In every run of the system no interrupt is lost and none is made up: while the device has one that
is not acknowledged and the guest serves none, it is pending in `mip`, and an external interrupt that
is pending in `mip` is one of the device. -/
theorem no_interrupt_lost (hd : NeverDefers bd) {bs : β} {image : Memory} {time : Word}
    {ws : List World}
    (h : Run (Guarded AttachedSystem.LeavesSeip (SystemNext bd)) (AttachedSystem.boot bd bs image time)
      ws x) :
    (x.common.intStatus ≠ 0 → x.state.plic.servedIrq = false → x.state.csr.mip.seip = 1) ∧
      (x.state.csr.mip.seip = 1 → x.common.intStatus ≠ 0) := by
  have hzero : (0 : Byte) ≠ 1 := by decide
  -- the line follows `int_status`, and `SEIP` follows the line
  have hinv := run_invariant hd (h.mono fun _ _ _ hs => hs.2)
  have hline : SignalsLine x.state.toMachine :=
    Run.invariant (P := fun x => SignalsLine x.state.toMachine)
      ⟨fun hp => Bool.noConfusion hp, fun hs => absurd hs hzero⟩
      (fun _ _ _ hx hs => hx.steps (hs.2.plicSteps hs.1)) h
  have hup : x.state.plic.pendingIrq = decide (x.common.intStatus ≠ 0) := hinv.line
  refine ⟨fun hne hs => hline.raised (hup.trans (decide_eq_true hne)) hs, fun hs => ?_⟩
  exact of_decide_eq_true (hup.symm.trans (hline.justified hs))

instance (w : World) (x : AttachedSystem β) : Decidable (x.LeavesSeip w) :=
  Option.decidableForallMem (p := fun ins => IsCsr ins → _) _

/-- The device has an interrupt that is not acknowledged, and it is pending. -/
theorem no_interrupt_lost_driver : ∃ x : AttachedSystem BlockDeviceFile, x.common.intStatus ≠ 0 ∧
    x.state.csr.mip.seip = 1 := by
  have hdrive : (drive (fun w x => if x.LeavesSeip w then systemNext? fileDevice 5 w x else none)
      (List.replicate 8 stillWorld) driverSystem).any
      (fun x => decide (x.common.intStatus ≠ 0 ∧ x.state.plic.servedIrq = false)) = true := by
    decide +kernel
  obtain ⟨x, hr, hx⟩ := exists_run_of_drive hdrive
  obtain ⟨hstatus, hserved⟩ := of_decide_eq_true hx
  have hrun : Run (Guarded AttachedSystem.LeavesSeip (SystemNext fileDevice)) driverSystem
      (List.replicate 8 stillWorld).reverse x := by
    refine hr.mono fun w a b hab => ?_
    split at hab
    · rename_i hg
      exact ⟨hg, systemNext_of_next? hab⟩
    · cases hab
  exact ⟨x, hstatus, (no_interrupt_lost fileDevice_neverDefers hrun).1 hstatus hserved⟩

/-! ### From `mip` into the handler -/

/-- The guest lets the device interrupt it in supervisor mode: the handler is not at the current
instruction, and no machine interrupt comes before. -/
structure AdmitsExternal (s : State) : Prop where
  flags : s.flags.ldAccFault = false
  enabled : s.csr.mie.seie = 1
  external : s.csr.mie.meie &&& s.csr.mip.meip = 0
  timer : s.csr.mie.mtie &&& s.csr.mip.mtip = 0
  soft : s.csr.mie.msie &&& s.csr.mip.msip = 0
  delegated : trapModeSelect causeSupervisorExtInt true s.cp s.csr = some .smode
  sie : s.csr.mstatus.sie = 1
  direct : s.csr.stvec.mode = 0
  elsewhere : s.pc ≠ s.csr.stvec.base

theorem selectInterrupt_external {c : Csrs} (he : c.mie.meie &&& c.mip.meip = 0)
    (ht : c.mie.mtie &&& c.mip.mtip = 0) (hs : c.mie.msie &&& c.mip.msip = 0)
    (hx : c.mie.seie &&& c.mip.seip ≠ 0) : selectInterrupt c = some causeSupervisorExtInt := by
  unfold selectInterrupt
  rw [if_neg (not_not.mpr he), if_neg (not_not.mpr ht), if_neg (not_not.mpr hs), if_pos hx]

theorem TakesInterrupt.selects {m : Machine} {ecode : Word} {h : Plevel}
    (ht : TakesInterrupt m h ecode) (hh : h.handles) (hd : (m.csr.tvec h).mode = 0)
    (hcp : m.cp ≠ .mmode) :
    selectTrap m = .ret () (enter h 1 ecode m.pc (m.csr.tvec h).base m) := by
  obtain ⟨hl, hsel, hmode, hx⟩ := ht
  have hv : (m.csr.tvec h).mode ≠ 1 := by
    rw [hd]
    decide
  rw [selectTrap_of_interrupt hl hsel, raiseInterrupt_takes hmode hx hh hv fun _ => hcp, if_pos hd]

section

variable {s : State} {m : Machine} {inp : Input}

theorem AdmitsExternal.takes (h : AdmitsExternal s)
    (hm : DmaOnly (signal (decoded { s with toMachine := tick inp s.toMachine }).toMachine) m) :
    TakesInterrupt (refresh m) .smode causeSupervisorExtInt := by
  obtain ⟨mem, bus, rfl⟩ := hm
  rw [signal, plicSetIrqEmu_true]
  refine ⟨h.flags, ?_, h.delegated, h.sie⟩
  have hseip : s.csr.mie.seie &&& 1 ≠ 0 := by
    rw [h.enabled]
    decide
  exact selectInterrupt_external h.external h.timer h.soft hseip

theorem AdmitsExternal.cp_ne (h : AdmitsExternal s) : s.cp ≠ .mmode := by
  intro hcp
  have hmode := h.delegated
  rw [hcp] at hmode
  cases hmode

structure Interrupts (s t : State) : Prop where
  cp : t.cp = .smode
  pc : t.pc = s.csr.stvec.base
  cause : t.csr.scause = ⟨1, causeSupervisorExtInt⟩
  epc : t.csr.sepc = s.pc + 4
  masked : t.csr.mstatus.sie = 0
  spie : t.csr.mstatus.spie = 1
  spp : t.csr.mstatus.spp = s.cp.code

theorem AdmitsExternal.interrupts {s' : State} (h : AdmitsExternal s)
    (hm : DmaOnly (signal (decoded { s with toMachine := tick inp s.toMachine }).toMachine)
      s'.toMachine) (hend : atLoopEnd inp s = some s') :
    ∃ t, Next inp s t ∧ Interrupts s t := by
  have htakes := h.takes hm
  obtain ⟨mem, bus, hmach⟩ := hm
  rw [signal, plicSetIrqEmu_true] at hmach
  have hcsr : (refresh s'.toMachine).csr.tvec .smode = s.csr.stvec := by
    rw [hmach]
    rfl
  have hcp : (refresh s'.toMachine).cp = s.cp := by
    rw [hmach]
    rfl
  have hsel := htakes.selects (.inl rfl) (by rw [hcsr]; exact h.direct) (by rw [hcp]; exact h.cp_ne)
  rw [hcsr] at hsel
  refine ⟨{ s' with
    toMachine := enter .smode 1 causeSupervisorExtInt s'.pc s.csr.stvec.base
      (refresh s'.toMachine) }, ?_, ?_⟩
  · rw [Next, iterate_of_atLoopEnd hend, loopEnd, hsel]
    exact if_neg h.elsewhere
  · rw [hmach]
    exact ⟨rfl, rfl, rfl, rfl, rfl, h.sie, rfl⟩

end

/-- An iteration in which the guest, with its interrupts enabled, stores the number of a queue to
`QUEUE_NOTIFY`. If the server of the queue publishes anything, the guest is in its handler at the next
instruction, with the requests answered. -/
theorem notify_interrupts {Good : β → Prop} {q : Fin maxQueue} {ram₀ : ℕ → Byte}
    {chain : BitVec 16 → List VirtioDesc} (hd : NeverDefers bd) (hb : Synchronous bd Good)
    (hx : DeviceInvariant (x.attached x.state.toMachine))
    (hs : x.deviceStore w = some (0x050, BitVec.ofNat 32 q)) (hgood : Good x.ext.bs)
    (hm : (x.atSwitch w).mem.Holds ram₀) (hl : (x.common.queue q).Layout)
    (hreq : ∀ head ∈ (x.common.queue q).heads ram₀,
      HoldsRequest (x.common.queue q) ram₀ head (chain head))
    (ha : AdmitsExternal x.state) {s : Server β}
    (hserver : s = Server.serveAll bd (x.common.queue q) chain
      ((x.common.queue q).waits w.heap ram₀) ⟨ram₀, x.ext.bs, []⟩)
    (hused : s.used ≠ []) :
    (∃ y, SystemNext bd w x y) ∧ ∀ y, SystemNext bd w x y → Interrupts x.state y.state ∧
      y.state.mem.Holds s.ram ∧ y.ext.bs = s.disk ∧ (y.common.queue q).waiting s.ram = [] := by
  subst hserver
  have hidle : (x.attached (x.atSwitch w).toMachine).ext.reqInProgress = false := hx.idle
  obtain ⟨z, hz, hstands⟩ := blockNotify_serves w.heap hb hgood hidle hm hl (hx.automatic q) hreq
  obtain ⟨s', hend, hs'⟩ := atLoopEnd_of_deviceStore hd hs hz
  -- the device has changed RAM and raised its line, and the CSRs that admit the interrupt are as before
  have hmach : DmaOnly (signal (decoded { x.state with
      toMachine := tick (w.input x.common z.acts) x.state.toMachine }).toMachine) s'.toMachine := by
    rw [hs']
    exact hstands.raised hused
  obtain ⟨t, hnext, ht⟩ := ha.interrupts hmach hend
  refine ⟨⟨_, .store _ _ z t hs hz hnext⟩, fun y hy => ?_⟩
  obtain ⟨hmem, -, hcommon, hext⟩ := next_of_deviceStore hd hs hz hy
  refine ⟨?_, hmem ▸ hstands.holds, hext ▸ hstands.disk, ?_⟩
  · cases hy with
    | plain t' hnone hn => cases hnone.symm.trans hs
    | store offset val z' t' hs' hz' hn =>
      cases hs.symm.trans hs'
      obtain ⟨-, rfl⟩ := hz.unique hz'
      cases hnext.symm.trans hn
      exact ht
  · rw [hcommon]
    exact hstands.waiting_nil hl

/-- The guest of `notifySystem` in supervisor mode, with external interrupts delegated and enabled. -/
def interruptibleSystem : AttachedSystem BlockDeviceFile :=
  { notifySystem with
    state := { notifySystem.state with
      cp := .smode
      csr := { notifySystem.state.csr with
        mstatus := { notifySystem.state.csr.mstatus with sie := 1 }
        mie := { notifySystem.state.csr.mie with seie := 1 }
        mideleg := 0x200
        stvec := ⟨0, 0x80002000⟩ } } }

theorem interruptible_admits : AdmitsExternal interruptibleSystem.state := by
  constructor <;> decide +kernel

theorem notify_interrupts_busy :
    (∃ y, SystemNext fileDevice stillWorld interruptibleSystem y) ∧
      ∀ y, SystemNext fileDevice stillWorld interruptibleSystem y →
        y.state.pc = 0x80002000 ∧ y.state.csr.sepc = 0x80001004 := by
  have hused : (Server.serveAll fileDevice (interruptibleSystem.common.queue 0)
      busyChain ((interruptibleSystem.common.queue 0).waits stillWorld.heap
        (interruptibleSystem.atSwitch stillWorld).mem.byte)
      ⟨(interruptibleSystem.atSwitch stillWorld).mem.byte, interruptibleSystem.ext.bs, []⟩).used ≠ [] :=
    by decide +kernel
  have hinvariant : DeviceInvariant
      (interruptibleSystem.attached interruptibleSystem.state.toMachine) :=
    ⟨rfl, fun _ => ⟨3, rfl⟩, fun _ => rfl, rfl⟩
  obtain ⟨hex, hall⟩ := notify_interrupts (q := 0) fileDevice_neverDefers fileDevice_synchronous
    hinvariant (by decide +kernel) BlockDeviceMode.noConfusion (fun _ _ => rfl)
    QueueState.atStart_layout notifySystem_holdsRequest interruptible_admits rfl hused
  have hbase : interruptibleSystem.state.csr.stvec.base = 0x80002000 := by decide +kernel
  have hnext : interruptibleSystem.state.pc + 4 = 0x80001004 := by decide +kernel
  exact ⟨hex, fun y hy => ⟨(hall y hy).1.pc.trans hbase, (hall y hy).1.epc.trans hnext⟩⟩

end RiscvEmu
