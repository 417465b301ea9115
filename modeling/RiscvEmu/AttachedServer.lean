import RiscvEmu.AttachedSystem
import RiscvEmu.ServerRuns

/-! The guest as the driver of the block device: the iteration in which it notifies a queue leaves its
memory, the disk and the interrupt as the server leaves them that answers the requests of the queue. -/

namespace RiscvEmu

open Bytes Programs Runs Segments

variable {β : Type} {bd : BlockDevice β} {Good : β → Prop} {w : World} {x y : AttachedSystem β}
  {q : Fin maxQueue} {ram₀ : ℕ → Byte} {chain : BitVec 16 → List VirtioDesc}

theorem next_of_deviceStore {offset val : BitVec 32} {z : Attached (BlockState β)}
    (hd : NeverDefers bd) (hs : x.deviceStore w = some (offset, val))
    (hw : (blockWrite bd w.heap offset val).Returns (x.attached (x.atSwitch w).toMachine) () z)
    (h : SystemNext bd w x y) : y.state.mem = z.machine.mem ∧ SamePlic z.machine y.state.toMachine ∧
      y.common = z.common ∧ y.ext = z.ext := by
  cases h with
  | plain t hnone hn => exact absurd (hnone.symm.trans hs) (Option.some_ne_none _).symm
  | store offset' val' z' t hs' hw' hn =>
    cases hs.symm.trans hs'
    obtain ⟨-, rfl⟩ := hw.unique hw'
    obtain ⟨s', hl, hm⟩ := atLoopEnd_of_deviceStore hd hs hw
    have hsel := selected_of_atLoopEnd hl hn
    have hsame : SamePlic s'.toMachine (refresh s'.toMachine) := ⟨rfl, rfl⟩
    have hmem := selected_mem hsel
    rw [← hm]
    exact ⟨hmem, hsame.trans (selected_samePlic hsel), rfl, rfl⟩

theorem Stands.raised {x₀ z : Attached (BlockState β)} {i : BitVec 16} {s : Server β}
    (h : Stands Good q x₀ ram₀ i z s) (hne : s.used ≠ []) :
    DmaOnly (signal x₀.machine) z.machine := by
  have hmach := h.machine
  rwa [if_neg hne] at hmach

theorem Stands.signalled {x₀ z : Attached (BlockState β)} {i : BitVec 16} {s : Server β}
    (h : Stands Good q x₀ ram₀ i z s) (hne : s.used ≠ []) :
    z.machine.plic.pendingIrq = true ∧ z.machine.csr.mip.seip = 1 := by
  obtain ⟨mem, bus, hmach⟩ := h.raised hne
  rw [signal, plicSetIrqEmu_true] at hmach
  rw [hmach]
  exact ⟨rfl, rfl⟩

/-- An iteration in which the guest stores the number of a queue to `QUEUE_NOTIFY`. The device comes to
its end, and then the memory of the guest and the disk are those of the server that has answered the
requests of the queue in their order; if it has published one, the guest has an external
interrupt. -/
theorem notify_serves (hd : NeverDefers bd) (hb : Synchronous bd Good)
    (hx : DeviceInvariant (x.attached x.state.toMachine))
    (hs : x.deviceStore w = some (0x050, BitVec.ofNat 32 q)) (hgood : Good x.ext.bs)
    (hm : (x.atSwitch w).mem.Holds ram₀) (hl : (x.common.queue q).Layout)
    (hreq : ∀ head ∈ (x.common.queue q).heads ram₀,
      HoldsRequest (x.common.queue q) ram₀ head (chain head)) :
    ∃ (z : Attached (BlockState β)) (s' : State) (s : Server β),
      s = Server.serveAll bd (x.common.queue q) chain ((x.common.queue q).waits w.heap ram₀)
        ⟨ram₀, x.ext.bs, []⟩ ∧
      (blockWrite bd w.heap 0x050 (BitVec.ofNat 32 q)).Returns
        (x.attached (x.atSwitch w).toMachine) () z ∧
      atLoopEnd (w.input x.common z.acts) x.state = some s' ∧
      ∀ y, SystemNext bd w x y → y.state.mem.Holds s.ram ∧ y.ext.bs = s.disk ∧
        (y.common.queue q).waiting s.ram = [] ∧
        (s.used ≠ [] → y.state.plic.pendingIrq = true ∧ y.state.csr.mip.seip = 1) := by
  have hidle : (x.attached (x.atSwitch w).toMachine).ext.reqInProgress = false := hx.idle
  obtain ⟨z, hz, hstands⟩ := blockNotify_serves w.heap hb hgood hidle hm hl (hx.automatic q) hreq
  obtain ⟨s', hend, -⟩ := atLoopEnd_of_deviceStore hd hs hz
  refine ⟨z, s', _, rfl, hz, hend, fun y hy => ?_⟩
  obtain ⟨hmem, hplic, hcommon, hext⟩ := next_of_deviceStore hd hs hz hy
  refine ⟨hmem ▸ hstands.holds, hext ▸ hstands.disk, ?_, fun hne => ?_⟩
  · rw [hcommon]
    exact hstands.waiting_nil hl
  · rw [hplic.plic, hplic.seip]
    exact hstands.signalled hne

/-- A guest at `sw a1, 0x50(a0)`, with the number of the queue in `a1`. -/
def notifySystem : AttachedSystem BlockDeviceFile where
  state :=
    { boot (busyMemory.set ⟨512, by decide⟩ 0x04B52823) 0 with
      pc := 0x80001000
      regFile := Function.update (fun _ => 0) 10 0x40010000 }
  common := { virtioInit 2 8 with queue := fun _ => .atStart }
  ext := .initial (blockDeviceInit (List.replicate 512 0) .rw)

theorem notifySystem_holdsRequest : ∀ head ∈
    QueueState.atStart.heads (notifySystem.atSwitch stillWorld).mem.byte,
    HoldsRequest .atStart (notifySystem.atSwitch stillWorld).mem.byte head (busyChain head) := by
  have hheads : QueueState.atStart.heads (notifySystem.atSwitch stillWorld).mem.byte = [0, 3] := by
    decide +kernel
  rw [hheads, List.forall_mem_cons, List.forall_mem_singleton]
  constructor <;> apply HoldsRequest.of_inside <;> decide +kernel

theorem notifySystem_invariant :
    DeviceInvariant (notifySystem.attached notifySystem.state.toMachine) :=
  ⟨rfl, fun _ => ⟨3, rfl⟩, fun _ => rfl, rfl⟩

theorem notify_serves_busy :
    ∃ (z : Attached (BlockState BlockDeviceFile)) (s' : State) (s : Server BlockDeviceFile),
      s = Server.serveAll fileDevice (notifySystem.common.queue 0) busyChain
        ((notifySystem.common.queue 0).waits stillWorld.heap
          (notifySystem.atSwitch stillWorld).mem.byte)
        ⟨(notifySystem.atSwitch stillWorld).mem.byte, notifySystem.ext.bs, []⟩ ∧
      (blockWrite fileDevice stillWorld.heap 0x050 (BitVec.ofNat 32 (0 : Fin maxQueue))).Returns
        (notifySystem.attached (notifySystem.atSwitch stillWorld).toMachine) () z ∧
      atLoopEnd (stillWorld.input notifySystem.common z.acts) notifySystem.state = some s' ∧
      ∀ y, SystemNext fileDevice stillWorld notifySystem y → y.state.mem.Holds s.ram ∧
        y.ext.bs = s.disk ∧ (y.common.queue 0).waiting s.ram = [] ∧
        (s.used ≠ [] → y.state.plic.pendingIrq = true ∧ y.state.csr.mip.seip = 1) :=
  notify_serves (x := notifySystem) (w := stillWorld) (q := 0) fileDevice_neverDefers
    fileDevice_synchronous notifySystem_invariant (by decide +kernel) BlockDeviceMode.noConfusion
    (fun _ _ => rfl) QueueState.atStart_layout notifySystem_holdsRequest

end RiscvEmu
