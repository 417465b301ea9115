import RiscvEmu.AccessBounds
import RiscvEmu.DeviceSteps
import RiscvEmu.PlicProtocol
import RiscvEmu.QueueServer

/-! The emulator with its block device: the loop of `main` and the code of `temu/virtio.c` taken
together, where the inputs of the loop that stand for the device come from the device. -/

namespace RiscvEmu

open Bytes Programs Runs

/-! ### What the device has done to the machine -/

section

variable {δ : Type} {m m' : Machine} {addr : Word} {buf : List Byte}

theorem deviceActs_append (as bs : List DeviceAct) (m : Machine) :
    deviceActs (as ++ bs) m =
      match deviceActs as m with
      | .stop h m => .stop h m
      | .ret () m => deviceActs bs m := by
  induction as generalizing m with
  | nil => rfl
  | cons a as ih =>
    rw [List.cons_append, deviceActs, deviceActs]
    cases deviceAct a m with
    | stop h m => rfl
    | ret u m => exact ih m

theorem deviceActs_singleton {a : DeviceAct} (h : deviceAct a m = .ret () m') :
    deviceActs [a] m = .ret () m' := by
  rw [deviceActs, h]
  rfl

theorem deviceActs_trans {as bs : List DeviceAct} {u : Machine} (h : deviceActs as m = .ret () m')
    (h' : deviceActs bs m' = .ret () u) : deviceActs (as ++ bs) m = .ret () u := by
  rw [deviceActs_append, h]
  exact h'

theorem copyActs_add (addr : Word) (buf : List Byte) (k l : ℕ) :
    copyActs addr buf (k + l) =
      copyActs addr buf k ++ copyActs (addr + BitVec.ofNat 64 k) (buf.drop k) l := by
  unfold copyActs
  rw [List.range_add, List.map_append, List.map_map]
  congr 1
  refine List.map_congr_left fun i _ => ?_
  rw [Function.comp_apply, BitVec.ofNat_add, BitVec.add_assoc, List.getD_eq_getElem?_getD,
    List.getD_eq_getElem?_getD, List.getElem?_drop]

theorem writeRounds_acts {l : ℕ} (h : writeRounds addr buf l m = .ret () m') :
    deviceActs (copyActs addr buf l) m = .ret () m' := by
  induction l generalizing m' with
  | zero =>
    cases h
    rfl
  | succ l ih =>
    rw [writeRounds] at h
    split at h
    · cases h
    · rename_i u hu
      split at h
      · cases h
      · rename_i b hb
        rw [copyActs_add]
        refine deviceActs_trans (ih hu) ?_
        have hone : copyActs (addr + BitVec.ofNat 64 l) (buf.drop l) 1 =
            [.write8 (addr + BitVec.ofNat 64 l) (b.setWidth 64)] := by
          unfold copyActs
          rw [List.range_one, List.map_singleton, BitVec.ofNat_eq_ofNat, BitVec.add_zero,
            List.getD_eq_getElem?_getD, List.getElem?_drop, Nat.add_zero, hb]
          rfl
        rw [hone]
        exact deviceActs_singleton h

theorem virtioMemcpyToRam_acts {count : Int}
    (h : virtioMemcpyToRam addr buf count m = .ret () m') :
    deviceActs (copyActs addr buf count.toNat) m = .ret () m' := by
  induction addr, buf, count, m using virtioMemcpyToRam.induct with
  | case1 addr buf count m hpos l hlt e u hu =>
    rw [virtioMemcpyToRam, dif_pos hpos] at h
    dsimp only at h
    rw [hu] at h
    cases h
  | case2 addr buf count m hpos l hlt u hu ih =>
    rw [virtioMemcpyToRam, dif_pos hpos] at h
    dsimp only at h
    rw [hu] at h
    have hl : 0 < l := pageChunk_pos hpos
    have hle : l ≤ count := pageChunk_le addr count
    have hsum : count.toNat = l.toNat + (count - l).toNat := by omega
    have haddr : BitVec.ofInt 64 l = BitVec.ofNat 64 l.toNat := by
      rw [← BitVec.ofInt_natCast, Int.toNat_of_nonneg hl.le]
    rw [hsum, copyActs_add, ← haddr]
    exact deviceActs_trans (writeRounds_acts hu) (ih h)
  | case3 addr buf count m hpos =>
    rw [virtioMemcpyToRam, dif_neg hpos] at h
    cases h
    rw [Int.toNat_of_nonpos (not_lt.mp hpos)]
    rfl

def Recorded (x y : Attached δ) : Prop :=
  ∃ as, y.acts = x.acts ++ as ∧ deviceActs as x.machine = .ret () y.machine

theorem Recorded.none {x y : Attached δ} (ha : y.acts = x.acts) (hm : y.machine = x.machine) :
    Recorded x y := ⟨[], by rw [ha, List.append_nil], by rw [hm]; rfl⟩

theorem recorded_act (a : DeviceAct) : Prog.Within Recorded (act a : Dev δ Unit) := by
  refine .step fun x u y hx => ?_
  split at hx
  · cases hx
  · rename_i m hm
    cases hx
    exact ⟨[a], rfl, deviceActs_singleton hm⟩

theorem recorded_modifyCommon (f : VirtioDevice → VirtioDevice) :
    Prog.Within Recorded (modifyCommon f : Dev δ Unit) := .modify fun _ => .none rfl rfl

theorem recorded_trans {x y z : Attached δ} (h : Recorded x y) (h' : Recorded y z) :
    Recorded x z := by
  obtain ⟨as, ha, hm⟩ := h
  obtain ⟨bs, hb, hm'⟩ := h'
  exact ⟨as ++ bs, by rw [hb, ha, List.append_assoc], deviceActs_trans hm hm'⟩

end

variable {β : Type}

theorem recorded_steps : BlockSteps (Recorded (δ := BlockState β)) where
  refl _ := .none rfl rfl
  trans := recorded_trans
  write _ := recorded_act _
  copy addr buf n := by
    refine .step fun x u y hx => ?_
    split at hx
    · cases hx
    · cases hx
    · rename_i m hm
      cases hx
      exact ⟨_, rfl, virtioMemcpyToRam_acts hm⟩
  raise := .bind recorded_trans (recorded_modifyCommon _) fun _ => recorded_act _
  advance _ := recorded_modifyCommon _
  common _ := recorded_modifyCommon _
  status _ := .bind recorded_trans (recorded_modifyCommon _) fun _ =>
    .ite (fun _ => .bind recorded_trans (recorded_act _) fun _ => recorded_modifyCommon _)
      fun _ => .pure (fun _ => .none rfl rfl) _
  ack _ := .bind recorded_trans (recorded_modifyCommon _) fun _ =>
    .bind recorded_trans (.reads (fun _ => .none rfl rfl) _) fun _ =>
      .ite (fun _ => recorded_act _) fun _ => .pure (fun _ => .none rfl rfl) _
  ext _ := .modify fun _ => .none rfl rfl

/-! ### What holds of the device and the line -/

/-- The interrupt line is up exactly while an interrupt is not acknowledged, the size of each queue is
a power of two, and no request is left over. -/
structure DeviceInvariant (x : Attached (BlockState β)) : Prop where
  line : x.machine.plic.pendingIrq = decide (x.common.intStatus ≠ 0)
  num : ∀ q, ∃ k, (x.common.queue q).num.toNat = 2 ^ k
  automatic : ∀ q, (x.common.queue q).manualRecv = false
  idle : x.ext.reqInProgress = false

theorem dmaWrite_plic {target : Option (Cell × Word)} {m m' : Machine}
    (h : dmaWrite target m = .ret () m') : m'.plic = m.plic := by
  unfold dmaWrite at h
  split at h
  · cases h
  · cases h
    rfl

theorem writeAct_plic {a : DeviceAct} {m m' : Machine} (ha : a.IsWrite)
    (h : deviceAct a m = .ret () m') : m'.plic = m.plic := by
  cases a with
  | write8 addr data => exact dmaWrite_plic h
  | write16 addr data => exact dmaWrite_plic h
  | write32 addr data => exact dmaWrite_plic h
  | _ => exact ha.elim

theorem copyActs_plic {addr : Word} {buf : List Byte} {n : ℕ} {m m' : Machine}
    (h : deviceActs (copyActs addr buf n) m = .ret () m') : m'.plic = m.plic := by
  have hwrites : ∀ a ∈ copyActs addr buf n, a.IsWrite := by
    intro a ha
    obtain ⟨i, -, rfl⟩ := List.mem_map.mp ha
    trivial
  generalize copyActs addr buf n = as at h hwrites
  induction as generalizing m with
  | nil =>
    cases h
    rfl
  | cons a as ih =>
    rw [deviceActs] at h
    split at h
    · cases h
    · rename_i u hu
      exact (ih h fun b hb => hwrites b (List.mem_cons_of_mem _ hb)).trans
        (writeAct_plic (hwrites a (List.mem_cons_self ..)) hu)

theorem plicSetIrqEmu_pending (level : Bool) (m : Machine) :
    (plicSetIrqEmu level m).plic.pendingIrq = level := by
  cases level with
  | true =>
    rw [plicSetIrqEmu_true]
    rfl
  | false => rfl

theorem within_of_returns {α : Type} {R : Attached (BlockState β) → Attached (BlockState β) → Prop}
    {p : Dev (BlockState β) α} {a : Attached (BlockState β) → α}
    {f : Attached (BlockState β) → Attached (BlockState β)} (hp : ∀ x, p.Returns x (a x) (f x))
    (hR : ∀ x, R x (f x)) : Prog.Within R p := by
  intro x b y h
  obtain ⟨-, rfl⟩ := h.unique (hp x)
  exact hR x

theorem raise_returns (x : Attached (BlockState β)) : raise.Returns x ()
    { x with
      machine := plicSetIrqEmu true x.machine
      acts := x.acts ++ [.setIrq true]
      common := { x.common with intStatus := x.common.intStatus ||| 1 } } :=
  .bind (modifyCommon_returns _) (setIrq_returns true)

theorem or_one_ne_zero (v : BitVec 32) : v ||| 1 ≠ 0 := by
  intro h
  have hbit := congrArg (fun w => w.getLsbD 0) h
  rw [BitVec.getLsbD_or] at hbit
  exact Bool.noConfusion ((Bool.or_true _).symm.trans hbit)

theorem DeviceInvariant.of_plic {x : Attached (BlockState β)} {m : Machine} {as : List DeviceAct}
    (h : DeviceInvariant x) (hm : m.plic = x.machine.plic) :
    DeviceInvariant { x with machine := m, acts := as } :=
  { h with line := (congrArg Plic.pendingIrq hm).trans h.line }

theorem DeviceInvariant.of_keeps {x : Attached (BlockState β)} {s : VirtioDevice}
    (h : DeviceInvariant x) (hs : Keeps x.common s) : DeviceInvariant { x with common := s } where
  line := by
    rw [hs.intStatus]
    exact h.line
  num q := (hs.num q).elim (fun hn => hn ▸ h.num q) id
  automatic q := (hs.manualRecv q).trans (h.automatic q)
  idle := h.idle

theorem DeviceInvariant.status (val : BitVec 32) : Prog.Within
    (fun x y : Attached (BlockState β) => DeviceInvariant x → DeviceInvariant y)
    (writeStatus val) := by
  refine .bind (fun h h' hx => h' (h hx)) (.modify fun x hx => ?_) fun _ => .ite (fun _ => ?_)
    fun _ => .pure (fun _ => id) _
  · exact hx.of_keeps ⟨rfl, fun _ => .inl rfl, fun _ => rfl, rfl, rfl, rfl, rfl⟩
  · -- the line goes down before the status of the interrupt is cleared
    refine within_of_returns (a := fun _ => ())
      (fun x => .bind (setIrq_returns false) (modifyCommon_returns virtioReset)) fun x hx => ?_
    exact ⟨plicSetIrqEmu_pending false x.machine, fun _ => ⟨4, rfl⟩, fun q => hx.automatic q, hx.idle⟩

theorem DeviceInvariant.ack (val : BitVec 32) : Prog.Within
    (fun x y : Attached (BlockState β) => DeviceInvariant x → DeviceInvariant y)
    (interruptAck val) := by
  intro x a y h hx
  obtain ⟨u, z, hu, h⟩ := Prog.returns_bind.mp h
  obtain rfl := Prog.returns_modify.mp hu
  obtain ⟨v, w, hv, h⟩ := Prog.returns_bind.mp h
  obtain ⟨rfl, rfl⟩ := Prog.returns_reads.mp hv
  dsimp only at h
  split at h
  · rename_i hzero
    obtain ⟨-, rfl⟩ := h.unique (setIrq_returns false)
    refine ⟨?_, hx.num, hx.automatic, hx.idle⟩
    dsimp only
    rw [plicSetIrqEmu_pending, hzero]
    rfl
  · rename_i hne
    obtain ⟨-, rfl⟩ := Prog.returns_pure.mp h
    refine ⟨?_, hx.num, hx.automatic, hx.idle⟩
    have hbefore : x.common.intStatus ≠ 0 := by
      intro hzero
      rw [hzero] at hne
      exact hne BitVec.zero_and
    dsimp only
    rw [hx.line, decide_eq_true hne, decide_eq_true hbefore]

theorem invariant_steps : BlockSteps (β := β) fun x y => DeviceInvariant x → DeviceInvariant y where
  refl _ := id
  trans h h' hx := h' (h hx)
  write ha := by
    refine .step fun x u y hx => ?_
    split at hx
    · cases hx
    · rename_i m hm
      cases hx
      exact fun h => h.of_plic (writeAct_plic ha hm)
  copy addr buf n := by
    refine .step fun x u y hx => ?_
    split at hx
    · cases hx
    · cases hx
    · rename_i m hm
      cases hx
      exact fun h => h.of_plic (copyActs_plic (virtioMemcpyToRam_acts hm))
  raise := within_of_returns raise_returns fun x h => by
    refine ⟨?_, h.num, h.automatic, h.idle⟩
    dsimp only
    rw [plicSetIrqEmu_pending, decide_eq_true (or_one_ne_zero _)]
  advance _ := .modify fun x h => h.of_keeps (keeps_setQueue (.inl rfl) rfl)
  common hf := .modify fun x h => h.of_keeps (hf x.common)
  status := DeviceInvariant.status
  ack := DeviceInvariant.ack
  ext hf := .modify fun x h => { h with idle := (hf x.ext).trans h.idle }

/-! ### The system -/

/-- What an iteration receives from outside the emulator and its device: the clock, the key, the
garbage of `csr_read`, and what each call of `malloc` finds in its memory. -/
structure World where
  timeInMicros : Word
  getchar : Option Byte
  fallOff : Word
  heap : BitVec 16 → ℕ → Byte

/-- The input of the loop, where the device gives what its registers read, which takes four bytes at a
time, and what it does on a store. -/
def World.input (w : World) (common : VirtioDevice) (acts : List DeviceAct) : Input where
  timeInMicros := w.timeInMicros
  getchar := w.getchar
  fallOff := w.fallOff
  virtioMmioRead offset := (virtioMmioRead common offset 2).getD 0
  virtioMmioWrite _ _ _ := acts

structure AttachedSystem (β : Type) where
  state : State
  common : VirtioDevice
  ext : BlockState β

def virtioStore (ins : Word) (s : State) : Option (BitVec 32 × BitVec 32) :=
  let addr := s.reg (rs1 ins) + signExtend (immS ins) 12
  if opcode ins ≠ .store ∨ addr = fifoAddrTx then none
  else match translate s.csr s.mem addr .stor s.cp with
    | .error _ => none
    | .ok pa =>
      if InVirtio pa then
        some ((pa - virtioBase).setWidth 32, (s.reg (rs2 ins) &&& 0xFFFFFFFF).setWidth 32)
      else none

namespace AttachedSystem

/-- The system after `main` has opened the file of the device and loaded the program. -/
def boot (bd : BlockDevice β) (bs : β) (image : Memory) (time : Word) : AttachedSystem β :=
  ⟨RiscvEmu.boot image time, virtioBlockInit bd bs, .initial bs⟩

def atSwitch (w : World) (x : AttachedSystem β) : State :=
  decoded { x.state with toMachine := tick (w.input x.common []) x.state.toMachine }

def attached (x : AttachedSystem β) (m : Machine) : Attached (BlockState β) := ⟨m, [], x.common, x.ext⟩

def deviceStore (w : World) (x : AttachedSystem β) : Option (BitVec 32 × BitVec 32) :=
  match fetch (tick (w.input x.common []) x.state.toMachine) with
  | .word ins => virtioStore ins (x.atSwitch w)
  | _ => none

end AttachedSystem

/-- One iteration of the loop, in which a store to a register runs the code of the device. -/
inductive SystemNext (bd : BlockDevice β) (w : World) (x : AttachedSystem β) :
    AttachedSystem β → Prop
  | plain (t : State) (hs : x.deviceStore w = none) (hn : Next (w.input x.common []) x.state t) :
      SystemNext bd w x { x with state := t }
  | store (offset val : BitVec 32) (y : Attached (BlockState β)) (t : State)
      (hs : x.deviceStore w = some (offset, val))
      (hw : (blockWrite bd w.heap offset val).Returns (x.attached (x.atSwitch w).toMachine) () y)
      (hn : Next (w.input x.common y.acts) x.state t) : SystemNext bd w x ⟨t, y.common, y.ext⟩

section

variable {ins : Word} {s s' : State} {offset val : BitVec 32} {m m' : Machine}

theorem virtioStore_eq_some (h : virtioStore ins s = some (offset, val)) : ∃ pa,
    opcode ins = .store ∧ s.reg (rs1 ins) + signExtend (immS ins) 12 ≠ fifoAddrTx ∧
      translate s.csr s.mem (s.reg (rs1 ins) + signExtend (immS ins) 12) .stor s.cp = .ok pa ∧
      InVirtio pa ∧ offset = (pa - virtioBase).setWidth 32 ∧
      val = (s.reg (rs2 ins) &&& 0xFFFFFFFF).setWidth 32 := by
  unfold virtioStore at h
  dsimp only at h
  split at h
  · cases h
  · rename_i hn
    obtain ⟨hop, haddr⟩ := not_or.mp hn
    split at h
    · cases h
    · rename_i pa hpa
      split at h
      · rename_i hv
        cases h
        exact ⟨pa, not_not.mp hop, haddr, hpa, hv, rfl, rfl⟩
      · cases h

theorem execute_virtioStore (inp : Input) (h : virtioStore ins s = some (offset, val))
    (hd : deviceActs (inp.virtioMmioWrite offset val s.mem) s.toMachine = .ret () m') :
    ∃ s', execute inp ins s = .fall s' ∧ s'.toMachine = m' := by
  obtain ⟨pa, hop, haddr, hpa, hv, rfl, rfl⟩ := virtioStore_eq_some h
  have hhi : pa.toNat ≤ 0x40011000 := BitVec.le_def.mp hv.2
  have hneg : pa ≠ -1 := by
    rintro rfl
    exact absurd hhi (by decide)
  have hram : ¬ pa ≥ dramBase := fun hge => by
    have hlo : 0x80000000 ≤ pa.toNat := BitVec.le_def.mp hge
    omega
  rw [execute_store hop]
  unfold armStore
  dsimp only
  rw [if_pos haddr, hpa]
  dsimp only
  rw [if_neg hneg, if_neg hram, storePeripheral_virtio _ hv]
  unfold virtioActs
  rw [show _ = _ from hd]
  exact ⟨_, rfl, rfl⟩

end

section

variable {inp : Input} {ins : Word} {s s' : State} {m m' : Machine}

theorem storeRam_plic {pa : Word} (s : State) (h : storeRam ins pa s = .fall s') :
    s'.plic = s.plic := by
  unfold storeRam at h
  dsimp only at h
  split at h
  · cases h
  · split at h
    · cases h
    · rename_i c hc
      cases h
      unfold storeCommit storeSwitch
      dsimp only
      split <;> split_ifs <;> rfl

theorem storePeripheral_line {pa v : Word} (hv : ¬ InVirtio pa)
    (h : storePeripheral inp pa v m = .ret () m') : m'.plic.pendingIrq = m.plic.pendingIrq := by
  unfold storePeripheral at h
  split at h
  · cases h
    unfold clintWrite
    split <;> rfl
  · split at h
    · cases h
      unfold plicWrite
      split
      · dsimp only
        split <;> rfl
      · rfl
    · split at h
      · rename_i hin
        exact absurd hin hv
      · cases h

theorem armStore_line (hop : opcode ins = .store) (hs : virtioStore ins s = none)
    (h : armStore inp ins s = .fall s') : s'.plic.pendingIrq = s.plic.pendingIrq := by
  unfold armStore at h
  dsimp only at h
  split at h
  · rename_i haddr
    split at h
    · cases h
    · rename_i pa hpa
      split at h
      · unfold storePageFault at h
        split at h <;> cases h
      · split at h
        · have hplic := storeRam_plic _ h
          exact congrArg Plic.pendingIrq hplic
        · split at h
          · cases h
          · rename_i m hm
            cases h
            refine storePeripheral_line (fun hv => ?_) hm
            unfold virtioStore at hs
            dsimp only at hs
            rw [if_neg (not_or.mpr ⟨not_not.mpr hop, haddr⟩), hpa] at hs
            dsimp only at hs
            rw [if_pos hv] at hs
            cases hs
  · cases h
    rfl

theorem loadSide_line (m' : Machine) (h : LoadSide m m') :
    m'.plic.pendingIrq = m.plic.pendingIrq := by
  rcases h with rfl | ⟨-, rfl⟩ <;> rfl

theorem Effect.line (he : Effect inp ins m m') (hop : opcode ins ≠ .store) :
    m'.plic.pendingIrq = m.plic.pendingIrq := by
  cases he with
  | load m1 r hs => exact loadSide_line m1 hs
  | loadMis m1 va hs => exact loadSide_line m1 hs
  | ecall pc m1 hx =>
    obtain ⟨hm, e, epc, -, -, -, rfl⟩ := excepFunction_enters hx
    exact congrArg Plic.pendingIrq (enter_samePlic 0 e epc m.pc m).plic
  | complete ho => exact absurd ho hop
  | device as m1 hd ho => exact absurd ho hop
  | _ => rfl

theorem execute_line (hs : virtioStore ins s = none) (h : execute inp ins s = .fall s') :
    s'.plic.pendingIrq = s.plic.pendingIrq := by
  by_cases hop : opcode ins = .store
  · rw [execute_store hop] at h
    exact armStore_line hop hs h
  · exact (execute_effect h).line hop

theorem continued_plic (h : Continued ins m m') : m'.plic = m.plic := by
  cases h with
  | fence => rfl
  | fault hm ecode va hh => rcases hh with rfl | rfl <;> rfl

end

/-! ### Runs of the system -/

section

open AttachedSystem

variable {bd : BlockDevice β} {w : World} {x y : AttachedSystem β}

theorem atLoopEnd_of_deviceStore {offset val : BitVec 32} {z : Attached (BlockState β)}
    (hd : NeverDefers bd) (hs : x.deviceStore w = some (offset, val))
    (hw : (blockWrite bd w.heap offset val).Returns (x.attached (x.atSwitch w).toMachine) () z) :
    ∃ s', atLoopEnd (w.input x.common z.acts) x.state = some s' ∧ s'.toMachine = z.machine := by
  obtain ⟨as, has, hacts⟩ := recorded_steps.blockWrite hd w.heap offset val _ _ _ hw
  unfold AttachedSystem.deviceStore at hs
  split at hs
  · rename_i ins hf
    obtain ⟨s', hx, hm⟩ := execute_virtioStore (w.input x.common z.acts) hs
      (by rw [show (w.input x.common z.acts).virtioMmioWrite offset val _ = as from has]; exact hacts)
    exact ⟨s', atLoopEnd_of_word hf hx, hm⟩
  · cases hs

theorem DeviceInvariant.of_line {u v : Attached (BlockState β)} (h : DeviceInvariant u)
    (hm : v.machine.plic.pendingIrq = u.machine.plic.pendingIrq) (hc : v.common = u.common)
    (he : v.ext = u.ext) : DeviceInvariant v where
  line := by
    rw [hm, hc]
    exact h.line
  num := hc ▸ h.num
  automatic := hc ▸ h.automatic
  idle := he ▸ h.idle

theorem Turn.line {inp : Input} {s : State} {m : Machine} (ht : Turn inp s m)
    (harm : ∀ s' ins, atLoopEnd inp s = some s' → fetch (tick inp s.toMachine) = .word ins →
      s'.plic.pendingIrq = s.plic.pendingIrq) : m.plic.pendingIrq = s.plic.pendingIrq := by
  cases ht with
  | fetchFault hm hh => rcases hh with rfl | rfl <;> rfl
  | cont ins m hf hc =>
    have hplic := continued_plic hc
    exact congrArg Plic.pendingIrq hplic
  | fall s' ins m hl hf he hsel =>
    exact (congrArg Plic.pendingIrq (selected_samePlic hsel).plic).trans (harm s' ins hl hf)

theorem next_line {t : State} (hs : x.deviceStore w = none)
    (hn : Next (w.input x.common []) x.state t) :
    t.plic.pendingIrq = x.state.plic.pendingIrq := by
  refine (next_turn hn).line fun s' ins hl hf => ?_
  have hnone : virtioStore ins (x.atSwitch w) = none := by
    unfold AttachedSystem.deviceStore at hs
    rw [hf] at hs
    exact hs
  have hline := execute_line hnone (execute_of_atLoopEnd hl hf)
  exact hline

theorem SystemNext.invariant (hd : NeverDefers bd) (h : SystemNext bd w x y)
    (hx : DeviceInvariant (x.attached x.state.toMachine)) :
    DeviceInvariant (y.attached y.state.toMachine) := by
  cases h with
  | plain t hs hn => exact hx.of_line (next_line hs hn) rfl rfl
  | store offset val z t hs hw hn =>
    obtain ⟨s', hl, hm⟩ := atLoopEnd_of_deviceStore hd hs hw
    have hz : DeviceInvariant z := invariant_steps.blockWrite hd w.heap offset val _ _ _ hw
      (hx.of_line rfl rfl rfl)
    have hplic := (selected_samePlic (selected_of_atLoopEnd hl hn)).plic
    have hline : t.plic.pendingIrq = z.machine.plic.pendingIrq := by
      rw [← hm]
      exact congrArg Plic.pendingIrq hplic
    exact hz.of_line hline rfl rfl

theorem boot_invariant (bs : β) (image : Memory) (time : Word) :
    DeviceInvariant ((AttachedSystem.boot bd bs image time).attached
      (RiscvEmu.boot image time).toMachine) where
  line := rfl
  num _ := ⟨4, rfl⟩
  automatic _ := rfl
  idle := rfl

/-- In every run of the system the interrupt line is up exactly while the device has an interrupt that
the guest has not acknowledged, and no request is left over from an iteration. -/
theorem run_invariant (hd : NeverDefers bd) {bs : β} {image : Memory} {time : Word}
    {ws : List World} (h : Run (SystemNext bd) (AttachedSystem.boot bd bs image time) ws x) :
    DeviceInvariant (x.attached x.state.toMachine) :=
  Run.invariant (P := fun x => DeviceInvariant (x.attached x.state.toMachine))
    (boot_invariant bs image time) (fun _ _ _ hx hs => hs.invariant hd hx) h

end

/-! ### Runs by evaluation -/

/-- One iteration of the system, as a partial function. The code of the device gets fuel. -/
def systemNext? (bd : BlockDevice β) (fuel : ℕ) (w : World) (x : AttachedSystem β) :
    Option (AttachedSystem β) :=
  match x.deviceStore w with
  | none => (next? (w.input x.common []) x.state).map fun t => { x with state := t }
  | some (offset, val) =>
    match (blockWrite bd w.heap offset val).run fuel (x.attached (x.atSwitch w).toMachine) with
    | .ret () y => (next? (w.input x.common y.acts) x.state).map fun t => ⟨t, y.common, y.ext⟩
    | _ => none

theorem systemNext_of_next? {bd : BlockDevice β} {fuel : ℕ} {w : World} {x y : AttachedSystem β}
    (h : systemNext? bd fuel w x = some y) : SystemNext bd w x y := by
  unfold systemNext? at h
  split at h
  · rename_i hs
    obtain ⟨t, ht, rfl⟩ := Option.map_eq_some_iff.mp h
    exact .plain t hs (next_of_next? ht)
  · rename_i offset val hs
    split at h
    · rename_i z hz
      obtain ⟨t, ht, rfl⟩ := Option.map_eq_some_iff.mp h
      exact .store offset val z t hs ⟨fuel, hz⟩ (next_of_next? ht)
    · cases h

def stillWorld : World := ⟨0, none, 0, fun _ _ => 0⟩

/-- A driver that gives queue 0 its addresses and notifies the device: `lui a0, 0x40010`;
`lui a1, 0x80001`; `sw a1, 0x80(a0)`; `addi a2, a1, 0x100`; `sw a2, 0x90(a0)`; `addi a2, a1, 0x140`;
`sw a2, 0xa0(a0)`; `sw zero, 0x50(a0)`. At `0x80001000` is the queue, with a read of no sectors. -/
def driverImage : Memory := fun c =>
  if c.val < 512 then
    [0x800015b740010537, 0x1005861308b52023, 0x1405861308c52823, 0x040528230ac52023].getD c.val 0
  else
    ([0x80001200, 0x0001000100000010, 0x80001300, 0x0000000200000001] ++ List.replicate 28 0 ++
      [0x10000]).getD (c.val - 512) 0

def driverSystem : AttachedSystem BlockDeviceFile :=
  .boot fileDevice (blockDeviceInit [] .rw) driverImage 0

/-- The device has answered the request, and its interrupt is up. -/
theorem run_invariant_driver : ∃ x : AttachedSystem BlockDeviceFile, x.common.intStatus = 1 ∧
    x.state.plic.pendingIrq = true ∧ DeviceInvariant (x.attached x.state.toMachine) := by
  have hdrive : (drive (systemNext? fileDevice 5) (List.replicate 8 stillWorld) driverSystem).any
      (fun x => decide (x.common.intStatus = 1 ∧ x.state.plic.pendingIrq = true)) = true := by
    decide +kernel
  obtain ⟨x, hr, hx⟩ := exists_run_of_drive hdrive
  obtain ⟨hstatus, hline⟩ := of_decide_eq_true hx
  exact ⟨x, hstatus, hline,
    run_invariant fileDevice_neverDefers (hr.mono fun _ _ _ => systemNext_of_next?)⟩

end RiscvEmu
