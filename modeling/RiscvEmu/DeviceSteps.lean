import RiscvEmu.Lib.Rings
import RiscvEmu.VirtioBlock

/-! What a store to a register of the block device can do to the machine and to the device, said once:
a relation between the states before and after that holds of the steps listed in `BlockSteps` holds
of every store, and one that holds of those in `BlockServeSteps` holds of the service of a queue. -/

namespace RiscvEmu

open Bytes Programs Rings

variable {δ : Type}

structure Keeps (s s' : VirtioDevice) : Prop where
  intStatus : s'.intStatus = s.intStatus
  num : ∀ q, (s'.queue q).num = (s.queue q).num ∨ ∃ k, (s'.queue q).num.toNat = 2 ^ k
  manualRecv : ∀ q, (s'.queue q).manualRecv = (s.queue q).manualRecv
  deviceId : s'.deviceId = s.deviceId
  vendorId : s'.vendorId = s.vendorId
  deviceFeatures : s'.deviceFeatures = s.deviceFeatures
  configSpaceSize : s'.configSpaceSize = s.configSpaceSize

theorem keeps_setQueue {s : VirtioDevice} {q : Fin maxQueue} {f : QueueState → QueueState}
    (hn : (f (s.queue q)).num = (s.queue q).num ∨ ∃ k, (f (s.queue q)).num.toNat = 2 ^ k)
    (hm : (f (s.queue q)).manualRecv = (s.queue q).manualRecv) : Keeps s (s.setQueue q f) := by
  have hother (p : Fin maxQueue) (hp : p ≠ q) : (s.setQueue q f).queue p = s.queue p :=
    Function.update_of_ne hp _ _
  have hself : (s.setQueue q f).queue q = f (s.queue q) := Function.update_self ..
  refine ⟨rfl, fun p => ?_, fun p => ?_, rfl, rfl, rfl, rfl⟩
  · by_cases hp : p = q
    · rw [hp, hself]
      exact hn
    · exact .inl (congrArg QueueState.num (hother p hp))
  · by_cases hp : p = q
    · rw [hp, hself]
      exact hm
    · exact congrArg QueueState.manualRecv (hother p hp)

def DeviceAct.IsWrite : DeviceAct → Prop
  | .write8 _ _ | .write16 _ _ | .write32 _ _ => True
  | _ => False

/-- `s->int_status |= 1; set_irq(s->irq, 1)`. -/
def raise : Dev δ Unit := do
  modifyCommon fun s => { s with intStatus := s.intStatus ||| 1 }
  setIrq true

/-- What the test of `QUEUE_NUM` lets through. -/
theorem exists_two_pow_of_and_sub_one {v : BitVec 32} (h : v &&& (v - 1) = 0) (hpos : v > 0) :
    ∃ k, v.toNat = 2 ^ k := by
  have hne : v ≠ 0 := by
    rintro rfl
    exact absurd hpos (by decide)
  have hsub := toNat_sub_one hne
  have hand := congrArg BitVec.toNat h
  rw [BitVec.toNat_and, Nat.eq_sub_of_add_eq hsub] at hand
  exact (Nat.and_sub_one_eq_zero_iff_isPowerOfTwo (by omega)).mp hand

/-- `s->queue[queue_idx].last_avail_idx++` -/
def advanceQueue (q : Fin maxQueue) : Dev δ Unit :=
  modifyCommon (.setQueue q fun qs => { qs with lastAvailIdx := qs.lastAvailIdx + 1 })

structure ServeSteps (R : Attached δ → Attached δ → Prop) : Prop where
  refl : ∀ x, R x x
  trans : ∀ {x y z}, R x y → R y z → R x z
  write : ∀ {a : DeviceAct}, a.IsWrite → Prog.Within R (act a)
  copy : ∀ addr buf n, Prog.Within R (memcpyToRam addr buf n)
  raise : Prog.Within R raise
  advance : ∀ q, Prog.Within R (advanceQueue q)

namespace ServeSteps

variable {R : Attached δ → Attached δ → Prop} (h : ServeSteps R)
include h

theorem pure {α : Type} (a : α) : Prog.Within R (Pure.pure a : Dev δ α) := .pure h.refl a

theorem reads {α : Type} (g : Attached δ → α) : Prog.Within R (Prog.reads g : Dev δ α) :=
  .reads h.refl g

theorem bind {α β : Type} {p : Dev δ α} {f : α → Dev δ β} (hp : Prog.Within R p)
    (hf : ∀ a, Prog.Within R (f a)) : Prog.Within R (p >>= f) := .bind h.trans hp hf

theorem loop {α β : Type} {body : β → Dev δ (β ⊕ α)} (hb : ∀ b, Prog.Within R (body b)) (b : β) :
    Prog.Within R (Prog.loop body b) := .loop (R := R) h.trans hb b

/-! ### Reading -/

theorem virtioRead16 (addr : Word) : Prog.Within R (RiscvEmu.virtioRead16 addr : Dev δ _) := by
  refine .ite (fun _ => h.pure _) fun _ => .step fun x a y hx => ?_
  split at hx
  · cases hx
  · cases hx
    exact h.refl _

theorem memcpyFromRam (addr : Word) (n : BitVec 32) :
    Prog.Within R (RiscvEmu.memcpyFromRam addr n : Dev δ _) := by
  refine .step fun x a y hx => ?_
  split at hx
  · cases hx
  · cases hx
    exact h.refl _

theorem getDesc (q : Fin maxQueue) (i : BitVec 16) :
    Prog.Within R (RiscvEmu.getDesc q i : Dev δ _) :=
  h.bind (h.reads _) fun _ => h.bind (h.memcpyFromRam _ _) fun _ => h.pure _

theorem firstDesc (q : Fin maxQueue) (w : Bool) (d : VirtioDesc) :
    Prog.Within R (RiscvEmu.firstDesc q w d : Dev δ _) := by
  refine .ite (fun _ => h.loop (fun d => ?_) d) fun _ => h.pure _
  refine .ite (fun _ => h.pure _) fun _ => .ite (fun _ => h.pure _) fun _ => ?_
  exact h.bind (h.getDesc _ _) fun _ => h.pure _

theorem atOffset (q : Fin maxQueue) (w : Bool) (s : VirtioDesc × BitVec 32) :
    Prog.Within R (RiscvEmu.atOffset q w s : Dev δ _) := by
  refine h.loop (fun s => ?_) s
  refine .ite (fun _ => h.pure _) fun _ => .ite (fun _ => h.pure _) fun _ =>
    .ite (fun _ => h.pure _) fun _ => ?_
  exact h.bind (h.getDesc _ _) fun _ => h.pure _

theorem getDescRwSize (q : Fin maxQueue) (i : BitVec 16) :
    Prog.Within R (RiscvEmu.getDescRwSize q i : Dev δ _) := by
  have hread (s : VirtioDesc × BitVec 32) : Prog.Within R (readSizes q s : Dev δ _) := by
    refine h.loop (fun s => ?_) s
    refine .ite (fun _ => h.pure _) fun _ => .ite (fun _ => h.pure _) fun _ => ?_
    exact h.bind (h.getDesc _ _) fun _ => h.pure _
  have hwrite (s : VirtioDesc × BitVec 32) : Prog.Within R (writeSizes q s : Dev δ _) := by
    refine h.loop (fun s => ?_) s
    refine .ite (fun _ => h.pure _) fun _ => .ite (fun _ => h.pure _) fun _ => ?_
    exact h.bind (h.getDesc _ _) fun _ => h.pure _
  refine h.bind (h.getDesc _ _) fun d => h.bind (hread _) fun r => ?_
  obtain ⟨next, readSize⟩ := r
  cases next with
  | none => exact h.pure _
  | some d => exact h.bind (hwrite _) fun _ => h.pure _

/-! ### Copying and publishing -/

theorem copyRound (q : Fin maxQueue) (w : Bool) (s : Copying) :
    Prog.Within R (RiscvEmu.copyRound q w s : Dev δ _) := by
  refine h.bind ?_ fun buf => ?_
  · exact .ite (fun _ => h.bind (h.copy _ _ _) fun _ => h.pure _)
      fun _ => h.bind (h.memcpyFromRam _ _) fun _ => h.pure _
  · refine .ite (fun _ => h.pure _) fun _ => .ite (fun _ => .fail _) fun _ =>
      .ite (fun _ => h.pure _) fun _ => .ite (fun _ => h.pure _) fun _ => ?_
    exact h.bind (h.getDesc _ _) fun _ => .ite (fun _ => h.pure _) fun _ => h.pure _

theorem memcpyToFromQueue (buf : List Byte) (q : Fin maxQueue) (i : BitVec 16)
    (offset count : BitVec 32) (w : Bool) :
    Prog.Within R (RiscvEmu.memcpyToFromQueue buf q i offset count w : Dev δ _) := by
  refine .ite (fun _ => h.pure _) fun _ => ?_
  refine h.bind (h.getDesc _ _) fun d => h.bind (h.firstDesc _ _ _) fun first => ?_
  cases first with
  | none => exact h.pure _
  | some d =>
    refine h.bind (h.atOffset _ _ _) fun found => ?_
    cases found with
    | none => exact h.pure _
    | some s => exact h.loop (h.copyRound q w) _

theorem memcpyToQueue (q : Fin maxQueue) (i : BitVec 16) (offset : BitVec 32) (buf : List Byte)
    (count : BitVec 32) : Prog.Within R (RiscvEmu.memcpyToQueue q i offset buf count : Dev δ _) :=
  h.bind (h.memcpyToFromQueue _ _ _ _ _ _) fun _ => h.pure _

theorem virtioConsumeDesc (q : Fin maxQueue) (i : BitVec 16) (len : BitVec 32) :
    Prog.Within R (RiscvEmu.virtioConsumeDesc q i len : Dev δ _) := by
  have hwrite (addr : Word) (v : BitVec 32) : Prog.Within R (virtioWrite32 addr v : Dev δ _) :=
    .ite (fun _ => h.pure _) fun _ => h.write trivial
  refine h.bind (h.reads _) fun qs => h.bind (h.virtioRead16 _) fun index => h.bind ?_ fun _ =>
    h.bind (hwrite _ _) fun _ => h.bind (hwrite _ _) fun _ => h.raise
  exact .ite (fun _ => h.pure _) fun _ => h.write trivial

/-! ### The queue -/

theorem queueNotify {recv : Recv δ} (hrecv : ∀ q i r w, Prog.Within R (recv q i r w))
    (q : Fin maxQueue) : Prog.Within R (RiscvEmu.queueNotify recv q) := by
  refine h.bind (h.reads _) fun qs => .ite (fun _ => h.pure _) fun _ =>
    h.bind (h.virtioRead16 _) fun availIdx => h.loop (fun _ => ?_) _
  refine h.bind (h.reads _) fun qs => .ite (fun _ => h.pure _) fun _ =>
    h.bind (h.virtioRead16 _) fun i => h.bind (h.getDescRwSize _ _) fun sizes => h.bind ?_ fun ret =>
      .ite (fun _ => h.pure _) fun _ => h.bind (h.advance _) fun _ => h.pure _
  cases sizes with
  | none => exact h.pure _
  | some p => exact hrecv _ _ _ _

end ServeSteps

/-! ### The registers -/

structure DeviceSteps (R : Attached δ → Attached δ → Prop) : Prop extends ServeSteps R where
  common : ∀ {f : VirtioDevice → VirtioDevice}, (∀ s, Keeps s (f s)) →
    Prog.Within R (modifyCommon f)
  status : ∀ val, Prog.Within R (writeStatus val)
  ack : ∀ val, Prog.Within R (interruptAck val)

namespace DeviceSteps

variable {R : Attached δ → Attached δ → Prop} (h : DeviceSteps R)
include h

theorem registerWrite {recv : Recv δ} (hrecv : ∀ q i r w, Prog.Within R (recv q i r w))
    (offset val : BitVec 32) : Prog.Within R (RiscvEmu.registerWrite recv offset val) := by
  have selected {f : QueueState → QueueState} (hn : ∀ qs, (f qs).num = qs.num)
      (hm : ∀ qs, (f qs).manualRecv = qs.manualRecv) : Prog.Within R (modifySelected f : Dev δ _) :=
    h.common fun s => keeps_setQueue (.inl (hn _)) (hm _)
  unfold RiscvEmu.registerWrite
  split
  · exact h.common fun s => ⟨rfl, fun _ => .inl rfl, fun _ => rfl, rfl, rfl, rfl, rfl⟩
  · refine h.common fun s => ?_
    split <;> exact ⟨rfl, fun _ => .inl rfl, fun _ => rfl, rfl, rfl, rfl, rfl⟩
  · refine .ite (fun hv => h.common fun s => keeps_setQueue (.inr ?_) rfl) fun _ => h.pure _
    exact exists_two_pow_of_and_sub_one hv.1 hv.2
  · exact selected (fun _ => rfl) fun _ => rfl
  · exact selected (fun _ => rfl) fun _ => rfl
  · exact selected (fun _ => rfl) fun _ => rfl
  · exact selected (fun _ => rfl) fun _ => rfl
  · exact selected (fun _ => rfl) fun _ => rfl
  · exact selected (fun _ => rfl) fun _ => rfl
  · exact h.status _
  · exact selected (fun _ => rfl) fun _ => rfl
  · split
    · exact h.queueNotify hrecv _
    · exact h.pure _
  · exact h.ack _
  · exact h.pure _

theorem virtioMmioWrite {recv : Recv δ} (hrecv : ∀ q i r w, Prog.Within R (recv q i r w))
    (offset val : BitVec 32) (n : ℕ) :
    Prog.Within R (RiscvEmu.virtioMmioWrite recv offset val n) := by
  refine .ite (fun _ => h.common fun s => ?_) fun _ =>
    .ite (fun _ => h.registerWrite hrecv _ _) fun _ => h.pure _
  unfold virtioConfigWrite
  split
  all_goals first | split | skip
  all_goals exact ⟨rfl, fun _ => .inl rfl, fun _ => rfl, rfl, rfl, rfl, rfl⟩

end DeviceSteps

/-! ### The block device -/

/-- A block device that is at its end whenever it returns. -/
structure NeverDefers {β : Type} (bd : BlockDevice β) : Prop where
  read : ∀ {sectorNum buf n disk r}, bd.readAsync sectorNum buf n disk = some r → r.1 ≤ 0
  write : ∀ {sectorNum buf n disk r}, bd.writeAsync sectorNum buf n disk = some r → r.1 ≤ 0

theorem fileDevice_neverDefers : NeverDefers fileDevice where
  read {sectorNum buf n bf r} h := by
    have h : bfReadAsync sectorNum buf n bf = some r := h
    unfold bfReadAsync at h
    split_ifs at h
    · obtain ⟨p, -, rfl⟩ := Option.map_eq_some_iff.mp h
      exact le_rfl
    · cases h
      exact le_rfl
  write {sectorNum buf n bf r} h := by
    have h : bfWriteAsync sectorNum buf n bf = some r := h
    unfold bfWriteAsync at h
    split at h
    · cases h
      exact (by decide : (-1 : Int) ≤ 0)
    · split_ifs at h
      cases h
      exact le_rfl
    · split_ifs at h
      · cases h
        exact (by decide : (-1 : Int) ≤ 0)
      · obtain ⟨bf', -, rfl⟩ := Option.map_eq_some_iff.mp h
        exact le_rfl

section

variable {β : Type} {R : Attached (BlockState β) → Attached (BlockState β) → Prop}

/-- The steps of the block device when it serves a queue: it also changes what it adds to the common
part. -/
structure BlockServeSteps (R : Attached (BlockState β) → Attached (BlockState β) → Prop) : Prop
    extends ServeSteps R where
  ext : ∀ {f : BlockState β → BlockState β}, (∀ e, (f e).reqInProgress = e.reqInProgress) →
    Prog.Within R (Prog.modify fun x => { x with ext := f x.ext } : Dev (BlockState β) Unit)

namespace BlockServeSteps

variable (h : BlockServeSteps R) {bd : BlockDevice β} (hbd : NeverDefers bd)
include h

theorem modifyReq (f : BlockRequest → BlockRequest) : Prog.Within R (RiscvEmu.modifyReq f) :=
  h.ext (f := fun e => { e with req := f e.req }) fun _ => rfl

theorem setBs (bs : β) : Prog.Within R (RiscvEmu.setBs bs) :=
  h.ext (f := fun e => { e with bs := bs }) fun _ => rfl

theorem virtioBlockReqEnd (ret : Int) : Prog.Within R (RiscvEmu.virtioBlockReqEnd ret) := by
  refine h.bind (h.reads _) fun req => .ite (fun _ => .ite (fun _ => .fail _) fun _ => ?_) fun _ =>
    .ite (fun _ => ?_) fun _ => .fail _
  · exact h.bind (h.memcpyToQueue _ _ _ _ _) fun _ => h.virtioConsumeDesc _ _ _
  · exact h.bind (h.memcpyToQueue _ _ _ _ _) fun _ => h.virtioConsumeDesc _ _ _

theorem blockRet {ret : Int} (hret : ret ≤ 0) : Prog.Within R (RiscvEmu.blockRet ret) :=
  .ite (fun hpos => absurd hpos (not_lt.mpr hret)) fun _ => h.virtioBlockReqEnd ret

include hbd

theorem recvIn (heap : ℕ → Byte) (writeSize : BitVec 32) (sectorNum : Word) :
    Prog.Within R (RiscvEmu.recvIn bd heap writeSize sectorNum) := by
  refine h.bind (h.modifyReq _) fun _ => h.bind (h.reads _) fun bs => ?_
  split
  · exact .fail _
  · rename_i hr
    exact h.bind (h.setBs _) fun _ => h.bind (h.modifyReq _) fun _ => h.blockRet (hbd.read hr)

theorem recvOut (heap : ℕ → Byte) (q : Fin maxQueue) (i : BitVec 16) (readSize writeSize : BitVec 32)
    (sectorNum : Word) :
    Prog.Within R (RiscvEmu.recvOut bd heap q i readSize writeSize sectorNum) := by
  refine .ite (fun _ => .fail _) fun _ => h.bind (h.memcpyToFromQueue _ _ _ _ _ _) fun got => ?_
  refine h.bind (h.reads _) fun bs => ?_
  split
  · exact .fail _
  · rename_i hr
    exact h.bind (h.setBs _) fun _ => h.blockRet (hbd.write hr)

theorem recvRequest (heap : BitVec 16 → ℕ → Byte) (q : Fin maxQueue) (i : BitVec 16)
    (readSize writeSize : BitVec 32) :
    Prog.Within R (virtioBlockRecvRequest bd heap q i readSize writeSize) := by
  refine h.bind (h.reads _) fun p => .ite (fun _ => h.pure _) fun _ =>
    h.bind (h.memcpyToFromQueue _ _ _ _ _ _) fun got => .ite (fun _ => h.pure _) fun _ =>
      h.bind (h.modifyReq _) fun _ => h.bind (h.reads _) fun qs => h.bind ?_ fun _ => h.pure _
  exact .ite (fun _ => h.recvIn hbd _ _ _) fun _ =>
    .ite (fun _ => h.recvOut hbd _ _ _ _ _ _) fun _ => h.pure _

end BlockServeSteps

structure BlockSteps (R : Attached (BlockState β) → Attached (BlockState β) → Prop) : Prop
    extends DeviceSteps R, BlockServeSteps R

theorem BlockSteps.blockWrite (h : BlockSteps R) {bd : BlockDevice β} (hbd : NeverDefers bd)
    (heap : BitVec 16 → ℕ → Byte) (offset val : BitVec 32) :
    Prog.Within R (RiscvEmu.blockWrite bd heap offset val) :=
  h.virtioMmioWrite (h.toBlockServeSteps.recvRequest hbd heap) offset val 2

end

end RiscvEmu
