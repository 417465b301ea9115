import RiscvEmu.AccessWidths
import RiscvEmu.AttachedSystem
import RiscvEmu.UntranslatedAccess

/-! The registers of the device as its driver sees them: a bank of values that only the stores to the
registers change, and that the service of the queues leaves alone. -/

namespace RiscvEmu

open Bytes Programs Rings Runs Rv64ima Words

/-! ### The bank -/

inductive QueueRegister
  | num | ready | descLow | descHigh | availLow | availHigh | usedLow | usedHigh
  deriving DecidableEq

inductive DeviceRegister
  | deviceFeaturesSel | queueSel | status
  | queue (r : QueueRegister)
  deriving DecidableEq

def QueueRegister.offset : QueueRegister → BitVec 32
  | num => 0x038
  | ready => 0x044
  | descLow => 0x080
  | descHigh => 0x084
  | availLow => 0x090
  | availHigh => 0x094
  | usedLow => 0x0a0
  | usedHigh => 0x0a4

def QueueRegister.accept (r : QueueRegister) (val : BitVec 32) : Option (BitVec 32) :=
  match r with
  | num => if val.toNat.isPowerOfTwo then some val else none
  | ready => some (val &&& 1)
  | _ => some val

namespace DeviceRegister

def offset : DeviceRegister → BitVec 32
  | deviceFeaturesSel => 0x014
  | queueSel => 0x030
  | status => 0x070
  | queue r => r.offset

def ofOffset? (offset : BitVec 32) : Option DeviceRegister :=
  match offset.toNat with
  | 0x014 => some deviceFeaturesSel
  | 0x030 => some queueSel
  | 0x038 => some (queue .num)
  | 0x044 => some (queue .ready)
  | 0x070 => some status
  | 0x080 => some (queue .descLow)
  | 0x084 => some (queue .descHigh)
  | 0x090 => some (queue .availLow)
  | 0x094 => some (queue .availHigh)
  | 0x0a0 => some (queue .usedLow)
  | 0x0a4 => some (queue .usedHigh)
  | _ => none

end DeviceRegister

/-- The values behind the registers: those of the queues are there once for each queue, and `sel` has
the queue that the driver sees. -/
@[ext] structure RegisterBank where
  featuresSel : BitVec 32
  status : BitVec 32
  sel : Fin maxQueue
  queue : Fin maxQueue → QueueRegister → BitVec 32

namespace RegisterBank

def reset : RegisterBank where
  featuresSel := 0
  status := 0
  sel := ⟨0, maxQueue_pos⟩
  queue _ r := if r = .num then maxQueueNum else 0

def read (b : RegisterBank) : DeviceRegister → BitVec 32
  | .deviceFeaturesSel => b.featuresSel
  | .queueSel => BitVec.ofNat 32 b.sel
  | .status => b.status
  | .queue r => b.queue b.sel r

def setQueue (b : RegisterBank) (r : QueueRegister) (val : BitVec 32) : RegisterBank :=
  { b with queue := Function.update b.queue b.sel (Function.update (b.queue b.sel) r val) }

/-- A store to a register. A status of zero resets the whole bank. -/
def write (b : RegisterBank) (r : DeviceRegister) (val : BitVec 32) : RegisterBank :=
  match r with
  | .deviceFeaturesSel => { b with featuresSel := val }
  | .queueSel => if h : val.toNat < maxQueue then { b with sel := ⟨val.toNat, h⟩ } else b
  | .status => if val = 0 then reset else { b with status := val }
  | .queue r => (r.accept val).elim b (b.setQueue r)

def store (b : RegisterBank) (offset val : BitVec 32) : RegisterBank :=
  (DeviceRegister.ofOffset? offset).elim b fun r => b.write r val

end RegisterBank

/-! ### The bank of a device -/

def QueueState.registers (qs : QueueState) : QueueRegister → BitVec 32
  | .num => qs.num
  | .ready => qs.ready
  | .descLow => qs.descAddr.setWidth 32
  | .descHigh => (qs.descAddr >>> 32).setWidth 32
  | .availLow => qs.availAddr.setWidth 32
  | .availHigh => (qs.availAddr >>> 32).setWidth 32
  | .usedLow => qs.usedAddr.setWidth 32
  | .usedHigh => (qs.usedAddr >>> 32).setWidth 32

def VirtioDevice.bank (s : VirtioDevice) : RegisterBank where
  featuresSel := s.deviceFeaturesSel
  status := s.status
  sel := s.queueSel
  queue q := (s.queue q).registers

theorem registerRead_bank (s : VirtioDevice) (r : DeviceRegister) :
    registerRead s r.offset = s.bank.read r := by
  cases r with
  | queue r => cases r <;> rfl
  | _ => rfl

theorem virtioReset_bank (s : VirtioDevice) : (virtioReset s).bank = .reset := by
  refine RegisterBank.ext rfl rfl rfl ?_
  funext q r
  have hhigh : ((0 : Word) >>> 32).setWidth 32 = (0 : BitVec 32) := by decide
  cases r with
  | descHigh => exact hhigh
  | availHigh => exact hhigh
  | usedHigh => exact hhigh
  | _ => rfl

theorem bank_setQueue (s : VirtioDevice) (q : Fin maxQueue) (f : QueueState → QueueState) :
    (s.setQueue q f).bank =
      { s.bank with queue := Function.update s.bank.queue q (f (s.queue q)).registers } := by
  refine RegisterBank.ext rfl rfl rfl ?_
  funext p
  exact Function.apply_update (fun _ => QueueState.registers) s.queue q (f (s.queue q)) p

theorem bank_setQueue_same {s : VirtioDevice} {q : Fin maxQueue} {f : QueueState → QueueState}
    (h : (f (s.queue q)).registers = (s.queue q).registers) : (s.setQueue q f).bank = s.bank := by
  rw [bank_setQueue, h]
  exact congrArg (RegisterBank.mk _ _ _) (Function.update_eq_self q s.bank.queue)

/-! ### The halves of an address -/

section

variable (paddr : Word) (val : BitVec 32)

theorem setLow32_eq : setLow32 paddr val = paddr.extractLsb' 32 32 ++ val := by
  refine BitVec.eq_of_getLsbD_eq fun i hi => ?_
  show ((paddr &&& ~~~ low 64 32) ||| val.setWidth 64).getLsbD i = _
  rw [BitVec.getLsbD_or, BitVec.getLsbD_and, BitVec.getLsbD_not, getLsbD_low 32 i hi,
    BitVec.getLsbD_setWidth, BitVec.getLsbD_append, BitVec.getLsbD_extractLsb']
  by_cases h : i < 32
  · simp [h, hi]
  · have hout : val.getLsbD i = false := BitVec.getLsbD_of_ge val i (Nat.le_of_not_lt h)
    have hsum : 32 + (i - 32) = i := by omega
    have hin : i - 32 < 32 := by omega
    simp [h, hi, hout, hsum, hin]

theorem setHigh32_eq : setHigh32 paddr val = val ++ paddr.setWidth 32 := by
  refine BitVec.eq_of_getLsbD_eq fun i hi => ?_
  show ((paddr &&& low 64 32) ||| (val.setWidth 64 <<< 32)).getLsbD i = _
  rw [BitVec.getLsbD_or, BitVec.getLsbD_and, getLsbD_low 32 i hi, BitVec.getLsbD_shiftLeft,
    BitVec.getLsbD_setWidth, BitVec.getLsbD_append, BitVec.getLsbD_setWidth]
  by_cases h : i < 32
  · simp [h, hi]
  · have hin : i - 32 < 64 := by omega
    simp [h, hi, hin]

theorem setLow32_low : (setLow32 paddr val).setWidth 32 = val := by
  rw [setLow32_eq, BitVec.setWidth_append_eq_right]

theorem setLow32_high : (setLow32 paddr val >>> 32).setWidth 32 = (paddr >>> 32).setWidth 32 := by
  rw [BitVec.setWidth_ushiftRight_eq_extractLsb, BitVec.setWidth_ushiftRight_eq_extractLsb,
    setLow32_eq, BitVec.extractLsb'_append_eq_left]

theorem setHigh32_low : (setHigh32 paddr val).setWidth 32 = paddr.setWidth 32 := by
  rw [setHigh32_eq, BitVec.setWidth_append_eq_right]

theorem setHigh32_high : (setHigh32 paddr val >>> 32).setWidth 32 = val := by
  rw [BitVec.setWidth_ushiftRight_eq_extractLsb, setHigh32_eq, BitVec.extractLsb'_append_eq_left]

end

def QueueRegister.assign (r : QueueRegister) (val : BitVec 32) (qs : QueueState) : QueueState :=
  match r with
  | num => { qs with num := val }
  | ready => { qs with ready := val }
  | descLow => { qs with descAddr := setLow32 qs.descAddr val }
  | descHigh => { qs with descAddr := setHigh32 qs.descAddr val }
  | availLow => { qs with availAddr := setLow32 qs.availAddr val }
  | availHigh => { qs with availAddr := setHigh32 qs.availAddr val }
  | usedLow => { qs with usedAddr := setLow32 qs.usedAddr val }
  | usedHigh => { qs with usedAddr := setHigh32 qs.usedAddr val }

theorem registers_assign (r : QueueRegister) (val : BitVec 32) (qs : QueueState) :
    (r.assign val qs).registers = Function.update qs.registers r val := by
  funext p
  by_cases hp : p = r
  · subst hp
    rw [Function.update_self]
    cases p with
    | num => rfl
    | ready => rfl
    | descLow => exact setLow32_low ..
    | descHigh => exact setHigh32_high ..
    | availLow => exact setLow32_low ..
    | availHigh => exact setHigh32_high ..
    | usedLow => exact setLow32_low ..
    | usedHigh => exact setHigh32_high ..
  · -- of the other registers only the second half of the same address is computed anew
    rw [Function.update_of_ne hp]
    cases r <;> cases p <;> first
      | rfl
      | exact absurd rfl hp
      | exact setLow32_high ..
      | exact setHigh32_low ..

/-! ### The service of a queue -/

variable {β : Type} {x y : Attached (BlockState β)}

theorem bank_steps : BlockServeSteps (β := β) fun x y => y.common.bank = x.common.bank where
  refl _ := rfl
  trans h h' := h'.trans h
  write ha := by
    refine .step fun x u y hx => ?_
    split at hx <;> cases hx
    rfl
  copy addr buf n := by
    refine .step fun x u y hx => ?_
    split at hx <;> cases hx
    rfl
  raise := within_of_returns raise_returns fun x => rfl
  advance q := .modify fun x => bank_setQueue_same rfl
  ext hf := .modify fun x => rfl

/-! ### A store -/

section

variable {bd : BlockDevice β} {offset val : BitVec 32} {r : DeviceRegister}

def Stores (offset val : BitVec 32) (x y : Attached (BlockState β)) : Prop :=
  y.common.bank = x.common.bank.store offset val

theorem ofOffset?_none_of_ge (h : offset ≥ 0x100) : DeviceRegister.ofOffset? offset = none := by
  have hge : 0x100 ≤ offset.toNat := BitVec.le_def.mp h
  unfold DeviceRegister.ofOffset?
  split <;> first
    | rfl
    | omega

theorem stores_modify {f : VirtioDevice → VirtioDevice}
    (hr : DeviceRegister.ofOffset? offset = some r) (hf : ∀ s, (f s).bank = s.bank.write r val) :
    Prog.Within (Stores offset val) (modifyCommon f : Dev (BlockState β) Unit) := by
  refine .modify fun x => ?_
  rw [Stores, RegisterBank.store, hr]
  exact hf x.common

theorem stores_same {α : Type} {p : Dev (BlockState β) α}
    (hr : DeviceRegister.ofOffset? offset = none)
    (hp : Prog.Within (fun x y => y.common.bank = x.common.bank) p) :
    Prog.Within (Stores offset val) p := by
  intro x a y h
  rw [Stores, RegisterBank.store, hr]
  exact hp x a y h

theorem stores_selected (r : QueueRegister) {v : BitVec 32} (hv : r.accept val = some v)
    (hr : DeviceRegister.ofOffset? offset = some (.queue r)) :
    Prog.Within (Stores offset val) (modifySelected (r.assign v) : Dev (BlockState β) Unit) := by
  refine stores_modify hr fun s => ?_
  rw [bank_setQueue, registers_assign, RegisterBank.write, hv]
  rfl

theorem stores_status (hr : DeviceRegister.ofOffset? offset = some .status) :
    Prog.Within (Stores offset val) (writeStatus val : Dev (BlockState β) Unit) := by
  intro x a y h
  obtain ⟨u, z, hu, h⟩ := Prog.returns_bind.mp h
  obtain rfl := Prog.returns_modify.mp hu
  rw [Stores, RegisterBank.store, hr]
  split at h
  · -- the reset comes after the assignment, which it overwrites
    rename_i hzero
    obtain ⟨-, rfl⟩ := h.unique (.bind (setIrq_returns false) (modifyCommon_returns virtioReset))
    exact (virtioReset_bank _).trans (if_pos hzero).symm
  · rename_i hne
    obtain ⟨-, rfl⟩ := Prog.returns_pure.mp h
    exact (if_neg hne).symm

theorem interruptAck_bank (val : BitVec 32) :
    Prog.Within (fun x y : Attached (BlockState β) => y.common.bank = x.common.bank)
      (interruptAck val) := by
  refine bank_steps.bind (.modify fun x => rfl) fun _ => bank_steps.bind (bank_steps.reads _) fun _ =>
    .ite (fun _ => ?_) fun _ => bank_steps.pure _
  exact within_of_returns (a := fun _ => ()) (fun x => setIrq_returns false) fun x => rfl

theorem virtioConfigWrite_bank (s : VirtioDevice) (offset val : BitVec 32) (n : ℕ) :
    (virtioConfigWrite s offset val n).bank = s.bank := by
  unfold virtioConfigWrite
  split
  all_goals first | split | skip
  all_goals rfl

/-- The offsets that hold none of these registers: the service of a queue, the acknowledgement of the
interrupt, and what is read-only or not there. -/
theorem registerWrite_same (hd : NeverDefers bd) (heap : BitVec 16 → ℕ → Byte)
    (hr : DeviceRegister.ofOffset? offset = none) :
    Prog.Within (fun x y => y.common.bank = x.common.bank)
      (registerWrite (virtioBlockRecvRequest bd heap) offset val) := by
  unfold DeviceRegister.ofOffset? at hr
  unfold registerWrite
  split
  case h_12 =>
    split
    · exact bank_steps.queueNotify (bank_steps.recvRequest hd heap) _
    · exact bank_steps.pure _
  case h_13 => exact interruptAck_bank val
  case h_14 => exact bank_steps.pure _
  -- the branches of the registers themselves are excluded
  all_goals
    rename_i h
    rw [h] at hr
    cases hr

theorem offset_of_ofOffset? (h : DeviceRegister.ofOffset? offset = some r) : offset = r.offset := by
  unfold DeviceRegister.ofOffset? at h
  split at h
  all_goals
    cases h
    try exact BitVec.eq_of_toNat_eq ‹_›

theorem and_sub_one_iff (val : BitVec 32) :
    val &&& (val - 1) = 0 ∧ val > 0 ↔ val.toNat.isPowerOfTwo := by
  refine ⟨fun h => exists_two_pow_of_and_sub_one h.1 h.2, fun h => ?_⟩
  have hpos : 0 < val.toNat := Nat.pos_of_isPowerOfTwo h
  have hne : val ≠ 0 := by
    rintro rfl
    exact absurd hpos (Nat.lt_irrefl 0)
  have hsub := toNat_sub_one hne
  refine ⟨BitVec.eq_of_toNat_eq ?_, BitVec.lt_def.mpr hpos⟩
  rw [BitVec.toNat_and, Nat.eq_sub_of_add_eq hsub]
  exact (Nat.and_sub_one_eq_zero_iff_isPowerOfTwo (Nat.pos_iff_ne_zero.mp hpos)).mpr h

theorem registerWrite_stores (hd : NeverDefers bd) (heap : BitVec 16 → ℕ → Byte) : Prog.Within
    (Stores offset val) (registerWrite (virtioBlockRecvRequest bd heap) offset val) := by
  cases hr : DeviceRegister.ofOffset? offset with
  | none => exact stores_same hr (registerWrite_same hd heap hr)
  | some r =>
    obtain rfl := offset_of_ofOffset? hr
    cases r with
    | deviceFeaturesSel =>
      show Prog.Within _ (modifyCommon fun s => { s with deviceFeaturesSel := val })
      exact stores_modify hr fun s => rfl
    | queueSel =>
      show Prog.Within _ (modifyCommon fun s =>
        if h : val.toNat < maxQueue then { s with queueSel := ⟨val.toNat, h⟩ } else s)
      refine stores_modify hr fun s => ?_
      rw [RegisterBank.write]
      split <;> rfl
    | status => exact stores_status hr
    | queue r =>
      cases r with
      | num =>
        refine .ite (fun hv => ?_) fun hv => ?_
        · exact stores_selected .num (if_pos ((and_sub_one_iff val).mp hv)) hr
        · -- a size that is not a power of two is dropped, here and in the bank
          have hrefused : QueueRegister.num.accept val = none :=
            if_neg (mt (and_sub_one_iff val).mpr hv)
          intro x a y h
          obtain ⟨-, rfl⟩ := Prog.returns_pure.mp h
          rw [Stores, RegisterBank.store, hr, Option.elim_some, RegisterBank.write, hrefused]
          rfl
      | ready => exact stores_selected .ready rfl hr
      | descLow => exact stores_selected .descLow rfl hr
      | descHigh => exact stores_selected .descHigh rfl hr
      | availLow => exact stores_selected .availLow rfl hr
      | availHigh => exact stores_selected .availHigh rfl hr
      | usedLow => exact stores_selected .usedLow rfl hr
      | usedHigh => exact stores_selected .usedHigh rfl hr

/-- Whatever the offset, a store that comes to its end has done to the bank what it says, and no
more. -/
theorem blockWrite_stores (hd : NeverDefers bd) (heap : BitVec 16 → ℕ → Byte) :
    Prog.Within (Stores offset val) (blockWrite bd heap offset val) := by
  refine .ite (fun hge => ?_) fun _ => .ite (fun _ => registerWrite_stores hd heap) fun h => ?_
  · exact stores_same (ofOffset?_none_of_ge hge) (.modify fun x => virtioConfigWrite_bank ..)
  · exact absurd rfl h

end

/-! ### Runs -/

def RegisterBank.after (b : RegisterBank) (stores : List (BitVec 32 × BitVec 32)) : RegisterBank :=
  stores.foldl (fun b p => b.store p.1 p.2) b

/-- The system, and the stores that its guest has made to the page of the device. -/
structure LoggedSystem (β : Type) extends AttachedSystem β where
  stores : List (BitVec 32 × BitVec 32)

def LoggedSystem.boot (bd : BlockDevice β) (bs : β) (image : Memory) (time : Word) :
    LoggedSystem β :=
  ⟨.boot bd bs image time, []⟩

def LoggedNext (bd : BlockDevice β) (w : World) (x y : LoggedSystem β) : Prop :=
  SystemNext bd w x.toAttachedSystem y.toAttachedSystem ∧
    y.stores = x.stores ++ (x.deviceStore w).toList

section

variable {bd : BlockDevice β} {w : World}

theorem SystemNext.bank {x y : AttachedSystem β} (hd : NeverDefers bd) (h : SystemNext bd w x y) :
    y.common.bank = x.common.bank.after (x.deviceStore w).toList := by
  cases h with
  | plain t hs hn =>
    rw [hs]
    rfl
  | store offset val z t hs hw hn =>
    rw [hs]
    exact blockWrite_stores hd w.heap _ _ _ hw

theorem boot_bank (bd : BlockDevice β) (bs : β) : (virtioBlockInit bd bs).bank = .reset :=
  virtioReset_bank _

theorem run_bank (hd : NeverDefers bd) {bs : β} {image : Memory} {time : Word} {ws : List World}
    {x : LoggedSystem β} (h : Run (LoggedNext bd) (.boot bd bs image time) ws x) :
    x.common.bank = RegisterBank.reset.after x.stores := by
  refine Run.invariant (P := fun x => x.common.bank = RegisterBank.reset.after x.stores)
    (boot_bank bd bs) (fun w x y hx hs => ?_) h
  obtain ⟨hn, hlog⟩ := hs
  rw [hn.bank hd, hx, hlog, RegisterBank.after, RegisterBank.after, RegisterBank.after,
    List.foldl_append]

end

/-! ### Loads -/

section

variable {inp : Input} {ins : Word} {s : State} {o : LoadOp} {offset : BitVec 32} {k : ℕ}

/-- The load is one of the bytes of the register at this offset, from byte `k` on. -/
structure ReadsRegister (ins : Word) (s : State) (o : LoadOp) (offset : BitVec 32) (k : ℕ) :
    Prop where
  selects : Path.load.Selects ins
  width : (func3 ins).toNat = o.funct3.toNat
  console : Path.load.address ins s.toMachine ∉ Path.load.console
  translated : translate s.csr s.mem (Path.load.address ins s.toMachine) .load s.cp =
    .ok (virtioBase + BitVec.ofNat 64 (offset.toNat + k))
  inside : k + o.size ≤ 4

theorem shiftLeft_add_eq_append (hi lo : BitVec 32) :
    hi.setWidth 64 <<< 32 + lo.setWidth 64 = hi ++ lo := by
  have hhi := hi.isLt
  have hlo := lo.isLt
  refine BitVec.eq_of_toNat_eq ?_
  rw [BitVec.toNat_add, BitVec.toNat_shiftLeft, BitVec.toNat_setWidth, BitVec.toNat_setWidth,
    toNat_append, Nat.shiftLeft_eq]
  omega

theorem loadPeripheral_virtio {pa : Word} (h : InVirtio pa) (m : Machine) :
    loadPeripheral inp pa m =
      .ret (inp.virtioMmioRead ((pa / 8 * 8 - virtioBase + 4).setWidth 32) ++
        inp.virtioMmioRead ((pa / 8 * 8 - virtioBase).setWidth 32)) m := by
  obtain ⟨hclint, hplic⟩ := h.not_others
  unfold loadPeripheral
  split
  · rename_i hc
    exact absurd hc hclint
  split
  · rename_i hc
    exact absurd hc hplic
  split
  · dsimp only
    rw [shiftLeft_add_eq_append]
  · rename_i hc
    exact absurd h hc

theorem toNat_registerAddress (hlt : offset.toNat < 0x100) (hk : k < 4) :
    (virtioBase + BitVec.ofNat 64 (offset.toNat + k)).toNat = 0x40010000 + offset.toNat + k := by
  rw [BitVec.toNat_add, BitVec.toNat_ofNat]
  show (0x40010000 + _) % _ = _
  omega

theorem loadValue_register (hlt : offset.toNat < 0x100) (hword : offset.toNat % 4 = 0)
    (hk : k + o.size ≤ 4) (hpos : 0 < o.size) (read : BitVec 32 → BitVec 32) :
    let pa := virtioBase + BitVec.ofNat 64 (offset.toNat + k)
    loadValue o pa (read ((pa / 8 * 8 - virtioBase + 4).setWidth 32) ++
        read ((pa / 8 * 8 - virtioBase).setWidth 32)) =
      some (o.extend ((read offset).extractLsb' (8 * k) (8 * o.size))) := by
  intro pa
  have hpa : pa.toNat = 0x40010000 + offset.toNat + k := toNat_registerAddress hlt (by omega)
  have hbase : virtioBase.toNat = 0x40010000 := rfl
  have hdiv : (pa / 8 * 8).toNat = 0x40010000 + offset.toNat / 8 * 8 := by
    rw [BitVec.toNat_mul, BitVec.toNat_udiv, hpa]
    show _ / 8 * 8 % _ = _
    omega
  have hsub : (pa / 8 * 8 - virtioBase).toNat = offset.toNat / 8 * 8 := by
    rw [BitVec.toNat_sub, hdiv, hbase]
    omega
  -- the register is the lower or the upper one of its doubleword
  rcases (show offset.toNat % 8 = 0 ∨ offset.toNat % 8 = 4 by omega) with h0 | h4
  · have hlow : (pa / 8 * 8 - virtioBase).setWidth 32 = offset := by
      refine BitVec.eq_of_toNat_eq ?_
      rw [BitVec.toNat_setWidth, hsub]
      omega
    rw [loadValue_fit (k := k) (by omega) (by omega), hlow,
      BitVec.extractLsb'_append_eq_of_add_le (by omega)]
  · have hhigh : (pa / 8 * 8 - virtioBase + 4).setWidth 32 = offset := by
      refine BitVec.eq_of_toNat_eq ?_
      rw [BitVec.toNat_setWidth, BitVec.toNat_add, hsub]
      show (_ + 4) % _ % _ = _
      omega
    rw [loadValue_fit (k := 4 + k) (by omega) (by omega), hhigh,
      BitVec.extractLsb'_append_eq_of_le (by omega)]
    congr 3
    omega

theorem ReadsRegister.executes (h : ReadsRegister ins s o offset k) (hlt : offset.toNat < 0x100)
    (hword : offset.toNat % 4 = 0) (inp : Input) : ∃ t, execute inp ins s = .fall t ∧
      t.toMachine = { s.toMachine with
        regFile := s.regSet (rd ins)
          (o.extend ((inp.virtioMmioRead offset).extractLsb' (8 * k) (8 * o.size))) } := by
  have hpos : 0 < o.size := by cases o <;> decide
  have hinside := h.inside
  have hpa := toNat_registerAddress hlt (k := k) (by omega)
  have hneg : virtioBase + BitVec.ofNat 64 (offset.toNat + k) ≠ -1 := by
    intro he
    have hmax := congrArg BitVec.toNat he
    rw [hpa] at hmax
    have : (-1 : Word).toNat = 2 ^ 64 - 1 := rfl
    omega
  have hdram : ¬ virtioBase + BitVec.ofNat 64 (offset.toNat + k) ≥ dramBase := by
    intro hge
    have hlo : 0x80000000 ≤ _ := BitVec.le_def.mp hge
    omega
  have hin : InVirtio (virtioBase + BitVec.ofNat 64 (offset.toNat + k)) := by
    refine ⟨BitVec.le_def.mpr ?_, BitVec.le_def.mpr ?_⟩
    · show 0x40010000 ≤ _
      omega
    · show _ ≤ 0x40011000
      omega
  rw [execute_load h.selects, armLoad_translated h.console h.translated]
  dsimp only
  rw [if_neg hneg, loadMapped, if_neg hdram, loadPeripheral_virtio hin]
  exact ⟨_, congrArg Res.fall (loadSwitch_some h.width
    (loadValue_register hlt hword hinside hpos inp.virtioMmioRead)), rfl⟩

end

/-! ### The driver's view -/

theorem DeviceRegister.offset_lt (r : DeviceRegister) :
    r.offset.toNat < 0x100 ∧ r.offset.toNat % 4 = 0 := by
  cases r with
  | queue r => cases r <;> decide
  | _ => decide

theorem virtioMmioRead_bank (s : VirtioDevice) (r : DeviceRegister) :
    virtioMmioRead s r.offset 2 = some (s.bank.read r) := by
  have hlt : ¬ r.offset ≥ 0x100 := BitVec.not_le.mpr (BitVec.lt_def.mpr r.offset_lt.1)
  rw [virtioMmioRead, if_neg hlt, if_pos rfl, registerRead_bank]

theorem selected_regFile {m m' : Machine} (h : Selected m m') : m'.regFile = m.regFile := by
  cases h with
  | none => rfl
  | declined => rfl
  | interrupt => exact enter_regFile ..
  | exception => exact enter_regFile ..

theorem deviceStore_of_load {w : World} {x : AttachedSystem β} {ins : Word}
    (hf : fetch (tick (w.input x.common []) x.state.toMachine) = .word ins)
    (ho : opcode ins = .load) : x.deviceStore w = none := by
  unfold AttachedSystem.deviceStore
  rw [hf]
  dsimp only
  refine Option.eq_none_iff_forall_not_mem.mpr fun p hp => ?_
  obtain ⟨pa, hstore, -⟩ := virtioStore_eq_some hp
  rw [ho] at hstore
  cases hstore

theorem SystemNext.plain_next {bd : BlockDevice β} {w : World} {x y : AttachedSystem β}
    (h : SystemNext bd w x y) (hs : x.deviceStore w = none) :
    Next (w.input x.common []) x.state y.state := by
  cases h with
  | plain t _ hn => exact hn
  | store offset val z t hs' hw hn => cases hs.symm.trans hs'

/-- In every run of the system from reset, a load from a register of the device gets its bytes from the
bank that has the stores so far, however often the device has served its queues in between. -/
theorem registers_read_back {bd : BlockDevice β} (hd : NeverDefers bd) {bs : β} {image : Memory}
    {time : Word} {ws : List World} {x : LoggedSystem β}
    (h : Run (LoggedNext bd) (.boot bd bs image time) ws x) {w : World} {ins : Word} {o : LoadOp}
    {r : DeviceRegister} {k : ℕ}
    (hf : fetch (tick (w.input x.common []) x.state.toMachine) = .word ins)
    (hr : ReadsRegister ins (x.atSwitch w) o r.offset k) :
    ∃ s', atLoopEnd (w.input x.common []) x.state = some s' ∧
      ∀ y, LoggedNext bd w x y → y.stores = x.stores ∧ y.state.reg (rd ins) =
        o.extend (((RegisterBank.reset.after x.stores).read r).extractLsb' (8 * k) (8 * o.size)) := by
  obtain ⟨hlt, hword⟩ := r.offset_lt
  obtain ⟨s', hx, hs'⟩ := hr.executes hlt hword (w.input x.common [])
  have hread : (w.input x.common []).virtioMmioRead r.offset =
      (RegisterBank.reset.after x.stores).read r := by
    rw [← run_bank hd h]
    exact congrArg (Option.getD · 0) (virtioMmioRead_bank x.common r)
  have hend := atLoopEnd_of_word hf hx
  have hnone := deviceStore_of_load hf hr.selects
  refine ⟨s', hend, fun y hy => ?_⟩
  obtain ⟨hn, hlog⟩ := hy
  rw [hnone, Option.toList_none, List.append_nil] at hlog
  refine ⟨hlog, ?_⟩
  have hregs : y.state.regFile = (refresh s'.toMachine).regFile :=
    selected_regFile (selected_of_atLoopEnd hend (hn.plain_next hnone))
  have hs' := congrArg Machine.regFile hs'
  rw [Machine.reg, hregs, show (refresh s'.toMachine).regFile = _ from hs', hread]
  exact Function.update_self ..

theorem next_getD {inp : Input} {s : State} (h : (next? inp s).isSome) :
    Next inp s ((next? inp s).getD s) := by
  obtain ⟨t, ht⟩ := Option.isSome_iff_exists.mp h
  rw [ht]
  exact next_of_next? ht

/-- A driver that stores the low half of a table's address and loads its last byte:
`lui a0, 0x40010; sw a0, 0x80(a0); lbu a1, 0x83(a0)`. -/
def readBackSystem : LoggedSystem BlockDeviceFile :=
  .boot fileDevice (blockDeviceInit [] .rw)
    (fun c => if c.val = 0 then 0x08A5202340010537 else if c.val = 1 then 0x08354583 else 0) 0

theorem registers_read_back_desc : ∃ (x : LoggedSystem BlockDeviceFile) (s' : State),
    x.stores = [(0x080, 0x40010000)] ∧
      atLoopEnd (stillWorld.input x.common []) x.state = some s' ∧
      ∀ y, LoggedNext fileDevice stillWorld x y → y.stores = x.stores ∧ y.state.reg 11 = 0x40 := by
  let x₁ : LoggedSystem BlockDeviceFile := { readBackSystem with
    state := (next? (stillWorld.input readBackSystem.common []) readBackSystem.state).getD
      readBackSystem.state }
  let x₂ : LoggedSystem BlockDeviceFile :=
    { state := (next? (stillWorld.input x₁.common []) x₁.state).getD x₁.state
      common := x₁.common.setQueue x₁.common.queueSel (QueueRegister.descLow.assign 0x40010000)
      ext := x₁.ext
      stores := [(0x080, 0x40010000)] }
  have hplain : SystemNext fileDevice stillWorld readBackSystem.toAttachedSystem
      x₁.toAttachedSystem := .plain _ (by decide +kernel) (next_getD (by decide +kernel))
  have hw : (blockWrite fileDevice stillWorld.heap 0x080 0x40010000).Returns
      (x₁.attached (x₁.atSwitch stillWorld).toMachine) () ⟨_, [], x₂.common, x₂.ext⟩ :=
    modifyCommon_returns _
  have hstore : SystemNext fileDevice stillWorld x₁.toAttachedSystem x₂.toAttachedSystem :=
    .store 0x080 0x40010000 _ _ (by decide +kernel) hw (next_getD (by decide +kernel))
  have hrun : Run (LoggedNext fileDevice) readBackSystem [stillWorld, stillWorld] x₂ :=
    (Run.start.next ⟨hplain, by decide +kernel⟩).next ⟨hstore, by decide +kernel⟩
  have hbare : (x₂.atSwitch stillWorld).csr.satp.mode = 0 := by decide +kernel
  have haddr : Path.load.address 0x08354583 (x₂.atSwitch stillWorld).toMachine =
      virtioBase + BitVec.ofNat 64 (0x080 + 3) := by decide +kernel
  have hreads : ReadsRegister 0x08354583 (x₂.atSwitch stillWorld) .lbu
      (DeviceRegister.queue .descLow).offset 3 := by
    refine ⟨rfl, rfl, by decide +kernel, ?_, by decide⟩
    rw [haddr]
    exact translate_bare hbare _
  obtain ⟨s', hend, hnext⟩ := registers_read_back fileDevice_neverDefers hrun (w := stillWorld)
    (by decide +kernel) hreads
  exact ⟨x₂, s', rfl, hend, fun y hy => ⟨(hnext y hy).1, (hnext y hy).2.trans (by decide +kernel)⟩⟩

end RiscvEmu
