import RiscvEmu.Lib.Rings
import RiscvEmu.PlicProtocol
import RiscvEmu.VirtQueue

/-! The rings of a queue: what the device publishes in the used ring, and the order in which
`queue_notify` takes the chains from the available ring. -/

namespace RiscvEmu

open Bytes Programs Segments Rings

variable {δ : Type} {x y z : Attached δ} {ram ram' : ℕ → Byte} {q : Fin maxQueue} {addr : Word}

/-! ### Single accesses -/

def half (ram : ℕ → Byte) (a : ℕ) : BitVec 16 := (word ram a 2).setWidth 16

theorem and_one_eq_zero (h : addr.toNat % 2 = 0) : addr &&& 1 = 0 := by
  refine BitVec.eq_of_toNat_eq ?_
  rw [BitVec.toNat_and]
  exact (Nat.and_two_pow_sub_one_eq_mod addr.toNat 1).trans h

theorem and_three_eq_zero (h : addr.toNat % 4 = 0) : addr &&& 3 = 0 := by
  refine BitVec.eq_of_toNat_eq ?_
  rw [BitVec.toNat_and]
  exact (Nat.and_two_pow_sub_one_eq_mod addr.toNat 2).trans h

theorem RamRange.inRam {n : ℕ} (h : RamRange addr n) (hn : 0 < n) :
    (addr - dramBase).toNat < ramSize := by
  have hfits := h.fits
  omega

theorem virtioRead16_returns (h : RamRange addr 2) (ha : addr.toNat % 2 = 0)
    (hm : x.machine.mem.Holds ram) :
    (virtioRead16 addr).Returns x (half ram (addr - dramBase).toNat) x := by
  have hread := (dmaReads hm addr (h.inRam (by decide))).2.1 (by omega)
  rw [virtioRead16, if_neg (not_not.mpr (and_one_eq_zero ha))]
  refine Prog.returns_step.mpr ?_
  rw [hread]
  rfl

theorem act_returns {a : DeviceAct} {n : ℕ} {data : Word} (h : RamRange addr n) (hn : 0 < n)
    (hfit : addr.toNat % 8 + n ≤ 8) (hm : x.machine.mem.Holds ram)
    (hact : ∀ m, deviceAct a m = dmaWrite (memWrite (storeFit n) addr data m.mem) m) : ∃ y,
    (act a).Returns x () y ∧ y.machine.mem.Holds (put ((addr - dramBase).toNat, bytes data n) ram) ∧
      Copied x y := by
  obtain ⟨m, hw, hram⟩ := dmaWrite_holds data (h.inRam hn) hfit hm
  refine ⟨{ x with machine := m, acts := x.acts ++ [a] }, ?_, hram, rfl, rfl, dmaWrite_dmaOnly hw⟩
  refine Prog.returns_step.mpr ?_
  rw [hact, hw]

theorem virtioWrite16_returns {val : BitVec 16} (h : RamRange addr 2) (ha : addr.toNat % 2 = 0)
    (hm : x.machine.mem.Holds ram) : ∃ y, (virtioWrite16 addr val).Returns x () y ∧
      y.machine.mem.Holds (put ((addr - dramBase).toNat, bytes val 2) ram) ∧ Copied x y := by
  rw [virtioWrite16, if_neg (not_not.mpr (and_one_eq_zero ha)),
    ← bytes_setWidth (V := 64) val (by decide)]
  refine act_returns h (by decide) (by omega) hm fun m => ?_
  rw [← storeHalfw_eq]
  rfl

theorem virtioWrite32_returns {val : BitVec 32} (h : RamRange addr 4) (ha : addr.toNat % 4 = 0)
    (hm : x.machine.mem.Holds ram) : ∃ y, (virtioWrite32 addr val).Returns x () y ∧
      y.machine.mem.Holds (put ((addr - dramBase).toNat, bytes val 4) ram) ∧ Copied x y := by
  rw [virtioWrite32, if_neg (not_not.mpr (and_three_eq_zero ha)),
    ← bytes_setWidth (V := 64) val (by decide)]
  refine act_returns h (by decide) (by omega) hm fun m => ?_
  rw [← storeWord_eq]
  rfl

/-! ### Where the rings are -/

namespace QueueState

variable (qs : QueueState)

def tableArea : ℕ × ℕ := ((qs.descAddr - dramBase).toNat, 16 * qs.num.toNat)

def availArea : ℕ × ℕ := ((qs.availAddr - dramBase).toNat, 4 + 2 * qs.num.toNat)

def usedArea : ℕ × ℕ := ((qs.usedAddr - dramBase).toNat, 4 + 8 * qs.num.toNat)

/-- The three parts of a queue are in RAM, and the used ring is apart from what the driver writes. -/
structure Layout : Prop where
  num : ∃ k, qs.num.toNat = 2 ^ k
  table : RamRange qs.descAddr (16 * qs.num.toNat)
  avail : RamRange qs.availAddr (4 + 2 * qs.num.toNat)
  used : RamRange qs.usedAddr (4 + 8 * qs.num.toNat)
  availEven : qs.availAddr.toNat % 2 = 0
  usedAligned : qs.usedAddr.toNat % 4 = 0
  tableUsed : Apart qs.tableArea qs.usedArea
  availUsed : Apart qs.availArea qs.usedArea

theorem atStart_layout : atStart.Layout :=
  ⟨⟨3, rfl⟩, by decide, by decide, by decide, by decide, by decide, by decide, by decide⟩

def availEntry (i : BitVec 16) : ℕ := qs.availArea.1 + (4 + 2 * position qs.num.toNat i)

def usedEntry (i : BitVec 16) : ℕ := qs.usedArea.1 + (4 + 8 * position qs.num.toNat i)

/-- RAM after the device has published a chain in the used ring, where the index is counted up
before the entry is there. -/
def publish (head : BitVec 16) (len : BitVec 32) (ram : ℕ → Byte) : ℕ → Byte :=
  let index := half ram (qs.usedArea.1 + 2)
  put (qs.usedEntry index + 4, bytes len 4) (put (qs.usedEntry index, bytes (head.setWidth 32) 4)
    (put (qs.usedArea.1 + 2, bytes (index + 1) 2) ram))

end QueueState

variable {qs : QueueState}

theorem position_lt (h : ∃ k, qs.num.toNat = 2 ^ k) (i : BitVec 16) :
    position qs.num.toNat i < qs.num.toNat := by
  obtain ⟨k, hk⟩ := h
  rw [hk]
  exact Nat.mod_lt _ (Nat.two_pow_pos k)

theorem ringOffset_eq (h : ∃ k, qs.num.toNat = 2 ^ k) (i : BitVec 16) (size : ℕ)
    (hs : size ≤ 8) : ((i.setWidth 32 &&& (qs.num - 1)) * BitVec.ofNat 32 size).setWidth 64 =
      BitVec.ofNat 64 (size * position qs.num.toNat i) := by
  obtain ⟨k, hk⟩ := h
  have hpos : (i.setWidth 32 &&& (qs.num - 1)).toNat = position qs.num.toNat i := by
    rw [toNat_and_sub_one hk, position, position, BitVec.toNat_setWidth_of_le (by decide)]
  have hle : position qs.num.toNat i ≤ i.toNat := Nat.mod_le _ _
  have hi := i.isLt
  have hmul : size * position qs.num.toNat i ≤ 8 * 2 ^ 16 := Nat.mul_le_mul hs (by omega)
  refine BitVec.eq_of_toNat_eq ?_
  rw [BitVec.toNat_setWidth, BitVec.toNat_mul, hpos, BitVec.toNat_ofNat, BitVec.toNat_ofNat,
    Nat.mod_eq_of_lt (show size < 2 ^ 32 by omega), Nat.mul_comm,
    Nat.mod_eq_of_lt (show size * position qs.num.toNat i < 2 ^ 32 by omega)]

theorem RamRange.sub {n : ℕ} (h : RamRange addr n) (k l : ℕ) (hk : k + l ≤ n) :
    RamRange (addr + BitVec.ofNat 64 k) l ∧
      (addr + BitVec.ofNat 64 k - dramBase).toNat = (addr - dramBase).toNat + k ∧
      (addr + BitVec.ofNat 64 k).toNat = addr.toNat + k :=
  ⟨(h.rest (by omega)).mono (by omega), h.offset_add (by omega), h.toNat_add (by omega)⟩

theorem virtioRead16_sub {n : ℕ} (h : RamRange addr n) (k : ℕ) (hk : k + 2 ≤ n)
    (ha : (addr.toNat + k) % 2 = 0) (hm : x.machine.mem.Holds ram) :
    (virtioRead16 (addr + BitVec.ofNat 64 k)).Returns x (half ram ((addr - dramBase).toNat + k))
      x := by
  obtain ⟨hr, hoff, haddr⟩ := h.sub k 2 hk
  rw [← hoff]
  exact virtioRead16_returns hr (by rw [haddr]; exact ha) hm

theorem virtioWrite16_sub {n : ℕ} (val : BitVec 16) (h : RamRange addr n) (k : ℕ)
    (hk : k + 2 ≤ n) (ha : (addr.toNat + k) % 2 = 0) (hm : x.machine.mem.Holds ram) : ∃ y,
    (virtioWrite16 (addr + BitVec.ofNat 64 k) val).Returns x () y ∧
      y.machine.mem.Holds (put ((addr - dramBase).toNat + k, bytes val 2) ram) ∧ Copied x y := by
  obtain ⟨hr, hoff, haddr⟩ := h.sub k 2 hk
  rw [← hoff]
  exact virtioWrite16_returns hr (by rw [haddr]; exact ha) hm

theorem virtioWrite32_sub {n : ℕ} (val : BitVec 32) (h : RamRange addr n) (k : ℕ)
    (hk : k + 4 ≤ n) (ha : (addr.toNat + k) % 4 = 0) (hm : x.machine.mem.Holds ram) : ∃ y,
    (virtioWrite32 (addr + BitVec.ofNat 64 k) val).Returns x () y ∧
      y.machine.mem.Holds (put ((addr - dramBase).toNat + k, bytes val 4) ram) ∧ Copied x y := by
  obtain ⟨hr, hoff, haddr⟩ := h.sub k 4 hk
  rw [← hoff]
  exact virtioWrite32_returns hr (by rw [haddr]; exact ha) hm

/-! ### Publishing a chain -/

def signal (m : Machine) : Machine := plicSetIrqEmu true m

theorem DmaOnly.signal {m m' : Machine} (h : DmaOnly m m') : DmaOnly (signal m) (signal m') := by
  obtain ⟨mem, bus, rfl⟩ := h
  refine ⟨mem, bus, ?_⟩
  rw [RiscvEmu.signal, RiscvEmu.signal, plicSetIrqEmu_true, plicSetIrqEmu_true]
  rfl

theorem signal_mem (m : Machine) : (signal m).mem = m.mem := by
  rw [signal, plicSetIrqEmu_true]
  rfl

theorem modifyCommon_returns (f : VirtioDevice → VirtioDevice) :
    (modifyCommon f : Dev δ Unit).Returns x () { x with common := f x.common } :=
  Prog.returns_modify.mpr rfl

theorem setIrq_returns (level : Bool) : (setIrq level : Dev δ Unit).Returns x ()
    { x with
      machine := plicSetIrqEmu level x.machine
      acts := x.acts ++ [.setIrq level] } := by
  rw [setIrq, act]
  exact Prog.returns_step.mpr rfl

structure Published (qs : QueueState) (head : BitVec 16) (len : BitVec 32) (ram : ℕ → Byte)
    (x y : Attached δ) : Prop where
  holds : y.machine.mem.Holds (qs.publish head len ram)
  common : y.common = { x.common with intStatus := x.common.intStatus ||| 1 }
  ext : y.ext = x.ext
  machine : DmaOnly (signal x.machine) y.machine

theorem virtioConsumeDesc_returns (hq : x.common.queue q = qs) (hl : qs.Layout)
    (head : BitVec 16) (len : BitVec 32) (hm : x.machine.mem.Holds ram) : ∃ y,
    (virtioConsumeDesc q head len).Returns x () y ∧ Published qs head len ram x y := by
  have hused := hl.used
  have halign := hl.usedAligned
  have hsize : 0 < qs.num.toNat := by
    obtain ⟨k, hk⟩ := hl.num
    rw [hk]
    exact Nat.two_pow_pos k
  generalize hindex : half ram (qs.usedArea.1 + 2) = index
  have hpos := position_lt hl.num index
  have hread : (virtioRead16 (qs.usedAddr + 2)).Returns x index x :=
    hindex ▸ virtioRead16_sub hused 2 (by omega) (by omega) hm
  have haddr : qs.usedAddr + 4 + ((index.setWidth 32 &&& (qs.num - 1)) * 8).setWidth 64 =
      qs.usedAddr + BitVec.ofNat 64 (4 + 8 * position qs.num.toNat index) := by
    have hoff := ringOffset_eq hl.num index 8 le_rfl
    rw [BitVec.ofNat_add, ← hoff, ← BitVec.add_assoc]
    rfl
  have haddr' : qs.usedAddr + BitVec.ofNat 64 (4 + 8 * position qs.num.toNat index) + 4 =
      qs.usedAddr + BitVec.ofNat 64 (4 + 8 * position qs.num.toNat index + 4) := by
    rw [BitVec.ofNat_add _ 4, ← BitVec.add_assoc]
    rfl
  -- the index is counted up before the entry that it counts is written
  obtain ⟨u, hu, hramu, hcu⟩ := virtioWrite16_sub (index + 1) hused 2 (by omega)
    (by omega) hm
  obtain ⟨v, hv, hramv, hcv⟩ := virtioWrite32_sub (head.setWidth 32) hused
    (4 + 8 * position qs.num.toNat index) (by omega) (by omega) hramu
  obtain ⟨w, hw, hramw, hcw⟩ := virtioWrite32_sub len hused
    (4 + 8 * position qs.num.toNat index + 4) (by omega) (by omega) hramv
  have hcopied : Copied x w := (hcu.trans hcv).trans hcw
  refine ⟨{ w with
    common := { w.common with intStatus := w.common.intStatus ||| 1 }
    machine := plicSetIrqEmu true w.machine
    acts := w.acts ++ [.setIrq true] }, ?_, ?_⟩
  · refine .bind (Prog.returns_reads.mpr ⟨hq.symm, rfl⟩) (.bind hread (.bind hu ?_))
    dsimp only
    rw [haddr, haddr']
    exact .bind hv (.bind hw (.bind (modifyCommon_returns _) (setIrq_returns true)))
  · refine ⟨?_, ?_, hcopied.ext, hcopied.machine.signal⟩
    · show (signal w.machine).mem.Holds _
      rw [signal_mem, QueueState.publish, hindex]
      exact hramw
    · rw [hcopied.common]

/-! ### The order of service -/

/-- `qs->last_avail_idx++`. -/
def countUp (q : Fin maxQueue) (x : Attached δ) : Attached δ :=
  { x with common := x.common.setQueue q fun qs =>
      { qs with lastAvailIdx := qs.lastAvailIdx + 1 } }

/-- The parts of `queue_notify` agree with a server: `Rel i x s` says that the device, which has taken
the chains before index `i`, is in a state that stands for the state `s` of the server, which `serve`
takes over one of the indices. The entries from `first` to `last` of the available ring are `head`. -/
structure Refines {S : Type} (recv : Recv δ) (q : Fin maxQueue) (qs : QueueState)
    (first last : BitVec 16) (head : BitVec 16 → BitVec 16) (serve : BitVec 16 → S → S)
    (Rel : BitVec 16 → Attached δ → S → Prop) : Prop where
  layout : qs.Layout
  automatic : qs.manualRecv = false
  queue : ∀ i x s, Rel i x s → x.common.queue q = { qs with lastAvailIdx := i }
  ring : ∀ i x s, Rel i x s → ∃ ram, x.machine.mem.Holds ram ∧
    half ram (qs.availArea.1 + 2) = last ∧ ∀ j, half ram (qs.availEntry j) = head j
  step : ∀ i x s, i ∈ span first last → Rel i x s → ∃ sizes t ret y,
    (getDescRwSize q (head i)).Returns x sizes t ∧
    (notifyRecv recv q (head i) sizes).Returns t ret y ∧ 0 ≤ ret ∧
    Rel (i + 1) (countUp q y) (serve i s)

section

variable {S : Type} {recv : Recv δ} {first last i : BitVec 16} {head : BitVec 16 → BitVec 16}
  {serve : BitVec 16 → S → S} {Rel : BitVec 16 → Attached δ → S → Prop} {s : S}

theorem Layout.availEntry_lt (hl : qs.Layout) (i : BitVec 16) :
    4 + 2 * position qs.num.toNat i + 2 ≤ 4 + 2 * qs.num.toNat := by
  have hpos := position_lt hl.num i
  omega

theorem availEntry_returns (hl : qs.Layout) (hm : x.machine.mem.Holds ram) (i : BitVec 16) :
    (virtioRead16 (qs.availAddr + 4 + ((i.setWidth 32 &&& (qs.num - 1)) * 2).setWidth 64)).Returns
      x (half ram (qs.availEntry i)) x := by
  have hoff := ringOffset_eq hl.num i 2 (by decide)
  have haddr : qs.availAddr + 4 + ((i.setWidth 32 &&& (qs.num - 1)) * 2).setWidth 64 =
      qs.availAddr + BitVec.ofNat 64 (4 + 2 * position qs.num.toNat i) := by
    rw [BitVec.ofNat_add, ← hoff, ← BitVec.add_assoc]
    rfl
  have heven := hl.availEven
  rw [haddr]
  exact virtioRead16_sub hl.avail _ (Layout.availEntry_lt hl i) (by omega) hm

theorem notifyRound_last (h : Refines recv q qs first last head serve Rel) (hr : Rel last x s) :
    (notifyRound recv q last ()).Returns x (.inr ()) x := by
  refine .bind (Prog.returns_reads.mpr ⟨(h.queue _ _ _ hr).symm, rfl⟩) ?_
  rw [if_pos rfl]
  exact Prog.returns_pure.mpr ⟨rfl, rfl⟩

theorem notifyRound_next (h : Refines recv q qs first last head serve Rel)
    (hi : i ∈ span first last) (hne : i ≠ last) (hr : Rel i x s) : ∃ y,
    (notifyRound recv q last ()).Returns x (.inl ()) y ∧ Rel (i + 1) y (serve i s) := by
  obtain ⟨ram, hm, -, hhead⟩ := h.ring _ _ _ hr
  obtain ⟨sizes, t, ret, y, hsizes, hrecv, hret, hrel⟩ := h.step _ _ _ hi hr
  refine ⟨countUp q y, ?_, hrel⟩
  refine .bind (Prog.returns_reads.mpr ⟨(h.queue _ _ _ hr).symm, rfl⟩) ?_
  rw [if_neg hne]
  have hentry := availEntry_returns h.layout hm i
  rw [hhead] at hentry
  refine .bind hentry (.bind hsizes (.bind hrecv ?_))
  rw [if_neg (not_lt.mpr hret)]
  exact .bind (modifyCommon_returns _) (Prog.returns_pure.mpr ⟨rfl, rfl⟩)

/-- `queue_notify` hands the chains from `last_avail_idx` to the index of the available ring to the
server, each of them once and in the order of the ring. -/
theorem queueNotify_refines (h : Refines recv q qs first last head serve Rel)
    (hr : Rel first x s) : ∃ y, (queueNotify recv q).Returns x () y ∧
      Rel last y ((span first last).foldl (fun s i => serve i s) s) := by
  -- `last` is read once before the loop, so the rounds go through a span that does not move
  have hloop : ∀ (l : List (BitVec 16)) (i : BitVec 16) (x : Attached δ) (s : S),
      span i last = l → (∀ j ∈ l, j ∈ span first last) → Rel i x s → ∃ y,
      (Prog.loop (notifyRound recv q last) ()).Returns x () y ∧
        Rel last y (l.foldl (fun s i => serve i s) s) := by
    intro l
    induction l with
    | nil =>
      intro i x s hspan _ hr
      have hi : i = last := by
        by_contra hne
        rw [span_of_ne hne] at hspan
        cases hspan
      subst hi
      exact ⟨x, .loop_done (notifyRound_last h hr), hr⟩
    | cons j l ih =>
      intro i x s hspan hsub hr
      have hne : i ≠ last := by
        rintro rfl
        rw [span_self] at hspan
        cases hspan
      rw [span_of_ne hne] at hspan
      obtain ⟨rfl, hrest⟩ := List.cons.inj hspan
      obtain ⟨y, hy, hrel⟩ := notifyRound_next h (hsub i (List.mem_cons_self ..)) hne hr
      obtain ⟨z, hz, hfinal⟩ := ih (i + 1) y _ hrest
        (fun k hk => hsub k (List.mem_cons_of_mem _ hk)) hrel
      exact ⟨z, .loop_next hy hz, hfinal⟩
  obtain ⟨ram, hm, hlast, -⟩ := h.ring _ _ _ hr
  obtain ⟨y, hy, hrel⟩ := hloop _ first x s rfl (fun _ hj => hj) hr
  refine ⟨y, ?_, hrel⟩
  refine .bind (Prog.returns_reads.mpr ⟨(h.queue _ _ _ hr).symm, rfl⟩) ?_
  have hread : (virtioRead16 (qs.availAddr + 2)).Returns x last x := by
    have heven := h.layout.availEven
    have havail := h.layout.avail
    have hread := virtioRead16_sub havail 2 (by omega) (by omega) hm
    exact hlast ▸ hread
  rw [if_neg (by rw [h.automatic]; decide)]
  exact .bind hread hy

end

end RiscvEmu
