import RiscvEmu.QueueServer

/-! Chains that do not end. `get_desc_rw_size` follows the links of the descriptors with no bound on
their number: here is exactly when it returns, and that the emulator hangs when it does not. -/

namespace RiscvEmu

open Bytes Programs Segments

variable {δ : Type} {x : Attached δ} {ram : ℕ → Byte} {q : Fin maxQueue} {table : Word}
  {i : BitVec 16} {r : BitVec 32}

/-- The index that is reached from `i` over so many links, whether or not the descriptors say that
they have a next one. -/
def link (ram : ℕ → Byte) (table : Word) (i : BitVec 16) : ℕ → BitVec 16
  | 0 => i
  | k + 1 => (descAt ram table (link ram table i k)).next

def linked (ram : ℕ → Byte) (table : Word) (i : BitVec 16) (k : ℕ) : VirtioDesc :=
  descAt ram table (link ram table i k)

theorem link_succ (ram : ℕ → Byte) (table : Word) (i : BitVec 16) (k : ℕ) :
    link ram table i (k + 1) = link ram table (descAt ram table i).next k := by
  induction k with
  | zero => rfl
  | succ k ih => exact congrArg (fun j => (descAt ram table j).next) ih

theorem linked_succ (ram : ℕ → Byte) (table : Word) (i : BitVec 16) (k : ℕ) :
    linked ram table i (k + 1) = linked ram table (descAt ram table i).next k :=
  congrArg (descAt ram table) (link_succ ram table i k)

def LinksInRam (ram : ℕ → Byte) (table : Word) (i : BitVec 16) : Prop :=
  ∀ k, RamRange (descAddress table (link ram table i k)) 16

theorem LinksInRam.next (h : LinksInRam ram table i) :
    LinksInRam ram table (descAt ram table i).next := fun k => link_succ ram table i k ▸ h (k + 1)

theorem link_link (ram : ℕ → Byte) (table : Word) (i : BitVec 16) (j k : ℕ) :
    link ram table (link ram table i j) k = link ram table i (j + k) := by
  induction k with
  | zero => rfl
  | succ k ih => exact congrArg (fun j => (descAt ram table j).next) ih

theorem linked_link (ram : ℕ → Byte) (table : Word) (i : BitVec 16) (j k : ℕ) :
    linked ram table (link ram table i j) k = linked ram table i (j + k) :=
  congrArg (descAt ram table) (link_link ram table i j k)

theorem LinksInRam.link (h : LinksInRam ram table i) (j : ℕ) :
    LinksInRam ram table (link ram table i j) := fun k => link_link ram table i j k ▸ h (j + k)

/-- The links come to a descriptor without a next one, or to a read descriptor that follows a write
descriptor. -/
def LinksStop (ram : ℕ → Byte) (table : Word) (i : BitVec 16) : Prop :=
  ∃ k, (linked ram table i k).hasNext = false ∨
    (linked ram table i k).write = false ∧ ∃ j < k, (linked ram table i j).write = true

section

variable (hq : (x.common.queue q).descAddr = table) (hm : x.machine.mem.Holds ram)
include hq hm

theorem getLinked_returns (h : LinksInRam ram table i) (k : ℕ) :
    (getDesc q (linked ram table i k).next).Returns x (linked ram table i (k + 1)) x :=
  getDesc_returns hq (h (k + 1)) hm

/-! ### Where the links stop -/

theorem writeSizes_stops {k : ℕ} (h : LinksInRam ram table i)
    (hk : (linked ram table i k).hasNext = false ∨ (linked ram table i k).write = false) :
    ∃ w, (writeSizes q (descAt ram table i, r)).Returns x w x := by
  induction k generalizing i r with
  | zero =>
    cases hw : (descAt ram table i).write with
    | false => exact ⟨none, writeSizes_read hw⟩
    | true =>
      rcases hk with hn | hread
      · exact ⟨_, writeSizes_last hw hn⟩
      · exact absurd (hw.symm.trans hread) Bool.noConfusion
  | succ k ih =>
    rw [linked_succ] at hk
    cases hw : (descAt ram table i).write with
    | false => exact ⟨none, writeSizes_read hw⟩
    | true =>
      cases hn : (descAt ram table i).hasNext with
      | false => exact ⟨_, writeSizes_last hw hn⟩
      | true =>
        obtain ⟨w, hr⟩ := ih (r := r + (descAt ram table i).len) h.next hk
        exact ⟨w, writeSizes_next hw hn (getLinked_returns hq hm h 0) hr⟩

theorem readSizes_stops {k : ℕ} (h : LinksInRam ram table i)
    (hk : (linked ram table i k).hasNext = false ∨
      (linked ram table i k).write = false ∧ ∃ j < k, (linked ram table i j).write = true) :
    ∃ o s, (readSizes q (descAt ram table i, r)).Returns x (o, s) x ∧
      ∀ e ∈ o, ∃ w, (writeSizes q (e, 0)).Returns x w x := by
  induction k generalizing i r with
  | zero =>
    cases hw : (descAt ram table i).write with
    | true =>
      refine ⟨_, r, readSizes_write hw, fun e he => ?_⟩
      cases he
      exact writeSizes_stops hq hm h (k := 0) (hk.imp_right And.left)
    | false =>
      rcases hk with hn | ⟨-, j, hj, -⟩
      · exact ⟨none, _, readSizes_last hw hn, fun e he => by cases he⟩
      · exact absurd hj (Nat.not_lt_zero j)
  | succ k ih =>
    cases hw : (descAt ram table i).write with
    | true =>
      refine ⟨_, r, readSizes_write hw, fun e he => ?_⟩
      cases he
      exact writeSizes_stops hq hm h (k := k + 1) (hk.imp_right And.left)
    | false =>
      cases hn : (descAt ram table i).hasNext with
      | false => exact ⟨none, _, readSizes_last hw hn, fun e he => by cases he⟩
      | true =>
        -- the descriptors from the next one on are the rest of these
        have hrest : (linked ram table (descAt ram table i).next k).hasNext = false ∨
            (linked ram table (descAt ram table i).next k).write = false ∧
              ∃ j < k, (linked ram table (descAt ram table i).next j).write = true := by
          rw [← linked_succ]
          refine hk.imp_right fun ⟨hread, j, hj, hwrite⟩ => ⟨hread, ?_⟩
          cases j with
          | zero => exact absurd (hw.symm.trans hwrite) Bool.noConfusion
          | succ j => exact ⟨j, Nat.lt_of_succ_lt_succ hj, linked_succ ram table i j ▸ hwrite⟩
        obtain ⟨o, s, hr, hafter⟩ := ih (r := r + (descAt ram table i).len) h.next hrest
        exact ⟨o, s, readSizes_next hw hn (getLinked_returns hq hm h 0) hr, hafter⟩

/-! ### Where they do not -/

theorem writeSizes_diverges (h : LinksInRam ram table i)
    (hall : ∀ k, (linked ram table i k).hasNext = true ∧ (linked ram table i k).write = true) :
    (writeSizes q (descAt ram table i, r)).Diverges x := by
  refine Prog.loop_diverges (I := fun s y => y = x ∧ ∃ k, s.1 = linked ram table i k)
    ⟨rfl, 0, rfl⟩ ?_
  rintro ⟨d, s⟩ y ⟨rfl, k, rfl⟩
  obtain ⟨hn, hw⟩ := hall k
  refine ⟨(linked ram table i (k + 1), s + (linked ram table i k).len), y, ?_, rfl, k + 1, rfl⟩
  dsimp only
  rw [hw, hn]
  exact .bind (getLinked_returns hq hm h k) (Prog.returns_pure.mpr ⟨rfl, rfl⟩)

theorem readSizes_diverges (h : LinksInRam ram table i)
    (hall : ∀ k, (linked ram table i k).hasNext = true ∧ (linked ram table i k).write = false) :
    (readSizes q (descAt ram table i, r)).Diverges x := by
  refine Prog.loop_diverges (I := fun s y => y = x ∧ ∃ k, s.1 = linked ram table i k)
    ⟨rfl, 0, rfl⟩ ?_
  rintro ⟨d, s⟩ y ⟨rfl, k, rfl⟩
  obtain ⟨hn, hw⟩ := hall k
  refine ⟨(linked ram table i (k + 1), s + (linked ram table i k).len), y, ?_, rfl, k + 1, rfl⟩
  dsimp only
  rw [hw, hn]
  exact .bind (getLinked_returns hq hm h k) (Prog.returns_pure.mpr ⟨rfl, rfl⟩)

theorem readSizes_reaches {k : ℕ} (h : LinksInRam ram table i)
    (hread : ∀ j < k, (linked ram table i j).hasNext = true ∧ (linked ram table i j).write = false)
    (hw : (linked ram table i k).write = true) :
    ∃ s, (readSizes q (descAt ram table i, r)).Returns x (some (linked ram table i k), s) x := by
  induction k generalizing i r with
  | zero => exact ⟨r, readSizes_write hw⟩
  | succ k ih =>
    obtain ⟨hn, hr⟩ := hread 0 (Nat.succ_pos k)
    rw [linked_succ] at hw ⊢
    obtain ⟨s, hs⟩ := ih (r := r + (descAt ram table i).len) h.next (fun j hj =>
      linked_succ ram table i j ▸ hread (j + 1) (Nat.succ_lt_succ hj)) hw
    exact ⟨s, readSizes_next hr hn (getLinked_returns hq hm h 0) hs⟩

theorem getDescRwSize_stops (h : LinksInRam ram table i) (hstop : LinksStop ram table i) :
    ∃ sizes, (getDescRwSize q i).Returns x sizes x := by
  obtain ⟨k, hk⟩ := hstop
  have hfirst := getDesc_returns hq (h 0) hm
  obtain ⟨o, s, hr, hafter⟩ := readSizes_stops (r := 0) hq hm h hk
  cases o with
  | none => exact ⟨some (s, 0), .bind hfirst (.bind hr (Prog.returns_pure.mpr ⟨rfl, rfl⟩))⟩
  | some e =>
    obtain ⟨w, hw⟩ := hafter e rfl
    exact ⟨w.map fun w => (s, w),
      .bind hfirst (.bind hr (.bind hw (Prog.returns_pure.mpr ⟨rfl, rfl⟩)))⟩

theorem getDescRwSize_diverges (h : LinksInRam ram table i) (hstop : ¬ LinksStop ram table i) :
    (getDescRwSize q i).Diverges x := by
  have hfirst := getDesc_returns hq (h 0) hm
  have hnext (k : ℕ) : (linked ram table i k).hasNext = true := by
    by_contra hn
    exact hstop ⟨k, .inl (Bool.eq_false_iff.mpr hn)⟩
  have hkeep (j k : ℕ) (hj : j < k) (hw : (linked ram table i j).write = true) :
      (linked ram table i k).write = true := by
    by_contra hr
    exact hstop ⟨k, .inr ⟨Bool.eq_false_iff.mpr hr, j, hj, hw⟩⟩
  by_cases hex : ∃ k, (linked ram table i k).write = true
  · -- the read descriptors end at the first write descriptor, and nothing ends after it
    have hbefore : ∀ j < Nat.find hex,
        (linked ram table i j).hasNext = true ∧ (linked ram table i j).write = false :=
      fun j hj => ⟨hnext j, Bool.eq_false_iff.mpr (Nat.find_min hex hj)⟩
    obtain ⟨s, hr⟩ := readSizes_reaches (r := 0) hq hm h hbefore (Nat.find_spec hex)
    have hafter : ∀ k, (linked ram table (link ram table i (Nat.find hex)) k).hasNext = true ∧
        (linked ram table (link ram table i (Nat.find hex)) k).write = true := by
      intro k
      rw [linked_link]
      refine ⟨hnext _, ?_⟩
      cases k with
      | zero => exact Nat.find_spec hex
      | succ k => exact hkeep _ _ (by omega) (Nat.find_spec hex)
    have hd := writeSizes_diverges (r := 0) hq hm (h.link (Nat.find hex)) hafter
    exact hfirst.diverges_bind (hr.diverges_bind hd.bind)
  · have hall : ∀ k, (linked ram table i k).hasNext = true ∧ (linked ram table i k).write = false :=
      fun k => ⟨hnext k, Bool.eq_false_iff.mpr fun hw => hex ⟨k, hw⟩⟩
    exact hfirst.diverges_bind (readSizes_diverges hq hm h hall).bind

/-- The call of `get_desc_rw_size` returns, with nothing changed, exactly when the links stop, and hangs
the emulator otherwise. -/
theorem getDescRwSize_ends_iff (h : LinksInRam ram table i) :
    ((∃ sizes, (getDescRwSize q i).Returns x sizes x) ↔ LinksStop ram table i) ∧
      ((getDescRwSize q i).Diverges x ↔ ¬ LinksStop ram table i) := by
  have hends : LinksStop ram table i → ¬ (getDescRwSize q i).Diverges x := fun hstop hd => by
    obtain ⟨sizes, hr⟩ := getDescRwSize_stops hq hm h hstop
    exact hr.not_diverges hd
  refine ⟨⟨fun ⟨sizes, hr⟩ => ?_, getDescRwSize_stops hq hm h⟩,
    fun hd hstop => hends hstop hd, getDescRwSize_diverges hq hm h⟩
  by_contra hstop
  exact hr.not_diverges (getDescRwSize_diverges hq hm h hstop)

end

/-- A queue whose only waiting chain is a descriptor that is linked to itself. -/
def selfLinked : Memory := fun c => if c.val = 1 then 0x0000000100000010 else
  if c.val = 16 then 0x10000 else 0

theorem selfLinked_link (k : ℕ) : link selfLinked.byte 0x80000000 0 k = 0 := by
  induction k with
  | zero => rfl
  | succ k ih =>
    rw [link, ih]
    decide +kernel

theorem selfLinked_linksInRam : LinksInRam selfLinked.byte 0x80000000 0 := by
  intro k
  rw [selfLinked_link]
  decide

theorem selfLinked_not_stop : ¬ LinksStop selfLinked.byte 0x80000000 0 := by
  have hlinked (k : ℕ) : linked selfLinked.byte 0x80000000 0 k = ⟨0, 16, 1, 0⟩ := by
    rw [linked, selfLinked_link]
    decide +kernel
  rintro ⟨k, hn | ⟨-, j, -, hw⟩⟩
  · rw [hlinked] at hn
    cases hn
  · rw [hlinked] at hw
    cases hw

def selfLinkedDevice : Attached (BlockState BlockDeviceFile) :=
  { busyDevice (.initial (blockDeviceInit [] .rw)) with
    machine := { (boot (fun _ => 0) 0).toMachine with mem := selfLinked } }

theorem getDescRwSize_ends_selfLinked :
    ((∃ sizes, (getDescRwSize 0 0).Returns selfLinkedDevice sizes selfLinkedDevice) ↔
        LinksStop selfLinked.byte 0x80000000 0) ∧
      ((getDescRwSize 0 0).Diverges selfLinkedDevice ↔ ¬ LinksStop selfLinked.byte 0x80000000 0) :=
  getDescRwSize_ends_iff rfl (fun _ _ => rfl) selfLinked_linksInRam

/-- A store to the register of a queue whose first waiting chain never stops hangs the emulator. -/
theorem queueNotify_diverges {recv : Recv δ} {qs : QueueState} (hq : x.common.queue q = qs)
    (hm : x.machine.mem.Holds ram) (hl : qs.Layout) (hauto : qs.manualRecv = false)
    (hne : qs.lastAvailIdx ≠ half ram (qs.availArea.1 + 2))
    (h : LinksInRam ram qs.descAddr (half ram (qs.availEntry qs.lastAvailIdx)))
    (hstop : ¬ LinksStop ram qs.descAddr (half ram (qs.availEntry qs.lastAvailIdx))) :
    (queueNotify recv q).Diverges x := by
  have hqueue : (queueState q : Dev δ _).Returns x qs x := Prog.returns_reads.mpr ⟨hq.symm, rfl⟩
  have heven := hl.availEven
  have hidx : (virtioRead16 (qs.availAddr + 2)).Returns x (half ram (qs.availArea.1 + 2)) x :=
    virtioRead16_sub hl.avail 2 (by omega) (by omega) hm
  have hchain := getDescRwSize_diverges (congrArg QueueState.descAddr hq) hm h hstop
  refine hqueue.diverges_bind ?_
  rw [if_neg (by rw [hauto]; decide)]
  refine hidx.diverges_bind (Prog.Diverges.loop (hqueue.diverges_bind ?_))
  rw [if_neg hne]
  exact (availEntry_returns hl hm qs.lastAvailIdx).diverges_bind hchain.bind

theorem queueNotify_diverges_selfLinked :
    (queueNotify (virtioBlockRecvRequest fileDevice fun _ _ => 0) 0).Diverges selfLinkedDevice :=
  queueNotify_diverges rfl (fun _ _ => rfl) QueueState.atStart_layout rfl
    (by decide +kernel) selfLinked_linksInRam selfLinked_not_stop

end RiscvEmu
