import RiscvEmu.BlockDisk

/-! What the driver finds after the block server has answered the requests of a queue: the chains in
the used ring, and in its buffers what earlier requests have put on the disk. -/

namespace RiscvEmu

open Bytes Segments Rings

variable {β : Type} {bd : BlockDevice β} {heap : ℕ → Byte} {qs : QueueState} {ram : ℕ → Byte}
  {chain : BitVec 16 → List VirtioDesc} {head : BitVec 16} {ws : List Waiting} {s : Server β}

/-! ### The used ring -/

theorem half_put (a : ℕ) (w : BitVec 16) (f : ℕ → Byte) : half (put (a, bytes w 2) f) a = w := by
  refine eq_of_byte_eq fun i hi => ?_
  have hlt : i < 2 := by omega
  have hget : ((List.range 2).map fun j => put (a, bytes w 2) f (a + j)).getD i 0 =
      put (a, bytes w 2) f (a + i) := by
    rw [List.getD_eq_getElem _ _ (by rw [List.length_map, List.length_range]; exact hlt),
      List.getElem_map, List.getElem_range]
  rw [half, byte_setWidth _ _ (by omega), word, byte_little _ _ (by omega), hget, put_bytes,
    if_pos ⟨Nat.le_add_right _ _, by omega⟩, Nat.add_sub_cancel_left]

def usedBytes (e : BitVec 16 × BitVec 32) : List Byte :=
  bytes (e.1.setWidth 32 : BitVec 32) 4 ++ bytes e.2 4

theorem length_usedBytes (e : BitVec 16 × BitVec 32) : (usedBytes e).length = 8 := by
  rw [usedBytes, List.length_append, length_bytes, length_bytes]

theorem publish_eq (qs : QueueState) (head : BitVec 16) (len : BitVec 32) (ram : ℕ → Byte) :
    qs.publish head len ram =
      put (qs.usedEntry (half ram (qs.usedArea.1 + 2)), usedBytes (head, len))
        (put (qs.usedArea.1 + 2, bytes (half ram (qs.usedArea.1 + 2) + 1) 2) ram) := by
  have happend := put_append (qs.usedEntry (half ram (qs.usedArea.1 + 2)))
    (bytes (head.setWidth 32 : BitVec 32) 4) (bytes len 4)
    (put (qs.usedArea.1 + 2, bytes (half ram (qs.usedArea.1 + 2) + 1) 2) ram)
  rw [length_bytes] at happend
  exact happend

/-- The used ring holds the chains that have been published, from an index on. -/
structure UsedRing (qs : QueueState) (start : BitVec 16) (s : Server β) : Prop where
  index : half s.ram (qs.usedArea.1 + 2) = start + BitVec.ofNat 16 s.used.length
  entry : ∀ (k : ℕ) (h : k < s.used.length),
    range s.ram (qs.usedEntry (start + BitVec.ofNat 16 k)) 8 = usedBytes s.used[k]

variable {start : BitVec 16}

theorem UsedRing.initial (qs : QueueState) (ram : ℕ → Byte) (disk : β) :
    UsedRing qs (half ram (qs.usedArea.1 + 2)) ⟨ram, disk, []⟩ where
  index := (add_zero _).symm
  entry k h := absurd h (Nat.not_lt_zero k)

theorem UsedRing.congr (hl : qs.Layout) (h : UsedRing qs start s) (ram' : ℕ → Byte)
    (hram : ∀ a, Mem a qs.usedArea → ram' a = s.ram a) :
    UsedRing qs start { s with ram := ram' } := by
  have hsize : qs.usedArea.2 = 4 + 8 * qs.num.toNat := rfl
  have hpos : 0 < qs.num.toNat := (Nat.zero_le _).trans_lt (position_lt hl.num 0)
  constructor
  · rw [← h.index]
    exact half_congr fun b hb =>
      hram b ⟨by have := hb.1; omega, by have := hb.2; dsimp only at this; omega⟩
  · intro k hk
    have hlt := position_lt hl.num (start + BitVec.ofNat 16 k)
    have hentry : qs.usedEntry (start + BitVec.ofNat 16 k) = qs.usedArea.1 +
      (4 + 8 * position qs.num.toNat (start + BitVec.ofNat 16 k)) := rfl
    rw [← h.entry k hk]
    exact range_congr fun b hb =>
      hram b ⟨by have := hb.1; dsimp only at this; omega,
        by have := hb.2; dsimp only at this; omega⟩

theorem usedEntry_apart (hl : qs.Layout) {i j : BitVec 16} {n : ℕ} (hn : n ≤ qs.num.toNat)
    (hw : n < 2 ^ 16) (hi : i ∈ span start (start + BitVec.ofNat 16 n))
    (hj : j ∈ span start (start + BitVec.ofNat 16 n)) (hne : i ≠ j) :
    Apart (qs.usedEntry i, 8) (qs.usedEntry j, 8) := by
  obtain ⟨k, hk⟩ := hl.num
  have hlen : (start + BitVec.ofNat 16 n - start).toNat = n := by
    rw [add_sub_cancel_left, BitVec.toNat_ofNat, Nat.mod_eq_of_lt hw]
  have hpos : position qs.num.toNat i ≠ position qs.num.toNat j := by
    rw [hk]
    exact fun h => hne (position_injOn (by rw [hlen, ← hk]; exact hn) hi hj h)
  have hi : qs.usedEntry i = qs.usedArea.1 + (4 + 8 * position qs.num.toNat i) := rfl
  have hj : qs.usedEntry j = qs.usedArea.1 + (4 + 8 * position qs.num.toNat j) := rfl
  rintro a ⟨h1, h2⟩ ⟨h3, h4⟩
  dsimp only at h1 h2 h3 h4
  omega

theorem mem_span_ofNat (start : BitVec 16) {k n : ℕ} (hk : k < n) (hn : n < 2 ^ 16) :
    start + BitVec.ofNat 16 k ∈ span start (start + BitVec.ofNat 16 n) := by
  rw [mem_span, add_sub_cancel_left, add_sub_cancel_left, BitVec.toNat_ofNat, BitVec.toNat_ofNat,
    Nat.mod_eq_of_lt hn, Nat.mod_eq_of_lt (hk.trans hn)]
  exact hk

theorem UsedRing.publish (head : BitVec 16) (len : BitVec 32) (disk : β) (hl : qs.Layout)
    (h : UsedRing qs start s) (hroom : s.used.length < qs.num.toNat) (hw : s.used.length + 1 < 2 ^ 16) :
    UsedRing qs start
      { ram := qs.publish head len s.ram, disk := disk, used := s.used ++ [(head, len)] } := by
  have hlast := mem_span_ofNat start (Nat.lt_succ_self s.used.length) hw
  have hindex := h.index
  have hentry (i : BitVec 16) : qs.usedEntry i =
    qs.usedArea.1 + (4 + 8 * position qs.num.toNat i) := rfl
  generalize hnew : half s.ram (qs.usedArea.1 + 2) = new at hindex
  have hpublish : qs.publish head len s.ram = put (qs.usedEntry new, usedBytes (head, len))
      (put (qs.usedArea.1 + 2, bytes (new + 1) 2) s.ram) := hnew ▸ publish_eq qs head len s.ram
  have hbytes : (usedBytes (head, len)).length = 8 := length_usedBytes _
  constructor
  · show half (qs.publish head len s.ram) _ = start + BitVec.ofNat 16 (s.used ++ [_]).length
    rw [hpublish, List.length_append, List.length_singleton, BitVec.ofNat_add, ← add_assoc,
      ← hindex]
    refine (half_congr fun b hb => put_of_not_mem fun hm => ?_).trans (half_put _ _ _)
    have hb := hb.2
    have hm := hm.1
    rw [hentry] at hm
    dsimp only at hb hm
    omega
  · intro k hk
    show range (qs.publish head len s.ram) _ 8 = _
    rw [hpublish]
    by_cases hlt : k < s.used.length
    · -- an earlier entry is apart from the new one and from the index
      have hne : start + BitVec.ofNat 16 k ≠ new := by
        rw [hindex]
        intro heq
        have heq := congrArg BitVec.toNat (add_left_cancel heq)
        rw [BitVec.toNat_ofNat, BitVec.toNat_ofNat] at heq
        omega
      have happart := usedEntry_apart hl hroom hw
        (mem_span_ofNat start (hlt.trans (Nat.lt_succ_self _)) hw) (hindex ▸ hlast) hne
      have hfirst : Apart (qs.usedEntry (start + BitVec.ofNat 16 k), 8)
          (qs.usedArea.1 + 2, (bytes (new + 1) 2).length) := by
        rw [length_bytes]
        rintro a ⟨h1, h2⟩ ⟨h3, h4⟩
        rw [hentry] at h1
        dsimp only at h1 h4
        omega
      rw [range_put_of_apart (hbytes.symm ▸ happart), range_put_of_apart hfirst, h.entry k hlt]
      exact congrArg usedBytes (List.getElem_append_left hlt).symm
    · have hk : k < s.used.length + 1 := by
        have hk : k < (s.used ++ [(head, len)]).length := hk
        rwa [List.length_append] at hk
      -- the new entry itself
      obtain rfl : k = s.used.length := by omega
      have hput := range_put (qs.usedEntry new) (usedBytes (head, len))
        (put (qs.usedArea.1 + 2, bytes (new + 1) 2) s.ram)
      rw [hbytes] at hput
      rw [← hindex, hput]
      exact congrArg usedBytes (List.getElem_concat_length rfl _).symm

theorem UsedRing.serve (hl : qs.Layout) (hreq : HoldsRequest qs s.ram head (chain head))
    (h : UsedRing qs start s) (hroom : s.used.length < qs.num.toNat)
    (hw : s.used.length + 1 < 2 ^ 16) : UsedRing qs start (s.serve bd heap qs chain head) := by
  unfold Server.serve
  generalize answer bd heap (requestOf s.ram (chain head)) s.disk = r
  obtain ⟨bytes, disk⟩ := r
  cases bytes with
  | none => exact ⟨h.index, h.entry⟩
  | some bytes =>
    have hscatter := h.congr hl (scatter (segments true (rest (chain head))) bytes s.ram)
      fun a ha => scatter_of_not_touches fun ⟨t, ht, hat⟩ => (hreq.apart t ht).2.2 a hat ha
    have hpublish := hscatter.publish head (BitVec.ofNat 32 bytes.length) disk hl hroom hw
    exact ⟨hpublish.index, hpublish.entry⟩

/-! ### The requests that the server sees -/

/-- The requests in these chains, each at the time it is answered. -/
def Server.requests (bd : BlockDevice β) (qs : QueueState) (chain : BitVec 16 → List VirtioDesc) :
    List Waiting → Server β → List Request
  | [], _ => []
  | w :: ws, s => requestOf s.ram (chain w.head) ::
      requests bd qs chain ws (s.serve bd w.heap qs chain w.head)

def Request.Transfers (r : Request) : Prop :=
  r.header.type = virtioBlkTIn ∨ r.header.type = virtioBlkTOut

instance (r : Request) : Decidable r.Transfers := inferInstanceAs (Decidable (_ ∨ _))

variable {Good : β → Prop}

theorem answer_spec (heap : ℕ → Byte) (hb : Synchronous bd Good) {disk : β} (hgood : Good disk)
    (r : Request) :
    Good (answer bd heap r disk).2 ∧ ((answer bd heap r disk).1.isSome ↔ r.Transfers) := by
  unfold answer Request.Transfers
  split_ifs with hin hout
  · obtain ⟨ret, buf, disk', hread, -, -, hgood'⟩ := hb.read r.header.sectorNum
      ((List.range r.room).map heap) ((r.room - 1) / sectorSize) hgood (by
        rw [List.length_map, List.length_range]
        exact (Nat.div_mul_le_self _ _).trans (Nat.sub_le _ _))
    rw [answerIn, hread]
    exact ⟨hgood', iff_of_true rfl (.inl hin)⟩
  · obtain ⟨ret, disk', hwrite, -, hgood'⟩ := hb.write r.header.sectorNum r.data
      (r.data.length / sectorSize) hgood (Nat.div_mul_le_self _ _)
    rw [answerOut, hwrite]
    exact ⟨hgood', iff_of_true rfl (.inr hout)⟩
  · exact ⟨hgood, iff_of_false Bool.false_ne_true (not_or.mpr ⟨hin, hout⟩)⟩

theorem serve_used (heap : ℕ → Byte) (qs : QueueState) (chain : BitVec 16 → List VirtioDesc)
    (head : BitVec 16) (hb : Synchronous bd Good) (hgood : Good s.disk) :
    Good (s.serve bd heap qs chain head).disk ∧
      (s.serve bd heap qs chain head).used.map Prod.fst = s.used.map Prod.fst ++
        if (requestOf s.ram (chain head)).Transfers then [head] else [] := by
  obtain ⟨hdisk, hsome⟩ := answer_spec heap hb hgood (requestOf s.ram (chain head))
  unfold Server.serve
  generalize answer bd heap (requestOf s.ram (chain head)) s.disk = r at *
  obtain ⟨bytes, disk⟩ := r
  cases bytes with
  | none =>
    rw [if_neg (mt hsome.mpr Bool.false_ne_true)]
    exact ⟨hdisk, (List.append_nil _).symm⟩
  | some bytes =>
    rw [if_pos (hsome.mp rfl)]
    exact ⟨hdisk, List.map_append⟩

def transferred (heads : List (BitVec 16)) (rs : List Request) : List (BitVec 16) :=
  ((heads.zip rs).filter fun p => p.2.Transfers).map Prod.fst

/-- The server publishes the reads and the writes, in their order, and nothing else. -/
theorem used_serveAll (hb : Synchronous bd Good) (hgood : Good s.disk) :
    (s.serveAll bd qs chain ws).used.map Prod.fst = s.used.map Prod.fst ++
      transferred (ws.map Waiting.head) (s.requests bd qs chain ws) := by
  induction ws generalizing s with
  | nil => exact (List.append_nil _).symm
  | cons w ws ih =>
    obtain ⟨hgood', hused⟩ := serve_used w.heap qs chain w.head hb hgood
    have hih := ih hgood'
    rw [hused, List.append_assoc] at hih
    refine hih.trans (congrArg _ ?_)
    unfold transferred
    rw [Server.requests, List.map_cons, List.zip_cons_cons, List.filter_cons]
    dsimp only
    by_cases ht : (requestOf s.ram (chain w.head)).Transfers
    · rw [if_pos ht, if_pos (decide_eq_true ht)]
      rfl
    · rw [if_neg ht, if_neg (Bool.eq_false_iff.mp (decide_eq_false ht))]
      rfl

theorem length_used_serve (s : Server β) (bd : BlockDevice β) (heap : ℕ → Byte) (qs : QueueState)
    (chain : BitVec 16 → List VirtioDesc) (head : BitVec 16) :
    (s.serve bd heap qs chain head).used.length ≤ s.used.length + 1 := by
  unfold Server.serve
  generalize answer bd heap (requestOf s.ram (chain head)) s.disk = r
  obtain ⟨bytes, disk⟩ := r
  cases bytes with
  | none => exact Nat.le_succ _
  | some bytes => exact (List.length_append).le

theorem usedRing_serveAll (bd : BlockDevice β) (hl : qs.Layout)
    (hreq : ∀ w ∈ ws, HoldsRequest qs s.ram w.head (chain w.head)) (h : UsedRing qs start s)
    (hroom : s.used.length + ws.length ≤ qs.num.toNat) (hw : s.used.length + ws.length < 2 ^ 16) :
    UsedRing qs start (s.serveAll bd qs chain ws) := by
  induction ws generalizing s with
  | nil => exact h
  | cons w ws ih =>
    rw [List.length_cons] at hroom hw
    have hhead := hreq w (List.mem_cons_self ..)
    have hlen := length_used_serve s bd w.heap qs chain w.head
    have hrest : ∀ t ∈ ws, HoldsRequest qs (s.serve bd w.heap qs chain w.head).ram t.head
        (chain t.head) :=
      fun t ht => (hreq t (List.mem_cons_of_mem _ ht)).congr fun a ha =>
        (serve_driver hl hhead (.inl ha)).symm
    exact ih (s := s.serve bd w.heap qs chain w.head) hrest (h.serve hl hhead (by omega) (by omega))
      (by omega) (by omega)

theorem length_waiting (qs : QueueState) (ram : ℕ → Byte) : (qs.waiting ram).length < 2 ^ 16 := by
  rw [QueueState.waiting, length_span]
  exact BitVec.isLt _

section

variable {q : Fin maxQueue} {x₀ : Attached (BlockState β)} {ram₀ : ℕ → Byte}

theorem Stands.waiting_nil {y : Attached (BlockState β)}
    (h : Stands Good q x₀ ram₀ (half ram₀ ((x₀.common.queue q).availArea.1 + 2)) y s)
    (hl : (x₀.common.queue q).Layout) : (y.common.queue q).waiting s.ram = [] := by
  rw [h.queue]
  show span _ (half _ ((x₀.common.queue q).availArea.1 + 2)) = []
  rw [(h.ring hl 0).1]
  exact span_self _

/-- After the store to the register of a queue the used ring has gone on by the reads and writes that
were waiting, each of them once and in the order of the available ring, and the device waits for
what the driver puts there next. -/
theorem blockNotify_publishes (heap : BitVec 16 → ℕ → Byte) (hb : Synchronous bd Good)
    (hgood : Good x₀.ext.bs) (hidle : x₀.ext.reqInProgress = false) (hm : x₀.machine.mem.Holds ram₀)
    (hl : (x₀.common.queue q).Layout) (hauto : (x₀.common.queue q).manualRecv = false)
    (hreq : ∀ head ∈ (x₀.common.queue q).heads ram₀,
      HoldsRequest (x₀.common.queue q) ram₀ head (chain head))
    (hroom : ((x₀.common.queue q).waiting ram₀).length ≤ (x₀.common.queue q).num.toNat) :
    ∃ (y : _) (s : Server β), (blockWrite bd heap 0x050 (BitVec.ofNat 32 q)).Returns x₀ () y ∧
      y.machine.mem.Holds s.ram ∧
      UsedRing (x₀.common.queue q) (half ram₀ ((x₀.common.queue q).usedArea.1 + 2)) s ∧
      s.used.map Prod.fst = transferred ((x₀.common.queue q).heads ram₀)
        (Server.requests bd (x₀.common.queue q) chain ((x₀.common.queue q).waits heap ram₀)
          ⟨ram₀, x₀.ext.bs, []⟩) ∧
      (y.common.queue q).waiting s.ram = [] ∧
      y.machine.plic.pendingIrq = (x₀.machine.plic.pendingIrq || !s.used.isEmpty) := by
  obtain ⟨y, hy, hs⟩ := blockNotify_serves heap hb hgood hidle hm hl hauto hreq
  have hlen : ((x₀.common.queue q).waits heap ram₀).length =
    ((x₀.common.queue q).waiting ram₀).length := List.length_map _
  have hheads := (x₀.common.queue q).heads_waits heap ram₀
  have hheld : ∀ w ∈ (x₀.common.queue q).waits heap ram₀,
      HoldsRequest (x₀.common.queue q) ram₀ w.head (chain w.head) := fun w hw =>
    hreq w.head (hheads ▸ List.mem_map_of_mem hw)
  have hring := usedRing_serveAll bd hl hheld (UsedRing.initial (x₀.common.queue q) ram₀ x₀.ext.bs)
    (by rw [hlen]; exact (Nat.zero_add _).trans_le hroom)
    (by rw [hlen]; exact (Nat.zero_add _).trans_lt (length_waiting _ _))
  refine ⟨y, _, hy, hs.holds, hring, hheads ▸ used_serveAll hb hgood, ?_, ?_⟩
  · exact hs.waiting_nil hl
  · obtain ⟨mem, bus, hmach⟩ := hs.machine
    rw [hmach]
    dsimp only
    split
    · rename_i hnil
      rw [hnil]
      exact (Bool.or_false _).symm
    · rename_i hne
      rw [signal, plicSetIrqEmu_true, List.isEmpty_eq_false_iff.mpr hne]
      exact (Bool.or_true _).symm

theorem blockNotify_publishes_busy :
    ∃ (y : _) (s : Server BlockDeviceFile),
      (blockWrite fileDevice (fun _ _ => 0) 0x050 (BitVec.ofNat 32 (0 : Fin maxQueue))).Returns
        (busyDevice (.initial busyServer.disk)) () y ∧
      y.machine.mem.Holds s.ram ∧
      UsedRing .atStart (half busyMemory.byte (QueueState.atStart.usedArea.1 + 2)) s ∧
      s.used.map Prod.fst = transferred (QueueState.atStart.heads busyMemory.byte)
        (Server.requests fileDevice .atStart busyChain
          (QueueState.atStart.waits (fun _ _ => 0) busyMemory.byte) busyServer) ∧
      (y.common.queue 0).waiting s.ram = [] ∧
      y.machine.plic.pendingIrq = (false || !s.used.isEmpty) :=
  blockNotify_publishes (fun _ _ => 0) fileDevice_synchronous BlockDeviceMode.noConfusion rfl
    (fun _ _ => rfl) QueueState.atStart_layout rfl busy_holdsRequest (by decide +kernel)

end

/-! ### What is read back -/

theorem serveAll_append (vs ws : List Waiting) :
    s.serveAll bd qs chain (vs ++ ws) = (s.serveAll bd qs chain vs).serveAll bd qs chain ws :=
  List.foldl_append

theorem serve_disk (s : Server β) (bd : BlockDevice β) (heap : ℕ → Byte) (qs : QueueState)
    (chain : BitVec 16 → List VirtioDesc) (head : BitVec 16) :
    (s.serve bd heap qs chain head).disk =
      (answer bd heap (requestOf s.ram (chain head)) s.disk).2 := by
  unfold Server.serve
  generalize answer bd heap (requestOf s.ram (chain head)) s.disk = r
  obtain ⟨bytes, disk⟩ := r
  cases bytes <;> rfl

def Server.calls (bd : BlockDevice β) (qs : QueueState) (chain : BitVec 16 → List VirtioDesc)
    (ws : List Waiting) (s : Server β) : List ((ℕ → Byte) × Request) :=
  (ws.map Waiting.heap).zip (s.requests bd qs chain ws)

theorem length_requests : (s.requests bd qs chain ws).length = ws.length := by
  induction ws generalizing s with
  | nil => rfl
  | cons w ws ih => exact congrArg Nat.succ ih

theorem calls_requests : (s.calls bd qs chain ws).map Prod.snd = s.requests bd qs chain ws :=
  List.map_snd_zip (by rw [List.length_map, length_requests])

theorem serveAll_disk : (s.serveAll bd qs chain ws).disk =
    (answers bd (s.calls bd qs chain ws) s.disk).2 := by
  induction ws generalizing s with
  | nil => rfl
  | cons w ws ih =>
    have hdisk := serve_disk s bd w.heap qs chain w.head
    have hih := ih (s := s.serve bd w.heap qs chain w.head)
    rw [hdisk] at hih
    exact hih

theorem gather_reply {bytes : List Byte} {disk : β} (hl : qs.Layout)
    (hreq : HoldsRequest qs s.ram head (chain head))
    (hapart : (segments true (rest (chain head))).Pairwise Apart)
    (hlen : bytes.length = total (segments true (rest (chain head)))) :
    gather (s.reply qs head (chain head) (some bytes, disk)).ram
      (segments true (rest (chain head))) = bytes := by
  have hkeep : gather (qs.publish head (BitVec.ofNat 32 bytes.length)
      (scatter (segments true (rest (chain head))) bytes s.ram))
        (segments true (rest (chain head))) =
      gather (scatter (segments true (rest (chain head))) bytes s.ram)
        (segments true (rest (chain head))) := by
    refine gather_congr fun a ⟨t, ht, hat⟩ => publish_of_not_mem hl _ fun hused => ?_
    exact (hreq.apart t ht).2.2 a hat hused
  exact hkeep.trans (gather_scatter hapart hlen)

theorem serveAll_driver (hl : qs.Layout) (bd : BlockDevice β)
    (hreq : ∀ w ∈ ws, HoldsRequest qs s.ram w.head (chain w.head)) {a : ℕ} (ha : qs.Driver a) :
    (s.serveAll bd qs chain ws).ram a = s.ram a := by
  induction ws generalizing s with
  | nil => rfl
  | cons w ws ih =>
    have hhead := hreq w (List.mem_cons_self ..)
    refine (ih (s := s.serve bd w.heap qs chain w.head) fun t ht => ?_).trans
      (serve_driver hl hhead ha)
    exact (hreq t (List.mem_cons_of_mem _ ht)).congr fun a ha => (serve_driver hl hhead (.inl ha)).symm

theorem requests_append (vs ws : List Waiting) :
    s.requests bd qs chain (vs ++ ws) = s.requests bd qs chain vs ++
      (s.serveAll bd qs chain vs).requests bd qs chain ws := by
  induction vs generalizing s with
  | nil => rfl
  | cons v vs ih => exact congrArg _ ih

section

variable {s t u : Server BlockDeviceFile} {out inn : Waiting}

/-- Data that a request of the queue has written to the disk comes back in the buffers of a later
request of the queue for the same sectors, with the status behind it, if no request between them
writes to these sectors. -/
theorem written_is_read_back (hl : qs.Layout) (hw : s.disk.WellFormed) (hmode : s.disk.mode ≠ .ro)
    (hreq : ∀ w ∈ out :: ws ++ [inn], HoldsRequest qs s.ram w.head (chain w.head))
    (hwithin : ∀ r ∈ s.requests fileDevice qs chain (out :: ws ++ [inn]),
      r.Within s.disk.nbSectors.toNat)
    (hout : (requestOf s.ram (chain out.head)).header.type = virtioBlkTOut)
    (ht : t = s.serve fileDevice out.heap qs chain out.head)
    (hu : u = t.serveAll fileDevice qs chain ws)
    (helse : ∀ r ∈ t.requests fileDevice qs chain ws,
      r.header.type = virtioBlkTOut → Apart (requestOf s.ram (chain out.head)).area r.area)
    (hin : (requestOf u.ram (chain inn.head)).header.type = virtioBlkTIn)
    (hsame : (requestOf u.ram (chain inn.head)).area = (requestOf s.ram (chain out.head)).area)
    (hroom : (requestOf u.ram (chain inn.head)).room =
      (requestOf s.ram (chain out.head)).data.length + 1)
    (hwhole : sectorSize ∣ (requestOf s.ram (chain out.head)).data.length)
    (hapart : (segments true (rest (chain inn.head))).Pairwise Apart) :
    gather (s.serveAll fileDevice qs chain (out :: ws ++ [inn])).ram
        (segments true (rest (chain inn.head))) =
      (requestOf s.ram (chain out.head)).data ++ [virtioBlkSOk] := by
  -- the device writes nothing that the driver keeps, so the last chain still holds its request
  have hdriver : ∀ a, qs.Driver a → u.ram a = s.ram a := by
    intro a ha
    rw [hu, ht]
    exact serveAll_driver hl fileDevice (fun w (hmem : w ∈ out :: ws) =>
      hreq w (List.mem_append_left _ hmem)) ha
  have hinn : HoldsRequest qs u.ram inn.head (chain inn.head) :=
    (hreq inn (List.mem_append_right _ (List.mem_singleton_self _))).congr fun a ha =>
      (hdriver a (.inl ha)).symm
  have hserved : s.serveAll fileDevice qs chain (out :: ws) = u := by
    rw [hu, ht]
    rfl
  have hlist : s.requests fileDevice qs chain (out :: ws ++ [inn]) =
      requestOf s.ram (chain out.head) :: t.requests fileDevice qs chain ws ++
        [requestOf u.ram (chain inn.head)] := by
    rw [requests_append, hserved, ht]
    rfl
  have hfinal : s.serveAll fileDevice qs chain (out :: ws ++ [inn]) =
      u.serve fileDevice inn.heap qs chain inn.head := by
    rw [serveAll_append, hserved]
    rfl
  rw [hlist, ← calls_requests] at hwithin
  rw [← calls_requests] at helse
  have hdisk : u.disk = (answers fileDevice (t.calls fileDevice qs chain ws)
      (answer fileDevice out.heap (requestOf s.ram (chain out.head)) s.disk).2).2 := by
    rw [hu, serveAll_disk, ht, serve_disk]
  have hanswer := file_read_back out.heap inn.heap hw hmode hwithin hout helse hin hsame hroom hwhole
  rw [← hdisk] at hanswer
  obtain ⟨disk, hreply⟩ : ∃ disk,
      answer fileDevice inn.heap (requestOf u.ram (chain inn.head)) u.disk =
        (some ((requestOf s.ram (chain out.head)).data ++ [virtioBlkSOk]), disk) :=
    ⟨_, Prod.ext hanswer rfl⟩
  rw [hfinal, Server.serve, hreply]
  exact gather_reply hl hinn hapart (List.length_append.trans hroom.symm)

end

def busyWrite : Waiting := ⟨fun _ => 0, 0⟩

def busyRead : Waiting := ⟨fun _ => 7, 3⟩

theorem busyServer_holdsRequest : ∀ w ∈ busyWrite :: [] ++ [busyRead],
    HoldsRequest .atStart busyServer.ram w.head (busyChain w.head) := by
  have h := busy_holdsRequest
  rw [busy_heads, List.forall_mem_cons, List.forall_mem_singleton] at h
  exact List.forall_mem_cons.mpr ⟨h.1, List.forall_mem_singleton.mpr h.2⟩

theorem written_is_read_back_busy :
    gather (busyServer.serveAll fileDevice .atStart busyChain (busyWrite :: [] ++ [busyRead])).ram
        (segments true (rest (busyChain 3))) =
      (requestOf busyMemory.byte (busyChain 0)).data ++ [virtioBlkSOk] :=
  written_is_read_back (s := busyServer) QueueState.atStart_layout
    (blockDeviceInit_wellFormed .rw (by decide +kernel)) BlockDeviceMode.noConfusion
    busyServer_holdsRequest (by decide +kernel) (by decide +kernel) rfl rfl nofun
    (by decide +kernel) (by decide +kernel) (by decide +kernel) (by decide +kernel)
    (by decide +kernel)

end RiscvEmu
