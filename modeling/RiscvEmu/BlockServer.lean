import RiscvEmu.QueueServer
import Mathlib.Data.List.TakeWhile

/-! The block device against a server of requests: a chain holds the bytes of a request and has room
for its answer, and `queue_notify` answers the requests of the available ring in their order. -/

namespace RiscvEmu

open Bytes Programs Segments Rings

variable {β : Type}

/-! ### The server -/

/-- What the device sees of a chain: the bytes in its read buffers, and the size of its write
buffers. -/
structure Request where
  bytes : List Byte
  room : ℕ
  deriving DecidableEq

def requestOf (ram : ℕ → Byte) (ds : List VirtioDesc) : Request :=
  ⟨gather ram (segments false ds), total (segments true (rest ds))⟩

namespace Request

def header (r : Request) : BlockRequestHeader := .ofBytes (r.bytes.take 16)

def data (r : Request) : List Byte := r.bytes.drop 16

end Request

section

variable (bd : BlockDevice β) (heap : ℕ → Byte)

/-- The answer to a read: the sectors that fit, and the status in the last byte. -/
def answerIn (r : Request) (disk : β) : Option (List Byte) × β :=
  match bd.readAsync r.header.sectorNum ((List.range r.room).map heap)
      (((r.room - 1) / sectorSize : ℕ) : Int) disk with
  | none => (none, disk)
  | some (ret, buf, disk) => (some (buf.set (r.room - 1) (blockStatus ret)), disk)

def answerOut (r : Request) (disk : β) : Option (List Byte) × β :=
  match bd.writeAsync r.header.sectorNum r.data ((r.data.length / sectorSize : ℕ) : Int) disk with
  | none => (none, disk)
  | some (ret, disk) => (some [blockStatus ret], disk)

def answer (r : Request) (disk : β) : Option (List Byte) × β :=
  if r.header.type = virtioBlkTIn then answerIn bd heap r disk
  else if r.header.type = virtioBlkTOut then answerOut bd r disk
  else (none, disk)

end

/-- RAM, the disk, and the chains that have been published, with the sizes of their answers. -/
structure Server (β : Type) where
  ram : ℕ → Byte
  disk : β
  used : List (BitVec 16 × BitVec 32)

def Server.reply (qs : QueueState) (head : BitVec 16) (ds : List VirtioDesc) (s : Server β) :
    Option (List Byte) × β → Server β
  | (none, disk) => { s with disk := disk }
  | (some bytes, disk) =>
    { ram := qs.publish head (BitVec.ofNat 32 bytes.length)
        (scatter (segments true (rest ds)) bytes s.ram)
      disk := disk
      used := s.used ++ [(head, BitVec.ofNat 32 bytes.length)] }

def Server.serve (bd : BlockDevice β) (heap : ℕ → Byte) (qs : QueueState)
    (chain : BitVec 16 → List VirtioDesc) (head : BitVec 16) (s : Server β) : Server β :=
  s.reply qs head (chain head) (answer bd heap (requestOf s.ram (chain head)) s.disk)

/-! ### What the server expects -/

/-- A block device that is at its end when it returns, with the accesses it allows. -/
structure Synchronous (bd : BlockDevice β) (Good : β → Prop) : Prop where
  read : ∀ {disk : β} (sectorNum : Word) (buf : List Byte) (n : ℕ), Good disk →
    n * sectorSize ≤ buf.length → ∃ ret buf' disk',
      bd.readAsync sectorNum buf n disk = some (ret, buf', disk') ∧ ret ≤ 0 ∧
        buf'.length = buf.length ∧ Good disk'
  write : ∀ {disk : β} (sectorNum : Word) (buf : List Byte) (n : ℕ), Good disk →
    n * sectorSize ≤ buf.length → ∃ ret disk',
      bd.writeAsync sectorNum buf n disk = some (ret, disk') ∧ ret ≤ 0 ∧ Good disk'

/-- A chain that holds a request, in buffers that are apart from the rings and the table. -/
structure HoldsRequest (qs : QueueState) (ram : ℕ → Byte) (head : BitVec 16)
    (ds : List VirtioDesc) : Prop where
  chain : Chain ram qs.descAddr head ds
  order : (rest ds).all VirtioDesc.write = true
  inBounds : ∀ d ∈ ds, InBounds d
  header : 16 ≤ total (segments false ds)
  status : 1 ≤ total (segments true (rest ds))
  readSmall : total (segments false ds) < 2 ^ 31
  writeSmall : total (segments true (rest ds)) < 2 ^ 31
  inTable : ∀ t ∈ slots qs.descAddr head ds, ∀ a, Mem a t → Mem a qs.tableArea
  apart : ∀ s ∈ segments true (rest ds),
    Apart s qs.tableArea ∧ Apart s qs.availArea ∧ Apart s qs.usedArea

variable {ram : ℕ → Byte} {q : Fin maxQueue} {qs : QueueState} {head : BitVec 16}
  {ds : List VirtioDesc}

theorem HoldsRequest.of_inside (hc : Chain ram qs.descAddr head ds)
    (ho : (rest ds).all VirtioDesc.write = true) (hb : ∀ d ∈ ds, InBounds d)
    (hs : 16 ≤ total (segments false ds) ∧ 1 ≤ total (segments true (rest ds)) ∧
      total (segments false ds) < 2 ^ 31 ∧ total (segments true (rest ds)) < 2 ^ 31)
    (ht : ∀ t ∈ slots qs.descAddr head ds,
      qs.tableArea.1 ≤ t.1 ∧ t.1 + t.2 ≤ qs.tableArea.1 + qs.tableArea.2)
    (ha : ∀ s ∈ segments true (rest ds),
      Apart s qs.tableArea ∧ Apart s qs.availArea ∧ Apart s qs.usedArea) :
    HoldsRequest qs ram head ds :=
  ⟨hc, ho, hb, hs.1, hs.2.1, hs.2.2.1, hs.2.2.2, fun t hmem _ h => mem_of_inside (ht t hmem) h, ha⟩

/-! ### Sizes -/

theorem toNat_lens (ds : List VirtioDesc) :
    (lens ds).toNat = total (ds.map VirtioDesc.segment) % 2 ^ 32 := by
  induction ds with
  | nil => rfl
  | cons d ds ih =>
    have htotal : total ((d :: ds).map VirtioDesc.segment) =
        d.len.toNat + total (ds.map VirtioDesc.segment) := rfl
    rw [lens_cons, BitVec.toNat_add, ih, htotal, Nat.add_mod_mod]

theorem lens_eq {n : ℕ} (h : total (ds.map VirtioDesc.segment) = n) :
    lens ds = BitVec.ofNat 32 n := by
  refine BitVec.eq_of_toNat_eq ?_
  rw [toNat_lens, h, BitVec.toNat_ofNat]

theorem part_of_all (h : ds.all VirtioDesc.write = true) : part true ds = ds := by
  rw [part, List.takeWhile_eq_self_iff]
  exact fun d hd => decide_eq_true (List.all_eq_true.mp h d hd)

namespace HoldsRequest

variable (h : HoldsRequest qs ram head ds)
include h

theorem rwSize_eq : rwSize ds = some (BitVec.ofNat 32 (requestOf ram ds).bytes.length,
    BitVec.ofNat 32 (requestOf ram ds).room) := by
  have hroom : total ((rest ds).map VirtioDesc.segment) = (requestOf ram ds).room := by
    dsimp only [requestOf]
    rw [segments, part_of_all h.order]
  rw [rwSize, if_pos h.order, lens_eq rfl, lens_eq hroom]
  dsimp only [requestOf]
  rw [length_gather]
  rfl

theorem chainBuffers : ChainBuffers qs.descAddr head true ds where
  inBounds d hd := by
    have hmem : d ∈ rest ds := (List.takeWhile_sublist _).subset hd
    exact h.inBounds d ((List.dropWhile_suffix _).subset hmem)
  apart _ s hs t ht := fun a ha hat => (h.apart s hs).1 a ha (h.inTable t ht a hat)

end HoldsRequest

theorem toNat_ofNat_of_lt {n : ℕ} (h : n < 2 ^ 31) : (BitVec.ofNat 32 n).toNat = n := by
  rw [BitVec.toNat_ofNat]
  omega

theorem toInt_ofNat_of_lt {n : ℕ} (h : n < 2 ^ 31) : (BitVec.ofNat 32 n).toInt = n := by
  rw [toInt_of_lt (by rw [toNat_ofNat_of_lt h]; exact h), toNat_ofNat_of_lt h]

theorem ofNat_sub_ofNat {n k : ℕ} (hk : k ≤ n) :
    BitVec.ofNat 32 n - BitVec.ofNat 32 k = BitVec.ofNat 32 (n - k) := by
  obtain ⟨m, rfl⟩ := Nat.exists_eq_add_of_le hk
  rw [Nat.add_sub_cancel_left, BitVec.ofNat_add, add_sub_cancel_left]

theorem sectors_eq {n k : ℕ} (hk : k ≤ n) (hn : n < 2 ^ 31) :
    (BitVec.ofNat 32 n - BitVec.ofNat 32 k).toInt.tdiv 512 = (((n - k) / sectorSize : ℕ) : Int) := by
  rw [ofNat_sub_ofNat hk, toInt_ofNat_of_lt (by omega)]
  rfl

/-! ### The answer to a request -/

variable {x y z : Attached (BlockState β)}

theorem Published.of_copied {len : BitVec 32} (h : Copied x y)
    (h' : Published qs head len ram y z) : Published qs head len ram x z where
  holds := h'.holds
  common := h.common ▸ h'.common
  ext := h'.ext.trans h.ext
  machine := h.machine.signal.trans h'.machine

theorem reply_returns {a : List Byte} {i : BitVec 16}
    (hq : x.common.queue q = { qs with lastAvailIdx := i }) (hl : qs.Layout)
    (h : HoldsRequest qs ram head ds) (hm : x.machine.mem.Holds ram) (ha : a.length < 2 ^ 31) :
    ∃ y, (do
        memcpyToQueue q head 0 a (BitVec.ofNat 32 a.length)
        virtioConsumeDesc q head (BitVec.ofNat 32 a.length)).Returns x () y ∧
      Published qs head (BitVec.ofNat 32 a.length) (scatter (segments true (rest ds)) a ram) x y := by
  have hlen := toNat_ofNat_of_lt ha
  obtain ⟨u, hu, hram, hcopied⟩ := memcpyToQueue_returns 0 a
    (congrArg QueueState.descAddr hq) hm h.chain h.chainBuffers (hlen.symm ▸ ha) hlen.le
  have hram : u.machine.mem.Holds (scatter (segments true (rest ds)) a ram) := by
    rw [hlen, List.take_length] at hram
    rwa [show (0 : BitVec 32).toNat = 0 from rfl, scatter_skip_zero] at hram
  have hl' : QueueState.Layout { qs with lastAvailIdx := i } := { hl with }
  obtain ⟨y, hy, hpub⟩ := virtioConsumeDesc_returns (hcopied.common ▸ hq) hl' head
    (BitVec.ofNat 32 a.length) hram
  have hpub : Published qs head (BitVec.ofNat 32 a.length) _ u y :=
    ⟨hpub.holds, hpub.common, hpub.ext, hpub.machine⟩
  exact ⟨y, .bind hu hy, hpub.of_copied hcopied⟩

theorem blockReqEnd_in {i : BitVec 16} (ret : Int) (buf : List Byte)
    (hq : x.common.queue q = { qs with lastAvailIdx := i }) (hl : qs.Layout)
    (h : HoldsRequest qs ram head ds) (hm : x.machine.mem.Holds ram)
    (hreq : x.ext.req = ⟨virtioBlkTIn, buf, BitVec.ofNat 32 buf.length, q, head⟩)
    (hroom : buf.length = total (segments true (rest ds))) : ∃ y,
    let a := buf.set (buf.length - 1) (blockStatus ret)
    (virtioBlockReqEnd ret).Returns x () y ∧ Published qs head (BitVec.ofNat 32 a.length)
      (scatter (segments true (rest ds)) a ram) x y := by
  have hsmall := h.writeSmall
  have hstatus := h.status
  rw [← hroom] at hsmall hstatus
  have hlen : (buf.set (buf.length - 1) (blockStatus ret)).length = buf.length :=
    List.length_set
  obtain ⟨y, hy, hpub⟩ := reply_returns hq hl h hm (hlen.symm ▸ hsmall)
  rw [hlen] at hy
  refine ⟨y, ?_, hpub⟩
  refine .bind (Prog.returns_reads.mpr ⟨hreq.symm, rfl⟩) ?_
  dsimp only
  rw [if_pos rfl, toInt_ofNat_of_lt hsmall, if_neg (by omega), Int.toNat_natCast]
  exact hy

theorem blockReqEnd_out {i : BitVec 16} (ret : Int)
    (hq : x.common.queue q = { qs with lastAvailIdx := i }) (hl : qs.Layout)
    (h : HoldsRequest qs ram head ds) (hm : x.machine.mem.Holds ram)
    (htype : x.ext.req.type = virtioBlkTOut) (hqueue : x.ext.req.queueIdx = q)
    (hhead : x.ext.req.descIdx = head) : ∃ y,
    (virtioBlockReqEnd ret).Returns x () y ∧ Published qs head 1
      (scatter (segments true (rest ds)) [blockStatus ret] ram) x y := by
  obtain ⟨y, hy, hpub⟩ := reply_returns (a := [blockStatus ret]) hq hl h hm
    (show 1 < 2 ^ 31 by decide)
  refine ⟨y, ?_, hpub⟩
  refine .bind (Prog.returns_reads.mpr ⟨rfl, rfl⟩) ?_
  rw [htype, hqueue, hhead, if_neg (by decide), if_pos rfl]
  exact hy

structure Replied (qs : QueueState) (head : BitVec 16) (ds : List VirtioDesc) (ram : ℕ → Byte)
    (r : Option (List Byte) × β) (x y : Attached (BlockState β)) : Prop where
  disk : y.ext.bs = r.2
  idle : y.ext.reqInProgress = false
  ignored : r.1 = none → y = { x with ext := y.ext }
  answered : ∀ a, r.1 = some a → Published qs head (BitVec.ofNat 32 a.length)
    (scatter (segments true (rest ds)) a ram) { x with ext := y.ext } y

theorem Replied.of_published {disk : β} {a : List Byte} {e : BlockState β}
    (h : Published qs head (BitVec.ofNat 32 a.length) (scatter (segments true (rest ds)) a ram)
      { x with ext := e } y) (hd : e.bs = disk) (hi : e.reqInProgress = false) :
    Replied qs head ds ram (some a, disk) x y where
  disk := h.ext ▸ hd
  idle := h.ext ▸ hi
  ignored hr := by cases hr
  answered b hb := by
    cases hb
    exact ⟨h.holds, h.common, rfl, h.machine⟩

section

variable {bd : BlockDevice β} {Good : β → Prop} (heap : ℕ → Byte) {i : BitVec 16}

theorem length_malloc (size : BitVec 32) : (malloc heap size).length = size.toInt.toNat := by
  rw [malloc, List.length_map, List.length_range]

theorem modifyReq_returns (f : BlockRequest → BlockRequest) :
    (modifyReq f).Returns x () { x with ext := { x.ext with req := f x.ext.req } } :=
  Prog.returns_modify.mpr rfl

theorem setBs_returns (bs : β) :
    (setBs bs).Returns x () { x with ext := { x.ext with bs := bs } } :=
  Prog.returns_modify.mpr rfl

theorem recvIn_returns (hb : Synchronous bd Good) (hgood : Good x.ext.bs)
    (hidle : x.ext.reqInProgress = false) (hq : x.common.queue q = { qs with lastAvailIdx := i })
    (hl : qs.Layout) (h : HoldsRequest qs ram head ds) (hm : x.machine.mem.Holds ram)
    (htype : x.ext.req.type = virtioBlkTIn) (hqueue : x.ext.req.queueIdx = q)
    (hhead : x.ext.req.descIdx = head) : ∃ y,
    (recvIn bd heap (BitVec.ofNat 32 (requestOf ram ds).room)
      (requestOf ram ds).header.sectorNum).Returns x () y ∧
      Replied qs head ds ram (answerIn bd heap (requestOf ram ds) x.ext.bs) x y ∧
      Good y.ext.bs := by
  generalize hr : requestOf ram ds = r
  have hroom : total (segments true (rest ds)) = r.room := congrArg Request.room hr
  have hsmall : r.room < 2 ^ 31 := hroom ▸ h.writeSmall
  have hstatus : 1 ≤ r.room := hroom ▸ h.status
  have hmalloc : malloc heap (BitVec.ofNat 32 r.room) = (List.range r.room).map heap := by
    rw [malloc, toInt_ofNat_of_lt hsmall, Int.toNat_natCast]
  have hlen : ((List.range r.room).map heap).length = r.room := by
    rw [List.length_map, List.length_range]
  obtain ⟨ret, buf, disk, hread, hret, hbuf, hgood'⟩ := hb.read r.header.sectorNum
    ((List.range r.room).map heap) ((r.room - 1) / sectorSize) hgood (by
      rw [hlen]
      exact (Nat.div_mul_le_self _ _).trans (Nat.sub_le _ _))
  rw [hlen] at hbuf
  -- the device is synchronous, so the request comes to its end within the call
  obtain ⟨y, hy, hpub⟩ := blockReqEnd_in ret buf
    (x := { x with ext := ⟨disk, false, ⟨virtioBlkTIn, buf, BitVec.ofNat 32 buf.length, q, head⟩⟩ })
    hq hl h hm rfl (hbuf.trans hroom.symm)
  have hanswer : answerIn bd heap r x.ext.bs =
      (some (buf.set (buf.length - 1) (blockStatus ret)), disk) := by
    rw [answerIn, hread, hbuf]
  refine ⟨y, ?_, hanswer ▸ Replied.of_published hpub rfl rfl, hpub.ext ▸ hgood'⟩
  refine .bind (modifyReq_returns _) (.bind (Prog.returns_reads.mpr ⟨rfl, rfl⟩) ?_)
  dsimp only
  rw [hmalloc, show (1 : BitVec 32) = BitVec.ofNat 32 1 from rfl, sectors_eq hstatus hsmall, hread]
  refine .bind (setBs_returns disk) (.bind (modifyReq_returns _) ?_)
  rw [blockRet, if_neg (not_lt.mpr hret)]
  dsimp only
  rw [htype, hqueue, hhead, hidle, ← hbuf]
  exact hy

theorem recvOut_returns (hb : Synchronous bd Good) (hgood : Good x.ext.bs)
    (hidle : x.ext.reqInProgress = false) (hq : x.common.queue q = { qs with lastAvailIdx := i })
    (hl : qs.Layout) (h : HoldsRequest qs ram head ds) (hm : x.machine.mem.Holds ram)
    (htype : x.ext.req.type = virtioBlkTOut) (hqueue : x.ext.req.queueIdx = q)
    (hhead : x.ext.req.descIdx = head) : ∃ y,
    (recvOut bd heap q head (BitVec.ofNat 32 (requestOf ram ds).bytes.length)
      (BitVec.ofNat 32 (requestOf ram ds).room) (requestOf ram ds).header.sectorNum).Returns x () y ∧
      Replied qs head ds ram (answerOut bd (requestOf ram ds) x.ext.bs) x y ∧ Good y.ext.bs := by
  have htotal : total (segments false ds) = (requestOf ram ds).bytes.length :=
    (length_gather ram _).symm
  have hheader := h.header
  have hread := h.readSmall
  have hstatus : 1 ≤ (requestOf ram ds).room := h.status
  have hsmall : (requestOf ram ds).room < 2 ^ 31 := h.writeSmall
  have hin : ∀ d ∈ part false ds, InBounds d := fun d hd =>
    h.inBounds d ((List.takeWhile_sublist _).subset hd)
  have hbytes : (requestOf ram ds).bytes = gather ram (segments false ds) := rfl
  rw [htotal] at hheader hread
  have hcopy := memcpyFromQueue_returns 16 (BitVec.ofNat 32 ((requestOf ram ds).bytes.length - 16))
    (congrArg QueueState.descAddr hq) hm h.chain hin (by rw [toNat_ofNat_of_lt] <;> omega)
  generalize requestOf ram ds = r at *
  have hdata : r.data.length = r.bytes.length - 16 := List.length_drop
  have hlen : ((gather ram (segments false ds)).drop (16 : BitVec 32).toNat).take
      (BitVec.ofNat 32 (r.bytes.length - 16)).toNat = r.data := by
    rw [← hbytes, toNat_ofNat_of_lt (by omega), show (16 : BitVec 32).toNat = 16 from rfl, ← hdata]
    exact List.take_length
  rw [hlen] at hcopy
  obtain ⟨ret, disk, hwrite, hret, hgood'⟩ := hb.write r.header.sectorNum r.data
    (r.data.length / sectorSize) hgood (Nat.div_mul_le_self _ _)
  obtain ⟨y, hy, hpub⟩ := blockReqEnd_out (x := { x with ext := { x.ext with bs := disk } }) ret
    hq hl h hm htype hqueue hhead
  have hanswer : answerOut bd r x.ext.bs = (some [blockStatus ret], disk) := by
    rw [answerOut, hwrite]
  refine ⟨y, ?_, hanswer ▸ Replied.of_published hpub rfl hidle, hpub.ext ▸ hgood'⟩
  -- the copy fills the buffer of `malloc`, of whose contents nothing is left
  have hrest : r.data ++ (malloc heap (BitVec.ofNat 32 (r.bytes.length - 16))).drop r.data.length =
      r.data := by
    rw [List.drop_of_length_le (by rw [length_malloc, toInt_ofNat_of_lt (by omega)]; omega),
      List.append_nil]
  have hsub : BitVec.ofNat 32 r.bytes.length - 16 = BitVec.ofNat 32 (r.bytes.length - 16) :=
    ofNat_sub_ofNat hheader
  rw [recvOut, if_neg (by rw [toInt_ofNat_of_lt hsmall]; omega)]
  dsimp only
  rw [hsub]
  refine .bind hcopy (.bind (Prog.returns_reads.mpr ⟨rfl, rfl⟩) ?_)
  dsimp only
  rw [hrest, toInt_ofNat_of_lt (by omega)]
  -- `/` rounds towards zero, which is down for a length
  have hsectors : ((r.bytes.length - 16 : ℕ) : Int).tdiv 512 = (r.data.length / sectorSize : ℕ) := by
    rw [hdata]
    rfl
  rw [hsectors, hwrite]
  refine .bind (setBs_returns disk) ?_
  rw [blockRet, if_neg (not_lt.mpr hret)]
  exact hy

theorem recvSwitch_returns (hb : Synchronous bd Good) (hgood : Good x.ext.bs)
    (hidle : x.ext.reqInProgress = false) (hq : x.common.queue q = { qs with lastAvailIdx := i })
    (hl : qs.Layout) (h : HoldsRequest qs ram head ds) (hm : x.machine.mem.Holds ram)
    (htype : x.ext.req.type = (requestOf ram ds).header.type) (hqueue : x.ext.req.queueIdx = q)
    (hhead : x.ext.req.descIdx = head) : ∃ y,
    (recvSwitch bd heap q head (BitVec.ofNat 32 (requestOf ram ds).bytes.length)
      (BitVec.ofNat 32 (requestOf ram ds).room) (requestOf ram ds).header).Returns x () y ∧
      Replied qs head ds ram (answer bd heap (requestOf ram ds) x.ext.bs) x y ∧
      Good y.ext.bs := by
  unfold recvSwitch answer
  split_ifs with hin hout
  · exact recvIn_returns heap hb hgood hidle hq hl h hm (htype.trans hin) hqueue hhead
  · exact recvOut_returns heap hb hgood hidle hq hl h hm (htype.trans hout) hqueue hhead
  · exact ⟨x, Prog.returns_pure.mpr ⟨rfl, rfl⟩, ⟨rfl, hidle, fun _ => rfl, fun a ha => by cases ha⟩,
      hgood⟩

/-- The device that is idle does with a chain that holds a request what the server does. -/
theorem recvRequest_returns (heap : BitVec 16 → ℕ → Byte) (hb : Synchronous bd Good)
    (hgood : Good x.ext.bs) (hidle : x.ext.reqInProgress = false) (hq : x.common.queue q = { qs with lastAvailIdx := i })
    (hl : qs.Layout) (h : HoldsRequest qs ram head ds) (hm : x.machine.mem.Holds ram) : ∃ y,
    (virtioBlockRecvRequest bd heap q head (BitVec.ofNat 32 (requestOf ram ds).bytes.length)
      (BitVec.ofNat 32 (requestOf ram ds).room)).Returns x 0 y ∧
      Replied qs head ds ram (answer bd (heap i) (requestOf ram ds) x.ext.bs) x y ∧
      Good y.ext.bs := by
  have hin : ∀ d ∈ part false ds, InBounds d := fun d hd =>
    h.inBounds d ((List.takeWhile_sublist _).subset hd)
  have hcopy := memcpyFromQueue_returns 0 16 (congrArg QueueState.descAddr hq) hm h.chain hin
    (show (16 : BitVec 32).toNat < 2 ^ 31 by decide)
  have hok : decide ((16 : BitVec 32).toNat ≤ total (segments false ds) - (0 : BitVec 32).toNat) =
      true := decide_eq_true h.header
  have hheader : BlockRequestHeader.ofBytes (((gather ram (segments false ds)).drop
      (0 : BitVec 32).toNat).take (16 : BitVec 32).toNat) = (requestOf ram ds).header := rfl
  rw [hok] at hcopy
  obtain ⟨y, hy, hrep, hgood'⟩ := recvSwitch_returns (x := { x with ext := { x.ext with
    req := { x.ext.req with
      type := (requestOf ram ds).header.type
      queueIdx := q
      descIdx := head } } }) (heap i) hb hgood hidle hq hl h hm rfl rfl rfl
  refine ⟨y, ?_, ⟨hrep.disk, hrep.idle, hrep.ignored, hrep.answered⟩, hgood'⟩
  refine .bind (Prog.returns_reads.mpr ⟨rfl, rfl⟩) ?_
  rw [hidle, if_neg Bool.false_ne_true]
  refine .bind hcopy ?_
  dsimp only
  rw [hheader, Bool.not_true, if_neg Bool.false_ne_true]
  refine .bind (modifyReq_returns _) (.bind (Prog.returns_reads.mpr ⟨hq.symm, rfl⟩) ?_)
  exact .bind hy (Prog.returns_pure.mpr ⟨rfl, rfl⟩)

end

/-! ### What stays in RAM -/

theorem half_congr {ram' : ℕ → Byte} {a : ℕ} (h : ∀ b, Mem b (a, 2) → ram b = ram' b) :
    half ram a = half ram' a := by
  have hword : word ram a 2 = word ram' a 2 := word_congr fun i hi => h _ ⟨by omega, by omega⟩
  rw [half, half, hword]

theorem publish_of_not_mem (hl : qs.Layout) (len : BitVec 32) {a : ℕ}
    (ha : ¬ Mem a qs.usedArea) : qs.publish head len ram a = ram a := by
  have hpos := position_lt hl.num (half ram (qs.usedArea.1 + 2))
  have hsize : qs.usedArea.2 = 4 + 8 * qs.num.toNat := rfl
  have hentry : qs.usedEntry (half ram (qs.usedArea.1 + 2)) =
    qs.usedArea.1 + (4 + 8 * position qs.num.toNat (half ram (qs.usedArea.1 + 2))) := rfl
  have hout : ¬ (qs.usedArea.1 ≤ a ∧ a < qs.usedArea.1 + qs.usedArea.2) := ha
  unfold QueueState.publish
  rw [put_of_not_mem, put_of_not_mem, put_of_not_mem]
  all_goals
    unfold Mem
    dsimp only
    rw [length_bytes]
    omega

def QueueState.Driver (qs : QueueState) (a : ℕ) : Prop := Mem a qs.tableArea ∨ Mem a qs.availArea

theorem serve_driver {bd : BlockDevice β} {heap : ℕ → Byte} {chain : BitVec 16 → List VirtioDesc}
    {s : Server β} (hl : qs.Layout) (h : HoldsRequest qs ram head (chain head)) {a : ℕ}
    (ha : qs.Driver a) : (s.serve bd heap qs chain head).ram a = s.ram a := by
  unfold Server.serve
  generalize answer bd heap (requestOf s.ram (chain head)) s.disk = r
  obtain ⟨bytes, disk⟩ := r
  cases bytes with
  | none => rfl
  | some bytes =>
    have hused : ¬ Mem a qs.usedArea := by
      rcases ha with ha | ha
      · exact hl.tableUsed a ha
      · exact hl.availUsed a ha
    have hbuf : ¬ Touches (segments true (rest (chain head))) a := by
      rintro ⟨t, ht, hat⟩
      obtain ⟨htable, havail, -⟩ := h.apart t ht
      rcases ha with ha | ha
      · exact htable a hat ha
      · exact havail a hat ha
    exact (publish_of_not_mem hl _ hused).trans (scatter_of_not_touches hbuf)

theorem HoldsRequest.congr {ram' : ℕ → Byte} (h : HoldsRequest qs ram head ds)
    (hram : ∀ a, Mem a qs.tableArea → ram a = ram' a) : HoldsRequest qs ram' head ds :=
  { h with
    chain := h.chain.congr fun a ha => by
      obtain ⟨t, ht, hat⟩ := ha
      exact hram a (h.inTable t ht a hat) }

/-! ### The whole queue -/

/-- A chain that waits: its head, and what a call of `malloc` for it finds. -/
structure Waiting where
  heap : ℕ → Byte
  head : BitVec 16

def Server.serveAll (bd : BlockDevice β) (qs : QueueState) (chain : BitVec 16 → List VirtioDesc)
    (ws : List Waiting) (s : Server β) : Server β :=
  ws.foldl (fun s w => s.serve bd w.heap qs chain w.head) s

/-- The device has come from `x₀`, where RAM was `ram₀`, to the state that stands for the server's,
and has taken the chains before index `i`. -/
structure Stands (Good : β → Prop) (q : Fin maxQueue) (x₀ : Attached (BlockState β))
    (ram₀ : ℕ → Byte) (i : BitVec 16) (x : Attached (BlockState β)) (s : Server β) : Prop where
  holds : x.machine.mem.Holds s.ram
  disk : x.ext.bs = s.disk
  good : Good x.ext.bs
  idle : x.ext.reqInProgress = false
  driver : ∀ a, (x₀.common.queue q).Driver a → ram₀ a = s.ram a
  machine : DmaOnly (if s.used = [] then x₀.machine else signal x₀.machine) x.machine
  intStatus : x.common.intStatus =
    if s.used = [] then x₀.common.intStatus else x₀.common.intStatus ||| 1
  common : x.common = { x₀.common with
    intStatus := x.common.intStatus
    queue := Function.update x₀.common.queue q
      { x₀.common.queue q with lastAvailIdx := i } }

section

variable {bd : BlockDevice β} {Good : β → Prop} {i : BitVec 16}
  {chain : BitVec 16 → List VirtioDesc} {x₀ : Attached (BlockState β)} {ram₀ : ℕ → Byte}
  {s : Server β}

theorem Stands.queue (h : Stands Good q x₀ ram₀ i x s) :
    x.common.queue q = { x₀.common.queue q with lastAvailIdx := i } := by
  rw [h.common]
  exact Function.update_self ..

theorem Stands.initial (hm : x₀.machine.mem.Holds ram₀) (hgood : Good x₀.ext.bs)
    (hidle : x₀.ext.reqInProgress = false) :
    Stands Good q x₀ ram₀ (x₀.common.queue q).lastAvailIdx x₀ ⟨ram₀, x₀.ext.bs, []⟩ where
  holds := hm
  disk := rfl
  good := hgood
  idle := hidle
  driver _ _ := rfl
  machine := .refl _
  intStatus := rfl
  common := by
    rw [show ({ x₀.common.queue q with lastAvailIdx := (x₀.common.queue q).lastAvailIdx } :
      QueueState) = x₀.common.queue q from rfl, Function.update_eq_self]

theorem signal_signal (m : Machine) : signal (signal m) = signal m := by
  unfold signal
  rw [plicSetIrqEmu_true, plicSetIrqEmu_true]
  rfl

theorem Stands.next {heap : ℕ → Byte} (hs : Stands Good q x₀ ram₀ i x s)
    (hl : (x₀.common.queue q).Layout)
    (hreq : HoldsRequest (x₀.common.queue q) s.ram head (chain head))
    (h : Replied (x₀.common.queue q) head (chain head) s.ram
      (answer bd heap (requestOf s.ram (chain head)) s.disk) x y) (hgood : Good y.ext.bs) :
    Stands Good q x₀ ram₀ (i + 1) (countUp q y)
      (s.serve bd heap (x₀.common.queue q) chain head) := by
  have hdriver (a : ℕ) (ha : (x₀.common.queue q).Driver a) :
      ram₀ a = (s.serve bd heap (x₀.common.queue q) chain head).ram a :=
    (hs.driver a ha).trans (serve_driver hl hreq ha).symm
  unfold Server.serve at hdriver ⊢
  generalize answer bd heap (requestOf s.ram (chain head)) s.disk = r at *
  obtain ⟨bytes, disk⟩ := r
  cases bytes with
  | none =>
    -- without an answer nothing is published, and only the index of the device goes on
    have hy := h.ignored rfl
    refine ⟨?_, h.disk, hgood, h.idle, hdriver, ?_, ?_, ?_⟩
    · show y.machine.mem.Holds s.ram
      rw [hy]
      exact hs.holds
    · show DmaOnly _ y.machine
      rw [hy]
      exact hs.machine
    · show y.common.intStatus = _
      rw [hy]
      exact hs.intStatus
    · have hc : y.common = x.common := by rw [hy]
      rw [countUp, hc]
      dsimp only
      rw [VirtioDevice.setQueue, hs.queue, hs.common]
      simp only [Function.update_idem]
  | some bytes =>
    have hpub := h.answered bytes rfl
    have hc : y.common = { x.common with intStatus := x.common.intStatus ||| 1 } := hpub.common
    have hused : s.used ++ [(head, BitVec.ofNat 32 bytes.length)] ≠ [] :=
      List.append_ne_nil_of_right_ne_nil _ (List.cons_ne_nil _ _)
    refine ⟨hpub.holds, h.disk, hgood, h.idle, hdriver, ?_, ?_, ?_⟩
    · show DmaOnly (if s.used ++ _ = [] then _ else _) y.machine
      rw [if_neg hused]
      refine DmaOnly.trans ?_ hpub.machine
      -- an interrupt that is up already is not raised a second time
      have hm := hs.machine.signal
      split at hm
      · exact hm
      · rwa [signal_signal] at hm
    · show y.common.intStatus = if s.used ++ _ = [] then _ else _
      rw [if_neg hused, hc]
      dsimp only
      rw [hs.intStatus]
      split
      · rfl
      · rw [BitVec.or_assoc, BitVec.or_self]
    · rw [countUp, hc]
      dsimp only
      rw [VirtioDevice.setQueue]
      dsimp only
      rw [hs.queue, hs.common]
      simp only [Function.update_idem]

theorem Stands.ring (hl : (x₀.common.queue q).Layout) (h : Stands Good q x₀ ram₀ i x s)
    (j : BitVec 16) :
    half s.ram ((x₀.common.queue q).availArea.1 + 2) =
        half ram₀ ((x₀.common.queue q).availArea.1 + 2) ∧
      half s.ram ((x₀.common.queue q).availEntry j) =
        half ram₀ ((x₀.common.queue q).availEntry j) := by
  have hpos := Layout.availEntry_lt hl j
  have hentry : (x₀.common.queue q).availEntry j = (x₀.common.queue q).availArea.1 +
    (4 + 2 * position (x₀.common.queue q).num.toNat j) := rfl
  have hsize : (x₀.common.queue q).availArea.2 = 4 + 2 * (x₀.common.queue q).num.toNat := rfl
  constructor
  · exact half_congr fun b hb =>
      (h.driver b (.inr ⟨by have := hb.1; omega, by have := hb.2; dsimp only at this; omega⟩)).symm
  · exact half_congr fun b hb =>
      (h.driver b (.inr ⟨by have := hb.1; omega, by have := hb.2; dsimp only at this; omega⟩)).symm

/-- The indices of the available ring that the device has not taken yet, up to the driver's. -/
def QueueState.waiting (qs : QueueState) (ram : ℕ → Byte) : List (BitVec 16) :=
  span qs.lastAvailIdx (half ram (qs.availArea.1 + 2))

def QueueState.heads (qs : QueueState) (ram : ℕ → Byte) : List (BitVec 16) :=
  (qs.waiting ram).map fun i => half ram (qs.availEntry i)

def QueueState.waits (qs : QueueState) (heap : BitVec 16 → ℕ → Byte) (ram : ℕ → Byte) :
    List Waiting :=
  (qs.waiting ram).map fun i => ⟨heap i, half ram (qs.availEntry i)⟩

theorem QueueState.heads_waits (qs : QueueState) (heap : BitVec 16 → ℕ → Byte) (ram : ℕ → Byte) :
    (qs.waits heap ram).map Waiting.head = qs.heads ram := List.map_map

theorem block_refines (heap : BitVec 16 → ℕ → Byte) (hb : Synchronous bd Good)
    (hl : (x₀.common.queue q).Layout) (hauto : (x₀.common.queue q).manualRecv = false)
    (hreq : ∀ head ∈ (x₀.common.queue q).heads ram₀,
      HoldsRequest (x₀.common.queue q) ram₀ head (chain head)) :
    Refines (virtioBlockRecvRequest bd heap) q (x₀.common.queue q)
      (x₀.common.queue q).lastAvailIdx (half ram₀ ((x₀.common.queue q).availArea.1 + 2))
      (fun i => half ram₀ ((x₀.common.queue q).availEntry i))
      (fun i => Server.serve bd (heap i) (x₀.common.queue q) chain
        (half ram₀ ((x₀.common.queue q).availEntry i))) (Stands Good q x₀ ram₀) where
  layout := hl
  automatic := hauto
  queue _ _ _ h := h.queue
  ring _ _ s h := ⟨s.ram, h.holds, (h.ring hl 0).1, fun j => (h.ring hl j).2⟩
  step i x s hi h := by
    have hheld := (hreq _ (List.mem_map_of_mem hi)).congr fun a ha => h.driver a (.inl ha)
    have hsizes := getDescRwSize_returns (congrArg QueueState.descAddr h.queue) h.holds hheld.chain
    obtain ⟨y, hy, hrep, hgood⟩ := recvRequest_returns heap hb h.good h.idle h.queue hl hheld
      h.holds
    rw [h.disk] at hrep
    refine ⟨_, x, 0, y, hsizes, ?_, le_rfl, h.next hl hheld hrep hgood⟩
    rw [hheld.rwSize_eq]
    exact hy

/-- The store to the register of a queue returns, with every request that waits in the available
ring answered once, in the order of the ring, as the server answers it. -/
theorem blockNotify_serves (heap : BitVec 16 → ℕ → Byte) (hb : Synchronous bd Good)
    (hgood : Good x₀.ext.bs) (hidle : x₀.ext.reqInProgress = false) (hm : x₀.machine.mem.Holds ram₀)
    (hl : (x₀.common.queue q).Layout) (hauto : (x₀.common.queue q).manualRecv = false)
    (hreq : ∀ head ∈ (x₀.common.queue q).heads ram₀,
      HoldsRequest (x₀.common.queue q) ram₀ head (chain head)) : ∃ y,
    (blockWrite bd heap 0x050 (BitVec.ofNat 32 q)).Returns x₀ () y ∧
      Stands Good q x₀ ram₀ (half ram₀ ((x₀.common.queue q).availArea.1 + 2)) y
        (Server.serveAll bd (x₀.common.queue q) chain
          ((x₀.common.queue q).waits heap ram₀) ⟨ram₀, x₀.ext.bs, []⟩) := by
  obtain ⟨y, hy, hs⟩ := queueNotify_refines (block_refines heap hb hl hauto hreq)
    (Stands.initial hm hgood hidle)
  refine ⟨y, ?_, ?_⟩
  · have hq : (BitVec.ofNat 32 q.val).toNat = q.val :=
      toNat_ofNat_of_lt (q.isLt.trans (by decide))
    have hlt : (BitVec.ofNat 32 q.val).toNat < maxQueue := hq.trans_lt q.isLt
    have hfin : (⟨(BitVec.ofNat 32 q.val).toNat, hlt⟩ : Fin maxQueue) = q := Fin.ext hq
    have hcode : blockWrite bd heap 0x050 (BitVec.ofNat 32 q) =
        if h : (BitVec.ofNat 32 q.val).toNat < maxQueue then
          queueNotify (virtioBlockRecvRequest bd heap) ⟨_, h⟩
        else pure () := rfl
    rw [hcode, dif_pos hlt, hfin]
    exact hy
  · rw [Server.serveAll, QueueState.waits, List.foldl_map]
    exact hs

end

/-! ### A queue with two requests -/

theorem busy_heads : QueueState.atStart.heads busyMemory.byte = [0, 3] := by decide +kernel

theorem busy_holdsRequest : ∀ head ∈ QueueState.atStart.heads busyMemory.byte,
    HoldsRequest QueueState.atStart busyMemory.byte head (busyChain head) := by
  rw [busy_heads, List.forall_mem_cons, List.forall_mem_singleton]
  constructor <;> apply HoldsRequest.of_inside <;> decide +kernel

end RiscvEmu
