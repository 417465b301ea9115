import RiscvEmu.AddressMapping

/-! The console input: the status read takes a character from `getchar` into a queue, from which the
data read returns it. -/

namespace RiscvEmu

open Runs

/-- A read of the status register, with the result of `getchar`, or of the data register. -/
inductive FifoOp
  | status (c : Option Byte)
  | data

def FifoOp.read (queue : List Byte) : FifoOp → Word × List Byte
  | status (some ch) => (0, queue ++ [ch])
  | status none => (2, queue)
  | data =>
    match queue with
    | [] => (-1, [])
    | ch :: rest => (ch.setWidth 64, rest)

namespace FifoOp

def typed (ops : List FifoOp) : List Byte :=
  ops.filterMap fun op =>
    match op with
    | status c => c
    | data => none

def char (v : Word) : FifoOp → List Byte
  | status _ => []
  | data => if v = -1 then [] else [v.setWidth 8]

def queueFrom (queue : List Byte) (ops : List FifoOp) : List Byte :=
  ops.foldl (fun q op => (op.read q).2) queue

def returnedFrom : List Byte → List FifoOp → List Byte
  | _, [] => []
  | queue, op :: ops => op.char (op.read queue).1 ++ returnedFrom (op.read queue).2 ops

def queueAfter (ops : List FifoOp) : List Byte := queueFrom [] ops

def returned (ops : List FifoOp) : List Byte := returnedFrom [] ops

end FifoOp

open FifoOp

/-- The characters come in order, none is lost or comes twice, and a status read has the bit 1 clear
exactly when there is an unread character. -/
structure ConsoleCorrect (ops : List FifoOp) : Prop where
  order : ∀ p, p <+: ops → returned p <+: typed p
  status : ∀ p c, p ++ [.status c] <+: ops →
    (((FifoOp.status c).read (queueAfter p)).1 &&& 2 = 0 ↔
      returned (p ++ [.status c]) ≠ typed (p ++ [.status c]))

/-- No status read finds the end of the input while a character is in the queue. -/
def NoEndWhileQueued (ops : List FifoOp) : Prop :=
  ∀ p, p ++ [.status none] <+: ops → queueAfter p = []

theorem queue_append_typed (queue : List Byte) (ops : List FifoOp) :
    queue ++ typed ops = returnedFrom queue ops ++ queueFrom queue ops := by
  induction ops generalizing queue with
  | nil => exact List.append_nil queue
  | cons op ops ih =>
    rw [returnedFrom, List.append_assoc]
    show _ = op.char (op.read queue).1 ++
      (returnedFrom (op.read queue).2 ops ++ queueFrom (op.read queue).2 ops)
    rw [← ih]
    cases op with
    | status c =>
      cases c with
      | none => rfl
      | some ch => exact (List.append_assoc queue [ch] (typed ops)).symm
    | data =>
      cases queue with
      | nil => rfl
      | cons ch rest =>
        have hne : ch.setWidth 64 ≠ (-1 : Word) := by
          intro h
          have hlt := ch.isLt
          have hnat := congrArg BitVec.toNat h
          rw [BitVec.toNat_setWidth, Nat.mod_eq_of_lt (by omega)] at hnat
          rw [hnat] at hlt
          exact absurd hlt (by decide)
        have hchar : char (ch.setWidth 64) .data = [ch] := by
          rw [char, if_neg hne, BitVec.setWidth_setWidth_of_le _ (by decide), BitVec.setWidth_eq]
        show ch :: rest ++ typed ops = char (ch.setWidth 64) .data ++ (rest ++ typed ops)
        rw [hchar]
        rfl

theorem typed_eq (ops : List FifoOp) : typed ops = returned ops ++ queueAfter ops :=
  queue_append_typed [] ops

theorem returned_eq_typed_iff (ops : List FifoOp) : returned ops = typed ops ↔ queueAfter ops = [] := by
  rw [typed_eq, List.self_eq_append_right]

theorem queueAfter_snoc (p : List FifoOp) (op : FifoOp) :
    queueAfter (p ++ [op]) = (op.read (queueAfter p)).2 := List.foldl_concat ..

/-- The status is right exactly when no status read finds the end of the input while characters are
queued. -/
theorem console_iff (ops : List FifoOp) : ConsoleCorrect ops ↔ NoEndWhileQueued ops := by
  constructor
  · intro h p hp
    have hs := h.status p none hp
    rw [ne_eq, returned_eq_typed_iff, queueAfter_snoc] at hs
    by_contra hq
    exact absurd (hs.mpr hq) (show (2 : Word) &&& 2 ≠ 0 by decide)
  · intro h
    refine ⟨fun p _ => ⟨queueAfter p, (typed_eq p).symm⟩, fun p c hp => ?_⟩
    rw [ne_eq, returned_eq_typed_iff, queueAfter_snoc]
    cases c with
    | none =>
      -- nothing is queued, and nothing comes
      rw [h p hp]
      exact iff_of_false (by decide) (not_not.mpr rfl)
    | some ch =>
      have hclear : (0 : Word) &&& 2 = 0 := by decide
      exact iff_of_true hclear (List.append_ne_nil_of_right_ne_nil _ (List.cons_ne_nil _ _))

/-- A key is pressed, and the status is read twice before the character is. -/
theorem console_polled_twice : ¬ ∀ ops : List FifoOp, ConsoleCorrect ops := by
  intro h
  have hs := (h [.status (some 0x61), .status none]).status [.status (some 0x61)] none
    (List.prefix_refl _)
  have hset : (2 : Word) &&& 2 ≠ 0 := by decide
  exact hset (hs.mpr (by decide))

/-! ### Runs of the emulator -/

variable {inp : Input} {ins : Word} {s t : State}

def consoleOp (inp : Input) (ins : Word) (m : Machine) : Option FifoOp :=
  if opcode ins ≠ .load then none
  else if Path.load.address ins m = fifoAddrRx then some (.status inp.getchar)
  else if Path.load.address ins m = fifoAddrTx then some .data
  else none

def consoleRead (inp : Input) (s : State) : Option FifoOp :=
  (executed inp s).bind fun ins => consoleOp inp ins (switchMachine inp s)

theorem loadFifo_rx (h : s.loadAddr = fifoAddrRx) :
    (loadFifo inp ins s).toMachine = { s.toMachine with
      regFile := s.regSet (rd ins) ((FifoOp.status inp.getchar).read s.fifoQueue).1
      fifoQueue := ((FifoOp.status inp.getchar).read s.fifoQueue).2 } := by
  unfold loadFifo
  rw [if_pos h]
  cases inp.getchar with
  | none => rfl
  | some ch => rfl

theorem loadFifo_tx (h : s.loadAddr = fifoAddrTx) :
    (loadFifo inp ins s).toMachine = { s.toMachine with
      regFile := s.regSet (rd ins) (FifoOp.data.read s.fifoQueue).1
      fifoQueue := (FifoOp.data.read s.fifoQueue).2 } := by
  have hne : s.loadAddr ≠ fifoAddrRx := by
    rw [h]
    decide
  unfold loadFifo
  rw [if_neg hne]
  cases hq : s.fifoQueue with
  | nil =>
    dsimp only [FifoOp.read]
    rw [← hq]
    rfl
  | cons ch rest => rfl

theorem execute_consoleOp {op : FifoOp} (h : consoleOp inp ins s.toMachine = some op) :
    ∃ t, execute inp ins s = .fall t ∧ t.toMachine = { s.toMachine with
      regFile := s.regSet (rd ins) (op.read s.fifoQueue).1
      fifoQueue := (op.read s.fifoQueue).2 } := by
  let u : State := { s with loadAddr := Path.load.address ins s.toMachine }
  unfold consoleOp at h
  split at h
  · cases h
  rename_i ho
  rw [execute_load (not_not.mp ho)]
  split at h
  · rename_i hrx
    cases h
    exact ⟨loadFifo inp ins u, if_neg fun hn => hn.1 hrx, loadFifo_rx hrx⟩
  · split at h
    · rename_i htx
      cases h
      exact ⟨loadFifo inp ins u, if_neg fun hn => hn.2 htx, loadFifo_tx htx⟩
    · cases h

theorem deviceActs_fifoQueue {as : List DeviceAct} {m m' : Machine}
    (h : deviceActs as m = .ret () m') : m'.fifoQueue = m.fifoQueue :=
  deviceActs_invariant (P := fun x => x.fifoQueue = m.fifoQueue) (fun _ _ _ hx => hx)
    (fun _ _ _ _ hx => hx) h rfl

theorem enter_fifoQueue (h : Plevel) (i : Byte) (e epc pc : Word) (m : Machine) :
    (enter h i e epc pc m).fifoQueue = m.fifoQueue := by
  cases h <;> rfl

theorem loadSide_fifoQueue {m m' : Machine} (h : LoadSide m m') : m'.fifoQueue = m.fifoQueue := by
  rcases h with rfl | ⟨-, rfl⟩
  · rfl
  · rfl

theorem Effect.fifoQueue {m m' : Machine} (he : Effect inp ins m m') (ho : opcode ins ≠ .load) :
    m'.fifoQueue = m.fifoQueue := by
  cases he with
  | fifo r q h => exact absurd h ho
  | load m1 r hs h => exact absurd h ho
  | loadMis m1 va hs h => exact absurd h ho
  | device as m1 hd => exact deviceActs_fifoQueue hd
  | ecall pc m1 hx =>
    obtain ⟨hm, e, epc, -, -, -, rfl⟩ := excepFunction_enters hx
    exact enter_fifoQueue hm 0 e epc m.pc m
  | _ => rfl

theorem execute_fifoQueue (h : consoleOp inp ins s.toMachine = none)
    (hx : execute inp ins s = .fall t) : t.fifoQueue = s.fifoQueue := by
  by_cases ho : opcode ins = .load
  · have hq : Path.load.address ins s.toMachine ∉ Path.load.console := by
      rw [mem_load_console]
      unfold consoleOp at h
      rw [if_neg (not_not.mpr ho)] at h
      rintro (hrx | htx)
      · rw [if_pos hrx] at h
        cases h
      · by_cases hrx : Path.load.address ins s.toMachine = fifoAddrRx
        · rw [if_pos hrx] at h
          cases h
        · rw [if_neg hrx, if_pos htx] at h
          cases h
    rw [execute_load ho, armLoad_off_console hq] at hx
    dsimp only at hx
    split at hx
    · cases hx
    · split at hx
      · unfold loadPageFault at hx
        split at hx <;> cases hx
      · split at hx
        · cases hx
        · rename_i m hl
          cases hx
          have side := loadSide_fifoQueue (loadMapped_side hl)
          rcases loadSwitch_cases ins _ with ⟨r, hr⟩ | hr
          · rw [hr]
            exact side
          · rw [hr]
            exact side
  · exact (execute_effect hx).fifoQueue ho

theorem continued_fifoQueue {m m' : Machine} (h : Continued ins m m') :
    m'.fifoQueue = m.fifoQueue := by
  cases h with
  | fence => rfl
  | fault hm ecode va hh =>
    rcases hh with rfl | rfl
    · rfl
    · rfl

theorem selected_fifoQueue {m m' : Machine} (h : Selected m m') : m'.fifoQueue = m.fifoQueue := by
  cases h with
  | none => rfl
  | declined => rfl
  | interrupt e hm => exact enter_fifoQueue hm 1 e _ _ m
  | exception e hm f => exact enter_fifoQueue hm 0 e _ _ { m with flags := f }

theorem consoleRead_of_word (hf : fetch (tick inp s.toMachine) = .word ins) :
    consoleRead inp s = consoleOp inp ins (switchMachine inp s) := by
  have hx : executed inp s = some ins := executed_iff.mpr hf
  rw [consoleRead, hx, Option.bind_some]

theorem loopEnd_fifoQueue {lpc : Word} (h : loopEnd lpc s = .next t) :
    t.fifoQueue = s.fifoQueue := by
  have hq : t.fifoQueue = (refresh s.toMachine).fifoQueue :=
    selected_fifoQueue (selectTrap_ret (loopEnd_next h))
  exact hq

theorem word_fifoQueue (hf : fetch (tick inp s.toMachine) = .word ins) (h : Next inp s t) :
    t.fifoQueue = queueFrom s.fifoQueue (consoleOp inp ins (switchMachine inp s)).toList := by
  have hs : decoded { s with toMachine := tick inp s.toMachine } = switchState inp s := rfl
  rw [Next, iterate_of_word hf, hs] at h
  cases hop : consoleOp inp ins (switchMachine inp s) with
  | some op =>
    obtain ⟨u, hx, hu⟩ := execute_consoleOp (s := switchState inp s) hop
    rw [hx] at h
    rw [loopEnd_fifoQueue h, hu]
    rfl
  | none =>
    cases hx : execute inp ins (switchState inp s) with
    | stop halt u =>
      rw [hx] at h
      cases h
    | cont u =>
      rw [hx] at h
      cases h
      have hq : t.fifoQueue = (switchMachine inp s).fifoQueue :=
        continued_fifoQueue (execute_cont hx)
      exact hq
    | fall u =>
      rw [hx] at h
      rw [loopEnd_fifoQueue h, execute_fifoQueue (s := switchState inp s) hop hx]
      rfl

theorem fetchFaulted_fifoQueue (hm : Plevel) (m : Machine) :
    (fetchFaulted hm m).fifoQueue = m.fifoQueue := enter_fifoQueue hm 0 _ _ _ m

theorem next_fifoQueue (h : Next inp s t) :
    t.fifoQueue = queueFrom s.fifoQueue (consoleRead inp s).toList := by
  cases hf : fetch (tick inp s.toMachine) with
  | word ins =>
    rw [consoleRead_of_word hf]
    exact word_fifoQueue hf h
  | fault =>
    have hread : consoleRead inp s = none := by
      rw [consoleRead, executed, hf]
      rfl
    rw [hread]
    unfold Next iterate at h
    dsimp only at h
    rw [hf] at h
    dsimp only at h
    split at h
    · cases h
    · rename_i hr
      cases h
      obtain ⟨hm, -, -, rfl⟩ := fetchFault_ret hr
      exact fetchFaulted_fifoQueue hm _
  | stop halt =>
    unfold Next iterate at h
    dsimp only at h
    rw [hf] at h
    cases h

/-- In every run the queue is the one that the reads of the run leave, so the characters that they
return and those in the queue are the ones that they have taken. -/
theorem console_of_run {image : Memory} {time : Word} {ls : List (Input × Option FifoOp)}
    (h : Run (fun l s t => Next l.1 s t ∧ l.2 = consoleRead l.1 s) (boot image time) ls s) :
    s.fifoQueue = queueAfter (ls.reverse.filterMap Prod.snd) := by
  induction h with
  | start => rfl
  | @next ls l t u _ hs ih =>
    obtain ⟨hn, hl⟩ := hs
    have hone : [l].filterMap Prod.snd = l.2.toList := by
      rw [List.filterMap_cons, List.filterMap_nil]
      cases l.2 <;> rfl
    rw [next_fifoQueue hn, ih, ← hl, List.reverse_cons, List.filterMap_append, hone]
    exact (List.foldl_append ..).symm

end RiscvEmu
