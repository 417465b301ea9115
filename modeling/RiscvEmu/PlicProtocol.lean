import RiscvEmu.Control

/-! The claim and complete protocol of the PLIC, between the device that drives the line and the guest
that claims and completes. The abstract gateway signals while the line is up and no claim is outstanding;
the code does the same until the line is raised during a claim. -/

namespace RiscvEmu

open Runs

variable {m : Machine} {ops p : List PlicOp}

/-- What the two parties do: the line changes, and the guest reads or writes the claim register. -/
inductive PlicOp
  | setIrq (state : Bool)
  | claim
  | complete
  deriving DecidableEq

def PlicOp.apply (m : Machine) : PlicOp → Machine
  | setIrq state => plicSetIrqEmu state m
  | claim => (plicRead (plicHartBase + 4) m).2
  | complete => plicWrite (plicHartBase + 4) m

/-! ### The gateway -/

/-- The level of the line, and whether the guest holds a claim that it has not completed. -/
structure Gateway where
  line : Bool
  claimed : Bool
  deriving DecidableEq

namespace Gateway

variable {g : Gateway}

def idle : Gateway := ⟨false, false⟩

def signals (g : Gateway) : Bool := g.line && !g.claimed

def step (g : Gateway) : PlicOp → Gateway
  | .setIrq state => { g with line := state }
  | .claim => { g with claimed := g.claimed || g.signals }
  | .complete => { g with claimed := false }

def after (g : Gateway) (ops : List PlicOp) : Gateway := ops.foldl step g

def NeverRaisedInService : Gateway → List PlicOp → Prop
  | _, [] => True
  | g, op :: ops =>
    (op = .setIrq true → g.claimed = false) ∧ NeverRaisedInService (g.step op) ops

end Gateway

structure Represents (g : Gateway) (m : Machine) : Prop where
  pending : m.plic.pendingIrq = g.line
  served : m.plic.servedIrq = g.claimed
  seip : m.csr.mip.seip = 1 ↔ g.signals = true

/-- After every prefix of the operations `SEIP` is set exactly when the gateway signals. -/
def Signals (g : Gateway) (m : Machine) (ops : List PlicOp) : Prop :=
  ∀ p, p <+: ops → ((p.foldl PlicOp.apply m).csr.mip.seip = 1 ↔ (g.after p).signals = true)

section

variable {g : Gateway} {op : PlicOp}

/-- The complement of a flag is never zero, so a raised line always signals. -/
theorem plicSetIrqEmu_true (m : Machine) :
    plicSetIrqEmu true m = setSeip { m with plic := { m.plic with pendingIrq := true } } 1 := by
  have hne : ∀ b : Bool, ~~~(if b then 1#32 else 0#32) ≠ 0 := by decide
  unfold plicSetIrqEmu
  rw [if_pos rfl]
  dsimp only
  rw [if_pos (hne m.plic.servedIrq)]

theorem Represents.setIrq {state : Bool} (h : Represents g m)
    (hg : state = true → g.claimed = false) :
    Represents (g.step (.setIrq state)) (plicSetIrqEmu state m) := by
  cases state with
  | true =>
    have hc := hg rfl
    rw [plicSetIrqEmu_true]
    refine ⟨rfl, h.served, ?_⟩
    simp [Gateway.step, Gateway.signals, hc, setSeip]
  | false =>
    refine ⟨rfl, h.served, ?_⟩
    simp [Gateway.step, Gateway.signals, plicSetIrqEmu, setSeip]

theorem plicRead_claim (m : Machine) : plicRead (plicHartBase + 4) m =
    if m.csr.mip.seip = 1 then (1, claimIrq m) else (0, m) := by
  unfold plicRead
  rw [if_neg (by decide), if_pos rfl]
  rfl

theorem Represents.claim (h : Represents g m) :
    Represents (g.step .claim) (plicRead (plicHartBase + 4) m).2 := by
  rw [plicRead_claim]
  by_cases hs : m.csr.mip.seip = 1
  · have hstep : g.step .claim = { g with claimed := true } := by
      unfold Gateway.step
      rw [h.seip.mp hs, Bool.or_true]
    rw [if_pos hs, hstep]
    refine ⟨h.pending, rfl, ?_⟩
    simp [Gateway.signals, claimIrq, setSeip]
  · have hstep : g.step .claim = g := by
      unfold Gateway.step
      rw [Bool.eq_false_iff.mpr (mt h.seip.mpr hs), Bool.or_false]
    rw [if_neg hs, hstep]
    exact h

theorem plicWrite_complete (m : Machine) : plicWrite (plicHartBase + 4) m = completeIrq m := by
  unfold plicWrite completeIrq
  rw [if_pos rfl]
  dsimp only
  split <;> rfl

theorem Represents.complete (h : Represents g m) :
    Represents (g.step .complete) (plicWrite (plicHartBase + 4) m) := by
  rw [plicWrite_complete]
  refine ⟨h.pending, rfl, ?_⟩
  unfold completeIrq
  rw [h.pending]
  cases hl : g.line <;> simp [Gateway.step, Gateway.signals, setSeip, hl]

theorem Represents.step (h : Represents g m) (hg : op = .setIrq true → g.claimed = false) :
    Represents (g.step op) (op.apply m) := by
  cases op with
  | setIrq state =>
    apply h.setIrq
    rintro rfl
    exact hg rfl
  | claim => exact h.claim
  | complete => exact h.complete

/-- A line raised during a claim is signalled at once. -/
theorem not_signals_of_raised (hc : g.claimed = true) :
    ¬ (((PlicOp.setIrq true).apply m).csr.mip.seip = 1 ↔
      (g.step (.setIrq true)).signals = true) := by
  intro h
  have hone : (plicSetIrqEmu true m).csr.mip.seip = 1 := by
    rw [plicSetIrqEmu_true]
    rfl
  have hs := h.mp hone
  simp [Gateway.step, Gateway.signals, hc] at hs

theorem signals_cons (h : Represents g m) :
    Signals g m (op :: ops) ↔ Signals (g.step op) (op.apply m) ops := by
  constructor
  · intro hs p hp
    exact hs (op :: p) ((List.prefix_cons_inj op).mpr hp)
  · intro hs p hp
    rcases List.prefix_cons_iff.mp hp with rfl | ⟨p', rfl, hp'⟩
    · exact h.seip
    · exact hs p' hp'

end

/-- The code follows the protocol exactly as long as the line is not raised while a claim is
outstanding. -/
theorem plic_protocol_iff {g : Gateway} (h : Represents g m) :
    Signals g m ops ↔ g.NeverRaisedInService ops := by
  induction ops generalizing g m with
  | nil =>
    refine iff_of_true ?_ trivial
    intro p hp
    rw [List.prefix_nil.mp hp]
    exact h.seip
  | cons op ops ih =>
    rw [signals_cons h]
    by_cases hg : op = .setIrq true → g.claimed = false
    · rw [ih (h.step hg)]
      exact ⟨fun hr => ⟨hg, hr⟩, fun hr => hr.2⟩
    · -- the line is raised while a claim is outstanding
      refine iff_of_false ?_ fun hr => hg hr.1
      obtain ⟨rfl, hc⟩ := Classical.not_imp.mp hg
      have hclaimed : g.claimed = true := (Bool.not_eq_false _).mp hc
      intro hs
      exact not_signals_of_raised hclaimed (hs [] List.nil_prefix)

theorem represents_boot (image : Memory) (time : Word) :
    Represents .idle (boot image time).toMachine := by
  refine ⟨rfl, rfl, iff_of_false (fun h => ?_) (by decide)⟩
  have hzero : (0 : Byte) = 1 := h
  exact absurd hzero (by decide)

/-- A line that goes down and up again only after the completion. -/
theorem plic_protocol_served :
    Signals .idle (boot (fun _ => 0) 0).toMachine
      [.setIrq true, .claim, .setIrq false, .complete, .setIrq true] :=
  (plic_protocol_iff (represents_boot _ _)).mpr (by simp [Gateway.NeverRaisedInService,
    Gateway.step, Gateway.idle])

/-- A device that raises the line again before the guest has completed the claim. -/
theorem plic_protocol_fails :
    ¬ ∀ (image : Memory) (time : Word) (ops : List PlicOp),
      Signals .idle (boot image time).toMachine ops := by
  intro h
  have hs := h (fun _ => 0) 0 [.setIrq true, .claim, .setIrq true] _ (List.prefix_refl _)
  exact absurd (hs.mp rfl) (by decide)

/-! ### Runs of the emulator -/

variable {inp : Input} {ins : Word}

/-- The iteration executes no CSR instruction on `mip` or `sip`. -/
def LeavesSeip (inp : Input) (s : State) : Prop :=
  ∀ ins ∈ (fetch (tick inp s.toMachine)).word?, IsCsr ins →
    imm11_0 ins ≠ CsrName.mip.addr ∧ imm11_0 ins ≠ CsrName.sip.addr

structure SamePlic (m m' : Machine) : Prop where
  plic : m'.plic = m.plic
  seip : m'.csr.mip.seip = m.csr.mip.seip

section

variable {m m' m'' : Machine}

theorem SamePlic.trans (h : SamePlic m m') (h' : SamePlic m' m'') : SamePlic m m'' :=
  ⟨h'.plic.trans h.plic, h'.seip.trans h.seip⟩

theorem SamePlic.apply (h : SamePlic m m') (op : PlicOp) : SamePlic (op.apply m) (op.apply m') := by
  obtain ⟨hp, hs⟩ := h
  cases op with
  | setIrq state =>
    cases state with
    | true =>
      simp only [PlicOp.apply, plicSetIrqEmu_true]
      exact ⟨congrArg (fun p : Plic => { p with pendingIrq := true }) hp, rfl⟩
    | false => exact ⟨congrArg (fun p : Plic => { p with pendingIrq := false }) hp, rfl⟩
  | claim =>
    simp only [PlicOp.apply, plicRead_claim]
    rw [hs]
    split
    · exact ⟨congrArg (fun p : Plic => { p with servedIrq := true }) hp, rfl⟩
    · exact ⟨hp, hs⟩
  | complete =>
    simp only [PlicOp.apply, plicWrite_complete]
    refine ⟨congrArg (fun p : Plic => { p with servedIrq := false }) hp, ?_⟩
    simp only [completeIrq, setSeip, hp]

theorem SamePlic.fold (h : SamePlic m m') (ops : List PlicOp) :
    SamePlic (ops.foldl PlicOp.apply m) (ops.foldl PlicOp.apply m') := by
  induction ops generalizing m m' with
  | nil => exact h
  | cons op ops ih => exact ih (h.apply op)

def PlicSteps (m m' : Machine) : Prop :=
  ∃ ops : List PlicOp, SamePlic (ops.foldl PlicOp.apply m) m'

theorem plicSteps_of_same (h : SamePlic m m') : PlicSteps m m' := ⟨[], h⟩

theorem PlicSteps.trans (h : PlicSteps m m') (h' : PlicSteps m' m'') : PlicSteps m m'' := by
  obtain ⟨ops, ho⟩ := h
  obtain ⟨ops', ho'⟩ := h'
  refine ⟨ops ++ ops', ?_⟩
  rw [List.foldl_append]
  exact (ho.fold ops').trans ho'

theorem plicSteps_of_loadSide (h : LoadSide m m') : PlicSteps m m' := by
  rcases h with rfl | ⟨hs, rfl⟩
  · exact plicSteps_of_same ⟨rfl, rfl⟩
  · refine ⟨[.claim], ?_⟩
    show SamePlic (plicRead (plicHartBase + 4) m).2 (claimIrq m)
    rw [plicRead_claim, if_pos hs]
    exact ⟨rfl, rfl⟩

theorem plicSteps_of_device {as : List DeviceAct} (h : deviceActs as m = .ret () m') :
    PlicSteps m m' := by
  induction as generalizing m with
  | nil =>
    cases h
    exact plicSteps_of_same ⟨rfl, rfl⟩
  | cons a as ih =>
    unfold deviceActs at h
    split at h
    · cases h
    · rename_i m1 ha
      refine PlicSteps.trans ?_ (ih h)
      have read {inRange : Bool} (hr : dmaRead inRange m = .ret () m1) : PlicSteps m m1 := by
        unfold dmaRead at hr
        split at hr
        · cases hr
          exact plicSteps_of_same ⟨rfl, rfl⟩
        · cases hr
      have write {target : Option (Cell × Word)} (hw : dmaWrite target m = .ret () m1) :
          PlicSteps m m1 := by
        unfold dmaWrite at hw
        split at hw
        · cases hw
        · cases hw
          exact plicSteps_of_same ⟨rfl, rfl⟩
      cases a with
      | read8 addr => exact read ha
      | read16 addr => exact read ha
      | read32 addr => exact read ha
      | write8 addr data => exact write ha
      | write16 addr data => exact write ha
      | write32 addr data => exact write ha
      | setIrq state =>
        cases ha
        exact ⟨[.setIrq state], rfl, rfl⟩

theorem seip_of_assign {c c' : Csrs} {n : CsrName} {v : Word} (hc : c.assign v n = some c')
    (hm : n ≠ .mip) (hs : n ≠ .sip) : c'.mip.seip = c.mip.seip := by
  cases n with
  | mip => exact absurd rfl hm
  | sip => exact absurd rfl hs
  | cycle => cases hc
  | _ =>
    cases hc
    rfl

theorem enter_samePlic {h : Plevel} (i : Byte) (e epc pc : Word) (m : Machine) :
    SamePlic m (enter h i e epc pc m) := by
  cases h <;> exact ⟨rfl, rfl⟩

theorem Effect.plicSteps (he : Effect inp ins m m') (hw : IsCsr ins →
    imm11_0 ins ≠ CsrName.mip.addr ∧ imm11_0 ins ≠ CsrName.sip.addr) : PlicSteps m m' := by
  cases he with
  | load m1 r hs => exact (plicSteps_of_loadSide hs).trans (plicSteps_of_same ⟨rfl, rfl⟩)
  | loadMis m1 va hs => exact (plicSteps_of_loadSide hs).trans (plicSteps_of_same ⟨rfl, rfl⟩)
  | complete =>
    refine ⟨[.complete], ?_⟩
    show SamePlic (plicWrite (plicHartBase + 4) m) (completeIrq m)
    rw [plicWrite_complete]
    exact ⟨rfl, rfl⟩
  | device as m1 hd => exact plicSteps_of_device hd
  | csr n c r hn hc ha ho =>
    obtain ⟨hm, hs⟩ := hw ho
    rw [← ha] at hm hs
    exact plicSteps_of_same ⟨rfl, seip_of_assign hc (fun h => hm (h ▸ rfl)) fun h => hs (h ▸ rfl)⟩
  | ecall pc m1 hx =>
    obtain ⟨hm, e, epc, -, -, -, rfl⟩ := excepFunction_enters hx
    exact plicSteps_of_same ((enter_samePlic 0 e epc m.pc m).trans ⟨rfl, rfl⟩)
  | _ => exact plicSteps_of_same ⟨rfl, rfl⟩

theorem selected_samePlic (h : Selected m m') : SamePlic m m' := by
  cases h with
  | none => exact ⟨rfl, rfl⟩
  | declined => exact ⟨rfl, rfl⟩
  | interrupt e hm => exact enter_samePlic 1 e _ _ m
  | exception e hm f =>
    have hf : SamePlic m { m with flags := f } := ⟨rfl, rfl⟩
    exact hf.trans (enter_samePlic 0 e _ _ _)

end

theorem Turn.plicSteps {s : State} {m : Machine} (ht : Turn inp s m) (hw : LeavesSeip inp s) :
    PlicSteps s.toMachine m := by
  cases ht with
  | fetchFault hm hh _ =>
    rcases hh with rfl | rfl <;> exact plicSteps_of_same ⟨rfl, rfl⟩
  | cont ins m _ hc =>
    cases hc with
    | fence => exact plicSteps_of_same ⟨rfl, rfl⟩
    | fault hm ecode va hh =>
      rcases hh with rfl | rfl <;> exact plicSteps_of_same ⟨rfl, rfl⟩
  | fall s' ins m _ hf he hsel =>
    have htop : SamePlic s.toMachine (advance (tick inp s.toMachine)) := ⟨rfl, rfl⟩
    have harm := he.plicSteps (hw ins (mem_word?.mpr hf))
    have hend : SamePlic s'.toMachine (refresh s'.toMachine) := ⟨rfl, rfl⟩
    exact (plicSteps_of_same htop).trans
      (harm.trans (plicSteps_of_same (hend.trans (selected_samePlic hsel))))

/-- Every run of the loop that does not write `SEIP` is a sequence of operations on the PLIC. -/
theorem plic_ops_of_run {image : Memory} {time : Word} {is : List Input} {s : State}
    (h : Run (Guarded LeavesSeip Next) (boot image time) is s) :
    PlicSteps (boot image time).toMachine s.toMachine :=
  Run.invariant (P := fun s => PlicSteps (boot image time).toMachine s.toMachine)
    (plicSteps_of_same ⟨rfl, rfl⟩)
    (fun _ _ _ hr hs => hr.trans ((next_turn hs.2).plicSteps hs.1)) h

end RiscvEmu
