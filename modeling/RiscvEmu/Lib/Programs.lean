import Mathlib.Order.Basic

/-! Programs over a state that may fail and that may loop. A loop gets fuel; a program carries the
proof that more fuel does not change how it ends, so that its ends do not depend on the fuel. -/

namespace Programs

universe u v w

variable {ε : Type u} {σ : Type v} {α β γ : Type w}

/-- What a program comes to with a given fuel: `hang` where a loop has used it up. -/
inductive Outcome (ε : Type u) (σ : Type v) (α : Type w)
  | hang
  | fail (e : ε) (s : σ)
  | ret (a : α) (s : σ)

namespace Outcome

def bind (o : Outcome ε σ α) (f : α → σ → Outcome ε σ β) : Outcome ε σ β :=
  match o with
  | .hang => .hang
  | .fail e s => .fail e s
  | .ret a s => f a s

def Below (o p : Outcome ε σ α) : Prop := o = .hang ∨ o = p

theorem Below.refl (o : Outcome ε σ α) : Below o o := .inr rfl

theorem Below.ret {o : Outcome ε σ α} {a : α} {s : σ} (h : Below (.ret a s) o) :
    o = .ret a s := by
  obtain h | h := h
  · cases h
  · exact h.symm

theorem Below.fail {o : Outcome ε σ α} {e : ε} {s : σ} (h : Below (.fail e s) o) :
    o = .fail e s := by
  obtain h | h := h
  · cases h
  · exact h.symm

theorem Below.bind {o p : Outcome ε σ α} {f g : α → σ → Outcome ε σ β} (h : Below o p)
    (hfg : ∀ a s, Below (f a s) (g a s)) : Below (o.bind f) (p.bind g) := by
  obtain rfl | rfl := h
  · exact .inl rfl
  · cases o with
    | hang => exact .inl rfl
    | fail e s => exact .inr rfl
    | ret a s => exact hfg a s

end Outcome

/-- A program whose ends do not depend on the fuel. -/
structure Prog (ε : Type u) (σ : Type v) (α : Type w) where
  run : ℕ → σ → Outcome ε σ α
  mono : ∀ {n k : ℕ} (s : σ), n ≤ k → (run n s).Below (run k s)

namespace Prog

def ret (a : α) : Prog ε σ α where
  run _ s := .ret a s
  mono _ _ := .inr rfl

def andThen (p : Prog ε σ α) (f : α → Prog ε σ β) : Prog ε σ β where
  run n s := (p.run n s).bind fun a t => (f a).run n t
  mono s h := (p.mono s h).bind fun a t => (f a).mono t h

instance : Monad (Prog ε σ) where
  pure := ret
  bind := andThen

def step (f : σ → Except ε (α × σ)) : Prog ε σ α where
  run _ s :=
    match f s with
    | .error e => .fail e s
    | .ok (a, t) => .ret a t
  mono _ _ := .inr rfl

def fail (e : ε) : Prog ε σ α := step fun _ => .error e

def reads (f : σ → α) : Prog ε σ α := step fun s => .ok (f s, s)

def modify (f : σ → σ) : Prog ε σ PUnit := step fun s => .ok (⟨⟩, f s)

/-- At most so many rounds of a loop, each with the fuel `n` for the loops inside of it. -/
def rounds (body : β → Prog ε σ (β ⊕ α)) (n : ℕ) : ℕ → β → σ → Outcome ε σ α
  | 0, _, _ => .hang
  | k + 1, b, s => ((body b).run n s).bind fun r t =>
      match r with
      | .inl b => rounds body n k b t
      | .inr a => .ret a t

theorem rounds_below (body : β → Prog ε σ (β ⊕ α)) {n n' k k' : ℕ} (hn : n ≤ n') (hk : k ≤ k')
    (b : β) (s : σ) : (rounds body n k b s).Below (rounds body n' k' b s) := by
  induction k generalizing k' b s with
  | zero => exact .inl rfl
  | succ k ih =>
    obtain ⟨k', rfl⟩ := Nat.exists_eq_add_of_le' (Nat.le_trans (Nat.succ_le_succ k.zero_le) hk)
    refine ((body b).mono s hn).bind fun r t => ?_
    cases r with
    | inl b => exact ih (Nat.le_of_succ_le_succ hk) b t
    | inr a => exact .refl _

/-- Rounds that start from `b`, until one of them gives the result. -/
def loop (body : β → Prog ε σ (β ⊕ α)) (b : β) : Prog ε σ α where
  run n s := rounds body n n b s
  mono s h := rounds_below body h h b s

def Returns (p : Prog ε σ α) (s : σ) (a : α) (t : σ) : Prop := ∃ n, p.run n s = .ret a t

def Fails (p : Prog ε σ α) (s : σ) : Prop := ∃ n e t, p.run n s = .fail e t

def Diverges (p : Prog ε σ α) (s : σ) : Prop := ∀ n, p.run n s = .hang

/-! ### The rules -/

variable {p : Prog ε σ α} {f : α → Prog ε σ β} {s t u : σ} {a a' : α} {b b' : β}

theorem run_of_le {n k : ℕ} (h : p.run n s = .ret a t) (hk : n ≤ k) : p.run k s = .ret a t :=
  (h ▸ p.mono s hk).ret

theorem Returns.unique {t' : σ} (h : p.Returns s a t) (h' : p.Returns s a' t') :
    a = a' ∧ t = t' := by
  obtain ⟨n, hn⟩ := h
  obtain ⟨k, hk⟩ := h'
  have hn := run_of_le hn (Nat.le_max_left n k)
  have hk := run_of_le hk (Nat.le_max_right n k)
  injection hn.symm.trans hk with h h'
  exact ⟨h, h'⟩

theorem Returns.not_diverges (h : p.Returns s a t) : ¬ p.Diverges s := by
  obtain ⟨n, hn⟩ := h
  intro hd
  cases hn.symm.trans (hd n)

theorem Returns.not_fails (h : p.Returns s a t) : ¬ p.Fails s := by
  obtain ⟨n, hn⟩ := h
  rintro ⟨k, e, u, hk⟩
  have hn := run_of_le hn (Nat.le_max_left n k)
  have hbelow := p.mono s (Nat.le_max_right n k)
  rw [hk] at hbelow
  cases hn.symm.trans hbelow.fail

theorem returns_pure : (pure a : Prog ε σ α).Returns s a' t ↔ a' = a ∧ t = s := by
  constructor
  · rintro ⟨n, h⟩
    cases h
    exact ⟨rfl, rfl⟩
  · rintro ⟨rfl, rfl⟩
    exact ⟨0, rfl⟩

theorem returns_step {g : σ → Except ε (α × σ)} :
    (step g).Returns s a t ↔ g s = .ok (a, t) := by
  constructor
  · rintro ⟨n, h⟩
    dsimp only [step] at h
    split at h
    · cases h
    · rename_i hg
      cases h
      exact hg
  · intro h
    refine ⟨0, ?_⟩
    dsimp only [step]
    rw [h]

theorem not_returns_fail {e : ε} : ¬ (fail e : Prog ε σ α).Returns s a t := by
  intro h
  cases returns_step.mp h

theorem returns_reads {g : σ → α} :
    (reads g : Prog ε σ α).Returns s a t ↔ a = g s ∧ t = s := by
  rw [reads, returns_step]
  constructor
  · intro h
    cases h
    exact ⟨rfl, rfl⟩
  · rintro ⟨rfl, rfl⟩
    rfl

theorem returns_modify {g : σ → σ} {a : PUnit} :
    (modify g : Prog ε σ PUnit).Returns s a t ↔ t = g s := by
  rw [modify, returns_step]
  constructor
  · intro h
    cases h
    rfl
  · rintro rfl
    rfl

theorem run_bind (n : ℕ) :
    (p >>= f).run n s = (p.run n s).bind fun a t => (f a).run n t := rfl

theorem Returns.bind (h : p.Returns s a t) (h' : (f a).Returns t b u) :
    (p >>= f).Returns s b u := by
  obtain ⟨n, hn⟩ := h
  obtain ⟨k, hk⟩ := h'
  refine ⟨max n k, ?_⟩
  rw [run_bind, run_of_le hn (Nat.le_max_left n k)]
  exact run_of_le hk (Nat.le_max_right n k)

theorem returns_bind :
    (p >>= f).Returns s b u ↔ ∃ a t, p.Returns s a t ∧ (f a).Returns t b u := by
  constructor
  · rintro ⟨n, h⟩
    rw [run_bind] at h
    cases hp : p.run n s with
    | hang =>
      rw [hp] at h
      cases h
    | fail e t =>
      rw [hp] at h
      cases h
    | ret a t =>
      rw [hp] at h
      exact ⟨a, t, ⟨n, hp⟩, n, h⟩
  · rintro ⟨a, t, h, h'⟩
    exact h.bind h'

theorem fails_bind :
    (p >>= f).Fails s ↔ p.Fails s ∨ ∃ a t, p.Returns s a t ∧ (f a).Fails t := by
  constructor
  · rintro ⟨n, e, u, h⟩
    rw [run_bind] at h
    cases hp : p.run n s with
    | hang =>
      rw [hp] at h
      cases h
    | fail e t => exact .inl ⟨n, e, t, hp⟩
    | ret a t =>
      rw [hp] at h
      exact .inr ⟨a, t, ⟨n, hp⟩, n, e, u, h⟩
  · rintro (⟨n, e, u, h⟩ | ⟨a, t, ⟨n, hn⟩, k, e, u, hk⟩)
    · exact ⟨n, e, u, by rw [run_bind, h]; rfl⟩
    · have hbelow := (f a).mono t (Nat.le_max_right n k)
      rw [hk] at hbelow
      refine ⟨max n k, e, u, ?_⟩
      rw [run_bind, run_of_le hn (Nat.le_max_left n k)]
      exact hbelow.fail

theorem not_fails_pure (a : α) (s : σ) : ¬ (pure a : Prog ε σ α).Fails s :=
  (returns_pure.mpr ⟨rfl, rfl⟩).not_fails

theorem not_fails_modify (g : σ → σ) (s : σ) : ¬ (modify g : Prog ε σ PUnit).Fails s :=
  Returns.not_fails (a := ⟨⟩) (returns_modify.mpr rfl)

theorem fails_modify_bind {g : σ → σ} {f : PUnit → Prog ε σ β} :
    (modify g >>= f).Fails s ↔ (f ⟨⟩).Fails (g s) := by
  rw [fails_bind, or_iff_right (not_fails_modify g s)]
  constructor
  · rintro ⟨a, t, h, hf⟩
    obtain rfl := returns_modify.mp h
    exact hf
  · exact fun h => ⟨⟨⟩, g s, returns_modify.mpr rfl, h⟩

theorem fails_reads_bind {g : σ → α} : (reads g >>= f).Fails s ↔ (f (g s)).Fails s := by
  have hreads : (reads g : Prog ε σ α).Returns s (g s) s := returns_reads.mpr ⟨rfl, rfl⟩
  rw [fails_bind, or_iff_right hreads.not_fails]
  constructor
  · rintro ⟨a, t, h, hf⟩
    obtain ⟨rfl, rfl⟩ := returns_reads.mp h
    exact hf
  · exact fun h => ⟨g s, s, hreads, h⟩

theorem Diverges.bind (h : p.Diverges s) : (p >>= f).Diverges s := by
  intro n
  rw [run_bind, h n]
  rfl

theorem Returns.diverges_bind (h : p.Returns s a t) (h' : (f a).Diverges t) :
    (p >>= f).Diverges s := by
  obtain ⟨k, hk⟩ := h
  intro n
  have hbelow := p.mono s (Nat.le_max_left n k)
  rw [run_of_le hk (Nat.le_max_right n k)] at hbelow
  rw [run_bind]
  obtain hh | hr := hbelow
  · rw [hh]
    rfl
  · rw [hr]
    exact h' n

section Loops

variable {body : β → Prog ε σ (β ⊕ α)}

theorem rounds_succ (n k : ℕ) (b : β) (s : σ) :
    rounds body n (k + 1) b s = ((body b).run n s).bind fun r t =>
      match r with
      | .inl b => rounds body n k b t
      | .inr a => .ret a t := rfl

theorem Returns.loop_done (h : (body b).Returns s (.inr a) t) : (loop body b).Returns s a t := by
  obtain ⟨n, hn⟩ := h
  refine ⟨n + 1, ?_⟩
  show rounds body (n + 1) (n + 1) b s = _
  rw [rounds_succ, run_of_le hn n.le_succ]
  rfl

theorem Returns.loop_next (h : (body b).Returns s (.inl b') t) (h' : (loop body b').Returns t a u) :
    (loop body b).Returns s a u := by
  obtain ⟨n, hn⟩ := h
  obtain ⟨k, hk⟩ := h'
  refine ⟨max n k + 1, ?_⟩
  show rounds body (max n k + 1) (max n k + 1) b s = _
  rw [rounds_succ, run_of_le hn (Nat.le_succ_of_le (Nat.le_max_left n k))]
  have hle : k ≤ max n k := Nat.le_max_right n k
  have hk : rounds body k k b' t = .ret a u := hk
  have hbelow := rounds_below body (Nat.le_succ_of_le hle) hle b' t
  rw [hk] at hbelow
  exact hbelow.ret

/-- A loop that ends has gone through finitely many rounds. -/
theorem Returns.loop_induction {P : β → σ → Prop} (h : (loop body b).Returns s a u)
    (hdone : ∀ b s t, (body b).Returns s (.inr a) t → t = u → P b s)
    (hnext : ∀ b s b' t, (body b).Returns s (.inl b') t → (loop body b').Returns t a u →
      P b' t → P b s) : P b s := by
  obtain ⟨n, hn⟩ := h
  -- the induction is on the number of rounds that the fuel allows
  have key : ∀ k b s, k ≤ n → rounds body n k b s = .ret a u → P b s := by
    intro k
    induction k with
    | zero =>
      intro b s _ h
      cases h
    | succ k ih =>
      intro b s hk h
      rw [rounds_succ] at h
      cases hb : (body b).run n s with
      | hang =>
        rw [hb] at h
        cases h
      | fail e t =>
        rw [hb] at h
        cases h
      | ret r t =>
        rw [hb] at h
        cases r with
        | inl b' =>
          have hrest : rounds body n k b' t = .ret a u := h
          have hloop := rounds_below body (Nat.le_refl n) (Nat.le_of_succ_le hk) b' t
          rw [hrest] at hloop
          exact hnext b s b' t ⟨n, hb⟩ ⟨n, hloop.ret⟩ (ih b' t (Nat.le_of_succ_le hk) hrest)
        | inr a' =>
          cases h
          exact hdone b s u ⟨n, hb⟩ rfl
  exact key n b s (Nat.le_refl n) hn

/-- A loop whose rounds keep an invariant and never give a result does not end. -/
theorem loop_diverges {I : β → σ → Prop} (h : I b s)
    (hnext : ∀ b s, I b s → ∃ b' t, (body b).Returns s (.inl b') t ∧ I b' t) :
    (loop body b).Diverges s := by
  intro n
  have key : ∀ k b s, I b s → rounds body n k b s = .hang := by
    intro k
    induction k with
    | zero => exact fun _ _ _ => rfl
    | succ k ih =>
      intro b s hI
      obtain ⟨b', t, ⟨j, hj⟩, hI'⟩ := hnext b s hI
      have hcases := (body b).mono s (Nat.le_max_left n j)
      rw [run_of_le hj (Nat.le_max_right n j)] at hcases
      rw [rounds_succ]
      obtain hh | hr := hcases
      · rw [hh]
        rfl
      · rw [hr]
        exact ih b' t hI'
  exact key n b s h

theorem Diverges.loop (h : (body b).Diverges s) : (Prog.loop body b).Diverges s := by
  intro n
  show rounds body n n b s = _
  cases n with
  | zero => rfl
  | succ n =>
    rw [rounds_succ, h (n + 1)]
    rfl

end Loops

/-! ### Relations between the states before and after -/

def Within (R : σ → σ → Prop) (p : Prog ε σ α) : Prop := ∀ s a t, p.Returns s a t → R s t

namespace Within

variable {R : σ → σ → Prop}

theorem step {g : σ → Except ε (α × σ)} (h : ∀ s a t, g s = .ok (a, t) → R s t) :
    Within R (Prog.step g) := fun s a t hr => h s a t (returns_step.mp hr)

theorem modify {g : σ → σ} (h : ∀ s, R s (g s)) : Within R (Prog.modify g : Prog ε σ PUnit) := by
  intro s a t hr
  obtain rfl := returns_modify.mp hr
  exact h s

theorem ite {c : Prop} [Decidable c] {p q : Prog ε σ α} (hp : c → Within R p)
    (hq : ¬ c → Within R q) : Within R (if c then p else q) := by
  split
  · rename_i h
    exact hp h
  · rename_i h
    exact hq h

theorem pure (hrefl : ∀ s, R s s) (a : α) : Within R (Pure.pure a : Prog ε σ α) := by
  intro s a' t h
  obtain ⟨-, rfl⟩ := returns_pure.mp h
  exact hrefl t

theorem reads (hrefl : ∀ s, R s s) (g : σ → α) : Within R (Prog.reads g : Prog ε σ α) := by
  intro s a t h
  obtain ⟨-, rfl⟩ := returns_reads.mp h
  exact hrefl t

theorem fail (e : ε) : Within R (Prog.fail e : Prog ε σ α) :=
  fun _ _ _ h => absurd h not_returns_fail

section

variable (htrans : ∀ {s t u}, R s t → R t u → R s u)
include htrans

theorem bind (hp : Within R p) (hf : ∀ a, Within R (f a)) : Within R (p >>= f) := by
  intro s b u h
  obtain ⟨a, t, h, h'⟩ := returns_bind.mp h
  exact htrans (hp s a t h) (hf a t b u h')

theorem loop {body : β → Prog ε σ (β ⊕ α)} (h : ∀ b, Within R (body b)) (b : β) :
    Within R (Prog.loop body b) := by
  intro s a u hr
  refine hr.loop_induction (P := fun _ s => R s u) ?_ ?_
  · rintro b s t hb rfl
    exact h b s _ t hb
  · exact fun b s b' t hb _ hP => htrans (h b s _ t hb) hP

end

end Within

end Prog

end Programs
