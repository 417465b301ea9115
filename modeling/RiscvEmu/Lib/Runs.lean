import Mathlib.Data.List.Basic

/-! Finite runs of a machine that takes one input at every step. -/

namespace Runs

variable {ι σ : Type*}

/-- A run from `s`, with its inputs listed latest first. -/
inductive Run (step : ι → σ → σ → Prop) (s : σ) : List ι → σ → Prop
  | start : Run step s [] s
  | next {is : List ι} {i : ι} {t u : σ} (h : Run step s is t) (hs : step i t u) :
      Run step s (i :: is) u

namespace Run

variable {step step' : ι → σ → σ → Prop} {s t : σ} {is : List ι}

theorem invariant {P : σ → Prop} (h0 : P s) (hstep : ∀ i t u, P t → step i t u → P u)
    (h : Run step s is t) : P t := by
  induction h with
  | start => exact h0
  | next _ hs ih => exact hstep _ _ _ ih hs

theorem mono (hsub : ∀ i t u, step i t u → step' i t u) (h : Run step s is t) :
    Run step' s is t := by
  induction h with
  | start => exact .start
  | next _ hs ih => exact .next ih (hsub _ _ _ hs)

theorem append {js : List ι} {u : σ} (h : Run step s is t) (h' : Run step t js u) :
    Run step s (js ++ is) u := by
  induction h' with
  | start => exact h
  | next _ hs ih => exact .next ih hs

end Run

def Guarded (guard : ι → σ → Prop) (step : ι → σ → σ → Prop) (i : ι) (s t : σ) : Prop :=
  guard i s ∧ step i s t

def drive (next : ι → σ → Option σ) : List ι → σ → Option σ
  | [], s => some s
  | i :: is, s => (next i s).bind (drive next is)

theorem run_of_drive {next : ι → σ → Option σ} {s t : σ} {is : List ι}
    (h : drive next is s = some t) : Run (fun i a b => next i a = some b) s is.reverse t := by
  induction is generalizing s with
  | nil =>
    cases h
    exact .start
  | cons i is ih =>
    obtain ⟨u, hu, h⟩ := Option.bind_eq_some_iff.mp h
    rw [List.reverse_cons]
    exact Run.append (.next .start hu) (ih h)

theorem exists_run_of_drive {next : ι → σ → Option σ} {s : σ} {is : List ι} {p : σ → Bool}
    (h : (drive next is s).any p = true) :
    ∃ t, Run (fun i a b => next i a = some b) s is.reverse t ∧ p t = true := by
  obtain ⟨t, ht, hp⟩ := (Option.any_eq_true _ _).mp h
  exact ⟨t, run_of_drive ht, hp⟩

end Runs
