import Mathlib.Order.Basic

/-!
# Loops that run until no step applies

A loop body is a partial step: it either makes progress or says that there is none. `exhaust`
repeats it; `size` bounds the number of rounds, and a step that makes `size` smaller is
repeated until it does not apply any more (`step_exhaust`).
-/

namespace Exhaust

variable {σ : Type*} {step : σ → Option σ} {size : σ → Nat} {s t : σ}

def steps (step : σ → Option σ) : Nat → σ → σ
  | 0, s => s
  | n + 1, s =>
    match step s with
    | some t => steps step n t
    | none => s

def Shrinks (step : σ → Option σ) (size : σ → Nat) : Prop :=
  ∀ s t, step s = some t → size t < size s

def exhaust (step : σ → Option σ) (size : σ → Nat) (s : σ) : σ :=
  steps step (size s) s

theorem steps_of_none (h : step s = none) (n : Nat) : steps step n s = s := by
  cases n with
  | zero => rfl
  | succ n => simp [steps, h]

theorem exhaust_of_none (h : step s = none) : exhaust step size s = s :=
  steps_of_none h _

variable {f : σ → σ}

theorem steps_map (h : ∀ s, step (f s) = (step s).map f) (n : Nat) (s : σ) :
    steps step n (f s) = f (steps step n s) := by
  induction n generalizing s with
  | zero => rfl
  | succ n ih =>
    simp only [steps, h]
    cases step s with
    | none => rfl
    | some t => exact ih t

/-- A change of a part of the state that the steps do not read. -/
theorem exhaust_map (h : ∀ s, step (f s) = (step s).map f) (hsize : ∀ s, size (f s) = size s)
    (s : σ) : exhaust step size (f s) = f (exhaust step size s) := by
  rw [exhaust, hsize, steps_map h, exhaust]

section Shrinking

variable (hshrinks : Shrinks step size)

include hshrinks

theorem steps_congr {n m : Nat} (hn : size s ≤ n) (hm : size s ≤ m) :
    steps step n s = steps step m s := by
  induction n generalizing s m with
  | zero =>
    have hstep : step s = none := by
      cases hstep : step s with
      | none => rfl
      | some t => exact absurd (hshrinks s t hstep) (by omega)
    rw [steps_of_none hstep, steps_of_none hstep]
  | succ n ih =>
    cases hstep : step s with
    | none => rw [steps_of_none hstep, steps_of_none hstep]
    | some t =>
      have hlt := hshrinks s t hstep
      obtain ⟨m, rfl⟩ : ∃ k, m = k + 1 := ⟨m - 1, by omega⟩
      simp only [steps, hstep]
      exact ih (by omega) (by omega)

theorem exhaust_of_some (h : step s = some t) : exhaust step size s = exhaust step size t := by
  have hlt := hshrinks s t h
  obtain ⟨k, hk⟩ : ∃ k, size s = k + 1 := ⟨size s - 1, by omega⟩
  simp only [exhaust, hk, steps, h]
  exact steps_congr hshrinks (by omega) (Nat.le_refl _)

/-- A property of the states on the way to the end of the loop, from the last one back. -/
theorem exhaust_induction {motive : σ → Prop} (done : ∀ s, step s = none → motive s)
    (more : ∀ s t, step s = some t → motive t → motive s) (s : σ) : motive s := by
  induction hn : size s using Nat.strongRecOn generalizing s with
  | _ n ih =>
    cases hstep : step s with
    | none => exact done s hstep
    | some t => exact more s t hstep (ih _ (hn ▸ hshrinks s t hstep) t rfl)

theorem step_exhaust (s : σ) : step (exhaust step size s) = none := by
  induction s using exhaust_induction hshrinks with
  | done s h => rw [exhaust_of_none h, h]
  | more s t h ih => rw [exhaust_of_some hshrinks h, ih]

/-- A change after which the loop does not tell `s` from its successor may wait for the end of
the loop. -/
theorem exhaust_comm {change : σ → σ}
    (h : ∀ s t, step s = some t → exhaust step size (change s) = exhaust step size (change t))
    (s : σ) : exhaust step size (change (exhaust step size s)) = exhaust step size (change s) := by
  induction s using exhaust_induction hshrinks with
  | done s hstep => rw [exhaust_of_none hstep]
  | more s t hstep ih => rw [exhaust_of_some hshrinks hstep, ih, h s t hstep]

end Shrinking

end Exhaust
