/-!
# Exceptions of stateful programs

A program with state and exceptions, of type `ExceptT ε (StateM σ) α`, keeps the state it has
reached when it raises. `Raises P m` says that every exception of `m` satisfies `P`, whatever
the state it starts from; it follows the structure of the program.
-/

namespace Raises

variable {ε σ α β : Type}

def result (m : ExceptT ε (StateM σ) α) (s : σ) : Except ε α × σ := m.run.run s

@[simp]
theorem result_pure (a : α) (s : σ) : result (pure a : ExceptT ε (StateM σ) α) s = (.ok a, s) := rfl

@[simp]
theorem result_modify (f : σ → σ) (s : σ) :
    result (modify f : ExceptT ε (StateM σ) PUnit) s = (.ok ⟨⟩, f s) := rfl

@[simp]
theorem result_throw (e : ε) (s : σ) :
    result (throw e : ExceptT ε (StateM σ) α) s = (.error e, s) := rfl

theorem result_bind (m : ExceptT ε (StateM σ) α) (f : α → ExceptT ε (StateM σ) β) (s : σ) :
    result (m >>= f) s = match result m s with
      | (.ok a, s') => result (f a) s'
      | (.error e, s') => (.error e, s') := by
  change (ExceptT.bindCont f (result m s).1 : StateM σ _) (result m s).2 = _
  obtain ⟨r, s'⟩ := result m s
  cases r <;> rfl

end Raises

/-- Every exception of the program satisfies `P`. -/
def Raises {ε σ α : Type} (P : ε → Prop) (m : ExceptT ε (StateM σ) α) : Prop :=
  ∀ s e, (Raises.result m s).1 = .error e → P e

namespace Raises

variable {ε σ α β : Type} {P : ε → Prop}

theorem of_pure (a : α) : Raises P (pure a : ExceptT ε (StateM σ) α) := by
  intro s e h
  simp at h

theorem of_modify (f : σ → σ) : Raises P (modify f : ExceptT ε (StateM σ) PUnit) := by
  intro s e h
  simp at h

theorem of_throw {e : ε} (he : P e) : Raises P (throw e : ExceptT ε (StateM σ) α) := by
  intro s e' h
  obtain rfl : e = e' := by simpa using h
  exact he

theorem bind {m : ExceptT ε (StateM σ) α} {f : α → ExceptT ε (StateM σ) β} (hm : Raises P m)
    (hf : ∀ a, Raises P (f a)) : Raises P (m >>= f) := by
  intro s e h
  rw [result_bind] at h
  cases hres : result m s with
  | mk r s' =>
    rw [hres] at h
    cases r with
    | ok a => exact hf a s' e h
    | error e' =>
      obtain rfl : e' = e := by simpa using h
      exact hm s e' (by rw [hres])

theorem of_forM {xs : List α} {f : α → ExceptT ε (StateM σ) PUnit}
    (hf : ∀ a ∈ xs, Raises P (f a)) : Raises P (forM xs f) := by
  induction xs with
  | nil => exact of_pure _
  | cons x xs ih =>
    exact bind (hf x (by simp)) fun _ => ih fun a ha => hf a (by simp [ha])

end Raises
