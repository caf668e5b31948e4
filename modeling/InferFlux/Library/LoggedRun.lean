import Mathlib.Data.List.Induction

/-!
# Runs of a component that logs events

A component is given by a step function: one call changes the state and logs events,
or does not return (`none`). A run makes a list of calls one after the other and
collects the log.
-/

namespace LoggedRun

variable {σ ω ε : Type*} {step : σ → ω → Option (σ × List ε)}

def run (step : σ → ω → Option (σ × List ε)) (s : σ) : List ω → Option (σ × List ε)
  | [] => some (s, [])
  | op :: ops => do
    let (s', e) ← step s op
    let (s'', es) ← run step s' ops
    return (s'', e ++ es)

variable {s t : σ} {ops : List ω} {log : List ε}

theorem run_cons_eq_some {op : ω} :
    run step s (op :: ops) = some (t, log) ↔
      ∃ s' e es, step s op = some (s', e) ∧ run step s' ops = some (t, es) ∧ log = e ++ es := by
  simp only [run, Option.bind_eq_bind, Option.bind_eq_some_iff, Option.pure_def,
    Option.some.injEq, Prod.mk.injEq, Prod.exists]
  constructor
  · rintro ⟨s', e, hs, t', es, hr, rfl, rfl⟩
    exact ⟨s', e, es, hs, hr, rfl⟩
  · rintro ⟨s', e, es, hs, hr, rfl⟩
    exact ⟨s', e, hs, t, es, hr, rfl, rfl⟩

variable {xs ys : List ω}

theorem run_append_eq_some :
    run step s (xs ++ ys) = some (t, log) ↔
      ∃ s' e es, run step s xs = some (s', e) ∧ run step s' ys = some (t, es) ∧ log = e ++ es := by
  induction xs generalizing s log with
  | nil => simp [run]
  | cons x xs ih =>
    simp only [List.cons_append, run_cons_eq_some, ih]
    constructor
    · rintro ⟨s₁, e₁, es, hx, ⟨s₂, e₂, es₂, hxs, hys, rfl⟩, rfl⟩
      exact ⟨s₂, _, es₂, ⟨s₁, e₁, e₂, hx, hxs, rfl⟩, hys, by simp⟩
    · rintro ⟨s₂, e, es, ⟨s₁, e₁, e₂, hx, hxs, rfl⟩, hys, rfl⟩
      exact ⟨s₁, e₁, _, hx, ⟨s₂, e₂, es, hxs, hys, rfl⟩, by simp⟩

theorem run_singleton {op : ω} : run step s [op] = step s op := by
  simp only [run]
  cases h : step s op <;> simp

/-- What holds of the empty run and survives one more call holds of every run. -/
theorem run_induction {P : List ω → σ → List ε → Prop} (nil : P [] s [])
    (concat : ∀ ops t log op t' e, run step s ops = some (t, log) → P ops t log →
      step t op = some (t', e) → P (ops ++ [op]) t' (log ++ e))
    (h : run step s ops = some (t, log)) : P ops t log := by
  induction ops using List.reverseRecOn generalizing t log with
  | nil =>
    cases h
    exact nil
  | append_singleton ops op ih =>
    obtain ⟨t', e, es, hr, hs, rfl⟩ := run_append_eq_some.mp h
    rw [run_singleton] at hs
    exact concat ops t' e op t es hr (ih hr) hs

/-- Every call of the run meets the precondition in the state it is made in. -/
def Along (step : σ → ω → Option (σ × List ε)) (pre : σ → ω → Prop) (s : σ) : List ω → Prop
  | [] => True
  | op :: ops => pre s op ∧ ∀ s' e, step s op = some (s', e) → Along step pre s' ops

variable {pre : σ → ω → Prop}

theorem along_of_forall (h : ∀ op ∈ ops, ∀ s, pre s op) : Along step pre s ops := by
  induction ops generalizing s with
  | nil => trivial
  | cons op ops ih =>
    obtain ⟨hop, hops⟩ := List.forall_mem_cons.mp h
    exact ⟨hop s, fun _ _ _ => ih hops⟩

theorem Along.cons {s' : σ} {op : ω} {e : List ε} (hpre : pre s op)
    (hstep : step s op = some (s', e)) (h : Along step pre s' ops) :
    Along step pre s (op :: ops) := by
  refine ⟨hpre, fun s'' e' hstep' => ?_⟩
  rw [hstep, Option.some.injEq, Prod.mk.injEq] at hstep'
  exact hstep'.1 ▸ h

theorem along_append :
    Along step pre s (xs ++ ys) ↔ Along step pre s xs ∧
      ∀ t log, run step s xs = some (t, log) → Along step pre t ys := by
  induction xs generalizing s with
  | nil => simp [Along, run]
  | cons x xs ih =>
    simp only [List.cons_append, Along, ih, run_cons_eq_some]
    constructor
    · rintro ⟨hx, h⟩
      refine ⟨⟨hx, fun s' e he => (h s' e he).1⟩, ?_⟩
      rintro t log ⟨s', e, es, he, hr, rfl⟩
      exact (h s' e he).2 t es hr
    · rintro ⟨⟨hx, h⟩, hys⟩
      exact ⟨hx, fun s' e he => ⟨h s' e he, fun t es hr => hys t _ ⟨s', e, es, he, hr, rfl⟩⟩⟩

theorem Along.and_forall {Q : ω → Prop} (h : Along step pre s ops) (hQ : ∀ op ∈ ops, Q op) :
    Along step (fun s op => pre s op ∧ Q op) s ops := by
  induction ops generalizing s with
  | nil => trivial
  | cons op ops ih =>
    obtain ⟨hop, hops⟩ := List.forall_mem_cons.mp hQ
    exact ⟨⟨h.1, hop⟩, fun s' e hstep => ih (h.2 s' e hstep) hops⟩

def Always (step : σ → ω → Option (σ × List ε)) (P : σ → List ε → Prop) (s : σ)
    (ops : List ω) : Prop :=
  ∀ done rest t log, ops = done ++ rest → run step s done = some (t, log) → P t log

variable {P : σ → List ε → Prop}

theorem Always.of_append (h : Always step P s (xs ++ ys)) : Always step P s xs := by
  rintro done rest t log rfl hrun
  exact h done (rest ++ ys) t log (List.append_assoc ..) hrun

variable {Inv : σ → List ε → Prop}

theorem Along.invariant_log (hinit : Inv s [])
    (hkeep : ∀ t log op t' e, Inv t log → pre t op → step t op = some (t', e) → Inv t' (log ++ e))
    (h : Along step pre s ops) (hrun : run step s ops = some (t, log)) : Inv t log := by
  revert h
  refine run_induction (P := fun ops t log => Along step pre s ops → Inv t log) (fun _ => hinit) ?_
    hrun
  intro ops t log op t' e hops ih hstep halong
  obtain ⟨halong, hlast⟩ := along_append.mp halong
  exact hkeep t log op t' e (ih halong) (hlast t log hops).1 hstep

/-- The invariant rule for runs whose calls meet a precondition. -/
theorem Along.invariant {Inv : σ → Prop}
    (hstep : ∀ s op s' e, Inv s → pre s op → step s op = some (s', e) → Inv s')
    (h : Along step pre s ops) (hs : Inv s) (hrun : run step s ops = some (t, log)) : Inv t :=
  Along.invariant_log hs (fun t _ op t' e => hstep t op t' e) h hrun

/-- A property holds throughout a run exactly if the calls meet the precondition, given an
invariant that such calls keep, that implies the property, and from which every other call
breaks it. -/
theorem always_iff_along (hinit : Inv s []) (hP : ∀ t log, Inv t log → P t log)
    (hkeep : ∀ t log op t' e, Inv t log → pre t op → step t op = some (t', e) → Inv t' (log ++ e))
    (hbreak : ∀ t log op t' e, Inv t log → ¬ pre t op → step t op = some (t', e) →
      ¬ P t' (log ++ e))
    (hrun : run step s ops = some (t, log)) : Always step P s ops ↔ Along step pre s ops := by
  constructor
  · refine run_induction (P := fun ops _ _ => Always step P s ops → Along step pre s ops) ?_ ?_ hrun
    · exact fun _ => trivial
    · intro ops t log op t' e hops ih hstep halways
      have halong := ih halways.of_append
      have hinv := halong.invariant_log hinit hkeep hops
      refine along_append.mpr ⟨halong, fun t₁ log₁ hrun₁ => ?_⟩
      obtain ⟨rfl, rfl⟩ := Prod.mk.inj (Option.some.inj (hops.symm.trans hrun₁))
      refine ⟨?_, fun _ _ _ => trivial⟩
      by_contra hpre
      refine hbreak t log op t' e hinv hpre hstep (halways _ [] t' _ (List.append_nil _).symm ?_)
      exact run_append_eq_some.mpr ⟨t, log, e, hops, run_singleton.trans hstep, rfl⟩
  · rintro halong done rest t log rfl hdone
    exact hP t log ((along_append.mp halong).1.invariant_log hinit hkeep hdone)

end LoggedRun
