import InferFlux.Library.LoggedRun
import InferFlux.Scheduler.SequenceSlots

/-!
# What `ReleaseLease` reports

`ReleaseLease` from `runtime/scheduler/sequence_slot_manager.cpp` takes the mutex twice: once to
retire the lease, and once to reap the slots that are due. It reports whether the second section
reaped any slot, so a thread that reaps between the two takes the report away.
-/

namespace InferFlux.Scheduler

open LoggedRun SequenceSlotManager Option

/-- The calls of `ReleaseLease` between their two sections, each with whether its lease was live
in the first. -/
structure LeaseThreads where
  slots : SequenceSlotManager
  clock : Nat := 0
  releasing : List (SequenceLease × Bool) := []

inductive LeaseOp where
  | tick (n : Nat)
  | acquireLease (requestId sequenceCapacity : Int)
  | reapRetiredSlots
  /-- The first section of a call. Its fence was read from the clock before the mutex was taken. -/
  | retire (lease : SequenceLease) (age : Nat)
  /-- The second section. -/
  | reap (k : Nat)
  deriving DecidableEq, Repr

structure ReleaseReport where
  lease : SequenceLease
  live : Bool
  released : Bool
  deriving DecidableEq, Repr

def SequenceSlotManager.live (lease : SequenceLease) (m : SequenceSlotManager) : Bool :=
  (m.lockAndValidateLease lease [.prefilling, .decoding, .completed]).isSome

namespace LeaseThreads

def start (slots : SequenceSlotManager) : LeaseThreads := { slots }

/-- One critical section, or time that passes; it logs what the calls of `ReleaseLease` return. -/
def step (s : LeaseThreads) : LeaseOp → Option (LeaseThreads × List ReleaseReport)
  | .tick n => some ({ s with clock := s.clock + n }, [])
  | .acquireLease requestId capacity =>
    some ({ s with slots := (s.slots.acquireLease s.clock requestId capacity).2 }, [])
  | .reapRetiredSlots => some ({ s with slots := (s.slots.reapRetiredSlots s.clock).2 }, [])
  | .retire lease age =>
    match s.slots.retireLease s.clock lease (some (s.clock - age)) with
    | (false, slots) => some ({ s with slots }, [⟨lease, s.slots.live lease, false⟩])
    | (true, slots) =>
      some ({ s with slots, releasing := s.releasing ++ [(lease, s.slots.live lease)] }, [])
  | .reap k =>
    s.releasing[k]?.map fun call =>
      ({ s with
        slots := (s.slots.reapRetiredSlots s.clock).2
        releasing := s.releasing.eraseIdx k },
        [⟨call.1, call.2, 0 < (s.slots.reapRetiredSlots s.clock).1⟩])

/-- Some slot is retired and its fence is ready. -/
def Due (s : LeaseThreads) : Prop := ∃ slot ∈ s.slots.slots, reapable s.clock slot = true

/-- A call that takes the mutex for the second time finds a slot that is due. -/
def FindsDue (s : LeaseThreads) : LeaseOp → Prop
  | .reap _ => s.Due
  | _ => True

/-- No thread reaps while another one is between its sections. -/
def Undisturbed (s : LeaseThreads) : LeaseOp → Prop
  | .acquireLease _ _ | .reapRetiredSlots => s.releasing = []
  | .reap _ => s.releasing.length ≤ 1
  | _ => True

variable {s s' : LeaseThreads} {op : LeaseOp} {e log : List ReleaseReport}

theorem retireLease_fst (now : Nat) (lease : SequenceLease) (readyAt : Option Nat)
    (m : SequenceSlotManager) : (m.retireLease now lease readyAt).1 = m.live lease := by
  unfold retireLease transition live
  cases m.lockAndValidateLease lease [.prefilling, .decoding, .completed] <;> rfl

theorem reaps_iff_due :
    decide (0 < (s.slots.reapRetiredSlots s.clock).1) = true ↔ s.Due := by
  rw [decide_eq_true_eq]
  exact List.countP_pos_iff

/-- The reports so far are right, and the calls under way have retired a live lease. -/
structure Right (s : LeaseThreads) (log : List ReleaseReport) : Prop where
  reports : ∀ report ∈ log, report.released = report.live
  releasing : ∀ call ∈ s.releasing, call.2 = true

theorem Right.step (h : s.Right log) (hdue : s.FindsDue op) (hstep : s.step op = some (s', e)) :
    s'.Right (log ++ e) := by
  cases op with
  | retire lease age =>
    have hlive := retireLease_fst s.clock lease (some (s.clock - age)) s.slots
    rcases hretire : s.slots.retireLease s.clock lease (some (s.clock - age)) with ⟨_ | _, slots⟩
    all_goals
      simp only [LeaseThreads.step, hretire, ← hlive, some.injEq, Prod.mk.injEq] at hstep
      obtain ⟨rfl, rfl⟩ := hstep
    · exact ⟨by simpa [or_imp, forall_and] using h.reports, h.releasing⟩
    · exact ⟨by simpa using h.reports, by simpa [or_imp, forall_and] using h.releasing⟩
  | reap k =>
    obtain ⟨call, hcall, heq⟩ := map_eq_some_iff.mp hstep
    obtain ⟨rfl, rfl⟩ := Prod.mk.inj heq
    have hlive := h.releasing call (List.mem_of_getElem? hcall)
    refine ⟨?_, fun call hmem => h.releasing call (List.mem_of_mem_eraseIdx hmem)⟩
    simpa [hlive, reaps_iff_due.mpr hdue, or_imp, forall_and] using h.reports
  | _ =>
    cases hstep
    exact ⟨by simpa using h.reports, h.releasing⟩

/-- A call that finds no slot due reports a live lease as stale. -/
theorem Right.breaks (h : s.Right log) (hdue : ¬ s.FindsDue op)
    (hstep : s.step op = some (s', e)) :
    ¬ ∀ report ∈ log ++ e, report.released = report.live := by
  cases op with
  | reap k =>
    obtain ⟨call, hcall, heq⟩ := map_eq_some_iff.mp hstep
    obtain ⟨rfl, rfl⟩ := Prod.mk.inj heq
    intro hall
    have hreport := hall _ (List.mem_append_right log List.mem_cons_self)
    rw [h.releasing call (List.mem_of_getElem? hcall)] at hreport
    exact hdue (reaps_iff_due.mp hreport)
  | _ => exact absurd trivial hdue

theorem due_step (h : s.releasing ≠ [] → s.Due) (hop : s.Undisturbed op)
    (hstep : s.step op = some (s', e)) : s'.releasing ≠ [] → s'.Due := by
  cases op with
  | tick n =>
    cases hstep
    intro hne
    obtain ⟨slot, hslot, hready⟩ := h hne
    refine ⟨slot, hslot, ?_⟩
    simp only [reapable, Bool.and_eq_true, any_eq_true, decide_eq_true_eq] at hready ⊢
    obtain ⟨hstate, t, ht, hle⟩ := hready
    exact ⟨hstate, t, ht, Nat.le_add_right_of_le hle⟩
  | acquireLease _ _ | reapRetiredSlots =>
    cases hstep
    exact absurd hop
  | retire lease age =>
    rcases transition_cases lease [.prefilling, .decoding, .completed]
      (retireSlot s.clock (some (s.clock - age))) s.slots with hno | ⟨i, slot, -, hslot, -, -, hyes⟩
    · simp only [LeaseThreads.step, retireLease, hno, some.injEq, Prod.mk.injEq] at hstep
      obtain ⟨rfl, -⟩ := hstep
      exact h
    · simp only [LeaseThreads.step, retireLease, hyes, some.injEq, Prod.mk.injEq] at hstep
      obtain ⟨rfl, -⟩ := hstep
      intro _
      refine ⟨retireSlot s.clock (some (s.clock - age)) slot, List.mem_of_getElem? (i := i) ?_, ?_⟩
      · simp [hslot]
      · simp [reapable, retireSlot]
  | reap k =>
    obtain ⟨call, hcall, heq⟩ := map_eq_some_iff.mp hstep
    obtain ⟨rfl, -⟩ := Prod.mk.inj heq
    have hlt := (List.getElem?_eq_some_iff.mp hcall).1
    have hnone : (s.releasing.eraseIdx k).length = 0 := by
      rw [List.length_eraseIdx_of_lt hlt]
      exact Nat.sub_eq_zero_of_le hop
    exact absurd (List.length_eq_zero_iff.mp hnone)

theorem findsDue_of_undisturbed {ops : List LeaseOp} (h : s.releasing ≠ [] → s.Due)
    (hops : Along step Undisturbed s ops) (hrun : ∃ last, run step s ops = some last) :
    Along step FindsDue s ops := by
  induction ops generalizing s with
  | nil => trivial
  | cons op ops ih =>
    obtain ⟨⟨last, log⟩, hrun⟩ := hrun
    obtain ⟨s', e, es, hstep, hrest, -⟩ := run_cons_eq_some.mp hrun
    refine Along.cons ?_ hstep (ih (due_step h hops.1 hstep) (hops.2 s' e hstep) ⟨_, hrest⟩)
    cases op with
    | reap k =>
      obtain ⟨call, hcall, -⟩ := map_eq_some_iff.mp hstep
      exact h (List.ne_nil_of_mem (List.mem_of_getElem? hcall))
    | _ => trivial

/-- The calls of `ReleaseLease` report throughout a run whether their lease was live exactly if
each finds a slot that is due, and so they do if no thread reaps while another one is between its
sections. -/
theorem releaseLease_reports (slots : SequenceSlotManager) (ops : List LeaseOp) (s : LeaseThreads)
    (log : List ReleaseReport) (hrun : run step (start slots) ops = some (s, log)) :
    (Always step (fun _ log => ∀ report ∈ log, report.released = report.live) (start slots) ops ↔
        Along step FindsDue (start slots) ops) ∧
      (Along step Undisturbed (start slots) ops → Along step FindsDue (start slots) ops) := by
  have hnone : (start slots).releasing = [] := rfl
  have hstart : (start slots).Right [] := ⟨by simp, by simp [hnone]⟩
  constructor
  · exact always_iff_along hstart (fun _ _ h => h.reports)
      (fun _ _ _ _ _ h hdue hstep => h.step hdue hstep)
      (fun _ _ _ _ _ h hdue hstep => h.breaks hdue hstep) hrun
  · exact fun hops => findsDue_of_undisturbed (absurd hnone) hops ⟨_, hrun⟩

/-- A lease is acquired and released. -/
theorem releaseLease_reports_alone :
    let ops : List LeaseOp := [.acquireLease 7 1, .retire ⟨0, 1, 7⟩ 0, .tick 1, .reap 0]
    (∃ s, run step (start (.new 1)) ops = some (s, [⟨⟨0, 1, 7⟩, true, true⟩])) ∧
      Always step (fun _ log => ∀ report ∈ log, report.released = report.live) (start (.new 1))
        ops := by
  intro ops
  obtain ⟨s, hrun⟩ : ∃ s, run step (start (.new 1)) ops = some (s, [⟨⟨0, 1, 7⟩, true, true⟩]) :=
    ⟨_, rfl⟩
  obtain ⟨hiff, hundisturbed⟩ := releaseLease_reports (.new 1) ops s _ hrun
  refine ⟨⟨s, hrun⟩, hiff.mpr (hundisturbed ?_)⟩
  exact Along.cons rfl rfl (Along.cons trivial rfl (Along.cons trivial rfl
    (Along.cons (Nat.le_refl 1) rfl trivial)))

/-- Another request takes the slot between the two sections: the lease was live and is released,
and the call reports that it was stale. -/
theorem releaseLease_reports_live_as_stale :
    ∃ s, run step (start (.new 1))
        [.acquireLease 7 1, .retire ⟨0, 1, 7⟩ 0, .acquireLease 8 1, .reap 0] =
      some (s, [⟨⟨0, 1, 7⟩, true, false⟩]) ∧ s.slots.inUse 0 = some 2 :=
  ⟨_, rfl, rfl⟩

end LeaseThreads

end InferFlux.Scheduler
