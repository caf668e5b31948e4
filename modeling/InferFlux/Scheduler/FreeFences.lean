import InferFlux.Library.LoggedRun
import InferFlux.Scheduler.SequenceSlots
import Mathlib.Data.List.Perm.Basic

/-!
# Freeing a sequence behind a fence

`FreeSeqSlot`, `PollDeferredSequenceRetirements` and the calls of `SequenceSlotManager` from
`scheduler/scheduler.cpp`. A backend may answer `BeginFreeSequence` with a fence that is pending;
the sequence is gone when `PollFreeSequence` reports the fence ready. `FreeSeqSlot` takes no lock
of its own, so its calls are under way in several threads at once: a step is what one call does
under one lock, or its call of the backend.

The request that ends, the session that expires and the lease that is given back call
`FreeSeqSlot` with the generation of the lease. The eviction callback of the prefix cache in
`server/main.cpp` passes 0: that call drops the fence and releases the slot at once.
-/

namespace InferFlux.Scheduler

open LoggedRun SequenceSlotManager List

/-- The end of a retirement waits in `deferred_sequence_retirements_`. -/
structure Retirement (β : Type) where
  lease : SequenceLease
  backend : β
  token : Nat
  deriving DecidableEq, Repr

/-- A backend has answered with a pending fence and has not reported it ready. -/
structure PendingFence (β : Type) where
  slotId : Int
  backend : β
  token : Nat
  deriving DecidableEq, Repr

/-- Where a call of `FreeSeqSlot` is. -/
inductive FreeCall (β : Type) where
  /-- The lease is retired; `BeginFreeSequence` is next. -/
  | retired (lease : SequenceLease) (backend : β)
  /-- The fence is pending; it goes to the deferred retirements. -/
  | deferring (retirement : Retirement β)
  /-- There is no fence; the retirement is completed. -/
  | completing (lease : SequenceLease)
  /-- No generation: `BeginFreeSequence` is next, and then `ReleaseSlot`. -/
  | unstamped (slotId : Int) (backend : β)
  | releasing (slotId : Int)
  /-- The second half of `ReleaseLease`. -/
  | reaping
  deriving DecidableEq, Repr

structure Fences (β : Type) where
  slots : SequenceSlotManager
  calls : List (FreeCall β) := []
  deferred : List (Retirement β) := []
  /-- The fences that are pending, in the hands of the scheduler or not. -/
  pending : List (PendingFence β) := []

inductive FenceOp (β : Type) where
  | acquireLease (now : Nat) (requestId sequenceCapacity : Int)
  | markProcessing (now : Nat) (slotId : Int)
  | updateTokenCount (slotId tokenCount : Int)
  | markCompleted (now : Nat) (lease : SequenceLease) (tokenCount : Int)
  | restoreLease (now : Nat) (lease : SequenceLease) (requestId sequenceId tokenCount : Int)
  /-- A thread calls `FreeSeqSlot`. -/
  | free (now : Nat) (slot : Int) (generation : UInt64) (backend : Option β)
  /-- The next step of a call; `fence` is the token of a fence the backend answers with. -/
  | advance (k : Nat) (now : Nat) (fence : Option Nat)
  /-- `PollDeferredSequenceRetirements` looks at an entry. -/
  | poll (k : Nat) (ready : Bool)
  deriving DecidableEq, Repr

def maxSequenceSlots : Int := 128

namespace Fences

variable {β : Type}

def start (maxSlots : Nat) : Fences β := { slots := .new maxSlots }

/-- `FreeSeqSlot` up to its first call of the backend. -/
def free (s : Fences β) (now : Nat) (slot : Int) (generation : UInt64) (backend : Option β) :
    Fences β :=
  if slot < 0 || maxSequenceSlots ≤ slot then s
  else
    let lease : SequenceLease := ⟨slot, generation, -1⟩
    match backend with
    | some backend =>
      if generation = 0 then { s with calls := s.calls ++ [.unstamped slot backend] }
      else
        match s.slots.retireLease now lease none with
        | (false, slots) => { s with slots }
        | (true, slots) => { s with slots, calls := s.calls ++ [.retired lease backend] }
    | none =>
      if generation = 0 then { s with slots := s.slots.releaseSlot slot }
      else
        match s.slots.retireLease now lease (some now) with
        | (false, slots) => { s with slots }
        | (true, slots) => { s with slots, calls := s.calls ++ [.reaping] }

/-- The rest of `FreeSeqSlot`, step by step; the call has been taken out of `calls`. -/
def advance (s : Fences β) (now : Nat) (fence : Option Nat) : FreeCall β → Fences β
  | .retired lease backend =>
    match fence with
    | some token =>
      { s with
        calls := s.calls ++ [.deferring ⟨lease, backend, token⟩]
        pending := s.pending ++ [⟨lease.slotId, backend, token⟩] }
    | none => { s with calls := s.calls ++ [.completing lease] }
  | .deferring retirement => { s with deferred := s.deferred ++ [retirement] }
  | .completing lease => { s with slots := (s.slots.completeRetiredLease lease).2 }
  | .unstamped slotId backend =>
    { s with
      calls := s.calls ++ [.releasing slotId]
      pending := s.pending ++ (fence.map fun token => ⟨slotId, backend, token⟩).toList }
  | .releasing slotId => { s with slots := s.slots.releaseSlot slotId }
  | .reaping => { s with slots := (s.slots.reapRetiredSlots now).2 }

def poll [DecidableEq β] (s : Fences β) (k : Nat) (ready : Bool) : Fences β :=
  match s.deferred[k]? with
  | none => s
  | some entry =>
    if !ready then s
    else
      { s with
        slots := (s.slots.completeRetiredLease entry.lease).2
        deferred := s.deferred.eraseIdx k
        pending := s.pending.filter fun p => ¬ (p.backend = entry.backend ∧ p.token = entry.token) }

/-- One step; it logs the lease that `AcquireLease` hands out. -/
def step [DecidableEq β] (s : Fences β) : FenceOp β → Option (Fences β × List SequenceLease)
  | .acquireLease now requestId capacity =>
    let (lease, slots) := s.slots.acquireLease now requestId capacity
    some ({ s with slots }, lease.toList)
  | .markProcessing now slotId => some ({ s with slots := s.slots.markProcessing now slotId }, [])
  | .updateTokenCount slotId tokenCount =>
    some ({ s with slots := s.slots.updateTokenCount slotId tokenCount }, [])
  | .markCompleted now lease tokenCount =>
    some ({ s with slots := (s.slots.markCompleted now lease tokenCount).2 }, [])
  | .restoreLease now lease requestId sequenceId tokenCount =>
    some ({ s with
      slots := (s.slots.restoreLease now lease requestId sequenceId tokenCount).2 }, [])
  | .free now slot generation backend => some (s.free now slot generation backend, [])
  | .advance k now fence =>
    s.calls[k]?.map fun call => (advance { s with calls := s.calls.eraseIdx k } now fence call, [])
  | .poll k ready => some (s.poll k ready, [])

def evictDonor (now : Nat) (slot : Int) (backend : Option β) : FenceOp β := .free now slot 0 backend

/-! ## Who completes a retirement -/

def retiredLease : FreeCall β → Option SequenceLease
  | .retired lease _ => some lease
  | .deferring retirement => some retirement.lease
  | .completing lease => some lease
  | _ => none

/-- The slot a call without a generation is going to release. -/
def unstampedSlot : FreeCall β → Option Int
  | .unstamped slotId _ => some slotId
  | .releasing slotId => some slotId
  | _ => none

def guards (s : Fences β) : List SequenceLease :=
  s.calls.filterMap retiredLease ++ s.deferred.map Retirement.lease

/-- Every retired lease has its slot waiting for a fence, one for each slot; every pending fence
is in the hands of the scheduler; calls without a generation are about other slots. -/
structure Guarded (s : Fences β) : Prop where
  fenced : ∀ lease ∈ s.guards, ∃ i : Nat, lease.slotId = i ∧
    s.slots.fenced i = some lease.generation
  nodup : (s.guards.map SequenceLease.slotId).Nodup
  pending : ∀ p ∈ s.pending, ∃ r : Retirement β, (.deferring r ∈ s.calls ∨ r ∈ s.deferred) ∧
    p = ⟨r.lease.slotId, r.backend, r.token⟩
  unstamped : ∀ call ∈ s.calls, ∀ i : Nat, unstampedSlot call = some (i : Int) →
    s.slots.fenced i = none

variable {slots : SequenceSlotManager} {call : FreeCall β}

section Rules

variable {s : Fences β}

theorem guarded_start (maxSlots : Nat) : Guarded (start maxSlots : Fences β) where
  fenced := by simp [guards, start]
  nodup := by simp [guards, start]
  pending := by simp [start]
  unstamped := by simp [start]

theorem Guarded.perm (h : s.Guarded) {calls : List (FreeCall β)} (hp : calls.Perm s.calls) :
    Guarded { s with calls } := by
  have hguards : (guards { s with calls }).Perm s.guards := (hp.filterMap _).append_right _
  refine ⟨fun lease hlease => h.fenced lease (hguards.mem_iff.mp hlease), ?_, fun p hmem => ?_,
    fun call hcall => h.unstamped call (hp.mem_iff.mp hcall)⟩
  · exact (hguards.map _).nodup_iff.mpr h.nodup
  · obtain ⟨r, hr, heq⟩ := h.pending p hmem
    exact ⟨r, hr.imp_left hp.mem_iff.mpr, heq⟩

/-- A change of the slots that the fenced view does not show. -/
theorem Guarded.of_fenced (h : s.Guarded) (hslots : slots.fenced = s.slots.fenced) :
    Guarded { s with slots } := by
  refine ⟨fun lease hlease => ?_, h.nodup, h.pending, fun call hcall i hi => ?_⟩
  · obtain ⟨i, hid, hgen⟩ := h.fenced lease hlease
    exact ⟨i, hid, (congrFun hslots i).trans hgen⟩
  · exact (congrFun hslots i).trans (h.unstamped call hcall i hi)

theorem Guarded.cons (h : s.Guarded) {call : FreeCall β} (hretired : retiredLease call = none)
    (hslot : ∀ i : Nat, unstampedSlot call = some (i : Int) → s.slots.fenced i = none) :
    Guarded { s with calls := call :: s.calls } := by
  have hguards : guards { s with calls := call :: s.calls } = s.guards := by
    simp [guards, hretired]
  refine ⟨hguards ▸ h.fenced, hguards ▸ h.nodup, fun p hp => ?_,
    forall_mem_cons.mpr ⟨hslot, h.unstamped⟩⟩
  obtain ⟨r, hr, heq⟩ := h.pending p hp
  exact ⟨r, hr.imp_left (mem_cons_of_mem _), heq⟩

theorem Guarded.of_cons (h : Guarded { s with calls := call :: s.calls })
    (hretired : retiredLease call = none) : s.Guarded := by
  have hguards : guards { s with calls := call :: s.calls } = s.guards := by
    simp [guards, hretired]
  refine ⟨hguards ▸ h.fenced, hguards ▸ h.nodup, fun p hp => ?_,
    fun call' hcall => h.unstamped call' (mem_cons_of_mem _ hcall)⟩
  obtain ⟨r, hr, heq⟩ := h.pending p hp
  refine ⟨r, hr.imp_left fun hmem => ?_, heq⟩
  rcases mem_cons.mp hmem with rfl | hmem
  · simp [retiredLease] at hretired
  · exact hmem

/-- A retirement that is completed frees a slot that no other retirement waits for. -/
theorem Guarded.complete {lease : SequenceLease}
    (hfenced : ∀ g ∈ lease :: s.guards, ∃ i : Nat, g.slotId = i ∧
      s.slots.fenced i = some g.generation)
    (hnodup : ((lease :: s.guards).map SequenceLease.slotId).Nodup)
    (hpending : ∀ p ∈ s.pending, ∃ r : Retirement β, (.deferring r ∈ s.calls ∨ r ∈ s.deferred) ∧
      p = ⟨r.lease.slotId, r.backend, r.token⟩)
    (hunstamped : ∀ call ∈ s.calls, ∀ i : Nat, unstampedSlot call = some (i : Int) →
      s.slots.fenced i = none) :
    Guarded { s with slots := (s.slots.completeRetiredLease lease).2 } := by
  obtain ⟨-, hkeep⟩ := completeRetiredLease_views lease s.slots
  simp only [map_cons, nodup_cons, mem_map, not_exists, not_and] at hnodup
  refine ⟨fun g hg => ?_, hnodup.2, hpending, fun call hcall i hi => ?_⟩
  · obtain ⟨i, hid, hgen⟩ := hfenced g (mem_cons_of_mem _ hg)
    refine ⟨i, hid, (hkeep i (Or.inl fun heq => ?_)).trans hgen⟩
    exact hnodup.1 g hg (hid.trans heq.symm)
  · have hnone := hunstamped call hcall i hi
    exact (hkeep i (Or.inr (by simp [hnone]))).trans hnone

end Rules

/-! ## Each step keeps the fences guarded -/

section Steps

variable {s : Fences β}

/-- A call without a generation is for a slot that waits for no fence, it is not overtaken by a
call with one, and the backend answers it without a fence. -/
def Stamped (s : Fences β) : FenceOp β → Prop
  | .free _ slot generation backend =>
    if generation = 0 then ∀ i : Nat, slot = i → s.slots.fenced i = none
    else backend.isSome → ∀ call ∈ s.calls, unstampedSlot call ≠ some slot
  | .advance k _ fence =>
    ∀ slotId backend, s.calls[k]? = some (.unstamped slotId backend) → fence = none
  | _ => True

theorem releaseSlot_fenced {slotId : Int} (h : ∀ i : Nat, slotId = i → slots.fenced i = none) :
    (slots.releaseSlot slotId).fenced = slots.fenced := by
  cases hi : slots.slotIndex slotId with
  | none => simp [releaseSlot, hi]
  | some i =>
    rw [(releaseSlot_views hi).2, ← h i (slotIndex_eq_some.mp hi).1, Function.update_eq_self]

variable {now : Nat} {backend : β}

theorem Guarded.retire (h : s.Guarded) {lease : SequenceLease}
    (hretire : s.slots.retireLease now lease none = (true, slots))
    (hs : ∀ call ∈ s.calls, unstampedSlot call ≠ some lease.slotId) :
    Guarded { s with slots, calls := .retired lease backend :: s.calls } := by
  obtain ⟨i, hid, -, hnone, -, hfenced, -⟩ := retireLease_true hretire
  have hother {j : Nat} {g : UInt64} (hg : s.slots.fenced j = some g) : j ≠ i := by
    rintro rfl
    simp [hnone] at hg
  refine ⟨fun g hg => ?_, ?_, fun p hp => ?_, fun call hcall j hj => ?_⟩
  · rcases mem_cons.mp hg with rfl | hg
    · exact ⟨i, hid, by simp [hfenced]⟩
    · obtain ⟨j, hj, hgen⟩ := h.fenced g hg
      exact ⟨j, hj, by simp [hfenced, hother hgen, hgen]⟩
  · refine nodup_cons.mpr ⟨fun hmem => ?_, h.nodup⟩
    obtain ⟨g, hg, heq⟩ := mem_map.mp hmem
    obtain ⟨j, hj, hgen⟩ := h.fenced g hg
    exact hother hgen (by omega)
  · obtain ⟨r, hr, heq⟩ := h.pending p hp
    exact ⟨r, hr.imp_left (mem_cons_of_mem _), heq⟩
  · rcases mem_cons.mp hcall with rfl | hcall
    · simp [unstampedSlot] at hj
    · have hne : j ≠ i := by
        rintro rfl
        exact hs call hcall (hj.trans (congrArg some hid.symm))
      simpa [hfenced, hne] using h.unstamped call hcall j hj

theorem free_guarded (h : s.Guarded) {slot : Int} {generation : UInt64} {backend : Option β}
    (hs : s.Stamped (.free now slot generation backend)) :
    (s.free now slot generation backend).Guarded := by
  unfold free
  split
  · exact h
  · cases backend with
    | some backend =>
      by_cases hgen : generation = 0
      · simp only [Stamped, hgen, if_true] at hs ⊢
        have hcall : Guarded { s with calls := .unstamped slot backend :: s.calls } :=
          h.cons rfl fun i hi => hs i (Option.some.inj hi)
        exact hcall.perm (perm_append_singleton ..)
      · simp only [Stamped, hgen, if_false, Option.isSome_some, true_implies] at hs ⊢
        rcases hretire : s.slots.retireLease now ⟨slot, generation, -1⟩ none with ⟨_ | _, slots⟩
        · exact h.of_fenced (by rw [retireLease_false hretire])
        · have hcall : Guarded { s with slots, calls := .retired _ backend :: s.calls } :=
            h.retire hretire hs
          exact hcall.perm (perm_append_singleton ..)
    | none =>
      by_cases hgen : generation = 0
      · simp only [Stamped, hgen, if_true] at hs ⊢
        exact h.of_fenced (releaseSlot_fenced hs)
      · simp only [hgen, if_false]
        rcases hretire : s.slots.retireLease now ⟨slot, generation, -1⟩ (some now) with
          ⟨_ | _, slots⟩
        · exact h.of_fenced (by rw [retireLease_false hretire])
        · obtain ⟨i, -, -, hnone, -, hfenced, -⟩ := retireLease_true hretire
          rw [if_neg (by simp), ← hnone, Function.update_eq_self] at hfenced
          have hcall : Guarded { s with slots, calls := .reaping :: s.calls } :=
            (h.of_fenced hfenced).cons rfl (by simp [unstampedSlot])
          exact hcall.perm (perm_append_singleton ..)

theorem Guarded.answered {lease : SequenceLease}
    (h : Guarded { s with calls := .retired lease backend :: s.calls }) {next : FreeCall β}
    (hlease : retiredLease next = some lease) (hslot : unstampedSlot next = none)
    {pending : List (PendingFence β)}
    (hpending : ∀ p ∈ pending, p ∈ s.pending ∨
      ∃ r : Retirement β, next = .deferring r ∧ p = ⟨r.lease.slotId, r.backend, r.token⟩) :
    Guarded { s with calls := s.calls ++ [next], pending } := by
  have hguards : guards { s with calls := next :: s.calls, pending } =
      guards { s with calls := .retired lease backend :: s.calls } := by
    simp only [guards, filterMap_cons_some hlease]
    rfl
  refine Guarded.perm (s := { s with calls := next :: s.calls, pending })
    ⟨hguards ▸ h.fenced, hguards ▸ h.nodup, fun p hp => ?_, fun call hcall i hi => ?_⟩
    (perm_append_singleton ..)
  · rcases hpending p hp with hp | ⟨r, rfl, heq⟩
    · obtain ⟨r, hr, heq⟩ := h.pending p hp
      simp only [mem_cons, reduceCtorEq, false_or] at hr
      exact ⟨r, hr.imp_left (mem_cons_of_mem _), heq⟩
    · exact ⟨r, Or.inl mem_cons_self, heq⟩
  · rcases mem_cons.mp hcall with rfl | hcall
    · simp [hslot] at hi
    · exact h.unstamped call (mem_cons_of_mem _ hcall) i hi

theorem advance_guarded (h : Guarded { s with calls := call :: s.calls }) {fence : Option Nat}
    (hs : ∀ slotId backend, call = .unstamped slotId backend → fence = none) :
    (s.advance now fence call).Guarded := by
  cases call with
  | retired lease backend =>
    cases fence with
    | none => exact h.answered rfl rfl fun p hp => Or.inl hp
    | some token =>
      refine h.answered rfl rfl fun p hp => ?_
      rcases mem_append.mp hp with hp | hp
      · exact Or.inl hp
      · exact Or.inr ⟨⟨lease, backend, token⟩, rfl, mem_singleton.mp hp⟩
  | deferring retirement =>
    have hguards : (guards { s with deferred := s.deferred ++ [retirement] }).Perm
        (guards { s with calls := .deferring retirement :: s.calls }) := by
      simp only [guards, map_append, map_singleton, ← append_assoc]
      exact perm_append_singleton ..
    refine ⟨fun g hg => h.fenced g (hguards.mem_iff.mp hg), (hguards.map _).nodup_iff.mpr h.nodup,
      fun p hp => ?_, fun call hcall => h.unstamped call (mem_cons_of_mem _ hcall)⟩
    obtain ⟨r, hr, heq⟩ := h.pending p hp
    simp only [mem_cons, FreeCall.deferring.injEq] at hr
    refine ⟨r, ?_, heq⟩
    rcases hr with (rfl | hr) | hr
    · exact Or.inr (mem_append_right _ mem_cons_self)
    · exact Or.inl hr
    · exact Or.inr (mem_append_left _ hr)
  | completing lease =>
    refine Guarded.complete h.fenced h.nodup (fun p hp => ?_) fun call hcall =>
      h.unstamped call (mem_cons_of_mem _ hcall)
    obtain ⟨r, hr, heq⟩ := h.pending p hp
    exact ⟨r, by simpa using hr, heq⟩
  | unstamped slotId backend =>
    obtain rfl := hs slotId backend rfl
    have hrest : Guarded { s with calls := .releasing slotId :: s.calls } :=
      (h.of_cons rfl).cons rfl fun i hi => h.unstamped _ mem_cons_self i hi
    simpa [advance] using hrest.perm (perm_append_singleton ..)
  | releasing slotId =>
    refine (h.of_cons rfl).of_fenced (releaseSlot_fenced fun i hi => ?_)
    exact h.unstamped _ mem_cons_self i (congrArg some hi)
  | reaping =>
    exact (h.of_cons rfl).of_fenced (reapRetiredSlots_views now s.slots).2.1

variable [DecidableEq β]

theorem poll_guarded (h : s.Guarded) (k : Nat) (ready : Bool) : (s.poll k ready).Guarded := by
  unfold poll
  cases hentry : s.deferred[k]? with
  | none => exact h
  | some entry =>
    cases ready with
    | false => exact h
    | true =>
      have hperm : s.deferred.Perm (entry :: s.deferred.eraseIdx k) := by
        obtain ⟨hlt, rfl⟩ := List.getElem?_eq_some_iff.mp hentry
        exact (getElem_cons_eraseIdx_perm hlt).symm
      have hguards : s.guards.Perm (entry.lease :: guards { s with
          deferred := s.deferred.eraseIdx k }) := by
        refine ((hperm.map Retirement.lease).append_left _).trans ?_
        exact perm_middle
      refine Guarded.complete (s := { s with
          deferred := s.deferred.eraseIdx k
          pending := s.pending.filter fun p =>
            ¬ (p.backend = entry.backend ∧ p.token = entry.token) })
        (fun g hg => h.fenced g (hguards.mem_iff.mpr hg)) ((hguards.map _).nodup_iff.mp h.nodup)
        (fun p hp => ?_) h.unstamped
      simp only [mem_filter, decide_eq_true_eq] at hp
      obtain ⟨r, hr, rfl⟩ := h.pending p hp.1
      refine ⟨r, hr.imp_right fun hmem => ?_, rfl⟩
      rcases mem_cons.mp (hperm.mem_iff.mp hmem) with rfl | hmem
      · exact absurd ⟨rfl, rfl⟩ hp.2
      · exact hmem

theorem Guarded.step {op : FenceOp β} {s' : Fences β} {e : List SequenceLease} (h : s.Guarded)
    (hs : s.Stamped op) (hstep : s.step op = some (s', e)) : s'.Guarded := by
  cases op with
  | acquireLease now requestId capacity =>
    rcases hacquire : s.slots.acquireLease now requestId capacity with ⟨lease, slots⟩
    simp only [Fences.step, hacquire, Option.some.injEq, Prod.mk.injEq] at hstep
    obtain ⟨rfl, -⟩ := hstep
    refine h.of_fenced ?_
    cases lease with
    | none => exact (acquireLease_none hacquire).2.1
    | some lease =>
      obtain ⟨i, -, -, -, -, -, hfenced, -⟩ := acquireLease_some hacquire
      exact hfenced
  | markProcessing now slotId =>
    cases hstep
    exact h.of_fenced (markProcessing_views now slotId s.slots).2
  | updateTokenCount slotId tokenCount =>
    cases hstep
    exact h.of_fenced (updateTokenCount_views slotId tokenCount s.slots).2
  | markCompleted now lease tokenCount =>
    cases hstep
    exact h.of_fenced (markCompleted_fenced now lease tokenCount s.slots)
  | restoreLease now lease requestId sequenceId tokenCount =>
    cases hstep
    exact h.of_fenced (restoreLease_fenced now lease requestId sequenceId tokenCount s.slots)
  | free now slot generation backend =>
    cases hstep
    exact free_guarded h hs
  | advance k now fence =>
    obtain ⟨call, hcall, heq⟩ := Option.map_eq_some_iff.mp hstep
    obtain ⟨rfl, -⟩ := Prod.mk.inj heq
    obtain ⟨hlt, hget⟩ := List.getElem?_eq_some_iff.mp hcall
    have hperm := getElem_cons_eraseIdx_perm hlt
    rw [hget] at hperm
    refine advance_guarded (s := { s with calls := s.calls.eraseIdx k }) (h.perm hperm)
      fun slotId backend heq => ?_
    exact hs slotId backend (heq ▸ hcall)
  | poll k ready =>
    cases hstep
    exact poll_guarded h k ready

/-- As long as a fence is pending its slot is retiring, and another slot is handed out. -/
theorem Guarded.safe (h : s.Guarded) {p : PendingFence β} (hp : p ∈ s.pending) :
    (∃ i : Nat, p.slotId = i ∧ ∃ slot, s.slots.slots[i]? = some slot ∧ slot.state = .retiring) ∧
      ∀ op s' e, s.step op = some (s', e) → ∀ lease ∈ e, lease.slotId ≠ p.slotId := by
  obtain ⟨r, hr, rfl⟩ := h.pending p hp
  have hguard : r.lease ∈ s.guards := by
    simp only [guards, mem_append, mem_filterMap, mem_map]
    exact hr.imp (fun hmem => ⟨_, hmem, rfl⟩) fun hmem => ⟨r, hmem, rfl⟩
  obtain ⟨i, hid, hgen⟩ := h.fenced r.lease hguard
  refine ⟨⟨i, hid, ?_⟩, fun op s' e hstep lease hlease heq => ?_⟩
  · obtain ⟨slot, hslot, hwait⟩ := view_eq_some.mp hgen
    refine ⟨slot, hslot, ?_⟩
    unfold waiting at hwait
    split_ifs at hwait with hstate
    exact hstate.1
  · cases op with
    | acquireLease now requestId capacity =>
      rcases hacquire : s.slots.acquireLease now requestId capacity with ⟨answer, slots⟩
      simp only [Fences.step, hacquire, Option.some.injEq, Prod.mk.injEq] at hstep
      obtain ⟨-, rfl⟩ := hstep
      obtain rfl := Option.mem_toList.mp hlease
      obtain ⟨j, hj, -, -, hnone, -⟩ := acquireLease_some hacquire
      change lease.slotId = r.lease.slotId at heq
      obtain rfl : i = j := by omega
      simp [hgen] at hnone
    | advance k now fence =>
      obtain ⟨call, -, heq⟩ := Option.map_eq_some_iff.mp hstep
      obtain ⟨-, rfl⟩ := Prod.mk.inj heq
      simp at hlease
    | _ =>
      cases hstep
      simp at hlease

end Steps

/-- In every run whose calls of `FreeSeqSlot` without a generation meet the condition, a slot is
retiring and is not handed out as long as a fence for it is pending. -/
theorem fenced_until_ready [DecidableEq β] (maxSlots : Nat) (ops : List (FenceOp β))
    (hops : Along step Stamped (start maxSlots) ops) (s : Fences β) (log : List SequenceLease)
    (hrun : LoggedRun.run step (start maxSlots) ops = some (s, log)) (p : PendingFence β)
    (hp : p ∈ s.pending) :
    (∃ i : Nat, p.slotId = i ∧ ∃ slot, s.slots.slots[i]? = some slot ∧ slot.state = .retiring) ∧
      ∀ op s' e, s.step op = some (s', e) → ∀ lease ∈ e, lease.slotId ≠ p.slotId := by
  have hguarded : s.Guarded := hops.invariant (fun s op s' e h hs hstep => h.step hs hstep)
    (guarded_start maxSlots) hrun
  exact hguarded.safe hp

/-- A request ends while its backend is at work: its lease is freed behind a fence. -/
theorem fenced_until_ready_at_end :
    let ops : List (FenceOp Bool) :=
      [.acquireLease 0 7 1, .free 1 0 1 (some true), .advance 0 1 (some 5), .advance 0 1 none]
    ∃ s log, LoggedRun.run step (start 1) ops = some (s, log) ∧ ⟨0, true, 5⟩ ∈ s.pending ∧
      (∃ i : Nat, (0 : Int) = i ∧ ∃ slot, s.slots.slots[i]? = some slot ∧ slot.state = .retiring) ∧
      ∀ op s' e, s.step op = some (s', e) → ∀ lease ∈ e, lease.slotId ≠ 0 := by
  intro ops
  have hops : Along step Stamped (start 1) ops := by
    refine Along.cons trivial rfl (Along.cons ?_ rfl (Along.cons ?_ rfl (Along.cons ?_ rfl trivial)))
    · simp [Stamped, start]
    · intro slotId backend hcall
      change some (FreeCall.retired ⟨0, 1, -1⟩ true) = _ at hcall
      simp at hcall
    · intro slotId backend hcall
      change some (FreeCall.deferring ⟨⟨0, 1, -1⟩, true, 5⟩) = _ at hcall
      simp at hcall
  refine ⟨_, _, rfl, by decide, ?_⟩
  exact fenced_until_ready 1 ops hops _ _ rfl ⟨0, true, 5⟩ (by decide)

/-- The prefix cache evicts a donor whose backend is at work: the slot is idle at once, and it is
handed out before the fence is ready. -/
theorem evictDonor_drops_fence :
    let ops : List (FenceOp Bool) :=
      [.acquireLease 0 7 1, evictDonor 1 0 (some true), .advance 0 1 (some 5), .advance 0 1 none]
    ∃ s log s', LoggedRun.run step (start 1) ops = some (s, log) ∧ ⟨0, true, 5⟩ ∈ s.pending ∧
      s.slots.slots.map SequenceSlot.state = [.idle] ∧
      s.step (.acquireLease 2 8 1) = some (s', [⟨0, 2, 8⟩]) ∧ ⟨0, true, 5⟩ ∈ s'.pending :=
  ⟨_, _, _, rfl, by decide, rfl, rfl, by decide⟩

end Fences

end InferFlux.Scheduler
