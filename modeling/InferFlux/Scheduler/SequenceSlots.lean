import Mathlib.Data.List.Basic

/-!
# The sequence slots

Embeds `SequenceSlotManager` from `runtime/scheduler/sequence_slot_manager.cpp`, as far as the
scheduler calls it. Every function holds the mutex for its whole body. The clock is read by the
caller and passed in; a fence that is ready at `time_point::max()` is `none`, which no reading of
the clock reaches. Generations are the 64-bit counters of the source.
-/

namespace InferFlux.Scheduler

open Option Function

inductive SequenceState where
  | idle
  | prefilling
  | decoding
  | retiring
  | completed
  | evicted
  deriving DecidableEq, Repr

structure SequenceSlot where
  requestId : Int := -1
  sequenceId : Int := -1
  generation : UInt64 := 0
  state : SequenceState := .idle
  lastAccess : Nat := 0
  acquiredAt : Nat := 0
  retireReadyAt : Option Nat := some 0
  tokenCount : Int := 0
  deriving DecidableEq, Repr

structure SequenceLease where
  slotId : Int := -1
  generation : UInt64 := 0
  requestId : Int := -1
  deriving DecidableEq, Repr

/-- The slot ids are the positions in the list. -/
structure SequenceSlotManager where
  slots : List SequenceSlot
  deriving DecidableEq, Repr

namespace SequenceSlotManager

def new (maxSlots : Nat) : SequenceSlotManager := ⟨List.replicate maxSlots {}⟩

def slotIndex (m : SequenceSlotManager) (slotId : Int) : Option Nat :=
  if 0 ≤ slotId ∧ slotId.toNat < m.slots.length then some slotId.toNat else none

def resetSlotForReuse (slot : SequenceSlot) : SequenceSlot :=
  { slot with
    state := .idle
    requestId := -1
    sequenceId := -1
    tokenCount := 0
    retireReadyAt := some 0 }

/-- The slot is retiring and its fence is ready. -/
def reapable (now : Nat) (slot : SequenceSlot) : Bool :=
  slot.state = .retiring && slot.retireReadyAt.any (· ≤ now)

def reapRetiredSlots (now : Nat) (m : SequenceSlotManager) : Nat × SequenceSlotManager :=
  (m.slots.countP (reapable now),
    ⟨m.slots.map fun slot => if reapable now slot then resetSlotForReuse slot else slot⟩)

/-- `FindFreeSlot` from slot `i` on. -/
def findFreeSlot (sequenceCapacity : Int) : List SequenceSlot → Nat → Option Nat
  | [], _ => none
  | slot :: slots, i =>
    if (sequenceCapacity ≤ 0 || i < sequenceCapacity) &&
        (slot.state = .idle || slot.state = .evicted) then some i
    else findFreeSlot sequenceCapacity slots (i + 1)

def acquireLease (now : Nat) (requestId sequenceCapacity : Int) (m : SequenceSlotManager) :
    Option SequenceLease × SequenceSlotManager :=
  let m := (m.reapRetiredSlots now).2
  match findFreeSlot sequenceCapacity m.slots 0 with
  | none => (none, m)
  | some i =>
    (m.slots[i]?.map fun entry => ⟨i, entry.generation + 1, requestId⟩,
      ⟨m.slots.modify i fun entry =>
        { generation := entry.generation + 1
          state := .prefilling
          requestId
          acquiredAt := now
          lastAccess := now }⟩)

/-- `ReleaseSlot` looks at neither the generation nor the state. -/
def releaseSlot (slotId : Int) (m : SequenceSlotManager) : SequenceSlotManager :=
  match m.slotIndex slotId with
  | none => m
  | some i => ⟨m.slots.modify i resetSlotForReuse⟩

/-- The slot of a lease of the current generation, if its state is accepted. -/
def lockAndValidateLease (lease : SequenceLease) (accepted : List SequenceState)
    (m : SequenceSlotManager) : Option Nat := do
  let i ← m.slotIndex lease.slotId
  let slot ← m.slots[i]?
  if slot.generation = lease.generation ∧ slot.state ∈ accepted then some i else none

/-- The transitions of a lease: validate it and change its slot. -/
def transition (lease : SequenceLease) (accepted : List SequenceState)
    (f : SequenceSlot → SequenceSlot) (m : SequenceSlotManager) : Bool × SequenceSlotManager :=
  match m.lockAndValidateLease lease accepted with
  | none => (false, m)
  | some i => (true, ⟨m.slots.modify i f⟩)

def retireSlot (now : Nat) (readyAt : Option Nat) (slot : SequenceSlot) : SequenceSlot :=
  { slot with state := .retiring, retireReadyAt := readyAt, lastAccess := now }

/-- `RetireLease`; `readyAt` is the time of the fence. -/
def retireLease (now : Nat) (lease : SequenceLease) (readyAt : Option Nat) :
    SequenceSlotManager → Bool × SequenceSlotManager :=
  transition lease [.prefilling, .decoding, .completed] (retireSlot now readyAt)

def completeRetiredLease (lease : SequenceLease) :
    SequenceSlotManager → Bool × SequenceSlotManager :=
  transition lease [.retiring] resetSlotForReuse

def markCompleted (now : Nat) (lease : SequenceLease) (tokenCount : Int) :
    SequenceSlotManager → Bool × SequenceSlotManager :=
  transition lease [.prefilling, .decoding, .completed] fun slot =>
    { slot with state := .completed, tokenCount := max 0 tokenCount, lastAccess := now }

def restoreLease (now : Nat) (lease : SequenceLease) (requestId sequenceId tokenCount : Int) :
    SequenceSlotManager → Bool × SequenceSlotManager :=
  transition lease [.completed] fun slot =>
    { slot with
      requestId
      sequenceId
      state := .prefilling
      tokenCount := max 0 tokenCount
      lastAccess := now
      acquiredAt := now
      retireReadyAt := some 0 }

def markProcessing (now : Nat) (slotId : Int) (m : SequenceSlotManager) : SequenceSlotManager :=
  match m.slotIndex slotId with
  | none => m
  | some i =>
    ⟨m.slots.modify i fun slot =>
      { slot with
        lastAccess := now
        state := if slot.state = .prefilling then .decoding else slot.state }⟩

def updateTokenCount (slotId tokenCount : Int) (m : SequenceSlotManager) : SequenceSlotManager :=
  match m.slotIndex slotId with
  | none => m
  | some i => ⟨m.slots.modify i fun slot => { slot with tokenCount }⟩

/-! ## The views -/

def view (v : SequenceSlot → Option UInt64) (m : SequenceSlotManager) (i : Nat) : Option UInt64 :=
  m.slots[i]?.bind v

def held (slot : SequenceSlot) : Option UInt64 :=
  if slot.state = .prefilling ∨ slot.state = .decoding then some slot.generation else none

def waiting (slot : SequenceSlot) : Option UInt64 :=
  if slot.state = .retiring ∧ slot.retireReadyAt = none then some slot.generation else none

def inUse (m : SequenceSlotManager) (i : Nat) : Option UInt64 := m.view held i

def fenced (m : SequenceSlotManager) (i : Nat) : Option UInt64 := m.view waiting i

section View

variable {v : SequenceSlot → Option UInt64} {m : SequenceSlotManager} {i : Nat}
  {f : SequenceSlot → SequenceSlot}

theorem view_modify {slot : SequenceSlot} (hslot : m.slots[i]? = some slot) :
    view v ⟨m.slots.modify i f⟩ = update (m.view v) i (v (f slot)) := by
  funext j
  by_cases hj : j = i
  · subst hj
    simp [view, hslot]
  · simp [view, hj, Ne.symm hj]

theorem view_modify_same (h : ∀ slot, m.slots[i]? = some slot → v (f slot) = v slot) :
    view v ⟨m.slots.modify i f⟩ = m.view v := by
  funext j
  by_cases hj : j = i
  · subst hj
    cases hslot : m.slots[j]? with
    | none => simp [view, hslot]
    | some slot => simp [view, hslot, h slot hslot]
  · simp [view, Ne.symm hj]

theorem view_map_same {p : SequenceSlot → Bool} (h : ∀ slot, p slot = true → v (f slot) = v slot) :
    view v ⟨m.slots.map fun slot => if p slot then f slot else slot⟩ = m.view v := by
  funext j
  cases hslot : m.slots[j]? with
  | none => simp [view, hslot]
  | some slot =>
    by_cases hp : p slot = true
    · simp [view, hslot, hp, h slot hp]
    · simp [view, hslot, hp]

theorem view_eq_some {g : UInt64} :
    m.view v i = some g ↔ ∃ slot, m.slots[i]? = some slot ∧ v slot = some g := by
  simp [view, bind_eq_some_iff]

end View

/-! ## What each function does to the views -/

section Functions

variable {m m' : SequenceSlotManager} {now : Nat} {lease : SequenceLease} {slotId : Int} {i : Nat}

theorem slotIndex_eq_some : m.slotIndex slotId = some i ↔ slotId = i ∧ i < m.slots.length := by
  unfold slotIndex
  split_ifs with h
  · simp only [some.injEq]
    omega
  · simp only [false_iff]
    omega

@[simp] theorem held_reset (slot : SequenceSlot) : held (resetSlotForReuse slot) = none := by
  simp [held, resetSlotForReuse]

@[simp] theorem waiting_reset (slot : SequenceSlot) :
    waiting (resetSlotForReuse slot) = none := by
  simp [waiting, resetSlotForReuse]

theorem waiting_of_ready {slot : SequenceSlot} (h : reapable now slot = true) :
    held slot = none ∧ waiting slot = none := by
  simp only [reapable, Bool.and_eq_true, decide_eq_true_eq, any_eq_true] at h
  obtain ⟨hstate, t, ht, -⟩ := h
  simp [held, waiting, hstate, ht]

/-- Reaping shows in neither view: a slot that can be reaped has a time. -/
theorem reapRetiredSlots_views (now : Nat) (m : SequenceSlotManager) :
    (m.reapRetiredSlots now).2.inUse = m.inUse ∧ (m.reapRetiredSlots now).2.fenced = m.fenced ∧
      (m.reapRetiredSlots now).2.slots.length = m.slots.length := by
  refine ⟨?_, ?_, by simp [reapRetiredSlots]⟩
  · exact view_map_same fun slot h => by simp [(waiting_of_ready h).1]
  · exact view_map_same fun slot h => by simp [(waiting_of_ready h).2]

variable {capacity : Int}

theorem findFreeSlot_eq_some {slots : List SequenceSlot} {j : Nat}
    (h : findFreeSlot capacity slots j = some i) :
    ∃ k slot, i = j + k ∧ slots[k]? = some slot ∧ (slot.state = .idle ∨ slot.state = .evicted) := by
  fun_induction findFreeSlot capacity slots j with
  | case1 j => simp at h
  | case2 slot slots j hfree =>
    simp only [Bool.and_eq_true, Bool.or_eq_true, decide_eq_true_eq] at hfree
    obtain rfl := some.inj h
    exact ⟨0, slot, rfl, rfl, hfree.2⟩
  | case3 slot slots j hskip ih =>
    obtain ⟨k, slot', rfl, hk, hstate⟩ := ih h
    exact ⟨k + 1, slot', by omega, hk, hstate⟩

variable {requestId : Int}

/-- A lease is given for a slot that is neither in use nor fenced. -/
theorem acquireLease_some (h : m.acquireLease now requestId capacity = (some lease, m')) :
    ∃ i : Nat, lease.slotId = i ∧ i < m.slots.length ∧ m.inUse i = none ∧ m.fenced i = none ∧
      m'.inUse = update m.inUse i (some lease.generation) ∧ m'.fenced = m.fenced ∧
      m'.slots.length = m.slots.length := by
  obtain ⟨hheld, hwaiting, hlen⟩ := reapRetiredSlots_views now m
  unfold acquireLease at h
  cases hfind : findFreeSlot capacity (m.reapRetiredSlots now).2.slots 0 with
  | none => simp [hfind] at h
  | some i =>
    obtain ⟨k, slot, rfl, hslot, hfree⟩ := findFreeSlot_eq_some hfind
    rw [Nat.zero_add] at hfind
    simp only [hfind, hslot, map_some, Prod.mk.injEq, some.injEq] at h
    obtain ⟨rfl, rfl⟩ := h
    have hlt := (List.getElem?_eq_some_iff.mp hslot).1
    refine ⟨k, rfl, hlen ▸ hlt, ?_, ?_, ?_, ?_, by simpa using hlen⟩
    · rw [← hheld]
      rcases hfree with h | h <;> simp [inUse, view, hslot, held, h]
    · rw [← hwaiting]
      rcases hfree with h | h <;> simp [fenced, view, hslot, waiting, h]
    · rw [← hheld]
      exact view_modify hslot
    · rw [← hwaiting]
      refine view_modify_same fun slot' hslot' => ?_
      obtain rfl := some.inj (hslot.symm.trans hslot')
      rcases hfree with h | h <;> simp [waiting, h]

theorem acquireLease_none (h : m.acquireLease now requestId capacity = (none, m')) :
    m'.inUse = m.inUse ∧ m'.fenced = m.fenced ∧ m'.slots.length = m.slots.length := by
  unfold acquireLease at h
  cases hfind : findFreeSlot capacity (m.reapRetiredSlots now).2.slots 0 with
  | none =>
    simp only [hfind, Prod.mk.injEq, true_and] at h
    exact h ▸ reapRetiredSlots_views now m
  | some i =>
    obtain ⟨k, slot, rfl, hslot, -⟩ := findFreeSlot_eq_some hfind
    simp [hfind, hslot] at h

theorem releaseSlot_views (h : m.slotIndex slotId = some i) :
    (m.releaseSlot slotId).inUse = update m.inUse i none ∧
      (m.releaseSlot slotId).fenced = update m.fenced i none := by
  obtain ⟨-, hlt⟩ := slotIndex_eq_some.mp h
  have hslot := List.getElem?_eq_getElem hlt
  simp only [releaseSlot, h]
  exact ⟨view_modify hslot, view_modify hslot⟩

/-- A transition is refused, or its lease is current and its slot in an accepted state. -/
theorem transition_cases (lease : SequenceLease) (accepted : List SequenceState)
    (f : SequenceSlot → SequenceSlot) (m : SequenceSlotManager) :
    transition lease accepted f m = (false, m) ∨
      ∃ (i : Nat) (slot : SequenceSlot), lease.slotId = i ∧ m.slots[i]? = some slot ∧
        slot.generation = lease.generation ∧ slot.state ∈ accepted ∧
        transition lease accepted f m = (true, ⟨m.slots.modify i f⟩) := by
  cases hval : m.lockAndValidateLease lease accepted with
  | none => exact Or.inl (by simp [transition, hval])
  | some i =>
    refine Or.inr ?_
    have hresult : transition lease accepted f m = (true, ⟨m.slots.modify i f⟩) := by
      simp [transition, hval]
    simp only [lockAndValidateLease, bind_eq_bind, bind_eq_some_iff] at hval
    obtain ⟨j, hindex, slot, hslot, hif⟩ := hval
    split_ifs at hif with hcur
    obtain rfl := some.inj hif
    exact ⟨j, slot, (slotIndex_eq_some.mp hindex).1, hslot, hcur.1, hcur.2, hresult⟩

theorem transition_view_same {v : SequenceSlot → Option UInt64} {accepted : List SequenceState}
    {f : SequenceSlot → SequenceSlot} (h : ∀ slot, slot.state ∈ accepted → v (f slot) = v slot) :
    view v (transition lease accepted f m).2 = m.view v := by
  rcases transition_cases lease accepted f m with hno | ⟨i, slot, -, hslot, -, hstate, hyes⟩
  · rw [hno]
  · rw [hyes]
    refine view_modify_same fun slot' hslot' => ?_
    obtain rfl := some.inj (hslot.symm.trans hslot')
    exact h slot hstate

@[simp] theorem transition_length (lease : SequenceLease) (accepted : List SequenceState)
    (f : SequenceSlot → SequenceSlot) (m : SequenceSlotManager) :
    (transition lease accepted f m).2.slots.length = m.slots.length := by
  unfold transition
  split <;> simp

variable {readyAt : Option Nat}

/-- A lease that retires gives up its slot, which waits for the fence if that has no time. -/
theorem retireLease_true (h : m.retireLease now lease readyAt = (true, m')) :
    ∃ i : Nat, lease.slotId = i ∧ i < m.slots.length ∧ m.fenced i = none ∧
      m'.inUse = update m.inUse i none ∧
      m'.fenced = update m.fenced i (if readyAt = none then some lease.generation else none) ∧
      m'.slots.length = m.slots.length := by
  have hlen := transition_length lease [.prefilling, .decoding, .completed]
    (retireSlot now readyAt) m
  unfold retireLease at h
  rw [h] at hlen
  rcases transition_cases lease [.prefilling, .decoding, .completed] (retireSlot now readyAt) m with
    hno | ⟨i, slot, hid, hslot, hgen, hstate, hyes⟩
  · simp [hno] at h
  · rw [hyes, Prod.mk.injEq] at h
    obtain ⟨-, rfl⟩ := h
    refine ⟨i, hid, (List.getElem?_eq_some_iff.mp hslot).1, ?_, ?_, ?_, hlen⟩
    · have hne : slot.state ≠ .retiring := by
        intro heq
        simp [heq] at hstate
      simp [fenced, view, hslot, waiting, hne]
    · exact view_modify hslot
    · refine (view_modify hslot).trans (congrArg (update m.fenced i) ?_)
      simp [waiting, retireSlot, hgen]

theorem retireLease_false (h : m.retireLease now lease readyAt = (false, m')) : m' = m := by
  unfold retireLease at h
  rcases transition_cases lease [.prefilling, .decoding, .completed] (retireSlot now readyAt) m with
    hno | ⟨i, slot, -, -, -, -, hyes⟩
  · rw [hno] at h
    exact (Prod.mk.inj h).2.symm
  · simp [hyes] at h

/-- Completing a retirement frees a slot that was not in use, and only for the generation that
retired it. -/
theorem completeRetiredLease_views (lease : SequenceLease) (m : SequenceSlotManager) :
    (m.completeRetiredLease lease).2.inUse = m.inUse ∧
      ∀ i : Nat, lease.slotId ≠ i ∨ m.fenced i ≠ some lease.generation →
        (m.completeRetiredLease lease).2.fenced i = m.fenced i := by
  refine ⟨?_, fun i hi => ?_⟩
  · refine transition_view_same fun slot hstate => ?_
    simp only [List.mem_singleton] at hstate
    rw [held_reset]
    simp [held, hstate]
  · unfold completeRetiredLease
    rcases transition_cases lease [.retiring] resetSlotForReuse m with
      hno | ⟨j, slot, hid, hslot, hgen, hstate, hyes⟩
    · rw [hno]
    · rw [hyes]
      have hview : fenced ⟨m.slots.modify j resetSlotForReuse⟩ = update m.fenced j none :=
        view_modify hslot
      rw [hview]
      by_cases hij : i = j
      · subst hij
        have hnone : m.fenced i = none := by
          by_contra hne
          obtain ⟨g, hg⟩ := ne_none_iff_exists'.mp hne
          obtain ⟨slot', hslot', hwait⟩ := view_eq_some.mp hg
          obtain rfl := some.inj (hslot.symm.trans hslot')
          have hgen' : slot.generation = g := by
            unfold waiting at hwait
            split_ifs at hwait
            exact some.inj hwait
          rcases hi with hi | hi
          · exact hi hid
          · exact hi (by rw [hg, ← hgen', hgen])
        simp [hnone]
      · simp [hij]

theorem markProcessing_views (now : Nat) (slotId : Int) (m : SequenceSlotManager) :
    (m.markProcessing now slotId).inUse = m.inUse ∧
      (m.markProcessing now slotId).fenced = m.fenced := by
  unfold markProcessing
  split
  · exact ⟨rfl, rfl⟩
  · refine ⟨view_modify_same fun slot _ => ?_, view_modify_same fun slot _ => ?_⟩
    · by_cases h : slot.state = .prefilling <;> simp [held, h]
    · by_cases h : slot.state = .prefilling <;> simp [waiting, h]

theorem updateTokenCount_views (slotId tokenCount : Int) (m : SequenceSlotManager) :
    (m.updateTokenCount slotId tokenCount).inUse = m.inUse ∧
      (m.updateTokenCount slotId tokenCount).fenced = m.fenced := by
  unfold updateTokenCount
  split
  · exact ⟨rfl, rfl⟩
  · exact ⟨view_modify_same fun _ _ => rfl, view_modify_same fun _ _ => rfl⟩

theorem markCompleted_fenced (now : Nat) (lease : SequenceLease) (tokenCount : Int)
    (m : SequenceSlotManager) : (m.markCompleted now lease tokenCount).2.fenced = m.fenced := by
  refine transition_view_same fun slot hstate => ?_
  have hne : slot.state ≠ .retiring := fun heq => by simp [heq] at hstate
  simp [waiting, hne]

theorem restoreLease_fenced (now : Nat) (lease : SequenceLease)
    (requestId sequenceId tokenCount : Int) (m : SequenceSlotManager) :
    (m.restoreLease now lease requestId sequenceId tokenCount).2.fenced = m.fenced := by
  refine transition_view_same fun slot hstate => ?_
  have hne : slot.state ≠ .retiring := fun heq => by simp [heq] at hstate
  simp [waiting, hne]

end Functions

end SequenceSlotManager

end InferFlux.Scheduler
