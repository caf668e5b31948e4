import InferFlux.Scheduler.BatchSelection

/-!
# Preemption and time slices

`FairnessController` from `scheduler/fairness_controller.cpp` and `Scheduler::ApplyFairness` from
`scheduler/scheduler.cpp`: a queued request of high priority takes the place of the least urgent
request of the batch, and the less urgent requests of the batch get a time slice. The assignments
of `timeslice_tokens` are logged.
-/

namespace InferFlux.Scheduler.Batching

open InferFlux.Execution FairnessConfig List Option Function

structure FairnessEntry where
  request : Nat
  priorityLevel : Int := 0
  queueIndex : Nat := 0
  deriving DecidableEq, Repr

structure FairnessDecision where
  swap : Bool := false
  batchIndex : Nat := 0
  queueIndex : Nat := 0
  deriving DecidableEq, Repr

/-! ## `FairnessController` -/

/-- Walk on from the best entry so far, which an entry that beats it replaces. -/
def extremum (beats : Int → Int → Bool) : Nat × Int → Nat → List FairnessEntry → Nat × Int
  | best, _, [] => best
  | best, i, entry :: entries =>
    extremum beats (if beats entry.priorityLevel best.2 then (i, entry.priorityLevel) else best)
      (i + 1) entries

def element (beats : Int → Int → Bool) : List FairnessEntry → Option (Nat × Int)
  | [] => none
  | entry :: entries => some (extremum beats (0, entry.priorityLevel) 1 entries)

def FairnessConfig.evaluate (cfg : FairnessConfig) (batch queue : List FairnessEntry) :
    FairnessDecision :=
  if !cfg.enablePreemption || batch.isEmpty || queue.isEmpty then {}
  else
    match element (fun p best => best < p) queue, element (fun p best => p < best) batch with
    | some (queueIndex, high), some (batchIndex, low) =>
      if high < cfg.highPriorityThreshold then {}
      else if low ≥ high then {}
      else { swap := true, batchIndex, queueIndex }
    | _, _ => {}

def FairnessConfig.limit (cfg : FairnessConfig) (r : PendingRequest) : Int :=
  if r.fairness.remainingDecodeTokens > 0 then
    min cfg.maxTimesliceTokens r.fairness.remainingDecodeTokens
  else cfg.maxTimesliceTokens

def setTimeslice (r : PendingRequest) (timesliceTokens : Int) : PendingRequest :=
  { r with fairness := { r.fairness with timesliceTokens } }

/-- The loop of `ApplyTimeslice`, with what it assigns. -/
def FairnessConfig.sliceLoop (cfg : FairnessConfig) :
    List FairnessEntry → (Nat → PendingRequest) → (Nat → PendingRequest) × List (Nat × Int)
  | [], requests => (requests, [])
  | entry :: entries, requests =>
    if entry.priorityLevel ≥ cfg.highPriorityThreshold then cfg.sliceLoop entries requests
    else
      let limit := cfg.limit (requests entry.request)
      let requests :=
        Function.update requests entry.request (setTimeslice (requests entry.request) limit)
      let (requests, slices) := cfg.sliceLoop entries requests
      (requests, (entry.request, limit) :: slices)

def FairnessConfig.applyTimeslice (cfg : FairnessConfig) (batch : List FairnessEntry)
    (requests : Nat → PendingRequest) : (Nat → PendingRequest) × List (Nat × Int) :=
  if cfg.maxTimesliceTokens ≤ 0 then (requests, []) else cfg.sliceLoop batch requests

/-! ## `ApplyFairness` -/

def notePriority (requests : Nat → PendingRequest) (r : Nat) : Nat → PendingRequest :=
  Function.update requests r { requests r with priorityLevel := (requests r).priority }

def entriesOf (requests : Nat → PendingRequest) (items : List QueueItem) : List FairnessEntry :=
  items.zipIdx.map fun (item, i) => ⟨item.pending, (requests item.pending).priorityLevel, i⟩

def queueRefs (s : Queues) : List QueueItem :=
  s.pendingPrefill.zipIdx.map (fun (r, i) => ⟨r, false, i⟩) ++
    s.pendingDecode.zipIdx.map fun (r, i) => ⟨r, true, i⟩

def takeQueued (s : Queues) (queued : QueueItem) : Queues :=
  if queued.fromDecode then { s with pendingDecode := s.pendingDecode.eraseIdx queued.index }
  else { s with pendingPrefill := s.pendingPrefill.eraseIdx queued.index }

def putBack (s : Queues) (displaced : Nat) : Queues :=
  let r := s.requests displaced
  if r.phase = .decode then
    { s with
      requests := Function.update s.requests displaced { r with phase := .decode }
      pendingDecode := s.pendingDecode ++ [displaced] }
  else
    { s with
      requests := Function.update s.requests displaced { r with phase := .prefill }
      pendingPrefill := s.pendingPrefill ++ [displaced] }

structure FairBatch where
  pending : List QueueItem
  queues : Queues
  slices : List (Nat × Int) := []

def noted (pending : List QueueItem) (s : Queues) : Nat → PendingRequest :=
  (pointers pending ++ (s.pendingPrefill ++ s.pendingDecode)).foldl notePriority s.requests

/-- The place in the batch, the request that loses it and the queued request that takes it. -/
def preemption (cfg : FairnessConfig) (pending : List QueueItem) (s : Queues) :
    Option (Nat × QueueItem × QueueItem) :=
  let requests := noted pending s
  let decision :=
    cfg.evaluate (entriesOf requests pending) (entriesOf requests (queueRefs s))
  if decision.swap then do
    let displaced ← pending[decision.batchIndex]?
    let queued ← (queueRefs s)[decision.queueIndex]?
    return (decision.batchIndex, displaced, queued)
  else none

/-- The batch, its entries and the queues after the preemption. The entry of the place that is
taken keeps the priority level of the displaced request. -/
def preempt (cfg : FairnessConfig) (pending : List QueueItem) (s : Queues) :
    List QueueItem × List FairnessEntry × Queues :=
  let requests := noted pending s
  let entries := entriesOf requests pending
  match preemption cfg pending s with
  | some (place, displaced, queued) =>
    (pending.set place queued,
      entries.modify place fun entry => { entry with request := queued.pending },
      putBack (takeQueued { s with requests } queued) displaced.pending)
  | none => (pending, entries, { s with requests })

def applyFairness (cfg : FairnessConfig) (pending : List QueueItem) (s : Queues) : FairBatch :=
  if pending.isEmpty then { pending, queues := s }
  else
    let (pending, entries, s) := preempt cfg pending s
    let (requests, slices) := cfg.applyTimeslice entries s.requests
    { pending, queues := { s with requests }, slices }

/-! ## The decision -/

/-- The first entry that no other beats. -/
structure IsBest (beats : Int → Int → Bool) (entries : List FairnessEntry) (best : Nat × Int) :
    Prop where
  level : (entries[best.1]?).map FairnessEntry.priorityLevel = some best.2
  beaten : ∀ entry ∈ entries, beats entry.priorityLevel best.2 = false

variable {item displaced : QueueItem} {r : Nat}

section Decision

variable {beats : Int → Int → Bool} {best : Nat × Int} {entries : List FairnessEntry}

theorem extremum_isBest (hirrefl : ∀ p, beats p p = false)
    (htrans : ∀ p q r, beats p q = false → beats r q = true → beats p r = false)
    {before : List FairnessEntry} (h : IsBest beats before best) :
    IsBest beats (before ++ entries) (extremum beats best before.length entries) := by
  induction entries generalizing best before with
  | nil => simpa [extremum] using h
  | cons entry entries ih =>
    have hnext : IsBest beats (before ++ [entry])
        (if beats entry.priorityLevel best.2 then (before.length, entry.priorityLevel) else best) := by
      split
      · rename_i hbeats
        refine ⟨by simp, fun e he => ?_⟩
        rcases mem_append.mp he with he | he
        · exact htrans _ _ _ (h.beaten e he) hbeats
        · obtain rfl := mem_singleton.mp he
          exact hirrefl _
      · rename_i hbeats
        obtain ⟨e, he, hlevel⟩ := map_eq_some_iff.mp h.level
        refine ⟨?_, fun e he => ?_⟩
        · have hlt := (List.getElem?_eq_some_iff.mp he).1
          rw [getElem?_append_left hlt, h.level]
        · rcases mem_append.mp he with he | he
          · exact h.beaten e he
          · obtain rfl := mem_singleton.mp he
            simpa using hbeats
    have hrest := ih hnext
    simpa [extremum] using hrest

theorem element_isBest (hirrefl : ∀ p, beats p p = false)
    (htrans : ∀ p q r, beats p q = false → beats r q = true → beats p r = false)
    (h : element beats entries = some best) : IsBest beats entries best := by
  cases entries with
  | nil => simp [element] at h
  | cons entry entries =>
    obtain rfl := some.inj h
    have hfirst : IsBest beats [entry] (0, entry.priorityLevel) := ⟨by simp, by simp [hirrefl]⟩
    exact extremum_isBest hirrefl htrans hfirst

variable {cfg : FairnessConfig}

theorem max_isBest (h : element (fun p best => decide (best < p)) entries = some best) :
    IsBest (fun p best => decide (best < p)) entries best := by
  refine element_isBest (by simp) (fun p q r hp hr => ?_) h
  simp only [decide_eq_false_iff_not, decide_eq_true_eq] at *
  omega

theorem min_isBest (h : element (fun p best => decide (p < best)) entries = some best) :
    IsBest (fun p best => decide (p < best)) entries best := by
  refine element_isBest (by simp) (fun p q r hp hr => ?_) h
  simp only [decide_eq_false_iff_not, decide_eq_true_eq] at *
  omega

theorem element_eq_none (h : element beats entries = none) : entries = [] := by
  cases entries with
  | nil => rfl
  | cons entry entries => simp [element] at h

variable {batch queue : List FairnessEntry}

/-- A queued request of high priority, more urgent than the least urgent request of the batch. -/
theorem evaluate_swap (h : (cfg.evaluate batch queue).swap = true) :
    cfg.enablePreemption = true ∧ ∃ low high : FairnessEntry,
      batch[(cfg.evaluate batch queue).batchIndex]? = some low ∧
      queue[(cfg.evaluate batch queue).queueIndex]? = some high ∧
      cfg.highPriorityThreshold ≤ high.priorityLevel ∧ low.priorityLevel < high.priorityLevel ∧
      (∀ entry ∈ batch, low.priorityLevel ≤ entry.priorityLevel) ∧
      ∀ entry ∈ queue, entry.priorityLevel ≤ high.priorityLevel := by
  unfold evaluate at h ⊢
  split_ifs at h ⊢ with hoff
  simp only [Bool.or_eq_true, not_or, Bool.not_eq_true', Bool.not_eq_false] at hoff
  cases hhigh : element (fun p best => decide (best < p)) queue with
  | none => simp [hhigh] at h
  | some high =>
    cases hlow : element (fun p best => decide (p < best)) batch with
    | none => simp [hhigh, hlow] at h
    | some low =>
      simp only [hhigh, hlow] at h ⊢
      split_ifs at h ⊢ with hthreshold hle
      obtain ⟨high', hqueue, hhighLevel⟩ := map_eq_some_iff.mp (max_isBest hhigh).level
      obtain ⟨low', hbatch, hlowLevel⟩ := map_eq_some_iff.mp (min_isBest hlow).level
      refine ⟨hoff.1.1, low', high', hbatch, hqueue, by omega, by omega, fun e he => ?_, fun e he => ?_⟩
      · have := (min_isBest hlow).beaten e he
        simp only [decide_eq_false_iff_not] at this
        omega
      · have := (max_isBest hhigh).beaten e he
        simp only [decide_eq_false_iff_not] at this
        omega

/-- Otherwise every request of the batch is as urgent as every queued one of high priority. -/
theorem evaluate_stays (h : (cfg.evaluate batch queue).swap = false)
    (henable : cfg.enablePreemption = true) {low high : FairnessEntry} (hlow : low ∈ batch)
    (hhigh : high ∈ queue) (hthreshold : cfg.highPriorityThreshold ≤ high.priorityLevel) :
    high.priorityLevel ≤ low.priorityLevel := by
  unfold evaluate at h
  have hbatch : batch.isEmpty = false := by
    rw [isEmpty_eq_false_iff]
    exact ne_nil_of_mem hlow
  have hqueue : queue.isEmpty = false := by
    rw [isEmpty_eq_false_iff]
    exact ne_nil_of_mem hhigh
  simp only [henable, hbatch, hqueue, Bool.not_true, Bool.or_false, Bool.false_eq_true, if_false] at h
  cases hmax : element (fun p best => decide (best < p)) queue with
  | none => simp [element_eq_none hmax] at hhigh
  | some best =>
    cases hmin : element (fun p best => decide (p < best)) batch with
    | none => simp [element_eq_none hmin] at hlow
    | some least =>
      have hbest := (max_isBest hmax).beaten high hhigh
      have hleast := (min_isBest hmin).beaten low hlow
      simp only [decide_eq_false_iff_not] at hbest hleast
      simp only [hmax, hmin] at h
      split_ifs at h <;> omega

/-! ## The preemption -/

theorem foldl_notePriority (requests : Nat → PendingRequest) (pointers : List Nat) (r : Nat) :
    pointers.foldl notePriority requests r =
      if r ∈ pointers then { requests r with priorityLevel := (requests r).priority }
      else requests r := by
  induction pointers generalizing requests with
  | nil => simp
  | cons a pointers ih =>
    rw [foldl_cons, ih]
    by_cases hra : r = a
    · subst hra
      simp [notePriority]
    · simp [notePriority, hra]

theorem noted_eq (pending : List QueueItem) (s : Queues) (r : Nat) :
    ∃ priorityLevel, noted pending s r = { s.requests r with priorityLevel } := by
  rw [noted, foldl_notePriority]
  split_ifs
  · exact ⟨_, rfl⟩
  · exact ⟨(s.requests r).priorityLevel, rfl⟩

theorem noted_level {pending : List QueueItem} {s : Queues}
    (h : r ∈ pointers pending ∨ r ∈ s.pendingPrefill ∨ r ∈ s.pendingDecode) :
    (noted pending s r).priorityLevel = (s.requests r).priority := by
  rw [noted, foldl_notePriority, if_pos (by simpa using h)]

theorem getElem?_entriesOf (requests : Nat → PendingRequest) (items : List QueueItem) (i : Nat) :
    (entriesOf requests items)[i]? = (items[i]?).map fun item =>
      ⟨item.pending, (requests item.pending).priorityLevel, i⟩ := by
  simp [entriesOf, getElem?_zipIdx]
  rfl

theorem mem_queueRefs {s : Queues} :
    item ∈ queueRefs s ↔
      (if item.fromDecode then s.pendingDecode else s.pendingPrefill)[item.index]? =
        some item.pending := by
  obtain ⟨r, fromDecode, i⟩ := item
  cases fromDecode <;> simp [queueRefs, mk_mem_zipIdx_iff_getElem?]

/-- A queued request takes the place of the least urgent request of the batch. -/
structure Preempts (cfg : FairnessConfig) (pending : List QueueItem) (s : Queues) (place : Nat)
    (displaced queued : QueueItem) : Prop where
  enabled : cfg.enablePreemption = true
  place : pending[place]? = some displaced
  queued_mem : queued ∈ queueRefs s
  high : cfg.highPriorityThreshold ≤ (s.requests queued.pending).priority
  lower : (s.requests displaced.pending).priority < (s.requests queued.pending).priority
  least : ∀ item ∈ pending,
    (s.requests displaced.pending).priority ≤ (s.requests item.pending).priority

variable {pending : List QueueItem} {s : Queues}

theorem mem_queues (h : item ∈ queueRefs s) :
    item.pending ∈ s.pendingPrefill ∨ item.pending ∈ s.pendingDecode := by
  have hmem := mem_of_getElem? (mem_queueRefs.mp h)
  split_ifs at hmem
  · exact Or.inr hmem
  · exact Or.inl hmem

theorem noted_level_pending (h : item ∈ pending) :
    (noted pending s item.pending).priorityLevel = (s.requests item.pending).priority :=
  noted_level (Or.inl (mem_map_of_mem h))

theorem noted_level_queued (h : item ∈ queueRefs s) :
    (noted pending s item.pending).priorityLevel = (s.requests item.pending).priority :=
  noted_level (Or.inr (mem_queues h))

theorem preemption_some {place : Nat} {queued : QueueItem}
    (h : preemption cfg pending s = some (place, displaced, queued)) :
    Preempts cfg pending s place displaced queued := by
  simp only [preemption] at h
  split_ifs at h with hswap
  obtain ⟨henabled, low, high, hbatch, hqueue, hhigh, hlower, hleast, -⟩ := evaluate_swap hswap
  obtain ⟨displaced', hdisplaced, h⟩ := bind_eq_some_iff.mp h
  obtain ⟨queued', hqueued, h⟩ := bind_eq_some_iff.mp h
  obtain ⟨rfl, heq⟩ := Prod.mk.inj (some.inj h)
  obtain ⟨rfl, rfl⟩ := Prod.mk.inj heq
  rw [getElem?_entriesOf, hdisplaced] at hbatch
  rw [getElem?_entriesOf, hqueued] at hqueue
  obtain rfl := some.inj hbatch
  obtain rfl := some.inj hqueue
  have hqueuedMem := mem_of_getElem? hqueued
  have hdisplacedMem := mem_of_getElem? hdisplaced
  simp only [noted_level_queued hqueuedMem, noted_level_pending hdisplacedMem] at hhigh hlower hleast
  refine ⟨henabled, hdisplaced, hqueuedMem, hhigh, hlower, fun item hitem => ?_⟩
  obtain ⟨j, hj⟩ := getElem?_of_mem hitem
  have hentry := getElem?_entriesOf (noted pending s) pending j
  rw [hj] at hentry
  have hle := hleast _ (mem_of_getElem? hentry)
  simpa only [noted_level_pending hitem] using hle

theorem preemption_none (h : preemption cfg pending s = none)
    (henabled : cfg.enablePreemption = true) {queued : QueueItem} (hqueued : queued ∈ queueRefs s)
    (hitem : item ∈ pending)
    (hhigh : cfg.highPriorityThreshold ≤ (s.requests queued.pending).priority) :
    (s.requests queued.pending).priority ≤ (s.requests item.pending).priority := by
  have hentry {items : List QueueItem} {a : QueueItem} (ha : a ∈ items) :
      ∃ i, ⟨a.pending, (noted pending s a.pending).priorityLevel, i⟩ ∈
        entriesOf (noted pending s) items := by
    obtain ⟨j, hj⟩ := getElem?_of_mem ha
    have hget := getElem?_entriesOf (noted pending s) items j
    rw [hj] at hget
    exact ⟨j, mem_of_getElem? hget⟩
  obtain ⟨i, hlow⟩ := hentry hitem
  obtain ⟨j, hqueue⟩ := hentry hqueued
  simp only [preemption] at h
  split_ifs at h with hswap
  · -- the decision names a place in the batch and one in the queues
    obtain ⟨-, low, high, hbatch, hhigh, -⟩ := evaluate_swap hswap
    obtain ⟨displaced, hdisplaced, -⟩ :=
      map_eq_some_iff.mp ((getElem?_entriesOf ..).symm.trans hbatch)
    obtain ⟨taken, htaken, -⟩ :=
      map_eq_some_iff.mp ((getElem?_entriesOf ..).symm.trans hhigh)
    simp [hdisplaced, htaken] at h
  · have hle := evaluate_stays (by simpa using hswap) henabled hlow hqueue (by
      simpa only [noted_level_queued hqueued] using hhigh)
    simpa only [noted_level_queued hqueued, noted_level_pending hitem] using hle

end Decision

def withLevels (pending : List QueueItem) (s : Queues) : Queues :=
  { s with requests := noted pending s }

variable {pending : List QueueItem}

theorem preempt_of_some {cfg : FairnessConfig} {s : Queues} {place : Nat} {queued : QueueItem}
    (h : preemption cfg pending s = some (place, displaced, queued)) :
    preempt cfg pending s =
      (pending.set place queued,
        (entriesOf (noted pending s) pending).modify place fun entry =>
          { entry with request := queued.pending },
        putBack (takeQueued (withLevels pending s) queued) displaced.pending) := by
  simp only [preempt, h]
  rfl

theorem preempt_of_none {cfg : FairnessConfig} {s : Queues} (h : preemption cfg pending s = none) :
    preempt cfg pending s =
      (pending, entriesOf (noted pending s) pending, withLevels pending s) := by
  simp only [preempt, h]
  rfl

/-! ## The time slices -/

section Slices

variable {cfg : FairnessConfig} {pending : List QueueItem} {s : Queues}

def Sliced (cfg : FairnessConfig) (entries : List FairnessEntry) (r : Nat) : Prop :=
  ∃ entry ∈ entries, entry.request = r ∧ entry.priorityLevel < cfg.highPriorityThreshold

/-- The loop slices the requests with an entry below the threshold and leaves the others. -/
theorem sliceLoop_spec (cfg : FairnessConfig) (entries : List FairnessEntry)
    (requests : Nat → PendingRequest) :
    (∀ r, Sliced cfg entries r →
      (cfg.sliceLoop entries requests).1 r = setTimeslice (requests r) (cfg.limit (requests r))) ∧
    (∀ r, ¬ Sliced cfg entries r → (cfg.sliceLoop entries requests).1 r = requests r) ∧
    ∀ r limit, (r, limit) ∈ (cfg.sliceLoop entries requests).2 ↔
      Sliced cfg entries r ∧ limit = cfg.limit (requests r) := by
  induction entries generalizing requests with
  | nil => simp [Sliced, sliceLoop]
  | cons entry entries ih =>
    have hcons (r : Nat) : Sliced cfg (entry :: entries) r ↔
        (entry.request = r ∧ entry.priorityLevel < cfg.highPriorityThreshold) ∨
          Sliced cfg entries r := by simp [Sliced]
    by_cases hlevel : entry.priorityLevel ≥ cfg.highPriorityThreshold
    · have hsame (r : Nat) : Sliced cfg (entry :: entries) r ↔ Sliced cfg entries r := by
        rw [hcons]
        exact or_iff_right fun h => absurd h.2 (by omega)
      simp only [sliceLoop, if_pos hlevel, hsame]
      exact ih requests
    · have hlow : entry.priorityLevel < cfg.highPriorityThreshold := by omega
      simp only [sliceLoop, if_neg hlevel]
      obtain ⟨hsliced, hother, hlog⟩ := ih (update requests entry.request
        (setTimeslice (requests entry.request) (cfg.limit (requests entry.request))))
      refine ⟨fun r hr => ?_, fun r hr => ?_, fun r limit => ?_⟩
      · by_cases hrest : Sliced cfg entries r
        · rw [hsliced r hrest]
          by_cases heq : r = entry.request
          · subst heq
            simp only [update_self]
            rfl
          · rw [update_of_ne heq]
        · obtain ⟨rfl, -⟩ := ((hcons r).mp hr).resolve_right hrest
          rw [hother _ hrest, update_self]
      · obtain ⟨hfirst, hrest⟩ := not_or.mp (mt (hcons r).mpr hr)
        have hne : r ≠ entry.request := fun heq => hfirst ⟨heq.symm, hlow⟩
        rw [hother r hrest, update_of_ne hne]
      · rw [mem_cons, hlog, hcons, Prod.mk.injEq]
        by_cases heq : r = entry.request
        · subst heq
          rw [update_self]
          tauto
        · have : entry.request ≠ r := Ne.symm heq
          simp [heq, this]

/-- Up to the time slices `ApplyFairness` changes priority levels and phases only. -/
theorem preempt_request (cfg : FairnessConfig) (pending : List QueueItem) (s : Queues) (r : Nat) :
    ∃ priorityLevel phase, (preempt cfg pending s).2.2.requests r =
      { s.requests r with priorityLevel, phase } := by
  obtain ⟨priorityLevel, hnoted⟩ := noted_eq pending s r
  cases hpreempt : preemption cfg pending s with
  | none =>
    rw [preempt_of_none hpreempt]
    exact ⟨priorityLevel, (s.requests r).phase, hnoted⟩
  | some taken =>
    obtain ⟨place, displaced, queued⟩ := taken
    rw [preempt_of_some hpreempt]
    have htake : (takeQueued (withLevels pending s) queued).requests = noted pending s := by
      unfold takeQueued
      split <;> rfl
    simp only [putBack, htake]
    by_cases hr : r = displaced.pending
    · subst hr
      split
      · exact ⟨priorityLevel, .decode, by simp [hnoted]⟩
      · exact ⟨priorityLevel, .prefill, by simp [hnoted]⟩
    · refine ⟨priorityLevel, (s.requests r).phase, ?_⟩
      split <;> simp [hr, hnoted]

theorem entriesOf_mem {requests : Nat → PendingRequest} {items : List QueueItem}
    {entry : FairnessEntry} (h : entry ∈ entriesOf requests items) :
    ∃ item ∈ items, entry.request = item.pending ∧
      entry.priorityLevel = (requests item.pending).priorityLevel := by
  obtain ⟨i, hi⟩ := getElem?_of_mem h
  rw [getElem?_entriesOf] at hi
  obtain ⟨item, hitem, rfl⟩ := map_eq_some_iff.mp hi
  exact ⟨item, mem_of_getElem? hitem, rfl, rfl⟩

/-- Who gets a time slice: the requests below the threshold that stay in the batch, and the
request that takes the place of one. -/
theorem sliced_preempt (h : Sliced cfg (preempt cfg pending s).2.1 r) :
    (s.requests r).priority < cfg.highPriorityThreshold ∨
      ∃ place displaced queued, Preempts cfg pending s place displaced queued ∧
        r = queued.pending ∧ (s.requests displaced.pending).priority < cfg.highPriorityThreshold := by
  obtain ⟨entry, hentry, rfl, hlevel⟩ := h
  have hown (hmem : entry ∈ entriesOf (noted pending s) pending) :
      (s.requests entry.request).priority < cfg.highPriorityThreshold := by
    obtain ⟨item, hitem, hrequest, hpriority⟩ := entriesOf_mem hmem
    rw [hpriority, noted_level_pending hitem] at hlevel
    rwa [hrequest]
  cases hpreempt : preemption cfg pending s with
  | none =>
    rw [preempt_of_none hpreempt] at hentry
    exact Or.inl (hown hentry)
  | some taken =>
    obtain ⟨place, displaced, queued⟩ := taken
    rw [preempt_of_some hpreempt] at hentry
    obtain ⟨j, hj⟩ := getElem?_of_mem hentry
    by_cases hplace : place = j
    · subst hplace
      have htaken := preemption_some hpreempt
      rw [getElem?_modify_eq, getElem?_entriesOf, htaken.place] at hj
      obtain rfl := some.inj hj
      simp only [noted_level_pending (mem_of_getElem? htaken.place)] at hlevel
      exact Or.inr ⟨place, displaced, queued, htaken, rfl, hlevel⟩
    · rw [getElem?_modify_ne _ _ hplace] at hj
      exact Or.inl (hown (mem_of_getElem? hj))

theorem sliced_of_mem (hitem : item ∈ (preempt cfg pending s).1)
    (hlow : (s.requests item.pending).priority < cfg.highPriorityThreshold) :
    Sliced cfg (preempt cfg pending s).2.1 item.pending := by
  cases hpreempt : preemption cfg pending s with
  | none =>
    rw [preempt_of_none hpreempt] at hitem ⊢
    obtain ⟨j, hj⟩ := getElem?_of_mem hitem
    refine ⟨_, mem_of_getElem? (i := j) ((getElem?_entriesOf ..).trans (by rw [hj]; rfl)), rfl, ?_⟩
    simpa only [noted_level_pending hitem] using hlow
  | some taken =>
    obtain ⟨place, displaced, queued⟩ := taken
    rw [preempt_of_some hpreempt] at hitem ⊢
    have htaken := preemption_some hpreempt
    obtain ⟨j, hj⟩ := getElem?_of_mem hitem
    have hplace : place ≠ j := by
      rintro rfl
      have hlt := (List.getElem?_eq_some_iff.mp htaken.place).1
      rw [getElem?_set_self hlt] at hj
      obtain rfl := some.inj hj
      have := htaken.high
      omega
    rw [getElem?_set_ne hplace] at hj
    have hentry := getElem?_entriesOf (noted pending s) pending j
    rw [hj, map_some] at hentry
    refine ⟨_, mem_of_getElem? ((getElem?_modify_ne _ _ hplace).trans hentry), rfl, ?_⟩
    simpa only [noted_level_pending (mem_of_getElem? hj)] using hlow

theorem sliced_queued {place : Nat} {queued : QueueItem}
    (h : preemption cfg pending s = some (place, displaced, queued))
    (hlow : (s.requests displaced.pending).priority < cfg.highPriorityThreshold) :
    Sliced cfg (preempt cfg pending s).2.1 queued.pending := by
  have htaken := preemption_some h
  have hentry := getElem?_entriesOf (noted pending s) pending place
  rw [htaken.place, map_some] at hentry
  rw [preempt_of_some h]
  refine ⟨⟨queued.pending, (noted pending s displaced.pending).priorityLevel, place⟩,
    mem_of_getElem? (i := place) ?_, rfl, ?_⟩
  · rw [getElem?_modify_eq, hentry]
    rfl
  · simpa only [noted_level_pending (mem_of_getElem? htaken.place)] using hlow

/-- High-priority requests get no time slice and the others of the batch get theirs, if and only
if slicing or preemption is off, or no queued request has high priority, or all of the batch have. -/
theorem highPriority_unsliced_iff (cfg : FairnessConfig) (pending : List QueueItem) (s : Queues) :
    let fair := applyFairness cfg pending s
    ((∀ r, cfg.highPriorityThreshold ≤ (s.requests r).priority → ∀ limit, (r, limit) ∉ fair.slices) ∧
      (0 < cfg.maxTimesliceTokens → ∀ item ∈ fair.pending,
        (s.requests item.pending).priority < cfg.highPriorityThreshold →
        let remaining := (s.requests item.pending).fairness.remainingDecodeTokens
        (fair.queues.requests item.pending).fairness.timesliceTokens =
          if 0 < remaining then min cfg.maxTimesliceTokens remaining else cfg.maxTimesliceTokens)) ↔
    (0 < cfg.maxTimesliceTokens → cfg.enablePreemption = true →
      ∀ r, r ∈ s.pendingPrefill ∨ r ∈ s.pendingDecode →
        cfg.highPriorityThreshold ≤ (s.requests r).priority →
        ∀ item ∈ pending, cfg.highPriorityThreshold ≤ (s.requests item.pending).priority) := by
  intro fair
  by_cases hempty : pending = []
  · subst hempty
    simp [fair, applyFairness]
  by_cases hslicing : 0 < cfg.maxTimesliceTokens
  swap
  · have hnone : fair.slices = [] := by
      simp [fair, applyFairness, hempty, FairnessConfig.applyTimeslice, Int.not_lt.mp hslicing]
    simp [hnone, hslicing]
  have hfair : fair.pending = (preempt cfg pending s).1 ∧
      fair.queues.requests = (cfg.sliceLoop (preempt cfg pending s).2.1
        (preempt cfg pending s).2.2.requests).1 ∧
      fair.slices = (cfg.sliceLoop (preempt cfg pending s).2.1
        (preempt cfg pending s).2.2.requests).2 := by
    simp [fair, applyFairness, hempty, FairnessConfig.applyTimeslice, Int.not_le.mpr hslicing]
  obtain ⟨hpending, hrequests, hslices⟩ := hfair
  obtain ⟨hsliced, -, hlog⟩ := sliceLoop_spec cfg (preempt cfg pending s).2.1
    (preempt cfg pending s).2.2.requests
  rw [hpending, hrequests, hslices]
  simp only [hlog, hslicing, true_implies]
  constructor
  · -- the least urgent request of the batch is the one that is displaced
    rintro ⟨hunsliced, -⟩ henabled r hr hhigh item hitem
    by_contra hlow
    obtain ⟨queued, hqueued, rfl⟩ : ∃ queued ∈ queueRefs s, queued.pending = r := by
      rcases hr with hr | hr
      · obtain ⟨i, hi⟩ := getElem?_of_mem hr
        exact ⟨⟨r, false, i⟩, mem_queueRefs.mpr hi, rfl⟩
      · obtain ⟨i, hi⟩ := getElem?_of_mem hr
        exact ⟨⟨r, true, i⟩, mem_queueRefs.mpr hi, rfl⟩
    cases hpreempt : preemption cfg pending s with
    | none =>
      have := preemption_none hpreempt henabled hqueued hitem hhigh
      omega
    | some taken =>
      obtain ⟨place, displaced, queued'⟩ := taken
      have htaken := preemption_some hpreempt
      have hleast := htaken.least item hitem
      have hslice := sliced_queued hpreempt (by omega)
      exact hunsliced queued'.pending htaken.high _ ⟨hslice, rfl⟩
  · intro hcond
    refine ⟨fun r hhigh limit ⟨hslice, _⟩ => ?_, fun item hitem hlow => ?_⟩
    · rcases sliced_preempt hslice with hlow | ⟨place, displaced, queued, htaken, rfl, hlow⟩
      · omega
      · have := hcond htaken.enabled queued.pending (mem_queues htaken.queued_mem) hhigh displaced
          (mem_of_getElem? htaken.place)
        omega
    · rw [hsliced _ (sliced_of_mem hitem hlow)]
      obtain ⟨priorityLevel, phase, hrecord⟩ := preempt_request cfg pending s item.pending
      rw [hrecord]
      rfl

/-- A queued request of priority 9 takes the place of one of priority 0, and its time slice. -/
theorem preempting_request_sliced :
    let cfg : FairnessConfig := { maxTimesliceTokens := 4, enablePreemption := true }
    let requests : Nat → PendingRequest := fun r => { priority := if r = 1 then 9 else 0 }
    let s : Queues := { requests, pendingPrefill := [1] }
    let fair := applyFairness cfg [⟨0, false, 0⟩] s
    cfg.highPriorityThreshold ≤ (requests 1).priority ∧
      fair.pending.map QueueItem.pending = [1] ∧ (1, 4) ∈ fair.slices := by
  decide

end Slices

end InferFlux.Scheduler.Batching
