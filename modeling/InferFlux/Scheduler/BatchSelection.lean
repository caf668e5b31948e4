import InferFlux.Execution.InferenceRequest
import InferFlux.Library.IndexErasure
import Mathlib.Algebra.GroupWithZero.Nat

/-!
# Building a batch

`Scheduler::BuildBatchLocked` and `EstimateQueueTokenCost` from `scheduler/scheduler.cpp`. A
pending request is a pointer, here a number, to a record in `requests`; the queues hold pointers
and may hold one several times. The scores of the batch policy and the outcomes of `TrySwapIn`
come from outside.

Token counts are natural numbers: a count that does not fit a `size_t` needs more prompt tokens
than there is memory.
-/

namespace InferFlux.Scheduler.Batching

open InferFlux.Execution IndexErasure List

structure FairnessConfig where
  highPriorityThreshold : Int := 5
  maxTimesliceTokens : Int := 0
  enablePreemption : Bool := false
  deriving DecidableEq, Repr

structure BatchingConfig where
  maxBatchSize : Nat := 32
  maxBatchTokens : Nat := 16384
  /-- The decode workers own the decode queue (split mode). -/
  useDecodeWorkers : Bool := false
  phasedLogprobsDisabled : Bool := false
  fairness : FairnessConfig := {}
  deriving DecidableEq, Repr

/-- A pending request with the fields of its inference that the batch is built by. -/
structure PendingRequest extends InferenceRequest where
  sequence : Nat := 0
  priority : Int := 0
  /-- `fairness.priority_level`. -/
  priorityLevel : Int := 0
  collectLogprobs : Bool := false
  /-- There is a resolved backend, and it serves log probabilities on the legacy path only. -/
  keepsLegacyLogprobs : Bool := false
  isSwapped : Bool := false
  swappedHostHandles : List Int := []
  deriving DecidableEq, Repr

structure Queues where
  requests : Nat → PendingRequest
  pendingPrefill : List Nat := []
  pendingDecode : List Nat := []

structure QueueItem where
  pending : Nat
  fromDecode : Bool := false
  index : Nat := 0
  deriving DecidableEq, Repr

def queuePhase (fromDecode : Bool) : RequestPhase := if fromDecode then .decode else .prefill

def estimateQueueTokenCost (c : BatchingConfig) (r : PendingRequest) (fromDecode : Bool) : Nat :=
  let statelessExecution := r.hasImages || r.responseFormat.hasFormat ||
    (r.collectLogprobs && (c.phasedLogprobsDisabled || r.keepsLegacyLogprobs))
  if !fromDecode then
    if statelessExecution then max 1 (r.promptTokens.length + (max 1 r.maxTokens).toNat)
    else max 1 r.promptTokens.length
  else
    let remaining := r.fairness.remainingDecodeTokens
    let decodeLimit := if r.maxTokens ≤ 0 then 1 else r.maxTokens
    let decodeLimit := if remaining ≥ 0 then min decodeLimit remaining else decodeLimit
    let slice := r.fairness.timesliceTokens
    let predictedSliceLimit :=
      if slice ≤ 0 && c.fairness.maxTimesliceTokens > 0 &&
          r.priority < c.fairness.highPriorityThreshold then
        if remaining > 0 then min c.fairness.maxTimesliceTokens remaining
        else c.fairness.maxTimesliceTokens
      else slice
    let decodeLimit :=
      if predictedSliceLimit > 0 then min decodeLimit predictedSliceLimit else decodeLimit
    (max 1 decodeLimit).toNat

/-- The entries of a queue that have not been seen, the indices of those that have, and what has
been seen after it. -/
def scan (fromDecode : Bool) : Nat → List Nat → List Nat → List QueueItem × List Nat × List Nat
  | _, seen, [] => ([], [], seen)
  | i, seen, r :: queue =>
    if r ∈ seen then
      let (items, duplicates, seen) := scan fromDecode (i + 1) seen queue
      (items, i :: duplicates, seen)
    else
      let (items, duplicates, seen) := scan fromDecode (i + 1) (r :: seen) queue
      (⟨r, fromDecode, i⟩ :: items, duplicates, seen)

structure SelectionEnv (κ : Type) where
  score : QueueItem → κ
  /-- The target blocks of `TrySwapIn`, if it succeeds. -/
  trySwapIn : Nat → Option (List Int) := fun _ => none

structure BatchSelection where
  pending : List QueueItem := []
  totalTokens : Nat := 0
  requests : Nat → PendingRequest

def chosenIndices (fromDecode : Bool) (chosen : List QueueItem) : List Nat :=
  (chosen.filter fun item => item.fromDecode = fromDecode).map QueueItem.index

section Build

variable {κ : Type} (c : BatchingConfig) (env : SelectionEnv κ)

/-- A request as it enters the batch, unless it is swapped out and cannot be swapped in. -/
def enter (item : QueueItem) (r : PendingRequest) : Option PendingRequest :=
  let phase := queuePhase item.fromDecode
  if r.isSwapped then
    (env.trySwapIn item.pending).map fun blockTable =>
      { r with phase, blockTable, swappedHostHandles := [], isSwapped := false }
  else some { r with phase }

def selectLoop : List QueueItem → BatchSelection → BatchSelection
  | [], b => b
  | item :: items, b =>
    let r := b.requests item.pending
    let tokens := estimateQueueTokenCost c r item.fromDecode
    if !b.pending.isEmpty && b.totalTokens + tokens > c.maxBatchTokens then selectLoop items b
    else
      match enter env item r with
      | none => selectLoop items b
      | some r =>
        let b : BatchSelection :=
          { pending := b.pending ++ [item]
            totalTokens := b.totalTokens + tokens
            requests := Function.update b.requests item.pending r }
        if b.pending.length ≥ c.maxBatchSize then b else selectLoop items b

variable [LinearOrder κ]

def ranksBefore (requests : Nat → PendingRequest) (a b : QueueItem) : Bool :=
  if env.score a ≠ env.score b then env.score b < env.score a
  else (requests a.pending).sequence < (requests b.pending).sequence

def ranked (requests : Nat → PendingRequest) (items : List QueueItem) : List QueueItem :=
  items.insertionSort fun a b => ¬ ranksBefore env requests b a

/-- `BuildBatchLocked`: the selection and the rest of the queues. -/
def buildBatchLocked (s : Queues) : BatchSelection × Queues :=
  if s.pendingPrefill.isEmpty && s.pendingDecode.isEmpty then ({ requests := s.requests }, s)
  else
    let (prefillItems, duplicatePrefill, seen) := scan false 0 [] s.pendingPrefill
    let (decodeItems, duplicateDecode, _) :=
      if c.useDecodeWorkers then ([], [], seen) else scan true 0 seen s.pendingDecode
    let items := ranked env s.requests (prefillItems ++ decodeItems)
    let b := selectLoop c env items { requests := s.requests }
    (b,
      { requests := b.requests
        pendingPrefill := eraseIndices s.pendingPrefill (chosenIndices false b.pending ++ duplicatePrefill)
        pendingDecode := eraseIndices s.pendingDecode (chosenIndices true b.pending ++ duplicateDecode) })

end Build

/-! ## The items of the queues -/

/-- What a scan of a queue finds: the first occurrence of each request that is new. -/
structure Scanned (fromDecode : Bool) (i : Nat) (seen queue : List Nat)
    (found : List QueueItem × List Nat × List Nat) : Prop where
  origin : ∀ item ∈ found.1, item.fromDecode = fromDecode
  requests : found.1.map QueueItem.pending = queue.eraseDups.filter (· ∉ seen)
  entries : (queue.zipIdx i).filter (fun entry => entry.2 ∉ found.2.1) =
    found.1.map fun item => (item.pending, item.index)
  seen : ∀ r, r ∈ found.2.2 ↔ r ∈ seen ∨ r ∈ queue
  duplicates : ∀ j ∈ found.2.1, i ≤ j

theorem eraseDups_filter (p : Nat → Bool) (l : List Nat) :
    (l.filter p).eraseDups = l.eraseDups.filter p := by
  -- `eraseDups` goes on with a filtered list, so the induction is on the length
  induction hn : l.length using Nat.strong_induction_on generalizing l with
  | _ n ih =>
    cases l with
    | nil => simp
    | cons a l =>
      have hlt : (l.filter fun b => !b == a).length < n := by
        have := length_filter_le (fun b => !b == a) l
        simp only [length_cons] at hn
        omega
      have hrest := ih _ hlt (l.filter fun b => !b == a) rfl
      rw [eraseDups_cons]
      cases hp : p a with
      | true =>
        rw [filter_cons_of_pos hp, filter_cons_of_pos hp, eraseDups_cons, filter_comm, hrest]
      | false =>
        rw [filter_cons_of_neg (by simp [hp]), filter_cons_of_neg (by simp [hp]), ← hrest,
          filter_filter]
        congr 1
        refine filter_congr fun b _ => ?_
        by_cases hb : b = a <;> simp [hb, hp]

theorem nodup_eraseDups (l : List Nat) : l.eraseDups.Nodup := by
  induction l with
  | nil => simp
  | cons a l ih =>
    rw [eraseDups_cons, eraseDups_filter]
    exact nodup_cons.mpr ⟨by simp, ih.filter _⟩

variable {queue seen : List Nat}

theorem eraseDups_filter_cons {r : Nat} :
    (r :: queue).eraseDups.filter (· ∉ seen) =
      if r ∈ seen then queue.eraseDups.filter (· ∉ seen)
      else r :: queue.eraseDups.filter (· ∉ r :: seen) := by
  rw [eraseDups_cons, eraseDups_filter]
  by_cases hr : r ∈ seen
  · rw [filter_cons_of_neg (by simpa using hr), filter_filter, if_pos hr]
    refine filter_congr fun b _ => ?_
    by_cases hb : b = r <;> simp [hb, hr]
  · rw [filter_cons_of_pos (by simpa using hr), filter_filter, if_neg hr]
    congr 1
    refine filter_congr fun b _ => ?_
    by_cases hb : b = r <;> simp [hb]

theorem scan_scanned (fromDecode : Bool) (i : Nat) (seen queue : List Nat) :
    Scanned fromDecode i seen queue (scan fromDecode i seen queue) := by
  induction queue generalizing i seen with
  | nil => exact ⟨by simp [scan], by simp [scan], by simp [scan], by simp [scan], by simp [scan]⟩
  | cons r queue ih =>
    by_cases hr : r ∈ seen
    · have h := ih (i + 1) seen
      have hscan : scan fromDecode i seen (r :: queue) =
          ((scan fromDecode (i + 1) seen queue).1, i :: (scan fromDecode (i + 1) seen queue).2.1,
            (scan fromDecode (i + 1) seen queue).2.2) := by simp [scan, hr]
      rw [hscan]
      refine ⟨h.origin, ?_, ?_, fun a => ?_, ?_⟩
      · rw [eraseDups_filter_cons, if_pos hr, ← h.requests]
      · rw [zipIdx_cons, filter_cons_of_neg (by simp), ← h.entries]
        exact filter_zipIdx_cons (Nat.lt_succ_self i)
      · have := h.seen a
        grind
      · have := h.duplicates
        grind
    · have h := ih (i + 1) (r :: seen)
      have hscan : scan fromDecode i seen (r :: queue) =
          (⟨r, fromDecode, i⟩ :: (scan fromDecode (i + 1) (r :: seen) queue).1,
            (scan fromDecode (i + 1) (r :: seen) queue).2.1,
            (scan fromDecode (i + 1) (r :: seen) queue).2.2) := by simp [scan, hr]
      rw [hscan]
      refine ⟨forall_mem_cons.mpr ⟨rfl, h.origin⟩, ?_, ?_, fun a => ?_, ?_⟩
      · rw [eraseDups_filter_cons, if_neg hr, map_cons, ← h.requests]
      · have hi : i ∉ (scan fromDecode (i + 1) (r :: seen) queue).2.1 := fun hmem =>
          absurd (h.duplicates i hmem) (Nat.not_succ_le_self i)
        rw [zipIdx_cons, filter_cons_of_pos (by simpa using hi), h.entries, map_cons]
      · have := h.seen a
        grind
      · intro j hj
        exact Nat.le_of_succ_le (h.duplicates j hj)

/-! ## The loop -/

variable {item : QueueItem} {fromDecode : Bool}

section Loop

variable {κ : Type} {c : BatchingConfig} {env : SelectionEnv κ}

def Entered (fromDecode : Bool) (r r' : PendingRequest) : Prop :=
  ∃ blockTable swappedHostHandles,
    r' = { r with phase := queuePhase fromDecode, blockTable, swappedHostHandles, isSwapped := false }

variable {r : PendingRequest} {r' : PendingRequest}

theorem enter_entered (h : enter env item r = some r') : Entered item.fromDecode r r' := by
  unfold enter at h
  split_ifs at h with hswapped
  · obtain ⟨blockTable, -, rfl⟩ := Option.map_eq_some_iff.mp h
    exact ⟨blockTable, [], rfl⟩
  · cases h
    refine ⟨r.blockTable, r.swappedHostHandles, ?_⟩
    simp only [Bool.not_eq_true] at hswapped
    rw [← hswapped]

theorem Entered.cost_eq (h : Entered fromDecode r r') :
    estimateQueueTokenCost c r' = estimateQueueTokenCost c r := by
  obtain ⟨blockTable, handles, rfl⟩ := h
  rfl

def pointers (items : List QueueItem) : List Nat := items.map QueueItem.pending

def totalCost (c : BatchingConfig) (requests : Nat → PendingRequest) (items : List QueueItem) : Nat :=
  (items.map fun item => estimateQueueTokenCost c (requests item.pending) item.fromDecode).sum

/-- What holds of a selection from the records `requests`. -/
structure Selects (c : BatchingConfig) (requests : Nat → PendingRequest) (b : BatchSelection) :
    Prop where
  nodup : (pointers b.pending).Nodup
  frame : ∀ r, r ∉ pointers b.pending → b.requests r = requests r
  entered : ∀ item ∈ b.pending,
    Entered item.fromDecode (requests item.pending) (b.requests item.pending)
  total : b.totalTokens = totalCost c requests b.pending
  budget : b.totalTokens ≤ c.maxBatchTokens ∨ b.pending.length ≤ 1

variable {b : BatchSelection} {requests : Nat → PendingRequest}

theorem Selects.add (h : Selects c requests b) (hnew : item.pending ∉ pointers b.pending)
    (hr : enter env item (requests item.pending) = some r)
    (hbudget : b.pending = [] ∨ b.totalTokens +
      estimateQueueTokenCost c (requests item.pending) item.fromDecode ≤ c.maxBatchTokens) :
    Selects c requests
      { pending := b.pending ++ [item]
        totalTokens := b.totalTokens +
          estimateQueueTokenCost c (requests item.pending) item.fromDecode
        requests := Function.update b.requests item.pending r } := by
  refine ⟨?_, fun a ha => ?_, fun a ha => ?_, ?_, ?_⟩
  · rw [pointers, map_append, nodup_append_comm]
    exact nodup_cons.mpr ⟨hnew, h.nodup⟩
  · simp only [pointers, map_append, map_cons, map_nil, mem_append, mem_singleton, not_or] at ha
    exact (Function.update_of_ne ha.2 ..).trans (h.frame a ha.1)
  · rcases mem_append.mp ha with ha | ha
    · have hne : a.pending ≠ item.pending := by
        intro heq
        exact hnew (heq ▸ mem_map_of_mem ha)
      simp only [Function.update_of_ne hne]
      exact h.entered a ha
    · obtain rfl := mem_singleton.mp ha
      simpa using enter_entered hr
  · simp [totalCost, h.total]
  · rcases hbudget with hnil | hle
    · simp [hnil]
    · exact Or.inl hle

variable {items : List QueueItem}

theorem selectLoop_selects (h : Selects c requests b)
    (hnodup : (pointers b.pending ++ pointers items).Nodup) :
    Selects c requests (selectLoop c env items b) ∧
      (selectLoop c env items b).pending ⊆ b.pending ++ items := by
  induction items generalizing b with
  | nil => exact ⟨h, by simp [selectLoop]⟩
  | cons item items ih =>
    have hitem : item.pending ∉ pointers b.pending := fun hmem =>
      (nodup_append.mp hnodup).2.2 _ hmem item.pending (by simp [pointers]) rfl
    have hrecord : b.requests item.pending = requests item.pending := h.frame _ hitem
    have hskip : Selects c requests (selectLoop c env items b) ∧
        (selectLoop c env items b).pending ⊆ b.pending ++ item :: items := by
      obtain ⟨hsel, hsub⟩ := ih h (hnodup.sublist (by simp [pointers]))
      exact ⟨hsel, fun a ha => by have := hsub ha; grind⟩
    simp only [selectLoop, hrecord]
    by_cases hover : (!b.pending.isEmpty && decide (b.totalTokens +
        estimateQueueTokenCost c (requests item.pending) item.fromDecode > c.maxBatchTokens)) = true
    · rwa [if_pos hover]
    · rw [if_neg hover]
      cases henter : enter env item (requests item.pending) with
      | none => exact hskip
      | some r =>
        have hadd := h.add hitem henter (by
          simp only [Bool.and_eq_true, Bool.not_eq_true', decide_eq_true_eq, not_and,
            isEmpty_eq_false_iff] at hover
          by_cases hnil : b.pending = []
          · exact Or.inl hnil
          · exact Or.inr (Nat.le_of_not_lt (hover hnil)))
        simp only
        split
        · refine ⟨hadd, fun a ha => ?_⟩
          grind
        · obtain ⟨hsel, hsub⟩ := ih hadd (by simpa [pointers] using hnodup)
          exact ⟨hsel, by simpa using hsub⟩

theorem selectLoop_length (h : b.pending.length < c.maxBatchSize) :
    (selectLoop c env items b).pending.length ≤ c.maxBatchSize := by
  induction items generalizing b with
  | nil => exact Nat.le_of_lt h
  | cons item items ih =>
    simp only [selectLoop]
    split
    · exact ih h
    · split
      · exact ih h
      · split
        · simp only [length_append, length_singleton]
          omega
        · refine ih ?_
          simp_all

end Loop

/-! ## The batch and the rest of the queues -/

/-- What `BuildBatchLocked` does: each request of the batch comes from its queue, and the queues
keep the first occurrence of every other request. -/
structure Builds (c : BatchingConfig) (s : Queues) (b : BatchSelection) (s' : Queues) : Prop where
  selects : Selects c s.requests b
  requests : s'.requests = b.requests
  origin : ∀ item ∈ b.pending,
    if item.fromDecode then c.useDecodeWorkers = false ∧ item.pending ∈ s.pendingDecode ∧
      item.pending ∉ s.pendingPrefill
    else item.pending ∈ s.pendingPrefill
  prefill : s'.pendingPrefill = s.pendingPrefill.eraseDups.filter (· ∉ pointers b.pending)
  decode : s'.pendingDecode = if c.useDecodeWorkers then s.pendingDecode
    else s.pendingDecode.eraseDups.filter fun r =>
      r ∉ s.pendingPrefill ∧ r ∉ pointers b.pending

variable {found : List QueueItem × List Nat × List Nat}

theorem Scanned.index_inj (h : Scanned fromDecode 0 seen queue found) {a b : QueueItem}
    (ha : a ∈ found.1) (hb : b ∈ found.1) (heq : a.index = b.index) : a = b := by
  have hentry {item : QueueItem} (hitem : item ∈ found.1) :
      queue[item.index]? = some item.pending := by
    have hmem : (item.pending, item.index) ∈ queue.zipIdx := by
      refine mem_of_mem_filter (p := fun entry => entry.2 ∉ found.2.1) ?_
      rw [h.entries]
      exact mem_map_of_mem hitem
    exact mk_mem_zipIdx_iff_getElem?.mp hmem
  have hpending : a.pending = b.pending := by
    have := (hentry ha).symm.trans (heq ▸ hentry hb)
    exact Option.some.inj this
  have horigin := (h.origin a ha).trans (h.origin b hb).symm
  cases a
  cases b
  simp_all

variable {items : List QueueItem}

/-- What is left of a queue after the chosen items and the duplicates are erased. -/
theorem Scanned.eraseIndices_eq (h : Scanned fromDecode 0 seen queue found)
    {chosen : List QueueItem} (hitems : (pointers items).Nodup) (hfound : found.1 ⊆ items)
    (hchosen : chosen ⊆ items)
    (honly : ∀ item ∈ items, item.fromDecode = fromDecode → item ∈ found.1) :
    eraseIndices queue (chosenIndices fromDecode chosen ++ found.2.1) =
      (queue.eraseDups.filter (· ∉ seen)).filter (· ∉ pointers chosen) := by
  have hiff : ∀ item ∈ found.1,
      (item.index ∈ chosenIndices fromDecode chosen ↔ item.pending ∈ pointers chosen) := by
    intro item hitem
    simp only [chosenIndices, pointers, mem_map, mem_filter, decide_eq_true_eq]
    constructor
    · rintro ⟨a, ⟨ha, horigin⟩, heq⟩
      obtain rfl := h.index_inj (honly a (hchosen ha) horigin) hitem heq
      exact ⟨a, ha, rfl⟩
    · rintro ⟨a, ha, heq⟩
      obtain rfl := inj_on_of_nodup_map hitems (hchosen ha) (hfound hitem) heq
      exact ⟨a, ⟨ha, h.origin a hitem⟩, rfl⟩
  have hsplit : (queue.zipIdx.filter fun entry =>
      entry.2 ∉ chosenIndices fromDecode chosen ++ found.2.1) =
      (found.1.map fun item => (item.pending, item.index)).filter fun entry =>
        entry.2 ∉ chosenIndices fromDecode chosen := by
    rw [← h.entries, filter_filter]
    refine filter_congr fun entry _ => ?_
    simp [not_or]
  rw [IndexErasure.eraseIndices_eq, without, hsplit, ← h.requests, filter_map, map_map, filter_map]
  congr 1
  refine filter_congr fun item hitem => ?_
  simp [hiff item hitem]

variable {κ : Type} (c : BatchingConfig) (env : SelectionEnv κ) {s : Queues}
  {prefill decode : List QueueItem × List Nat × List Nat}

theorem items_nodup (hprefill : Scanned false 0 [] s.pendingPrefill prefill)
    (hdecode : decode.1 = [] ∨ Scanned true 0 prefill.2.2 s.pendingDecode decode) :
    (pointers (prefill.1 ++ decode.1)).Nodup := by
  rw [pointers, map_append, hprefill.requests]
  have hfirst : (s.pendingPrefill.eraseDups.filter (· ∉ ([] : List Nat))).Nodup :=
    (nodup_eraseDups _).filter _
  rcases hdecode with hnil | hdecode
  · simpa [hnil] using hfirst
  · rw [hdecode.requests]
    refine nodup_append.mpr ⟨hfirst, (nodup_eraseDups _).filter _, ?_⟩
    intro a ha b hb hab
    have := hprefill.seen a
    simp_all [mem_filter, mem_eraseDups]

theorem mem_scanned (h : Scanned fromDecode 0 seen queue found) (hitem : item ∈ found.1) :
    item.pending ∈ queue ∧ item.pending ∉ seen := by
  have hmem : item.pending ∈ queue.eraseDups.filter (· ∉ seen) := by
    rw [← h.requests]
    exact mem_map_of_mem hitem
  simpa [mem_eraseDups] using hmem

/-- The items as they are found in the two queues, in the order in which they are ranked. -/
theorem selectLoop_builds
    (hprefill : Scanned false 0 [] s.pendingPrefill prefill)
    (hdecode : c.useDecodeWorkers = true ∧ decode.1 = [] ∧ decode.2.1 = [] ∨
      c.useDecodeWorkers = false ∧ Scanned true 0 prefill.2.2 s.pendingDecode decode)
    (hitems : items.Perm (prefill.1 ++ decode.1)) :
    let b := selectLoop c env items { requests := s.requests }
    Builds c s b
      { requests := b.requests
        pendingPrefill := eraseIndices s.pendingPrefill (chosenIndices false b.pending ++ prefill.2.1)
        pendingDecode := eraseIndices s.pendingDecode (chosenIndices true b.pending ++ decode.2.1) } := by
  intro b
  have hnodup := items_nodup hprefill (hdecode.imp (fun h => h.2.1) fun h => h.2)
  have hempty : Selects c s.requests { requests := s.requests } :=
    ⟨by simp [pointers], by simp, by simp, rfl, by simp⟩
  obtain ⟨hselects, hsub⟩ : Selects c s.requests b ∧ b.pending ⊆ [] ++ items :=
    selectLoop_selects hempty (by simpa [pointers] using (hitems.map _).nodup_iff.mpr hnodup)
  have hchosen : b.pending ⊆ prefill.1 ++ decode.1 := fun item hitem => hitems.subset (hsub hitem)
  have hseen : ∀ r, r ∈ prefill.2.2 ↔ r ∈ s.pendingPrefill := by simpa using hprefill.seen
  have hdecodeOrigin : ∀ item ∈ decode.1, item.fromDecode = true ∧ c.useDecodeWorkers = false ∧
      item.pending ∈ s.pendingDecode ∧ item.pending ∉ s.pendingPrefill := by
    intro item hitem
    rcases hdecode with ⟨-, hnil, -⟩ | ⟨hunified, hdecode⟩
    · simp [hnil] at hitem
    · obtain ⟨hqueue, hnew⟩ := mem_scanned hdecode hitem
      exact ⟨hdecode.origin item hitem, hunified, hqueue, fun hmem => hnew ((hseen _).mpr hmem)⟩
  refine ⟨hselects, rfl, fun item hitem => ?_, ?_, ?_⟩
  · rcases mem_append.mp (hchosen hitem) with hitem | hitem
    · rw [hprefill.origin item hitem]
      simpa using (mem_scanned hprefill hitem).1
    · obtain ⟨horigin, hrest⟩ := hdecodeOrigin item hitem
      simpa [horigin] using hrest
  · have hrest := hprefill.eraseIndices_eq hnodup (subset_append_left ..) hchosen
      fun item hitem horigin => by
        rcases mem_append.mp hitem with hitem | hitem
        · exact hitem
        · simp [(hdecodeOrigin item hitem).1] at horigin
    simpa using hrest
  · rcases hdecode with ⟨hsplit, hnil, hdup⟩ | ⟨hunified, hdecode⟩
    · have hnone : chosenIndices true b.pending = [] := by
        simp only [chosenIndices, map_eq_nil_iff, filter_eq_nil_iff, decide_eq_true_eq]
        intro item hitem
        have hmem := hchosen hitem
        rw [hnil, append_nil] at hmem
        simp [hprefill.origin item hmem]
      simp [hsplit, hnone, hdup, eraseIndices, eraseFromBack]
    · have hrest := hdecode.eraseIndices_eq hnodup (subset_append_right ..) hchosen
        fun item hitem horigin => by
          rcases mem_append.mp hitem with hitem | hitem
          · simp [hprefill.origin item hitem] at horigin
          · exact hitem
      simp only [hunified, Bool.false_eq_true, if_false]
      rw [hrest, filter_filter]
      refine filter_congr fun r _ => ?_
      simp [hseen, Bool.and_comm]

variable [LinearOrder κ]

theorem buildBatchLocked_builds (s : Queues) :
    Builds c s (buildBatchLocked c env s).1 (buildBatchLocked c env s).2 := by
  unfold buildBatchLocked
  by_cases hempty : (s.pendingPrefill.isEmpty && s.pendingDecode.isEmpty) = true
  · rw [if_pos hempty]
    simp only [Bool.and_eq_true, List.isEmpty_iff] at hempty
    refine ⟨⟨by simp [pointers], by simp, by simp, rfl, by simp⟩, rfl, by simp, ?_, ?_⟩
    · simp [hempty.1]
    · simp [hempty.2]
  · rw [if_neg hempty]
    have hprefill := scan_scanned false 0 [] s.pendingPrefill
    cases hsplit : c.useDecodeWorkers with
    | true =>
      exact selectLoop_builds c env hprefill (Or.inl ⟨hsplit, rfl, rfl⟩)
        (List.perm_insertionSort ..)
    | false =>
      exact selectLoop_builds c env hprefill (Or.inr ⟨hsplit, scan_scanned true 0 _ s.pendingDecode⟩)
        (List.perm_insertionSort ..)

theorem buildBatchLocked_length (s : Queues) (hsize : 1 ≤ c.maxBatchSize) :
    (buildBatchLocked c env s).1.pending.length ≤ c.maxBatchSize := by
  unfold buildBatchLocked
  split
  · simp
  · exact selectLoop_length hsize

end InferFlux.Scheduler.Batching
