import InferFlux.Scheduler.Fairness
import InferFlux.Scheduler.WorkerMoves

/-!
# The batches that are dispatched

`BuildBatchLocked` followed by `ApplyFairness`: what becomes of the queued requests, and what the
batch is like that `ProcessBatch` then dispatches by phase. The batches are those that the worker
threads of `Workers.lean` may take.
-/

namespace InferFlux.Scheduler.Batching

open InferFlux.Execution List

/-! ## Where the requests are -/

def places (pending : List QueueItem) (s : Queues) : List Nat :=
  pointers pending ++ (s.pendingPrefill ++ s.pendingDecode)

section Places

variable {c : BatchingConfig} {cfg : FairnessConfig} {s s' : Queues} {b : BatchSelection}
  {pending : List QueueItem}

theorem count_pointers_set {place : Nat} {displaced : QueueItem}
    (h : pending[place]? = some displaced) (queued : QueueItem) (a : Nat) :
    (pointers (pending.set place queued)).count a + [displaced.pending].count a =
      (pointers pending).count a + [queued.pending].count a := by
  obtain ⟨hlt, rfl⟩ := List.getElem?_eq_some_iff.mp h
  have hset := ((set_perm_cons_eraseIdx hlt queued).map QueueItem.pending).count_eq a
  have hold := ((getElem_cons_eraseIdx_perm hlt).map QueueItem.pending).count_eq a
  simp only [pointers, map_cons, count_cons, count_nil] at hset hold ⊢
  omega

theorem count_putBack (s : Queues) (displaced a : Nat) :
    ((putBack s displaced).pendingPrefill ++ (putBack s displaced).pendingDecode).count a =
      (s.pendingPrefill ++ s.pendingDecode).count a + [displaced].count a := by
  simp only [putBack]
  split
  · simp only [count_append]
    omega
  · simp only [count_append]
    omega

theorem count_takeQueued {queued : QueueItem} (h : queued ∈ queueRefs s) (a : Nat) :
    ((takeQueued s queued).pendingPrefill ++ (takeQueued s queued).pendingDecode).count a +
      [queued.pending].count a = (s.pendingPrefill ++ s.pendingDecode).count a := by
  have hqueue := mem_queueRefs.mp h
  unfold takeQueued
  split
  · rename_i hdecode
    rw [if_pos hdecode] at hqueue
    have := count_eraseIdx hqueue a
    simp only [count_append] at this ⊢
    omega
  · rename_i hdecode
    rw [if_neg hdecode] at hqueue
    have := count_eraseIdx hqueue a
    simp only [count_append] at this ⊢
    omega

/-- The request that takes a place and the one that loses it change their places. -/
theorem preempt_places (cfg : FairnessConfig) (pending : List QueueItem) (s : Queues) :
    (places (preempt cfg pending s).1 (preempt cfg pending s).2.2).Perm (places pending s) := by
  cases hpreempt : preemption cfg pending s with
  | none =>
    rw [preempt_of_none hpreempt]
    exact .refl _
  | some taken =>
    obtain ⟨place, displaced, queued⟩ := taken
    have htaken := preemption_some hpreempt
    rw [preempt_of_some hpreempt]
    refine perm_iff_count.mpr fun a => ?_
    have hset := count_pointers_set htaken.place queued a
    have hput := count_putBack (takeQueued (withLevels pending s) queued) displaced.pending a
    have htake : _ = (s.pendingPrefill ++ s.pendingDecode).count a :=
      count_takeQueued (s := withLevels pending s) htaken.queued_mem a
    simp only [places, count_append] at hput htake ⊢
    omega

theorem applyFairness_places (cfg : FairnessConfig) (pending : List QueueItem) (s : Queues) :
    (places (applyFairness cfg pending s).pending (applyFairness cfg pending s).queues).Perm
      (places pending s) := by
  unfold applyFairness
  split
  · exact .refl _
  · exact preempt_places cfg pending s

theorem applyFairness_pending_of_none (h : preemption cfg pending s = none) :
    (applyFairness cfg pending s).pending = pending := by
  unfold applyFairness
  split
  · rfl
  · simp [preempt_of_none h]

theorem applyFairness_pending_of_some {place : Nat} {displaced queued : QueueItem}
    (h : preemption cfg pending s = some (place, displaced, queued)) :
    (applyFairness cfg pending s).pending = pending.set place queued := by
  unfold applyFairness
  split
  · rename_i hempty
    rw [isEmpty_iff.mp hempty]
    rfl
  · simp [preempt_of_some h]

theorem applyFairness_length (cfg : FairnessConfig) (pending : List QueueItem) (s : Queues) :
    (applyFairness cfg pending s).pending.length = pending.length := by
  cases hpreempt : preemption cfg pending s with
  | none => rw [applyFairness_pending_of_none hpreempt]
  | some taken => rw [applyFairness_pending_of_some hpreempt, length_set]

/-- The batch and the rest of the queues hold every queued request once. -/
theorem Builds.count_places (h : Builds c s b s') (hunified : c.useDecodeWorkers = false)
    (r : Nat) :
    (places b.pending s').count r =
      if r ∈ s.pendingPrefill ∨ r ∈ s.pendingDecode then 1 else 0 := by
  have hdecode := h.decode
  simp only [hunified, Bool.false_eq_true, if_false] at hdecode
  have horigin : r ∈ pointers b.pending → r ∈ s.pendingPrefill ∨ r ∈ s.pendingDecode := by
    intro hr
    obtain ⟨item, hitem, rfl⟩ := mem_map.mp hr
    have := h.origin item hitem
    split_ifs at this
    · exact Or.inr this.2.1
    · exact Or.inl this
  have hmem : r ∈ places b.pending s' ↔ r ∈ s.pendingPrefill ∨ r ∈ s.pendingDecode := by
    simp only [places, h.prefill, hdecode, mem_append, mem_filter, mem_eraseDups, decide_eq_true_eq]
    tauto
  have hnodup : (places b.pending s').Nodup := by
    simp only [places, h.prefill, hdecode]
    refine nodup_append.mpr ⟨h.selects.nodup, nodup_append.mpr
      ⟨(nodup_eraseDups _).filter _, (nodup_eraseDups _).filter _, ?_⟩, ?_⟩
    · intro a ha a' ha' heq
      simp_all [mem_filter, mem_eraseDups]
    · intro a ha a' ha' heq
      simp_all [mem_filter, mem_eraseDups]
  split_ifs with hqueued
  · exact count_eq_one_of_mem hnodup (hmem.mpr hqueued)
  · exact count_eq_zero_of_not_mem (mt hmem.mp hqueued)

theorem filter_eraseIdx {l : List Nat} {i r : Nat} {p : Nat → Bool} (h : l[i]? = some r)
    (hr : p r = false) : (l.eraseIdx i).filter p = l.filter p := by
  obtain ⟨hi, rfl⟩ := List.getElem?_eq_some_iff.mp h
  have hsplit : l = l.take i ++ (l[i] :: l.drop (i + 1)) := by simp
  conv_rhs => rw [hsplit]
  rw [eraseIdx_eq_take_drop_succ, filter_append, filter_append, filter_cons_of_neg (by simp [hr])]

/-- The preemption leaves the requests that are in no batch in their order. -/
theorem applyFairness_order (cfg : FairnessConfig) (pending : List QueueItem) (s : Queues)
    (never : Nat → Bool) (hbatch : ∀ r ∈ pointers pending, never r = false)
    (hfair : ∀ r ∈ pointers (applyFairness cfg pending s).pending, never r = false) :
    (applyFairness cfg pending s).queues.pendingPrefill.filter never =
        s.pendingPrefill.filter never ∧
      (applyFairness cfg pending s).queues.pendingDecode.filter never =
        s.pendingDecode.filter never := by
  unfold applyFairness at hfair ⊢
  split
  · exact ⟨rfl, rfl⟩
  · rename_i hempty
    simp only [hempty, if_false, Bool.false_eq_true] at hfair
    cases hpreempt : preemption cfg pending s with
    | none =>
      rw [preempt_of_none hpreempt]
      exact ⟨rfl, rfl⟩
    | some taken =>
      obtain ⟨place, displaced, queued⟩ := taken
      have htaken := preemption_some hpreempt
      have hlt := (List.getElem?_eq_some_iff.mp htaken.place).1
      rw [preempt_of_some hpreempt] at hfair ⊢
      have hdisplaced : never displaced.pending = false :=
        hbatch _ (mem_map_of_mem (mem_of_getElem? htaken.place))
      have hqueued : never queued.pending = false :=
        hfair _ (mem_map_of_mem (mem_set hlt queued))
      have hat := mem_queueRefs.mp htaken.queued_mem
      have htake : (takeQueued (withLevels pending s) queued).pendingPrefill.filter never =
            s.pendingPrefill.filter never ∧
          (takeQueued (withLevels pending s) queued).pendingDecode.filter never =
            s.pendingDecode.filter never := by
        unfold takeQueued
        split
        · rename_i hdecode
          rw [if_pos hdecode] at hat
          exact ⟨rfl, filter_eraseIdx hat hqueued⟩
        · rename_i hdecode
          rw [if_neg hdecode] at hat
          exact ⟨filter_eraseIdx hat hqueued, rfl⟩
      simp only [putBack]
      split
      · simpa [hdisplaced] using htake
      · simpa [hdisplaced] using htake

end Places

/-- In unified mode the batch and the two queues hold every request that was queued exactly once,
requests that are never selected keep their order, and the batch keeps to its limits. -/
theorem batching_conserves {κ : Type} [LinearOrder κ] (c : BatchingConfig) (env : SelectionEnv κ)
    (cfg : FairnessConfig) (s : Queues) (hunified : c.useDecodeWorkers = false)
    (hsize : 1 ≤ c.maxBatchSize) :
    let built := buildBatchLocked c env s
    let fair := applyFairness cfg built.1.pending built.2
    let never (r : Nat) : Bool := r ∉ pointers built.1.pending ∧ r ∉ pointers fair.pending
    (∀ r, (pointers fair.pending ++ (fair.queues.pendingPrefill ++ fair.queues.pendingDecode)).count r =
      if r ∈ s.pendingPrefill ∨ r ∈ s.pendingDecode then 1 else 0) ∧
    fair.queues.pendingPrefill.filter never = s.pendingPrefill.eraseDups.filter never ∧
    fair.queues.pendingDecode.filter never =
      (s.pendingDecode.eraseDups.filter (· ∉ s.pendingPrefill)).filter never ∧
    fair.pending.length ≤ c.maxBatchSize ∧
    (totalCost c s.requests built.1.pending ≤ c.maxBatchTokens ∨ built.1.pending.length = 1) := by
  intro built fair never
  have hbuilds : Builds c s built.1 built.2 := buildBatchLocked_builds c env s
  obtain ⟨hprefill, hdecode⟩ := applyFairness_order cfg built.1.pending built.2 never
    (fun r hr => by simp [never, hr]) (fun r hr => by simp [never, fair, hr])
  refine ⟨fun r => ?_, ?_, ?_, ?_, ?_⟩
  · rw [← hbuilds.count_places hunified r]
    exact (applyFairness_places cfg built.1.pending built.2).count_eq r
  · rw [hprefill, hbuilds.prefill, filter_filter]
    refine filter_congr fun r _ => ?_
    by_cases hr : r ∈ pointers built.1.pending <;> simp [never, hr]
  · rw [hdecode, hbuilds.decode, hunified, filter_filter]
    simp only [Bool.false_eq_true, if_false, filter_filter]
    refine filter_congr fun r _ => ?_
    by_cases hr : r ∈ pointers built.1.pending <;> simp [never, hr]
  · rw [applyFairness_length]
    exact buildBatchLocked_length c env s hsize
  · rw [← hbuilds.selects.total]
    rcases hbuilds.selects.budget with hle | hle
    · exact Or.inl hle
    · rcases Nat.le_one_iff_eq_zero_or_eq_one.mp hle with hzero | hone
      · rw [hbuilds.selects.total, length_eq_zero_iff.mp hzero]
        exact Or.inl (Nat.zero_le _)
      · exact Or.inr hone

/-- Two requests queued twice, one of them in both queues, and one that preempts. -/
theorem batching_conserves_duplicates :
    let c : BatchingConfig := { maxBatchSize := 2, fairness := { enablePreemption := true } }
    let env : SelectionEnv Nat := { score := fun _ => 0 }
    let s : Queues :=
      { requests := fun r => { sequence := r, priority := if r = 3 then 9 else 0 }
        pendingPrefill := [0, 1, 0, 3], pendingDecode := [2, 1] }
    let built := buildBatchLocked c env s
    let fair := applyFairness c.fairness built.1.pending built.2
    c.useDecodeWorkers = false ∧ 1 ≤ c.maxBatchSize ∧ pointers fair.pending = [3, 1] ∧
      ∀ r, (pointers fair.pending ++
          (fair.queues.pendingPrefill ++ fair.queues.pendingDecode)).count r =
        if r ∈ s.pendingPrefill ∨ r ∈ s.pendingDecode then 1 else 0 :=
  ⟨rfl, by decide, rfl, (batching_conserves _ _ _ _ rfl (by decide)).1⟩

/-! ## Dispatch -/

section Dispatch

variable {cfg : FairnessConfig} {pending : List QueueItem} {s : Queues}

theorem preempt_phase (hphase : ∀ item ∈ pending, ∃ fromDecode,
      (s.requests item.pending).phase = queuePhase fromDecode) (r : Nat) :
    ((preempt cfg pending s).2.2.requests r).phase = (s.requests r).phase := by
  have hnoted (a : Nat) : (noted pending s a).phase = (s.requests a).phase := by
    obtain ⟨priorityLevel, ha⟩ := noted_eq pending s a
    rw [ha]
  cases hpreempt : preemption cfg pending s with
  | none =>
    rw [preempt_of_none hpreempt]
    exact hnoted r
  | some taken =>
    obtain ⟨place, displaced, queued⟩ := taken
    rw [preempt_of_some hpreempt]
    have htake : (takeQueued (withLevels pending s) queued).requests = noted pending s := by
      unfold takeQueued
      split <;> rfl
    simp only [putBack, htake]
    by_cases hr : r = displaced.pending
    · subst hr
      obtain ⟨fromDecode, hphase⟩ :=
        hphase displaced (mem_of_getElem? (preemption_some hpreempt).place)
      cases fromDecode with
      | true => simp [hnoted, hphase, queuePhase]
      | false => simp [hnoted, hphase, queuePhase]
    · split <;> simp [hr, hnoted]

theorem applyTimeslice_keeps (cfg : FairnessConfig) (entries : List FairnessEntry)
    (requests : Nat → PendingRequest) (r : Nat) : ∃ timesliceTokens,
      (cfg.applyTimeslice entries requests).1 r = setTimeslice (requests r) timesliceTokens := by
  unfold FairnessConfig.applyTimeslice
  split
  · exact ⟨_, rfl⟩
  · obtain ⟨hsliced, hother, -⟩ := sliceLoop_spec cfg entries requests
    by_cases hr : Sliced cfg entries r
    · exact ⟨_, hsliced r hr⟩
    · exact ⟨_, hother r hr⟩

/-- `ApplyFairness` keeps phases and swaps nothing in or out. -/
theorem applyFairness_keeps (hphase : ∀ item ∈ pending, ∃ fromDecode,
      (s.requests item.pending).phase = queuePhase fromDecode) (r : Nat) :
    ((applyFairness cfg pending s).queues.requests r).phase = (s.requests r).phase ∧
      ((applyFairness cfg pending s).queues.requests r).isSwapped = (s.requests r).isSwapped := by
  unfold applyFairness
  split
  · exact ⟨rfl, rfl⟩
  · obtain ⟨timesliceTokens, hslice⟩ := applyTimeslice_keeps cfg (preempt cfg pending s).2.1
      (preempt cfg pending s).2.2.requests r
    obtain ⟨priorityLevel, phase, hrecord⟩ := preempt_request cfg pending s r
    have hswapped : ((preempt cfg pending s).2.2.requests r).isSwapped =
        (s.requests r).isSwapped := by rw [hrecord]
    simp only [hslice]
    exact ⟨preempt_phase hphase r, hswapped⟩

end Dispatch

/-- A batch that can be dispatched by phase. -/
structure Dispatchable (c : BatchingConfig) (estimates requests : Nat → PendingRequest)
    (pending : List QueueItem) : Prop where
  phase : ∀ item ∈ pending, (requests item.pending).phase = queuePhase item.fromDecode
  resident : ∀ item ∈ pending, (requests item.pending).isSwapped = false
  budget : totalCost c estimates pending ≤ c.maxBatchTokens ∨ pending.length = 1
  owned : c.useDecodeWorkers = true → ∀ item ∈ pending, item.fromDecode = false

theorem Builds.dispatchable {c : BatchingConfig} {s s' s₁ : Queues} {b : BatchSelection}
    (h : Builds c s b s')
    (hbatch : ∀ item ∈ b.pending, s₁.requests item.pending = s'.requests item.pending) :
    Dispatchable c s₁.requests s₁.requests b.pending := by
  have hrecord {item : QueueItem} (hitem : item ∈ b.pending) :
      Entered item.fromDecode (s.requests item.pending) (s₁.requests item.pending) := by
    rw [hbatch item hitem, h.requests]
    exact h.selects.entered item hitem
  have htotal : totalCost c s₁.requests b.pending = b.totalTokens := by
    rw [h.selects.total, totalCost, totalCost]
    congr 1
    exact map_congr_left fun item hitem => by rw [(hrecord hitem).cost_eq]
  refine ⟨fun item hitem => ?_, fun item hitem => ?_, ?_, fun hsplit item hitem => ?_⟩
  · obtain ⟨blockTable, handles, heq⟩ := hrecord hitem
    rw [heq]
  · obtain ⟨blockTable, handles, heq⟩ := hrecord hitem
    rw [heq]
  · rcases h.selects.budget with hle | hle
    · exact Or.inl (htotal.trans_le hle)
    · rcases Nat.le_one_iff_eq_zero_or_eq_one.mp hle with hzero | hone
      · rw [length_eq_zero_iff.mp hzero]
        exact Or.inl (Nat.zero_le _)
      · exact Or.inr hone
  · have := h.origin item hitem
    cases hdecode : item.fromDecode with
    | false => rfl
    | true => simp [hdecode, hsplit] at this

/-- The batch that is dispatched is well formed if and only if every queued request that takes a
place in it has the phase of its queue, is not swapped out, fits the budget, and is not taken
from the decode workers. `s₁` is the state in which `ApplyFairness` is called; the other threads
may have changed the queues since the batch was built. -/
theorem dispatchable_iff {κ : Type} [LinearOrder κ] (c : BatchingConfig) (env : SelectionEnv κ)
    (s s₁ : Queues)
    (hbatch : ∀ item ∈ (buildBatchLocked c env s).1.pending,
      s₁.requests item.pending = (buildBatchLocked c env s).2.requests item.pending) :
    let pending := (buildBatchLocked c env s).1.pending
    let fair := applyFairness c.fairness pending s₁
    Dispatchable c s₁.requests fair.queues.requests fair.pending ↔
      ∀ place displaced queued,
        preemption c.fairness pending s₁ = some (place, displaced, queued) →
          (s₁.requests queued.pending).phase = queuePhase queued.fromDecode ∧
          (s₁.requests queued.pending).isSwapped = false ∧
          (totalCost c s₁.requests (pending.set place queued) ≤ c.maxBatchTokens ∨
            pending.length = 1) ∧
          (c.useDecodeWorkers = true → queued.fromDecode = false) := by
  intro pending fair
  have hbuilt : Dispatchable c s₁.requests s₁.requests pending :=
    (buildBatchLocked_builds c env s).dispatchable hbatch
  have hkeeps (r : Nat) : (fair.queues.requests r).phase = (s₁.requests r).phase ∧
      (fair.queues.requests r).isSwapped = (s₁.requests r).isSwapped :=
    applyFairness_keeps (fun item hitem => ⟨item.fromDecode, hbuilt.phase item hitem⟩) r
  have hsame : Dispatchable c s₁.requests fair.queues.requests fair.pending ↔
      Dispatchable c s₁.requests s₁.requests fair.pending := by
    constructor
    · rintro ⟨hphase, hresident, hbudget, howned⟩
      exact ⟨fun item hitem => (hkeeps item.pending).1 ▸ hphase item hitem,
        fun item hitem => (hkeeps item.pending).2 ▸ hresident item hitem, hbudget, howned⟩
    · rintro ⟨hphase, hresident, hbudget, howned⟩
      exact ⟨fun item hitem => (hkeeps item.pending).1.trans (hphase item hitem),
        fun item hitem => (hkeeps item.pending).2.trans (hresident item hitem), hbudget, howned⟩
  rw [hsame]
  cases hpreempt : preemption c.fairness pending s₁ with
  | none => simpa [fair, applyFairness_pending_of_none hpreempt] using hbuilt
  | some taken =>
    obtain ⟨place, displaced, queued⟩ := taken
    have hlt := (List.getElem?_eq_some_iff.mp (preemption_some hpreempt).place).1
    have hfair : fair.pending = pending.set place queued := applyFairness_pending_of_some hpreempt
    have hmem : queued ∈ fair.pending := hfair ▸ mem_set hlt queued
    have hcases {item : QueueItem} (hitem : item ∈ fair.pending) : item ∈ pending ∨ item = queued :=
      mem_or_eq_of_mem_set (hfair ▸ hitem)
    constructor
    · rintro ⟨hphase, hresident, hbudget, howned⟩ place' displaced' queued' heq
      cases heq
      rw [hfair, length_set] at hbudget
      exact ⟨hphase queued hmem, hresident queued hmem, hbudget,
        fun hsplit => howned hsplit queued hmem⟩
    · intro hcond
      obtain ⟨hphase, hresident, hbudget, howned⟩ := hcond place displaced queued rfl
      refine ⟨fun item hitem => ?_, fun item hitem => ?_, ?_, fun hsplit item hitem => ?_⟩
      · rcases hcases hitem with hitem | rfl
        · exact hbuilt.phase item hitem
        · exact hphase
      · rcases hcases hitem with hitem | rfl
        · exact hbuilt.resident item hitem
        · exact hresident
      · rwa [hfair, length_set]
      · rcases hcases hitem with hitem | rfl
        · exact hbuilt.owned hsplit item hitem
        · exact howned hsplit

/-- `Generate`: a new request waits for its prefill. -/
def Queues.generate (s : Queues) (sequence : Nat) (r : PendingRequest) : Queues :=
  let maxTokens := if r.maxTokens ≤ 0 then 1 else r.maxTokens
  { s with
    requests := Function.update s.requests sequence
      { r with
        sequence, maxTokens, phase := .pending
        fairness := { r.fairness with
          remainingDecodeTokens := maxTokens, reportedPromptTokens := r.promptTokens.length } }
    pendingPrefill := s.pendingPrefill ++ [sequence] }

/-- A decode request is preempted by one that is queued for decode. -/
theorem dispatchable_decode_preempts :
    let c : BatchingConfig := { maxBatchSize := 1, fairness := { enablePreemption := true } }
    let env : SelectionEnv Nat := { score := fun _ => 0 }
    let s : Queues :=
      { requests := fun r => { sequence := r, phase := .decode, priority := if r = 1 then 9 else 0 }
        pendingDecode := [0, 1] }
    let built := buildBatchLocked c env s
    let fair := applyFairness c.fairness built.1.pending built.2
    pointers fair.pending = [1] ∧
      Dispatchable c built.2.requests fair.queues.requests fair.pending :=
  ⟨rfl, (dispatchable_iff _ _ _ _ fun _ _ => rfl).mpr fun place displaced queued h => by
    have htaken : some (0, (⟨0, true, 0⟩ : QueueItem), (⟨1, true, 0⟩ : QueueItem)) =
        some (place, displaced, queued) := h
    cases htaken
    exact ⟨rfl, rfl, Or.inr rfl, by simp⟩⟩

/-- `PriorityAgeBatchPolicy::Score`, times `kFairnessAgingDivisorMs`. -/
def priorityAgeScore (s : Queues) (ageMs : Nat → Int) (item : QueueItem) : Int :=
  (s.requests item.pending).priority * 2000 + ageMs item.pending

/-- Two requests are accepted, the second 18 s after the first and with priority 9. The batch is
built with the first; the second takes its place and is dispatched in the phase `pending`, that
is to say as a decode request. -/
theorem preempting_request_not_prefill :
    let c : BatchingConfig := { maxBatchSize := 1, fairness := { enablePreemption := true } }
    let s := ((Queues.generate { requests := fun _ => {} } 0 { promptTokens := [1] }).generate 1
      { promptTokens := [1], priority := 9 })
    let env : SelectionEnv Int := { score := priorityAgeScore s fun r => if r = 0 then 18000 else 0 }
    let built := buildBatchLocked c env s
    let fair := applyFairness c.fairness built.1.pending built.2
    fair.pending = [⟨1, false, 0⟩] ∧ (fair.queues.requests 1).phase = .pending ∧
      ¬ Dispatchable c built.2.requests fair.queues.requests fair.pending :=
  ⟨rfl, rfl, fun h => absurd (h.phase ⟨1, false, 0⟩ (mem_singleton_self _)) (by decide)⟩

/-! ## The batches of the worker threads -/

def Queues.shared (s : Queues) : Shared :=
  { pendingPrefill := s.pendingPrefill, pendingDecode := s.pendingDecode }

def selectedOf (pending : List QueueItem) : List Selected :=
  pending.map fun item => ⟨item.pending, !item.fromDecode⟩

theorem selectedOf_request (pending : List QueueItem) :
    (selectedOf pending).map Selected.request = pointers pending := by
  simp [selectedOf, pointers]

/-- `BuildBatchLocked` takes a batch that `WorkerLoop` may take, and leaves what it leaves. -/
theorem buildBatchLocked_refines {κ : Type} [LinearOrder κ] (c : BatchingConfig)
    (env : SelectionEnv κ) (s : Queues) {pool : PoolConfig}
    (hpool : pool.useDecodeWorkers = c.useDecodeWorkers)
    (hsize : pool.maxBatchSize = c.maxBatchSize) (hpos : 1 ≤ c.maxBatchSize) :
    s.shared.Selectable pool (selectedOf (buildBatchLocked c env s).1.pending) ∧
      (buildBatchLocked c env s).2.shared =
        s.shared.remove pool (selectedOf (buildBatchLocked c env s).1.pending) := by
  have h := buildBatchLocked_builds c env s
  refine ⟨⟨?_, ?_, fun item hitem => ?_⟩, ?_⟩
  · rw [selectedOf_request]
    exact h.selects.nodup
  · have hlength := buildBatchLocked_length c env s hpos
    simp only [selectedOf, length_map, hsize]
    omega
  · obtain ⟨a, ha, rfl⟩ := mem_map.mp hitem
    have horigin := h.origin a ha
    cases hdecode : a.fromDecode with
    | true => simpa [hdecode, hpool, Queues.shared] using horigin
    | false => simpa [hdecode, Queues.shared] using horigin
  · simp [Shared.remove, selectedOf_request, hpool, Queues.shared, h.prefill, h.decode]

/-- Both queues hold a request twice, and one request is in both of them. -/
theorem buildBatchLocked_refines_duplicates :
    let c : BatchingConfig := { maxBatchSize := 2 }
    let pool : PoolConfig := { maxBatchSize := 2 }
    let s : Queues :=
      { requests := fun r => { sequence := r }
        pendingPrefill := [0, 1, 0], pendingDecode := [2, 1, 2, 3] }
    let env : SelectionEnv Int := { score := priorityAgeScore s fun r => if r = 2 then 500 else 0 }
    let built := buildBatchLocked c env s
    selectedOf built.1.pending = [⟨2, false⟩, ⟨0, true⟩] ∧
      built.2.pendingPrefill = [1] ∧ built.2.pendingDecode = [3] ∧
      s.shared.Selectable pool (selectedOf built.1.pending) ∧
      built.2.shared = s.shared.remove pool (selectedOf built.1.pending) :=
  ⟨rfl, rfl, rfl, buildBatchLocked_refines _ _ _ rfl rfl (by decide)⟩

end InferFlux.Scheduler.Batching
