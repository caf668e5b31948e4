import InferFlux.Execution.UnifiedPhased
import InferFlux.Library.Grouping

/-!
# The two lanes of an asynchronous step

Embeds `RunAsyncUnifiedLanes` from `runtime/execution/batch_executor.cpp`: the inputs of a
batch are dealt to a decode and a prefill lane, both lanes are submitted before either is
awaited, and each lane's outputs are written back at its inputs' positions in the batch.
-/

namespace InferFlux.Execution

open Grouping List

inductive UnifiedBatchLane where
  | decode
  | prefill
  deriving DecidableEq, Repr

/-- The handle 0 is a refused submission; an answer that does not come in time is `none`. -/
structure AsyncBackend (σ : Type) where
  submitUnifiedBatchAsync : σ → List UnifiedBatchInput → UnifiedBatchLane → Nat × σ
  waitForUnifiedBatchAsync : σ → Nat → Option (List UnifiedBatchOutput) × σ

abbrev LaneInputs := List (UnifiedBatchInput × Nat)

def assignLanes (isPrefill : Nat → Bool) (batchInputs : List UnifiedBatchInput) :
    LaneInputs × LaneInputs :=
  batchInputs.zipIdx.foldl (fun lanes entry =>
    if isPrefill entry.2 then (lanes.1, lanes.2 ++ [entry]) else (lanes.1 ++ [entry], lanes.2))
    ([], [])

/-- A lane with the handle of its submission and what came back for it. -/
structure LaneRun where
  entries : LaneInputs
  handle : Nat
  answer : Option (List UnifiedBatchOutput)

/-- `collect_lane`, on the success flag and the outputs so far. -/
def LaneRun.collectLane (lane : LaneRun) (ok : Bool) (outputs : List UnifiedBatchOutput) :
    Bool × List UnifiedBatchOutput :=
  if lane.handle = 0 then (ok, outputs)
  else
    match lane.answer with
    | none => (false, outputs)
    | some laneOutputs =>
      if laneOutputs.length ≠ lane.entries.length then (false, outputs)
      else (ok, scatter outputs ((lane.entries.map Prod.snd).zip laneOutputs))

structure LanesRun (σ : Type) where
  decode : LaneRun
  prefill : LaneRun
  ok : Bool
  outputs : List UnifiedBatchOutput
  backend : σ

def resize (outputs : List UnifiedBatchOutput) (n : Nat) : List UnifiedBatchOutput :=
  outputs.take n ++ replicate (n - outputs.length) ({} : UnifiedBatchOutput)

section Run

variable {σ : Type} (backend : AsyncBackend σ)

def submitLane (ok : Bool) (entries : LaneInputs) (lane : UnifiedBatchLane) (s : σ) :
    Bool × Nat × σ :=
  if ok && !entries.isEmpty then
    let (handle, s) := backend.submitUnifiedBatchAsync s (entries.map Prod.fst) lane
    (handle != 0, handle, s)
  else (ok, 0, s)

def awaitLane (handle : Nat) (s : σ) : Option (List UnifiedBatchOutput) × σ :=
  if handle = 0 then (none, s) else backend.waitForUnifiedBatchAsync s handle

/-- `RunAsyncUnifiedLanes`, with what became of each lane. -/
def runAsyncUnifiedLanes (batchInputs : List UnifiedBatchInput) (isPrefill : Nat → Bool)
    (outputs : List UnifiedBatchOutput) (s : σ) : LanesRun σ :=
  let (decodeInputs, prefillInputs) := assignLanes isPrefill batchInputs
  let outputs := resize outputs batchInputs.length
  let (ok, decodeHandle, s) := submitLane backend true decodeInputs .decode s
  let (ok, prefillHandle, s) := submitLane backend ok prefillInputs .prefill s
  let (decodeAnswer, s) := awaitLane backend decodeHandle s
  let decode : LaneRun := ⟨decodeInputs, decodeHandle, decodeAnswer⟩
  let (ok, outputs) := decode.collectLane ok outputs
  let (prefillAnswer, s) := awaitLane backend prefillHandle s
  let prefill : LaneRun := ⟨prefillInputs, prefillHandle, prefillAnswer⟩
  let (ok, outputs) := prefill.collectLane ok outputs
  ⟨decode, prefill, ok, outputs, s⟩

end Run

theorem assignLanes_eq (isPrefill : Nat → Bool) (batchInputs : List UnifiedBatchInput) :
    assignLanes isPrefill batchInputs = (batchInputs.zipIdx.filter fun entry => !isPrefill entry.2,
      batchInputs.zipIdx.filter fun entry => isPrefill entry.2) := by
  have hloop (entries decode prefill : LaneInputs) :
      entries.foldl (fun lanes entry => if isPrefill entry.2 then (lanes.1, lanes.2 ++ [entry])
        else (lanes.1 ++ [entry], lanes.2)) (decode, prefill) =
      (decode ++ entries.filter fun entry => !isPrefill entry.2,
        prefill ++ entries.filter fun entry => isPrefill entry.2) := by
    induction entries generalizing decode prefill with
    | nil => simp
    | cons entry entries ih =>
      cases hlane : isPrefill entry.2 <;> simp [hlane, ih]
  exact hloop _ [] []

def submitted (entries : LaneInputs) (handle : Nat) : Bool := entries.isEmpty || handle != 0

variable {σ : Type}

namespace LaneRun

/-- The backend has been given the lane's inputs if the lane is to be submitted and has any, and
has returned its handle. -/
def Submitted (backend : AsyncBackend σ) (ok : Bool) (kind : UnifiedBatchLane) (s : σ)
    (lane : LaneRun) (s' : σ) : Prop :=
  if ok && !lane.entries.isEmpty then
    backend.submitUnifiedBatchAsync s (lane.entries.map Prod.fst) kind = (lane.handle, s')
  else lane.handle = 0 ∧ s' = s

/-- The backend has been asked for the lane's outputs if it took the lane, and has answered. -/
def Awaited (backend : AsyncBackend σ) (s : σ) (lane : LaneRun) (s' : σ) : Prop :=
  if lane.handle = 0 then lane.answer = none ∧ s' = s
  else backend.waitForUnifiedBatchAsync s lane.handle = (lane.answer, s')

variable (lane : LaneRun)

/-- Nothing was to be done, or the lane was submitted and answered each of its inputs. -/
def Succeeds : Prop :=
  lane.entries = [] ∨ lane.handle ≠ 0 ∧ lane.answer.map length = some lane.entries.length

instance : Decidable lane.Succeeds := inferInstanceAs (Decidable (_ ∨ _))

def writes : List (Nat × UnifiedBatchOutput) :=
  if lane.Succeeds then (lane.entries.map Prod.snd).zip (lane.answer.getD []) else []

theorem collectLane_eq {backend : AsyncBackend σ} {submits : Bool} {kind : UnifiedBatchLane}
    {s s' : σ} (hsubmit : lane.Submitted backend submits kind s s') (ok : Bool)
    (outputs : List UnifiedBatchOutput) :
    lane.collectLane (submitted lane.entries lane.handle && ok) outputs =
      (decide lane.Succeeds && ok, scatter outputs lane.writes) := by
  obtain ⟨entries, handle, answer⟩ := lane
  unfold collectLane submitted writes Succeeds
  by_cases hhandle : handle = 0
  · by_cases hnil : entries = [] <;> simp [hhandle, hnil, scatter]
  · have hne : entries ≠ [] := by
      rintro rfl
      simp [Submitted, hhandle] at hsubmit
    cases answer with
    | none => simp [hhandle, hne, scatter]
    | some outs =>
      by_cases hlen : outs.length = entries.length <;> simp [hhandle, hne, hlen, scatter]

variable {lane}

theorem map_fst_writes_sublist : (lane.writes.map Prod.fst).Sublist (lane.entries.map Prod.snd) := by
  by_cases h : lane.Succeeds
  · rw [writes, if_pos h, map_fst_zip]
    rcases h with hnil | ⟨-, hlen⟩
    · simp [hnil]
    · obtain ⟨outs, hans, hlen⟩ := Option.map_eq_some_iff.mp hlen
      simp [hans, hlen]
  · simp [writes, h]

end LaneRun

theorem submitLane_eq (backend : AsyncBackend σ) (ok : Bool) (entries : LaneInputs)
    (lane : UnifiedBatchLane) (s : σ) : ∃ handle s',
      (∀ answer, LaneRun.Submitted backend ok lane s ⟨entries, handle, answer⟩ s') ∧
      submitLane backend ok entries lane s = (ok && submitted entries handle, handle, s') := by
  unfold submitLane LaneRun.Submitted
  cases ok with
  | false => exact ⟨0, s, fun _ => ⟨rfl, rfl⟩, rfl⟩
  | true =>
    cases entries with
    | nil => exact ⟨0, s, fun _ => ⟨rfl, rfl⟩, rfl⟩
    | cons entry entries => exact ⟨_, _, fun _ => by simp, rfl⟩

variable (backend : AsyncBackend σ) (batchInputs : List UnifiedBatchInput) (isPrefill : Nat → Bool)
  (outputs : List UnifiedBatchOutput) (s : σ)

theorem awaited_awaitLane (entries : LaneInputs) (handle : Nat) (s : σ) :
    LaneRun.Awaited backend s ⟨entries, handle, (awaitLane backend handle s).1⟩
      (awaitLane backend handle s).2 := by
  unfold LaneRun.Awaited awaitLane
  split_ifs <;> simp

/-- Both lanes are submitted before either is awaited. -/
def LaneRun.Called (decode prefill : LaneRun) (s' : σ) : Prop :=
  ∃ s₁ s₂ s₃, decode.Submitted backend true .decode s s₁ ∧
    prefill.Submitted backend (submitted decode.entries decode.handle) .prefill s₁ s₂ ∧
    decode.Awaited backend s₂ s₃ ∧ prefill.Awaited backend s₃ s'

theorem runAsyncUnifiedLanes_eq : ∃ decode prefill s',
    LaneRun.Called backend s decode prefill s' ∧
    decode.entries = batchInputs.zipIdx.filter (fun entry => !isPrefill entry.2) ∧
    prefill.entries = batchInputs.zipIdx.filter (fun entry => isPrefill entry.2) ∧
    runAsyncUnifiedLanes backend batchInputs isPrefill outputs s =
      ⟨decode, prefill, decide prefill.Succeeds && decide decode.Succeeds,
        scatter (resize outputs batchInputs.length) (decode.writes ++ prefill.writes), s'⟩ := by
  unfold runAsyncUnifiedLanes
  rw [assignLanes_eq]
  generalize batchInputs.zipIdx.filter (fun entry => !isPrefill entry.2) = decodeInputs
  generalize batchInputs.zipIdx.filter (fun entry => isPrefill entry.2) = prefillInputs
  obtain ⟨decodeHandle, s₁, hdecode, hsubmit⟩ := submitLane_eq backend true decodeInputs .decode s
  obtain ⟨prefillHandle, s₂, hprefill, hsubmit'⟩ := submitLane_eq backend
    (submitted decodeInputs decodeHandle) prefillInputs .prefill s₁
  generalize hdecodeWait : awaitLane backend decodeHandle s₂ = decodeWait
  generalize hprefillWait : awaitLane backend prefillHandle decodeWait.2 = prefillWait
  refine ⟨⟨decodeInputs, decodeHandle, decodeWait.1⟩, ⟨prefillInputs, prefillHandle, prefillWait.1⟩,
    prefillWait.2, ⟨s₁, s₂, decodeWait.2, hdecode _, hprefill _, ?_, ?_⟩, rfl, rfl, ?_⟩
  · exact hdecodeWait ▸ awaited_awaitLane backend decodeInputs decodeHandle s₂
  · exact hprefillWait ▸ awaited_awaitLane backend prefillInputs prefillHandle decodeWait.2
  -- collecting a lane turns the flag of its submission into that of its success
  have hcollect := LaneRun.collectLane_eq ⟨decodeInputs, decodeHandle, decodeWait.1⟩ (hdecode _)
    (submitted prefillInputs prefillHandle) (resize outputs batchInputs.length)
  have hcollect' := LaneRun.collectLane_eq ⟨prefillInputs, prefillHandle, prefillWait.1⟩ (hprefill _)
  simp [hsubmit, hsubmit', hdecodeWait, hprefillWait, hcollect,
    Bool.and_comm (decide _) (submitted _ _), hcollect', scatter_append]

/-- Every input is in one lane, in the order of the batch, and the handles and answers are those
that the backend gave for the lanes. The call reports success if both
lanes succeed; a lane that succeeds has its outputs at its inputs' positions, one that does
not leaves its positions as they were. -/
theorem lanes_cover_batch (outputs : List UnifiedBatchOutput) :
    let r := runAsyncUnifiedLanes backend batchInputs isPrefill outputs s
    LaneRun.Called backend s r.decode r.prefill r.backend ∧
    r.decode.entries = batchInputs.zipIdx.filter (fun entry => !isPrefill entry.2) ∧
    r.prefill.entries = batchInputs.zipIdx.filter (fun entry => isPrefill entry.2) ∧
    (r.ok = true ↔ r.decode.Succeeds ∧ r.prefill.Succeeds) ∧
    r.outputs.length = batchInputs.length ∧
    ∀ lane ∈ [r.decode, r.prefill],
      (lane.Succeeds → ∀ entry output, (entry, output) ∈ lane.entries.zip (lane.answer.getD []) →
        r.outputs[entry.2]? = some output) ∧
      (¬ lane.Succeeds → ∀ entry ∈ lane.entries,
        r.outputs[entry.2]? = (resize outputs batchInputs.length)[entry.2]?) := by
  obtain ⟨decode, prefill, s', hcalled, hdecode, hprefill, heq⟩ :=
    runAsyncUnifiedLanes_eq backend batchInputs isPrefill outputs s
  have hlen : (resize outputs batchInputs.length).length = batchInputs.length := by
    simp [resize]
    omega
  have hpositions : (decode.entries.map Prod.snd ++ prefill.entries.map Prod.snd).Nodup := by
    have hperm := perm_append_comm.trans
      (filter_append_perm (fun entry => isPrefill entry.2) batchInputs.zipIdx)
    rw [← map_append, hdecode, hprefill, (hperm.map Prod.snd).nodup_iff, zipIdx_map_snd]
    exact nodup_range'
  have hdisjoint := (nodup_append.mp hpositions).2.2
  have hnodup : ((decode.writes ++ prefill.writes).map Prod.fst).Nodup := by
    rw [map_append]
    exact (LaneRun.map_fst_writes_sublist.append LaneRun.map_fst_writes_sublist).nodup hpositions
  have hstored {lane : LaneRun} {p : UnifiedBatchInput × Nat → Bool}
      (hlane : lane.writes ⊆ decode.writes ++ prefill.writes)
      (hentries : lane.entries = batchInputs.zipIdx.filter p) (hsucceeds : lane.Succeeds)
      (entry : UnifiedBatchInput × Nat) (output : UnifiedBatchOutput)
      (hmem : (entry, output) ∈ lane.entries.zip (lane.answer.getD [])) :
      (scatter (resize outputs batchInputs.length) (decode.writes ++ prefill.writes))[entry.2]? =
        some output := by
    refine getElem?_scatter_of_mem hnodup (hlane ?_) ?_
    · rw [LaneRun.writes, if_pos hsucceeds, zip_map_left]
      exact mem_map_of_mem hmem
    · rw [hlen]
      exact (mem_zipIdx' (mem_of_mem_filter (hentries ▸ (of_mem_zip hmem).1))).1
  rw [heq]
  refine ⟨hcalled, hdecode, hprefill, by simp [and_comm], length_scatter.trans hlen, ?_⟩
  simp only [forall_mem_cons, not_mem_nil, false_imp_iff, implies_true, and_true]
  constructor
  · refine ⟨hstored (subset_append_left _ _) hdecode, fun hfails entry hentry => ?_⟩
    have hnone : decode.writes = [] := if_neg hfails
    refine getElem?_scatter_of_notMem ?_
    rw [hnone, nil_append]
    exact fun hi => hdisjoint _ (mem_map_of_mem hentry) _
      (LaneRun.map_fst_writes_sublist.subset hi) rfl
  · refine ⟨hstored (subset_append_right _ _) hprefill, fun hfails entry hentry => ?_⟩
    have hnone : prefill.writes = [] := if_neg hfails
    refine getElem?_scatter_of_notMem ?_
    rw [hnone, append_nil]
    exact fun hi => hdisjoint _ (LaneRun.map_fst_writes_sublist.subset hi) _
      (mem_map_of_mem hentry) rfl

/-- Two inputs are decoded and one is in its prompt. -/
theorem lanes_cover_batch_both :
    let backend : AsyncBackend Nat :=
      { submitUnifiedBatchAsync := fun s _ _ => (s + 1, s + 1)
        waitForUnifiedBatchAsync := fun s handle =>
          (some (if handle = 1 then [{ token := 5 }, { token := 6 }] else [{ token := 7 }]), s) }
    let r := runAsyncUnifiedLanes backend [{ sequenceId := 0 }, { sequenceId := 1 },
      { sequenceId := 2 }] (· == 1) [] 0
    LaneRun.Called backend 0 r.decode r.prefill r.backend ∧
      r.decode.Succeeds ∧ r.prefill.Succeeds ∧ r.ok = true ∧
      r.outputs = [{ token := 5 }, { token := 7 }, { token := 6 }] := by
  intro backend r
  obtain ⟨hcalled, -, -, hok, -⟩ := lanes_cover_batch backend [{ sequenceId := 0 },
    { sequenceId := 1 }, { sequenceId := 2 }] (· == 1) 0 []
  have hr : r.ok = true := by decide
  exact ⟨hcalled, (hok.mp hr).1, (hok.mp hr).2, hr, by decide⟩

end InferFlux.Execution
