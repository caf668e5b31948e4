import InferFlux.Execution.GeneratedText

/-!
# The unified phased executor

Embeds `PlanFairnessSlice`, `FinalizeFairnessSlice` and
`BatchExecutor::ExecuteUnifiedBatchPhased` from `runtime/execution/batch_executor.cpp`: one
fairness slice of a batch, from seeding each request over the prefill and decode loop with
its guard of 10000 rounds to the results.

The backend is a state machine that answers a list of inputs; an empty answer is a failed
step, on the asynchronous lanes as on the synchronous call. It also says which requests their
clients have cancelled: the flags are loaded at the head of each round, for its two passes over
the requests, and again when the outputs are read. The floating-point budget of mixed prefill
steps is a function of the tuning.
-/

namespace InferFlux.Execution

open InferFlux.Text

structure FairnessSlicePlan where
  decodeLimit : Int := 1
  maxNonEmittingSteps : Int := 32
  sliceActive : Bool := false
  deriving DecidableEq, Repr

def maxNonEmittingSteps (maxTokens : Int) : Int := max (maxTokens * 8) 32

def isNonAccumulatingCompletion (text : Bytes) : Bool :=
  text == kBatchStateErrorText || isBackendEmptyResponse text

def InferenceRequest.resultModelId (req : InferenceRequest) : String :=
  if req.resolvedModel.isEmpty then req.model else req.resolvedModel

def InferenceRequest.resultPromptTokens (req : InferenceRequest) : Int :=
  if req.fairness.reportedPromptTokens ≥ 0 then req.fairness.reportedPromptTokens
  else req.promptTokens.length

/-- The decode limit of a slice: the request's budget, what remains of it, the timeslice and
the decode burst, and at least one token. -/
def sliceDecodeLimit (req : InferenceRequest) (decodeBurstTokens : Int) : Int :=
  let limit := req.maxTokens
  let limit :=
    if req.fairness.remainingDecodeTokens ≥ 0 then min limit req.fairness.remainingDecodeTokens
    else limit
  let slice := req.fairness.timesliceTokens
  let limit := if slice > 0 then min limit slice else limit
  let limit := if decodeBurstTokens > 0 then min limit decodeBurstTokens else limit
  if limit ≤ 0 then 1 else limit

def InferenceRequest.beginSlice (req : InferenceRequest) : InferenceRequest :=
  { req with fairness := { req.fairness with
    yielded := false
    lastTimesliceTokens := req.fairness.timesliceTokens
    timesliceTokens := 0 } }

def planFairnessSlice (req : InferenceRequest) (out : InferenceResult) (decodeBurstTokens : Int) :
    FairnessSlicePlan × InferenceRequest × InferenceResult :=
  ({ decodeLimit := sliceDecodeLimit req decodeBurstTokens
     maxNonEmittingSteps := maxNonEmittingSteps req.maxTokens
     sliceActive := req.fairness.timesliceTokens > 0 || decodeBurstTokens > 0 },
    req.beginSlice,
    { out with modelId := req.resultModelId, promptTokens := req.resultPromptTokens })

/-- The decode budget left after a slice that generated `gen` tokens; `-1` when the request
has none. -/
def FairnessState.remainingAfterSlice (fairness : FairnessState) (gen : Int) : Int :=
  if fairness.remainingDecodeTokens ≥ 0 then max 0 (fairness.remainingDecodeTokens - gen) else -1

/-- Append the text of a slice to the accumulated output, reserved messages excepted. -/
def InferenceRequest.accumulateOutput (req : InferenceRequest) (completion : Bytes) :
    InferenceRequest :=
  if !completion.isEmpty && !isNonAccumulatingCompletion completion then
    { req with accumulatedOutput := req.accumulatedOutput ++ completion }
  else req

/-- Record the decode budget that is left, if the request has one. -/
def InferenceRequest.updateRemaining (req : InferenceRequest) (remaining : Int) :
    InferenceRequest :=
  if req.fairness.remainingDecodeTokens ≥ 0 then
    { req with fairness := { req.fairness with remainingDecodeTokens := remaining } }
  else req

def finalizeFairnessSlice (req : InferenceRequest) (out : InferenceResult) (gen : Int)
    (sliceActive : Bool) (decodeLimit currentToken : Int) : InferenceRequest × InferenceResult :=
  let remainingAfterSlice := req.fairness.remainingAfterSlice gen
  let req := { req with fairness := { req.fairness with
    serviceTokens := req.fairness.serviceTokens + gen
    totalCompletionTokens := req.fairness.totalCompletionTokens + gen } }
  let exhausted := sliceActive && gen ≥ decodeLimit
  let (req, out) :=
    if sliceActive && exhausted && remainingAfterSlice > 0 then
      ({ req with
          fairness := { req.fairness with yielded := true }
          phase := .pending
          firstToken := currentToken }, out)
    else
      let (req, completion) :=
        finishGeneratedText { req with phase := .finished, firstToken := -1 } out.completion
      (req, { out with completion })
  let req := { req with firstPiece := [] }.accumulateOutput out.completion
  (req.updateRemaining remainingAfterSlice, out)

def hasValidUnifiedPhasedState (req : InferenceRequest) : Bool :=
  if req.nPast < 0 || req.sequenceId < 0 then false
  else if req.firstToken ≥ 0 then true
  else if req.nPast = 0 && !req.bpePromptTokens.isEmpty then true
  else req.nPast > 0 && !req.bpePromptTokens.isEmpty && req.prefillOffset > 0 &&
    req.prefillOffset < req.bpePromptTokens.length

structure UnifiedBatchInput where
  sequenceId : Int := 0
  nPast : Int := 0
  tokens : List Int := []
  requestLogits : Bool := true
  deriving DecidableEq, Repr

structure UnifiedBatchOutput where
  token : Int := -1
  piece : Bytes := []
  ok : Bool := false
  deriving DecidableEq, Repr

structure Backend (σ : Type) where
  unifiedBatchTokenCapacity : Int
  executeUnifiedBatch : σ → List UnifiedBatchInput → List UnifiedBatchOutput × σ
  /-- The sequences whose cancellation flags are found set when they are loaded. -/
  cancelled : σ → (Int → Bool) × σ := fun s => (fun _ => false, s)

structure UnifiedBatchTuning where
  decodeBurstTokens : Int := 0
  chunkedPrefillTokens : Int := 512
  /-- `floor(capacity * mixed_prefill_budget_ratio)`. -/
  mixedPrefillBudget : Int → Int := id

def computePrefillChunkCap (backendStepTokenCap activeDecodeReqs activePrefillReqs : Int)
    (tuning : UnifiedBatchTuning) : Int :=
  let boundedChunkLimit := max 1 (min tuning.chunkedPrefillTokens backendStepTokenCap)
  let scaledPrefillBudget := max 1 (tuning.mixedPrefillBudget backendStepTokenCap)
  let prefillTokenBudget := max 1 (min boundedChunkLimit scaledPrefillBudget - activeDecodeReqs)
  if activePrefillReqs ≤ 0 then boundedChunkLimit
  else max 1 (min boundedChunkLimit (Int.tdiv prefillTokenBudget activePrefillReqs))

/-- A request of the batch with its loop state and its result. -/
structure Slot where
  req : InferenceRequest
  state : ReqState
  result : InferenceResult
  deriving DecidableEq, Repr

/-- The first loop: plan the slice and emit the token sampled before it, if there is one. -/
def seedSlot (tuning : UnifiedBatchTuning) (req : InferenceRequest) : Slot :=
  let (plan, req, out) := planFairnessSlice req {} tuning.decodeBurstTokens
  let state : ReqState :=
    { decodeLimit := plan.decodeLimit
      maxNonEmittingSteps := plan.maxNonEmittingSteps
      sliceActive := plan.sliceActive }
  if req.nPast ≥ 0 && req.firstToken ≥ 0 then
    let state := { state with currentToken := req.firstToken }
    if isVisibleGeneratedPiece req.firstPiece then
      let state := { state with tokensGenerated := 1 }
      let (stopHit, req, completion) := appendGeneratedPiece req req.firstPiece out.completion
      let state :=
        if stopHit then state.deactivate .stop
        else if req.cancellationFlag then state.deactivate .cancelled
        else state
      ⟨req, state, { out with completion }⟩
    else ⟨req, { state with nonEmittingSteps := 1 }, out⟩
  else if req.nPast = 0 && !req.bpePromptTokens.isEmpty then
    ⟨req, { state with inPrefill := true }, out⟩
  else if req.nPast > 0 && !req.bpePromptTokens.isEmpty && req.prefillOffset > 0 &&
      req.prefillOffset < req.bpePromptTokens.length then
    ⟨req.setNPast req.prefillOffset, { state with inPrefill := true }, out⟩
  else ⟨req, state.deactivate .stateError, { out with completion := kBatchStateErrorText }⟩

namespace Slot

/-- The slot with its request's cancellation flag as it is loaded. -/
def load (cancelled : Int → Bool) (slot : Slot) : Slot :=
  { slot with
    req.cancellationFlag := slot.req.cancellationFlag || cancelled slot.req.sequenceId }

@[simp]
theorem load_false : load (fun _ => false) = id := by
  funext slot
  simp [load]

def wantsPrefill (slot : Slot) : Bool :=
  slot.state.active && !slot.req.cancellationFlag && slot.state.inPrefill

def wantsDecode (slot : Slot) : Bool :=
  slot.state.active && !slot.req.cancellationFlag && !slot.state.inPrefill &&
    slot.state.tokensGenerated < slot.state.decodeLimit

/-- The input of the next step, or the reason why the slot has none. -/
def buildInput (prefillChunkCap : Int) (slot : Slot) : Slot × Option UnifiedBatchInput :=
  if !slot.state.active then (slot, none)
  else if slot.req.cancellationFlag then
    ({ slot with state := slot.state.deactivate .cancelled }, none)
  else if slot.state.inPrefill then
    let remaining := slot.req.bpePromptTokens.length - slot.req.prefillOffset
    let chunkSize := min remaining prefillChunkCap
    if chunkSize ≤ 0 then ({ slot with state := { slot.state with inPrefill := false } }, none)
    else
      let isLastChunk : Bool :=
        slot.req.prefillOffset + chunkSize ≥ slot.req.bpePromptTokens.length
      let chunk := (slot.req.bpePromptTokens.drop slot.req.prefillOffset.toNat).take chunkSize.toNat
      (slot, some
        { sequenceId := slot.req.sequenceId
          nPast := slot.req.prefillOffset
          tokens := chunk
          requestLogits := isLastChunk })
  else if slot.state.tokensGenerated < slot.state.decodeLimit then
    (slot, some
      { sequenceId := slot.req.sequenceId
        nPast := slot.req.nPast
        tokens := [slot.state.currentToken] })
  else ({ slot with state := slot.state.deactivate .limit }, none)

/-- A sampled token: its piece is appended if it is visible, and counted as a step that
emits nothing otherwise. -/
def acceptToken (slot : Slot) (res : UnifiedBatchOutput) (cancelled : Bool) : Slot :=
  let state := { slot.state with currentToken := res.token }
  if isVisibleGeneratedPiece res.piece then
    let state := { state with tokensGenerated := state.tokensGenerated + 1 }
    let (stopHit, req, completion) :=
      appendGeneratedPiece slot.req res.piece slot.result.completion
    let state := if cancelled then state.deactivate .cancelled else state
    let state := if stopHit then state.deactivate .stop else state
    ⟨req, state, { slot.result with completion }⟩
  else
    let state := { state with nonEmittingSteps := state.nonEmittingSteps + 1 }
    let state :=
      if state.nonEmittingSteps ≥ state.maxNonEmittingSteps then state.deactivate .nonEmitting
      else state
    { slot with state }

/-- The output for a slot's input; `cancelled` is its request's flag when a token is accepted. -/
def consumeOutput (slot : Slot) (input : UnifiedBatchInput) (res : UnifiedBatchOutput)
    (cancelled : Bool := slot.req.cancellationFlag) : Slot :=
  if slot.state.inPrefill then
    let prefillOffset := slot.req.prefillOffset + input.tokens.length
    if !res.ok && prefillOffset < slot.req.bpePromptTokens.length then
      { slot with state := { slot.state.deactivate .failed with inPrefill := false } }
    else
      let req := { slot.req with prefillOffset, nPast := prefillOffset }
      if prefillOffset ≥ req.bpePromptTokens.length then
        let state := { slot.state with inPrefill := false }
        let req :=
          if res.ok then
            { req with cacheReusedTokens := req.cacheReusePendingTokens, cachePrefillComplete := true }
          else req
        if !res.ok || res.token < 0 then { slot with req, state := state.deactivate .terminal }
        else { slot with req, state }.acceptToken res false
      else { slot with req }
  else
    let req := slot.req.setNPast (slot.req.nPast + 1)
    if !res.ok || res.token < 0 then
      { slot with req, state := slot.state.deactivate .terminal }
    else { slot with req }.acceptToken res cancelled

def finalize (slot : Slot) : Slot :=
  let gen := slot.state.tokensGenerated
  let completion :=
    if gen = 0 && slot.result.completion.isEmpty then kBackendEmptyResponseText
    else slot.result.completion
  let out := { slot.result with completion, completionTokens := gen }
  let (req, out) := finalizeFairnessSlice slot.req out gen slot.state.sliceActive
    slot.state.decodeLimit slot.state.currentToken
  ⟨req, slot.state, out⟩

end Slot

/-- Hand the outputs of a step to the slots that had an input, in order. -/
def scatterOutputs (cancelled : Int → Bool) :
    List (Slot × Option UnifiedBatchInput) → List UnifiedBatchOutput → List Slot
  | [], _ => []
  | (slot, none) :: built, step => slot :: scatterOutputs cancelled built step
  | (slot, some input) :: built, step =>
    slot.consumeOutput input (step.headD {})
        (slot.req.cancellationFlag || cancelled slot.req.sequenceId) ::
      scatterOutputs cancelled built step.tail

section Loop

variable {σ : Type} (backend : Backend σ) (tuning : UnifiedBatchTuning)

def Backend.loadSlots (slots : List Slot) (s : σ) : List Slot × σ :=
  (slots.map (Slot.load (backend.cancelled s).1), (backend.cancelled s).2)

/-- No client cancels its request. -/
def Backend.Quiet : Prop := ∀ s, backend.cancelled s = (fun _ => false, s)

theorem Backend.Quiet.loadSlots {backend : Backend σ} (h : backend.Quiet) (slots : List Slot)
    (s : σ) : backend.loadSlots slots s = (slots, s) := by
  simp [Backend.loadSlots, h s]

/-- The prefill and decode loop, for at most as many rounds as the guard admits. -/
def unifiedLoop : Nat → List Slot → σ → List Slot × σ
  | 0, slots, s => (slots, s)
  | rounds + 1, slots, s =>
    let (slots, s) := backend.loadSlots slots s
    let prefillChunkCap :=
      computePrefillChunkCap (max 1 backend.unifiedBatchTokenCapacity)
        (slots.countP Slot.wantsDecode) (slots.countP Slot.wantsPrefill) tuning
    let built := slots.map (Slot.buildInput prefillChunkCap)
    let batchInputs := built.filterMap Prod.snd
    if batchInputs.isEmpty then (built.map Prod.fst, s)
    else
      let (step, s) := backend.executeUnifiedBatch s batchInputs
      if step.isEmpty then
        (built.map fun b =>
          if b.2.isSome then { b.1 with state := b.1.state.deactivate .failed } else b.1, s)
      else
        let (cancelled, s) := backend.cancelled s
        unifiedLoop rounds (scatterOutputs cancelled built step) s

def kDeadlockGuard : Nat := 10000

/-- `ExecuteUnifiedBatchPhased`: the requests with their results after one slice. -/
def executeUnifiedBatchPhased (reqs : List InferenceRequest) (s : σ) : List Slot × σ :=
  let (slots, s) := unifiedLoop backend tuning kDeadlockGuard (reqs.map (seedSlot tuning)) s
  (slots.map Slot.finalize, s)

end Loop

end InferFlux.Execution
