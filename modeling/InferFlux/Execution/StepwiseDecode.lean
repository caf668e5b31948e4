import InferFlux.Execution.StreamRun

/-!
# Decoding step by step

Embeds the step-wise path of the decode workers: `PrimeUnifiedDecodeStepState`,
`ShouldContinueUnifiedDecodeStep`, `SyncUnifiedDecodeStepProgress` and
`FinalizeUnifiedDecodeStepResult` from `scheduler/scheduler.cpp`, and
`BatchExecutor::ExecuteUnifiedBatchStep` with its two burst paths. The decode state lives in
the request between the steps; a request is requeued until it should not continue.

A burst that the backend or the sampling parameters rule out is one the backend declines.
-/

namespace InferFlux.Execution

open InferFlux.Text UnifiedBatchOutput ReqState InferenceRequest Bool

structure BurstDecodeOutput where
  token : Int := -1
  piece : Bytes := []
  terminal : Bool := false
  deriving DecidableEq, Repr

structure BurstTokenEvent where
  inputIdx : Nat := 0
  tokenId : Int := -1
  piece : Bytes := []
  deriving DecidableEq, Repr

structure StepBackend (σ : Type) where
  unifiedBatchTokenCapacity : Int
  executeUnifiedBatch : σ → List UnifiedBatchInput → List UnifiedBatchOutput × σ
  /-- `TryGreedyBurstDecodeTokens`, given the sequence, its position, its last token and the
  number of tokens to go. -/
  tryGreedyBurstDecodeTokens : σ → Int → Int → Int → Int → Option (List BurstDecodeOutput) × σ :=
    fun s _ _ _ _ => (none, s)
  /-- `ExecuteUnifiedBatchBurst`: the tokens passed to the sink and the finished inputs. -/
  executeUnifiedBatchBurst :
      σ → List UnifiedBatchInput → Option (List BurstTokenEvent × List Bool) × σ :=
    fun s _ => (none, s)

/-- The backend without its bursts, as long as no client cancels. -/
abbrev StepBackend.toBackend {σ : Type} (backend : StepBackend σ) : Backend σ where
  unifiedBatchTokenCapacity := backend.unifiedBatchTokenCapacity
  executeUnifiedBatch := backend.executeUnifiedBatch

def InferenceRequest.setState (req : InferenceRequest) (state : ReqState) : InferenceRequest :=
  { req with execution := { req.execution with toReqState := state } }

def ReqState.deactivateIf (state : ReqState) (ended : Bool) (cause : EndCause) : ReqState :=
  if ended then state.deactivate cause else state

namespace ReqState

/-- Only `active` and `cause` may change. -/
@[simp] theorem deactivateIf_eq (state : ReqState) (ended : Bool) (cause : EndCause) :
    state.deactivateIf ended cause = { state with
      active := state.active && !ended
      cause := if ended then state.cause.or (some cause) else state.cause } := by
  cases ended <;> simp [deactivateIf, deactivate]

end ReqState

namespace Stepwise

def resetUnifiedStepState (req : InferenceRequest) : InferenceRequest := { req with execution := {} }

def syncCounts (req : InferenceRequest) : InferenceRequest :=
  { req with
    accumulatedOutput := req.execution.result.completion
    fairness := { req.fairness with
      totalCompletionTokens := req.execution.tokensGenerated
      remainingDecodeTokens :=
        max 0 (req.execution.decodeLimit - req.execution.tokensGenerated) } }

def acceptToken (req : InferenceRequest) (token : Int) (piece : Bytes) (cancelled : Bool) :
    InferenceRequest :=
  let state := { req.execution.toReqState with currentToken := token }
  if isVisibleGeneratedPiece piece then
    let state := { state with tokensGenerated := state.tokensGenerated + 1 }
    let (stopHit, req) := appendGeneratedPiece req piece
    let state := state.deactivateIf cancelled .cancelled
    let state := state.deactivateIf stopHit .stop
    req.setState (state.deactivateIf (state.tokensGenerated ≥ state.decodeLimit) .limit)
  else
    let state := { state with nonEmittingSteps := state.nonEmittingSteps + 1 }
    let state := state.deactivateIf (state.nonEmittingSteps ≥ state.maxNonEmittingSteps) .nonEmitting
    req.setState (state.deactivateIf (state.tokensGenerated ≥ state.decodeLimit) .limit)

/-- The token sampled before the decode state is set up. -/
def primeFirstToken (req : InferenceRequest) : InferenceRequest :=
  let piece := req.firstPiece
  let req := { req with firstPiece := [] }
  let state := { req.execution.toReqState with currentToken := req.firstToken }
  let (stopHit, req, state) :=
    if !piece.isEmpty then
      let (stopHit, req) := appendGeneratedPiece req piece
      (stopHit, req, { state with tokensGenerated := state.tokensGenerated + 1 })
    else (false, req, { state with nonEmittingSteps := state.nonEmittingSteps + 1 })
  let state := state.deactivateIf stopHit .stop
  let state := state.deactivateIf req.cancellationFlag .cancelled
  let state := state.deactivateIf (state.nonEmittingSteps ≥ state.maxNonEmittingSteps) .nonEmitting
  req.setState (state.deactivateIf (state.tokensGenerated ≥ state.decodeLimit) .limit)

def primeUnifiedDecodeStepState (req : InferenceRequest) : InferenceRequest :=
  if req.execution.initialized then req
  else
    let priorCompletionTokens := max 0 req.fairness.totalCompletionTokens
    let remainingDecodeTokens :=
      if req.fairness.remainingDecodeTokens < 0 then max 0 (req.maxTokens - priorCompletionTokens)
      else req.fairness.remainingDecodeTokens
    let req := { req with execution :=
      { initialized := true
        result :=
          { modelId := req.resultModelId
            promptTokens := req.resultPromptTokens
            completion := req.accumulatedOutput }
        tokensGenerated := priorCompletionTokens
        decodeLimit := priorCompletionTokens + remainingDecodeTokens
        maxNonEmittingSteps := maxNonEmittingSteps req.maxTokens
        sliceActive := true } }
    syncCounts <|
      if req.nPast ≥ 0 && req.firstToken ≥ 0 then primeFirstToken req
      else if req.nPast = 0 && !req.bpePromptTokens.isEmpty then
        req.setState { req.execution.toReqState with inPrefill := true }
      else if req.nPast > 0 && !req.bpePromptTokens.isEmpty && req.prefillOffset > 0 &&
          req.prefillOffset < req.bpePromptTokens.length then
        (req.setNPast req.prefillOffset).setState
          { req.execution.toReqState with inPrefill := true }
      else (req.setState (req.execution.deactivate .stateError)).setCompletion kBatchStateErrorText

def shouldContinueUnifiedDecodeStep (req : InferenceRequest) : Bool :=
  if !req.execution.initialized || !req.execution.active then false
  else if req.execution.inPrefill then true
  else req.execution.tokensGenerated < req.execution.decodeLimit

def syncUnifiedDecodeStepProgress (req : InferenceRequest) : InferenceRequest :=
  if !req.execution.initialized then req
  else if shouldContinueUnifiedDecodeStep req then
    { syncCounts req with firstToken := req.execution.currentToken, firstPiece := [] }
  else syncCounts req

def finalizeUnifiedDecodeStepResult (req : InferenceRequest) : InferenceRequest × InferenceResult :=
  let req := syncUnifiedDecodeStepProgress (finishGeneratedText req)
  let result : InferenceResult :=
    { modelId := req.resultModelId
      completion :=
        if req.accumulatedOutput.isEmpty then kBackendEmptyResponseText else req.accumulatedOutput
      completionTokens := req.fairness.totalCompletionTokens
      promptTokens := req.resultPromptTokens }
  let req := { req with
    phase := .finished
    fairness := { req.fairness with
      serviceTokens := req.fairness.totalCompletionTokens
      yielded := false, timesliceTokens := 0, lastTimesliceTokens := 0 } }
  (resetUnifiedStepState req, result)

/-! ## One step of a batch -/

def inStep (req : InferenceRequest) : Bool :=
  req.execution.active && req.phase != .finished && req.phase != .aborted

def wantsPrefill (req : InferenceRequest) : Bool :=
  inStep req && !req.cancellationFlag && req.execution.inPrefill

def wantsDecode (req : InferenceRequest) : Bool :=
  inStep req && !req.cancellationFlag && !req.execution.inPrefill &&
    req.execution.tokensGenerated < req.execution.decodeLimit

/-- A request with the input that is built for it. -/
abbrev Built : Type := InferenceRequest × Option UnifiedBatchInput

def buildInput (prefillChunkCap : Int) (req : InferenceRequest) : Built :=
  if !inStep req then (req, none)
  else if req.cancellationFlag then
    ({ req.setState (req.execution.deactivate .cancelled) with phase := .aborted }, none)
  else if req.execution.inPrefill then
    let remaining := req.bpePromptTokens.length - req.prefillOffset
    let chunkSize := min remaining prefillChunkCap
    if chunkSize ≤ 0 then (req.setState { req.execution.toReqState with inPrefill := false }, none)
    else
      (req, some
        { sequenceId := req.sequenceId
          nPast := req.prefillOffset
          tokens := (req.bpePromptTokens.drop req.prefillOffset.toNat).take chunkSize.toNat
          requestLogits := decide (req.prefillOffset + chunkSize ≥ req.bpePromptTokens.length) })
  else if req.execution.tokensGenerated < req.execution.decodeLimit then
    (req, some
      { sequenceId := req.sequenceId, nPast := req.nPast, tokens := [req.execution.currentToken] })
  else ({ req.setState (req.execution.deactivate .limit) with phase := .finished }, none)

def consumeOutput (req : InferenceRequest) (input : UnifiedBatchInput) (res : UnifiedBatchOutput) :
    InferenceRequest :=
  if req.execution.inPrefill then
    let prefillOffset := req.prefillOffset + input.tokens.length
    if !res.ok && prefillOffset < req.bpePromptTokens.length then
      req.setState { req.execution.deactivate .failed with inPrefill := false }
    else if prefillOffset ≥ req.bpePromptTokens.length then
      let state := { req.execution.toReqState with inPrefill := false }
      let req := { req with prefillOffset }
      let req :=
        if res.ok then
          { req with cacheReusedTokens := req.cacheReusePendingTokens, cachePrefillComplete := true }
        else req
      if !res.ok || res.token < 0 then req.setState (state.deactivate .terminal)
      else acceptToken ((req.setNPast prefillOffset).setState state) res.token res.piece false
    else { req with prefillOffset }
  else
    let req := req.setNPast (req.nPast + 1)
    if !res.ok || res.token < 0 then req.setState (req.execution.deactivate .terminal)
    else acceptToken req res.token res.piece req.cancellationFlag

/-- The tokens of a greedy burst, up to the one that ends the generation. -/
def consumeBurst (req : InferenceRequest) : List BurstDecodeOutput → InferenceRequest
  | [] => req
  | out :: outs =>
    let req := req.setNPast (req.nPast + 1)
    let req := req.setState { req.execution.toReqState with currentToken := out.token }
    if out.terminal || out.token < 0 then req.setState (req.execution.deactivate .terminal)
    else
      let req := acceptToken req out.token out.piece req.cancellationFlag
      if !req.execution.active then req else consumeBurst req outs

def modifyActive (f : InferenceRequest → InferenceRequest) : Nat → List Built → List Built
  | _, [] => []
  | i, (req, none) :: built => (req, none) :: modifyActive f i built
  | 0, (req, some input) :: built => (f req, some input) :: built
  | i + 1, (req, some input) :: built => (req, some input) :: modifyActive f i built

def burstSink (built : List Built) (ev : BurstTokenEvent) : List Built :=
  modifyActive (fun req =>
    acceptToken (req.setNPast (req.nPast + 1)) ev.tokenId ev.piece req.cancellationFlag)
    ev.inputIdx built

def markFinished : List Built → List Bool → List InferenceRequest
  | [], _ => []
  | (req, none) :: built, finished => req :: markFinished built finished
  | (req, some _) :: built, finished =>
    req.setState (req.execution.toReqState.deactivateIf (finished.headD false) .terminal) ::
      markFinished built finished.tail

def scatterOutputs : List Built → List UnifiedBatchOutput → List InferenceRequest
  | [], _ => []
  | (req, none) :: built, step => req :: scatterOutputs built step
  | (req, some input) :: built, step =>
    consumeOutput req input (step.headD {}) :: scatterOutputs built step.tail

section Step

variable {σ : Type} (backend : StepBackend σ) (tuning : UnifiedBatchTuning)

def executeStep (built : List Built) (s : σ) : List InferenceRequest × σ :=
  let (step, s) := backend.executeUnifiedBatch s (built.filterMap Prod.snd)
  if step.isEmpty then
    (built.map fun b =>
      if b.2.isSome then b.1.setState (b.1.execution.deactivate .failed) else b.1, s)
  else (scatterOutputs built step, s)

def executeBurst (built : List Built) (s : σ) : List InferenceRequest × σ :=
  if built.any fun b => b.2.isSome && b.1.execution.inPrefill then executeStep backend built s
  else
    match backend.executeUnifiedBatchBurst s (built.filterMap Prod.snd) with
    | (some (events, finished), s) => (markFinished (events.foldl burstSink built) finished, s)
    | (none, s) => executeStep backend built s

def executeUnifiedBatchStep (reqs : List InferenceRequest) (s : σ) : List InferenceRequest × σ :=
  let activePrefillReqs := reqs.countP wantsPrefill
  let activeDecodeReqs := reqs.countP wantsDecode
  let prefillChunkCap :=
    computePrefillChunkCap (max 1 backend.unifiedBatchTokenCapacity) activeDecodeReqs
      activePrefillReqs tuning
  let built := reqs.map (buildInput prefillChunkCap)
  match built.find? (·.2.isSome) with
  | none => (built.map Prod.fst, s)
  | some (req, _) =>
    if activePrefillReqs = 0 ∧ activeDecodeReqs = 1 then
      match backend.tryGreedyBurstDecodeTokens s req.sequenceId req.nPast req.execution.currentToken
          (max 1 (req.execution.decodeLimit - req.execution.tokensGenerated)) with
      | (some outs, s) =>
        (built.map fun b => if b.2.isSome then consumeBurst b.1 outs else b.1, s)
      | (none, s) => executeBurst backend built s
    else executeBurst backend built s

/-- A decode worker's passes over one request until it should not continue. -/
def decodeSteps : Nat → InferenceRequest → σ → Option (InferenceRequest × σ)
  | 0, _, _ => none
  | fuel + 1, req, s =>
    let req := primeUnifiedDecodeStepState req
    if shouldContinueUnifiedDecodeStep req then
      match executeUnifiedBatchStep backend tuning [req] s with
      | ([req], s) =>
        let req := syncUnifiedDecodeStepProgress req
        if shouldContinueUnifiedDecodeStep req then decodeSteps fuel req s else some (req, s)
      | _ => none
    else some (syncUnifiedDecodeStepProgress req, s)

end Step

/-! ## One request on a stream -/

def streamStepBackend (capacity : Int) : StepBackend (List UnifiedBatchOutput) :=
  { streamBackend capacity with }

structure Decodes (req : InferenceRequest) : Prop where
  initialized : req.execution.initialized = true
  active : req.execution.active = true
  inPrefill : req.execution.inPrefill = false
  cause : req.execution.cause = none
  cancellationFlag : req.cancellationFlag = false
  phase : req.phase ≠ .finished ∧ req.phase ≠ .aborted
  unspent : req.execution.tokensGenerated < req.execution.decodeLimit

variable {req : InferenceRequest}

theorem Decodes.shouldContinue (h : Decodes req) : shouldContinueUnifiedDecodeStep req = true := by
  simp [shouldContinueUnifiedDecodeStep, h.initialized, h.active, h.inPrefill, h.unspent]

theorem prime_of_initialized (h : req.execution.initialized = true) :
    primeUnifiedDecodeStepState req = req := by
  simp [primeUnifiedDecodeStepState, h]

theorem decodeSteps_pass {σ : Type} {backend : StepBackend σ} {tuning : UnifiedBatchTuning}
    {next : InferenceRequest} {s s' : σ} (hinitialized : req.execution.initialized = true)
    (hcontinue : shouldContinueUnifiedDecodeStep req = true)
    (hstep : executeUnifiedBatchStep backend tuning [req] s = ([next], s')) (fuel : Nat) :
    decodeSteps backend tuning (fuel + 1) req s =
      if shouldContinueUnifiedDecodeStep (syncUnifiedDecodeStepProgress next) then
        decodeSteps backend tuning fuel (syncUnifiedDecodeStepProgress next) s'
      else some (syncUnifiedDecodeStepProgress next, s') := by
  simp [decodeSteps, prime_of_initialized hinitialized, hcontinue, hstep]

/-- The accounting between two steps touches neither the decode state nor the text. -/
theorem syncUnifiedDecodeStepProgress_frame (req : InferenceRequest) :
    let req' := syncUnifiedDecodeStepProgress req
    SameText req' req ∧ req'.execution = req.execution ∧
      req'.cancellationFlag = req.cancellationFlag ∧ req'.phase = req.phase ∧
      req'.maxTokens = req.maxTokens := by
  unfold syncUnifiedDecodeStepProgress
  split_ifs <;> refine ⟨⟨?_, ?_, ?_, ?_⟩, ?_, ?_, ?_, ?_⟩ <;> simp [syncCounts]

/-- The request as a slot of the phased loop. -/
def slot (req : InferenceRequest) : Slot := ⟨req, req.execution.toReqState, req.execution.result⟩

end Stepwise

end InferFlux.Execution
