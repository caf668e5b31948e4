import InferFlux.Execution.UnifiedPhased

/-!
# The one-request executor

Embeds `BatchExecutor::ExecuteRequest` from `runtime/execution/batch_executor.cpp`, which runs
the requests that are not eligible for the unified phased executor: cancellation, embeddings,
the decode limit of the pass, the KV page, speculative drafts, the three ways to ask the
backend for text, the counts taken from the finished text, the fairness accounting, JSON
validation and the release of the page.

What the call gets from outside is in `TextBackend` and `ExecutorEnv`. A generation comes with
the number of its tokens and the reason why the backend stopped, which the source does not return.
The cancellation flag keeps its value during the call. Streaming, timing and metrics are left out.
-/

namespace InferFlux.Execution

open InferFlux.Text

inductive GenerateCall where
  | decode (nPast sequenceId limit firstToken : Int)
  | generateWithImages (limit : Int)
  | generate (limit : Int)
  deriving DecidableEq, Repr

/-- A finished generation: its text, the number of tokens generated and why it stopped. -/
structure Generation where
  text : Bytes
  tokens : Int
  cause : EndCause
  deriving DecidableEq, Repr

structure TextBackend where
  isReady : Bool := true
  supportsVision : Bool := false
  /-- `TokenCount(inference.prompt)`. -/
  promptTokenCount : Int := 0
  tokenCount : Bytes → Int
  generate : GenerateCall → Generation

/-- What the executor gets from its other collaborators. -/
structure ExecutorEnv where
  decodeBurstTokens : Int := 0
  /-- `tokenizer_->Encode(text).size()`. -/
  encode : Bytes → Int
  /-- The outcome of `ReservePage`, if there is a cache. -/
  reservePage : Option (Except String Int) := none
  /-- The validated draft of the speculative decoder under a limit, if it is enabled. -/
  draft : Option (Int → Generation) := none
  stubCompletion : Option Bytes := none
  /-- `json::parse`: whether the value is an object, and its dump. -/
  jsonParse : Bytes → Option (Bool × Bytes)
  /-- The dump of `{"output": text}`. -/
  jsonWrap : Bytes → Bytes
  /-- The prompt tokens of the embedded inputs, or the message of the failure. -/
  embed : Except Bytes Int := .ok 0

inductive PageEvent where
  | reserved (pages : List Int)
  | acquired (pages : List Int)
  | released (pages : List Int)
  | transferred (pages : List Int)
  deriving DecidableEq, Repr

structure ExecutionOutcome where
  req : InferenceRequest
  result : InferenceResult
  pages : List PageEvent := []

def kCancelledText : Bytes := bytes "[cancelled]"

def kNoBackendText : Bytes :=
  bytes "No model backend is loaded. Set INFERFLUX_MODEL_PATH or configure model.path in server.yaml."

def kConstraintViolationText : Bytes := bytes "Model output violated response_format constraints"

namespace InferenceRequest

def sliceResumable (req : InferenceRequest) : Bool := req.nPast ≥ 0 && req.sequenceId ≥ 0

def passLimit (req : InferenceRequest) (decodeBurstTokens : Int) : Int × Int :=
  let sliceLimit := req.fairness.timesliceTokens
  let limit := req.maxTokens
  let limit :=
    if req.fairness.remainingDecodeTokens ≥ 0 then min limit req.fairness.remainingDecodeTokens
    else limit
  let limit := if sliceLimit > 0 && req.sliceResumable then min limit sliceLimit else limit
  let (limit, sliceLimit) :=
    if decodeBurstTokens > 0 && req.sliceResumable then
      (min limit decodeBurstTokens, if sliceLimit ≤ 0 then decodeBurstTokens else sliceLimit)
    else (limit, sliceLimit)
  (if limit ≤ 0 then 1 else limit, sliceLimit)

def consumeTimeslice (req : InferenceRequest) : InferenceRequest :=
  { req with fairness := { req.fairness with
    lastTimesliceTokens := req.fairness.timesliceTokens, timesliceTokens := 0 } }

def clearYielded (req : InferenceRequest) : InferenceRequest :=
  { req with fairness := { req.fairness with yielded := false } }

def setPhase (req : InferenceRequest) (phase : RequestPhase) : InferenceRequest :=
  { req with phase }

def countPrompt (req : InferenceRequest) (backend : Option TextBackend) : Int :=
  match backend with
  | some b =>
    if b.isReady then
      if !req.hasImages && !req.bpePromptTokens.isEmpty then req.bpePromptTokens.length
      else b.promptTokenCount
    else req.promptTokens.length
  | none => req.promptTokens.length

def chargePrompt (req : InferenceRequest) (promptTokens : Int) : InferenceRequest :=
  if req.fairness.totalCompletionTokens = 0 then
    { req with fairness := { req.fairness with
      reportedPromptTokens := promptTokens
      serviceTokens :=
        if req.fairness.serviceTokens = 0 then promptTokens else req.fairness.serviceTokens } }
  else req

/-- The call that asks the backend for text; a pass without KV state resets what the cache
had reported. -/
def generateCall (req : InferenceRequest) (backend : TextBackend) (limit : Int) :
    GenerateCall × InferenceRequest :=
  if req.nPast ≥ 0 && req.sequenceId ≥ 0 then
    (.decode req.nPast req.sequenceId limit req.firstToken, req)
  else
    let req' := { req with cacheReusedTokens := 0, cachePrefillComplete := false }
    if req.hasImages && backend.supportsVision then (.generateWithImages limit, req')
    else (.generate limit, req')

/-- Reserve the KV page of the pass; it becomes the whole block table. -/
def reserveKvPage (req : InferenceRequest) (reservePage : Option (Except String Int)) :
    Int × InferenceRequest × List PageEvent :=
  match reservePage with
  | some (.ok page) =>
    if page ≥ 0 then (page, { req with blockTable := [page] }, [.reserved [page]])
    else (page, req, [])
  | _ => (-1, req, [])

def releaseKvPage (req : InferenceRequest) (kvPage : Int) : InferenceRequest × List PageEvent :=
  if kvPage ≥ 0 then ({ req with blockTable := [] }, [.released req.blockTable]) else (req, [])

end InferenceRequest

structure PassText where
  req : InferenceRequest
  completion : Bytes
  noBackend : Bool := false
  emptyGeneration : Bool := false

/-- The validated draft of the speculative decoder, if it has any text. -/
def validatedDraft (env : ExecutorEnv) (req : InferenceRequest) (limit : Int) : Option Generation :=
  match env.draft with
  | none => none
  | some draft =>
    if !req.responseFormat.hasFormat && !(draft limit).text.isEmpty then some (draft limit) else none

/-- The decode phase: the validated draft if there is one, else the backend's text, else the
canned text. -/
def passText (env : ExecutorEnv) (backend : Option TextBackend) (req : InferenceRequest)
    (limit : Int) : PassText :=
  match validatedDraft env req limit with
  | some g => { req, completion := g.text }
  | none =>
    match backend.filter TextBackend.isReady with
    | some b =>
      let (call, req) := req.generateCall b limit
      let g := b.generate call
      if g.text.isEmpty then
        { req, completion := kBackendEmptyResponseText, emptyGeneration := true }
      else { req, completion := g.text }
    | none =>
      { req, completion := env.stubCompletion.getD kNoBackendText, noBackend := true }

def countCompletion (env : ExecutorEnv) (backend : Option TextBackend) (pass : PassText) : Int :=
  match backend.filter TextBackend.isReady with
  | some b =>
    if !pass.emptyGeneration then b.tokenCount pass.completion
    else if isBackendEmptyResponse pass.completion then 0 else env.encode pass.completion
  | none => if isBackendEmptyResponse pass.completion then 0 else env.encode pass.completion

def InferenceRequest.chargePass (req : InferenceRequest) (completionTokens limit sliceLimit : Int) :
    InferenceRequest :=
  let remainingAfterSlice := req.fairness.remainingAfterSlice completionTokens
  let fairnessActive : Bool := sliceLimit > 0 && req.sliceResumable
  let yields : Bool := fairnessActive && completionTokens ≥ limit && remainingAfterSlice > 0
  { req with
    nPast :=
      if req.nPast ≥ 0 && completionTokens > 0 then req.nPast + completionTokens else req.nPast
    phase := if yields then .pending else .finished
    fairness := { req.fairness with
      serviceTokens := req.fairness.serviceTokens + completionTokens
      totalCompletionTokens := req.fairness.totalCompletionTokens + completionTokens
      yielded := req.fairness.yielded || yields } }

def validateJson (env : ExecutorEnv) (req : InferenceRequest) (noBackend : Bool)
    (completion : Bytes) : Option Bytes :=
  match (env.jsonParse completion).filter fun parsed =>
      !(req.responseFormat.requireJsonObject && !parsed.1) with
  | some parsed => some parsed.2
  | none =>
    if req.responseFormat.requireJsonObject && !noBackend then none
    else some (env.jsonWrap completion)

/-- What a pass does before its decode phase: the timeslice is consumed, the prompt is
charged and the KV page reserved. Returns the page, the request and the page events. -/
def InferenceRequest.preparePass (req : InferenceRequest) (env : ExecutorEnv)
    (backend : Option TextBackend) : Int × InferenceRequest × List PageEvent :=
  let req := req.consumeTimeslice
  let req := req.chargePrompt (req.countPrompt backend)
  let (kvPage, req, reserved) := req.reserveKvPage env.reservePage
  (kvPage, req.setPhase .decode, reserved)

/-- What a pass does after its decode phase: the counts, the flag, the fairness accounting,
JSON validation and the release of the page. -/
def finishPass (env : ExecutorEnv) (backend : Option TextBackend) (limit sliceLimit kvPage : Int)
    (reserved : List PageEvent) (result : InferenceResult) (pass : PassText) : ExecutionOutcome :=
  let completionTokens := countCompletion env backend pass
  let req := pass.req
  let finishReasonLength : Bool :=
    !pass.noBackend && req.maxTokens > 0 &&
      req.fairness.totalCompletionTokens + completionTokens ≥ req.maxTokens
  let remainingAfterSlice := req.fairness.remainingAfterSlice completionTokens
  let req := req.chargePass completionTokens limit sliceLimit
  let result := { result with
    completionTokens, finishReasonLength
    completion := pass.completion, noBackend := pass.noBackend }
  let validated :=
    if req.jsonMode || req.responseFormat.requireJsonObject then
      (validateJson env req pass.noBackend pass.completion).map fun text =>
        { result with completion := text, completionTokens := env.encode text }
    else some result
  match validated with
  | none =>
    let (req, released) := req.releaseKvPage kvPage
    { req := (req.setPhase .finished).clearYielded
      result := { result with
        noBackend := true, completion := kConstraintViolationText, completionTokens := 0 }
      pages := reserved ++ released }
  | some result =>
    let req :=
      if !result.completion.isEmpty && !isNonAccumulatingCompletion result.completion then
        (req.accumulateOutput result.completion).updateRemaining remainingAfterSlice
      else req
    let (req, released) := req.releaseKvPage kvPage
    { req, result, pages := reserved ++ released }

def executeRequest (env : ExecutorEnv) (backend : Option TextBackend) (req : InferenceRequest) :
    ExecutionOutcome :=
  let result : InferenceResult := { promptTokens := req.promptTokens.length }
  let req := req.clearYielded
  if req.cancellationFlag then
    { req := req.setPhase .aborted
      result := { result with noBackend := true, completion := kCancelledText } }
  else
    let result := { result with modelId := req.resultModelId }
    if req.embeddingRequest then
      { req := req.setPhase .finished
        result := match env.embed with
          | .ok promptTokens => { result with promptTokens }
          | .error message =>
            { result with noBackend := true, completion := message, promptTokens := 0 } }
    else
      let (limit, sliceLimit) := req.passLimit env.decodeBurstTokens
      let result := { result with promptTokens := req.countPrompt backend }
      let (kvPage, req, reserved) := req.preparePass env backend
      finishPass env backend limit sliceLimit kvPage reserved result (passText env backend req limit)

end InferFlux.Execution
