import InferFlux.Text.IncrementalUtf8

/-!
# Inference requests

The per-request state of `scheduler/request_batch.h` as far as the modelled functions read
or write it. Counters are the `int` fields of the source; sampling parameters, log
probabilities, timing and metrics are left out.

The callback `on_token` is modelled by its calls: `onToken` says whether the request has
one, `streamed` lists the strings it has been passed.
-/

namespace InferFlux.Execution

open InferFlux.Text

/-- The text a result carries when the backend produced nothing. -/
def kBackendEmptyResponseText : Bytes := bytes "[backend returned empty response]"

/-- The text a result carries when a request reaches an executor in no phased state. -/
def kBatchStateErrorText : Bytes := bytes "[batch state error]"

structure InferenceResult where
  modelId : String := ""
  completion : Bytes := []
  completionTokens : Int := 0
  promptTokens : Int := 0
  noBackend : Bool := false
  finishReasonLength : Bool := false
  deriving DecidableEq, Repr

def isBackendEmptyResponse (text : Bytes) : Bool := text == kBackendEmptyResponseText

inductive RequestPhase where
  | pending
  | prefill
  | decode
  | finished
  | aborted
  deriving DecidableEq, Repr

/-- Why a request left the decode loop. The source only clears `active`; the cause is the
branch that cleared it first. -/
inductive EndCause where
  | stop
  | limit
  | terminal
  | nonEmitting
  | cancelled
  | stateError
  | failed
  deriving DecidableEq, Repr

/-- Where a request stands in the decode loop of an executor. -/
structure ReqState where
  active : Bool := true
  tokensGenerated : Int := 0
  nonEmittingSteps : Int := 0
  maxNonEmittingSteps : Int := 32
  decodeLimit : Int := 0
  currentToken : Int := -1
  sliceActive : Bool := false
  inPrefill : Bool := false
  cause : Option EndCause := none
  deriving DecidableEq, Repr

def ReqState.deactivate (state : ReqState) (cause : EndCause) : ReqState :=
  { state with active := false, cause := state.cause.or (some cause) }

/-- The decode loop's state of a request that is decoded step by step, kept between steps. -/
structure ExecutionState extends ReqState where
  initialized : Bool := false
  result : InferenceResult := {}
  deriving DecidableEq, Repr

structure FairnessState where
  serviceTokens : Int := 0
  timesliceTokens : Int := 0
  remainingDecodeTokens : Int := -1
  reportedPromptTokens : Int := -1
  totalCompletionTokens : Int := 0
  lastTimesliceTokens : Int := 0
  yielded : Bool := false
  deriving DecidableEq, Repr

structure ResponseFormatState where
  hasFormat : Bool := false
  hasGrammar : Bool := false
  requireJsonObject : Bool := false
  deriving DecidableEq, Repr

structure InferenceRequest where
  model : String := ""
  resolvedModel : String := ""
  embeddingRequest : Bool := false
  hasImages : Bool := false
  jsonMode : Bool := false
  responseFormat : ResponseFormatState := {}
  maxTokens : Int := 256
  nPast : Int := -1
  sequenceId : Int := -1
  prefillOffset : Int := 0
  bpePromptTokens : List Int := []
  firstToken : Int := -1
  firstPiece : Bytes := []
  phase : RequestPhase := .pending
  promptTokens : List Int := []
  cacheReusePendingTokens : Int := 0
  cacheReusedTokens : Int := 0
  cachePrefillComplete : Bool := false
  onToken : Bool := false
  streamed : List Bytes := []
  accumulatedOutput : Bytes := []
  outputUtf8 : IncrementalUtf8Assembler := {}
  cancellationFlag : Bool := false
  blockTable : List Int := []
  stop : List Bytes := []
  execution : ExecutionState := {}
  fairness : FairnessState := {}
  deriving DecidableEq, Repr

namespace InferenceRequest

/-- The calls of `on_token` for a text, which the executors make for non-empty text only. -/
def calls (req : InferenceRequest) (text : Bytes) : List Bytes :=
  if req.onToken && !text.isEmpty then [text] else []

def emit (req : InferenceRequest) (text : Bytes) : InferenceRequest :=
  { req with streamed := req.streamed ++ req.calls text }

def setUtf8 (req : InferenceRequest) (outputUtf8 : IncrementalUtf8Assembler) : InferenceRequest :=
  { req with outputUtf8 }

def setNPast (req : InferenceRequest) (nPast : Int) : InferenceRequest :=
  { req with nPast }

def setCompletion (req : InferenceRequest) (completion : Bytes) : InferenceRequest :=
  { req with execution := { req.execution with
      result := { req.execution.result with completion } } }

end InferenceRequest

end InferFlux.Execution
