import InferFlux.Execution.ExecuteRequest
import InferFlux.Execution.Slices
import InferFlux.Library.LoggedRun

/-!
# One request in the scheduler's batches

Embeds `Scheduler::ProcessBatch` from `scheduler/scheduler.cpp` in unified mode (no decode
workers), as one request sees it, for requests without a session handle and without swapping:
the phase it gets in the batch, admission with the prefix lookup, the block reservation, the
sequence slot and the prefill, the response format check, `BatchExecutor::ExecuteBatch`, the
requeueing after a fairness yield, the donation to the prefix cache and the release of the
blocks.

What the scheduler gets from its collaborators is in `AdmissionEnv` and `BatchEnv`; the other
requests of the batch appear as the rest of the group that the unified phased executor runs.
A batch whose requests lie on several devices runs each device's part in a task of its own
and catches what that task throws, which is `BatchEnv.fault`. The page references that the
calls take and give up are logged as `PageEvent`s.
-/

namespace InferFlux.Scheduler

open InferFlux.Text InferFlux.Execution

def kMinPrefixTokens : Nat := 32

def kTokensPerBlock : Nat := 16

structure Components where
  cache : Bool := true
  prefixCache : Bool := true
  deriving DecidableEq, Repr

structure RadixLookupResult where
  hit : Bool := false
  blockTable : List Int := []
  sequenceId : Int := -1
  matchedTokens : Int := 0
  deriving DecidableEq, Repr

structure PrefillResult where
  ok : Bool := false
  nPast : Int := 0
  firstToken : Int := -1
  firstPiece : Bytes := []
  deriving DecidableEq, Repr

structure AdmissionEnv where
  /-- There is a resolved backend and it is ready. -/
  backendReady : Bool := true
  /-- `TokenizeForCache(inf.prompt)`. -/
  tokenizeForCache : List Int := []
  /-- The request collects log probabilities and the phased path does not serve them. -/
  keepsLegacyLogprobs : Bool := false
  lookup : RadixLookupResult := {}
  /-- The per-slot context that the native CUDA backend publishes, if positive. -/
  kvMaxSeq : Int := 0
  /-- The blocks that `ReserveBlocks` returns; nothing if too few are free or it throws. -/
  reserveBlocks : Nat → Option (List Int) := fun _ => none
  /-- The same for the reservation that is repeated after the loss of the matched donor. -/
  reserveAgain : Nat → Option (List Int) := fun _ => none
  /-- The slot that `AllocSeqSlot` returns, negative if there is none. -/
  seqId : Int := -1
  /-- The donors that `AllocSeqSlot` retired to get it. -/
  retiredDonorSequences : List Int := []
  supportsAsyncUnifiedBatch : Bool := false
  copySequencePrefix : Bool := false
  /-- Token and piece of the last chunk of the phased prefill, if all chunks succeed. -/
  phasedPrefillStep : Option (Int × Bytes) := none
  prefillPartial : PrefillResult := {}
  prefill : PrefillResult := {}

/-! ## Admission -/

structure Reservation where
  lookup : RadixLookupResult
  newBlocksNeeded : Nat
  newBlocks : List Int
  pages : List PageEvent

def totalBlocksNeeded (promptLen : Nat) : Nat :=
  (promptLen + kTokensPerBlock - 1) / kTokensPerBlock + 1

/-- Look up the prefix and reserve the other blocks; if the matched donor is retired to get a
slot, give the blocks back and reserve all of them. -/
def reserve (parts : Components) (env : AdmissionEnv) (inf : InferenceRequest) : Reservation :=
  let lookup := if parts.prefixCache then env.lookup else {}
  let total := totalBlocksNeeded inf.bpePromptTokens.length
  let needed := total - lookup.blockTable.length
  let newBlocks :=
    if parts.cache && needed > 0 then (env.reserveBlocks needed).getD [] else []
  if lookup.hit && env.retiredDonorSequences.contains lookup.sequenceId then
    let again := if parts.cache then (env.reserveAgain total).getD [] else []
    { lookup := {}
      newBlocksNeeded := total
      newBlocks := again
      pages := [.reserved newBlocks, .released newBlocks, .reserved again] }
  else { lookup, newBlocksNeeded := needed, newBlocks, pages := [.reserved newBlocks] }

def canAdmit (parts : Components) (env : AdmissionEnv) (r : Reservation) : Bool :=
  env.seqId ≥ 0 && (!parts.cache || r.newBlocksNeeded = 0 || !r.newBlocks.isEmpty)

structure PrefixReusePlan where
  prefillStart : Int := 0
  copiedPrefix : Bool := false
  deriving DecidableEq, Repr

def resolvePrefixReuse (env : AdmissionEnv) (inf : InferenceRequest) (lookup : RadixLookupResult) :
    PrefixReusePlan :=
  if !(lookup.hit && lookup.matchedTokens > 0 && lookup.sequenceId ≥ 0) then {}
  else
    let prompt : Int := inf.bpePromptTokens.length
    let start := max 0 (min lookup.matchedTokens prompt)
    let start := if !inf.bpePromptTokens.isEmpty && start ≥ prompt then prompt - 1 else start
    if env.copySequencePrefix then ⟨start, true⟩ else ⟨0, false⟩

/-- The prefill: the phased step, else the rest of the prompt after a copied prefix, else the
whole prompt. -/
def runPrefill (env : AdmissionEnv) (inf : InferenceRequest) (plan : PrefixReusePlan) :
    PrefillResult × PrefixReusePlan :=
  match if inf.bpePromptTokens.isEmpty then none else env.phasedPrefillStep with
  | some (token, piece) =>
    ({ ok := true
       nPast := inf.bpePromptTokens.length
       firstToken := token
       firstPiece := if token ≥ 0 then piece else [] }, plan)
  | none =>
    let pr := if plan.copiedPrefix then env.prefillPartial else {}
    if pr.ok then (pr, plan)
    else (env.prefill, if env.prefill.ok then {} else plan)

/-- A request whose prompt the unified phased executor evaluates. -/
def deferPrefill (inf : InferenceRequest) (seqId : Int) (plan : PrefixReusePlan) :
    InferenceRequest :=
  { inf with
    prefillOffset := plan.prefillStart
    nPast := plan.prefillStart
    sequenceId := seqId
    firstToken := -1
    firstPiece := []
    cacheReusePendingTokens := if plan.copiedPrefix then plan.prefillStart else 0 }

def acceptPrefill (inf : InferenceRequest) (seqId : Int) (pr : PrefillResult)
    (plan : PrefixReusePlan) : InferenceRequest :=
  { inf with
    cacheReusedTokens := if plan.copiedPrefix then plan.prefillStart else 0
    cachePrefillComplete := true
    nPast := pr.nPast
    sequenceId := seqId
    firstToken := pr.firstToken
    firstPiece := pr.firstPiece }

def releaseSequence (parts : Components) (inf : InferenceRequest) :
    InferenceRequest × List PageEvent :=
  ({ inf with blockTable := [], sequenceId := -1 },
    if parts.cache then [.released inf.blockTable] else [])

def bindBlocks (parts : Components) (r : Reservation) (inf : InferenceRequest) :
    InferenceRequest × List PageEvent :=
  if parts.cache then
    ({ inf with blockTable := r.lookup.blockTable ++ r.newBlocks }, [.acquired r.lookup.blockTable])
  else (inf, [])

/-- The prompt of an admitted request is left to the unified phased executor or evaluated
here; a failed prefill gives everything back. -/
def startPrefill (parts : Components) (env : AdmissionEnv) (r : Reservation)
    (inf : InferenceRequest) : InferenceRequest × List PageEvent :=
  let plan := resolvePrefixReuse env inf r.lookup
  if env.supportsAsyncUnifiedBatch && !inf.responseFormat.hasFormat && !inf.hasImages &&
      !inf.bpePromptTokens.isEmpty then
    (deferPrefill inf env.seqId plan, [])
  else
    let (pr, plan) := runPrefill env inf plan
    if pr.ok then (acceptPrefill inf env.seqId pr plan, [])
    else
      let (inf, released) := releaseSequence parts inf
      (inf.setNPast (-1), released)

def admitPhased (parts : Components) (env : AdmissionEnv) (inf : InferenceRequest) :
    InferenceRequest × List PageEvent :=
  let r := reserve parts env inf
  if canAdmit parts env r then
    let (inf, acquired) := bindBlocks parts r inf
    let (inf, released) := startPrefill parts env r inf
    (inf, r.pages ++ acquired ++ released)
  else (inf, r.pages ++ if parts.cache then [.released r.newBlocks] else [])

/-- Requests that stay on the full `Generate()` path. -/
def bypassPhased (inf : InferenceRequest) : InferenceRequest :=
  { inf with
    cacheReusedTokens := 0
    cacheReusePendingTokens := 0
    cachePrefillComplete := false
    nPast := -1
    sequenceId := -1
    firstToken := -1
    firstPiece := []
    prefillOffset := 0 }

def contextOverflowText (promptLen : Nat) (maxTokens kvMaxSeq : Int) : Bytes :=
  bytes ("context_overflow: prompt " ++ toString promptLen ++ " + max_tokens " ++
    toString maxTokens ++ " exceeds the per-slot context of " ++ toString kvMaxSeq ++
    " tokens (raise INFERFLUX_CUDA_KV_MAX_SEQ for long-context workloads, or reduce max_tokens)")

def tokenizePrompt (env : AdmissionEnv) (inf : InferenceRequest) : InferenceRequest :=
  let tokens := if inf.bpePromptTokens.isEmpty then env.tokenizeForCache else inf.bpePromptTokens
  { inf with
    bpePromptTokens := tokens
    fairness := { inf.fairness with
      reportedPromptTokens :=
        if !inf.hasImages && !tokens.isEmpty then tokens.length
        else inf.fairness.reportedPromptTokens } }

def resetReuse (inf : InferenceRequest) : InferenceRequest :=
  { inf with cacheReusedTokens := 0, cacheReusePendingTokens := 0, cachePrefillComplete := false }

/-- The prompt and `max_tokens` do not fit the context of one slot. -/
def overflows (env : AdmissionEnv) (inf : InferenceRequest) : Bool :=
  env.kvMaxSeq > 0 && inf.bpePromptTokens.length + inf.maxTokens > env.kvMaxSeq

/-- What happens to a request of the prefill phase: it goes on to the decode phase, or fails
with a result. -/
def stagePrefill (parts : Components) (env : AdmissionEnv) (inf : InferenceRequest) :
    Except InferenceResult (InferenceRequest × List PageEvent) :=
  if inf.sequenceId ≥ 0 && inf.nPast ≥ 0 && inf.firstToken ≥ 0 then .ok (inf, [])
  else if env.backendReady then
    let inf := tokenizePrompt env inf
    if inf.hasImages || inf.responseFormat.hasFormat || env.keepsLegacyLogprobs then
      .ok (bypassPhased inf, [])
    else
      let inf := resetReuse inf
      if overflows env inf then
        .error
          { noBackend := true
            completion := contextOverflowText inf.bpePromptTokens.length inf.maxTokens env.kvMaxSeq }
      else .ok (admitPhased parts env inf)
  else .ok (inf, [])

/-! ## Execution -/

/-- Where the task of a device threw, from the request's point of view. -/
inductive Fault where
  | before
  /-- In a backend call for the request, after so many rounds of the phased loop. -/
  | during (rounds : Nat)
  | after
  deriving DecidableEq, Repr

/-- What a batch gets from outside for one of its requests. -/
structure BatchEnv (σ : Type) where
  /-- The client has cancelled the request by now. -/
  cancelled : Bool := false
  formatSupported : Bool := true
  formatError : Bytes := []
  /-- The constraint built from the response format (its grammar and JSON flags). -/
  buildConstraint : Except Bytes (Bool × Bool) := .ok (false, false)
  backend : Option TextBackend
  executor : ExecutorEnv
  unified : Backend σ
  unifiedState : σ
  tuning : UnifiedBatchTuning := {}
  /-- The requests of the same group in the batch. -/
  groupBefore : List InferenceRequest := []
  groupAfter : List InferenceRequest := []
  fault : Option Fault := none
  /-- Not all inputs of an embedding request are embedded yet. -/
  embeddingsLeft : Bool := false
  /-- `prefix_cache_->Insert` takes the donation. -/
  donated : Bool := false

variable {σ : Type}

/-- The request with the cancellation that the executor sees. -/
def cancelIf (req : InferenceRequest) (cancelled : Bool) : InferenceRequest :=
  { req with cancellationFlag := req.cancellationFlag || cancelled }

def BatchEnv.executorEnv (parts : Components) (env : BatchEnv σ) : ExecutorEnv :=
  { env.executor with reservePage := if parts.cache then env.executor.reservePage else none }

/-- The request is run by the unified phased executor. -/
def phasedEligible (env : BatchEnv σ) (req : InferenceRequest) : Bool :=
  !req.embeddingRequest && hasValidUnifiedPhasedState req && !req.responseFormat.hasGrammar &&
    !req.responseFormat.hasFormat && env.backend.any TextBackend.isReady

def BatchEnv.slot (env : BatchEnv σ) (req : InferenceRequest) (slots : List Slot) :
    InferenceRequest × InferenceResult :=
  match slots[env.groupBefore.length]? with
  | some slot => (slot.req, slot.result)
  | none => (req, {})

/-- `ExecuteBatch`, for one request of the batch. -/
def executeInBatch (parts : Components) (env : BatchEnv σ) (req : InferenceRequest) :
    ExecutionOutcome :=
  if phasedEligible env req then
    let (req, result) := env.slot req (executeUnifiedBatchPhased env.unified env.tuning
      (env.groupBefore ++ req :: env.groupAfter) env.unifiedState).1
    { req, result }
  else executeRequest (env.executorEnv parts) env.backend req

/-- The request when a backend call for it throws. Embeddings catch what they throw, and a
cancelled request makes no call. -/
def interruptRequest (parts : Components) (env : BatchEnv σ) (rounds : Nat)
    (req : InferenceRequest) : InferenceRequest × List PageEvent :=
  if phasedEligible env req then
    ((env.slot req (unifiedLoop env.unified env.tuning rounds
      ((env.groupBefore ++ req :: env.groupAfter).map (seedSlot env.tuning))
      env.unifiedState).1).1, [])
  else if req.cancellationFlag || req.embeddingRequest then
    ((executeInBatch parts env req).req, [])
  else (req.clearYielded.preparePass (env.executorEnv parts) env.backend).2

/-- What the task of a device does to its requests when it throws. -/
def failRequest (req : InferenceRequest) : InferenceRequest :=
  { (req.setPhase .finished).clearYielded with
    cachePrefillComplete := false, cacheReusedTokens := 0 }

def failedResult (req : InferenceRequest) : InferenceResult :=
  { noBackend := true
    modelId := req.resultModelId
    completion := bytes "backend execution failed" }

def executeBatch (parts : Components) (env : BatchEnv σ) (req : InferenceRequest) :
    ExecutionOutcome :=
  match env.fault with
  | none => executeInBatch parts env req
  | some fault =>
    let (req, pages) :=
      match fault with
      | .before => (req, [])
      | .during rounds => interruptRequest parts env rounds req
      | .after => ((executeInBatch parts env req).req, (executeInBatch parts env req).pages)
    { req := failRequest req, result := failedResult req, pages }

/-! ## The whole call -/

/-- Where a pending request is: in one of the queues, or staged in the batch of the call. -/
inductive Place where
  | prefillQueue
  | decodeQueue
  | batch
  deriving DecidableEq, Repr

/-- The phase that a request gets when it is taken from its queue into a batch. -/
def Place.phase : Place → RequestPhase
  | .prefillQueue => .prefill
  | .decodeQueue => .decode
  | .batch => .decode

structure PendingRequest where
  inference : InferenceRequest
  place : Place := .prefillQueue
  /-- The value of the promise, once it is set. -/
  promise : Option InferenceResult := none
  deriving DecidableEq, Repr

structure Selection where
  /-- The fairness controller has put it there after the batch was built. -/
  swappedIn : Bool := false
  timeslice : Int := 0
  deriving DecidableEq, Repr

def Selection.enter (selection : Selection) (pending : PendingRequest) : InferenceRequest :=
  (pending.inference.setPhase
    (if selection.swappedIn then pending.inference.phase else pending.place.phase)).setTimeslice
      selection.timeslice

def stage (parts : Components) (selection : Selection) (env : AdmissionEnv)
    (pending : PendingRequest) : PendingRequest × List PageEvent :=
  let inf := selection.enter pending
  if inf.embeddingRequest then ({ inference := inf, place := .batch }, [])
  else if inf.phase = .prefill then
    match stagePrefill parts env inf with
    | .ok (inf, pages) => ({ inference := inf.setPhase .decode, place := .batch }, pages)
    | .error result => ({ inference := inf, promise := some result }, [])
  else ({ inference := inf, place := .batch }, [])

/-- The response format check, or the text of the error. -/
def checkFormat (env : BatchEnv σ) (req : InferenceRequest) : Except Bytes InferenceRequest :=
  if !env.formatSupported then
    .error (if env.formatError.isEmpty then
      bytes "Selected model does not support requested features" else env.formatError)
  else if req.responseFormat.hasFormat then
    match env.buildConstraint with
    | .error message =>
      .error (if message.isEmpty then bytes "response_format could not be converted" else message)
    | .ok (hasGrammar, requireJsonObject) =>
      .ok { req with responseFormat := { req.responseFormat with hasGrammar, requireJsonObject } }
  else
    .ok { req with responseFormat :=
      { req.responseFormat with hasGrammar := false, requireJsonObject := false } }

/-- Give back what a request holds, if it has a sequence slot: `ReleasePendingRequestResources`,
and the end of every request that was run. -/
def releasePendingRequestResources (parts : Components) (req : InferenceRequest) :
    InferenceRequest × List PageEvent :=
  if req.sequenceId ≥ 0 then releaseSequence parts req else (req, [])

/-- Donate the prompt's blocks to the prefix cache: the references taken for the donation go
to a node of the trie or are given back. -/
def donatePrefix (parts : Components) (donated : Bool) (req : InferenceRequest) : List PageEvent :=
  if parts.prefixCache && req.sequenceId ≥ 0 && req.cachePrefillComplete &&
      !req.fairness.yielded && kMinPrefixTokens ≤ req.bpePromptTokens.length && parts.cache then
    [.acquired req.blockTable,
      if donated then .transferred req.blockTable else .released req.blockTable]
  else []

def publishEmbedding (env : BatchEnv σ) (outcome : ExecutionOutcome) : PendingRequest :=
  let req := outcome.req
  let result :=
    if req.cancellationFlag then
      { outcome.result with noBackend := true, completion := kCancelledText }
    else outcome.result
  if !result.noBackend && env.embeddingsLeft then { inference := req.setPhase .pending }
  else
    { inference := req.setPhase (if req.cancellationFlag then .aborted else .finished)
      promise := some result }

def publish (parts : Components) (env : BatchEnv σ) (outcome : ExecutionOutcome) :
    PendingRequest × List PageEvent :=
  let req := outcome.req
  if req.embeddingRequest then (publishEmbedding env outcome, [])
  else if req.fairness.yielded then
    ({ inference := prepareFairnessDecodeRequeue req, place := .decodeQueue }, [])
  else
    let donation := donatePrefix parts env.donated req
    let (released, pages) := releasePendingRequestResources parts req
    ({ inference := released.setPhase .finished, promise := some (publishResult req outcome.result) },
      donation ++ pages)

def runStaged (parts : Components) (env : BatchEnv σ) (req : InferenceRequest) :
    PendingRequest × List PageEvent :=
  match checkFormat env req with
  | .error message =>
    let (req, released) := releasePendingRequestResources parts req
    ({ inference := req, promise := some { noBackend := true, completion := message } }, released)
  | .ok req =>
    let outcome := executeBatch parts env (cancelIf req env.cancelled)
    let (pending, pages) := publish parts env outcome
    (pending, outcome.pages ++ pages)

inductive Op (σ : Type) where
  /-- The fairness controller takes it out of the batch again. -/
  | displaced
  | staged (selection : Selection) (env : AdmissionEnv)
  | executed (env : BatchEnv σ)

/-- One step in the life of a request, which ends when its promise is set. A call of
`ProcessBatch` stages the requests of its batch and then executes them. -/
def step (parts : Components) (pending : PendingRequest) :
    Op σ → Option (PendingRequest × List PageEvent)
  | .displaced =>
    if pending.promise.isSome || pending.place = .batch then none
    else some ({ pending with inference := pending.inference.setPhase pending.place.phase }, [])
  | .staged selection env =>
    if pending.promise.isSome || pending.place = .batch then none
    else some (stage parts selection env pending)
  | .executed env =>
    if pending.promise.isSome || pending.place ≠ .batch then none
    else some (runStaged parts env pending.inference)

end InferFlux.Scheduler
