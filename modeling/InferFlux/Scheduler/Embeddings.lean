import InferFlux.Execution.ExecuteRequest
import Mathlib.Algebra.Ring.Int.Defs

/-!
# Embedding requests

Embeds `Scheduler::Embed`, the embedding branch of `BatchExecutor::ExecuteRequest` and the
embedding branch of `Scheduler::ProcessBatch`. A request's inputs are embedded slice by slice:
each executor pass embeds one slice, the scheduler appends its vectors to the request and
requeues it until every input has one.

A pass meets a backend and two loads of the cancellation flag, one before the slice is embedded
and one at publication. What a vector consists of is a parameter, and token counts are integers
without overflow.
-/

namespace InferFlux.Scheduler

open InferFlux.Text InferFlux.Execution List

/-- A call of a backend that may throw: the message of a `std::exception`, or none for any other
exception. -/
abbrev Throws (β : Type) : Type := Except (Option Bytes) β

structure EmbedBackend (α : Type) where
  isReady : Bool := true
  embedBatch : List Bytes → Throws (List (List α))
  embeddingTokenCount : Bytes → Throws Int

structure EmbedPass (α : Type) where
  backend : Option (EmbedBackend α) := none
  cancelledBefore : Bool := false
  cancelledAfter : Bool := false

/-- The fields of a request that its embedding goes through. -/
structure EmbeddingState (α : Type) where
  inputs : List Bytes := []
  offset : Nat := 0
  sliceSize : Nat := 1
  results : List (List α) := []
  promptTokens : Int := 0
  deriving DecidableEq, Repr

structure EmbeddingRequest (α : Type) extends InferenceRequest where
  embedding : EmbeddingState α := {}
  deriving DecidableEq, Repr

structure EmbeddingResult (α : Type) extends InferenceResult where
  embeddings : List (List α) := []
  deriving DecidableEq, Repr

variable {α : Type}

namespace EmbeddingState

def sliceAt (state : EmbeddingState α) (offset : Nat) : List Bytes :=
  (state.inputs.drop offset).take state.sliceSize

def slicePromptTokens (state : EmbeddingState α) : List Int :=
  List.replicate (min state.sliceSize (state.inputs.length - state.offset) * 512) 0

/-- The body of the `try` block: the vectors of the slice and its prompt tokens. -/
def tryEmbed (state : EmbeddingState α) (backend : Option (EmbedBackend α)) :
    Throws (List (List α) × Int) :=
  match backend with
  | none => .error (some (bytes "embedding backend unavailable"))
  | some backend =>
    if !backend.isReady || state.offset ≥ state.inputs.length then
      .error (some (bytes "embedding backend unavailable"))
    else do
      let inputs := state.sliceAt state.offset
      let embeddings ← backend.embedBatch inputs
      if embeddings.length ≠ inputs.length || embeddings.any List.isEmpty then
        .error (some (bytes "embedding execution failed"))
      else
        let counts ← inputs.mapM backend.embeddingTokenCount
        .ok (embeddings, counts.sum)

def keep (state : EmbeddingState α) (embeddings : List (List α)) (promptTokens : Int) :
    EmbeddingState α :=
  let results := state.results ++ embeddings
  { state with
    promptTokens := state.promptTokens + promptTokens
    results
    offset := results.length }

end EmbeddingState

/-- `Embed`: the request as it is queued, or the answer to one that is refused. -/
def embed (useDecodeWorkers : Bool) (maxBatchTokens : Int) (request : EmbeddingRequest α) :
    Except (EmbeddingResult α) (EmbeddingRequest α) :=
  let inputs := request.embedding.inputs
  if inputs.isEmpty || inputs.length > 4096 || useDecodeWorkers then
    .error
      { noBackend := true
        completion :=
          if useDecodeWorkers then bytes "embeddings require unified scheduler mode"
          else bytes "embedding input count must be between 1 and 4096" }
  else
    let embedding : EmbeddingState α :=
      { inputs, sliceSize := (max 1 (min (Int.tdiv maxBatchTokens 512) 32)).toNat }
    .ok
      { request with
        embeddingRequest := true
        resolvedModel := ""
        maxTokens := 1
        promptTokens := embedding.slicePromptTokens
        embedding }

namespace EmbeddingRequest

/-- `ExecuteRequest` on an embedding request. -/
def execute (req : EmbeddingRequest α) (pass : EmbedPass α) :
    EmbeddingRequest α × EmbeddingResult α :=
  let result : InferenceResult := { promptTokens := req.promptTokens.length }
  let inference := req.clearYielded
  if pass.cancelledBefore then
    ({ req with toInferenceRequest := inference.setPhase .aborted },
      { toInferenceResult := { result with noBackend := true, completion := kCancelledText } })
  else
    let result := { result with modelId := inference.resultModelId }
    ({ req with toInferenceRequest := inference.setPhase .finished },
      match req.embedding.tryEmbed pass.backend with
      | .ok (embeddings, promptTokens) =>
        { toInferenceResult := { result with promptTokens }, embeddings }
      | .error message =>
        { toInferenceResult := { result with
            noBackend := true
            completion := message.getD (bytes "embedding execution failed")
            promptTokens := 0 } })

/-- The embedding branch of `ProcessBatch`: the request is requeued or answered. -/
def publish (req : EmbeddingRequest α) (result : EmbeddingResult α) (cancelled : Bool) :
    EmbeddingRequest α × Option (EmbeddingResult α) :=
  let embedding :=
    if !result.noBackend then req.embedding.keep result.embeddings result.promptTokens
    else req.embedding
  let result :=
    if cancelled then { result with noBackend := true, completion := kCancelledText } else result
  if !result.noBackend && embedding.offset < embedding.inputs.length then
    ({ req with phase := .pending, promptTokens := embedding.slicePromptTokens, embedding }, none)
  else
    ({ req with phase := if cancelled then .aborted else .finished, embedding },
      some { result with
        embeddings := if !result.noBackend then embedding.results else []
        promptTokens := embedding.promptTokens })

def runPass (req : EmbeddingRequest α) (pass : EmbedPass α) :
    EmbeddingRequest α × Option (EmbeddingResult α) :=
  let (req, result) := req.execute pass
  req.publish result pass.cancelledAfter

def run : EmbeddingRequest α → List (EmbedPass α) → Option (EmbeddingResult α)
  | _, [] => none
  | req, pass :: passes =>
    match req.runPass pass with
    | (_, some result) => some result
    | (req, none) => run req passes

/-- The embedding branch is the one of the one-request executor, which leaves out the vectors. -/
theorem execute_eq_executeRequest (env : ExecutorEnv) (backend : Option TextBackend)
    (req : EmbeddingRequest α) (pass : EmbedPass α) (hembed : req.embeddingRequest = true)
    (hflag : req.cancellationFlag = pass.cancelledBefore)
    (henv : env.embed = match req.embedding.tryEmbed pass.backend with
      | .ok (_, promptTokens) => .ok promptTokens
      | .error message => .error (message.getD (bytes "embedding execution failed"))) :
    (req.execute pass).2.toInferenceResult =
      (executeRequest env backend req.toInferenceRequest).result := by
  have hflag' : req.clearYielded.cancellationFlag = pass.cancelledBefore := hflag
  have hembed' : req.clearYielded.embeddingRequest = true := hembed
  unfold execute executeRequest
  simp only [henv, hflag', hembed', if_true]
  cases pass.cancelledBefore with
  | true => rfl
  | false => cases req.embedding.tryEmbed pass.backend <;> rfl

end EmbeddingRequest

/-! ## One pass -/

/-- A pass that embeds a slice: the backend returns a non-empty vector for each input, and the
request is not cancelled. -/
structure EmbedsSlice (pass : EmbedPass α) (inputs : List Bytes) (embeddings : List (List α))
    (promptTokens : Int) : Prop where
  exists_backend : ∃ backend counts, pass.backend = some backend ∧ backend.isReady = true ∧
    backend.embedBatch inputs = .ok embeddings ∧
    inputs.mapM backend.embeddingTokenCount = .ok counts ∧ promptTokens = counts.sum
  length_eq : embeddings.length = inputs.length
  ne_nil : ∀ embedding ∈ embeddings, embedding ≠ []
  cancelledBefore : pass.cancelledBefore = false
  cancelledAfter : pass.cancelledAfter = false

variable {embeddings : List (List α)} {promptTokens : Int}

theorem EmbeddingState.tryEmbed_eq_ok_iff {state : EmbeddingState α} {pass : EmbedPass α}
    (hleft : state.offset < state.inputs.length) :
    state.tryEmbed pass.backend = .ok (embeddings, promptTokens) ∧
        pass.cancelledBefore = false ∧ pass.cancelledAfter = false ↔
      EmbedsSlice pass (state.sliceAt state.offset) embeddings promptTokens := by
  constructor
  · rintro ⟨htry, hbefore, hafter⟩
    unfold tryEmbed at htry
    cases hbackend : pass.backend with
    | none => simp [hbackend] at htry
    | some backend =>
      simp only [hbackend] at htry
      split at htry
      · cases htry
      next hopen =>
        have hready : backend.isReady = true := by
          cases h : backend.isReady with
          | true => rfl
          | false => simp [h] at hopen
        cases hbatch : backend.embedBatch (state.sliceAt state.offset) with
        | error => rw [hbatch] at htry; cases htry
        | ok vectors =>
          rw [hbatch] at htry
          simp only [bind, Except.bind] at htry
          split at htry
          · cases htry
          next hvectors =>
            cases hcounts : (state.sliceAt state.offset).mapM backend.embeddingTokenCount with
            | error => rw [hcounts] at htry; cases htry
            | ok counts =>
              rw [hcounts] at htry
              obtain ⟨rfl, rfl⟩ := Prod.mk.inj (Except.ok.inj htry)
              simp only [Bool.or_eq_true, decide_eq_true_eq, not_or, not_not, any_eq_true,
                List.isEmpty_iff] at hvectors
              exact ⟨⟨backend, counts, hbackend, hready, hbatch, hcounts, rfl⟩, hvectors.1,
                fun v hv hnil => hvectors.2 ⟨v, hv, hnil⟩, hbefore, hafter⟩
  · rintro ⟨⟨backend, counts, hbackend, hready, hbatch, hcounts, rfl⟩, hlength, hnil, hbefore,
      hafter⟩
    refine ⟨?_, hbefore, hafter⟩
    have hvectors : (decide (embeddings.length ≠ (state.sliceAt state.offset).length) ||
        embeddings.any isEmpty) = false := by
      simpa [hlength] using hnil
    have hopen : (!backend.isReady || decide (state.offset ≥ state.inputs.length)) = false := by
      simpa [hready] using hleft
    simp only [tryEmbed, hbackend, hopen, hbatch, bind, Except.bind, hvectors, hcounts,
      Bool.false_eq_true, if_false]

namespace EmbeddingRequest

variable {req : EmbeddingRequest α} {pass : EmbedPass α}

/-- A pass that embeds its slice requeues the request or, with the last slice, answers it. -/
theorem runPass_of_embeds (hleft : req.embedding.offset < req.embedding.inputs.length)
    (h : EmbedsSlice pass (req.embedding.sliceAt req.embedding.offset) embeddings promptTokens)
    {state : EmbeddingState α} (hstate : state = req.embedding.keep embeddings promptTokens) :
    ∃ next : EmbeddingRequest α, next.embedding = state ∧
      if state.offset < state.inputs.length then req.runPass pass = (next, none)
      else ∃ result, req.runPass pass = (next, some result) ∧ result.noBackend = false ∧
        result.embeddings = state.results ∧ result.promptTokens = state.promptTokens := by
  obtain ⟨htry, hbefore, hafter⟩ := (EmbeddingState.tryEmbed_eq_ok_iff hleft).mpr h
  refine ⟨(req.runPass pass).1, ?_⟩
  simp only [runPass, execute, hbefore, hafter, htry, publish, Bool.false_eq_true, if_false,
    Bool.not_false, Bool.true_and, if_true, ← hstate, decide_eq_true_eq]
  split
  · exact ⟨rfl, rfl⟩
  · exact ⟨rfl, _, rfl, rfl, rfl, rfl⟩

/-- A pass that does not embed its slice answers the request, without vectors. -/
theorem runPass_of_not_embeds (hleft : req.embedding.offset < req.embedding.inputs.length)
    (h : ∀ embeddings promptTokens,
      ¬ EmbedsSlice pass (req.embedding.sliceAt req.embedding.offset) embeddings promptTokens) :
    ∃ next result, req.runPass pass = (next, some result) ∧ result.noBackend = true ∧
      result.embeddings = [] := by
  cases hbefore : pass.cancelledBefore with
  | true =>
    simp only [runPass, execute, hbefore, publish, if_true, Bool.not_true, Bool.false_and,
      Bool.false_eq_true, if_false, ite_self]
    exact ⟨_, _, rfl, rfl, rfl⟩
  | false =>
    cases hafter : pass.cancelledAfter with
    | true =>
      simp only [runPass, execute, hbefore, hafter, publish, if_true, Bool.not_true, Bool.false_and,
        Bool.false_eq_true, if_false]
      exact ⟨_, _, rfl, rfl, rfl⟩
    | false =>
      cases htry : req.embedding.tryEmbed pass.backend with
      | ok answer =>
        exact absurd ((EmbeddingState.tryEmbed_eq_ok_iff hleft).mp ⟨htry, hbefore, hafter⟩) (h _ _)
      | error message =>
        simp only [runPass, execute, hbefore, hafter, htry, publish, Bool.not_true, Bool.false_and,
          Bool.false_eq_true, if_false]
        exact ⟨_, _, rfl, rfl, rfl⟩

end EmbeddingRequest

/-! ## All passes -/

structure Fresh (state : EmbeddingState α) : Prop where
  inputs_ne_nil : state.inputs ≠ []
  sliceSize_pos : 0 < state.sliceSize
  offset : state.offset = 0
  results : state.results = []
  promptTokens : state.promptTokens = 0

theorem embed_fresh {useDecodeWorkers : Bool} {maxBatchTokens : Int}
    {request req : EmbeddingRequest α}
    (h : embed useDecodeWorkers maxBatchTokens request = .ok req) :
    Fresh req.embedding ∧ req.embedding.inputs = request.embedding.inputs ∧
      request.embedding.inputs.length ≤ 4096 := by
  unfold embed at h
  dsimp only at h
  split at h
  · cases h
  next hinputs =>
    obtain rfl := Except.ok.inj h
    simp only [Bool.or_eq_true, List.isEmpty_iff, decide_eq_true_eq, not_or] at hinputs
    exact ⟨⟨hinputs.1.1, by dsimp only; omega, rfl, rfl, rfl⟩, rfl, by omega⟩

section Passes

variable (first : EmbeddingState α)

/-- Every slice so far was embedded, and the request has what the backend returned for them. -/
structure Progress (done : List (EmbedPass α)) (answers : List (List (List α) × Int))
    (state : EmbeddingState α) : Prop where
  inputs : state.inputs = first.inputs
  sliceSize : state.sliceSize = first.sliceSize
  results : state.results = (answers.map Prod.fst).flatten
  promptTokens : state.promptTokens = (answers.map Prod.snd).sum
  offset : state.offset = min first.inputs.length (answers.length * first.sliceSize)
  length_results : state.results.length = state.offset
  length_done : done.length = answers.length
  embedded : ∀ k answer, answers[k]? = some answer → ∃ pass, done[k]? = some pass ∧
    EmbedsSlice pass (first.sliceAt (k * first.sliceSize)) answer.1 answer.2

/-- What the answer to a request says about its passes. -/
structure Answered (passes : List (EmbedPass α)) (result : EmbeddingResult α) : Prop where
  success : result.noBackend = false → ∃ answers : List (List (List α) × Int),
    (answers.length - 1) * first.sliceSize < first.inputs.length ∧
    first.inputs.length ≤ answers.length * first.sliceSize ∧
    (∀ k answer, answers[k]? = some answer → ∃ pass, passes[k]? = some pass ∧
      EmbedsSlice pass (first.sliceAt (k * first.sliceSize)) answer.1 answer.2) ∧
    result.embeddings = (answers.map Prod.fst).flatten ∧
    result.embeddings.length = first.inputs.length ∧
    result.promptTokens = (answers.map Prod.snd).sum
  failure : result.noBackend = true → result.embeddings = []
  failed_slice : ∀ k pass, passes[k]? = some pass → k * first.sliceSize < first.inputs.length →
    (∀ embeddings promptTokens,
      ¬ EmbedsSlice pass (first.sliceAt (k * first.sliceSize)) embeddings promptTokens) →
    result.noBackend = true

variable {first} {done : List (EmbedPass α)} {answers : List (List (List α) × Int)}
  {state : EmbeddingState α}

theorem Fresh.progress (h : Fresh first) : Progress first [] [] first where
  inputs := rfl
  sliceSize := rfl
  results := h.results
  promptTokens := h.promptTokens
  offset := by rw [h.offset]; simp
  length_results := by rw [h.results, h.offset]; rfl
  length_done := rfl
  embedded := by simp

/-- While inputs are left, the next slice starts where the slices before it end. -/
theorem Progress.sliceAt_offset (h : Progress first done answers state)
    (hleft : state.offset < state.inputs.length) :
    state.offset = answers.length * first.sliceSize ∧
      state.sliceAt state.offset = first.sliceAt (answers.length * first.sliceSize) := by
  have hoffset : state.offset = answers.length * first.sliceSize := by
    rw [h.inputs] at hleft
    have := h.offset
    omega
  exact ⟨hoffset, by rw [EmbeddingState.sliceAt, EmbeddingState.sliceAt, h.inputs, h.sliceSize, hoffset]⟩

variable {answer : List (List α) × Int}

theorem Progress.keep (h : Progress first done answers state)
    (hleft : state.offset < state.inputs.length) {pass : EmbedPass α}
    (hpass : EmbedsSlice pass (state.sliceAt state.offset) answer.1 answer.2) :
    Progress first (done ++ [pass]) (answers ++ [answer]) (state.keep answer.1 answer.2) := by
  obtain ⟨hoffset, hslice⟩ := h.sliceAt_offset hleft
  have hlength : (state.results ++ answer.1).length =
      min first.inputs.length ((answers.length + 1) * first.sliceSize) := by
    rw [length_append, h.length_results, hpass.length_eq, EmbeddingState.sliceAt,
      length_take, length_drop, h.sliceSize, h.inputs, Nat.succ_mul]
    rw [h.inputs] at hleft
    omega
  refine ⟨h.inputs, h.sliceSize, ?_, ?_, ?_, rfl, ?_, ?_⟩
  · simp [EmbeddingState.keep, h.results]
  · simp [EmbeddingState.keep, h.promptTokens]
  · simpa [EmbeddingState.keep] using hlength
  · simp [h.length_done]
  · intro k a ha
    rcases Nat.lt_trichotomy k answers.length with hk | rfl | hk
    · rw [getElem?_append_left hk] at ha
      obtain ⟨p, hp, hembeds⟩ := h.embedded k a ha
      exact ⟨p, by rwa [getElem?_append_left (by rw [h.length_done]; exact hk)], hembeds⟩
    · rw [getElem?_concat_length] at ha
      obtain rfl := Option.some.inj ha
      exact ⟨pass, by rw [← h.length_done, getElem?_concat_length], hslice ▸ hpass⟩
    · rw [getElem?_eq_none (by simp; omega)] at ha
      cases ha

theorem Progress.embedded_append (h : Progress first done answers state)
    (rest : List (EmbedPass α)) {k : Nat} (hk : answers[k]? = some answer) :
    ∃ pass, (done ++ rest)[k]? = some pass ∧
      EmbedsSlice pass (first.sliceAt (k * first.sliceSize)) answer.1 answer.2 := by
  obtain ⟨pass, hpass, hembeds⟩ := h.embedded k answer hk
  have hlt := (List.getElem?_eq_some_iff.mp hpass).1
  exact ⟨pass, by rwa [getElem?_append_left hlt], hembeds⟩

variable {result : EmbeddingResult α}

theorem Progress.answered (h : Progress first done answers state)
    (hlast : (answers.length - 1) * first.sliceSize < first.inputs.length)
    (hall : ¬ state.offset < state.inputs.length) (rest : List (EmbedPass α))
    (hok : result.noBackend = false) (hembeddings : result.embeddings = state.results)
    (htokens : result.promptTokens = state.promptTokens) :
    Answered first (done ++ rest) result := by
  have hoffset := h.offset
  rw [h.inputs] at hall
  have hcover : first.inputs.length ≤ answers.length * first.sliceSize := by omega
  refine ⟨fun _ => ⟨answers, hlast, hcover, fun k answer => h.embedded_append rest, ?_, ?_, ?_⟩,
    fun hfail => absurd hfail (by simp [hok]), ?_⟩
  · rw [hembeddings, h.results]
  · rw [hembeddings, h.length_results]
    omega
  · rw [htokens, h.promptTokens]
  · intro k pass hpass hk hnot
    have hlt : k < answers.length :=
      Nat.lt_of_mul_lt_mul_right (Nat.lt_of_lt_of_le hk hcover)
    obtain ⟨p, hp, hembeds⟩ := h.embedded_append rest (getElem?_eq_getElem hlt)
    rw [hpass] at hp
    obtain rfl := Option.some.inj hp
    exact absurd hembeds (hnot _ _)

variable {req : EmbeddingRequest α}

theorem Progress.run (passes : List (EmbedPass α))
    (h : Progress first done answers req.embedding)
    (hleft : req.embedding.offset < req.embedding.inputs.length) :
    (first.inputs.length ≤ (answers.length + passes.length) * first.sliceSize →
      (req.run passes).isSome) ∧
    ∀ result, req.run passes = some result → Answered first (done ++ passes) result := by
  induction passes generalizing req done answers with
  | nil =>
    refine ⟨fun henough => ?_, fun _ hrun => by cases hrun⟩
    have := h.sliceAt_offset hleft
    rw [h.inputs] at hleft
    simp only [length_nil, Nat.add_zero] at henough
    omega
  | cons pass passes ih =>
    have hslices : answers.length * first.sliceSize < first.inputs.length := by
      rw [← (h.sliceAt_offset hleft).1, ← h.inputs]
      exact hleft
    rw [append_cons]
    unfold EmbeddingRequest.run
    by_cases hembeds : ∃ answer : List (List α) × Int,
        EmbedsSlice pass (req.embedding.sliceAt req.embedding.offset) answer.1 answer.2
    · obtain ⟨answer, hembeds⟩ := hembeds
      have hkeep := h.keep hleft hembeds
      obtain ⟨next, hnext, hpass⟩ := EmbeddingRequest.runPass_of_embeds hleft hembeds rfl
      split at hpass
      next hmore =>
        rw [hpass]
        rw [← hnext] at hkeep hmore
        obtain ⟨hsome, hanswered⟩ := ih hkeep hmore
        refine ⟨fun henough => hsome ?_, hanswered⟩
        simpa [Nat.add_assoc, Nat.add_comm] using henough
      next hall =>
        obtain ⟨last, hlast, hok, hembeddings, htokens⟩ := hpass
        rw [hlast]
        refine ⟨fun _ => rfl, fun result hrun => ?_⟩
        obtain rfl := Option.some.inj hrun
        exact hkeep.answered (by simpa using hslices) hall passes hok hembeddings htokens
    · obtain ⟨next, last, hpass, hfail, hnone⟩ := EmbeddingRequest.runPass_of_not_embeds hleft
        (fun e n he => hembeds ⟨(e, n), he⟩)
      rw [hpass]
      refine ⟨fun _ => rfl, fun result hrun => ?_⟩
      obtain rfl := Option.some.inj hrun
      exact ⟨fun hok => absurd hok (by simp [hfail]), fun _ => hnone, fun _ _ _ _ _ => hfail⟩

end Passes

/-- Embedding under slicing. A request with a pass for every slice is answered. A successful
answer has, in order, the vectors that the backend returned for consecutive slices of the
inputs, one for each input, and the prompt tokens of all slices. A failed answer has no vectors,
and the answer fails if a slice fails or is cancelled. -/
theorem embeddings_in_order (req : EmbeddingRequest α) (hfresh : Fresh req.embedding)
    (passes : List (EmbedPass α)) :
    (req.embedding.inputs.length ≤ passes.length * req.embedding.sliceSize →
      (req.run passes).isSome) ∧
    ∀ result, req.run passes = some result →
      (result.noBackend = false → ∃ answers : List (List (List α) × Int),
        (answers.length - 1) * req.embedding.sliceSize < req.embedding.inputs.length ∧
        req.embedding.inputs.length ≤ answers.length * req.embedding.sliceSize ∧
        (∀ k answer, answers[k]? = some answer → ∃ pass, passes[k]? = some pass ∧
          EmbedsSlice pass (req.embedding.sliceAt (k * req.embedding.sliceSize))
            answer.1 answer.2) ∧
        result.embeddings = (answers.map Prod.fst).flatten ∧
        result.embeddings.length = req.embedding.inputs.length ∧
        result.promptTokens = (answers.map Prod.snd).sum) ∧
      (result.noBackend = true → result.embeddings = []) ∧
      ∀ k pass, passes[k]? = some pass →
        k * req.embedding.sliceSize < req.embedding.inputs.length →
        (∀ embeddings promptTokens,
          ¬ EmbedsSlice pass (req.embedding.sliceAt (k * req.embedding.sliceSize))
            embeddings promptTokens) →
        result.noBackend = true := by
  have hleft : req.embedding.offset < req.embedding.inputs.length := by
    rw [hfresh.offset]
    exact length_pos_iff.mpr hfresh.inputs_ne_nil
  obtain ⟨hsome, hanswered⟩ := hfresh.progress.run passes hleft
  refine ⟨fun henough => hsome (by simpa using henough), fun result hrun => ?_⟩
  have h := hanswered result hrun
  exact ⟨h.success, h.failure, h.failed_slice⟩

def threeInputs : EmbeddingRequest Nat :=
  { embedding := { inputs := [[1], [1, 2], [1, 2, 3]], sliceSize := 2 } }

def lengthPass : EmbedPass Nat :=
  { backend := some
      { embedBatch := fun inputs => .ok (inputs.map fun input => [input.length])
        embeddingTokenCount := fun input => .ok input.length } }

theorem threeInputs_in_order : Fresh threeInputs.embedding ∧
    ∃ result, threeInputs.run [lengthPass, lengthPass] = some result ∧
      result.embeddings.length = 3 ∧ result.embeddings = [[1], [2], [3]] ∧
      result.promptTokens = 6 := by
  have hfresh : Fresh threeInputs.embedding := ⟨by decide, by decide, rfl, rfl, rfl⟩
  obtain ⟨hends, hanswer⟩ := embeddings_in_order threeInputs hfresh [lengthPass, lengthPass]
  obtain ⟨result, hrun⟩ := Option.isSome_iff_exists.mp (hends (by decide))
  have hvalue : threeInputs.run [lengthPass, lengthPass] =
      some { promptTokens := 6, embeddings := [[1], [2], [3]] } := rfl
  obtain rfl := Option.some.inj (hrun.symm.trans hvalue)
  obtain ⟨-, -, -, -, -, hlength, -⟩ := (hanswer _ hrun).1 rfl
  exact ⟨hfresh, _, hrun, hlength, rfl, rfl⟩

end InferFlux.Scheduler
