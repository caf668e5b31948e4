import InferFlux.Execution.BatchRounds
import Mathlib.Algebra.Ring.Int.Defs

/-!
# Chunked prefill

A prompt is submitted in chunks, in the rounds of `ExecuteUnifiedBatchPhased` or in successive
calls of `ExecuteUnifiedBatchStep`, next to the decode tokens and chunks of other requests;
`ComputePrefillChunkCap` recomputes the size of the chunks every time.
-/

namespace InferFlux.Execution

open InferFlux.Text ReqState List Option Prod Slot InferenceRequest

/-! ## A prompt in chunks -/

/-- The input is the chunk of the prompt that begins at the offset; it asks for logits if the
prompt ends with it. -/
structure IsChunk (prompt : List Int) (offset : Int) (input : UnifiedBatchInput) : Prop where
  nPast : input.nPast = offset
  tokens : input.tokens = (prompt.drop offset.toNat).take input.tokens.length
  nonempty : 0 < input.tokens.length
  within : offset + input.tokens.length ≤ prompt.length
  requestLogits : input.requestLogits = decide (offset + input.tokens.length = prompt.length)

/-- The inputs are chunks of the prompt, one after the other, from an offset to another. -/
inductive Tiles (prompt : List Int) : Int → List UnifiedBatchInput → Int → Prop
  | nil (offset : Int) : Tiles prompt offset [] offset
  | cons {offset stop : Int} {input : UnifiedBatchInput} {inputs : List UnifiedBatchInput}
      (hchunk : IsChunk prompt offset input)
      (hrest : Tiles prompt (offset + input.tokens.length) inputs stop) :
      Tiles prompt offset (input :: inputs) stop

variable {offset : Int} {prompt : List Int} {inputs : List UnifiedBatchInput}

theorem Tiles.le {stop : Int} (h : Tiles prompt offset inputs stop) : offset ≤ stop := by
  induction h with
  | nil => exact Int.le_refl _
  | cons _ _ ih => omega

/-- Where a request stands with its prompt. -/
inductive Stage where
  | prompt (offset : Int)
  | past
  | ended
  deriving DecidableEq, Repr

inductive PromptMove (prompt : List Int) : Stage → Option UnifiedBatchInput → Stage → Prop
  | chunk {offset : Int} {input : UnifiedBatchInput} (h : IsChunk prompt offset input)
      (hmore : offset + input.tokens.length < prompt.length) :
      PromptMove prompt (.prompt offset) (some input) (.prompt (offset + input.tokens.length))
  | last {offset : Int} {input : UnifiedBatchInput} (h : IsChunk prompt offset input)
      (hend : offset + input.tokens.length = prompt.length) :
      PromptMove prompt (.prompt offset) (some input) .past
  | refused {offset : Int} {input : UnifiedBatchInput} (h : IsChunk prompt offset input) :
      PromptMove prompt (.prompt offset) (some input) .ended
  | wait (offset : Int) : PromptMove prompt (.prompt offset) none (.prompt offset)
  | stop (offset : Int) : PromptMove prompt (.prompt offset) none .ended
  | nothing {offset : Int} (h : (prompt.length : Int) ≤ offset) :
      PromptMove prompt (.prompt offset) none .past
  | token {input : UnifiedBatchInput} (h : input.tokens.length = 1) :
      PromptMove prompt .past (some input) .past
  | rest : PromptMove prompt .past none .past
  | settled : PromptMove prompt .ended none .ended

namespace PromptRun

variable {prompt : List Int} {stage last : Stage} {inputs : List UnifiedBatchInput}

end PromptRun

/-- The inputs of a request are its prompt from an offset, chunk by chunk, and then single
tokens. Without an excuse the prompt is covered to its end. -/
def PrefillCovers (prompt : List Int) (offset : Int) (inputs : List UnifiedBatchInput)
    (excuse : Prop) : Prop :=
  ∃ chunks decodes stop, inputs = chunks ++ decodes ∧ Tiles prompt offset chunks stop ∧
    chunks.flatMap (·.tokens) = (prompt.drop offset.toNat).take (stop - offset).toNat ∧
    (∀ input ∈ decodes, input.tokens.length = 1) ∧ (decodes ≠ [] → stop = prompt.length) ∧
    (stop = prompt.length ∨ excuse)

theorem PrefillCovers.mono {excuse excuse' : Prop} (h : PrefillCovers prompt offset inputs excuse)
    (hexcuse : excuse → excuse') : PrefillCovers prompt offset inputs excuse' := by
  obtain ⟨chunks, decodes, stop, hinputs, htiles, htokens, hdecodes, hpast, hend⟩ := h
  exact ⟨chunks, decodes, stop, hinputs, htiles, htokens, hdecodes, hpast, hend.imp_right hexcuse⟩

variable {stage : Stage}

def StandsAt (prompt : List Int) (req : InferenceRequest) (state : ReqState) : Stage → Prop
  | .prompt offset => state.active = true ∧ state.inPrefill = true ∧ state.cause = none ∧
      req.bpePromptTokens = prompt ∧ req.prefillOffset = offset ∧ 0 ≤ offset
  | .past => state.inPrefill = false
  | .ended => state.active = false ∧ (state.cause = some .cancelled ∨ state.cause = some .failed)

variable {cap : Int}

/-- What a request submits at a stage: nothing, which is a move of its own, a single token past
the prompt, or a chunk of the prompt. -/
inductive Submits (prompt : List Int) (stage : Stage) (Next : Stage → Prop) :
    Option UnifiedBatchInput → Prop
  | nothing (next : Stage) (hnext : Next next) (hmove : PromptMove prompt stage none next) :
      Submits prompt stage Next none
  | token {input : UnifiedBatchInput} (hpast : stage = .past) (h : input.tokens.length = 1) :
      Submits prompt stage Next (some input)
  | chunk {input : UnifiedBatchInput} {offset : Int} (hprompt : stage = .prompt offset)
      (h : IsChunk prompt offset input) : Submits prompt stage Next (some input)

/-- The answer to what a request submits is a move past the prompt, or one of its own. -/
theorem Submits.move {Next At Now : Stage → Prop} {input : UnifiedBatchInput}
    (h : Submits prompt stage Next (some input)) (hat : At stage) (hpast : At .past → Now .past)
    (hchunk : ∀ offset, At (.prompt offset) → IsChunk prompt offset input →
      ∃ stage', Now stage' ∧ PromptMove prompt (.prompt offset) (some input) stage') :
    ∃ stage', Now stage' ∧ PromptMove prompt stage (some input) stage' := by
  cases h with
  | token hstage hone =>
    subst hstage
    exact ⟨.past, hpast hat, .token hone⟩
  | chunk hstage h =>
    subst hstage
    exact hchunk _ hat h

namespace Slot

variable {prompt : List Int} {slot : Slot} {stage : Stage}

theorem consumeOutput_past (hpast : slot.state.inPrefill = false) (input : UnifiedBatchInput)
    (res : UnifiedBatchOutput) {cancelled : Bool} :
    (slot.consumeOutput input res cancelled).state.inPrefill = false := by
  simp only [consumeOutput, hpast, Bool.false_eq_true, if_false]
  split_ifs
  · exact hpast
  · rw [acceptToken_inPrefill]
    exact hpast

end Slot

variable {slot : Slot}

theorem StandsAt.load (hat : StandsAt prompt slot.req slot.state stage) (cancelled : Int → Bool) :
    StandsAt prompt (slot.load cancelled).req (slot.load cancelled).state stage := by
  cases stage <;> exact hat

namespace Stepwise

variable {prompt : List Int} {req : InferenceRequest} {stage : Stage}

variable {next : InferenceRequest}

theorem SinkTokens.past (hrun : SinkTokens req next) (hpast : req.execution.inPrefill = false) :
    next.execution.inPrefill = false := by
  induction hrun with
  | refl => exact hpast
  | tail _ hstep ih =>
    obtain ⟨ev, rfl⟩ := hstep
    unfold sinkToken
    rw [acceptToken_inPrefill]
    exact ih

end Stepwise

/-! ## The tokens of a step -/

def tokenCount (inputs : List UnifiedBatchInput) : Int := (inputs.map (·.tokens.length)).sum

section TokenCount

variable {α : Type*} {decodes prefills : α → Bool} {input : α → Option UnifiedBatchInput}
  {items : List α} {chunkCap : Int}

end TokenCount

variable {tuning : UnifiedBatchTuning}

section Phased

variable {σ : Type} (backend : Backend σ) (tuning : UnifiedBatchTuning)

end Phased

/-! ## The step executor -/

namespace Stepwise

variable {req : InferenceRequest}

section Step

variable {σ : Type} (backend : StepBackend σ) (tuning : UnifiedBatchTuning)

/-- A backend that keeps the inputs of the calls it did not decline. -/
def StepBackend.logged : StepBackend (σ × List (List UnifiedBatchInput)) where
  unifiedBatchTokenCapacity := backend.unifiedBatchTokenCapacity
  executeUnifiedBatch := backend.toBackend.logged.executeUnifiedBatch
  tryGreedyBurstDecodeTokens := fun (s, log) sequenceId nPast token limit =>
    match backend.tryGreedyBurstDecodeTokens s sequenceId nPast token limit with
    | (some outs, s) => (some outs, s, log ++ [[{ sequenceId, nPast, tokens := [token] }]])
    | (none, s) => (none, s, log)
  executeUnifiedBatchBurst := fun (s, log) inputs =>
    match backend.executeUnifiedBatchBurst s inputs with
    | (some burst, s) => (some burst, s, log ++ [inputs])
    | (none, s) => (none, s, log)

end Step

theorem StandsAt.of_eq {prompt : List Int} {now : InferenceRequest} {stage : Stage}
    (h : StandsAt prompt req req.execution.toReqState stage)
    (hprompt : now.bpePromptTokens = req.bpePromptTokens)
    (hoffset : now.prefillOffset = req.prefillOffset) (hexecution : now.execution = req.execution) :
    StandsAt prompt now now.execution.toReqState stage := by
  cases stage <;> simpa only [StandsAt, hprompt, hoffset, hexecution] using h

variable {last : InferenceRequest} {inputs : List UnifiedBatchInput}

end Stepwise

end InferFlux.Execution
