import InferFlux.Execution.BatchRounds
import InferFlux.Execution.ExecuteRequest
import InferFlux.Execution.SliceTransparency

/-!
# The finish reason

`finish_reason_length` is set in `ExecuteRequest` only, from the token count of the finished
text. The unified phased executor and the step-wise path leave it false, also when the
generation has used up `max_tokens`. `finishReasonLength_iff` states for each of the three
paths when the flag agrees with the reason why the generation ended.
-/

namespace InferFlux.Execution

open InferFlux.Text UnifiedBatchOutput Bool InferenceRequest

/-! ## The one-request executor -/

section

variable (env : ExecutorEnv) (backend : Option TextBackend) (req : InferenceRequest)

end

variable {req : InferenceRequest}

variable (env : ExecutorEnv)

/-- A change of the request that the generation of a pass and its budget do not see. -/
structure PassFrame (req req' : InferenceRequest) : Prop where
  responseFormat : req'.responseFormat = req.responseFormat
  nPast : req'.nPast = req.nPast
  sequenceId : req'.sequenceId = req.sequenceId
  firstToken : req'.firstToken = req.firstToken
  hasImages : req'.hasImages = req.hasImages
  maxTokens : req'.maxTokens = req.maxTokens
  total : req'.fairness.totalCompletionTokens = req.fairness.totalCompletionTokens

theorem PassFrame.trans {r r' r'' : InferenceRequest} (h : PassFrame r r') (h' : PassFrame r' r'') :
    PassFrame r r'' :=
  ⟨h'.1.trans h.1, h'.2.trans h.2, h'.3.trans h.3, h'.4.trans h.4, h'.5.trans h.5, h'.6.trans h.6,
    h'.7.trans h.7⟩

section Phased

variable {σ : Type} (slot : Slot)

theorem acceptToken_finishReasonLength (res : UnifiedBatchOutput) (cancelled : Bool) :
    (slot.acceptToken res cancelled).result.finishReasonLength = slot.result.finishReasonLength := by
  cases hvisible : isVisibleGeneratedPiece res.piece with
  | true => simp [Slot.acceptToken, hvisible]
  | false => simp [Slot.acceptToken, hvisible]

theorem SlotMove.finishReasonLength {cap : Int} {slot next : Slot}
    {input : Option UnifiedBatchInput} (hmove : SlotMove cap slot input next) :
    next.result.finishReasonLength = slot.result.finishReasonLength := by
  cases hmove with
  | idle =>
    unfold Slot.buildInput
    dsimp only
    split_ifs <;> rfl
  | answered _ res =>
    unfold Slot.consumeOutput
    dsimp only
    split_ifs <;> first | rfl | exact acceptToken_finishReasonLength _ _ _
  | failed => rfl

end Phased

/-- The outputs up to the limit fill it, and no stop sequence ends the text among them. -/
def ReachesLimit (stops : List Bytes) (text : Bytes) (asm : IncrementalUtf8Assembler) (limit : Nat)
    (ls : List UnifiedBatchOutput) : Prop :=
  (sampledUpTo limit ls).countP visible = limit ∧
    firstHit stops text (assembledChunks asm ((sampledUpTo limit ls).map (·.piece))) = none

instance (stops : List Bytes) (text : Bytes) (asm : IncrementalUtf8Assembler) (limit : Nat)
    (ls : List UnifiedBatchOutput) : Decidable (ReachesLimit stops text asm limit ls) :=
  inferInstanceAs (Decidable (_ ∧ _))

theorem stopHit_eq_false_iff (req : InferenceRequest) (completion : Bytes) (pieces : List Bytes) :
    (assemblePieces req completion pieces).stopHit = false ↔
      firstHit req.stop completion (assembledChunks req.outputUtf8 pieces) = none := by
  cases hhit : firstHit req.stop completion (assembledChunks req.outputUtf8 pieces) with
  | none => simp [assemblePieces_of_none req hhit]
  | some hit => simp [assemblePieces_of_some req hhit]

section Decoded

variable {slot : Slot} {outs : List UnifiedBatchOutput} {final : Slot × List UnifiedBatchOutput}

theorem Decoded.cause_limit_iff (h : Decoded slot outs final) :
    final.1.state.cause = some .limit ↔
      ReachesLimit slot.req.stop slot.result.completion slot.req.outputUtf8 slot.budget outs := by
  unfold ReachesLimit
  rw [h.cause, ← stopHit_eq_false_iff]
  change _ ↔ slot.Fills outs ∧ (slot.assembly outs).stopHit = false
  split_ifs <;> simp_all

theorem Decoded.limit_le (h : Decoded slot outs final) (hlimit : final.1.state.cause = some .limit) :
    final.1.state.decodeLimit ≤ final.1.state.tokensGenerated := by
  obtain ⟨hfull, hhit⟩ := h.cause_limit_iff.mp hlimit
  have hconsumed := consumed_of_stopHit_eq_false _ ((stopHit_eq_false_iff ..).mpr hhit)
  have hall : (slot.assembly outs).consumed = (slot.sampled outs).length :=
    hconsumed.trans (List.length_map _)
  have hcount : (slot.sampled outs).countP visible = slot.budget := hfull
  rw [h.decodeLimit, h.tokensGenerated, hall, List.take_length, hcount, Slot.budget]
  omega

end Decoded

structure Slot.Same (slot slot' : Slot) : Prop where
  state : slot.state = slot'.state
  text : SameText slot.req slot'.req
  completion : slot.result.completion = slot'.result.completion

section Same

variable {slot slot' : Slot}

theorem Slot.Same.acceptToken (h : slot.Same slot') (o : UnifiedBatchOutput) (cancelled : Bool) :
    (slot.acceptToken o cancelled).Same (slot'.acceptToken o cancelled) := by
  obtain ⟨hstate, htext, hcompletion⟩ := h
  obtain ⟨hhit, htext', htail⟩ := htext.appendGeneratedPiece o.piece slot'.result.completion
  simp only [Slot.acceptToken, hstate, hcompletion, hhit]
  split
  · exact ⟨rfl, htext', htail⟩
  · exact ⟨rfl, htext, hcompletion⟩

theorem Slot.Same.consumeOutput (h : slot.Same slot') (hd : slot.Decoding) (hd' : slot'.Decoding)
    (o : UnifiedBatchOutput) : (slot.consumeOutput {} o).Same (slot'.consumeOutput {} o) := by
  have hpast : Slot.Same { slot with req := slot.req.setNPast (slot.req.nPast + 1) }
      { slot' with req := slot'.req.setNPast (slot'.req.nPast + 1) } :=
    ⟨h.state, ⟨h.text.stop, h.text.onToken, h.text.streamed, h.text.outputUtf8⟩, h.completion⟩
  rw [consumeOutput_eq hd, consumeOutput_eq hd']
  split
  · exact ⟨congrArg (ReqState.deactivate · .terminal) h.state, hpast.text, h.completion⟩
  · exact hpast.acceptToken o false

end Same

namespace Stepwise

end Stepwise

end InferFlux.Execution
