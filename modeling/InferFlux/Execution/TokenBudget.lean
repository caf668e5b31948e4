import InferFlux.Execution.BatchRounds
import InferFlux.Execution.Slices

/-!
# The token budget

`Scheduler::Generate` gives a request `max_tokens` decode tokens to go. A phased slice charges
what it generated in `FinalizeFairnessSlice`, the step-wise path rebuilds both counters from the
decode state in `SyncUnifiedDecodeStepProgress`. `Lifetime` is a request's way through slices
and steps of either path, in any order, in batches with any other requests; what the scheduler
does to the request in between leaves its counters and its decode state alone.
-/

namespace InferFlux.Execution

open InferFlux.Text

structure Budgeted (req : InferenceRequest) : Prop where
  sum : req.fairness.totalCompletionTokens + req.fairness.remainingDecodeTokens = req.maxTokens
  total_nonneg : 0 ≤ req.fairness.totalCompletionTokens
  remaining_nonneg : 0 ≤ req.fairness.remainingDecodeTokens

/-- The tokens of a decode state stay within its limit, and a prompt that ends has one left. -/
structure WithinLimit (state : ReqState) (limit : Int) : Prop where
  decodeLimit : state.decodeLimit = limit
  nonneg : 0 ≤ state.tokensGenerated
  le : state.tokensGenerated ≤ limit
  lt : state.inPrefill = true → state.tokensGenerated < limit

namespace WithinLimit

variable {state : ReqState} {limit : Int}

section

variable (h : WithinLimit state limit)
include h

theorem deactivate (cause : EndCause) : WithinLimit (state.deactivate cause) limit :=
  ⟨h.decodeLimit, h.nonneg, h.le, h.lt⟩

theorem deactivateIf (ended : Bool) (cause : EndCause) :
    WithinLimit (state.deactivateIf ended cause) limit := by
  cases ended with
  | false => exact h
  | true => exact h.deactivate cause

theorem leavePrefill : WithinLimit { state with inPrefill := false } limit :=
  ⟨h.decodeLimit, h.nonneg, h.le, fun hin => absurd hin (by simp)⟩

theorem count (hdecode : state.inPrefill = false) (hroom : state.tokensGenerated < limit)
    (token : Int) :
    WithinLimit { state with
      currentToken := token, tokensGenerated := state.tokensGenerated + 1 } limit :=
  ⟨h.decodeLimit, Int.le_add_one h.nonneg, hroom, fun hin => absurd hin (by simp [hdecode])⟩

theorem skip (token : Int) :
    WithinLimit { state with
      currentToken := token, nonEmittingSteps := state.nonEmittingSteps + 1 } limit :=
  ⟨h.decodeLimit, h.nonneg, h.le, h.lt⟩

end

/-- A token past the prompt stays within the limit. -/
theorem acceptToken (slot : Slot) (h : WithinLimit slot.state limit)
    (hdecode : slot.state.inPrefill = false) (hroom : slot.state.tokensGenerated < limit)
    (res : UnifiedBatchOutput) (cancelled : Bool) :
    WithinLimit (slot.acceptToken res cancelled).state limit := by
  unfold Slot.acceptToken
  cases hvisible : isVisibleGeneratedPiece res.piece with
  | true =>
    have hcount := h.count hdecode hroom res.token
    exact (hcount.deactivateIf cancelled .cancelled).deactivateIf _ .stop
  | false =>
    simp only [Bool.false_eq_true, if_false]
    split_ifs
    · exact (h.skip _).deactivate _
    · exact h.skip _

theorem consumeOutput {slot : Slot} (h : WithinLimit slot.state limit)
    (hroom : slot.state.tokensGenerated < limit) (input : UnifiedBatchInput)
    (res : UnifiedBatchOutput) {cancelled : Bool} :
    WithinLimit (slot.consumeOutput input res cancelled).state limit := by
  have hleave := h.leavePrefill
  unfold Slot.consumeOutput
  dsimp only
  split_ifs with hin
  · exact (h.deactivate _).leavePrefill
  · exact hleave.deactivate _
  · exact hleave.deactivate _
  · refine acceptToken _ hleave rfl ?_ res false
    exact hroom
  · refine acceptToken _ hleave rfl ?_ res false
    exact hroom
  · exact h
  · exact h.deactivate _
  · refine acceptToken _ ?_ ?_ ?_ res _
    · exact h
    · exact Bool.eq_false_iff.mpr hin
    · exact hroom

end WithinLimit

/-! ## A phased slice -/

/-- What a slice of a request leaves alone while it runs. -/
structure SliceFrame (req now : InferenceRequest) : Prop where
  maxTokens : now.maxTokens = req.maxTokens
  total : now.fairness.totalCompletionTokens = req.fairness.totalCompletionTokens
  remaining : now.fairness.remainingDecodeTokens = req.fairness.remainingDecodeTokens
  yielded : now.fairness.yielded = false
  execution : now.execution = req.execution

variable {now : InferenceRequest} {req : InferenceRequest}

theorem SliceFrame.of_eq {next : InferenceRequest} (h : SliceFrame req now)
    (hmax : next.maxTokens = now.maxTokens) (hfairness : next.fairness = now.fairness)
    (hexecution : next.execution = now.execution) : SliceFrame req next :=
  ⟨hmax.trans h.maxTokens, hfairness ▸ h.total, hfairness ▸ h.remaining, hfairness ▸ h.yielded,
    hexecution.trans h.execution⟩

/-- A slot in its slice, with the slice's decode limit. -/
structure InSlice (req : InferenceRequest) (limit : Int) (slot : Slot) : Prop where
  frame : SliceFrame req slot.req
  within : WithinLimit slot.state limit

variable {cap : Int}

namespace InSlice

variable {req : InferenceRequest} {limit : Int} {slot : Slot}

section

variable (h : InSlice req limit slot)
include h

theorem room {input : UnifiedBatchInput} (hinput : (slot.buildInput cap).2 = some input) :
    slot.state.tokensGenerated < limit := by
  have hlimit := h.within.decodeLimit
  have hprompt := h.within.lt
  unfold Slot.buildInput at hinput
  dsimp only at hinput
  split_ifs at hinput with hactive hcancelled hin hchunk hroom
  · exact hprompt hin
  · exact hlimit ▸ hroom

theorem consumeOutput (hroom : slot.state.tokensGenerated < limit) (input : UnifiedBatchInput)
    (res : UnifiedBatchOutput) {cancelled : Bool} :
    InSlice req limit (slot.consumeOutput input res cancelled) := by
  obtain ⟨_, _, _, _, _, _, hreq⟩ := slot.consumeOutput_req input res
  refine ⟨?_, h.within.consumeOutput hroom input res⟩
  rw [hreq]
  exact h.frame.of_eq rfl rfl rfl

theorem buildInput (cap : Int) : InSlice req limit (slot.buildInput cap).1 := by
  unfold Slot.buildInput
  dsimp only
  split_ifs
  · exact h
  · exact ⟨h.frame, h.within.deactivate _⟩
  · exact ⟨h.frame, h.within.leavePrefill⟩
  · exact h
  · exact h
  · exact ⟨h.frame, h.within.deactivate _⟩

theorem move {input : Option UnifiedBatchInput} {next : Slot}
    (hmove : SlotMove cap slot input next) : InSlice req limit next := by
  cases hmove with
  | idle hnone => exact h.buildInput cap
  | answered hinput res => exact h.consumeOutput (h.room hinput) _ res
  | failed hinput => exact ⟨h.frame, h.within.deactivate _⟩

end

end InSlice

theorem seedSlot_inSlice (tuning : UnifiedBatchTuning) (req : InferenceRequest) :
    InSlice req (sliceDecodeLimit req tuning.decodeBurstTokens) (seedSlot tuning req) := by
  have hpos := sliceDecodeLimit_pos req tuning.decodeBurstTokens
  have hle := Int.le_of_lt hpos
  have hframe : SliceFrame req req.beginSlice := ⟨rfl, rfl, rfl, rfl, rfl⟩
  unfold seedSlot planFairnessSlice
  dsimp only
  split
  next =>
    split
    next =>
      obtain ⟨streamed, a, htext⟩ :=
        appendGeneratedPiece_frame req.beginSlice req.beginSlice.firstPiece []
      rw [htext]
      refine ⟨hframe.of_eq rfl rfl rfl, ?_⟩
      split_ifs <;> exact ⟨rfl, Int.zero_le_ofNat 1, hpos, fun hin => nomatch hin⟩
    next => exact ⟨hframe, rfl, Int.le_refl 0, hle, fun _ => hpos⟩
  next =>
    split_ifs
    · exact ⟨hframe, rfl, Int.le_refl 0, hle, fun _ => hpos⟩
    · exact ⟨hframe.of_eq rfl rfl rfl, rfl, Int.le_refl 0, hle, fun _ => hpos⟩
    · exact ⟨hframe, rfl, Int.le_refl 0, hle, fun _ => hpos⟩

/-- A slice of a request that has tokens to go may not generate more than these. -/
theorem sliceDecodeLimit_le (hpos : 0 < req.fairness.remainingDecodeTokens) (burst : Int) :
    sliceDecodeLimit req burst ≤ req.fairness.remainingDecodeTokens := by
  unfold sliceDecodeLimit
  grind

/-- The charge of a slice: its tokens move from the tokens to go to the tokens counted, and a
request yields only with tokens left. -/
structure Charged (req : InferenceRequest) (gen : Int) (next : InferenceRequest) : Prop where
  maxTokens : next.maxTokens = req.maxTokens
  total : next.fairness.totalCompletionTokens = req.fairness.totalCompletionTokens + gen
  remaining : next.fairness.remainingDecodeTokens = max 0 (req.fairness.remainingDecodeTokens - gen)
  execution : next.execution = req.execution
  yielded : next.fairness.yielded = true →
    req.fairness.yielded = true ∨ gen < req.fairness.remainingDecodeTokens

theorem charged_accumulated {gen : Int}
    (hbudget : 0 ≤ now.fairness.remainingDecodeTokens) (hmax : now.maxTokens = req.maxTokens)
    (htotal : now.fairness.totalCompletionTokens = req.fairness.totalCompletionTokens + gen)
    (hexecution : now.execution = req.execution)
    (hyielded : now.fairness.yielded = true →
      req.fairness.yielded = true ∨ gen < req.fairness.remainingDecodeTokens) (completion : Bytes) :
    Charged req gen ((now.accumulateOutput completion).updateRemaining
      (max 0 (req.fairness.remainingDecodeTokens - gen))) := by
  have hframe : ∃ accumulatedOutput,
      now.accumulateOutput completion = { now with accumulatedOutput } := by
    unfold InferenceRequest.accumulateOutput
    split <;> exact ⟨_, rfl⟩
  obtain ⟨accumulatedOutput, hframe⟩ := hframe
  simp only [hframe, InferenceRequest.updateRemaining, ge_iff_le, hbudget, if_true]
  exact ⟨hmax, htotal, rfl, hexecution, hyielded⟩

theorem finalizeFairnessSlice_charged (hbudget : 0 ≤ req.fairness.remainingDecodeTokens)
    (out : InferenceResult) (gen : Int) (sliceActive : Bool) (decodeLimit currentToken : Int) :
    Charged req gen (finalizeFairnessSlice req out gen sliceActive decodeLimit currentToken).1 := by
  have hleft : req.fairness.remainingAfterSlice gen =
      max 0 (req.fairness.remainingDecodeTokens - gen) := if_pos hbudget
  simp only [finalizeFairnessSlice, finishGeneratedText_eq, hleft]
  split
  next hyield =>
    have hmore : gen < req.fairness.remainingDecodeTokens := by
      simp only [Bool.and_eq_true, decide_eq_true_eq] at hyield
      omega
    apply charged_accumulated
    · exact hbudget
    · rfl
    · rfl
    · rfl
    · exact fun _ => .inr hmore
  next =>
    apply charged_accumulated
    · exact hbudget
    · rfl
    · rfl
    · rfl
    · exact .inl

/-- A slice charges the tokens it generated, which are at most the tokens to go. -/
theorem executeUnifiedBatchPhased_charged {σ : Type} (backend : Backend σ)
    (tuning : UnifiedBatchTuning) {reqs : List InferenceRequest} (s : σ) {i : Nat}
    (hreq : reqs[i]? = some req) (hpos : 0 < req.fairness.remainingDecodeTokens) {slot : Slot}
    (hslot : (executeUnifiedBatchPhased backend tuning reqs s).1[i]? = some slot) :
    ∃ gen, 0 ≤ gen ∧ gen ≤ req.fairness.remainingDecodeTokens ∧
      Charged req.beginSlice gen slot.req := by
  have hseed : (reqs.map (seedSlot tuning))[i]? = some (seedSlot tuning req) := by simp [hreq]
  obtain ⟨inputs, last, hlast, hrun⟩ := unifiedLoop_run backend tuning kDeadlockGuard s hseed
  have hin : InSlice req (sliceDecodeLimit req tuning.decodeBurstTokens) last :=
    hrun.invariant (fun _ _ h => ⟨h.frame.of_eq rfl rfl rfl, h.within⟩)
      (fun _ _ _ _ _ h hmove => h.move hmove) (seedSlot_inSlice tuning req)
  have hlimit := sliceDecodeLimit_le hpos tuning.decodeBurstTokens
  have hle := hin.within.le
  obtain rfl : last.finalize = slot := by
    simpa [executeUnifiedBatchPhased, hlast] using hslot
  refine ⟨last.state.tokensGenerated, hin.within.nonneg, by omega, ?_⟩
  have hframe := hin.frame
  have hbudget : 0 ≤ last.req.fairness.remainingDecodeTokens := by
    rw [hframe.remaining]
    omega
  have hcharged : Charged last.req last.state.tokensGenerated last.finalize.req :=
    finalizeFairnessSlice_charged hbudget ..
  obtain ⟨hmax, htotal, hremaining, hexecution, hyielded⟩ := hcharged
  rw [hframe.total] at htotal
  rw [hframe.remaining] at hremaining hyielded
  rw [hframe.yielded] at hyielded
  exact ⟨hmax.trans hframe.maxTokens, htotal, hremaining, hexecution.trans hframe.execution,
    hyielded⟩

/-! ## A step -/

namespace Stepwise

structure InBudget (limit : Int) (req : InferenceRequest) : Prop where
  maxTokens : req.maxTokens = limit
  initialized : req.execution.initialized = true
  within : WithinLimit req.execution.toReqState limit
  unspent : req.execution.active = true → req.execution.tokensGenerated < limit

namespace InBudget

variable {limit : Int} {req : InferenceRequest}

theorem of_execution (h : InBudget limit req) (hmax : now.maxTokens = req.maxTokens)
    (hexecution : now.execution = req.execution) : InBudget limit now :=
  ⟨hmax.trans h.maxTokens, hexecution ▸ h.initialized, hexecution ▸ h.within,
    hexecution ▸ h.unspent⟩

theorem setState (h : InBudget limit req) {state : ReqState}
    (hmax : now.maxTokens = req.maxTokens)
    (hinitialized : now.execution.initialized = req.execution.initialized)
    (hstate : WithinLimit state limit)
    (hunspent : state.active = true → state.tokensGenerated < limit) :
    InBudget limit (now.setState state) :=
  ⟨hmax.trans h.maxTokens, hinitialized.trans h.initialized, hstate, hunspent⟩

theorem deactivate (h : InBudget limit req) (hmax : now.maxTokens = req.maxTokens)
    (hinitialized : now.execution.initialized = req.execution.initialized) (cause : EndCause) :
    InBudget limit (now.setState (req.execution.deactivate cause)) :=
  h.setState hmax hinitialized (h.within.deactivate cause) fun hactive => nomatch hactive

/-- The check at the end of a token: a request that goes on has a token left. -/
theorem checkLimit (h : InBudget limit req) {state : ReqState}
    (hmax : now.maxTokens = req.maxTokens)
    (hinitialized : now.execution.initialized = req.execution.initialized)
    (hstate : WithinLimit state limit) :
    InBudget limit
      (now.setState (state.deactivateIf (state.tokensGenerated ≥ state.decodeLimit) .limit)) := by
  refine h.setState hmax hinitialized (hstate.deactivateIf _ _) fun hactive => ?_
  rw [ReqState.deactivateIf_eq] at hactive ⊢
  by_contra hspent
  have hend : state.tokensGenerated ≥ state.decodeLimit := by
    rw [hstate.decodeLimit]
    exact Int.not_lt.mp hspent
  simp [hend] at hactive

/-- A request that follows its slot notices that its budget is spent. -/
theorem of_follows (h : InBudget limit req) {ended : Bool} {last : Slot}
    (hfollows : Follows ended now last) (hframe : OutputFrame req last.req)
    (hwithin : WithinLimit last.state limit) : InBudget limit now := by
  obtain ⟨nPast, done, cause, rfl, -, hdone⟩ := hfollows
  obtain ⟨_, _, _, _, _, _, hreq⟩ := hframe
  refine ⟨?_, ?_, hwithin.deactivateIf done cause, fun hactive => ?_⟩
  · exact (congrArg (·.maxTokens) hreq).trans h.maxTokens
  · exact (congrArg (·.execution.initialized) hreq).trans h.initialized
  · have hstate : ((unslot last done cause).setNPast nPast).execution.toReqState =
      last.state.deactivateIf done cause := rfl
    have hlimit := hwithin.decodeLimit
    have hprompt := hwithin.lt
    rw [hstate, ReqState.deactivateIf_eq] at hactive ⊢
    grind

theorem acceptToken (h : InBudget limit req) (hdecode : req.execution.inPrefill = false)
    (hroom : req.execution.tokensGenerated < limit) (token : Int) (piece : Bytes)
    (cancelled : Bool) : InBudget limit (acceptToken req token piece cancelled) := by
  have hwithin : WithinLimit (slot req).state limit := h.within
  exact h.of_follows (acceptToken_follows (eq_unslot req) hdecode ⟨token, piece, true⟩ cancelled false)
    (.acceptToken ⟨_, _, _, _, _, _, rfl⟩ _ _) (.acceptToken _ hwithin hdecode hroom _ _)

theorem room (h : InBudget limit req) {input : UnifiedBatchInput}
    (hinput : (buildInput cap req).2 = some input) : req.execution.tokensGenerated < limit :=
  h.unspent (active_of_inStep (inStep_of_buildInput hinput).1)

theorem consumeOutput (h : InBudget limit req) (hroom : req.execution.tokensGenerated < limit)
    (input : UnifiedBatchInput) (res : UnifiedBatchOutput) :
    InBudget limit (consumeOutput req input res) := by
  have hwithin : WithinLimit (slot req).state limit := h.within
  exact h.of_follows (consumeOutput_follows req input res) ((slot req).consumeOutput_req input res)
    (hwithin.consumeOutput hroom input res)

theorem consumeBurst (h : InBudget limit req) (hdecode : req.execution.inPrefill = false)
    (hroom : req.execution.tokensGenerated < limit) (outs : List BurstDecodeOutput) :
    InBudget limit (consumeBurst req outs) := by
  induction outs generalizing req with
  | nil => exact h
  | cons out outs ih =>
    have hnext : InBudget limit ((req.setNPast (req.nPast + 1)).setState
        { req.execution.toReqState with currentToken := out.token }) :=
      h.setState rfl rfl ⟨h.within.decodeLimit, h.within.nonneg, h.within.le, h.within.lt⟩ h.unspent
    have htoken := hnext.acceptToken hdecode hroom out.token out.piece req.cancellationFlag
    unfold Stepwise.consumeBurst
    dsimp only
    split
    next => exact hnext.deactivate rfl rfl _
    next =>
      split
      next => exact htoken
      next hactive =>
        rw [Bool.not_eq_true, Bool.not_eq_false'] at hactive
        exact ih htoken ((acceptToken_inPrefill ..).trans hdecode) (htoken.unspent hactive)

variable {next : InferenceRequest}

theorem sinkRun (h : InBudget limit req) (hdecode : req.execution.inPrefill = false)
    (hrun : SinkRun req next) : InBudget limit next := by
  suffices InBudget limit next ∧ next.execution.inPrefill = false from this.1
  induction hrun with
  | refl => exact ⟨h, hdecode⟩
  | tail _ hstep ih =>
    obtain ⟨hactive, ev, rfl⟩ := hstep
    obtain ⟨hmid, hmidDecode⟩ := ih
    refine ⟨acceptToken (hmid.of_execution ?_ ?_) ?_ ?_ _ _ _, ?_⟩
    · rfl
    · rfl
    · exact hmidDecode
    · exact hmid.unspent hactive
    · exact (acceptToken_inPrefill _ _ _ _).trans hmidDecode

theorem buildInput (h : InBudget limit req) (cap : Int) :
    InBudget limit (buildInput cap req).1 := by
  unfold Stepwise.buildInput
  dsimp only
  split_ifs
  · exact h
  · exact (h.deactivate rfl rfl .cancelled).of_execution rfl rfl
  · exact h.setState rfl rfl h.within.leavePrefill h.unspent
  · exact h
  · exact h
  · exact (h.deactivate rfl rfl .limit).of_execution rfl rfl

theorem move (h : InBudget limit req) {honoured : Prop} {input : Option UnifiedBatchInput}
    (hmove : StepMove honoured cap req input next) (hhonoured : honoured) :
    InBudget limit next := by
  cases hmove with
  | idle hnone => exact h.buildInput cap
  | answered hinput res => exact h.consumeOutput (h.room hinput) _ res
  | failed hinput => exact h.deactivate rfl rfl _
  | greedyBurst hinput hdecode outs => exact h.consumeBurst hdecode (h.room hinput) outs
  | burst hinput hdecode _ hsink finished =>
    have hnext := h.sinkRun hdecode (hsink hhonoured)
    cases finished with
    | false => exact hnext
    | true => exact hnext.deactivate rfl rfl _

theorem primeFirstToken (h : InBudget limit req) (hdecode : req.execution.inPrefill = false)
    (hroom : req.execution.tokensGenerated < limit) : InBudget limit (primeFirstToken req) := by
  unfold Stepwise.primeFirstToken
  dsimp only
  cases hpiece : req.firstPiece.isEmpty with
  | false =>
    have hcount := h.within.count hdecode hroom req.firstToken
    obtain ⟨streamed, a, htext⟩ := appendGeneratedPiece_frame
      { req with firstPiece := [] } req.firstPiece req.execution.result.completion
    simp only [Bool.not_false, if_true, Stepwise.appendGeneratedPiece, htext]
    exact h.checkLimit rfl rfl (((hcount.deactivateIf _ _).deactivateIf _ _).deactivateIf _ _)
  | true =>
    exact h.checkLimit rfl rfl
      ((((h.within.skip req.firstToken).deactivateIf _ _).deactivateIf _ _).deactivateIf _ _)

theorem syncCounts (h : InBudget limit req) :
    Budgeted (syncCounts req) ∧ InBudget limit (Stepwise.syncCounts req) := by
  refine ⟨⟨?_, h.within.nonneg, ?_⟩, h.of_execution rfl rfl⟩
  · have hmax := h.maxTokens
    have hlimit := h.within.decodeLimit
    have hle := h.within.le
    simp only [Stepwise.syncCounts]
    omega
  · exact Int.le_max_left ..

/-- The accounts after a step, and what a request that goes on has left. -/
theorem sync (h : InBudget limit req) :
    Budgeted (syncUnifiedDecodeStepProgress req) ∧
      InBudget limit (syncUnifiedDecodeStepProgress req) ∧
      (shouldContinueUnifiedDecodeStep (syncUnifiedDecodeStepProgress req) = true →
        0 < (syncUnifiedDecodeStepProgress req).fairness.remainingDecodeTokens) := by
  obtain ⟨hbudget, hin⟩ := h.syncCounts
  have hleft : shouldContinueUnifiedDecodeStep req = true →
      0 < (Stepwise.syncCounts req).fairness.remainingDecodeTokens := by
    intro hgo
    have hactive : req.execution.active = true := by
      unfold shouldContinueUnifiedDecodeStep at hgo
      split_ifs at hgo with hstop <;> simp_all
    have hroom := h.unspent hactive
    have hlimit := h.within.decodeLimit
    simp only [Stepwise.syncCounts]
    omega
  unfold syncUnifiedDecodeStepProgress
  rw [if_neg (by simp [h.initialized])]
  split
  · exact ⟨⟨hbudget.sum, hbudget.total_nonneg, hbudget.remaining_nonneg⟩, hin.of_execution rfl rfl,
      hleft⟩
  · exact ⟨hbudget, hin, hleft⟩

theorem finalize (h : InBudget limit req) :
    Budgeted (finalizeUnifiedDecodeStepResult req).1 ∧
      (finalizeUnifiedDecodeStepResult req).1.maxTokens = limit := by
  have hfinished : InBudget limit (finishGeneratedText req) := by
    simp only [finishGeneratedText, finishGeneratedText_eq]
    exact ⟨h.maxTokens, h.initialized, h.within, h.unspent⟩
  obtain ⟨hbudget, hin, -⟩ := hfinished.sync
  exact ⟨⟨hbudget.sum, hbudget.total_nonneg, hbudget.remaining_nonneg⟩, hin.maxTokens⟩

end InBudget

structure Running (req : InferenceRequest) : Prop where
  budgeted : Budgeted req
  remaining_pos : 0 < req.fairness.remainingDecodeTokens
  decoding : req.execution.initialized = true → InBudget req.maxTokens req

theorem Running.prime {req : InferenceRequest} (h : Running req) :
    InBudget req.maxTokens (primeUnifiedDecodeStepState req) := by
  unfold primeUnifiedDecodeStepState
  cases hinit : req.execution.initialized with
  | true => simpa using h.decoding hinit
  | false =>
    have hsum := h.budgeted.sum
    have htotal := h.budgeted.total_nonneg
    have hpos := h.remaining_pos
    have hprior : max 0 req.fairness.totalCompletionTokens = req.fairness.totalCompletionTokens := by
      omega
    have hleft : ¬ req.fairness.remainingDecodeTokens < 0 := by omega
    simp only [Bool.false_eq_true, if_false, hprior, hleft, hsum]
    have hlt : req.fairness.totalCompletionTokens < req.maxTokens := by omega
    have hopen (result : InferenceResult) (steps : Int) :
        InBudget req.maxTokens { req with execution :=
          { initialized := true, result
            tokensGenerated := req.fairness.totalCompletionTokens
            decodeLimit := req.maxTokens
            maxNonEmittingSteps := steps
            sliceActive := true } } :=
      ⟨rfl, rfl, ⟨rfl, htotal, Int.le_of_lt hlt, fun _ => hlt⟩, fun _ => hlt⟩
    refine (InBudget.syncCounts ?_).2
    split
    · exact (hopen _ _).primeFirstToken rfl hlt
    split
    · exact (hopen _ _).setState rfl rfl ⟨rfl, htotal, Int.le_of_lt hlt, fun _ => hlt⟩ fun _ => hlt
    split
    · exact (hopen _ _).setState rfl rfl ⟨rfl, htotal, Int.le_of_lt hlt, fun _ => hlt⟩ fun _ => hlt
    · exact ⟨rfl, rfl, (hopen {} _).within.deactivate _, fun hactive => nomatch hactive⟩

end Stepwise

/-! ## The life of a request -/

/-- `Scheduler::Generate`: the accounts of a new request; `encoded` is its prompt as the
tokenizer encodes it. -/
def generate (encoded : List Int) (req : InferenceRequest) : InferenceRequest :=
  let maxTokens := if req.maxTokens ≤ 0 then 1 else req.maxTokens
  let promptTokens := if req.promptTokens.isEmpty then encoded else req.promptTokens
  Stepwise.resetUnifiedStepState { req with
    maxTokens, promptTokens
    accumulatedOutput := []
    phase := .pending
    fairness := { req.fairness with
      remainingDecodeTokens := maxTokens
      reportedPromptTokens := promptTokens.length } }

/-- A request between two slices: it goes on, or it has been answered. -/
structure Life where
  req : InferenceRequest
  answered : Bool := false
  deriving DecidableEq, Repr

def afterStep (req : InferenceRequest) : Life :=
  let req := Stepwise.syncUnifiedDecodeStepProgress req
  if Stepwise.shouldContinueUnifiedDecodeStep req then ⟨req, false⟩
  else ⟨(Stepwise.finalizeUnifiedDecodeStepResult req).1, true⟩

open Stepwise in
/-- One slice of a request in some batch, on either path, or a change of the request in the
queues between two slices. -/
inductive LifeStep : Life → Life → Prop
  | queue {req now : InferenceRequest} (hmax : now.maxTokens = req.maxTokens)
      (htotal : now.fairness.totalCompletionTokens = req.fairness.totalCompletionTokens)
      (hremaining : now.fairness.remainingDecodeTokens = req.fairness.remainingDecodeTokens)
      (hexecution : now.execution = req.execution) : LifeStep ⟨req, false⟩ ⟨now, false⟩
  | phased {σ : Type} (backend : Backend σ) (tuning : UnifiedBatchTuning)
      {reqs : List InferenceRequest} (s : σ) {i : Nat} {req : InferenceRequest}
      (hreq : reqs[i]? = some req) {slot : Slot}
      (hslot : (executeUnifiedBatchPhased backend tuning reqs s).1[i]? = some slot) :
      LifeStep ⟨req, false⟩ ⟨slot.req, !slot.req.fairness.yielded⟩
  | step {σ : Type} (backend : StepBackend σ) (tuning : UnifiedBatchTuning)
      {reqs : List InferenceRequest} (s : σ) {i : Nat} {req next : InferenceRequest}
      (hsink : HonoursSink backend (reqs.map (buildInput (stepCap backend tuning reqs))))
      (hreq : reqs[i]? = some (primeUnifiedDecodeStepState req))
      (hgo : shouldContinueUnifiedDecodeStep (primeUnifiedDecodeStepState req) = true)
      (hnext : (executeUnifiedBatchStep backend tuning reqs s).1[i]? = some next) :
      LifeStep ⟨req, false⟩ (afterStep next)
  | halt {req : InferenceRequest}
      (hend : shouldContinueUnifiedDecodeStep (primeUnifiedDecodeStepState req) = false) :
      LifeStep ⟨req, false⟩
        (afterStep (syncUnifiedDecodeStepProgress (primeUnifiedDecodeStepState req)))

/-- The budget is in order, and a request that goes on has tokens left. -/
structure Life.InOrder (limit : Int) (life : Life) : Prop where
  maxTokens : life.req.maxTokens = limit
  budgeted : Budgeted life.req
  running : life.answered = false → Stepwise.Running life.req

theorem Stepwise.InBudget.afterStep {limit : Int} (h : InBudget limit req) :
    (afterStep req).InOrder limit := by
  obtain ⟨hbudget, hin, hleft⟩ := h.sync
  unfold Execution.afterStep
  dsimp only
  split
  next hgo =>
    exact ⟨hin.maxTokens, hbudget, fun _ => ⟨hbudget, hleft hgo, fun _ => hin.maxTokens ▸ hin⟩⟩
  next =>
    obtain ⟨hfinal, hmax⟩ := hin.finalize
    exact ⟨hmax, hfinal, fun hgo => nomatch hgo⟩

theorem generate_inOrder (encoded : List Int) (hnew : req.fairness.totalCompletionTokens = 0) :
    Life.InOrder (generate encoded req).maxTokens ⟨generate encoded req, false⟩ := by
  have hpos : 0 < (generate encoded req).fairness.remainingDecodeTokens := by
    simp only [generate, Stepwise.resetUnifiedStepState]
    split <;> omega
  have hbudgeted : Budgeted (generate encoded req) := by
    refine ⟨?_, ?_, Int.le_of_lt hpos⟩
    · simp [generate, Stepwise.resetUnifiedStepState, hnew]
    · simp [generate, Stepwise.resetUnifiedStepState, hnew]
  exact ⟨rfl, hbudgeted, fun _ => ⟨hbudgeted, hpos, fun hinit => nomatch hinit⟩⟩

theorem LifeStep.inOrder {limit : Int} {life next : Life} (h : life.InOrder limit)
    (hstep : LifeStep life next) : next.InOrder limit := by
  cases hstep with
  | queue hmax htotal hremaining hexecution =>
    obtain ⟨hbudgeted, hpos, hdecoding⟩ := h.running rfl
    have hnext : Budgeted _ :=
      ⟨by rw [htotal, hremaining, hmax, hbudgeted.sum], htotal ▸ hbudgeted.total_nonneg,
        hremaining ▸ hbudgeted.remaining_nonneg⟩
    refine ⟨hmax.trans h.maxTokens, hnext, fun _ => ⟨hnext, hremaining ▸ hpos, fun hinit => ?_⟩⟩
    exact hmax ▸ (hdecoding (hexecution ▸ hinit)).of_execution hmax hexecution
  | @phased _ backend tuning _ s _ req hreq slot hslot =>
    obtain ⟨hbudgeted, hpos, hdecoding⟩ := h.running rfl
    obtain ⟨gen, hgen, hle, hcharged⟩ :=
      executeUnifiedBatchPhased_charged backend tuning s hreq hpos hslot
    obtain ⟨hmax, htotal, hremaining, hexecution, hyielded⟩ := hcharged
    simp only [InferenceRequest.beginSlice] at hmax htotal hremaining hexecution hyielded
    have hsum : req.fairness.totalCompletionTokens + req.fairness.remainingDecodeTokens =
      req.maxTokens := hbudgeted.sum
    have hnonneg : 0 ≤ req.fairness.totalCompletionTokens := hbudgeted.total_nonneg
    have hnext : Budgeted slot.req := ⟨by omega, by omega, by omega⟩
    refine ⟨hmax.trans h.maxTokens, hnext, fun hgo => ⟨hnext, ?_, fun hinit => ?_⟩⟩
    · have hmore := hyielded (by simpa using hgo)
      simp only [Bool.false_eq_true, false_or] at hmore
      dsimp only
      omega
    · exact hmax ▸ (hdecoding (hexecution ▸ hinit)).of_execution hmax hexecution
  | step backend tuning s hsink hreq hgo hnext =>
    have hprime := (h.running rfl).prime
    obtain ⟨next', hnext', hmove⟩ :=
      Stepwise.executeUnifiedBatchStep_moves backend tuning s _ _ hreq
    obtain rfl := Option.some.inj (hnext'.symm.trans hnext)
    exact h.maxTokens ▸ (hprime.move hmove hsink).afterStep
  | halt hend => exact h.maxTokens ▸ (h.running rfl).prime.sync.2.1.afterStep

/-- The token budget, for any number of slices and steps. -/
theorem budget_between_slices (encoded : List Int) {req : InferenceRequest}
    (hnew : req.fairness.totalCompletionTokens = 0) {life : Life}
    (hrun : Relation.ReflTransGen LifeStep ⟨generate encoded req, false⟩ life) :
    life.req.maxTokens = (generate encoded req).maxTokens ∧
      life.req.fairness.totalCompletionTokens + life.req.fairness.remainingDecodeTokens =
        life.req.maxTokens ∧
      life.req.fairness.totalCompletionTokens ≤ life.req.maxTokens := by
  have hin : life.InOrder (generate encoded req).maxTokens := by
    induction hrun with
    | refl => exact generate_inOrder encoded hnew
    | tail _ hstep ih => exact hstep.inOrder ih
  have hsum := hin.budgeted.sum
  have hnonneg := hin.budgeted.remaining_nonneg
  exact ⟨hin.maxTokens, hsum, by omega⟩

/-- A token in a phased slice and another one in a step, for a request of three tokens. -/
theorem budget_after_slice_and_step :
    let outs : List UnifiedBatchOutput := [⟨5, bytes "a", true⟩, ⟨6, bytes "b", true⟩]
    let queued : InferenceRequest := generate [1] { maxTokens := 3 }
    let ready := { queued with
      nPast := 0, sequenceId := 0, bpePromptTokens := [1]
      fairness := { queued.fairness with timesliceTokens := 1 } }
    let sliced := (executeUnifiedBatchPhased (streamBackend 8) {} [ready] outs).1.headD ⟨{}, {}, {}⟩
    let stepped := (Stepwise.executeUnifiedBatchStep (Stepwise.streamStepBackend 8) {}
      [Stepwise.primeUnifiedDecodeStepState sliced.req] outs.tail).1.headD {}
    let life := afterStep stepped
    life.answered = false ∧ life.req.fairness.totalCompletionTokens = 2 ∧
      life.req.maxTokens = 3 ∧
      life.req.fairness.totalCompletionTokens + life.req.fairness.remainingDecodeTokens =
        life.req.maxTokens ∧
      life.req.fairness.totalCompletionTokens ≤ life.req.maxTokens := by
  intro outs queued ready sliced stepped life
  have hready : LifeStep ⟨queued, false⟩ ⟨ready, false⟩ := .queue rfl rfl rfl rfl
  have hyielded : (!sliced.req.fairness.yielded) = false := by decide
  have hslot : (executeUnifiedBatchPhased (streamBackend 8) {} [ready] outs).1[0]? = some sliced := by
    decide
  have hsliced : LifeStep ⟨ready, false⟩ ⟨sliced.req, !sliced.req.fairness.yielded⟩ :=
    .phased (streamBackend 8) {} outs (List.getElem?_cons_zero ..) hslot
  rw [hyielded] at hsliced
  have hnext : (Stepwise.executeUnifiedBatchStep (Stepwise.streamStepBackend 8) {}
      [Stepwise.primeUnifiedDecodeStepState sliced.req] outs.tail).1[0]? = some stepped := by
    decide
  have hstepped : LifeStep ⟨sliced.req, false⟩ life :=
    .step (Stepwise.streamStepBackend 8) {} outs.tail (fun _ _ _ _ h => nomatch h)
      (List.getElem?_cons_zero ..) (by decide) hnext
  have hrun : Relation.ReflTransGen LifeStep ⟨queued, false⟩ life :=
    .tail (.tail (.single hready) hsliced) hstepped
  exact ⟨by decide, by decide, budget_between_slices [1] rfl hrun⟩

end InferFlux.Execution
