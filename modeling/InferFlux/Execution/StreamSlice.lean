import InferFlux.Execution.StreamRun

/-!
# One slice of one request on a stream

A slice starts with the token that was sampled before it, or with the rest of the prompt,
which is fed in chunks. Either way the slice is `decodeStream` from an opened slot
(`executeUnifiedBatchPhased_stream`), as long as the guard of the loop is not reached.
-/

namespace InferFlux.Execution

open InferFlux.Text UnifiedBatchOutput Slot InferenceRequest List

def openSlot (tuning : UnifiedBatchTuning) (req : InferenceRequest) : Slot :=
  ⟨req.beginSlice,
    { decodeLimit := sliceDecodeLimit req tuning.decodeBurstTokens
      maxNonEmittingSteps := maxNonEmittingSteps req.maxTokens
      sliceActive := req.fairness.timesliceTokens > 0 || tuning.decodeBurstTokens > 0 },
    { modelId := req.resultModelId, promptTokens := req.resultPromptTokens }⟩

def InferenceRequest.seed (req : InferenceRequest) : UnifiedBatchOutput :=
  { token := req.firstToken, piece := req.firstPiece, ok := true }

theorem one_lt_maxNonEmittingSteps (maxTokens : Int) : 1 < maxNonEmittingSteps maxTokens := by
  unfold maxNonEmittingSteps
  omega

variable {req : InferenceRequest}

/-- The slot reads the seed as the first output of the stream. -/
theorem seedSlot_eq_consume (hpast : 0 ≤ req.nPast) (htoken : 0 ≤ req.firstToken)
    (hcancel : req.cancellationFlag = false) (tuning : UnifiedBatchTuning) :
    seedSlot tuning req =
      (openSlot tuning (req.setNPast (req.nPast - 1))).consumeOutput {} req.seed := by
  have hdecoding : (openSlot tuning (req.setNPast (req.nPast - 1))).Decoding := ⟨rfl, hcancel⟩
  have hterminal : req.seed.terminal = false := by
    simp only [seed, terminal, Bool.not_true, Bool.false_or]
    exact decide_eq_false (by omega)
  have hreq : (openSlot tuning (req.setNPast (req.nPast - 1))).req.setNPast
      ((openSlot tuning (req.setNPast (req.nPast - 1))).req.nPast + 1) = req.beginSlice := by
    simp [openSlot, setNPast, beginSlice]
  have hstart : (req.beginSlice.nPast ≥ 0 && req.beginSlice.firstToken ≥ 0) = true := by
    simp [beginSlice, hpast, htoken]
  rw [consumeOutput_eq hdecoding]
  simp only [hterminal, Bool.false_eq_true, if_false, hreq]
  cases hvisible : req.seed.visible with
  | true =>
    have hpiece : isVisibleGeneratedPiece req.beginSlice.firstPiece = true := hvisible
    obtain ⟨streamed, a, happend⟩ := appendGeneratedPiece_frame req.beginSlice
      req.beginSlice.firstPiece []
    have hflag : (appendGeneratedPiece req.beginSlice req.beginSlice.firstPiece
        []).2.1.cancellationFlag = false := by
      rw [happend]
      exact hcancel
    rw [acceptToken_of_visible hvisible]
    unfold seedSlot
    dsimp [planFairnessSlice]
    rw [if_pos hstart, if_pos hpiece]
    simp only [hflag, Bool.false_eq_true, if_false]
    rfl
  | false =>
    have hpiece : isVisibleGeneratedPiece req.beginSlice.firstPiece = false := hvisible
    rw [acceptToken_of_invisible hvisible (by simpa [openSlot] using one_lt_maxNonEmittingSteps _)]
    unfold seedSlot
    dsimp [planFairnessSlice]
    rw [if_pos hstart, hpiece]
    rfl

def promptChunkCap (capacity : Int) (tuning : UnifiedBatchTuning) : Int :=
  computePrefillChunkCap (max 1 capacity) 0 1 tuning

theorem promptChunkCap_pos (capacity : Int) (tuning : UnifiedBatchTuning) :
    1 ≤ promptChunkCap capacity tuning := by
  simp only [promptChunkCap, computePrefillChunkCap]
  split_ifs <;> omega

/-- The rounds it takes to feed `remaining` prompt tokens in chunks of `cap`. -/
def promptRounds (remaining cap : Nat) : Nat := (remaining + cap - 1) / cap

theorem promptRounds_of_le {remaining cap : Nat} (hpos : 0 < remaining) (hle : remaining ≤ cap) :
    promptRounds remaining cap = 1 := by
  unfold promptRounds
  rw [Nat.div_eq_iff (by omega)]
  omega

theorem promptRounds_of_lt {remaining cap : Nat} (hpos : 0 < cap) (hlt : cap < remaining) :
    promptRounds remaining cap = promptRounds (remaining - cap) cap + 1 := by
  unfold promptRounds
  rw [← Nat.add_div_right _ hpos]
  congr 1
  omega

namespace Slot

/-- The slot after its prompt, before the output `o` of the last chunk is read. -/
def afterPrompt (slot : Slot) (o : UnifiedBatchOutput) : Slot :=
  { slot with
    req := { slot.req with
      prefillOffset := slot.req.bpePromptTokens.length
      nPast := slot.req.bpePromptTokens.length - 1
      cacheReusedTokens :=
        if o.ok then slot.req.cacheReusePendingTokens else slot.req.cacheReusedTokens
      cachePrefillComplete := if o.ok then true else slot.req.cachePrefillComplete }
    state := { slot.state with inPrefill := false } }

/-- A slot in the middle of its prompt. -/
structure Prefilling (slot : Slot) : Prop where
  active : slot.state.active = true
  inPrefill : slot.state.inPrefill = true
  cancellationFlag : slot.req.cancellationFlag = false
  offset_nonneg : 0 ≤ slot.req.prefillOffset
  offset_lt : slot.req.prefillOffset < slot.req.bpePromptTokens.length

def promptLeft (slot : Slot) : Nat := (slot.req.bpePromptTokens.length - slot.req.prefillOffset).toNat

variable {slot : Slot}

theorem buildInput_of_prefilling (h : slot.Prefilling) {cap : Int} (hcap : 1 ≤ cap) :
    ∃ input, slot.buildInput cap = (slot, some input) ∧
      (input.tokens.length : Int) = min (slot.req.bpePromptTokens.length - slot.req.prefillOffset) cap ∧
      input.requestLogits =
        decide (slot.req.bpePromptTokens.length - slot.req.prefillOffset ≤ cap) := by
  have hoff := h.offset_nonneg
  have hlt := h.offset_lt
  simp only [buildInput, h.active, h.cancellationFlag, h.inPrefill, Bool.not_true,
    Bool.false_eq_true, if_false, if_true]
  rw [if_neg (by omega)]
  refine ⟨_, rfl, ?_, ?_⟩
  · simp only [length_take, length_drop]
    omega
  · simp only [decide_eq_decide]
    omega

variable {input : UnifiedBatchInput}

/-- The last chunk: its output is read as the first one of the generation. -/
theorem consumeOutput_last (h : slot.Prefilling)
    (hlen : (input.tokens.length : Int) = slot.req.bpePromptTokens.length - slot.req.prefillOffset)
    (o : UnifiedBatchOutput) :
    slot.consumeOutput input o = (slot.afterPrompt o).consumeOutput {} o := by
  have hdecoding : (slot.afterPrompt o).Decoding := ⟨rfl, h.cancellationFlag⟩
  rw [consumeOutput_eq hdecoding]
  have hoffset : slot.req.prefillOffset + (input.tokens.length : Int) =
      slot.req.bpePromptTokens.length := by omega
  simp only [consumeOutput, h.inPrefill, if_true, hoffset]
  have hpast : (slot.req.bpePromptTokens.length : Int) - 1 + 1 = slot.req.bpePromptTokens.length := by
    omega
  cases hok : o.ok <;>
    simp [afterPrompt, setNPast, terminal, hok, hpast]

theorem consumeOutput_chunk (h : slot.Prefilling)
    (hlt : slot.req.prefillOffset + (input.tokens.length : Int) < slot.req.bpePromptTokens.length) :
    slot.consumeOutput input { ok := true } =
      { slot with req := { slot.req with
          prefillOffset := slot.req.prefillOffset + input.tokens.length
          nPast := slot.req.prefillOffset + input.tokens.length } } := by
  simp only [consumeOutput, h.inPrefill, if_true, Bool.not_true, Bool.false_and,
    Bool.false_eq_true, if_false]
  rw [if_neg (by omega)]

end Slot

/-- The loop feeds the prompt and reads the output of the last chunk. -/
theorem unifiedLoop_prompt {slot : Slot} (h : slot.Prefilling) (capacity : Int)
    (tuning : UnifiedBatchTuning) (rounds : Nat) (outs : List UnifiedBatchOutput) :
    unifiedLoop (streamBackend capacity) tuning
        (rounds + promptRounds slot.promptLeft (promptChunkCap capacity tuning).toNat) [slot] outs =
      unifiedLoop (streamBackend capacity) tuning rounds
        [(slot.afterPrompt (outs.headD eos)).consumeOutput {} (outs.headD eos)] outs.tail := by
  have hcap := promptChunkCap_pos capacity tuning
  induction hleft : slot.promptLeft using Nat.strongRecOn generalizing slot with
  | ind left ih =>
    obtain ⟨input, hbuild, hlen, hlogits⟩ := buildInput_of_prefilling h hcap
    have hround (rounds : Nat) :
        unifiedLoop (streamBackend capacity) tuning (rounds + 1) [slot] outs =
          if input.requestLogits then
            unifiedLoop (streamBackend capacity) tuning rounds
              [slot.consumeOutput input (outs.headD eos)] outs.tail
          else unifiedLoop (streamBackend capacity) tuning rounds
            [slot.consumeOutput input { ok := true }] outs := by
      have hdecode : [slot].countP wantsDecode = 0 := by
        simp [wantsDecode, h.inPrefill]
      have hprefill : [slot].countP wantsPrefill = 1 := by
        simp [wantsPrefill, h.active, h.cancellationFlag, h.inPrefill]
      have hcap' : computePrefillChunkCap (max 1 (streamBackend capacity).unifiedBatchTokenCapacity)
          (0 : Nat) (1 : Nat) tuning = promptChunkCap capacity tuning := rfl
      simp only [unifiedLoop, (streamBackend_quiet capacity).loadSlots, hdecode, hprefill, hcap',
        map_cons, map_nil, hbuild]
      cases hreq : input.requestLogits <;> simp [streamBackend, scatterOutputs, hreq]
    have hoff := h.offset_nonneg
    have hlt := h.offset_lt
    by_cases hlast : (slot.req.bpePromptTokens.length : Int) - slot.req.prefillOffset ≤
        promptChunkCap capacity tuning
    · rw [promptRounds_of_le (by unfold promptLeft at hleft; omega)
        (by unfold promptLeft at hleft; omega), hround, hlogits, if_pos (by simpa using hlast),
        consumeOutput_last h (by omega)]
    · have hmore : slot.req.prefillOffset + (input.tokens.length : Int) <
          slot.req.bpePromptTokens.length := by omega
      rw [promptRounds_of_lt (by omega) (by unfold promptLeft at hleft; omega),
        ← Nat.add_assoc, hround, hlogits, if_neg (by simpa using hlast),
        consumeOutput_chunk h hmore]
      exact ih _ (by unfold promptLeft at hleft; omega)
        ⟨h.active, h.inPrefill, h.cancellationFlag, by simp only; omega, hmore⟩
        (by unfold promptLeft at hleft ⊢; simp only; omega)

/-- A request the executor can start a slice with: its first token has been sampled, or its
prompt is not finished. -/
structure Startable (req : InferenceRequest) : Prop where
  nPast : 0 ≤ req.nPast
  cancellationFlag : req.cancellationFlag = false
  prompt : req.firstToken < 0 → 0 ≤ req.prefillOffset ∧
    req.prefillOffset < req.bpePromptTokens.length ∧ (req.nPast = 0 ∨ 0 < req.prefillOffset)

/-- The slot and the outputs of the generation that a slice of the request starts with. -/
def openStream (tuning : UnifiedBatchTuning) (req : InferenceRequest)
    (outs : List UnifiedBatchOutput) : Slot × List UnifiedBatchOutput :=
  if 0 ≤ req.firstToken then (openSlot tuning (req.setNPast (req.nPast - 1)), req.seed :: outs)
  else ((openSlot tuning req).afterPrompt (outs.headD eos), outs)

def InferenceRequest.promptRounds (req : InferenceRequest) (capacity : Int)
    (tuning : UnifiedBatchTuning) : Nat :=
  if 0 ≤ req.firstToken then 0
  else Execution.promptRounds (req.bpePromptTokens.length - req.prefillOffset).toNat
    (promptChunkCap capacity tuning).toNat

theorem sliceDecodeLimit_pos (req : InferenceRequest) (decodeBurstTokens : Int) :
    0 < sliceDecodeLimit req decodeBurstTokens := by
  simp only [sliceDecodeLimit]
  split_ifs <;> omega

structure Opened (tuning : UnifiedBatchTuning) (req : InferenceRequest) (slot : Slot) : Prop where
  decoding : slot.Decoding
  active : slot.state.active = true
  cause : slot.state.cause = none
  tokensGenerated : slot.state.tokensGenerated = 0
  nonEmittingSteps : slot.state.nonEmittingSteps = 0
  maxNonEmittingSteps : slot.state.maxNonEmittingSteps = maxNonEmittingSteps req.maxTokens
  decodeLimit : slot.state.decodeLimit = sliceDecodeLimit req tuning.decodeBurstTokens
  sliceActive : slot.state.sliceActive =
    (decide (req.fairness.timesliceTokens > 0) || decide (tuning.decodeBurstTokens > 0))
  result : slot.result = { modelId := req.resultModelId, promptTokens := req.resultPromptTokens }

theorem opened (h : Startable req) (tuning : UnifiedBatchTuning) (outs : List UnifiedBatchOutput) :
    Opened tuning req (openStream tuning req outs).1 := by
  unfold openStream
  split_ifs
  · exact ⟨⟨rfl, h.cancellationFlag⟩, rfl, rfl, rfl, rfl, rfl, rfl, rfl, rfl⟩
  · exact ⟨⟨rfl, h.cancellationFlag⟩, rfl, rfl, rfl, rfl, rfl, rfl, rfl, rfl⟩

theorem seedSlot_of_prompt (h : Startable req) (htoken : req.firstToken < 0)
    (tuning : UnifiedBatchTuning) :
    ∃ slot, seedSlot tuning req = slot ∧ slot.Prefilling ∧
      slot.promptLeft = (req.bpePromptTokens.length - req.prefillOffset).toNat ∧
      ∀ o, slot.afterPrompt o = (openSlot tuning req).afterPrompt o := by
  obtain ⟨hoff, hlt, hpast⟩ := h.prompt htoken
  have hpast' := h.nPast
  have htokens : req.bpePromptTokens ≠ [] := by
    intro hnil
    simp only [hnil, length_nil] at hlt
    omega
  unfold seedSlot
  dsimp [planFairnessSlice]
  rw [if_neg (by simp [beginSlice]; omega)]
  by_cases hzero : req.nPast = 0
  · rw [if_pos (by simp [beginSlice, hzero, htokens])]
    exact ⟨_, rfl, ⟨rfl, rfl, h.cancellationFlag, hoff, hlt⟩, rfl, fun _ => rfl⟩
  · rw [if_neg (by simp [beginSlice, hzero]),
      if_pos (by
        simp [beginSlice, htokens]
        exact ⟨by omega, decide_eq_true hlt⟩)]
    exact ⟨_, rfl, ⟨rfl, rfl, h.cancellationFlag, hoff, hlt⟩, rfl, fun _ => rfl⟩

theorem Opened.unifiedLoop {tuning : UnifiedBatchTuning} {req : InferenceRequest} {slot : Slot}
    (h : Opened tuning req slot) (capacity : Int) {rounds : Nat} {outs : List UnifiedBatchOutput}
    (hrounds : (slot.sampled outs).length + 2 ≤ rounds) :
    unifiedLoop (streamBackend capacity) tuning rounds
        [slot.consumeOutput {} (outs.headD eos)] outs.tail =
      ([(decodeStream slot outs).1], (decodeStream slot outs).2) := by
  have hlimit : slot.state.tokensGenerated < slot.state.decodeLimit := by
    rw [h.tokensGenerated, h.decodeLimit]
    exact sliceDecodeLimit_pos ..
  have hround := unifiedLoop_round h.decoding capacity tuning rounds outs
  rw [h.active, Bool.not_true, if_neg (by simp), if_pos hlimit] at hround
  rw [← hround]
  exact unifiedLoop_eq_decodeStream h.decoding capacity tuning (by omega) fun _ => by omega

/-- A slice of one request on a stream, when the guard is not reached. -/
theorem executeUnifiedBatchPhased_stream (h : Startable req) (capacity : Int)
    (tuning : UnifiedBatchTuning) (outs : List UnifiedBatchOutput)
    (hguard : req.promptRounds capacity tuning +
      ((openStream tuning req outs).1.sampled (openStream tuning req outs).2).length + 2 ≤
        kDeadlockGuard) :
    executeUnifiedBatchPhased (streamBackend capacity) tuning [req] outs =
      let final := decodeStream (openStream tuning req outs).1 (openStream tuning req outs).2
      ([final.1.finalize], final.2) := by
  have hopen := opened h tuning outs
  unfold executeUnifiedBatchPhased
  simp only [map_cons, map_nil]
  by_cases htoken : 0 ≤ req.firstToken
  · have hstream : openStream tuning req outs =
        (openSlot tuning (req.setNPast (req.nPast - 1)), req.seed :: outs) := by
      simp [openStream, if_pos htoken]
    rw [hstream] at hopen hguard ⊢
    dsimp only at hopen hguard ⊢
    have hrounds : ((openSlot tuning (req.setNPast (req.nPast - 1))).sampled
        (req.seed :: outs)).length + 2 ≤ kDeadlockGuard := by omega
    have hloop := hopen.unifiedLoop capacity hrounds
    rw [headD_cons, tail_cons,
      ← seedSlot_eq_consume h.nPast htoken h.cancellationFlag] at hloop
    rw [hloop]
    rfl
  · have hstream : openStream tuning req outs =
        ((openSlot tuning req).afterPrompt (outs.headD eos), outs) := by
      simp [openStream, if_neg htoken]
    rw [hstream] at hopen hguard ⊢
    dsimp only at hopen hguard ⊢
    obtain ⟨slot, hseed, hprefill, hleft, hafter⟩ := seedSlot_of_prompt h (by omega) tuning
    simp only [InferenceRequest.promptRounds, if_neg htoken, ← hleft] at hguard
    have hrounds : kDeadlockGuard =
        (kDeadlockGuard - promptRounds slot.promptLeft (promptChunkCap capacity tuning).toNat) +
          promptRounds slot.promptLeft (promptChunkCap capacity tuning).toNat := by
      omega
    rw [hseed, hrounds, unifiedLoop_prompt hprefill, hafter, hopen.unifiedLoop capacity (by omega)]
    rfl

end InferFlux.Execution
