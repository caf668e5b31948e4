import InferFlux.Execution.UnifiedPhased

/-!
# One request on a fixed stream

A backend that answers one request with a fixed list of outputs, and with an end-of-sequence
token once the list is used up. `decodeStream` is what the executor's loop then does after
the prompt (`unifiedLoop_eq_decodeStream`), and its closed form is the text assembly of the
outputs that are sampled before the token limit (`decodeStream_eq`).
-/

namespace InferFlux.Execution

open InferFlux.Text ReqState Slot Bool List

namespace UnifiedBatchOutput

def terminal (o : UnifiedBatchOutput) : Bool := !o.ok || o.token < 0

def visible (o : UnifiedBatchOutput) : Bool := isVisibleGeneratedPiece o.piece

def eos : UnifiedBatchOutput := { ok := true }

end UnifiedBatchOutput

open UnifiedBatchOutput

def streamBackend (capacity : Int) : Backend (List UnifiedBatchOutput) where
  unifiedBatchTokenCapacity := capacity
  executeUnifiedBatch outs
    | [input] =>
      if input.requestLogits then ([outs.headD eos], outs.tail) else ([{ ok := true }], outs)
    | _ => ([], outs)

theorem streamBackend_quiet (capacity : Int) : (streamBackend capacity).Quiet := fun _ => rfl

/-- The outputs sampled while fewer than `limit` visible pieces have been generated, up to
the end of the sequence. -/
def sampledUpTo : Nat → List UnifiedBatchOutput → List UnifiedBatchOutput
  | _, [] => []
  | 0, _ :: _ => []
  | limit + 1, o :: outs =>
    if o.terminal then []
    else o :: sampledUpTo (if o.visible then limit else limit + 1) outs

def decodeStream (slot : Slot) : List UnifiedBatchOutput → Slot × List UnifiedBatchOutput
  | [] =>
    if !slot.state.active then (slot, [])
    else if slot.state.tokensGenerated < slot.state.decodeLimit then
      (slot.consumeOutput {} eos, [])
    else ({ slot with state := slot.state.deactivate .limit }, [])
  | o :: outs =>
    if !slot.state.active then (slot, o :: outs)
    else if slot.state.tokensGenerated < slot.state.decodeLimit then
      decodeStream (slot.consumeOutput {} o) outs
    else ({ slot with state := slot.state.deactivate .limit }, o :: outs)

/-! ## The executor's loop is `decodeStream` -/

variable {o : UnifiedBatchOutput}

namespace Slot

def budget (slot : Slot) : Nat := (slot.state.decodeLimit - slot.state.tokensGenerated).toNat

def sampled (slot : Slot) (outs : List UnifiedBatchOutput) : List UnifiedBatchOutput :=
  sampledUpTo slot.budget outs

structure Decoding (slot : Slot) : Prop where
  inPrefill : slot.state.inPrefill = false
  cancellationFlag : slot.req.cancellationFlag = false

variable {slot : Slot}

theorem consumeOutput_eq (h : slot.Decoding) (input : UnifiedBatchInput) (o : UnifiedBatchOutput) :
    slot.consumeOutput input o =
      let slot' := { slot with req := slot.req.setNPast (slot.req.nPast + 1) }
      if o.terminal then { slot' with state := slot.state.deactivate .terminal }
      else slot'.acceptToken o false := by
  simp only [consumeOutput, h.inPrefill, h.cancellationFlag, terminal, false_eq_true, if_false]
  rfl

theorem acceptToken_of_visible (hvisible : o.visible = true) :
    slot.acceptToken o false =
      let appended := appendGeneratedPiece slot.req o.piece slot.result.completion
      let state := { slot.state with
        currentToken := o.token, tokensGenerated := slot.state.tokensGenerated + 1 }
      ⟨appended.2.1, if appended.1 then state.deactivate .stop else state,
        { slot.result with completion := appended.2.2 }⟩ := by
  have h : isVisibleGeneratedPiece o.piece = true := hvisible
  simp [acceptToken, h]

theorem acceptToken_of_invisible (hvisible : o.visible = false)
    (hsteps : slot.state.nonEmittingSteps + 1 < slot.state.maxNonEmittingSteps) :
    slot.acceptToken o false =
      { slot with state := { slot.state with
          currentToken := o.token, nonEmittingSteps := slot.state.nonEmittingSteps + 1 } } := by
  have h : isVisibleGeneratedPiece o.piece = false := hvisible
  simp only [acceptToken, h, false_eq_true, if_false]
  rw [if_neg (by omega)]

theorem consumeOutput_frame (h : slot.Decoding) (input : UnifiedBatchInput)
    (o : UnifiedBatchOutput) :
    (slot.consumeOutput input o).Decoding ∧
      (slot.consumeOutput input o).state.decodeLimit = slot.state.decodeLimit ∧
      (slot.consumeOutput input o).state.tokensGenerated =
        slot.state.tokensGenerated + (if !o.terminal && o.visible then 1 else 0) := by
  rw [consumeOutput_eq h]
  cases hterminal : o.terminal with
  | true => exact ⟨⟨h.inPrefill, h.cancellationFlag⟩, rfl, by simp [deactivate]⟩
  | false =>
    cases hvisible : o.visible with
    | true =>
      simp only [false_eq_true, if_false, acceptToken_of_visible hvisible]
      obtain ⟨streamed, a, hreq⟩ := appendGeneratedPiece_frame
        (slot.req.setNPast (slot.req.nPast + 1)) o.piece slot.result.completion
      refine ⟨⟨?_, ?_⟩, ?_, ?_⟩
      · split <;> exact h.inPrefill
      · rw [hreq]
        exact h.cancellationFlag
      · split <;> rfl
      · split <;> rfl
    | false =>
      have hpiece : isVisibleGeneratedPiece o.piece = false := hvisible
      simp only [false_eq_true, if_false, acceptToken, hpiece]
      refine ⟨⟨?_, h.cancellationFlag⟩, ?_, ?_⟩
      · split <;> exact h.inPrefill
      · split <;> rfl
      · split <;> simp [deactivate]

end Slot

variable {slot : Slot}

theorem unifiedLoop_round (h : slot.Decoding) (capacity : Int) (tuning : UnifiedBatchTuning)
    (rounds : Nat) (outs : List UnifiedBatchOutput) :
    unifiedLoop (streamBackend capacity) tuning (rounds + 1) [slot] outs =
      if !slot.state.active then ([slot], outs)
      else if slot.state.tokensGenerated < slot.state.decodeLimit then
        unifiedLoop (streamBackend capacity) tuning rounds
          [slot.consumeOutput {} (outs.headD eos)] outs.tail
      else ([{ slot with state := slot.state.deactivate .limit }], outs) := by
  simp only [unifiedLoop, (streamBackend_quiet capacity).loadSlots]
  cases hactive : slot.state.active with
  | false => simp [buildInput, hactive]
  | true =>
    by_cases hlimit : slot.state.tokensGenerated < slot.state.decodeLimit
    · simp [buildInput, hactive, hlimit, h.inPrefill, h.cancellationFlag, streamBackend,
        scatterOutputs, consumeOutput]
    · simp [buildInput, hactive, hlimit, h.inPrefill, h.cancellationFlag]

theorem decodeStream_of_inactive (hactive : slot.state.active = false)
    (outs : List UnifiedBatchOutput) : decodeStream slot outs = (slot, outs) := by
  cases outs <;> simp [decodeStream, hactive]

theorem consumeOutput_terminal_inactive (h : slot.Decoding) (hterminal : o.terminal = true) :
    (slot.consumeOutput {} o).state.active = false := by
  rw [consumeOutput_eq h]
  simp [hterminal, deactivate]

/-- `decodeStream` goes round as the loop of the executor does; past its end the stream yields
end-of-sequence tokens. -/
theorem decodeStream_round (h : slot.Decoding) (outs : List UnifiedBatchOutput) :
    decodeStream slot outs =
      if !slot.state.active then (slot, outs)
      else if slot.state.tokensGenerated < slot.state.decodeLimit then
        decodeStream (slot.consumeOutput {} (outs.headD eos)) outs.tail
      else ({ slot with state := slot.state.deactivate .limit }, outs) := by
  cases outs with
  | nil => rw [headD_nil, tail_nil,
      decodeStream_of_inactive (consumeOutput_terminal_inactive h rfl), decodeStream]
  | cons o outs => rw [headD_cons, tail_cons, decodeStream]

theorem sampled_cons (h : slot.Decoding) (hterminal : o.terminal = false)
    (hlimit : slot.state.tokensGenerated < slot.state.decodeLimit)
    (outs : List UnifiedBatchOutput) :
    slot.sampled (o :: outs) = o :: (slot.consumeOutput {} o).sampled outs ∧
      slot.budget = (slot.consumeOutput {} o).budget + if o.visible then 1 else 0 := by
  obtain ⟨-, hdecode, htokens⟩ := consumeOutput_frame h {} o
  have hbudget : slot.budget =
      (slot.consumeOutput {} o).budget + if o.visible then 1 else 0 := by
    unfold budget
    rw [hdecode, htokens, hterminal, Bool.not_false, Bool.true_and]
    split_ifs <;> omega
  refine ⟨?_, hbudget⟩
  unfold sampled
  obtain ⟨m, hm⟩ : ∃ m, slot.budget = m + 1 := ⟨slot.budget - 1, by unfold budget; omega⟩
  rw [hm, sampledUpTo, hterminal, if_neg (by simp)]
  congr 2
  split_ifs at hbudget ⊢ <;> omega

variable {outs : List UnifiedBatchOutput}

/-- A slot that is active after an output has sampled it from the stream. -/
theorem sampled_of_active (h : slot.Decoding)
    (hlimit : slot.state.tokensGenerated < slot.state.decodeLimit)
    (hactive : (slot.consumeOutput {} (outs.headD eos)).state.active = true) :
    slot.sampled outs =
      outs.headD eos :: (slot.consumeOutput {} (outs.headD eos)).sampled outs.tail := by
  cases hterminal : (outs.headD eos).terminal with
  | true => cases (consumeOutput_terminal_inactive h hterminal).symm.trans hactive
  | false =>
    cases outs with
    | nil => cases hterminal
    | cons o outs => exact (sampled_cons h hterminal hlimit outs).1

/-- With enough rounds left, the loop of the executor is the loop over the stream. -/
theorem unifiedLoop_eq_decodeStream (h : slot.Decoding) (capacity : Int)
    (tuning : UnifiedBatchTuning) {rounds : Nat} (hpos : 0 < rounds)
    (hrounds : slot.state.active = true → (slot.sampled outs).length + 1 < rounds) :
    unifiedLoop (streamBackend capacity) tuning rounds [slot] outs =
      ([(decodeStream slot outs).1], (decodeStream slot outs).2) := by
  induction rounds generalizing slot outs with
  | zero => omega
  | succ rounds ih =>
    rw [unifiedLoop_round h, decodeStream_round h]
    split_ifs with hactive hlimit
    · rfl
    · have hleft := hrounds (by simpa using hactive)
      refine ih (consumeOutput_frame h {} _).1 (by omega) fun hactive' => ?_
      rw [sampled_of_active h hlimit hactive', length_cons] at hleft
      omega
    · rfl

/-! ## The closed form -/

namespace Slot

def assembly (slot : Slot) (outs : List UnifiedBatchOutput) : Assembly :=
  assemblePieces slot.req slot.result.completion ((slot.sampled outs).map (·.piece))

def Fills (slot : Slot) (outs : List UnifiedBatchOutput) : Prop :=
  (slot.sampled outs).countP visible = slot.budget

instance (slot : Slot) (outs : List UnifiedBatchOutput) : Decidable (slot.Fills outs) :=
  inferInstanceAs (Decidable (_ = _))

end Slot

/-- What the decode loop leaves of a slot and a stream. -/
structure Decoded (slot : Slot) (outs : List UnifiedBatchOutput)
    (final : Slot × List UnifiedBatchOutput) : Prop where
  req : ∃ n, slot.req.nPast + (slot.assembly outs).consumed ≤ n ∧
    final.1.req = (slot.assembly outs).req.setNPast n
  result : final.1.result = { slot.result with completion := (slot.assembly outs).completion }
  tokensGenerated : final.1.state.tokensGenerated = slot.state.tokensGenerated +
    ((slot.sampled outs).take (slot.assembly outs).consumed).countP visible
  currentToken : 0 ≤ slot.state.currentToken ∨ 0 < (slot.assembly outs).consumed →
    0 ≤ final.1.state.currentToken
  decodeLimit : final.1.state.decodeLimit = slot.state.decodeLimit
  sliceActive : final.1.state.sliceActive = slot.state.sliceActive
  cause : final.1.state.cause =
    some (if (slot.assembly outs).stopHit then .stop
      else if slot.Fills outs then .limit else .terminal)
  rest : final.2 =
    if (slot.assembly outs).stopHit then outs.drop (slot.assembly outs).consumed
    else if slot.Fills outs then outs.drop (slot.sampled outs).length
    else outs.drop ((slot.sampled outs).length + 1)

theorem sampledUpTo_of_terminal (limit : Nat) (h : o.terminal = true)
    (outs : List UnifiedBatchOutput) : sampledUpTo limit (o :: outs) = [] := by
  cases limit <;> simp [sampledUpTo, h]

theorem Decoded.of_sampled_nil (hcause : slot.state.cause = none) {rest : List UnifiedBatchOutput}
    (hsampled : slot.sampled outs = []) {n : Int} (hn : slot.req.nPast ≤ n) {cause : EndCause}
    (hend : cause = if slot.Fills outs then .limit else .terminal)
    (hrest : rest = if slot.Fills outs then outs else outs.drop 1) :
    Decoded slot outs
      ({ slot with req := slot.req.setNPast n, state := slot.state.deactivate cause }, rest) := by
  have hassembly : slot.assembly outs = ⟨slot.req, slot.result.completion, false, 0⟩ := by
    simp [assembly, hsampled, assemblePieces]
  constructor
  · exact ⟨n, by simpa [hassembly] using hn, by rw [hassembly]⟩
  · rw [hassembly]
  · simp [hassembly, deactivate]
  · intro h
    simpa [hassembly, deactivate] using h
  · rfl
  · rfl
  · simp [hassembly, deactivate, hcause, hend]
  · simp [hassembly, hsampled, hrest]

theorem Decoded.of_limit (hcause : slot.state.cause = none)
    (hlimit : ¬ slot.state.tokensGenerated < slot.state.decodeLimit)
    (outs : List UnifiedBatchOutput) :
    Decoded slot outs ({ slot with state := slot.state.deactivate .limit }, outs) := by
  have hbudget : slot.budget = 0 := by
    unfold budget
    omega
  have hsampled : slot.sampled outs = [] := by
    unfold sampled
    rw [hbudget]
    cases outs <;> rfl
  have hfills : slot.Fills outs := by
    simp [Fills, hsampled, hbudget]
  exact .of_sampled_nil hcause hsampled (Int.le_refl slot.req.nPast) (if_pos hfills).symm
    (if_pos hfills).symm

theorem Decoded.of_terminal (h : slot.Decoding) (hcause : slot.state.cause = none)
    (hlimit : slot.state.tokensGenerated < slot.state.decodeLimit)
    (hterminal : (outs.headD eos).terminal = true) :
    Decoded slot outs (slot.consumeOutput {} (outs.headD eos), outs.tail) := by
  have hbudget : slot.budget ≠ 0 := by
    unfold budget
    omega
  have hsampled : slot.sampled outs = [] := by
    unfold sampled
    cases outs with
    | nil => simp [sampledUpTo]
    | cons o outs => exact sampledUpTo_of_terminal _ hterminal outs
  have hfills : ¬ slot.Fills outs := by
    simpa [Fills, hsampled] using hbudget.symm
  rw [consumeOutput_eq h]
  simp only [hterminal, if_true]
  refine .of_sampled_nil hcause hsampled (n := slot.req.nPast + 1) (by omega) (if_neg hfills).symm ?_
  rw [if_neg hfills, drop_one]

theorem consumeOutput_visible (h : slot.Decoding) (hterminal : o.terminal = false)
    (hvisible : o.visible = true) :
    slot.consumeOutput {} o =
      let appended := appendGeneratedPiece slot.req o.piece slot.result.completion
      let state := { slot.state with
        currentToken := o.token, tokensGenerated := slot.state.tokensGenerated + 1 }
      ⟨appended.2.1.setNPast (slot.req.nPast + 1),
        if appended.1 then state.deactivate .stop else state,
        { slot.result with completion := appended.2.2 }⟩ := by
  simp [consumeOutput_eq h, hterminal, acceptToken_of_visible hvisible,
    (TextFrame.setNPast _).appendGeneratedPiece]

theorem token_nonneg (hterminal : o.terminal = false) : 0 ≤ o.token := by
  simp only [terminal, or_eq_false_iff, decide_eq_false_iff_not] at hterminal
  omega

theorem Decoded.of_stop (h : slot.Decoding) (hcause : slot.state.cause = none)
    (hlimit : slot.state.tokensGenerated < slot.state.decodeLimit) (hterminal : o.terminal = false)
    (hvisible : o.visible = true)
    (hhit : (appendGeneratedPiece slot.req o.piece slot.result.completion).1 = true)
    (outs : List UnifiedBatchOutput) :
    Decoded slot (o :: outs) (slot.consumeOutput {} o, outs) := by
  have hsampled := (sampled_cons h hterminal hlimit outs).1
  have hpiece : isVisibleGeneratedPiece o.piece = true := hvisible
  have hassembly : slot.assembly (o :: outs) =
      ⟨(appendGeneratedPiece slot.req o.piece slot.result.completion).2.1,
        (appendGeneratedPiece slot.req o.piece slot.result.completion).2.2, true, 1⟩ := by
    simp [assembly, hsampled, assemblePieces, hpiece, hhit]
  rw [consumeOutput_visible h hterminal hvisible]
  simp only [hhit, if_true]
  constructor
  · exact ⟨slot.req.nPast + 1, by simp [hassembly], by rw [hassembly]⟩
  · rw [hassembly]
  · simp [hassembly, hsampled, deactivate, hvisible]
  · intro _
    exact token_nonneg hterminal
  · rfl
  · rfl
  · simp [hassembly, deactivate, hcause]
  · simp [hassembly]

structure GoesOn (slot : Slot) (o : UnifiedBatchOutput) (req : InferenceRequest)
    (completion : Bytes) : Prop where
  next : slot.consumeOutput {} o =
    ⟨req.setNPast (slot.req.nPast + 1),
      { slot.state with
        currentToken := o.token
        tokensGenerated := slot.state.tokensGenerated + if o.visible then 1 else 0
        nonEmittingSteps := slot.state.nonEmittingSteps + if o.visible then 0 else 1 },
      { slot.result with completion }⟩
  pieces : ∀ pieces, assemblePieces slot.req slot.result.completion (o.piece :: pieces) =
    (assemblePieces req completion pieces).after

theorem consumeOutput_goes_on (h : slot.Decoding) (hterminal : o.terminal = false)
    (hhit : o.visible = true →
      (appendGeneratedPiece slot.req o.piece slot.result.completion).1 = false)
    (hsteps : o.visible = false →
      slot.state.nonEmittingSteps + 1 < slot.state.maxNonEmittingSteps) :
    ∃ req completion, GoesOn slot o req completion := by
  cases hvisible : o.visible with
  | true =>
    have hpiece : isVisibleGeneratedPiece o.piece = true := hvisible
    refine ⟨(appendGeneratedPiece slot.req o.piece slot.result.completion).2.1,
      (appendGeneratedPiece slot.req o.piece slot.result.completion).2.2, ?_, fun pieces => ?_⟩
    · simp [consumeOutput_visible h hterminal hvisible, hhit hvisible, hvisible]
    · simp [assemblePieces, hpiece, hhit hvisible]
  | false =>
    have hpiece : isVisibleGeneratedPiece o.piece = false := hvisible
    refine ⟨slot.req, slot.result.completion, ?_, fun pieces => ?_⟩
    · simp only [Slot.consumeOutput_eq h, hterminal, hvisible, false_eq_true, if_false,
        Int.add_zero]
      exact Slot.acceptToken_of_invisible hvisible (hsteps hvisible)
    · simp [assemblePieces, hpiece]

theorem Decoded.cons {req : InferenceRequest} {completion : Bytes}
    {final : Slot × List UnifiedBatchOutput} (h : slot.Decoding) (hterminal : o.terminal = false)
    (hlimit : slot.state.tokensGenerated < slot.state.decodeLimit)
    (hgo : GoesOn slot o req completion) (hrest : Decoded (slot.consumeOutput {} o) outs final) :
    Decoded slot (o :: outs) final := by
  obtain ⟨hsampled, hbudget⟩ := sampled_cons h hterminal hlimit outs
  obtain ⟨hslot, hpieces⟩ := hgo
  have hfills : slot.Fills (o :: outs) ↔ (slot.consumeOutput {} o).Fills outs := by
    unfold Fills
    rw [hsampled, countP_cons, hbudget]
    omega
  have hassembly : slot.assembly (o :: outs) = (assemblePieces req completion
      (((slot.consumeOutput {} o).sampled outs).map (·.piece))).after := by
    rw [Slot.assembly, hsampled, map_cons, hpieces]
  have hassembly' : (slot.consumeOutput {} o).assembly outs = _ :=
    (congrArg (fun s : Slot => assemblePieces s.req s.result.completion _) hslot).trans
      ((TextFrame.setNPast _).assemblePieces ..)
  have hpast : (slot.consumeOutput {} o).req.nPast = slot.req.nPast + 1 := congrArg (·.req.nPast) hslot
  have hstop : (slot.assembly (o :: outs)).stopHit =
      ((slot.consumeOutput {} o).assembly outs).stopHit := by
    rw [hassembly, hassembly']
    rfl
  have hconsumed : (slot.assembly (o :: outs)).consumed =
      ((slot.consumeOutput {} o).assembly outs).consumed + 1 := by
    rw [hassembly, hassembly']
    rfl
  constructor
  · obtain ⟨n, hn, hreq⟩ := hrest.req
    refine ⟨n, by omega, ?_⟩
    rw [hreq, hassembly, hassembly']
    rfl
  · rw [hrest.result, hassembly, hassembly', hslot]
    rfl
  · have htokens := congrArg (·.state.tokensGenerated) hslot
    rw [hrest.tokensGenerated, hconsumed, hsampled, take_succ_cons, countP_cons, htokens]
    split_ifs <;> simp only <;> omega
  · intro _
    exact hrest.currentToken (Or.inl (by rw [hslot]; exact token_nonneg hterminal))
  · rw [hrest.decodeLimit, hslot]
  · rw [hrest.sliceActive, hslot]
  · rw [hrest.cause, hstop]
    simp [hfills]
  · rw [hrest.rest, hstop, hconsumed, hsampled]
    simp [hfills]

/-- On a stream the decode loop assembles the outputs it may sample. -/
theorem decodeStream_eq (h : slot.Decoding) (hactive : slot.state.active = true)
    (hcause : slot.state.cause = none) (outs : List UnifiedBatchOutput)
    (hsteps : slot.state.nonEmittingSteps + ((slot.sampled outs).countP (!·.visible)) <
      slot.state.maxNonEmittingSteps) :
    Decoded slot outs (decodeStream slot outs) := by
  induction outs generalizing slot with
  | nil =>
    rw [decodeStream, hactive, Bool.not_true, if_neg (by simp)]
    split_ifs with hlimit
    · exact Decoded.of_terminal h hcause hlimit rfl
    · exact Decoded.of_limit hcause hlimit []
  | cons o outs ih =>
    rw [decodeStream, hactive, Bool.not_true, if_neg (by simp)]
    split_ifs with hlimit
    · cases hterminal : o.terminal with
      | true =>
        rw [decodeStream_of_inactive (consumeOutput_terminal_inactive h hterminal)]
        exact Decoded.of_terminal h hcause hlimit hterminal
      | false =>
        by_cases hstops : o.visible = true ∧
            (appendGeneratedPiece slot.req o.piece slot.result.completion).1 = true
        · obtain ⟨hvisible, hhit⟩ := hstops
          have hinactive : (slot.consumeOutput {} o).state.active = false := by
            simp [consumeOutput_visible h hterminal hvisible, hhit, deactivate]
          rw [decodeStream_of_inactive hinactive]
          exact Decoded.of_stop h hcause hlimit hterminal hvisible hhit outs
        · rw [(sampled_cons h hterminal hlimit outs).1, countP_cons] at hsteps
          obtain ⟨req, completion, hgo⟩ := consumeOutput_goes_on h hterminal
            (fun hvisible => by simpa [hvisible] using hstops)
            (fun hvisible => by simp [hvisible] at hsteps; omega)
          have hslot := hgo.next
          refine .cons h hterminal hlimit hgo
            (ih (consumeOutput_frame h {} o).1 (by rwa [hslot]) (by rwa [hslot]) ?_)
          have hcount : (slot.consumeOutput {} o).state.nonEmittingSteps =
              slot.state.nonEmittingSteps + if o.visible then 0 else 1 := by rw [hslot]
          have hmax : (slot.consumeOutput {} o).state.maxNonEmittingSteps =
              slot.state.maxNonEmittingSteps := by rw [hslot]
          rw [hcount, hmax]
          cases hvisible : o.visible <;> simp [hvisible] at hsteps ⊢ <;> omega
    · exact Decoded.of_limit hcause hlimit (o :: outs)

end InferFlux.Execution
