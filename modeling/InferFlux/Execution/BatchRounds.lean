import InferFlux.Execution.StepwiseDecode
import Mathlib.Logic.Relation

/-!
# Rounds of a batch

What one round of `ExecuteUnifiedBatchPhased` and one call of `ExecuteUnifiedBatchStep` can do
to a request of the batch, whatever the backend answers and whatever else is in the batch.
`SlotMove` and `StepMove` say it for one request, with the input it took part with; the
theorems at the end of each section say that the loops do nothing else. Everything that holds
of a request across a batch is derived from them.

The sink of a batch burst tells the backend by `false` that a request is done. A backend that
honours the sink reports no more tokens for it; the burst of the CUDA executor is one.
-/

namespace InferFlux.Execution

open InferFlux.Text Slot List

theorem one_le_computePrefillChunkCap (cap decodes prefills : Int) (tuning : UnifiedBatchTuning) :
    1 ≤ computePrefillChunkCap cap decodes prefills tuning := by
  unfold computePrefillChunkCap
  dsimp only
  split <;> omega

/-! ## The phased loop -/

/-- What a round with a chunk cap makes of a slot, and the input the slot had in it. -/
inductive SlotMove (cap : Int) (slot : Slot) : Option UnifiedBatchInput → Slot → Prop
  | idle (h : (slot.buildInput cap).2 = none) : SlotMove cap slot none (slot.buildInput cap).1
  | answered {input : UnifiedBatchInput} (h : (slot.buildInput cap).2 = some input)
      (res : UnifiedBatchOutput) (cancelled : Bool) :
      SlotMove cap slot (some input) (slot.consumeOutput input res cancelled)
  | failed {input : UnifiedBatchInput} (h : (slot.buildInput cap).2 = some input) :
      SlotMove cap slot (some input) { slot with state := slot.state.deactivate .failed }

/-- Rounds of a slot, each of which begins with a load of its request's flag. -/
inductive SlotRun : Slot → List UnifiedBatchInput → Slot → Prop
  | refl (slot : Slot) : SlotRun slot [] slot
  | step {cap : Int} {cancelled : Int → Bool} {slot next last : Slot}
      {input : Option UnifiedBatchInput} {inputs : List UnifiedBatchInput} (hcap : 1 ≤ cap)
      (hmove : SlotMove cap (slot.load cancelled) input next)
      (hrest : SlotRun next inputs last) : SlotRun slot (input.toList ++ inputs) last

theorem Slot.buildInput_fst {cap : Int} {slot : Slot} {input : UnifiedBatchInput}
    (h : (slot.buildInput cap).2 = some input) : (slot.buildInput cap).1 = slot := by
  unfold buildInput at h ⊢
  dsimp only at h ⊢
  split_ifs at h ⊢ <;> rfl

variable {i : Nat}

/-- What is handed in order to those that have an input reaches the one at each place. -/
theorem getElem?_scatter {α β γ : Type} (scatter : List (α × Option β) → List γ → List α) {d : γ}
    (take : α → β → γ → α)
    (hnone : ∀ a built outs, scatter ((a, none) :: built) outs = a :: scatter built outs)
    (hsome : ∀ a input built outs, scatter ((a, some input) :: built) outs =
      take a input (outs.headD d) :: scatter built outs.tail)
    {built : List (α × Option β)} (outs : List γ) {b : α × Option β} (h : built[i]? = some b) :
    ∃ next, (scatter built outs)[i]? = some next ∧
      match b.2 with
      | none => next = b.1
      | some input => ∃ out, next = take b.1 input out := by
  induction built generalizing i outs with
  | nil => simp at h
  | cons first built ih =>
    obtain ⟨a, input⟩ := first
    cases i with
    | zero =>
      obtain rfl : (a, input) = b := by simpa using h
      cases input with
      | none => exact ⟨a, by rw [hnone]; rfl, rfl⟩
      | some input => exact ⟨_, by rw [hsome]; rfl, _, rfl⟩
    | succ i =>
      cases input with
      | none =>
        rw [hnone]
        exact ih outs h
      | some input =>
        rw [hsome]
        exact ih outs.tail h

theorem length_scatterOutputs (cancelled : Int → Bool)
    (built : List (Slot × Option UnifiedBatchInput)) (step : List UnifiedBatchOutput) :
    (scatterOutputs cancelled built step).length = built.length := by
  fun_induction scatterOutputs cancelled built step <;> simp_all

structure RoundMoves (cap : Int) (slots next : List Slot) : Prop where
  length : next.length = slots.length
  move : ∀ (i : Nat) (slot : Slot), slots[i]? = some slot → ∃ slot', next[i]? = some slot' ∧
    SlotMove cap slot (slot.buildInput cap).2 slot'

def Slot.failRound (b : Slot × Option UnifiedBatchInput) : Slot :=
  if b.2.isSome then { b.1 with state := b.1.state.deactivate .failed } else b.1

def Slot.Settled (slot : Slot) : Prop := slot.state.active = true → slot.state.inPrefill = false

theorem Slot.settled_failRound (cap : Int) (slot : Slot) :
    (failRound (slot.buildInput cap)).Settled := by
  unfold failRound buildInput Slot.Settled
  dsimp only
  split_ifs <;> simp_all [ReqState.deactivate]

theorem roundMoves_failed (cap : Int) (slots : List Slot) :
    RoundMoves cap slots ((slots.map (buildInput cap)).map failRound) := by
  refine ⟨by simp, fun i slot hslot => ?_⟩
  refine ⟨failRound (slot.buildInput cap), by simp [hslot], ?_⟩
  unfold failRound
  cases hinput : (slot.buildInput cap).2 with
  | none => exact .idle hinput
  | some input =>
    rw [buildInput_fst hinput]
    exact .failed hinput

theorem roundMoves_answered (cap : Int) (slots : List Slot) (cancelled : Int → Bool)
    (step : List UnifiedBatchOutput) :
    RoundMoves cap slots (scatterOutputs cancelled (slots.map (buildInput cap)) step) := by
  refine ⟨by simp [length_scatterOutputs], fun i slot hslot => ?_⟩
  have hbuilt : (slots.map (buildInput cap))[i]? = some (slot.buildInput cap) := by
    simp [hslot]
  obtain ⟨next, hnext, hmove⟩ := getElem?_scatter (scatterOutputs cancelled)
    (fun slot input res => slot.consumeOutput input res
      (slot.req.cancellationFlag || cancelled slot.req.sequenceId))
    (fun _ _ _ => rfl) (fun _ _ _ _ => rfl) step hbuilt
  refine ⟨next, hnext, ?_⟩
  cases hinput : (slot.buildInput cap).2 with
  | none =>
    simp only [hinput] at hmove
    exact hmove ▸ .idle hinput
  | some input =>
    simp only [hinput] at hmove
    obtain ⟨res, rfl⟩ := hmove
    rw [buildInput_fst hinput]
    exact .answered hinput res _

section Loop

variable {σ : Type} (backend : Backend σ) (tuning : UnifiedBatchTuning)

def roundCap (slots : List Slot) : Int :=
  computePrefillChunkCap (max 1 backend.unifiedBatchTokenCapacity)
    (slots.countP Slot.wantsDecode) (slots.countP Slot.wantsPrefill) tuning

def roundInputs (slots : List Slot) : List UnifiedBatchInput :=
  slots.filterMap fun slot => (slot.buildInput (roundCap backend tuning slots)).2

theorem filterMap_buildInput (slots : List Slot) :
    (slots.map (buildInput (roundCap backend tuning slots))).filterMap Prod.snd =
      roundInputs backend tuning slots := by
  simp [roundInputs, filterMap_map]

variable {slots : List Slot}

/-- Without an input a round leaves the slots as a failed one does. -/
theorem map_fst_buildInput (h : roundInputs backend tuning slots = []) :
    (slots.map (buildInput (roundCap backend tuning slots))).map Prod.fst =
      (slots.map (buildInput (roundCap backend tuning slots))).map failRound := by
  refine map_congr_left fun b hb => ?_
  have hb : b.2 = none :=
    filterMap_eq_nil_iff.mp ((filterMap_buildInput backend tuning slots).trans h) b hb
  rw [failRound, hb]
  rfl

theorem unifiedLoop_round_eq (rounds : Nat) {loaded : List Slot} {s s₀ : σ}
    (hload : backend.loadSlots slots s = (loaded, s₀)) :
    unifiedLoop backend tuning (rounds + 1) slots s =
      if (roundInputs backend tuning loaded).isEmpty then
        ((loaded.map (buildInput (roundCap backend tuning loaded))).map Prod.fst, s₀)
      else
        let (step, s') := backend.executeUnifiedBatch s₀ (roundInputs backend tuning loaded)
        if step.isEmpty then
          ((loaded.map (buildInput (roundCap backend tuning loaded))).map failRound, s')
        else unifiedLoop backend tuning rounds
          (scatterOutputs (backend.cancelled s').1
            (loaded.map (buildInput (roundCap backend tuning loaded))) step)
          (backend.cancelled s').2 := by
  rw [← filterMap_buildInput]
  cases hload
  rfl

/-- A round of the loop: without an input it is the last one; otherwise its inputs are
submitted and the loop goes on, unless the backend failed. The last round settles every slot. -/
theorem unifiedLoop_succ (rounds : Nat) {loaded : List Slot} {s s₀ : σ}
    (hload : backend.loadSlots slots s = (loaded, s₀)) :
    ∃ next, RoundMoves (roundCap backend tuning loaded) loaded next ∧
      ((roundInputs backend tuning loaded = [] ∧ (∀ slot ∈ next, slot.Settled) ∧
          unifiedLoop backend tuning (rounds + 1) slots s = (next, s₀)) ∨
        ∃ step s', backend.executeUnifiedBatch s₀ (roundInputs backend tuning loaded) = (step, s') ∧
          ((∀ slot ∈ next, slot.Settled) ∧
              unifiedLoop backend tuning (rounds + 1) slots s = (next, s') ∨
            unifiedLoop backend tuning (rounds + 1) slots s =
              unifiedLoop backend tuning rounds next (backend.cancelled s').2)) := by
  have hsettled : ∀ slot ∈ (loaded.map (buildInput (roundCap backend tuning loaded))).map
      failRound, slot.Settled := by
    simp only [map_map, mem_map, Function.comp_apply, forall_exists_index, and_imp]
    rintro _ slot - rfl
    exact settled_failRound _ slot
  rw [unifiedLoop_round_eq backend tuning rounds hload]
  by_cases hnone : roundInputs backend tuning loaded = []
  · refine ⟨_, roundMoves_failed _ loaded, .inl ⟨hnone, hsettled, ?_⟩⟩
    rw [if_pos (by rw [hnone]; rfl), map_fst_buildInput backend tuning hnone]
  · rw [if_neg (by simpa using hnone)]
    obtain ⟨step, s'⟩ := backend.executeUnifiedBatch s₀ (roundInputs backend tuning loaded)
    cases hstep : step.isEmpty with
    | true =>
      exact ⟨_, roundMoves_failed _ loaded, .inr ⟨step, s', rfl, .inl ⟨hsettled, if_pos hstep⟩⟩⟩
    | false =>
      exact ⟨_, roundMoves_answered _ loaded _ step,
        .inr ⟨step, s', rfl, .inr (if_neg (by simp [hstep]))⟩⟩

theorem length_unifiedLoop (rounds : Nat) (slots : List Slot) (s : σ) :
    (unifiedLoop backend tuning rounds slots s).1.length = slots.length := by
  induction rounds generalizing slots s with
  | zero => rfl
  | succ rounds ih =>
    obtain ⟨next, hmoves, ⟨-, -, hloop⟩ | ⟨step, s', -, ⟨-, hloop⟩ | hloop⟩⟩ :=
      unifiedLoop_succ backend tuning rounds (Eq.refl (backend.loadSlots slots s))
    · rw [hloop, hmoves.length, length_map]
    · rw [hloop, hmoves.length, length_map]
    · rw [hloop, ih, hmoves.length, length_map]

theorem length_executeUnifiedBatchPhased (reqs : List InferenceRequest) (s : σ) :
    (executeUnifiedBatchPhased backend tuning reqs s).1.length = reqs.length := by
  unfold executeUnifiedBatchPhased
  simp [length_unifiedLoop]

def Backend.logged : Backend (σ × List (List UnifiedBatchInput)) where
  unifiedBatchTokenCapacity := backend.unifiedBatchTokenCapacity
  executeUnifiedBatch := fun (s, log) inputs =>
    ((backend.executeUnifiedBatch s inputs).1,
      (backend.executeUnifiedBatch s inputs).2, log ++ [inputs])
  cancelled := fun (s, log) => ((backend.cancelled s).1, (backend.cancelled s).2, log)

theorem unifiedLoop_logged (rounds : Nat) (slots : List Slot) (s : σ)
    (log : List (List UnifiedBatchInput)) :
    (unifiedLoop backend.logged tuning rounds slots (s, log)).1 =
      (unifiedLoop backend tuning rounds slots s).1 := by
  induction rounds generalizing slots s log with
  | zero => rfl
  | succ rounds ih =>
    simp only [unifiedLoop, Backend.logged, Backend.loadSlots]
    split
    · rfl
    · split
      · rfl
      · exact ih _ _ _

def slotInput (slots : List Slot) (i : Nat) : Option UnifiedBatchInput :=
  slots[i]?.bind fun slot => (slot.buildInput (roundCap backend tuning slots)).2

/-- The rounds of a loop, as the slots of each round that submits something, with their flags loaded:
the backend is called with the inputs of these rounds, and every slot makes its moves in them.
The loop ends with its slots settled unless it uses up its rounds. -/
theorem unifiedLoop_trace (rounds : Nat) (slots : List Slot) (s : σ)
    (log : List (List UnifiedBatchInput)) :
    ∃ rows : List (List Slot), rows.length ≤ rounds ∧
      (unifiedLoop backend.logged tuning rounds slots (s, log)).2.2 =
        log ++ rows.map (roundInputs backend tuning) ∧
      (∀ row ∈ rows, row.length = slots.length) ∧
      ∀ (i : Nat) (slot : Slot), slots[i]? = some slot →
        ∃ last, (unifiedLoop backend.logged tuning rounds slots (s, log)).1[i]? = some last ∧
          SlotRun slot (rows.flatMap fun row => (slotInput backend tuning row i).toList) last ∧
          (rows.length < rounds → last.Settled) := by
  induction rounds generalizing slots s log with
  | zero =>
    exact ⟨[], by simp, by simp [unifiedLoop], by simp,
      fun i slot h => ⟨slot, h, .refl slot, by simp⟩⟩
  | succ rounds ih =>
    obtain ⟨loaded, s₀, hload⟩ : ∃ loaded s₀, backend.loadSlots slots s = (loaded, s₀) := ⟨_, _, rfl⟩
    have hlogged : backend.logged.loadSlots slots (s, log) = (loaded, s₀, log) := by
      cases hload
      rfl
    have hcap : roundCap backend.logged tuning loaded = roundCap backend tuning loaded := rfl
    have hinputs : roundInputs backend.logged tuning loaded = roundInputs backend tuning loaded :=
      rfl
    obtain ⟨next, hmoves, hcase⟩ := unifiedLoop_succ backend.logged tuning rounds hlogged
    rw [hcap] at hmoves
    rw [hinputs] at hcase
    have hlen : loaded.length = slots.length := by
      cases hload
      exact length_map _
    have hone : 1 ≤ roundCap backend tuning loaded := one_le_computePrefillChunkCap ..
    have hfirst : ∀ (i : Nat) (slot : Slot), slots[i]? = some slot →
        ∃ mid, next[i]? = some mid ∧ ∃ cancelled,
          SlotMove (roundCap backend tuning loaded) (slot.load cancelled)
            (slotInput backend tuning loaded i) mid := by
      intro i slot h
      have hslot : loaded[i]? = some (slot.load (backend.cancelled s).1) := by
        cases hload
        simp [h]
      obtain ⟨mid, hmid, hmove⟩ := hmoves.move i _ hslot
      exact ⟨mid, hmid, _, by simpa [slotInput, hslot] using hmove⟩
    obtain ⟨hnone, hsettled, hloop⟩ | ⟨step, ⟨s', log'⟩, hexec, ⟨hsettled, hloop⟩ | hloop⟩ := hcase
    · rw [hloop]
      refine ⟨[], by simp, by simp, by simp, fun i slot h => ?_⟩
      obtain ⟨last, hlast, cancelled, hmove⟩ := hfirst i slot h
      have hinput : slotInput backend tuning loaded i = none := by
        rw [slotInput, Option.bind_eq_none_iff]
        exact fun slot' h' => filterMap_eq_nil_iff.mp hnone slot' (mem_of_getElem? h')
      rw [hinput] at hmove
      exact ⟨last, hlast, .step hone hmove (.refl last),
        fun _ => hsettled last (mem_of_getElem? hlast)⟩
    all_goals
      obtain ⟨-, -, rfl⟩ : _ ∧ _ = s' ∧ log ++ [roundInputs backend tuning loaded] = log' := by
        simpa [Backend.logged] using hexec
      rw [hloop]
    · refine ⟨[loaded], by simp, by simp, by simp [hlen], fun i slot h => ?_⟩
      obtain ⟨last, hlast, cancelled, hmove⟩ := hfirst i slot h
      refine ⟨last, hlast, ?_, fun _ => hsettled last (mem_of_getElem? hlast)⟩
      simpa using SlotRun.step hone hmove (.refl last)
    · rw [show (backend.logged.cancelled (s', log ++ [roundInputs backend tuning loaded])).2 =
        ((backend.cancelled s').2, log ++ [roundInputs backend tuning loaded]) from rfl]
      obtain ⟨rows, hlength, hlog, hrows, hruns⟩ :=
        ih next (backend.cancelled s').2 (log ++ [roundInputs backend tuning loaded])
      rw [hmoves.length, hlen] at hrows
      refine ⟨loaded :: rows, by simpa using hlength, by simpa using hlog,
        by simpa [hlen] using hrows, fun i slot h => ?_⟩
      obtain ⟨mid, hmid, cancelled, hmove⟩ := hfirst i slot h
      obtain ⟨last, hlast, hrun, hend⟩ := hruns i mid hmid
      refine ⟨last, hlast, ?_, fun hlt => hend (by simpa using hlt)⟩
      simpa using SlotRun.step hone hmove hrun

/-- Every slot ends the loop by moves of its own. -/
theorem unifiedLoop_run (rounds : Nat) (s : σ) {slot : Slot} (h : slots[i]? = some slot) :
    ∃ inputs last, (unifiedLoop backend tuning rounds slots s).1[i]? = some last ∧
      SlotRun slot inputs last := by
  obtain ⟨rows, -, -, -, hruns⟩ := unifiedLoop_trace backend tuning rounds slots s []
  obtain ⟨last, hlast, hrun, -⟩ := hruns i slot h
  rw [unifiedLoop_logged] at hlast
  exact ⟨_, last, hlast, hrun⟩

end Loop

theorem SlotRun.invariant {P : Slot → Prop}
    (hload : ∀ slot cancelled, P slot → P (slot.load cancelled))
    (hmove : ∀ cap slot input next, 1 ≤ cap → P slot → SlotMove cap slot input next → P next)
    {slot last : Slot} {inputs : List UnifiedBatchInput} (hrun : SlotRun slot inputs last)
    (h : P slot) : P last := by
  induction hrun with
  | refl slot => exact h
  | step hcap hstep _ ih => exact ih (hmove _ _ _ _ hcap (hload _ _ h) hstep)

theorem Slot.buildInput_req (cap : Int) (slot : Slot) : (slot.buildInput cap).1.req = slot.req := by
  simp only [buildInput]
  split_ifs <;> rfl

theorem Slot.acceptToken_inPrefill (slot : Slot) (res : UnifiedBatchOutput) (cancelled : Bool) :
    (slot.acceptToken res cancelled).state.inPrefill = slot.state.inPrefill := by
  unfold acceptToken
  dsimp only
  split_ifs <;> rfl

/-- A token without visible text costs one of the steps that emit nothing. -/
theorem Slot.acceptToken_invisible (slot : Slot) {res : UnifiedBatchOutput}
    (h : isVisibleGeneratedPiece res.piece = false) (cancelled : Bool) :
    slot.acceptToken res cancelled = ⟨slot.req, ReqState.deactivateIf { slot.state with
        currentToken := res.token, nonEmittingSteps := slot.state.nonEmittingSteps + 1 }
      (slot.state.nonEmittingSteps + 1 ≥ slot.state.maxNonEmittingSteps) .nonEmitting,
      slot.result⟩ := by
  simp [acceptToken, h, ReqState.deactivateIf]

/-- What an output may change of a request: its position, its text, and the report of the prompt
tokens that were reused. -/
def OutputFrame (req next : InferenceRequest) : Prop :=
  ∃ prefillOffset nPast cacheReusedTokens cachePrefillComplete streamed outputUtf8,
    next = { req with
      prefillOffset, nPast, cacheReusedTokens, cachePrefillComplete, streamed, outputUtf8 }

theorem OutputFrame.acceptToken {req : InferenceRequest} {slot : Slot}
    (h : OutputFrame req slot.req) (res : UnifiedBatchOutput) (cancelled : Bool) :
    OutputFrame req (slot.acceptToken res cancelled).req := by
  cases hvisible : isVisibleGeneratedPiece res.piece with
  | true =>
    obtain ⟨_, _, _, _, _, _, hreq⟩ := h
    obtain ⟨streamed, a, htext⟩ :=
      appendGeneratedPiece_frame slot.req res.piece slot.result.completion
    simp only [Slot.acceptToken, hvisible, if_true, htext]
    rw [hreq]
    exact ⟨_, _, _, _, streamed, a, rfl⟩
  | false =>
    rw [Slot.acceptToken_invisible _ hvisible]
    exact h

theorem Slot.consumeOutput_req (slot : Slot) (input : UnifiedBatchInput)
    (res : UnifiedBatchOutput) {cancelled : Bool} :
    OutputFrame slot.req (slot.consumeOutput input res cancelled).req := by
  unfold consumeOutput
  dsimp only
  split_ifs
  all_goals first
    | exact ⟨_, _, _, _, _, _, rfl⟩
    | exact OutputFrame.acceptToken ⟨_, _, _, _, _, _, rfl⟩ res _

/-! ## The step -/

namespace Stepwise

theorem acceptToken_inPrefill (req : InferenceRequest) (token : Int) (piece : Bytes)
    (cancelled : Bool) :
    (acceptToken req token piece cancelled).execution.inPrefill = req.execution.inPrefill := by
  unfold acceptToken
  split_ifs <;> simp [InferenceRequest.setState]

variable {req : InferenceRequest}

theorem active_of_inStep (h : inStep req = true) : req.execution.active = true := by
  simp only [inStep, Bool.and_eq_true] at h
  exact h.1.1

/-- A request in the step submits the input of its slot, and has the state of the slot then. -/
theorem buildInput_slot (hin : inStep req = true) (cap : Int) :
    (buildInput cap req).2 = ((slot req).buildInput cap).2 ∧
      (buildInput cap req).1.execution =
        { req.execution with toReqState := ((slot req).buildInput cap).1.state } ∧
      ∃ execution phase, (buildInput cap req).1 = { req with execution, phase } := by
  have hreq : (slot req).req = req := rfl
  have hstate : (slot req).state = req.execution.toReqState := rfl
  have hactive := active_of_inStep hin
  simp only [buildInput, Slot.buildInput, hreq, hstate, hin, hactive, Bool.not_true,
    Bool.false_eq_true, if_false]
  split_ifs <;> exact ⟨rfl, rfl, _, _, rfl⟩

/-- The request that stands where a slot does, unless it has noticed that it is done. -/
def unslot (slot : Slot) (done : Bool) (cause : EndCause) : InferenceRequest :=
  (slot.req.setState (slot.state.deactivateIf done cause)).setCompletion slot.result.completion

theorem eq_unslot (req : InferenceRequest) : req = unslot (slot req) false .limit := rfl

/-- A request accepts a token as its slot does, and notices at once that it has reached its
limit. -/
theorem acceptToken_unslot (slot : Slot) (o : UnifiedBatchOutput) (cancelled : Bool) :
    acceptToken (unslot slot false .limit) o.token o.piece cancelled =
      unslot (slot.acceptToken o cancelled)
        ((slot.acceptToken o cancelled).state.tokensGenerated ≥
          (slot.acceptToken o cancelled).state.decodeLimit) .limit := by
  cases hvisible : isVisibleGeneratedPiece o.piece with
  | true =>
    have hframe : TextFrame fun req =>
        (req.setState slot.state).setCompletion slot.result.completion :=
      ⟨fun _ => rfl, fun _ => rfl, fun _ => rfl, fun _ => rfl, fun _ _ _ => rfl⟩
    have happend : Execution.appendGeneratedPiece (unslot slot false .limit) o.piece
      (unslot slot false .limit).execution.result.completion = _ :=
        hframe.appendGeneratedPiece slot.req o.piece slot.result.completion
    have hstate : (unslot slot false .limit).execution.toReqState = slot.state := rfl
    simp only [acceptToken, Slot.acceptToken, hvisible, if_true, appendGeneratedPiece, happend, hstate]
    obtain ⟨hit, req, completion⟩ :=
      Execution.appendGeneratedPiece slot.req o.piece slot.result.completion
    rfl
  | false =>
    simp only [acceptToken, Slot.acceptToken_invisible _ hvisible, hvisible, Bool.false_eq_true,
      if_false]
    rfl

/-- The request is where its slot is, but for the limit; its `n_past` only follows past the
prompt, and not at the end of the sequence. -/
def Follows (ended : Bool) (next : InferenceRequest) (last : Slot) : Prop :=
  ∃ nPast done cause, next = (unslot last done cause).setNPast nPast ∧
    (ended = false → last.state.inPrefill = false → nPast = last.req.nPast) ∧
    (last.state.active = true → done =
      (!last.state.inPrefill && decide (last.state.tokensGenerated ≥ last.state.decodeLimit)))

theorem acceptToken_follows {slot : Slot} (hreq : req = unslot slot false .limit)
    (hpast : slot.state.inPrefill = false) (o : UnifiedBatchOutput) (cancelled ended : Bool) :
    Follows ended (acceptToken req o.token o.piece cancelled) (slot.acceptToken o cancelled) := by
  have hin : (slot.acceptToken o cancelled).state.inPrefill = false :=
    (Slot.acceptToken_inPrefill ..).trans hpast
  rw [hreq, acceptToken_unslot]
  exact ⟨_, _, .limit, rfl, fun _ _ => rfl, fun _ => by rw [hin, Bool.not_false, Bool.true_and]⟩

/-- An output takes a request where it takes its slot. -/
theorem consumeOutput_follows (req : InferenceRequest) (input : UnifiedBatchInput)
    (res : UnifiedBatchOutput) :
    Follows res.terminal (consumeOutput req input res) ((slot req).consumeOutput input res) := by
  have hreq : (slot req).req = req := rfl
  have hstate : (slot req).state = req.execution.toReqState := rfl
  have hterminal : (!res.ok || decide (res.token < 0)) = res.terminal := rfl
  have hoff {P : Prop} : false = true → P := fun h => absurd h Bool.false_ne_true
  have hgoes {P : Prop} : true = false → P := fun h => hoff h.symm
  simp only [consumeOutput, Slot.consumeOutput, hreq, hstate, hterminal]
  split
  next hin =>
    split
    next => exact ⟨_, false, .limit, rfl, fun _ _ => rfl, hoff⟩
    next =>
      split
      next =>
        cases res.terminal with
        | true => cases res.ok <;> exact ⟨_, false, .limit, rfl, hgoes, hoff⟩
        | false =>
          refine acceptToken_follows ?_ ?_ res false false
          · cases res.ok <;> rfl
          · rfl
      next => exact ⟨_, false, .limit, rfl, by simp [hin], by simp [hin]⟩
  next hin =>
    split
    next => exact ⟨_, false, .limit, rfl, fun _ _ => rfl, hoff⟩
    next =>
      refine acceptToken_follows ?_ ?_ res _ _
      · rfl
      · exact Bool.eq_false_iff.mpr hin

theorem consumeOutput_past (hpast : req.execution.inPrefill = false) (input : UnifiedBatchInput)
    (res : UnifiedBatchOutput) : (consumeOutput req input res).execution.inPrefill = false := by
  simp only [consumeOutput, hpast, Bool.false_eq_true, if_false]
  split_ifs
  · exact hpast
  · rw [acceptToken_inPrefill]
    exact hpast

def sinkToken (req : InferenceRequest) (ev : BurstTokenEvent) : InferenceRequest :=
  acceptToken (req.setNPast (req.nPast + 1)) ev.tokenId ev.piece req.cancellationFlag

def SinkTokens : InferenceRequest → InferenceRequest → Prop :=
  Relation.ReflTransGen fun req next => ∃ ev, next = sinkToken req ev

/-- Tokens that are all reported while the request goes on. -/
def SinkRun : InferenceRequest → InferenceRequest → Prop :=
  Relation.ReflTransGen fun req next => req.execution.active = true ∧ ∃ ev, next = sinkToken req ev

/-- What a step with a chunk cap makes of a request, and the input the request had in it;
`honoured` says whether the bursts of the step honour the sink. -/
inductive StepMove (honoured : Prop) (cap : Int) (req : InferenceRequest) :
    Option UnifiedBatchInput → InferenceRequest → Prop
  | idle (h : (buildInput cap req).2 = none) : StepMove honoured cap req none (buildInput cap req).1
  | answered {input : UnifiedBatchInput} (h : (buildInput cap req).2 = some input)
      (res : UnifiedBatchOutput) :
      StepMove honoured cap req (some input) (consumeOutput req input res)
  | failed {input : UnifiedBatchInput} (h : (buildInput cap req).2 = some input) :
      StepMove honoured cap req (some input) (req.setState (req.execution.deactivate .failed))
  | greedyBurst {input : UnifiedBatchInput} (h : (buildInput cap req).2 = some input)
      (hdecode : req.execution.inPrefill = false) (outs : List BurstDecodeOutput) :
      StepMove honoured cap req (some input) (consumeBurst req outs)
  | burst {input : UnifiedBatchInput} (h : (buildInput cap req).2 = some input)
      (hdecode : req.execution.inPrefill = false) {next : InferenceRequest}
      (htokens : SinkTokens req next) (hsink : honoured → SinkRun req next) (finished : Bool) :
      StepMove honoured cap req (some input)
        (next.setState (next.execution.toReqState.deactivateIf finished .terminal))

variable {input : UnifiedBatchInput}

theorem buildInput_fst {cap : Int} (h : (buildInput cap req).2 = some input) :
    (buildInput cap req).1 = req := by
  unfold buildInput at h ⊢
  dsimp only at h ⊢
  split_ifs at h ⊢ <;> rfl

/-- A request that has an input takes part in the step: in its prompt or with its last token. -/
theorem inStep_of_buildInput {cap : Int} (h : (buildInput cap req).2 = some input) :
    inStep req = true ∧ req.cancellationFlag = false := by
  unfold buildInput at h
  split_ifs at h <;> simp_all

def activeAt (built : List Built) (k : Nat) : Option InferenceRequest :=
  (built.filterMap fun b => b.2.map fun _ => b.1)[k]?

/-- The backend reports tokens only for requests that go on. -/
def SinkHonoured : List Built → List BurstTokenEvent → Prop
  | _, [] => True
  | built, ev :: events =>
    (∀ req, activeAt built ev.inputIdx = some req → req.execution.active = true) ∧
      SinkHonoured (burstSink built ev) events

variable {b : Built} {built : List Built}

def inputIndex (built : List Built) (i : Nat) : Nat :=
  (built.take i).countP (·.2.isSome)

theorem getElem?_modifyActive_eq (f : InferenceRequest → InferenceRequest) (k : Nat)
    (built : List Built) (i : Nat) : (modifyActive f k built)[i]? = built[i]?.map fun b =>
      if b.2.isSome ∧ inputIndex built i = k then (f b.1, b.2) else b := by
  unfold inputIndex
  fun_induction modifyActive f k built generalizing i with
  | case1 => simp
  | case2 k req built ih | case4 k req input built ih => cases i with
    | zero => simp
    | succ i => simp [ih]
  | case3 req input built => cases i with
    | zero => simp
    | succ i => simp

theorem activeAt_inputIndex (h : built[i]? = some (req, some input)) :
    activeAt built (inputIndex built i) = some req := by
  unfold activeAt inputIndex
  induction built generalizing i with
  | nil => simp at h
  | cons b built ih =>
    cases i with
    | zero =>
      obtain rfl : b = (req, some input) := by simpa using h
      simp
    | succ i =>
      have := ih (i := i) (by simpa using h)
      obtain ⟨r, _ | input'⟩ := b
      · simpa using this
      · simpa using this

theorem getElem?_modifyActive (f : InferenceRequest → InferenceRequest) (k : Nat)
    (h : built[i]? = some b) :
    (modifyActive f k built)[i]? = some b ∨
      (b.2.isSome ∧ activeAt built k = some b.1 ∧
        (modifyActive f k built)[i]? = some (f b.1, b.2)) := by
  have heq := getElem?_modifyActive_eq f k built i
  rw [h, Option.map_some] at heq
  split_ifs at heq with hat
  · obtain ⟨req, input⟩ := b
    obtain ⟨input, rfl⟩ := Option.isSome_iff_exists.mp hat.1
    exact .inr ⟨rfl, hat.2 ▸ activeAt_inputIndex h, heq⟩
  · exact .inl heq

/-- A burst takes every request through tokens, which are all reported while it goes on if the
burst honours the sink. -/
theorem getElem?_foldl_burstSink (events : List BurstTokenEvent) (h : built[i]? = some b) :
    ∃ req, (events.foldl burstSink built)[i]? = some (req, b.2) ∧ SinkTokens b.1 req ∧
      (SinkHonoured built events → SinkRun b.1 req) ∧ (b.2 = none → req = b.1) := by
  induction events generalizing built b with
  | nil => exact ⟨b.1, h, .refl, fun _ => .refl, fun _ => rfl⟩
  | cons ev events ih =>
    obtain hsame | ⟨hinput, hat, hchanged⟩ := getElem?_modifyActive (sinkToken · ev) ev.inputIdx h
    · obtain ⟨req, hreq, htokens, hrun, hnone⟩ := ih hsame
      exact ⟨req, hreq, htokens, fun hsink => hrun hsink.2, hnone⟩
    · obtain ⟨req, hreq, htokens, hrun, -⟩ := ih hchanged
      exact ⟨req, hreq, .head ⟨ev, rfl⟩ htokens,
        fun hsink => .head ⟨hsink.1 _ hat, ev, rfl⟩ (hrun hsink.2),
        fun hnone => by simp [hnone] at hinput⟩

def StepMoves (honoured : Prop) (cap : Int) (reqs next : List InferenceRequest) : Prop :=
  ∀ (i : Nat) (req : InferenceRequest), reqs[i]? = some req → ∃ req', next[i]? = some req' ∧
    StepMove honoured cap req (buildInput cap req).2 req'

section Step

variable {σ : Type} (backend : StepBackend σ) (tuning : UnifiedBatchTuning) {cap : Int}
  {reqs : List InferenceRequest}

theorem executeStep_moves (honoured : Prop) (s : σ) :
    StepMoves honoured cap reqs (executeStep backend (reqs.map (buildInput cap)) s).1 := by
  intro i req hreq
  have hbuilt : (reqs.map (buildInput cap))[i]? = some (buildInput cap req) := by simp [hreq]
  unfold executeStep
  dsimp only
  split
  · refine ⟨_, by simp [hreq]; rfl, ?_⟩
    cases hinput : (buildInput cap req).2 with
    | none => exact .idle hinput
    | some input =>
      rw [buildInput_fst hinput]
      exact .failed hinput
  · obtain ⟨next, hnext, hmove⟩ := getElem?_scatter scatterOutputs consumeOutput
      (fun _ _ _ => rfl) (fun _ _ _ _ => rfl) _ hbuilt
    refine ⟨next, hnext, ?_⟩
    cases hinput : (buildInput cap req).2 with
    | none =>
      simp only [hinput] at hmove
      exact hmove ▸ .idle hinput
    | some input =>
      simp only [hinput, buildInput_fst hinput] at hmove
      obtain ⟨res, rfl⟩ := hmove
      exact .answered hinput res

def HonoursSink (built : List Built) : Prop :=
  ∀ s events finished s',
    backend.executeUnifiedBatchBurst s (built.filterMap Prod.snd) = (some (events, finished), s') →
      SinkHonoured built events

theorem executeBurst_moves (s : σ) :
    StepMoves (HonoursSink backend (reqs.map (buildInput cap))) cap reqs
      (executeBurst backend (reqs.map (buildInput cap)) s).1 := by
  unfold executeBurst
  split
  · exact executeStep_moves backend _ s
  next hprompt =>
    split
    next events finished s' hburst =>
      intro i req hreq
      have hbuilt : (reqs.map (buildInput cap))[i]? = some (buildInput cap req) := by simp [hreq]
      obtain ⟨mid, hmid, htokens, hrun, hsame⟩ := getElem?_foldl_burstSink events hbuilt
      obtain ⟨next, hnext, hmove⟩ := getElem?_scatter markFinished
        (fun req _ ended => req.setState (req.execution.toReqState.deactivateIf ended .terminal))
        (fun _ _ _ => rfl) (fun _ _ _ _ => rfl) finished hmid
      refine ⟨next, hnext, ?_⟩
      cases hinput : (buildInput cap req).2 with
      | none =>
        simp only [hinput] at hmove
        rw [hmove, hsame hinput]
        exact .idle hinput
      | some input =>
        simp only [hinput] at hmove
        obtain ⟨ended, rfl⟩ := hmove
        rw [buildInput_fst hinput] at htokens hrun
        have hdecode : req.execution.inPrefill = false := by
          simp only [any_eq_true, not_exists, not_and] at hprompt
          have := hprompt _ (mem_of_getElem? hbuilt)
          simpa [hinput, buildInput_fst hinput] using this
        exact .burst hinput hdecode htokens (fun hsink => hrun (hsink _ _ _ _ hburst)) ended
    next => exact executeStep_moves backend _ _

def stepCap (reqs : List InferenceRequest) : Int :=
  computePrefillChunkCap (max 1 backend.unifiedBatchTokenCapacity) (reqs.countP wantsDecode)
    (reqs.countP wantsPrefill) tuning

/-- A step does nothing to a request but its move. -/
theorem executeUnifiedBatchStep_moves (s : σ) :
    StepMoves (HonoursSink backend (reqs.map (buildInput (stepCap backend tuning reqs))))
      (stepCap backend tuning reqs) reqs (executeUnifiedBatchStep backend tuning reqs s).1 := by
  unfold executeUnifiedBatchStep
  dsimp only
  rw [show computePrefillChunkCap (max 1 backend.unifiedBatchTokenCapacity)
    (reqs.countP wantsDecode) (reqs.countP wantsPrefill) tuning = stepCap backend tuning reqs
      from rfl]
  generalize stepCap backend tuning reqs = cap
  split
  next hnone =>
    intro i req hreq
    refine ⟨(buildInput cap req).1, by simp [hreq], ?_⟩
    have hinput : (buildInput cap req).2 = none := by
      have hmem : buildInput cap req ∈ reqs.map (buildInput cap) :=
        mem_map_of_mem (mem_of_getElem? hreq)
      simpa using find?_eq_none.mp hnone _ hmem
    rw [hinput]
    exact .idle hinput
  next =>
    split
    next hcounts =>
      split
      next outs s' hgreedy =>
        intro i req hreq
        refine ⟨_, by simp [hreq]; rfl, ?_⟩
        cases hinput : (buildInput cap req).2 with
        | none => exact .idle hinput
        | some input =>
          obtain ⟨hin, hlive⟩ := inStep_of_buildInput hinput
          have hdecode : req.execution.inPrefill = false := by
            have := countP_eq_zero.mp hcounts.1 req (mem_of_getElem? hreq)
            simpa [wantsPrefill, hin, hlive] using this
          simp only [Option.isSome_some, if_true, buildInput_fst hinput]
          exact .greedyBurst hinput hdecode outs
      next => exact executeBurst_moves backend _
    next => exact executeBurst_moves backend _

end Step

/-! ## The burst of the CUDA executor -/

/-- What the device hands to the loop of `NativeExecuteUnifiedBatchBurst`: the steps that were
enqueued, each input's step budget, the tokens by step and input, and the tokenizer. -/
structure BurstDevice where
  enqueued : Nat
  stepBudget : Nat → Nat
  readSlot : Nat → Nat → Int
  isTerminalGeneratedToken : Int → Bool
  visibleTokenPiece : Int → Bytes

/-- The loop's state; an input is stopped when it is finished. -/
structure BurstLoop where
  built : List Built
  events : List BurstTokenEvent := []
  finished : List Bool

def sinkContinues (built : List Built) (b : Nat) : Bool :=
  (activeAt built b).any (·.execution.active)

def consumeSlot (device : BurstDevice) (i : Nat) (loop : BurstLoop) (b : Nat) : BurstLoop :=
  if loop.finished[b]? ≠ some false ∨ device.stepBudget b ≤ i then loop
  else
    let tokenId := device.readSlot i b
    if tokenId < 0 || device.isTerminalGeneratedToken tokenId then
      { loop with finished := loop.finished.set b true }
    else
      let ev := { inputIdx := b, tokenId, piece := device.visibleTokenPiece tokenId }
      let built := burstSink loop.built ev
      { built
        events := loop.events ++ [ev]
        finished := if sinkContinues built b then loop.finished else loop.finished.set b true }

def consumeSlots (device : BurstDevice) (loop : BurstLoop) : List Nat → BurstLoop
  | [] => loop
  | i :: slots =>
    let loop := (List.range loop.finished.length).foldl (consumeSlot device i) loop
    if loop.finished.all id then loop else consumeSlots device loop slots

theorem sinkHonoured_append
    {events : List BurstTokenEvent} {ev : BurstTokenEvent} (h : SinkHonoured built events)
    (hev : ∀ req, activeAt (events.foldl burstSink built) ev.inputIdx = some req →
      req.execution.active = true) : SinkHonoured built (events ++ [ev]) := by
  induction events generalizing built with
  | nil => exact ⟨hev, trivial⟩
  | cons first events ih => exact ⟨h.1, ih h.2 hev⟩

theorem activeAt_modifyActive_of_ne (f : InferenceRequest → InferenceRequest) {k b : Nat}
    (hne : b ≠ k) (built : List Built) :
    activeAt (modifyActive f k built) b = activeAt built b := by
  unfold activeAt
  fun_induction modifyActive f k built generalizing b with
  | case1 => rfl
  | case2 => simp_all
  | case3 =>
    obtain ⟨b, rfl⟩ := Nat.exists_eq_succ_of_ne_zero hne
    simp
  | case4 =>
    cases b with
    | zero => simp
    | succ b => simp_all

/-- The requests of a burst loop are those the sink made, the sink was honoured, and the inputs
that are not stopped belong to requests that go on. -/
structure BurstLoop.Honours (built : List Built) (loop : BurstLoop) : Prop where
  built_eq : loop.built = loop.events.foldl burstSink built
  honoured : SinkHonoured built loop.events
  going : ∀ b : Nat, loop.finished[b]? = some false → ∀ req, activeAt loop.built b = some req →
    req.execution.active = true

section Burst

variable {built : List Built} {loop : BurstLoop}

theorem BurstLoop.Honours.consumeSlot (h : loop.Honours built) (device : BurstDevice) (i b : Nat) :
    (consumeSlot device i loop b).Honours built := by
  have hstop : ∀ c : Nat, (loop.finished.set b true)[c]? = some false →
      c ≠ b ∧ loop.finished[c]? = some false := by
    intro c hc
    rw [getElem?_set] at hc
    split_ifs at hc with hbc hlt
    · simp at hc
    · exact ⟨Ne.symm hbc, hc⟩
  unfold Stepwise.consumeSlot
  dsimp only
  split
  next => exact h
  next hgo =>
    obtain ⟨hopen, -⟩ : loop.finished[b]? = some false ∧ _ := by simpa using hgo
    split
    next => exact ⟨h.built_eq, h.honoured, fun c hc => h.going c (hstop c hc).2⟩
    next =>
      refine ⟨?_, ?_, fun c hc req hreq => ?_⟩
      · rw [foldl_append, ← h.built_eq]
        rfl
      · apply sinkHonoured_append h.honoured
        rw [← h.built_eq]
        exact h.going b hopen
      · by_cases hcb : c = b
        · subst hcb
          split at hc
          next hcontinue =>
            rw [sinkContinues, hreq] at hcontinue
            exact hcontinue
          next => exact absurd rfl (hstop c hc).1
        · have hsame : loop.finished[c]? = some false := by
            split at hc
            · exact hc
            · exact (hstop c hc).2
          rw [burstSink, activeAt_modifyActive_of_ne _ hcb] at hreq
          exact h.going c hsame req hreq

theorem BurstLoop.Honours.consumeSlots (h : loop.Honours built) (device : BurstDevice)
    (slots : List Nat) : (consumeSlots device loop slots).Honours built := by
  induction slots generalizing loop with
  | nil => exact h
  | cons i slots ih =>
    have hstep : ((range loop.finished.length).foldl
        (Stepwise.consumeSlot device i) loop).Honours built :=
      foldlRecOn _ _ h fun loop hloop b _ => hloop.consumeSlot device i b
    unfold Stepwise.consumeSlots
    dsimp only
    split
    · exact hstep
    · exact ih hstep

end Burst

end Stepwise

end InferFlux.Execution
