import InferFlux.Execution.StreamSlice

/-!
# Generation in fairness slices

Embeds `PrepareFairnessDecodeRequeue` (`scheduler/request_requeue.h`) and the part of
`Scheduler::ProcessBatch` that takes the executor's results: a request that yielded is queued
again, the result of any other is completed from what the request has accumulated.
`runSlices` runs one request that way until it finishes.
-/

namespace InferFlux.Execution

open InferFlux.Text UnifiedBatchOutput InferenceRequest Bool Slot

/-- The settings a slice runs with: the timeslice of the fairness controller and the decode
burst of the executor. -/
structure SliceSetting where
  timeslice : Int := 0
  burst : Int := 0
  deriving DecidableEq, Repr

def InferenceRequest.setTimeslice (req : InferenceRequest) (timeslice : Int) : InferenceRequest :=
  { req with fairness := { req.fairness with timesliceTokens := timeslice } }

def prepareFairnessDecodeRequeue (req : InferenceRequest) : InferenceRequest :=
  { req with phase := .decode }

/-- The result that `ProcessBatch` makes of the executor's when the request did not yield. -/
def publishResult (req : InferenceRequest) (result : InferenceResult) : InferenceResult :=
  let result :=
    if !req.accumulatedOutput.isEmpty then
      { result with
        completion := req.accumulatedOutput
        completionTokens :=
          if req.fairness.totalCompletionTokens > 0 then req.fairness.totalCompletionTokens
          else result.completionTokens }
    else result
  if req.fairness.reportedPromptTokens ≥ 0 then
    { result with promptTokens := req.fairness.reportedPromptTokens }
  else result

section Run

variable {σ : Type} (backend : Backend σ) (tuning : UnifiedBatchTuning)
  (schedule : Nat → SliceSetting)

/-- Run a request slice by slice, the next slice being number `i`: the request and its
published result. -/
def runSlices : Nat → Nat → InferenceRequest → σ → Option (InferenceRequest × InferenceResult)
  | 0, _, _, _ => none
  | fuel + 1, i, req, s =>
    match executeUnifiedBatchPhased backend { tuning with decodeBurstTokens := (schedule i).burst }
      [req.setTimeslice (schedule i).timeslice] s with
    | ([slot], s) =>
      if slot.req.fairness.yielded then
        runSlices fuel (i + 1) (prepareFairnessDecodeRequeue slot.req) s
      else some (slot.req, publishResult slot.req slot.result)
    | _ => none

/-- A yielding slice uses up some of the request's budget, so `max_tokens` slices are enough. -/
def runRequest (req : InferenceRequest) (s : σ) : Option (InferenceRequest × InferenceResult) :=
  runSlices backend tuning schedule req.maxTokens.toNat 0 req s

end Run

namespace SliceSetting

def active (set : SliceSetting) : Bool := set.timeslice > 0 || set.burst > 0

def limit (set : SliceSetting) (remaining : Nat) : Nat :=
  let limit := if set.timeslice > 0 then min remaining set.timeslice.toNat else remaining
  if set.burst > 0 then min limit set.burst.toNat else limit

theorem limit_le (set : SliceSetting) (remaining : Nat) : set.limit remaining ≤ remaining := by
  unfold limit
  grind

theorem limit_pos (set : SliceSetting) {remaining : Nat} (h : 0 < remaining) :
    0 < set.limit remaining := by
  simp only [limit]
  split_ifs <;> omega

theorem limit_of_inactive {set : SliceSetting} (h : set.active = false) (remaining : Nat) :
    set.limit remaining = remaining := by
  simp only [active, or_eq_false_iff, decide_eq_false_iff_not] at h
  simp [limit, h.1, h.2]

end SliceSetting

/-! ## One slice -/

/-- A request with `remaining` tokens to go that can start a slice. -/
structure SliceReady (req : InferenceRequest) (remaining : Nat) : Prop where
  startable : Startable req
  remaining_eq : req.fairness.remainingDecodeTokens = remaining
  remaining_pos : 0 < remaining
  remaining_le : (remaining : Int) ≤ req.maxTokens

variable {req : InferenceRequest} {remaining : Nat}

theorem SliceReady.sliceDecodeLimit (h : SliceReady req remaining) (set : SliceSetting) :
    sliceDecodeLimit (req.setTimeslice set.timeslice) set.burst = set.limit remaining := by
  have hpos := h.remaining_pos
  have hle := h.remaining_le
  simp only [Execution.sliceDecodeLimit, SliceSetting.limit, setTimeslice, h.remaining_eq]
  split_ifs <;> omega

/-- The outputs a request samples from: the token sampled before the slice, if there is one,
and the stream. -/
def InferenceRequest.stream (req : InferenceRequest) (outs : List UnifiedBatchOutput) :
    List UnifiedBatchOutput :=
  if 0 ≤ req.firstToken then req.seed :: outs else outs

/-- The outputs that matter in a slice: those it samples from, without the token a resumed
slice starts with, which has been emitted before. -/
def Feeds (req : InferenceRequest) (outs ls : List UnifiedBatchOutput) : Prop :=
  req.stream outs = ls ∨
    ∃ seed, seed.terminal = false ∧ seed.visible = false ∧ req.stream outs = seed :: ls

/-- What a slice leaves of its request, `a` being the text assembled in it. -/
structure SliceEnd (req : InferenceRequest) (a : Assembly) (slot : Slot) : Prop where
  stop : slot.req.stop = req.stop
  onToken : slot.req.onToken = req.onToken
  maxTokens : slot.req.maxTokens = req.maxTokens
  cancellationFlag : slot.req.cancellationFlag = req.cancellationFlag
  accumulatedOutput : slot.req.accumulatedOutput = req.accumulatedOutput
  remaining : slot.req.fairness.remainingDecodeTokens = req.fairness.remainingDecodeTokens
  total : slot.req.fairness.totalCompletionTokens = req.fairness.totalCompletionTokens
  yielded : slot.req.fairness.yielded = false
  streamed : slot.req.streamed = a.req.streamed
  outputUtf8 : slot.req.outputUtf8 = a.req.outputUtf8
  completion : slot.result.completion = a.completion

theorem assemblePieces_frame (req : InferenceRequest) (completion : Bytes) (pieces : List Bytes) :
    ∃ streamed asm, (assemblePieces req completion pieces).req = req.setText streamed asm := by
  cases hhit : firstHit req.stop completion (assembledChunks req.outputUtf8 pieces) with
  | none =>
    rw [assemblePieces_of_none req hhit]
    exact ⟨_, _, rfl⟩
  | some hit =>
    rw [assemblePieces_of_some req hhit]
    exact ⟨_, _, rfl⟩

/-- The fields of a request that a slice leaves alone are not changed. -/
def KeepsSlice (f : InferenceRequest → InferenceRequest) : Prop :=
  ∀ r streamed asm nPast, SliceEnd r ⟨r.setText streamed asm, [], false, 0⟩
    ⟨(f (r.setText streamed asm)).setNPast nPast, {}, {}⟩

/-- The opened slot is the request up to fields that text assembly does not see. -/
theorem openStream_frame (tuning : UnifiedBatchTuning) (timeslice : Int) (req : InferenceRequest)
    (outs : List UnifiedBatchOutput) :
    ∃ f, TextFrame f ∧ (openStream tuning (req.setTimeslice timeslice) outs).1.req = f req ∧
      KeepsSlice f := by
  unfold openStream
  split_ifs
  · refine ⟨fun r => (openSlot tuning ((r.setTimeslice timeslice).setNPast (req.nPast - 1))).req,
      ⟨fun _ => rfl, fun _ => rfl, fun _ => rfl, fun _ => rfl, fun _ _ _ => rfl⟩, rfl, ?_⟩
    intro r streamed asm nPast
    constructor <;>
      simp [openSlot, setTimeslice, beginSlice, setNPast, setText]
  · refine ⟨fun r => ((openSlot tuning (r.setTimeslice timeslice)).afterPrompt (outs.headD eos)).req,
      ⟨fun _ => rfl, fun _ => rfl, fun _ => rfl, fun _ => rfl, fun _ _ _ => rfl⟩, rfl, ?_⟩
    intro r streamed asm nPast
    constructor <;>
      simp [openSlot, afterPrompt, setTimeslice, beginSlice, setNPast, setText]

theorem openStream_snd (tuning : UnifiedBatchTuning) (timeslice : Int) (req : InferenceRequest)
    (outs : List UnifiedBatchOutput) :
    (openStream tuning (req.setTimeslice timeslice) outs).2 = req.stream outs := by
  unfold openStream stream
  split_ifs <;> first | rfl | contradiction

def assembleUpTo (req : InferenceRequest) (completion : Bytes) (limit : Nat)
    (ls : List UnifiedBatchOutput) : Assembly :=
  assemblePieces req completion ((sampledUpTo limit ls).map (·.piece))

def tokensUpTo (req : InferenceRequest) (completion : Bytes) (limit : Nat)
    (ls : List UnifiedBatchOutput) : Nat :=
  ((sampledUpTo limit ls).take (assembleUpTo req completion limit ls).consumed).countP visible

variable {seed : UnifiedBatchOutput}

theorem sampledUpTo_invisible {limit : Nat} (hlimit : 0 < limit) (hterminal : seed.terminal = false)
    (hvisible : seed.visible = false) (ls : List UnifiedBatchOutput) :
    sampledUpTo limit (seed :: ls) = seed :: sampledUpTo limit ls := by
  obtain ⟨limit, rfl⟩ := Nat.exists_eq_add_of_lt hlimit
  simp [sampledUpTo, hterminal, hvisible]

theorem assembleUpTo_invisible {limit : Nat} (hlimit : 0 < limit)
    (hterminal : seed.terminal = false) (hvisible : seed.visible = false) (req : InferenceRequest)
    (completion : Bytes) (ls : List UnifiedBatchOutput) :
    assembleUpTo req completion limit (seed :: ls) =
      (assembleUpTo req completion limit ls).after := by
  have hpiece : isVisibleGeneratedPiece seed.piece = false := hvisible
  simp [assembleUpTo, sampledUpTo_invisible hlimit hterminal hvisible, assemblePieces, hpiece]

theorem Startable.setTimeslice (h : Startable req) (timeslice : Int) :
    Startable (req.setTimeslice timeslice) :=
  ⟨h.nPast, h.cancellationFlag, h.prompt⟩

/-- The opened slot may generate what the slice may, and assembles the same text. -/
theorem openStream_assembly (h : SliceReady req remaining) (tuning : UnifiedBatchTuning)
    (set : SliceSetting) (hburst : tuning.decodeBurstTokens = set.burst)
    (outs ls : List UnifiedBatchOutput) :
    (openStream tuning (req.setTimeslice set.timeslice) outs).1.budget = set.limit remaining ∧
      ∃ f, (openStream tuning (req.setTimeslice set.timeslice) outs).1.assembly ls =
          { assembleUpTo req [] (set.limit remaining) ls with
            req := f (assembleUpTo req [] (set.limit remaining) ls).req } ∧ KeepsSlice f := by
  have hopen := opened (h.startable.setTimeslice set.timeslice) tuning outs
  obtain ⟨f, hf, hreq, hfields⟩ := openStream_frame tuning set.timeslice req outs
  have hbudget : (openStream tuning (req.setTimeslice set.timeslice) outs).1.budget =
      set.limit remaining := by
    unfold budget
    rw [hopen.tokensGenerated, hopen.decodeLimit, hburst, h.sliceDecodeLimit]
    omega
  refine ⟨hbudget, f, ?_, hfields⟩
  unfold assembleUpTo
  rw [← hf.assemblePieces, ← hreq]
  unfold assembly sampled
  rw [hbudget, hopen.result]

theorem KeepsSlice.sliceEnd {f : InferenceRequest → InferenceRequest} (hfields : KeepsSlice f)
    (req : InferenceRequest) (pieces : List Bytes) {slot : Slot} {nPast : Int}
    (hreq : slot.req = (f (assemblePieces req [] pieces).req).setNPast nPast)
    (hresult : slot.result.completion = (assemblePieces req [] pieces).completion) :
    SliceEnd req (assemblePieces req [] pieces) slot := by
  obtain ⟨streamed, asm, hframe⟩ := assemblePieces_frame req [] pieces
  obtain ⟨req', state, result⟩ := slot
  have hend := hfields req streamed asm nPast
  simp only [hframe] at hreq
  subst hreq
  exact { hend with
    streamed := by rw [hframe]; exact hend.streamed
    outputUtf8 := by rw [hframe]; exact hend.outputUtf8
    completion := hresult }

theorem countP_sampledUpTo_le (limit : Nat) (ls : List UnifiedBatchOutput) :
    (sampledUpTo limit ls).countP visible ≤ limit := by
  fun_induction sampledUpTo limit ls with
  | case1 => simp
  | case2 => simp
  | case3 => simp
  | case4 limit o outs hterminal ih =>
    cases hvisible : o.visible <;> simp_all

theorem tokensUpTo_le (req : InferenceRequest) (completion : Bytes) (limit : Nat)
    (ls : List UnifiedBatchOutput) : tokensUpTo req completion limit ls ≤ limit :=
  Nat.le_trans (List.take_sublist _ _).countP_le (countP_sampledUpTo_le limit ls)

structure SliceOutcome (set : SliceSetting) (req : InferenceRequest) (remaining : Nat)
    (ls : List UnifiedBatchOutput) (slot : Slot) (rest : List UnifiedBatchOutput) : Prop where
  sliceEnd : SliceEnd req (assembleUpTo req [] (set.limit remaining) ls) slot
  tokensGenerated : slot.state.tokensGenerated = tokensUpTo req [] (set.limit remaining) ls
  decodeLimit : slot.state.decodeLimit = set.limit remaining
  sliceActive : slot.state.sliceActive = set.active
  nPast : 0 < slot.state.tokensGenerated → 0 ≤ slot.req.nPast
  currentToken : 0 < slot.state.tokensGenerated → 0 ≤ slot.state.currentToken
  cause : slot.state.cause =
    some (if (assembleUpTo req [] (set.limit remaining) ls).stopHit then .stop
      else if (sampledUpTo (set.limit remaining) ls).countP visible = set.limit remaining then .limit
      else .terminal)
  rest : (assembleUpTo req [] (set.limit remaining) ls).stopHit = false →
    (sampledUpTo (set.limit remaining) ls).countP visible = set.limit remaining →
    rest = ls.drop (sampledUpTo (set.limit remaining) ls).length

variable {ls : List UnifiedBatchOutput}

/-- The token that a resumed slice starts with changes nothing else. -/
theorem SliceOutcome.of_seed {set : SliceSetting} {slot : Slot} {rest : List UnifiedBatchOutput}
    (hremaining : 0 < remaining) (hterminal : seed.terminal = false)
    (hvisible : seed.visible = false) (h : SliceOutcome set req remaining (seed :: ls) slot rest) :
    SliceOutcome set req remaining ls slot rest := by
  have hlimit := set.limit_pos hremaining
  have hsampled := sampledUpTo_invisible hlimit hterminal hvisible ls
  have hassembly := assembleUpTo_invisible hlimit hterminal hvisible req [] ls
  obtain ⟨hend, htokens, hdecode, hactive, hpast, hcurrent, hcause, hrest⟩ := h
  refine ⟨?_, ?_, hdecode, hactive, hpast, hcurrent, ?_, ?_⟩
  · rw [hassembly] at hend
    exact { hend with }
  · rw [htokens]
    simp [tokensUpTo, hassembly, hsampled, Assembly.after, hvisible]
  · rw [hcause, hassembly, hsampled]
    simp [Assembly.after, hvisible]
  · intro hstop hcount
    simpa [hsampled] using hrest (by rw [hassembly]; exact hstop) (by simpa [hsampled, hvisible])

theorem openStream_nPast (h : Startable req) (tuning : UnifiedBatchTuning)
    (outs : List UnifiedBatchOutput) : -1 ≤ (openStream tuning req outs).1.req.nPast := by
  have hpast := h.nPast
  unfold openStream
  split_ifs
  · simp only [openSlot, beginSlice, setNPast]
    omega
  · simp only [afterPrompt]
    omega

theorem slice_run_stream (h : SliceReady req remaining)
    (capacity : Int) (tuning : UnifiedBatchTuning) (set : SliceSetting)
    (outs : List UnifiedBatchOutput)
    (hsteps : ((sampledUpTo (set.limit remaining) (req.stream outs)).countP (!·.visible) : Int) <
      maxNonEmittingSteps req.maxTokens)
    (hguard : req.promptRounds capacity tuning +
      (sampledUpTo (set.limit remaining) (req.stream outs)).length + 2 ≤ kDeadlockGuard) :
    ∃ slot rest, executeUnifiedBatchPhased (streamBackend capacity)
        { tuning with decodeBurstTokens := set.burst } [req.setTimeslice set.timeslice] outs =
        ([slot.finalize], rest) ∧
      SliceOutcome set req remaining (req.stream outs) slot rest := by
  have hstart := h.startable.setTimeslice set.timeslice
  have hburst : { tuning with decodeBurstTokens := set.burst }.decodeBurstTokens = set.burst := rfl
  have hchunks : (req.setTimeslice set.timeslice).promptRounds capacity
      { tuning with decodeBurstTokens := set.burst } = req.promptRounds capacity tuning := rfl
  have hopen := opened hstart { tuning with decodeBurstTokens := set.burst } outs
  have hstream := openStream_snd { tuning with decodeBurstTokens := set.burst } set.timeslice req outs
  have hpast := openStream_nPast hstart { tuning with decodeBurstTokens := set.burst } outs
  obtain ⟨hbudget, f, hassembly, hfields⟩ :=
    openStream_assembly h { tuning with decodeBurstTokens := set.burst } set hburst outs
      (req.stream outs)
  rw [← hchunks] at hguard
  generalize { tuning with decodeBurstTokens := set.burst } = tuning at *
  have hrun := executeUnifiedBatchPhased_stream hstart capacity tuning outs
  rw [hstream] at hrun
  generalize (openStream tuning (req.setTimeslice set.timeslice) outs).1 = slot at *
  have hsampled : slot.sampled (req.stream outs) =
      sampledUpTo (set.limit remaining) (req.stream outs) := by
    unfold sampled
    rw [hbudget]
  have hdecoded : Decoded slot (req.stream outs) (decodeStream slot (req.stream outs)) := by
    apply decodeStream_eq hopen.decoding hopen.active hopen.cause
    rw [hopen.nonEmittingSteps, hopen.maxNonEmittingSteps, hsampled, Int.zero_add]
    exact hsteps
  refine ⟨_, _, hrun (by rw [hsampled]; exact hguard), ?_⟩
  obtain ⟨nPast, hle, hreq⟩ := hdecoded.req
  rw [hassembly] at hle hreq
  dsimp only at hle hreq
  have htokens := hdecoded.tokensGenerated
  rw [hopen.tokensGenerated, hassembly, hsampled, Int.zero_add] at htokens
  have hconsumed : 0 < (decodeStream slot (req.stream outs)).1.state.tokensGenerated →
      0 < (assembleUpTo req [] (set.limit remaining) (req.stream outs)).consumed := by
    intro hpos
    apply Nat.pos_of_ne_zero
    intro hzero
    rw [htokens] at hpos
    simp [hzero] at hpos
  constructor
  · exact hfields.sliceEnd req _ hreq (by rw [hdecoded.result, hassembly]; rfl)
  · exact htokens
  · rw [hdecoded.decodeLimit, hopen.decodeLimit, hburst, h.sliceDecodeLimit]
  · rw [hdecoded.sliceActive, hopen.sliceActive, hburst]
    rfl
  · intro hpos
    rw [hreq]
    simp only [setNPast]
    omega
  · intro hpos
    apply hdecoded.currentToken
    rw [hassembly]
    exact Or.inr (hconsumed hpos)
  · rw [hdecoded.cause, hassembly]
    simp [Fills, hsampled, hbudget]
  · intro hstop hcount
    have hfills : slot.Fills (req.stream outs) := by
      unfold Fills
      rw [hsampled, hbudget, hcount]
    rw [hdecoded.rest, hassembly, hstop, if_neg (by simp), if_pos hfills, hsampled]

/-! ## The fairness accounting -/

def keptText (text : Bytes) : Bytes := if isNonAccumulatingCompletion text then [] else text

theorem accumulateOutput_eq (req : InferenceRequest) (text : Bytes) :
    req.accumulateOutput text =
      { req with accumulatedOutput := req.accumulatedOutput ++ keptText text } := by
  unfold accumulateOutput keptText
  cases hempty : text.isEmpty with
  | true =>
    obtain rfl := List.isEmpty_iff.mp hempty
    simp
  | false => cases isNonAccumulatingCompletion text <;> simp

namespace Slot

/-- The text a slice publishes: a generation without any token is reported as such, and the
bytes still held back are flushed. -/
def publishedText (slot : Slot) : Bytes :=
  (if slot.state.tokensGenerated = 0 && slot.result.completion.isEmpty then kBackendEmptyResponseText
    else slot.result.completion) ++ slot.req.outputUtf8.finish.1.text

theorem finalize_of_yield {slot : Slot} (hactive : slot.state.sliceActive = true)
    (hlimit : slot.state.decodeLimit ≤ slot.state.tokensGenerated)
    (hpos : 0 < slot.state.tokensGenerated)
    (hlt : slot.state.tokensGenerated < slot.req.fairness.remainingDecodeTokens) :
    slot.finalize =
      ⟨{ slot.req with
          phase := .pending
          firstToken := slot.state.currentToken
          firstPiece := []
          accumulatedOutput := slot.req.accumulatedOutput ++ keptText slot.result.completion
          fairness := { slot.req.fairness with
            serviceTokens := slot.req.fairness.serviceTokens + slot.state.tokensGenerated
            totalCompletionTokens :=
              slot.req.fairness.totalCompletionTokens + slot.state.tokensGenerated
            yielded := true
            remainingDecodeTokens :=
              slot.req.fairness.remainingDecodeTokens - slot.state.tokensGenerated } },
        slot.state, { slot.result with completionTokens := slot.state.tokensGenerated }⟩ := by
  have hzero : ¬ slot.state.tokensGenerated = 0 := by omega
  have hrem : slot.req.fairness.remainingDecodeTokens ≥ 0 := by omega
  have hleft : slot.req.fairness.remainingAfterSlice slot.state.tokensGenerated =
      slot.req.fairness.remainingDecodeTokens - slot.state.tokensGenerated := by
    unfold FairnessState.remainingAfterSlice
    omega
  have hmore : slot.req.fairness.remainingDecodeTokens - slot.state.tokensGenerated > 0 := by omega
  simp only [finalize, finalizeFairnessSlice, hactive, hleft, hzero, hlimit, hmore, ge_iff_le,
    decide_true, decide_false, Bool.and_true, Bool.false_and, Bool.false_eq_true, if_true, if_false,
    accumulateOutput_eq, updateRemaining]
  rw [if_pos hrem]

theorem finalize_of_finish {slot : Slot}
    (hno : ¬ (slot.state.sliceActive = true ∧
      slot.state.decodeLimit ≤ slot.state.tokensGenerated ∧
      slot.state.tokensGenerated < slot.req.fairness.remainingDecodeTokens))
    (hrem : 0 ≤ slot.req.fairness.remainingDecodeTokens) :
    slot.finalize =
      ⟨{ slot.req with
          phase := .finished
          firstToken := -1
          firstPiece := []
          streamed := slot.req.streamed ++ slot.req.calls slot.req.outputUtf8.finish.1.text
          outputUtf8 := slot.req.outputUtf8.finish.2
          accumulatedOutput := slot.req.accumulatedOutput ++ keptText slot.publishedText
          fairness := { slot.req.fairness with
            serviceTokens := slot.req.fairness.serviceTokens + slot.state.tokensGenerated
            totalCompletionTokens :=
              slot.req.fairness.totalCompletionTokens + slot.state.tokensGenerated
            remainingDecodeTokens :=
              max 0 (slot.req.fairness.remainingDecodeTokens - slot.state.tokensGenerated) } },
        slot.state,
        { slot.result with
          completion := slot.publishedText, completionTokens := slot.state.tokensGenerated }⟩ := by
  have hleft : slot.req.fairness.remainingAfterSlice slot.state.tokensGenerated =
      max 0 (slot.req.fairness.remainingDecodeTokens - slot.state.tokensGenerated) := by
    unfold FairnessState.remainingAfterSlice
    rw [if_pos hrem]
  have hcond : (slot.state.sliceActive &&
      (slot.state.sliceActive && decide (slot.state.tokensGenerated ≥ slot.state.decodeLimit)) &&
      decide (max 0 (slot.req.fairness.remainingDecodeTokens - slot.state.tokensGenerated) > 0)) =
      false := by
    apply eq_false_iff.mpr
    intro htrue
    simp only [and_eq_true, decide_eq_true_eq] at htrue
    apply hno
    refine ⟨htrue.1.1, htrue.1.2.2, ?_⟩
    omega
  simp only [finalize, finalizeFairnessSlice, hleft, hcond, false_eq_true, if_false,
    finishGeneratedText_eq, setText, accumulateOutput_eq,
    updateRemaining]
  rw [if_pos hrem]
  rfl

end Slot

/-- The request that a slice with the assembled text `a` leaves for the next one. -/
structure Resumes (req : InferenceRequest) (remaining tokens : Nat) (a : Assembly)
    (req' : InferenceRequest) : Prop where
  ready : SliceReady req' (remaining - tokens)
  stop : req'.stop = req.stop
  onToken : req'.onToken = req.onToken
  maxTokens : req'.maxTokens = req.maxTokens
  firstToken : 0 ≤ req'.firstToken
  firstPiece : req'.firstPiece = []
  accumulatedOutput : req'.accumulatedOutput = req.accumulatedOutput ++ keptText a.completion
  total : req'.fairness.totalCompletionTokens = req.fairness.totalCompletionTokens + tokens
  streamed : req'.streamed = a.req.streamed
  outputUtf8 : req'.outputUtf8 = a.req.outputUtf8

namespace SliceOutcome

variable {set : SliceSetting} {req : InferenceRequest} {remaining : Nat}
  {ls rest : List UnifiedBatchOutput} {slot : Slot}

/-- A slice that uses up its limit before the request's budget yields. -/
theorem yields (h : SliceOutcome set req remaining ls slot rest) (hready : SliceReady req remaining)
    (htokens : tokensUpTo req [] (set.limit remaining) ls = set.limit remaining)
    (hlt : set.limit remaining < remaining) :
    slot.finalize.req.fairness.yielded = true ∧
      Resumes req remaining (set.limit remaining) (assembleUpTo req [] (set.limit remaining) ls)
        (prepareFairnessDecodeRequeue slot.finalize.req) := by
  have hlimit := set.limit_pos hready.remaining_pos
  have hend := h.sliceEnd
  have hgen := h.tokensGenerated
  rw [htokens] at hgen
  have hrem := hend.remaining
  rw [hready.remaining_eq] at hrem
  have hactive : slot.state.sliceActive = true := by
    rw [h.sliceActive]
    by_contra hinactive
    have := SliceSetting.limit_of_inactive (eq_false_iff.mpr hinactive) remaining
    omega
  have hpos : 0 < slot.state.tokensGenerated := by omega
  rw [finalize_of_yield hactive (by rw [h.decodeLimit]; omega) hpos (by omega)]
  refine ⟨rfl, ⟨⟨h.nPast hpos, ?_, ?_⟩, ?_, ?_, ?_⟩, hend.stop, hend.onToken, hend.maxTokens,
    h.currentToken hpos, rfl, ?_, ?_, hend.streamed, hend.outputUtf8⟩
  · exact hend.cancellationFlag.trans hready.startable.cancellationFlag
  · intro hneg
    have := h.currentToken hpos
    exact absurd hneg (by simpa [prepareFairnessDecodeRequeue] using this)
  · simp only [prepareFairnessDecodeRequeue, hrem, hgen]
    omega
  · omega
  · have := hready.remaining_le
    simp only [prepareFairnessDecodeRequeue, hend.maxTokens]
    omega
  · simp [prepareFairnessDecodeRequeue, hend.accumulatedOutput, hend.completion]
  · simp [prepareFairnessDecodeRequeue, hend.total, hgen]

def text (req : InferenceRequest) (limit : Nat) (ls : List UnifiedBatchOutput) : Bytes :=
  let a := assembleUpTo req [] limit ls
  (if tokensUpTo req [] limit ls = 0 ∧ a.completion = [] then kBackendEmptyResponseText
    else a.completion) ++ a.req.outputUtf8.finish.1.text

/-- A slice that ends the generation publishes what the request has accumulated. -/
theorem finishes (h : SliceOutcome set req remaining ls slot rest)
    (hready : SliceReady req remaining)
    (hno : ¬ (tokensUpTo req [] (set.limit remaining) ls = set.limit remaining ∧
      set.limit remaining < remaining)) :
    slot.finalize.req.fairness.yielded = false ∧
      slot.finalize.req.maxTokens = req.maxTokens ∧
      slot.finalize.req.streamed = (assembleUpTo req [] (set.limit remaining) ls).finish.req.streamed ∧
      slot.finalize.req.accumulatedOutput =
        req.accumulatedOutput ++ keptText (text req (set.limit remaining) ls) ∧
      slot.finalize.req.fairness.totalCompletionTokens =
        req.fairness.totalCompletionTokens + tokensUpTo req [] (set.limit remaining) ls ∧
      slot.finalize.result.completion = text req (set.limit remaining) ls ∧
      slot.finalize.result.completionTokens = tokensUpTo req [] (set.limit remaining) ls := by
  have hend := h.sliceEnd
  have hgen := h.tokensGenerated
  have hle := tokensUpTo_le req [] (set.limit remaining) ls
  have hrem := hend.remaining
  rw [hready.remaining_eq] at hrem
  have htext : slot.publishedText = text req (set.limit remaining) ls := by
    simp [publishedText, text, hend.completion, hend.outputUtf8, hgen]
  have hcalls : slot.req.calls = (assembleUpTo req [] (set.limit remaining) ls).req.calls := by
    obtain ⟨streamed, asm, hframe⟩ := assemblePieces_frame req []
      ((sampledUpTo (set.limit remaining) ls).map (·.piece))
    unfold assembleUpTo
    rw [hframe]
    funext text
    simp only [calls, hend.onToken]
    rfl
  have hfinish : ¬ (slot.state.sliceActive = true ∧
      slot.state.decodeLimit ≤ slot.state.tokensGenerated ∧
      slot.state.tokensGenerated < slot.req.fairness.remainingDecodeTokens) := by
    rintro ⟨-, hlimit, hlt⟩
    rw [h.decodeLimit, hgen] at hlimit
    exact hno ⟨by omega, by omega⟩
  rw [finalize_of_finish hfinish (by omega)]
  refine ⟨hend.yielded, hend.maxTokens, ?_, ?_, ?_, htext, hgen⟩
  · simp [Assembly.finish, finishGeneratedText_eq, streamed_setText, hend.streamed, hcalls,
    hend.outputUtf8]
  · simp [hend.accumulatedOutput, htext]
  · simp [hend.total, hgen]

end SliceOutcome

end InferFlux.Execution
