import InferFlux.Execution.StepwisePasses
import Mathlib.Logic.Function.Iterate

/-!
# Bursts and single tokens

`ExecuteUnifiedBatchStep` decodes one token of each request, or several through one of its two
bursts. On the same token stream a burst leaves a request as the single-token steps would, but for
the end of the sequence: a greedy burst stores the last token it read, and a batch burst does not
count the position of a token it does not report.

A burst that fails is followed by the single-token step with the inputs built before it. The result
type of the backend promises that no token was reported then; `BurstBackend` also has the bursts
that break the promise.
-/

namespace InferFlux.Execution.Stepwise

open InferFlux.Text UnifiedBatchOutput InferenceRequest List Function

/-! ## Single tokens -/

/-- What a call returns for a sequence at a position. -/
abbrev TokenStream := Int → Int → UnifiedBatchOutput

def perTokenBackend (capacity : Int) (stream : TokenStream) : StepBackend Unit where
  unifiedBatchTokenCapacity := capacity
  executeUnifiedBatch _ inputs := (inputs.map fun input => stream input.sequenceId input.nPast, ())

def singleStep (capacity : Int) (stream : TokenStream) (tuning : UnifiedBatchTuning)
    (reqs : List InferenceRequest) : List InferenceRequest :=
  (executeUnifiedBatchStep (perTokenBackend capacity stream) tuning reqs ()).1

def tokenMove (cap : Int) (stream : TokenStream) (req : InferenceRequest) : InferenceRequest :=
  match (buildInput cap req).2 with
  | none => (buildInput cap req).1
  | some input => consumeOutput req input (stream input.sequenceId input.nPast)

theorem scatterOutputs_map (f : UnifiedBatchInput → UnifiedBatchOutput) (built : List Built) :
    scatterOutputs built ((built.filterMap Prod.snd).map f) =
      built.map fun b => match b.2 with
        | none => b.1
        | some input => consumeOutput b.1 input (f input) := by
  induction built with
  | nil => rfl
  | cons b built ih =>
    obtain ⟨req, input⟩ := b
    cases input with
    | none => simpa [scatterOutputs] using ih
    | some input => simpa [scatterOutputs] using ih

variable {reqs : List InferenceRequest}

theorem executeStep_stream {σ : Type} {backend : StepBackend σ} {stream : TokenStream} {cap : Int}
    {s : σ}
    (h : (backend.executeUnifiedBatch s ((reqs.map (buildInput cap)).filterMap Prod.snd)).1 =
      ((reqs.map (buildInput cap)).filterMap Prod.snd).map fun input =>
        stream input.sequenceId input.nPast) :
    (executeStep backend (reqs.map (buildInput cap)) s).1 = reqs.map (tokenMove cap stream) := by
  have hmove (req : InferenceRequest) : (match (buildInput cap req).2 with
      | none => (buildInput cap req).1
      | some input => consumeOutput (buildInput cap req).1 input
          (stream input.sequenceId input.nPast)) = tokenMove cap stream req := by
    unfold tokenMove
    cases hinput : (buildInput cap req).2 with
    | none => rfl
    | some input => simp [buildInput_fst hinput]
  unfold executeStep
  cases hcall : backend.executeUnifiedBatch s ((reqs.map (buildInput cap)).filterMap Prod.snd) with
  | mk step s' =>
    rw [hcall] at h
    obtain rfl : step = _ := h
    dsimp only
    split
    next hempty =>
      have hnone : (reqs.map (buildInput cap)).filterMap Prod.snd = [] := by simpa using hempty
      rw [map_map]
      refine map_congr_left fun req hreq => ?_
      have hinput : (buildInput cap req).2 = none :=
        filterMap_eq_nil_iff.mp hnone _ (mem_map_of_mem hreq)
      simp [tokenMove, hinput]
    next =>
      rw [scatterOutputs_map, map_map]
      exact map_congr_left fun req _ => hmove req

variable (capacity : Int)

theorem executeBurst_perToken (stream : TokenStream) (built : List Built) :
    executeBurst (perTokenBackend capacity stream) built () =
      executeStep (perTokenBackend capacity stream) built () := by
  unfold executeBurst
  split <;> rfl

theorem map_fst_buildInput {cap : Int} (stream : TokenStream)
    (h : (reqs.map (buildInput cap)).find? (·.2.isSome) = none) :
    (reqs.map (buildInput cap)).map Prod.fst = reqs.map (tokenMove cap stream) := by
  rw [map_map]
  refine map_congr_left fun req hreq => ?_
  have hinput : (buildInput cap req).2 = none := by
    simpa using find?_eq_none.mp h _ (mem_map_of_mem hreq)
  simp [tokenMove, hinput]

theorem singleStep_eq (stream : TokenStream) (tuning : UnifiedBatchTuning)
    (reqs : List InferenceRequest) :
    singleStep capacity stream tuning reqs =
      reqs.map (tokenMove (stepCap (perTokenBackend capacity stream) tuning reqs) stream) := by
  unfold singleStep executeUnifiedBatchStep
  dsimp only
  rw [show computePrefillChunkCap (max 1 (perTokenBackend capacity stream).unifiedBatchTokenCapacity)
    (reqs.countP wantsDecode) (reqs.countP wantsPrefill) tuning =
      stepCap (perTokenBackend capacity stream) tuning reqs from rfl]
  generalize stepCap (perTokenBackend capacity stream) tuning reqs = cap
  have hstep : (executeStep (perTokenBackend capacity stream) (reqs.map (buildInput cap)) ()).1 =
      reqs.map (tokenMove cap stream) := executeStep_stream rfl
  split
  next hnone => exact map_fst_buildInput stream hnone
  next =>
    split
    · rw [show (perTokenBackend capacity stream).tryGreedyBurstDecodeTokens = fun s _ _ _ _ => (none, s)
        from rfl]
      dsimp only
      rw [executeBurst_perToken, hstep]
    · rw [executeBurst_perToken, hstep]

/-! ## Requests that decode -/

/-- The request takes part in the next step with its last token. -/
structure Goes (req : InferenceRequest) : Prop where
  inStep : inStep req = true
  cancellationFlag : req.cancellationFlag = false
  inPrefill : req.execution.inPrefill = false
  room : req.execution.tokensGenerated < req.execution.decodeLimit

variable {req : InferenceRequest}

theorem Goes.active_eq_true (h : Goes req) : req.execution.active = true := by
  have := h.inStep
  simp only [Stepwise.inStep, Bool.and_eq_true] at this
  exact this.1.1

theorem goes_iff : Goes req ↔ wantsDecode req = true := by
  simp only [wantsDecode, Bool.and_eq_true, Bool.not_eq_true', decide_eq_true_eq]
  constructor
  · intro h
    exact ⟨⟨⟨h.inStep, h.cancellationFlag⟩, h.inPrefill⟩, h.room⟩
  · rintro ⟨⟨⟨hin, hlive⟩, hpast⟩, hroom⟩
    exact ⟨hin, hlive, hpast, hroom⟩

/-- Outside its prompt a request has an input if it wants to decode. -/
theorem isSome_buildInput (h : wantsPrefill req = false) (cap : Int) :
    (buildInput cap req).2.isSome = wantsDecode req := by
  unfold buildInput
  unfold wantsPrefill at h
  unfold wantsDecode
  grind

theorem Goes.buildInput_eq (h : Goes req) (cap : Int) :
    buildInput cap req = (req, some (decodeInput req)) := by
  simp [buildInput, h.inStep, h.cancellationFlag, h.inPrefill, h.room, decodeInput]

theorem Goes.tokenMove_eq (h : Goes req) (cap : Int) (stream : TokenStream) :
    tokenMove cap stream req =
      consumeOutput req (decodeInput req) (stream req.sequenceId req.nPast) := by
  unfold tokenMove
  rw [h.buildInput_eq]
  rfl

theorem tokenMove_of_not_active (h : req.execution.active = false) (cap : Int)
    (stream : TokenStream) : tokenMove cap stream req = req := by
  simp [tokenMove, buildInput, inStep, h]

section

variable (h : req.execution.inPrefill = false)
include h

/-- The position of a request does not matter to the others, nor does the chunk cap once its prompt
is evaluated. -/
theorem tokenMove_cap (cap cap' : Int) (stream : TokenStream) :
    tokenMove cap stream req = tokenMove cap' stream req := by
  have hbuild : buildInput cap req = buildInput cap' req := by simp [buildInput, h]
  simp [tokenMove, hbuild]

theorem buildInput_past (cap : Int) : (buildInput cap req).1.execution.inPrefill = false := by
  unfold buildInput
  simp only [h, Bool.false_eq_true, if_false]
  split_ifs <;> exact h

theorem tokenMove_past (cap : Int) (stream : TokenStream) :
    (tokenMove cap stream req).execution.inPrefill = false := by
  unfold tokenMove
  split
  · exact buildInput_past h cap
  · exact consumeOutput_past h _ _

end

variable {i : Nat}

theorem getElem?_singleSteps (stream : TokenStream) (tuning : UnifiedBatchTuning)
    (hreq : reqs[i]? = some req) (hdecode : req.execution.inPrefill = false) (n : Nat) :
    ((singleStep capacity stream tuning)^[n] reqs)[i]? = some ((tokenMove 1 stream)^[n] req) := by
  induction n generalizing reqs req with
  | zero => exact hreq
  | succ n ih =>
    refine ih ?_ (tokenMove_past hdecode 1 stream)
    rw [singleStep_eq, getElem?_map, hreq, Option.map_some, tokenMove_cap hdecode]

/-! ## Tokens -/

def Over (req : InferenceRequest) : Prop :=
  req.execution.active = false ∧ req.execution.cause.isSome = true

theorem acceptToken_goes_or_over (h : req.execution.active = true) (token : Int) (piece : Bytes)
    (cancelled : Bool) :
    (acceptToken req token piece cancelled).execution.active = true ∧
        (acceptToken req token piece cancelled).execution.tokensGenerated <
          (acceptToken req token piece cancelled).execution.decodeLimit ∨
      Over (acceptToken req token piece cancelled) := by
  unfold acceptToken Over
  split
  · simp only [setState, ReqState.deactivateIf, ReqState.deactivate]
    grind
  · simp only [setState, ReqState.deactivateIf, ReqState.deactivate]
    grind

theorem sinkToken_same (req : InferenceRequest) (ev : BurstTokenEvent) :
    (sinkToken req ev).sequenceId = req.sequenceId ∧ (sinkToken req ev).nPast = req.nPast + 1 ∧
      (sinkToken req ev).cancellationFlag = req.cancellationFlag :=
  (acceptToken_frame (req.setNPast (req.nPast + 1)) ..).2.2

/-- After a token the request goes on, or it is over. -/
theorem Goes.sinkToken_cases (h : Goes req) (ev : BurstTokenEvent) :
    Goes (sinkToken req ev) ∨ Over (sinkToken req ev) := by
  obtain ⟨-, -, hlive⟩ := sinkToken_same req ev
  have hphase : (sinkToken req ev).phase = req.phase := (acceptToken_frame ..).2.1
  have hactive : (req.setNPast (req.nPast + 1)).execution.active = true := h.active_eq_true
  refine (acceptToken_goes_or_over hactive ev.tokenId ev.piece req.cancellationFlag).imp_left ?_
  rintro ⟨hgoes, hroom⟩
  have hin := h.inStep
  refine ⟨?_, hlive.trans h.cancellationFlag, ?_, hroom⟩
  · simp only [Stepwise.inStep, Bool.and_eq_true] at hin ⊢
    rw [hphase]
    exact ⟨⟨hgoes, hin.1.2⟩, hin.2⟩
  · exact (acceptToken_inPrefill ..).trans h.inPrefill

variable {o : UnifiedBatchOutput}

theorem Goes.consumeOutput_end (h : Goes req) (input : UnifiedBatchInput)
    (hterminal : o.terminal = true) :
    consumeOutput req input o =
      (req.setNPast (req.nPast + 1)).setState (req.execution.deactivate .terminal) := by
  have hend : (!o.ok || decide (o.token < 0)) = true := hterminal
  simp only [consumeOutput, h.inPrefill, hend, Bool.false_eq_true, if_false, if_true]
  rfl

/-! ## The greedy burst -/

/-- The outputs of a greedy burst are those of the calls at the positions from `nPast` on. -/
def GreedyFollows (stream : Int → UnifiedBatchOutput) (nPast : Int) : List BurstDecodeOutput → Prop
  | [] => True
  | out :: outs =>
    if out.terminal || out.token < 0 then (stream nPast).terminal = true
    else Reports { tokenId := out.token, piece := out.piece } (stream nPast) ∧
      GreedyFollows stream (nPast + 1) outs

theorem iterate_tokenMove_of_not_active (h : req.execution.active = false) (stream : TokenStream)
    (n : Nat) : (tokenMove 1 stream)^[n] req = req :=
  iterate_fixed (tokenMove_of_not_active h 1 stream) n

/-- A greedy burst leaves the request as the calls would, but for the token it ends with. -/
theorem Goes.consumeBurst_eq (h : Goes req) (stream : TokenStream) {outs : List BurstDecodeOutput}
    (hfollows : GreedyFollows (stream req.sequenceId) req.nPast outs) :
    let last := (tokenMove 1 stream)^[outs.length] req
    consumeBurst req outs = last ∨
      last.execution.active = false ∧
        ∃ out ∈ outs, (out.terminal || out.token < 0) = true ∧
          consumeBurst req outs = setCurrentToken last out.token := by
  induction outs generalizing req with
  | nil => exact Or.inl rfl
  | cons out outs ih =>
    rw [length_cons, iterate_succ_apply, h.tokenMove_eq, consumeBurst_cons]
    cases hend : out.terminal || decide (out.token < 0) with
    | true =>
      simp only [GreedyFollows, hend, if_true] at hfollows
      rw [h.consumeOutput_end _ hfollows, iterate_tokenMove_of_not_active rfl]
      exact Or.inr ⟨rfl, out, mem_cons_self, hend, rfl⟩
    | false =>
      simp only [GreedyFollows, hend, Bool.false_eq_true, if_false] at hfollows
      obtain ⟨hreports, hrest⟩ := hfollows
      obtain ⟨hsequence, hpast, -⟩ :=
        sinkToken_same req { tokenId := out.token, piece := out.piece }
      rw [consumeOutput_token h.inPrefill _ hreports]
      simp only [Bool.false_eq_true, if_false]
      obtain hgoes | hover := h.sinkToken_cases { tokenId := out.token, piece := out.piece }
      · rw [hgoes.active_eq_true]
        rw [← hsequence, ← hpast] at hrest
        obtain hsame | ⟨hinactive, out', hmem, hrest⟩ := ih hgoes hrest
        · exact Or.inl hsame
        · exact Or.inr ⟨hinactive, out', mem_cons_of_mem _ hmem, hrest⟩
      · rw [hover.1, iterate_tokenMove_of_not_active hover.1]
        exact Or.inl rfl

/-! ## The batch burst -/

def tokensOf (events : List BurstTokenEvent) (j : Nat) : List BurstTokenEvent :=
  events.filter (·.inputIdx = j)

theorem map_snd_modifyActive (f : InferenceRequest → InferenceRequest) (k : Nat)
    (built : List Built) : (modifyActive f k built).map Prod.snd = built.map Prod.snd := by
  fun_induction modifyActive f k built <;> simp_all

theorem inputIndex_burstSink (built : List Built)
    (ev : BurstTokenEvent) (i : Nat) : inputIndex (burstSink built ev) i = inputIndex built i := by
  have hcount (row : List Built) :
      inputIndex row i = ((row.map Prod.snd).take i).countP Option.isSome := by
    rw [← map_take, countP_map]
    rfl
  rw [hcount, hcount, burstSink, map_snd_modifyActive]

theorem inputIndex_foldl_burstSink (events : List BurstTokenEvent) (built : List Built) (i : Nat) :
    inputIndex (events.foldl burstSink built) i = inputIndex built i := by
  induction events generalizing built with
  | nil => rfl
  | cons ev events ih => rw [foldl_cons, ih, inputIndex_burstSink]

variable {built : List Built} {input : UnifiedBatchInput}

def Honours (req : InferenceRequest) : List BurstTokenEvent → Prop
  | [] => True
  | ev :: events => req.execution.active = true ∧ Honours (sinkToken req ev) events

/-- A burst takes a request through the tokens reported for its input, each of them reported while
it goes on if the burst honours the sink. -/
theorem getElem?_foldl_burstSink_eq (events : List BurstTokenEvent)
    (h : built[i]? = some (req, some input)) :
    let tokens := tokensOf events (inputIndex built i)
    (events.foldl burstSink built)[i]? = some (tokens.foldl sinkToken req, some input) ∧
      (SinkHonoured built events → Honours req tokens) := by
  induction events generalizing built req with
  | nil => exact ⟨h, fun _ => trivial⟩
  | cons ev events ih =>
    have hsink : (burstSink built ev)[i]? = _ := getElem?_modifyActive_eq (sinkToken · ev) ev.inputIdx built i
    rw [h, Option.map_some] at hsink
    unfold tokensOf at ih ⊢
    by_cases hat : ev.inputIdx = inputIndex built i
    · rw [if_pos ⟨rfl, hat.symm⟩] at hsink
      have hrest := ih hsink
      rw [inputIndex_burstSink] at hrest
      rw [filter_cons_of_pos (by simpa using hat)]
      exact ⟨hrest.1, fun hhonoured =>
        ⟨hhonoured.1 req (hat ▸ activeAt_inputIndex h), hrest.2 hhonoured.2⟩⟩
    · rw [if_neg fun h => hat h.2.symm] at hsink
      have hrest := ih hsink
      rw [inputIndex_burstSink] at hrest
      rw [filter_cons_of_neg (by simpa using hat)]
      exact ⟨hrest.1, fun hhonoured => hrest.2 hhonoured.2⟩

theorem getElem?_markFinished_eq (finished : List Bool) (built : List Built) (i : Nat) :
    (markFinished built finished)[i]? = built[i]?.map fun b =>
      if b.2.isSome then b.1.setState (b.1.execution.toReqState.deactivateIf
        (finished[inputIndex built i]?.getD false) .terminal) else b.1 := by
  unfold inputIndex
  fun_induction markFinished built finished generalizing i with
  | case1 => simp
  | case2 req built finished ih => cases i with
    | zero => simp
    | succ i => simp [ih]
  | case3 req input built finished ih => cases i with
    | zero => cases finished <;> simp
    | succ i => cases finished <;> simpa using ih i

variable {events : List BurstTokenEvent}

/-- The tokens reported for a request are those of the calls at the positions from `nPast` on. -/
def BurstFollows (stream : Int → UnifiedBatchOutput) (nPast : Int) : List BurstTokenEvent → Prop
  | [] => True
  | ev :: events => Reports ev (stream nPast) ∧ BurstFollows stream (nPast + 1) events

/-- A batch burst takes a request through the calls for the tokens it reports. -/
theorem Goes.foldl_sinkToken (h : Goes req) (stream : TokenStream) (hhonours : Honours req events)
    (hfollows : BurstFollows (stream req.sequenceId) req.nPast events) :
    events.foldl sinkToken req = (tokenMove 1 stream)^[events.length] req ∧
      (Goes (events.foldl sinkToken req) ∧
          (events.foldl sinkToken req).sequenceId = req.sequenceId ∧
          (events.foldl sinkToken req).nPast = req.nPast + events.length ∨
        Over (events.foldl sinkToken req)) := by
  induction events generalizing req with
  | nil => exact ⟨rfl, Or.inl ⟨h, rfl, by simp⟩⟩
  | cons ev events ih =>
    obtain ⟨hreports, hrest⟩ := hfollows
    obtain ⟨hsequence, hpast, -⟩ := sinkToken_same req ev
    rw [foldl_cons, length_cons, iterate_succ_apply, h.tokenMove_eq,
      consumeOutput_token h.inPrefill _ hreports]
    obtain hgoes | hover := h.sinkToken_cases ev
    · rw [← hsequence, ← hpast] at hrest
      obtain ⟨hsame, hcases⟩ := ih hgoes hhonours.2 hrest
      refine ⟨hsame, hcases.imp_left fun ⟨hlast, hseq, hat⟩ => ⟨hlast, hseq.trans hsequence, ?_⟩⟩
      omega
    · cases events with
      | nil => exact ⟨rfl, Or.inr hover⟩
      | cons next events =>
        have hactive := hhonours.2.1
        rw [hover.1] at hactive
        cases hactive

/-- Marking a request finished that is over changes nothing. -/
theorem Over.setState_deactivateIf (h : Over req) (ended : Bool) :
    req.setState (req.execution.toReqState.deactivateIf ended .terminal) = req := by
  obtain ⟨hactive, hcause⟩ := h
  obtain ⟨cause, hcause⟩ := Option.isSome_iff_exists.mp hcause
  have hstate : req.execution.toReqState.deactivate .terminal = req.execution.toReqState := by
    rw [ReqState.deactivate, hcause, Option.some_or, ← hcause, ← hactive]
  cases ended with
  | false => rfl
  | true =>
    rw [ReqState.deactivateIf, if_pos rfl, hstate]
    rfl

/-! ## The step -/

/-- `UnifiedBurstResult`, with the tokens that were passed to the sink. -/
structure UnifiedBurstResult where
  ok : Bool := false
  events : List BurstTokenEvent := []
  finished : List Bool := []
  deriving DecidableEq, Repr

/-- A backend whose bursts can fail after they have reported tokens. -/
structure BurstBackend (σ : Type) extends Backend σ where
  tryGreedyBurstDecodeTokens : σ → Int → Int → Int → Int → Option (List BurstDecodeOutput) × σ
  executeUnifiedBatchBurst : σ → List UnifiedBatchInput → UnifiedBurstResult × σ

namespace BurstBackend

variable {σ : Type} (backend : BurstBackend σ) (tuning : UnifiedBatchTuning)

/-- The backend where the failed bursts have reported nothing. -/
def stepBackend : StepBackend σ :=
  { backend.toBackend with
    tryGreedyBurstDecodeTokens := backend.tryGreedyBurstDecodeTokens
    executeUnifiedBatchBurst := fun s inputs =>
      let (burst, s) := backend.executeUnifiedBatchBurst s inputs
      (if burst.ok then some (burst.events, burst.finished) else none, s) }

/-- The batch burst, if no request of the step is in its prompt. After a burst that failed the
requests are as the sink has left them, and the inputs are those of before. -/
def executeBurst (built : List Built) (s : σ) : List InferenceRequest × σ :=
  if built.any fun b => b.2.isSome && b.1.execution.inPrefill then
    executeStep backend.stepBackend built s
  else
    let (burst, s) := backend.executeUnifiedBatchBurst s (built.filterMap Prod.snd)
    let built := burst.events.foldl burstSink built
    if burst.ok then (markFinished built burst.finished, s)
    else executeStep backend.stepBackend built s

def executeUnifiedBatchStep (reqs : List InferenceRequest) (s : σ) : List InferenceRequest × σ :=
  let activePrefillReqs := reqs.countP wantsPrefill
  let activeDecodeReqs := reqs.countP wantsDecode
  let prefillChunkCap :=
    computePrefillChunkCap (max 1 backend.unifiedBatchTokenCapacity) activeDecodeReqs
      activePrefillReqs tuning
  let built := reqs.map (buildInput prefillChunkCap)
  match built.find? (·.2.isSome) with
  | none => (built.map Prod.fst, s)
  | some (req, _) =>
    if activePrefillReqs = 0 ∧ activeDecodeReqs = 1 then
      match backend.tryGreedyBurstDecodeTokens s req.sequenceId req.nPast req.execution.currentToken
          (max 1 (req.execution.decodeLimit - req.execution.tokensGenerated)) with
      | (some outs, s) =>
        (built.map fun b => if b.2.isSome then consumeBurst b.1 outs else b.1, s)
      | (none, s) => backend.executeBurst built s
    else backend.executeBurst built s

def KeepsPromise : Prop :=
  ∀ s inputs, (backend.executeUnifiedBatchBurst s inputs).1.ok = false →
    (backend.executeUnifiedBatchBurst s inputs).1.events = []

variable {backend}

theorem executeBurst_of_promise (h : backend.KeepsPromise) (built : List Built) (s : σ) :
    backend.executeBurst built s = Stepwise.executeBurst backend.stepBackend built s := by
  unfold executeBurst Stepwise.executeBurst
  split
  · rfl
  · cases hburst : backend.executeUnifiedBatchBurst s (built.filterMap Prod.snd) with
    | mk burst s' =>
      have hempty := h s (built.filterMap Prod.snd)
      rw [hburst] at hempty
      simp only [stepBackend, hburst]
      cases hok : burst.ok with
      | true => simp
      | false =>
        have hnil : burst.events = [] := hempty hok
        simp [hnil]

/-- As long as the promise is kept, the failed bursts leave no trace. -/
theorem executeUnifiedBatchStep_of_promise (h : backend.KeepsPromise)
    (reqs : List InferenceRequest) (s : σ) :
    backend.executeUnifiedBatchStep tuning reqs s =
      Stepwise.executeUnifiedBatchStep backend.stepBackend tuning reqs s := by
  unfold executeUnifiedBatchStep Stepwise.executeUnifiedBatchStep
  simp only [executeBurst_of_promise h]
  rfl

variable (backend)

def greedyBurst (reqs : List InferenceRequest) (s : σ) : Option (List BurstDecodeOutput) × σ :=
  match reqs.find? wantsDecode with
  | some req =>
    if reqs.countP wantsDecode = 1 then
      backend.tryGreedyBurstDecodeTokens s req.sequenceId req.nPast req.execution.currentToken
        (max 1 (req.execution.decodeLimit - req.execution.tokensGenerated))
    else (none, s)
  | none => (none, s)

theorem executeUnifiedBatchStep_eq {reqs : List InferenceRequest}
    (hprompt : reqs.countP wantsPrefill = 0) (hdecode : reqs.countP wantsDecode ≠ 0) (s : σ) :
    let built := reqs.map (buildInput (stepCap backend.stepBackend tuning reqs))
    backend.executeUnifiedBatchStep tuning reqs s =
      match backend.greedyBurst reqs s with
      | (some outs, s) =>
        (built.map fun b => if b.2.isSome then consumeBurst b.1 outs else b.1, s)
      | (none, s) => backend.executeBurst built s := by
  intro built
  have hsome : ∀ req ∈ reqs, (buildInput (stepCap backend.stepBackend tuning reqs) req).2.isSome =
      wantsDecode req := by
    intro req hreq
    have := countP_eq_zero.mp hprompt req hreq
    exact isSome_buildInput (by simpa using this) _
  obtain ⟨req, hfind⟩ : ∃ req, reqs.find? wantsDecode = some req := by
    rw [← Option.isSome_iff_exists, find?_isSome]
    simpa [countP_eq_zero] using hdecode
  have hgoes : Goes req := goes_iff.mpr (find?_some hfind)
  have hfirst : built.find? (·.2.isSome) = some (req, some (decodeInput req)) := by
    have hsame : reqs.find? (fun req =>
        (buildInput (stepCap backend.stepBackend tuning reqs) req).2.isSome) = some req := by
      rw [← head?_filter, filter_congr hsome, head?_filter, hfind]
    rw [find?_map, comp_def, hsame, Option.map_some, hgoes.buildInput_eq]
  unfold executeUnifiedBatchStep greedyBurst
  dsimp only
  rw [show computePrefillChunkCap (max 1 backend.unifiedBatchTokenCapacity)
    (reqs.countP wantsDecode) (reqs.countP wantsPrefill) tuning =
      stepCap backend.stepBackend tuning reqs from rfl, hfirst, hfind]
  dsimp only
  by_cases hone : reqs.countP wantsDecode = 1
  · rw [if_pos ⟨hprompt, hone⟩, if_pos hone]
  · rw [if_neg fun h => hone h.2, if_neg hone]

end BurstBackend

structure BurstOnStream (stream : TokenStream) (cap : Int) (reqs : List InferenceRequest)
    (burst : UnifiedBurstResult) : Prop where
  honoured : SinkHonoured (reqs.map (buildInput cap)) burst.events
  tokens : ∀ i req, reqs[i]? = some req → wantsDecode req = true →
    BurstFollows (stream req.sequenceId) req.nPast
      (tokensOf burst.events (inputIndex (reqs.map (buildInput cap)) i))
  ended : ∀ i req, reqs[i]? = some req → wantsDecode req = true →
    burst.finished[inputIndex (reqs.map (buildInput cap)) i]? = some true →
      let tokens := tokensOf burst.events (inputIndex (reqs.map (buildInput cap)) i)
      Over (tokens.foldl sinkToken req) ∨
        (stream req.sequenceId (req.nPast + tokens.length)).terminal = true

/-- A batch burst leaves a request as the calls would, but for the position of the call that ends
its sequence. -/
theorem getElem?_markFinished_burst {stream : TokenStream} {cap : Int} {burst : UnifiedBurstResult}
    (h : BurstOnStream stream cap reqs burst) (hreq : reqs[i]? = some req)
    (hdecode : wantsDecode req = true) : let built := reqs.map (buildInput cap)
    let n := (tokensOf burst.events (inputIndex built i)).length
    ∃ next, (markFinished (burst.events.foldl burstSink built) burst.finished)[i]? = some next ∧
      (next = (tokenMove 1 stream)^[n] req ∨
        let last := (tokenMove 1 stream)^[n + 1] req
        last.execution.active = false ∧ next = last.setNPast (last.nPast - 1)) := by
  intro built n
  have hgoes := goes_iff.mpr hdecode
  have hbuilt : built[i]? = some (req, some (decodeInput req)) := by
    rw [getElem?_map, hreq, Option.map_some, hgoes.buildInput_eq]
  obtain ⟨hsink, hhonours⟩ := getElem?_foldl_burstSink_eq burst.events hbuilt
  obtain ⟨hsame, hcases⟩ := hgoes.foldl_sinkToken stream (hhonours h.honoured)
    (h.tokens i req hreq hdecode)
  have hended := h.ended i req hreq hdecode
  have hmark := getElem?_markFinished_eq burst.finished (burst.events.foldl burstSink built) i
  simp only [hsink, inputIndex_foldl_burstSink, Option.map_some, Option.isSome_some, if_true] at hmark
  refine ⟨_, hmark, ?_⟩
  dsimp only at hended ⊢
  generalize (tokensOf burst.events (inputIndex built i)).foldl sinkToken req = mid at *
  cases hfinished : burst.finished[inputIndex built i]?.getD false with
  | false => exact Or.inl hsame
  | true =>
    obtain ⟨hmidGoes, hsequence, hpast⟩ | hover := hcases
    · have hsome : burst.finished[inputIndex built i]? = some true := by
        cases hat : burst.finished[inputIndex built i]? with
        | none => simp [hat] at hfinished
        | some ended => simpa [hat] using hfinished
      have hterminal : (stream mid.sequenceId mid.nPast).terminal = true := by
        obtain hover | hterminal := hended hsome
        · have hactive := hmidGoes.active_eq_true
          rw [hover.1] at hactive
          cases hactive
        · rw [hsequence, hpast]
          exact hterminal
      right
      rw [iterate_succ_apply', ← hsame, hmidGoes.tokenMove_eq,
        hmidGoes.consumeOutput_end _ hterminal]
      refine ⟨rfl, ?_⟩
      simp only [setNPast, setState, Int.add_sub_cancel]
      rfl
    · rw [hover.setState_deactivateIf]
      exact Or.inl hsame

theorem executeStep_idle {σ : Type} (backend : StepBackend σ) (h : built[i]? = some (req, none))
    (s : σ) : (executeStep backend built s).1[i]? = some req := by
  unfold executeStep
  dsimp only
  split
  · simp [h]
  · obtain ⟨next, hnext, hsame⟩ := getElem?_scatter scatterOutputs consumeOutput
      (fun _ _ _ => rfl) (fun _ _ _ _ => rfl) _ h
    rw [hnext, hsame]

namespace BurstBackend

variable {σ : Type} {backend : BurstBackend σ} {tuning : UnifiedBatchTuning}
  {reqs : List InferenceRequest} {s s' : σ} {stream : TokenStream}

theorem executeBurst_idle {built : List Built} {i : Nat}
    {req : InferenceRequest} (h : built[i]? = some (req, none)) (s : σ) :
    (backend.executeBurst built s).1[i]? = some req := by
  unfold executeBurst
  split
  · exact executeStep_idle _ h s
  · obtain ⟨req', hsink, -, -, hsame⟩ := getElem?_foldl_burstSink
      (backend.executeUnifiedBatchBurst s (built.filterMap Prod.snd)).1.events h
    obtain rfl := hsame rfl
    dsimp only at hsink ⊢
    split
    · rw [getElem?_markFinished_eq, hsink]
      rfl
    · exact executeStep_idle _ hsink _

theorem executeBurst_eq (hprompt : reqs.countP wantsPrefill = 0) {cap : Int}
    {burst : UnifiedBurstResult} (hburst : backend.executeUnifiedBatchBurst s
      ((reqs.map (buildInput cap)).filterMap Prod.snd) = (burst, s')) :
    backend.executeBurst (reqs.map (buildInput cap)) s =
      if burst.ok then
        (markFinished (burst.events.foldl burstSink (reqs.map (buildInput cap))) burst.finished, s')
      else executeStep backend.stepBackend
        (burst.events.foldl burstSink (reqs.map (buildInput cap))) s' := by
  unfold executeBurst
  rw [if_neg, hburst]
  simp only [any_eq_true, not_exists, not_and, Bool.not_eq_true]
  intro b hb
  obtain ⟨req, hreq, rfl⟩ := mem_map.mp hb
  have hwants : wantsPrefill req = false := by
    simpa using countP_eq_zero.mp hprompt req hreq
  cases hinput : (buildInput cap req).2 with
  | none => simp
  | some input =>
    have hgoes : Goes req := by
      rw [goes_iff, ← isSome_buildInput hwants cap, hinput]
      rfl
    simp [buildInput_fst hinput, hgoes.inPrefill]

end BurstBackend

/-- On the same token stream a burst leaves every request as the single-token steps would, but for
the last call of a sequence: after it a greedy burst has stored another last token, and a batch
burst has not counted a position. A burst that failed without reporting a token is followed by the
single-token step. -/
theorem burst_as_single_steps {σ : Type} (backend : BurstBackend σ) (tuning : UnifiedBatchTuning)
    (stream : TokenStream) (reqs : List InferenceRequest) (s : σ)
    (hprompt : reqs.countP wantsPrefill = 0) (hdecode : reqs.countP wantsDecode ≠ 0) :
    let cap := stepCap backend.stepBackend tuning reqs
    let built := reqs.map (buildInput cap)
    let result := (backend.executeUnifiedBatchStep tuning reqs s).1
    let single := fun n => (singleStep backend.unifiedBatchTokenCapacity stream tuning)^[n] reqs
    (∀ outs s', backend.greedyBurst reqs s = (some outs, s') →
      ∀ (i : Nat) req, reqs[i]? = some req → wantsDecode req = true →
        GreedyFollows (stream req.sequenceId) req.nPast outs →
        ∃ last next, (single outs.length)[i]? = some last ∧ result[i]? = some next ∧
          (next = last ∨ last.execution.active = false ∧ ∃ token, next = setCurrentToken last token)) ∧
    (∀ s₁ burst s', backend.greedyBurst reqs s = (none, s₁) →
      backend.executeUnifiedBatchBurst s₁ (built.filterMap Prod.snd) = (burst, s') →
        (burst.ok = true → BurstOnStream stream cap reqs burst →
          ∀ (i : Nat) req, reqs[i]? = some req → wantsDecode req = true →
            let n := (tokensOf burst.events (inputIndex built i)).length
            ∃ next, result[i]? = some next ∧
              ((single n)[i]? = some next ∨ ∃ last, (single (n + 1))[i]? = some last ∧
                last.execution.active = false ∧ next = last.setNPast (last.nPast - 1))) ∧
        (burst.ok = false → burst.events = [] →
          (backend.executeUnifiedBatch s' (built.filterMap Prod.snd)).1 =
            (built.filterMap Prod.snd).map (fun input => stream input.sequenceId input.nPast) →
          result = single 1)) ∧
    ∀ (i : Nat) req, reqs[i]? = some req → wantsDecode req = false → result[i]? = (single 1)[i]? := by
  intro cap built result single
  have hstep := backend.executeUnifiedBatchStep_eq tuning hprompt hdecode s
  have hone : single 1 = reqs.map (tokenMove cap stream) := singleStep_eq ..
  refine ⟨fun outs s' hgreedy i req hreq hwants hfollows => ?_,
    fun s₁ burst s' hgreedy hburst => ⟨fun hok hon i req hreq hwants => ?_, fun hok hnil hcall => ?_⟩,
    fun i req hreq hwants => ?_⟩
  · have hgoes := goes_iff.mpr hwants
    refine ⟨_, consumeBurst req outs,
      getElem?_singleSteps _ stream tuning hreq hgoes.inPrefill outs.length, ?_, ?_⟩
    · simp [result, hstep, hgreedy, hreq, hgoes.buildInput_eq]
    · obtain hsame | ⟨hinactive, out, -, -, hsame⟩ := hgoes.consumeBurst_eq stream hfollows
      · exact Or.inl hsame
      · exact Or.inr ⟨hinactive, out.token, hsame⟩
  · have hgoes := goes_iff.mpr hwants
    obtain ⟨next, hnext, hcases⟩ := getElem?_markFinished_burst hon hreq hwants
    refine ⟨next, ?_, ?_⟩
    · simp only [result, hstep, hgreedy]
      rw [BurstBackend.executeBurst_eq hprompt hburst, if_pos hok]
      exact hnext
    · obtain hsame | ⟨hinactive, hsame⟩ := hcases
      · left
        rw [hsame]
        exact getElem?_singleSteps _ stream tuning hreq hgoes.inPrefill _
      · exact Or.inr ⟨_, getElem?_singleSteps _ stream tuning hreq hgoes.inPrefill _, hinactive, hsame⟩
  · rw [hone]
    simp only [result, hstep, hgreedy]
    rw [BurstBackend.executeBurst_eq hprompt hburst, if_neg (by simp [hok]), hnil]
    exact executeStep_stream hcall
  · have hidle : (reqs.map (buildInput cap))[i]? = some (tokenMove cap stream req, none) := by
      have hprefill : wantsPrefill req = false := by
        simpa using countP_eq_zero.mp hprompt req (mem_of_getElem? hreq)
      have hnone : (buildInput cap req).2 = none := by
        rw [← Option.not_isSome_iff_eq_none, isSome_buildInput hprefill, hwants]
        exact Bool.false_ne_true
      simp only [getElem?_map, hreq, Option.map_some, tokenMove, hnone, Option.some.injEq]
      exact Prod.ext rfl hnone
    rw [hone, getElem?_map, hreq, Option.map_some]
    simp only [result, hstep]
    cases hgreedy : backend.greedyBurst reqs s with
    | mk outs s₁ =>
      cases outs with
      | none => exact BurstBackend.executeBurst_idle hidle s₁
      | some outs =>
        rw [getElem?_map, hidle]
        rfl

def greedyBackend (stream : Int → UnifiedBatchOutput) (burst : Nat) : BurstBackend Unit where
  unifiedBatchTokenCapacity := 1
  executeUnifiedBatch _ inputs := (inputs.map fun input => stream input.nPast, ())
  tryGreedyBurstDecodeTokens _ _ nPast _ _ :=
    (some ((List.range burst).map fun k : Nat =>
      let o := stream (nPast + k)
      { token := o.token, piece := o.piece, terminal := o.terminal }), ())
  executeUnifiedBatchBurst _ _ := ({}, ())

/-- Two tokens from position `5` on, and the end of the sequence. -/
def twoMoreTokens (nPast : Int) : UnifiedBatchOutput :=
  { token := if nPast < 7 then nPast else -1, piece := if nPast = 5 then [97] else [98], ok := true }

/-- A request that decodes at position `5`, with greedy sampling (temperature `0`). -/
def greedyRequest : InferenceRequest :=
  { nPast := 5, onToken := true
    execution := { initialized := true, active := true, decodeLimit := 10
                   maxNonEmittingSteps := 32 } }

/-- A greedy burst of two tokens and the end of the sequence. -/
theorem burst_as_three_steps :
    ∃ last next,
      ((singleStep 1 (fun _ => twoMoreTokens) {})^[3] [greedyRequest])[0]? = some last ∧
      ((greedyBackend twoMoreTokens 3).executeUnifiedBatchStep {} [greedyRequest] ()).1[0]? =
        some next ∧
      (next = last ∨ last.execution.active = false ∧ ∃ token, next = setCurrentToken last token) :=
  (burst_as_single_steps (greedyBackend twoMoreTokens 3) {} (fun _ => twoMoreTokens)
    [greedyRequest] () (by decide) (by decide)).1 _ () rfl 0 greedyRequest rfl (by decide)
    (by simp [GreedyFollows, Reports, range_succ, terminal, twoMoreTokens, greedyRequest])

/-- A backend on the stream whose batch bursts have the result `burst`. -/
def batchBurstBackend (burst : UnifiedBurstResult) : BurstBackend Unit where
  unifiedBatchTokenCapacity := 1
  executeUnifiedBatch _ inputs := (inputs.map fun input => twoMoreTokens input.nPast, ())
  tryGreedyBurstDecodeTokens _ _ _ _ _ := (none, ())
  executeUnifiedBatchBurst _ _ := (burst, ())

/-- Where a burst differs from the single tokens. A greedy burst that meets the end of the sequence
stores the token `-1`, and a batch burst that meets it does not count its position. After a batch
burst that reports a token and then fails, the next call has the input of before the burst, so the
token is generated and streamed again. -/
theorem burst_differs_from_single_steps :
    let single (n : Nat) := (singleStep 1 (fun _ => twoMoreTokens) {})^[n] [greedyRequest]
    let step (backend : BurstBackend Unit) :=
      (backend.executeUnifiedBatchStep {} [greedyRequest] ()).1
    ((step (greedyBackend twoMoreTokens 3)).map fun req => req.execution.currentToken) = [-1] ∧
      ((single 3).map fun req => req.execution.currentToken) = [6] ∧
    ((step (batchBurstBackend
        { ok := true, finished := [true]
          events := [{ tokenId := 5, piece := [97] }, { tokenId := 6, piece := [98] }] })).map
            fun req => (req.nPast, req.execution.active)) = [(7, false)] ∧
      ((single 3).map fun req => (req.nPast, req.execution.active)) = [(8, false)] ∧
    ((step (batchBurstBackend { ok := false, events := [{ tokenId := 5, piece := [97] }] })).map
        fun req => (req.streamed, req.nPast)) = [([[97], [97]], 7)] ∧
      ((single 2).map fun req => (req.streamed, req.nPast)) = [([[97], [98]], 7)] := by
  decide

end InferFlux.Execution.Stepwise
