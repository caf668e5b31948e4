import InferFlux.Execution.VisiblePieces

/-!
# The passes of a decode worker over one request

A pass hands the request the output of one call or, if the backend offers a burst, the outputs of
several. Where the bursts return what single calls would (`BurstsAgree`), the request consumes the
outputs of consecutive calls (`Advances`), so the passes read the same pieces as the phased loop,
and they end (`decodeSteps_reads`).
-/

namespace InferFlux.Execution

open InferFlux.Text UnifiedBatchOutput Slot InferenceRequest List

namespace Stepwise

/-- A request takes the reply that the slot takes which it follows. -/
theorem Follows.takes {slot last : Slot} {ended : Bool} {next : InferenceRequest} {reply : Reply}
    (h : Follows ended next last) (htakes : slot.Takes last reply)
    (hended : ended = true → ∀ nPast token, reply.next? ≠ some (.token nPast token)) :
    slot.Takes (Stepwise.slot next) reply := by
  obtain ⟨nPast, done, cause, rfl, hpast, hdone⟩ := h
  have hstate : (Stepwise.slot ((unslot last done cause).setNPast nPast)).state =
      { last.state with
        active := last.state.active && !done
        cause := if done then last.state.cause.or (some cause) else last.state.cause } :=
    ReqState.deactivateIf_eq ..
  refine ⟨htakes.keeps.trans ⟨rfl, rfl, ?_, ?_, ?_⟩, fun cursor hreply => ?_, fun hreply => ?_,
    htakes.progress.of_same ⟨⟨⟨rfl, rfl, rfl, rfl⟩, rfl, ?_⟩, ?_, ?_, ?_⟩⟩
  · rw [hstate]
  · rw [hstate]
  · rw [hstate]
  · obtain ⟨hseq, hprompt, hlive, hat⟩ := htakes.stands cursor hreply
    refine ⟨hseq, hprompt, hlive, ?_⟩
    cases cursor with
    | prompt offset =>
      simp only [AtCursor, hstate] at hat ⊢
      exact hat
    | token nPast' currentToken =>
      obtain ⟨hin, hat⟩ := hat
      have hnot : ended = false := by
        by_contra hend
        exact hended (Bool.not_eq_false _ ▸ hend) _ _ hreply
      simp only [AtCursor, hstate]
      exact ⟨hin, (hpast hnot hin).trans hat.1, hat.2⟩
  · rw [hstate, htakes.inactive hreply, Bool.false_and]
  · simp [progress, view, hstate]
  · cases hactive : last.state.active with
    | false => simp [progress, hstate, hactive]
    | true =>
      simp only [progress, hdone hactive]
      grind
  · simp [progress, hstate]
  · simp [progress, hstate]

theorem acceptToken_frame (req : InferenceRequest) (token : Int) (piece : Bytes)
    (cancelled : Bool) :
    (acceptToken req token piece cancelled).execution.initialized = req.execution.initialized ∧
      (acceptToken req token piece cancelled).phase = req.phase ∧
      (acceptToken req token piece cancelled).sequenceId = req.sequenceId ∧
      (acceptToken req token piece cancelled).nPast = req.nPast ∧
      (acceptToken req token piece cancelled).cancellationFlag = req.cancellationFlag := by
  obtain ⟨streamed, a, htext⟩ := appendGeneratedPiece_frame req piece req.execution.result.completion
  unfold acceptToken
  cases isVisibleGeneratedPiece piece with
  | true =>
    simp [appendGeneratedPiece, htext, setState, setCompletion, setText]
  | false => exact ⟨rfl, rfl, rfl, rfl, rfl⟩

structure Takes (req next : InferenceRequest) (reply : Reply) : Prop where
  slot : (slot req).Takes (Stepwise.slot next) reply
  initialized : next.execution.initialized = req.execution.initialized
  phase : next.phase = req.phase

variable {sequenceId : Int} {prompt : List Int} {cursor : Cursor} {req : InferenceRequest}
  {o : UnifiedBatchOutput}

theorem Takes.stands {next : InferenceRequest} {reply : Reply} {cursor' : Cursor}
    (h : Takes req next reply) (hstands : (Stepwise.slot req).Stands sequenceId prompt cursor)
    (hnext : reply.next? = some cursor') :
    (Stepwise.slot next).Stands sequenceId prompt cursor' := by
  have hstands' := h.slot.stands _ hnext
  rw [hstands.sequenceId, hstands.prompt] at hstands'
  exact hstands'

theorem takes_accepted {base : InferenceRequest} (h : (slot req).Moved (slot base))
    (hinitialized : base.execution.initialized = req.execution.initialized)
    (hphase : base.phase = req.phase) (hterminal : o.terminal = false) :
    Takes req (acceptToken base o.token o.piece false) (sampledReply o base.nPast) := by
  obtain ⟨hinit, hstage, -⟩ := acceptToken_frame base o.token o.piece false
  have htakes := h.takes o
  rw [hterminal, if_neg (by decide)] at htakes
  exact ⟨(acceptToken_follows (eq_unslot base) h.inPrefill o false false).takes htakes nofun,
    hinit.trans hinitialized, hstage.trans hphase⟩

theorem consumeOutput_takes (h : (slot req).Stands sequenceId prompt cursor)
    (input : UnifiedBatchInput) (o : UnifiedBatchOutput) :
    Takes req (consumeOutput req input o) (cursor.reply prompt input o) := by
  have hfollows := consumeOutput_follows req input o
  have hframe : OutputFrame req ((slot req).consumeOutput input o).req :=
    (slot req).consumeOutput_req input o
  obtain ⟨_, _, _, _, _, _, hreq⟩ := hframe
  refine ⟨hfollows.takes (h.consumeOutput input o) ?_, ?_, ?_⟩
  · intro hterminal nPast token
    cases cursor with
    | token => simp [Cursor.reply, sampledReply, hterminal]
    | prompt offset =>
      simp only [Cursor.reply, sampledReply, hterminal, if_true]
      split_ifs <;> simp
  · obtain ⟨nPast, done, cause, hnext, -⟩ := hfollows
    rw [hnext]
    exact congrArg (·.execution.initialized) hreq
  · obtain ⟨nPast, done, cause, hnext, -⟩ := hfollows
    rw [hnext]
    exact congrArg (·.phase) hreq

section Bursts

variable {σ : Type} (backend : Backend σ)

/-- The outputs of the calls for a sequence, one after the other, each for the token before. -/
def Unrolls (backend : Backend σ) (sequenceId : Int) :
    Int → Int → σ → List UnifiedBatchOutput → σ → Prop
  | _, _, s, [], s' => s' = s
  | nPast, currentToken, s, o :: outs, s' =>
    ∃ rest t, backend.executeUnifiedBatch s [{ sequenceId, nPast, tokens := [currentToken] }] =
        (o :: rest, t) ∧
      (o.terminal = false → Unrolls backend sequenceId (nPast + 1) o.token t outs s')

def output (out : BurstDecodeOutput) : UnifiedBatchOutput :=
  { token := if out.terminal then -1 else out.token, piece := out.piece, ok := true }

/-- The sink is passed the tokens of the outputs until the sequence ends or it refuses. -/
def Delivers (req : InferenceRequest) : List UnifiedBatchOutput → List BurstTokenEvent → Bool → Prop
  | [], events, finished => events = [] ∧ finished = false
  | o :: outs, events, finished =>
    if o.terminal then events = [] ∧ finished = true
    else
      let event : BurstTokenEvent := { tokenId := o.token, piece := o.piece }
      ∃ rest, events = event :: rest ∧
        if (sinkToken req event).execution.active then
          Delivers (sinkToken req event) outs rest finished
        else rest = []

def decodeInput (req : InferenceRequest) : UnifiedBatchInput :=
  { sequenceId := req.sequenceId, nPast := req.nPast, tokens := [req.execution.currentToken] }

/-- The bursts for a request return what the calls for its tokens would. -/
structure BurstsAgree (backend : StepBackend σ) (req : InferenceRequest) (s : σ) : Prop where
  greedy : match backend.tryGreedyBurstDecodeTokens s req.sequenceId req.nPast
      req.execution.currentToken
      (max 1 (req.execution.decodeLimit - req.execution.tokensGenerated)) with
    | (none, s') => s' = s
    | (some outs, s') => outs ≠ [] ∧ Unrolls backend.toBackend req.sequenceId req.nPast
        req.execution.currentToken s (outs.map output) s'
  burst : match backend.executeUnifiedBatchBurst s [decodeInput req] with
    | (none, s') => s' = s
    | (some (events, finished), s') => ∃ outs, outs ≠ [] ∧ Unrolls backend.toBackend req.sequenceId
        req.nPast req.execution.currentToken s outs s' ∧
        Delivers req outs events (finished.headD false)

end Bursts

section Steps

variable {σ : Type} (backend : StepBackend σ) (tuning : UnifiedBatchTuning)

/-- A request that is decoded step by step, at a cursor. -/
structure InFlight (sequenceId : Int) (prompt : List Int) (cursor : Cursor)
    (req : InferenceRequest) : Prop where
  initialized : req.execution.initialized = true
  phase : req.phase ≠ .finished ∧ req.phase ≠ .aborted
  stands : (slot req).Stands sequenceId prompt cursor
  going : (slot req).progress.going = true
  steps : 0 < (slot req).progress.steps

/-- The request at the cursor consumed the outputs of so many calls. After the last one the state
is that of the backend, unless the request is done. -/
inductive Advances (sequenceId : Int) (prompt : List Int) (chunkCap : Int) :
    Cursor → InferenceRequest → σ → Nat → InferenceRequest → σ → Prop
  | call {req next : InferenceRequest} {s t s' : σ} {cursor : Cursor} {input : UnifiedBatchInput}
      {o : UnifiedBatchOutput} {rest : List UnifiedBatchOutput}
      (hinput : cursor.input sequenceId prompt chunkCap = input)
      (hcall : backend.executeUnifiedBatch s [input] = (o :: rest, t))
      (takes : Takes req next (cursor.reply prompt input o))
      (hstate : (slot next).progress.going = true → s' = t) :
      Advances sequenceId prompt chunkCap cursor req s 1 next s'
  | cons {req mid next : InferenceRequest} {s t s' : σ} {n : Nat} {cursor cursor' : Cursor}
      {input : UnifiedBatchInput} {o : UnifiedBatchOutput} {rest : List UnifiedBatchOutput}
      (hinput : cursor.input sequenceId prompt chunkCap = input)
      (hcall : backend.executeUnifiedBatch s [input] = (o :: rest, t))
      (takes : Takes req mid (cursor.reply prompt input o))
      (hgoing : (slot mid).progress.going = true)
      (hnext : (cursor.reply prompt input o).next? = some cursor')
      (hrest : Advances sequenceId prompt chunkCap cursor' mid t n next s') :
      Advances sequenceId prompt chunkCap cursor req s (n + 1) next s'

def Pass (before after : InferenceRequest × σ) : Prop :=
  shouldContinueUnifiedDecodeStep before.1 = true ∧
    ∃ next s', executeUnifiedBatchStep backend tuning [before.1] before.2 = ([next], s') ∧
      after = (syncUnifiedDecodeStepProgress next, s')

variable {backend} {chunkCap nPast currentToken : Int} {s s' : σ}

theorem going_acceptToken (req : InferenceRequest) (token : Int) (piece : Bytes)
    (cancelled : Bool) :
    (slot (acceptToken req token piece cancelled)).progress.going =
      (acceptToken req token piece cancelled).execution.active := by
  unfold acceptToken
  cases isVisibleGeneratedPiece piece with
  | true | false => simp [progress, slot, setState]

def setCurrentToken (req : InferenceRequest) (token : Int) : InferenceRequest :=
  req.setState { req.execution.toReqState with currentToken := token }

theorem acceptToken_setCurrentToken (req : InferenceRequest) (token : Int) (piece : Bytes)
    (cancelled : Bool) : acceptToken (setCurrentToken req token) token piece cancelled =
      acceptToken req token piece cancelled := by
  have hframe : TextFrame (setCurrentToken · token) :=
    ⟨fun _ => rfl, fun _ => rfl, fun _ => rfl, fun _ => rfl, fun _ _ _ => rfl⟩
  have happend := hframe.appendGeneratedPiece req piece req.execution.result.completion
  have hcompletion : (setCurrentToken req token).execution.result.completion =
    req.execution.result.completion := rfl
  unfold acceptToken
  simp only [appendGeneratedPiece, hcompletion, happend]
  rfl

theorem consumeBurst_cons (req : InferenceRequest) (out : BurstDecodeOutput)
    (outs : List BurstDecodeOutput) :
    consumeBurst req (out :: outs) =
      if out.terminal || out.token < 0 then
        setCurrentToken ((req.setNPast (req.nPast + 1)).setState (req.execution.deactivate .terminal))
          out.token
      else
        let next := sinkToken req { tokenId := out.token, piece := out.piece }
        if !next.execution.active then next else consumeBurst next outs := by
  have haccept : sinkToken req { tokenId := out.token, piece := out.piece } = _ :=
    (acceptToken_setCurrentToken (req.setNPast (req.nPast + 1)) ..).symm
  rw [haccept]
  rfl

def Reports (ev : BurstTokenEvent) (o : UnifiedBatchOutput) : Prop :=
  o.terminal = false ∧ o.token = ev.tokenId ∧ o.piece = ev.piece

theorem consumeOutput_token (h : req.execution.inPrefill = false) (input : UnifiedBatchInput)
    {ev : BurstTokenEvent} (hev : Reports ev o) : consumeOutput req input o = sinkToken req ev := by
  obtain ⟨hterminal, htoken, hpiece⟩ := hev
  have hend : (!o.ok || decide (o.token < 0)) = false := hterminal
  simp only [consumeOutput, h, hend, Bool.false_eq_true, if_false]
  rw [htoken, hpiece]
  rfl

theorem terminal_output (out : BurstDecodeOutput) :
    (output out).terminal = (out.terminal || decide (out.token < 0)) := by
  cases hterminal : out.terminal <;> simp [output, terminal, hterminal]

theorem reports_output {out : BurstDecodeOutput} (hterminal : (output out).terminal = false) :
    Reports { tokenId := out.token, piece := out.piece } (output out) := by
  refine ⟨hterminal, ?_, rfl⟩
  rw [terminal_output, Bool.or_eq_false_iff] at hterminal
  simp [output, hterminal.1]

theorem next?_sampledReply (hterminal : o.terminal = false) (nPast : Int) :
    (sampledReply o nPast).next? = some (.token nPast o.token) := by
  unfold sampledReply
  rw [hterminal]
  cases o.visible <;> rfl

theorem sinkToken_takes (h : (slot req).Stands sequenceId prompt (.token nPast currentToken))
    {ev : BurstTokenEvent} (hev : Reports ev o) :
    Takes req (sinkToken req ev) (sampledReply o (nPast + 1)) ∧
      (slot (sinkToken req ev)).Stands sequenceId prompt (.token (nPast + 1) o.token) ∧
      (slot (sinkToken req ev)).progress.going = (sinkToken req ev).execution.active := by
  have htakes := consumeOutput_takes h {} o
  rw [consumeOutput_token h.atCursor.1 {} hev] at htakes
  exact ⟨htakes, htakes.stands h (next?_sampledReply hev.1 _), going_acceptToken ..⟩

/-- A greedy burst is consumed as the outputs of its calls. -/
theorem consumeBurst_advances {outs : List BurstDecodeOutput}
    (h : (slot req).Stands sequenceId prompt (.token nPast currentToken)) (hne : outs ≠ [])
    (hunrolls : Unrolls backend.toBackend sequenceId nPast currentToken s (outs.map output) s') :
    ∃ n, Advances backend sequenceId prompt chunkCap (.token nPast currentToken) req s n
      (consumeBurst req outs) s' := by
  induction outs generalizing req nPast currentToken s with
  | nil => exact absurd rfl hne
  | cons out outs ih =>
    obtain ⟨rest, t, hcall, hrest⟩ := hunrolls
    rw [consumeBurst_cons, ← terminal_output out]
    cases hterminal : (output out).terminal with
    | true =>
      refine ⟨1, .call rfl hcall ?_ fun hon => absurd hon Bool.false_ne_true⟩
      rw [Cursor.reply, sampledReply, hterminal]
      exact ⟨takes_ended ⟨rfl, rfl, rfl, rfl, rfl⟩ rfl ⟨⟨rfl, rfl, rfl, rfl⟩, rfl, rfl⟩, rfl, rfl⟩
    | false =>
      obtain ⟨htakes, hstands, hgoing⟩ := sinkToken_takes h (reports_output hterminal)
      generalize sinkToken req { tokenId := out.token, piece := out.piece } = next
        at htakes hstands hgoing ⊢
      simp only [Bool.false_eq_true, if_false]
      cases hactive : next.execution.active with
      | false =>
        refine ⟨1, .call rfl hcall htakes fun hon => ?_⟩
        cases (hgoing.trans hactive).symm.trans hon
      | true =>
        cases outs with
        | nil => exact ⟨1, .call rfl hcall htakes fun _ => hrest hterminal⟩
        | cons out' outs =>
          obtain ⟨n, hadvances⟩ := ih hstands (by simp) (hrest hterminal)
          exact ⟨n + 1, .cons rfl hcall htakes (hgoing.trans hactive)
            (next?_sampledReply hterminal _) hadvances⟩

variable {next : InferenceRequest}

theorem Takes.finished {reply : Reply} (h : Takes req next reply)
    (hactive : next.execution.active = false) (ended : Bool) :
    Takes req (next.setState (next.execution.toReqState.deactivateIf ended .terminal)) reply := by
  have hfollows : Follows false (next.setState (next.execution.toReqState.deactivateIf ended
      .terminal)) (Stepwise.slot next) :=
    ⟨next.nPast, ended, .terminal, rfl, fun _ _ => rfl, fun hon => absurd (hactive.symm.trans hon) (by decide)⟩
  exact ⟨hfollows.takes h.slot nofun, h.initialized, h.phase⟩

theorem burst_advances {outs : List UnifiedBatchOutput} {events : List BurstTokenEvent}
    {finished : List Bool} (h : (slot req).Stands sequenceId prompt (.token nPast currentToken))
    (hne : outs ≠ []) (hunrolls : Unrolls backend.toBackend sequenceId nPast currentToken s outs s')
    (hdelivers : Delivers req outs events (finished.headD false)) (input : UnifiedBatchInput) :
    ∃ n next, markFinished (events.foldl burstSink [(req, some input)]) finished = [next] ∧
      Advances backend sequenceId prompt chunkCap (.token nPast currentToken) req s n next s' := by
  induction outs generalizing req nPast currentToken s events with
  | nil => exact absurd rfl hne
  | cons o outs ih =>
    obtain ⟨rest, t, hcall, hrest⟩ := hunrolls
    have hmark (req : InferenceRequest) : markFinished [(req, some input)] finished =
        [req.setState (req.execution.toReqState.deactivateIf (finished.headD false) .terminal)] := rfl
    unfold Delivers at hdelivers
    cases hterminal : o.terminal with
    | true =>
      rw [hterminal, if_pos rfl] at hdelivers
      obtain ⟨rfl, hfinished⟩ := hdelivers
      refine ⟨1, _, hmark req, .call rfl hcall ?_ ?_⟩
      · rw [Cursor.reply, sampledReply, hterminal, hfinished]
        exact ⟨takes_ended ⟨rfl, rfl, rfl, rfl, rfl⟩ rfl ⟨⟨rfl, rfl, rfl, rfl⟩, rfl, rfl⟩, rfl, rfl⟩
      · rw [hfinished]
        exact fun hon => absurd hon Bool.false_ne_true
    | false =>
      rw [hterminal, if_neg (by decide)] at hdelivers
      obtain ⟨events, rfl, hdelivers⟩ := hdelivers
      obtain ⟨htakes, hstands, hgoing⟩ := sinkToken_takes h
        (show Reports { tokenId := o.token, piece := o.piece } o from ⟨hterminal, rfl, rfl⟩)
      have hfold : (({ tokenId := o.token, piece := o.piece } : BurstTokenEvent) :: events).foldl
          burstSink [(req, some input)] = events.foldl burstSink
            [(sinkToken req { tokenId := o.token, piece := o.piece }, some input)] := rfl
      rw [hfold]
      generalize sinkToken req { tokenId := o.token, piece := o.piece } = next
        at hdelivers htakes hstands hgoing ⊢
      cases hactive : next.execution.active with
      | false =>
        rw [hactive, if_neg (by decide)] at hdelivers
        subst hdelivers
        refine ⟨1, _, hmark next, .call rfl hcall (htakes.finished hactive _) ?_⟩
        simp [progress, slot, setState, hactive]
      | true =>
        rw [hactive, if_pos rfl] at hdelivers
        cases outs with
        | nil =>
          obtain ⟨rfl, hfinished⟩ := hdelivers
          refine ⟨1, next, ?_, .call rfl hcall htakes fun _ => hrest hterminal⟩
          rw [foldl_nil, hmark, hfinished]
          rfl
        | cons o' outs =>
          obtain ⟨n, last, hrun, hadvances⟩ := ih hstands (by simp) (hrest hterminal) hdelivers
          exact ⟨n + 1, last, hrun, .cons rfl hcall htakes (hgoing.trans hactive)
            (next?_sampledReply hterminal _) hadvances⟩

def StepOutcome (backend : StepBackend σ) (sequenceId : Int) (prompt : List Int) (chunkCap : Int)
    (cursor : Cursor) (req : InferenceRequest) (s : σ) (outcome : List InferenceRequest × σ) : Prop :=
  ∃ next, outcome.1 = [next] ∧
    (backend.executeUnifiedBatch s [cursor.input sequenceId prompt chunkCap] = ([], outcome.2) ∧
        next = req.setState (req.execution.deactivate .failed) ∨
      ∃ n, Advances backend sequenceId prompt chunkCap cursor req s n next outcome.2)

variable {input : UnifiedBatchInput}

theorem executeStep_outcome (h : (slot req).Stands sequenceId prompt cursor)
    (hinput : cursor.input sequenceId prompt chunkCap = input) (s : σ) :
    StepOutcome backend sequenceId prompt chunkCap cursor req s
      (executeStep backend [(req, some input)] s) := by
  have hinputs : [(req, some input)].filterMap Prod.snd = [input] := rfl
  rw [executeStep, hinputs]
  subst hinput
  cases hanswer : backend.executeUnifiedBatch s [cursor.input sequenceId prompt chunkCap] with
  | mk step s' =>
    cases step with
    | nil => exact ⟨_, rfl, .inl ⟨hanswer, rfl⟩⟩
    | cons o step =>
      exact ⟨_, rfl, .inr ⟨1, .call rfl hanswer (consumeOutput_takes h _ o) fun _ => rfl⟩⟩

theorem buildInput_of_stands (h : (slot req).Stands sequenceId prompt cursor)
    (hin : inStep req = true)
    (hroom : req.execution.tokensGenerated < req.execution.decodeLimit) (hcap : 1 ≤ chunkCap) :
    buildInput chunkCap req = (req, some (cursor.input sequenceId prompt chunkCap)) := by
  have hinput := (buildInput_slot hin chunkCap).1
  rw [h.buildInput (active_of_inStep hin) hroom hcap] at hinput
  exact Prod.ext (buildInput_fst hinput) hinput

/-- A step of one request after a token tries the bursts first. -/
theorem executeUnifiedBatchStep_decode
    (h : (slot req).Stands sequenceId prompt (.token nPast currentToken)) (hin : inStep req = true)
    (hroom : req.execution.tokensGenerated < req.execution.decodeLimit)
    (hagree : BurstsAgree backend req s) :
    StepOutcome backend sequenceId prompt (promptChunkCap backend.unifiedBatchTokenCapacity tuning)
      (.token nPast currentToken) req s (executeUnifiedBatchStep backend tuning [req] s) := by
  have hprompt : req.execution.inPrefill = false := h.atCursor.1
  have hlive : req.cancellationFlag = false := h.cancellationFlag
  have hprefill : [req].countP wantsPrefill = 0 := by simp [wantsPrefill, hprompt]
  have hdecode : [req].countP wantsDecode = 1 := by simp [wantsDecode, hin, hlive, hprompt, hroom]
  have hseq : req.sequenceId = sequenceId := h.sequenceId
  have hpast : req.nPast = nPast := h.atCursor.2.1
  have htoken : req.execution.currentToken = currentToken := h.atCursor.2.2
  have hbuild (cap : Int) : buildInput cap req = (req, some (decodeInput req)) := by
    simp [buildInput, hin, hlive, hprompt, hroom, decodeInput]
  have hany : ¬ ([(req, some (decodeInput req))].any fun b =>
      b.2.isSome && b.1.execution.inPrefill) = true := by
    simp [hprompt]
  obtain ⟨hgreedy, hburst⟩ := hagree
  simp only [executeUnifiedBatchStep, hprefill, hdecode, map_cons, map_nil, hbuild,
    find?_cons, Option.isSome_some, and_self, if_true]
  rw [hseq, hpast, htoken] at hgreedy ⊢
  rw [hseq, hpast, htoken] at hburst
  generalize backend.tryGreedyBurstDecodeTokens s sequenceId nPast currentToken
    (max 1 (req.execution.decodeLimit - req.execution.tokensGenerated)) = answer at hgreedy ⊢
  obtain ⟨outs, s'⟩ := answer
  cases outs with
  | some outs => exact ⟨_, rfl, .inr (consumeBurst_advances h hgreedy.1 hgreedy.2)⟩
  | none =>
    obtain rfl : s' = s := hgreedy
    dsimp only
    rw [executeBurst, if_neg hany]
    have hinputs : [(req, some (decodeInput req))].filterMap Prod.snd = [decodeInput req] := rfl
    rw [hinputs]
    generalize backend.executeUnifiedBatchBurst s' [decodeInput req] = answer at hburst ⊢
    obtain ⟨answer, s⟩ := answer
    cases answer with
    | none =>
      obtain rfl : s = s' := hburst
      refine executeStep_outcome h ?_ s
      simp [Cursor.input, decodeInput, hseq, hpast, htoken]
    | some answer =>
      obtain ⟨outs, hne, hunrolls, hdelivers⟩ := hburst
      obtain ⟨n, next, hrun, hadvances⟩ := burst_advances h hne hunrolls hdelivers _
      exact ⟨next, hrun, .inr ⟨n, hadvances⟩⟩

theorem executeUnifiedBatchStep_outcome (h : InFlight sequenceId prompt cursor req)
    (hagree : BurstsAgree backend req s) :
    StepOutcome backend sequenceId prompt (promptChunkCap backend.unifiedBatchTokenCapacity tuning)
      cursor req s (executeUnifiedBatchStep backend tuning [req] s) := by
  obtain ⟨hinitialized, hphase, hstands, hgoing, -⟩ := h
  have hgoing : (req.execution.active &&
    decide (req.execution.tokensGenerated < req.execution.decodeLimit)) = true := hgoing
  rw [Bool.and_eq_true, decide_eq_true_eq] at hgoing
  obtain ⟨hactive, hroom⟩ := hgoing
  have hin : inStep req = true := by simp [inStep, hactive, hphase.1, hphase.2]
  have hlive : req.cancellationFlag = false := hstands.cancellationFlag
  cases cursor with
  | prompt offset =>
    have hprompt : req.execution.inPrefill = true := hstands.atCursor.1
    have hprefill : [req].countP wantsPrefill = 1 := by simp [wantsPrefill, hin, hlive, hprompt]
    have hdecode : [req].countP wantsDecode = 0 := by simp [wantsDecode, hprompt]
    have hbuild := buildInput_of_stands hstands hin hroom
      (promptChunkCap_pos backend.unifiedBatchTokenCapacity tuning)
    have hstep : executeUnifiedBatchStep backend tuning [req] s =
        executeStep backend [(req, some ((Cursor.prompt offset).input sequenceId prompt
          (promptChunkCap backend.unifiedBatchTokenCapacity tuning)))] s := by
      have hcap : computePrefillChunkCap (max 1 backend.unifiedBatchTokenCapacity) (0 : Nat) (1 : Nat)
        tuning = promptChunkCap backend.unifiedBatchTokenCapacity tuning := rfl
      simp only [executeUnifiedBatchStep, hprefill, hdecode, hcap, map_cons, map_nil, hbuild]
      simp [executeBurst, hprompt]
    rw [hstep]
    exact executeStep_outcome hstands rfl s
  | token nPast currentToken => exact executeUnifiedBatchStep_decode tuning hstands hin hroom hagree

/-- If the rest of a run reads what follows the calls, the run reads what they return. -/
theorem Advances.reads {n : Nat}
    (h : Advances backend sequenceId prompt chunkCap cursor req s n next s')
    (hstands : (slot req).Stands sequenceId prompt cursor)
    (hgoing : (slot req).progress.going = true) (hsteps : 0 < (slot req).progress.steps)
    {rounds : Nat} {last : View}
    (hstop : (slot next).progress.going = false → last.Same (slot next).view)
    (hrest : ∀ cursor, (slot next).Stands sequenceId prompt cursor →
      (slot next).progress.going = true → Reads (slot next).view
        (visiblePieces backend.toBackend sequenceId prompt chunkCap rounds cursor
          (slot next).progress.limit (slot next).progress.steps s') last) :
    Reads (slot req).view (visiblePieces backend.toBackend sequenceId prompt chunkCap (rounds + n)
      cursor (slot req).progress.limit (slot req).progress.steps s) last := by
  have hlimit := limit_pos hgoing
  induction h with
  | call hinput hcall takes hstate =>
    rw [visiblePieces_answered _ _ _ _ hlimit hsteps hinput hcall]
    refine takes.slot.progress.reads hgoing hstop fun cursor hreply hon => ?_
    rw [← hstate hon]
    exact hrest cursor (takes.stands hstands hreply) hon
  | cons hinput hcall takes hon hnext hadvances ih =>
    rw [← Nat.add_assoc, visiblePieces_answered _ _ _ _ hlimit hsteps hinput hcall]
    have hsteps' := (takes.slot.progress.goes_on hsteps hon).1
    have hreads := ih (takes.stands hstands hnext) hon hsteps' hstop hrest (limit_pos hon)
    refine takes.slot.progress.reads hgoing (fun hoff => ?_) fun cursor hreply _ => ?_
    · cases hon.symm.trans hoff
    · obtain rfl := Option.some.inj (hnext.symm.trans hreply)
      exact hreads

def promptLeft (prompt : List Int) : Cursor → Nat
  | .prompt offset => (prompt.length - offset).toNat
  | .token _ _ => 0

def callsLeft (prompt : List Int) (cursor : Cursor) (req : InferenceRequest) : Nat :=
  promptLeft prompt cursor + (slot req).progress.limit.toNat + (slot req).progress.steps.toNat

variable {cursor' : Cursor}

/-- A sampled output uses up the limit or a step, and no prompt is left after it. -/
theorem sampledReply_left {before after : Progress} {nPast : Int} (hlimit : 0 < before.limit)
    (hsteps : 0 < before.steps) (h : before.Takes after (sampledReply o nPast))
    (hnext : (sampledReply o nPast).next? = some cursor') (prompt : List Int) :
    promptLeft prompt cursor' = 0 ∧
      after.limit.toNat + after.steps.toNat < before.limit.toNat + before.steps.toNat := by
  unfold sampledReply at h hnext
  split_ifs at h hnext
  · simp at hnext
  · obtain rfl := Option.some.inj hnext
    rw [h.2.limit, h.2.steps]
    exact ⟨rfl, by dsimp only; omega⟩
  · obtain rfl := Option.some.inj hnext
    rw [h.limit, h.steps]
    exact ⟨rfl, by dsimp only; omega⟩

/-- A call brings a request that goes on nearer to its end. -/
theorem callsLeft_lt (hstands : (slot req).Stands sequenceId prompt cursor)
    (hcap : 1 ≤ chunkCap) (hinput : cursor.input sequenceId prompt chunkCap = input)
    (hlimit : 0 < (slot req).progress.limit) (hsteps : 0 < (slot req).progress.steps)
    (h : Takes req next (cursor.reply prompt input o))
    (hnext : (cursor.reply prompt input o).next? = some cursor') :
    callsLeft prompt cursor' next < callsLeft prompt cursor req := by
  have hprogress := h.slot.progress
  unfold callsLeft
  cases cursor with
  | token nPast currentToken =>
    obtain ⟨hzero, hlt⟩ := sampledReply_left hlimit hsteps hprogress hnext prompt
    omega
  | prompt offset =>
    obtain ⟨-, hprompt, -, -, -, hnonneg, hlt, -⟩ := hstands
    unfold Cursor.reply at hprogress hnext
    dsimp only at hprogress hnext
    split_ifs at hprogress hnext with hmore hok
    · obtain rfl := Option.some.inj hnext
      have hlen : (1 : Int) ≤ input.tokens.length := by
        rw [← hinput, Cursor.input, length_take, length_drop]
        omega
      rw [hprogress.limit, hprogress.steps]
      simp only [promptLeft]
      omega
    · simp at hnext
    · obtain ⟨hzero, hlt⟩ := sampledReply_left hlimit hsteps hprogress hnext prompt
      omega

/-- After the calls the request is done, or it stands nearer to its end. -/
theorem Advances.ends {n : Nat}
    (h : Advances backend sequenceId prompt chunkCap cursor req s n next s')
    (hstands : (slot req).Stands sequenceId prompt cursor) (hcap : 1 ≤ chunkCap)
    (hgoing : (slot req).progress.going = true) (hsteps : 0 < (slot req).progress.steps) :
    next.execution.initialized = req.execution.initialized ∧ next.phase = req.phase ∧
      (next.execution.active = true → ∃ cursor', (slot next).Stands sequenceId prompt cursor' ∧
        ((slot next).progress.going = true → 0 < (slot next).progress.steps ∧
          callsLeft prompt cursor' next < callsLeft prompt cursor req)) := by
  have hlimit := limit_pos hgoing
  induction h with
  | @call req next s t s' cursor input o rest hinput hcall takes hstate =>
    refine ⟨takes.initialized, takes.phase, fun hactive => ?_⟩
    cases hreply : (cursor.reply prompt input o).next? with
    | none => cases (takes.slot.inactive hreply).symm.trans hactive
    | some cursor' =>
      refine ⟨cursor', takes.stands hstands hreply, fun hon => ?_⟩
      exact ⟨(takes.slot.progress.goes_on hsteps hon).1,
        callsLeft_lt hstands hcap hinput hlimit hsteps takes hreply⟩
  | cons hinput hcall takes hon hreply hadvances ih =>
    obtain ⟨hinitialized, hphase, hends⟩ := ih (takes.stands hstands hreply) hon
      (takes.slot.progress.goes_on hsteps hon).1 (limit_pos hon)
    refine ⟨hinitialized.trans takes.initialized, hphase.trans takes.phase, fun hactive => ?_⟩
    obtain ⟨cursor', hstands', hleft⟩ := hends hactive
    refine ⟨cursor', hstands', fun hgo => ⟨(hleft hgo).1, Nat.lt_trans (hleft hgo).2 ?_⟩⟩
    exact callsLeft_lt hstands hcap hinput hlimit hsteps takes hreply

/-- The accounting between two steps changes neither the progress of a request nor where it
stands. -/
theorem progress_syncCounts (req : InferenceRequest) :
    (slot (syncCounts req)).progress.Same (slot req).progress :=
  ⟨⟨⟨rfl, rfl, rfl, rfl⟩, rfl, rfl⟩, rfl, rfl, rfl⟩

theorem stands_syncCounts (h : (slot req).Stands sequenceId prompt cursor) :
    (slot (syncCounts req)).Stands sequenceId prompt cursor := by
  refine ⟨h.sequenceId, h.prompt, h.cancellationFlag, ?_⟩
  cases cursor <;> exact h.atCursor

theorem progress_syncUnifiedDecodeStepProgress (req : InferenceRequest) :
    (slot (syncUnifiedDecodeStepProgress req)).progress.Same (slot req).progress := by
  unfold syncUnifiedDecodeStepProgress
  split_ifs
  · exact ⟨.refl _, rfl, rfl, rfl⟩
  · exact ⟨⟨⟨rfl, rfl, rfl, rfl⟩, rfl, rfl⟩, rfl, rfl, rfl⟩
  · exact progress_syncCounts req

theorem stands_syncUnifiedDecodeStepProgress (h : (slot req).Stands sequenceId prompt cursor) :
    (slot (syncUnifiedDecodeStepProgress req)).Stands sequenceId prompt cursor := by
  unfold syncUnifiedDecodeStepProgress
  split_ifs
  · exact h
  · refine ⟨h.sequenceId, h.prompt, h.cancellationFlag, ?_⟩
    cases cursor <;> exact h.atCursor
  · exact stands_syncCounts h

theorem shouldContinue_eq_going (hinitialized : req.execution.initialized = true)
    (hstands : req.execution.active = true → ∃ cursor, (slot req).Stands sequenceId prompt cursor) :
    shouldContinueUnifiedDecodeStep req = (slot req).progress.going := by
  have hprompt : req.execution.active = true → req.execution.inPrefill = true →
      req.execution.tokensGenerated < req.execution.decodeLimit := by
    intro hactive hin
    obtain ⟨cursor, h⟩ := hstands hactive
    cases cursor with
    | prompt offset => exact h.atCursor.2.2.2.2
    | token nPast currentToken => cases h.atCursor.1.symm.trans hin
  unfold shouldContinueUnifiedDecodeStep
  simp only [progress, slot, hinitialized]
  grind

theorem InFlight.shouldContinue (h : InFlight sequenceId prompt cursor req) :
    shouldContinueUnifiedDecodeStep req = true :=
  (shouldContinue_eq_going h.initialized fun _ => ⟨cursor, h.stands⟩).trans h.going

/-- The passes end, and they read the pieces that the backend returns. -/
theorem decodeSteps_reads (h : InFlight sequenceId prompt cursor req)
    (hagree : ∀ req' s', Relation.ReflTransGen (Pass backend tuning) (req, s) (req', s') →
      BurstsAgree backend req' s') :
    ∃ fuel last s', decodeSteps backend tuning fuel req s = some (last, s') ∧
      last.execution.initialized = true ∧ ∃ enough, ∀ rounds, enough ≤ rounds →
        Reads (slot req).view (visiblePieces backend.toBackend sequenceId prompt
          (promptChunkCap backend.unifiedBatchTokenCapacity tuning) rounds cursor
          (slot req).progress.limit (slot req).progress.steps s) (slot last).view := by
  induction hleft : callsLeft prompt cursor req using Nat.strongRecOn generalizing cursor req s with
  | ind left ih =>
    obtain ⟨next, hnext, houtcome⟩ :=
      executeUnifiedBatchStep_outcome tuning h (hagree req s .refl)
    obtain ⟨s', hs'⟩ : ∃ s', (executeUnifiedBatchStep backend tuning [req] s).2 = s' := ⟨_, rfl⟩
    rw [hs'] at houtcome
    have hstep : executeUnifiedBatchStep backend tuning [req] s = ([next], s') :=
      Prod.ext hnext hs'
    have hpass := decodeSteps_pass h.initialized h.shouldContinue hstep
    obtain ⟨hsame, hexec, -, hphase, -⟩ := syncUnifiedDecodeStepProgress_frame next
    have hprogress := progress_syncUnifiedDecodeStepProgress next
    obtain ⟨hcall, rfl⟩ | ⟨n, hadvances⟩ := houtcome
    · have hoff : (syncUnifiedDecodeStepProgress
          (req.setState (req.execution.deactivate .failed))).execution.active = false := by
        rw [hexec]
        rfl
      have hstop : shouldContinueUnifiedDecodeStep (syncUnifiedDecodeStepProgress
          (req.setState (req.execution.deactivate .failed))) = false := by
        simp [shouldContinueUnifiedDecodeStep, hoff]
      refine ⟨1, _, s', (hpass 0).trans (if_neg (by simp [hstop])), ?_, 1, fun rounds hrounds => ?_⟩
      · rw [hexec]
        exact h.initialized
      · obtain ⟨rounds, rfl⟩ : ∃ r, rounds = r + 1 := ⟨rounds - 1, by omega⟩
        rw [visiblePieces_failed _ _ _ _ hcall]
        exact .nil (hprogress.view.trans ⟨⟨rfl, rfl, rfl, rfl⟩, rfl, rfl⟩)
    · obtain ⟨hinitialized, hstage, hends⟩ :=
        hadvances.ends h.stands (promptChunkCap_pos ..) h.going h.steps
      have hcontinue : shouldContinueUnifiedDecodeStep (syncUnifiedDecodeStepProgress next) =
          (slot next).progress.going := by
        rw [← hprogress.going]
        exact shouldContinue_eq_going (by rw [hexec, hinitialized, h.initialized]) fun hactive =>
          (hends (hexec ▸ hactive)).imp fun _ hend => stands_syncUnifiedDecodeStepProgress hend.1
      cases hgoing : (slot next).progress.going with
      | false =>
        refine ⟨1, _, s', (hpass 0).trans (if_neg (by simp [hcontinue, hgoing])), ?_, n,
          fun rounds hrounds => ?_⟩
        · rw [hexec, hinitialized, h.initialized]
        · obtain ⟨rounds, rfl⟩ : ∃ r, rounds = r + n := ⟨rounds - n, by omega⟩
          refine hadvances.reads h.stands h.going h.steps (fun _ => hprogress.view) fun _ _ hon => ?_
          cases hgoing.symm.trans hon
      | true =>
        obtain ⟨cursor', hstands, hleft'⟩ := hends ((Bool.and_eq_true _ _ ▸ hgoing).1)
        obtain ⟨hsteps, hlt⟩ := hleft' hgoing
        have hflight : InFlight sequenceId prompt cursor' (syncUnifiedDecodeStepProgress next) := by
          refine ⟨?_, ?_, stands_syncUnifiedDecodeStepProgress hstands, ?_, ?_⟩
          · rw [hexec, hinitialized, h.initialized]
          · rw [hphase, hstage]
            exact h.phase
          · rw [hprogress.going, hgoing]
          · rw [hprogress.steps]
            exact hsteps
        have hlt' : callsLeft prompt cursor' (syncUnifiedDecodeStepProgress next) < left := by
          rw [callsLeft, hprogress.limit, hprogress.steps, ← hleft]
          exact hlt
        have hone : Pass backend tuning (req, s) (syncUnifiedDecodeStepProgress next, s') :=
          ⟨h.shouldContinue, next, s', hstep, rfl⟩
        obtain ⟨fuel, last, t, hrun, hlast, enough, hreads⟩ := ih _ hlt' hflight
          (fun req' t hpasses => hagree req' t (.head hone hpasses)) rfl
        refine ⟨fuel + 1, last, t, (hpass fuel).trans ?_, hlast, enough + n, fun rounds hrounds => ?_⟩
        · rw [hcontinue, hgoing, if_pos rfl, hrun]
        · obtain ⟨rounds, rfl⟩ : ∃ r, rounds = r + n := ⟨rounds - n, by omega⟩
          refine hadvances.reads h.stands h.going h.steps (fun hoff => ?_) fun cursor hat _ => ?_
          · cases hgoing.symm.trans hoff
          · obtain rfl := hat.unique hstands
            have hrest := hreads rounds (by omega)
            rw [hprogress.limit, hprogress.steps] at hrest
            exact hrest.of_same hprogress.view

end Steps

end Stepwise

end InferFlux.Execution
