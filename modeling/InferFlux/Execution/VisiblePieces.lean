import InferFlux.Execution.BatchRounds
import InferFlux.Execution.SliceTransparency

/-!
# The pieces of a decode loop

Decoding one request, a loop calls the backend for the chunks of the prompt and then for one token
after the other. `visiblePieces` is the list of visible pieces that the backend returns to these
calls, with no stop sequence in sight. A loop that has taken a `Reply` for each call has assembled
its text from this list (`Progress.Takes.reads`), and `unifiedLoop_reads` says that the phased
loop has.
-/

namespace InferFlux.Execution

open InferFlux.Text UnifiedBatchOutput InferenceRequest Bool Slot

/-! ## The pieces that a backend returns -/

inductive Cursor where
  | prompt (offset : Int)
  | token (nPast currentToken : Int)
  deriving DecidableEq, Repr

/-- What an output is to the request: the end of its sequence, the answer to a chunk that is not
the last one, or a token with or without visible text. -/
inductive Reply where
  | ended
  | chunk (next : Cursor)
  | piece (text : Bytes) (next : Cursor)
  | blank (next : Cursor)
  deriving DecidableEq, Repr

def Reply.next? : Reply → Option Cursor
  | .ended => none
  | .chunk next | .piece _ next | .blank next => some next

@[simp] theorem Reply.next?_ended : Reply.ended.next? = none := rfl

@[simp] theorem Reply.next?_chunk (next : Cursor) : (Reply.chunk next).next? = some next := rfl

@[simp] theorem Reply.next?_piece (text : Bytes) (next : Cursor) :
    (Reply.piece text next).next? = some next := rfl

@[simp] theorem Reply.next?_blank (next : Cursor) : (Reply.blank next).next? = some next := rfl

def sampledReply (o : UnifiedBatchOutput) (nPast : Int) : Reply :=
  if o.terminal then .ended
  else if o.visible then .piece o.piece (.token nPast o.token)
  else .blank (.token nPast o.token)

namespace Cursor

def input (sequenceId : Int) (prompt : List Int) (chunkCap : Int) : Cursor → UnifiedBatchInput
  | .prompt offset =>
    let chunkSize := min (prompt.length - offset) chunkCap
    { sequenceId
      nPast := offset
      tokens := (prompt.drop offset.toNat).take chunkSize.toNat
      requestLogits := decide (offset + chunkSize ≥ prompt.length) }
  | .token nPast currentToken => { sequenceId, nPast, tokens := [currentToken] }

def reply (prompt : List Int) (input : UnifiedBatchInput) (o : UnifiedBatchOutput) : Cursor → Reply
  | .prompt offset =>
    let stop := offset + input.tokens.length
    if stop < prompt.length then if o.ok then .chunk (.prompt stop) else .ended
    else sampledReply o stop
  | .token nPast _ => sampledReply o (nPast + 1)

end Cursor

section Pieces

variable {σ : Type} (backend : Backend σ) (sequenceId : Int) (prompt : List Int) (chunkCap : Int)

/-- The visible pieces that the backend returns to a request in at most `rounds` calls, `limit`
of them at most and with fewer than `steps` tokens without visible text. -/
def visiblePieces : Nat → Cursor → Int → Int → σ → List Bytes
  | 0, _, _, _, _ => []
  | rounds + 1, cursor, limit, steps, s =>
    if limit ≤ 0 ∨ steps ≤ 0 then []
    else
      let input := cursor.input sequenceId prompt chunkCap
      match backend.executeUnifiedBatch s [input] with
      | ([], _) => []
      | (o :: _, s) =>
        match cursor.reply prompt input o with
        | .ended => []
        | .chunk next => visiblePieces rounds next limit steps s
        | .piece text next => text :: visiblePieces rounds next (limit - 1) steps s
        | .blank next => visiblePieces rounds next limit (steps - 1) s

variable {limit steps : Int}

theorem visiblePieces_spent (rounds : Nat) (cursor : Cursor) (hspent : limit ≤ 0 ∨ steps ≤ 0)
    (s : σ) :
    visiblePieces backend sequenceId prompt chunkCap rounds cursor limit steps s = [] := by
  cases rounds with
  | zero => rfl
  | succ rounds => rw [visiblePieces, if_pos hspent]

theorem visiblePieces_failed {rounds : Nat} {cursor : Cursor} {s s' : σ}
    (hcall : backend.executeUnifiedBatch s [cursor.input sequenceId prompt chunkCap] = ([], s')) :
    visiblePieces backend sequenceId prompt chunkCap (rounds + 1) cursor limit steps s = [] := by
  simp [visiblePieces, hcall]

def piecesFrom (rounds : Nat) (limit steps : Int) (s : σ) : Reply → List Bytes
  | .ended => []
  | .chunk next => visiblePieces backend sequenceId prompt chunkCap rounds next limit steps s
  | .piece text next =>
    text :: visiblePieces backend sequenceId prompt chunkCap rounds next (limit - 1) steps s
  | .blank next => visiblePieces backend sequenceId prompt chunkCap rounds next limit (steps - 1) s

theorem visiblePieces_answered {rounds : Nat} {cursor : Cursor} {s s' : σ}
    {input : UnifiedBatchInput} {o : UnifiedBatchOutput} {outs : List UnifiedBatchOutput}
    (hlimit : 0 < limit) (hsteps : 0 < steps)
    (hinput : cursor.input sequenceId prompt chunkCap = input)
    (hcall : backend.executeUnifiedBatch s [input] = (o :: outs, s')) :
    visiblePieces backend sequenceId prompt chunkCap (rounds + 1) cursor limit steps s =
      piecesFrom backend sequenceId prompt chunkCap rounds limit steps s'
        (cursor.reply prompt input o) := by
  have hgo : ¬ (limit ≤ 0 ∨ steps ≤ 0) := by omega
  simp only [visiblePieces, hgo, if_false, hinput, hcall]
  rfl

end Pieces

/-! ## Reading a list of pieces -/

structure View where
  req : InferenceRequest
  completion : Bytes
  tokensGenerated : Int

structure View.Same (view view' : View) : Prop where
  text : SameText view.req view'.req
  completion : view.completion = view'.completion
  tokensGenerated : view.tokensGenerated = view'.tokensGenerated

def View.append (view : View) (text : Bytes) : View :=
  let appended := appendGeneratedPiece view.req text view.completion
  ⟨appended.2.1, appended.2.2, view.tokensGenerated + 1⟩

def View.hits (view : View) (text : Bytes) : Bool :=
  (appendGeneratedPiece view.req text view.completion).1

/-- The last view has read the pieces, up to one that completes a stop sequence. -/
structure Reads (view : View) (pieces : List Bytes) (last : View) : Prop where
  text : SameText last.req (assemblePieces view.req view.completion pieces).req
  completion : last.completion = (assemblePieces view.req view.completion pieces).completion
  tokensGenerated : last.tokensGenerated =
    view.tokensGenerated + (assemblePieces view.req view.completion pieces).consumed

theorem View.Same.refl (view : View) : view.Same view := ⟨.refl _, rfl, rfl⟩

theorem View.Same.append {view view' : View} (h : view.Same view') (text : Bytes) :
    (view.append text).Same (view'.append text) ∧ view.hits text = view'.hits text := by
  obtain ⟨hhit, htext, htail⟩ := h.text.appendGeneratedPiece text view'.completion
  obtain ⟨-, hcompletion, htokens⟩ := h
  simp only [View.append, View.hits, hcompletion, htokens]
  exact ⟨⟨htext, htail, rfl⟩, hhit⟩

theorem View.Same.trans {view view' view'' : View} (h : view.Same view') (h' : view'.Same view'') :
    view.Same view'' :=
  ⟨h.text.trans h'.text, h.completion.trans h'.completion,
    h.tokensGenerated.trans h'.tokensGenerated⟩

namespace Reads

variable {view next last : View} {pieces : List Bytes} {text : Bytes}

theorem nil (h : View.Same last view) : Reads view [] last :=
  ⟨h.text, h.completion, by simp [assemblePieces, h.tokensGenerated]⟩

theorem of_same (h : Reads next pieces last) (hsame : View.Same next view) :
    Reads view pieces last := by
  have hagrees := hsame.text.assemblePieces next.completion pieces
  rw [hsame.completion] at hagrees
  obtain ⟨htext, hcompletion, htokens⟩ := h
  rw [hsame.completion] at htext hcompletion htokens
  exact ⟨htext.trans hagrees.req, hcompletion.trans hagrees.completion, by
    rw [htokens, hsame.tokensGenerated, hagrees.consumed]⟩

theorem hit (hvisible : isVisibleGeneratedPiece text = true) (hhit : view.hits text = true)
    (hlast : View.Same last (view.append text)) : Reads view (text :: pieces) last := by
  have hassembly : assemblePieces view.req view.completion (text :: pieces) =
      ⟨(view.append text).req, (view.append text).completion, true, 1⟩ := by
    unfold View.hits at hhit
    simp [assemblePieces, hvisible, hhit, View.append]
  exact ⟨by rw [hassembly]; exact hlast.text, by rw [hassembly]; exact hlast.completion,
    by rw [hassembly]; exact hlast.tokensGenerated⟩

theorem piece (hvisible : isVisibleGeneratedPiece text = true) (hmiss : view.hits text = false)
    (hnext : View.Same next (view.append text)) (h : Reads next pieces last) :
    Reads view (text :: pieces) last := by
  have hassembly : assemblePieces view.req view.completion (text :: pieces) =
      (assemblePieces (view.append text).req (view.append text).completion pieces).after := by
    unfold View.hits at hmiss
    simp [assemblePieces, hvisible, hmiss, View.append]
  obtain ⟨htext, hcompletion, htokens⟩ := h.of_same hnext
  refine ⟨by rw [hassembly]; exact htext, by rw [hassembly]; exact hcompletion, ?_⟩
  rw [hassembly, htokens]
  simp only [View.append, Assembly.after]
  omega

end Reads

/-! ## The progress of a request -/

/-- What a decode loop has made of a request: its text, whether it goes on, and how many visible
tokens and how many tokens without visible text it may still take. -/
structure Progress where
  view : View
  going : Bool
  limit : Int
  steps : Int

namespace Progress

structure Same (progress progress' : Progress) : Prop where
  view : progress.view.Same progress'.view
  going : progress.going = progress'.going
  limit : progress.limit = progress'.limit
  steps : progress.steps = progress'.steps

def Takes (before after : Progress) : Reply → Prop
  | .ended => after.view.Same before.view ∧ after.going = false
  | .chunk _ => after.Same before
  | .piece text _ => isVisibleGeneratedPiece text = true ∧
      after.Same ⟨before.view.append text,
        before.going && !before.view.hits text && decide (1 < before.limit), before.limit - 1,
        before.steps⟩
  | .blank _ => after.Same ⟨before.view, before.going && decide (1 < before.steps), before.limit,
      before.steps - 1⟩

variable {before after after' : Progress} {reply : Reply}

theorem Same.trans (h : before.Same after) (h' : after.Same after') : before.Same after' :=
  ⟨h.view.trans h'.view, h.going.trans h'.going, h.limit.trans h'.limit, h.steps.trans h'.steps⟩

theorem Takes.of_same (h : before.Takes after reply) (hsame : after'.Same after) :
    before.Takes after' reply := by
  cases reply with
  | ended => exact ⟨hsame.view.trans h.1, hsame.going.trans h.2⟩
  | chunk _ => exact hsame.trans h
  | piece _ _ => exact ⟨h.1, hsame.trans h.2⟩
  | blank _ => exact hsame.trans h

/-- A request that goes on after a reply has steps left, and stands somewhere. -/
theorem Takes.goes_on (h : before.Takes after reply) (hsteps : 0 < before.steps)
    (hgoing : after.going = true) : 0 < after.steps ∧ ∃ cursor, reply.next? = some cursor := by
  cases reply with
  | ended => cases h.2.symm.trans hgoing
  | chunk cursor => exact ⟨by rw [h.steps]; exact hsteps, cursor, rfl⟩
  | piece _ cursor => exact ⟨by rw [h.2.steps]; exact hsteps, cursor, rfl⟩
  | blank cursor =>
    have hmore := h.going.symm.trans hgoing
    simp only [and_eq_true, decide_eq_true_eq] at hmore
    have hleft := h.steps
    dsimp only at hleft
    exact ⟨by omega, cursor, rfl⟩

/-- If the rest of a run reads what follows a reply, the run reads the reply and what follows. -/
theorem Takes.reads (h : before.Takes after reply) (hgoing : before.going = true) {σ : Type}
    {backend : Backend σ} {sequenceId : Int} {prompt : List Int} {chunkCap : Int} {rounds : Nat}
    {s : σ} {last : View} (hstop : after.going = false → last.Same after.view)
    (hrest : ∀ cursor, reply.next? = some cursor → after.going = true →
      Reads after.view (visiblePieces backend sequenceId prompt chunkCap rounds cursor after.limit
        after.steps s) last) :
    Reads before.view (piecesFrom backend sequenceId prompt chunkCap rounds before.limit
      before.steps s reply) last := by
  cases reply with
  | ended => exact .nil ((hstop h.2).trans h.1)
  | chunk cursor =>
    obtain ⟨hview, hon, hlimit, hsteps⟩ := h
    have hreads := hrest cursor rfl (hon.trans hgoing)
    rw [hlimit, hsteps] at hreads
    exact hreads.of_same hview
  | piece text cursor =>
    obtain ⟨hvisible, hview, hon, hlimit, hsteps⟩ := h
    cases hhit : before.view.hits text with
    | true =>
      rw [hhit, Bool.not_true, Bool.and_false, Bool.false_and] at hon
      exact .hit hvisible hhit ((hstop hon).trans hview)
    | false =>
      refine .piece hvisible hhit hview ?_
      by_cases hroom : 1 < before.limit
      · have hreads := hrest cursor rfl (by rw [hon, hgoing, hhit, decide_eq_true hroom]; rfl)
        rw [hlimit, hsteps] at hreads
        exact hreads
      · rw [decide_eq_false hroom, Bool.and_false] at hon
        rw [visiblePieces_spent _ _ _ _ _ _ (by omega)]
        exact .nil (hstop hon)
  | blank cursor =>
    obtain ⟨hview, hon, hlimit, hsteps⟩ := h
    by_cases hmore : 1 < before.steps
    · have hreads := hrest cursor rfl (by rw [hon, hgoing, decide_eq_true hmore]; rfl)
      rw [hlimit, hsteps] at hreads
      exact hreads.of_same hview
    · rw [decide_eq_false hmore, Bool.and_false] at hon
      rw [piecesFrom, visiblePieces_spent _ _ _ _ _ _ (by omega)]
      exact .nil ((hstop hon).trans hview)

end Progress

/-! ## The phased loop reads the pieces -/

namespace Slot

def view (slot : Slot) : View := ⟨slot.req, slot.result.completion, slot.state.tokensGenerated⟩

def progress (slot : Slot) : Progress where
  view := slot.view
  going := slot.state.active && decide (slot.state.tokensGenerated < slot.state.decodeLimit)
  limit := slot.state.decodeLimit - slot.state.tokensGenerated
  steps := slot.state.maxNonEmittingSteps - slot.state.nonEmittingSteps

def AtCursor (slot : Slot) : Cursor → Prop
  | .prompt offset => slot.state.inPrefill = true ∧ slot.req.prefillOffset = offset ∧
      0 ≤ offset ∧ offset < slot.req.bpePromptTokens.length ∧
      slot.state.tokensGenerated < slot.state.decodeLimit
  | .token nPast currentToken => slot.state.inPrefill = false ∧ slot.req.nPast = nPast ∧
      slot.state.currentToken = currentToken

structure Stands (sequenceId : Int) (prompt : List Int) (cursor : Cursor) (slot : Slot) : Prop where
  sequenceId : slot.req.sequenceId = sequenceId
  prompt : slot.req.bpePromptTokens = prompt
  cancellationFlag : slot.req.cancellationFlag = false
  atCursor : slot.AtCursor cursor

structure Keeps (slot next : Slot) : Prop where
  fairness : next.req.fairness = slot.req.fairness
  accumulatedOutput : next.req.accumulatedOutput = slot.req.accumulatedOutput
  decodeLimit : next.state.decodeLimit = slot.state.decodeLimit
  maxNonEmittingSteps : next.state.maxNonEmittingSteps = slot.state.maxNonEmittingSteps
  sliceActive : next.state.sliceActive = slot.state.sliceActive

theorem Keeps.refl (slot : Slot) : slot.Keeps slot := ⟨rfl, rfl, rfl, rfl, rfl⟩

theorem Keeps.trans {slot next last : Slot} (h : slot.Keeps next) (h' : next.Keeps last) :
    slot.Keeps last :=
  ⟨h'.fairness.trans h.fairness, h'.accumulatedOutput.trans h.accumulatedOutput,
    h'.decodeLimit.trans h.decodeLimit, h'.maxNonEmittingSteps.trans h.maxNonEmittingSteps,
    h'.sliceActive.trans h.sliceActive⟩

variable {sequenceId : Int} {prompt : List Int} {cursor : Cursor} {slot : Slot}

theorem Stands.unique {cursor' : Cursor} (h : slot.Stands sequenceId prompt cursor)
    (h' : slot.Stands sequenceId prompt cursor') : cursor = cursor' := by
  have hat := h.atCursor
  have hat' := h'.atCursor
  cases cursor <;> cases cursor' <;> simp only [AtCursor] at hat hat' <;> grind

theorem Stands.buildInput (h : slot.Stands sequenceId prompt cursor)
    (hactive : slot.state.active = true)
    (hroom : slot.state.tokensGenerated < slot.state.decodeLimit) {chunkCap : Int}
    (hcap : 1 ≤ chunkCap) :
    slot.buildInput chunkCap = (slot, some (cursor.input sequenceId prompt chunkCap)) := by
  obtain ⟨rfl, rfl, hlive, hat⟩ := h
  cases cursor with
  | prompt offset =>
    obtain ⟨hin, rfl, hnonneg, hlt, -⟩ := hat
    have hsize : ¬ min (slot.req.bpePromptTokens.length - slot.req.prefillOffset) chunkCap ≤ 0 := by
      omega
    simp [buildInput, hactive, hlive, hin, hsize, Cursor.input]
  | token nPast currentToken =>
    obtain ⟨hin, rfl, rfl⟩ := hat
    simp [buildInput, hactive, hlive, hin, hroom, Cursor.input]

theorem limit_pos (h : slot.progress.going = true) : 0 < slot.progress.limit := by
  have hroom := (and_eq_true _ _ ▸ h).2
  exact Int.sub_pos_of_lt (of_decide_eq_true hroom)

structure Takes (slot next : Slot) (reply : Reply) : Prop where
  keeps : slot.Keeps next
  stands : ∀ cursor, reply.next? = some cursor →
    next.Stands slot.req.sequenceId slot.req.bpePromptTokens cursor
  inactive : reply.next? = none → next.state.active = false
  progress : slot.progress.Takes next.progress reply

theorem takes_ended {next : Slot} (hkeeps : slot.Keeps next) (hinactive : next.state.active = false)
    (hview : next.view.Same slot.view) : slot.Takes next .ended := by
  refine ⟨hkeeps, by simp, fun _ => hinactive, hview, ?_⟩
  simp [progress, hinactive]

structure Moved (slot base : Slot) : Prop where
  sequenceId : base.req.sequenceId = slot.req.sequenceId
  prompt : base.req.bpePromptTokens = slot.req.bpePromptTokens
  cancellationFlag : base.req.cancellationFlag = false
  inPrefill : base.state.inPrefill = false
  progress : base.progress.Same slot.progress
  keeps : slot.Keeps base

variable {base : Slot} {o : UnifiedBatchOutput}

theorem Moved.piece (h : slot.Moved base) (hvisible : o.visible = true) :
    slot.Takes (base.acceptToken o false) (.piece o.piece (.token base.req.nPast o.token)) := by
  obtain ⟨happend, hhits⟩ := h.progress.view.append o.piece
  obtain ⟨streamed, a, htext⟩ :=
    appendGeneratedPiece_frame base.req o.piece base.result.completion
  have hstate : (base.acceptToken o false).state = ReqState.deactivateIf { base.state with
      currentToken := o.token, tokensGenerated := base.state.tokensGenerated + 1 }
      (base.view.hits o.piece) .stop := by
    rw [acceptToken_of_visible hvisible]
    rfl
  have hreq : (base.acceptToken o false).req = base.req.setText streamed a := by
    rw [acceptToken_of_visible hvisible]
    exact htext
  have hview : (base.acceptToken o false).view.Same (base.view.append o.piece) := by
    refine ⟨?_, ?_, ?_⟩
    · rw [acceptToken_of_visible hvisible]
      exact .refl _
    · rw [acceptToken_of_visible hvisible]
      rfl
    · simp [view, hstate, View.append]
  refine ⟨h.keeps.trans ?_, ?_, by simp, hvisible, hview.trans happend, ?_, ?_, ?_⟩
  · constructor <;> simp [hstate, hreq, setText]
  · rintro _ ⟨⟩
    rw [← h.sequenceId, ← h.prompt]
    refine ⟨?_, ?_, ?_, ?_⟩
    · simp [hreq, setText]
    · simp [hreq, setText]
    · simpa [hreq, setText] using h.cancellationFlag
    · simp [AtCursor, hstate, hreq, setText, h.inPrefill]
  · rw [← h.progress.going, ← h.progress.limit, ← hhits]
    simp only [Slot.progress, hstate, ReqState.deactivateIf_eq]
    grind
  · rw [← h.progress.limit]
    simp only [Slot.progress, hstate, ReqState.deactivateIf_eq]
    omega
  · rw [← h.progress.steps]
    simp [Slot.progress, hstate]

theorem Moved.blank (h : slot.Moved base) (hvisible : o.visible = false) :
    slot.Takes (base.acceptToken o false) (.blank (.token base.req.nPast o.token)) := by
  rw [acceptToken_invisible _ hvisible]
  refine ⟨h.keeps.trans ?_, ?_, by simp, ⟨h.progress.view.text, h.progress.view.completion, ?_⟩, ?_, ?_,
    ?_⟩
  · constructor <;> simp
  · rintro _ ⟨⟩
    exact ⟨h.sequenceId, h.prompt, h.cancellationFlag, by simp [AtCursor, h.inPrefill]⟩
  · simpa [Slot.progress, Slot.view] using h.progress.view.tokensGenerated
  · rw [← h.progress.going, ← h.progress.steps]
    simp only [Slot.progress, ReqState.deactivateIf_eq]
    grind
  · rw [← h.progress.limit]
    simp [Slot.progress]
  · rw [← h.progress.steps]
    simp only [Slot.progress, ReqState.deactivateIf_eq]
    omega

/-- A sampled output ends the sequence, or the slot accepts its token. -/
theorem Moved.takes (h : slot.Moved base) (o : UnifiedBatchOutput) :
    slot.Takes (if o.terminal then { base with state := base.state.deactivate .terminal }
      else base.acceptToken o false) (sampledReply o base.req.nPast) := by
  unfold sampledReply
  cases hterminal : o.terminal with
  | true => exact takes_ended (h.keeps.trans ⟨rfl, rfl, rfl, rfl, rfl⟩) rfl h.progress.view
  | false =>
    cases hvisible : o.visible with
    | true => exact h.piece hvisible
    | false => exact h.blank hvisible

theorem Stands.consumeOutput (h : slot.Stands sequenceId prompt cursor) (input : UnifiedBatchInput)
    (o : UnifiedBatchOutput) :
    slot.Takes (slot.consumeOutput input o) (cursor.reply prompt input o) := by
  obtain ⟨rfl, rfl, hlive, hat⟩ := h
  cases cursor with
  | token nPast currentToken =>
    obtain ⟨hin, rfl, rfl⟩ := hat
    have hmoved : slot.Moved { slot with req := slot.req.setNPast (slot.req.nPast + 1) } :=
      ⟨rfl, rfl, hlive, hin, ⟨⟨⟨rfl, rfl, rfl, rfl⟩, rfl, rfl⟩, rfl, rfl, rfl⟩, rfl, rfl, rfl, rfl,
        rfl⟩
    rw [consumeOutput_eq ⟨hin, hlive⟩]
    exact hmoved.takes o
  | prompt offset =>
    obtain ⟨hin, rfl, hnonneg, hlt, hroom⟩ := hat
    simp only [consumeOutput, hin, if_true, Cursor.reply]
    by_cases hmore : slot.req.prefillOffset + input.tokens.length < slot.req.bpePromptTokens.length
    · cases hok : o.ok with
      | false =>
        simp only [hmore, Bool.not_false, decide_true, Bool.and_self, if_true, Bool.false_eq_true,
          if_false]
        exact takes_ended ⟨rfl, rfl, rfl, rfl, rfl⟩ rfl (.refl _)
      | true =>
        have hnot : ¬ slot.req.prefillOffset + input.tokens.length ≥
            slot.req.bpePromptTokens.length := by omega
        simp only [hmore, hnot, Bool.not_true, Bool.false_and, Bool.false_eq_true, if_false, if_true]
        refine ⟨⟨rfl, rfl, rfl, rfl, rfl⟩, ?_, by simp, ⟨⟨rfl, rfl, rfl, rfl⟩, rfl, rfl⟩, rfl, rfl, rfl⟩
        rintro _ ⟨⟩
        exact ⟨rfl, rfl, hlive, hin, rfl, by omega, hmore, hroom⟩
    · have hend : slot.req.prefillOffset + input.tokens.length ≥
          slot.req.bpePromptTokens.length := by omega
      have hterminal : (!o.ok || decide (o.token < 0)) = o.terminal := rfl
      simp only [hmore, hend, decide_false, Bool.and_false, Bool.false_eq_true, if_false, if_true,
        hterminal]
      cases o.ok
      all_goals
        refine Moved.takes ?_ o
        exact ⟨rfl, rfl, hlive, rfl, ⟨⟨⟨rfl, rfl, rfl, rfl⟩, rfl, rfl⟩, rfl, rfl, rfl⟩, rfl, rfl, rfl,
          rfl, rfl⟩

end Slot

section PhasedLoop

variable {σ : Type} (backend : Backend σ) (tuning : UnifiedBatchTuning) {sequenceId : Int}
  {prompt : List Int} {cursor : Cursor} {slot : Slot}

/-- The loop on a slot reads what the backend returns from the cursor on. -/
def LoopReads (rounds : Nat) (cursor : Cursor) (slot : Slot) (s : σ) : Prop :=
  ∃ last s', unifiedLoop backend tuning rounds [slot] s = ([last], s') ∧ slot.Keeps last ∧
    Reads slot.view (visiblePieces backend slot.req.sequenceId slot.req.bpePromptTokens
      (promptChunkCap backend.unifiedBatchTokenCapacity tuning) rounds cursor
      slot.progress.limit slot.progress.steps s) last.view

variable (hquiet : backend.Quiet)
include hquiet

theorem unifiedLoop_inactive (hactive : slot.state.active = false) (rounds : Nat) (s : σ) :
    unifiedLoop backend tuning rounds [slot] s = ([slot], s) := by
  cases rounds with
  | zero => rfl
  | succ rounds => simp [unifiedLoop, hquiet.loadSlots, buildInput, hactive]

theorem unifiedLoop_going (h : slot.Stands sequenceId prompt cursor)
    (hactive : slot.state.active = true)
    (hroom : slot.state.tokensGenerated < slot.state.decodeLimit) {input : UnifiedBatchInput}
    (hinput : cursor.input sequenceId prompt
      (promptChunkCap backend.unifiedBatchTokenCapacity tuning) = input) (rounds : Nat) (s : σ) :
    unifiedLoop backend tuning (rounds + 1) [slot] s =
      match backend.executeUnifiedBatch s [input] with
      | ([], s') => ([{ slot with state := slot.state.deactivate .failed }], s')
      | (o :: _, s') => unifiedLoop backend tuning rounds [slot.consumeOutput input o] s' := by
  have hbuild : slot.buildInput (roundCap backend tuning [slot]) = (slot, some input) := by
    subst hinput
    cases cursor with
    | prompt offset =>
      have hin := h.atCursor.1
      have hcap : roundCap backend tuning [slot] =
          promptChunkCap backend.unifiedBatchTokenCapacity tuning := by
        simp [roundCap, wantsDecode, wantsPrefill, hactive, hin, h.cancellationFlag,
          promptChunkCap]
      rw [hcap]
      exact h.buildInput hactive hroom (promptChunkCap_pos ..)
    | token nPast currentToken =>
      exact h.buildInput hactive hroom (one_le_computePrefillChunkCap ..)
  have hinputs : roundInputs backend tuning [slot] = [input] := by simp [roundInputs, hbuild]
  rw [unifiedLoop_round_eq backend tuning rounds (hquiet.loadSlots _ s), hinputs,
    List.map_singleton, hbuild, if_neg (by simp)]
  obtain ⟨step, s'⟩ := backend.executeUnifiedBatch s [input]
  cases step with
  | nil => rfl
  | cons o step => simp [hquiet s', scatterOutputs]

theorem unifiedLoop_ended
    (h : slot.state.active = true → ∃ cursor, slot.Stands sequenceId prompt cursor)
    (hended : slot.progress.going = false) (rounds : Nat) (s : σ) :
    ∃ last, unifiedLoop backend tuning rounds [slot] s = ([last], s) ∧ slot.Keeps last ∧
      last.view.Same slot.view := by
  cases hactive : slot.state.active with
  | false =>
    exact ⟨slot, unifiedLoop_inactive backend tuning hquiet hactive rounds s, .refl slot, .refl _⟩
  | true =>
    cases rounds with
    | zero => exact ⟨slot, rfl, .refl slot, .refl _⟩
    | succ rounds =>
      obtain ⟨cursor, h⟩ := h hactive
      have hfull : ¬ slot.state.tokensGenerated < slot.state.decodeLimit := by
        simpa [progress, hactive] using hended
      cases cursor with
      | prompt offset => exact absurd h.atCursor.2.2.2.2 hfull
      | token nPast currentToken =>
        refine ⟨{ slot with state := slot.state.deactivate .limit }, ?_, ⟨rfl, rfl, rfl, rfl, rfl⟩,
          .refl _, rfl, rfl⟩
        simp [unifiedLoop, hquiet.loadSlots, buildInput, hactive, h.cancellationFlag, h.atCursor.1,
          hfull]

theorem unifiedLoop_replied {rounds : Nat} {next : Slot} {reply : Reply} {s : σ}
    (hloop : ∀ {cursor : Cursor} {slot : Slot}, slot.Stands slot.req.sequenceId
      slot.req.bpePromptTokens cursor → slot.progress.going = true → 0 < slot.progress.steps →
      LoopReads backend tuning rounds cursor slot s)
    (htakes : slot.Takes next reply) (hgoing : slot.progress.going = true)
    (hsteps : 0 < slot.progress.steps) :
    ∃ last s', unifiedLoop backend tuning rounds [next] s = ([last], s') ∧ slot.Keeps last ∧
      Reads slot.view (piecesFrom backend slot.req.sequenceId slot.req.bpePromptTokens
        (promptChunkCap backend.unifiedBatchTokenCapacity tuning) rounds
        slot.progress.limit slot.progress.steps s reply) last.view := by
  cases hnext : next.progress.going with
  | false =>
    have hstands : next.state.active = true → ∃ cursor,
        next.Stands slot.req.sequenceId slot.req.bpePromptTokens cursor := by
      intro hon
      cases hreply : reply.next? with
      | none => cases (htakes.inactive hreply).symm.trans hon
      | some cursor => exact ⟨cursor, htakes.stands cursor hreply⟩
    obtain ⟨last, hrun, hkeeps, hview⟩ := unifiedLoop_ended backend tuning hquiet hstands hnext
      rounds s
    refine ⟨last, s, hrun, htakes.keeps.trans hkeeps,
      htakes.progress.reads hgoing (fun _ => hview) fun _ _ hon => ?_⟩
    cases hnext.symm.trans hon
  | true =>
    obtain ⟨hsteps', cursor, hreply⟩ := htakes.progress.goes_on hsteps hnext
    have hstands := htakes.stands cursor hreply
    obtain ⟨last, t, hrun, hkeeps, hreads⟩ :=
      hloop (by rw [hstands.sequenceId, hstands.prompt]; exact hstands) hnext hsteps'
    refine ⟨last, t, hrun, htakes.keeps.trans hkeeps,
      htakes.progress.reads hgoing (fun hoff => ?_) fun cursor' hreply' _ => ?_⟩
    · cases hnext.symm.trans hoff
    · obtain rfl : cursor = cursor' := Option.some.inj (hreply.symm.trans hreply')
      rw [hstands.sequenceId, hstands.prompt] at hreads
      exact hreads

/-- The loop reads the pieces that the backend returns. -/
theorem unifiedLoop_reads (rounds : Nat)
    (h : slot.Stands slot.req.sequenceId slot.req.bpePromptTokens cursor)
    (hgoing : slot.progress.going = true) (hsteps : 0 < slot.progress.steps) (s : σ) :
    LoopReads backend tuning rounds cursor slot s := by
  induction rounds generalizing cursor slot s with
  | zero => exact ⟨slot, s, rfl, .refl slot, .nil (.refl _)⟩
  | succ rounds ih =>
    have hlimit := limit_pos hgoing
    have hactive : slot.state.active = true := (and_eq_true _ _ ▸ hgoing).1
    obtain ⟨input, hinput⟩ : ∃ input, cursor.input slot.req.sequenceId slot.req.bpePromptTokens
      (promptChunkCap backend.unifiedBatchTokenCapacity tuning) = input := ⟨_, rfl⟩
    unfold LoopReads
    rw [unifiedLoop_going backend tuning hquiet h hactive (Int.lt_of_sub_pos hlimit) hinput]
    cases hcall : backend.executeUnifiedBatch s [input] with
    | mk step s' =>
      cases step with
      | nil =>
        rw [visiblePieces_failed _ _ _ _ (hinput ▸ hcall)]
        exact ⟨_, _, rfl, ⟨rfl, rfl, rfl, rfl, rfl⟩, .nil (.refl _)⟩
      | cons o step =>
        rw [visiblePieces_answered _ _ _ _ hlimit hsteps hinput hcall]
        exact unifiedLoop_replied backend tuning hquiet (fun hat hon hpos => ih hat hon hpos s')
          (h.consumeOutput input o) hgoing hsteps

end PhasedLoop

end InferFlux.Execution
