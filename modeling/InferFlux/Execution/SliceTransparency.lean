import InferFlux.Execution.Slices

/-!
# Slicing and the unsliced run

A request that is run slice by slice keeps its assembler and its accumulated output, but each
slice matches stop sequences against its own text only, and a slice that has used up its limit
yields even if a stop sequence has just ended the generation. `Transparent` lists what every
slice of a run has to meet; `runRequest_sliced` shows that the run then ends with the
completion, the token count and the streamed text of the unsliced run.
-/

namespace InferFlux.Execution

open InferFlux.Text UnifiedBatchOutput SliceOutcome List Assembly InferenceRequest

/-! ## Text assembly in parts -/

theorem assemblePieces_append (req : InferenceRequest) (completion : Bytes)
    (pieces more : List Bytes) :
    assemblePieces req completion (pieces ++ more) =
      let a := assemblePieces req completion pieces
      if a.stopHit then a
      else
        let b := assemblePieces a.req a.completion more
        { b with consumed := a.consumed + b.consumed } := by
  induction pieces generalizing req completion with
  | nil => simp [assemblePieces]
  | cons piece pieces ih =>
    simp only [cons_append, assemblePieces, ih]
    split_ifs <;> simp_all [Assembly.after, Nat.add_right_comm]

variable {before : Bytes} {stops : List Bytes}

theorem firstHit_eq_none_of_append {text : Bytes} {chunks : List Bytes}
    (hnone : firstHit stops (before ++ text) chunks = none) :
    firstHit stops text chunks = none := by
  induction chunks generalizing text with
  | nil => rfl
  | cons chunk chunks ih =>
    simp only [firstHit, append_assoc] at hnone ⊢
    split at hnone
    · simp at hnone
    · rename_i hend
      have hend' : (if chunk.isEmpty then none else stopEnding stops (text ++ chunk)) = none := by
        split_ifs at hend ⊢
        · rfl
        · rw [stopEnding_eq_none_iff] at hend ⊢
          intro s hs hne hsuf
          exact hend s hs hne (hsuf.trans (suffix_append before _))
      rw [hend']
      simpa using ih (by simpa using hnone)

variable {req : InferenceRequest}

/-- Text that stop matching does not see only stands before the completion. -/
theorem assemblePieces_shift {pieces : List Bytes}
    (hhit : firstHit req.stop before (assembledChunks req.outputUtf8 pieces) =
      firstHit req.stop [] (assembledChunks req.outputUtf8 pieces)) :
    assemblePieces req before pieces =
      { assemblePieces req [] pieces with
        completion := before ++ (assemblePieces req [] pieces).completion } := by
  cases hlocal : firstHit req.stop [] (assembledChunks req.outputUtf8 pieces) with
  | none =>
    rw [assemblePieces_of_none req hlocal, assemblePieces_of_none req (hhit.trans hlocal)]
    simp
  | some hit =>
    obtain ⟨k, s⟩ := hit
    obtain ⟨-, -, hend⟩ := (firstHit_eq_some_iff (stopEnding_nil req.stop)).mp hlocal
    have hlen := (stopEnding_eq_some hend).2.2.length_le
    rw [assemblePieces_of_some req hlocal, assemblePieces_of_some req (hhit.trans hlocal)]
    simp only [nil_append] at hlen ⊢
    generalize ((assembledChunks req.outputUtf8 pieces).take (k + 1)).flatten = text at hlen ⊢
    congr 1
    rw [take_append, take_of_length_le (by simp; omega)]
    congr 2
    simp only [length_append]
    omega

theorem Agrees.finish {a a' : Assembly} (h : Agrees a a') :
    a.finish.completion = a'.finish.completion ∧ a.finish.req.streamed = a'.finish.req.streamed := by
  simp [Assembly.finish, finishGeneratedText_eq, streamed_setText, h.completion, h.req.outputUtf8,
    h.req.streamed, h.req.calls]

/-! ## The outputs sampled in parts -/

variable {limit total : Nat}

/-- With a larger limit the sampling goes on exactly if it has filled the smaller one. -/
theorem sampledUpTo_parts (hle : limit ≤ total) (ls : List UnifiedBatchOutput) :
    sampledUpTo total ls = sampledUpTo limit ls ++
      if (sampledUpTo limit ls).countP visible = limit then
        sampledUpTo (total - limit) (ls.drop (sampledUpTo limit ls).length)
      else [] := by
  induction ls generalizing limit total with
  | nil => simp [sampledUpTo]
  | cons o outs ih =>
    cases limit with
    | zero => simp [sampledUpTo]
    | succ limit =>
      obtain ⟨total, rfl⟩ : ∃ n, total = n + 1 := ⟨total - 1, by omega⟩
      cases hterminal : o.terminal with
      | true => simp [sampledUpTo, hterminal]
      | false =>
        cases hvisible : o.visible with
        | true => simp [sampledUpTo, hterminal, hvisible, ← ih (Nat.le_of_succ_le_succ hle)]
        | false => simpa [sampledUpTo, hterminal, hvisible] using ih hle

variable {ls : List UnifiedBatchOutput}

theorem sampledUpTo_split (hle : limit ≤ total)
    (hfull : (sampledUpTo limit ls).countP visible = limit) :
    sampledUpTo total ls = sampledUpTo limit ls ++
      sampledUpTo (total - limit) (ls.drop (sampledUpTo limit ls).length) := by
  rw [sampledUpTo_parts hle, if_pos hfull]

theorem sampledUpTo_of_short (hle : limit ≤ total)
    (hshort : (sampledUpTo limit ls).countP visible < limit) :
    sampledUpTo total ls = sampledUpTo limit ls := by
  rw [sampledUpTo_parts hle, if_neg (Nat.ne_of_lt hshort), append_nil]

theorem sampledUpTo_append (hle : limit ≤ total) (ls : List UnifiedBatchOutput) :
    ∃ more, sampledUpTo total ls = sampledUpTo limit ls ++ more :=
  ⟨_, sampledUpTo_parts hle ls⟩

/-! ## Transparent slices -/

def SliceSetting.pieces (set : SliceSetting) (remaining : Nat) (ls : List UnifiedBatchOutput) :
    List Bytes :=
  (sampledUpTo (set.limit remaining) ls).map (·.piece)

/-- The text of a slice that ends the generation, flushed, and the pieces sampled for it. -/
def stoppedText (stops : List Bytes) (asm : IncrementalUtf8Assembler) (pieces : List Bytes) :
    Bytes × Nat :=
  let chunks := assembledChunks asm pieces
  match firstHit stops [] chunks with
  | none => (chunks.flatten ++ (assemblerAfter asm pieces).finish.1.text, pieces.length)
  | some (k, s) =>
    let text := (chunks.take (k + 1)).flatten
    (text.take (text.length - s.length) ++
      (assemblerAfter asm (pieces.take (k + 1))).finish.1.text, k + 1)

/-- The last slice of a resumed request adds its text to what has been accumulated: an empty
text needs some accumulated output, and another text some token and no reserved message. -/
def Kept (before text : Bytes) (tokens : Nat) : Prop :=
  if text = [] then before ≠ [] else 0 < tokens ∧ isNonAccumulatingCompletion text = false

instance (before text : Bytes) (tokens : Nat) : Decidable (Kept before text tokens) :=
  inferInstanceAs (Decidable (if text = [] then before ≠ [] else
    0 < tokens ∧ isNonAccumulatingCompletion text = false))

/-- What every slice of a run meets, from slice `i` on: `remaining` tokens are to go, `before`
is the text accumulated so far and `asm` the assembler. -/
inductive Transparent (stops : List Bytes) (schedule : Nat → SliceSetting) :
    Nat → Nat → Bytes → IncrementalUtf8Assembler → List UnifiedBatchOutput → Prop
  | yields {i remaining : Nat} {before : Bytes} {asm : IncrementalUtf8Assembler}
      {ls : List UnifiedBatchOutput}
      (hlt : (schedule i).limit remaining < remaining)
      (hfull : (sampledUpTo ((schedule i).limit remaining) ls).countP visible =
        (schedule i).limit remaining)
      (hnone : firstHit stops before (assembledChunks asm ((schedule i).pieces remaining ls)) = none)
      (hkept : isNonAccumulatingCompletion
        (assembledChunks asm ((schedule i).pieces remaining ls)).flatten = false)
      (hnext : Transparent stops schedule (i + 1) (remaining - (schedule i).limit remaining)
        (before ++ (assembledChunks asm ((schedule i).pieces remaining ls)).flatten)
        (assemblerAfter asm ((schedule i).pieces remaining ls))
        (ls.drop (sampledUpTo ((schedule i).limit remaining) ls).length)) :
      Transparent stops schedule i remaining before asm ls
  | ends {i remaining : Nat} {before : Bytes} {asm : IncrementalUtf8Assembler}
      {ls : List UnifiedBatchOutput}
      (hhit : firstHit stops before (assembledChunks asm ((schedule i).pieces remaining ls)) =
        firstHit stops [] (assembledChunks asm ((schedule i).pieces remaining ls)))
      (hends : (schedule i).limit remaining = remaining ∨
        ((sampledUpTo ((schedule i).limit remaining) ls).take
          (stoppedText stops asm ((schedule i).pieces remaining ls)).2).countP visible <
          (schedule i).limit remaining)
      (hkept : 0 < i → Kept before (stoppedText stops asm ((schedule i).pieces remaining ls)).1
        (((sampledUpTo ((schedule i).limit remaining) ls).take
          (stoppedText stops asm ((schedule i).pieces remaining ls)).2).countP visible)) :
      Transparent stops schedule i remaining before asm ls

theorem stoppedText_eq (req : InferenceRequest) (pieces : List Bytes) :
    stoppedText req.stop req.outputUtf8 pieces =
      ((assemblePieces req [] pieces).finish.completion, (assemblePieces req [] pieces).consumed) := by
  cases hhit : firstHit req.stop [] (assembledChunks req.outputUtf8 pieces) with
  | none =>
    rw [assemblePieces_of_none req hhit]
    simp [stoppedText, hhit, finish, finishGeneratedText_eq]
  | some hit =>
    rw [assemblePieces_of_some req hhit]
    simp [stoppedText, hhit, finish, finishGeneratedText_eq]

/-! ## A slice as a part of the unsliced run -/

theorem consumed_le_length (req : InferenceRequest) (completion : Bytes) (pieces : List Bytes) :
    (assemblePieces req completion pieces).consumed ≤ pieces.length := by
  induction pieces generalizing req completion with
  | nil => simp [assemblePieces]
  | cons piece pieces ih =>
    simp only [assemblePieces]
    split_ifs
    · simp
    · simpa [Assembly.after] using ih _ _
    · simpa [Assembly.after] using ih _ _

variable {completion : Bytes}

/-- The slice that ends the generation ends the unsliced one. -/
theorem assembleUpTo_last (hle : limit ≤ total)
    (hhit : firstHit req.stop before
        (assembledChunks req.outputUtf8 ((sampledUpTo limit ls).map (·.piece))) =
      firstHit req.stop [] (assembledChunks req.outputUtf8 ((sampledUpTo limit ls).map (·.piece))))
    (hends : limit = total ∨ tokensUpTo req [] limit ls < limit) :
    assembleUpTo req before total ls =
        { assembleUpTo req [] limit ls with
          completion := before ++ (assembleUpTo req [] limit ls).completion } ∧
      tokensUpTo req before total ls = tokensUpTo req [] limit ls := by
  have hshift : assembleUpTo req before limit ls =
      { assembleUpTo req [] limit ls with
        completion := before ++ (assembleUpTo req [] limit ls).completion } :=
    assemblePieces_shift hhit
  have hconsumed : (assembleUpTo req [] limit ls).consumed ≤ (sampledUpTo limit ls).length := by
    simpa [assembleUpTo] using consumed_le_length req [] ((sampledUpTo limit ls).map (·.piece))
  obtain ⟨more, hmore⟩ := sampledUpTo_append hle ls
  have hall : assembleUpTo req before total ls = assembleUpTo req before limit ls := by
    obtain rfl | hshort := hends
    · rfl
    · cases hstop : (assembleUpTo req [] limit ls).stopHit with
      | true =>
        have hstop' : (assembleUpTo req before limit ls).stopHit = true := by
          rw [hshift]
          exact hstop
        unfold assembleUpTo at hstop' ⊢
        rw [hmore, map_append, assemblePieces_append]
        simp [hstop']
      | false =>
        have hlength := consumed_of_stopHit_eq_false req hstop
        unfold tokensUpTo at hshort
        unfold assembleUpTo at hshort ⊢
        rw [hlength, length_map, take_length] at hshort
        rw [sampledUpTo_of_short hle hshort]
  refine ⟨hall.trans hshift, ?_⟩
  unfold tokensUpTo
  rw [hall, hshift, hmore, take_append_of_le_length hconsumed]

/-- Pieces that come after others whose text no stop sequence ends in. -/
theorem assemblePieces_resume {req' : InferenceRequest} {pieces : List Bytes}
    (hnone : firstHit req.stop before (assembledChunks req.outputUtf8 pieces) = none)
    (hsame : SameText (assemblePieces req [] pieces).req req') (more : List Bytes) :
    let resumed := assemblePieces req' (before ++ (assemblePieces req [] pieces).completion) more
    Agrees (assemblePieces req before (pieces ++ more))
      { resumed with consumed := pieces.length + resumed.consumed } := by
  have hlocal : firstHit req.stop [] (assembledChunks req.outputUtf8 pieces) = none :=
    firstHit_eq_none_of_append (by simpa using hnone)
  have hstop : (assemblePieces req [] pieces).stopHit = false := by
    rw [assemblePieces_of_none req hlocal]
  obtain ⟨hreq, hcompletion, hhit, hconsumed⟩ :=
    hsame.assemblePieces (before ++ (assemblePieces req [] pieces).completion) more
  rw [assemblePieces_append, assemblePieces_shift (hnone.trans hlocal.symm)]
  simp only [hstop, Bool.false_eq_true, if_false, consumed_of_stopHit_eq_false req hstop]
  exact ⟨hreq, hcompletion, hhit, congrArg (pieces.length + ·) hconsumed⟩

/-- The unsliced run after a slice that yields. -/
theorem assembleUpTo_resume {req' : InferenceRequest} (hle : limit ≤ total)
    (hfull : (sampledUpTo limit ls).countP visible = limit)
    (hnone : firstHit req.stop before
      (assembledChunks req.outputUtf8 ((sampledUpTo limit ls).map (·.piece))) = none)
    (hsame : SameText (assembleUpTo req [] limit ls).req req') :
    let resumed := assembleUpTo req' (before ++ (assembleUpTo req [] limit ls).completion)
      (total - limit) (ls.drop (sampledUpTo limit ls).length)
    (assembleUpTo req before total ls).finish.completion = resumed.finish.completion ∧
      (assembleUpTo req before total ls).finish.req.streamed = resumed.finish.req.streamed ∧
      tokensUpTo req before total ls = limit +
        tokensUpTo req' (before ++ (assembleUpTo req [] limit ls).completion) (total - limit)
          (ls.drop (sampledUpTo limit ls).length) := by
  have hagrees := assemblePieces_resume hnone hsame
    ((sampledUpTo (total - limit) (ls.drop (sampledUpTo limit ls).length)).map (·.piece))
  rw [← map_append, ← sampledUpTo_split hle hfull, length_map] at hagrees
  obtain ⟨hcompletion, hstreamed⟩ := hagrees.finish
  refine ⟨hcompletion, hstreamed, ?_⟩
  have hconsumed : (assembleUpTo req before total ls).consumed = _ := hagrees.consumed
  unfold tokensUpTo
  rw [hconsumed, sampledUpTo_split hle hfull]
  simp only [take_length_add_append, countP_append, hfull]
  rfl

section Run

variable {capacity : Int} {tuning : UnifiedBatchTuning} {schedule : Nat → SliceSetting}
  {req : InferenceRequest} {remaining fuel i : Nat} {outs ls : List UnifiedBatchOutput}

/-- The limits of the executor are not reached while the outputs up to the budget are
sampled: its guard, and the number of sampled tokens without a visible piece. -/
structure InLimits (capacity : Int) (tuning : UnifiedBatchTuning) (req : InferenceRequest)
    (remaining : Nat) (ls : List UnifiedBatchOutput) : Prop where
  steps : ((sampledUpTo remaining ls).countP (!·.visible) : Int) + 1 <
    maxNonEmittingSteps req.maxTokens
  guard : req.promptRounds capacity tuning + (sampledUpTo remaining ls).length + 3 ≤ kDeadlockGuard

theorem InLimits.slice_run (hlimits : InLimits capacity tuning req remaining ls)
    (hready : SliceReady req remaining) (hfeeds : Feeds req outs ls) (set : SliceSetting) :
    ∃ slot rest, executeUnifiedBatchPhased (streamBackend capacity)
        { tuning with decodeBurstTokens := set.burst } [req.setTimeslice set.timeslice] outs =
        ([slot.finalize], rest) ∧
      SliceOutcome set req remaining ls slot rest := by
  obtain ⟨more, hmore⟩ := sampledUpTo_append (set.limit_le remaining) ls
  have hsteps := hlimits.steps
  have hguard := hlimits.guard
  rw [hmore, countP_append] at hsteps
  rw [hmore, length_append] at hguard
  obtain hstream | ⟨seed, hterminal, hvisible, hstream⟩ := hfeeds
  · subst hstream
    exact slice_run_stream hready capacity tuning set outs (by omega) (by omega)
  · have hsampled := sampledUpTo_invisible (set.limit_pos hready.remaining_pos) hterminal hvisible ls
    have hrun := slice_run_stream hready capacity tuning set outs
    rw [hstream, hsampled, countP_cons, hvisible, length_cons] at hrun
    have hshort : ((sampledUpTo (set.limit remaining) ls).countP (!·.visible) : Int) + 1 <
      maxNonEmittingSteps req.maxTokens := by omega
    obtain ⟨slot, rest, heq, hout⟩ := hrun (by simpa using hshort) (by omega)
    exact ⟨slot, rest, heq, hout.of_seed hready.remaining_pos hterminal hvisible⟩

theorem publishResult_completion (req : InferenceRequest) (result : InferenceResult) :
    (publishResult req result).completion =
      if req.accumulatedOutput = [] then result.completion else req.accumulatedOutput := by
  unfold publishResult
  split_ifs <;> simp_all

theorem publishResult_completionTokens (req : InferenceRequest) (result : InferenceResult) :
    (publishResult req result).completionTokens =
      if req.accumulatedOutput ≠ [] ∧ 0 < req.fairness.totalCompletionTokens then
        req.fairness.totalCompletionTokens
      else result.completionTokens := by
  unfold publishResult
  by_cases hempty : req.accumulatedOutput = []
  · simp only [hempty, isEmpty_nil, Bool.not_true, Bool.false_eq_true, if_false, ne_eq,
      not_true, false_and]
    split_ifs <;> rfl
  · have hne : (!req.accumulatedOutput.isEmpty) = true := by simpa using hempty
    simp only [hne, if_true, ne_eq, hempty, not_false_eq_true, true_and, gt_iff_lt]
    split_ifs <;> rfl

theorem Kept.published {tail : Bytes} {tokens : Nat} (h : Kept before (completion ++ tail) tokens) :
    let text := (if tokens = 0 ∧ completion = [] then kBackendEmptyResponseText else completion) ++ tail
    before ++ keptText text ≠ [] ∧ before ++ keptText text = before ++ (completion ++ tail) := by
  unfold Kept at h
  split_ifs at h with hnil
  · obtain ⟨rfl, rfl⟩ := append_eq_nil_iff.mp hnil
    have hkept : keptText ((if tokens = 0 ∧ ([] : Bytes) = [] then kBackendEmptyResponseText
        else []) ++ []) = [] := by
      split_ifs <;> decide
    intro text
    rw [show keptText text = [] from hkept]
    simpa using h
  · have hpos : ¬ (tokens = 0 ∧ completion = []) := by omega
    intro text
    have htext : keptText text = completion ++ tail := by
      simp [text, if_neg hpos, keptText, h.2]
    rw [htext]
    exact ⟨fun hempty => hnil (append_eq_nil_iff.mp hempty).2, rfl⟩

/-- What the run of a request resumed at slice `i` ends with. -/
def EndsAs (outcome : Option (InferenceRequest × InferenceResult)) (completion : Bytes)
    (tokens : Int) (streamed : List Bytes) : Prop :=
  ∃ r res, outcome = some (r, res) ∧ res.completion = completion ∧
    res.completionTokens = tokens ∧ r.streamed = streamed

section Slice

variable {limit : Nat} (hlimits : InLimits capacity tuning req remaining ls)
  (hready : SliceReady req remaining) (hfeeds : Feeds req outs ls)
  (hlimit : (schedule i).limit remaining = limit)

include hlimits hready hfeeds hlimit

theorem runSlices_yields (fuel : Nat) (hstop : (assembleUpTo req [] limit ls).stopHit = false)
    (hfull : (sampledUpTo limit ls).countP visible = limit)
    (htokens : tokensUpTo req [] limit ls = limit) (hlt : limit < remaining) :
    ∃ req' rest,
      runSlices (streamBackend capacity) tuning schedule (fuel + 1) i req outs =
        runSlices (streamBackend capacity) tuning schedule fuel (i + 1) req' rest ∧
      Resumes req remaining limit (assembleUpTo req [] limit ls) req' ∧
      Feeds req' rest (ls.drop (sampledUpTo limit ls).length) := by
  subst hlimit
  obtain ⟨slot, rest, hrun, hout⟩ := hlimits.slice_run hready hfeeds (schedule i)
  obtain ⟨hyield, hnext⟩ := hout.yields hready htokens hlt
  refine ⟨_, rest, ?_, hnext, Or.inr ⟨(prepareFairnessDecodeRequeue slot.finalize.req).seed, ?_, ?_, ?_⟩⟩
  · simp [runSlices, hrun, hyield]
  · simp only [terminal, seed, Bool.not_true, Bool.false_or]
    exact decide_eq_false (by have := hnext.firstToken; omega)
  · simp [visible, seed, hnext.firstPiece, isVisibleGeneratedPiece]
  · rw [stream, if_pos hnext.firstToken, hout.rest hstop hfull]

theorem runSlices_finishes (fuel : Nat)
    (hends : limit = remaining ∨ tokensUpTo req [] limit ls < limit) :
    ∃ r res,
      runSlices (streamBackend capacity) tuning schedule (fuel + 1) i req outs = some (r, res) ∧
      r.streamed = (assembleUpTo req [] limit ls).finish.req.streamed ∧
      let text := text req limit ls
      let tokens := tokensUpTo req [] limit ls
      let accumulated := req.accumulatedOutput ++ keptText text
      res.completion = (if accumulated = [] then text else accumulated) ∧
      res.completionTokens =
        if accumulated ≠ [] ∧ 0 < req.fairness.totalCompletionTokens + tokens then
          req.fairness.totalCompletionTokens + tokens
        else (tokens : Int) := by
  subst hlimit
  obtain ⟨slot, rest, hrun, hout⟩ := hlimits.slice_run hready hfeeds (schedule i)
  obtain ⟨hyield, -, hstreamed, hacc, htotal, hcompletion, htokens⟩ :=
    hout.finishes hready fun hno => by omega
  refine ⟨slot.finalize.req, publishResult slot.finalize.req slot.finalize.result, ?_, hstreamed, ?_, ?_⟩
  · simp [runSlices, hrun, hyield]
  · rw [publishResult_completion, hacc, hcompletion]
  · rw [publishResult_completionTokens, hacc, htotal, htokens]

/-- A slice that may yield leaves a request that goes on as the unsliced run does. -/
theorem runSlices_yield_step {more : List UnifiedBatchOutput}
    (hmore : ls.drop (sampledUpTo limit ls).length = more) (hlt : limit < remaining)
    (hfull : (sampledUpTo limit ls).countP visible = limit)
    (hnone : firstHit req.stop req.accumulatedOutput
      (assembledChunks req.outputUtf8 ((schedule i).pieces remaining ls)) = none)
    (hkept : isNonAccumulatingCompletion
      (assembledChunks req.outputUtf8 ((schedule i).pieces remaining ls)).flatten = false) :
    ∃ req' rest,
      runSlices (streamBackend capacity) tuning schedule (fuel + 1) i req outs =
        runSlices (streamBackend capacity) tuning schedule fuel (i + 1) req' rest ∧
      SliceReady req' (remaining - limit) ∧ Feeds req' rest more ∧
      InLimits capacity tuning req' (remaining - limit) more ∧
      req'.stop = req.stop ∧
      req'.accumulatedOutput = req.accumulatedOutput ++
        (assembledChunks req.outputUtf8 ((schedule i).pieces remaining ls)).flatten ∧
      req'.outputUtf8 = assemblerAfter req.outputUtf8 ((schedule i).pieces remaining ls) ∧
      req'.fairness.totalCompletionTokens = req.fairness.totalCompletionTokens + limit ∧
      (assembleUpTo req req.accumulatedOutput remaining ls).finish.completion =
        (assembleUpTo req' req'.accumulatedOutput (remaining - limit) more).finish.completion ∧
      (assembleUpTo req req.accumulatedOutput remaining ls).finish.req.streamed =
        (assembleUpTo req' req'.accumulatedOutput (remaining - limit) more).finish.req.streamed ∧
      tokensUpTo req req.accumulatedOutput remaining ls =
        limit + tokensUpTo req' req'.accumulatedOutput (remaining - limit) more := by
  subst hlimit hmore
  have hle := (schedule i).limit_le remaining
  have hlocal : firstHit req.stop [] (assembledChunks req.outputUtf8
      ((schedule i).pieces remaining ls)) = none :=
    firstHit_eq_none_of_append (by simpa using hnone)
  have hassembly : assembleUpTo req [] ((schedule i).limit remaining) ls = _ :=
    assemblePieces_of_none req hlocal
  have htokens : tokensUpTo req [] ((schedule i).limit remaining) ls =
      (schedule i).limit remaining := by
    unfold tokensUpTo
    rw [hassembly]
    simpa [SliceSetting.pieces] using hfull
  obtain ⟨req', rest, hrun, hnext, hfeeds'⟩ :=
    runSlices_yields hlimits hready hfeeds rfl fuel (by rw [hassembly]) hfull htokens hlt
  have hcompletion : (assembleUpTo req [] ((schedule i).limit remaining) ls).completion =
      (assembledChunks req.outputUtf8 ((schedule i).pieces remaining ls)).flatten := by
    simp [hassembly, SliceSetting.pieces]
  have haccumulated := hnext.accumulatedOutput
  rw [hcompletion, keptText, hkept, if_neg (by simp)] at haccumulated
  have hsame : SameText (assembleUpTo req [] ((schedule i).limit remaining) ls).req req' := by
    refine ⟨?_, ?_, hnext.streamed.symm, hnext.outputUtf8.symm⟩
    · rw [hassembly, hnext.stop]
      rfl
    · rw [hassembly, hnext.onToken]
      rfl
  have hresume := assembleUpTo_resume hle hfull hnone hsame
  rw [hcompletion, ← haccumulated] at hresume
  refine ⟨req', rest, hrun, hnext.ready, hfeeds', ⟨?_, ?_⟩, hnext.stop, haccumulated, ?_,
    hnext.total, hresume⟩
  · have hsteps := hlimits.steps
    rw [sampledUpTo_split hle hfull, countP_append] at hsteps
    rw [hnext.maxTokens]
    omega
  · have hguard := hlimits.guard
    rw [sampledUpTo_split hle hfull, length_append] at hguard
    rw [InferenceRequest.promptRounds, if_pos hnext.firstToken]
    omega
  · rw [hnext.outputUtf8, hassembly]
    rfl

theorem runSlices_first_finishes (fuel : Nat) (hacc : req.accumulatedOutput = [])
    (htotal : req.fairness.totalCompletionTokens = 0)
    (hends : limit = remaining ∨ tokensUpTo req [] limit ls < limit) :
    EndsAs (runSlices (streamBackend capacity) tuning schedule (fuel + 1) i req outs)
      (text req limit ls) (tokensUpTo req [] limit ls)
      (assembleUpTo req [] limit ls).finish.req.streamed := by
  obtain ⟨r, res, hrun, hstreamed, hcompletion, hcount⟩ :=
    runSlices_finishes hlimits hready hfeeds hlimit fuel hends
  refine ⟨r, res, hrun, ?_, ?_, hstreamed⟩
  · rw [hcompletion, hacc, nil_append]
    unfold keptText
    split_ifs <;> simp_all
  · rw [hcount, htotal, Int.zero_add]
    split_ifs <;> rfl

end Slice

/-- A resumed request ends as the unsliced run does. -/
theorem runSlices_resumed {asm : IncrementalUtf8Assembler}
    (h : Transparent stops schedule i remaining before asm ls) (hi : 0 < i)
    (hready : SliceReady req remaining) (hfeeds : Feeds req outs ls)
    (hlimits : InLimits capacity tuning req remaining ls) (hstops : req.stop = stops)
    (hbefore : req.accumulatedOutput = before) (hasm : req.outputUtf8 = asm)
    (htotal : 0 < req.fairness.totalCompletionTokens) (hfuel : remaining ≤ fuel) :
    EndsAs (runSlices (streamBackend capacity) tuning schedule fuel i req outs)
      (assembleUpTo req req.accumulatedOutput remaining ls).finish.completion
      (req.fairness.totalCompletionTokens + tokensUpTo req req.accumulatedOutput remaining ls)
      (assembleUpTo req req.accumulatedOutput remaining ls).finish.req.streamed := by
  induction h generalizing req outs fuel with
  | @yields i remaining before asm ls hlt hfull hnone hkept hnext ih =>
    subst hstops hbefore hasm
    have hpos := hready.remaining_pos
    have hlimit := (schedule i).limit_pos hpos
    obtain ⟨fuel, rfl⟩ : ∃ n, fuel = n + 1 := ⟨fuel - 1, by omega⟩
    obtain ⟨req', rest, hrun, hready', hfeeds', hlimits', hstop', hacc', hasm', htotal',
      hcompletion, hstreamed, htokens⟩ :=
      runSlices_yield_step hlimits hready hfeeds rfl rfl hlt hfull hnone hkept
    rw [hrun, hcompletion, hstreamed, htokens, Int.natCast_add, ← Int.add_assoc, ← htotal']
    exact ih (by omega) hready' hfeeds' hlimits' hstop' hacc' hasm' (by omega) (by omega)
  | @ends i remaining before asm ls hhit hends hkept =>
    subst hstops hbefore hasm
    have hpos := hready.remaining_pos
    obtain ⟨fuel, rfl⟩ : ∃ n, fuel = n + 1 := ⟨fuel - 1, by omega⟩
    have hstopped := stoppedText_eq req ((schedule i).pieces remaining ls)
    rw [hstopped] at hends hkept
    obtain ⟨hlast, htokens⟩ := assembleUpTo_last ((schedule i).limit_le remaining) hhit hends
    obtain ⟨r, res, hrun, hstreamed, hcompletion, hcount⟩ :=
      runSlices_finishes hlimits hready hfeeds rfl fuel hends
    have hfinish : (assemblePieces req [] ((schedule i).pieces remaining ls)).finish.completion =
        (assembleUpTo req [] ((schedule i).limit remaining) ls).completion ++
          (assembleUpTo req [] ((schedule i).limit remaining) ls).req.outputUtf8.finish.1.text := by
      simp only [finish, finishGeneratedText_eq]
      rfl
    have hpublished := hkept hi
    rw [hfinish] at hpublished
    obtain ⟨hne, heq⟩ : req.accumulatedOutput ++
          keptText (text req ((schedule i).limit remaining) ls) ≠ [] ∧
        req.accumulatedOutput ++
          keptText (text req ((schedule i).limit remaining) ls) =
            req.accumulatedOutput ++ (_ ++ _) := hpublished.published
    refine ⟨r, res, hrun, ?_, ?_, ?_⟩
    · rw [hcompletion, if_neg hne]
      refine heq.trans ?_
      rw [hlast]
      simp [finish, finishGeneratedText_eq]
    · rw [hcount, if_pos ⟨hne, by omega⟩, htokens]
    · rw [hstreamed, hlast]
      simp [finish, finishGeneratedText_eq]

/-- A request that nothing has been generated for, with its whole budget to go. -/
structure Unstarted (req : InferenceRequest) : Prop where
  startable : Startable req
  maxTokens_pos : 0 < req.maxTokens
  remaining : req.fairness.remainingDecodeTokens = req.maxTokens
  accumulatedOutput : req.accumulatedOutput = []
  total : req.fairness.totalCompletionTokens = 0

theorem Unstarted.ready (h : Unstarted req) : SliceReady req req.maxTokens.toNat := by
  have hpos := h.maxTokens_pos
  refine ⟨h.startable, ?_, by omega, by omega⟩
  rw [h.remaining]
  omega

theorem SliceOutcome.text_of_pos {limit : Nat} (hpos : 0 < tokensUpTo req [] limit ls) :
    text req limit ls = (assembleUpTo req [] limit ls).finish.completion := by
  have hne : ¬ (tokensUpTo req [] limit ls = 0 ∧ (assembleUpTo req [] limit ls).completion = []) := by
    omega
  simp [text, if_neg hne, finish, finishGeneratedText_eq]

def SameOutcome (outcome outcome' : Option (InferenceRequest × InferenceResult)) : Prop :=
  ∃ r res r' res', outcome = some (r, res) ∧ outcome' = some (r', res') ∧
    res.completion = res'.completion ∧ res.completionTokens = res'.completionTokens ∧
    r.streamed.flatten = r'.streamed.flatten

theorem EndsAs.same {outcome outcome' : Option (InferenceRequest × InferenceResult)}
    {tokens : Int} {streamed : List Bytes} (h : EndsAs outcome completion tokens streamed)
    (h' : EndsAs outcome' completion tokens streamed) : SameOutcome outcome outcome' := by
  obtain ⟨r, res, hrun, hcompletion, htokens, hstreamed⟩ := h
  obtain ⟨r', res', hrun', hcompletion', htokens', hstreamed'⟩ := h'
  exact ⟨r, res, r', res', hrun, hrun', hcompletion.trans hcompletion'.symm,
    htokens.trans htokens'.symm, by rw [hstreamed, hstreamed']⟩

end Run

/-- A run all of whose slices are transparent ends as the unsliced run does. -/
theorem runRequest_sliced (capacity : Int) (tuning : UnifiedBatchTuning)
    (schedule : Nat → SliceSetting) (req : InferenceRequest) (outs : List UnifiedBatchOutput)
    (hunstarted : Unstarted req)
    (hlimits : InLimits capacity tuning req req.maxTokens.toNat (req.stream outs))
    (h : Transparent req.stop schedule 0 req.maxTokens.toNat [] req.outputUtf8 (req.stream outs)) :
    SameOutcome (runRequest (streamBackend capacity) tuning schedule req outs)
      (runRequest (streamBackend capacity) tuning (fun _ => {}) req outs) := by
  have hready := hunstarted.ready
  have hfeeds : Feeds req outs (req.stream outs) := Or.inl rfl
  have hacc := hunstarted.accumulatedOutput
  have htotal := hunstarted.total
  have hpos := hready.remaining_pos
  unfold runRequest
  generalize req.maxTokens.toNat = remaining at hready hlimits h hpos ⊢
  generalize req.stream outs = ls at hlimits h hfeeds
  obtain ⟨fuel, rfl⟩ : ∃ n, remaining = n + 1 := ⟨remaining - 1, by omega⟩
  have hunsliced : EndsAs (runSlices (streamBackend capacity) tuning (fun _ => {}) (fuel + 1) 0 req
      outs) (text req (fuel + 1) ls) (tokensUpTo req [] (fuel + 1) ls) _ :=
    runSlices_first_finishes hlimits hready hfeeds rfl fuel hacc htotal (.inl rfl)
  cases h with
  | yields hlt hfull hnone hkept hnext =>
    have hlimit := (schedule 0).limit_pos hpos
    rw [← hacc] at hnone hnext
    obtain ⟨req', rest, hrun, hready', hfeeds', hlimits', hstop', hacc', hasm', htotal',
      hcompletion, hstreamed, htokens⟩ :=
      runSlices_yield_step hlimits hready hfeeds rfl rfl hlt hfull hnone hkept
    have hresumed := runSlices_resumed hnext (by omega) hready' hfeeds' hlimits' hstop' hacc' hasm'
      (by omega) (show _ ≤ fuel by omega)
    rw [← hcompletion, ← hstreamed, htotal', htotal, Int.zero_add, ← Int.natCast_add, ← htokens,
      hacc] at hresumed
    rw [SliceOutcome.text_of_pos (by rw [← hacc]; omega)] at hunsliced
    rw [hrun]
    exact hresumed.same hunsliced
  | ends hhit hends hkept =>
    have hstopped := stoppedText_eq req ((schedule 0).pieces (fuel + 1) ls)
    rw [hstopped] at hends
    obtain ⟨hlast, htokens⟩ := assembleUpTo_last ((schedule 0).limit_le (fuel + 1)) hhit hends
    have hwhole : assembleUpTo req [] (fuel + 1) ls =
        assembleUpTo req [] ((schedule 0).limit (fuel + 1)) ls := hlast
    have hsliced := runSlices_first_finishes hlimits hready hfeeds rfl fuel hacc htotal hends
    unfold SliceOutcome.text at hsliced hunsliced
    rw [← htokens, ← hwhole] at hsliced
    exact hsliced.same hunsliced

theorem runRequest_sliced_by_token :
    let req : InferenceRequest :=
      { maxTokens := 3, nPast := 0, sequenceId := 0, bpePromptTokens := [1], onToken := true
        stop := [bytes "c"], fairness := { remainingDecodeTokens := 3 } }
    let outs : List UnifiedBatchOutput :=
      [⟨5, bytes "a", true⟩, ⟨6, bytes "b", true⟩, ⟨7, bytes "c", true⟩]
    SameOutcome (runRequest (streamBackend 8) {} (fun _ => { timeslice := 1 }) req outs)
      (runRequest (streamBackend 8) {} (fun _ => {}) req outs) := by
  intro req outs
  have htransparent : Transparent req.stop (fun _ => { timeslice := 1 }) 0 req.maxTokens.toNat []
      req.outputUtf8 (req.stream outs) := by
    apply Transparent.yields <;> try decide
    apply Transparent.yields <;> try decide
    apply Transparent.ends <;> decide
  exact runRequest_sliced 8 {} (fun _ => { timeslice := 1 }) req outs
    ⟨⟨by decide, rfl, fun _ => by decide⟩, by decide, rfl, rfl, rfl⟩
    ⟨by decide, by decide⟩ htransparent

/-- A stop sequence that spans two slices is missed, and one that ends with the last token of
a slice does not end the generation. -/
theorem slicing_changes_completion :
    let req (stop : Bytes) : InferenceRequest :=
      { maxTokens := 3, nPast := 0, sequenceId := 0, bpePromptTokens := [1], onToken := true
        stop := [stop], fairness := { remainingDecodeTokens := 3 } }
    let outs : List UnifiedBatchOutput :=
      [⟨5, bytes "a", true⟩, ⟨6, bytes "b", true⟩, ⟨7, bytes "c", true⟩]
    let run (set : SliceSetting) (stop : Bytes) :=
      (runRequest (streamBackend 8) {} (fun _ => set) (req stop) outs).map fun final =>
        (final.2.completion, final.2.completionTokens, final.1.streamed.flatten)
    (∀ stop, Unstarted (req stop)) ∧
      run {} (bytes "ab") = some ([], 2, bytes "a") ∧
      run { timeslice := 1 } (bytes "ab") = some (bytes "abc", 3, bytes "abc") ∧
      run {} (bytes "b") = some (bytes "a", 2, bytes "a") ∧
      run { burst := 2 } (bytes "b") = some (bytes "ac", 3, bytes "ac") := by
  refine ⟨fun stop => ⟨⟨by simp, rfl, fun _ => by simp⟩, by simp, rfl, rfl, rfl⟩, ?_⟩
  decide

end InferFlux.Execution
