import InferFlux.Execution.InferenceRequest

/-!
# Text assembly of generated pieces

Embeds `ApplyStop` (`runtime/backends/backend_utils.h`) and the functions
`AppendGeneratedPiece` and `FinishGeneratedText` of the batch executor and of the step-wise
scheduler path, which differ only in the string they append to.
-/

namespace InferFlux.Execution

open InferFlux.Text List InferenceRequest Execution Option

/-- Check whether `output`, whose last part is `piece`, ends with a stop sequence. Returns
whether it does, the trimmed output and the part of `piece` to emit. -/
def applyStop (piece output : Bytes) : List Bytes → Bool × Bytes × Bytes
  | [] => (false, output, piece)
  | s :: stops =>
    if s.isEmpty then applyStop piece output stops
    else if output.length ≥ s.length && output.drop (output.length - s.length) == s then
      let prePieceLen := output.length - piece.length
      let stopStart := output.length - s.length
      (true, output.take stopStart,
        if stopStart > prePieceLen then piece.take (stopStart - prePieceLen) else [])
    else applyStop piece output stops

def isVisibleGeneratedPiece (piece : Bytes) : Bool := !piece.isEmpty

def appendGeneratedPiece (req : InferenceRequest) (rawPiece completion : Bytes) :
    Bool × InferenceRequest × Bytes :=
  let (assembled, outputUtf8) := req.outputUtf8.append rawPiece
  let req := req.setUtf8 outputUtf8
  if assembled.text.isEmpty then (false, req, completion)
  else
    let (stopHit, completion, emitPiece) :=
      applyStop assembled.text (completion ++ assembled.text) req.stop
    (stopHit, req.emit emitPiece, completion)

/-- `FinishGeneratedText` of the batch executor. -/
def finishGeneratedText (req : InferenceRequest) (completion : Bytes) : InferenceRequest × Bytes :=
  let (assembled, outputUtf8) := req.outputUtf8.finish
  let req := req.setUtf8 outputUtf8
  if assembled.text.isEmpty then (req, completion)
  else (req.emit assembled.text, completion ++ assembled.text)

namespace Stepwise

def appendGeneratedPiece (req : InferenceRequest) (rawPiece : Bytes) : Bool × InferenceRequest :=
  let (stopHit, req, completion) :=
    Execution.appendGeneratedPiece req rawPiece req.execution.result.completion
  (stopHit, req.setCompletion completion)

/-- `FinishGeneratedText` of the step-wise scheduler path. -/
def finishGeneratedText (req : InferenceRequest) : InferenceRequest :=
  let (req, completion) := Execution.finishGeneratedText req req.execution.result.completion
  req.setCompletion completion

end Stepwise

/-! ## The pieces of a decode loop -/

structure Assembly where
  req : InferenceRequest
  completion : Bytes
  stopHit : Bool
  consumed : Nat
  deriving DecidableEq, Repr

namespace Assembly

def after (a : Assembly) : Assembly := { a with consumed := a.consumed + 1 }

/-- The end of generation flushes the assembler. -/
def finish (a : Assembly) : Assembly :=
  let (req, completion) := finishGeneratedText a.req a.completion
  { a with req, completion }

end Assembly

def assemblePieces (req : InferenceRequest) (completion : Bytes) : List Bytes → Assembly
  | [] => ⟨req, completion, false, 0⟩
  | piece :: pieces =>
    if isVisibleGeneratedPiece piece then
      let (stopHit, req, completion) := appendGeneratedPiece req piece completion
      if stopHit then ⟨req, completion, true, 1⟩
      else (assemblePieces req completion pieces).after
    else (assemblePieces req completion pieces).after

namespace Stepwise

def assemblePieces (req : InferenceRequest) : List Bytes → InferenceRequest × Bool × Nat
  | [] => (req, false, 0)
  | piece :: pieces =>
    if isVisibleGeneratedPiece piece then
      let (stopHit, req) := appendGeneratedPiece req piece
      if stopHit then (req, true, 1)
      else
        let (req, stopHit, consumed) := assemblePieces req pieces
        (req, stopHit, consumed + 1)
    else
      let (req, stopHit, consumed) := assemblePieces req pieces
      (req, stopHit, consumed + 1)

end Stepwise

/-! ## Stop sequences at the end of the text -/

/-- The first non-empty stop sequence, in list order, that ends the text. -/
def stopEnding (stops : List Bytes) (text : Bytes) : Option Bytes :=
  stops.find? fun s => !s.isEmpty && s.isSuffixOf text

variable {stops : List Bytes} {s : Bytes} {text : Bytes}

theorem stopEnding_eq_some (h : stopEnding stops text = some s) :
    s ∈ stops ∧ s ≠ [] ∧ s <:+ text := by
  have hmem := mem_of_find?_eq_some h
  have hprop := find?_some h
  simp only [Bool.and_eq_true, Bool.not_eq_true', isEmpty_eq_false_iff,
    isSuffixOf_iff_suffix] at hprop
  exact ⟨hmem, hprop.1, hprop.2⟩

theorem stopEnding_eq_none_iff :
    stopEnding stops text = none ↔ ∀ s ∈ stops, s ≠ [] → ¬ s <:+ text := by
  simp [stopEnding]

@[simp] theorem stopEnding_nil (stops : List Bytes) : stopEnding stops [] = none := by
  rw [stopEnding_eq_none_iff]
  intro s _ hne hsuf
  exact hne (suffix_nil.mp hsuf)

theorem suffix_test_eq (s output : Bytes) :
    (output.length ≥ s.length && output.drop (output.length - s.length) == s) =
      s.isSuffixOf output := by
  rw [Bool.eq_iff_iff]
  simp only [Bool.and_eq_true, decide_eq_true_eq, beq_iff_eq, isSuffixOf_iff_suffix,
    suffix_iff_eq_drop]
  constructor
  · rintro ⟨_, h⟩
    exact h.symm
  · intro h
    refine ⟨?_, h.symm⟩
    have hlen := congrArg length h
    simp only [length_drop] at hlen
    omega

theorem applyStop_eq (pre piece : Bytes) (stops : List Bytes) :
    applyStop piece (pre ++ piece) stops =
      match stopEnding stops (pre ++ piece) with
      | none => (false, pre ++ piece, piece)
      | some s => (true, (pre ++ piece).take ((pre ++ piece).length - s.length),
          piece.take (piece.length - s.length)) := by
  induction stops with
  | nil => rfl
  | cons s stops ih =>
    simp only [applyStop, suffix_test_eq, stopEnding, find?_cons]
    cases hempty : s.isEmpty with
    | true => simpa [stopEnding] using ih
    | false =>
      cases hsuf : s.isSuffixOf (pre ++ piece) with
      | false => simpa [stopEnding] using ih
      | true =>
        simp only [length_append, Bool.not_false, Bool.and_true, if_true,
          Bool.false_eq_true, if_false, Prod.mk.injEq, true_and]
        split_ifs with hlt
        · congr 1
          omega
        · rw [show piece.length - s.length = 0 by omega, take_zero]

/-! ## Assembled chunks -/

def assembledChunks (a : IncrementalUtf8Assembler) : List Bytes → List Bytes
  | [] => []
  | piece :: pieces =>
    if isVisibleGeneratedPiece piece then
      (a.append piece).1.text :: assembledChunks (a.append piece).2 pieces
    else [] :: assembledChunks a pieces

def assemblerAfter (a : IncrementalUtf8Assembler) : List Bytes → IncrementalUtf8Assembler
  | [] => a
  | piece :: pieces =>
    assemblerAfter (if isVisibleGeneratedPiece piece then (a.append piece).2 else a) pieces

@[simp] theorem length_assembledChunks (a : IncrementalUtf8Assembler) (pieces : List Bytes) :
    (assembledChunks a pieces).length = pieces.length := by
  fun_induction assembledChunks a pieces <;> simp_all

/-- The first chunk after which a stop sequence ends the text, and that stop sequence. -/
def firstHit (stops : List Bytes) (text : Bytes) : List Bytes → Option (Nat × Bytes)
  | [] => none
  | chunk :: chunks =>
    match if chunk.isEmpty then none else stopEnding stops (text ++ chunk) with
    | some s => some (0, s)
    | none => (firstHit stops (text ++ chunk) chunks).map fun hit => (hit.1 + 1, hit.2)

namespace InferenceRequest

variable (req : InferenceRequest)

@[simp] theorem calls_nil : req.calls [] = [] := by
  simp [calls]

variable {req : InferenceRequest}

theorem flatten_calls (hcallback : req.onToken = true) (text : Bytes) :
    (req.calls text).flatten = text := by
  cases htext : text.isEmpty with
  | true => simp_all
  | false => simp [calls, hcallback, htext]

theorem flatten_flatMap_calls (hcallback : req.onToken = true) (chunks : List Bytes) :
    (chunks.flatMap req.calls).flatten = chunks.flatten := by
  induction chunks with
  | nil => rfl
  | cons chunk chunks ih => simp [flatten_calls hcallback, ih]

/-- Text assembly changes what has been streamed and what the assembler holds. -/
def setText (req : InferenceRequest) (streamed : List Bytes)
    (outputUtf8 : IncrementalUtf8Assembler) : InferenceRequest :=
  { req with streamed, outputUtf8 }

@[simp] theorem calls_setText (streamed : List Bytes) (a : IncrementalUtf8Assembler) :
    (req.setText streamed a).calls = req.calls := rfl

@[simp] theorem streamed_setText (streamed : List Bytes) (a : IncrementalUtf8Assembler) :
    (req.setText streamed a).streamed = streamed := rfl

@[simp] theorem outputUtf8_setText (streamed : List Bytes) (a : IncrementalUtf8Assembler) :
    (req.setText streamed a).outputUtf8 = a := rfl

@[simp] theorem setText_setText (streamed streamed' : List Bytes)
    (a a' : IncrementalUtf8Assembler) :
    (req.setText streamed a).setText streamed' a' = req.setText streamed' a' := rfl

end InferenceRequest

variable (req : InferenceRequest)

/-- One appended piece, in terms of the chunk it completes. -/
theorem appendGeneratedPiece_eq (piece completion : Bytes) :
    appendGeneratedPiece req piece completion =
      let chunk := (req.outputUtf8.append piece).1.text
      let after := (req.outputUtf8.append piece).2
      match if chunk.isEmpty then none else stopEnding req.stop (completion ++ chunk) with
      | none => (false, req.setText (req.streamed ++ req.calls chunk) after, completion ++ chunk)
      | some s =>
        (true, req.setText (req.streamed ++ req.calls (chunk.take (chunk.length - s.length))) after,
          (completion ++ chunk).take ((completion ++ chunk).length - s.length)) := by
  have hstop : (req.setUtf8 (req.outputUtf8.append piece).2).stop = req.stop := rfl
  simp only [appendGeneratedPiece, applyStop_eq, hstop]
  generalize (req.outputUtf8.append piece).1.text = chunk
  cases hempty : chunk.isEmpty with
  | true =>
    obtain rfl := isEmpty_iff.mp hempty
    simp [setText, setUtf8]
  | false =>
    cases stopEnding req.stop (completion ++ chunk) <;> rfl

/-- Appending a piece touches only the text fields of the request. -/
theorem appendGeneratedPiece_frame (piece completion : Bytes) :
    ∃ streamed a, (appendGeneratedPiece req piece completion).2.1 = req.setText streamed a := by
  rw [appendGeneratedPiece_eq]
  dsimp only
  split <;> exact ⟨_, _, rfl⟩

/-- The flush at the end, in terms of the text it completes. -/
theorem finishGeneratedText_eq (completion : Bytes) :
    finishGeneratedText req completion =
      let tail := req.outputUtf8.finish.1.text
      (req.setText (req.streamed ++ req.calls tail) req.outputUtf8.finish.2, completion ++ tail) := by
  simp only [finishGeneratedText]
  split_ifs with hempty
  · simp [isEmpty_iff.mp hempty, setText, setUtf8]
  · rfl

variable {completion : Bytes} {pieces : List Bytes}

theorem assemblePieces_of_none
    (hnone : firstHit req.stop completion (assembledChunks req.outputUtf8 pieces) = none) :
    assemblePieces req completion pieces =
      let chunks := assembledChunks req.outputUtf8 pieces
      ⟨req.setText (req.streamed ++ chunks.flatMap req.calls)
          (assemblerAfter req.outputUtf8 pieces),
        completion ++ chunks.flatten, false, pieces.length⟩ := by
  induction pieces generalizing req completion with
  | nil => simp [assemblePieces, assembledChunks, assemblerAfter, setText]
  | cons piece pieces ih =>
    by_cases hvisible : isVisibleGeneratedPiece piece
    · simp only [assembledChunks, hvisible, if_true, firstHit] at hnone
      simp only [assemblePieces, hvisible, if_true, appendGeneratedPiece_eq, assembledChunks,
        assemblerAfter]
      generalize (req.outputUtf8.append piece).1.text = chunk at hnone ⊢
      generalize (req.outputUtf8.append piece).2 = after at hnone ⊢
      split at hnone
      · simp at hnone
      · rename_i hstop
        simp only [map_eq_none_iff] at hnone
        have hrest := ih (req.setText (req.streamed ++ req.calls chunk) after) hnone
        simp only [hstop, Bool.false_eq_true, if_false, hrest, Assembly.after]
        simp
    · simp only [assembledChunks, hvisible, if_false, firstHit, Bool.false_eq_true,
        isEmpty_nil, if_true, map_eq_none_iff, append_nil] at hnone
      simp only [assemblePieces, hvisible, if_false, Bool.false_eq_true, assembledChunks,
        assemblerAfter, ih req hnone, Assembly.after]
      simp

variable {k : Nat}

theorem assemblePieces_of_some
    (hsome : firstHit req.stop completion (assembledChunks req.outputUtf8 pieces) = some (k, s)) :
    assemblePieces req completion pieces =
      let chunks := assembledChunks req.outputUtf8 pieces
      let text := completion ++ (chunks.take (k + 1)).flatten
      let last := chunks.getD k []
      ⟨req.setText (req.streamed ++ (chunks.take k).flatMap req.calls ++
            req.calls (last.take (last.length - s.length)))
          (assemblerAfter req.outputUtf8 (pieces.take (k + 1))),
        text.take (text.length - s.length), true, k + 1⟩ := by
  induction pieces generalizing req completion k with
  | nil => simp [assembledChunks, firstHit] at hsome
  | cons piece pieces ih =>
    by_cases hvisible : isVisibleGeneratedPiece piece
    · simp only [assembledChunks, hvisible, if_true, firstHit] at hsome
      simp only [assemblePieces, hvisible, if_true, appendGeneratedPiece_eq, assembledChunks,
        assemblerAfter, take_succ_cons]
      generalize (req.outputUtf8.append piece).1.text = chunk at hsome ⊢
      generalize (req.outputUtf8.append piece).2 = after at hsome ⊢
      split at hsome
      · rename_i hstop
        cases hsome
        simp only [hstop, if_true]
        simp [assemblerAfter]
      · rename_i hstop
        obtain ⟨⟨m, t⟩, hrest, heq⟩ := map_eq_some_iff.mp hsome
        obtain ⟨rfl, rfl⟩ := Prod.mk.inj heq
        have hind := ih (req.setText (req.streamed ++ req.calls chunk) after) hrest
        simp only [hstop, Bool.false_eq_true, if_false, hind, Assembly.after]
        simp
    · simp only [assembledChunks, hvisible, if_false, firstHit, Bool.false_eq_true,
        isEmpty_nil, if_true, append_nil] at hsome
      obtain ⟨⟨m, t⟩, hrest, heq⟩ := map_eq_some_iff.mp hsome
      obtain ⟨rfl, rfl⟩ := Prod.mk.inj heq
      simp only [assemblePieces, hvisible, if_false, Bool.false_eq_true, assembledChunks, ih req hrest,
        Assembly.after, assemblerAfter, take_succ_cons]
      simp

theorem stopEnding_chunk {chunk : Bytes} (htext : stopEnding stops text = none) :
    (if chunk.isEmpty then none else stopEnding stops (text ++ chunk)) =
      stopEnding stops (text ++ chunk) := by
  split_ifs with hempty
  · rw [isEmpty_iff.mp hempty, append_nil, htext]
  · rfl

variable {chunks : List Bytes}

theorem firstHit_eq_none_iff (htext : stopEnding stops text = none) :
    firstHit stops text chunks = none ↔
      ∀ j ≤ chunks.length, stopEnding stops (text ++ (chunks.take j).flatten) = none := by
  induction chunks generalizing text with
  | nil => simp [firstHit, htext]
  | cons chunk chunks ih =>
    simp only [firstHit, stopEnding_chunk htext]
    cases hend : stopEnding stops (text ++ chunk) with
    | some s =>
      simp only [reduceCtorEq, false_iff]
      intro hall
      have := hall 1 (by simp)
      simp_all
    | none =>
      simp only [map_eq_none_iff, ih hend]
      constructor
      · intro hall j hj
        cases j with
        | zero => simpa using htext
        | succ j => simpa using hall j (by simpa using hj)
      · intro hall j hj
        simpa using hall (j + 1) (by simpa using hj)

theorem firstHit_eq_some_iff (htext : stopEnding stops text = none) :
    firstHit stops text chunks = some (k, s) ↔
      k < chunks.length ∧ (∀ j ≤ k, stopEnding stops (text ++ (chunks.take j).flatten) = none) ∧
        stopEnding stops (text ++ (chunks.take (k + 1)).flatten) = some s := by
  induction chunks generalizing text k with
  | nil => simp [firstHit]
  | cons chunk chunks ih =>
    simp only [firstHit, stopEnding_chunk htext]
    cases hend : stopEnding stops (text ++ chunk) with
    | some t =>
      constructor
      · rintro ⟨rfl, rfl⟩
        simp [htext, hend]
      · rintro ⟨_, hnone, hhit⟩
        cases k with
        | zero => simp_all
        | succ k => simpa [hend] using hnone 1 (by omega)
    | none =>
      simp only [map_eq_some_iff, Prod.mk.injEq]
      constructor
      · rintro ⟨⟨m, t⟩, hrest, rfl, rfl⟩
        obtain ⟨hlt, hnone, hhit⟩ := (ih hend).mp hrest
        refine ⟨by simpa using hlt, fun j hj => ?_, by simpa using hhit⟩
        cases j with
        | zero => simpa using htext
        | succ j => simpa using hnone j (by simpa using hj)
      · rintro ⟨hlt, hnone, hhit⟩
        cases k with
        | zero => simp [hend] at hhit
        | succ k =>
          refine ⟨(k, s), (ih hend).mpr ⟨by simpa using hlt, fun j hj => ?_, by simpa using hhit⟩,
            rfl, rfl⟩
          simpa using hnone (j + 1) (by omega)

/-! ## Changes that text assembly does not see -/

/-- A change of the request that keeps the text fields. -/
structure TextFrame (f : InferenceRequest → InferenceRequest) : Prop where
  stop (req : InferenceRequest) : (f req).stop = req.stop
  streamed (req : InferenceRequest) : (f req).streamed = req.streamed
  outputUtf8 (req : InferenceRequest) : (f req).outputUtf8 = req.outputUtf8
  calls (req : InferenceRequest) : (f req).calls = req.calls
  setText (req : InferenceRequest) (streamed : List Bytes) (a : IncrementalUtf8Assembler) :
    (f req).setText streamed a = f (req.setText streamed a)

namespace TextFrame

variable {f : InferenceRequest → InferenceRequest}

theorem appendGeneratedPiece (hf : TextFrame f) (req : InferenceRequest)
    (piece completion : Bytes) :
    appendGeneratedPiece (f req) piece completion =
      ((appendGeneratedPiece req piece completion).1,
        f (appendGeneratedPiece req piece completion).2.1,
        (appendGeneratedPiece req piece completion).2.2) := by
  simp only [appendGeneratedPiece_eq, hf.stop, hf.outputUtf8, hf.streamed, hf.calls, hf.setText]
  split <;> rfl

theorem finishGeneratedText (hf : TextFrame f) (req : InferenceRequest) (completion : Bytes) :
    finishGeneratedText (f req) completion =
      (f (finishGeneratedText req completion).1, (finishGeneratedText req completion).2) := by
  simp [finishGeneratedText_eq, hf.outputUtf8, hf.streamed, hf.calls, hf.setText]

theorem assemblePieces (hf : TextFrame f) (req : InferenceRequest) (completion : Bytes)
    (pieces : List Bytes) :
    assemblePieces (f req) completion pieces =
      { assemblePieces req completion pieces with
        req := f (assemblePieces req completion pieces).req } := by
  induction pieces generalizing req completion with
  | nil => rfl
  | cons piece pieces ih =>
    simp only [Execution.assemblePieces, hf.appendGeneratedPiece, ih]
    split_ifs <;> rfl

theorem setCompletion (completion : Bytes) : TextFrame fun req => req.setCompletion completion :=
  ⟨fun _ => rfl, fun _ => rfl, fun _ => rfl, fun _ => rfl, fun _ _ _ => rfl⟩

theorem setNPast (nPast : Int) : TextFrame fun req => req.setNPast nPast :=
  ⟨fun _ => rfl, fun _ => rfl, fun _ => rfl, fun _ => rfl, fun _ _ _ => rfl⟩

end TextFrame

theorem consumed_of_stopHit_eq_false {completion : Bytes}
    (hstop : (assemblePieces req completion pieces).stopHit = false) :
    (assemblePieces req completion pieces).consumed = pieces.length := by
  cases hhit : firstHit req.stop completion (assembledChunks req.outputUtf8 pieces) with
  | none => rw [assemblePieces_of_none req hhit]
  | some hit => simp [assemblePieces_of_some req hhit] at hstop

structure SameText (r r' : InferenceRequest) : Prop where
  stop : r.stop = r'.stop
  onToken : r.onToken = r'.onToken
  streamed : r.streamed = r'.streamed
  outputUtf8 : r.outputUtf8 = r'.outputUtf8

structure Agrees (a a' : Assembly) : Prop where
  req : SameText a.req a'.req
  completion : a.completion = a'.completion
  stopHit : a.stopHit = a'.stopHit
  consumed : a.consumed = a'.consumed

theorem SameText.refl : SameText req req := ⟨rfl, rfl, rfl, rfl⟩

variable {r r' : InferenceRequest}

section

variable (h : SameText r r')
include h

theorem SameText.trans {r'' : InferenceRequest} (h' : SameText r' r'') : SameText r r'' :=
  ⟨h.stop.trans h'.stop, h.onToken.trans h'.onToken, h.streamed.trans h'.streamed,
    h.outputUtf8.trans h'.outputUtf8⟩

theorem SameText.symm : SameText r' r :=
  ⟨h.stop.symm, h.onToken.symm, h.streamed.symm, h.outputUtf8.symm⟩

theorem SameText.calls : r.calls = r'.calls := by
  funext text
  simp [InferenceRequest.calls, h.onToken]

theorem SameText.appendGeneratedPiece (piece completion : Bytes) :
    (appendGeneratedPiece r piece completion).1 = (appendGeneratedPiece r' piece completion).1 ∧
      SameText (appendGeneratedPiece r piece completion).2.1
        (appendGeneratedPiece r' piece completion).2.1 ∧
      (appendGeneratedPiece r piece completion).2.2 =
        (appendGeneratedPiece r' piece completion).2.2 := by
  have hcalls := h.calls
  obtain ⟨hstop, honToken, hstreamed, hutf8⟩ := h
  simp only [appendGeneratedPiece_eq, hstop, hcalls, hstreamed, hutf8]
  split <;> exact ⟨rfl, ⟨hstop, honToken, rfl, rfl⟩, rfl⟩

theorem SameText.assemblePieces (completion : Bytes) (pieces : List Bytes) :
    Agrees (assemblePieces r completion pieces) (assemblePieces r' completion pieces) := by
  induction pieces generalizing r r' completion with
  | nil => exact ⟨h, rfl, rfl, rfl⟩
  | cons piece pieces ih =>
    obtain ⟨hstop, hreq, hcompletion⟩ := h.appendGeneratedPiece piece completion
    simp only [Execution.assemblePieces, hstop, hcompletion]
    split_ifs
    · exact ⟨hreq, rfl, rfl, rfl⟩
    · obtain ⟨hreq, htext, hhit, hconsumed⟩ := ih hreq _
      exact ⟨hreq, htext, hhit, congrArg (· + 1) hconsumed⟩
    · obtain ⟨hreq, htext, hhit, hconsumed⟩ := ih h completion
      exact ⟨hreq, htext, hhit, congrArg (· + 1) hconsumed⟩

end

/-! ## The step-wise path appends the same text -/

namespace InferenceRequest

@[simp] theorem completion_setCompletion (req : InferenceRequest) (completion : Bytes) :
    (req.setCompletion completion).execution.result.completion = completion := rfl

@[simp] theorem setCompletion_setCompletion (req : InferenceRequest) (kept completion : Bytes) :
    (req.setCompletion kept).setCompletion completion = req.setCompletion completion := rfl

end InferenceRequest

namespace Stepwise

theorem assemblePieces_eq (req : InferenceRequest) (pieces : List Bytes) :
    assemblePieces req pieces =
      let a := Execution.assemblePieces req req.execution.result.completion pieces
      (a.req.setCompletion a.completion, a.stopHit, a.consumed) := by
  induction pieces generalizing req with
  | nil => rfl
  | cons piece pieces ih =>
    simp only [assemblePieces, appendGeneratedPiece, Execution.assemblePieces, ih,
      completion_setCompletion, (TextFrame.setCompletion _).assemblePieces,
      setCompletion_setCompletion]
    split_ifs <;> rfl

end Stepwise

end InferFlux.Execution
