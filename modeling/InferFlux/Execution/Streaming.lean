import InferFlux.Execution.StopSequences

/-!
# Streamed text and final text

A streaming client has seen the strings passed to `on_token`; the final result carries the
completion. Both come from the same pieces, but a stop string that reaches back over more
than the last assembled chunk trims text that has already been sent, and a result without
text carries a message that is never sent.
-/

namespace InferFlux.Execution

open InferFlux.Text InferenceRequest List AssemblyPath IncrementalUtf8Assembler

/-- The result of a generation on the executor's path: an empty generation is reported by a
message, before the assembler is flushed. -/
def executorResult (req : InferenceRequest) (pieces : List Bytes) : Assembly :=
  let a := assemblePieces req [] pieces
  let gen := (pieces.take a.consumed).countP isVisibleGeneratedPiece
  let completion :=
    if gen = 0 && a.completion.isEmpty then kBackendEmptyResponseText else a.completion
  { a with completion }.finish

namespace Stepwise

/-- The result of a generation on the step-wise path: an empty completion is replaced by the
message, after the flush. -/
def result (req : InferenceRequest) (pieces : List Bytes) : Assembly :=
  let a := generateText req pieces
  { a with
    completion := if a.completion.isEmpty then kBackendEmptyResponseText else a.completion }

end Stepwise

def AssemblyPath.result : AssemblyPath → InferenceRequest → List Bytes → Assembly
  | .executor => executorResult
  | .stepwise => Stepwise.result

/-- Some piece is visible, and a stop string that ends the text fits into the last assembled
chunk. On the step-wise path a stop string that is the whole text is replaced by the message,
so that the text before the last chunk would have to be that message. -/
def StreamsFinalText (path : AssemblyPath) (stops pieces : List Bytes) : Prop :=
  let chunks := assembledChunks {} pieces
  match firstHit stops [] chunks with
  | none => ∃ p ∈ pieces, isVisibleGeneratedPiece p
  | some (k, s) =>
    if path = .stepwise ∧ s.length = (chunks.take (k + 1)).flatten.length ∧
        (assemblerAfter {} (pieces.take (k + 1))).pending = [] then
      (chunks.take k).flatten = kBackendEmptyResponseText
    else s.length ≤ (chunks.getD k []).length

theorem kBackendEmptyResponseText_ne_nil : kBackendEmptyResponseText ≠ [] := by decide

variable {pieces : List Bytes}

theorem assembledChunks_of_invisible (a : IncrementalUtf8Assembler)
    (hnone : ∀ p ∈ pieces, isVisibleGeneratedPiece p = false) :
    (assembledChunks a pieces).flatten = [] ∧ assemblerAfter a pieces = a := by
  induction pieces with
  | nil => exact ⟨rfl, rfl⟩
  | cons piece pieces ih =>
    have hpiece := hnone piece mem_cons_self
    have hrest := ih fun p hp => hnone p (mem_cons_of_mem _ hp)
    simp [assembledChunks, assemblerAfter, hpiece, hrest]

variable {a : IncrementalUtf8Assembler}

theorem pending_assemblerAfter (hempty : (assembledChunks a pieces).flatten = []) :
    (assemblerAfter a pieces).pending = a.pending ++ pieces.flatten := by
  induction pieces generalizing a with
  | nil => simp [assemblerAfter]
  | cons piece pieces ih =>
    cases hvisible : isVisibleGeneratedPiece piece with
    | true =>
      simp only [assembledChunks, hvisible, if_true, flatten_cons, append_eq_nil_iff] at hempty
      rw [assemblerAfter, hvisible, if_pos rfl, ih hempty.2,
        append_text_eq_nil hempty.1, flatten_cons,
        append_assoc]
    | false =>
      obtain rfl : piece = [] := by simpa [isVisibleGeneratedPiece] using hvisible
      simpa [assemblerAfter, hvisible] using ih hempty

/-- A visible piece shows in the text or, at the latest, in the flush. -/
theorem assembled_ne_nil (hvisible : ∃ p ∈ pieces, isVisibleGeneratedPiece p) :
    (assembledChunks {} pieces).flatten ++ (assemblerAfter {} pieces).finish.1.text ≠ [] := by
  intro hnil
  obtain ⟨hchunks, htail⟩ := append_eq_nil_iff.mp hnil
  rw [finish_text_eq_nil_iff, pending_assemblerAfter hchunks,
    nil_append, flatten_eq_nil_iff] at htail
  obtain ⟨p, hp, hvis⟩ := hvisible
  simp [htail p hp, isVisibleGeneratedPiece] at hvis

/-- The last chunk emitted up to a stop string, against the trimmed text. -/
theorem take_emitted_eq_iff (text last s : Bytes) (hlen : s.length ≤ (text ++ last).length) :
    text ++ last.take (last.length - s.length) =
        (text ++ last).take ((text ++ last).length - s.length) ↔
      s.length ≤ last.length := by
  constructor
  · intro heq
    by_contra hlong
    have := congrArg length heq
    simp only [length_append, length_take] at this hlen
    omega
  · intro hle
    have hcut : (text ++ last).length - s.length = text.length + (last.length - s.length) := by
      rw [length_append]
      omega
    rw [hcut, take_length_add_append]

variable {k : Nat}

theorem flatten_take_succ {chunks : List Bytes} (hk : k < chunks.length) :
    (chunks.take (k + 1)).flatten = (chunks.take k).flatten ++ chunks.getD k [] := by
  rw [take_add_one, flatten_append, getD_eq_getElem?_getD, getElem?_eq_getElem hk]
  simp

section Run

variable {req : InferenceRequest} {pieces : List Bytes}

theorem generateText_of_none (hfresh : Fresh req) (hcallback : req.onToken = true)
    (hstart : req.streamed = [])
    (hnone : firstHit req.stop [] (assembledChunks {} pieces) = none) :
    let text := (assembledChunks {} pieces).flatten ++ (assemblerAfter {} pieces).finish.1.text
    (generateText req pieces).req.streamed.flatten = text ∧
      (generateText req pieces).completion = text := by
  rw [← hfresh.outputUtf8] at hnone ⊢
  simp [generateText, assemblePieces_of_none req hnone, Assembly.finish, finishGeneratedText_eq,
    outputUtf8_setText, calls_setText, streamed_setText, hstart, flatten_flatMap_calls hcallback,
    flatten_calls hcallback]

variable {s : Bytes}

theorem generateText_of_some (hfresh : Fresh req) (hcallback : req.onToken = true)
    (hstart : req.streamed = [])
    (hsome : firstHit req.stop [] (assembledChunks {} pieces) = some (k, s)) :
    let before := ((assembledChunks {} pieces).take k).flatten
    let last := (assembledChunks {} pieces).getD k []
    let tail := (assemblerAfter {} (pieces.take (k + 1))).finish.1.text
    s.length ≤ (before ++ last).length ∧
      (generateText req pieces).req.streamed.flatten =
        before ++ last.take (last.length - s.length) ++ tail ∧
      (generateText req pieces).completion =
        (before ++ last).take ((before ++ last).length - s.length) ++ tail := by
  obtain ⟨hk, -, hend⟩ := (firstHit_eq_some_iff (stopEnding_nil req.stop)).mp hsome
  have htext := flatten_take_succ hk
  have hsuf := (stopEnding_eq_some hend).2.2.length_le
  rw [nil_append, htext] at hsuf
  rw [← hfresh.outputUtf8] at hsome htext hsuf ⊢
  refine ⟨hsuf, ?_⟩
  simp [generateText, assemblePieces_of_some req hsome, Assembly.finish, finishGeneratedText_eq,
    outputUtf8_setText, calls_setText, streamed_setText, hstart, flatten_flatMap_calls hcallback,
    flatten_calls hcallback, htext]

theorem take_assembledChunks (a : IncrementalUtf8Assembler) (pieces : List Bytes) (k : Nat) :
    (assembledChunks a pieces).take k = assembledChunks a (pieces.take k) := by
  induction pieces generalizing a k with
  | nil => simp [assembledChunks]
  | cons piece pieces ih =>
    cases k with
    | zero => simp [assembledChunks]
    | succ k =>
      simp only [assembledChunks, take_succ_cons]
      split <;> simp [ih]

theorem exists_visible_of_firstHit {stops : List Bytes}
    (hhit : firstHit stops [] (assembledChunks a pieces) = some (k, s)) :
    ∃ p ∈ pieces.take (k + 1), isVisibleGeneratedPiece p := by
  by_contra hnone
  have hend := ((firstHit_eq_some_iff (stopEnding_nil stops)).mp hhit).2.2
  have hnil := (assembledChunks_of_invisible a fun p hp => by
    simpa using fun hvis => hnone ⟨p, hp, hvis⟩).1
  rw [take_assembledChunks, hnil] at hend
  simp at hend

/-- A generation that samples a visible piece is reported as it is. -/
theorem executorResult_of_visible (hvisible : ∃ p ∈ pieces, isVisibleGeneratedPiece p) :
    executorResult req pieces = generateText req pieces := by
  have hgen : (pieces.take (assemblePieces req [] pieces).consumed).countP
      isVisibleGeneratedPiece ≠ 0 := by
    rw [Ne, countP_eq_zero]
    intro hall
    cases hhit : firstHit req.stop [] (assembledChunks req.outputUtf8 pieces) with
    | none =>
      simp only [assemblePieces_of_none req hhit, take_length] at hall
      obtain ⟨p, hp, hvis⟩ := hvisible
      exact hall p hp hvis
    | some hit =>
      obtain ⟨k, s⟩ := hit
      simp only [assemblePieces_of_some req hhit] at hall
      obtain ⟨p, hp, hvis⟩ := exists_visible_of_firstHit hhit
      exact hall p hp hvis
  simp [executorResult, generateText, hgen]

/-- Without a visible piece nothing is streamed and the result carries the message. -/
theorem executorResult_of_invisible (hfresh : Fresh req) (hstart : req.streamed = [])
    (hnone : ∀ p ∈ pieces, isVisibleGeneratedPiece p = false) :
    (executorResult req pieces).req.streamed = [] ∧
      (executorResult req pieces).completion = kBackendEmptyResponseText := by
  have hchunks := assembledChunks_of_invisible req.outputUtf8 hnone
  have hhit : firstHit req.stop [] (assembledChunks req.outputUtf8 pieces) = none := by
    rw [firstHit_eq_none_iff (stopEnding_nil req.stop)]
    intro j _
    obtain ⟨more, hmore⟩ := Occurrence.flatten_take_isPrefix (assembledChunks req.outputUtf8 pieces) j
    rw [hchunks.1, append_eq_nil_iff] at hmore
    simp [hmore.1]
  have hgen : pieces.countP isVisibleGeneratedPiece = 0 :=
    countP_eq_zero.mpr fun p hp => by simp [hnone p hp]
  have hcalls : (assembledChunks req.outputUtf8 pieces).flatMap req.calls = [] := by
    rw [flatMap_eq_nil_iff]
    intro chunk hchunk
    rw [flatten_eq_nil_iff.mp hchunks.1 chunk hchunk, calls_nil]
  have hfinish : (assemblerAfter req.outputUtf8 pieces).finish = ({}, {}) := by
    rw [hchunks.2, hfresh.outputUtf8, finish_empty]
  simp only [executorResult, assemblePieces_of_none req hhit, take_length, hgen, hchunks.1,
    hcalls, Assembly.finish, finishGeneratedText_eq, outputUtf8_setText,
    streamed_setText, hfinish, hstart]
  simp

/-- On either path the streamed text is the final text exactly under `StreamsFinalText`. -/
theorem streamed_eq_completion_iff (path : AssemblyPath) (req : InferenceRequest)
    (pieces : List Bytes) (hfresh : Fresh req) (hcallback : req.onToken = true)
    (hstart : req.streamed = []) :
    (path.result req pieces).req.streamed.flatten = (path.result req pieces).completion ↔
      StreamsFinalText path req.stop pieces := by
  cases hhit : firstHit req.stop [] (assembledChunks {} pieces) with
  | none =>
    have hrun := generateText_of_none hfresh hcallback hstart hhit
    simp only [StreamsFinalText, hhit]
    by_cases hvisible : ∃ p ∈ pieces, isVisibleGeneratedPiece p
    · simp only [hvisible, iff_true]
      cases path with
      | executor =>
        rw [result, executorResult_of_visible hvisible, hrun.1, hrun.2]
      | stepwise =>
        simp only [result, Stepwise.result, Stepwise.generateText_eq hfresh]
        rw [if_neg (by simpa [hrun.2] using assembled_ne_nil hvisible), hrun.2]
        exact hrun.1
    · simp only [hvisible, iff_false]
      have hinvisible : ∀ p ∈ pieces, isVisibleGeneratedPiece p = false := by
        intro p hp
        by_contra hp'
        exact hvisible ⟨p, hp, by simpa using hp'⟩
      cases path with
      | executor =>
        rw [result, (executorResult_of_invisible hfresh hstart hinvisible).1,
          (executorResult_of_invisible hfresh hstart hinvisible).2]
        exact kBackendEmptyResponseText_ne_nil.symm
      | stepwise =>
        have hnil := assembledChunks_of_invisible {} hinvisible
        rw [hnil.1, hnil.2] at hrun
        simp only [result, Stepwise.result, Stepwise.generateText_eq hfresh]
        rw [if_pos (by simp [hrun.2])]
        intro heq
        exact kBackendEmptyResponseText_ne_nil (heq.symm.trans hrun.1)
  | some hit =>
    obtain ⟨k, s⟩ := hit
    obtain ⟨hlen, hstreamed, hcompletion⟩ := generateText_of_some hfresh hcallback hstart hhit
    obtain ⟨hk, -, hend⟩ := (firstHit_eq_some_iff (stopEnding_nil req.stop)).mp hhit
    simp only [StreamsFinalText, hhit, flatten_take_succ hk]
    generalize ((assembledChunks {} pieces).take k).flatten = before at *
    generalize (assembledChunks {} pieces).getD k [] = last at *
    have hequal : (generateText req pieces).req.streamed.flatten =
        (generateText req pieces).completion ↔ s.length ≤ last.length := by
      rw [hstreamed, hcompletion, List.append_cancel_right_eq]
      exact take_emitted_eq_iff before last s hlen
    cases path with
    | executor =>
      obtain ⟨p, hp, hvis⟩ := exists_visible_of_firstHit hhit
      rw [result, executorResult_of_visible ⟨p, List.mem_of_mem_take hp, hvis⟩]
      simpa using hequal
    | stepwise =>
      have hempty : (generateText req pieces).completion = [] ↔
          s.length = (before ++ last).length ∧
            (assemblerAfter {} (pieces.take (k + 1))).pending = [] := by
        rw [hcompletion, List.append_eq_nil_iff, IncrementalUtf8Assembler.finish_text_eq_nil_iff,
          List.take_eq_nil_iff, ← List.length_eq_zero_iff (l := before ++ last)]
        constructor <;> rintro ⟨hcut, hpending⟩ <;> refine ⟨?_, hpending⟩ <;> omega
      simp only [result, Stepwise.result, Stepwise.generateText_eq hfresh, true_and,
        ← hempty, List.isEmpty_iff]
      split_ifs with hnil
      · have hwhole := hempty.mp hnil
        have htail := IncrementalUtf8Assembler.finish_text_eq_nil_iff.mpr hwhole.2
        have hshown : (generateText req pieces).req.streamed.flatten = before := by
          rw [hstreamed, htail, List.append_nil, hwhole.1, List.length_append,
            show last.length - (before.length + last.length) = 0 by omega]
          simp
        rw [← hshown]
        rfl
      · exact hequal

theorem streamed_eq_completion_within_chunk :
    let req : InferenceRequest := { onToken := true, stop := [bytes "</s>"] }
    let pieces := [bytes "ab", bytes "c</s>", bytes "d"]
    StreamsFinalText .stepwise req.stop pieces ∧
      (AssemblyPath.stepwise.result req pieces).req.streamed.flatten =
        (AssemblyPath.stepwise.result req pieces).completion := by
  intro req pieces
  have hwithin : StreamsFinalText .stepwise req.stop pieces := by
    have hhit : firstHit req.stop [] (assembledChunks {} pieces) = some (1, bytes "</s>") := by
      decide
    simp only [StreamsFinalText, hhit]
    decide
  exact ⟨hwithin, (streamed_eq_completion_iff .stepwise req pieces ⟨rfl, rfl⟩ rfl rfl).mpr hwithin⟩

/-- A stop string that spans two pieces is trimmed from the completion after its first part
has been streamed. -/
theorem stop_across_pieces_streamed :
    let req : InferenceRequest := { onToken := true, stop := [bytes "</s>"] }
    Fresh req ∧ req.streamed = [] ∧
      ∀ path : AssemblyPath,
        (path.result req [bytes "a<", bytes "/s>"]).req.streamed = [bytes "a<"] ∧
        (path.result req [bytes "a<", bytes "/s>"]).completion = bytes "a" := by
  refine ⟨⟨rfl, rfl⟩, rfl, ?_⟩
  intro path
  cases path <;> decide

end Run

end InferFlux.Execution
