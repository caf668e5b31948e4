import InferFlux.Execution.GeneratedText
import InferFlux.Library.Occurrence

/-!
# Stop sequences

The request promises that generation halts at a stop string and that the string is not part
of the completion: the completion should be the generated text before the first position at
which any stop string occurs, and the piece that completes that occurrence the last one
sampled (`CutsAtFirstStop`).
-/

namespace InferFlux.Execution

open InferFlux.Text Occurrence List

def generateText (req : InferenceRequest) (pieces : List Bytes) : Assembly :=
  (assemblePieces req [] pieces).finish

namespace Stepwise

def generateText (req : InferenceRequest) (pieces : List Bytes) : Assembly :=
  let (req, stopHit, consumed) := assemblePieces req pieces
  let req := finishGeneratedText req
  ⟨req, req.execution.result.completion, stopHit, consumed⟩

end Stepwise

/-- The two paths on which generated pieces become a completion. -/
inductive AssemblyPath where
  | executor
  | stepwise
  deriving DecidableEq, Repr

def AssemblyPath.generateText : AssemblyPath → InferenceRequest → List Bytes → Assembly
  | .executor => Execution.generateText
  | .stepwise => Stepwise.generateText

structure Fresh (req : InferenceRequest) : Prop where
  outputUtf8 : req.outputUtf8 = {}
  completion : req.execution.result.completion = []

/-- The completion is the text before the first stop string, and generation ended with the
piece that completed it. -/
def CutsAtFirstStop (stops pieces : List Bytes) (completion : Bytes) (consumed : Nat) : Prop :=
  completion = cut stops pieces.flatten ∧ consumed = piecesThrough stops pieces

instance (stops pieces : List Bytes) (completion : Bytes) (consumed : Nat) :
    Decidable (CutsAtFirstStop stops pieces completion consumed) :=
  inferInstanceAs (Decidable (_ ∧ _))

/-- No stop string occurs, or some piece ends with one and, at the first such piece, the
first listed stop string that ends the text starts where the first occurrence in the whole
text does, while no occurrence from there was complete a piece earlier. -/
def StopAligned (stops pieces : List Bytes) : Prop :=
  (∀ i, ¬ AnyAt stops pieces.flatten i) ∨
    ∃ k s, k < pieces.length ∧
      (∀ j ≤ k, stopEnding stops (pieces.take j).flatten = none) ∧
      stopEnding stops (pieces.take (k + 1)).flatten = some s ∧
      (∀ j < (pieces.take (k + 1)).flatten.length - s.length, ¬ AnyAt stops pieces.flatten j) ∧
      ¬ AnyAt stops (pieces.take k).flatten ((pieces.take (k + 1)).flatten.length - s.length)

section Law

variable {stops pieces : List Bytes}

/-- Without a hit the whole text is kept, which is right exactly if no stop occurs. -/
theorem cutsAtFirstStop_of_none (hnone : firstHit stops [] pieces = none) :
    CutsAtFirstStop stops pieces pieces.flatten pieces.length ↔ StopAligned stops pieces := by
  have hends := (firstHit_eq_none_iff (stopEnding_nil stops)).mp hnone
  simp only [nil_append] at hends
  constructor
  · rintro ⟨hcut, -⟩
    refine Or.inl fun i hi => ?_
    rw [hcut] at hi
    exact not_anyAt_cut i hi
  · rintro (hall | ⟨k, s, hk, -, hsome, -⟩)
    · have hfirst := first_eq_none_iff.mpr hall
      exact ⟨by simp [cut, hfirst], by simp only [piecesThrough, hfirst]⟩
    · rw [hends (k + 1) (by omega)] at hsome
      cases hsome

variable {k : Nat} {s : Bytes}

/-- The position the hit trims the text to. -/
theorem anyAt_of_stopEnding (hsome : stopEnding stops (pieces.take (k + 1)).flatten = some s) :
    AnyAt stops (pieces.take (k + 1)).flatten
      ((pieces.take (k + 1)).flatten.length - s.length) := by
  obtain ⟨hmem, hne, hsuf⟩ := stopEnding_eq_some hsome
  exact anyAt_of_suffix hmem hne hsuf

theorem cutsAtFirstStop_of_some (hhit : firstHit stops [] pieces = some (k, s)) :
    let text := (pieces.take (k + 1)).flatten
    CutsAtFirstStop stops pieces (text.take (text.length - s.length)) (k + 1) ↔
      StopAligned stops pieces := by
  obtain ⟨hk, hends, hsome⟩ := (firstHit_eq_some_iff (stopEnding_nil stops)).mp hhit
  simp only [nil_append] at hends hsome
  have hdone := anyAt_of_stopEnding hsome
  obtain ⟨rest, hrest⟩ := flatten_take_isPrefix pieces (k + 1)
  generalize hp : (pieces.take (k + 1)).flatten.length - s.length = p at hdone
  have hwhole : AnyAt stops pieces.flatten p := hdone.mono ⟨rest, hrest⟩
  have htake : (pieces.take (k + 1)).flatten.take p = pieces.flatten.take p := by
    rw [← hrest, take_append_of_le_length (by omega)]
  -- Both sides say that the first occurrence starts at `p` and is not complete after `k` pieces.
  have hlaw : CutsAtFirstStop stops pieces (pieces.flatten.take p) (k + 1) ↔
      (∀ j < p, ¬ AnyAt stops pieces.flatten j) ∧ ¬ AnyAt stops (pieces.take k).flatten p := by
    constructor
    · rintro ⟨hcut, hcount⟩
      obtain ⟨i, hi⟩ := Option.ne_none_iff_exists'.mp fun hnone =>
        first_eq_none_iff.mp hnone p hwhole
      have hmin := first_eq_some_iff.mp hi
      have hip : i = p := by
        have hlen := congrArg length hcut
        simp only [cut, hi, length_take] at hlen
        have := hwhole.lt_length
        omega
      subst hip
      exact ⟨hmin.2, (piecesThrough_eq_succ_iff hk hi hdone).mp hcount.symm⟩
    · rintro ⟨hmin, hbefore⟩
      have hi := first_eq_some_iff.mpr ⟨hwhole, hmin⟩
      exact ⟨by simp [cut, hi], ((piecesThrough_eq_succ_iff hk hi hdone).mpr hbefore).symm⟩
  simp only [hp, htake, hlaw]
  constructor
  · rintro ⟨hmin, hbefore⟩
    exact Or.inr ⟨k, s, hk, hends, hsome, by rwa [hp], by rwa [hp]⟩
  · rintro (hall | ⟨k', s', hk', hends', hsome', hmin, hbefore⟩)
    · exact absurd hwhole (hall p)
    · -- The first piece that ends with a stop string is unique.
      have hkk : k' = k := by
        rcases Nat.lt_trichotomy k' k with hlt | heq | hgt
        · rw [hends (k' + 1) (by omega)] at hsome'
          cases hsome'
        · exact heq
        · rw [hends' (k + 1) (by omega)] at hsome
          cases hsome
      subst hkk
      obtain rfl := Option.some.inj (hsome.symm.trans hsome')
      rw [hp] at hmin hbefore
      exact ⟨hmin, hbefore⟩

end Law

theorem assembledChunks_validUtf8 {pieces : List Bytes} (hvalid : ∀ p ∈ pieces, ValidUtf8 p) :
    assembledChunks {} pieces = pieces ∧ assemblerAfter {} pieces = {} := by
  induction pieces with
  | nil => exact ⟨rfl, rfl⟩
  | cons piece pieces ih =>
    have hrest := ih fun p hp => hvalid p (mem_cons_of_mem _ hp)
    have hpiece := IncrementalUtf8Assembler.append_validUtf8 (hvalid piece mem_cons_self)
    cases hvisible : isVisibleGeneratedPiece piece with
    | true => simp [assembledChunks, assemblerAfter, hvisible, hpiece, hrest]
    | false =>
      obtain rfl : piece = [] := by simpa [isVisibleGeneratedPiece] using hvisible
      simp [assembledChunks, assemblerAfter, hvisible, hrest]

theorem finish_eq_self {a : Assembly} (hempty : a.req.outputUtf8 = {}) : a.finish = a := by
  simp only [Assembly.finish, finishGeneratedText, hempty,
    IncrementalUtf8Assembler.finish_empty, isEmpty_nil, if_true]
  rw [← hempty]
  rfl

variable {req : InferenceRequest}

theorem generateText_law {pieces : List Bytes} (hfresh : req.outputUtf8 = {})
    (hvalid : ∀ p ∈ pieces, ValidUtf8 p) :
    CutsAtFirstStop req.stop pieces (generateText req pieces).completion
      (generateText req pieces).consumed ↔ StopAligned req.stop pieces := by
  have hchunks := (assembledChunks_validUtf8 hvalid).1
  cases hhit : firstHit req.stop [] pieces with
  | none =>
    have hnone : firstHit req.stop [] (assembledChunks req.outputUtf8 pieces) = none := by
      rwa [hfresh, hchunks]
    have hrun := assemblePieces_of_none req hnone
    simp only [hfresh, hchunks, nil_append, (assembledChunks_validUtf8 hvalid).2] at hrun
    rw [generateText, hrun, finish_eq_self rfl]
    exact cutsAtFirstStop_of_none hhit
  | some hit =>
    obtain ⟨k, s⟩ := hit
    have hsome : firstHit req.stop [] (assembledChunks req.outputUtf8 pieces) = some (k, s) := by
      rwa [hfresh, hchunks]
    have hrun := assemblePieces_of_some req hsome
    have hpieces : ∀ p ∈ pieces.take (k + 1), ValidUtf8 p := fun p hp =>
      hvalid p (mem_of_mem_take hp)
    have htaken := assembledChunks_validUtf8 hpieces
    simp only [hfresh, hchunks, nil_append, htaken.2] at hrun
    rw [generateText, hrun, finish_eq_self rfl]
    exact cutsAtFirstStop_of_some hhit

theorem Stepwise.generateText_eq (hfresh : Fresh req) (pieces : List Bytes) :
    Stepwise.generateText req pieces =
      let a := Execution.generateText req pieces
      { a with req := a.req.setCompletion a.completion } := by
  simp [Stepwise.generateText, Stepwise.assemblePieces_eq, hfresh.completion,
    Execution.generateText, Assembly.finish, Stepwise.finishGeneratedText,
    InferenceRequest.completion_setCompletion, (TextFrame.setCompletion _).finishGeneratedText,
    InferenceRequest.setCompletion_setCompletion]

theorem AssemblyPath.generateText_eq (hfresh : Fresh req) (path : AssemblyPath)
    (pieces : List Bytes) :
    (path.generateText req pieces).completion = (Execution.generateText req pieces).completion ∧
      (path.generateText req pieces).consumed = (Execution.generateText req pieces).consumed := by
  cases path with
  | executor => exact ⟨rfl, rfl⟩
  | stepwise =>
    rw [AssemblyPath.generateText, Stepwise.generateText_eq hfresh]
    exact ⟨rfl, rfl⟩

/-- On either path the completion is the text before the first stop string, with no piece
sampled after the one that completes it, exactly if the stop strings are aligned with the
pieces. Then it contains no stop string and depends on the generated text and the set of
stop strings only. -/
theorem cutsAtFirstStop_iff (path : AssemblyPath) (req : InferenceRequest) (pieces : List Bytes)
    (hfresh : Fresh req) (hvalid : ∀ p ∈ pieces, ValidUtf8 p) :
    (CutsAtFirstStop req.stop pieces (path.generateText req pieces).completion
        (path.generateText req pieces).consumed ↔ StopAligned req.stop pieces) ∧
      (StopAligned req.stop pieces →
        (∀ i, ¬ AnyAt req.stop (path.generateText req pieces).completion i) ∧
        ∀ req' pieces', Fresh req' → (∀ p ∈ pieces', ValidUtf8 p) →
          (∀ s, s ∈ req'.stop ↔ s ∈ req.stop) → pieces'.flatten = pieces.flatten →
          StopAligned req'.stop pieces' →
          (path.generateText req' pieces').completion =
            (path.generateText req pieces).completion) := by
  have heq := AssemblyPath.generateText_eq hfresh path pieces
  have hlaw := generateText_law hfresh.outputUtf8 hvalid
  rw [heq.1, heq.2]
  refine ⟨hlaw, fun haligned => ⟨fun i => ?_, ?_⟩⟩
  · rw [(hlaw.mpr haligned).1]
    exact not_anyAt_cut i
  · intro req' pieces' hfresh' hvalid' hstops htext haligned'
    rw [(AssemblyPath.generateText_eq hfresh' path pieces').1,
      ((generateText_law hfresh'.outputUtf8 hvalid').mpr haligned').1,
      (hlaw.mpr haligned).1, htext, cut_congr hstops]

theorem cutsAtFirstStop_at_piece_end :
    let req : InferenceRequest := { stop := [bytes "</s>"] }
    let pieces := [bytes "ab", bytes "</", bytes "s>", bytes "c"]
    StopAligned req.stop pieces ∧
      CutsAtFirstStop req.stop pieces (AssemblyPath.executor.generateText req pieces).completion
        (AssemblyPath.executor.generateText req pieces).consumed := by
  intro req pieces
  have haligned : StopAligned req.stop pieces :=
    Or.inr ⟨2, bytes "</s>", by decide, by decide, by decide, by decide, by decide⟩
  have hvalid : ∀ p ∈ pieces, ValidUtf8 p := by
    simp only [pieces, List.mem_cons, List.not_mem_nil, or_false, forall_eq_or_imp, forall_eq]
    exact ⟨⟨['a', 'b'], by decide⟩, ⟨['<', '/'], by decide⟩, ⟨['s', '>'], by decide⟩,
      ⟨['c'], by decide⟩⟩
  exact ⟨haligned, (cutsAtFirstStop_iff .executor req pieces ⟨rfl, rfl⟩ hvalid).1.mpr haligned⟩

/-- A stop string that ends inside a piece is missed, and of two that end with the same
piece the order of the list decides. -/
theorem stop_inside_piece_missed :
    let req : InferenceRequest := { stop := [bytes "</s>"] }
    Fresh req ∧ ValidUtf8 (bytes "a</s>b") ∧
      (∀ path : AssemblyPath,
        (path.generateText req [bytes "a</s>b"]).completion = bytes "a</s>b" ∧
        ¬ CutsAtFirstStop req.stop [bytes "a</s>b"]
          (path.generateText req [bytes "a</s>b"]).completion
          (path.generateText req [bytes "a</s>b"]).consumed) ∧
      ∀ path : AssemblyPath,
        (path.generateText { stop := [bytes "b", bytes "ab"] } [bytes "ab"]).completion =
          bytes "a" ∧
        (path.generateText { stop := [bytes "ab", bytes "b"] } [bytes "ab"]).completion = [] := by
  refine ⟨⟨rfl, rfl⟩, ⟨['a', '<', '/', 's', '>', 'b'], by decide⟩, ?_, ?_⟩
  · intro path
    cases path <;> decide
  · intro path
    cases path <;> decide

end InferFlux.Execution
