import InferFlux.Library.CompressedTrie
import InferFlux.Text.IncrementalUtf8

/-!
# The speculative decoder

Embeds `SpeculativeDecoder::Draft` and `SpeculativeDecoder::Validate` from
`runtime/speculative/speculative_decoder.cpp`. The tokenizer, the backends, the greedy decoder
of the device and the validation override are functions the decoder is built with; sizes of
vectors fit in an `int`.

`Validate` reads the drafted tokens by index. A read past their end is undefined in the source
and `none` here.
-/

namespace InferFlux.Speculative

open InferFlux.Text CompressedTrie List Nat

structure SpeculativeConfig where
  enabled : Bool := false
  maxPrefillTokens : Int := 256
  chunkSize : Int := 4
  deriving DecidableEq, Repr

/-- The drafted tokens from `start` up to `stop`, which is `end` in the source. -/
structure SpeculativeChunk where
  start : Nat := 0
  stop : Nat := 0
  deriving DecidableEq, Repr

structure SpeculativeDraft where
  completionTokens : List Int := []
  chunks : List SpeculativeChunk := []
  deriving DecidableEq, Repr

structure SpeculativeMetrics where
  totalChunks : Nat := 0
  acceptedChunks : Nat := 0
  reusedTokens : Nat := 0
  deriving DecidableEq, Repr

structure SpeculativeValidationResult where
  completionTokens : List Int := []
  metrics : SpeculativeMetrics := {}
  deriving DecidableEq, Repr

structure BackendInterface where
  isReady : Bool := true
  generate : Bytes → Int → Bytes

structure SpeculativeDecoder where
  config : SpeculativeConfig := {}
  /-- `CPUDeviceContext::RunGreedyDecode`: the tokens again and a terminator. -/
  runGreedyDecode : List Int → List Int := fun tokens => tokens ++ [0]
  decode : List Int → Bytes
  encode : Bytes → List Int
  draftBackend : Option BackendInterface := none
  validationOverride : Option (List Int → Int → List Int) := none

/-! ## Drafting -/

/-- The copy loop of `Draft`: each round copies up to `chunkSize` tokens and records them as a
chunk. A round copies at least one token, so as many rounds as tokens are enough. -/
def chunkLoop (chunkSize : Nat) : Nat → List Int → SpeculativeDraft → SpeculativeDraft
  | 0, _, draft => draft
  | rounds + 1, newTokens, draft =>
    if newTokens.isEmpty then draft
    else
      let start := draft.completionTokens.length
      let completionTokens := draft.completionTokens ++ newTokens.take chunkSize
      chunkLoop chunkSize rounds (newTokens.drop chunkSize)
        { completionTokens, chunks := draft.chunks ++ [⟨start, completionTokens.length⟩] }

namespace SpeculativeDecoder

/-- What the draft backend or the greedy decoder proposes. Only the greedy decoder is given the
shortened prompt. -/
def proposedTokens (decoder : SpeculativeDecoder) (promptTokens : List Int) (maxNewTokens : Int) :
    List Int :=
  let maxPrefillTokens := decoder.config.maxPrefillTokens
  let prompt :=
    if maxPrefillTokens > 0 ∧ promptTokens.length > maxPrefillTokens then
      promptTokens.take maxPrefillTokens.toNat
    else promptTokens
  let greedy :=
    let greedy := decoder.runGreedyDecode prompt
    if greedy.length > prompt.length then greedy.drop prompt.length else greedy
  match decoder.draftBackend with
  | some backend =>
    if backend.isReady then
      decoder.encode (backend.generate (decoder.decode promptTokens) maxNewTokens)
    else greedy
  | none => greedy

def draftTokens (decoder : SpeculativeDecoder) (promptTokens : List Int) (maxNewTokens : Int) :
    List Int :=
  let newTokens := decoder.proposedTokens promptTokens maxNewTokens
  if maxNewTokens > 0 ∧ newTokens.length > maxNewTokens then newTokens.take maxNewTokens.toNat
  else newTokens

def draft (decoder : SpeculativeDecoder) (promptTokens : List Int) (maxNewTokens : Int) :
    SpeculativeDraft :=
  if !decoder.config.enabled ∨ maxNewTokens ≤ 0 then {}
  else
    let newTokens := decoder.draftTokens promptTokens maxNewTokens
    if newTokens.isEmpty then {}
    else chunkLoop (max 1 decoder.config.chunkSize).toNat newTokens.length newTokens {}

end SpeculativeDecoder

/-! ## Validating -/

/-- The loop over one chunk, with `n` tokens of it to go: whether the whole chunk was accepted,
the accepted tokens and the next position in the target. -/
def matchChunk (drafted target : List Int) (limit : Int) (completed : Nat) :
    Nat → Nat → Nat → List Int → Option (Bool × List Int × Nat)
  | 0, _, targetIndex, chunkTokens => some (true, chunkTokens, targetIndex)
  | n + 1, idx, targetIndex, chunkTokens =>
    if (completed + chunkTokens.length : Nat) ≥ limit then some (false, chunkTokens, targetIndex)
    else
      match target[targetIndex]? with
      | none => some (false, chunkTokens, targetIndex)
      | some wanted =>
        match drafted[idx]? with
        | none => none
        | some token =>
          if token ≠ wanted then some (false, chunkTokens, targetIndex)
          else matchChunk drafted target limit completed n (idx + 1) (targetIndex + 1)
            (chunkTokens ++ [token])

namespace SpeculativeValidationResult

def reuse (result : SpeculativeValidationResult) (chunkTokens : List Int) :
    SpeculativeValidationResult :=
  { completionTokens := result.completionTokens ++ chunkTokens
    metrics := { result.metrics with
      reusedTokens := result.metrics.reusedTokens + chunkTokens.length } }

def acceptChunk (result : SpeculativeValidationResult) : SpeculativeValidationResult :=
  { result with metrics := { result.metrics with
    acceptedChunks := result.metrics.acceptedChunks + 1 } }

end SpeculativeValidationResult

/-- The chunks in order, up to the first one that is not accepted as a whole. -/
def validateChunks (drafted target : List Int) (limit : Int) :
    List SpeculativeChunk → Nat → SpeculativeValidationResult →
      Option (Nat × SpeculativeValidationResult)
  | [], targetIndex, result => some (targetIndex, result)
  | chunk :: chunks, targetIndex, result =>
    if result.completionTokens.length ≥ limit then some (targetIndex, result)
    else
      match matchChunk drafted target limit result.completionTokens.length
          (chunk.stop - chunk.start) chunk.start targetIndex [] with
      | none => none
      | some (chunkOk, chunkTokens, targetIndex) =>
        if chunkTokens.isEmpty then some (targetIndex, result)
        else
          let result := result.reuse chunkTokens
          if chunkOk && chunkTokens.length == chunk.stop - chunk.start then
            validateChunks drafted target limit chunks targetIndex result.acceptChunk
          else some (targetIndex, result)

/-- The last loop: the target's tokens behind the accepted ones, up to the limit. -/
def appendTarget (limit : Int) : List Int → List Int → List Int
  | [], completion => completion
  | token :: rest, completion =>
    if completion.length < limit then appendTarget limit rest (completion ++ [token])
    else completion

namespace SpeculativeDecoder

def targetTokens (decoder : SpeculativeDecoder) (promptTokens : List Int)
    (draft : SpeculativeDraft) (maxNewTokens : Int) (targetBackend : Option BackendInterface) :
    List Int :=
  match decoder.validationOverride, targetBackend with
  | some overrideCb, _ => overrideCb promptTokens maxNewTokens
  | none, some backend =>
    if backend.isReady then
      decoder.encode (backend.generate (decoder.decode promptTokens) maxNewTokens)
    else draft.completionTokens
  | none, none => draft.completionTokens

def validate (decoder : SpeculativeDecoder) (promptTokens : List Int) (draft : SpeculativeDraft)
    (maxNewTokens : Int) (targetBackend : Option BackendInterface) :
    Option SpeculativeValidationResult :=
  let result := { metrics := { totalChunks := draft.chunks.length } }
  if maxNewTokens ≤ 0 then some result
  else
    let target := decoder.targetTokens promptTokens draft maxNewTokens targetBackend
    if target.isEmpty then some result
    else
      match validateChunks draft.completionTokens target maxNewTokens draft.chunks 0 result with
      | none => none
      | some (targetIndex, result) => some
        { result with completionTokens :=
            appendTarget maxNewTokens (target.drop targetIndex) result.completionTokens }

end SpeculativeDecoder

/-! ## Drafts -/

def SpeculativeDraft.InRange (draft : SpeculativeDraft) : Prop :=
  ∀ chunk ∈ draft.chunks, chunk.stop ≤ draft.completionTokens.length

/-- Non-empty chunks that follow each other from one position to another. -/
def Consecutive : Nat → List SpeculativeChunk → Nat → Prop
  | first, [], last => first = last
  | first, chunk :: chunks, last =>
    chunk.start = first ∧ first < chunk.stop ∧ Consecutive chunk.stop chunks last

/-- The chunks cut the drafted tokens, in order and without a gap. -/
def SpeculativeDraft.Partitioned (draft : SpeculativeDraft) : Prop :=
  Consecutive 0 draft.chunks draft.completionTokens.length

variable {chunks : List SpeculativeChunk}

theorem Consecutive.snoc {first middle last : Nat} (h : Consecutive first chunks middle)
    (hlt : middle < last) : Consecutive first (chunks ++ [⟨middle, last⟩]) last := by
  induction chunks generalizing first with
  | nil =>
    obtain rfl : first = middle := h
    exact ⟨rfl, hlt, rfl⟩
  | cons chunk chunks ih => exact ⟨h.1, h.2.1, ih h.2.2⟩

theorem Consecutive.bounds {first last : Nat} (h : Consecutive first chunks last) :
    first ≤ last ∧ ∀ chunk ∈ chunks, first < chunk.stop ∧ chunk.stop ≤ last := by
  induction chunks generalizing first with
  | nil => exact ⟨le_of_eq h, by simp⟩
  | cons chunk chunks ih =>
    obtain ⟨hle, hrest⟩ := ih h.2.2
    refine ⟨by have := h.2.1; omega, ?_⟩
    intro c hc
    obtain rfl | hc := mem_cons.mp hc
    · exact ⟨h.2.1, hle⟩
    · have := hrest c hc
      have := h.2.1
      omega

/-- The copy loop copies every token and keeps the chunks consecutive. -/
theorem chunkLoop_spec {chunkSize : Nat} (hsize : 0 < chunkSize) {rounds : Nat}
    {newTokens : List Int} (hrounds : newTokens.length ≤ rounds) (draft : SpeculativeDraft)
    (h : draft.Partitioned) :
    (chunkLoop chunkSize rounds newTokens draft).completionTokens =
        draft.completionTokens ++ newTokens ∧
      (chunkLoop chunkSize rounds newTokens draft).Partitioned := by
  induction rounds generalizing newTokens draft with
  | zero =>
    obtain rfl := length_eq_zero_iff.mp (le_zero.mp hrounds)
    exact ⟨(append_nil _).symm, h⟩
  | succ rounds ih =>
    cases newTokens with
    | nil => exact ⟨(append_nil _).symm, h⟩
    | cons token rest =>
      simp only [chunkLoop, isEmpty_cons, Bool.false_eq_true, if_false]
      have hgrow : draft.completionTokens.length <
          (draft.completionTokens ++ (token :: rest).take chunkSize).length := by
        simp only [length_append, length_take, length_cons]
        omega
      have hshort : ((token :: rest).drop chunkSize).length ≤ rounds := by
        simp only [length_drop, length_cons] at hrounds ⊢
        omega
      obtain ⟨htokens, hcut⟩ := ih hshort ⟨_, _⟩ (Consecutive.snoc h hgrow)
      refine ⟨?_, hcut⟩
      rw [htokens, append_assoc, take_append_drop]

namespace SpeculativeDecoder

variable (decoder : SpeculativeDecoder)

/-- A draft is cut into consecutive chunks, whatever the chunk size is set to. -/
theorem draft_partitioned (promptTokens : List Int) (maxNewTokens : Int) :
    (decoder.draft promptTokens maxNewTokens).Partitioned := by
  unfold draft
  split
  · exact rfl
  · dsimp only
    split
    · exact rfl
    · exact (chunkLoop_spec (by omega) (le_refl _) {} rfl).2

theorem length_draft_le (promptTokens : List Int) (maxNewTokens : Int) :
    ((decoder.draft promptTokens maxNewTokens).completionTokens.length : Int) ≤
      max 0 maxNewTokens := by
  unfold draft
  split
  · exact Int.le_max_left ..
  next h =>
    have hnew : ((decoder.draftTokens promptTokens maxNewTokens).length : Int) ≤
        max 0 maxNewTokens := by
      unfold draftTokens
      dsimp only
      split
      · rw [length_take]; omega
      · omega
    dsimp only
    split
    · exact Int.le_max_left ..
    · rw [(chunkLoop_spec (by omega) (le_refl _) {} rfl).1]
      exact hnew

end SpeculativeDecoder

/-! ## What validation returns -/

section Validation

variable {drafted target : List Int} {limit : Int}

/-- The loop over a chunk stops at its end, at the limit or at the first difference, whichever
comes first. -/
theorem matchChunk_eq (drafted target : List Int) (limit : Int) {completed : Nat}
    (n idx targetIndex : Nat) (hidx : 0 < n → idx + n ≤ drafted.length) (chunkTokens : List Int)
    (hat : (completed + chunkTokens.length : Nat) ≤ limit) :
    ∃ m, m = min n (min (limit.toNat - (completed + chunkTokens.length))
        (commonPrefixLength (drafted.drop idx) (target.drop targetIndex))) ∧
      matchChunk drafted target limit completed n idx targetIndex chunkTokens =
        some (decide (m = n), chunkTokens ++ (target.drop targetIndex).take m, targetIndex + m) := by
  induction n generalizing idx targetIndex chunkTokens with
  | zero => exact ⟨0, by simp, by simp [matchChunk]⟩
  | succ n ih =>
    unfold matchChunk
    by_cases hlimit : ((completed + chunkTokens.length : Nat) : Int) ≥ limit
    · exact ⟨0, by omega, by rw [if_pos hlimit]; simp⟩
    · rw [if_neg hlimit]
      have hin : idx < drafted.length := by have := hidx (succ_pos n); omega
      have hd : drafted.drop idx = drafted[idx] :: drafted.drop (idx + 1) :=
        drop_eq_getElem_cons hin
      cases hget : target[targetIndex]? with
      | none =>
        have hend : target.drop targetIndex = [] :=
          drop_eq_nil_of_le (getElem?_eq_none_iff.mp hget)
        refine ⟨0, ?_, by simp⟩
        rw [hend, hd]
        simp [commonPrefixLength]
      | some wanted =>
        obtain ⟨hlt, hwanted⟩ := List.getElem?_eq_some_iff.mp hget
        have ht : target.drop targetIndex = wanted :: target.drop (targetIndex + 1) := by
          rw [← hwanted]; exact drop_eq_getElem_cons hlt
        simp only [getElem?_eq_getElem hin]
        by_cases heq : drafted[idx] = wanted
        · obtain ⟨m, hm, hrun⟩ := ih (idx + 1) (targetIndex + 1) (by omega)
            (chunkTokens ++ [drafted[idx]])
            (by simp only [length_append, length_singleton]; omega)
          refine ⟨m + 1, ?_, ?_⟩
          · rw [hd, ht, commonPrefixLength, if_pos heq]
            simp only [length_append, length_singleton] at hm
            omega
          · rw [hrun, ht, take_succ_cons, heq]
            simp [add_assoc, add_comm 1 m]
        · refine ⟨0, ?_, by simp [heq]⟩
          rw [hd, ht, commonPrefixLength, if_neg heq]
          simp

theorem appendTarget_eq (rest completion : List Int) :
    appendTarget limit rest completion =
      completion ++ rest.take (limit.toNat - completion.length) := by
  induction rest generalizing completion with
  | nil => simp [appendTarget]
  | cons token rest ih =>
    unfold appendTarget
    by_cases h : (completion.length : Int) < limit
    · rw [if_pos h, ih]
      have hleft : limit.toNat - completion.length =
          limit.toNat - (completion ++ [token]).length + 1 := by
        simp only [length_append, length_singleton]; omega
      rw [hleft, take_succ_cons, append_assoc, singleton_append]
    · rw [if_neg h, show limit.toNat - completion.length = 0 by omega]
      simp

/-- Between two chunks the completion is what the target says up to the next position, all of
it reused. -/
structure Follows (target : List Int) (limit : Int) (targetIndex : Nat)
    (result : SpeculativeValidationResult) : Prop where
  completion : result.completionTokens = target.take targetIndex
  index_le : targetIndex ≤ target.length
  limit_le : (targetIndex : Int) ≤ limit
  reused : result.metrics.reusedTokens = targetIndex

namespace Follows

variable {targetIndex : Nat} {result : SpeculativeValidationResult}

theorem length (h : Follows target limit targetIndex result) :
    result.completionTokens.length = targetIndex := by
  rw [h.completion, length_take, min_eq_left h.index_le]

theorem start (target : List Int) (hpos : 0 < limit) (totalChunks : Nat) :
    Follows target limit 0 { metrics := { totalChunks } } :=
  ⟨rfl, zero_le _, Int.le_of_lt hpos, rfl⟩

section

variable (h : Follows target limit targetIndex result)
include h

theorem reuse {m : Nat} (hm : targetIndex + m ≤ target.length)
    (hlimit : ((targetIndex + m : Nat) : Int) ≤ limit) :
    Follows target limit (targetIndex + m) (result.reuse ((target.drop targetIndex).take m)) where
  completion := by
    simp [SpeculativeValidationResult.reuse, h.completion, take_add]
  index_le := hm
  limit_le := hlimit
  reused := by
    simp only [SpeculativeValidationResult.reuse, h.reused, length_take, length_drop]
    omega

theorem acceptChunk : Follows target limit targetIndex result.acceptChunk :=
  ⟨h.completion, h.index_le, h.limit_le, h.reused⟩

theorem appendTarget :
    Speculative.appendTarget limit (target.drop targetIndex) result.completionTokens =
      target.take limit.toNat := by
  have hle := h.limit_le
  have hsplit : limit.toNat = targetIndex + (limit.toNat - targetIndex) := by omega
  rw [appendTarget_eq, h.length, h.completion, hsplit, take_add]
  simp

end

end Follows

/-- The number of tokens taken from a chunk at a position of the target. -/
def accepted (drafted target : List Int) (limit : Int) (chunk : SpeculativeChunk)
    (targetIndex : Nat) : Nat :=
  min (chunk.stop - chunk.start) (min (limit.toNat - targetIndex)
    (commonPrefixLength (drafted.drop chunk.start) (target.drop targetIndex)))

theorem accepted_le (drafted target : List Int) (limit : Int) (chunk : SpeculativeChunk)
    (targetIndex : Nat) :
    accepted drafted target limit chunk targetIndex ≤ target.length - targetIndex ∧
      accepted drafted target limit chunk targetIndex ≤ limit.toNat - targetIndex := by
  have := commonPrefixLength_le_right (drafted.drop chunk.start) (target.drop targetIndex)
  rw [length_drop] at this
  unfold accepted
  omega

variable {targetIndex : Nat} {result : SpeculativeValidationResult}

theorem validateChunks_cons {chunk : SpeculativeChunk} (hin : chunk.stop ≤ drafted.length)
    (chunks : List SpeculativeChunk) (h : Follows target limit targetIndex result) :
    ∃ m, m = accepted drafted target limit chunk targetIndex ∧
      validateChunks drafted target limit (chunk :: chunks) targetIndex result =
        if m = 0 then some (targetIndex, result)
        else if m = chunk.stop - chunk.start then
          validateChunks drafted target limit chunks (targetIndex + m)
            (result.reuse ((target.drop targetIndex).take m)).acceptChunk
        else some (targetIndex + m, result.reuse ((target.drop targetIndex).take m)) := by
  refine ⟨_, rfl, ?_⟩
  have hle := accepted_le drafted target limit chunk targetIndex
  have hlimit := h.limit_le
  rw [validateChunks, h.length]
  by_cases hfull : (targetIndex : Int) ≥ limit
  · rw [if_pos hfull, if_pos (by omega)]
  · rw [if_neg hfull]
    obtain ⟨m, hm, hrun⟩ := matchChunk_eq drafted target limit (chunk.stop - chunk.start)
      chunk.start targetIndex (by omega) [] hlimit
    obtain rfl : m = accepted drafted target limit chunk targetIndex := hm
    rw [hrun]
    have hlen : ((target.drop targetIndex).take
        (accepted drafted target limit chunk targetIndex)).length =
          accepted drafted target limit chunk targetIndex := by
      rw [List.length_take, List.length_drop]; omega
    simp only [List.nil_append, List.isEmpty_iff, ← List.length_eq_zero_iff, hlen,
      Bool.and_eq_true, decide_eq_true_eq, beq_iff_eq, and_self]
    by_cases hnone : accepted drafted target limit chunk targetIndex = 0
    · simp [hnone]
    · simp [hnone]

/-- Whatever is drafted, the loop over the chunks stays on the target. -/
theorem validateChunks_follows (hin : ∀ chunk ∈ chunks, chunk.stop ≤ drafted.length)
    (h : Follows target limit targetIndex result) :
    ∃ targetIndex' result',
      validateChunks drafted target limit chunks targetIndex result = some (targetIndex', result') ∧
        Follows target limit targetIndex' result' := by
  induction chunks generalizing targetIndex result with
  | nil => exact ⟨_, _, rfl, h⟩
  | cons chunk chunks ih =>
    obtain ⟨hchunk, hchunks⟩ := forall_mem_cons.mp hin
    obtain ⟨m, hm, hrun⟩ := validateChunks_cons hchunk chunks h
    have hle := accepted_le drafted target limit chunk targetIndex
    have hindex := h.index_le
    have hlimit := h.limit_le
    have hnext := h.reuse (m := m) (by omega) (by omega)
    rw [hrun]
    split
    · exact ⟨_, _, rfl, h⟩
    · split
      · exact ih hchunks hnext.acceptChunk
      · exact ⟨_, _, rfl, hnext⟩

/-- Consecutive chunks are reused up to the first difference or the limit, and those that end
there or before are accepted. -/
theorem validateChunks_consecutive (hcut : Consecutive targetIndex chunks drafted.length)
    {common : Nat} (hcommon : common = min limit.toNat (commonPrefixLength drafted target))
    (hbefore : targetIndex ≤ common) (h : Follows target limit targetIndex result) :
    ∃ result', validateChunks drafted target limit chunks targetIndex result =
        some (common, result') ∧
      Follows target limit common result' ∧
      result'.metrics.acceptedChunks =
        result.metrics.acceptedChunks + chunks.countP (·.stop ≤ common) := by
  induction chunks generalizing targetIndex result with
  | nil =>
    have := commonPrefixLength_le_left drafted target
    obtain rfl : targetIndex = common := by
      have : targetIndex = drafted.length := hcut
      omega
    exact ⟨result, rfl, h, rfl⟩
  | cons chunk chunks ih =>
    obtain ⟨hstart, hstop, hrest⟩ := hcut
    obtain ⟨hend, hlater⟩ := hrest.bounds
    obtain ⟨m, hm, hrun⟩ := validateChunks_cons hend chunks h
    have hm' : m = min (chunk.stop - targetIndex) (common - targetIndex) := by
      have hdrop : commonPrefixLength (drafted.drop targetIndex) (target.drop targetIndex) =
          commonPrefixLength drafted target - targetIndex := commonPrefixLength_drop (by omega)
      rw [hm, accepted, hstart, hdrop]
      omega
    have hpast : ¬ chunk.stop ≤ common → (chunk :: chunks).countP (·.stop ≤ common) = 0 := by
      intro hpast
      refine countP_eq_zero.mpr ?_
      intro c hc
      obtain rfl | hc := mem_cons.mp hc
      · simpa using hpast
      · have := (hlater c hc).1
        simp only [decide_eq_true_eq]
        omega
    have hle := accepted_le drafted target limit chunk targetIndex
    have hindex := h.index_le
    have hlimit := h.limit_le
    have hnext := h.reuse (m := m) (by omega) (by omega)
    rw [hrun]
    by_cases hnone : m = 0
    · obtain rfl : targetIndex = common := by omega
      exact ⟨result, if_pos hnone, h, by rw [hpast (by omega)]; rfl⟩
    · rw [if_neg hnone]
      by_cases hwhole : m = chunk.stop - chunk.start
      · rw [show chunk.stop = targetIndex + m by omega] at hrest
        rw [if_pos hwhole]
        obtain ⟨result', hrun', hfollows, hcount⟩ := ih hrest (by omega) hnext.acceptChunk
        refine ⟨result', hrun', hfollows, ?_⟩
        have hinside : chunk.stop ≤ common := by omega
        rw [hcount, countP_cons_of_pos (by simpa using hinside)]
        simp only [SpeculativeValidationResult.acceptChunk, SpeculativeValidationResult.reuse]
        omega
      · obtain rfl : targetIndex + m = common := by omega
        exact ⟨_, if_neg hwhole, hnext, by rw [hpast (by omega)]; rfl⟩

theorem validateChunks_nil (hpos : 0 < limit) (drafted : List Int)
    (chunks : List SpeculativeChunk) (metrics : SpeculativeMetrics) :
    validateChunks drafted [] limit chunks 0 { metrics } = some (0, { metrics }) := by
  cases chunks with
  | nil => rfl
  | cons chunk chunks =>
    have hopen : ¬ limit ≤ 0 := by omega
    cases hlen : chunk.stop - chunk.start <;> simp [validateChunks, matchChunk, hlen, hopen]

end Validation

namespace SpeculativeDecoder

variable (decoder : SpeculativeDecoder) (promptTokens : List Int)
  (targetBackend : Option BackendInterface) {maxNewTokens : Int} {draft : SpeculativeDraft}

theorem validate_of_follows (hpos : 0 < maxNewTokens)
    {target : List Int}
    (htarget : decoder.targetTokens promptTokens draft maxNewTokens targetBackend = target)
    {targetIndex : Nat} {result : SpeculativeValidationResult}
    (hrun : validateChunks draft.completionTokens target maxNewTokens draft.chunks 0
      { metrics := { totalChunks := draft.chunks.length } } = some (targetIndex, result))
    (h : Follows target maxNewTokens targetIndex result) :
    decoder.validate promptTokens draft maxNewTokens targetBackend =
      some { result with completionTokens := target.take maxNewTokens.toNat } := by
  unfold validate
  rw [if_neg (by omega), htarget]
  dsimp only
  cases htokens : target.isEmpty with
  | true =>
    obtain rfl := isEmpty_iff.mp htokens
    rw [validateChunks_nil hpos] at hrun
    cases hrun
    rw [take_nil]
    rfl
  | false => rw [hrun, ← h.appendTarget]; rfl

/-- Validation of a draft that may be read gives the beginning of the target. -/
theorem validate_completion (hin : draft.InRange) (hpos : 0 < maxNewTokens) :
    ∃ result, decoder.validate promptTokens draft maxNewTokens targetBackend = some result ∧
      result.completionTokens =
        (decoder.targetTokens promptTokens draft maxNewTokens targetBackend).take
          maxNewTokens.toNat := by
  obtain ⟨targetIndex, result, hrun, hfollows⟩ :=
    validateChunks_follows hin (Follows.start _ hpos draft.chunks.length)
  exact ⟨_, decoder.validate_of_follows promptTokens targetBackend hpos rfl hrun hfollows, rfl⟩

/-- What a draft in consecutive chunks saves: the tokens up to the first difference or the
limit, and the chunks that end by then. -/
theorem validate_partitioned (hcut : draft.Partitioned)
    (hpos : 0 < maxNewTokens) {common : Nat}
    (hcommon : common = min maxNewTokens.toNat (commonPrefixLength draft.completionTokens
      (decoder.targetTokens promptTokens draft maxNewTokens targetBackend))) :
    ∃ result, decoder.validate promptTokens draft maxNewTokens targetBackend = some result ∧
      result.metrics.reusedTokens = common ∧
      result.metrics.acceptedChunks = draft.chunks.countP (·.stop ≤ common) := by
  obtain ⟨result, hrun, hfollows, hcount⟩ := validateChunks_consecutive hcut hcommon
    (zero_le _) (Follows.start _ hpos draft.chunks.length)
  refine ⟨_, decoder.validate_of_follows promptTokens targetBackend hpos rfl hrun hfollows,
    hfollows.reused, ?_⟩
  rw [hcount]
  exact zero_add _

/-- Speculative decoding is lossless. The completion is the beginning of the target's tokens,
whatever a draft proposes; a draft of `Draft` is cut into consecutive chunks, its tokens are
reused up to the first difference with the target or the limit, and the chunks inside that part
are the accepted ones. Where the draft was made under a limit that is no larger, that part is
the whole common prefix. -/
theorem validate_lossless (maxNewTokens : Int) (hpos : 0 < maxNewTokens) :
    (∀ draft : SpeculativeDraft, draft.InRange →
      ∃ result, decoder.validate promptTokens draft maxNewTokens targetBackend = some result ∧
        result.completionTokens =
          (decoder.targetTokens promptTokens draft maxNewTokens targetBackend).take
            maxNewTokens.toNat) ∧
    ∀ (draftPrompt : List Int) (draftLimit : Int) (draft : SpeculativeDraft),
      draft = decoder.draft draftPrompt draftLimit →
      draft.Partitioned ∧
      ∃ result common,
        decoder.validate promptTokens draft maxNewTokens targetBackend = some result ∧
        common = commonPrefixLength draft.completionTokens
          (decoder.targetTokens promptTokens draft maxNewTokens targetBackend) ∧
        result.metrics.reusedTokens = min maxNewTokens.toNat common ∧
        result.metrics.acceptedChunks =
          draft.chunks.countP (·.stop ≤ min maxNewTokens.toNat common) ∧
        (draftLimit ≤ maxNewTokens →
          result.metrics.acceptedChunks = draft.chunks.countP (·.stop ≤ common)) := by
  refine ⟨fun draft hin => decoder.validate_completion promptTokens targetBackend hin hpos, ?_⟩
  rintro draftPrompt draftLimit draft hdraft
  have hcut : draft.Partitioned := hdraft ▸ decoder.draft_partitioned draftPrompt draftLimit
  obtain ⟨result, hrun, hreused, haccepted⟩ :=
    decoder.validate_partitioned promptTokens targetBackend hcut hpos rfl
  refine ⟨hcut, result, _, hrun, rfl, hreused, haccepted, fun hlimit => ?_⟩
  have hshort : (draft.completionTokens.length : Int) ≤ maxNewTokens :=
    Int.le_trans (hdraft ▸ decoder.length_draft_le draftPrompt draftLimit) (by omega)
  have hprefix := commonPrefixLength_le_left draft.completionTokens
    (decoder.targetTokens promptTokens draft maxNewTokens targetBackend)
  rw [haccepted, Nat.min_eq_right (by omega)]

/-- A decoder whose draft backend proposes 1, 2, 3, 4 in pairs where 1, 2, 9, 4 is right. -/
def pairsDecoder : SpeculativeDecoder where
  config := { enabled := true, chunkSize := 2 }
  decode := List.map fun token => UInt8.ofNat token.toNat
  encode := List.map fun byte => (byte.toNat : Int)
  draftBackend := some { generate := fun _ _ => [1, 2, 3, 4] }
  validationOverride := some fun _ _ => [1, 2, 9, 4]

theorem pairsDecoder_lossless :
    (∃ result, pairsDecoder.validate [7] ⟨[5, 6], [⟨0, 2⟩]⟩ 3 none = some result ∧
      result.completionTokens = [1, 2, 9]) ∧
    ∃ result, pairsDecoder.validate [7] (pairsDecoder.draft [7] 3) 3 none = some result ∧
      result.metrics.reusedTokens = 2 ∧ result.metrics.acceptedChunks = 1 := by
  have h := pairsDecoder.validate_lossless [7] none 3 (by decide)
  refine ⟨h.1 ⟨[5, 6], [⟨0, 2⟩]⟩ (by simp [SpeculativeDraft.InRange]), ?_⟩
  obtain ⟨-, result, common, hrun, rfl, hreused, -, haccepted⟩ := h.2 [7] 3 _ rfl
  exact ⟨result, hrun, hreused, haccepted (by decide)⟩

end SpeculativeDecoder

end InferFlux.Speculative
