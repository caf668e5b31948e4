import InferFlux.Scheduler.ProcessBatch
import Mathlib.Data.List.Infix

/-!
# The positions of a prefill

Embeds `ResolvePrefixReuse` and `ExecutePhasedPrefillStep` from `scheduler/scheduler.cpp` over the
sequence operations of a backend. What a sequence holds is known from the contract of these
operations in `backend_interface.h`: a failed copy or truncation leaves it empty. A prefill that
starts behind a reused prefix submits every chunk at the end of what the sequence holds.

The asynchronous lanes of a backend appear as `executeUnifiedBatch`, without outputs if the
submission or the wait fails.
-/

namespace InferFlux.Scheduler.Prefill

open InferFlux.Text InferFlux.Execution List

structure SequenceBackend (σ : Type) extends Backend σ where
  freeSequence : σ → Int → σ
  truncateSequence : σ → Int → Int → Bool × σ
  copySequencePrefix : σ → Int → Int → Int → Bool × σ

section Code

variable {σ : Type} (backend : SequenceBackend σ)

/-- The first position to evaluate after a hit, at least one before the end of the prompt. -/
def reuseStart (prompt : List Int) (matchedTokens : Int) : Int :=
  let start := max 0 (min matchedTokens prompt.length)
  if !prompt.isEmpty && start ≥ prompt.length then prompt.length - 1 else start

/-- `ResolvePrefixReuse`: where the prefill starts, and the backend after the copy. -/
def resolvePrefixReuse (inf : InferenceRequest) (lookup : RadixLookupResult) (seqId : Int)
    (reusedSessionState : Bool) (s : σ) : PrefixReusePlan × σ :=
  if !(lookup.hit && lookup.matchedTokens > 0 && lookup.sequenceId ≥ 0) then ({}, s)
  else
    let start := reuseStart inf.bpePromptTokens lookup.matchedTokens
    if !reusedSessionState then
      let (copied, s) := backend.copySequencePrefix s lookup.sequenceId seqId start
      (if copied then ⟨start, true⟩ else ⟨0, false⟩, s)
    else (⟨start, true⟩, s)

def chunkInput (sequenceId : Int) (prompt : List Int) (tokenCap chunkStart : Nat) :
    UnifiedBatchInput :=
  let chunkEnd := min (chunkStart + tokenCap) prompt.length
  { sequenceId
    nPast := chunkStart
    tokens := (prompt.drop chunkStart).take (chunkEnd - chunkStart)
    requestLogits := chunkEnd = prompt.length }

/-- The chunks from `chunkStart` on; the last argument but one is the output of the chunk before. -/
def prefillChunks (sequenceId : Int) (prompt : List Int) (tokenCap : Nat) :
    Nat → Nat → UnifiedBatchOutput → σ → Option UnifiedBatchOutput × σ
  | 0, _, finalOutput, s => (some finalOutput, s)
  | rounds + 1, chunkStart, finalOutput, s =>
    if chunkStart < prompt.length then
      match backend.executeUnifiedBatch s [chunkInput sequenceId prompt tokenCap chunkStart] with
      | ([output], s) =>
        if !output.ok then (none, s)
        else
          prefillChunks sequenceId prompt tokenCap rounds (min (chunkStart + tokenCap) prompt.length)
            output s
      | (_, s) => (none, s)
    else (some finalOutput, s)

def boundedStart (prompt : List Int) (nPastStart : Int) : Int :=
  let start := max 0 (min nPastStart prompt.length)
  if start ≥ prompt.length then max 0 (prompt.length - 1) else start

def alignSequence (sequenceId start : Int) (s : σ) : Int × σ :=
  if start = 0 then (start, backend.freeSequence s sequenceId)
  else
    let (kept, s) := backend.truncateSequence s sequenceId start
    (if kept then start else 0, s)

/-- `ExecutePhasedPrefillStep`; nothing if it returns false. The loop takes a token at least in
every round. -/
def executePhasedPrefillStep (inf : InferenceRequest) (sequenceId nPastStart chunkTokenCap : Int)
    (s : σ) : Option PrefillResult × σ :=
  let prompt := inf.bpePromptTokens
  if sequenceId < 0 || prompt.isEmpty then (none, s)
  else
    let (start, s) := alignSequence backend sequenceId (boundedStart prompt nPastStart) s
    let tokenCap := min (max 1 backend.unifiedBatchTokenCapacity) (max 1 chunkTokenCap)
    let (output, s) :=
      prefillChunks backend sequenceId prompt tokenCap.toNat prompt.length start.toNat {} s
    (output.map fun output : UnifiedBatchOutput =>
      { ok := true
        nPast := prompt.length
        firstToken := output.token
        firstPiece := if output.token ≥ 0 then output.piece else [] }, s)

/-- The prefill of an admitted request: reuse a prefix, then evaluate the rest of the prompt. -/
def prefill (inf : InferenceRequest) (lookup : RadixLookupResult) (seqId : Int)
    (reusedSessionState : Bool) (chunkTokenCap : Int) (s : σ) : Option PrefillResult × σ :=
  let (plan, s) := resolvePrefixReuse backend inf lookup seqId reusedSessionState s
  executePhasedPrefillStep backend inf seqId plan.prefillStart chunkTokenCap s

end Code

/-! ## What a sequence holds -/

section Contract

variable {σ : Type}

/-- The contract of the sequence operations, given the tokens that a sequence holds. -/
structure SequenceContract (backend : SequenceBackend σ) (resident : σ → Int → List Int) : Prop where
  free : ∀ s seq, resident (backend.freeSequence s seq) seq = []
  truncate : ∀ s seq (k : Int), resident (backend.truncateSequence s seq k).2 seq =
    if (backend.truncateSequence s seq k).1 then (resident s seq).take k.toNat else []
  copy : ∀ s src dst (k : Int), resident (backend.copySequencePrefix s src dst k).2 dst =
    if (backend.copySequencePrefix s src dst k).1 then (resident s src).take k.toNat else []
  execute : ∀ s input output s', backend.executeUnifiedBatch s [input] = ([output], s') →
    output.ok = true → input.nPast = (resident s input.sequenceId).length →
      resident s' input.sequenceId = resident s input.sequenceId ++ input.tokens

abbrev Call (σ : Type) := σ × List UnifiedBatchInput

def SequenceBackend.logged (backend : SequenceBackend σ) : SequenceBackend (σ × List (Call σ)) where
  unifiedBatchTokenCapacity := backend.unifiedBatchTokenCapacity
  executeUnifiedBatch := fun (s, log) inputs =>
    let (outputs, s') := backend.executeUnifiedBatch s inputs
    (outputs, s', log ++ [(s, inputs)])
  freeSequence := fun (s, log) seq => (backend.freeSequence s seq, log)
  truncateSequence := fun (s, log) seq k =>
    let (kept, s) := backend.truncateSequence s seq k
    (kept, s, log)
  copySequencePrefix := fun (s, log) src dst k =>
    let (copied, s) := backend.copySequencePrefix s src dst k
    (copied, s, log)

variable {backend : SequenceBackend σ}

section Round

variable {sequenceId : Int} {prompt : List Int} {tokenCap chunkStart : Nat}
  (hlt : chunkStart < prompt.length) {s s' : σ}

include hlt

theorem prefillChunks_ok {output : UnifiedBatchOutput}
    (hexec : backend.executeUnifiedBatch s [chunkInput sequenceId prompt tokenCap chunkStart] =
      ([output], s')) (hok : output.ok = true) (rounds : Nat) (finalOutput : UnifiedBatchOutput) :
    prefillChunks backend sequenceId prompt tokenCap (rounds + 1) chunkStart finalOutput s =
      prefillChunks backend sequenceId prompt tokenCap rounds
        (min (chunkStart + tokenCap) prompt.length) output s' := by
  rw [prefillChunks, if_pos hlt, hexec]
  simp [hok]

theorem prefillChunks_failed {outputs : List UnifiedBatchOutput}
    (hexec : backend.executeUnifiedBatch s [chunkInput sequenceId prompt tokenCap chunkStart] =
      (outputs, s')) (hfailed : ∀ output, outputs = [output] → output.ok = false) (rounds : Nat)
    (finalOutput : UnifiedBatchOutput) :
    prefillChunks backend sequenceId prompt tokenCap (rounds + 1) chunkStart finalOutput s =
      (none, s') := by
  rw [prefillChunks, if_pos hlt, hexec]
  rcases outputs with _ | ⟨output, _ | ⟨second, rest⟩⟩
  · rfl
  · simp [hfailed output rfl]
  · rfl

end Round

/-- A call that continues what the sequence holds along the prompt. -/
structure Continues (resident : σ → Int → List Int) (seqId : Int) (prompt : List Int)
    (call : Call σ) (input : UnifiedBatchInput) : Prop where
  inputs : call.2 = [input]
  sequenceId : input.sequenceId = seqId
  nPast : input.nPast = (resident call.1 seqId).length
  tokens : input.tokens ≠ []
  along : resident call.1 seqId ++ input.tokens <+: prompt
  requestLogits : input.requestLogits = true ↔ resident call.1 seqId ++ input.tokens = prompt

variable {resident : σ → Int → List Int} {sequenceId : Int} {prompt : List Int} {s : σ}

theorem chunkInput_continues {tokenCap chunkStart : Nat} (hcap : 1 ≤ tokenCap)
    (hlt : chunkStart < prompt.length)
    (hresident : resident s sequenceId = prompt.take chunkStart) :
    resident s sequenceId ++ (chunkInput sequenceId prompt tokenCap chunkStart).tokens =
        prompt.take (min (chunkStart + tokenCap) prompt.length) ∧
      Continues resident sequenceId prompt
        (s, [chunkInput sequenceId prompt tokenCap chunkStart])
        (chunkInput sequenceId prompt tokenCap chunkStart) := by
  have hjoin : prompt.take chunkStart ++ (prompt.drop chunkStart).take
      (min (chunkStart + tokenCap) prompt.length - chunkStart) =
      prompt.take (min (chunkStart + tokenCap) prompt.length) := by
    rw [← take_add]
    congr 1
    omega
  refine ⟨hresident ▸ hjoin, rfl, rfl, ?_, ?_, ?_, ?_⟩
  · simp only [chunkInput, hresident, length_take]
    omega
  · rw [← length_pos_iff]
    simp only [chunkInput, length_take, length_drop]
    omega
  · simp only [chunkInput, hresident, hjoin]
    exact take_prefix _ _
  · simp only [chunkInput, hresident, hjoin, decide_eq_true_eq, take_eq_self_iff]
    omega

theorem prefillChunks_spec (hcontract : SequenceContract backend resident) (sequenceId : Int)
    (prompt : List Int) {tokenCap : Nat} (hcap : 1 ≤ tokenCap) {rounds chunkStart : Nat}
    (finalOutput : UnifiedBatchOutput) (log : List (Call σ)) (hstart : chunkStart ≤ prompt.length)
    (hrounds : prompt.length ≤ chunkStart + rounds)
    (hresident : resident s sequenceId = prompt.take chunkStart) :
    let run := prefillChunks backend.logged sequenceId prompt tokenCap rounds chunkStart finalOutput
      (s, log)
    prefillChunks backend sequenceId prompt tokenCap rounds chunkStart finalOutput s =
        (run.1, run.2.1) ∧
      ∃ calls : List (Call σ), run.2.2 = log ++ calls ∧
        (∀ call ∈ calls, ∃ input, Continues resident sequenceId prompt call input) ∧
        (run.1.isSome = true → resident run.2.1 sequenceId = prompt ∧
          calls.countP (fun call => call.2.any (·.requestLogits)) =
            if chunkStart < prompt.length then 1 else 0) := by
  induction rounds generalizing chunkStart finalOutput s log with
  | zero =>
    have hend : chunkStart = prompt.length := by omega
    refine ⟨rfl, [], by simp [prefillChunks], by simp, fun _ => ⟨?_, by simp [hend]⟩⟩
    rw [prefillChunks, hresident, take_of_length_le (by omega)]
  | succ rounds ih =>
    by_cases hlt : chunkStart < prompt.length
    · obtain ⟨hjoin, hcontinues⟩ := chunkInput_continues hcap hlt hresident
      cases hexec : backend.executeUnifiedBatch s [chunkInput sequenceId prompt tokenCap chunkStart] with
      | mk outputs s' =>
        have hlogged : backend.logged.executeUnifiedBatch (s, log)
            [chunkInput sequenceId prompt tokenCap chunkStart] =
            (outputs, s', log ++ [(s, [chunkInput sequenceId prompt tokenCap chunkStart])]) := by
          simp [SequenceBackend.logged, hexec]
        by_cases hanswer : ∃ output, outputs = [output] ∧ output.ok = true
        · obtain ⟨output, rfl, hok⟩ := hanswer
          have hnext := hcontract.execute s _ output s' hexec hok hcontinues.nPast
          rw [prefillChunks_ok hlt hexec hok, prefillChunks_ok hlt hlogged hok]
          obtain ⟨herase, calls, hlog, hcalls, hdone⟩ := ih output
            (log ++ [(s, [chunkInput sequenceId prompt tokenCap chunkStart])]) (by omega) (by omega)
            (hnext.trans hjoin)
          refine ⟨herase, (s, [chunkInput sequenceId prompt tokenCap chunkStart]) :: calls, ?_, ?_,
            fun hsome => ?_⟩
          · rw [hlog, append_assoc, singleton_append]
          · intro call hcall
            obtain rfl | hcall := mem_cons.mp hcall
            · exact ⟨_, hcontinues⟩
            · exact hcalls call hcall
          · obtain ⟨hheld, hcount⟩ := hdone hsome
            refine ⟨hheld, ?_⟩
            rw [countP_cons, hcount, if_pos hlt]
            simp only [chunkInput, any_cons, any_nil, Bool.or_false, decide_eq_true_eq]
            split_ifs <;> omega
        · have hfailed : ∀ output, outputs = [output] → output.ok = false := by
            intro output houtput
            by_contra hok
            exact hanswer ⟨output, houtput, by simpa using hok⟩
          rw [prefillChunks_failed hlt hexec hfailed, prefillChunks_failed hlt hlogged hfailed]
          exact ⟨rfl, [_], rfl, by simpa using ⟨_, hcontinues⟩, by simp⟩
    · simp only [prefillChunks, if_neg hlt]
      refine ⟨trivial, [], by simp, by simp, fun _ => ⟨?_, by simp⟩⟩
      rw [hresident, take_of_length_le (by omega)]

/-! ## The prefill -/

theorem boundedStart_lt (hne : prompt ≠ []) (nPastStart : Int) :
    0 ≤ boundedStart prompt nPastStart ∧ boundedStart prompt nPastStart < prompt.length := by
  have hpos := length_pos_iff.mpr hne
  unfold boundedStart
  dsimp only
  split <;> omega

theorem boundedStart_zero (prompt : List Int) : boundedStart prompt 0 = 0 := by
  unfold boundedStart
  dsimp only
  split <;> omega

theorem reuseStart_le (prompt : List Int) {matchedTokens : Int} (hpos : 0 < matchedTokens) :
    0 ≤ reuseStart prompt matchedTokens ∧ reuseStart prompt matchedTokens ≤ matchedTokens ∧
      boundedStart prompt (reuseStart prompt matchedTokens) = reuseStart prompt matchedTokens := by
  unfold boundedStart reuseStart
  cases prompt with
  | nil => simp; omega
  | cons token rest =>
    grind

/-- A prefix that is held in full, and cut off where the evaluation starts. -/
theorem take_reuseStart {held : List Int} {matchedTokens : Int} (hpos : 0 < matchedTokens)
    (hheld : prompt.take matchedTokens.toNat <+: held) :
    prompt.take (reuseStart prompt matchedTokens).toNat <+:
      held.take (reuseStart prompt matchedTokens).toNat := by
  obtain ⟨hnonneg, hle, -⟩ := reuseStart_le prompt hpos
  have hcut := hheld.take (reuseStart prompt matchedTokens).toNat
  rwa [take_take, Nat.min_eq_left (by omega)] at hcut

variable {resident : σ → Int → List Int} (hcontract : SequenceContract backend resident)

include hcontract

theorem alignSequence_spec {start : Int} (hle : start.toNat ≤ prompt.length)
    (hheld : prompt.take start.toNat <+: resident s sequenceId) :
    let aligned := alignSequence backend sequenceId start s
    resident aligned.2 sequenceId = prompt.take aligned.1.toNat ∧
      (aligned.1 = start ∨ aligned.1 = 0) := by
  unfold alignSequence
  split
  next hzero =>
    refine ⟨?_, Or.inl rfl⟩
    rw [hcontract.free]
    simp [hzero]
  next =>
    have htruncate := hcontract.truncate s sequenceId start
    dsimp only
    cases hkept : (backend.truncateSequence s sequenceId start).1 with
    | false =>
      rw [hkept] at htruncate
      exact ⟨by simpa using htruncate, Or.inr rfl⟩
    | true =>
      refine ⟨?_, Or.inl rfl⟩
      rw [hkept, if_pos rfl] at htruncate
      rw [htruncate, if_pos rfl]
      have hprefix := prefix_iff_eq_take.mp hheld
      rw [length_take, Nat.min_eq_left hle] at hprefix
      exact hprefix.symm

/-- The evaluation of a prompt from a prefix that the sequence holds. -/
theorem executePhasedPrefillStep_spec (inf : InferenceRequest) {nPastStart : Int}
    (chunkTokenCap : Int)
    (hheld : inf.bpePromptTokens.take (boundedStart inf.bpePromptTokens nPastStart).toNat <+:
      resident s sequenceId) :
    let run := executePhasedPrefillStep backend.logged inf sequenceId nPastStart chunkTokenCap (s, [])
    executePhasedPrefillStep backend inf sequenceId nPastStart chunkTokenCap s = (run.1, run.2.1) ∧
      (∀ call ∈ run.2.2, ∃ input, Continues resident sequenceId inf.bpePromptTokens call input) ∧
      ∀ pr, run.1 = some pr → resident run.2.1 sequenceId = inf.bpePromptTokens ∧
        pr.nPast = inf.bpePromptTokens.length ∧
        run.2.2.countP (fun call => call.2.any (·.requestLogits)) = 1 := by
  unfold executePhasedPrefillStep
  dsimp only
  split
  next => exact ⟨rfl, by simp, by simp⟩
  next hgo =>
    have hne : inf.bpePromptTokens ≠ [] := by
      simp only [Bool.or_eq_true, List.isEmpty_iff, not_or] at hgo
      exact hgo.2
    obtain ⟨hnonneg, hlt⟩ := boundedStart_lt hne nPastStart
    obtain ⟨hresident, hstart⟩ := alignSequence_spec hcontract (by omega) hheld
    have hlogged : alignSequence backend.logged sequenceId
        (boundedStart inf.bpePromptTokens nPastStart) (s, []) =
        ((alignSequence backend sequenceId (boundedStart inf.bpePromptTokens nPastStart) s).1,
          (alignSequence backend sequenceId (boundedStart inf.bpePromptTokens nPastStart) s).2, []) := by
      unfold alignSequence
      split <;> rfl
    rw [hlogged]
    generalize alignSequence backend sequenceId (boundedStart inf.bpePromptTokens nPastStart) s =
      aligned at hresident hstart ⊢
    have hcap : 1 ≤ (min (max 1 backend.unifiedBatchTokenCapacity) (max 1 chunkTokenCap)).toNat := by
      omega
    have hrounds : inf.bpePromptTokens.length ≤ aligned.1.toNat + inf.bpePromptTokens.length := by
      omega
    obtain ⟨herase, calls, hlog, hcalls, hdone⟩ := prefillChunks_spec hcontract sequenceId
      inf.bpePromptTokens hcap {} [] (by omega) hrounds hresident
    rw [herase]
    rw [show backend.logged.unifiedBatchTokenCapacity = backend.unifiedBatchTokenCapacity from rfl]
    generalize prefillChunks backend.logged sequenceId inf.bpePromptTokens _ _ _ _ _ = run at *
    obtain ⟨output, s', log⟩ := run
    obtain rfl : log = calls := hlog
    refine ⟨rfl, hcalls, fun pr hpr => ?_⟩
    obtain ⟨output, rfl, rfl⟩ := Option.map_eq_some_iff.mp hpr
    obtain ⟨hheld', hcount⟩ := hdone rfl
    exact ⟨hheld', rfl, hcount.trans (if_pos (by omega))⟩

theorem resolvePrefixReuse_spec (inf : InferenceRequest) (lookup : RadixLookupResult) (seqId : Int)
    (reusedSessionState : Bool)
    (hheld : lookup.hit = true → 0 < lookup.matchedTokens → 0 ≤ lookup.sequenceId →
      inf.bpePromptTokens.take lookup.matchedTokens.toNat <+:
        resident s (if reusedSessionState then seqId else lookup.sequenceId)) :
    let reuse := resolvePrefixReuse backend inf lookup seqId reusedSessionState s
    inf.bpePromptTokens.take (boundedStart inf.bpePromptTokens reuse.1.prefillStart).toNat <+:
      resident reuse.2 seqId := by
  have hnone (held : List Int) :
      inf.bpePromptTokens.take (boundedStart inf.bpePromptTokens 0).toNat <+: held := by
    rw [boundedStart_zero]
    exact nil_prefix
  unfold resolvePrefixReuse
  by_cases hhit : (lookup.hit && lookup.matchedTokens > 0 && lookup.sequenceId ≥ 0) = true
  · rw [if_neg (by simp [hhit])]
    simp only [Bool.and_eq_true, decide_eq_true_eq] at hhit
    obtain ⟨⟨hhit, hpos⟩, hsequence⟩ := hhit
    have hstart := take_reuseStart hpos (hheld hhit hpos hsequence)
    obtain ⟨-, -, hbounded⟩ := reuseStart_le inf.bpePromptTokens hpos
    cases reusedSessionState with
    | true =>
      dsimp only
      rw [if_neg (by simp), hbounded]
      exact hstart.trans (List.take_prefix _ _)
    | false =>
      have hcopy := hcontract.copy s lookup.sequenceId seqId
        (reuseStart inf.bpePromptTokens lookup.matchedTokens)
      dsimp only
      rw [if_pos (by simp)]
      cases hcopied : (backend.copySequencePrefix s lookup.sequenceId seqId
          (reuseStart inf.bpePromptTokens lookup.matchedTokens)).1 with
      | true =>
        rw [hcopied, if_pos rfl] at hcopy
        simp only [if_true, hcopy, hbounded]
        exact hstart
      | false => exact hnone _
  · rw [if_pos (by rw [Bool.not_eq_true']; exact Bool.eq_false_iff.mpr hhit)]
    exact hnone _

/-- Every chunk of a prefill is submitted at the end of what its sequence holds, which is a prefix
of the prompt; a prefill that succeeds leaves the prompt in the sequence, and has asked for logits
at its last token only. -/
theorem prefill_positions (inf : InferenceRequest) (lookup : RadixLookupResult) (seqId : Int)
    (reusedSessionState : Bool) (chunkTokenCap : Int) (s : σ)
    (hheld : lookup.hit = true → 0 < lookup.matchedTokens → 0 ≤ lookup.sequenceId →
      inf.bpePromptTokens.take lookup.matchedTokens.toNat <+:
        resident s (if reusedSessionState then seqId else lookup.sequenceId)) :
    let run := prefill backend.logged inf lookup seqId reusedSessionState chunkTokenCap (s, [])
    prefill backend inf lookup seqId reusedSessionState chunkTokenCap s = (run.1, run.2.1) ∧
      (∀ call ∈ run.2.2, ∃ input, Continues resident seqId inf.bpePromptTokens call input) ∧
      ∀ pr, run.1 = some pr → resident run.2.1 seqId = inf.bpePromptTokens ∧
        pr.nPast = inf.bpePromptTokens.length ∧
        run.2.2.countP (fun call => call.2.any (·.requestLogits)) = 1 := by
  have hlogged : resolvePrefixReuse backend.logged inf lookup seqId reusedSessionState (s, []) =
      ((resolvePrefixReuse backend inf lookup seqId reusedSessionState s).1,
        (resolvePrefixReuse backend inf lookup seqId reusedSessionState s).2, []) := by
    unfold resolvePrefixReuse
    split
    · rfl
    · cases reusedSessionState <;> rfl
  unfold prefill
  rw [hlogged]
  exact executePhasedPrefillStep_spec hcontract inf chunkTokenCap
    (resolvePrefixReuse_spec hcontract inf lookup seqId reusedSessionState hheld)

end Contract

/-- A backend whose state is what its sequences hold, with two tokens at most in a call. -/
def residentBackend : SequenceBackend (Int → List Int) where
  unifiedBatchTokenCapacity := 2
  executeUnifiedBatch s inputs :=
    (inputs.map fun _ => { token := 7, piece := [97], ok := true }, inputs.foldl (fun s input =>
      Function.update s input.sequenceId (s input.sequenceId ++ input.tokens)) s)
  freeSequence s seq := Function.update s seq []
  truncateSequence s seq k := (true, Function.update s seq ((s seq).take k.toNat))
  copySequencePrefix s src dst k := (true, Function.update s dst ((s src).take k.toNat))

theorem residentBackend_contract : SequenceContract residentBackend fun s seq => s seq where
  free s seq := by simp [residentBackend]
  truncate s seq k := by simp [residentBackend]
  copy s src dst k := by simp [residentBackend]
  execute s input output s' hexec _ _ := by
    obtain ⟨-, rfl⟩ := Prod.mk.inj hexec
    simp

/-- The donor's first two tokens are reused, and the other three are evaluated in two chunks. -/
theorem prefill_positions_reused :
    let inf : InferenceRequest := { bpePromptTokens := [1, 2, 3, 4, 5] }
    let lookup : RadixLookupResult := { hit := true, sequenceId := 1, matchedTokens := 2 }
    let s : Int → List Int := fun seq => if seq = 1 then [1, 2, 9] else []
    let run := prefill residentBackend.logged inf lookup 0 false 512 (s, [])
    run.1 = some { ok := true, nPast := 5, firstToken := 7, firstPiece := [97] } ∧
      run.2.1 0 = [1, 2, 3, 4, 5] ∧
      run.2.2.map (fun call => call.2.map (·.nPast)) = [[2], [4]] ∧
      ∀ call ∈ run.2.2, ∃ input,
        Continues (fun (s : Int → List Int) seq => s seq) 0 [1, 2, 3, 4, 5] call input := by
  intro inf lookup s run
  have hrun : run.1 = some { ok := true, nPast := 5, firstToken := 7, firstPiece := [97] } := rfl
  obtain ⟨-, hcalls, hdone⟩ := prefill_positions residentBackend_contract inf lookup 0 false 512 s
    fun _ _ _ => ⟨[9], rfl⟩
  exact ⟨hrun, (hdone _ hrun).1, rfl, hcalls⟩

/-! ## Admission -/

section Refinement

variable {σ : Type} {backend : SequenceBackend σ} {env : AdmissionEnv} {inf : InferenceRequest}
  {seqId : Int} {s : σ}

/-- The plan of the batch is that of the backend's answer to the copy. -/
theorem resolvePrefixReuse_refines {lookup : RadixLookupResult}
    (hcopy : env.copySequencePrefix = (backend.copySequencePrefix s lookup.sequenceId seqId
      (reuseStart inf.bpePromptTokens lookup.matchedTokens)).1) :
    (resolvePrefixReuse backend inf lookup seqId false s).1 =
      Scheduler.resolvePrefixReuse env inf lookup := by
  unfold resolvePrefixReuse Scheduler.resolvePrefixReuse
  rw [hcopy]
  split <;> rfl

/-- The prefill of the batch is the phased step if this succeeds. -/
theorem runPrefill_refines {plan : PrefixReusePlan} {chunkTokenCap : Int} {pr : PrefillResult}
    (hstep : (executePhasedPrefillStep backend inf seqId plan.prefillStart chunkTokenCap s).1 = some pr)
    (hphased : env.phasedPrefillStep = some (pr.firstToken, pr.firstPiece)) :
    runPrefill env inf plan = (pr, plan) := by
  unfold executePhasedPrefillStep at hstep
  dsimp only at hstep
  split at hstep
  · simp at hstep
  next hgo =>
    obtain ⟨output, -, rfl⟩ := Option.map_eq_some_iff.mp hstep
    simp only [Bool.or_eq_true, not_or, Bool.not_eq_true] at hgo
    simp only [runPrefill, hgo.2, Bool.false_eq_true, if_false, hphased, Prod.mk.injEq, and_true]
    split <;> rfl

end Refinement

end InferFlux.Scheduler.Prefill
