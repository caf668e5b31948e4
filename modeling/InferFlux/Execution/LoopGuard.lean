import InferFlux.Execution.DecodePaths

/-!
# The guard of the decode loop

`ExecuteUnifiedBatchPhased` gives up after 10000 rounds. A request takes part in a round with a
chunk of its prompt, with a token that is emitted, or with one that is not, and each of these it
can do only so often: `Slot.roundsLeft` counts what is left, and `worstRounds` is its value when
the slice begins. The HTTP layer accepts any positive `max_tokens`.
-/

namespace InferFlux.Execution

open InferFlux.Text ReqState InferenceRequest List Slot Bool

variable {rounds : Nat} {slots : List Slot}

section Guard

variable {σ : Type} (backend : Backend σ) (tuning : UnifiedBatchTuning)

/-- The loop uses up its rounds: it neither runs out of inputs nor fails before. -/
def guardReached : Nat → List Slot → σ → Bool
  | 0, _, _ => true
  | rounds + 1, slots, s =>
    let (slots, s) := backend.loadSlots slots s
    if (roundInputs backend tuning slots).isEmpty then false
    else
      let (step, s) := backend.executeUnifiedBatch s (roundInputs backend tuning slots)
      if step.isEmpty then false
      else
        let (cancelled, s) := backend.cancelled s
        guardReached rounds (scatterOutputs cancelled
          (slots.map (Slot.buildInput (roundCap backend tuning slots))) step) s

variable {backend tuning} {s s₀ : σ} {loaded : List Slot}

theorem guardReached_round (hload : backend.loadSlots slots s = (loaded, s₀)) {s' : σ}
    {step : List UnifiedBatchOutput}
    (hexec : backend.executeUnifiedBatch s₀ (roundInputs backend tuning loaded) = (step, s')) :
    guardReached backend tuning (rounds + 1) slots s = true ↔
      roundInputs backend tuning loaded ≠ [] ∧ step ≠ [] ∧
        guardReached backend tuning rounds
          (scatterOutputs (backend.cancelled s').1
            (loaded.map (buildInput (roundCap backend tuning loaded))) step)
          (backend.cancelled s').2 = true := by
  simp [guardReached, hload, hexec]

/-- A round after which the guard is not reached is the last one, or its slots move. -/
theorem round_of_not_guardReached (hload : backend.loadSlots slots s = (loaded, s₀))
    (h : guardReached backend tuning (rounds + 1) slots s = false) :
    (∃ s', ∀ n, unifiedLoop backend tuning (n + 1) slots s =
        ((loaded.map (buildInput (roundCap backend tuning loaded))).map failRound, s')) ∨
      ∃ next s', RoundMoves (roundCap backend tuning loaded) loaded next ∧
        guardReached backend tuning rounds next s' = false ∧
        ∀ n, unifiedLoop backend tuning (n + 1) slots s = unifiedLoop backend tuning n next s' := by
  have hround (n : Nat) := unifiedLoop_round_eq backend tuning n hload
  by_cases hinputs : roundInputs backend tuning loaded = []
  · refine Or.inl ⟨s₀, fun n => ?_⟩
    rw [hround, if_pos (by rw [hinputs]; rfl), map_fst_buildInput backend tuning hinputs]
  · cases hexec : backend.executeUnifiedBatch s₀ (roundInputs backend tuning loaded) with
    | mk step s' =>
      by_cases hstep : step = []
      · refine Or.inl ⟨s', fun n => ?_⟩
        rw [hround, hexec]
        simp [hinputs, hstep]
      · have hrest := mt (guardReached_round hload hexec).mpr (eq_false_iff.mp h)
        refine Or.inr ⟨_, (backend.cancelled s').2,
          roundMoves_answered _ loaded (backend.cancelled s').1 step, ?_, fun n => ?_⟩
        · simpa [hinputs, hstep] using hrest
        · rw [hround, hexec]
          simp [hinputs, hstep]

theorem unifiedLoop_of_not_guardReached (h : guardReached backend tuning rounds slots s = false)
    (more : Nat) :
    unifiedLoop backend tuning (rounds + more) slots s =
      unifiedLoop backend tuning rounds slots s := by
  induction rounds generalizing slots s with
  | zero => simp [guardReached] at h
  | succ rounds ih =>
    rw [Nat.add_right_comm]
    obtain ⟨s', hlast⟩ | ⟨next, s', -, hrest, hnext⟩ := round_of_not_guardReached rfl h
    · rw [hlast, hlast]
    · rw [hnext, hnext, ih hrest]

end Guard

/-! ## The rounds a slot has left -/

/-- The rounds of a prompt of which so many tokens remain, in chunks of at least `chunk` tokens. A
slot with nothing left of its prompt loses a round. -/
def prefillRounds (chunk remaining : Int) : Int :=
  if remaining ≤ 0 then 2 else (remaining + chunk - 1) / chunk

def Slot.roundsLeft (chunk : Int) (slot : Slot) : Int :=
  let state := slot.state
  let steps := state.decodeLimit - state.tokensGenerated +
    (state.maxNonEmittingSteps - state.nonEmittingSteps)
  if !state.active || slot.req.cancellationFlag then 0
  else if state.inPrefill then
    prefillRounds chunk (slot.req.bpePromptTokens.length - slot.req.prefillOffset) + steps - 2
  else if state.tokensGenerated < state.decodeLimit then steps - 1
  else 0

structure Slot.Counting (slot : Slot) : Prop where
  nonEmitting : slot.state.active = true →
    slot.state.nonEmittingSteps < slot.state.maxNonEmittingSteps
  room : slot.state.active = true → slot.state.inPrefill = true →
    slot.state.tokensGenerated < slot.state.decodeLimit
  offset : 0 ≤ slot.req.prefillOffset

theorem one_le_prefillRounds {chunk : Int} (hchunk : 1 ≤ chunk) (remaining : Int) :
    1 ≤ prefillRounds chunk remaining := by
  unfold prefillRounds
  split
  · omega
  · exact Int.le_ediv_of_mul_le (by omega) (by omega)

theorem prefillRounds_sub_chunk {chunk : Int} (hchunk : 1 ≤ chunk) (remaining : Int)
    (hrest : 0 < remaining - chunk) :
    prefillRounds chunk (remaining - chunk) = prefillRounds chunk remaining - 1 := by
  have hsum : remaining + chunk - 1 = (remaining - chunk + chunk - 1) + 1 * chunk := by omega
  unfold prefillRounds
  rw [if_neg (by omega), if_neg (by omega), hsum, Int.add_mul_ediv_right _ _ (by omega)]
  omega

theorem prefillRounds_sub {chunk : Int} (hchunk : 1 ≤ chunk) (remaining taken : Int)
    (htaken : chunk ≤ taken) (hrest : 0 < remaining - taken) :
    prefillRounds chunk (remaining - taken) ≤ prefillRounds chunk remaining - 1 := by
  rw [← prefillRounds_sub_chunk hchunk remaining (by omega)]
  unfold prefillRounds
  rw [if_neg (by omega), if_neg (by omega)]
  exact Int.ediv_le_ediv (by omega) (by omega)

variable {slot : Slot}

theorem Slot.roundsLeft_of_not_active (chunk : Int) (h : slot.state.active = false) :
    slot.roundsLeft chunk = 0 := by
  simp [roundsLeft, h]

theorem Slot.Counting.ended {chunk bound : Int} (h : slot.state.active = false)
    (hoffset : 0 ≤ slot.req.prefillOffset) (hbound : 0 ≤ bound) :
    slot.Counting ∧ slot.roundsLeft chunk ≤ bound :=
  ⟨⟨fun hactive => by simp [h] at hactive, fun hactive => by simp [h] at hactive, hoffset⟩,
    by rwa [roundsLeft_of_not_active chunk h]⟩

variable {res : UnifiedBatchOutput}

/-- A visible token is counted; a stop sequence or a cancellation ends the slot. -/
theorem Slot.acceptToken_visible (slot : Slot) (h : isVisibleGeneratedPiece res.piece = true)
    (cancelled : Bool) :
    (∃ streamed a, (slot.acceptToken res cancelled).req = slot.req.setText streamed a) ∧
      (slot.acceptToken res cancelled).state = (deactivateIf
        { slot.state with
          currentToken := res.token
          tokensGenerated := slot.state.tokensGenerated + 1 }
        cancelled .cancelled).deactivateIf
          (appendGeneratedPiece slot.req res.piece slot.result.completion).1 .stop := by
  obtain ⟨streamed, a, htext⟩ :=
    appendGeneratedPiece_frame slot.req res.piece slot.result.completion
  refine ⟨⟨streamed, a, ?_⟩, ?_⟩
  · simp [acceptToken, h, htext]
  · simp only [acceptToken, h, if_true]
    rfl

/-- A token costs a slot past its prompt one of its steps. -/
theorem Slot.Counting.acceptToken (chunk : Int) (res : UnifiedBatchOutput) (cancelled : Bool)
    (hpast : slot.state.inPrefill = false)
    (hnonEmitting : slot.state.nonEmittingSteps < slot.state.maxNonEmittingSteps)
    (hroom : slot.state.tokensGenerated < slot.state.decodeLimit)
    (hoffset : 0 ≤ slot.req.prefillOffset) :
    (slot.acceptToken res cancelled).Counting ∧
      (slot.acceptToken res cancelled).roundsLeft chunk ≤
        slot.state.decodeLimit - slot.state.tokensGenerated +
          (slot.state.maxNonEmittingSteps - slot.state.nonEmittingSteps) - 2 := by
  cases hvisible : isVisibleGeneratedPiece res.piece with
  | true =>
    obtain ⟨⟨streamed, a, hreq⟩, hstate⟩ := acceptToken_visible slot hvisible cancelled
    have hoffset' : 0 ≤ (slot.acceptToken res cancelled).req.prefillOffset := hreq ▸ hoffset
    refine ⟨⟨fun _ => ?_, fun _ hin => ?_, hoffset'⟩, ?_⟩
    · simpa [hstate] using hnonEmitting
    · simp [hstate, hpast] at hin
    · simp only [roundsLeft, hstate, deactivateIf_eq, hpast, false_eq_true, if_false]
      split_ifs <;> omega
  | false =>
    rw [acceptToken_invisible slot hvisible cancelled]
    refine ⟨⟨fun hactive => ?_, fun _ hin => ?_, hoffset⟩, ?_⟩
    · simp only [deactivateIf_eq, and_eq_true, not_eq_true',
        decide_eq_false_iff_not] at hactive
      simp only [deactivateIf_eq]
      omega
    · simp [hpast] at hin
    · simp only [roundsLeft, deactivateIf_eq, hpast, false_eq_true, if_false]
      split_ifs <;> omega

def Slot.remaining (slot : Slot) : Int := slot.req.bpePromptTokens.length - slot.req.prefillOffset

variable {cap : Int} {input : UnifiedBatchInput}

/-- A slot with an input submits a chunk of its prompt or its last token. -/
theorem Slot.buildInput_some (hoffset : 0 ≤ slot.req.prefillOffset)
    (h : (slot.buildInput cap).2 = some input) :
    slot.state.active = true ∧ slot.req.cancellationFlag = false ∧
      (slot.state.inPrefill = true ∧ 0 < slot.remaining ∧
          (input.tokens.length : Int) = min slot.remaining cap ∨
        slot.state.inPrefill = false ∧ slot.state.tokensGenerated < slot.state.decodeLimit) := by
  unfold buildInput at h
  dsimp only at h
  split_ifs at h with hactive hcancelled hin hchunk hroom
  · obtain rfl := Option.some.inj h
    refine ⟨by simpa using hactive, by simpa using hcancelled, Or.inl ⟨hin, ?_, ?_⟩⟩
    · unfold remaining
      omega
    · simp only [length_take, length_drop, remaining]
      omega
  · exact ⟨by simpa using hactive, by simpa using hcancelled, Or.inr ⟨by simpa using hin, hroom⟩⟩

theorem Slot.roundsLeft_prefill (chunk : Int) (hactive : slot.state.active = true)
    (hcancelled : slot.req.cancellationFlag = false) (hin : slot.state.inPrefill = true) :
    slot.roundsLeft chunk = prefillRounds chunk slot.remaining +
      (slot.state.decodeLimit - slot.state.tokensGenerated +
        (slot.state.maxNonEmittingSteps - slot.state.nonEmittingSteps)) - 2 := by
  simp [roundsLeft, hactive, hcancelled, hin, remaining]

theorem Slot.roundsLeft_decode (chunk : Int) (hactive : slot.state.active = true)
    (hcancelled : slot.req.cancellationFlag = false) (hin : slot.state.inPrefill = false)
    (hroom : slot.state.tokensGenerated < slot.state.decodeLimit) :
    slot.roundsLeft chunk = slot.state.decodeLimit - slot.state.tokensGenerated +
      (slot.state.maxNonEmittingSteps - slot.state.nonEmittingSteps) - 1 := by
  simp [roundsLeft, hactive, hcancelled, hin, hroom]

theorem Slot.Counting.one_le_roundsLeft {chunk : Int} (hchunk : 1 ≤ chunk) (h : slot.Counting)
    (hinput : (slot.buildInput cap).2 = some input) : 1 ≤ slot.roundsLeft chunk := by
  obtain ⟨hactive, hcancelled, ⟨hin, -, -⟩ | ⟨hpast, hroom⟩⟩ := buildInput_some h.offset hinput
  · have := h.nonEmitting hactive
    have := h.room hactive hin
    have := one_le_prefillRounds hchunk slot.remaining
    rw [roundsLeft_prefill chunk hactive hcancelled hin]
    omega
  · have := h.nonEmitting hactive
    rw [roundsLeft_decode chunk hactive hcancelled hpast hroom]
    omega

/-- A round without an input ends the slot, or its prompt. -/
theorem Slot.Counting.idle {chunk : Int} (hcap : 1 ≤ cap) (h : slot.Counting)
    (hnone : (slot.buildInput cap).2 = none) :
    (slot.buildInput cap).1.Counting ∧
      (slot.buildInput cap).1.roundsLeft chunk ≤ max 0 (slot.roundsLeft chunk - 1) := by
  unfold buildInput at hnone ⊢
  dsimp only at hnone ⊢
  split_ifs at hnone ⊢ with hactive hcancelled hin hchunk hroom
  · exact Counting.ended (by simpa using hactive) h.offset (by omega)
  · exact Counting.ended rfl h.offset (by omega)
  · have hactive : slot.state.active = true := by simpa using hactive
    have hcancelled : slot.req.cancellationFlag = false := by simpa using hcancelled
    have hroom := h.room hactive hin
    refine ⟨⟨h.nonEmitting, fun _ hin' => by simp at hin', h.offset⟩, ?_⟩
    have hnext : roundsLeft chunk
        { slot with state := { slot.state with inPrefill := false } } = _ :=
      roundsLeft_decode chunk hactive hcancelled rfl hroom
    have hnothing : prefillRounds chunk slot.remaining = 2 := if_pos (by unfold remaining; omega)
    rw [hnext, roundsLeft_prefill chunk hactive hcancelled hin, hnothing]
    dsimp only
    omega
  · exact Counting.ended rfl h.offset (by omega)

/-- The answer to a slot's input costs it a round. -/
theorem Slot.Counting.consumeOutput {chunk : Int} (hchunk : 1 ≤ chunk) (hcap : chunk ≤ cap)
    (h : slot.Counting) (hinput : (slot.buildInput cap).2 = some input) (res : UnifiedBatchOutput)
    (cancelled : Bool) :
    (slot.consumeOutput input res cancelled).Counting ∧
      (slot.consumeOutput input res cancelled).roundsLeft chunk ≤ slot.roundsLeft chunk - 1 := by
  obtain ⟨hactive, hcancelled, hcase⟩ := buildInput_some h.offset hinput
  have hnonEmitting := h.nonEmitting hactive
  rcases hcase with ⟨hin, hpos, hlength⟩ | ⟨hpast, hroom⟩
  · have hroom := h.room hactive hin
    have hrounds := one_le_prefillRounds hchunk slot.remaining
    have hleft := roundsLeft_prefill chunk hactive hcancelled hin
    have hoffset := h.offset
    simp only [Slot.consumeOutput, hin, if_true]
    split
    · exact Counting.ended rfl h.offset (by omega)
    · split
      · by_cases hend : (!res.ok || decide (res.token < 0)) = true
        · rw [if_pos hend]
          refine Counting.ended rfl ?_ (by omega)
          split <;> dsimp only <;> omega
        · rw [if_neg hend]
          refine And.imp_right (fun hle => Int.le_trans hle ?_)
            (Counting.acceptToken chunk res false rfl hnonEmitting hroom ?_)
          · dsimp only
            omega
          · split <;> dsimp only <;> omega
      · rename_i hmore
        have hless : input.tokens.length < slot.remaining := by
          unfold remaining
          omega
        have hsub := prefillRounds_sub hchunk slot.remaining input.tokens.length (by omega) (by omega)
        refine ⟨⟨h.nonEmitting, h.room, by dsimp only; omega⟩, ?_⟩
        have hnext : roundsLeft chunk { slot with req :=
            { slot.req with
              prefillOffset := slot.req.prefillOffset + input.tokens.length
              nPast := slot.req.prefillOffset + input.tokens.length } } = _ :=
          roundsLeft_prefill chunk hactive hcancelled hin
        have hrest : slot.req.bpePromptTokens.length -
            (slot.req.prefillOffset + input.tokens.length) =
            slot.remaining - input.tokens.length := by
          unfold remaining
          omega
        rw [hnext, hleft, remaining]
        dsimp only
        rw [hrest]
        omega
  · have hleft := roundsLeft_decode chunk hactive hcancelled hpast hroom
    simp only [Slot.consumeOutput, hpast, false_eq_true, if_false]
    split
    · exact Counting.ended rfl h.offset (by omega)
    · refine And.imp_right (fun hle => Int.le_trans hle ?_)
        (Counting.acceptToken chunk res _ hpast hnonEmitting hroom h.offset)
      dsimp only
      omega

theorem Slot.Counting.load {chunk bound : Int} (h : slot.Counting) (hbound : 0 ≤ bound)
    (hle : slot.roundsLeft chunk ≤ bound) (cancelled : Int → Bool) :
    (slot.load cancelled).Counting ∧ (slot.load cancelled).roundsLeft chunk ≤ bound := by
  refine ⟨⟨h.nonEmitting, h.room, h.offset⟩, ?_⟩
  cases hcancelled : cancelled slot.req.sequenceId with
  | false => simpa [roundsLeft, Slot.load, hcancelled] using hle
  | true => simpa [roundsLeft, Slot.load, hcancelled] using hbound

/-- Every move costs a slot a round, as long as it has one left. -/
theorem SlotMove.roundsLeft {chunk : Int} (hchunk : 1 ≤ chunk) (hcap : chunk ≤ cap) {next : Slot}
    {input : Option UnifiedBatchInput} (h : slot.Counting) (hmove : SlotMove cap slot input next) :
    next.Counting ∧ next.roundsLeft chunk ≤ max 0 (slot.roundsLeft chunk - 1) := by
  cases hmove with
  | idle hnone => exact h.idle (by omega) hnone
  | answered hinput res cancelled =>
    obtain ⟨hcounting, hle⟩ := h.consumeOutput hchunk hcap hinput res cancelled
    exact ⟨hcounting, by omega⟩
  | failed hinput =>
    exact Slot.Counting.ended rfl h.offset (by omega)

/-! ## The rounds of a loop -/

theorem RoundMoves.of_mem {next : List Slot} (h : RoundMoves cap slots next) (hslot : slot ∈ next) :
    ∃ before ∈ slots, ∃ input, SlotMove cap before input slot := by
  obtain ⟨i, hi⟩ := List.getElem?_of_mem hslot
  have hlt := (List.getElem?_eq_some_iff.mp hi).1
  have hbefore : slots[i]? = some (slots.get ⟨i, h.length ▸ hlt⟩) := by simp
  obtain ⟨slot', hslot', hmove⟩ := h.move i _ hbefore
  obtain rfl := Option.some.inj (hi.symm.trans hslot')
  exact ⟨_, mem_of_getElem? hbefore, _, hmove⟩

/-- The least chunk size of a batch of so many requests. -/
def leastChunk (unifiedBatchTokenCapacity : Int) (tuning : UnifiedBatchTuning) (requests : Nat) :
    Int :=
  computePrefillChunkCap (max 1 unifiedBatchTokenCapacity) (requests - 1) requests tuning

theorem ediv_le_ediv_of_le {a b n p : Int} (hb : 0 ≤ a) (hab : a ≤ b) (hp : 0 < p) (hpn : p ≤ n) :
    a / n ≤ b / p := by
  have hquot : 0 ≤ a / n := Int.ediv_nonneg hb (by omega)
  have hmul : a / n * n ≤ a := Int.ediv_mul_le a (by omega)
  have hmono : a / n * p ≤ a / n * n := Int.mul_le_mul_of_nonneg_left hpn hquot
  exact Int.le_ediv_of_mul_le hp (by omega)

theorem countP_wants_le (slots : List Slot) :
    slots.countP wantsDecode + slots.countP wantsPrefill ≤ slots.length := by
  induction slots with
  | nil => simp
  | cons slot slots ih =>
    have hone : ¬ (slot.wantsDecode = true ∧ slot.wantsPrefill = true) := by
      simp only [wantsDecode, wantsPrefill, and_eq_true, not_eq_true']
      rintro ⟨⟨⟨-, hpast⟩, -⟩, -, hin⟩
      simp [hpast] at hin
    simp only [countP_cons, length_cons]
    split_ifs <;> first | omega | (exfalso; tauto)

variable {σ : Type}

theorem leastChunk_le_roundCap (backend : Backend σ) (tuning : UnifiedBatchTuning)
    (slots : List Slot) :
    leastChunk backend.unifiedBatchTokenCapacity tuning slots.length ≤
      roundCap backend tuning slots := by
  have hcount := countP_wants_le slots
  unfold leastChunk roundCap computePrefillChunkCap
  dsimp only
  split_ifs with hn hp hp
  · exact Int.le_refl _
  · omega
  · omega
  · have hdiv := ediv_le_ediv_of_le (n := slots.length) (p := slots.countP wantsPrefill)
      (a := max 1 (min (max 1 (min tuning.chunkedPrefillTokens
        (max 1 backend.unifiedBatchTokenCapacity))) (max 1 (tuning.mixedPrefillBudget
          (max 1 backend.unifiedBatchTokenCapacity))) - (slots.length - 1)))
      (b := max 1 (min (max 1 (min tuning.chunkedPrefillTokens
        (max 1 backend.unifiedBatchTokenCapacity))) (max 1 (tuning.mixedPrefillBudget
          (max 1 backend.unifiedBatchTokenCapacity))) - slots.countP wantsDecode))
      (by omega) (by omega) (by omega) (by omega)
    rw [Int.tdiv_eq_ediv_of_nonneg (by omega), Int.tdiv_eq_ediv_of_nonneg (by omega)]
    omega

variable {tuning : UnifiedBatchTuning}

theorem counting_loadSlots {backend : Backend σ} {s s₀ : σ} {loaded : List Slot} {chunk : Int}
    (hload : backend.loadSlots slots s = (loaded, s₀))
    (h : ∀ slot ∈ slots, slot.Counting ∧ slot.roundsLeft chunk ≤ rounds) :
    ∀ slot ∈ loaded, slot.Counting ∧ slot.roundsLeft chunk ≤ rounds := by
  cases hload
  refine forall_mem_map.mpr fun slot hslot => ?_
  exact (h slot hslot).1.load (Int.natCast_nonneg _) (h slot hslot).2 _

/-- A loop with more rounds than its slots have left does not reach its guard. -/
theorem not_guardReached {backend : Backend σ} {chunk : Int} (hchunk : 1 ≤ chunk) {s : σ}
    (hcap : ∀ row : List Slot, row.length = slots.length → chunk ≤ roundCap backend tuning row)
    (h : ∀ slot ∈ slots, slot.Counting ∧ slot.roundsLeft chunk ≤ rounds) :
    guardReached backend tuning (rounds + 1) slots s = false := by
  induction rounds generalizing slots s with
  | zero =>
    obtain ⟨loaded, s₀, hload⟩ : ∃ loaded s₀, backend.loadSlots slots s = (loaded, s₀) := ⟨_, _, rfl⟩
    have hinputs : roundInputs backend tuning loaded = [] := by
      refine filterMap_eq_nil_iff.mpr fun slot hslot => ?_
      obtain ⟨hcounting, hle⟩ := counting_loadSlots hload h slot hslot
      cases hinput : (slot.buildInput (roundCap backend tuning loaded)).2 with
      | none => rfl
      | some input =>
        have := hcounting.one_le_roundsLeft hchunk hinput
        omega
    simp [guardReached, hload, hinputs]
  | succ rounds ih =>
    obtain ⟨loaded, s₀, hload⟩ : ∃ loaded s₀, backend.loadSlots slots s = (loaded, s₀) := ⟨_, _, rfl⟩
    have hlen : loaded.length = slots.length := by
      cases hload
      exact length_map _
    cases hexec : backend.executeUnifiedBatch s₀ (roundInputs backend tuning loaded) with
    | mk step s' =>
      have hmoves := roundMoves_answered (roundCap backend tuning loaded) loaded
        (backend.cancelled s').1 step
      have hnext : ∀ next ∈ scatterOutputs (backend.cancelled s').1
          (loaded.map (buildInput (roundCap backend tuning loaded))) step,
          next.Counting ∧ next.roundsLeft chunk ≤ rounds := by
        intro next hnext
        obtain ⟨before, hbefore, input, hmove⟩ := hmoves.of_mem hnext
        obtain ⟨hcounting, hle⟩ := counting_loadSlots hload h before hbefore
        obtain ⟨hcounting', hle'⟩ := hmove.roundsLeft hchunk (hcap loaded hlen) hcounting
        exact ⟨hcounting', by omega⟩
      rw [eq_false_iff]
      intro hreached
      obtain ⟨-, -, hreached⟩ := (guardReached_round hload hexec).mp hreached
      rw [ih (fun row hrow => hcap row (hrow.trans (hmoves.length.trans hlen))) hnext] at hreached
      exact false_ne_true hreached

/-- At most so many rounds of a slice have an input for the request. -/
def worstRounds (tuning : UnifiedBatchTuning) (chunk : Int) (req : InferenceRequest) : Int :=
  let decodeLimit := sliceDecodeLimit req tuning.decodeBurstTokens
  let steps := decodeLimit + maxNonEmittingSteps req.maxTokens
  if req.cancellationFlag then 0
  else
    match entry req with
    | .sampled => if isVisibleGeneratedPiece req.firstPiece && decodeLimit ≤ 1 then 0 else steps - 2
    | .prompt => prefillRounds chunk (req.bpePromptTokens.length - req.prefillOffset) + steps - 2
    | .stateError => 0

theorem le_maxNonEmittingSteps (maxTokens : Int) : 32 ≤ maxNonEmittingSteps maxTokens :=
  Int.le_max_right ..

variable {req : InferenceRequest}

theorem appendGeneratedPiece_of_no_stop (h : req.stop = []) (piece completion : Bytes) :
    (appendGeneratedPiece req piece completion).1 = false := by
  have hnone (text : Bytes) : stopEnding req.stop text = none := by
    rw [stopEnding_eq_none_iff, h]
    simp
  rw [appendGeneratedPiece_eq]
  simp [hnone]

theorem seedSlot_sampled (tuning : UnifiedBatchTuning) (hentry : entry req = .sampled) :
    ∃ streamed a ended cause, (ended = true → req.stop ≠ [] ∨ req.cancellationFlag = true) ∧
      (seedSlot tuning req).req = req.beginSlice.setText streamed a ∧
      (seedSlot tuning req).state = deactivateIf
        { (openSlot tuning req).state with
          currentToken := req.firstToken
          tokensGenerated := if isVisibleGeneratedPiece req.firstPiece then 1 else 0
          nonEmittingSteps := if isVisibleGeneratedPiece req.firstPiece then 0 else 1 }
        ended cause := by
  obtain ⟨hpast, htoken⟩ := sampled_of_entry hentry
  have hsampled : (req.beginSlice.nPast ≥ 0 && req.beginSlice.firstToken ≥ 0) = true := by
    simp [beginSlice, hpast, htoken]
  have hpiece : req.beginSlice.firstPiece = req.firstPiece := rfl
  unfold seedSlot
  dsimp [planFairnessSlice]
  rw [if_pos hsampled, hpiece]
  cases hvisible : isVisibleGeneratedPiece req.firstPiece with
  | false => exact ⟨req.streamed, req.outputUtf8, false, .stop, by simp, rfl, rfl⟩
  | true =>
    obtain ⟨streamed, a, htext⟩ := appendGeneratedPiece_frame req.beginSlice req.firstPiece []
    have hflag : (appendGeneratedPiece req.beginSlice req.firstPiece []).2.1.cancellationFlag =
        req.cancellationFlag := by rw [htext]; rfl
    simp only [if_true, hflag]
    cases hstop : (appendGeneratedPiece req.beginSlice req.firstPiece []).1 with
    | true =>
      refine ⟨streamed, a, true, .stop, fun _ => Or.inl fun hnil => ?_, htext, rfl⟩
      have hnil' : req.beginSlice.stop = [] := hnil
      have hnone : (appendGeneratedPiece req.beginSlice req.firstPiece []).1 = false :=
        appendGeneratedPiece_of_no_stop hnil' ..
      simp [hstop] at hnone
    | false => exact ⟨streamed, a, req.cancellationFlag, .cancelled, Or.inr, htext, rfl⟩

/-- The first slot counts from below its limits, and has no more rounds left than the worst. -/
theorem seedSlot_counting (tuning : UnifiedBatchTuning) (chunk : Int)
    (hoffset : 0 ≤ req.prefillOffset) :
    (seedSlot tuning req).Counting ∧
      (seedSlot tuning req).roundsLeft chunk ≤ worstRounds tuning chunk req := by
  have hmax := le_maxNonEmittingSteps req.maxTokens
  have hlimit := sliceDecodeLimit_pos req tuning.decodeBurstTokens
  cases hentry : entry req with
  | sampled =>
    obtain ⟨streamed, a, ended, cause, -, hreq, hstate⟩ := seedSlot_sampled tuning hentry
    refine ⟨⟨fun _ => ?_, fun _ hin => ?_, hreq ▸ hoffset⟩, ?_⟩
    · simp only [hstate, deactivateIf_eq, openSlot]
      split <;> omega
    · simp [hstate, openSlot] at hin
    · have hcancelled : (seedSlot tuning req).req.cancellationFlag = req.cancellationFlag :=
        hreq ▸ rfl
      simp only [roundsLeft, worstRounds, hentry, hcancelled, hstate,
        deactivateIf_eq, openSlot, false_eq_true, if_false]
      grind
  | prompt =>
    obtain ⟨nPast, hseed⟩ := seedSlot_entersPrompt tuning hentry
    rw [hseed]
    refine ⟨⟨fun _ => ?_, fun _ _ => ?_, hoffset⟩, ?_⟩
    · simp only [openSlot]
      omega
    · simpa only [openSlot] using hlimit
    · simp only [roundsLeft, worstRounds, hentry, openSlot, setNPast,
        beginSlice, Bool.not_true, Bool.false_or, if_true]
      split <;> omega
  | stateError =>
    rw [seedSlot_stateError tuning hentry]
    exact Counting.ended rfl hoffset (by simp [worstRounds, hentry])

/-! ## A loop that ends -/

def Slot.PromptLeft (slot : Slot) : Prop :=
  slot.state.active = true → slot.state.inPrefill = true → 0 < slot.remaining

theorem Slot.PromptLeft.buildInput_none (hcap : 1 ≤ cap) (h : slot.PromptLeft)
    (hnone : (slot.buildInput cap).2 = none) : (slot.buildInput cap).1.state.active = false := by
  unfold buildInput at hnone ⊢
  dsimp only at hnone ⊢
  split_ifs at hnone ⊢ with hactive hcancelled hin hchunk hroom
  · simpa using hactive
  · rfl
  · have hpos := h (by simpa using hactive) hin
    unfold remaining at hpos
    omega
  · rfl

/-- A slot that stays in its prompt has taken a chunk of it. -/
theorem Slot.consumeOutput_inPrefill {cancelled : Bool}
    (h : (slot.consumeOutput input res cancelled).state.inPrefill = true) :
    (slot.consumeOutput input res cancelled).remaining = slot.remaining - input.tokens.length ∧
      input.tokens.length < slot.remaining := by
  unfold remaining
  cases hin : slot.state.inPrefill with
  | false =>
    simp only [consumeOutput, hin, false_eq_true, if_false] at h
    split at h <;> simp [acceptToken_inPrefill, deactivate, hin] at h
  | true =>
    simp only [consumeOutput, hin, if_true] at h ⊢
    split at h
    · simp at h
    · split at h
      · split at h <;> simp [acceptToken_inPrefill, deactivate] at h
      · rename_i hfailed hlast
        rw [if_neg hfailed, if_neg hlast]
        dsimp only
        omega

theorem SlotMove.promptLeft (hcap : 1 ≤ cap) {next : Slot} {input : Option UnifiedBatchInput}
    (h : slot.PromptLeft) (hmove : SlotMove cap slot input next) : next.PromptLeft := by
  cases hmove with
  | idle hnone =>
    intro hactive
    simp [h.buildInput_none hcap hnone] at hactive
  | failed hinput =>
    intro hactive
    simp [deactivate] at hactive
  | answered hinput res =>
    intro _ hin
    obtain ⟨heq, hlt⟩ := consumeOutput_inPrefill hin
    omega

/-- A loop that does not reach its guard ends when no slot is active. -/
theorem unifiedLoop_ends {backend : Backend σ} {s : σ}
    (h : guardReached backend tuning rounds slots s = false)
    (hleft : ∀ slot ∈ slots, slot.PromptLeft) :
    ∀ slot ∈ (unifiedLoop backend tuning rounds slots s).1, slot.state.active = false := by
  induction rounds generalizing slots s with
  | zero => simp [guardReached] at h
  | succ rounds ih =>
    obtain ⟨loaded, s₀, hload⟩ : ∃ loaded s₀, backend.loadSlots slots s = (loaded, s₀) := ⟨_, _, rfl⟩
    have hleft : ∀ slot ∈ loaded, slot.PromptLeft := by
      cases hload
      exact forall_mem_map.mpr hleft
    have hcap : 1 ≤ roundCap backend tuning loaded := one_le_computePrefillChunkCap ..
    obtain ⟨s', hlast⟩ | ⟨next, s', hmoves, hrest, hnext⟩ := round_of_not_guardReached hload h
    · rw [hlast]
      simp only [map_map, mem_map, Function.comp_apply, forall_exists_index, and_imp]
      rintro _ slot hslot rfl
      unfold failRound
      cases hinput : (slot.buildInput (roundCap backend tuning loaded)).2 with
      | none => exact (hleft slot hslot).buildInput_none hcap hinput
      | some input => rfl
    · rw [hnext]
      refine ih hrest fun slot hslot => ?_
      obtain ⟨before, hbefore, input, hmove⟩ := hmoves.of_mem hslot
      exact hmove.promptLeft hcap (hleft before hbefore)

/-! ## A backend that uses the rounds up -/

def stallingAnswer (silent : Nat) : UnifiedBatchOutput :=
  { token := 0, piece := if silent = 0 then [97] else [], ok := true }

/-- A backend that takes every input, and whose state counts the answers without text left. -/
def stallingBackend (capacity : Int) : Backend Nat where
  unifiedBatchTokenCapacity := capacity
  executeUnifiedBatch silent inputs :=
    (inputs.map fun input => if input.requestLogits then stallingAnswer silent else { ok := true },
      if inputs.any (·.requestLogits) then silent - 1 else silent)

theorem stallingBackend_quiet (capacity : Int) : (stallingBackend capacity).Quiet := fun _ => rfl

structure Slot.Stalls (silent : Nat) (slot : Slot) : Prop where
  active : slot.state.active = true
  cancellationFlag : slot.req.cancellationFlag = false
  stop : slot.req.stop = []
  nonEmitting : slot.state.nonEmittingSteps + silent < slot.state.maxNonEmittingSteps
  room : silent = 0 ∨ slot.state.tokensGenerated < slot.state.decodeLimit

def Slot.stallRounds (silent : Nat) (slot : Slot) : Int :=
  slot.state.decodeLimit - slot.state.tokensGenerated + silent

variable {silent : Nat}

def Slot.SameSlice (slot next : Slot) : Prop :=
  next.state.decodeLimit = slot.state.decodeLimit ∧ next.state.sliceActive = slot.state.sliceActive ∧
    next.req.fairness = slot.req.fairness

theorem Slot.Stalls.acceptToken (h : slot.Stalls silent) :
    (slot.acceptToken (stallingAnswer silent) false).Stalls (silent - 1) ∧
      slot.SameSlice (slot.acceptToken (stallingAnswer silent) false) ∧
      (slot.acceptToken (stallingAnswer silent) false).stallRounds (silent - 1) =
        slot.stallRounds silent - 1 := by
  by_cases hsilent : silent = 0
  · have hvisible : isVisibleGeneratedPiece (stallingAnswer silent).piece = true := by
      simp [stallingAnswer, hsilent, isVisibleGeneratedPiece]
    obtain ⟨⟨streamed, a, hreq⟩, hstate⟩ := acceptToken_visible slot hvisible false
    rw [appendGeneratedPiece_of_no_stop h.stop] at hstate
    refine ⟨⟨?_, hreq ▸ h.cancellationFlag, hreq ▸ h.stop, ?_, Or.inl (by omega)⟩,
      ⟨by simp [hstate], by simp [hstate], hreq ▸ rfl⟩, ?_⟩
    · simpa [hstate] using h.active
    · have := h.nonEmitting
      simp [hstate]
      omega
    · simp [stallRounds, hstate]
      omega
  · have hvisible : isVisibleGeneratedPiece (stallingAnswer silent).piece = false := by
      simp [stallingAnswer, hsilent, isVisibleGeneratedPiece]
    have hnonEmitting := h.nonEmitting
    rw [acceptToken_invisible slot hvisible false, decide_eq_false (by omega)]
    refine ⟨⟨?_, h.cancellationFlag, h.stop, ?_, ?_⟩, ⟨by simp, by simp, rfl⟩, ?_⟩
    · simpa using h.active
    · simp
      omega
    · simpa [hsilent] using Or.inr h.room
    · simp [stallRounds]
      omega

theorem Slot.Stalls.consumeOutput (h : slot.Stalls silent) (hpast : slot.state.inPrefill = false)
    (input : UnifiedBatchInput) :
    (slot.consumeOutput input (stallingAnswer silent)).Stalls (silent - 1) ∧
      (slot.consumeOutput input (stallingAnswer silent)).state.inPrefill = false ∧
      slot.SameSlice (slot.consumeOutput input (stallingAnswer silent)) ∧
      (slot.consumeOutput input (stallingAnswer silent)).stallRounds (silent - 1) =
        slot.stallRounds silent - 1 := by
  have hstalls : Stalls silent ⟨slot.req.setNPast (slot.req.nPast + 1), slot.state, slot.result⟩ :=
    ⟨h.active, h.cancellationFlag, h.stop, h.nonEmitting, h.room⟩
  obtain ⟨hnext, hrest⟩ := hstalls.acceptToken
  rw [consumeOutput_eq ⟨hpast, h.cancellationFlag⟩]
  refine ⟨hnext, ?_, hrest⟩
  rw [if_neg (by simp [stallingAnswer, UnifiedBatchOutput.terminal]), acceptToken_inPrefill, hpast]

theorem guardReached_stalling {capacity : Int}
    (hbuilt : slot.buildInput (roundCap (stallingBackend capacity) tuning [slot]) =
      (slot, some input)) (rounds silent : Nat) :
    guardReached (stallingBackend capacity) tuning (rounds + 1) [slot] silent =
      guardReached (stallingBackend capacity) tuning rounds
        [slot.consumeOutput input
          (if input.requestLogits then stallingAnswer silent else { ok := true })]
        (if input.requestLogits then silent - 1 else silent) := by
  have hinputs : roundInputs (stallingBackend capacity) tuning [slot] = [input] := by
    simp [roundInputs, hbuilt]
  simp only [guardReached, (stallingBackend_quiet capacity).loadSlots, hinputs, map_cons, map_nil,
    hbuilt]
  simp [stallingBackend, scatterOutputs]

def Slot.decodeInput (slot : Slot) : UnifiedBatchInput :=
  { sequenceId := slot.req.sequenceId
    nPast := slot.req.nPast
    tokens := [slot.state.currentToken] }

@[simp] theorem Slot.requestLogits_decodeInput (slot : Slot) :
    slot.decodeInput.requestLogits = true := rfl

theorem Slot.Stalls.buildInput (h : slot.Stalls silent) (hpast : slot.state.inPrefill = false)
    (hroom : slot.state.tokensGenerated < slot.state.decodeLimit) (cap : Int) :
    slot.buildInput cap = (slot, some slot.decodeInput) := by
  simp [Slot.buildInput, h.active, h.cancellationFlag, hpast, hroom, decodeInput]

variable (capacity : Int)

/-- Past its prompt a slot is kept busy until its tokens are generated. -/
theorem Slot.Stalls.decode (tuning : UnifiedBatchTuning) {rounds silent : Nat}
    (h : slot.Stalls silent) (hpast : slot.state.inPrefill = false)
    (hrounds : rounds ≤ slot.stallRounds silent) :
    guardReached (stallingBackend capacity) tuning rounds [slot] silent = true := by
  induction rounds generalizing slot silent with
  | zero => rfl
  | succ rounds ih =>
    have hroom : slot.state.tokensGenerated < slot.state.decodeLimit := by
      have := h.room
      unfold stallRounds at hrounds
      omega
    obtain ⟨hnext, hpast', -, hleft⟩ := h.consumeOutput hpast slot.decodeInput
    simp only [guardReached_stalling (h.buildInput hpast hroom _), requestLogits_decodeInput, if_true]
    exact ih hnext hpast' (by omega)

theorem Slot.Stalls.chunk (h : slot.Stalls silent) (hprompt : slot.Prefilling)
    (hlt : slot.req.prefillOffset + (input.tokens.length : Int) < slot.req.bpePromptTokens.length) :
    (slot.consumeOutput input { ok := true }).Stalls silent ∧
      (slot.consumeOutput input { ok := true }).Prefilling ∧
      (slot.consumeOutput input { ok := true }).remaining = slot.remaining - input.tokens.length ∧
      (slot.consumeOutput input { ok := true }).stallRounds silent = slot.stallRounds silent := by
  have hoffset := hprompt.offset_nonneg
  rw [consumeOutput_chunk hprompt hlt]
  refine ⟨⟨h.active, h.cancellationFlag, h.stop, h.nonEmitting, h.room⟩,
    ⟨hprompt.active, hprompt.inPrefill, hprompt.cancellationFlag, ?_, hlt⟩, ?_, rfl⟩
  · dsimp only
    omega
  · unfold remaining
    dsimp only
    omega

/-- In its prompt a slot is kept busy by the chunks as well. -/
theorem Slot.Stalls.prefill (tuning : UnifiedBatchTuning) (h : slot.Stalls silent)
    (hprompt : slot.Prefilling)
    (hrounds : rounds ≤ prefillRounds (leastChunk capacity tuning 1) slot.remaining +
      slot.stallRounds silent - 1) :
    guardReached (stallingBackend capacity) tuning rounds [slot] silent = true := by
  have hchunk : 1 ≤ leastChunk capacity tuning 1 := one_le_computePrefillChunkCap ..
  induction rounds generalizing slot with
  | zero => rfl
  | succ rounds ih =>
    have hcap : roundCap (stallingBackend capacity) tuning [slot] = leastChunk capacity tuning 1 := by
      simp [roundCap, leastChunk, wantsDecode, wantsPrefill, hprompt.active,
        hprompt.cancellationFlag, hprompt.inPrefill, stallingBackend]
    obtain ⟨input, hbuilt, hlength, hlogits⟩ := buildInput_of_prefilling hprompt (hcap ▸ hchunk)
    have hlt := hprompt.offset_lt
    rw [guardReached_stalling hbuilt, hlogits]
    rw [hcap] at hlength ⊢
    by_cases hlast : slot.req.bpePromptTokens.length - slot.req.prefillOffset ≤
        leastChunk capacity tuning 1
    · have hone : prefillRounds (leastChunk capacity tuning 1) slot.remaining = 1 := by
        unfold prefillRounds remaining
        rw [if_neg (by omega), Int.ediv_eq_iff_of_pos (by omega)]
        omega
      have hstalls : (slot.afterPrompt (stallingAnswer silent)).Stalls silent :=
        ⟨h.active, h.cancellationFlag, h.stop, h.nonEmitting, h.room⟩
      have hsame : (slot.afterPrompt (stallingAnswer silent)).stallRounds silent =
        slot.stallRounds silent := rfl
      obtain ⟨hnext, hpast, -, hleft⟩ := hstalls.consumeOutput rfl {}
      rw [decide_eq_true hlast, if_pos rfl, if_pos rfl, consumeOutput_last hprompt (by omega)]
      exact hnext.decode capacity tuning hpast (by omega)
    · have hmore : slot.req.prefillOffset + (input.tokens.length : Int) <
          slot.req.bpePromptTokens.length := by omega
      have hsub := prefillRounds_sub_chunk hchunk slot.remaining (by unfold remaining; omega)
      obtain ⟨hnext, hprompt', hleft, hsame⟩ := h.chunk hprompt hmore
      rw [decide_eq_false hlast, if_neg Bool.false_ne_true, if_neg Bool.false_ne_true]
      have hlen : (input.tokens.length : Int) = leastChunk capacity tuning 1 := by omega
      refine ih hnext hprompt' ?_
      rw [hleft, hsame, hlen, hsub]
      omega

/-! ## The guard -/

/-- The request can be kept busy for the worst number of rounds. -/
theorem guardReached_of_worstRounds (tuning : UnifiedBatchTuning) (capacity : Int)
    (hstop : req.stop = [])
    (hprompt : entry req = .prompt → 0 ≤ req.prefillOffset ∧
      req.prefillOffset < req.bpePromptTokens.length) (hpos : 0 < rounds)
    (hrounds : rounds ≤ worstRounds tuning (leastChunk capacity tuning 1) req) :
    ∃ silent, guardReached (stallingBackend capacity) tuning rounds [seedSlot tuning req] silent =
      true := by
  have hmax := le_maxNonEmittingSteps req.maxTokens
  have hlimit := sliceDecodeLimit_pos req tuning.decodeBurstTokens
  cases hcancelled : req.cancellationFlag with
  | true =>
    simp [worstRounds, hcancelled] at hrounds
    omega
  | false =>
    cases hentry : entry req with
    | sampled =>
      obtain ⟨streamed, a, ended, cause, hended, hreq, hstate⟩ := seedSlot_sampled tuning hentry
      obtain rfl : ended = false := by
        rw [← not_eq_true]
        intro htrue
        simpa [hstop, hcancelled] using hended htrue
      have hactive : (seedSlot tuning req).state.active = true := by
        rw [hstate]
        rfl
      have hpast : (seedSlot tuning req).state.inPrefill = false := by
        rw [hstate]
        rfl
      have hsame : (seedSlot tuning req).state.decodeLimit =
            sliceDecodeLimit req tuning.decodeBurstTokens ∧
          (seedSlot tuning req).state.maxNonEmittingSteps = maxNonEmittingSteps req.maxTokens := by
        rw [hstate]
        exact ⟨rfl, rfl⟩
      -- One step has been counted, and not the last token of the slice.
      have hcount : 0 ≤ (seedSlot tuning req).state.tokensGenerated ∧
          0 ≤ (seedSlot tuning req).state.nonEmittingSteps ∧
          (seedSlot tuning req).state.tokensGenerated +
            (seedSlot tuning req).state.nonEmittingSteps = 1 ∧
          (seedSlot tuning req).state.tokensGenerated <
            sliceDecodeLimit req tuning.decodeBurstTokens := by
        simp only [worstRounds, hcancelled, hentry] at hrounds
        simp only [hstate, deactivateIf_eq]
        grind
      have hworst : worstRounds tuning (leastChunk capacity tuning 1) req ≤
          sliceDecodeLimit req tuning.decodeBurstTokens + maxNonEmittingSteps req.maxTokens - 2 := by
        simp only [worstRounds, hcancelled, hentry]
        grind
      refine ⟨(maxNonEmittingSteps req.maxTokens - 1 -
        (seedSlot tuning req).state.nonEmittingSteps).toNat, ?_⟩
      refine Stalls.decode capacity tuning
        ⟨hactive, hreq ▸ hcancelled, hreq ▸ hstop, by omega, by omega⟩ hpast ?_
      unfold stallRounds
      omega
    | prompt =>
      obtain ⟨nPast, hseed⟩ := seedSlot_entersPrompt tuning hentry
      obtain ⟨hoffset, hlt⟩ := hprompt hentry
      refine ⟨(maxNonEmittingSteps req.maxTokens - 1).toNat, ?_⟩
      rw [hseed]
      refine Stalls.prefill capacity tuning ⟨rfl, hcancelled, hstop, ?_, Or.inr hlimit⟩
        ⟨rfl, rfl, hcancelled, hoffset, hlt⟩ ?_
      · simp only [openSlot]
        omega
      · simp only [worstRounds, hcancelled, hentry, false_eq_true, if_false] at hrounds
        simp only [stallRounds, remaining, openSlot, setNPast, beginSlice]
        omega
    | stateError =>
      simp [worstRounds, hcancelled, hentry] at hrounds
      omega

theorem seedSlot_promptLeft (tuning : UnifiedBatchTuning)
    (hprompt : entry req = .prompt → req.prefillOffset < req.bpePromptTokens.length) :
    (seedSlot tuning req).PromptLeft := by
  intro hactive hin
  cases hentry : entry req with
  | sampled =>
    obtain ⟨streamed, a, ended, cause, -, -, hstate⟩ := seedSlot_sampled tuning hentry
    simp [hstate, openSlot] at hin
  | prompt =>
    obtain ⟨nPast, hseed⟩ := seedSlot_entersPrompt tuning hentry
    have hlt := hprompt hentry
    simp only [hseed, remaining, setNPast, beginSlice]
    omega
  | stateError =>
    rw [seedSlot_stateError tuning hentry] at hactive
    simp [deactivate] at hactive

theorem batch_not_guardReached {reqs : List InferenceRequest}
    (hoffset : ∀ req ∈ reqs, 0 ≤ req.prefillOffset) (backend : Backend σ) (s : σ)
    (h : ∀ req ∈ reqs, worstRounds tuning
      (leastChunk backend.unifiedBatchTokenCapacity tuning reqs.length) req < kDeadlockGuard) :
    guardReached backend tuning kDeadlockGuard (reqs.map (seedSlot tuning)) s = false := by
  have hguard : kDeadlockGuard = 9999 + 1 := rfl
  have hchunk : 1 ≤ leastChunk backend.unifiedBatchTokenCapacity tuning reqs.length :=
    one_le_computePrefillChunkCap ..
  refine not_guardReached hchunk (fun row hrow => ?_) fun slot hslot => ?_
  · rw [length_map] at hrow
    rw [← hrow]
    exact leastChunk_le_roundCap backend tuning row
  · obtain ⟨req, hreq, rfl⟩ := mem_map.mp hslot
    obtain ⟨hcounting, hle⟩ := seedSlot_counting tuning
      (leastChunk backend.unifiedBatchTokenCapacity tuning reqs.length) (hoffset req hreq)
    have hlt := h req hreq
    exact ⟨hcounting, by omega⟩

/-- The guard of the loop is out of reach if no request can take part in 10000 rounds: the loop then
ends when every request is inactive, and is the loop without the guard. For a request on its own this
is exact: whatever the backend answers, the guard is not reached. -/
theorem loop_ends_before_guard (tuning : UnifiedBatchTuning) (capacity : Int)
    (reqs : List InferenceRequest) (hoffset : ∀ req ∈ reqs, 0 ≤ req.prefillOffset)
    (hprompt : ∀ req ∈ reqs, entry req = .prompt → req.prefillOffset < req.bpePromptTokens.length) :
    ((∀ req ∈ reqs, worstRounds tuning (leastChunk capacity tuning reqs.length) req <
        kDeadlockGuard) →
      ∀ (σ : Type) (backend : Backend σ) (s : σ), backend.unifiedBatchTokenCapacity = capacity →
        let loop := fun rounds => unifiedLoop backend tuning rounds (reqs.map (seedSlot tuning)) s
        guardReached backend tuning kDeadlockGuard (reqs.map (seedSlot tuning)) s = false ∧
          (∀ slot ∈ (loop kDeadlockGuard).1, slot.state.active = false) ∧
          ∀ more, loop (kDeadlockGuard + more) = loop kDeadlockGuard) ∧
      ∀ req, reqs = [req] → req.stop = [] →
        ((∀ (σ : Type) (backend : Backend σ) (s : σ),
            backend.unifiedBatchTokenCapacity = capacity →
              guardReached backend tuning kDeadlockGuard [seedSlot tuning req] s = false) ↔
          worstRounds tuning (leastChunk capacity tuning 1) req < kDeadlockGuard) := by
  constructor
  · rintro h σ backend s rfl loop
    have hguard := batch_not_guardReached hoffset backend s h
    refine ⟨hguard, unifiedLoop_ends hguard fun slot hslot => ?_,
      unifiedLoop_of_not_guardReached hguard⟩
    obtain ⟨req, hreq, rfl⟩ := mem_map.mp hslot
    exact seedSlot_promptLeft tuning (hprompt req hreq)
  · rintro req rfl hstop
    have hreq : req ∈ [req] := mem_singleton_self req
    constructor
    · intro h
      by_contra hworst
      obtain ⟨silent, hreached⟩ := guardReached_of_worstRounds tuning capacity hstop
        (fun hentry => ⟨hoffset req hreq, hprompt req hreq hentry⟩) (by decide) (Int.not_lt.mp hworst)
      rw [h Nat (stallingBackend capacity) silent rfl] at hreached
      exact Bool.false_ne_true hreached
    · rintro h σ backend s rfl
      exact batch_not_guardReached hoffset backend s (by simpa using h)

/-- A chat of 100 tokens after a prompt of two. -/
theorem loop_ends_before_guard_short :
    let req : InferenceRequest :=
      { maxTokens := 100, nPast := 0, bpePromptTokens := [7, 8]
        fairness := { remainingDecodeTokens := 100 } }
    worstRounds {} (leastChunk 2048 {} 1) req = 899 ∧
      ∀ (σ : Type) (backend : Backend σ) (s : σ), backend.unifiedBatchTokenCapacity = 2048 →
        guardReached backend {} kDeadlockGuard [seedSlot {} req] s = false := by
  intro req
  have hworst : worstRounds {} (leastChunk 2048 {} 1) req = 899 := by decide
  refine ⟨hworst, ?_⟩
  have hexact := (loop_ends_before_guard {} 2048 [req] (by decide) (by decide)).2 req rfl rfl
  exact hexact.mpr (by rw [hworst]; decide)

theorem Slot.Stalls.unifiedLoop_text (tuning : UnifiedBatchTuning) (h : slot.Stalls 0)
    (hpast : slot.state.inPrefill = false)
    (hrounds : slot.state.tokensGenerated + rounds ≤ slot.state.decodeLimit) :
    ∃ last, unifiedLoop (stallingBackend capacity) tuning rounds [slot] 0 = ([last], 0) ∧
      last.state.active = true ∧
      last.state.tokensGenerated = slot.state.tokensGenerated + rounds ∧
      last.state.sliceActive = slot.state.sliceActive ∧ last.req.fairness = slot.req.fairness := by
  induction rounds generalizing slot with
  | zero => exact ⟨slot, rfl, h.active, by simp, rfl, rfl⟩
  | succ rounds ih =>
    have hbuilt := h.buildInput hpast (by omega) (roundCap (stallingBackend capacity) tuning [slot])
    have hinputs : roundInputs (stallingBackend capacity) tuning [slot] = [slot.decodeInput] := by
      simp [roundInputs, hbuilt]
    obtain ⟨hnext, hpast', ⟨hlimit, hslice, hfairness⟩, hleft⟩ :=
      h.consumeOutput hpast slot.decodeInput
    unfold stallRounds at hleft
    obtain ⟨last, hloop, hactive, htokens, hslice', hlast⟩ := ih hnext hpast' (by omega)
    refine ⟨last, ?_, hactive, by omega, hslice'.trans hslice, hlast.trans hfairness⟩
    rw [unifiedLoop_round_eq _ _ _ ((stallingBackend_quiet capacity).loadSlots ..), hinputs]
    simp only [map_cons, map_nil, hbuilt]
    simpa [stallingBackend, scatterOutputs] using hloop

/-- A request on its own that is past its prompt, with answers that all have text, is finished
when the guard is reached. -/
theorem executeUnifiedBatchPhased_text (tuning : UnifiedBatchTuning)
    (h : (seedSlot tuning req).Stalls 0) (hpast : (seedSlot tuning req).state.inPrefill = false)
    (hslice : (seedSlot tuning req).state.sliceActive = false)
    (hremaining : 0 ≤ (seedSlot tuning req).req.fairness.remainingDecodeTokens)
    (hlimit : (seedSlot tuning req).state.tokensGenerated + kDeadlockGuard ≤
      (seedSlot tuning req).state.decodeLimit) :
    guardReached (stallingBackend capacity) tuning kDeadlockGuard [seedSlot tuning req] 0 = true ∧
      ∃ last, (executeUnifiedBatchPhased (stallingBackend capacity) tuning [req] 0).1 = [last] ∧
        last.state.active = true ∧ last.req.phase = .finished ∧
        last.result.completionTokens =
          (seedSlot tuning req).state.tokensGenerated + kDeadlockGuard := by
  refine ⟨h.decode capacity tuning hpast (by unfold stallRounds; omega), ?_⟩
  obtain ⟨last, hloop, hactive, htokens, hslice', hfairness⟩ :=
    h.unifiedLoop_text capacity tuning hpast hlimit
  refine ⟨last.finalize, ?_, ?_⟩
  · simp [executeUnifiedBatchPhased, hloop]
  · rw [finalize_of_finish (by simp [hslice', hslice]) (by rw [hfairness]; exact hremaining)]
    exact ⟨hactive, rfl, htokens⟩

/-- A request for 20000 tokens, which the HTTP layer accepts: the loop is ended by its guard after
10001 tokens while the request is active, and the request is finished. -/
theorem guard_truncates :
    let req : InferenceRequest :=
      { maxTokens := 20000, nPast := 5, firstToken := 0, firstPiece := [97]
        fairness := { remainingDecodeTokens := 20000 } }
    guardReached (stallingBackend 2048) {} kDeadlockGuard [seedSlot {} req] 0 = true ∧
      ∃ last, (executeUnifiedBatchPhased (stallingBackend 2048) {} [req] 0).1 = [last] ∧
        last.state.active = true ∧ last.req.phase = .finished ∧
        last.result.completionTokens = 10001 := by
  intro req
  have hstalls : (seedSlot {} req).Stalls 0 := ⟨rfl, rfl, rfl, by decide, Or.inl rfl⟩
  exact executeUnifiedBatchPhased_text 2048 {} hstalls rfl rfl (by decide) (by decide)

end InferFlux.Execution
