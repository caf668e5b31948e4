import InferFlux.Execution.StepwisePasses

/-!
# The two decode paths

One request can be decoded by `ExecuteUnifiedBatchPhased`, whose result `ProcessBatch` publishes,
or step by step by `ExecuteUnifiedBatchStep`. Both start with the same pieces, read the same pieces
and flush the same bytes at the end. They differ in what they make of an empty text: the phased
path replaces it by a message if no token was generated, the step-wise path whenever it is empty.
-/

namespace InferFlux.Execution

open InferFlux.Text UnifiedBatchOutput Slot Option InferenceRequest

/-- A request as `Generate` leaves it, with its first token sampled or before its prompt. -/
structure NewRequest (req : InferenceRequest) : Prop where
  cancellationFlag : req.cancellationFlag = false
  maxTokens_pos : 0 < req.maxTokens
  remaining : req.fairness.remainingDecodeTokens = req.maxTokens
  total : req.fairness.totalCompletionTokens = 0
  accumulatedOutput : req.accumulatedOutput = []
  outputUtf8 : req.outputUtf8 = {}
  initialized : req.execution.initialized = false
  phase : req.phase ≠ .finished ∧ req.phase ≠ .aborted
  offset : req.nPast = 0 → req.bpePromptTokens ≠ [] →
    0 ≤ req.prefillOffset ∧ req.prefillOffset < req.bpePromptTokens.length

/-- How a request enters a decode loop: with a sampled token, with its prompt, or not at all. -/
inductive Entry where
  | sampled
  | prompt
  | stateError
  deriving DecidableEq, Repr

def entry (req : InferenceRequest) : Entry :=
  if req.nPast ≥ 0 && req.firstToken ≥ 0 then .sampled
  else if req.nPast = 0 && !req.bpePromptTokens.isEmpty then .prompt
  else if req.nPast > 0 && !req.bpePromptTokens.isEmpty && req.prefillOffset > 0 &&
      req.prefillOffset < req.bpePromptTokens.length then .prompt
  else .stateError

variable {req : InferenceRequest}

theorem sampled_of_entry (hentry : entry req = .sampled) : 0 ≤ req.nPast ∧ 0 ≤ req.firstToken := by
  unfold entry at hentry
  grind

theorem terminal_seed (hentry : entry req = .sampled) : req.seed.terminal = false := by
  have htoken := (sampled_of_entry hentry).2
  simp only [seed, terminal, Bool.not_true, Bool.false_or]
  exact decide_eq_false (by omega)

section Runs

variable {σ : Type} (backend : StepBackend σ) (tuning : UnifiedBatchTuning)

def requestPieces (backend : Backend σ) (rounds : Nat) (req : InferenceRequest) (s : σ) :
    List Bytes :=
  let chunkCap := promptChunkCap backend.unifiedBatchTokenCapacity tuning
  let steps := maxNonEmittingSteps req.maxTokens
  match entry req with
  | .sampled => piecesFrom backend req.sequenceId req.bpePromptTokens chunkCap rounds req.maxTokens
      steps s (sampledReply req.seed req.nPast)
  | .prompt => visiblePieces backend req.sequenceId req.bpePromptTokens chunkCap rounds
      (.prompt req.prefillOffset) req.maxTokens steps s
  | .stateError => []

def startView (req : InferenceRequest) : View := ⟨req, [], 0⟩

variable {pieces : List Bytes}

theorem Reads.same {view last last' : View} (h : Reads view pieces last)
    (h' : Reads view pieces last') : last.Same last' :=
  ⟨h.text.trans h'.text.symm, h.completion.trans h'.completion.symm,
    h.tokensGenerated.trans h'.tokensGenerated.symm⟩

theorem sliceDecodeLimit_new (hnew : NewRequest req) (hslice : req.fairness.timesliceTokens = 0) :
    sliceDecodeLimit req 0 = req.maxTokens := by
  have hpos := hnew.maxTokens_pos
  simp only [sliceDecodeLimit, hnew.remaining, hslice]
  grind

/-- The loop has left the accounting of a request that is not sliced as it began. -/
def Slot.Unsliced (req : InferenceRequest) (slot : Slot) : Prop :=
  slot.req.fairness = req.beginSlice.fairness ∧
    slot.req.accumulatedOutput = req.accumulatedOutput ∧ slot.state.sliceActive = false

structure Slot.Opens (req : InferenceRequest) (slot : Slot) : Prop where
  sequenceId : slot.req.sequenceId = req.sequenceId
  prompt : slot.req.bpePromptTokens = req.bpePromptTokens
  view : slot.view.Same (startView req)
  going : slot.progress.going = true
  limit : slot.progress.limit = req.maxTokens
  steps : slot.progress.steps = maxNonEmittingSteps req.maxTokens
  keeps : slot.Unsliced req

theorem Slot.Opens.ends {slot last : Slot} (h : Slot.Opens req slot) (hkeeps : slot.Keeps last)
    (hreads : Reads slot.view pieces last.view) :
    last.Unsliced req ∧ Reads (startView req) pieces last.view := by
  obtain ⟨hfairness, haccumulated, hinactive⟩ := h.keeps
  exact ⟨⟨hkeeps.fairness.trans hfairness, hkeeps.accumulatedOutput.trans haccumulated,
    hkeeps.sliceActive.trans hinactive⟩, hreads.of_same h.view⟩

theorem maxNonEmittingSteps_pos (maxTokens : Int) : 0 < maxNonEmittingSteps maxTokens := by
  have := one_lt_maxNonEmittingSteps maxTokens
  omega

theorem Slot.opens_of_new (hnew : NewRequest req) (hburst : tuning.decodeBurstTokens = 0)
    (hslice : req.fairness.timesliceTokens = 0) (nPast : Int) (inPrefill : Bool) :
    Slot.Opens req { openSlot tuning req with
      req := req.beginSlice.setNPast nPast
      state := { (openSlot tuning req).state with inPrefill } } := by
  have hlimit := sliceDecodeLimit_new hnew hslice
  have hpos := hnew.maxTokens_pos
  refine ⟨rfl, rfl, ⟨⟨rfl, rfl, rfl, rfl⟩, rfl, rfl⟩, ?_, ?_, ?_, rfl, rfl, ?_⟩
  · simp [progress, openSlot, hburst, hlimit, hpos]
  · simp [progress, openSlot, hburst, hlimit]
  · simp [progress, openSlot]
  · simp [openSlot, hburst, hslice]

theorem seedSlot_entersPrompt (hentry : entry req = .prompt) :
    ∃ nPast, seedSlot tuning req = { openSlot tuning req with
        req := req.beginSlice.setNPast nPast
        state := { (openSlot tuning req).state with inPrefill := true } } := by
  have hbegin : entry req.beginSlice = .prompt := hentry
  unfold entry at hbegin
  unfold seedSlot
  dsimp [planFairnessSlice]
  split_ifs at hbegin with hsampled hstart hresumed
  · rw [if_neg hsampled, if_pos hstart]
    exact ⟨req.nPast, rfl⟩
  · rw [if_neg hsampled, if_neg hstart, if_pos hresumed]
    exact ⟨req.prefillOffset, rfl⟩

theorem NewRequest.offset_lt (hnew : NewRequest req) (hentry : entry req = .prompt) :
    0 ≤ req.prefillOffset ∧ req.prefillOffset < req.bpePromptTokens.length := by
  unfold entry at hentry
  split_ifs at hentry with hsampled hstart hresumed
  · simp only [Bool.and_eq_true, decide_eq_true_eq, Bool.not_eq_true',
      List.isEmpty_eq_false_iff] at hstart
    exact hnew.offset hstart.1 hstart.2
  · simp only [Bool.and_eq_true, decide_eq_true_eq] at hresumed
    exact ⟨by omega, hresumed.2⟩

theorem unifiedLoop_request (hnew : NewRequest req) (hburst : tuning.decodeBurstTokens = 0)
    (hslice : req.fairness.timesliceTokens = 0) (hentry : entry req ≠ .stateError)
    {backend : Backend σ} (hquiet : backend.Quiet) (rounds : Nat) (s : σ) :
    ∃ last s', unifiedLoop backend tuning rounds [seedSlot tuning req] s = ([last], s') ∧
      last.Unsliced req ∧ Reads (startView req) (requestPieces tuning backend rounds req s) last.view := by
  have hsteps := maxNonEmittingSteps_pos req.maxTokens
  unfold requestPieces
  cases hcase : entry req with
  | stateError => exact absurd hcase hentry
  | sampled =>
    obtain ⟨hpast, htoken⟩ := sampled_of_entry hcase
    have hseed := seedSlot_eq_consume hpast htoken hnew.cancellationFlag tuning
    have hopens : Slot.Opens req (openSlot tuning (req.setNPast (req.nPast - 1))) :=
      opens_of_new tuning hnew hburst hslice (req.nPast - 1) false
    have hstands : (openSlot tuning (req.setNPast (req.nPast - 1))).Stands req.sequenceId
        req.bpePromptTokens (.token (req.nPast - 1) (-1)) :=
      ⟨rfl, rfl, hnew.cancellationFlag, rfl, rfl, rfl⟩
    have htakes := hstands.consumeOutput {} req.seed
    rw [← hseed, Cursor.reply, Int.sub_add_cancel] at htakes
    obtain ⟨last, s', hrun, hkeeps, hreads⟩ := unifiedLoop_replied backend tuning hquiet
      (fun hat hon hpos => unifiedLoop_reads backend tuning hquiet rounds hat hon hpos s) htakes
      hopens.going (by rw [hopens.steps]; exact hsteps)
    rw [hopens.limit, hopens.steps] at hreads
    exact ⟨last, s', hrun, hopens.ends hkeeps hreads⟩
  | prompt =>
    obtain ⟨nPast, hseed⟩ := seedSlot_entersPrompt tuning hcase
    obtain ⟨hnonneg, hlt⟩ := hnew.offset_lt hcase
    have hopens := opens_of_new tuning hnew hburst hslice nPast true
    rw [← hseed] at hopens
    have hroom : (seedSlot tuning req).state.tokensGenerated <
        (seedSlot tuning req).state.decodeLimit :=
      Int.lt_of_sub_pos (limit_pos hopens.going)
    have hstands : (seedSlot tuning req).Stands (seedSlot tuning req).req.sequenceId
        (seedSlot tuning req).req.bpePromptTokens (.prompt req.prefillOffset) := by
      refine ⟨rfl, rfl, ?_, ?_, ?_, hnonneg, ?_, hroom⟩
      · rw [hseed]
        exact hnew.cancellationFlag
      · rw [hseed]
      · rw [hseed]
        rfl
      · rw [hseed]
        exact hlt
    obtain ⟨last, s', hrun, hkeeps, hreads⟩ := unifiedLoop_reads backend tuning hquiet rounds
      hstands hopens.going (by rw [hopens.steps]; exact hsteps) s
    rw [hopens.limit, hopens.steps, hopens.sequenceId, hopens.prompt] at hreads
    exact ⟨last, s', hrun, hopens.ends hkeeps hreads⟩

variable {s : σ} {fuel : Nat} {fuel' : Nat}

namespace Stepwise

def opened (req : InferenceRequest) : InferenceRequest :=
  { req with execution :=
    { initialized := true
      result :=
        { modelId := req.resultModelId
          promptTokens := req.resultPromptTokens
          completion := req.accumulatedOutput }
      decodeLimit := req.maxTokens
      maxNonEmittingSteps := maxNonEmittingSteps req.maxTokens
      sliceActive := true } }

/-- A first token is accepted as any other. -/
theorem primeFirstToken_eq (hlive : req.cancellationFlag = false)
    (hsteps : req.execution.nonEmittingSteps < req.execution.maxNonEmittingSteps) :
    primeFirstToken req =
      acceptToken { req with firstPiece := [] } req.firstToken req.firstPiece false := by
  unfold primeFirstToken acceptToken isVisibleGeneratedPiece
  cases hempty : req.firstPiece.isEmpty with
  | true =>
    simp [hempty, hlive, ReqState.deactivateIf_eq]
  | false =>
    obtain ⟨streamed, a, htext⟩ := appendGeneratedPiece_frame { req with firstPiece := [] }
      req.firstPiece req.execution.result.completion
    have hflag : (appendGeneratedPiece { req with firstPiece := [] } req.firstPiece).2.cancellationFlag =
        false := by
      simpa [appendGeneratedPiece, htext, setCompletion, setText]
        using hlive
    have hnot : decide (req.execution.nonEmittingSteps ≥ req.execution.maxNonEmittingSteps) = false :=
      decide_eq_false (by omega)
    simp [hempty, hflag, ReqState.deactivateIf_eq, hnot]

/-- How the decode state of a new request is set up. -/
theorem prime_new (hnew : NewRequest req) :
    ∃ nPast, primeUnifiedDecodeStepState req = syncCounts (match entry req with
      | .sampled => primeFirstToken (opened req)
      | .prompt => ((opened req).setNPast nPast).setState
          { (opened req).execution.toReqState with inPrefill := true }
      | .stateError => ((opened req).setState ((opened req).execution.deactivate
          .stateError)).setCompletion kBatchStateErrorText) := by
  have hpos := hnew.maxTokens_pos
  have hrem : ¬ req.maxTokens < 0 := by omega
  unfold primeUnifiedDecodeStepState
  rw [if_neg (by simp [hnew.initialized])]
  simp only [hnew.total, hnew.remaining, hrem, if_false, Int.max_self, Int.zero_add]
  obtain ⟨way, hway⟩ : ∃ way, entry req = way := ⟨_, rfl⟩
  rw [hway]
  unfold entry at hway
  split_ifs at hway with hsampled hstart hresumed <;> subst hway
  · exact ⟨0, congrArg syncCounts (if_pos hsampled)⟩
  · exact ⟨req.nPast, congrArg syncCounts ((if_neg hsampled).trans (if_pos hstart))⟩
  · exact ⟨req.prefillOffset, congrArg syncCounts
      ((if_neg hsampled).trans ((if_neg hstart).trans (if_pos hresumed)))⟩
  · exact ⟨0, congrArg syncCounts
      ((if_neg hsampled).trans ((if_neg hstart).trans (if_neg hresumed)))⟩

theorem takes_primeFirstToken (hnew : NewRequest req) (hentry : entry req = .sampled) :
    Takes (opened req) (primeFirstToken (opened req)) (sampledReply req.seed req.nPast) := by
  have hsteps : (opened req).execution.nonEmittingSteps <
    (opened req).execution.maxNonEmittingSteps := maxNonEmittingSteps_pos req.maxTokens
  have hlive : (opened req).cancellationFlag = false := hnew.cancellationFlag
  rw [primeFirstToken_eq hlive hsteps]
  have hmoved : (slot (opened req)).Moved (slot { opened req with firstPiece := [] }) :=
    ⟨rfl, rfl, hlive, rfl, ⟨⟨⟨rfl, rfl, rfl, rfl⟩, rfl, rfl⟩, rfl, rfl, rfl⟩, rfl, rfl, rfl, rfl, rfl⟩
  exact takes_accepted hmoved rfl rfl (terminal_seed hentry)

theorem initialized_prime (hnew : NewRequest req) :
    (primeUnifiedDecodeStepState req).execution.initialized = true := by
  obtain ⟨nPast, hprime⟩ := prime_new hnew
  rw [hprime]
  cases hentry : entry req with
  | sampled => exact (takes_primeFirstToken hnew hentry).initialized
  | prompt | stateError => rfl

variable {backend}

theorem decodeSteps_prime (hnew : NewRequest req) (fuel : Nat) (s : σ) :
    decodeSteps backend tuning fuel req s =
      decodeSteps backend tuning fuel (primeUnifiedDecodeStepState req) s := by
  have hagain := prime_of_initialized (initialized_prime hnew)
  cases fuel with
  | zero => rfl
  | succ fuel => simp [decodeSteps, hagain]

theorem decodeSteps_done (hinitialized : req.execution.initialized = true)
    (hdone : shouldContinueUnifiedDecodeStep req = false) (s : σ) :
    decodeSteps backend tuning 1 req s = some (syncUnifiedDecodeStepProgress req, s) := by
  simp [decodeSteps, prime_of_initialized hinitialized, hdone]

theorem decodeSteps_stateError (hnew : NewRequest req) (hentry : entry req = .stateError) (s : σ) :
    ∃ done, decodeSteps backend tuning 1 req s = some (done, s) ∧
      done.execution.initialized = true ∧
      (slot done).view.Same ⟨req, kBatchStateErrorText, 0⟩ := by
  obtain ⟨nPast, hprime⟩ := prime_new hnew
  simp only [hentry] at hprime
  have hset := initialized_prime hnew
  refine ⟨_, (decodeSteps_prime tuning hnew 1 s).trans (decodeSteps_done tuning hset ?_ s), ?_,
    (progress_syncUnifiedDecodeStepProgress _).view.trans ?_⟩
  · rw [hprime]
    rfl
  · rw [(syncUnifiedDecodeStepProgress_frame _).2.1, hset]
  · rw [hprime]
    exact (progress_syncCounts _).view.trans ⟨⟨rfl, rfl, rfl, rfl⟩, rfl, rfl⟩

theorem decodeSteps_request (hnew : NewRequest req) (hentry : entry req ≠ .stateError)
    (hagree : ∀ req' s', Relation.ReflTransGen (Pass backend tuning)
      (primeUnifiedDecodeStepState req, s) (req', s') → BurstsAgree backend req' s') :
    ∃ fuel last s', decodeSteps backend tuning fuel req s = some (last, s') ∧
      last.execution.initialized = true ∧ ∃ enough, ∀ rounds, enough ≤ rounds →
        Reads (startView req) (requestPieces tuning backend.toBackend rounds req s)
          (slot last).view := by
  have hinitialized := initialized_prime hnew
  obtain ⟨nPast, hprime⟩ := prime_new hnew
  simp only [decodeSteps_prime tuning hnew]
  unfold requestPieces
  have hview : (slot (opened req)).view.Same (startView req) :=
    ⟨⟨rfl, rfl, rfl, rfl⟩, hnew.accumulatedOutput, rfl⟩
  have hlimit : (slot (opened req)).progress.limit = req.maxTokens := Int.sub_zero _
  have hsteps : (slot (opened req)).progress.steps = maxNonEmittingSteps req.maxTokens :=
    Int.sub_zero _
  have hpos : 0 < (slot (opened req)).progress.steps := by
    rw [hsteps]
    exact maxNonEmittingSteps_pos _
  have hgoing : (slot (opened req)).progress.going = true := by
    simp [slot, progress, opened, hnew.maxTokens_pos]
  cases hcase : entry req with
  | stateError => exact absurd hcase hentry
  | sampled =>
    have htakes := takes_primeFirstToken hnew hcase
    have hsync := progress_syncCounts (primeFirstToken (opened req))
    have hnext : (sampledReply req.seed req.nPast).next? = some (.token req.nPast req.seed.token) :=
      next?_sampledReply (terminal_seed hcase) _
    have hstands := stands_syncCounts (htakes.slot.stands _ hnext)
    have hphase : (syncCounts (primeFirstToken (opened req))).phase = req.phase := htakes.phase
    simp only [hcase] at hprime
    rw [← hprime] at hsync hstands hphase
    have hreply := htakes.slot.progress.of_same hsync
    rw [← hsteps, ← hlimit]
    generalize primeUnifiedDecodeStepState req = primed
      at hinitialized hagree hsync hstands hphase hreply ⊢
    cases hon : (slot primed).progress.going with
    | false =>
      have hdone : shouldContinueUnifiedDecodeStep primed = false := by
        rw [shouldContinue_eq_going hinitialized fun _ => ⟨_, hstands⟩, hon]
      refine ⟨1, _, s, decodeSteps_done tuning hinitialized hdone s, ?_, 0, fun rounds _ => ?_⟩
      · rw [(syncUnifiedDecodeStepProgress_frame primed).2.1]
        exact hinitialized
      · refine (hreply.reads hgoing (fun _ => (progress_syncUnifiedDecodeStepProgress primed).view)
          fun _ _ hgo => ?_).of_same hview
        cases hon.symm.trans hgo
    | true =>
      have hflight : InFlight req.sequenceId req.bpePromptTokens (.token req.nPast req.seed.token)
          primed := by
        refine ⟨hinitialized, ?_, hstands, hon, (hreply.goes_on hpos hon).1⟩
        rw [hphase]
        exact hnew.phase
      obtain ⟨fuel, last, s', hrun, hlast, enough, hreads⟩ := decodeSteps_reads tuning hflight hagree
      refine ⟨fuel, last, s', hrun, hlast, enough, fun rounds hrounds => ?_⟩
      refine (hreply.reads hgoing (fun hoff => ?_) fun cursor hcursor _ => ?_).of_same hview
      · cases hon.symm.trans hoff
      · obtain rfl := some.inj (hnext.symm.trans hcursor)
        exact hreads rounds hrounds
  | prompt =>
    simp only [hcase] at hprime
    obtain ⟨hnonneg, hlt⟩ := hnew.offset_lt hcase
    have hflight : InFlight req.sequenceId req.bpePromptTokens (.prompt req.prefillOffset)
        (primeUnifiedDecodeStepState req) := by
      rw [hprime]
      refine ⟨rfl, hnew.phase, stands_syncCounts ⟨rfl, rfl, hnew.cancellationFlag, rfl, rfl,
        hnonneg, hlt, hnew.maxTokens_pos⟩, hgoing, hpos⟩
    obtain ⟨fuel, last, s', hrun, hlast, enough, hreads⟩ := decodeSteps_reads tuning hflight hagree
    refine ⟨fuel, last, s', hrun, hlast, enough, fun rounds hrounds => ?_⟩
    have hrest := hreads rounds hrounds
    rw [hprime] at hrest
    rw [← hsteps, ← hlimit]
    exact hrest.of_same ⟨⟨rfl, rfl, rfl, rfl⟩, hnew.accumulatedOutput, rfl⟩

variable {done : InferenceRequest × σ}

theorem decodeSteps_mono (h : decodeSteps backend tuning fuel req s = some done) (more : Nat) :
    decodeSteps backend tuning (fuel + more) req s = some done := by
  induction fuel generalizing req s with
  | zero => simp [decodeSteps] at h
  | succ fuel ih =>
    rw [Nat.add_right_comm]
    unfold decodeSteps at h ⊢
    dsimp only at h ⊢
    split_ifs at h ⊢ with hcontinue
    · split at h
      · split_ifs at h ⊢ with hagain
        · exact ih h
        · exact h
      · simp at h
    · exact h

theorem decodeSteps_unique {done' : InferenceRequest × σ}
    (h : decodeSteps backend tuning fuel req s = some done)
    (h' : decodeSteps backend tuning fuel' req s = some done') : done = done' := by
  have hmore := decodeSteps_mono tuning h fuel'
  rw [Nat.add_comm, decodeSteps_mono tuning h' fuel] at hmore
  exact (some.inj hmore).symm

def publishedText (req : InferenceRequest) : Bytes :=
  let text := req.execution.result.completion ++ req.outputUtf8.finish.1.text
  if text = [] then kBackendEmptyResponseText else text

theorem syncUnifiedDecodeStepProgress_accounts (hinitialized : req.execution.initialized = true) :
    (syncUnifiedDecodeStepProgress req).accumulatedOutput = req.execution.result.completion ∧
      (syncUnifiedDecodeStepProgress req).fairness.totalCompletionTokens =
        req.execution.tokensGenerated ∧
      (syncUnifiedDecodeStepProgress req).streamed = req.streamed := by
  unfold syncUnifiedDecodeStepProgress
  rw [if_neg (by simp [hinitialized])]
  split_ifs <;> exact ⟨rfl, rfl, rfl⟩

theorem finalize_endsAs (hinitialized : req.execution.initialized = true) :
    EndsAs (some (finalizeUnifiedDecodeStepResult req)) (publishedText req)
      req.execution.tokensGenerated (req.streamed ++ req.calls req.outputUtf8.finish.1.text) := by
  have hfinish : finishGeneratedText req = (req.setText
      (req.streamed ++ req.calls req.outputUtf8.finish.1.text) req.outputUtf8.finish.2).setCompletion
      (req.execution.result.completion ++ req.outputUtf8.finish.1.text) := by
    rw [finishGeneratedText, finishGeneratedText_eq]
  have hset : (finishGeneratedText req).execution.initialized = true := by
    rw [hfinish]
    exact hinitialized
  obtain ⟨haccumulated, htotal, hstreamed⟩ := syncUnifiedDecodeStepProgress_accounts hset
  rw [hfinish] at haccumulated htotal hstreamed
  refine ⟨_, _, rfl, ?_, ?_, ?_⟩
  · simp only [hfinish, haccumulated, publishedText, List.isEmpty_iff]
    rfl
  · simp only [hfinish, htotal]
    rfl
  · simp only [resetUnifiedStepState, hfinish, hstreamed]
    rfl

end Stepwise

/-- The guard of the phased loop does not cut the run short. -/
def WithinGuard (backend : Backend σ) (req : InferenceRequest) (s : σ) : Prop :=
  let unsliced := { tuning with decodeBurstTokens := 0 }
  ∀ rounds, kDeadlockGuard ≤ rounds →
    unifiedLoop backend unsliced rounds [seedSlot unsliced (req.setTimeslice 0)] s =
      unifiedLoop backend unsliced kDeadlockGuard [seedSlot unsliced (req.setTimeslice 0)] s

def stepwiseRequest (fuel : Nat) (req : InferenceRequest) (s : σ) :
    Option (InferenceRequest × InferenceResult) :=
  (Stepwise.decodeSteps backend tuning fuel req s).map fun done =>
    Stepwise.finalizeUnifiedDecodeStepResult done.1

variable {last : Slot} {s' : σ}

theorem runRequest_endsAs {backend : Backend σ} (hnew : NewRequest req)
    (hrun : unifiedLoop backend { tuning with decodeBurstTokens := 0 } kDeadlockGuard
      [seedSlot { tuning with decodeBurstTokens := 0 } (req.setTimeslice 0)] s = ([last], s'))
    (hkept : last.Unsliced (req.setTimeslice 0)) :
    EndsAs (runRequest backend tuning (fun _ => {}) req s) last.publishedText
      last.state.tokensGenerated
      (last.req.streamed ++ last.req.calls last.req.outputUtf8.finish.1.text) := by
  obtain ⟨hfairness, haccumulated, hinactive⟩ := hkept
  replace haccumulated := haccumulated.trans hnew.accumulatedOutput
  have hpos := hnew.maxTokens_pos
  obtain ⟨fuel, hfuel⟩ : ∃ n, req.maxTokens.toNat = n + 1 := ⟨req.maxTokens.toNat - 1, by omega⟩
  have hremaining : last.req.fairness.remainingDecodeTokens = req.maxTokens := by
    rw [hfairness]
    exact hnew.remaining
  have htotal : last.req.fairness.totalCompletionTokens = 0 := by
    rw [hfairness]
    exact hnew.total
  have hyielded : last.req.fairness.yielded = false := by
    rw [hfairness]
    rfl
  have hfinal := finalize_of_finish
    (show ¬ (last.state.sliceActive = true ∧ _) by simp [hinactive]) (by omega)
  have hphased : executeUnifiedBatchPhased backend { tuning with decodeBurstTokens := 0 }
      [req.setTimeslice 0] s = ([last.finalize], s') := by
    simp [executeUnifiedBatchPhased, hrun]
  have hnot : last.finalize.req.fairness.yielded = false := by
    rw [hfinal]
    exact hyielded
  have hresult : runRequest backend tuning (fun _ => {}) req s =
      some (last.finalize.req, publishResult last.finalize.req last.finalize.result) := by
    rw [runRequest, hfuel, runSlices, hphased]
    simp [hnot]
  refine ⟨_, _, hresult, ?_, ?_, ?_⟩
  · rw [publishResult_completion, hfinal]
    unfold keptText
    split_ifs <;> simp_all
  · rw [publishResult_completionTokens, hfinal]
    simp only [htotal, Int.zero_add]
    split_ifs <;> rfl
  · rw [hfinal]

variable {done : InferenceRequest}

/-- After the same text the two outcomes differ at most in the text that is published. -/
theorem sameOutcome_iff
    {outcome outcome' : Option (InferenceRequest × InferenceResult)}
    (hsame : (Stepwise.slot done).view.Same last.view)
    (h : EndsAs outcome (Stepwise.publishedText done) done.execution.tokensGenerated
      (done.streamed ++ done.calls done.outputUtf8.finish.1.text))
    (h' : EndsAs outcome' last.publishedText last.state.tokensGenerated
      (last.req.streamed ++ last.req.calls last.req.outputUtf8.finish.1.text)) :
    SameOutcome outcome outcome' ↔ Stepwise.publishedText done = last.publishedText := by
  obtain ⟨r, res, rfl, htext, htokens, hstreamed⟩ := h
  obtain ⟨r', res', rfl, htext', htokens', hstreamed'⟩ := h'
  have hcalls : done.calls = last.req.calls := hsame.text.calls
  have hlog : done.streamed = last.req.streamed := hsame.text.streamed
  have hutf8 : done.outputUtf8 = last.req.outputUtf8 := hsame.text.outputUtf8
  have hcount : done.execution.tokensGenerated = last.state.tokensGenerated := hsame.tokensGenerated
  rw [← htext, ← htext']
  constructor
  · rintro ⟨_, _, _, _, ⟨⟩, ⟨⟩, heq, -, -⟩
    exact heq
  · intro heq
    refine ⟨r, res, r', res', rfl, rfl, heq, ?_, ?_⟩
    · rw [htokens, htokens', hcount]
    · rw [hstreamed, hstreamed', hcalls, hlog, hutf8]

theorem seedSlot_stateError (hentry : entry req = .stateError) :
    seedSlot tuning req = ⟨req.beginSlice, (openSlot tuning req).state.deactivate .stateError,
      { (openSlot tuning req).result with completion := kBatchStateErrorText }⟩ := by
  have hbegin : entry req.beginSlice = .stateError := hentry
  unfold entry at hbegin
  split_ifs at hbegin with hsampled hstart hresumed
  unfold seedSlot
  dsimp [planFairnessSlice]
  rw [if_neg hsampled, if_neg hstart, if_neg hresumed]
  rfl

/-- Both paths report a request that can enter neither loop alike. -/
theorem stateError_same (hnew : NewRequest req) (hentry : entry req = .stateError) (s : σ) :
    SameOutcome (stepwiseRequest backend tuning 1 req s)
      (runRequest backend.toBackend tuning (fun _ => {}) req s) := by
  have hseed := seedSlot_stateError { tuning with decodeBurstTokens := 0 }
    (show entry (req.setTimeslice 0) = .stateError from hentry)
  have hphased := runRequest_endsAs tuning hnew
    (unifiedLoop_inactive backend.toBackend _ (fun _ => rfl) (by rw [hseed]; rfl) kDeadlockGuard s)
    (by
      rw [hseed]
      exact ⟨rfl, rfl, by simp [openSlot, setTimeslice, ReqState.deactivate]⟩)
  obtain ⟨done, hrun, hset, hview⟩ := Stepwise.decodeSteps_stateError tuning hnew hentry s
  have hsteps : stepwiseRequest backend tuning 1 req s =
      some (Stepwise.finalizeUnifiedDecodeStepResult done) := by
    rw [stepwiseRequest, hrun, map_some]
  have hstepwise := Stepwise.finalize_endsAs hset
  rw [← hsteps] at hstepwise
  have hsame : (Stepwise.slot done).view.Same
      (seedSlot { tuning with decodeBurstTokens := 0 } (req.setTimeslice 0)).view := by
    rw [hseed]
    exact hview.trans ⟨⟨rfl, rfl, rfl, rfl⟩, rfl, rfl⟩
  rw [sameOutcome_iff hsame hstepwise hphased]
  have hcompletion : done.execution.result.completion = kBatchStateErrorText := hview.completion
  have hutf8 : done.outputUtf8 = {} := hview.text.outputUtf8.trans hnew.outputUtf8
  have hutf8' : (req.setTimeslice 0).beginSlice.outputUtf8 = {} := hnew.outputUtf8
  simp only [Stepwise.publishedText, hcompletion, hutf8, publishedText, hseed, hutf8']
  rfl

theorem consumed_pos (req : InferenceRequest) (completion : Bytes) (hpieces : pieces ≠ []) :
    0 < (assemblePieces req completion pieces).consumed := by
  cases pieces with
  | nil => exact absurd rfl hpieces
  | cons piece pieces =>
    unfold assemblePieces
    dsimp only
    split_ifs <;> simp [Assembly.after]

/-- The texts that the two paths publish after the same pieces. -/
theorem published_eq_iff (hnew : NewRequest req) (hreads : Reads (startView req) pieces last.view)
    (hsame : (Stepwise.slot done).view.Same last.view) :
    Stepwise.publishedText done = last.publishedText ↔
      pieces = [] ∨ (stoppedText req.stop req.outputUtf8 pieces).1 ≠ [] := by
  have hcompletion : last.result.completion = (assemblePieces req [] pieces).completion :=
    hreads.completion
  have htokens : last.state.tokensGenerated = (assemblePieces req [] pieces).consumed := by
    have htokens := hreads.tokensGenerated
    simpa [view, startView] using htokens
  have hutf8 : last.req.outputUtf8 = (assemblePieces req [] pieces).req.outputUtf8 :=
    hreads.text.outputUtf8
  have hdone : done.execution.result.completion = last.result.completion := hsame.completion
  have hdone' : done.outputUtf8 = last.req.outputUtf8 := hsame.text.outputUtf8
  rw [stoppedText_eq]
  simp only [Stepwise.publishedText, publishedText, hdone, hdone', hcompletion, htokens, hutf8,
    Assembly.finish, finishGeneratedText_eq]
  by_cases hnil : pieces = []
  · subst hnil
    simp only [assemblePieces, hnew.outputUtf8, true_or, iff_true]
    rfl
  · have hpos := consumed_pos req [] hnil
    have hcount : decide (((assemblePieces req [] pieces).consumed : Int) = 0) = false :=
      decide_eq_false (by omega)
    simp only [hcount, Bool.false_and, Bool.false_eq_true, if_false]
    generalize (assemblePieces req [] pieces).completion ++
      (assemblePieces req [] pieces).req.outputUtf8.finish.1.text = text
    by_cases htext : text = []
    · subst htext
      have hne : ¬ kBackendEmptyResponseText = [] := by decide
      simp [hnil, hne]
    · simp [htext]

theorem NewRequest.unsliced (h : NewRequest req) : NewRequest (req.setTimeslice 0) :=
  ⟨h.cancellationFlag, h.maxTokens_pos, h.remaining, h.total, h.accumulatedOutput, h.outputUtf8,
    h.initialized, h.phase, h.offset⟩

variable {backend tuning}

theorem stepwiseRequest_eq (h : (stepwiseRequest backend tuning fuel req s).isSome)
    (h' : (stepwiseRequest backend tuning fuel' req s).isSome) :
    stepwiseRequest backend tuning fuel req s = stepwiseRequest backend tuning fuel' req s := by
  unfold stepwiseRequest at h h' ⊢
  rw [isSome_map, isSome_iff_exists] at h h'
  obtain ⟨done, hrun⟩ := h
  obtain ⟨done', hrun'⟩ := h'
  rw [hrun, hrun', Stepwise.decodeSteps_unique tuning hrun hrun']

variable {rounds : Nat}

/-- A loop that ends with requests that are all done is not cut short. -/
theorem unifiedLoop_add {backend : Backend σ} (hquiet : backend.Quiet) {slots last : List Slot}
    (hrun : unifiedLoop backend tuning rounds slots s = (last, s'))
    (hdone : ∀ slot ∈ last, slot.state.active = false) (more : Nat) :
    unifiedLoop backend tuning (rounds + more) slots s = (last, s') := by
  induction rounds generalizing slots s with
  | zero =>
    obtain ⟨rfl, rfl⟩ := Prod.mk.inj hrun
    cases more with
    | zero => rfl
    | succ more =>
      have hbuild (cap : Int) : slots.map (buildInput cap) = slots.map (·, none) :=
        List.map_congr_left fun slot hslot => by simp [buildInput, hdone slot hslot]
      rw [Nat.zero_add, unifiedLoop_round_eq _ _ _ (hquiet.loadSlots ..), ← filterMap_buildInput,
        hbuild]
      simp [Function.comp_def]
  | succ rounds ih =>
    rw [unifiedLoop_round_eq _ _ _ (hquiet.loadSlots ..)] at hrun
    rw [Nat.add_right_comm, unifiedLoop_round_eq _ _ _ (hquiet.loadSlots ..)]
    split_ifs at hrun ⊢ with hnone
    · exact hrun
    · revert hrun
      obtain ⟨step, t⟩ := backend.executeUnifiedBatch s (roundInputs backend tuning slots)
      intro hrun
      dsimp only at hrun ⊢
      split_ifs at hrun ⊢ with hfailed
      · exact hrun
      · exact ih hrun

theorem withinGuard_of_done {backend : Backend σ} (hquiet : backend.Quiet)
    (hrounds : rounds ≤ kDeadlockGuard)
    (hdone : ∀ slot ∈ (unifiedLoop backend { tuning with decodeBurstTokens := 0 } rounds
      [seedSlot { tuning with decodeBurstTokens := 0 } (req.setTimeslice 0)] s).1,
      slot.state.active = false) : WithinGuard tuning backend req s := by
  intro more hmore
  obtain ⟨n, rfl⟩ := Nat.exists_eq_add_of_le (Nat.le_trans hrounds hmore)
  obtain ⟨m, hm⟩ := Nat.exists_eq_add_of_le hrounds
  rw [hm, unifiedLoop_add hquiet rfl hdone, unifiedLoop_add hquiet rfl hdone]

theorem Stepwise.burstsAgree_stream (capacity : Int) (req : InferenceRequest)
    (outs : List UnifiedBatchOutput) :
    Stepwise.BurstsAgree (Stepwise.streamStepBackend capacity) req outs := ⟨rfl, rfl⟩

/-- Decoding step by step ends, and it ends as phased decoding does unless the pieces are trimmed
to an empty text. -/
theorem stepwise_eq_phased_iff (backend : StepBackend σ) (tuning : UnifiedBatchTuning)
    (req : InferenceRequest) (s : σ) (hnew : NewRequest req)
    (hguard : WithinGuard tuning backend.toBackend req s)
    (hagree : ∀ req' s', Relation.ReflTransGen (Stepwise.Pass backend tuning)
      (Stepwise.primeUnifiedDecodeStepState req, s) (req', s') →
      Stepwise.BurstsAgree backend req' s') :
    (∃ fuel, (stepwiseRequest backend tuning fuel req s).isSome) ∧
      ∀ fuel, (stepwiseRequest backend tuning fuel req s).isSome →
        (SameOutcome (stepwiseRequest backend tuning fuel req s)
            (runRequest backend.toBackend tuning (fun _ => {}) req s) ↔
          requestPieces tuning backend.toBackend kDeadlockGuard req s = [] ∨
            (stoppedText req.stop req.outputUtf8
              (requestPieces tuning backend.toBackend kDeadlockGuard req s)).1 ≠ []) := by
  suffices hone : ∃ fuel, (stepwiseRequest backend tuning fuel req s).isSome ∧
      (SameOutcome (stepwiseRequest backend tuning fuel req s)
          (runRequest backend.toBackend tuning (fun _ => {}) req s) ↔
        requestPieces tuning backend.toBackend kDeadlockGuard req s = [] ∨
          (stoppedText req.stop req.outputUtf8
            (requestPieces tuning backend.toBackend kDeadlockGuard req s)).1 ≠ []) by
    obtain ⟨fuel, hsome, hiff⟩ := hone
    refine ⟨⟨fuel, hsome⟩, fun fuel' hsome' => ?_⟩
    rw [stepwiseRequest_eq hsome' hsome]
    exact hiff
  by_cases hentry : entry req = .stateError
  · have hsame : SameOutcome (stepwiseRequest backend tuning 1 req s)
        (runRequest backend.toBackend tuning (fun _ => {}) req s) :=
      stateError_same backend tuning hnew hentry s
    have hsome : (stepwiseRequest backend tuning 1 req s).isSome := by
      obtain ⟨_, _, _, _, hrun, -⟩ := hsame
      rw [hrun]
      rfl
    refine ⟨1, hsome, iff_of_true hsame (.inl ?_)⟩
    simp [requestPieces, hentry]
  · obtain ⟨fuel, done, t, hsteps, hset, enough, hstepwise⟩ :=
      Stepwise.decodeSteps_request tuning hnew hentry hagree
    have hloops (rounds : Nat) := unifiedLoop_request { tuning with decodeBurstTokens := 0 }
      hnew.unsliced rfl rfl hentry (show backend.toBackend.Quiet from fun _ => rfl) rounds s
    have hstart : (startView (req.setTimeslice 0)).Same (startView req) :=
      ⟨⟨rfl, rfl, rfl, rfl⟩, rfl, rfl⟩
    obtain ⟨last, s', hloop, hkept, hphased⟩ := hloops kDeadlockGuard
    -- with rounds enough for both, the two loops read the same pieces
    obtain ⟨last', s'', hloop', -, hphased'⟩ := hloops (enough + kDeadlockGuard)
    rw [hguard _ (Nat.le_add_left ..), hloop] at hloop'
    obtain ⟨⟨⟩, -⟩ := Prod.mk.inj hloop'
    have hview := (hstepwise _ (Nat.le_add_right ..)).same (hphased'.of_same hstart)
    have hrun : stepwiseRequest backend tuning fuel req s =
        some (Stepwise.finalizeUnifiedDecodeStepResult done) := by
      rw [stepwiseRequest, hsteps, Option.map_some]
    have hends := Stepwise.finalize_endsAs hset
    rw [← hrun] at hends
    refine ⟨fuel, by rw [hrun]; rfl, ?_⟩
    rw [sameOutcome_iff hview hends (runRequest_endsAs tuning hnew hloop hkept)]
    exact published_eq_iff hnew (hphased.of_same hstart) hview

theorem stepwise_eq_phased_abc :
    let req : InferenceRequest :=
      { maxTokens := 4, nPast := 0, sequenceId := 0, bpePromptTokens := [1], onToken := true
        stop := [bytes "c"], fairness := { remainingDecodeTokens := 4 } }
    let outs : List UnifiedBatchOutput :=
      [⟨5, bytes "a", true⟩, ⟨6, bytes "b", true⟩, ⟨7, bytes "c", true⟩]
    SameOutcome (stepwiseRequest (Stepwise.streamStepBackend 8) {} 4 req outs)
      (runRequest (streamBackend 8) {} (fun _ => {}) req outs) := by
  intro req outs
  have hnew : NewRequest req := by
    constructor <;> decide
  have hguard : WithinGuard {} (streamBackend 8) req outs :=
    withinGuard_of_done (streamBackend_quiet 8) (show 4 ≤ kDeadlockGuard by decide) (by decide)
  exact ((stepwise_eq_phased_iff (Stepwise.streamStepBackend 8) {} req outs hnew hguard
    fun req' s' _ => Stepwise.burstsAgree_stream 8 req' s').2 4 (by decide)).mpr (.inr (by decide))

/-- A stop sequence that trims the completion to nothing: the phased path publishes an empty text
and one token, the step-wise path that the backend returned nothing and one token. -/
theorem stepwise_replaces_trimmed_text :
    let req : InferenceRequest :=
      { maxTokens := 4, nPast := 0, sequenceId := 0, bpePromptTokens := [1], onToken := true
        stop := [bytes "a"], fairness := { remainingDecodeTokens := 4 } }
    let outs : List UnifiedBatchOutput := [⟨5, bytes "a", true⟩]
    let shown (outcome : Option (InferenceRequest × InferenceResult)) :=
      outcome.map fun final =>
        (final.2.completion, final.2.completionTokens, final.1.streamed.flatten)
    NewRequest req ∧ WithinGuard {} (streamBackend 8) req outs ∧
      shown (runRequest (streamBackend 8) {} (fun _ => {}) req outs) = some ([], 1, []) ∧
      shown (stepwiseRequest (Stepwise.streamStepBackend 8) {} 1 req outs) =
        some (kBackendEmptyResponseText, 1, []) := by
  refine ⟨?_, withinGuard_of_done (streamBackend_quiet 8) (show 1 ≤ kDeadlockGuard by decide)
    (by decide), by decide, by decide⟩
  constructor <;> decide

end Runs

end InferFlux.Execution
