import InferFlux.Scheduler.PageConservation
import InferFlux.Scheduler.SessionHandleManager

/-!
# Session leases

`Scheduler::ProcessBatch` from `scheduler/scheduler.cpp` in unified mode with session handles
enabled, for any number of requests that share one `SessionHandleManager`: the lease that a
request takes before its lookup, the state of the session that it reuses or discards,
`FinalizeSessionLease` and the exits that call it. Where no session is involved a request takes
the path of `ProcessBatch.lean`. The eviction thread may collect expired sessions at any time.

Whether the slot of a session is restored (`RestoreLease`) comes from outside, so the
generations of the slots do not appear.
-/

namespace InferFlux.Scheduler

open InferFlux.Text InferFlux.Execution SessionHandleManager List Option LoggedRun

structure SessionRequest where
  pending : PendingRequest
  sessionId : Bytes := []
  sessionLeaseAcquired : Bool := false

/-- `RequestUsesSessionHandle`, when there is a manager. -/
def SessionRequest.usesSessionHandle (r : SessionRequest) : Bool := !r.sessionId.isEmpty

structure SessionEnv extends AdmissionEnv where
  now : Int := 0
  /-- The model that `ResolveBackends` has left in the request. -/
  resolvedModel : String := ""
  /-- The slot that the session retained is restored, where it has a generation. -/
  restored : Bool := true

/-! ## Taking the lease -/

/-- The model of the request when it looks for a prefix. -/
def sessionModel (inf : InferenceRequest) : String :=
  if inf.resolvedModel.isEmpty then inf.model else inf.resolvedModel

def SessionHandleState.compatible (state : SessionHandleState) (inf : InferenceRequest) : Bool :=
  (state.modelId.isEmpty || (sessionModel inf).isEmpty || state.modelId = sessionModel inf) &&
    state.promptTokens.isPrefixOf inf.bpePromptTokens && state.sequenceId ≥ 0

def releaseSessionState (parts : Components) (state : SessionHandleState) : List PageEvent :=
  if parts.cache && !state.blockTable.isEmpty then [.released state.blockTable] else []

/-- What a request has of its session when it looks for a prefix. -/
structure SessionLease where
  manager : SessionHandleManager
  acquired : Bool
  reused : Option SessionHandleState := none
  pages : List PageEvent := []

def leaseSession (parts : Components) (manager : SessionHandleManager) (now : Int)
    (r : SessionRequest) (inf : InferenceRequest) : SessionLease :=
  if r.usesSessionHandle && !r.sessionLeaseAcquired then
    let (manager, lease) := manager.acquireLease now r.sessionId
    let cleanup := lease.cleanupStates.flatMap (releaseSessionState parts)
    match lease.status with
    | .busy => { manager, acquired := false, pages := cleanup }
    | .acquired =>
      match lease.state with
      | none => { manager, acquired := true, pages := cleanup }
      | some state =>
        if state.compatible inf then
          { manager, acquired := true, reused := some state, pages := cleanup }
        else
          { manager := manager.discardLeasedState r.sessionId
            acquired := true
            pages := cleanup ++ releaseSessionState parts state }
  else { manager, acquired := r.usesSessionHandle && r.sessionLeaseAcquired }

/-! ## Admission -/

/-- The request is in the prefill phase and gets as far as the lookup of a prefix. -/
def reachesLookup (env : AdmissionEnv) (inf : InferenceRequest) : Bool :=
  !inf.embeddingRequest && inf.phase = .prefill &&
    !(inf.sequenceId ≥ 0 && inf.nPast ≥ 0 && inf.firstToken ≥ 0) && env.backendReady &&
    !(inf.hasImages || inf.responseFormat.hasFormat || env.keepsLegacyLogprobs)

/-- The session's state takes the place of a lookup and a new slot, and its slot holds the
prefix already. -/
def AdmissionEnv.reuse (env : AdmissionEnv) (state : SessionHandleState) : AdmissionEnv :=
  { env with
    lookup :=
      { hit := true
        blockTable := state.blockTable
        sequenceId := state.sequenceId
        matchedTokens := state.promptTokens.length }
    seqId := state.sequenceId
    retiredDonorSequences := []
    copySequencePrefix := true }

/-- Admission over the state of a session, whose block references the request takes over.
The flag says that the prefill has failed. -/
def admitReused (parts : Components) (env : SessionEnv) (state : SessionHandleState)
    (inf : InferenceRequest) : InferenceRequest × Bool × List PageEvent :=
  let reusing := env.toAdmissionEnv.reuse state
  let r := reserve { parts with prefixCache := true } reusing inf
  if canAdmit parts reusing r && env.restored then
    let (inf, released) := startPrefill parts reusing r (bindBlocks parts r inf).1
    (inf, inf.sequenceId < 0, r.pages ++ released)
  else (inf, false, r.pages ++ if parts.cache then [.released r.newBlocks] else [])

/-- The rest of the admission, with the lease or without. A failed prefill discards the state
of the session. -/
def admitLeased (parts : Components) (env : SessionEnv) (sessionId : Bytes) (lease : SessionLease)
    (inf : InferenceRequest) : SessionHandleManager × InferenceRequest × List PageEvent :=
  match lease.reused with
  | none =>
    let (inf, pages) := admitPhased parts env.toAdmissionEnv inf
    (lease.manager, inf, lease.pages ++ pages)
  | some state =>
    let (inf, failed, pages) := admitReused parts env state inf
    (if failed then lease.manager.discardLeasedState sessionId else lease.manager, inf,
      lease.pages ++ pages)

/-- The request as `ResolveBackends` leaves it. -/
def PendingRequest.resolve (pending : PendingRequest) (resolvedModel : String) : PendingRequest :=
  { pending with inference := { pending.inference with resolvedModel } }

/-- The prompt is rejected because it overflows the context of a slot. -/
def rejectedForOverflow (env : AdmissionEnv) (inf : InferenceRequest) : Bool :=
  reachesLookup env inf && overflows env (tokenizePrompt env inf)

/-- The first loop of `ProcessBatch`. A prompt that overflows is rejected after the lease is
taken, and the lease is not given back. -/
def stageSession (parts : Components) (selection : Selection) (env : SessionEnv)
    (manager : SessionHandleManager) (r : SessionRequest) :
    SessionHandleManager × SessionRequest × List PageEvent :=
  let pending := r.pending.resolve env.resolvedModel
  let inf := selection.enter pending
  if reachesLookup env.toAdmissionEnv inf then
    let inf := tokenizePrompt env.toAdmissionEnv inf
    let lease := leaseSession parts manager env.now r inf
    let inf := resetReuse inf
    let r := { r with sessionLeaseAcquired := lease.acquired }
    if overflows env.toAdmissionEnv inf then
      let result :=
        { noBackend := true
          completion := contextOverflowText inf.bpePromptTokens.length inf.maxTokens env.kvMaxSeq }
      (lease.manager, { r with pending := { inference := inf, promise := some result } }, lease.pages)
    else
      let (manager, inf, pages) := admitLeased parts env r.sessionId lease inf
      (manager, { r with pending := { inference := inf.setPhase .decode, place := .batch } }, pages)
  else
    let (pending, pages) := stage parts selection env.toAdmissionEnv pending
    (manager, { r with pending }, pages)

/-! ## Giving the lease back -/

def committedState (inf : InferenceRequest) : SessionHandleState :=
  { modelId := sessionModel inf
    sequenceId := inf.sequenceId
    promptTokens := inf.bpePromptTokens
    blockTable := inf.blockTable }

/-- `FinalizeSessionLease`: commit the state of the request to its session, or give back what
the request holds and release the lease. -/
def finalizeSessionLease (parts : Components) (now : Int) (commitState : Bool)
    (manager : SessionHandleManager) (sessionId : Bytes) (inf : InferenceRequest) :
    SessionHandleManager × InferenceRequest × List PageEvent :=
  if commitState && inf.sequenceId ≥ 0 && inf.cachePrefillComplete then
    (manager.commitLease now sessionId (committedState inf),
      { inf with blockTable := [], sequenceId := -1 }, [])
  else if inf.sequenceId ≥ 0 then
    let (inf, released) := releaseSequence parts inf
    ((manager.discardLeasedState sessionId).releaseLease now sessionId, inf, released)
  else (manager.releaseLease now sessionId, inf, [])

variable {σ : Type}

/-- The end of a request that holds a lease: the lease is given back and the promise set. -/
def finishSession (parts : Components) (now : Int) (commitState : Bool)
    (manager : SessionHandleManager) (r : SessionRequest) (inf : InferenceRequest)
    (result : InferenceResult) : SessionHandleManager × SessionRequest × List PageEvent :=
  let (manager, inf, pages) := finalizeSessionLease parts now commitState manager r.sessionId inf
  (manager,
    { r with pending := { inference := inf, promise := some result }, sessionLeaseAcquired := false },
    pages)

def runStagedSession (parts : Components) (env : BatchEnv σ) (now : Int)
    (manager : SessionHandleManager) (r : SessionRequest) :
    SessionHandleManager × SessionRequest × List PageEvent :=
  if r.sessionLeaseAcquired && r.usesSessionHandle then
    match checkFormat env r.pending.inference with
    | .error message =>
      finishSession parts now false manager r r.pending.inference
        { noBackend := true, completion := message }
    | .ok req =>
      let outcome := executeBatch parts env (cancelIf req env.cancelled)
      if outcome.req.embeddingRequest || outcome.req.fairness.yielded then
        let (pending, pages) := publish parts env outcome
        (manager, { r with pending }, outcome.pages ++ pages)
      else
        let (manager, r, pages) := finishSession parts now (!outcome.result.noBackend) manager r
          (outcome.req.setPhase .finished) (publishResult outcome.req outcome.result)
        (manager, r, outcome.pages ++ pages)
  else
    let (pending, pages) := runStaged parts env r.pending.inference
    (manager, { r with pending }, pages)

/-- The requests that the scheduler has accepted, and their sessions. -/
structure SessionScheduler where
  manager : SessionHandleManager
  requests : List SessionRequest := []

/-- `Generate` for a text, `Embed` for an embedding request, which has no session. -/
def generate (inference : InferenceRequest) (sessionId : Bytes) : SessionRequest :=
  let maxTokens := if inference.maxTokens ≤ 0 then 1 else inference.maxTokens
  { pending :=
      { inference :=
          { inference with
            phase := .pending
            maxTokens
            accumulatedOutput := []
            execution := {}
            fairness :=
              { inference.fairness with
                remainingDecodeTokens := maxTokens
                reportedPromptTokens := inference.promptTokens.length } } }
    sessionId := if inference.embeddingRequest then [] else sessionId }

/-- What the threads of the scheduler do to its requests and sessions. -/
inductive SessionOp (σ : Type) where
  | generated (inference : InferenceRequest) (sessionId : Bytes)
  /-- The fairness controller takes a request out of the batch again. -/
  | displaced (i : Nat)
  | staged (i : Nat) (selection : Selection) (env : SessionEnv)
  | executed (i : Nat) (env : BatchEnv σ) (now : Int)
  /-- The eviction thread collects the expired sessions. -/
  | collected (now : Int)

namespace SessionScheduler

def update (w : SessionScheduler) (i : Nat)
    (changed : SessionHandleManager × SessionRequest × List PageEvent) :
    SessionScheduler × List PageEvent :=
  ({ manager := changed.1, requests := w.requests.set i changed.2.1 }, changed.2.2)

/-- One step of the scheduler. A request takes part until its promise is set. -/
def step (parts : Components) (w : SessionScheduler) :
    SessionOp σ → Option (SessionScheduler × List PageEvent)
  | .generated inference sessionId =>
    some ({ w with requests := w.requests ++ [generate inference sessionId] }, [])
  | .displaced i => do
    let r ← w.requests[i]?
    let (pending, pages) ← Scheduler.step parts r.pending (.displaced : Op σ)
    return w.update i (w.manager, { r with pending }, pages)
  | .staged i selection env => do
    let r ← w.requests[i]?
    if r.pending.promise.isSome || r.pending.place = .batch then none
    else some (w.update i (stageSession parts selection env w.manager r))
  | .executed i env now => do
    let r ← w.requests[i]?
    if r.pending.promise.isSome || r.pending.place ≠ .batch then none
    else some (w.update i (runStagedSession parts env now w.manager r))
  | .collected now =>
    let (manager, expired) := w.manager.collectExpired now
    some ({ w with manager }, expired.flatMap (releaseSessionState parts))

end SessionScheduler

/-! ## What the steps do to a lease -/

def SessionRequest.lease (r : SessionRequest) : Option Bytes :=
  if r.sessionLeaseAcquired then some r.sessionId else none

/-- What a step of a request does to its lease and to the sessions in use. -/
inductive LeaseMove (m : SessionHandleManager) (before : Option Bytes) (m' : SessionHandleManager)
    (after : Option Bytes) : Prop where
  | kept (hlease : after = before) (hinUse : ∀ id, m'.InUse id ↔ m.InUse id)
  | taken {id : Bytes} (hbefore : before = none) (hafter : after = some id) (hfree : ¬ m.InUse id)
    (hinUse : ∀ other, m'.InUse other ↔ other = id ∨ m.InUse other)
  | returned {id : Bytes} (hbefore : before = some id) (hafter : after = none)
    (hinUse : ∀ other, m'.InUse other ↔ other ≠ id ∧ m.InUse other)

theorem LeaseMove.congr {m m' m'' : SessionHandleManager} {before after : Option Bytes}
    (h : LeaseMove m before m' after) (hsame : ∀ id, m''.InUse id ↔ m'.InUse id) :
    LeaseMove m before m'' after := by
  cases h with
  | kept hlease hinUse => exact .kept hlease fun id => (hsame id).trans (hinUse id)
  | taken hbefore hafter hfree hinUse =>
    exact .taken hbefore hafter hfree fun id => (hsame id).trans (hinUse id)
  | returned hbefore hafter hinUse =>
    exact .returned hbefore hafter fun id => (hsame id).trans (hinUse id)

variable {id : Bytes}

section Lease

variable {parts : Components} {m : SessionHandleManager} {now : Int} {r : SessionRequest}
  {inf : InferenceRequest}

theorem leaseSession_acquired : (leaseSession parts m now r inf).acquired = true ↔
    r.sessionId ≠ [] ∧ (r.sessionLeaseAcquired ∨ m.Available r.sessionId) := by
  have hstatus : (m.acquireLease now r.sessionId).2.status = .acquired ↔
      m.Available r.sessionId := acquireLease_acquired_iff
  rw [leaseSession]
  split_ifs with hasks
  · simp only [SessionRequest.usesSessionHandle, Bool.and_eq_true, Bool.not_eq_true',
      isEmpty_eq_false_iff] at hasks
    obtain ⟨hid, hfree⟩ := hasks
    cases hacquired : (m.acquireLease now r.sessionId).2.status with
    | busy => simp_all
    | acquired =>
      cases hstate : (m.acquireLease now r.sessionId).2.state with
      | none => simp_all
      | some state => by_cases hfits : state.compatible inf <;> simp_all
  · cases hid : r.sessionId <;> cases hlease : r.sessionLeaseAcquired <;>
      simp_all [SessionRequest.usesSessionHandle]

theorem leaseSession_inUse : (leaseSession parts m now r inf).manager.InUse id ↔
    id = r.sessionId ∧ r.sessionLeaseAcquired = false ∧ m.Available r.sessionId ∨ m.InUse id := by
  have hinUse : (m.acquireLease now r.sessionId).1.InUse id ↔ id = r.sessionId ∧
      (m.acquireLease now r.sessionId).2.status = .acquired ∨ m.InUse id := acquireLease_inUse
  rw [acquireLease_acquired_iff] at hinUse
  rw [leaseSession]
  split_ifs with hasks
  · have hfree : r.sessionLeaseAcquired = false := by simp_all
    simp only [hfree, true_and, ← hinUse]
    cases (m.acquireLease now r.sessionId).2.status with
    | busy => rfl
    | acquired =>
      cases (m.acquireLease now r.sessionId).2.state with
      | none => rfl
      | some state =>
        by_cases hfits : state.compatible inf
        · simp [hfits]
        · simp [hfits, discardLeasedState_inUse]
  · have : r.sessionLeaseAcquired = false → ¬ m.Available r.sessionId := by
      rintro hfree ⟨hid, _⟩
      simp [SessionRequest.usesSessionHandle, hid, hfree] at hasks
    grind

variable {sessionId : Bytes}

/-- Admission keeps the lease; at most it discards the state. -/
theorem admitLeased_inUse {env : SessionEnv} {lease : SessionLease} :
    (admitLeased parts env sessionId lease inf).1.InUse id ↔ lease.manager.InUse id := by
  rw [admitLeased]
  cases lease.reused with
  | none => rfl
  | some state =>
    simp only
    split_ifs
    · exact discardLeasedState_inUse
    · rfl

variable {env : AdmissionEnv} {reservation : Reservation}

theorem startPrefill_embeddingRequest :
    (startPrefill parts env reservation inf).1.embeddingRequest = inf.embeddingRequest := by
  simp only [startPrefill]
  split_ifs <;> rfl

theorem bindBlocks_embeddingRequest :
    (bindBlocks parts reservation inf).1.embeddingRequest = inf.embeddingRequest := by
  rw [bindBlocks]
  split_ifs <;> rfl

theorem admitPhased_embeddingRequest :
    (admitPhased parts env inf).1.embeddingRequest = inf.embeddingRequest := by
  simp only [admitPhased]
  split_ifs
  · rw [startPrefill_embeddingRequest, bindBlocks_embeddingRequest]
  · rfl
  · rfl

theorem admitLeased_embeddingRequest {env : SessionEnv} {lease : SessionLease} :
    (admitLeased parts env sessionId lease inf).2.1.embeddingRequest = inf.embeddingRequest := by
  rw [admitLeased]
  cases lease.reused with
  | none => exact admitPhased_embeddingRequest
  | some state =>
    simp only [admitReused]
    split_ifs
    · rw [startPrefill_embeddingRequest, bindBlocks_embeddingRequest]
    all_goals rfl

/-- A request that does not come to the lookup goes on with its kind. -/
theorem stagePrefill_of_not_reachesLookup (hkind : inf.embeddingRequest = false)
    (hphase : inf.phase = .prefill) (h : reachesLookup env inf = false) :
    ∃ inf', stagePrefill parts env inf = .ok (inf', []) ∧
      inf'.embeddingRequest = inf.embeddingRequest := by
  rw [reachesLookup, hkind, hphase] at h
  simp only [Bool.not_false, decide_true, Bool.true_and] at h
  rw [stagePrefill]
  cases hready : (inf.sequenceId ≥ 0 && inf.nPast ≥ 0 && inf.firstToken ≥ 0 : Bool) with
  | true => exact ⟨_, if_pos rfl, rfl⟩
  | false =>
    cases hbackend : env.backendReady with
    | false => exact ⟨_, if_neg Bool.false_ne_true, rfl⟩
    | true =>
      have hbypass : (inf.hasImages || inf.responseFormat.hasFormat || env.keepsLegacyLogprobs) =
          true := by
        simpa only [hready, hbackend, Bool.not_false, Bool.true_and, Bool.not_eq_false'] using h
      exact ⟨_, if_pos hbypass, rfl⟩

variable {selection : Selection}

/-- Without a lookup the first loop sets no promise and keeps the kind of the request. -/
theorem stage_of_not_reachesLookup (parts : Components) {pending : PendingRequest}
    (h : reachesLookup env (selection.enter pending) = false) :
    (stage parts selection env pending).1.promise = none ∧
      (stage parts selection env pending).1.inference.embeddingRequest =
        pending.inference.embeddingRequest := by
  rw [stage]
  cases hkind : (selection.enter pending).embeddingRequest with
  | true => exact ⟨rfl, rfl⟩
  | false =>
    by_cases hphase : (selection.enter pending).phase = .prefill
    · obtain ⟨inf', hok, hsame⟩ :
          ∃ inf', stagePrefill parts env (selection.enter pending) = .ok (inf', []) ∧ _ :=
        stagePrefill_of_not_reachesLookup hkind hphase h
      simp only [hphase, hok, if_true, Bool.false_eq_true, if_false, true_and]
      exact hsame
    · simp only [hphase, if_false, Bool.false_eq_true, true_and]
      rfl

variable {commitState : Bool}

theorem finalizeSessionLease_inUse (hid : sessionId ≠ []) :
    (finalizeSessionLease parts now commitState m sessionId inf).1.InUse id ↔
      id ≠ sessionId ∧ m.InUse id := by
  rw [finalizeSessionLease]
  split_ifs
  · exact commitLease_inUse hid
  · rw [releaseLease_inUse hid, discardLeasedState_inUse]
  · exact releaseLease_inUse hid

/-- A request that holds a lease has a session, and is no embedding request. -/
def SessionRequest.Sound (r : SessionRequest) : Prop :=
  r.sessionLeaseAcquired → r.sessionId ≠ [] ∧ r.pending.inference.embeddingRequest = false

/-- What a step of a request does to its lease. It leaves the request answered but with its
lease exactly if `leaks`. -/
structure RequestMove (m : SessionHandleManager) (r : SessionRequest) (m' : SessionHandleManager)
    (r' : SessionRequest) (leaks : Prop) : Prop where
  lease : LeaseMove m r.lease m' r'.lease
  sound : r'.Sound
  leaks_iff : r'.pending.promise.isSome ∧ r'.sessionLeaseAcquired ↔ leaks

theorem leaseSession_move (hr : r.Sound) :
    LeaseMove m r.lease (leaseSession parts m now r inf).manager
      (SessionRequest.lease
        { r with sessionLeaseAcquired := (leaseSession parts m now r inf).acquired }) := by
  have hacquired : (leaseSession parts m now r inf).acquired = true ↔ _ := leaseSession_acquired
  have hinUse (id : Bytes) : (leaseSession parts m now r inf).manager.InUse id ↔ _ :=
    leaseSession_inUse
  cases hlease : r.sessionLeaseAcquired with
  | true =>
    refine .kept ?_ fun id => by simp [hinUse, hlease]
    have hid := (hr hlease).1
    rw [SessionRequest.lease, if_pos (hacquired.mpr ⟨hid, .inl hlease⟩), SessionRequest.lease,
      if_pos hlease]
  | false =>
    have hnone : r.lease = none := by simp [SessionRequest.lease, hlease]
    by_cases havailable : m.Available r.sessionId
    · refine .taken hnone ?_ havailable.2.1 fun id => by simp [hinUse, hlease, havailable]
      rw [SessionRequest.lease, if_pos (hacquired.mpr ⟨havailable.1, .inr havailable⟩)]
    · refine .kept ?_ fun id => by simp [hinUse, havailable]
      rw [hnone, SessionRequest.lease, if_neg]
      simp [hacquired, hlease, havailable]

theorem stageSession_move {env : SessionEnv} (hr : r.Sound) :
    RequestMove m r (stageSession parts selection env m r).1
      (stageSession parts selection env m r).2.1
      (rejectedForOverflow env.toAdmissionEnv
          (selection.enter (r.pending.resolve env.resolvedModel)) ∧
        r.sessionId ≠ [] ∧ (r.sessionLeaseAcquired ∨ m.Available r.sessionId)) := by
  generalize hinf : selection.enter (r.pending.resolve env.resolvedModel) = inf
  simp only [stageSession, hinf]
  cases hreach : reachesLookup env.toAdmissionEnv inf with
  | false =>
    subst hinf
    obtain ⟨hpromise, hsame⟩ := stage_of_not_reachesLookup parts hreach
    refine ⟨.kept rfl fun _ => Iff.rfl, fun hlease => ?_, ?_⟩
    · exact ⟨(hr hlease).1, hsame.trans (hr hlease).2⟩
    · simp [hpromise, rejectedForOverflow, hreach]
  | true =>
    have hkind : inf.embeddingRequest = false := by
      simp only [reachesLookup, Bool.and_eq_true, Bool.not_eq_true'] at hreach
      exact hreach.1.1.1.1
    have hmove : LeaseMove m r.lease
        (leaseSession parts m env.now r (tokenizePrompt env.toAdmissionEnv inf)).manager _ :=
      leaseSession_move hr
    have hrejected : rejectedForOverflow env.toAdmissionEnv inf = overflows env.toAdmissionEnv
        (resetReuse (tokenizePrompt env.toAdmissionEnv inf)) := by
      rw [rejectedForOverflow, hreach, Bool.true_and]
      rfl
    simp only [if_true]
    split_ifs with hoverflow
    · refine ⟨hmove, fun hlease => ⟨(leaseSession_acquired.mp hlease).1, hkind⟩, ?_⟩
      simp [leaseSession_acquired, hrejected, hoverflow]
    · refine ⟨hmove.congr fun id => admitLeased_inUse, fun hlease => ?_, ?_⟩
      · exact ⟨(leaseSession_acquired.mp hlease).1, admitLeased_embeddingRequest.trans hkind⟩
      · simp [hrejected, hoverflow]

theorem finishSession_move {result : InferenceResult} (hr : r.Sound)
    (hlease : r.sessionLeaseAcquired) :
    RequestMove m r (finishSession parts now commitState m r inf result).1
      (finishSession parts now commitState m r inf result).2.1 False := by
  have hid := (hr hlease).1
  refine ⟨.returned ?_ rfl fun id => finalizeSessionLease_inUse hid, fun h => ?_, ?_⟩
  · rw [SessionRequest.lease, if_pos hlease]
  · cases h
  · simp [finishSession]

theorem runStagedSession_move {env : BatchEnv σ} (hr : r.Sound) :
    RequestMove m r (runStagedSession parts env now m r).1
      (runStagedSession parts env now m r).2.1 False := by
  cases hlease : r.sessionLeaseAcquired with
  | false =>
    rw [runStagedSession, if_neg (by simp [hlease])]
    exact ⟨.kept rfl fun _ => Iff.rfl, fun h => absurd (hlease.symm.trans h) (by simp),
      by simp [hlease]⟩
  | true =>
    obtain ⟨hid, hkind⟩ := hr hlease
    rw [runStagedSession, if_pos (by simp [hlease, SessionRequest.usesSessionHandle, hid])]
    cases hformat : checkFormat env r.pending.inference with
    | error message => exact finishSession_move hr hlease
    | ok req =>
      have hreq : (cancelIf req env.cancelled).embeddingRequest = false := by
        have hsame := (checkFormat_ok hformat).2.1
        simp only [holding, Prod.mk.injEq] at hsame
        exact hsame.2.2.trans hkind
      have hembed : (executeBatch parts env (cancelIf req env.cancelled)).req.embeddingRequest =
          false := (executeBatch_pages parts env _).embeddingRequest.trans hreq
      simp only [hembed, Bool.false_or]
      split_ifs with hyield
      · simp only [publish, hembed, hyield, Bool.false_eq_true, if_false, if_true]
        exact ⟨.kept rfl fun _ => Iff.rfl, fun _ => ⟨hid, hembed⟩, by simp⟩
      · exact finishSession_move hr hlease

end Lease

/-! ## What the steps do to the sessions -/

namespace SessionScheduler

/-- The step rejects a prompt for its length, and the request has its lease or takes it. -/
def LeaksLease (w : SessionScheduler) : SessionOp σ → Prop
  | .staged i selection env => ∃ r ∈ w.requests[i]?,
    rejectedForOverflow env.toAdmissionEnv (selection.enter (r.pending.resolve env.resolvedModel)) ∧
      r.sessionId ≠ [] ∧ (r.sessionLeaseAcquired ∨ w.manager.Available r.sessionId)
  | _ => False

variable {parts : Components} {w w' : SessionScheduler} {op : SessionOp σ} {pages : List PageEvent}

inductive Change (w : SessionScheduler) (leaks : Prop) : SessionScheduler → Prop where
  | accepted {r : SessionRequest} (hlease : r.sessionLeaseAcquired = false) (hleaks : ¬ leaks) :
    Change w leaks { w with requests := w.requests ++ [r] }
  | moved {before after : List SessionRequest} {r r' : SessionRequest} {m' : SessionHandleManager}
    (hrequests : w.requests = before ++ r :: after) (hopen : r.pending.promise = none)
    (hmove : RequestMove w.manager r m' r' leaks) :
    Change w leaks { manager := m', requests := before ++ r' :: after }
  | collected {m' : SessionHandleManager} (hinUse : ∀ id, m'.InUse id ↔ w.manager.InUse id)
    (hleaks : ¬ leaks) : Change w leaks { w with manager := m' }

variable {leaks : Prop} {r : SessionRequest}

theorem update_change {i : Nat} {changed : SessionHandleManager × SessionRequest × List PageEvent}
    (hr : w.requests[i]? = some r) (hopen : r.pending.promise = none)
    (hmove : RequestMove w.manager r changed.1 changed.2.1 leaks) :
    Change w leaks (w.update i changed).1 := by
  obtain ⟨hi, rfl⟩ := List.getElem?_eq_some_iff.mp hr
  have hset : w.requests.set i changed.2.1 = _ := set_eq_take_append_cons_drop
  rw [if_pos hi] at hset
  rw [update, hset]
  exact .moved (by simp) hopen hmove

theorem of_guarded {α : Type} {promise : Option InferenceResult} {place : Prop} [Decidable place]
    {next result : α}
    (h : (if promise.isSome || decide place then none else some next) = some result) :
    promise = none ∧ next = result := by
  cases promise <;> simp_all

theorem step_change (hw : ∀ r ∈ w.requests, r.Sound) (h : step parts w op = some (w', pages)) :
    Change w (w.LeaksLease op) w' := by
  cases op with
  | generated inference sessionId =>
    obtain ⟨rfl, _⟩ := Prod.mk.inj (some.inj h)
    exact .accepted rfl id
  | displaced i =>
    obtain ⟨r, hr, h⟩ := bind_eq_some_iff.mp h
    obtain ⟨next, hnext, h⟩ := bind_eq_some_iff.mp h
    cases h
    obtain ⟨hopen, rfl⟩ := of_guarded hnext
    have hsound := hw r (mem_of_getElem? hr)
    exact update_change hr hopen ⟨.kept rfl fun _ => Iff.rfl, hsound, by simp [hopen, LeaksLease]⟩
  | staged i selection env =>
    obtain ⟨r, hr, h⟩ := bind_eq_some_iff.mp h
    obtain ⟨hopen, h⟩ := of_guarded h
    obtain rfl := congrArg Prod.fst h
    simp only [LeaksLease, hr, mem_some_iff, exists_eq_left']
    exact update_change hr hopen (stageSession_move (hw r (mem_of_getElem? hr)))
  | executed i env now =>
    obtain ⟨r, hr, h⟩ := bind_eq_some_iff.mp h
    obtain ⟨hopen, h⟩ := of_guarded h
    obtain rfl := congrArg Prod.fst h
    exact update_change hr hopen (runStagedSession_move (hw r (mem_of_getElem? hr)))
  | collected now =>
    obtain ⟨rfl, _⟩ := Prod.mk.inj (some.inj h)
    exact .collected (fun _ => collectExpired_inUse) id

/-- The sessions in use are those whose leases the requests hold, each by one request. -/
structure Leased (w : SessionScheduler) : Prop where
  nodup : (w.requests.filterMap SessionRequest.lease).Nodup
  inUse_iff (id : Bytes) : w.manager.InUse id ↔ id ∈ w.requests.filterMap SessionRequest.lease
  sound : ∀ r ∈ w.requests, r.Sound

theorem Leased.change (hw : w.Leased) (h : Change w leaks w') : w'.Leased := by
  obtain ⟨hnodup, hinUse, hsound⟩ := hw
  cases h with
  | @accepted r hlease _ =>
    have hnone : r.lease = none := by simp [SessionRequest.lease, hlease]
    refine ⟨?_, fun id => ?_, fun r' hr' => ?_⟩
    · simpa [hnone] using hnodup
    · simpa [hnone] using hinUse id
    · obtain hr' | hr' := mem_append.mp hr'
      · exact hsound r' hr'
      · obtain rfl := mem_singleton.mp hr'
        exact fun h => absurd (hlease.symm.trans h) Bool.false_ne_true
  | @moved before after r r' m' hrequests hopen hmove =>
    simp only [hrequests, filterMap_append, filterMap_cons] at hnodup hinUse
    have hsound' : ∀ r'' ∈ before ++ r' :: after, r''.Sound := by
      have := hmove.sound
      grind
    cases hmove.lease with
    | kept hlease hsame =>
      refine ⟨?_, fun id => ?_, hsound'⟩
      · simpa only [filterMap_append, filterMap_cons, hlease] using hnodup
      · simpa only [filterMap_append, filterMap_cons, hlease, hsame] using hinUse id
    | @taken id hbefore hafter hfree htaken =>
      simp only [hbefore] at hnodup hinUse
      refine ⟨?_, fun other => ?_, hsound'⟩
      · simp only [filterMap_append, filterMap_cons, hafter]
        rw [nodup_middle, nodup_cons]
        exact ⟨fun hmem => hfree ((hinUse id).mpr hmem), hnodup⟩
      · grind
    | @returned id hbefore hafter hreturned =>
      simp only [hbefore] at hnodup hinUse
      rw [nodup_middle, nodup_cons] at hnodup
      refine ⟨?_, fun other => ?_, hsound'⟩
      · simpa only [filterMap_append, filterMap_cons, hafter] using hnodup.2
      · grind
  | collected hsame _ => exact ⟨hnodup, fun id => (hsame id).trans (hinUse id), hsound⟩

/-- A request has been answered and still holds its lease. -/
def Leaked (w : SessionScheduler) : Prop :=
  ∃ r ∈ w.requests, r.pending.promise.isSome ∧ r.sessionLeaseAcquired

/-- A leak stays, and another one comes with the steps that leak. -/
theorem Change.leaked_iff (h : Change w leaks w') : w'.Leaked ↔ w.Leaked ∨ leaks := by
  cases h with
  | accepted hlease hleaks => simp [Leaked, hlease, hleaks, or_and_right, exists_or]
  | moved hrequests hopen hmove =>
    simp only [Leaked, hrequests, mem_append, mem_cons, or_and_right, exists_or,
      exists_eq_left, hmove.leaks_iff, hopen]
    grind
  | collected _ hleaks => simp [Leaked, hleaks]

/-- Every session in use is leased to a request that waits for its result, so that the lease of
a session can be taken again when its requests have been answered. -/
structure GivenBack (w : SessionScheduler) : Prop where
  waiting (id : Bytes) : w.manager.InUse id →
    ∃ r ∈ w.requests, r.sessionId = id ∧ r.sessionLeaseAcquired ∧ r.pending.promise = none
  later (id : Bytes) (now : Int) : id ≠ [] →
    (∀ r ∈ w.requests, r.sessionId = id → r.pending.promise.isSome) →
    id ∈ w.manager.entries ∨ w.manager.HasRoom → (w.manager.acquireLease now id).2.status = .acquired

theorem lease_eq_some : r.lease = some id ↔ r.sessionId = id ∧ r.sessionLeaseAcquired := by
  rw [SessionRequest.lease]
  split_ifs with h <;> simp [h]

theorem Leased.unique (hw : w.Leased) {other : SessionRequest} (hr : r ∈ w.requests)
    (hother : other ∈ w.requests) (hne : r ≠ other) (hlease : r.lease = some id) :
    other.lease ≠ some id := by
  have hpairs := pairwise_filterMap.mp hw.nodup
  have hsymm : Std.Symm fun a b : SessionRequest =>
      ∀ id, a.lease = some id → ∀ id', b.lease = some id' → id ≠ id' :=
    ⟨fun a b hab id hid id' hid' => (hab id' hid' id hid).symm⟩
  exact fun h => hpairs.forall hr hother hne id hlease id h rfl

theorem Leased.givenBack_iff (hw : w.Leased) : w.GivenBack ↔ ¬ w.Leaked := by
  constructor
  · rintro ⟨hwaiting, _⟩ ⟨r, hr, hanswered, hlease⟩
    have hrlease : r.lease = some r.sessionId := lease_eq_some.mpr ⟨rfl, hlease⟩
    obtain ⟨other, hother, hid, hlease', hopen⟩ :=
      hwaiting r.sessionId ((hw.inUse_iff _).mpr (mem_filterMap.mpr ⟨r, hr, hrlease⟩))
    have hne : r ≠ other := by
      rintro rfl
      simp [hopen] at hanswered
    exact hw.unique hr hother hne hrlease (lease_eq_some.mpr ⟨hid, hlease'⟩)
  · intro hleaked
    have hwaiting (id : Bytes) (hid : w.manager.InUse id) :
        ∃ r ∈ w.requests, r.sessionId = id ∧ r.sessionLeaseAcquired ∧ r.pending.promise = none := by
      obtain ⟨r, hr, hlease⟩ := mem_filterMap.mp ((hw.inUse_iff id).mp hid)
      obtain ⟨hsession, hacquired⟩ := lease_eq_some.mp hlease
      refine ⟨r, hr, hsession, hacquired, ?_⟩
      by_contra hanswered
      exact hleaked ⟨r, hr, isSome_iff_ne_none.mpr hanswered, hacquired⟩
    refine ⟨hwaiting, fun id now hid hanswered hroom => ?_⟩
    refine acquireLease_acquired_iff.mpr ⟨hid, fun hinUse => ?_, hroom⟩
    obtain ⟨r, hr, hsession, _, hopen⟩ := hwaiting id hinUse
    simpa [hopen] using hanswered r hr hsession

theorem Leased.create (config : Config) : Leased { manager := .create config } :=
  ⟨nodup_nil, fun id => by simp [create_inUse], by simp⟩

/-- No step of the run leaks a lease. -/
def Clean (parts : Components) (config : Config) (ops : List (SessionOp σ)) : Prop :=
  LoggedRun.Along (step parts) (fun w op => ¬ w.LeaksLease op) { manager := .create config } ops

variable {ops : List (SessionOp σ)}

/-- The invariant of a whole run, and what the run leaks. -/
theorem run_leased {config : Config}
    (hrun : run (step parts) { manager := .create config } ops = some (w, pages)) :
    w.Leased ∧ (w.Leaked ↔ ¬ Clean parts config ops) := by
  refine run_induction
    (P := fun ops w _ => w.Leased ∧ (w.Leaked ↔ ¬ Clean parts config ops)) ?_ ?_ hrun
  · exact ⟨.create config, by simp [Leaked, Clean, Along]⟩
  · rintro ops w log op w' pages hrun ⟨hw, hleaked⟩ hstep
    have hchange := step_change hw.sound hstep
    refine ⟨hw.change hchange, ?_⟩
    have hclean : Clean parts config (ops ++ [op]) ↔ Clean parts config ops ∧ ¬ w.LeaksLease op := by
      simp [Clean, along_append, Along, hrun]
    rw [hchange.leaked_iff, hleaked, hclean]
    grind

/-- At the end of a run all leases have been given back exactly if no step of it has rejected a
request with a lease because its prompt is too long. -/
theorem leases_givenBack_iff (parts : Components) (config : Config) (ops : List (SessionOp σ))
    {w : SessionScheduler} {pages : List PageEvent}
    (hrun : LoggedRun.run (step parts) { manager := .create config } ops = some (w, pages)) :
    w.GivenBack ↔ LoggedRun.Along (step parts) (fun w op => ¬ w.LeaksLease op)
      { manager := .create config } ops := by
  obtain ⟨hw, hleaked⟩ := run_leased hrun
  rw [hw.givenBack_iff, hleaked, not_not, Clean]

/-- Admission with a prompt of so many tokens on the native CUDA backend, whose slots have room
for 16. -/
def cudaAdmission (promptTokens : Nat) : SessionEnv where
  tokenizeForCache := List.replicate promptTokens 7
  kvMaxSeq := 16
  reserveBlocks := fun n => some ((List.range n).map fun i => (i : Int))
  seqId := 0
  phasedPrefillStep := some (5, bytes "a")

/-- A request for eight tokens that belongs to the session `s`. -/
def sessionRequest : SessionOp Unit := .generated { maxTokens := 8 } (bytes "s")

theorem leases_givenBack_after_answer : ∃ w pages,
    LoggedRun.run (step {}) { manager := .create {} }
        [sessionRequest, .staged 0 {} (cudaAdmission 4), .executed 0 plainBatch 1] =
      some (w, pages) ∧ w.requests.all (·.pending.promise.isSome) ∧ w.GivenBack := by
  have hresult : (LoggedRun.run (step {}) { manager := .create {} }
      [sessionRequest, .staged 0 {} (cudaAdmission 4), .executed 0 plainBatch 1]).map
        (fun r => r.1.requests.all (·.pending.promise.isSome)) = some true := by decide
  obtain ⟨⟨w, pages⟩, hrun, hanswered⟩ := map_eq_some_iff.mp hresult
  refine ⟨w, pages, hrun, hanswered, (leases_givenBack_iff {} {} _ hrun).mpr ?_⟩
  refine ⟨id, fun w₁ _ h₁ => ⟨?_, fun _ _ _ => ⟨id, fun _ _ _ => trivial⟩⟩⟩
  obtain ⟨rfl, _⟩ := Prod.mk.inj (some.inj h₁)
  rintro ⟨r, hr, hrejected, _⟩
  obtain rfl := some.inj hr
  cases hrejected

/-- The prompt of the first request is too long: it is answered, but the session stays in use,
and the next request of the session does not get the lease. -/
theorem overflow_keeps_lease :
    (LoggedRun.run (step {}) { manager := .create {} }
      [sessionRequest, .staged 0 {} (cudaAdmission 12), sessionRequest,
        .staged 1 {} (cudaAdmission 4)]).map (fun r =>
          (r.1.requests.map fun q => (q.pending.promise.isSome, q.sessionLeaseAcquired),
            decide (r.1.manager.InUse (bytes "s")))) =
      some ([(true, true), (false, false)], true) := by decide

end SessionScheduler

end InferFlux.Scheduler
