import InferFlux.Scheduler.PageConservation
import InferFlux.Scheduler.Swapping

/-!
# Swap victims

The scheduler in unified mode with swapping: batches are built from queued requests, swapped ones
after `TrySwapIn`; an admission that finds too few free blocks swaps out another request of its
batch (`ProcessBatch` in `scheduler/scheduler.cpp`); then the requests of the batch are executed
and requeued or answered.

What a request goes through is the model of `ProcessBatch` for one request; for a request with a
session handle the outcome of its admission and of its execution is left open. The calls that
reserve, acquire and release pages are steps of their own, made at any time. The state remembers
for each host block on whose behalf it was last taken, and for a batch which of its requests have
been swapped out.
-/

namespace InferFlux.Scheduler.SwapVictims

open InferFlux.Execution InferFlux.KVCache InferFlux.Scheduler.Swapping LoggedRun

variable {σ α : Type}

structure SwapRequest where
  pending : PendingRequest
  isSwapped : Bool := false
  swappedHostHandles : List Int := []
  deriving DecidableEq, Repr

namespace SwapRequest

def blockTable (req : SwapRequest) : List Int := req.pending.inference.blockTable

def answered (req : SwapRequest) : Bool := req.pending.promise.isSome

def inference (req : SwapRequest) : SwappableRequest :=
  { req.pending.inference with
    isSwapped := req.isSwapped, swappedHostHandles := req.swappedHostHandles }

def setInference (req : SwapRequest) (inf : SwappableRequest) : SwapRequest :=
  { pending := { req.pending with inference := inf.toInferenceRequest }
    isSwapped := inf.isSwapped
    swappedHostHandles := inf.swappedHostHandles }

end SwapRequest

/-- Where the scheduler is in its batch; the requests that are left. -/
inductive BatchPhase where
  | idle
  | staging (todo : List Nat)
  | executing (todo : List Nat)
  deriving DecidableEq, Repr

structure SwapSystem (α : Type) where
  cache : PagedKVCache α
  requests : Nat → Option SwapRequest := fun _ => none
  /-- `selection.pending`. -/
  batch : List Nat := []
  phase : BatchPhase := .idle
  /-- The requests of the batch that have been swapped out. -/
  victims : List Nat := []
  /-- On whose behalf a host block was last taken. -/
  hostHolder : Nat → Option Nat := fun _ => none

inductive Staging where
  | plain (selection : Selection) (env : AdmissionEnv)
  /-- With a session handle: the new blocks that admission asks for, if it gets there, and what
  becomes of the request. -/
  | session (needed : Option Nat) (next : PendingRequest)

inductive Running (σ : Type) where
  | plain (env : BatchEnv σ)
  /-- With a session handle: whether its response format is accepted, and what becomes of the
  request. -/
  | session (accepted : Bool) (next : PendingRequest)

inductive Op (σ α : Type) where
  | submit (request : Nat) (inf : InferenceRequest)
  /-- `BuildBatchLocked` with the queue items in the order in which it tries them, and the batch
  entry that `ApplyFairness` replaces by a queued request. -/
  | build (items : List Nat) (preempt : Option (Nat × Nat))
  | stage (how : Staging)
  | startExecution
  | execute (how : Running σ)
  | finish
  /-- A call for pages, from this thread or another one. -/
  | call (op : KVCache.Op Unit α)

inductive Event where
  | executed (request : Nat) (victim tableEmpty : Bool)
  deriving DecidableEq, Repr

namespace SwapSystem

def set (s : SwapSystem α) (request : Nat) (req : SwapRequest) : SwapSystem α :=
  { s with requests := Function.update s.requests request (some req) }

def queued (s : SwapSystem α) (request : Nat) : Bool :=
  match s.requests request with
  | some req => !req.answered && req.pending.place ≠ .batch
  | none => false

def answered (s : SwapSystem α) (request : Nat) : Bool := (s.requests request).any SwapRequest.answered

def swapIn [Zero α] (s : SwapSystem α) (request : Nat) : Bool × SwapSystem α :=
  match s.requests request with
  | none => (false, s)
  | some req =>
    if req.isSwapped then
      let (ok, cache, inf) := trySwapIn s.cache req.inference
      (ok, { s with cache }.set request (req.setInference inf))
    else (true, s)

def select [Zero α] : List Nat → SwapSystem α → List Nat × SwapSystem α
  | [], s => ([], s)
  | request :: items, s =>
    let (ok, s) := s.swapIn request
    let (selected, s) := select items s
    (if ok then request :: selected else selected, s)

/-- The host blocks that a call has taken are held on behalf of its request. -/
def recordHolder (s : SwapSystem α) (before : PagedKVCache α) (request : Nat) : SwapSystem α :=
  { s with
    hostHolder := fun h =>
      if (s.cache.hostBlocks[h]?).any KVPage.inUse && !(before.hostBlocks[h]?).any KVPage.inUse then
        some request
      else s.hostHolder h }

/-- The victim loop of an admission, over the batch from its end. -/
def swapVictims (pending : Nat) : List Nat → SwapSystem α → SwapSystem α
  | [], s => s
  | victim :: rest, s =>
    match s.requests victim with
    | none => swapVictims pending rest s
    | some req =>
      if victim ≠ pending && !req.blockTable.isEmpty then
        match trySwapOut s.cache req.inference with
        | (true, cache, inf) =>
          ({ s with cache, victims := victim :: s.victims }.recordHolder s.cache victim).set victim
            (req.setInference inf)
        | (false, cache, _) =>
          swapVictims pending rest ({ s with cache }.recordHolder s.cache victim)
      else swapVictims pending rest s

end SwapSystem

/-- The new blocks that the admission of a request asks for, if it takes the phased path. -/
def newBlocksNeeded (parts : Components) (selection : Selection) (env : AdmissionEnv)
    (pending : PendingRequest) : Option Nat :=
  let inf := selection.enter pending
  if inf.embeddingRequest || inf.phase ≠ .prefill then none
  else if inf.sequenceId ≥ 0 && inf.nPast ≥ 0 && inf.firstToken ≥ 0 then none
  else if !env.backendReady then none
  else
    let inf := tokenizePrompt env inf
    if inf.hasImages || inf.responseFormat.hasFormat || env.keepsLegacyLogprobs then none
    else if overflows env (resetReuse inf) then none
    else
      let lookup := if parts.prefixCache then env.lookup else {}
      some (totalBlocksNeeded inf.bpePromptTokens.length - lookup.blockTable.length)

def Staging.needed (parts : Components) (pending : PendingRequest) : Staging → Option Nat
  | .plain selection env => newBlocksNeeded parts selection env pending
  | .session needed _ => needed

def Staging.next (parts : Components) (pending : PendingRequest) : Staging → Option PendingRequest
  | .plain selection env =>
    (Scheduler.step parts pending (.staged selection env : Scheduler.Op Unit)).map Prod.fst
  | .session _ next => some next

def Running.accepted (pending : PendingRequest) : Running σ → Bool
  | .plain env => match checkFormat env pending.inference with
    | .ok _ => true
    | .error _ => false
  | .session accepted _ => accepted

def Running.next (parts : Components) (pending : PendingRequest) : Running σ → Option PendingRequest
  | .plain env => (Scheduler.step parts pending (.executed env)).map Prod.fst
  | .session _ next => some next

/-- The admission finds fewer free blocks than it asks for. -/
def tight (parts : Components) (s : SwapSystem α) (pending : PendingRequest) (how : Staging) :
    Bool :=
  parts.cache && (how.needed parts pending).any fun needed => numFreeBlocks s.cache < needed

/-- One step of the scheduler; `none` where it cannot be taken. -/
def step [Zero α] (parts : Components) (s : SwapSystem α) :
    Op σ α → Option (SwapSystem α × List Event)
  | .submit request inf =>
    match s.requests request with
    | some _ => none
    | none =>
      if inf.blockTable.isEmpty then some (s.set request { pending := { inference := inf } }, [])
      else none
  | .build items preempt =>
    if s.phase = .idle && items.Nodup && items.all s.queued then
      let (selected, s) := SwapSystem.select items s
      match preempt with
      | none => some ({ s with batch := selected, phase := .staging selected }, [])
      | some (i, request) =>
        if s.queued request && request ∉ selected then
          let batch := selected.set i request
          some ({ s with batch, phase := .staging batch }, [])
        else none
    else none
  | .stage how =>
    match s.phase with
    | .staging (request :: todo) =>
      match s.requests request with
      | none => none
      | some req =>
        let s := if tight parts s req.pending how then
          SwapSystem.swapVictims request s.batch.reverse s else s
        (how.next parts req.pending).map fun next =>
          ({ s with phase := .staging todo }.set request { req with pending := next }, [])
    | _ => none
  | .startExecution =>
    match s.phase with
    | .staging [] =>
      some ({ s with phase := .executing (s.batch.filter fun request => !s.answered request) }, [])
    | _ => none
  | .execute how =>
    match s.phase with
    | .executing (request :: todo) =>
      match s.requests request with
      | none => none
      | some req =>
        (how.next parts req.pending).map fun next =>
          ({ s with phase := .executing todo }.set request { req with pending := next },
            if how.accepted req.pending then
              [.executed request (s.victims.contains request) req.blockTable.isEmpty]
            else [])
    | _ => none
  | .finish =>
    match s.phase with
    | .executing [] => some ({ s with phase := .idle, batch := [], victims := [] }, [])
    | _ => none
  | .call op =>
    if op.swaps then none
    else (KVCache.step ⟨s.cache, 0⟩ op).map fun r => ({ s with cache := r.1.cache }, [])

/-! ## Host blocks of answered requests -/

/-- No host block is in use on behalf of an answered request, and no request has been executed
with an empty block table after it was swapped out in its batch. -/
structure Intact (s : SwapSystem α) (log : List Event) : Prop where
  freed : ∀ request, s.answered request = true → ∀ h block, s.cache.hostBlocks[h]? = some block →
    block.inUse = true → s.hostHolder h ≠ some request
  executed : ∀ request, .executed request true true ∉ log

/-- No other request of the batch has blocks when an admission finds too few free ones. -/
def NoVictim (parts : Components) (s : SwapSystem α) : Op σ α → Prop
  | .stage how => ∀ request todo req, s.phase = .staging (request :: todo) →
      s.requests request = some req → tight parts s req.pending how = true →
      ∀ victim ∈ s.batch, victim ≠ request → ∀ other, s.requests victim = some other →
        other.blockTable = []
  | _ => True

/-- The host pool is not used. -/
structure Unswapped (s : SwapSystem α) (log : List Event) : Prop where
  hostBlocks : ∀ block ∈ s.cache.hostBlocks, block.inUse = false
  requests : ∀ request req, s.requests request = some req → req.isSwapped = false
  victims : s.victims = []
  executed : ∀ request, .executed request true true ∉ log

theorem Unswapped.intact {s : SwapSystem α} {log : List Event} (h : Unswapped s log) :
    Intact s log := by
  refine ⟨fun request _ i block hblock huse => ?_, h.executed⟩
  rw [h.hostBlocks block (List.mem_of_getElem? hblock)] at huse
  cases huse

section Steps

variable {parts : Components} {s s' : SwapSystem α} {log : List Event}

theorem Unswapped.set (h : Unswapped s log) {request : Nat} {req : SwapRequest}
    (hreq : req.isSwapped = false) : Unswapped (s.set request req) log := by
  refine ⟨h.hostBlocks, fun other req' hother => ?_, h.victims, h.executed⟩
  by_cases hne : other = request
  · subst hne
    obtain rfl : req = req' := by simpa [SwapSystem.set] using hother
    exact hreq
  · exact h.requests other req' (by simpa [SwapSystem.set, hne] using hother)

theorem Unswapped.rebatch (h : Unswapped s log) (batch : List Nat) (phase : BatchPhase) :
    Unswapped { s with batch, phase } log :=
  ⟨h.hostBlocks, h.requests, h.victims, h.executed⟩

variable {e : List Event}

theorem Unswapped.append (h : Unswapped s log) (he : ∀ request, .executed request true true ∉ e) :
    Unswapped s (log ++ e) :=
  ⟨h.hostBlocks, h.requests, h.victims, fun request hmem =>
    (List.mem_append.mp hmem).elim (h.executed request) (he request)⟩

theorem Unswapped.append_nil (h : Unswapped s log) : Unswapped s (log ++ []) :=
  h.append (by simp)

theorem Unswapped.select_eq [Zero α] (h : Unswapped s log) (items : List Nat) :
    (SwapSystem.select items s).2 = s := by
  induction items with
  | nil => rfl
  | cons request items ih =>
    have hsame : (s.swapIn request).2 = s := by
      unfold SwapSystem.swapIn
      split
      · rfl
      next req hreq => rw [h.requests request req hreq]; rfl
    simp only [SwapSystem.select]
    rw [hsame]
    exact ih

theorem swapVictims_eq {pending : Nat} {batch : List Nat}
    (h : ∀ victim ∈ batch, victim ≠ pending → ∀ req, s.requests victim = some req →
      req.blockTable = []) : SwapSystem.swapVictims pending batch s = s := by
  induction batch with
  | nil => rfl
  | cons victim batch ih =>
    obtain ⟨hvictim, hbatch⟩ := List.forall_mem_cons.mp h
    unfold SwapSystem.swapVictims
    split
    · exact ih hbatch
    next req hreq =>
      by_cases hne : victim = pending
      · simpa [hne] using ih hbatch
      · simpa [hvictim hne req hreq] using ih hbatch

theorem step_unswapped [Zero α] {op : Op σ α} (h : Unswapped s log) (hpre : NoVictim parts s op)
    (hstep : step parts s op = some (s', e)) : Unswapped s' (log ++ e) := by
  cases op with
  | submit request inf =>
    simp only [step] at hstep
    split at hstep
    · cases hstep
    · split at hstep
      · cases hstep
        exact (h.set rfl).append_nil
      · cases hstep
  | build items preempt =>
    simp only [step, h.select_eq] at hstep
    split at hstep
    · split at hstep
      · cases hstep
        exact (h.rebatch _ _).append_nil
      · split at hstep
        · cases hstep
          exact (h.rebatch _ _).append_nil
        · cases hstep
    · cases hstep
  | stage how =>
    simp only [step] at hstep
    split at hstep
    next request todo hphase =>
      split at hstep
      · cases hstep
      next req hreq =>
        have hsame : (if tight parts s req.pending how then
            SwapSystem.swapVictims request s.batch.reverse s else s) = s := by
          split
          next htight =>
            refine swapVictims_eq fun victim hvictim => ?_
            exact hpre request todo req hphase hreq htight victim (List.mem_reverse.mp hvictim)
          · rfl
        rw [hsame] at hstep
        obtain ⟨next, -, heq⟩ := Option.map_eq_some_iff.mp hstep
        cases heq
        refine (Unswapped.set (h.rebatch s.batch _) ?_).append_nil
        exact h.requests request req hreq
    · cases hstep
  | startExecution =>
    simp only [step] at hstep
    split at hstep
    · cases hstep
      exact (h.rebatch s.batch _).append_nil
    · cases hstep
  | execute how =>
    simp only [step] at hstep
    split at hstep
    next request todo hphase =>
      split at hstep
      · cases hstep
      next req hreq =>
        obtain ⟨next, -, heq⟩ := Option.map_eq_some_iff.mp hstep
        cases heq
        refine (Unswapped.set (h.rebatch s.batch _) ?_).append fun other => ?_
        · exact h.requests request req hreq
        · split <;> simp [h.victims]
    · cases hstep
  | finish =>
    simp only [step] at hstep
    split at hstep
    · cases hstep
      exact ⟨h.hostBlocks, h.requests, rfl, by simpa using h.executed⟩
    · cases hstep
  | call op =>
    simp only [step] at hstep
    split at hstep
    · cases hstep
    next hswaps =>
      obtain ⟨⟨sys, e'⟩, hcall, heq⟩ := Option.map_eq_some_iff.mp hstep
      cases heq
      have hhost : sys.cache.hostBlocks = _ := step_hostBlocks (by simpa using hswaps) hcall
      exact ⟨by simpa [hhost] using h.hostBlocks, h.requests, h.victims, by simpa using h.executed⟩

end Steps

/-- In every run in which no admission that finds too few free blocks has a victim: once a request
is answered no host block is in use on its behalf, and no victim is executed with an empty block
table. -/
theorem host_blocks_not_leaked [Zero α] (parts : Components) (pages pageSizeBytes : Nat)
    (policy : EvictionPolicy) (ops : List (Op σ α))
    (hops : Along (step parts) (NoVictim parts) { cache := .new pages pageSizeBytes policy } ops)
    (s : SwapSystem α) (log : List Event)
    (hrun : run (step parts) { cache := .new pages pageSizeBytes policy } ops = some (s, log)) :
    Intact s log := by
  have hinit : Unswapped ({ cache := .new pages pageSizeBytes policy } : SwapSystem α) [] := by
    refine ⟨fun block hblock => ?_, fun request req hreq => ?_, rfl, by simp⟩
    · rw [(List.mem_replicate.mp hblock).2]
    · cases hreq
  exact (hops.invariant_log hinit (fun _ _ _ _ _ h hpre hstep => step_unswapped h hpre hstep)
    hrun).intact

/-- Two short prompts. Each needs two blocks; their prefill samples the token `5`. -/
def shortAdmission (seqId : Int) (blocks : Option (List Int)) : Staging :=
  .plain {}
    { tokenizeForCache := [7]
      reserveBlocks := fun _ => blocks
      seqId := seqId
      phasedPrefillStep := some (5, Text.bytes "a") }

/-- Both requests in one batch of four pages, while another thread holds three of them. -/
def occupied : List (Op Unit Nat) :=
  [.submit 0 { maxTokens := 1 }, .submit 1 { maxTokens := 1 }, .build [0, 1] none,
    .call (.reserveBlocks () 3)]

/-- The first request is admitted without blocks; then the pages come back and the second request
gets two of them. -/
def tightBatch : List (Op Unit Nat) :=
  occupied ++ [.stage (shortAdmission 0 none), .call (.releaseBlocks () [3, 2, 1]),
    .stage (shortAdmission 1 (some [3, 0])), .call (.reserveBlocks () 2), .startExecution,
    .execute (.plain plainBatch), .execute (.plain plainBatch)]

/-- The first admission is tight, but no other request of the batch has blocks yet. -/
theorem host_blocks_not_leaked_two_requests :
    (∃ s req, run (step {}) ({ cache := .new 4 8 .lru } : SwapSystem Nat) occupied =
        some (s, []) ∧
      s.requests 0 = some req ∧ tight {} s req.pending (shortAdmission 0 none) = true) ∧
    ∃ s log, run (step {}) ({ cache := .new 4 8 .lru } : SwapSystem Nat) tightBatch =
        some (s, log) ∧
      s.answered 0 = true ∧ s.answered 1 = true ∧ Intact s log := by
  refine ⟨⟨_, _, rfl, rfl, rfl⟩, ?_⟩
  have hrun : ∃ s log, run (step {}) ({ cache := .new 4 8 .lru } : SwapSystem Nat) tightBatch =
      some (s, log) ∧ s.answered 0 = true ∧ s.answered 1 = true := ⟨_, _, rfl, rfl, rfl⟩
  obtain ⟨s, log, hrun, hfirst, hsecond⟩ := hrun
  refine ⟨s, log, hrun, hfirst, hsecond, host_blocks_not_leaked {} 4 8 .lru _ ?_ s log hrun⟩
  refine .cons trivial rfl (.cons trivial rfl (.cons trivial rfl (.cons trivial rfl (.cons ?_ rfl
    (.cons trivial rfl (.cons ?_ rfl (.cons trivial rfl (.cons trivial rfl (.cons trivial rfl
      (.cons trivial rfl trivial))))))))))
  · intro request todo req hphase hreq htight victim hvictim hne other hother
    cases hphase
    obtain rfl : victim = 1 := by simpa [hne] using hvictim
    cases hother
    rfl
  · intro request todo req hphase hreq htight
    cases hphase
    cases hreq
    cases htight

/-- Both requests in one batch, up to the answer to the first one. -/
def twoRequests (first second : List Int) : List (Op Unit Nat) :=
  [.submit 0 { maxTokens := 1 }, .submit 1 { maxTokens := 1 }, .build [0, 1] none,
    .stage (shortAdmission 0 (some first)), .call (.reserveBlocks () 2),
    .stage (shortAdmission 1 (some second)), .call (.reserveBlocks () 2),
    .startExecution, .execute (.plain plainBatch)]

/-- With three pages the second admission swaps the first request out, which has been staged. It
is executed with an empty block table and answered, and its two host blocks stay in use. -/
theorem victim_leaks_host_blocks :
    ∃ s log, run (step {}) ({ cache := .new 3 8 .lru } : SwapSystem Nat)
        (twoRequests [2, 1] [2, 0]) = some (s, log) ∧
      s.answered 0 = true ∧ log = [.executed 0 true true] ∧
      (s.cache.hostBlocks.map KVPage.inUse) = [true, true, false, false, false, false] ∧
      s.hostHolder 0 = some 0 ∧ s.hostHolder 1 = some 0 :=
  ⟨_, _, rfl, rfl, rfl, rfl, rfl, rfl⟩

end InferFlux.Scheduler.SwapVictims
