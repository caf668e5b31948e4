import InferFlux.Library.LoggedRun
import Mathlib.Data.List.Basic

/-!
# The threads of the scheduler

`Scheduler::WorkerLoop` with `ProcessBatch`, `Scheduler::DecodeWorkerLoop`, `FailAllQueuedLocked`,
`Generate` and `~Scheduler` from `scheduler/scheduler.cpp`, as a system of threads that pass
pending requests from hand to hand. A request is its sequence number. A step of a thread is what
it does under one hold of `queue_mutex_`, or with one request between two of them; which step
comes next, and what the backends and the policies decide, comes from outside. Each step logs
the calls of `set_value` on the requests' promises.

A second call of `set_value` throws. A thread that ends by an exception abandons the requests it
holds, whose promises are then broken. What the requests are worth and the packets of the KV
transport, which are matched to requests where they are, do not appear.
-/

namespace InferFlux.Scheduler

structure PoolConfig where
  decodePoolSize : Nat := 0
  maxBatchSize : Nat := 8
  deriving DecidableEq, Repr

/-- Decode requests go to the decode workers (split mode). -/
def PoolConfig.useDecodeWorkers (c : PoolConfig) : Bool := 0 < c.decodePoolSize

structure Shared where
  stop : Bool := false
  nextSequence : Nat := 0
  pendingPrefill : List Nat := []
  pendingDecode : List Nat := []
  /-- The promises that have been set, in order. -/
  answered : List Nat := []
  /-- The requests whose `promise_valid` is false. -/
  invalid : List Nat := []
  /-- The requests that were abandoned. -/
  abandoned : List Nat := []
  /-- A worker loop has ended by an exception. -/
  died : Bool := false
  /-- An exception has left a thread. -/
  terminated : Bool := false
  deriving DecidableEq, Repr

namespace Shared

/-- The thread that holds the requests ends by an exception. -/
def abandon (s : Shared) (held : List Nat) : Shared :=
  { s with abandoned := s.abandoned ++ held, died := true }

/-- `promise.set_value`: the thread goes on, or is thrown out of its loop with what it holds. -/
def setValue {τ : Type} (s : Shared) (r : Nat) (next thrown : τ) (held : List Nat) :
    Shared × τ × List Nat :=
  let answered := { s with answered := s.answered ++ [r] }
  if r ∈ s.answered then (answered.abandon held, thrown, [r]) else (answered, next, [r])

def pushDecode (s : Shared) (requests : List Nat) : Shared :=
  { s with pendingDecode := s.pendingDecode ++ requests }

def pushPrefill (s : Shared) (requests : List Nat) : Shared :=
  { s with pendingPrefill := s.pendingPrefill ++ requests }

end Shared

inductive Outcome where
  | finished
  /-- The fairness time slice is used up. -/
  | yielded
  /-- Another slice of an embedding request is left. -/
  | sliced
  /-- A step-wise request stays in the batch of its decode worker. -/
  | active
  deriving DecidableEq, Repr

/-- A request in a batch, and whether it is in the prefill phase. -/
structure Selected where
  request : Nat
  prefill : Bool
  deriving DecidableEq, Repr

/-- What the first loop of `ProcessBatch` does with a request of the prefill phase. -/
inductive Fate where
  /-- The prompt is too long, or the transport has refused it too often. -/
  | rejected
  /-- The transport has no room for it now. -/
  | retried
  /-- It goes to the decode workers together with a packet. -/
  | published
  /-- It goes to the decode workers after the loop. -/
  | handedOver
  /-- It is decoded in this batch. -/
  | kept
  deriving DecidableEq, Repr

/-- Where `WorkerLoop` is, with the requests it holds there. -/
inductive MainWorker where
  | waiting
  /-- A batch is built, but `ApplyFairness` has not been called. -/
  | selected (batch : List Selected)
  /-- The first loop, with `staged_decode_worker`, `decode_ready` and `staged_decode_local`. -/
  | staging (todo : List Selected) (worker ready kept : List Nat)
  /-- The response formats are checked; `exec` has passed. -/
  | checking (todo exec : List Nat)
  /-- The executor has returned. -/
  | publishing (todo requeue : List Nat)
  | ended
  | died
  deriving DecidableEq, Repr

namespace MainWorker

def held : MainWorker → List Nat
  | .selected batch => batch.map Selected.request
  | .staging todo worker ready kept => todo.map Selected.request ++ worker ++ ready ++ kept
  | .checking todo exec => todo ++ exec
  | .publishing todo requeue => todo ++ requeue
  | .waiting | .ended | .died => []

def inLoop : MainWorker → Bool
  | .ended | .died => false
  | _ => true

end MainWorker

structure Swap where
  batchIndex : Nat
  fromDecode : Bool
  queueIndex : Nat
  /-- The queued request is in the prefill phase. -/
  prefill : Bool
  deriving DecidableEq, Repr

inductive MainOp where
  | build (selection : List Selected)
  | applyFairness (swap : Option Swap)
  | stage (fate : Fate)
  | handOver
  | check (accepted : Bool)
  | execute
  | publish (outcome : Outcome)
  | requeue
  | throw
  deriving DecidableEq, Repr

namespace Shared

def hasWork (c : PoolConfig) (s : Shared) : Bool :=
  s.stop || !s.pendingPrefill.isEmpty || (!c.useDecodeWorkers && !s.pendingDecode.isEmpty)

/-- The batch can be the one that `BuildBatchLocked` builds, by some policy and budget. -/
def Selectable (c : PoolConfig) (s : Shared) (selection : List Selected) : Prop :=
  (selection.map Selected.request).Nodup ∧ selection.length ≤ max 1 c.maxBatchSize ∧
    ∀ item ∈ selection,
      if item.prefill then item.request ∈ s.pendingPrefill
      else c.useDecodeWorkers = false ∧ item.request ∈ s.pendingDecode ∧
        item.request ∉ s.pendingPrefill

instance (c : PoolConfig) (s : Shared) (selection : List Selected) :
    Decidable (s.Selectable c selection) :=
  inferInstanceAs (Decidable (_ ∧ _ ∧ _))

/-- The queues without the batch and without duplicates. In split mode the decode queue belongs
to the decode workers. -/
def remove (c : PoolConfig) (s : Shared) (selection : List Selected) : Shared :=
  let chosen := selection.map Selected.request
  { s with
    pendingPrefill := s.pendingPrefill.eraseDups.filter (· ∉ chosen)
    pendingDecode :=
      if c.useDecodeWorkers then s.pendingDecode
      else s.pendingDecode.eraseDups.filter fun r => r ∉ s.pendingPrefill ∧ r ∉ chosen }

/-- Take a request out of the middle of a queue. -/
def takeQueued (s : Shared) (fromDecode : Bool) (i : Nat) : Option (Nat × Shared) :=
  if fromDecode then
    (s.pendingDecode[i]?).map fun r => (r, { s with pendingDecode := s.pendingDecode.eraseIdx i })
  else
    (s.pendingPrefill[i]?).map fun r => (r, { s with pendingPrefill := s.pendingPrefill.eraseIdx i })

/-- `ApplyFairness`: the request that is displaced goes to the queue of its phase. -/
def applySwap (s : Shared) (batch : List Selected) (swap : Swap) :
    Option (Shared × List Selected) := do
  let displaced ← batch[swap.batchIndex]?
  let (queued, s) ← s.takeQueued swap.fromDecode swap.queueIndex
  return (if displaced.prefill then s.pushPrefill [displaced.request]
      else s.pushDecode [displaced.request],
    batch.set swap.batchIndex ⟨queued, swap.prefill && !swap.fromDecode⟩)

end Shared

/-- What becomes of the next request of the first loop. Only split mode has decode workers and a
transport. -/
def stageStep (c : PoolConfig) (s : Shared) (item : Selected) (todo : List Selected)
    (worker ready kept : List Nat) (fate : Fate) : Option (Shared × MainWorker × List Nat) :=
  let r := item.request
  let next := MainWorker.staging todo worker ready kept
  if !item.prefill then
    if fate = .kept then some (s, .staging todo worker (ready ++ [r]) kept, []) else none
  else
    match fate with
    | .kept => some (s, .staging todo worker ready (kept ++ [r]), [])
    | .rejected => some (s.setValue r next .died next.held)
    | .retried => if c.useDecodeWorkers then some (s.pushPrefill [r], next, []) else none
    | .published => if c.useDecodeWorkers then some (s.pushDecode [r], next, []) else none
    | .handedOver =>
      if c.useDecodeWorkers then some (s, .staging todo (worker ++ [r]) ready kept, []) else none

def mainStep (c : PoolConfig) (s : Shared) :
    MainWorker → MainOp → Option (Shared × MainWorker × List Nat)
  | .waiting, .build selection =>
    if !s.hasWork c then none
    else if s.stop && s.pendingPrefill.isEmpty && s.pendingDecode.isEmpty then
      if selection.isEmpty then some (s, .ended, []) else none
    else if s.Selectable c selection then
      some (s.remove c selection, if selection.isEmpty then .waiting else .selected selection, [])
    else none
  | .selected batch, .applyFairness none => some (s, .staging batch [] [] [], [])
  | .selected batch, .applyFairness (some swap) =>
    (s.applySwap batch swap).map fun (s, batch) => (s, .staging batch [] [] [], [])
  | .staging (item :: todo) worker ready kept, .stage fate =>
    stageStep c s item todo worker ready kept fate
  | .staging [] worker ready kept, .handOver =>
    let ready := ready ++ kept
    some (s.pushDecode worker, if ready.isEmpty then .waiting else .checking ready [], [])
  | .checking (r :: todo) exec, .check accepted =>
    if accepted then some (s, .checking todo (exec ++ [r]), [])
    else some (s.setValue r (.checking todo exec) .died (todo ++ exec))
  | .checking [] exec, .execute =>
    some (s, if exec.isEmpty then .waiting else .publishing exec [], [])
  | .publishing (r :: todo) requeue, .publish outcome =>
    match outcome with
    | .finished => some (s.setValue r (.publishing todo requeue) .died (todo ++ requeue))
    | .yielded => some (s, .publishing todo (requeue ++ [r]), [])
    | .sliced =>
      if c.useDecodeWorkers then none else some (s.pushPrefill [r], .publishing todo requeue, [])
    | .active => none
  | .publishing [] requeue, .requeue => some (s.pushDecode requeue, .waiting, [])
  | t, .throw => if t.inLoop then some (s.abandon t.held, .died, []) else none
  | _, _ => none

/-- Where a decode worker is, with the requests it holds there. -/
inductive DecodeWorker where
  /-- At the head of the loop, with the batch of the last pass. -/
  | waiting (batch : List Nat)
  | assembled (batch : List Nat)
  /-- The response formats are checked; `exec` has passed. -/
  | checking (batch todo exec : List Nat)
  /-- The executor has returned, from one decode step or from a burst. -/
  | publishing (stepwise : Bool) (todo active requeue : List Nat)
  /-- Out of the loop, before `FailAllQueuedLocked`. -/
  | leaving
  | ended
  deriving DecidableEq, Repr

namespace DecodeWorker

/-- The requests that have not been answered in the pass. -/
def held : DecodeWorker → List Nat
  | .waiting batch => batch
  | .assembled batch => batch
  | .checking _ todo exec => todo ++ exec
  | .publishing _ todo active requeue => todo ++ active ++ requeue
  | .leaving | .ended => []

def inLoop : DecodeWorker → Bool
  | .leaving | .ended => false
  | _ => true

end DecodeWorker

inductive DecodeOp where
  /-- Fill the batch, also with requests that fit the backend of a step-wise batch. -/
  | pick (compatible : Nat → Bool) (transportWork : Bool)
  /-- The batch is bound to one backend and makes one decode step. -/
  | direct
  /-- The general path. -/
  | resolve
  | check (accepted : Bool)
  | execute (stepwise : Bool)
  | publish (outcome : Outcome)
  | requeue
  | throw
  | failAll

/-- `AppendCompatiblePendingDecodeLocked`: what joins a batch with so many free places, and what
stays in the queue. -/
def appendCompatible (compatible : Nat → Bool) : List Nat → Nat → List Nat × List Nat
  | [], _ => ([], [])
  | r :: queue, 0 => ([], r :: queue)
  | r :: queue, places + 1 =>
    if compatible r then
      let (joined, left) := appendCompatible compatible queue places
      (r :: joined, left)
    else
      let (joined, left) := appendCompatible compatible queue (places + 1)
      (joined, r :: left)

namespace Shared

/-- The calls that `FailAllQueuedLocked` makes, if none throws. -/
def failCalls (s : Shared) : List Nat :=
  (s.pendingPrefill ++ s.pendingDecode).eraseDups.filter (· ∉ s.invalid)

/-- `FailAllQueuedLocked`, the last thing a decode worker does. An exception in it leaves the
thread and terminates the program. -/
def failAllQueued (s : Shared) : Shared × DecodeWorker × List Nat :=
  match s.failCalls.find? (· ∈ s.answered) with
  | none =>
    ({ s with
        pendingPrefill := []
        pendingDecode := []
        answered := s.answered ++ s.failCalls
        invalid := s.invalid ++ s.failCalls }, .ended, s.failCalls)
  | some r =>
    let calls := s.failCalls.takeWhile (· ∉ s.answered) ++ [r]
    ({ s with answered := s.answered ++ calls, terminated := true }, .leaving, calls)

end Shared

/-- A step of a decode worker. When every request of its batch is rejected, the worker keeps
the batch. -/
def decodeStep (c : PoolConfig) (s : Shared) :
    DecodeWorker → DecodeOp → Option (Shared × DecodeWorker × List Nat)
  | .waiting batch, .pick compatible transportWork =>
    if !(s.stop || !batch.isEmpty || !s.pendingDecode.isEmpty || transportWork) then none
    else if s.stop && batch.isEmpty && s.pendingDecode.isEmpty && !transportWork then
      some (s, .leaving, [])
    else if batch.isEmpty then
      let taken := s.pendingDecode.take c.maxBatchSize
      some ({ s with pendingDecode := s.pendingDecode.drop c.maxBatchSize },
        if taken.isEmpty then .waiting [] else .assembled taken, [])
    else
      let (joined, left) := appendCompatible compatible s.pendingDecode (c.maxBatchSize - batch.length)
      some ({ s with pendingDecode := left }, .assembled (batch ++ joined), [])
  | .assembled batch, .direct => some (s, .publishing true batch [] [], [])
  | .assembled batch, .resolve => some (s, .checking batch batch [], [])
  | .checking batch (r :: todo) exec, .check accepted =>
    if accepted then some (s, .checking batch todo (exec ++ [r]), [])
    else some (s.setValue r (.checking batch todo exec) .leaving (todo ++ exec))
  | .checking batch [] exec, .execute stepwise =>
    some (s, if exec.isEmpty then .waiting batch else .publishing stepwise exec [] [], [])
  | .publishing stepwise (r :: todo) active requeue, .publish outcome =>
    match outcome with
    | .finished =>
      some (s.setValue r (.publishing stepwise todo active requeue) .leaving
        (todo ++ active ++ requeue))
    | .yielded =>
      if stepwise then none else some (s, .publishing stepwise todo active (requeue ++ [r]), [])
    | .active =>
      if stepwise then some (s, .publishing stepwise todo (active ++ [r]) requeue, []) else none
    | .sliced => none
  | .publishing _ [] active requeue, .requeue => some (s.pushDecode requeue, .waiting active, [])
  | .leaving, .failAll => some s.failAllQueued
  | d, .throw => if d.inLoop then some (s.abandon d.held, .leaving, []) else none
  | _, _ => none

structure Workers where
  shared : Shared := {}
  main : MainWorker := .waiting
  decode : List DecodeWorker := []

inductive WorkerOp where
  /-- `Generate`. -/
  | generate
  /-- `~Scheduler` sets `stop_`. -/
  | stop
  | main (op : MainOp)
  | decode (k : Nat) (op : DecodeOp)

namespace Workers

def start (c : PoolConfig) : Workers where
  decode := List.replicate c.decodePoolSize (.waiting [])

/-- One step of one thread. Nobody calls `Generate` on a scheduler that is being destroyed. -/
def step (c : PoolConfig) (w : Workers) (op : WorkerOp) : Option (Workers × List Nat) :=
  if w.shared.terminated then none
  else
    match op with
    | .generate =>
      if w.shared.stop then none
      else
        let r := w.shared.nextSequence
        some ({ w with shared := { w.shared.pushPrefill [r] with nextSequence := r + 1 } }, [])
    | .stop => some ({ w with shared := { w.shared with stop := true } }, [])
    | .main op => do
      let (shared, main, calls) ← mainStep c w.shared w.main op
      return ({ w with shared, main }, calls)
    | .decode k op => do
      let worker ← w.decode[k]?
      let (shared, worker, calls) ← decodeStep c w.shared worker op
      return ({ w with shared, decode := w.decode.set k worker }, calls)

end Workers

end InferFlux.Scheduler
