import InferFlux.Execution.BatchRounds
import InferFlux.Library.Grouping
import InferFlux.Scheduler.ProcessBatch

/-!
# The results of a batch

Embeds `BatchExecutor::ExecuteBatch` from `runtime/execution/batch_executor.cpp` for a whole
batch. If every request has a verified placement and there is more than one device, the batch is
split by device and each part is executed by a task of its own. Otherwise the requests that are
eligible for the phased executor are grouped by backend and the others are executed one by one.
Results go through both groupings and are written back by index.

Requests are the pointers of the batch. What the calls of a batch find and do is left open: a
task works on its own view of the world, whatever the tasks of the other devices do meanwhile.
The state of an execution records which results were computed for which requests, and whether a
call has thrown; `Calls` says which calls have returned these results.
-/

namespace InferFlux.Scheduler.Partition

open InferFlux.Execution InferFlux.Text Grouping List

/-- What a backend call can throw. Tasks catch `std::exception` only. -/
inductive Thrown where
  | exception
  | other
  deriving DecidableEq, Repr

structure DevicePlacement where
  effective : String := ""
  state : String := "unverified"
  deriving DecidableEq, Repr

/-- The requests by pointer, and what the backends and the router hold. -/
structure World (τ : Type) where
  requests : Nat → InferenceRequest
  backends : τ

def World.failRequests {τ : Type} (world : World τ) (requests : List Nat) : World τ :=
  { world with
    requests := fun request =>
      if request ∈ requests then failRequest (world.requests request) else world.requests request }

/-- Results with their requests. -/
abbrev Log : Type := List (Nat × InferenceResult)

abbrev Outcomes (reqs : List Nat) : Type :=
  { outcomes : List InferenceResult // outcomes.length = reqs.length }

structure BatchExecutor (β τ : Type) where
  /-- The executor has a `speculative_decoder_`. -/
  speculativeDecoder : Bool := false
  placement : β → DevicePlacement
  /-- The `embedding_backend` of a request. -/
  embeddingBackend : Nat → Option β := fun _ => none
  resolveBackend : World τ → String → Option β
  isReady : World τ → β → Bool
  executeUnifiedBatchPhased :
    β → (reqs : List Nat) → World τ → Except Thrown (Outcomes reqs) × World τ
  executeRequest : Nat → Option β → World τ → Except Thrown InferenceResult × World τ
  /-- What the task of a device finds, and what the tasks leave. -/
  fork : String → World τ → World τ
  join : World τ → List (World τ) → World τ

structure ExecState (τ : Type) where
  world : World τ
  /-- The results that the calls have returned, with their requests. -/
  executed : Log := []
  /-- A call has thrown. -/
  thrown : Bool := false

/-- What an execution returns or throws, and the state it leaves. -/
abbrev Executed (τ : Type) : Type := Except Thrown (List InferenceResult) × ExecState τ

/-- A request of a device with its backend and its index in the whole batch. -/
structure Placed (β : Type) where
  request : Nat
  backend : Option β
  index : Nat
  deriving DecidableEq, Repr

def Placed.entry {β : Type} (placed : Placed β) : Nat × Nat := (placed.request, placed.index)

namespace BatchExecutor

variable {β τ : Type} (ex : BatchExecutor β τ)

/-! ## Splitting by device -/

/-- The device of a request and the backend that runs it there, if its placement is verified. -/
def place (world : World τ) (overrides : List (Option β)) (entry : Nat × Nat) :
    Option (String × Placed β) :=
  let override := (overrides[entry.2]?).join
  let backend :=
    if override.isNone && (ex.embeddingBackend entry.1).isNone then
      ex.resolveBackend world (world.requests entry.1).model
    else override
  match (ex.embeddingBackend entry.1).or backend with
  | none => none
  | some placementBackend =>
    let placement := ex.placement placementBackend
    if placement.state ≠ "verified_weights" || placement.effective.isEmpty then none
    else some (placement.effective, ⟨entry.1, backend, entry.2⟩)

/-- A backend that a request of the batch is run with: its override, or what the router resolves
if it has none. -/
def Assigned (requests : List Nat) (overrides : List (Option β)) (request : Nat)
    (backend : Option β) : Prop :=
  ∃ i : Nat, requests[i]? = some request ∧ (backend = (overrides[i]?).join ∨
    (overrides[i]?).join = none ∧
      ∃ world, backend = ex.resolveBackend world (world.requests request).model)

/-- The results that a sequence of calls has returned, with their requests: calls for a group,
on a backend that each member is assigned, and calls for one request. -/
inductive Calls (assigned : Nat → Option β → Prop) : Log → Prop
  | nil : Calls assigned []
  | group {be : β} {reqs : List Nat} {world world' : World τ} {outcomes : Outcomes reqs}
      {log : Log} (hbackend : ∀ r ∈ reqs, assigned r (some be))
      (hcall : ex.executeUnifiedBatchPhased be reqs world = (.ok outcomes, world'))
      (hlog : Calls assigned log) : Calls assigned (reqs.zip outcomes.val ++ log)
  | single {request : Nat} {be : Option β} {world world' : World τ} {result : InferenceResult}
      {log : Log} (hbackend : assigned request be)
      (hcall : ex.executeRequest request be world = (.ok result, world'))
      (hlog : Calls assigned log) : Calls assigned ((request, result) :: log)

/-- The requests by device, in the order of the devices' names, if all of them are placed. -/
def deviceBatches (world : World τ) (requests : List Nat) (overrides : List (Option β)) :
    Option (List (String × List (Placed β))) :=
  if ex.speculativeDecoder then none
  else (requests.zipIdx.mapM (ex.place world overrides)).map
    (Grouping.groups fun device device' => device < device')

/-- A task that ends with `std::exception` fails its requests. -/
def catchException (requests : List Nat) : Executed τ → Executed τ
  | (.error .exception, s) =>
    (.ok (requests.map fun request => failedResult (s.world.requests request)),
      { s with world := s.world.failRequests requests })
  | outcome => outcome

def gather : List (List (Placed β) × Executed τ) →
    List InferenceResult → Except Thrown (List InferenceResult)
  | [], results => .ok results
  | (_, .error thrown, _) :: _, _ => .error thrown
  | (members, .ok responses, _) :: tasks, results =>
    gather tasks (Grouping.scatter results ((members.map Placed.index).zip responses))

def joinTasks (s : ExecState τ) (tasks : List (List (Placed β) × Executed τ)) : ExecState τ :=
  { world := ex.join s.world (tasks.map fun task => task.2.2.world)
    executed := s.executed ++ tasks.flatMap fun task => task.2.2.executed
    thrown := s.thrown || tasks.any fun task => task.2.2.thrown }

variable {ex} {world : World τ} {overrides : List (Option β)}

theorem place_eq_some {entry : Nat × Nat} {placed : String × Placed β}
    (h : ex.place world overrides entry = some placed) : placed.2.entry = entry ∧
      (placed.2.backend = (overrides[entry.2]?).join ∨ (overrides[entry.2]?).join = none ∧
        placed.2.backend = ex.resolveBackend world (world.requests entry.1).model) := by
  unfold place at h
  dsimp only at h
  split at h
  · cases h
  · split at h
    · cases h
    · cases h
      refine ⟨rfl, ?_⟩
      split_ifs with hnone
      · exact .inr ⟨Option.isNone_iff_eq_none.mp (Bool.and_eq_true_iff.mp hnone).1, rfl⟩
      · exact .inl rfl

theorem mapM_place {entries : List (Nat × Nat)} {placed : List (String × Placed β)}
    (h : entries.mapM (ex.place world overrides) = some placed) :
    placed.map (fun p => p.2.entry) = entries ∧
      ∀ p ∈ placed, ex.place world overrides p.2.entry = some p := by
  induction entries generalizing placed with
  | nil =>
    cases h
    exact ⟨rfl, by simp⟩
  | cons entry entries ih =>
    rw [mapM_cons] at h
    obtain ⟨first, hfirst, h⟩ := Option.bind_eq_some_iff.mp h
    obtain ⟨rest, hrest, h⟩ := Option.bind_eq_some_iff.mp h
    cases h
    have hentry := (place_eq_some hfirst).1
    obtain ⟨hmap, hplace⟩ := ih hrest
    exact ⟨by rw [map_cons, hentry, hmap], forall_mem_cons.mpr ⟨hentry ▸ hfirst, hplace⟩⟩

variable {requests : List Nat} {groups : List (String × List (Placed β))}

section

variable (h : ex.deviceBatches world requests overrides = some groups)
include h

/-- The devices' batches hold each request of the batch once. -/
theorem deviceBatches_perm : ((members groups).map Placed.entry).Perm requests.zipIdx := by
  unfold deviceBatches at h
  split at h
  · cases h
  · obtain ⟨placed, hplaced, rfl⟩ := Option.map_eq_some_iff.mp h
    rw [← (mapM_place hplaced).1, ← Function.comp_def, ← map_map]
    exact (members_groups placed).map Placed.entry

theorem deviceBatches_ne_nil : ∀ g ∈ groups, g.2 ≠ [] := by
  unfold deviceBatches at h
  split at h
  · cases h
  · obtain ⟨placed, -, rfl⟩ := Option.map_eq_some_iff.mp h
    exact groups_ne_nil placed

theorem mem_deviceBatches_length (hlen : 1 < groups.length) {group : String × List (Placed β)}
    (hgroup : group ∈ groups) : group.2.length < requests.length := by
  have hperm := (deviceBatches_perm h).length_eq
  rw [length_map, length_zipIdx] at hperm
  rw [← hperm]
  exact length_lt_of_mem (deviceBatches_ne_nil h) hlen hgroup

end

/-! ## Grouping by backend -/

variable (ex)

/-- The backend whose phased executor takes the request, if one does. -/
def eligibleBackend (world : World τ) (request : Nat) (override : Option β) : Option β :=
  let req := world.requests request
  let be :=
    if override.isNone && !req.embeddingRequest then ex.resolveBackend world req.model
    else override
  if !req.embeddingRequest && hasValidUnifiedPhasedState req && !req.responseFormat.hasGrammar &&
      !req.responseFormat.hasFormat then
    be.filter (ex.isReady world)
  else none

def executeGroups : List (β × List (Nat × Nat)) → List InferenceResult → ExecState τ → Executed τ
  | [], results, s => (.ok results, s)
  | (be, entries) :: groups, results, s =>
    let reqs := entries.map Prod.fst
    match ex.executeUnifiedBatchPhased be reqs s.world with
    | (.error thrown, world) => (.error thrown, { s with world, thrown := true })
    | (.ok outcomes, world) =>
      executeGroups groups
        (Grouping.scatter results ((entries.map Prod.snd).zip outcomes.val))
        { s with world, executed := s.executed ++ reqs.zip outcomes.val }

def executeRemaining (overrides : List (Option β)) : List (Nat × Nat) → List InferenceResult →
    ExecState τ → Executed τ
  | [], results, s => (.ok results, s)
  | (request, i) :: entries, results, s =>
    match ex.executeRequest request (overrides[i]?).join s.world with
    | (.error thrown, world) => (.error thrown, { s with world, thrown := true })
    | (.ok result, world) =>
      executeRemaining overrides entries (results.set i result)
        { s with world, executed := s.executed ++ [(request, result)] }

/-! ## What has been computed -/

/-- An execution has computed a result for each entry, by a call on a backend that its request is
assigned, and has written it to the entry's index. -/
structure Computes (assigned : Nat → Option β → Prop) (entries : List (Nat × Nat))
    (results : List InferenceResult) (s : ExecState τ) (outcome : Executed τ)
    (computed : List ((Nat × Nat) × InferenceResult)) : Prop where
  calls : ex.Calls assigned (Grouping.answered computed)
  entries_eq : computed.map Prod.fst = entries
  results_eq : outcome.1 = .ok (Grouping.scatter results (Grouping.written computed))
  executed_eq : outcome.2.executed = s.executed ++ Grouping.answered computed
  thrown_eq : outcome.2.thrown = s.thrown

variable {ex} {entries entries' : List (Nat × Nat)} {results : List InferenceResult}
  {s : ExecState τ} {computed computed' : List ((Nat × Nat) × InferenceResult)}
  {assigned assigned' : Nat → Option β → Prop} {log log' : Log}

theorem Calls.append (h : ex.Calls assigned log) (h' : ex.Calls assigned log') :
    ex.Calls assigned (log ++ log') := by
  induction h with
  | nil => exact h'
  | group hbackend hcall _ ih =>
    rw [append_assoc]
    exact .group hbackend hcall ih
  | single hbackend hcall _ ih => exact .single hbackend hcall ih

theorem Calls.mono (h : ex.Calls assigned log)
    (himp : ∀ {request backend}, assigned request backend → assigned' request backend) :
    ex.Calls assigned' log := by
  induction h with
  | nil => exact .nil
  | group hbackend hcall _ ih => exact .group (fun r hr => himp (hbackend r hr)) hcall ih
  | single hbackend hcall _ ih => exact .single (himp hbackend) hcall ih

theorem Calls.flatMap {ι : Type} {tasks : List ι} {log : ι → Log}
    (h : ∀ task ∈ tasks, ex.Calls assigned (log task)) : ex.Calls assigned (tasks.flatMap log) := by
  induction tasks with
  | nil => exact .nil
  | cons task tasks ih =>
    rw [forall_mem_cons] at h
    exact h.1.append (ih h.2)

theorem Computes.nil : ex.Computes assigned [] results s (.ok results, s) [] :=
  ⟨.nil, rfl, rfl, (append_nil _).symm, rfl⟩

variable {outcome : Executed τ}

theorem Computes.append {results' : List InferenceResult} {s' : ExecState τ}
    (h : ex.Computes assigned entries results s (.ok results', s') computed)
    (h' : ex.Computes assigned entries' results' s' outcome computed') :
    ex.Computes assigned (entries ++ entries') results s outcome (computed ++ computed') where
  calls := answered_append computed computed' ▸ h.calls.append h'.calls
  entries_eq := by rw [map_append, h.entries_eq, h'.entries_eq]
  results_eq := by
    obtain rfl := Except.ok.inj h.results_eq
    rw [h'.results_eq, written_append, scatter_append]
  executed_eq := by
    have hfirst := h.executed_eq
    rw [h'.executed_eq, hfirst, append_assoc, answered_append]
  thrown_eq := h'.thrown_eq.trans h.thrown_eq

theorem Computes.group {outcomes : List InferenceResult} (hlen : outcomes.length = entries.length)
    (hcalls : ex.Calls assigned ((entries.map Prod.fst).zip outcomes)) (world : World τ) :
    ex.Computes assigned entries results s
      (.ok (scatter results ((entries.map Prod.snd).zip outcomes)),
        { s with world, executed := s.executed ++ (entries.map Prod.fst).zip outcomes })
      (entries.zip outcomes) where
  calls := answered_zip entries outcomes ▸ hcalls
  entries_eq := List.map_fst_zip (Nat.le_of_eq hlen.symm)
  results_eq := by rw [written_zip]
  executed_eq := by rw [answered_zip]
  thrown_eq := rfl

variable {requests : List Nat}

/-- What `ExecuteBatch` does for the requests of a batch: it returns one result for each, and the
results that its calls have returned are those of the requests, in some order. -/
structure Answers (ex : BatchExecutor β τ) (requests : List Nat) (overrides : List (Option β))
    (s : ExecState τ) (outcome : Executed τ)
    (results : List InferenceResult) (log : Log) : Prop where
  results_eq : outcome.1 = .ok results
  length_eq : results.length = requests.length
  executed_eq : outcome.2.executed = s.executed ++ log
  perm : log.Perm (requests.zip results)
  calls : ex.Calls (ex.Assigned requests overrides) log

theorem Computes.answers {overrides : List (Option β)}
    (h : ex.Computes (ex.Assigned requests overrides) entries
      (List.replicate requests.length {}) s outcome computed)
    (hperm : entries.Perm requests.zipIdx) :
    ∃ results log, ex.Answers requests overrides s outcome results log :=
  ⟨_, _, h.results_eq, by simp, h.executed_eq, answered_perm_zip (h.entries_eq ▸ hperm) (by simp),
    h.calls⟩

theorem catchException_thrown (outcome : Executed τ) :
    (catchException requests outcome).2.thrown = outcome.2.thrown := by
  unfold catchException
  split <;> rfl

structure NeverThrows (ex : BatchExecutor β τ) : Prop where
  unified : ∀ be reqs world, ∃ outcomes world',
    ex.executeUnifiedBatchPhased be reqs world = (.ok outcomes, world')
  request : ∀ request be world, ∃ result world',
    ex.executeRequest request be world = (.ok result, world')

theorem NeverThrows.executeGroups (h : ex.NeverThrows)
    (groups : List (β × List (Nat × Nat))) (results : List InferenceResult) (s : ExecState τ) :
    ∃ results' s', ex.executeGroups groups results s = (.ok results', s') ∧
      s'.thrown = s.thrown := by
  induction groups generalizing results s with
  | nil => exact ⟨results, s, rfl, rfl⟩
  | cons group groups ih =>
    obtain ⟨outcomes, world, hcall⟩ := h.unified group.1 (group.2.map Prod.fst) s.world
    rw [BatchExecutor.executeGroups, hcall]
    exact ih _ _

theorem NeverThrows.executeRemaining (h : ex.NeverThrows) (overrides : List (Option β))
    (entries : List (Nat × Nat)) (results : List InferenceResult) (s : ExecState τ) :
    (ex.executeRemaining overrides entries results s).2.thrown = s.thrown := by
  induction entries generalizing results s with
  | nil => rfl
  | cons entry entries ih =>
    obtain ⟨result, world, hcall⟩ := h.request entry.1 (overrides[entry.2]?).join s.world
    rw [BatchExecutor.executeRemaining, hcall]
    exact ih _ _

section Whole

variable (ex) [DecidableEq β]

/-- The eligible requests with their indices, grouped by backend in the order in which the
backends appear. -/
def eligibleGroups (world : World τ) (requests : List Nat) (overrides : List (Option β)) :
    List (β × List (Nat × Nat)) :=
  Grouping.groups (fun _ _ => false) (requests.zipIdx.filterMap fun entry =>
    (ex.eligibleBackend world entry.1 (overrides[entry.2]?).join).map fun be => (be, entry))

def executeGrouped (requests : List Nat) (overrides : List (Option β)) (s : ExecState τ) :
    Executed τ :=
  let groups := ex.eligibleGroups s.world requests overrides
  let handled := (Grouping.members groups).map Prod.snd
  match ex.executeGroups groups (List.replicate requests.length {}) s with
  | (.error thrown, s) => (.error thrown, s)
  | (.ok results, s) =>
    ex.executeRemaining overrides (requests.zipIdx.filter fun entry => entry.2 ∉ handled) results s

def executeBatch (requests : List Nat) (overrides : List (Option β)) (s : ExecState τ) :
    Executed τ :=
  match h : ex.deviceBatches s.world requests overrides with
  | none => ex.executeGrouped requests overrides s
  | some groups =>
    if hlen : 1 < groups.length then
      let tasks := groups.attach.map fun ⟨(device, members), hmem⟩ =>
        have : members.length < requests.length := mem_deviceBatches_length h hlen hmem
        (members, catchException (members.map Placed.request)
          (executeBatch (members.map Placed.request) (members.map Placed.backend)
            { world := ex.fork device s.world }))
      (gather tasks (List.replicate requests.length {}), ex.joinTasks s tasks)
    else ex.executeGrouped requests overrides s
termination_by requests.length
decreasing_by simpa using this

/-! ## Results and requests -/

variable {ex} {overrides : List (Option β)}

def taskBody (ex : BatchExecutor β τ) (s : ExecState τ) (group : String × List (Placed β)) :
    Executed τ :=
  ex.executeBatch (group.2.map Placed.request) (group.2.map Placed.backend)
    { world := ex.fork group.1 s.world }

def task (ex : BatchExecutor β τ) (s : ExecState τ) (group : String × List (Placed β)) :
    List (Placed β) × Executed τ :=
  (group.2, catchException (group.2.map Placed.request) (ex.taskBody s group))

/-- Several devices: the results of their tasks are gathered. -/
theorem executeBatch_eq_tasks {groups : List (String × List (Placed β))}
    (h : ex.deviceBatches s.world requests overrides = some groups) (hlen : 1 < groups.length) :
    ex.executeBatch requests overrides s =
      (gather (groups.map (ex.task s)) (List.replicate requests.length {}),
        ex.joinTasks s (groups.map (ex.task s))) := by
  have htasks : groups.attach.map (fun group => ex.task s group.1) = groups.map (ex.task s) := by
    rw [map_attach_eq_pmap, pmap_eq_map]
  rw [executeBatch]
  split
  next h' => cases h.symm.trans h'
  next groups' h' =>
    obtain rfl := Option.some.inj (h.symm.trans h')
    rw [dif_pos hlen, ← htasks]
    rfl

/-- One device, or a request that is not placed: the batch is not split. -/
theorem executeBatch_eq_grouped
    (h : ∀ groups, ex.deviceBatches s.world requests overrides = some groups → groups.length ≤ 1) :
    ex.executeBatch requests overrides s = ex.executeGrouped requests overrides s := by
  rw [executeBatch]
  split
  next => rfl
  next groups hgroups => exact dif_neg (Nat.not_lt.mpr (h groups hgroups))

/-- Induction over the executions that a batch starts. -/
theorem executeBatch_induction (ex : BatchExecutor β τ)
    {motive : List Nat → List (Option β) → ExecState τ → Prop}
    (grouped : ∀ requests overrides s,
      ex.executeBatch requests overrides s = ex.executeGrouped requests overrides s →
      motive requests overrides s)
    (tasks : ∀ requests overrides s groups,
      ex.deviceBatches s.world requests overrides = some groups →
      ex.executeBatch requests overrides s =
        (gather (groups.map (ex.task s)) (List.replicate requests.length {}),
          ex.joinTasks s (groups.map (ex.task s))) →
      (∀ group ∈ groups, motive (group.2.map Placed.request) (group.2.map Placed.backend)
        { world := ex.fork group.1 s.world }) →
      motive requests overrides s)
    (requests : List Nat) (overrides : List (Option β)) (s : ExecState τ) :
    motive requests overrides s := by
  induction hn : requests.length using Nat.strongRecOn generalizing requests overrides s with
  | ind n ih =>
    by_cases hsplit : ∃ groups, ex.deviceBatches s.world requests overrides = some groups ∧
      1 < groups.length
    · obtain ⟨groups, hgroups, hlen⟩ := hsplit
      refine tasks _ _ _ groups hgroups (executeBatch_eq_tasks hgroups hlen) fun group hgroup => ?_
      exact ih _ (hn ▸ mem_deviceBatches_length hgroups hlen hgroup) _ _ _ (length_map _)
    · refine grouped _ _ _ (executeBatch_eq_grouped fun groups hgroups => ?_)
      by_contra hlen
      exact hsplit ⟨groups, hgroups, Nat.not_le.mp hlen⟩

theorem NeverThrows.executeGrouped (h : ex.NeverThrows) (requests : List Nat)
    (overrides : List (Option β)) (s : ExecState τ) :
    (ex.executeGrouped requests overrides s).2.thrown = s.thrown := by
  obtain ⟨results, s', hrun, hthrown⟩ := h.executeGroups
    (ex.eligibleGroups s.world requests overrides) (replicate requests.length {}) s
  unfold BatchExecutor.executeGrouped
  dsimp only
  rw [hrun, ← hthrown]
  exact h.executeRemaining _ _ _ _

theorem NeverThrows.executeBatch (h : ex.NeverThrows) (requests : List Nat)
    (overrides : List (Option β)) (s : ExecState τ) :
    (ex.executeBatch requests overrides s).2.thrown = s.thrown := by
  induction requests, overrides, s using executeBatch_induction ex with
  | grouped requests overrides s hrun =>
    rw [hrun]
    exact h.executeGrouped _ _ _
  | tasks requests overrides s groups hgroups hrun ih =>
    have hnone : (groups.map (ex.task s)).any (fun task => task.2.2.thrown) = false := by
      simp only [any_map, any_eq_false, Function.comp_apply]
      intro group hgroup
      rw [task, catchException_thrown, taskBody, ih group hgroup]
      exact Bool.false_ne_true
    rw [hrun, joinTasks, hnone, Bool.or_false]

end Whole

end BatchExecutor

/-! ## The executor of the models -/

def World.store {τ : Type} (world : World τ) (changed : List (Nat × InferenceRequest))
    (backends : τ) : World τ :=
  { requests := changed.foldl (fun requests c => Function.update requests c.1 c.2) world.requests
    backends }

section Models

variable {β τ : Type}

def unifiedCall (unified : β → Backend τ) (tuning : UnifiedBatchTuning) (be : β)
    (reqs : List Nat) (world : World τ) : Outcomes reqs × World τ :=
  let run := executeUnifiedBatchPhased (unified be) tuning (reqs.map world.requests) world.backends
  (⟨run.1.map Slot.result, by simp [run, length_executeUnifiedBatchPhased]⟩,
    world.store (reqs.zip (run.1.map Slot.req)) run.2)

/-- The call for a group gives a request what the scheduler's model of the batch gives it. -/
theorem unifiedCall_eq_executeInBatch (unified : β → Backend τ) (tuning : UnifiedBatchTuning)
    (be : β) (front back : List Nat) (request : Nat) (world : World τ) (parts : Components)
    (env : BatchEnv τ) (hunified : env.unified = unified be) (htuning : env.tuning = tuning)
    (hstate : env.unifiedState = world.backends)
    (hfront : env.groupBefore = front.map world.requests)
    (hback : env.groupAfter = back.map world.requests)
    (heligible : phasedEligible env (world.requests request) = true) :
    (unifiedCall unified tuning be (front ++ request :: back) world).1.val[front.length]? =
      some (executeInBatch parts env (world.requests request)).result := by
  have hgroup : env.groupBefore ++ world.requests request :: env.groupAfter =
      (front ++ request :: back).map world.requests := by simp [hfront, hback]
  rw [executeInBatch, if_pos heligible, hgroup, hunified, htuning, hstate, BatchEnv.slot, hfront,
    length_map]
  cases hslot : (executeUnifiedBatchPhased (unified be) tuning
      ((front ++ request :: back).map world.requests) world.backends).1[front.length]? with
  | none =>
    rw [getElem?_eq_none_iff, length_executeUnifiedBatchPhased] at hslot
    simp only [length_map, length_append, length_cons] at hslot
    omega
  | some slot =>
    rw [unifiedCall, getElem?_map, hslot]
    rfl

end Models

/-! ## Results stay with their requests -/

section Results

variable {β τ : Type} [DecidableEq β]

end Results

end InferFlux.Scheduler.Partition
