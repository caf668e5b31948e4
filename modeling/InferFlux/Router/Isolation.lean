import InferFlux.Library.LoggedRun
import InferFlux.Router.SingleModelRouter

/-!
# Model isolation

Requests that wait for their batch, together with the router that is changed meanwhile. A
request is resolved in `Scheduler::ResolveBackends`, with `SelectModelForRequest`, and once
more in `BatchExecutor::ResolveBackend` if no backend was bound to it. Each access to the
router is a step of its own, so that loads, unloads and changes of the default model may come
between any two of them.
-/

namespace InferFlux.Router

open SingleModelRouter Option List LoggedRun

inductive Stage where
  | queued
  /-- `SelectModelForRequest` has found the entry. -/
  | selecting (primary : ModelInfo)
  /-- The model does not support the request, which fails. -/
  | rejected
  /-- `ResolveBackends` is done with the request. -/
  | staged
  /-- The executor has resolved the model of a request without a backend. -/
  | lookedUp (id : Option String)
  /-- The request runs on a backend, or fails for want of one. -/
  | running (backend : Option Nat)
  | done
  deriving DecidableEq, Repr

structure Request where
  model : String
  resolvedBackend : Option Nat := none
  resolvedModel : String := ""
  stage : Stage := .queued
  deriving DecidableEq, Repr

def Request.holds (r : Request) (backend : Nat) : Bool :=
  r.resolvedBackend = some backend || r.stage = .running (some backend)

structure State where
  router : SingleModelRouter := {}
  /-- The specification of the load in progress; `LoadModel` is serialised. -/
  loading : Option ModelLoadSpec := none
  requests : List Request := []
  deriving DecidableEq, Repr

inductive Op where
  | registerModel (position : Nat) (info : ModelInfo) (backend : Nat)
  | beginLoad (spec : ModelLoadSpec) (samePath : String → Bool)
  | finishLoad (position : Nat) (loaded : Option (ModelInfo × Nat))
  /-- `retained` are the backends to which something besides the requests has a reference. -/
  | unloadModel (id : String) (retained : Nat → Bool)
  | setDefaultModel (id : String)
  | submit (model : String)
  /-- `bound`: the request keeps its backend if it has one. -/
  | select (i : Nat) (bound : Bool)
  | bind (i : Nat) (checks : Checks) (options : ModelSelectionOptions)
  | lookUp (i : Nat)
  | start (i : Nat)
  | finish (i : Nat) (yielded : Bool)

def Request.select (r : Request) (router : SingleModelRouter) (bound : Bool) : Request :=
  if bound && r.resolvedBackend.isSome then { r with stage := .staged }
  else
    { r with
      resolvedBackend := none
      resolvedModel := ""
      stage :=
        match selectPrimary router r.model with
        | none => .staged
        | some primary => .selecting primary }

def Request.bind (r : Request) (router : SingleModelRouter) (primary : ModelInfo) (checks : Checks)
    (options : ModelSelectionOptions) : Request :=
  let selection := selectBackend router r.model primary checks options
  let id := (selection.info.map ModelInfo.id).getD ""
  match selection.status with
  | .notFound => { r with stage := .staged }
  | .unsupported => { r with stage := .rejected }
  | .backendUnavailable => { r with stage := .staged, resolvedModel := id }
  | .selected =>
    { r with
      stage := .staged
      resolvedModel := id
      resolvedBackend := selection.backend.filter checks.isReady }

def Request.lookUp (r : Request) (router : SingleModelRouter) : Request :=
  { r with stage := .lookedUp ((router.resolve r.model).map ModelInfo.id) }

def State.update (s : State) (i : Nat) (r : Request) : State :=
  { s with requests := s.requests.set i r }

def step (s : State) : Op → Option (State × List Empty)
  | .registerModel position info backend =>
    some ({ s with router := (s.router.registerModel position info backend).getD s.router }, [])
  | .beginLoad spec samePath =>
    if s.loading.isSome then none
    else if s.router.loadConflict spec samePath then some (s, [])
    else some ({ s with loading := some spec }, [])
  | .finishLoad position loaded =>
    match s.loading with
    | none => none
    | some spec =>
      let router :=
        match loaded with
        | none => s.router
        | some (info, backend) => s.router.finishLoad position spec info backend
      some ({ s with router, loading := none }, [])
  | .unloadModel id retained =>
    let leased := fun backend => retained backend || s.requests.any fun r => r.holds backend
    some ({ s with router := (s.router.unloadModel id leased).getD s.router }, [])
  | .setDefaultModel id =>
    some ({ s with router := (s.router.setDefaultModel id).getD s.router }, [])
  | .submit model => some ({ s with requests := s.requests ++ [{ model }] }, [])
  | .select i bound =>
    match s.requests[i]? with
    | none => none
    | some r => if r.stage = .queued then some (s.update i (r.select s.router bound), []) else none
  | .bind i checks options =>
    match s.requests[i]? with
    | none => none
    | some r =>
      match r.stage with
      | .selecting primary => some (s.update i (r.bind s.router primary checks options), [])
      | _ => none
  | .lookUp i =>
    match s.requests[i]? with
    | none => none
    | some r =>
      match r.stage, r.resolvedBackend with
      | .staged, none => some (s.update i (r.lookUp s.router), [])
      | .lookedUp _, none => some (s.update i (r.lookUp s.router), [])
      | _, _ => none
  | .start i =>
    match s.requests[i]? with
    | none => none
    | some r =>
      match r.stage, r.resolvedBackend with
      | .staged, some backend => some (s.update i { r with stage := .running (some backend) }, [])
      | .lookedUp id, none =>
        some (s.update i { r with stage := .running (id.bind s.router.getBackend) }, [])
      | _, _ => none
  | .finish i yielded =>
    match s.requests[i]? with
    | none => none
    | some r =>
      match r.stage with
      | .running _ =>
        if yielded then some (s.update i { r with stage := .queued }, [])
        else some (s.update i { r with stage := .done, resolvedBackend := none }, [])
      | _ => none

/-! ## The invariant -/

/-- What holds of a request that names its model: the backends it has a reference to are that
model's, and so is the id with which it will ask for one. -/
structure Own (router : SingleModelRouter) (r : Request) : Prop where
  bound : ∀ b, r.resolvedBackend = some b → router.getBackend r.model = some b
  stage :
    match r.stage with
    | .selecting primary => primary.id = r.model
    | .lookedUp (some id) => id = r.model
    | .running (some b) => router.getBackend r.model = some b
    | _ => True

structure Inv (s : State) : Prop where
  retired : ∀ id ∈ s.router.retiredIds, s.router.find id = none
  own : ∀ r ∈ s.requests, explicitModelRequested r.model = true → Own s.router r

/-- A change of the router that requests do not notice: retired ids stay unregistered, and
backends that requests have a reference to stay registered. -/
structure RouterKeeps (s : State) (router : SingleModelRouter) : Prop where
  retired : ∀ id ∈ router.retiredIds, router.find id = none
  leased : ∀ r ∈ s.requests, ∀ id b, r.holds b = true → s.router.getBackend id = some b →
    router.getBackend id = some b

variable {s : State} {router : SingleModelRouter}

theorem RouterKeeps.inv {s' : State} (h : RouterKeeps s s'.router) (hinv : Inv s)
    (hrequests : s'.requests = s.requests) : Inv s' := by
  refine ⟨h.retired, fun r hr hexplicit => ?_⟩
  rw [hrequests] at hr
  obtain ⟨hbound, hstage⟩ := hinv.own r hr hexplicit
  refine ⟨fun b hb => h.leased r hr r.model b (by simp [Request.holds, hb]) (hbound b hb), ?_⟩
  split at hstage
  case h_3 b hrunning => exact h.leased r hr r.model b (by simp [Request.holds, hrunning]) hstage
  all_goals exact hstage

/-- What a step may do to the router. A backend that a request holds is not unloaded. -/
inductive RouterMove (s : State) : SingleModelRouter → Prop where
  | stays : RouterMove s s.router
  | adds (position : Nat) (preferred : String) (info : ModelInfo) (backend : Nat)
      (makeDefault : Bool) :
      RouterMove s (s.router.addEntry position preferred info backend makeDefault)
  | unloads {id : String} {leased : Nat → Bool} {router : SingleModelRouter}
      (hleased : ∀ r ∈ s.requests, ∀ b, r.holds b = true → leased b = true)
      (h : s.router.unloadModel id leased = some router) : RouterMove s router
  | setsDefault {id : String} (h : (s.router.find id).isSome = true) :
      RouterMove s { s.router with defaultModelId := id }

theorem step_routerMove {s' : State} {op : Op} {e : List Empty}
    (hstep : step s op = some (s', e)) : RouterMove s s'.router := by
  cases op with
  | registerModel position info backend =>
    cases hstep
    simp only [registerModel]
    split_ifs
    · exact .stays
    · exact .stays
    all_goals exact .adds _ _ _ _ _
  | finishLoad position loaded =>
    simp only [step] at hstep
    split at hstep
    · simp at hstep
    · cases hstep
      cases loaded with
      | none => exact .stays
      | some loaded => exact .adds _ _ _ _ _
  | unloadModel id retained =>
    cases hstep
    cases hunload : s.router.unloadModel id
        (fun backend => retained backend || s.requests.any fun r => r.holds backend) with
    | none => exact .stays
    | some router =>
      refine .unloads (fun r hr b hb => ?_) hunload
      simp only [Bool.or_eq_true, List.any_eq_true]
      exact .inr ⟨r, hr, hb⟩
  | setDefaultModel id =>
    cases hstep
    simp only [setDefaultModel]
    split_ifs with hfind
    · exact .setsDefault hfind
    · exact .stays
  | beginLoad | submit | select | bind | lookUp | start | finish =>
    simp only [step] at hstep
    repeat' split at hstep
    all_goals
      cases hstep
      try exact .stays

theorem RouterMove.keeps (hmove : RouterMove s router) (hinv : Inv s) : RouterKeeps s router := by
  cases hmove with
  | stays | setsDefault _ => exact ⟨hinv.retired, fun _ _ _ _ _ h => h⟩
  | adds position preferred info backend makeDefault =>
    obtain ⟨hids, hretired⟩ := s.router.ensureUniqueId_not_mem preferred
    refine ⟨fun id hid => ?_, fun r _ id b _ hb => ?_⟩
    · have hid' : id ∈ s.router.retiredIds := hid
      rw [find_addEntry (by rintro rfl; exact hretired hid')]
      exact hinv.retired id hid'
    · rw [getBackend, find_addEntry ?_]
      · exact hb
      · rintro rfl
        rw [getBackend, find_eq_none_iff.mpr hids] at hb
        simp at hb
  | @unloads id leased _ hleased h =>
    simp only [unloadModel] at h
    split at h
    · simp at h
    · rename_i entry hfind
      by_cases hfree : leased entry.backend = true
      · simp [hfree] at h
      rw [if_neg hfree] at h
      obtain rfl := some.inj h
      refine ⟨fun id' hid' => ?_, fun r hr id' b hb hbackend => ?_⟩
      · obtain rfl | hid' := mem_cons.mp hid'
        · simp [find]
        · have hnone := hinv.retired id' hid'
          simp only [find, find?_eq_none, mem_filter] at hnone ⊢
          exact fun e he => hnone e he.1
      · -- The model that is unloaded is held by nobody.
        have hne : id ≠ id' := by
          rintro rfl
          rw [getBackend, hfind, map_some, some.injEq] at hbackend
          rw [hbackend] at hfree
          exact hfree (hleased r hr b hb)
        rw [getBackend, find, find_filter hne]
        exact hbackend

/-! ## Requests -/

def OwnIfExplicit (router : SingleModelRouter) (r : Request) : Prop :=
  explicitModelRequested r.model = true → Own router r

variable {i : Nat} {r : Request}

theorem Inv.update (hinv : Inv s) (h : OwnIfExplicit s.router r) : Inv (s.update i r) := by
  refine ⟨hinv.retired, fun r' hr' => ?_⟩
  obtain hr' | rfl := mem_or_eq_of_mem_set hr'
  · exact hinv.own r' hr'
  · exact h

theorem Inv.request (hinv : Inv s) (h : s.requests[i]? = some r) : OwnIfExplicit s.router r :=
  hinv.own r (mem_of_getElem? h)

def requestForSecond : List Op :=
  [.registerModel 0 { id := "a" } 0, .registerModel 1 { id := "b" } 1, .submit "b"]

end InferFlux.Router
