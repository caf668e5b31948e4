import InferFlux.Library.FreshName
import Mathlib.Tactic

/-!
# The model router

Embeds `SingleModelRouter` from `scheduler/single_model_router.cpp` and `SelectModelForRequest`
from `scheduler/model_selection.cpp`. The map of models is a list of entries with distinct
ids, in the order in which the hash map iterates; a new entry may come anywhere in it.
Backends are numbered. What a load does before it registers its backend, and the texts of its
errors, are left out, and so are the metrics.
-/

namespace InferFlux.Router

open String

structure ModelInfo where
  id : String
  path : String := ""
  backend : String := ""
  backendFallback : Bool := false
  deriving DecidableEq, Repr

structure Entry where
  info : ModelInfo
  backend : Nat
  deriving DecidableEq, Repr

structure ModelLoadSpec where
  path : String := ""
  id : String := ""
  makeDefault : Bool := false
  deriving DecidableEq, Repr

structure SingleModelRouter where
  models : List Entry := []
  defaultModelId : String := ""
  retiredIds : List String := []
  deriving DecidableEq, Repr

def pathStem (path : String) : String :=
  let filename := (path.toList.reverse.takeWhile (· ≠ '/')).reverse
  let stem := (filename.reverse.dropWhile (· ≠ '.')).tail.reverse
  String.ofList (if stem.isEmpty || filename = ['.', '.'] then filename else stem)

def idCandidate (preferred : String) (n : Nat) : String :=
  let base := if preferred = "" then "model" else preferred
  if n = 0 then base else base ++ "-" ++ toString n

namespace SingleModelRouter

variable (router : SingleModelRouter)

def find (id : String) : Option Entry := router.models.find? fun entry => entry.info.id = id

def ids : List String := router.models.map fun entry => entry.info.id

def ensureUniqueId (preferred : String) : String :=
  FreshName.fresh (idCandidate preferred) (router.ids ++ router.retiredIds)

def addEntry (position : Nat) (preferred : String) (info : ModelInfo) (backend : Nat)
    (makeDefault : Bool) : SingleModelRouter :=
  let id := router.ensureUniqueId preferred
  let entry : Entry := { info := { info with id }, backend }
  { router with
    models := router.models.take position ++ entry :: router.models.drop position
    defaultModelId :=
      if router.defaultModelId = "" || makeDefault then id else router.defaultModelId }

/-- `RegisterModel`, for a backend with enough sequence slots. -/
def registerModel (position : Nat) (info : ModelInfo) (backend : Nat) : Option SingleModelRouter :=
  if info.path = "" && info.id = "" then none
  else if info.id ≠ "" && (router.ids.contains info.id || router.retiredIds.contains info.id) then none
  else
    let preferred :=
      if info.id = "" then pathStem (if info.path = "" then "model" else info.path) else info.id
    some (router.addEntry position preferred info backend false)

/-- The conflicts that `LoadModel` looks for first; `samePath` are the paths that lead to the
artifact of the specification. -/
def loadConflict (spec : ModelLoadSpec) (samePath : String → Bool) : Bool :=
  router.retiredIds.contains spec.id ||
    router.models.any fun entry =>
      (spec.id ≠ "" && spec.id = entry.info.id) || entry.info.path = spec.path ||
        samePath entry.info.path

def finishLoad (position : Nat) (spec : ModelLoadSpec) (info : ModelInfo) (backend : Nat) :
    SingleModelRouter :=
  router.addEntry position (if spec.id ≠ "" then spec.id else pathStem spec.path)
    { info with path := spec.path } backend spec.makeDefault

/-- `UnloadModel`; a backend that somebody else holds too stays. -/
def unloadModel (id : String) (leased : Nat → Bool) : Option SingleModelRouter :=
  match router.find id with
  | none => none
  | some entry =>
    if leased entry.backend then none
    else
      let models := router.models.filter fun entry => entry.info.id ≠ id
      some
        { models
          retiredIds := id :: router.retiredIds
          defaultModelId :=
            if router.defaultModelId = id then (models.head?.map fun e => e.info.id).getD ""
            else router.defaultModelId }

def setDefaultModel (id : String) : Option SingleModelRouter :=
  if (router.find id).isSome then some { router with defaultModelId := id } else none

/-- `Resolve`: a model that is not registered gives the default model. -/
def resolve (requestedModel : String) : Option ModelInfo :=
  if router.models.isEmpty then none
  else
    match router.find (if requestedModel = "" then router.defaultModelId else requestedModel) with
    | some entry => some entry.info
    | none =>
      if requestedModel ≠ "" && router.defaultModelId ≠ "" then
        (router.find router.defaultModelId).map Entry.info
      else none

def resolveExact (id : String) : Option ModelInfo :=
  if id = "" then none else (router.find id).map Entry.info

def getBackend (id : String) : Option Nat := (router.find id).map Entry.backend

end SingleModelRouter

def isDefaultModelAlias (value : String) : Bool :=
  value.toList.map Char.toLower = "default".toList

def explicitModelRequested (requestedModel : String) : Bool :=
  requestedModel ≠ "" && !isDefaultModelAlias requestedModel

inductive CapabilityFallbackScope where
  | anyCompatible
  | samePathOnly
  deriving DecidableEq, Repr

structure ModelSelectionOptions where
  allowCapabilityFallbackForDefault : Bool := true
  requireReadyBackend : Bool := false
  capabilityFallbackScope : CapabilityFallbackScope := .anyCompatible
  deriving DecidableEq, Repr

/-- The outcomes of the capability and readiness checks. -/
structure Checks where
  supported : ModelInfo → Bool := fun _ => true
  isReady : Nat → Bool := fun _ => true

inductive ModelSelectionStatus where
  | selected
  | notFound
  | unsupported
  | backendUnavailable
  deriving DecidableEq, Repr

structure ModelSelectionResult where
  status : ModelSelectionStatus
  info : Option ModelInfo := none
  backend : Option Nat := none
  usedFallback : Bool := false
  deriving DecidableEq, Repr

def backendPreferenceRank (label : String) : Nat :=
  let lowered := String.ofList (label.toList.map Char.toLower)
  if lowered = "cuda" then 0
  else if lowered = "rocm" then 1
  else if lowered = "mps" then 2
  else if lowered = "mlx" then 3
  else if lowered = "vulkan" then 4
  else if lowered = "cpu" then 5
  else 6

def betterCandidate (a b : ModelInfo) : Bool :=
  let rankA := backendPreferenceRank a.backend
  let rankB := backendPreferenceRank b.backend
  if rankA ≠ rankB then rankA < rankB
  else if a.backendFallback ≠ b.backendFallback then !a.backendFallback
  else a.id < b.id

def pickFallbackCandidate (router : SingleModelRouter) (primary : ModelInfo) (checks : Checks)
    (options : ModelSelectionOptions) : Option ModelSelectionResult :=
  let candidates := router.models.filter fun entry =>
    entry.info.id ≠ "" && entry.info.id ≠ primary.id &&
      !(options.capabilityFallbackScope = .samePathOnly && primary.path ≠ "" &&
        entry.info.path ≠ primary.path) &&
      checks.supported entry.info &&
      (!options.requireReadyBackend || checks.isReady entry.backend)
  let best := candidates.foldl (fun best entry =>
    match best with
    | none => some entry
    | some b => if betterCandidate entry.info b.info then some entry else some b) none
  best.map fun entry =>
    { status := .selected
      info := some entry.info
      backend := some entry.backend
      usedFallback := true }

def selectPrimary (router : SingleModelRouter) (requestedModel : String) : Option ModelInfo :=
  if explicitModelRequested requestedModel then router.resolveExact requestedModel
  else router.resolve ""

/-- The rest of `SelectModelForRequest`, with the router as it is by then. -/
def selectBackend (router : SingleModelRouter) (requestedModel : String) (primary : ModelInfo)
    (checks : Checks) (options : ModelSelectionOptions) : ModelSelectionResult :=
  let fallback :=
    if options.allowCapabilityFallbackForDefault && !explicitModelRequested requestedModel then
      pickFallbackCandidate router primary checks options
    else none
  if !checks.supported primary then
    fallback.getD { status := .unsupported, info := some primary }
  else
    let backend := router.getBackend primary.id
    if options.requireReadyBackend && !backend.any checks.isReady then
      fallback.getD { status := .backendUnavailable, info := some primary }
    else { status := .selected, info := some primary, backend }

theorem idCandidate_injective (preferred : String) :
    Function.Injective (idCandidate preferred) := by
  intro m n h
  simp only [idCandidate] at h
  generalize (if preferred = "" then "model" else preferred) = base at h
  have hdash : "-".length = 1 := by decide
  split_ifs at h with hm hn hn
  · rw [hm, hn]
  · have hlength := congrArg length h
    rw [length_append, length_append, hdash] at hlength
    omega
  · have hlength := congrArg length h
    rw [length_append, length_append, hdash] at hlength
    omega
  · have := congrArg toList h
    simp only [toList_append, List.append_assoc, List.append_cancel_left_eq] at this
    have hrepr := toList_inj.mp this
    rw [Nat.toString_eq_ofList_toDigits, Nat.toString_eq_ofList_toDigits, ofList_inj] at hrepr
    rw [← Nat.ofDigitChars_ten_toDigits (n := m), hrepr, Nat.ofDigitChars_ten_toDigits]

variable {id : String} {info : ModelInfo}

namespace SingleModelRouter

variable {router : SingleModelRouter}

theorem find_eq_none_iff : router.find id = none ↔ id ∉ router.ids := by
  simp [find, ids, List.find?_eq_none]

theorem ensureUniqueId_not_mem (router : SingleModelRouter) (preferred : String) :
    router.ensureUniqueId preferred ∉ router.ids ∧
      router.ensureUniqueId preferred ∉ router.retiredIds := by
  have h := FreshName.fresh_not_mem (idCandidate_injective preferred)
    (router.ids ++ router.retiredIds)
  simpa [ensureUniqueId] using h

theorem find_addEntry {position : Nat} {preferred : String} {backend : Nat} {makeDefault : Bool}
    (hne : router.ensureUniqueId preferred ≠ id) :
    (router.addEntry position preferred info backend makeDefault).find id = router.find id := by
  have hfind : router.models.find? (fun entry => entry.info.id = id) =
      ((router.models.take position).find? fun entry => entry.info.id = id).or
        ((router.models.drop position).find? fun entry => entry.info.id = id) := by
    rw [← List.find?_append, List.take_append_drop]
  simp [find, addEntry, List.find?_append, hne, hfind]

theorem find_filter {models : List Entry} {id' : String} (hne : id ≠ id') :
    (models.filter fun entry => entry.info.id ≠ id).find? (fun entry => entry.info.id = id') =
      models.find? fun entry => entry.info.id = id' := by
  rw [List.find?_filter]
  congr 1
  funext entry
  by_cases h : entry.info.id = id'
  · simp [h, Ne.symm hne]
  · simp [h]

end SingleModelRouter

variable {router : SingleModelRouter}

theorem find_id {entry : Entry} (h : router.find id = some entry) : entry.info.id = id := by
  simpa using List.find?_some h

theorem resolveExact_id (h : router.resolveExact id = some info) : info.id = id := by
  simp only [SingleModelRouter.resolveExact] at h
  split_ifs at h
  obtain ⟨entry, hfind, rfl⟩ := Option.map_eq_some_iff.mp h
  exact find_id hfind

end InferFlux.Router
