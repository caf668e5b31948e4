import InferFlux.Router.SingleModelRouter
import Mathlib.Data.List.MinMax
import Mathlib.Data.Prod.Lex
import Mathlib.Data.String.Basic

/-!
# Model selection

Embeds `CheckBackendCapabilities` from `runtime/backends/backend_capabilities.cpp` and the whole
of `SelectModelForRequest` from `scheduler/model_selection.cpp`: which model answers a request,
with the features and texts that the outcome carries. The fields of a registered model that the
router does not read itself are given by its `ModelFeatures`.
-/

namespace InferFlux.Router

open List Bool

/-! ## Capabilities -/

structure BackendCapabilities where
  supportsGeneration : Bool := true
  supportsStreaming : Bool := true
  supportsLogprobs : Bool := true
  supportsStructuredOutput : Bool := true
  supportsEmbeddings : Bool := true
  supportsVision : Bool := false
  supportsSpeculativeDecoding : Bool := true
  supportsFairnessPreemption : Bool := true
  deriving DecidableEq, Repr

structure BackendFeatureRequirements where
  needsGeneration : Bool := false
  needsStreaming : Bool := false
  needsLogprobs : Bool := false
  needsStructuredOutput : Bool := false
  needsEmbeddings : Bool := false
  needsVision : Bool := false
  needsSpeculativeDecoding : Bool := false
  needsFairnessPreemption : Bool := false
  deriving DecidableEq, Repr

structure CapabilityCheckResult where
  supported : Bool := true
  missingFeature : String := ""
  reason : String := ""
  deriving DecidableEq, Repr

def missing (feature reason : String) : CapabilityCheckResult :=
  { supported := false, missingFeature := feature, reason }

structure FeatureCheck where
  needs : BackendFeatureRequirements → Bool
  supports : BackendCapabilities → Bool
  feature : String
  reason : String

def FeatureCheck.fails (check : FeatureCheck) (capabilities : BackendCapabilities)
    (requirements : BackendFeatureRequirements) : Bool :=
  check.needs requirements && !check.supports capabilities

def featureChecks : List FeatureCheck :=
  [⟨(·.needsGeneration), (·.supportsGeneration), "generation",
      "Selected model does not support text generation"⟩,
    ⟨(·.needsStructuredOutput), (·.supportsStructuredOutput), "structured_output",
      "Selected model/backend does not support response_format constraints"⟩,
    ⟨(·.needsLogprobs), (·.supportsLogprobs), "logprobs",
      "Selected model/backend does not support logprobs"⟩,
    ⟨(·.needsStreaming), (·.supportsStreaming), "streaming",
      "Selected model/backend does not support streaming"⟩,
    ⟨(·.needsEmbeddings), (·.supportsEmbeddings), "embeddings",
      "Selected model/backend does not support embeddings"⟩,
    ⟨(·.needsVision), (·.supportsVision), "vision",
      "Selected model/backend does not support image inputs"⟩,
    ⟨(·.needsSpeculativeDecoding), (·.supportsSpeculativeDecoding), "speculative_decoding",
      "Selected model/backend does not support speculative decoding"⟩,
    ⟨(·.needsFairnessPreemption), (·.supportsFairnessPreemption), "fairness_preemption",
      "Selected model/backend does not support fairness preemption"⟩]

def checkBackendCapabilities (capabilities : BackendCapabilities)
    (requirements : BackendFeatureRequirements) : CapabilityCheckResult :=
  match featureChecks.find? (·.fails capabilities requirements) with
  | some check => missing check.feature check.reason
  | none => {}

structure Provides (capabilities : BackendCapabilities)
    (requirements : BackendFeatureRequirements) : Prop where
  generation : requirements.needsGeneration → capabilities.supportsGeneration
  structuredOutput : requirements.needsStructuredOutput → capabilities.supportsStructuredOutput
  logprobs : requirements.needsLogprobs → capabilities.supportsLogprobs
  streaming : requirements.needsStreaming → capabilities.supportsStreaming
  embeddings : requirements.needsEmbeddings → capabilities.supportsEmbeddings
  vision : requirements.needsVision → capabilities.supportsVision
  speculativeDecoding :
    requirements.needsSpeculativeDecoding → capabilities.supportsSpeculativeDecoding
  fairnessPreemption :
    requirements.needsFairnessPreemption → capabilities.supportsFairnessPreemption

theorem fails_eq_false_iff (check : FeatureCheck) (capabilities : BackendCapabilities)
    (requirements : BackendFeatureRequirements) :
    check.fails capabilities requirements = false ↔
      (check.needs requirements → check.supports capabilities) := by
  unfold FeatureCheck.fails
  cases check.needs requirements <;> cases check.supports capabilities <;> simp

theorem supported_iff_provides (capabilities : BackendCapabilities)
    (requirements : BackendFeatureRequirements) :
    (checkBackendCapabilities capabilities requirements).supported ↔
      Provides capabilities requirements := by
  have hnone : (checkBackendCapabilities capabilities requirements).supported ↔
      featureChecks.find? (·.fails capabilities requirements) = none := by
    unfold checkBackendCapabilities
    cases featureChecks.find? (·.fails capabilities requirements) <;> simp [missing]
  rw [hnone, find?_eq_none]
  simp only [featureChecks, forall_mem_cons, not_eq_true, fails_eq_false_iff]
  constructor
  · rintro ⟨h1, h2, h3, h4, h5, h6, h7, h8, -⟩
    exact ⟨h1, h2, h3, h4, h5, h6, h7, h8⟩
  · rintro ⟨h1, h2, h3, h4, h5, h6, h7, h8⟩
    exact ⟨h1, h2, h3, h4, h5, h6, h7, h8, by simp⟩

/-! ## The selection with its texts -/

structure ModelFeatures where
  capabilities : BackendCapabilities := {}
  supportsStructuredOutput : Bool := false
  deriving DecidableEq, Repr

def effectiveCapabilities (features : ModelFeatures) : BackendCapabilities :=
  if !features.supportsStructuredOutput then
    { features.capabilities with supportsStructuredOutput := false }
  else features.capabilities

/-- What the selection asks the models and their backends. -/
structure Registry where
  features : ModelInfo → ModelFeatures := fun _ => {}
  isReady : Nat → Bool := fun _ => true

def Registry.check (registry : Registry) (requirements : BackendFeatureRequirements)
    (info : ModelInfo) : CapabilityCheckResult :=
  checkBackendCapabilities (effectiveCapabilities (registry.features info)) requirements

def Registry.checks (registry : Registry) (requirements : BackendFeatureRequirements) : Checks where
  supported := fun info => (registry.check requirements info).supported
  isReady := registry.isReady

structure SelectionOutcome extends ModelSelectionResult where
  fallbackFromBackend : String := ""
  fallbackFeature : String := ""
  missingFeature : String := ""
  reason : String := ""
  deriving DecidableEq, Repr

/-- `PickFallbackCandidate`, where the options allow a fallback. -/
def fallbackOutcome (router : SingleModelRouter) (registry : Registry) (primary : ModelInfo)
    (requestedModel : String) (requirements : BackendFeatureRequirements)
    (options : ModelSelectionOptions) (fallbackFeature : String) : Option SelectionOutcome :=
  if options.allowCapabilityFallbackForDefault && !explicitModelRequested requestedModel then
    (pickFallbackCandidate router primary (registry.checks requirements) options).map fun selected =>
      { toModelSelectionResult := selected
        fallbackFromBackend := primary.backend
        fallbackFeature }
  else none

def selectModelForRequest (router : Option SingleModelRouter) (registry : Registry)
    (requestedModel : String) (requirements : BackendFeatureRequirements)
    (options : ModelSelectionOptions) : SelectionOutcome :=
  match router with
  | none => { status := .notFound, reason := "router unavailable" }
  | some router =>
    match selectPrimary router requestedModel with
    | none => { status := .notFound, reason := "model not found" }
    | some primary =>
      let fallback :=
        fallbackOutcome router registry primary requestedModel requirements options
      let primaryCheck := registry.check requirements primary
      if !primaryCheck.supported then
        (fallback (if primaryCheck.missingFeature.isEmpty then "unsupported_feature"
          else primaryCheck.missingFeature)).getD
          { status := .unsupported
            info := some primary
            missingFeature := primaryCheck.missingFeature
            reason :=
              if primaryCheck.reason.isEmpty then
                "Selected model does not support requested features"
              else primaryCheck.reason }
      else
        let backend := router.getBackend primary.id
        if options.requireReadyBackend && !backend.any registry.isReady then
          (fallback "backend_unavailable").getD
            { status := .backendUnavailable
              info := some primary
              reason := "Selected model backend is not ready" }
        else { status := .selected, info := some primary, backend }

theorem toModelSelectionResult_select (router : SingleModelRouter) (registry : Registry)
    (requestedModel : String) (requirements : BackendFeatureRequirements)
    (options : ModelSelectionOptions) {primary : ModelInfo}
    (h : selectPrimary router requestedModel = some primary) :
    (selectModelForRequest (some router) registry requestedModel requirements
        options).toModelSelectionResult =
      selectBackend router requestedModel primary (registry.checks requirements) options := by
  have hfallback : ∀ (feature : String) (other : SelectionOutcome),
      ((fallbackOutcome router registry primary requestedModel requirements options feature).getD
        other).toModelSelectionResult =
      (if options.allowCapabilityFallbackForDefault && !explicitModelRequested requestedModel then
        pickFallbackCandidate router primary (registry.checks requirements) options
      else none).getD other.toModelSelectionResult := by
    intro feature other
    unfold fallbackOutcome
    split
    · cases pickFallbackCandidate router primary (registry.checks requirements) options <;> rfl
    · rfl
  have hsupported : (registry.checks requirements).supported primary =
      (registry.check requirements primary).supported := rfl
  have hready : (registry.checks requirements).isReady = registry.isReady := rfl
  unfold selectModelForRequest selectBackend
  simp only [h, hsupported, hready]
  cases (registry.check requirements primary).supported with
  | false => exact hfallback _ _
  | true =>
    cases options.requireReadyBackend && !(router.getBackend primary.id).any registry.isReady with
    | true => exact hfallback _ _
    | false => rfl

/-! ## The fallback -/

/-- Backend rank, fallback flag and id, compared in this order. -/
def CandidateKey : Type := Nat ×ₗ Nat ×ₗ String

instance : LinearOrder CandidateKey := inferInstanceAs (LinearOrder (Nat ×ₗ Nat ×ₗ String))

def candidateKey (info : ModelInfo) : CandidateKey :=
  toLex (backendPreferenceRank info.backend, toLex (if info.backendFallback then 1 else 0, info.id))

theorem betterCandidate_iff (a b : ModelInfo) :
    betterCandidate a b ↔ candidateKey a < candidateKey b := by
  have hlt : candidateKey a < candidateKey b ↔ _ := Prod.Lex.toLex_lt_toLex
  unfold betterCandidate
  simp only [hlt, Prod.Lex.toLex_lt_toLex]
  by_cases hrank : backendPreferenceRank a.backend = backendPreferenceRank b.backend
  · cases ha : a.backendFallback <;> cases hb : b.backendFallback <;> simp [hrank]
  · simp [hrank]

/-- The scope allows the candidate in the place of the primary model. -/
def ScopeAllows (scope : CapabilityFallbackScope) (primary candidate : ModelInfo) : Prop :=
  scope = .samePathOnly → primary.path ≠ "" → candidate.path = primary.path

/-- A registered model that may answer for the primary one. -/
structure IsCandidate (registry : Registry) (primary : ModelInfo)
    (requirements : BackendFeatureRequirements) (options : ModelSelectionOptions)
    (entry : Entry) : Prop where
  id_ne_empty : entry.info.id ≠ ""
  other : entry.info.id ≠ primary.id
  scope : ScopeAllows options.capabilityFallbackScope primary entry.info
  provides : Provides (effectiveCapabilities (registry.features entry.info)) requirements
  ready : options.requireReadyBackend → registry.isReady entry.backend

section Fallback

variable {registry : Registry} {primary : ModelInfo} {requirements : BackendFeatureRequirements}
  {options : ModelSelectionOptions}

def candidates (models : List Entry) (registry : Registry) (primary : ModelInfo)
    (requirements : BackendFeatureRequirements) (options : ModelSelectionOptions) : List Entry :=
  models.filter fun entry =>
    entry.info.id ≠ "" && entry.info.id ≠ primary.id &&
      !(options.capabilityFallbackScope = .samePathOnly && primary.path ≠ "" &&
        entry.info.path ≠ primary.path) &&
      (registry.checks requirements).supported entry.info &&
      (!options.requireReadyBackend || registry.isReady entry.backend)

theorem mem_candidates {models : List Entry} {entry : Entry} :
    entry ∈ candidates models registry primary requirements options ↔
      entry ∈ models ∧ IsCandidate registry primary requirements options entry := by
  have hprovides : (registry.checks requirements).supported entry.info ↔
      Provides (effectiveCapabilities (registry.features entry.info)) requirements :=
    supported_iff_provides _ _
  have hscope : (!(options.capabilityFallbackScope = .samePathOnly && primary.path ≠ "" &&
      entry.info.path ≠ primary.path) : Bool) ↔
        ScopeAllows options.capabilityFallbackScope primary entry.info := by
    simp only [ScopeAllows, not_eq_true', and_eq_false_iff, decide_eq_false_iff_not]
    grind
  have hready : (!options.requireReadyBackend || registry.isReady entry.backend) ↔
      (options.requireReadyBackend → registry.isReady entry.backend) := by
    cases options.requireReadyBackend <;> simp
  rw [candidates, mem_filter, and_congr_right_iff]
  intro _
  simp only [and_eq_true, decide_eq_true_eq, hprovides, hscope, hready]
  constructor
  · rintro ⟨⟨⟨⟨hid, hother⟩, hscope⟩, hprovided⟩, hready⟩
    exact ⟨hid, hother, hscope, hprovided, hready⟩
  · rintro ⟨hid, hother, hscope, hprovided, hready⟩
    exact ⟨⟨⟨⟨hid, hother⟩, hscope⟩, hprovided⟩, hready⟩

/-- The loop over the models ends with the least candidate. -/
theorem fallback_eq_argmin (router : SingleModelRouter) :
    pickFallbackCandidate router primary (registry.checks requirements) options =
      ((candidates router.models registry primary requirements options).argmin
        (candidateKey ·.info)).map fun entry =>
          { status := .selected
            info := some entry.info
            backend := some entry.backend
            usedFallback := true } := by
  refine congrArg (Option.map _) (foldl_ext _ _ _ fun best entry _ => ?_)
  cases best with
  | none => rfl
  | some b => simp [argAux, betterCandidate_iff]

end Fallback

/-! ## The order of the models -/

theorem argmin_perm {α β : Type} [LinearOrder β] {f : α → β} {l l' : List α} (hperm : l.Perm l')
    (hinj : ∀ a ∈ l, ∀ b ∈ l, f a = f b → a = b) : l.argmin f = l'.argmin f := by
  cases h : l.argmin f with
  | none =>
    obtain rfl := argmin_eq_none.mp h
    rw [← hperm.nil_eq, argmin_nil]
  | some m =>
    have hm := argmin_mem h
    cases h' : l'.argmin f with
    | none =>
      rw [argmin_eq_none.mp h'] at hperm
      simp [hperm.eq_nil] at hm
    | some m' =>
      have hm' := argmin_mem h'
      have hle := le_of_mem_argmin (hperm.mem_iff.mpr hm') h
      have hge := le_of_mem_argmin (hperm.mem_iff.mp hm) h'
      rw [hinj m hm m' (hperm.mem_iff.mpr hm') (le_antisymm hle hge)]

namespace SingleModelRouter

variable {router router' : SingleModelRouter}

theorem eq_of_id_eq (hids : router.ids.Nodup) {a b : Entry} (ha : a ∈ router.models)
    (hb : b ∈ router.models) (h : a.info.id = b.info.id) : a = b :=
  inj_on_of_nodup_map hids ha hb h

theorem find_eq_some_iff (hids : router.ids.Nodup) {id : String} {entry : Entry} :
    router.find id = some entry ↔ entry ∈ router.models ∧ entry.info.id = id := by
  constructor
  · intro h
    exact ⟨mem_of_find?_eq_some h, find_id h⟩
  · rintro ⟨hmem, rfl⟩
    cases h : router.find entry.info.id with
    | none => exact absurd (mem_map_of_mem hmem) (find_eq_none_iff.mp h)
    | some found =>
      rw [eq_of_id_eq hids (mem_of_find?_eq_some h) hmem (find_id h)]

/-- Routers with the same models and the same default model. -/
structure Listed (router router' : SingleModelRouter) : Prop where
  ids : router.ids.Nodup
  models : router.models.Perm router'.models
  default : router'.defaultModelId = router.defaultModelId

section

variable (h : Listed router router')
include h

theorem Listed.find (id : String) : router'.find id = router.find id := by
  have hids' : router'.ids.Nodup := (h.models.map _).nodup_iff.mp h.ids
  ext entry
  rw [find_eq_some_iff h.ids, find_eq_some_iff hids', h.models.mem_iff]

theorem Listed.selectPrimary (requestedModel : String) :
    Router.selectPrimary router' requestedModel = Router.selectPrimary router requestedModel := by
  have hempty : router'.models.isEmpty = router.models.isEmpty := by
    rw [Bool.eq_iff_iff, List.isEmpty_iff, List.isEmpty_iff]
    exact ⟨fun h' => (h' ▸ h.models).eq_nil, fun h' => (h' ▸ h.models).nil_eq.symm⟩
  simp [Router.selectPrimary, resolveExact, resolve, h.find, h.default, hempty]

theorem Listed.pickFallbackCandidate (registry : Registry) (primary : ModelInfo)
    (requirements : BackendFeatureRequirements) (options : ModelSelectionOptions) :
    Router.pickFallbackCandidate router' primary (registry.checks requirements) options =
      Router.pickFallbackCandidate router primary (registry.checks requirements) options := by
  rw [fallback_eq_argmin, fallback_eq_argmin]
  refine congrArg (Option.map _) (argmin_perm (h.models.filter _) ?_).symm
  intro a ha b hb hkey
  have hid : a.info.id = b.info.id :=
    congrArg (fun key : CandidateKey => (ofLex (ofLex key).2).2) hkey
  exact eq_of_id_eq h.ids (mem_of_mem_filter ha) (mem_of_mem_filter hb) hid

theorem Listed.selectModelForRequest (registry : Registry) (requestedModel : String)
    (requirements : BackendFeatureRequirements) (options : ModelSelectionOptions) :
    Router.selectModelForRequest (some router') registry requestedModel requirements options =
      Router.selectModelForRequest (some router) registry requestedModel requirements options := by
  unfold Router.selectModelForRequest
  simp only [h.selectPrimary]
  cases Router.selectPrimary router requestedModel with
  | none => rfl
  | some primary =>
    have hfallback : fallbackOutcome router' registry primary requestedModel requirements options =
        fallbackOutcome router registry primary requestedModel requirements options := by
      funext feature
      unfold fallbackOutcome
      rw [h.pickFallbackCandidate]
    have hbackend : router'.getBackend primary.id = router.getBackend primary.id := by
      unfold getBackend
      rw [h.find]
    dsimp only
    rw [hfallback, hbackend]

end

end SingleModelRouter

/-! ## Who answers a request -/

def NeedsFallback (router : SingleModelRouter) (registry : Registry)
    (requirements : BackendFeatureRequirements) (options : ModelSelectionOptions)
    (primary : ModelInfo) : Prop :=
  ¬ Provides (effectiveCapabilities (registry.features primary)) requirements ∨
    (options.requireReadyBackend ∧ ¬ (router.getBackend primary.id).any registry.isReady)

section Answer

variable {router : SingleModelRouter} {registry : Registry} {requestedModel : String}
  {requirements : BackendFeatureRequirements} {options : ModelSelectionOptions}
  {primary : ModelInfo}

/-- The two ways to answer: the fallback, where one is needed, allowed and found, or the primary
model. -/
inductive Answer (router : SingleModelRouter) (registry : Registry) (requestedModel : String)
    (requirements : BackendFeatureRequirements) (options : ModelSelectionOptions)
    (primary : ModelInfo) (result : ModelSelectionResult) : Prop
  | fallback (needs : NeedsFallback router registry requirements options primary)
      (default : explicitModelRequested requestedModel = false)
      (pick : pickFallbackCandidate router primary (registry.checks requirements) options =
        some result)
  | primary (info : result.info = some primary) (used : result.usedFallback = false)
      (pick : NeedsFallback router registry requirements options primary →
        options.allowCapabilityFallbackForDefault → explicitModelRequested requestedModel = false →
        pickFallbackCandidate router primary (registry.checks requirements) options = none)

variable {result : ModelSelectionResult}

theorem selectBackend_answer
    (h : selectBackend router requestedModel primary (registry.checks requirements) options =
      result) :
    Answer router registry requestedModel requirements options primary result := by
  have hneeds : NeedsFallback router registry requirements options primary ↔
      ((registry.checks requirements).supported primary = false ∨
        (options.requireReadyBackend && !(router.getBackend primary.id).any registry.isReady) =
          true) := by
    rw [NeedsFallback, ← supported_iff_provides]
    simp [Registry.checks, Registry.check]
  have hfallback : ∀ other : ModelSelectionResult, other.info = some primary →
      other.usedFallback = false → NeedsFallback router registry requirements options primary →
      (if options.allowCapabilityFallbackForDefault && !explicitModelRequested requestedModel then
        pickFallbackCandidate router primary (registry.checks requirements) options
      else none).getD other = result →
      Answer router registry requestedModel requirements options primary result := by
    intro other hinfo hused hneed hresult
    split at hresult
    next hallow =>
      cases hpick : pickFallbackCandidate router primary (registry.checks requirements) options with
      | some found =>
        rw [hpick] at hresult
        exact .fallback hneed (by simpa using (and_eq_true_iff.mp hallow).2) (hresult ▸ hpick)
      | none =>
        rw [hpick] at hresult
        exact .primary (hresult ▸ hinfo) (hresult ▸ hused) fun _ _ _ => hpick
    next hallow =>
      refine .primary (hresult ▸ hinfo) (hresult ▸ hused) fun _ hallowed hdefault => ?_
      simp [hallowed, hdefault] at hallow
  unfold selectBackend at h
  dsimp only at h
  cases hsupported : (registry.checks requirements).supported primary with
  | false =>
    rw [hsupported] at h
    exact hfallback _ rfl rfl (hneeds.mpr (.inl hsupported)) h
  | true =>
    rw [hsupported] at h
    cases hready : options.requireReadyBackend &&
        !(router.getBackend primary.id).any registry.isReady with
    | true =>
      rw [if_neg (by decide), show (registry.checks requirements).isReady = registry.isReady from rfl,
        hready] at h
      exact hfallback _ rfl rfl (hneeds.mpr (.inr hready)) h
    | false =>
      rw [if_neg (by decide), show (registry.checks requirements).isReady = registry.isReady from rfl,
        hready] at h
      subst h
      refine .primary rfl rfl fun hneed => ?_
      simp [hneeds, hsupported, hready] at hneed

/-- The fallback is a candidate, and none is preferred to it. -/
theorem pickFallbackCandidate_spec
    (h : pickFallbackCandidate router primary (registry.checks requirements) options =
      some result) :
    ∃ entry ∈ router.models, result.status = .selected ∧ result.usedFallback = true ∧
      result.info = some entry.info ∧ result.backend = some entry.backend ∧
      IsCandidate registry primary requirements options entry ∧
      ∀ other ∈ router.models, IsCandidate registry primary requirements options other →
        candidateKey entry.info ≤ candidateKey other.info := by
  rw [fallback_eq_argmin] at h
  obtain ⟨entry, hmin, rfl⟩ := Option.map_eq_some_iff.mp h
  obtain ⟨hmem, hcandidate⟩ := mem_candidates.mp (argmin_mem hmin)
  refine ⟨entry, hmem, rfl, rfl, rfl, rfl, hcandidate, ?_⟩
  intro other hother hc
  have hle := le_of_mem_argmin (mem_candidates.mpr ⟨hother, hc⟩) (Option.mem_def.mpr hmin)
  exact hle

end Answer

/-- Which model answers a request. The outcome does not depend on the order in which the models
are listed. A request that names a model gets that model or none. A fallback answers only where
the primary model lacks a capability or is not ready; it is a candidate to which no candidate
is preferred; and where one is needed and allowed, it is found whenever there is a candidate. -/
theorem selectModelForRequest_spec (router : SingleModelRouter) (hids : router.ids.Nodup)
    (registry : Registry) (requestedModel : String) (requirements : BackendFeatureRequirements)
    (options : ModelSelectionOptions) (outcome : SelectionOutcome)
    (houtcome : selectModelForRequest (some router) registry requestedModel requirements options =
      outcome) :
    (∀ models' : List Entry, router.models.Perm models' →
      selectModelForRequest (some { router with models := models' }) registry requestedModel
        requirements options = outcome) ∧
    (explicitModelRequested requestedModel → outcome.usedFallback = false ∧
      ∀ info, outcome.info = some info → info.id = requestedModel) ∧
    (outcome.usedFallback = true → ∃ primary, selectPrimary router requestedModel = some primary ∧
      (¬ Provides (effectiveCapabilities (registry.features primary)) requirements ∨
        ¬ (router.getBackend primary.id).any registry.isReady) ∧
      ∃ entry ∈ router.models, outcome.info = some entry.info ∧
        outcome.backend = some entry.backend ∧
        IsCandidate registry primary requirements options entry ∧
        ∀ other ∈ router.models, IsCandidate registry primary requirements options other →
          candidateKey entry.info ≤ candidateKey other.info) ∧
    (∀ primary, selectPrimary router requestedModel = some primary →
      explicitModelRequested requestedModel = false →
      options.allowCapabilityFallbackForDefault →
      NeedsFallback router registry requirements options primary →
      (∃ entry ∈ router.models, IsCandidate registry primary requirements options entry) →
      outcome.usedFallback = true) := by
  refine ⟨fun models' hperm => ?_, ?_⟩
  · have hlisted : router.Listed { router with models := models' } := ⟨hids, hperm, rfl⟩
    rw [← houtcome]
    exact hlisted.selectModelForRequest ..
  cases hprimary : selectPrimary router requestedModel with
  | none =>
    have hnone : outcome = { status := .notFound, reason := "model not found" } := by
      rw [← houtcome]
      simp [selectModelForRequest, hprimary]
    subst hnone
    exact ⟨fun _ => ⟨rfl, by simp⟩, by simp, by simp⟩
  | some primary =>
    have hanswer := selectBackend_answer
      (toModelSelectionResult_select router registry requestedModel requirements options
        hprimary).symm
    rw [houtcome] at hanswer
    obtain ⟨hneeds, hdefault, hpick⟩ | ⟨hinfo, hused, hpick⟩ := hanswer
    · obtain ⟨entry, hmem, -, hused, hinfo, hbackend, hcandidate, hleast⟩ :=
        pickFallbackCandidate_spec hpick
      refine ⟨fun hexplicit => by simp [hexplicit] at hdefault, fun _ => ?_, fun _ _ _ _ _ _ => hused⟩
      refine ⟨primary, rfl, ?_, entry, hmem, hinfo, hbackend, hcandidate, hleast⟩
      exact hneeds.imp id And.right
    · refine ⟨fun hexplicit => ⟨hused, fun info h => ?_⟩, fun h => by simp [hused] at h, ?_⟩
      · obtain rfl : primary = info := Option.some.inj (hinfo.symm.trans h)
        unfold selectPrimary at hprimary
        rw [if_pos hexplicit] at hprimary
        exact resolveExact_id hprimary
      · rintro _ ⟨⟩ hdefault hallow hneeds ⟨entry, hmem, hc⟩
        have hnone := hpick hneeds hallow hdefault
        rw [fallback_eq_argmin, Option.map_eq_none_iff, argmin_eq_none] at hnone
        exact absurd hnone (ne_nil_of_mem (mem_candidates.mpr ⟨hmem, hc⟩))

/-- Two models can take the place of a default model without vision. -/
def visionRouter : SingleModelRouter where
  models :=
    [⟨{ id := "text", backend := "cuda" }, 0⟩, ⟨{ id := "vision-b", backend := "cpu" }, 1⟩,
      ⟨{ id := "vision-a", backend := "cpu" }, 2⟩]
  defaultModelId := "text"

def visionRegistry : Registry where
  features := fun info => { capabilities := { supportsVision := info.id ≠ "text" } }

theorem visionRouter_selects : visionRouter.ids.Nodup ∧
    (selectModelForRequest (some { visionRouter with models := visionRouter.models.reverse })
      visionRegistry "default" { needsVision := true } {}).backend = some 2 := by
  have hids : visionRouter.ids.Nodup := by decide
  refine ⟨hids, ?_⟩
  rw [(selectModelForRequest_spec visionRouter hids visionRegistry "default" { needsVision := true }
    {} _ rfl).1 _ (reverse_perm _).symm]
  decide

end InferFlux.Router
