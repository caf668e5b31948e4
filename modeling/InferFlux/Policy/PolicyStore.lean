import InferFlux.Auth.ApiKeyAuth

/-!
# The policy store

Embeds the contents of `PolicyStore` and its setters from `policy/policy_store.cpp`.
-/

namespace InferFlux.Policy

open InferFlux.Text InferFlux.Auth

structure RoutingPolicyEntry where
  allowDefaultFallback : Bool := true
  requireReadyBackend : Bool := false
  fallbackScope : Bytes := bytes "any_compatible"
  deriving DecidableEq, Repr

/-- The policies; the keys are stored by their digests. -/
structure PolicyStore where
  apiKeys : AList fun _ : Bytes => List Bytes := ∅
  guardrailBlocklist : List Bytes := []
  rateLimitPerMinute : Int := 0
  routingPolicy : Option RoutingPolicyEntry := none

namespace PolicyStore

variable (h : KeyHash) (store : PolicyStore)

def setApiKey (key : Bytes) (scopes : List Bytes) : PolicyStore :=
  { store with apiKeys := store.apiKeys.insert (h.hash key) scopes }

def removeApiKey (key : Bytes) : PolicyStore :=
  { store with apiKeys := store.apiKeys.erase (h.hash key) }

def setGuardrailBlocklist (blocklist : List Bytes) : PolicyStore :=
  { store with guardrailBlocklist := blocklist }

def setRateLimitPerMinute (limit : Int) : PolicyStore :=
  { store with rateLimitPerMinute := limit }

def setRoutingPolicy (policy : RoutingPolicyEntry) : PolicyStore :=
  { store with routingPolicy := some policy }

theorem lookup_setApiKey (key hash : Bytes) (scopes : List Bytes) :
    (store.setApiKey h key scopes).apiKeys.lookup hash =
      if hash = h.hash key then some scopes else store.apiKeys.lookup hash := by
  by_cases hkey : hash = h.hash key
  · subst hkey
    simp [setApiKey]
  · simp [setApiKey, hkey]

theorem lookup_removeApiKey (key hash : Bytes) :
    (store.removeApiKey h key).apiKeys.lookup hash =
      if hash = h.hash key then none else store.apiKeys.lookup hash := by
  by_cases hkey : hash = h.hash key
  · subst hkey
    simp [removeApiKey]
  · simp [removeApiKey, hkey]

end PolicyStore

end InferFlux.Policy
