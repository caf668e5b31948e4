import InferFlux.Policy.PolicyStore

/-!
# Changes of API keys

Embeds `HttpServer::ApplyApiKeyMutation` with the handlers of `POST` and `DELETE` for
`/v1/admin/api_keys` from `server/http/http_server.cpp`, and how `main` fills the key
authentication and the policy store. Whether the store can be saved is given with the request.
-/

namespace InferFlux.Policy

open InferFlux.Text InferFlux.Auth

structure KeyState where
  auth : ApiKeyAuth := {}
  store : PolicyStore := {}

/-- `ApplyApiKeyMutation`; `saved` is what `Save` returns. -/
def applyApiKeyMutation (keyHash : Bytes) (apply : KeyState → KeyState)
    (rollback : Option (List Bytes) → KeyState → KeyState) (saved : Bool) (s : KeyState) :
    Bool × KeyState :=
  let previousScopes := s.store.apiKeys.lookup keyHash
  if saved then (true, apply s) else (false, rollback previousScopes (apply s))

inductive KeyRequest where
  | upsert (key : Bytes) (scopes : List Bytes)
  | delete (key : Bytes)

def KeyRequest.key : KeyRequest → Bytes
  | upsert key _ => key
  | delete key => key

/-- The handlers of the key requests: whether the change was persisted, and the state. -/
def KeyRequest.handle (h : KeyHash) (saved : Bool) (s : KeyState) : KeyRequest → Bool × KeyState
  | upsert key scopes =>
    applyApiKeyMutation (h.hash key)
      (fun s => ⟨s.auth.addKey h key scopes, s.store.setApiKey h key scopes⟩)
      (fun previous s =>
        match previous with
        | some scopes => ⟨s.auth.addKeyHashed (h.hash key) scopes, s.store.setApiKey h key scopes⟩
        | none => ⟨s.auth.removeKey h key, s.store.removeApiKey h key⟩)
      saved s
  | delete key =>
    applyApiKeyMutation (h.hash key)
      (fun s => ⟨s.auth.removeKey h key, s.store.removeApiKey h key⟩)
      (fun previous s =>
        match previous with
        | some scopes => ⟨s.auth.addKeyHashed (h.hash key) scopes, s.store.setApiKey h key scopes⟩
        | none => s)
      saved s

structure KeySources where
  configKeys : List (Bytes × List Bytes) := []
  /-- The keys of `INFERFLUX_API_KEYS`. -/
  envKeys : List Bytes := []
  /-- The key of `INFERCTL_API_KEY`. -/
  inferctlKey : Option Bytes := none
  /-- The policy store, as it was loaded. -/
  loaded : PolicyStore := {}

/-- The key handling of `main`. Without stored keys, those of the configuration are put into
the store. -/
def startup (h : KeyHash) (sources : KeySources) : KeyState :=
  let auth := sources.configKeys.foldl (fun auth entry => auth.addKey h entry.1 entry.2) {}
  let auth := sources.envKeys.foldl (fun auth key => auth.addKey h key []) auth
  let auth := match sources.inferctlKey with
    | some key => auth.addKey h key [bytes "generate", bytes "read", bytes "admin"]
    | none => auth
  let auth := sources.loaded.apiKeys.entries.foldl
    (fun auth entry => auth.addKeyHashed entry.1 entry.2) auth
  if sources.loaded.apiKeys.entries.isEmpty then
    sources.configKeys.foldl
      (fun s entry => ⟨s.auth.addKey h entry.1 entry.2, s.store.setApiKey h entry.1 entry.2⟩)
      ⟨auth, sources.loaded⟩
  else ⟨auth, sources.loaded⟩

def Unchanged (s t : KeyState) : Prop :=
  ∀ hash, t.auth.scopesByHash hash = s.auth.scopesByHash hash ∧
    t.store.apiKeys.lookup hash = s.store.apiKeys.lookup hash

section

variable (h : KeyHash) (s : KeyState)

/-- After a failed request the store is as before, and the authentication grants to the key
what the store says; the other keys have not changed. -/
theorem lookup_handle_failed (request : KeyRequest) (hash : Bytes) :
    (request.handle h false s).2.store.apiKeys.lookup hash = s.store.apiKeys.lookup hash ∧
      (request.handle h false s).2.auth.scopesByHash hash =
        if hash = h.hash request.key then
          (s.store.apiKeys.lookup (h.hash request.key)).map grantedScopes
        else s.auth.scopesByHash hash := by
  -- By whether this is the key, and what the store had under it.
  by_cases hkey : hash = h.hash request.key
  · subst hkey
    cases request <;> simp only [KeyRequest.key] <;>
      cases hprevious : s.store.apiKeys.lookup (h.hash _) <;>
      simp [KeyRequest.handle, applyApiKeyMutation, ApiKeyAuth.scopesByHash_addKeyHashed,
        ApiKeyAuth.scopesByHash_removeKey, PolicyStore.lookup_setApiKey,
        PolicyStore.lookup_removeApiKey, hprevious]
  · cases request <;> simp only [KeyRequest.key] at hkey ⊢ <;>
      cases hprevious : s.store.apiKeys.lookup (h.hash _) <;>
      simp [KeyRequest.handle, applyApiKeyMutation, ApiKeyAuth.addKey,
        ApiKeyAuth.scopesByHash_addKeyHashed, ApiKeyAuth.scopesByHash_removeKey,
        PolicyStore.lookup_setApiKey, PolicyStore.lookup_removeApiKey, hprevious, hkey]

end

/-- A request that cannot be persisted changes nothing, exactly if the authentication grants to
its key what the store says about it. -/
theorem failed_mutation_unchanged_iff (h : KeyHash) (s : KeyState) (request : KeyRequest) :
    Unchanged s (request.handle h false s).2 ↔
      s.auth.scopesByHash (h.hash request.key) =
        (s.store.apiKeys.lookup (h.hash request.key)).map grantedScopes := by
  constructor
  · intro hsame
    have hauth := (hsame (h.hash request.key)).1
    rw [(lookup_handle_failed h s request _).2, if_pos rfl] at hauth
    exact hauth.symm
  · intro hsync hash
    obtain ⟨hstore, hauth⟩ := lookup_handle_failed h s request hash
    refine ⟨?_, hstore⟩
    rw [hauth]
    split_ifs with hkey
    · rw [hkey, hsync]
    · rfl

/-- A key that comes from the environment is not in the store. When a change of its scopes
cannot be persisted, it is gone. -/
theorem env_key_lost_on_failed_upsert :
    let s := startup parityHash { inferctlKey := some (bytes "k") }
    s.auth.scopesByHash (parityHash.hash (bytes "k")) =
        some {bytes "generate", bytes "read", bytes "admin"} ∧
      ((KeyRequest.upsert (bytes "k") []).handle parityHash false s).1 = false ∧
      ((KeyRequest.upsert (bytes "k") []).handle parityHash false s).2.auth.scopesByHash
        (parityHash.hash (bytes "k")) = none := by
  decide

end InferFlux.Policy
