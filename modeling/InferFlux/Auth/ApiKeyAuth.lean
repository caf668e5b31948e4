import InferFlux.Http.HeaderBlock
import Mathlib.Data.Finset.Basic
import Mathlib.Data.List.AList

/-!
# API keys

Embeds `ApiKeyAuth` from `server/auth/api_key_auth.cpp`, `ExtractBearerToken` from
`server/http/http_utils.h`, and `HttpServer::ResolveSubject` without OIDC from
`server/http/http_server.cpp`. The digest of the keys is a parameter.
-/

namespace InferFlux.Auth

open InferFlux.Text InferFlux.Http

def isHexDigit (c : UInt8) : Bool := isDigit c || (c ≥ 97 && c ≤ 102)

/-- `ApiKeyAuth::HashKey`: a digest of 32 bytes, in hexadecimal. -/
structure KeyHash where
  hash : Bytes → Bytes
  length_hash : ∀ key, (hash key).length = 64
  hex_hash : ∀ key, (hash key).all isHexDigit = true

abbrev Scopes := Finset Bytes

def makeScopes (scopes : List Bytes) : Scopes :=
  if scopes.isEmpty then {bytes "generate", bytes "read"}
  else (scopes.filter fun scope => !scope.isEmpty).toFinset

def grantedScopes (scopes : List Bytes) : Scopes := insert (bytes "read") (makeScopes scopes)

structure ApiKeyAuth where
  keys : AList fun _ : Bytes => Scopes := ∅

namespace ApiKeyAuth

variable (h : KeyHash) (auth : ApiKeyAuth)

def addKeyHashed (hash : Bytes) (scopes : List Bytes) : ApiKeyAuth where
  keys := auth.keys.insert hash (grantedScopes scopes)

def addKey (key : Bytes) (scopes : List Bytes) : ApiKeyAuth := auth.addKeyHashed (h.hash key) scopes

def removeKey (key : Bytes) : ApiKeyAuth where
  keys := auth.keys.erase (h.hash key)

def hasKeys : Bool := !auth.keys.entries.isEmpty

def scopesByHash (hash : Bytes) : Option Scopes := auth.keys.lookup hash

theorem scopesByHash_addKeyHashed (hash hash' : Bytes) (scopes : List Bytes) :
    (auth.addKeyHashed hash scopes).scopesByHash hash' =
      if hash' = hash then some (grantedScopes scopes) else auth.scopesByHash hash' := by
  by_cases hkey : hash' = hash
  · subst hkey
    simp [addKeyHashed, scopesByHash]
  · simp [addKeyHashed, scopesByHash, hkey]

theorem scopesByHash_removeKey (key hash : Bytes) :
    (auth.removeKey h key).scopesByHash hash =
      if hash = h.hash key then none else auth.scopesByHash hash := by
  by_cases hkey : hash = h.hash key
  · subst hkey
    simp [removeKey, scopesByHash]
  · simp [removeKey, scopesByHash, hkey]

end ApiKeyAuth

def extractBearerToken (headers : Bytes) : Bytes :=
  let value := (getHeaderValue headers (bytes "authorization")).dropWhile isBlank
  let scheme := value.takeWhile fun c => !isBlank c
  if scheme.map toLower = bytes "bearer" then (value.drop scheme.length).dropWhile isBlank else []

structure AuthContext where
  subject : Bytes
  scopes : Scopes
  deriving DecidableEq

def subjectFromHash (hash : Bytes) : Bytes := bytes "api-key:" ++ hash

/-- What a request may do; `none` if it is rejected. -/
def resolveSubject (h : KeyHash) (auth : ApiKeyAuth) (headers : Bytes) : Option AuthContext :=
  if !auth.hasKeys then some ⟨bytes "anonymous", {bytes "read", bytes "generate"}⟩
  else
    let token := extractBearerToken headers
    if token.isEmpty then none
    else
      let hash := h.hash token
      (auth.scopesByHash hash).map fun scopes => ⟨subjectFromHash hash, scopes⟩

def NoMoreAccess (before after : Option AuthContext) : Prop :=
  ∀ ctx', after = some ctx' → ∃ ctx, before = some ctx ∧ ctx'.scopes ⊆ ctx.scopes

section

variable {h : KeyHash} {auth : ApiKeyAuth} {key headers : Bytes}

theorem resolveSubject_of_keys (hkeys : auth.hasKeys = true) :
    resolveSubject h auth headers =
      if (extractBearerToken headers).isEmpty then none
      else (auth.scopesByHash (h.hash (extractBearerToken headers))).map fun scopes =>
        ⟨subjectFromHash (h.hash (extractBearerToken headers)), scopes⟩ := by
  simp [resolveSubject, hkeys]

theorem resolveSubject_of_no_keys (hkeys : auth.hasKeys = false) :
    resolveSubject h auth headers = some ⟨bytes "anonymous", {bytes "read", bytes "generate"}⟩ := by
  simp [resolveSubject, hkeys]

theorem hasKeys_iff : auth.hasKeys = true ↔ ∃ hash, hash ∈ auth.keys := by
  simp only [AList.mem_keys, AList.keys]
  cases hentries : auth.keys.entries with
  | nil => simp [ApiKeyAuth.hasKeys, hentries]
  | cons entry entries =>
    simp only [ApiKeyAuth.hasKeys, hentries, List.isEmpty_cons, Bool.not_false, true_iff]
    exact ⟨entry.1, by simp⟩

/-- A key is left exactly if there is another one. -/
theorem hasKeys_removeKey_iff :
    (auth.removeKey h key).hasKeys = true ↔ ∃ hash ∈ auth.keys, hash ≠ h.hash key := by
  rw [hasKeys_iff]
  simp only [ApiKeyAuth.removeKey, AList.mem_erase]
  constructor
  · rintro ⟨hash, hne, hin⟩
    exact ⟨hash, hin, hne⟩
  · rintro ⟨hash, hin, hne⟩
    exact ⟨hash, hne, hin⟩

end

/-- Removing a key gives no request more access, exactly if there was no key at all or another
key is left. -/
theorem revocation_monotone_iff (h : KeyHash) (auth : ApiKeyAuth) (key : Bytes) :
    (∀ headers, NoMoreAccess (resolveSubject h auth headers)
        (resolveSubject h (auth.removeKey h key) headers)) ↔
      auth.hasKeys = false ∨ ∃ hash ∈ auth.keys, hash ≠ h.hash key := by
  rw [← hasKeys_removeKey_iff]
  constructor
  · -- Without a token, a request is rejected as long as there are keys.
    intro hmono
    by_contra hlast
    simp only [not_or, Bool.not_eq_false, Bool.not_eq_true] at hlast
    obtain ⟨ctx, hbefore, -⟩ := hmono [] _ (resolveSubject_of_no_keys hlast.2)
    rw [resolveSubject_of_keys hlast.1] at hbefore
    cases hbefore
  · rintro hkeys headers ctx' hafter
    cases hleft : (auth.removeKey h key).hasKeys with
    | false =>
      rw [hleft] at hkeys
      have hnone : auth.hasKeys = false := by simpa using hkeys
      rw [resolveSubject_of_no_keys hleft, Option.some.injEq] at hafter
      exact ⟨_, resolveSubject_of_no_keys hnone, by rw [← hafter]⟩
    | true =>
      have hbefore : auth.hasKeys = true := by
        obtain ⟨hash, hin, -⟩ := hasKeys_removeKey_iff.mp hleft
        exact hasKeys_iff.mpr ⟨hash, hin⟩
      rw [resolveSubject_of_keys hleft] at hafter
      rw [resolveSubject_of_keys hbefore]
      split_ifs at hafter ⊢ with htoken
      obtain ⟨scopes, hfind, rfl⟩ := Option.map_eq_some_iff.mp hafter
      rw [ApiKeyAuth.scopesByHash_removeKey] at hfind
      split_ifs at hfind
      exact ⟨_, by rw [hfind]; rfl, Finset.Subset.refl _⟩

/-- A digest that distinguishes some keys, for examples. -/
def parityHash : KeyHash where
  hash key :=
    ((key.map fun c : UInt8 => if c % 2 = 0 then (48 : UInt8) else 49) ++ List.replicate 64 48).take 64
  length_hash key := by simp
  hex_hash key := by
    rw [List.all_eq_true]
    intro c hc
    obtain hc | hc := List.mem_append.mp (List.mem_of_mem_take hc)
    · obtain ⟨d, -, rfl⟩ := List.mem_map.mp hc
      split <;> decide
    · rw [(List.mem_replicate.mp hc).2]
      decide

/-- When the only key is removed, a request without credentials is no longer rejected. -/
theorem last_key_removal_opens :
    let auth := ({} : ApiKeyAuth).addKey parityHash (bytes "k") []
    resolveSubject parityHash auth [] = none ∧
      resolveSubject parityHash (auth.removeKey parityHash (bytes "k")) [] =
        some ⟨bytes "anonymous", {bytes "read", bytes "generate"}⟩ := by
  decide

end InferFlux.Auth
