import InferFlux.Policy.PlainText
import InferFlux.Policy.SaveProtocol

/-!
# The round trip of the policy store

A store that is filled by the setters of `PolicyStore` is saved, and loaded into a fresh store.
The scopes, the words and the fallback scope are written as they are, though commas, line breaks
and blanks around them mean something to the reader. So what is loaded is what was saved exactly
if none of them contains these, and none is empty where that means something else
(`loaded_same_iff`).
-/

namespace InferFlux.Policy

open InferFlux.Text InferFlux.Http InferFlux.Auth Delimited PolicyStore List

inductive Setter where
  | apiKey (key : Bytes) (scopes : List Bytes)
  | guardrailBlocklist (blocklist : List Bytes)
  | rateLimitPerMinute (limit : Int) (isInt : - 2 ^ 31 ≤ limit ∧ limit < 2 ^ 31)
  | routingPolicy (policy : RoutingPolicyEntry)

namespace PolicyStore

def set (h : KeyHash) (store : PolicyStore) : Setter → PolicyStore
  | .apiKey key scopes => store.setApiKey h key scopes
  | .guardrailBlocklist blocklist => store.setGuardrailBlocklist blocklist
  | .rateLimitPerMinute limit _ => store.setRateLimitPerMinute limit
  | .routingPolicy policy => store.setRoutingPolicy policy

def filled (h : KeyHash) (setters : List Setter) : PolicyStore := setters.foldl (set h) {}

end PolicyStore

variable {h : KeyHash} {store : PolicyStore}

theorem Regular.set (hregular : Regular store) (setter : Setter) :
    Regular (store.set h setter) := by
  cases setter with
  | apiKey key scopes =>
    refine ⟨?_, hregular.rateLimit⟩
    intro hash hin
    obtain rfl | hin := (AList.mem_insert _).mp hin
    · refine ⟨ne_nil_of_length_pos (by simp [h.length_hash]), ?_⟩
      exact all_eq_true.mp (h.hex_hash key)
    · exact hregular.keys hash hin
  | guardrailBlocklist blocklist | routingPolicy policy => exact ⟨hregular.keys, hregular.rateLimit⟩
  | rateLimitPerMinute limit isInt => exact ⟨hregular.keys, isInt⟩

theorem regular_filled (h : KeyHash) (setters : List Setter) : Regular (filled h setters) := by
  have hrun : ∀ store, Regular store → Regular (setters.foldl (set h) store) := by
    induction setters with
    | nil => exact fun _ hstore => hstore
    | cons setter setters ih => exact fun _ hstore => ih _ (hstore.set setter)
  exact hrun {} ⟨by simp, by decide⟩

/-- Two stores say the same: they have the same keys, to which `AddKeyHashed` grants the same
scopes, and otherwise the same policies. -/
structure SamePolicies (loaded store : PolicyStore) : Prop where
  scopes : ∀ hash, (loaded.apiKeys.lookup hash).map grantedScopes =
    (store.apiKeys.lookup hash).map grantedScopes
  words : loaded.guardrailBlocklist = store.guardrailBlocklist
  rateLimit : loaded.rateLimitPerMinute = store.rateLimitPerMinute
  routing : loaded.routingPolicy = store.routingPolicy

/-- The scopes, the words and the fallback scope can be written to the file. -/
structure Writable (store : PolicyStore) : Prop where
  scopes : ∀ hash scopes, store.apiKeys.lookup hash = some scopes →
    (∀ scope ∈ scopes, scope ≠ [] → CleanItem scope) ∧ (scopes = [] ∨ ∃ scope ∈ scopes, scope ≠ [])
  words : ∀ word ∈ store.guardrailBlocklist, CleanItem word
  fallback : ∀ policy, store.routingPolicy = some policy →
    CleanLine policy.fallbackScope ∧ policy.fallbackScope ≠ []

theorem Writable.legible (hwritable : Writable store) : Legible store where
  scopes hash scopes hlookup := (hwritable.scopes hash scopes hlookup).1
  words word hword _ := hwritable.words word hword
  fallback policy hpolicy := (hwritable.fallback policy hpolicy).1

/-- Without its empty scopes, a key is granted the same, unless it had nothing but empty scopes,
and is now granted the default. -/
theorem grantedScopes_filter_iff (scopes : List Bytes) :
    grantedScopes (scopes.filter fun scope => !scope.isEmpty) = grantedScopes scopes ↔
      scopes = [] ∨ ∃ scope ∈ scopes, scope ≠ [] := by
  by_cases hempty : scopes = []
  · simp [hempty]
  · simp only [hempty, false_or]
    constructor
    · intro heq
      by_contra hnone
      have hfilter : (scopes.filter fun scope => !scope.isEmpty) = [] := by
        simpa [filter_eq_nil_iff] using hnone
      have hgenerate : bytes "generate" ∈ grantedScopes scopes := by
        rw [← heq, hfilter]
        decide
      simp only [grantedScopes, makeScopes, List.isEmpty_iff, hempty, hfilter, if_false,
        List.toFinset_nil, Finset.mem_insert, Finset.notMem_empty, or_false] at hgenerate
      cases hgenerate
    · rintro ⟨scope, hin, hne⟩
      have hfilter : (scopes.filter fun scope => !scope.isEmpty) ≠ [] := by
        apply ne_nil_of_mem (a := scope)
        simp [hin, hne]
      simp [grantedScopes, makeScopes, List.isEmpty_iff, hempty, hfilter, List.filter_filter]

theorem lookup_readBack (store : PolicyStore) (hash : Bytes) :
    store.readBack.apiKeys.lookup hash =
      (store.apiKeys.lookup hash).map fun scopes => scopes.filter fun scope => !scope.isEmpty := by
  rw [readBack, ParseState.lookup_insertKeys store.apiKeys.nodupKeys]
  simp [AList.lookup]

/-- What is read back of a legible store says the same, exactly if nothing is empty where that
means something else. -/
theorem samePolicies_readBack_iff (hlegible : Legible store) :
    SamePolicies store.readBack store ↔ Writable store := by
  constructor
  · intro hsame
    refine ⟨?_, ?_, ?_⟩
    · intro hash scopes hlookup
      refine ⟨hlegible.scopes hash scopes hlookup, (grantedScopes_filter_iff scopes).mp ?_⟩
      simpa [lookup_readBack, hlookup] using hsame.scopes hash
    · intro word hword
      have hne := filter_eq_self.mp hsame.words word hword
      exact hlegible.words word hword (by simpa using hne)
    · intro policy hpolicy
      refine ⟨hlegible.fallback policy hpolicy, ?_⟩
      intro hempty
      have hrouting := hsame.routing
      simp only [readBack, hpolicy, Option.map_some, Option.some.injEq] at hrouting
      have hdefault : bytes "any_compatible" = [] := by
        simpa [hempty] using congrArg RoutingPolicyEntry.fallbackScope hrouting
      cases hdefault
  · intro hwritable
    refine ⟨?_, ?_, rfl, ?_⟩
    · intro hash
      rw [lookup_readBack]
      cases hlookup : store.apiKeys.lookup hash with
      | none => rfl
      | some scopes =>
        simpa using (grantedScopes_filter_iff scopes).mpr (hwritable.scopes hash scopes hlookup).2
    · exact filter_eq_self.mpr fun word hword => by
        simpa using (hwritable.words word hword).item.ne_nil
    · cases hpolicy : store.routingPolicy with
      | none => simp [readBack, hpolicy]
      | some policy => simp [readBack, hpolicy, (hwritable.fallback policy hpolicy).2]

variable {scopes : List Bytes} {scope : Bytes}

theorem cleanItem_of_mem_grantedScopes (hscopes : ∀ scope ∈ scopes, CleanItem scope)
    (hin : scope ∈ grantedScopes scopes) : CleanItem scope := by
  have hread : CleanItem (bytes "read") := ⟨⟨by decide, by decide, by decide⟩, by decide⟩
  have hgenerate : CleanItem (bytes "generate") := ⟨⟨by decide, by decide, by decide⟩, by decide⟩
  simp only [grantedScopes, makeScopes, Finset.mem_insert] at hin
  obtain rfl | hin := hin
  · exact hread
  · split_ifs at hin
    · obtain rfl | rfl := by simpa using hin
      · exact hgenerate
      · exact hread
    · simp only [mem_toFinset, mem_filter] at hin
      exact hscopes scope hin.1

theorem mem_grantedScopes (hin : scope ∈ scopes) (hne : scope ≠ []) :
    scope ∈ grantedScopes scopes := by
  simp [grantedScopes, makeScopes, ne_nil_of_mem hin, hin, hne]

/-- Whatever the text is, a store that says the same as what is read from it is legible. -/
theorem legible_of_samePolicies {text : Bytes} (hsame : SamePolicies (parsePlaintext text) store) :
    Legible store := by
  have hclean := ParseState.clean_empty.read text
  refine ⟨?_, ?_, ?_⟩
  · intro hash scopes hlookup scope hin hne
    have hscopes := hsame.scopes hash
    rw [hlookup, Option.map_some, Option.map_eq_some_iff] at hscopes
    obtain ⟨loaded, hloaded, hgranted⟩ := hscopes
    apply cleanItem_of_mem_grantedScopes (hclean.scopes hash loaded hloaded)
    rw [hgranted]
    exact mem_grantedScopes hin hne
  · intro word hword _
    rw [← hsame.words] at hword
    exact hclean.words word hword
  · intro policy hpolicy
    have hrouting := hsame.routing
    rw [hpolicy] at hrouting
    change (if _ then some (ParseState.read {} text).routing else none) = _ at hrouting
    split_ifs at hrouting
    cases hrouting
    exact hclean.fallback.1

/-- For every store filled by its setters, with or without encryption: when a save reports
success, a fresh store loads what was saved, exactly if the store can be written to the file. -/
theorem loaded_same_iff (h : KeyHash) (setters : List Setter) {cipher : Option Cipher}
    {nonce : Option Nonce} {files files' : Files} {outcomes : List Bool}
    (hsaved : save cipher nonce (PolicyStore.filled h setters) files outcomes =
      (.returned true, files')) :
    (∃ loaded, load cipher files' = some loaded ∧
        SamePolicies loaded (PolicyStore.filled h setters)) ↔
      Writable (PolicyStore.filled h setters) := by
  have hregular := regular_filled h setters
  have hload := load_of_saved hsaved
  constructor
  · rintro ⟨loaded, hloaded, hsame⟩
    obtain rfl : parsePlaintext _ = loaded := by simpa [hload] using hloaded
    have hlegible := legible_of_samePolicies hsame
    rw [parsePlaintext_of_legible hregular hlegible] at hsame
    exact (samePolicies_readBack_iff hlegible).mp hsame
  · intro hwritable
    refine ⟨_, hload, ?_⟩
    rw [parsePlaintext_of_legible hregular hwritable.legible]
    exact (samePolicies_readBack_iff hwritable.legible).mpr hwritable

/-- A key with the scope of an administrator, and a word of the guardrail. -/
theorem loaded_same_admin_key :
    let setters : List Setter :=
      [.apiKey (bytes "k") [bytes "admin"], .guardrailBlocklist [bytes "secret"]]
    let saved := save none none (PolicyStore.filled parityHash setters) {} [true, true, true, true]
    saved.1 = .returned true ∧ ∃ loaded, load none saved.2 = some loaded ∧
      SamePolicies loaded (PolicyStore.filled parityHash setters) := by
  intro setters saved
  have hsaved : save none none (PolicyStore.filled parityHash setters) {} [true, true, true, true] =
      (.returned true, saved.2) := rfl
  refine ⟨rfl, (loaded_same_iff parityHash setters hsaved).mpr ⟨?_, ?_, ?_⟩⟩
  · intro hash scopes hlookup
    change (PolicyStore.setApiKey parityHash {} (bytes "k") [bytes "admin"]).apiKeys.lookup hash =
      some scopes at hlookup
    rw [PolicyStore.lookup_setApiKey] at hlookup
    obtain rfl : [bytes "admin"] = scopes := by
      split_ifs at hlookup
      · exact Option.some.inj hlookup
      · simp at hlookup
    simp only [List.mem_singleton, forall_eq, exists_eq_left]
    exact ⟨fun _ => ⟨⟨by decide, by decide, by decide⟩, by decide⟩, .inr (by decide)⟩
  · intro word hword
    obtain rfl : word = bytes "secret" := List.mem_singleton.mp hword
    exact ⟨⟨by decide, by decide, by decide⟩, by decide⟩
  · intro policy hpolicy
    cases hpolicy

/-- A scope with a comma in it is two scopes after the round trip, and one of them is that of an
administrator. -/
theorem comma_in_scope_grants_admin :
    let store := PolicyStore.filled parityHash [.apiKey (bytes "k") [bytes "x,admin"]]
    let saved := save none none store {} [true, true, true, true]
    let hash := parityHash.hash (bytes "k")
    saved.1 = .returned true ∧
      (store.apiKeys.lookup hash).map grantedScopes = some {bytes "read", bytes "x,admin"} ∧
      (load none saved.2).map (fun loaded => (loaded.apiKeys.lookup hash).map grantedScopes) =
        some (some {bytes "read", bytes "x", bytes "admin"}) := by
  decide

end InferFlux.Policy
