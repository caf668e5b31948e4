import InferFlux.Policy.FileContents

/-!
# Reading the plain text of the policy store

What `Load` makes of the lines that `Save` writes, as long as the values do not contain what
separates them (`parsePlaintext_of_legible`), and what the values look like that it makes of any
text at all (`ParseState.Clean.read`).
-/

namespace InferFlux.Policy

open InferFlux.Text InferFlux.Http InferFlux.Auth Delimited PolicyStore List ParseState

/-- A scope or a word that can stand in a list: not empty, without commas, line breaks, and
blanks around it. -/
structure CleanItem (value : Bytes) : Prop where
  item : Item 44 isTrailingBlank value
  unbroken : 10 ∉ value

structure CleanLine (value : Bytes) : Prop where
  stripped : Stripped isTrailingBlank value
  unbroken : 10 ∉ value

/-! ## Lines -/

namespace ParseState

variable {p : ParseState} {line key value rest : Bytes}

def read (p : ParseState) (text : Bytes) : ParseState := (getLines 10 text).foldl readLine p

theorem read_line (h : 10 ∉ line) : p.read (line ++ 10 :: rest) = (p.readLine line).read rest := by
  rw [read, getLines, pieces_append_sep h]
  rfl

theorem readLine_section (name : Bytes) :
    p.readLine (91 :: (name ++ [93])) = { p with sectionName := name } := by
  have hlast : (91 :: (name ++ [93])).getLast? = some 93 := getLast?_concat (l := 91 :: name)
  have htrim : trim (91 :: (name ++ [93])) = 91 :: (name ++ [93]) := by
    apply trim_eq_self
    refine ⟨?_, ?_⟩
    · intro c hc
      obtain rfl : 91 = c := by simpa using hc
      decide
    · intro c hc
      obtain rfl : 93 = c := by simpa [hlast] using hc
      decide
  simp only [readLine, htrim, hlast]
  simp

def IsKey (key : Bytes) : Prop :=
  Stripped isTrailingBlank key ∧ 10 ∉ key ∧ 61 ∉ key ∧ key ≠ [] ∧
    key.head? ≠ some 35 ∧ key.head? ≠ some 91

instance : Decidable (IsKey key) := inferInstanceAs (Decidable (_ ∧ _))

theorem readLine_assign (hkey : IsKey key) (hvalue : CleanLine value) :
    p.readLine (key ++ 61 :: value) = p.assign key value := by
  obtain ⟨hstripped, -, hsep, hne, hcomment, hbracket⟩ := hkey
  have htrim : trim (key ++ 61 :: value) = key ++ 61 :: value :=
    trim_eq_self (hstripped.append_cons hvalue.stripped (by decide))
  have hfirst : (key ++ 61 :: value).head? = key.head? := by
    cases key <;> simp at hne ⊢
  simp [readLine, htrim, hfirst, hcomment, hbracket, hne, findIdx?_append_sep hsep,
    trim_eq_self hstripped, trim_eq_self hvalue.stripped]

theorem read_blank : p.read (10 :: rest) = p.read rest := rfl

theorem read_section {name : Bytes} (h : 10 ∉ name) :
    p.read (91 :: (name ++ 93 :: 10 :: rest)) = { p with sectionName := name }.read rest := by
  have hline : 10 ∉ 91 :: (name ++ [93]) := by simp [h]
  have hread := @read_line p _ rest hline
  rw [readLine_section] at hread
  simpa using hread

theorem read_assign (hkey : IsKey key) (hvalue : CleanLine value) :
    p.read (key ++ 61 :: (value ++ 10 :: rest)) = (p.assign key value).read rest := by
  have hline : 10 ∉ key ++ 61 :: value := by simp [hkey.2.1, hvalue.unbroken]
  have hread := @read_line p _ rest hline
  rw [readLine_assign hkey hvalue] at hread
  simpa using hread

end ParseState

/-! ## Values -/

section

variable {values : List Bytes}

theorem splitCSV_joinCSV (h : ∀ value ∈ values, value ≠ [] → CleanItem value) :
    splitCSV (joinCSV values) = values.filter fun value => !value.isEmpty :=
  items_intercalate fun value hvalue hne => (h value hvalue hne).item

theorem cleanLine_joinCSV (h : ∀ value ∈ values, value ≠ [] → CleanItem value) :
    CleanLine (joinCSV values) where
  stripped := stripped_intercalate (by decide) fun value hvalue =>
    (Item.of_ne_nil fun hne => (h value hvalue hne).item).2
  unbroken := by
    intro hnewline
    obtain hcomma | ⟨value, hvalue, hin⟩ := mem_intercalate hnewline
    · cases hcomma
    · exact (h value hvalue (ne_nil_of_mem hin)).unbroken hin

theorem cleanLine_of_isDigit {text : Bytes} (h : ∀ c ∈ text, isDigit c = true ∨ c = 45) :
    CleanLine text := by
  have hhex : ∀ c ∈ text, isTrailingBlank c = false ∧ c ≠ 10 := by
    intro c hc
    obtain hdigit | rfl := h c hc
    · exact not_blank_of_isHexDigit (by simp [isHexDigit, hdigit])
    · decide
  exact ⟨stripped_of_forall fun c hc => (hhex c hc).1, fun hc => (hhex 10 hc).2 rfl⟩

theorem cleanLine_printInt (n : Int) : CleanLine (printInt n) := by
  apply cleanLine_of_isDigit
  intro c hc
  rw [printInt] at hc
  split_ifs at hc with hneg
  · obtain rfl | hc := mem_cons.mp hc
    · exact .inr rfl
    · exact .inl (isDigit_of_mem_toDecimal hc)
  · exact .inl (isDigit_of_mem_toDecimal hc)

theorem stoi_printInt {n : Int} (hlow : - 2 ^ 31 ≤ n) (hhigh : n < 2 ^ 31) :
    stoi (printInt n) = .ok n := by
  rw [printInt]
  split_ifs with hneg
  · rw [stoi_neg_toDecimal (by omega)]
    congr
    omega
  · rw [stoi_toDecimal (by omega)]
    congr
    omega

theorem parseBoolValue_printBool (b : Bool) : parseBoolValue (printBool b) = some b := by
  cases b <;> decide

theorem cleanLine_printBool (b : Bool) : CleanLine (printBool b) := by
  cases b <;> exact ⟨by decide, by decide⟩

end

/-! ## Written stores -/

/-- What every store that is filled by the setters has: its keys are digests, and its rate limit
is an `int`. -/
structure Regular (store : PolicyStore) : Prop where
  keys : ∀ hash ∈ store.apiKeys, hash ≠ [] ∧ ∀ c ∈ hash, isHexDigit c = true
  rateLimit : - 2 ^ 31 ≤ store.rateLimitPerMinute ∧ store.rateLimitPerMinute < 2 ^ 31

/-- No value of the store contains what separates the values in the file. -/
structure Legible (store : PolicyStore) : Prop where
  scopes : ∀ hash scopes, store.apiKeys.lookup hash = some scopes →
    ∀ scope ∈ scopes, scope ≠ [] → CleanItem scope
  words : ∀ word ∈ store.guardrailBlocklist, word ≠ [] → CleanItem word
  fallback : ∀ policy, store.routingPolicy = some policy → CleanLine policy.fallbackScope

namespace ParseState

variable {p : ParseState} {rest : Bytes}

def insertKeys (keys : AList fun _ : Bytes => List Bytes)
    (entries : List (Sigma fun _ : Bytes => List Bytes)) : AList fun _ : Bytes => List Bytes :=
  entries.foldl
    (fun keys entry => keys.insert entry.1 (entry.2.filter fun scope => !scope.isEmpty)) keys

theorem not_separator_of_isHexDigit {c : UInt8} (h : isHexDigit c = true) :
    c ≠ 61 ∧ c ≠ 35 ∧ c ≠ 91 := by
  revert h
  obtain ⟨b⟩ := c
  revert b
  decide

theorem isKey_of_isHexDigit {hash : Bytes} (hne : hash ≠ [])
    (hhex : ∀ c ∈ hash, isHexDigit c = true) : IsKey hash := by
  refine ⟨stripped_of_isHexDigit hhex, newline_not_mem_of_isHexDigit hhex, ?_, hne, ?_, ?_⟩
  · intro hin
    exact (not_separator_of_isHexDigit (hhex 61 hin)).1 rfl
  · intro hhead
    exact (not_separator_of_isHexDigit (hhex 35 (mem_of_mem_head? hhead))).2.1 rfl
  · intro hhead
    exact (not_separator_of_isHexDigit (hhex 91 (mem_of_mem_head? hhead))).2.2 rfl

theorem bytes_equals : bytes "=" = [61] := by decide

theorem bytes_newline : bytes "\n" = [10] := by decide

variable {entries : List (Sigma fun _ : Bytes => List Bytes)}

theorem read_keyLines (hsection : p.sectionName = bytes "api_keys")
    (hkeys : ∀ entry ∈ entries, entry.1 ≠ [] ∧ ∀ c ∈ entry.1, isHexDigit c = true)
    (hscopes : ∀ entry ∈ entries, ∀ scope ∈ entry.2, scope ≠ [] → CleanItem scope) :
    p.read ((entries.flatMap fun entry => entry.1 ++ bytes "=" ++ joinCSV entry.2 ++ bytes "\n") ++
      rest) = { p with apiKeys := insertKeys p.apiKeys entries }.read rest := by
  induction entries generalizing p with
  | nil => rfl
  | cons entry entries ih =>
    obtain ⟨hne, hhex⟩ := hkeys entry (by simp)
    have hentry := hscopes entry (by simp)
    have htext : ∀ others : Bytes, entry.1 ++ bytes "=" ++ joinCSV entry.2 ++ bytes "\n" ++ others =
        entry.1 ++ 61 :: (joinCSV entry.2 ++ 10 :: others) := by
      simp [bytes_equals, bytes_newline]
    rw [flatMap_cons, append_assoc, htext,
      read_assign (isKey_of_isHexDigit hne hhex) (cleanLine_joinCSV hentry), assign,
      if_pos hsection, splitCSV_joinCSV hentry]
    exact ih hsection (fun other hother => hkeys other (by simp [hother]))
      fun other hother => hscopes other (by simp [hother])

theorem lookup_insertKeys (hnodup : entries.NodupKeys) (keys : AList fun _ : Bytes => List Bytes)
    (hash : Bytes) :
    (insertKeys keys entries).lookup hash =
      ((entries.dlookup hash).map fun scopes => scopes.filter fun scope => !scope.isEmpty).or
        (keys.lookup hash) := by
  induction entries generalizing keys with
  | nil => simp [insertKeys]
  | cons entry entries ih =>
    rw [nodupKeys_cons] at hnodup
    have hstep := ih hnodup.2 (keys.insert entry.1 (entry.2.filter fun scope => !scope.isEmpty))
    simp only [insertKeys, foldl_cons] at hstep ⊢
    rw [hstep]
    obtain ⟨key, scopes⟩ := entry
    by_cases hhash : hash = key
    · subst hhash
      simp [dlookup_eq_none.mpr hnodup.1]
    · simp [hhash]

theorem assign_words (h : p.sectionName = bytes "guardrail") (value : Bytes) :
    p.assign (bytes "words") value = { p with guardrail := splitCSV value } := by
  simp +decide [assign, h]

theorem assign_tokens (h : p.sectionName = bytes "rate_limit") (value : Bytes) :
    p.assign (bytes "tokens") value = { p with rateLimit := (stoi value).toOption.getD 0 } := by
  simp +decide [assign, h]

theorem read_limitLines {words : List Bytes} {limit : Int}
    (hwords : ∀ word ∈ words, word ≠ [] → CleanItem word)
    (hlow : - 2 ^ 31 ≤ limit) (hhigh : limit < 2 ^ 31) :
    p.read (bytes "\n[guardrail]\n" ++ bytes "words=" ++ joinCSV words ++ bytes "\n" ++
      bytes "\n[rate_limit]\n" ++ bytes "tokens=" ++ printInt limit ++ bytes "\n" ++ rest) =
      { p with
        sectionName := bytes "rate_limit"
        guardrail := words.filter fun word => !word.isEmpty
        rateLimit := limit }.read rest := by
  have hguardrail : bytes "\n[guardrail]\n" = 10 :: 91 :: (bytes "guardrail" ++ [93, 10]) := by decide
  have hwordsKey : bytes "words=" = bytes "words" ++ [61] := by decide
  have hrateLimit : bytes "\n[rate_limit]\n" = 10 :: 91 :: (bytes "rate_limit" ++ [93, 10]) := by
    decide
  have htokensKey : bytes "tokens=" = bytes "tokens" ++ [61] := by decide
  simp only [hguardrail, hwordsKey, hrateLimit, htokensKey, bytes_newline, append_assoc,
    cons_append, nil_append]
  rw [read_blank, read_section (by decide), read_assign (by decide) (cleanLine_joinCSV hwords),
    assign_words rfl, splitCSV_joinCSV hwords, read_blank, read_section (by decide),
    read_assign (by decide) (cleanLine_printInt limit), assign_tokens rfl, stoi_printInt hlow hhigh]
  rfl

section

variable (h : p.sectionName = bytes "routing")
include h

theorem assign_allowDefaultFallback (b : Bool) :
    p.assign (bytes "allow_default_fallback") (printBool b) =
      { p with routing := { p.routing with allowDefaultFallback := b }, hasRouting := true } := by
  simp +decide [assign, h, parseBoolValue_printBool]

theorem assign_requireReadyBackend (b : Bool) :
    p.assign (bytes "require_ready_backend") (printBool b) =
      { p with routing := { p.routing with requireReadyBackend := b }, hasRouting := true } := by
  simp +decide [assign, h, parseBoolValue_printBool]

theorem assign_fallbackScope (value : Bytes) :
    p.assign (bytes "fallback_scope") value =
      { p with
        routing := if value.isEmpty then p.routing else { p.routing with fallbackScope := value }
        hasRouting := true } := by
  simp +decide [assign, h]

end

/-- The lines of the routing policy. The scope is not read when it is empty. -/
theorem read_routingLines {store : PolicyStore} {policy : RoutingPolicyEntry}
    (hpolicy : store.routingPolicy = some policy) (hclean : CleanLine policy.fallbackScope) :
    (p.read store.routingLines).toStore =
      { p.toStore with
        routingPolicy := some { policy with
          fallbackScope :=
            if policy.fallbackScope.isEmpty then p.routing.fallbackScope
            else policy.fallbackScope } } := by
  have hsection : bytes "\n[routing]\n" = 10 :: 91 :: (bytes "routing" ++ [93, 10]) := by decide
  have hallow : bytes "allow_default_fallback=" = bytes "allow_default_fallback" ++ [61] := by decide
  have hrequire : bytes "require_ready_backend=" = bytes "require_ready_backend" ++ [61] := by decide
  have hfallback : bytes "fallback_scope=" = bytes "fallback_scope" ++ [61] := by decide
  simp only [routingLines, hpolicy, hsection, hallow, hrequire, hfallback,
    bytes_newline, append_assoc, cons_append, nil_append]
  rw [read_blank, read_section (by decide), read_assign (by decide) (cleanLine_printBool _),
    assign_allowDefaultFallback rfl, read_assign (by decide) (cleanLine_printBool _),
    assign_requireReadyBackend rfl, read_assign (by decide) hclean, assign_fallbackScope rfl]
  split_ifs <;> rfl

end ParseState

/-- What `Load` makes of the text of a legible store: empty values are gone, and an empty
fallback scope has become the default. -/
def PolicyStore.readBack (store : PolicyStore) : PolicyStore where
  apiKeys := ParseState.insertKeys ∅ store.apiKeys.entries
  guardrailBlocklist := store.guardrailBlocklist.filter fun word => !word.isEmpty
  rateLimitPerMinute := store.rateLimitPerMinute
  routingPolicy := store.routingPolicy.map fun policy =>
    { policy with
      fallbackScope :=
        if policy.fallbackScope.isEmpty then bytes "any_compatible" else policy.fallbackScope }

theorem read_plaintext {store : PolicyStore} (hregular : Regular store) (hlegible : Legible store) :
    read {} store.plaintext =
      read
        { sectionName := bytes "rate_limit"
          apiKeys := insertKeys ∅ store.apiKeys.entries
          guardrail := store.guardrailBlocklist.filter fun word => !word.isEmpty
          rateLimit := store.rateLimitPerMinute } store.routingLines := by
  have hheader : bytes "[api_keys]\n" = 91 :: (bytes "api_keys" ++ [93, 10]) := by decide
  have htext : store.plaintext = 91 :: (bytes "api_keys" ++ 93 :: 10 :: (store.keyLines ++
      (bytes "\n[guardrail]\n" ++ bytes "words=" ++ joinCSV store.guardrailBlocklist ++ bytes "\n" ++
        bytes "\n[rate_limit]\n" ++ bytes "tokens=" ++ printInt store.rateLimitPerMinute ++
        bytes "\n" ++ store.routingLines))) := by
    simp [plaintext, hheader]
  have hkeys : ∀ entry ∈ store.apiKeys.entries,
      entry.1 ≠ [] ∧ ∀ c ∈ entry.1, isHexDigit c = true := by
    intro entry hentry
    exact hregular.keys entry.1 (AList.mem_keys.mpr (mem_keys_of_mem hentry))
  have hscopes : ∀ entry ∈ store.apiKeys.entries, ∀ scope ∈ entry.2, scope ≠ [] → CleanItem scope := by
    intro entry hentry
    exact hlegible.scopes entry.1 entry.2 (AList.mem_lookup_iff.mpr hentry)
  rw [htext, read_section (by decide), keyLines,
    read_keyLines rfl hkeys hscopes,
    read_limitLines hlegible.words hregular.rateLimit.1 hregular.rateLimit.2]

theorem parsePlaintext_of_legible {store : PolicyStore} (hregular : Regular store)
    (hlegible : Legible store) : parsePlaintext store.plaintext = store.readBack := by
  change (read {} store.plaintext).toStore = store.readBack
  rw [read_plaintext hregular hlegible]
  cases hrouting : store.routingPolicy with
  | none => simp [routingLines, hrouting, readBack, ParseState.read, getLines, pieces, toStore]
  | some policy =>
    rw [read_routingLines hrouting (hlegible.fallback policy hrouting)]
    simp [readBack, hrouting, toStore]

/-! ## Loaded stores -/

namespace ParseState

/-- What has been read from any text: there are no separators, line breaks, and blanks around
the values, and none is empty. -/
structure Clean (p : ParseState) : Prop where
  scopes : ∀ hash scopes, p.apiKeys.lookup hash = some scopes → ∀ scope ∈ scopes, CleanItem scope
  words : ∀ word ∈ p.guardrail, CleanItem word
  fallback : CleanLine p.routing.fallbackScope ∧ p.routing.fallbackScope ≠ []

theorem clean_empty : Clean {} where
  scopes := by simp
  words := by simp
  fallback := by exact ⟨⟨by decide, by decide⟩, by decide⟩

variable {p : ParseState} {line value : Bytes}

theorem cleanItem_of_mem_splitCSV (hvalue : 10 ∉ value) {item : Bytes} (h : item ∈ splitCSV value) :
    CleanItem item :=
  ⟨item_of_mem_items h, fun hnewline => hvalue (mem_of_mem_items h hnewline)⟩

theorem Clean.assign (hclean : p.Clean) (key : Bytes) (hvalue : CleanLine value) :
    (p.assign key value).Clean := by
  unfold ParseState.assign
  split_ifs with hkeys hwords
  · refine ⟨?_, hclean.words, hclean.fallback⟩
    intro hash scopes hlookup
    by_cases hhash : hash = key
    · subst hhash
      obtain rfl : splitCSV value = scopes := by simpa using hlookup
      intro scope hscope
      exact cleanItem_of_mem_splitCSV hvalue.unbroken hscope
    · exact hclean.scopes hash scopes (by simpa [hhash] using hlookup)
  · exact ⟨hclean.scopes, fun word hword => cleanItem_of_mem_splitCSV hvalue.unbroken hword,
      hclean.fallback⟩
  · exact ⟨hclean.scopes, hclean.words, hclean.fallback⟩
  · exact ⟨hclean.scopes, hclean.words, hclean.fallback⟩
  · exact ⟨hclean.scopes, hclean.words, hclean.fallback⟩
  · exact ⟨hclean.scopes, hclean.words, hclean.fallback⟩
  · refine ⟨hclean.scopes, hclean.words, hvalue, ?_⟩
    simp_all
  · exact hclean

theorem Clean.readLine (hclean : p.Clean) (hline : 10 ∉ line) : (p.readLine line).Clean := by
  unfold ParseState.readLine
  dsimp only
  split_ifs
  · exact hclean
  · exact ⟨hclean.scopes, hclean.words, hclean.fallback⟩
  · split
    · exact hclean
    · exact hclean.assign _ ⟨stripped_strip, fun hnewline =>
        hline (mem_of_mem_strip (mem_of_mem_drop (mem_of_mem_strip hnewline)))⟩

theorem Clean.read (hclean : p.Clean) (text : Bytes) : (p.read text).Clean := by
  have hlines : ∀ line ∈ getLines 10 text, 10 ∉ line := fun _ => not_mem_of_mem_pieces
  rw [ParseState.read]
  generalize getLines 10 text = lines at hlines
  induction lines generalizing p with
  | nil => exact hclean
  | cons line lines ih =>
    exact ih (hclean.readLine (hlines line (by simp))) fun other hother => hlines other (by simp [hother])

end ParseState

end InferFlux.Policy
