import InferFlux.Library.Delimited
import InferFlux.Policy.PolicyStore

/-!
# The file format of the policy store

Embeds the texts that `PolicyStore::Save` writes and `Load` reads, with their encryption, from
`policy/policy_store.cpp`, and `Trim` from `runtime/string_utils.h`. The cipher is given by what
it computes under the key of the store, and undoes what it does.
-/

namespace InferFlux.Policy

open InferFlux.Text InferFlux.Http InferFlux.Auth

def trim (text : Bytes) : Bytes := Delimited.strip isTrailingBlank text

def getLines (separator : UInt8) (text : Bytes) : List Bytes := Delimited.pieces separator text

def splitCSV (line : Bytes) : List Bytes := Delimited.items 44 isTrailingBlank line

def joinCSV (values : List Bytes) : Bytes := [44].intercalate values

def printInt (n : Int) : Bytes := if n < 0 then 45 :: toDecimal n.natAbs else toDecimal n.natAbs

def printBool (b : Bool) : Bytes := if b then bytes "true" else bytes "false"

def parseBoolValue (value : Bytes) : Option Bool :=
  let lowered := value.map toLower
  if lowered = bytes "true" ∨ lowered = bytes "1" ∨ lowered = bytes "yes" then some true
  else if lowered = bytes "false" ∨ lowered = bytes "0" ∨ lowered = bytes "no" then some false
  else none

namespace PolicyStore

def keyLines (store : PolicyStore) : Bytes :=
  store.apiKeys.entries.flatMap fun entry => entry.1 ++ bytes "=" ++ joinCSV entry.2 ++ bytes "\n"

def routingLines (store : PolicyStore) : Bytes :=
  match store.routingPolicy with
  | none => []
  | some policy =>
    bytes "\n[routing]\n" ++
      bytes "allow_default_fallback=" ++ printBool policy.allowDefaultFallback ++ bytes "\n" ++
      bytes "require_ready_backend=" ++ printBool policy.requireReadyBackend ++ bytes "\n" ++
      bytes "fallback_scope=" ++ policy.fallbackScope ++ bytes "\n"

/-- What `Save` writes, before encryption. -/
def plaintext (store : PolicyStore) : Bytes :=
  bytes "[api_keys]\n" ++ store.keyLines ++
    bytes "\n[guardrail]\n" ++ bytes "words=" ++ joinCSV store.guardrailBlocklist ++ bytes "\n" ++
    bytes "\n[rate_limit]\n" ++ bytes "tokens=" ++ printInt store.rateLimitPerMinute ++ bytes "\n" ++
    store.routingLines

end PolicyStore

structure ParseState where
  sectionName : Bytes := []
  apiKeys : AList fun _ : Bytes => List Bytes := ∅
  guardrail : List Bytes := []
  rateLimit : Int := 0
  routing : RoutingPolicyEntry := {}
  hasRouting : Bool := false

namespace ParseState

def assign (p : ParseState) (key value : Bytes) : ParseState :=
  if p.sectionName = bytes "api_keys" then { p with apiKeys := p.apiKeys.insert key (splitCSV value) }
  else if p.sectionName = bytes "guardrail" ∧ key = bytes "words" then
    { p with guardrail := splitCSV value }
  else if p.sectionName = bytes "rate_limit" ∧ key = bytes "tokens" then
    { p with rateLimit := (stoi value).toOption.getD 0 }
  else if p.sectionName = bytes "routing" ∧ key = bytes "allow_default_fallback" then
    { p with
      routing := { p.routing with
        allowDefaultFallback := (parseBoolValue value).getD p.routing.allowDefaultFallback }
      hasRouting := true }
  else if p.sectionName = bytes "routing" ∧ key = bytes "require_ready_backend" then
    { p with
      routing := { p.routing with
        requireReadyBackend := (parseBoolValue value).getD p.routing.requireReadyBackend }
      hasRouting := true }
  else if p.sectionName = bytes "routing" ∧ key = bytes "fallback_scope" then
    { p with
      routing := if value.isEmpty then p.routing else { p.routing with fallbackScope := value }
      hasRouting := true }
  else p

def readLine (p : ParseState) (line : Bytes) : ParseState :=
  let line := trim line
  if line.isEmpty || line.head? = some 35 then p
  else if line.head? = some 91 && line.getLast? = some 93 then
    { p with sectionName := (line.drop 1).take (line.length - 2) }
  else
    match line.findIdx? (· = 61) with
    | none => p
    | some eq => p.assign (trim (line.take eq)) (trim (line.drop (eq + 1)))

def toStore (p : ParseState) : PolicyStore where
  apiKeys := p.apiKeys
  guardrailBlocklist := p.guardrail
  rateLimitPerMinute := p.rateLimit
  routingPolicy := if p.hasRouting then some p.routing else none

end ParseState

def parsePlaintext (text : Bytes) : PolicyStore :=
  ((getLines 10 text).foldl ParseState.readLine {}).toStore

/-- AES-256-GCM under the key of the store. -/
structure Cipher where
  /-- The ciphertext and the tag for a nonce and a text. -/
  encrypt : Bytes → Bytes → Bytes × Bytes
  /-- The text for a nonce, a tag and a ciphertext. -/
  decrypt : Bytes → Bytes → Bytes → Option Bytes
  length_ciphertext : ∀ nonce text, (encrypt nonce text).1.length = text.length
  length_tag : ∀ nonce text, (encrypt nonce text).2.length = 16
  decrypt_encrypt : ∀ nonce text,
    decrypt nonce (encrypt nonce text).2 (encrypt nonce text).1 = some text

def hexChar (n : UInt8) : UInt8 := if n < 10 then 48 + n else 87 + n

def hexEncode (data : Bytes) : Bytes := data.flatMap fun c => [hexChar (c / 16), hexChar (c % 16)]

def hexValue (c : UInt8) : Option UInt8 :=
  let c := toLower c
  if c ≥ 48 && c ≤ 57 then some (c - 48)
  else if c ≥ 97 && c ≤ 102 then some (c - 87)
  else none

def hexDecode : Bytes → Bytes
  | hi :: lo :: rest =>
    match hexValue hi, hexValue lo with
    | some high, some low =>
      if rest.isEmpty then [high * 16 + low]
      else
        let decoded := hexDecode rest
        if decoded.isEmpty then [] else (high * 16 + low) :: decoded
    | _, _ => []
  | _ => []

def kIntMax : Nat := 2 ^ 31 - 1

abbrev Nonce := { nonce : Bytes // nonce.length = 12 }

/-- `Encrypt`, for the random nonce, or `none` if there is none. -/
def encrypt (cipher : Cipher) (nonce : Option Nonce) (text : Bytes) : Option Bytes :=
  match nonce with
  | none => none
  | some nonce =>
    if text.length > kIntMax then none
    else
      let (ciphertext, tag) := cipher.encrypt nonce text
      some (bytes "ENC\n" ++ bytes "nonce=" ++ hexEncode nonce ++ bytes "\n" ++
        bytes "tag=" ++ hexEncode tag ++ bytes "\n" ++
        bytes "data=" ++ hexEncode ciphertext ++ bytes "\n")

def readHexLine (name line : Bytes) : Option Bytes :=
  match line.findIdx? (· = 61) with
  | none => none
  | some eq =>
    if trim (line.take eq) ≠ name then none
    else
      let decoded := hexDecode (trim (line.drop (eq + 1)))
      if decoded.isEmpty then none else some decoded

def decrypt (cipher : Cipher) (encrypted : Bytes) : Option Bytes :=
  match getLines 10 encrypted with
  | header :: nonceLine :: tagLine :: dataLine :: _ =>
    if trim header ≠ bytes "ENC" then none
    else do
      let nonce ← readHexLine (bytes "nonce") nonceLine
      let tag ← readHexLine (bytes "tag") tagLine
      let data ← readHexLine (bytes "data") dataLine
      cipher.decrypt nonce tag data
  | _ => none

def serialize (cipher : Option Cipher) (nonce : Option Nonce) (store : PolicyStore) : Option Bytes :=
  match cipher with
  | none => some store.plaintext
  | some cipher => encrypt cipher nonce store.plaintext

def parseContents (cipher : Option Cipher) (raw : Bytes) : Option PolicyStore :=
  if raw.take 3 = bytes "ENC" then
    match cipher with
    | none => none
    | some cipher => (decrypt cipher raw).map parsePlaintext
  else some (parsePlaintext raw)

end InferFlux.Policy
