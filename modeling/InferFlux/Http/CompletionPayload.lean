import InferFlux.Http.HeaderBlock
import InferFlux.Library.Raises
import Mathlib.Data.Rat.Defs
import Mathlib.Order.Lattice

/-!
# Request payloads

Embeds `ParseJsonPayload` from `server/http/http_server.cpp`, the payload of
`server/http/completion_payload.h`, and `ImagePreprocessor` from
`runtime/multimodal/image_preprocessor.cpp`.

The JSON library, the HTTP client that fetches images and the digest are given by an
environment. The library's operations fail with the text of a `json::exception`, which the
parser catches: it then returns the payload as far as it has been filled in. Numbers of a
document are exact, and `toFloat` is the conversion to `float`, for any ordered type of floats.
-/

namespace InferFlux.Http

open InferFlux.Text

/-! ## Documents -/

inductive Json where
  | null
  | bool (b : Bool)
  | integer (n : Int)
  | float (q : ℚ)
  | string (s : Bytes)
  | array (items : List Json)
  | object (fields : List (Bytes × Json))

namespace Json

/-- `j.contains(key)` with `j[key]`: only an object contains anything. -/
def find (key : String) : Json → Option Json
  | object fields => (fields.find? fun field => field.1 = bytes key).map (·.2)
  | _ => none

def number? : Json → Option ℚ
  | integer n => some n
  | float q => some q
  | _ => none

def stringAt (key : String) (j : Json) : Option Bytes :=
  match j.find key with
  | some (string s) => some s
  | _ => none

def boolAt (key : String) (j : Json) : Option Bool :=
  match j.find key with
  | some (bool b) => some b
  | _ => none

/-- `get<int>()`, which keeps the low 32 bits. -/
def intAt (key : String) (j : Json) : Option Int :=
  match j.find key with
  | some (integer n) => some (n.bmod (2 ^ 32))
  | _ => none

def numberAt (key : String) (j : Json) : Option ℚ := (j.find key).bind number?

def arrayAt (key : String) (j : Json) : Option (List Json) :=
  match j.find key with
  | some (array items) => some items
  | _ => none

def objectAt (key : String) (j : Json) : Option Json :=
  match j.find key with
  | some (object fields) => some (object fields)
  | _ => none

end Json

structure PayloadEnv (F : Type) where
  /-- `json::parse`. -/
  parse : Bytes → Except Bytes Json
  dump : Json → Except Bytes Bytes
  toFloat : ℚ → F
  /-- `HttpClient::Get`: the status and the body, or the text of an exception. -/
  httpGet : Bytes → Except Bytes (Int × Bytes)
  computeSha256Hex : Bytes → Bytes

/-! ## Images -/

structure DecodedImage where
  rawBytes : Bytes := []
  sourceUri : Bytes
  imageId : Bytes := []
  deriving DecidableEq, Repr

structure ContentArrayResult where
  text : Bytes := []
  images : List DecodedImage := []
  error : Bytes := []
  deriving DecidableEq, Repr

def base64CharValue (c : UInt8) : Option Nat :=
  if c ≥ 65 && c ≤ 90 then some (c.toNat - 65)
  else if c ≥ 97 && c ≤ 122 then some (26 + (c.toNat - 97))
  else if c ≥ 48 && c ≤ 57 then some (52 + (c.toNat - 48))
  else if c = 43 || c = 45 then some 62
  else if c = 47 || c = 95 then some 63
  else none

/-- The loop of `Base64Decode`, with the number of bits in `val` that are not yet in the
output. -/
def base64Loop (val bits : Nat) : Bytes → Bytes
  | [] => []
  | c :: rest =>
    if c = 61 || c = 10 || c = 13 then []
    else
      match base64CharValue c with
      | none => base64Loop val bits rest
      | some v =>
        let val := (val * 64 + v) % 2 ^ 32
        if bits + 6 ≥ 8 then
          UInt8.ofNat (val / 2 ^ (bits - 2) % 256) :: base64Loop val (bits - 2) rest
        else base64Loop val (bits + 6) rest

def base64Decode (b64 : Bytes) : Bytes := base64Loop 0 0 b64

def decodeBase64DataUri (dataUri : Bytes) : Bytes × Bytes :=
  if dataUri.take 5 ≠ bytes "data:" then ([], bytes "not a data URI")
  else
    match dataUri.findIdx? (· = 44) with
    | none => ([], bytes "malformed data URI: missing comma")
    | some comma =>
      if Occurrence.first [bytes "base64"] (dataUri.take comma) = none then
        ([], bytes "data URI is not base64 encoded")
      else
        let decoded := base64Decode (dataUri.drop (comma + 1))
        if decoded.isEmpty then ([], bytes "base64 decode produced empty result") else (decoded, [])

section

variable {F : Type} (env : PayloadEnv F)

def fetchUrl (url : Bytes) : Bytes × Bytes :=
  if url.isEmpty then ([], bytes "empty URL")
  else
    match env.httpGet url with
    | .error what => ([], bytes "HTTP fetch error: " ++ what)
    | .ok (status, body) =>
      if status < 200 || status ≥ 300 then
        ([], bytes "HTTP " ++ bytes (toString status) ++ bytes " fetching image")
      else (body, [])

def kMediaMarker : Bytes := bytes "<__media__>"

def imageUrl (part : Json) : Bytes :=
  match part.objectAt "image_url" with
  | some img => (img.stringAt "url").getD []
  | none => (part.stringAt "url").getD []

/-- One image part: its place is marked in the text even if there is no image. -/
def processImage (url : Bytes) (result : ContentArrayResult) : ContentArrayResult :=
  if url.isEmpty then
    { result with error := bytes "image_url part missing url field",
                  text := result.text ++ kMediaMarker }
  else
    let (rawBytes, decodeError) :=
      if url.take 5 = bytes "data:" then decodeBase64DataUri url else fetchUrl env url
    let imageId := if rawBytes.isEmpty then [] else env.computeSha256Hex rawBytes
    { text := result.text ++ kMediaMarker
      images := result.images ++ [{ rawBytes, sourceUri := url, imageId }]
      error := if decodeError.isEmpty then result.error
               else bytes "image decode error: " ++ decodeError }

def processPart (result : ContentArrayResult) (part : Json) : ContentArrayResult :=
  let type := (part.stringAt "type").getD []
  if type = bytes "text" then
    { result with text := result.text ++ (part.stringAt "text").getD [] }
  else if type = bytes "image_url" then processImage env (imageUrl part) result
  else result

def processContentArray (contentArrayJson : Bytes) : ContentArrayResult :=
  if contentArrayJson.isEmpty then {}
  else
    match env.parse contentArrayJson with
    | .error what => { error := bytes "JSON parse error: " ++ what }
    | .ok (.array parts) => parts.foldl (processPart env) {}
    | .ok _ => { error := bytes "content is not a JSON array" }

end

/-! ## The payload -/

structure ChatMessage where
  role : Bytes := []
  content : Bytes := []
  deriving DecidableEq, Repr

structure ToolFunction where
  name : Bytes := []
  description : Bytes := []
  parameters : Json := .null

structure Tool where
  type : Bytes := bytes "function"
  function : ToolFunction := {}

structure CompletionRequestPayload (F : Type) where
  prompt : Bytes := []
  model : Bytes := bytes "unknown"
  sessionId : Bytes := []
  clientRequestId : Bytes := []
  maxTokens : Int := 256
  messages : List ChatMessage := []
  stream : Bool := false
  jsonMode : Bool := false
  tools : List Tool := []
  firstToolName : Bytes := []
  hasToolSchema : Bool := false
  toolChoice : Bytes := bytes "auto"
  toolChoiceFunction : Bytes := []
  hasImages : Bool := false
  images : List DecodedImage := []
  hasResponseFormat : Bool := false
  responseFormatType : Bytes := []
  responseFormatSchema : Bytes := []
  responseFormatGrammar : Bytes := []
  responseFormatRoot : Bytes := bytes "root"
  responseFormatOk : Bool := true
  responseFormatError : Bytes := []
  logprobs : Bool := false
  topLogprobs : Int := 0
  temperature : F
  topP : F
  topK : Int := 0
  minP : F
  frequencyPenalty : F
  presencePenalty : F
  repetitionPenalty : F
  seed : Nat := 2 ^ 32 - 1
  /-- The entries of the map, one for each token id. -/
  logitBias : List (Int × F) := []
  stop : List Bytes := []
  streamIncludeUsage : Bool := false
  n : Int := 1
  bestOf : Int := 1

section

variable {F : Type} [LinearOrder F] (env : PayloadEnv F) (j : Json)

def defaultPayload : CompletionRequestPayload F where
  temperature := env.toFloat 1
  topP := env.toFloat 1
  minP := env.toFloat 0
  frequencyPenalty := env.toFloat 0
  presencePenalty := env.toFloat 0
  repetitionPenalty := env.toFloat 1

/-- An exception within the parser. -/
inductive Thrown where
  | json (what : Bytes)
  | conversion (error : ConversionError)
  deriving DecidableEq, Repr

abbrev Parse (F : Type) := ExceptT Thrown (StateM (CompletionRequestPayload F))

def orJsonException {α : Type} : Except Bytes α → Parse F α
  | .ok a => pure a
  | .error what => throw (.json what)

def orConversionError {α : Type} : Except ConversionError α → Parse F α
  | .ok a => pure a
  | .error e => throw (.conversion e)

def readGeneral (p : CompletionRequestPayload F) : CompletionRequestPayload F :=
  { p with
    prompt := (j.stringAt "prompt").getD p.prompt
    model := (j.stringAt "model").getD p.model
    sessionId := (j.stringAt "session_id").getD p.sessionId
    clientRequestId := (j.stringAt "client_request_id").getD p.clientRequestId
    maxTokens := (j.intAt "max_completion_tokens").getD ((j.intAt "max_tokens").getD p.maxTokens)
    stream := (j.boolAt "stream").getD p.stream }

/-- `logprobs` is a switch for chats and a count for completions. -/
def readLogprobs (p : CompletionRequestPayload F) : CompletionRequestPayload F :=
  let p := match j.boolAt "logprobs", j.intAt "logprobs" with
    | some b, _ => { p with logprobs := b }
    | none, some n => if n > 0 then { p with logprobs := true, topLogprobs := min n 20 } else p
    | none, none => p
  match j.intAt "top_logprobs" with
  | some n =>
    let topLogprobs := min (max n 0) 20
    { p with topLogprobs, logprobs := p.logprobs || topLogprobs > 0 }
  | none => p

def readSampling (p : CompletionRequestPayload F) : CompletionRequestPayload F :=
  let floatAt (key : String) (old : F) : F := ((j.numberAt key).map env.toFloat).getD old
  { p with
    temperature := floatAt "temperature" p.temperature
    topP := floatAt "top_p" p.topP
    topK := (j.intAt "top_k").getD p.topK
    minP := floatAt "min_p" p.minP
    frequencyPenalty := floatAt "frequency_penalty" p.frequencyPenalty
    presencePenalty := floatAt "presence_penalty" p.presencePenalty
    repetitionPenalty := floatAt "repetition_penalty" p.repetitionPenalty
    seed := ((j.intAt "seed").map fun n => (n % 2 ^ 32).toNat).getD p.seed }

def readBias (entry : Bytes × Json) : Parse F Unit :=
  match entry.2.number? with
  | none => pure ()
  | some q => do
    let tokenId ← orConversionError (stoi entry.1)
    let bias := max (env.toFloat (-100)) (min (env.toFloat 100) (env.toFloat q))
    modify fun p =>
      { p with logitBias := (tokenId, bias) :: p.logitBias.filter fun old => old.1 ≠ tokenId }

def biasEntries : List (Bytes × Json) :=
  match j.find "logit_bias" with
  | some (.object entries) => entries
  | _ => []

def readLogitBias : Parse F Unit := forM (biasEntries j) (readBias env)

def kMaxResponseFormatBytes : Nat := 16 * 1024

def rejectFormat (error : Bytes) (p : CompletionRequestPayload F) : CompletionRequestPayload F :=
  { p with responseFormatOk := false, responseFormatError := error }

def setSchema (text : Bytes) (p : CompletionRequestPayload F) : CompletionRequestPayload F :=
  { p with responseFormatSchema := text }

def readPlainSchema (rf : Json) : Parse F Unit :=
  match rf.find "schema" with
  | some schema => do
    let text ← orJsonException (env.dump schema)
    modify (setSchema text)
  | none => pure ()

/-- The schema under `json_schema`: it is there as it is, or within a wrapper with a `name` or
`strict`. -/
def readJsonSchema (rf : Json) : Parse F Unit :=
  match rf.find "json_schema" with
  | some (.object fields) => do
    let js := Json.object fields
    let wrapped := (js.find "name").isSome || (js.find "strict").isSome
    let schema := match js.objectAt "schema" with
      | some inner => if wrapped then inner else js
      | none => js
    let text ← orJsonException (env.dump schema)
    modify (setSchema text)
  | some _ => modify (rejectFormat (bytes "response_format json_schema.schema must be a JSON object"))
  | none => pure ()

def checkSchema (type : Bytes) (p : CompletionRequestPayload F) : CompletionRequestPayload F :=
  let p := if p.responseFormatSchema.length > kMaxResponseFormatBytes then
      rejectFormat (bytes "response_format schema exceeds 16KB limit") p else p
  if type = bytes "json_schema" ∧ p.responseFormatSchema = [] then
    rejectFormat (bytes "response_format json_schema requires a schema definition") p
  else p

def readGrammar (rf : Json) (p : CompletionRequestPayload F) : CompletionRequestPayload F :=
  let p := match rf.stringAt "grammar" with
    | some grammar =>
      let p := { p with responseFormatGrammar := grammar }
      if grammar.length > kMaxResponseFormatBytes then
        rejectFormat (bytes "response_format grammar exceeds 16KB limit") p
      else p
    | none => rejectFormat (bytes "response_format grammar missing 'grammar' string") p
  { p with responseFormatRoot := (rf.stringAt "root").getD p.responseFormatRoot }

def readTypedFormat (rf : Json) (type : Bytes) : Parse F Unit := do
  modify fun p => { p with hasResponseFormat := true, responseFormatType := type }
  if type = bytes "json_object" ∨ type = bytes "json_schema" then do
    modify fun p => { p with jsonMode := true }
    readPlainSchema env rf
    readJsonSchema env rf
    modify (checkSchema type)
  else if type = bytes "grammar" then modify (readGrammar rf)
  else if type = bytes "text" ∨ type = [] then
    modify fun p => { p with hasResponseFormat := false }
  else modify (rejectFormat (bytes "Unsupported response_format.type '" ++ type ++ bytes "'"))

def readResponseFormat : Parse F Unit :=
  match j.objectAt "response_format" with
  | none => pure ()
  | some rf =>
    match rf.stringAt "type" with
    | some type => readTypedFormat env rf type
    | none => modify (rejectFormat (bytes "response_format.type must be a string"))

def readContent (msg : Json) : Parse F (Bytes × List DecodedImage) :=
  match msg.find "content" with
  | some (.string content) => pure (content, [])
  | some (.array parts) => do
    let text ← orJsonException (env.dump (.array parts))
    let mm := processContentArray env text
    pure (mm.text, mm.images)
  | _ => pure ([], [])

def readMessage (msg : Json) : Parse F Unit := do
  let role := (msg.stringAt "role").getD []
  let (content, images) ← readContent env msg
  modify fun p =>
    { p with
      hasImages := p.hasImages || !images.isEmpty
      images := p.images ++ images
      messages := if role.isEmpty && content.isEmpty then p.messages
                  else p.messages ++ [{ role, content }] }

def readMessages : Parse F Unit := forM ((j.arrayAt "messages").getD []) (readMessage env)

def readTool (p : CompletionRequestPayload F) (t : Json) : CompletionRequestPayload F :=
  let function : ToolFunction := match t.objectAt "function" with
    | some f =>
      { name := (f.stringAt "name").getD []
        description := (f.stringAt "description").getD []
        parameters := (f.find "parameters").getD .null }
    | none => {}
  if function.name.isEmpty then p
  else
    { p with
      firstToolName := if p.firstToolName.isEmpty then function.name else p.firstToolName
      tools := p.tools ++ [{ type := (t.stringAt "type").getD (bytes "function"), function }] }

def readTools (p : CompletionRequestPayload F) : CompletionRequestPayload F :=
  match j.arrayAt "tools" with
  | some tools => tools.foldl readTool { p with hasToolSchema := true }
  | none => p

def readToolChoice (p : CompletionRequestPayload F) : CompletionRequestPayload F :=
  match j.find "tool_choice" with
  | some (.string choice) => { p with toolChoice := choice }
  | some (.object fields) =>
    let name := ((Json.object fields).objectAt "function").bind (Json.stringAt "name")
    { p with toolChoice := bytes "required", toolChoiceFunction := name.getD p.toolChoiceFunction }
  | _ => p

def readStop (p : CompletionRequestPayload F) : CompletionRequestPayload F :=
  match j.find "stop" with
  | some (.string s) => { p with stop := p.stop ++ [s] }
  | some (.array items) =>
    let stops := items.filterMap fun
      | .string s => if s.isEmpty then none else some s
      | _ => none
    { p with stop := p.stop ++ stops.take 4 }
  | _ => p

def readCounts (p : CompletionRequestPayload F) : CompletionRequestPayload F :=
  let usage := (j.objectAt "stream_options").bind (Json.boolAt "include_usage")
  let n := ((j.intAt "n").map fun n => min (max n 1) 10).getD p.n
  let bestOf := ((j.intAt "best_of").map fun b => min (max b 1) 20).getD p.bestOf
  { p with
    streamIncludeUsage := usage.getD p.streamIncludeUsage
    n
    bestOf := if bestOf < n then n else bestOf }

/-- The body of the `try` block, after the document has been parsed. -/
def readFields : Parse F Unit := do
  modify (readSampling env j ∘ readLogprobs j ∘ readGeneral j)
  readLogitBias env j
  readResponseFormat env j
  readMessages env j
  modify (readCounts j ∘ readStop j ∘ readToolChoice j ∘ readTools j)

/-- `ParseJsonPayload`: the payload, or the exception that leaves it. Only exceptions of the
JSON library are caught. -/
def parseJsonPayload (body : Bytes) : Except ConversionError (CompletionRequestPayload F) :=
  if body.isEmpty then .ok (defaultPayload env)
  else
    match env.parse body with
    | .error _ => .ok (defaultPayload env)
    | .ok j =>
      match Raises.result (readFields env j) (defaultPayload env) with
      | (.ok (), payload) => .ok payload
      | (.error (.json _), payload) => .ok payload
      | (.error (.conversion e), _) => .error e

end

/-- An environment with a library that reads one body only. -/
def libraryFor (body : Bytes) (document : Json) : PayloadEnv Int where
  parse text := if text = body then .ok document else .error (bytes "parse error")
  dump _ := .error (bytes "dump error")
  toFloat := Rat.floor
  httpGet _ := .error (bytes "no network")
  computeSha256Hex := id

end InferFlux.Http
