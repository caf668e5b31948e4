import InferFlux.Http.CompletionPayload
import InferFlux.Http.RequestReader

/-!
# Response heads of the generation endpoint

Embeds the trace context of `server/tracing/span.h`, `BuildResponse`, the assembly of response
headers in the generation handler and the rewriting of the `Connection` header in `SendAll`
from `server/http/http_server.cpp`. What happens between the parsing of the payload and the
response is a function of the payload, and the random numbers are a parameter.
-/

namespace InferFlux.Http

open InferFlux.Text List

/-! ## Trace contexts -/

structure SpanContext where
  traceId : Bytes := []
  spanId : Bytes := []
  deriving DecidableEq, Repr

namespace SpanContext

def valid (ctx : SpanContext) : Bool := ctx.traceId.length = 32 && ctx.spanId.length = 16

def toTraceparent (ctx : SpanContext) : Bytes :=
  if ctx.valid then bytes "00-" ++ ctx.traceId ++ bytes "-" ++ ctx.spanId ++ bytes "-01" else []

end SpanContext

def hexDigit (n : Nat) : UInt8 :=
  if n % 16 < 10 then UInt8.ofNat (48 + n % 16) else UInt8.ofNat (87 + n % 16)

def hexWord (word : UInt64) : Bytes :=
  (List.range 16).map fun i => hexDigit (word.toNat / 16 ^ (15 - i))

def randomHex (words : List UInt64) : Bytes := words.flatMap hexWord

structure RandomWords where
  traceHigh : UInt64
  traceLow : UInt64
  span : UInt64

def childContext (parent : SpanContext) (random : RandomWords) : SpanContext where
  traceId := if parent.traceId.length = 32 then parent.traceId
    else randomHex [random.traceHigh, random.traceLow]
  spanId := randomHex [random.span]

def splitDash (text : Bytes) : Option (Bytes × Bytes) :=
  (text.findIdx? (· = 45)).map fun i => (text.take i, text.drop (i + 1))

/-- The second and the third part of a text with at least three dashes. -/
def traceparentParts (header : Bytes) : Option SpanContext := do
  let (_, rest) ← splitDash header
  let (traceId, rest) ← splitDash rest
  let (spanId, _) ← splitDash rest
  some { traceId, spanId }

def parseTraceparent (header : Bytes) : SpanContext :=
  if header.length < 55 then {}
  else
    match traceparentParts header with
    | some ctx => if ctx.valid then ctx else {}
    | none => {}

def requestTraceId (headers : Bytes) : Bytes :=
  let header := getHeaderValue headers (bytes "traceparent")
  if header.isEmpty then [] else (parseTraceparent header).traceId

/-! ## Responses -/

def buildResponse (body : Bytes) (status : Nat) (statusText extraHeaders : Bytes) : Bytes :=
  let headers := bytes "HTTP/1.1 " ++ toDecimal status ++ bytes " " ++ statusText ++ bytes "\r\n"
  let headers := headers ++ bytes "Content-Type: application/json\r\n"
  let headers := headers ++ bytes "Access-Control-Allow-Origin: *\r\n"
  let headers := headers ++ bytes "Connection: keep-alive\r\n"
  let headers := headers ++ extraHeaders
  let headers := headers ++ bytes "Content-Length: " ++ toDecimal body.length ++ bytes "\r\n\r\n"
  headers ++ body

def traceHeader (ctx : SpanContext) : Bytes :=
  if ctx.valid then bytes "traceparent: " ++ ctx.toTraceparent ++ bytes "\r\n" else []

def traceResponseHeader (ctx : SpanContext) (clientRequestId : Bytes) (isLegacyCompletions : Bool) :
    Bytes :=
  let header := traceHeader ctx
  let header := if clientRequestId.isEmpty then header
    else header ++ (bytes "x-inferflux-client-request-id: " ++ clientRequestId ++ bytes "\r\n")
  if isLegacyCompletions then
    header ++ (bytes "Deprecation: true\r\n" ++ bytes "Sunset: 2025-06-01\r\n" ++
      bytes "Link: </v1/chat/completions>; rel=\"successor-version\"\r\n")
  else header

def streamHeaders (traceResponseHeader : Bytes) : Bytes :=
  bytes "HTTP/1.1 200 OK\r\n" ++ bytes "Content-Type: text/event-stream\r\n" ++
    bytes "Cache-Control: no-cache\r\n" ++ bytes "Connection: keep-alive\r\n" ++
    traceResponseHeader ++ bytes "\r\n"

def kKeepAlive : Bytes := bytes "Connection: keep-alive\r\n"

/-- What `SendAll` puts on the wire: without keep-alive, the first `Connection` line says so. -/
def wirePayload (keepAlive : Bool) (payload : Bytes) : Bytes :=
  if keepAlive then payload
  else
    match Occurrence.first [kKeepAlive] payload with
    | some pos =>
      payload.take pos ++ bytes "Connection: close\r\n" ++ payload.drop (pos + kKeepAlive.length)
    | none => payload

inductive ErrorStatus where
  | badRequest
  | serviceUnavailable
  | notFound
  | unprocessableEntity
  | internal
  deriving DecidableEq, Repr

def ErrorStatus.code : ErrorStatus → Nat
  | badRequest => 400
  | serviceUnavailable => 503
  | notFound => 404
  | unprocessableEntity => 422
  | internal => 500

def ErrorStatus.text : ErrorStatus → Bytes
  | badRequest => bytes "Bad Request"
  | serviceUnavailable => bytes "Service Unavailable"
  | notFound => bytes "Not Found"
  | unprocessableEntity => bytes "Unprocessable Entity"
  | internal => bytes "Error"

/-- How the handling of a request ends, with the body that is built for it. -/
inductive Outcome where
  | failed (status : ErrorStatus) (body : Bytes)
  | generated (body : Bytes)

/-- All that the head of a response depends on, next to the payload. -/
structure Exchange (F : Type) where
  headers : Bytes
  isLegacyCompletions : Bool
  random : RandomWords
  outcome : CompletionRequestPayload F → Outcome

namespace Exchange

variable {F : Type} (x : Exchange F) (payload : CompletionRequestPayload F)

/-- The client request id of the body, or else of the headers. -/
def clientRequestId : Bytes :=
  if payload.clientRequestId.isEmpty then
    getHeaderValue x.headers (bytes "x-inferflux-client-request-id")
  else payload.clientRequestId

def requestContext : SpanContext := childContext { traceId := requestTraceId x.headers } x.random

def extraHeaders : Bytes :=
  traceResponseHeader x.requestContext (x.clientRequestId payload) x.isLegacyCompletions

def keepAlive : Bool := !wantsClose x.headers

/-- The response to a payload; that of a stream is its head, before the events. -/
def respond : Bytes :=
  match x.outcome payload with
  | .failed status body => wirePayload x.keepAlive (buildResponse body status.code status.text [])
  | .generated body =>
    if payload.n > 1 || payload.bestOf > 1 then
      if payload.stream then
        wirePayload x.keepAlive (buildResponse body 400 (bytes "Bad Request") [])
      else wirePayload x.keepAlive (buildResponse body 200 (bytes "OK") (traceHeader x.requestContext))
    else if payload.stream then wirePayload false (streamHeaders (x.extraHeaders payload))
    else wirePayload x.keepAlive (buildResponse body 200 (bytes "OK") (x.extraHeaders payload))

end Exchange

/-- The response of the generation endpoint to a request, unless an exception leaves the parser
of the payload. -/
def generationResponse {F : Type} [LinearOrder F] (env : PayloadEnv F) (body : Bytes)
    (x : Exchange F) : Option Bytes :=
  match parseJsonPayload env body with
  | .ok payload => some (x.respond payload)
  | .error _ => none

/-! ## The server's header lines -/

def Unbroken (text : Bytes) : Prop := 13 ∉ text ∧ 10 ∉ text

instance (text : Bytes) : Decidable (Unbroken text) :=
  inferInstanceAs (Decidable (13 ∉ text ∧ 10 ∉ text))

def joinLines (lines : List Bytes) : Bytes := lines.flatMap (· ++ kCrLf) ++ kCrLf

/-- The head of the response consists of exactly these lines. -/
def HeadConsistsOf (lines : List Bytes) (response : Bytes) : Prop :=
  joinLines lines <+: response ∧ ∀ line ∈ lines, Unbroken line

def connectionLine (keepAlive : Bool) : Bytes :=
  if keepAlive then bytes "Connection: keep-alive" else bytes "Connection: close"

def responseLines (keepAlive : Bool) (body : Bytes) (status : Nat) (statusText : Bytes)
    (extra : List Bytes) : List Bytes :=
  [bytes "HTTP/1.1 " ++ toDecimal status ++ bytes " " ++ statusText,
    bytes "Content-Type: application/json", bytes "Access-Control-Allow-Origin: *",
    connectionLine keepAlive] ++ extra ++ [bytes "Content-Length: " ++ toDecimal body.length]

def streamLines (extra : List Bytes) : List Bytes :=
  [bytes "HTTP/1.1 200 OK", bytes "Content-Type: text/event-stream",
    bytes "Cache-Control: no-cache", connectionLine false] ++ extra

def legacyLines : List Bytes :=
  [bytes "Deprecation: true", bytes "Sunset: 2025-06-01",
    bytes "Link: </v1/chat/completions>; rel=\"successor-version\""]

namespace Exchange

variable {F : Type} (x : Exchange F) (payload : CompletionRequestPayload F)

def traceLine : Bytes := bytes "traceparent: " ++ x.requestContext.toTraceparent

def clientLines : List Bytes :=
  if (x.clientRequestId payload).isEmpty then []
  else [bytes "x-inferflux-client-request-id: " ++ x.clientRequestId payload]

def extraLines : List Bytes :=
  [x.traceLine] ++ x.clientLines payload ++ if x.isLegacyCompletions then legacyLines else []

/-- The header lines of a response, as the server means them. -/
def serverLines : List Bytes :=
  match x.outcome payload with
  | .failed status body => responseLines x.keepAlive body status.code status.text []
  | .generated body =>
    if payload.n > 1 || payload.bestOf > 1 then
      if payload.stream then responseLines x.keepAlive body 400 (bytes "Bad Request") []
      else responseLines x.keepAlive body 200 (bytes "OK") [x.traceLine]
    else if payload.stream then streamLines (x.extraLines payload)
    else responseLines x.keepAlive body 200 (bytes "OK") (x.extraLines payload)

def EmitsTrace : Prop :=
  match x.outcome payload with
  | .failed .. => False
  | .generated _ => ¬ ((payload.n > 1 ∨ payload.bestOf > 1) ∧ payload.stream = true)

def EmitsClientId : Prop :=
  match x.outcome payload with
  | .failed .. => False
  | .generated _ => ¬ (payload.n > 1 ∨ payload.bestOf > 1)

end Exchange

variable {body statusText : Bytes} {status : Nat}

section

variable {a b : Bytes}

@[simp]
theorem unbroken_append : Unbroken (a ++ b) ↔ Unbroken a ∧ Unbroken b := by
  simp only [Unbroken, mem_append]
  tauto

theorem unbroken_toDecimal (n : Nat) : Unbroken (toDecimal n) := by
  constructor
  · intro h
    cases isDigit_of_mem_toDecimal h
  · intro h
    cases isDigit_of_mem_toDecimal h

theorem length_randomHex (words : List UInt64) : (randomHex words).length = 16 * words.length := by
  simp [randomHex, hexWord, length_flatMap, Nat.mul_comm]

theorem unbroken_randomHex (words : List UInt64) : Unbroken (randomHex words) := by
  have hdigit : ∀ n, hexDigit n ≠ 13 ∧ hexDigit n ≠ 10 := by
    intro n
    have hlt : n % 16 < 16 := Nat.mod_lt _ (by omega)
    unfold hexDigit
    generalize n % 16 = k at hlt
    revert hlt
    revert k
    decide
  simp only [Unbroken, randomHex, hexWord, mem_flatMap, mem_map, not_exists, not_and]
  exact ⟨fun _ _ _ _ => (hdigit _).1, fun _ _ _ _ => (hdigit _).2⟩

theorem parseTraceparent_cases (header : Bytes) :
    parseTraceparent header = {} ∨ (parseTraceparent header).valid := by
  unfold parseTraceparent
  split
  · exact .inl rfl
  · cases traceparentParts header with
    | none => exact .inl rfl
    | some ctx =>
      by_cases hvalid : ctx.valid
      · exact .inr (by simp [hvalid])
      · exact .inl (by simp [hvalid])

/-- The trace id of a request is empty or has 32 bytes. -/
theorem requestTraceId_cases (headers : Bytes) :
    requestTraceId headers = [] ∨ (requestTraceId headers).length = 32 := by
  simp only [requestTraceId]
  split
  · exact .inl rfl
  · obtain hempty | hvalid := parseTraceparent_cases (getHeaderValue headers (bytes "traceparent"))
    · exact .inl (by rw [hempty])
    · simp only [SpanContext.valid, Bool.and_eq_true, decide_eq_true_eq] at hvalid
      exact .inr hvalid.1

/-- Without the first `Connection` line the rest of the payload is as it was. -/
theorem wirePayload_eq (before : Bytes) (keepAlive : Bool) (rest : Bytes)
    (hfirst : Occurrence.first [kKeepAlive] (before ++ kKeepAlive) = some before.length) :
    wirePayload keepAlive (before ++ kKeepAlive ++ rest) =
      before ++ (connectionLine keepAlive ++ kCrLf) ++ rest := by
  have hkeep : kKeepAlive = connectionLine true ++ kCrLf := by decide
  have hclose : bytes "Connection: close\r\n" = connectionLine false ++ kCrLf := by decide
  cases keepAlive with
  | true => simp [wirePayload, hkeep]
  | false =>
    have hp : before ++ kKeepAlive <+: before ++ kKeepAlive ++ rest := prefix_append ..
    have hwhole := ((Occurrence.first_isPrefix_iff (by decide) hp).mp hfirst).1
    simp only [wirePayload, Bool.false_eq_true, if_false, hwhole]
    rw [append_assoc before, take_left, ← drop_drop, drop_left, drop_left, hclose]

def kStatusLines : List (Nat × Bytes) :=
  [(200, bytes "OK"), (400, bytes "Bad Request"), (503, bytes "Service Unavailable"),
    (404, bytes "Not Found"), (422, bytes "Unprocessable Entity"), (500, bytes "Error")]

def beforeConnection (status : Nat × Bytes) : Bytes :=
  bytes "HTTP/1.1 " ++ toDecimal status.1 ++ bytes " " ++ status.2 ++ bytes "\r\n" ++
    bytes "Content-Type: application/json\r\n" ++ bytes "Access-Control-Allow-Origin: *\r\n"

theorem first_keepAlive : ∀ status ∈ kStatusLines,
    Occurrence.first [kKeepAlive] (beforeConnection status ++ kKeepAlive) =
      some (beforeConnection status).length := by
  decide

theorem wirePayload_buildResponse {keepAlive : Bool} (extra : List Bytes)
    (hstatus : (status, statusText) ∈ kStatusLines) :
    wirePayload keepAlive (buildResponse body status statusText (extra.flatMap (· ++ kCrLf))) =
      joinLines (responseLines keepAlive body status statusText extra) ++ body := by
  have hwire := wirePayload_eq (beforeConnection (status, statusText)) keepAlive (extra.flatMap (· ++ kCrLf) ++
    (bytes "Content-Length: " ++ toDecimal body.length ++ bytes "\r\n\r\n" ++ body))
    (first_keepAlive _ hstatus)
  have hlines : bytes "\r\n" = kCrLf ∧
      bytes "Content-Type: application/json\r\n" = bytes "Content-Type: application/json" ++ kCrLf ∧
      bytes "Access-Control-Allow-Origin: *\r\n" = bytes "Access-Control-Allow-Origin: *" ++ kCrLf ∧
      bytes "\r\n\r\n" = kCrLf ++ kCrLf := by decide
  obtain ⟨h1, h2, h3, h4⟩ := hlines
  simp only [buildResponse, beforeConnection, joinLines, responseLines, flatMap_append, flatMap_cons,
    flatMap_nil, append_nil, append_assoc, kKeepAlive, h1, h2, h3, h4] at hwire ⊢
  exact hwire

theorem wirePayload_streamHeaders (extra : List Bytes) :
    wirePayload false (streamHeaders (extra.flatMap (· ++ kCrLf))) =
      joinLines (streamLines extra) := by
  have hwire := wirePayload_eq (bytes "HTTP/1.1 200 OK\r\n" ++
    bytes "Content-Type: text/event-stream\r\n" ++ bytes "Cache-Control: no-cache\r\n") false
    (extra.flatMap (· ++ kCrLf) ++ bytes "\r\n") (by decide)
  have hlines : bytes "\r\n" = kCrLf ∧ bytes "HTTP/1.1 200 OK\r\n" = bytes "HTTP/1.1 200 OK" ++ kCrLf ∧
      bytes "Content-Type: text/event-stream\r\n" = bytes "Content-Type: text/event-stream" ++ kCrLf ∧
      bytes "Cache-Control: no-cache\r\n" = bytes "Cache-Control: no-cache" ++ kCrLf := by
    decide
  obtain ⟨h1, h2, h3, h4⟩ := hlines
  exact hwire

end

namespace Exchange

variable {F : Type} (x : Exchange F) (payload : CompletionRequestPayload F)

theorem valid_requestContext : x.requestContext.valid := by
  simp only [requestContext, childContext, SpanContext.valid, Bool.and_eq_true, decide_eq_true_eq]
  refine ⟨?_, length_randomHex _⟩
  split
  · assumption
  · exact length_randomHex _

theorem traceHeader_eq : traceHeader x.requestContext = [x.traceLine].flatMap (· ++ kCrLf) := by
  have hcrlf : bytes "\r\n" = kCrLf := by decide
  simp [traceHeader, x.valid_requestContext, traceLine, hcrlf]

theorem extraHeaders_eq : x.extraHeaders payload = (x.extraLines payload).flatMap (· ++ kCrLf) := by
  have hcrlf : bytes "\r\n" = kCrLf := by decide
  have hlegacy : bytes "Deprecation: true\r\n" ++ bytes "Sunset: 2025-06-01\r\n" ++
      bytes "Link: </v1/chat/completions>; rel=\"successor-version\"\r\n" =
      legacyLines.flatMap (· ++ kCrLf) := by decide
  simp only [extraHeaders, traceResponseHeader, extraLines, clientLines, hcrlf, hlegacy,
    flatMap_append, traceHeader_eq]
  split <;> split <;> simp [append_assoc]

theorem joinLines_serverLines : joinLines (x.serverLines payload) <+: x.respond payload := by
  unfold serverLines respond
  cases x.outcome payload with
  | failed status body =>
    have hstatus : (status.code, status.text) ∈ kStatusLines := by
      cases status <;> decide
    exact ⟨body, (wirePayload_buildResponse [] hstatus).symm⟩
  | generated body =>
    simp only
    split
    · split
      · exact ⟨body, (wirePayload_buildResponse [] (by decide)).symm⟩
      · rw [traceHeader_eq]
        exact ⟨body, (wirePayload_buildResponse _ (by decide)).symm⟩
    · rw [extraHeaders_eq]
      split
      · exact ⟨[], by rw [wirePayload_streamHeaders, append_nil]⟩
      · exact ⟨body, (wirePayload_buildResponse _ (by decide)).symm⟩

theorem unbroken_traceLine : Unbroken x.traceLine ↔ Unbroken (requestTraceId x.headers) := by
  have hvalid := x.valid_requestContext
  have hparts : Unbroken (bytes "traceparent: ") ∧ Unbroken (bytes "00-") ∧ Unbroken (bytes "-") ∧
      Unbroken (bytes "-01") := by decide
  have hspan : Unbroken x.requestContext.spanId := unbroken_randomHex _
  have hid : Unbroken x.requestContext.traceId ↔ Unbroken (requestTraceId x.headers) := by
    simp only [requestContext, childContext]
    obtain hempty | hlength := requestTraceId_cases x.headers
    · rw [hempty]
      exact iff_of_true (unbroken_randomHex _) (by decide)
    · rw [if_pos hlength]
  simp [traceLine, SpanContext.toTraceparent, hvalid, hparts, hspan, hid]

theorem unbroken_clientLines :
    (∀ line ∈ x.clientLines payload, Unbroken line) ↔ Unbroken (x.clientRequestId payload) := by
  have hname : Unbroken (bytes "x-inferflux-client-request-id: ") := by decide
  unfold clientLines
  split
  · rename_i hempty
    rw [List.isEmpty_iff] at hempty
    simp [hempty, Unbroken]
  · simp [hname]

theorem unbroken_extraLines :
    (∀ line ∈ x.extraLines payload, Unbroken line) ↔
      Unbroken (requestTraceId x.headers) ∧ Unbroken (x.clientRequestId payload) := by
  have hlegacy : ∀ line ∈ if x.isLegacyCompletions then legacyLines else [], Unbroken line := by
    cases x.isLegacyCompletions <;> decide
  simp only [extraLines, forall_mem_append, forall_mem_singleton, unbroken_traceLine,
    unbroken_clientLines, and_iff_left hlegacy]

end Exchange

variable {extra : List Bytes}

theorem unbroken_responseLines {keepAlive : Bool} (hstatus : (status, statusText) ∈ kStatusLines) :
    (∀ line ∈ responseLines keepAlive body status statusText extra, Unbroken line) ↔
      ∀ line ∈ extra, Unbroken line := by
  have htext : ∀ s ∈ kStatusLines, Unbroken s.2 := by decide
  have hconn : Unbroken (connectionLine keepAlive) := by cases keepAlive <;> decide
  have hconst : Unbroken (bytes "HTTP/1.1 ") ∧ Unbroken (bytes " ") ∧
      Unbroken (bytes "Content-Type: application/json") ∧
      Unbroken (bytes "Access-Control-Allow-Origin: *") ∧
      Unbroken (bytes "Content-Length: ") := by decide
  have htext := htext _ hstatus
  simp only [responseLines, forall_mem_append, forall_mem_cons, not_mem_nil,
    false_imp_iff, implies_true, unbroken_append, hconst, hconn, unbroken_toDecimal, htext, and_true,
    true_and]

theorem unbroken_streamLines :
    (∀ line ∈ streamLines extra, Unbroken line) ↔ ∀ line ∈ extra, Unbroken line := by
  have hconst : ∀ line ∈ streamLines [], Unbroken line := by decide
  have happ : streamLines extra = streamLines [] ++ extra := by simp [streamLines]
  rw [happ, forall_mem_append, and_iff_right hconst]

/-- The head of a response consists of exactly the lines that the server adds, exactly if the
strings of the client that it holds have no line breaks: the trace id of the `traceparent`,
and the client request id. -/
theorem headConsistsOf_iff {F : Type} [LinearOrder F] {env : PayloadEnv F} {body : Bytes}
    {x : Exchange F} {payload : CompletionRequestPayload F} {response : Bytes}
    (hparse : parseJsonPayload env body = .ok payload)
    (hresp : generationResponse env body x = some response) :
    HeadConsistsOf (x.serverLines payload) response ↔
      (x.EmitsTrace payload → Unbroken (requestTraceId x.headers)) ∧
        (x.EmitsClientId payload → Unbroken (x.clientRequestId payload)) := by
  obtain rfl : x.respond payload = response := by simpa [generationResponse, hparse] using hresp
  have hlines : HeadConsistsOf (x.serverLines payload) (x.respond payload) ↔
      ∀ line ∈ x.serverLines payload, Unbroken line :=
    and_iff_right (x.joinLines_serverLines payload)
  rw [hlines]
  unfold Exchange.serverLines Exchange.EmitsTrace Exchange.EmitsClientId
  cases x.outcome payload with
  | failed status text =>
    have hstatus : (status.code, status.text) ∈ kStatusLines := by
      cases status <;> decide
    simp [unbroken_responseLines hstatus]
  | generated text =>
    have hok : (200, bytes "OK") ∈ kStatusLines := by decide
    have hbad : (400, bytes "Bad Request") ∈ kStatusLines := by decide
    by_cases hmulti : payload.n > 1 ∨ payload.bestOf > 1
    · by_cases hstream : payload.stream = true
      · simp [hmulti, hstream, unbroken_responseLines hbad]
      · simp [hmulti, hstream, unbroken_responseLines hok, x.unbroken_traceLine]
    · by_cases hstream : payload.stream = true
      · simp [hmulti, hstream, unbroken_streamLines, x.unbroken_extraLines]
      · simp [hmulti, hstream, unbroken_responseLines hok, x.unbroken_extraLines]

/-- A request for a chat; without a prompt or messages there is nothing to generate. -/
def chatExchange : Exchange Int where
  headers := bytes "POST /v1/chat/completions HTTP/1.1"
  isLegacyCompletions := false
  random := ⟨1, 2, 3⟩
  outcome payload :=
    if payload.prompt.isEmpty && payload.messages.isEmpty then
      .failed .badRequest (bytes "\x7b\"error\":\"prompt or messages are required\"\x7d")
    else .generated (bytes "\x7b\x7d")

def chatBody (id : String) : Bytes :=
  bytes ("\x7b\"model\":\"m\",\"messages\":[\x7b\"role\":\"user\",\"content\":\"hi\"\x7d]," ++
    "\"client_request_id\":\"" ++ id ++ "\"\x7d")

def chatDocument (id : Bytes) : Json :=
  .object [(bytes "model", .string (bytes "m")),
    (bytes "messages", .array [.object [(bytes "role", .string (bytes "user")),
      (bytes "content", .string (bytes "hi"))]]),
    (bytes "client_request_id", .string id)]

def chatPayload (id : Bytes) : CompletionRequestPayload Int :=
  { defaultPayload (libraryFor [] .null) with
    model := bytes "m"
    messages := [{ role := bytes "user", content := bytes "hi" }]
    clientRequestId := id }

/-- An id without line breaks leaves the head as the server means it. -/
theorem headConsistsOf_plain_id :
    chatExchange.outcome (chatPayload (bytes "a")) = .generated (bytes "\x7b\x7d") ∧
      HeadConsistsOf (chatExchange.serverLines (chatPayload (bytes "a")))
        (chatExchange.respond (chatPayload (bytes "a"))) := by
  have hparse : parseJsonPayload (libraryFor (chatBody "a") (chatDocument (bytes "a")))
      (chatBody "a") = .ok (chatPayload (bytes "a")) := rfl
  have hresp : generationResponse (libraryFor (chatBody "a") (chatDocument (bytes "a")))
      (chatBody "a") chatExchange = some (chatExchange.respond (chatPayload (bytes "a"))) := rfl
  exact ⟨rfl, (headConsistsOf_iff hparse hresp).mpr ⟨fun _ => by decide, fun _ => by decide⟩⟩

/-- An id with a line break brings a `Set-Cookie` line into the head of the response. -/
theorem client_request_id_splits_head :
    let body := chatBody "a\\r\\nSet-Cookie: s=1"
    let id := bytes "a\r\nSet-Cookie: s=1"
    parseJsonPayload (libraryFor body (chatDocument id)) body = .ok (chatPayload id) ∧
      chatExchange.outcome (chatPayload id) = .generated (bytes "\x7b\x7d") ∧
      generationResponse (libraryFor body (chatDocument id)) body chatExchange =
        some (chatExchange.respond (chatPayload id)) ∧
      ¬ HeadConsistsOf (chatExchange.serverLines (chatPayload id))
        (chatExchange.respond (chatPayload id)) := by
  intro body id
  refine ⟨rfl, rfl, rfl, ?_⟩
  rintro ⟨-, hunbroken⟩
  have hline := hunbroken (bytes "x-inferflux-client-request-id: " ++ id) (by decide)
  exact absurd hline (by decide)

end InferFlux.Http
