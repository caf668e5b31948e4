import InferFlux.Http.CompletionPayload
import InferFlux.Library.Exhaust

/-!
# Tool calls in a completion

Embeds `DetectToolCalls` with `ScanBalancedObject` and `TrimWs` from
`server/http/completion_payload.cpp`: one pass over the text that takes envelopes, Mistral
lists and JSON values out of it. The loop keeps the text that it has not read yet.

The JSON library is given by its functions; `JsonLibrary.reads` is what is known of them.
-/

namespace InferFlux.Http

open InferFlux.Text Occurrence Exhaust

structure ToolCallResult where
  callId : Bytes
  functionName : Bytes
  argumentsJson : Bytes
  deriving DecidableEq, Repr

structure ToolCallExtraction where
  calls : List ToolCallResult := []
  remainingText : Bytes := []
  deriving DecidableEq, Repr

def plainCall (name : Bytes) : Bytes :=
  bytes "\x7b\"name\":\"" ++ name ++ bytes "\",\"arguments\":\"\"\x7d"

def plainDocument (name : Bytes) : Json :=
  .object [(bytes "name", .string name), (bytes "arguments", .string [])]

def isLetter (c : UInt8) : Bool := 97 ≤ c && c ≤ 122

/-- `json::parse` and `dump`, unless they throw. The library reads at least the calls without
arguments whose name is of letters. -/
structure JsonLibrary where
  parse : Bytes → Option Json
  dump : Json → Option Bytes
  reads : ∀ name : Bytes, name.all isLetter → parse (plainCall name) = some (plainDocument name)

def isWs (c : UInt8) : Bool := c = 32 || c = 9 || c = 13 || c = 10

def trimWs (text : Bytes) : Bytes :=
  ((text.dropWhile isWs).reverse.dropWhile isWs).reverse

structure Nesting where
  depth : Int := 0
  inStr : Bool := false
  esc : Bool := false
  deriving DecidableEq, Repr

def kQuote : UInt8 := 34
def kBackslash : UInt8 := 92
def kOpenBrace : UInt8 := 123
def kCloseBrace : UInt8 := 125
def kOpenBracket : UInt8 := 91
def kCloseBracket : UInt8 := 93

def Nesting.read (opening closing : UInt8) (s : Nesting) (c : UInt8) : Nesting :=
  if s.inStr then
    if s.esc then { s with esc := false }
    else if c = kBackslash then { s with esc := true }
    else if c = kQuote then { s with inStr := false }
    else s
  else if c = kQuote then { s with inStr := true }
  else if c = opening then { s with depth := s.depth + 1 }
  else if c = closing then { s with depth := s.depth - 1 }
  else s

/-- The loop of `ScanBalancedObject`. -/
def scanLoop (opening closing : UInt8) : Nesting → Bytes → Option Nat
  | _, [] => none
  | s, c :: rest =>
    let t := s.read opening closing c
    if !s.inStr && c ≠ kQuote && c ≠ opening && c = closing && t.depth = 0 then some 1
    else if !s.inStr && c ≠ kQuote && c ≠ opening && c = closing && t.depth < 0 then none
    else (scanLoop opening closing t rest).map (· + 1)

def closingOf (opening : UInt8) : UInt8 :=
  if opening = kOpenBracket then kCloseBracket else kCloseBrace

/-- How many characters of the text the bracket at its beginning takes. -/
def scanBalancedObject (text : Bytes) : Option Nat :=
  match text with
  | [] => none
  | opening :: _ => scanLoop opening (closingOf opening) {} text

section

variable (lib : JsonLibrary)

def fill (n : Nat) (obj : Json) (explicitCall : Bool) : Option ToolCallResult :=
  let (tc, explicitCall) :=
    match obj.find "tool_call" with
    | some (.object fields) => (Json.object fields, true)
    | _ => (obj, explicitCall)
  match tc.find "name" with
  | some (.string name) =>
    if name.isEmpty then none
    else
      let callId := bytes "call_" ++ name ++ bytes ("_" ++ toString n)
      match (tc.find "arguments").or (tc.find "parameters") with
      | some (.object fields) =>
        (lib.dump (.object fields)).map fun arguments => ⟨callId, name, arguments⟩
      | some (.string arguments) => some ⟨callId, name, arguments⟩
      | some _ => none
      | none => if explicitCall then some ⟨callId, name, bytes "\x7b\x7d"⟩ else none
  | _ => none

def fillAll (n : Nat) : List Json → Option (List ToolCallResult)
  | [] => some []
  | item :: items => do
    let call ← fill lib n item true
    let calls ← fillAll (n + 1) items
    pure (call :: calls)

/-- `parse`: the calls of an envelope; all of them or none. -/
def parseCalls (n : Nat) (body : Bytes) (explicitCall : Bool) : Option (List ToolCallResult) :=
  match lib.parse body with
  | some (.object fields) => (fill lib n (.object fields) explicitCall).map fun call => [call]
  | some (.array items) =>
    if explicitCall && !items.isEmpty then fillAll lib n items else none
  | _ => none

def kToolCallOpen : Bytes := bytes "<tool_call>"
def kToolCallClose : Bytes := bytes "</tool_call>"
def kMistral : Bytes := bytes "[TOOL_CALLS]"
def kMistralClose : Bytes := bytes "[/TOOL_CALLS]"

structure CallScan where
  rest : Bytes
  calls : List ToolCallResult := []
  residual : Bytes := []
  deriving DecidableEq, Repr

/-- Read on behind an envelope of `consumed` characters, which stays in the text if its body is
no call. -/
def CallScan.consume (s : CallScan) (body : Bytes) (explicitCall : Bool) (consumed : Nat) :
    CallScan :=
  let rest := s.rest.drop consumed
  match parseCalls lib s.calls.length body explicitCall with
  | some calls => { s with rest, calls := s.calls ++ calls }
  | none => { s with rest, residual := s.residual ++ s.rest.take consumed }

def CallScan.stop (s : CallScan) : CallScan :=
  { s with rest := [], residual := s.residual ++ s.rest }

def CallScan.skip (s : CallScan) : CallScan :=
  { s with rest := s.rest.tail, residual := s.residual ++ s.rest.take 1 }

/-- A Mistral list at the beginning of the text: where its body starts and ends, and how much
it takes with its closing marker. -/
def mistralList (text : Bytes) : Option (Bytes × Nat) :=
  let body := (text.drop kMistral.length).dropWhile isWs
  if body.head? = some kOpenBracket then
    (scanBalancedObject body).map fun length =>
      let after := body.drop length
      let closing := after.dropWhile isWs
      let left := if kMistralClose <+: closing then closing.drop kMistralClose.length else after
      (body.take length, text.length - left.length)
  else none

def CallScan.step (s : CallScan) : Option CallScan :=
  match s.rest with
  | [] => none
  | c :: _ =>
    if kToolCallOpen <+: s.rest then
      let inner := s.rest.drop kToolCallOpen.length
      match first [kToolCallClose] inner with
      | none => some s.stop
      | some length =>
        some (s.consume lib (inner.take length) true
          (kToolCallOpen.length + length + kToolCallClose.length))
    else if kMistral <+: s.rest then
      match mistralList s.rest with
      | some (body, consumed) => some (s.consume lib body true consumed)
      | none => some s.skip
    else if c = kOpenBrace || c = kOpenBracket then
      match scanBalancedObject s.rest with
      | none => some s.stop
      | some length => some (s.consume lib (s.rest.take length) false length)
    else some s.skip

/-- The loop; every round reads at least one character. -/
def CallScan.run (s : CallScan) : CallScan :=
  exhaust (CallScan.step lib) (fun s => s.rest.length) s

def detectToolCalls (text : Bytes) : ToolCallExtraction :=
  let s := CallScan.run lib { rest := text }
  { calls := s.calls, remainingText := trimWs s.residual }

end

end InferFlux.Http
