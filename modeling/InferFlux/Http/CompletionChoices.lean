import InferFlux.Execution.InferenceRequest
import InferFlux.Http.ToolCallsAfterProse
import InferFlux.Text.HarmonySplitter

/-!
# The choices of a response

Embeds `BuildCompletionBody` and the path of `HandleClient` for several completions
(`server/http/http_server.cpp`) with `ResponseSplitter::Split`
(`runtime/text/response_splitter.h`). The results are those that are left after the ranking.
Of the body, the id, the time stamp, the cache split and the timings are left out.
-/

namespace InferFlux.Http

open InferFlux.Text InferFlux.Execution List

inductive ChatTemplateFamily where
  | chatML
  | llama
  | mistral
  | gemma
  | harmony
  deriving DecidableEq, Repr

def splitResponse : ChatTemplateFamily → Bytes → Parts
  | .harmony, output => HarmonySplitter.split output
  | _, output => ReasoningSplitter.split output

structure Message where
  /-- Null when the completion was only tool calls. -/
  content : Option Bytes
  toolCalls : List ToolCallResult := []
  reasoningContent : Option Bytes := none
  deriving DecidableEq, Repr

inductive Choice where
  | chat (index : Nat) (message : Message) (finishReason : Bytes)
  | text (index : Nat) (text : Bytes) (finishReason : Bytes)
  deriving DecidableEq, Repr

structure CompletionBody where
  object : Bytes
  model : Bytes
  clientRequestId : Option Bytes
  promptTokens : Int
  completionTokens : Int
  choices : List Choice
  /-- In the details of the usage, if positive. -/
  reasoningTokens : Option Nat
  deriving DecidableEq, Repr

structure ChoiceMode where
  chatMode : Bool := true
  splitDisabled : Bool := false
  family : ChatTemplateFamily := .chatML
  deriving DecidableEq, Repr

def ChoiceMode.splits (mode : ChoiceMode) : Bool := mode.chatMode && !mode.splitDisabled

/-! ## The body -/

def finishReason (result : InferenceResult) : Bytes :=
  if result.finishReasonLength then bytes "length" else bytes "stop"

def resultParts (mode : ChoiceMode) (result : InferenceResult) : Parts :=
  if mode.splits then splitResponse mode.family result.completion
  else { reasoning := [], content := result.completion }

def choiceReasoning (mode : ChoiceMode) (reasoningContent : Bytes) (index : Nat)
    (result : InferenceResult) : Bytes :=
  let reasoning := (resultParts mode result).reasoning
  if reasoning.isEmpty && index = 0 && !reasoningContent.isEmpty then reasoningContent
  else reasoning

def choiceMessage (mode : ChoiceMode) (reasoningContent : Bytes) (extraction : ToolCallExtraction)
    (index : Nat) (result : InferenceResult) : Message :=
  let reasoning := choiceReasoning mode reasoningContent index result
  { content :=
      if extraction.calls.isEmpty then some (resultParts mode result).content
      else if extraction.remainingText.isEmpty then none
      else some extraction.remainingText
    toolCalls := extraction.calls
    reasoningContent := if reasoning.isEmpty then none else some reasoning }

def buildChoice (mode : ChoiceMode) (toolCalls : List ToolCallExtraction) (reasoningContent : Bytes)
    (index : Nat) (result : InferenceResult) : Choice :=
  if mode.chatMode then
    let extraction := toolCalls.getD index {}
    .chat index (choiceMessage mode reasoningContent extraction index result)
      (if extraction.calls.isEmpty then finishReason result else bytes "tool_calls")
  else .text index (resultParts mode result).content (finishReason result)

section

variable {F : Type} (lib : JsonLibrary) (mode : ChoiceMode) (request : CompletionRequestPayload F)

def buildCompletionBody (results : List InferenceResult) (totalCompletionTokens : Int)
    (toolCalls : List ToolCallExtraction) (reasoningContent : Bytes) (reasoningTokens : Nat) :
    CompletionBody :=
  let first := results.head?
  let split := (results.filter fun r => !(resultParts mode r).reasoning.isEmpty).length
  let reasoningTokens := if split > 0 then split else reasoningTokens
  { object := if mode.chatMode then bytes "chat.completion" else bytes "text_completion"
    model := match first with
      | some r => if r.modelId.isEmpty then request.model else bytes r.modelId
      | none => request.model
    clientRequestId :=
      if request.clientRequestId.isEmpty then none else some request.clientRequestId
    promptTokens := (first.map (·.promptTokens)).getD 0
    completionTokens := totalCompletionTokens
    choices := results.mapIdx (buildChoice mode toolCalls reasoningContent)
    reasoningTokens := if reasoningTokens > 0 then some reasoningTokens else none }

/-! ## The handler -/

/-- The results with their reasoning taken out, the reasoning that is kept, and the number of
results that have some. -/
structure Separated where
  results : List InferenceResult := []
  reasoningContent : Bytes := []
  reasoningTokens : Nat := 0

/-- One result of the loop that separates the reasoning. -/
def Separated.add (s : Separated) (result : InferenceResult) : Separated :=
  let parts := splitResponse mode.family result.completion
  if parts.reasoning.isEmpty then { s with results := s.results ++ [result] }
  else
    { results := s.results ++ [{ result with completion := parts.content }]
      reasoningContent := parts.reasoning
      reasoningTokens := s.reasoningTokens + 1 }

def separateReasoning (results : List InferenceResult) : Separated :=
  if mode.splits then results.foldl (Separated.add mode) {} else { results }

def makeStubToolCall (functionName : Bytes) : ToolCallResult :=
  let name := if functionName.isEmpty then bytes "stub_tool" else functionName
  { callId := bytes "call_stub_" ++ name
    functionName := name
    argumentsJson := bytes "\x7b\"reason\":\"no_model_available\"\x7d" }

def useTools : Bool :=
  (request.hasToolSchema || !request.tools.isEmpty) && request.toolChoice != bytes "none"

def extractCalls (result : InferenceResult) : ToolCallExtraction :=
  if useTools request then
    let isStub := result.noBackend ||
      (Occurrence.first [bytes "No model backend is loaded"] result.completion).isSome
    match request.tools with
    | tool :: _ =>
      if isStub then { calls := [makeStubToolCall tool.function.name] }
      else detectToolCalls lib result.completion
    | [] => detectToolCalls lib result.completion
  else {}

def multiCompletionBody (results : List InferenceResult) (totalCompletionTokens : Int) :
    CompletionBody :=
  let separated := separateReasoning mode results
  buildCompletionBody mode request separated.results totalCompletionTokens
    (separated.results.map (extractCalls lib request)) separated.reasoningContent
    separated.reasoningTokens

/-- The path of `HandleClient` for one completion of a request without tools. -/
def completionBody (result : InferenceResult) : CompletionBody :=
  let parts := splitResponse mode.family result.completion
  if mode.splits && !parts.reasoning.isEmpty then
    buildCompletionBody mode request [{ result with completion := parts.content }]
      result.completionTokens [{}] parts.reasoning 1
  else buildCompletionBody mode request [result] result.completionTokens [{}] [] 0

end

/-! ## Whose reasoning a choice has -/

/-- The choice has the reasoning of the split, and its content if the text is not replaced by
tool calls. -/
def Choice.IsOwn (own : Parts) : Choice → Prop
  | .chat _ message _ =>
    message.reasoningContent = (if own.reasoning.isEmpty then none else some own.reasoning) ∧
      (message.toolCalls = [] → message.content = some own.content)
  | .text .. => False

def laterReasoning (family : ChatTemplateFamily) (kept : Bytes) (result : InferenceResult) :
    Bytes :=
  let reasoning := (splitResponse family result.completion).reasoning
  if reasoning.isEmpty then kept else reasoning

def lastReasoning (family : ChatTemplateFamily) (results : List InferenceResult) : Bytes :=
  results.foldl (laterReasoning family) []

def separatedResult (family : ChatTemplateFamily) (result : InferenceResult) : InferenceResult :=
  let parts := splitResponse family result.completion
  if parts.reasoning.isEmpty then result else { result with completion := parts.content }

variable (mode : ChoiceMode)

theorem add_eq (s : Separated) (result : InferenceResult) :
    (s.add mode result).results = s.results ++ [separatedResult mode.family result] ∧
      (s.add mode result).reasoningContent =
        laterReasoning mode.family s.reasoningContent result := by
  simp only [Separated.add, separatedResult, laterReasoning]
  split_ifs <;> exact ⟨rfl, rfl⟩

theorem foldl_add (s : Separated) (results : List InferenceResult) :
    (results.foldl (Separated.add mode) s).results =
        s.results ++ results.map (separatedResult mode.family) ∧
      (results.foldl (Separated.add mode) s).reasoningContent =
        results.foldl (laterReasoning mode.family) s.reasoningContent := by
  induction results generalizing s with
  | nil => simp
  | cons r results ih =>
    obtain ⟨hresults, hreasoning⟩ := ih (s.add mode r)
    obtain ⟨haddResults, haddReasoning⟩ := add_eq mode s r
    rw [foldl_cons, foldl_cons, hresults, hreasoning, haddResults, haddReasoning,
      append_assoc]
    exact ⟨rfl, rfl⟩

theorem separateReasoning_eq (hsplits : mode.splits) (results : List InferenceResult) :
    (separateReasoning mode results).results = results.map (separatedResult mode.family) ∧
      (separateReasoning mode results).reasoningContent = lastReasoning mode.family results := by
  simpa [separateReasoning, hsplits, lastReasoning] using foldl_add mode {} results

theorem foldl_laterReasoning {family : ChatTemplateFamily} {results : List InferenceResult}
    (h : ∀ result ∈ results, (splitResponse family result.completion).reasoning = [])
    (kept : Bytes) : results.foldl (laterReasoning family) kept = kept := by
  induction results with
  | nil => rfl
  | cons result results ih =>
    obtain ⟨hresult, hrest⟩ := forall_mem_cons.mp h
    rw [foldl_cons, laterReasoning, hresult]
    exact ih hrest

def NothingLeft (family : ChatTemplateFamily) (content : Bytes) : Prop :=
  family = .harmony → HarmonySplitter.MarkerFree content

theorem splitResponse_again {family : ChatTemplateFamily} {text : Bytes}
    (h : NothingLeft family (splitResponse family text).content) :
    splitResponse family (splitResponse family text).content =
      ⟨[], (splitResponse family text).content⟩ := by
  cases family with
  | harmony => exact HarmonySplitter.split_of_markerFree (h rfl)
  | chatML | llama | mistral | gemma => exact ReasoningSplitter.split_content text

theorem nothingLeft_of_content {family : ChatTemplateFamily} {content : Bytes}
    (h : (splitResponse family content).content = content) : NothingLeft family content := by
  rintro rfl
  exact HarmonySplitter.markerFree_of_split_content h

/-- A choice has what the split of its own result gives if the result has no reasoning and gets
none, or is the first one, gets its own reasoning back and has nothing left to split. Only tool
calls of the harmony format can hide that it is otherwise. -/
theorem buildChoice_isOwn_iff (family : ChatTemplateFamily) (toolCalls : List ToolCallExtraction)
    (shared : Bytes) (i : Nat) (result : InferenceResult) :
    let own := splitResponse family result.completion
    let choice := buildChoice { family } toolCalls shared i (separatedResult family result)
    let keeps := if own.reasoning = [] then i = 0 → shared = []
      else i = 0 ∧ shared = own.reasoning ∧ NothingLeft family own.content
    (keeps → choice.IsOwn own) ∧
      ((family = .harmony → (toolCalls.getD i {}).calls = []) → choice.IsOwn own → keeps) := by
  have hsplits : ({ family } : ChoiceMode).splits = true := rfl
  have hparts (r : InferenceResult) : resultParts { family } r = splitResponse family r.completion := by
    rw [resultParts, if_pos hsplits]
  have hagain := @splitResponse_again family result.completion
  have hleft := @nothingLeft_of_content family (splitResponse family result.completion).content
  generalize hown : splitResponse family result.completion = own at hagain hleft
  simp only [buildChoice, if_true, Choice.IsOwn, choiceMessage, choiceReasoning, hparts,
    separatedResult, hown, List.isEmpty_iff]
  generalize toolCalls.getD i {} = extraction
  by_cases hnone : own.reasoning = []
  · by_cases hshared : shared = [] <;> by_cases hi : i = 0 <;> simp_all
  · simp only [hnone, if_false]
    by_cases hnothing : NothingLeft family own.content
    · by_cases hshared : shared = [] <;> by_cases hi : i = 0 <;> grind
    · have hharmony : family = .harmony := by
        by_contra hother
        exact hnothing fun h => absurd h hother
      grind

/-- Every choice has the reasoning and the content of its own result if only the first result has
reasoning and its content has nothing left to split. Unless there are tools in the harmony format,
it is so only then. -/
theorem choices_isOwn_iff {F : Type} (lib : JsonLibrary) (family : ChatTemplateFamily)
    (request : CompletionRequestPayload F) (results : List InferenceResult)
    (totalCompletionTokens : Int) :
    let own (result : InferenceResult) := splitResponse family result.completion
    let owns := ∀ (i : Nat) (result : InferenceResult), results[i]? = some result →
      ∃ choice : Choice, (multiCompletionBody lib { family } request results
          totalCompletionTokens).choices[i]? = some choice ∧ choice.IsOwn (own result)
    let onlyFirst := (∀ result ∈ results.tail, (own result).reasoning = []) ∧
      ∀ result ∈ results.head?, (own result).reasoning ≠ [] → family = .harmony →
        HarmonySplitter.MarkerFree (own result).content
    (onlyFirst → owns) ∧ ((family = .harmony → useTools request = false) → owns → onlyFirst) := by
  intro own owns onlyFirst
  obtain ⟨hresults, hshared⟩ := separateReasoning_eq { family } rfl results
  have hchoice (i : Nat) (result : InferenceResult) (hi : results[i]? = some result) :
      (multiCompletionBody lib { family } request results totalCompletionTokens).choices[i]? =
        some (buildChoice { family } ((results.map (separatedResult family)).map
          (extractCalls lib request)) (lastReasoning family results) i
          (separatedResult family result)) := by
    simp [multiCompletionBody, buildCompletionBody, hresults, hshared, hi]
  constructor
  · rintro ⟨htail, hhead⟩ i result hi
    refine ⟨_, hchoice i result hi, (buildChoice_isOwn_iff ..).1 ?_⟩
    cases results with
    | nil => cases hi
    | cons first rest =>
      have hlast : lastReasoning family (first :: rest) = (own first).reasoning := by
        refine (foldl_laterReasoning htail _).trans ?_
        unfold laterReasoning
        grind
      cases i with
      | zero =>
        obtain rfl := Option.some.inj hi
        rw [hlast]
        split_ifs with hnone
        · exact fun _ => hnone
        · exact ⟨rfl, rfl, hhead first rfl hnone⟩
      | succ i =>
        rw [if_pos (htail result (mem_of_getElem? hi))]
        exact fun h => absurd h (Nat.succ_ne_zero i)
  · intro htools h
    have hkeeps (i : Nat) (result : InferenceResult) (hi : results[i]? = some result) :=
      (buildChoice_isOwn_iff family ((results.map (separatedResult family)).map
        (extractCalls lib request)) (lastReasoning family results) i result).2
        (fun hharmony => by simp [extractCalls, htools hharmony, hi]) (by
          obtain ⟨choice, hat, hown⟩ := h i result hi
          rw [hchoice i result hi] at hat
          exact Option.some.inj hat ▸ hown)
    cases results with
    | nil => exact ⟨by simp, by simp⟩
    | cons first rest =>
      refine ⟨fun result hresult => ?_, fun result hresult hsome => ?_⟩
      · obtain ⟨i, hi⟩ := getElem?_of_mem hresult
        by_contra hsome
        have := hkeeps (i + 1) result hi
        rw [if_neg hsome] at this
        exact absurd this.1 (Nat.succ_ne_zero i)
      · have := hkeeps 0 result hresult
        rw [if_neg hsome] at this
        exact this.2.2

def plainRequest : CompletionRequestPayload Nat where
  temperature := 1
  topP := 1
  minP := 0
  frequencyPenalty := 0
  presencePenalty := 0
  repetitionPenalty := 1

/-- The first choice gets the reasoning of the second one, which loses it. -/
theorem reasoning_moves_to_first_choice :
    (multiCompletionBody plainLibrary {} plainRequest
        [{ completion := bytes "<think>a</think>x" }, { completion := bytes "<think>b</think>y" }]
        8).choices =
      [.chat 0 { content := some (bytes "x"), reasoningContent := some (bytes "b") } (bytes "stop"),
        .chat 1 { content := some (bytes "y") } (bytes "stop")] := by
  decide

/-- The response to one completion without tools carries its split: always with think tags, and
in the harmony format exactly if there is no reasoning or no marker is left in the content. -/
theorem completionBody_splits_iff {F : Type} (family : ChatTemplateFamily)
    (request : CompletionRequestPayload F) (result : InferenceResult) :
    let own := splitResponse family result.completion
    (∃ choice, (completionBody { family } request result).choices = [choice] ∧ choice.IsOwn own) ↔
      (family = .harmony → own.reasoning = [] ∨ HarmonySplitter.MarkerFree own.content) := by
  intro own
  have hchoice : (completionBody { family } request result).choices =
      [buildChoice { family } [{}] own.reasoning 0 (separatedResult family result)] := by
    by_cases hnone : own.reasoning = [] <;>
      simp [completionBody, buildCompletionBody, separatedResult, ChoiceMode.splits, own, hnone]
  have hiff := buildChoice_isOwn_iff family [{}] own.reasoning 0 result
  simp only [hchoice, List.cons.injEq, and_true, exists_eq_left']
  refine ⟨fun h hharmony => ?_, fun h => hiff.1 ?_⟩
  · have := hiff.2 (fun _ => rfl) h
    split_ifs at this with hnone
    · exact .inl hnone
    · exact .inr (this.2.2 hharmony)
  · split_ifs with hnone
    · exact fun _ => hnone
    · exact ⟨rfl, rfl, fun hharmony => (h hharmony).resolve_left hnone⟩

/-- The final message of a harmony completion quotes the markers of another analysis. -/
theorem harmony_content_split_again :
    let completion := bytes ("<|channel|>analysis<|message|>a<|end|><|start|>assistant" ++
      "<|channel|>final<|message|><|channel|>analysis<|message|>b")
    splitResponse .harmony completion =
        ⟨bytes "a", bytes "<|channel|>analysis<|message|>b"⟩ ∧
      (completionBody { family := .harmony } plainRequest { completion }).choices =
        [.chat 0 { content := some [], reasoningContent := some (bytes "b") } (bytes "stop")] := by
  decide

end InferFlux.Http
