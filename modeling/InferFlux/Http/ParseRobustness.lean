import InferFlux.Http.CompletionPayload

/-!
# Exceptions that leave the payload parser

`ParseJsonPayload` catches the exceptions of the JSON library, and nothing else. The only
other operation in it that raises is `std::stoi`, on the keys of `logit_bias`. So it returns
normally exactly if `std::stoi` accepts every key with a number (`parseJsonPayload_isOk_iff`).
-/

namespace InferFlux.Http

open InferFlux.Text Raises

/-- An exception that the handler of the parser catches. -/
def Thrown.Caught : Thrown → Prop
  | .json _ => True
  | .conversion _ => False

section

variable {F : Type} [LinearOrder F] (env : PayloadEnv F) (j : Json)

/-- Every entry of a `logit_bias` with a number has a key that is a token id. -/
def NumericKeys (entries : List (Bytes × Json)) : Prop :=
  ∀ entry ∈ entries, entry.2.number? ≠ none → ∃ tokenId, stoi entry.1 = .ok tokenId

omit [LinearOrder F] in
theorem raises_orJsonException {α : Type} (r : Except Bytes α) :
    Raises Thrown.Caught (orJsonException r : Parse F α) := by
  cases r with
  | ok a => exact of_pure a
  | error what => exact of_throw trivial

omit [LinearOrder F] in
theorem raises_dumpSchema (schema : Json) : Raises Thrown.Caught
    (orJsonException (env.dump schema) >>= fun text => modify (setSchema (F := F) text)) :=
  bind (raises_orJsonException _) fun _ => of_modify _

omit [LinearOrder F] in
theorem raises_readSchema (rf : Json) :
    Raises Thrown.Caught (readPlainSchema env rf) ∧ Raises Thrown.Caught (readJsonSchema env rf) := by
  constructor
  · unfold readPlainSchema
    split
    · exact raises_dumpSchema env _
    · exact of_pure _
  · unfold readJsonSchema
    split
    · exact raises_dumpSchema env _
    · exact of_modify _
    · exact of_pure _

omit [LinearOrder F] in
theorem raises_readResponseFormat : Raises Thrown.Caught (readResponseFormat env j) := by
  unfold readResponseFormat
  split
  · exact of_pure _
  · split
    · refine bind (of_modify _) fun _ => ?_
      split
      · refine bind (of_modify _) fun _ => ?_
        refine bind (raises_readSchema env _).1 fun _ => ?_
        exact bind (raises_readSchema env _).2 fun _ => of_modify _
      · repeat' split
        all_goals exact of_modify _
    · exact of_modify _

omit [LinearOrder F] in
theorem raises_readMessages : Raises Thrown.Caught (readMessages env j) := by
  refine of_forM fun msg _ => bind ?_ fun _ => of_modify _
  unfold readContent
  split
  · exact of_pure _
  · exact bind (raises_orJsonException _) fun _ => of_pure _
  · exact of_pure _

/-- An entry is read, unless its key is not a token id. -/
theorem result_readBias (entry : Bytes × Json) (p : CompletionRequestPayload F) :
    (∃ p', result (readBias env entry) p = (.ok (), p') ∧
        (entry.2.number? ≠ none → ∃ tokenId, stoi entry.1 = .ok tokenId)) ∨
      ∃ e, result (readBias env entry) p = (.error (.conversion e), p) ∧
        entry.2.number? ≠ none ∧ stoi entry.1 = .error e := by
  unfold readBias
  cases hnum : entry.2.number? with
  | none => exact .inl ⟨p, rfl, by simp⟩
  | some q =>
    cases hkey : stoi entry.1 with
    | ok tokenId => exact .inl ⟨_, rfl, fun _ => ⟨tokenId, rfl⟩⟩
    | error e => exact .inr ⟨e, rfl, by simp, rfl⟩

/-- The loop over the entries ends normally if their keys are token ids, and else with the
exception of a conversion. -/
theorem result_readBias_forM (entries : List (Bytes × Json)) (p : CompletionRequestPayload F) :
    (∃ p', result (forM entries (readBias env)) p = (.ok (), p') ∧ NumericKeys entries) ∨
      ∃ e p', result (forM entries (readBias env)) p = (.error (.conversion e), p') ∧
        ¬ NumericKeys entries := by
  induction entries generalizing p with
  | nil => exact .inl ⟨p, rfl, by simp [NumericKeys]⟩
  | cons entry entries ih =>
    rw [List.forM_cons, result_bind]
    obtain ⟨p', hentry, hkey⟩ | ⟨e, hentry, hnum, hkey⟩ := result_readBias env entry p
    · rw [hentry]
      have hcons : NumericKeys (entry :: entries) ↔ NumericKeys entries := by
        simp [NumericKeys, and_iff_right hkey]
      simp only [hcons]
      exact ih p'
    · refine .inr ⟨e, p, by rw [hentry], ?_⟩
      intro hall
      obtain ⟨tokenId, hok⟩ := hall entry (by simp) hnum
      rw [hkey] at hok
      cases hok

/-- The parser returns normally exactly if `std::stoi` accepts every key of `logit_bias` that
has a number. -/
theorem parseJsonPayload_isOk_iff (body : Bytes) :
    (∃ payload, parseJsonPayload env body = .ok payload) ↔
      ∀ j, body ≠ [] → env.parse body = .ok j → NumericKeys (biasEntries j) := by
  unfold parseJsonPayload
  by_cases hempty : body = []
  · simp [hempty]
  rw [if_neg (by simpa using hempty)]
  cases hparse : env.parse body with
  | error what => simp
  | ok j =>
    simp only [Except.ok.injEq, forall_eq', ne_eq, hempty, not_false_eq_true, forall_true_left]
    have hbias := result_readBias_forM env (biasEntries j)
      ((readSampling env j ∘ readLogprobs j ∘ readGeneral j) (defaultPayload env))
    unfold readFields
    rw [Raises.result_bind, Raises.result_modify]
    simp only
    rw [Raises.result_bind, readLogitBias]
    obtain ⟨p', hok, hkeys⟩ | ⟨e, p', herr, hkeys⟩ := hbias
    · -- What follows raises exceptions of the JSON library only.
      rw [hok]
      simp only [hkeys, iff_true]
      have hrest := Raises.bind (raises_readResponseFormat env j) fun _ =>
        Raises.bind (raises_readMessages env j) fun _ =>
          Raises.of_modify (readCounts j ∘ readStop j ∘ readToolChoice j ∘ readTools j)
      have hcaught := hrest p'
      split
      · exact ⟨_, rfl⟩
      · exact ⟨_, rfl⟩
      · rename_i e _ heq
        exact absurd (hcaught (.conversion e) (by rw [heq])) id
    · rw [herr]
      simp [hkeys]

end

def textKeyBody : Bytes := bytes "\x7b\"logit_bias\":\x7b\"abc\":1\x7d\x7d"

def textKeyDocument : Json :=
  .object [(bytes "logit_bias", .object [(bytes "abc", .integer 1)])]

/-- A bias for a token given by its text ends the parser with `std::invalid_argument`. -/
theorem text_key_escapes :
    parseJsonPayload (libraryFor textKeyBody textKeyDocument) textKeyBody =
      .error .invalidArgument := by
  rfl

end InferFlux.Http
