import InferFlux.Http.CompletionPayload
import Mathlib.Data.List.Sort

/-!
# Markers of images

`ImagePreprocessor` marks the place of each image in the text of a message. Text parts are
copied as they are and an image part without a URL is marked too, so that there may be markers
without an image.
-/

namespace InferFlux.Http

open InferFlux.Text List Occurrence DecodedImage

def markers (text : Bytes) : List Nat :=
  (List.range text.length).filter fun i => AnyAt [kMediaMarker] text i

def isImagePart (part : Json) : Bool := (part.stringAt "type").getD [] = bytes "image_url"

def partText (part : Json) : Bytes :=
  if isImagePart part then kMediaMarker
  else if (part.stringAt "type").getD [] = bytes "text" then (part.stringAt "text").getD []
  else []

/-- The parts that give an image: where they stand in the text, and their URLs. -/
def imageParts : List Json → List (Nat × Bytes)
  | [] => []
  | part :: parts =>
    (if isImagePart part && imageUrl part ≠ [] then [(0, imageUrl part)] else []) ++
      (imageParts parts).map fun p => ((partText part).length + p.1, p.2)

/-- The texts before, between and after the image parts. -/
def textRuns (run : Bytes) : List Json → List Bytes
  | [] => [run]
  | part :: parts =>
    if isImagePart part then run :: textRuns [] parts else textRuns (run ++ partText part) parts

section

variable {F : Type} (env : PayloadEnv F)

def contentParts (contentArrayJson : Bytes) : List Json :=
  if contentArrayJson.isEmpty then []
  else
    match env.parse contentArrayJson with
    | .ok (.array parts) => parts
    | _ => []

theorem processPart_eq (result : ContentArrayResult) (part : Json) :
    (processPart env result part).text = result.text ++ partText part ∧
      (processPart env result part).images.map sourceUri =
        result.images.map sourceUri ++
          if isImagePart part && imageUrl part ≠ [] then [imageUrl part] else [] := by
  have hne : bytes "image_url" ≠ bytes "text" := by decide
  by_cases himage : (part.stringAt "type").getD [] = bytes "image_url"
  · simp only [processPart, partText, isImagePart, processImage, himage, hne, if_false, decide_true]
    split_ifs <;> simp_all
  · simp only [processPart, partText, isImagePart, himage, if_false, decide_false]
    split_ifs <;> simp_all

theorem foldl_processPart (parts : List Json) (result : ContentArrayResult) :
    (parts.foldl (processPart env) result).text = result.text ++ parts.flatMap partText ∧
      (parts.foldl (processPart env) result).images.map sourceUri =
        result.images.map sourceUri ++ (imageParts parts).map Prod.snd := by
  induction parts generalizing result with
  | nil => simp [imageParts]
  | cons part parts ih =>
    obtain ⟨htext, himages⟩ := processPart_eq env result part
    obtain ⟨htexts, himages'⟩ := ih (processPart env result part)
    rw [foldl_cons, htexts, himages', htext, himages]
    refine ⟨by simp, ?_⟩
    simp only [imageParts, map_append, map_map, append_assoc]
    split_ifs <;> rfl

end

theorem imageParts_ordered (parts : List Json) :
    ((imageParts parts).map Prod.fst).Pairwise (· < ·) := by
  induction parts with
  | nil => exact .nil
  | cons part parts ih =>
    have hrest : (((imageParts parts).map Prod.fst).map ((partText part).length + ·)).Pairwise
        (· < ·) := ih.map _ fun _ _ h => Nat.add_lt_add_left h _
    simp only [imageParts, map_append, map_map] at hrest ⊢
    split_ifs with himage
    · refine .cons (fun p hp => ?_) hrest
      obtain ⟨image, -, rfl⟩ := mem_map.mp hp
      have hmarker : partText part = kMediaMarker := if_pos (Bool.and_eq_true_iff.mp himage).1
      rw [hmarker]
      exact Nat.add_pos_left (by decide) _
    · exact hrest

theorem marked_iff (run : Bytes) (parts : List Json) :
    (∀ i, AnyAt [kMediaMarker] (run ++ parts.flatMap partText) i ↔
        i ∈ (imageParts parts).map fun p => run.length + p.1) ↔
      (∀ part ∈ parts, isImagePart part = true → imageUrl part ≠ []) ∧
        ∀ text ∈ textRuns run parts, ∀ i, ¬ AnyAt [kMediaMarker] text i := by
  induction parts generalizing run with
  | nil => simp [imageParts, textRuns]
  | cons part parts ih =>
    by_cases himage : isImagePart part = true
    · have hmarker : partText part = kMediaMarker := if_pos himage
      have hpos : 0 < kMediaMarker.length := by decide
      have hplaces (i : Nat) : i ∈ (imageParts (part :: parts)).map (fun p => run.length + p.1) ↔
          i = run.length ∧ imageUrl part ≠ [] ∨ ∃ j, i = run.length + (kMediaMarker.length + j) ∧
            j ∈ (imageParts parts).map Prod.fst := by
        simp only [imageParts, hmarker, himage, Bool.true_and]
        split_ifs <;> simp <;> grind
      have hbefore (i : Nat) (h : AnyAt [kMediaMarker] run i) : i < run.length := h.lt_length
      simp only [flatMap_cons, hmarker, anyAt_around (ne_nil_of_length_pos hpos) (by decide),
        hplaces, textRuns, himage, if_true, forall_mem_cons, true_imp_iff]
      have hrest := ih []
      simp only [nil_append, length_nil, Nat.zero_add] at hrest
      rw [and_assoc, and_left_comm (b := ∀ i, ¬ AnyAt [kMediaMarker] run i), ← hrest]
      constructor
      · intro h
        refine ⟨?_, fun i hi => ?_, fun j => ?_⟩
        · obtain ⟨-, hurl⟩ | ⟨j, hj, -⟩ := (h run.length).mp (.inr (.inl rfl))
          · exact hurl
          · omega
        · have hlt := hbefore i hi
          obtain ⟨rfl, -⟩ | ⟨j, rfl, -⟩ := (h i).mp (.inl hi) <;> omega
        · have hafter : ¬ AnyAt [kMediaMarker] run (run.length + (kMediaMarker.length + j)) := by
            intro hi
            have hlt := hbefore _ hi
            omega
          simpa [hafter, hpos.ne'] using h (run.length + (kMediaMarker.length + j))
      · rintro ⟨hurl, hrun, hsame⟩ i
        simp [hurl, hrun, hsame]
    · have htext := ih (run ++ partText part)
      simpa [flatMap_cons, imageParts, textRuns, himage, Nat.add_assoc, Function.comp_def] using htext

/-- The markers in the text stand at the places of the images, one for each, exactly if all image
parts have a URL and no text between them contains the marker. -/
theorem markers_eq_images_iff {F : Type} (env : PayloadEnv F) (contentArrayJson : Bytes) :
    let parts := contentParts env contentArrayJson
    let result := processContentArray env contentArrayJson
    result.images.map DecodedImage.sourceUri = (imageParts parts).map Prod.snd ∧
      (markers result.text = (imageParts parts).map Prod.fst ↔
        (∀ part ∈ parts, isImagePart part = true → imageUrl part ≠ []) ∧
          ∀ text ∈ textRuns [] parts, markers text = []) := by
  intro parts result
  have hmem (text : Bytes) (i : Nat) : i ∈ markers text ↔ AnyAt [kMediaMarker] text i := by
    simp only [markers, mem_filter, mem_range, decide_eq_true_eq]
    exact and_iff_right_of_imp AnyAt.lt_length
  have hresult : result.text = parts.flatMap partText ∧
      result.images.map DecodedImage.sourceUri = (imageParts parts).map Prod.snd := by
    simp only [result, parts, processContentArray, contentParts]
    split_ifs
    · exact ⟨rfl, rfl⟩
    · cases env.parse contentArrayJson with
      | error what => exact ⟨rfl, rfl⟩
      | ok document =>
        cases document with
        | array parts => simpa using foldl_processPart env parts {}
        | _ => exact ⟨rfl, rfl⟩
  refine ⟨hresult.2, ?_⟩
  have hmarked := marked_iff [] parts
  simp only [← hmem, nil_append, length_nil, Nat.zero_add, ← hresult.1,
    ← eq_nil_iff_forall_not_mem] at hmarked
  rw [← hmarked]
  constructor
  · intro h
    simp [h]
  · intro h
    exact Pairwise.eq_of_mem_iff (pairwise_lt_range.filter _) (imageParts_ordered parts) h

def unmatchedMarkers : Bytes :=
  bytes "[\x7b\"type\":\"text\",\"text\":\"<__media__>\"\x7d,\x7b\"type\":\"image_url\"\x7d]"

/-- Two markers, and no image. -/
theorem markers_without_images :
    let result := processContentArray (libraryFor unmatchedMarkers (.array
      [.object [(bytes "type", .string (bytes "text")), (bytes "text", .string kMediaMarker)],
        .object [(bytes "type", .string (bytes "image_url"))]])) unmatchedMarkers
    markers result.text = [0, 11] ∧ result.images = [] := by decide

end InferFlux.Http
