import Mathlib.Data.List.DropRight

/-!
# Delimited texts

A text is cut at a separator into pieces, the blanks around a piece are cut off, and the pieces
of which nothing is left are dropped. Pieces without separators in them come back, and if no
blanks are around them, they come back as they are.
-/

namespace InferFlux.Delimited

open List

variable {α : Type*}

section

variable [DecidableEq α] {sep : α} {piece text rest : List α}

@[grind] def pieces (sep : α) : List α → List (List α)
  | [] => []
  | c :: rest =>
    if c = sep then [] :: pieces sep rest
    else
      match pieces sep rest with
      | [] => [[c]]
      | piece :: others => (c :: piece) :: others

theorem pieces_append_sep (h : sep ∉ piece) :
    pieces sep (piece ++ sep :: rest) = piece :: pieces sep rest := by
  induction piece with
  | nil => simp [pieces]
  | cons c piece ih => grind

theorem pieces_of_not_mem (h : sep ∉ piece) (hne : piece ≠ []) : pieces sep piece = [piece] := by
  induction piece with
  | nil => contradiction
  | cons c piece ih => cases piece <;> grind

theorem not_mem_of_mem_pieces (h : piece ∈ pieces sep text) : sep ∉ piece := by
  induction text generalizing piece with
  | nil => simp [pieces] at h
  | cons c text ih => grind

/-- Between a key and its value, the first separator is the one that was put there. -/
theorem findIdx?_append_sep (h : sep ∉ piece) :
    (piece ++ sep :: rest).findIdx? (· = sep) = some piece.length := by
  induction piece with
  | nil => simp [findIdx?_cons]
  | cons c piece ih => grind

theorem mem_of_mem_pieces {c : α} (h : piece ∈ pieces sep text) (hc : c ∈ piece) : c ∈ text := by
  induction text generalizing piece c with
  | nil => simp [pieces] at h
  | cons d text ih => grind

end

section

variable {blank : α → Bool} {text left right : List α} {c : α}

def strip (blank : α → Bool) (text : List α) : List α := (text.dropWhile blank).rdropWhile blank

def Stripped (blank : α → Bool) (text : List α) : Prop :=
  (∀ c ∈ text.head?, blank c = false) ∧ ∀ c ∈ text.getLast?, blank c = false

instance : Decidable (Stripped blank text) :=
  inferInstanceAs (Decidable (_ ∧ _))

theorem strip_eq_self (h : Stripped blank text) : strip blank text = text := by
  have hhead : text.dropWhile blank = text := by
    rw [dropWhile_eq_self_iff]
    intro hlength
    cases text with
    | nil => simp at hlength
    | cons c text => simpa using h.1
  rw [strip, hhead, rdropWhile_eq_self_iff]
  intro hne
  simpa using h.2 _ (getLast_mem_getLast? hne)

theorem mem_of_mem_strip (h : c ∈ strip blank text) : c ∈ text :=
  (dropWhile_sublist _).subset ((List.rdropWhile_prefix _ _).subset h)

theorem stripped_strip : Stripped blank (strip blank text) := by
  refine ⟨?_, ?_⟩
  · intro c hc
    obtain ⟨blanks, hblanks⟩ := rdropWhile_prefix blank (text.dropWhile blank)
    have hhead : (text.dropWhile blank).head? = some c := by
      rw [← hblanks]
      exact mem_head?_append_of_mem_head? hc
    simpa [hhead] using head?_dropWhile_not blank text
  · intro c hc
    obtain ⟨hne, rfl⟩ := mem_getLast?_eq_getLast hc
    exact Bool.eq_false_iff.mpr (rdropWhile_last_not blank _ hne)

theorem stripped_of_forall (h : ∀ c ∈ text, blank c = false) : Stripped blank text :=
  ⟨fun c hc => h c (mem_of_mem_head? hc), fun c hc => h c (mem_of_mem_getLast? hc)⟩

theorem Stripped.append_cons (hleft : Stripped blank left) (hright : Stripped blank right)
    (hc : blank c = false) : Stripped blank (left ++ c :: right) := by
  refine ⟨?_, ?_⟩
  · intro d hd
    cases left with
    | nil => simp_all
    | cons _ left => exact hleft.1 d (by simpa using hd)
  · intro d hd
    cases hlast : right.getLast? with
    | none => simp_all
    | some e => exact hright.2 d (by simp_all [getLast?_cons])

end

section

variable [DecidableEq α] {sep c : α} {blank : α → Bool} {piece text rest : List α}
  {values : List (List α)}

def items (sep : α) (blank : α → Bool) (text : List α) : List (List α) :=
  ((pieces sep text).map (strip blank)).filter fun item => !item.isEmpty

/-- Not empty, without the separator in it and without blanks around it. -/
structure Item (sep : α) (blank : α → Bool) (item : List α) : Prop where
  ne_nil : item ≠ []
  sep_not_mem : sep ∉ item
  stripped : Stripped blank item

theorem mem_items_iff :
    piece ∈ items sep blank text ↔
      piece ≠ [] ∧ ∃ whole ∈ pieces sep text, strip blank whole = piece := by
  simp [items, and_comm]

theorem item_of_mem_items (h : piece ∈ items sep blank text) : Item sep blank piece := by
  obtain ⟨hne, whole, hwhole, rfl⟩ := mem_items_iff.mp h
  exact ⟨hne, fun hsep => not_mem_of_mem_pieces hwhole (mem_of_mem_strip hsep), stripped_strip⟩

theorem mem_of_mem_items (h : piece ∈ items sep blank text) (hc : c ∈ piece) : c ∈ text := by
  obtain ⟨-, whole, hwhole, rfl⟩ := mem_items_iff.mp h
  exact mem_of_mem_pieces hwhole (mem_of_mem_strip hc)

theorem items_append_sep (hsep : sep ∉ piece) (hstripped : Stripped blank piece) :
    items sep blank (piece ++ sep :: rest) =
      [piece].filter (fun item => !item.isEmpty) ++ items sep blank rest := by
  simp only [items, pieces_append_sep hsep, map_cons, strip_eq_self hstripped]
  cases piece <;> simp

theorem items_single (hsep : sep ∉ piece) (hstripped : Stripped blank piece) :
    items sep blank piece = [piece].filter fun item => !item.isEmpty := by
  cases piece with
  | nil => simp [items, pieces]
  | cons c piece => simp [items, pieces_of_not_mem hsep, strip_eq_self hstripped]

omit [DecidableEq α] in
theorem Item.of_ne_nil (h : piece ≠ [] → Item sep blank piece) :
    sep ∉ piece ∧ Stripped blank piece := by
  cases piece with
  | nil => exact ⟨by simp, by simp [Stripped]⟩
  | cons c piece => exact ⟨(h (by simp)).sep_not_mem, (h (by simp)).stripped⟩

/-- The values come back, except for those that are empty. -/
theorem items_intercalate (h : ∀ value ∈ values, value ≠ [] → Item sep blank value) :
    items sep blank ([sep].intercalate values) = values.filter fun value => !value.isEmpty := by
  induction values with
  | nil => simp [items, pieces, intercalate]
  | cons value values ih =>
    obtain ⟨hsep, hstripped⟩ := Item.of_ne_nil (h value (by simp))
    have hvalues := ih fun other hother => h other (by simp [hother])
    cases values with
    | nil => simpa [intercalate] using items_single hsep hstripped
    | cons other others =>
      rw [intercalate_cons_cons, append_assoc, singleton_append, items_append_sep hsep hstripped, hvalues, ← filter_append]
      rfl

omit [DecidableEq α] in
theorem mem_intercalate (h : c ∈ [sep].intercalate values) :
    c = sep ∨ ∃ value ∈ values, c ∈ value := by
  induction values with
  | nil => simp [intercalate] at h
  | cons value values ih =>
    cases values with
    | nil => exact .inr ⟨value, by simp, by simpa [intercalate] using h⟩
    | cons other others =>
      rw [intercalate_cons_cons] at h
      grind

omit [DecidableEq α] in
theorem stripped_intercalate (hblank : blank sep = false)
    (h : ∀ value ∈ values, Stripped blank value) :
    Stripped blank ([sep].intercalate values) := by
  induction values with
  | nil => simp [Stripped, intercalate]
  | cons value values ih =>
    have hvalues := ih fun other hother => h other (by simp [hother])
    cases values with
    | nil => simpa [intercalate] using h value (by simp)
    | cons other others =>
      exact (h value (by simp)).append_cons hvalues hblank

end

end InferFlux.Delimited
