import Mathlib.Data.List.Infix

/-!
# Occurrences of patterns in a text

A text is searched for the first position at which any of some patterns occurs; the empty
pattern is ignored. `cut` is the text before that position. The text may arrive in pieces:
`piecesThrough` is the number of pieces after which the first occurrence is complete.
-/

namespace Occurrence

open List

variable {α : Type*} {patterns : List (List α)} {text : List α} {i : Nat}

def AnyAt (patterns : List (List α)) (text : List α) (i : Nat) : Prop :=
  ∃ s ∈ patterns, s ≠ [] ∧ s <+: text.drop i

instance [DecidableEq α] (patterns : List (List α)) (text : List α) (i : Nat) :
    Decidable (AnyAt patterns text i) :=
  inferInstanceAs (Decidable (∃ s ∈ patterns, s ≠ [] ∧ s <+: text.drop i))

theorem AnyAt.lt_length (h : AnyAt patterns text i) : i < text.length := by
  obtain ⟨s, _, hne, hocc⟩ := h
  by_contra hge
  rw [drop_eq_nil_of_le (by omega), prefix_nil] at hocc
  exact hne hocc

theorem AnyAt.append (h : AnyAt patterns text i) (more : List α) :
    AnyAt patterns (text ++ more) i := by
  have hlt := h.lt_length
  obtain ⟨s, hs, hne, hocc⟩ := h
  refine ⟨s, hs, hne, hocc.trans ?_⟩
  rw [drop_append_of_le_length (by omega)]
  exact prefix_append ..

theorem AnyAt.mono {whole : List α} (h : AnyAt patterns text i) (hp : text <+: whole) :
    AnyAt patterns whole i := by
  obtain ⟨more, rfl⟩ := hp
  exact h.append more

variable {s : List α}

theorem anyAt_of_suffix (hs : s ∈ patterns) (hne : s ≠ []) (hsuf : s <:+ text) :
    AnyAt patterns text (text.length - s.length) := by
  refine ⟨s, hs, hne, [], ?_⟩
  rw [append_nil]
  exact suffix_iff_eq_drop.mp hsuf

variable {others : List (List α)}

theorem anyAt_congr (h : ∀ s, s ∈ patterns ↔ s ∈ others) :
    AnyAt patterns text i ↔ AnyAt others text i := by
  simp [AnyAt, h]

/-- A pattern that starts in the text is in the text, or its end starts what follows. -/
theorem straddles {more : List α} (hi : i < text.length) (h : s <+: (text ++ more).drop i) :
    s <+: text.drop i ∨ ∃ k, 0 < k ∧ k < s.length ∧ s.drop k <+: more := by
  rw [drop_append_of_le_length hi.le] at h
  by_cases hle : s.length ≤ (text.drop i).length
  · exact .inl (prefix_of_prefix_length_le h (prefix_append ..) hle)
  · refine .inr ⟨(text.drop i).length, ?_, by omega, ?_⟩
    · rw [length_drop]
      omega
    · have := List.IsPrefix.drop h (text.drop i).length
      rwa [drop_left] at this

/-- A pattern without a border, put into a text, is found at its own place, and otherwise only
before it and after it. -/
theorem anyAt_around {more : List α} (hne : s ≠ [])
    (hborder : ∀ k < s.length, 0 < k → ¬ s.drop k <+: s) :
    AnyAt [s] (text ++ (s ++ more)) i ↔ AnyAt [s] text i ∨ i = text.length ∨
      ∃ j, i = text.length + (s.length + j) ∧ AnyAt [s] more j := by
  have hat (t : List α) (j : Nat) : AnyAt [s] t j ↔ s <+: t.drop j := by simp [AnyAt, hne]
  simp only [hat]
  constructor
  · intro h
    by_cases hbefore : i < text.length
    · obtain h | ⟨k, hpos, hk, h⟩ := straddles hbefore h
      · exact .inl h
      · refine absurd (prefix_of_prefix_length_le h (prefix_append ..) ?_) (hborder k hk hpos)
        rw [length_drop]
        omega
    obtain ⟨k, rfl⟩ := Nat.exists_eq_add_of_le (Nat.not_lt.mp hbefore)
    rw [drop_length_add_append] at h
    by_cases hk : k < s.length
    · obtain rfl | hpos := Nat.eq_zero_or_pos k
      · exact .inr (.inl rfl)
      rw [drop_append_of_le_length hk.le] at h
      refine absurd (prefix_of_prefix_length_le (prefix_append ..) h ?_) (hborder k hk hpos)
      rw [length_drop]
      omega
    · obtain ⟨j, rfl⟩ := Nat.exists_eq_add_of_le (Nat.not_lt.mp hk)
      rw [drop_length_add_append] at h
      exact .inr (.inr ⟨j, rfl, h⟩)
  · rintro (h | rfl | ⟨j, rfl, h⟩)
    · exact (hat _ _).mp (((hat _ _).mpr h).append _)
    · rw [drop_left]
      exact prefix_append ..
    · rwa [drop_length_add_append, drop_length_add_append]

section Search

variable [DecidableEq α]

def first (patterns : List (List α)) (text : List α) : Option Nat :=
  (List.range text.length).find? fun i => AnyAt patterns text i

theorem first_eq_some_iff :
    first patterns text = some i ↔ AnyAt patterns text i ∧ ∀ j < i, ¬ AnyAt patterns text j := by
  simp only [first, find?_range_eq_some, decide_eq_true_eq, mem_range,
    Bool.not_eq_true', decide_eq_false_iff_not]
  constructor
  · rintro ⟨h, _, hmin⟩
    exact ⟨h, hmin⟩
  · rintro ⟨h, hmin⟩
    exact ⟨h, h.lt_length, hmin⟩

theorem first_eq_none_iff : first patterns text = none ↔ ∀ i, ¬ AnyAt patterns text i := by
  simp only [first, find?_eq_none, mem_range, decide_eq_true_eq]
  constructor
  · intro h i hi
    exact h i hi.lt_length hi
  · intro h i _
    exact h i

/-- A single pattern is first found in a part of the text where it is first found in the
text, if the part reaches to its end. -/
theorem first_isPrefix_iff {part : List α} (hne : s ≠ []) (hp : part <+: text) :
    first [s] part = some i ↔ first [s] text = some i ∧ i + s.length ≤ part.length := by
  have hat : ∀ j, AnyAt [s] part j ↔ AnyAt [s] text j ∧ j + s.length ≤ part.length := by
    intro j
    obtain ⟨more, rfl⟩ := hp
    constructor
    · intro h
      have hlt := h.lt_length
      have hat := h.append more
      obtain ⟨s', hs', _, hocc⟩ := h
      obtain rfl := mem_singleton.mp hs'
      have hlen := hocc.length_le
      rw [length_drop] at hlen
      exact ⟨hat, by omega⟩
    · rintro ⟨⟨s', hs', _, hocc⟩, hle⟩
      obtain rfl := mem_singleton.mp hs'
      refine ⟨s', hs', hne, ?_⟩
      rw [drop_append_of_le_length (by omega)] at hocc
      refine prefix_of_prefix_length_le hocc (prefix_append ..) ?_
      rw [length_drop]
      omega
  simp only [first_eq_some_iff, hat]
  constructor
  · rintro ⟨⟨h, hle⟩, hmin⟩
    exact ⟨⟨h, fun j hj hat => hmin j hj ⟨hat, by omega⟩⟩, hle⟩
  · rintro ⟨⟨h, hmin⟩, hle⟩
    exact ⟨⟨h, hle⟩, fun j hj hat => hmin j hj hat.1⟩

def cut (patterns : List (List α)) (text : List α) : List α :=
  match first patterns text with
  | some i => text.take i
  | none => text

theorem not_anyAt_cut (j : Nat) : ¬ AnyAt patterns (cut patterns text) j := by
  intro hj
  unfold cut at hj
  split at hj
  · rename_i i hfirst
    have hlt := hj.lt_length
    rw [length_take] at hlt
    have htake : text.take i <+: text := take_prefix i text
    exact (first_eq_some_iff.mp hfirst).2 j (by omega) (hj.mono htake)
  · rename_i hfirst
    exact first_eq_none_iff.mp hfirst j hj

theorem cut_congr (h : ∀ s, s ∈ patterns ↔ s ∈ others) : cut patterns text = cut others text := by
  have hfirst : first patterns text = first others text := by
    simp [first, anyAt_congr h]
  simp [cut, hfirst]

/-- How many of the pieces it takes to complete the first occurrence, or all of them. -/
def piecesThrough (patterns : List (List α)) (pieces : List (List α)) : Nat :=
  match first patterns pieces.flatten with
  | some i =>
    ((List.range (pieces.length + 1)).find? fun k =>
      AnyAt patterns (pieces.take k).flatten i).getD pieces.length
  | none => pieces.length

omit [DecidableEq α] in
theorem flatten_take_isPrefix (pieces : List (List α)) (k : Nat) :
    (pieces.take k).flatten <+: pieces.flatten :=
  ⟨(pieces.drop k).flatten, by rw [← flatten_append, take_append_drop]⟩

/-- When the first occurrence starts at `i` and is complete after `k + 1` pieces, `k + 1` is
the number of pieces it takes exactly if it is not complete after `k`. -/
theorem piecesThrough_eq_succ_iff {pieces : List (List α)} {k : Nat} (hk : k < pieces.length)
    (hfirst : first patterns pieces.flatten = some i)
    (hdone : AnyAt patterns (pieces.take (k + 1)).flatten i) :
    piecesThrough patterns pieces = k + 1 ↔ ¬ AnyAt patterns (pieces.take k).flatten i := by
  simp only [piecesThrough, hfirst]
  constructor
  · intro heq hbefore
    have hfind : ∃ m ≤ k, ((range (pieces.length + 1)).find? fun k =>
        decide (AnyAt patterns (pieces.take k).flatten i)) = some m := by
      cases hcase : (range (pieces.length + 1)).find? fun k =>
          decide (AnyAt patterns (pieces.take k).flatten i) with
      | none =>
        have := find?_eq_none.mp hcase k (mem_range.mpr (by omega))
        exact absurd (decide_eq_true hbefore) this
      | some m =>
        refine ⟨m, ?_, rfl⟩
        by_contra hlt
        have := (find?_range_eq_some.mp hcase).2.2 k (by omega)
        simp [hbefore] at this
    obtain ⟨m, hm, hfind⟩ := hfind
    rw [hfind, Option.getD_some] at heq
    omega
  · intro hbefore
    have hfind : ((range (pieces.length + 1)).find? fun k =>
        decide (AnyAt patterns (pieces.take k).flatten i)) = some (k + 1) := by
      refine find?_range_eq_some.mpr ⟨decide_eq_true hdone, mem_range.mpr (by omega), ?_⟩
      intro j hj
      rw [Bool.not_eq_true', decide_eq_false_iff_not]
      intro h
      have hsub := flatten_take_isPrefix (pieces.take k) j
      rw [take_take, Nat.min_eq_left (by omega)] at hsub
      exact hbefore (h.mono hsub)
    rw [hfind, Option.getD_some]

end Search

end Occurrence
