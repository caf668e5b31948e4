import InferFlux.Library.Occurrence
import Mathlib.Data.Nat.Find

/-!
# Markers in a text that arrives in pieces

A text is searched for markers before all of it is there. A suffix that may still become a
marker is held back (`held`); what is before it is safe, since no marker starts there however
the text goes on (`length_safe_le`). Holding back does not depend on how the text was cut
(`held_append`, `safe_append`), and the first marker of the whole text is the first one of the
part that was held back and what came after it (`first_append`).
-/

namespace Holdback

open Occurrence List Nat

variable {α : Type*} {ms : List (List α)} {text more t : List α} {i : Nat}

/-- The beginning of a marker that is not complete yet. -/
def Unfinished (ms : List (List α)) (t : List α) : Prop :=
  ∃ m ∈ ms, t <+: m ∧ t.length < m.length

theorem Unfinished.of_prefix {u : List α} (h : Unfinished ms t) (hp : u <+: t) :
    Unfinished ms u := by
  obtain ⟨m, hm, hpre, hlt⟩ := h
  exact ⟨m, hm, hp.trans hpre, lt_of_le_of_lt hp.length_le hlt⟩

theorem unfinished_of_prefix_append {m : List α} (hm : m ∈ ms) (hnot : ¬ m <+: t)
    (hpre : m <+: t ++ more) : Unfinished ms t := by
  have hlt : t.length < m.length := by
    by_contra hge
    exact hnot (prefix_of_prefix_length_le hpre (prefix_append ..) (by omega))
  exact ⟨m, hm, prefix_of_prefix_length_le (prefix_append ..) hpre (le_of_lt hlt), hlt⟩

def ending (text : List α) (k : Nat) : List α :=
  text.drop (text.length - k)

theorem ending_suffix (text : List α) (k : Nat) : ending text k <:+ text :=
  drop_suffix ..

theorem length_ending {k : Nat} (h : k ≤ text.length) : (ending text k).length = k := by
  rw [ending, length_drop]
  omega

theorem ending_of_suffix (h : t <:+ text) : ending text t.length = t :=
  (suffix_iff_eq_drop.mp h).symm

variable [DecidableEq α]

instance (ms : List (List α)) (t : List α) : Decidable (Unfinished ms t) :=
  inferInstanceAs (Decidable (∃ m ∈ ms, t <+: m ∧ t.length < m.length))

/-- The length of the longest suffix that may become a marker. -/
def holdback (ms : List (List α)) (text : List α) : Nat :=
  Nat.findGreatest (fun k => Unfinished ms (ending text k)) text.length

theorem holdback_le (ms : List (List α)) (text : List α) : holdback ms text ≤ text.length :=
  findGreatest_le _

/-- A search for the longest such suffix, from the longest one that can be one. -/
theorem findGreatest_eq_holdback {p : Nat → Prop} [DecidablePred p] {n : Nat}
    (h : ∀ k, k ≤ n ∧ p k ↔ k ≤ text.length ∧ Unfinished ms (ending text k)) :
    findGreatest p n = holdback ms text := by
  obtain ⟨hle, hspec, hmax⟩ := findGreatest_eq_iff.mp (Eq.refl (findGreatest p n))
  refine (findGreatest_eq_iff.mpr ⟨?_, ?_, ?_⟩).symm
  · by_cases hzero : findGreatest p n = 0
    · omega
    · exact ((h _).mp ⟨hle, hspec hzero⟩).1
  · intro hzero
    exact ((h _).mp ⟨hle, hspec hzero⟩).2
  · intro k hlt hk hun
    obtain ⟨hkn, hpk⟩ := (h k).mpr ⟨hk, hun⟩
    exact hmax hlt hkn hpk

def held (ms : List (List α)) (text : List α) : List α :=
  ending text (holdback ms text)

def safe (ms : List (List α)) (text : List α) : List α :=
  text.take (text.length - holdback ms text)

theorem length_held : (held ms text).length = holdback ms text :=
  length_ending (holdback_le ms text)

@[simp]
theorem safe_append_held (ms : List (List α)) (text : List α) :
    safe ms text ++ held ms text = text :=
  take_append_drop ..

theorem take_length_safe (ms : List (List α)) (text : List α) :
    text.take (safe ms text).length = safe ms text := by
  simp only [safe, length_take, take_eq_take_iff]
  omega

theorem drop_length_safe (ms : List (List α)) (text : List α) :
    text.drop (safe ms text).length = held ms text := by
  rw [safe, held, ending, length_take, min_eq_left (sub_le ..)]

theorem length_safe_add (ms : List (List α)) (text : List α) :
    (safe ms text).length + (held ms text).length = text.length := by
  rw [← length_append, safe_append_held]

theorem held_suffix (ms : List (List α)) (text : List α) : held ms text <:+ text :=
  ending_suffix ..

theorem held_eq_nil_or_unfinished (ms : List (List α)) (text : List α) :
    held ms text = [] ∨ Unfinished ms (held ms text) := by
  by_cases h : holdback ms text = 0
  · left
    rw [← length_eq_zero_iff, length_held, h]
  · right
    exact findGreatest_of_ne_zero rfl h

theorem length_le_held (h : t <:+ text) (hun : Unfinished ms t) :
    t.length ≤ (held ms text).length := by
  rw [length_held]
  apply le_findGreatest h.length_le
  rwa [ending_of_suffix h]

/-- The held part is the longest suffix that may become a marker. -/
theorem held_eq (h : t <:+ text) (hun : t = [] ∨ Unfinished ms t)
    (hmax : ∀ u, u <:+ text → Unfinished ms u → u.length ≤ t.length) : held ms text = t := by
  have hle : (held ms text).length ≤ t.length := by
    obtain hnil | hheld := held_eq_nil_or_unfinished ms text
    · rw [hnil]
      exact zero_le _
    · exact hmax _ (held_suffix ms text) hheld
  have hge : t.length ≤ (held ms text).length := by
    obtain rfl | hun := hun
    · exact zero_le _
    · exact length_le_held h hun
  have hsuf := suffix_of_suffix_length_le (held_suffix ms text) h hle
  exact hsuf.eq_of_length (by omega)

theorem held_of_unfinished (h : Unfinished ms text) : held ms text = text :=
  held_eq suffix_rfl (.inr h) fun _ hu _ => hu.length_le

theorem safe_eq_nil_iff : safe ms text = [] ↔ held ms text = text := by
  constructor
  · intro h
    have happ := safe_append_held ms text
    rwa [h, nil_append] at happ
  · intro h
    have hlen := length_safe_add ms text
    rw [h] at hlen
    rw [← length_eq_zero_iff]
    omega

theorem held_held (ms : List (List α)) (text : List α) : held ms (held ms text) = held ms text := by
  obtain hnil | hun := held_eq_nil_or_unfinished ms text
  · rw [hnil]
    exact suffix_nil.mp (held_suffix ms [])
  · exact held_of_unfinished hun

/-- What is held back in the end is what is held back when the earlier held part goes on. -/
theorem held_append (ms : List (List α)) (text more : List α) :
    held ms (text ++ more) = held ms (held ms text ++ more) := by
  have hsuf : held ms text ++ more <:+ text ++ more := by
    obtain ⟨pre, hpre⟩ := held_suffix ms text
    exact ⟨pre, by rw [← append_assoc, hpre]⟩
  refine held_eq ((held_suffix ..).trans hsuf) (held_eq_nil_or_unfinished ..) ?_
  intro u hu hun
  by_cases hle : u.length ≤ (held ms text ++ more).length
  · exact length_le_held (suffix_of_suffix_length_le hu hsuf hle) hun
  · -- a longer one would begin in the safe part, and its beginning would have been held back
    exfalso
    rw [length_append] at hle
    obtain ⟨v, rfl⟩ : more <:+ u :=
      suffix_of_suffix_length_le (suffix_append ..) hu (by omega)
    have hv : v <:+ text := (suffix_append_inj_of_length_eq rfl).mp hu |>.1
    have := length_le_held hv (hun.of_prefix (prefix_append ..))
    rw [length_append] at hle
    omega

theorem safe_append (ms : List (List α)) (text more : List α) :
    safe ms (text ++ more) = safe ms text ++ safe ms (held ms text ++ more) := by
  have h : safe ms (text ++ more) ++ held ms (text ++ more) =
      (safe ms text ++ safe ms (held ms text ++ more)) ++ held ms (text ++ more) := by
    rw [safe_append_held, held_append, append_assoc, safe_append_held, ← append_assoc,
      safe_append_held]
  exact append_cancel_right h

/-- No marker starts in the safe part, however the text goes on. -/
theorem length_safe_le (hnone : ∀ j, ¬ AnyAt ms text j) (h : AnyAt ms (text ++ more) i) :
    (safe ms text).length ≤ i := by
  by_contra hlt
  have hlen := length_safe_add ms text
  obtain ⟨m, hm, hne, hpre⟩ := h
  rw [drop_append_of_le_length (by omega)] at hpre
  have hun := unfinished_of_prefix_append hm (fun hocc => hnone i ⟨m, hm, hne, hocc⟩) hpre
  have := length_le_held (drop_suffix i text) hun
  rw [length_drop] at this
  omega

omit [DecidableEq α] in
theorem anyAt_append_add (pre text : List α) (i : Nat) :
    AnyAt ms (pre ++ text) (pre.length + i) ↔ AnyAt ms text i := by
  have hdrop : (pre ++ text).drop (pre.length + i) = text.drop i := drop_length_add_append i
  simp [AnyAt, hdrop]

/-- The first marker of the text is found in what was held back and what came after it. -/
theorem first_append (hnone : ∀ j, ¬ AnyAt ms text j) (more : List α) :
    first ms (text ++ more) =
      (first ms (held ms text ++ more)).map ((safe ms text).length + ·) := by
  have happ : text ++ more = safe ms text ++ (held ms text ++ more) := by
    rw [← append_assoc, safe_append_held]
  cases h : first ms (held ms text ++ more) with
  | none =>
    rw [first_eq_none_iff] at h
    rw [Option.map_none, first_eq_none_iff]
    intro j hj
    have hle := length_safe_le hnone hj
    obtain ⟨k, rfl⟩ := Nat.exists_eq_add_of_le hle
    rw [happ, anyAt_append_add] at hj
    exact h k hj
  | some i =>
    obtain ⟨hat, hmin⟩ := first_eq_some_iff.mp h
    rw [Option.map_some, first_eq_some_iff]
    refine ⟨by rwa [happ, anyAt_append_add], ?_⟩
    intro j hj hbefore
    have hle := length_safe_le hnone hbefore
    obtain ⟨k, rfl⟩ := Nat.exists_eq_add_of_le hle
    rw [happ, anyAt_append_add] at hbefore
    exact hmin k (by omega) hbefore

def NonNesting (ms : List (List α)) : Prop :=
  ∀ m ∈ ms, ∀ m' ∈ ms, ∀ k < m'.length, m <+: m'.drop k → k + m.length = m'.length

instance (ms : List (List α)) : Decidable (NonNesting ms) :=
  inferInstanceAs (Decidable (∀ m ∈ ms, ∀ m' ∈ ms, ∀ k < m'.length,
    m <+: m'.drop k → k + m.length = m'.length))

omit [DecidableEq α] in
theorem NonNesting.eq_of_prefix (hms : NonNesting ms) {m m' : List α} (hm : m ∈ ms)
    (hm' : m' ∈ ms) (h : m <+: text) (h' : m' <+: text) : m = m' := by
  wlog hle : m.length ≤ m'.length generalizing m m'
  · exact (this hm' hm h' h (by omega)).symm
  have hpre : m <+: m' := prefix_of_prefix_length_le h h' hle
  refine hpre.eq_of_length ?_
  by_cases hpos : 0 < m'.length
  · have hlen := hms m hm m' hm' 0 hpos hpre
    omega
  · omega

theorem first_append_of_some (hms : NonNesting ms) (h : first ms text = some i)
    (more : List α) : first ms (text ++ more) = some i := by
  obtain ⟨hat, hmin⟩ := first_eq_some_iff.mp h
  refine first_eq_some_iff.mpr ⟨hat.append more, ?_⟩
  rintro j hj ⟨m', hm', hne', hpre'⟩
  have hlt := hat.lt_length
  obtain ⟨m, hm, hne, hpre⟩ := hat
  have hend : i + m.length ≤ text.length := by
    have := hpre.length_le
    rw [length_drop] at this
    omega
  rw [drop_append_of_le_length (by omega)] at hpre'
  -- the earlier marker is not complete in the text, so the later one lies inside of it
  have hopen : text.length < j + m'.length := by
    by_contra hge
    refine hmin j hj ⟨m', hm', hne', prefix_of_prefix_length_le hpre' (prefix_append ..) ?_⟩
    rw [length_drop]
    omega
  have hinside : m <+: m'.drop (i - j) := by
    have hrest : m'.drop (i - j) <+: text.drop i ++ more := by
      have := List.IsPrefix.drop hpre' (i - j)
      rw [drop_append_of_le_length (by rw [length_drop]; omega), drop_drop] at this
      rwa [show j + (i - j) = i by omega] at this
    refine prefix_of_prefix_length_le (hpre.trans (prefix_append ..)) hrest ?_
    rw [length_drop]
    omega
  have := hms m hm m' hm' (i - j) (by omega) hinside
  omega

end Holdback
