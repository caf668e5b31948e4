import Mathlib.Data.List.Dedup
import Mathlib.Data.List.Sort

/-!
# Erasing by index

A vector loses the entries at given indices: the indices are sorted, repeated ones dropped, and
the entries erased from the back, so that no index moves before its turn. What is left are the
entries at the other indices, in order.
-/

namespace IndexErasure

open List

variable {α : Type}

def eraseFromBack (indices : List Nat) (l : List α) : List α :=
  indices.foldr (fun i l => l.eraseIdx i) l

def eraseIndices (l : List α) (indices : List Nat) : List α :=
  eraseFromBack (indices.insertionSort (· ≤ ·)).dedup l

def without (l : List α) (indices : List Nat) : List α :=
  (l.zipIdx.filter fun entry => entry.2 ∉ indices).map Prod.fst

variable {l : List α} {indices : List Nat}

theorem filter_zipIdx_cons {k i : Nat} (h : i < k) :
    (l.zipIdx k).filter (fun entry => entry.2 ∉ i :: indices) =
      (l.zipIdx k).filter fun entry => entry.2 ∉ indices := by
  refine filter_congr ?_
  rintro ⟨a, j⟩ hmem
  have hle := (mem_zipIdx hmem).1
  have hne : j ≠ i := by
    intro heq
    omega
  simp [hne]

/-- Erasing the first of the indices from what the others have left. -/
theorem eraseIdx_filter_zipIdx {k i : Nat} (hk : k ≤ i) (h : ∀ j ∈ indices, i < j) :
    (((l.zipIdx k).filter fun entry => entry.2 ∉ indices).map Prod.fst).eraseIdx (i - k) =
      ((l.zipIdx k).filter fun entry => entry.2 ∉ i :: indices).map Prod.fst := by
  induction l generalizing k with
  | nil => rfl
  | cons a l ih =>
    have hnot : k ∉ indices := fun hmem => absurd (h k hmem) (by omega)
    rw [zipIdx_cons, filter_cons_of_pos (by simpa using hnot), map_cons]
    by_cases heq : k = i
    · subst heq
      rw [Nat.sub_self, eraseIdx_cons_zero, filter_cons_of_neg (by simp),
        filter_zipIdx_cons (Nat.lt_succ_self k)]
    · have hsucc : i - k = i - (k + 1) + 1 := by omega
      rw [hsucc, eraseIdx_cons_succ, ih (by omega), filter_cons_of_pos (by simp [hnot, heq]),
        map_cons]

theorem eraseFromBack_eq (h : indices.Pairwise (· < ·)) :
    eraseFromBack indices l = without l indices := by
  induction indices with
  | nil => simp [without, eraseFromBack]
  | cons i indices ih =>
    obtain ⟨hi, hrest⟩ := pairwise_cons.mp h
    have hlater : (eraseFromBack indices l).eraseIdx i = without l (i :: indices) := by
      rw [ih hrest]
      exact eraseIdx_filter_zipIdx (Nat.zero_le i) hi
    exact hlater

/-- What is left are the entries at the other indices. -/
theorem eraseIndices_eq (l : List α) (indices : List Nat) :
    eraseIndices l indices = without l indices := by
  have hsorted : (indices.insertionSort (· ≤ ·)).dedup.Pairwise (· < ·) := by
    have hle : (indices.insertionSort (· ≤ ·)).dedup.Pairwise (· ≤ ·) :=
      (pairwise_insertionSort (· ≤ ·) indices).sublist (dedup_sublist _)
    exact (hle.and (nodup_dedup _)).imp fun h => Nat.lt_of_le_of_ne h.1 h.2
  rw [eraseIndices, eraseFromBack_eq hsorted]
  simp [without, mem_insertionSort]

end IndexErasure
