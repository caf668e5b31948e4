import Mathlib.Data.List.Perm.Subperm
import Mathlib.Data.List.Nodup

/-!
# Fresh names

The first name of a sequence of candidates that is not in use. If the candidates are
distinct, one more of them than there are names in use is enough to find one.
-/

namespace FreshName

open List

variable {α : Type} [DecidableEq α]

def fresh (candidate : Nat → α) (used : List α) : α :=
  (((List.range (used.length + 1)).map candidate).find? fun name => name ∉ used).getD (candidate 0)

theorem exists_candidate (candidate : Nat → α) (used : List α) :
    ∃ n, fresh candidate used = candidate n := by
  unfold fresh
  cases hfind : ((range (used.length + 1)).map candidate).find? fun name => name ∉ used with
  | none => exact ⟨0, rfl⟩
  | some name =>
    obtain ⟨n, -, rfl⟩ := mem_map.mp (mem_of_find?_eq_some hfind)
    exact ⟨n, rfl⟩

theorem fresh_not_mem {candidate : Nat → α} (hinj : Function.Injective candidate) (used : List α) :
    fresh candidate used ∉ used := by
  unfold fresh
  cases hfind : ((range (used.length + 1)).map candidate).find? fun name => name ∉ used with
  | some name => simpa using find?_some hfind
  | none =>
    -- All candidates would be in use, but they are more than the names in use.
    have hsubset : (range (used.length + 1)).map candidate ⊆ used := by
      intro name hname
      simpa using find?_eq_none.mp hfind name hname
    have hnodup := Nodup.map hinj (nodup_range (n := used.length + 1))
    have hlength := (subperm_of_subset hnodup hsubset).length_le
    rw [length_map, length_range] at hlength
    omega

end FreshName
