import Mathlib.Data.List.Nodup
import Mathlib.Data.List.Perm.Basic

/-!
# Grouping by key and scattering results

Entries with keys are collected into groups, one for each key, and what is computed for the
members of the groups is written back to a vector at the members' indices. The groups hold
every entry once, and each result ends at the index of its entry.
-/

namespace Grouping

open List

section Groups

variable {κ α : Type} {gs : List (κ × List α)}

def members (gs : List (κ × List α)) : List α := gs.flatMap Prod.snd

variable {g : κ × List α}

theorem length_le_of_mem (hg : g ∈ gs) : g.2.length ≤ (members gs).length := by
  obtain ⟨front, back, rfl⟩ := append_of_mem hg
  simp only [members, flatMap_append, flatMap_cons, length_append]
  omega

theorem length_lt_of_mem (h : ∀ g ∈ gs, g.2 ≠ []) (hlen : 1 < gs.length) (hg : g ∈ gs) :
    g.2.length < (members gs).length := by
  obtain ⟨front, back, rfl⟩ := append_of_mem hg
  obtain ⟨other, hother, hin⟩ : ∃ other ∈ front ++ back, other ∈ front ++ g :: back := by
    cases hrest : front ++ back with
    | nil =>
      have hlength := congrArg length hrest
      simp only [length_append, length_cons, length_nil] at hlength hlen
      omega
    | cons other rest =>
      have hmem : other ∈ front ++ back := by simp [hrest]
      exact ⟨other, by simp, by simp only [mem_append, mem_cons] at hmem ⊢; tauto⟩
  have hpos : 0 < other.2.length := length_pos_of_ne_nil (h other hin)
  have hle : other.2.length ≤ (members (front ++ back)).length := length_le_of_mem hother
  simp only [members, flatMap_append, flatMap_cons, length_append] at hle ⊢
  omega

variable [DecidableEq κ]

/-- Add an element to the group of its key. A new group stands in front of the first group
whose key comes after its own. -/
def insertInto (before : κ → κ → Bool) (key : κ) (a : α) : List (κ × List α) → List (κ × List α)
  | [] => [(key, [a])]
  | (key', as) :: gs =>
    if key = key' then (key', as ++ [a]) :: gs
    else if before key key' then (key, [a]) :: (key', as) :: gs
    else (key', as) :: insertInto before key a gs

def groups (before : κ → κ → Bool) (entries : List (κ × α)) : List (κ × List α) :=
  entries.foldl (fun gs entry => insertInto before entry.1 entry.2 gs) []

variable {before : κ → κ → Bool} {key : κ} {a : α}

theorem members_insertInto : (members (insertInto before key a gs)).Perm (a :: members gs) := by
  fun_induction insertInto before key a gs with
  | case1 => exact .refl _
  | case2 as gs =>
    simp only [members, flatMap_cons, append_assoc]
    exact perm_middle
  | case3 key' as gs => exact .refl _
  | case4 key' as gs hkey hbefore ih =>
    exact (List.Perm.append_left as ih).trans perm_middle

variable (entries : List (κ × α))

theorem foldl_insertInto (gs : List (κ × List α)) :
    (members (entries.foldl (fun gs entry => insertInto before entry.1 entry.2 gs) gs)).Perm
      (members gs ++ entries.map Prod.snd) := by
  induction entries generalizing gs with
  | nil => simp
  | cons entry entries ih =>
    refine (ih _).trans ?_
    refine (List.Perm.append_right _ members_insertInto).trans ?_
    exact perm_middle.symm

theorem members_groups : (members (groups before entries)).Perm (entries.map Prod.snd) :=
  foldl_insertInto entries []

section Invariant

variable {P : κ → α → Prop}

theorem forall_mem_insertInto (ha : P key a) (h : ∀ g ∈ gs, g.2 ≠ [] ∧ ∀ a ∈ g.2, P g.1 a) :
    ∀ g ∈ insertInto before key a gs, g.2 ≠ [] ∧ ∀ a ∈ g.2, P g.1 a := by
  fun_induction insertInto before key a gs with
  | case1 => simpa using ha
  | case2 as gs =>
    rw [forall_mem_cons] at h ⊢
    refine ⟨⟨by simp, ?_⟩, h.2⟩
    simpa [or_imp, forall_and, ha] using h.1.2
  | case3 key' as gs => exact forall_mem_cons.mpr ⟨by simpa using ha, h⟩
  | case4 key' as gs hkey hbefore ih =>
    rw [forall_mem_cons] at h ⊢
    exact ⟨h.1, ih h.2⟩

theorem forall_mem_foldl_insertInto {gs : List (κ × List α)} (hP : ∀ e ∈ entries, P e.1 e.2)
    (h : ∀ g ∈ gs, g.2 ≠ [] ∧ ∀ a ∈ g.2, P g.1 a) :
    ∀ g ∈ entries.foldl (fun gs entry => insertInto before entry.1 entry.2 gs) gs,
      g.2 ≠ [] ∧ ∀ a ∈ g.2, P g.1 a := by
  induction entries generalizing gs with
  | nil => exact h
  | cons entry entries ih =>
    rw [forall_mem_cons] at hP
    exact ih hP.2 (forall_mem_insertInto hP.1 h)

end Invariant

theorem groups_ne_nil : ∀ g ∈ groups before entries, g.2 ≠ [] := fun g hg =>
  (forall_mem_foldl_insertInto (P := fun _ _ => True) entries (by simp) (by simp) g hg).1

end Groups

section Scatter

variable {ρ α : Type}

def scatter (results : List α) (writes : List (Nat × α)) : List α :=
  writes.foldl (fun results write => results.set write.1 write.2) results

def written (computed : List ((ρ × Nat) × α)) : List (Nat × α) :=
  computed.map fun c => (c.1.2, c.2)

def answered (computed : List ((ρ × Nat) × α)) : List (ρ × α) :=
  computed.map fun c => (c.1.1, c.2)

variable {results : List α} {writes : List (Nat × α)}

@[simp]
theorem written_append (computed computed' : List ((ρ × Nat) × α)) :
    written (computed ++ computed') = written computed ++ written computed' :=
  map_append

@[simp]
theorem answered_append (computed computed' : List ((ρ × Nat) × α)) :
    answered (computed ++ computed') = answered computed ++ answered computed' :=
  map_append

theorem written_zip (entries : List (ρ × Nat)) (values : List α) :
    written (entries.zip values) = (entries.map Prod.snd).zip values := by
  rw [zip_map_left]
  rfl

theorem answered_zip (entries : List (ρ × Nat)) (values : List α) :
    answered (entries.zip values) = (entries.map Prod.fst).zip values := by
  rw [zip_map_left]
  rfl

theorem scatter_append (results : List α) (writes writes' : List (Nat × α)) :
    scatter results (writes ++ writes') = scatter (scatter results writes) writes' :=
  foldl_append

@[simp]
theorem length_scatter : (scatter results writes).length = results.length := by
  induction writes generalizing results with
  | nil => rfl
  | cons write writes ih => exact ih.trans length_set

variable {i : Nat}

theorem getElem?_scatter_of_notMem (h : i ∉ writes.map Prod.fst) :
    (scatter results writes)[i]? = results[i]? := by
  induction writes generalizing results with
  | nil => rfl
  | cons write writes ih =>
    simp only [map_cons, mem_cons, not_or] at h
    exact (ih h.2).trans (getElem?_set_ne (Ne.symm h.1))

theorem getElem?_scatter_of_mem (hnodup : (writes.map Prod.fst).Nodup) {a : α}
    (hmem : (i, a) ∈ writes) (hi : i < results.length) : (scatter results writes)[i]? = some a := by
  induction writes generalizing results with
  | nil => cases hmem
  | cons write writes ih =>
    obtain ⟨hnot, hnodup⟩ := nodup_cons.mp hnodup
    rcases mem_cons.mp hmem with rfl | hmem
    · exact (getElem?_scatter_of_notMem hnot).trans (getElem?_set_self hi)
    · exact ih hnodup hmem (by simpa using hi)

variable {entries : List ρ} {computed : List ((ρ × Nat) × α)}

theorem nodup_zipIdx : entries.zipIdx.Nodup := by
  refine List.Nodup.of_map Prod.snd ?_
  rw [zipIdx_map_snd]
  exact nodup_range'

theorem mem_zipIdx_zip_iff {entry : ρ} {a : α} :
    ((entry, i), a) ∈ entries.zipIdx.zip results ↔
      entries[i]? = some entry ∧ results[i]? = some a := by
  rw [mem_iff_getElem?]
  constructor
  · rintro ⟨j, hj⟩
    obtain ⟨hentry, ha⟩ := getElem?_zip_eq_some.mp hj
    rw [getElem?_zipIdx] at hentry
    obtain ⟨entry', hentry', heq⟩ := Option.map_eq_some_iff.mp hentry
    obtain ⟨rfl, rfl⟩ := Prod.mk.inj heq
    rw [Nat.zero_add]
    exact ⟨hentry', ha⟩
  · rintro ⟨hentry, ha⟩
    exact ⟨i, getElem?_zip_eq_some.mpr ⟨by simp [getElem?_zipIdx, hentry], ha⟩⟩

/-- If every entry has been computed once, the results stand at the entries' indices. -/
theorem answered_perm_zip (h : (computed.map Prod.fst).Perm entries.zipIdx)
    (hlen : results.length = entries.length) :
    (answered computed).Perm (entries.zip (scatter results (written computed))) := by
  have hindices : ((written computed).map Prod.fst).Perm (range entries.length) := by
    have hmap := h.map Prod.snd
    rw [map_map, zipIdx_map_snd, ← range_eq_range'] at hmap
    simpa [written, Function.comp_def] using hmap
  have hnodup : ((written computed).map Prod.fst).Nodup := hindices.nodup_iff.mpr nodup_range
  have hat : ∀ c ∈ computed, entries[c.1.2]? = some c.1.1 ∧
      (scatter results (written computed))[c.1.2]? = some c.2 := by
    intro c hc
    have hentry := mem_zipIdx_iff_getElem?.mp (h.subset (mem_map_of_mem hc))
    have hlt : c.1.2 < results.length := by
      rw [hlen]
      exact (List.getElem?_eq_some_iff.mp hentry).1
    exact ⟨hentry, getElem?_scatter_of_mem hnodup (mem_map_of_mem hc) hlt⟩
  -- both sides list each index once, with the same entry and the same value
  have hperm : computed.Perm (entries.zipIdx.zip (scatter results (written computed))) := by
    have hcomputed : (computed.map Prod.fst).Nodup := h.nodup_iff.mpr nodup_zipIdx
    refine (perm_ext_iff_of_nodup hcomputed.of_map ?_).mpr ?_
    · refine List.Nodup.of_map Prod.fst ?_
      rw [map_fst_zip (by simp [hlen])]
      exact nodup_zipIdx
    · rintro ⟨⟨entry, i⟩, a⟩
      rw [mem_zipIdx_zip_iff]
      constructor
      · exact hat _
      · rintro ⟨hentry, ha⟩
        obtain ⟨c, hc, hfst⟩ := mem_map.mp
          (h.symm.subset (mem_zipIdx_iff_getElem?.mpr hentry : (entry, i) ∈ entries.zipIdx))
        obtain ⟨-, hvalue⟩ := hat c hc
        rw [hfst, ha] at hvalue
        rwa [Option.some.inj hvalue, ← hfst]
  have hzip : (entries.zipIdx.zip (scatter results (written computed))).map
      (fun c => (c.1.1, c.2)) = entries.zip (scatter results (written computed)) := by
    conv_rhs => rw [← zipIdx_map_fst 0 entries, zip_map_left]
    rfl
  exact hzip ▸ hperm.map fun c : (ρ × Nat) × α => (c.1.1, c.2)

end Scatter

end Grouping
