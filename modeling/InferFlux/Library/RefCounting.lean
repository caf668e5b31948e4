import Mathlib.Data.Multiset.AddSub

/-!
# Reference counting

A pool of cells, each with an in-use flag and a counter, next to the multiset of the
references that owners really hold. `Backed` ties the two together: a cell to which a
reference is held is in use and counts exactly the references to it. The rules say what
a change of one cell needs for that to go on.
-/

namespace RefCounting

variable {ω γ : Type}

/-- How a cell shows whether it is taken and how many references it counts. -/
structure Meter (γ : Type) where
  inUse : γ → Bool
  count : γ → Int

def refs (held : Multiset (ω × Nat)) (p : Nat) : Nat := held.countP fun x => x.2 = p

def grant (o : ω) (ps : List Nat) : Multiset (ω × Nat) := Multiset.ofList (ps.map fun p => (o, p))

@[simp] theorem refs_zero (p : Nat) : refs (0 : Multiset (ω × Nat)) p = 0 := rfl

@[simp] theorem refs_add (held held' : Multiset (ω × Nat)) (p : Nat) :
    refs (held + held') p = refs held p + refs held' p :=
  Multiset.countP_add _ _ _

variable (o : ω)

@[simp] theorem refs_grant (ps : List Nat) (p : Nat) : refs (grant o ps) p = ps.count p := by
  simp only [refs, grant, Multiset.coe_countP, List.countP_map, List.count, Function.comp_def]
  rfl

variable {held gone : Multiset (ω × Nat)}

@[simp] theorem refs_sub [DecidableEq ω] (h : gone ≤ held) (p : Nat) :
    refs (held - gone) p = refs held p - refs gone p := by
  have hadd := congrArg (fun m => refs m p) (Multiset.sub_add_cancel h)
  simp only [refs_add] at hadd
  omega

theorem refs_le_of_le (h : gone ≤ held) (p : Nat) : refs gone p ≤ refs held p :=
  Multiset.countP_le_of_le _ h

variable {p : Nat}

theorem refs_pos_iff : 0 < refs held p ↔ ∃ o, (o, p) ∈ held := by
  simp [refs, Multiset.countP_pos]

@[simp] theorem grant_nil : grant o [] = 0 := rfl

theorem grant_append (ps qs : List Nat) : grant o (ps ++ qs) = grant o ps + grant o qs := by
  simp [grant]

theorem grant_cons (p : Nat) (ps : List Nat) :
    grant o (p :: ps) = grant o [p] + grant o ps := grant_append o [p] ps

/-- A cell to which a reference is held is in use and counts the references to it. -/
def Backed (μ : Meter γ) (cells : List γ) (held : Multiset (ω × Nat)) : Prop :=
  ∀ p, 0 < refs held p → ∃ c, cells[p]? = some c ∧ μ.inUse c = true ∧ μ.count c = refs held p

variable {μ : Meter γ} {cells cells' : List γ} {held held' : Multiset (ω × Nat)}

theorem backed_zero (μ : Meter γ) (cells : List γ) : Backed μ cells (0 : Multiset (ω × Nat)) := by
  intro p hp
  simp at hp

theorem Backed.refs_eq_zero (h : Backed μ cells held) {c : γ} (hc : cells[p]? = some c)
    (hfree : μ.inUse c = false) : refs held p = 0 := by
  by_contra hne
  obtain ⟨c', hc', huse, -⟩ := h p (Nat.pos_of_ne_zero hne)
  rw [hc, Option.some.injEq] at hc'
  rw [← hc', hfree] at huse
  exact Bool.noConfusion huse

theorem Backed.lt_length (h : Backed μ cells held) (hp : 0 < refs held p) : p < cells.length := by
  obtain ⟨c, hc, -⟩ := h p hp
  exact (List.getElem?_eq_some_iff.mp hc).1

/-- Cells with references stay as they are, the references to them too. -/
theorem Backed.frame (h : Backed μ cells held)
    (hcells : ∀ p, 0 < refs held' p → cells'[p]? = cells[p]? ∧ refs held' p = refs held p) :
    Backed μ cells' held' := by
  intro p hp
  obtain ⟨hsame, hrefs⟩ := hcells p hp
  rw [hsame, hrefs]
  exact h p (hrefs ▸ hp)

variable {i : Nat} {f : γ → γ}

theorem Backed.modify (h : Backed μ cells held) (hrefs : ∀ p, p ≠ i → refs held' p = refs held p)
    (hcell : 0 < refs held' i → ∃ c, cells[i]? = some c ∧ μ.inUse (f c) = true ∧
      μ.count (f c) = refs held' i) : Backed μ (cells.modify i f) held' := by
  intro p hp
  by_cases hpi : p = i
  · subst hpi
    obtain ⟨c, hc, huse, hcount⟩ := hcell hp
    exact ⟨f c, by simp [hc], huse, hcount⟩
  · rw [hrefs p hpi] at hp ⊢
    obtain ⟨c, hc, huse, hcount⟩ := h p hp
    refine ⟨c, ?_, huse, hcount⟩
    simp [Ne.symm hpi, hc]

/-- A change that keeps the counter and does not free the cell. -/
theorem Backed.modify_keep (h : Backed μ cells held)
    (huse : ∀ c, μ.inUse c = true → μ.inUse (f c) = true)
    (hcount : ∀ c, μ.count (f c) = μ.count c) : Backed μ (cells.modify i f) held := by
  refine h.modify (fun _ _ => rfl) fun hp => ?_
  obtain ⟨c, hc, hc', hcount'⟩ := h i hp
  exact ⟨c, hc, huse c hc', (hcount c).trans hcount'⟩

/-- A free cell is handed out with a counter of one. -/
theorem Backed.reserve (h : Backed μ cells held) {c : γ} (o : ω) (hc : cells[i]? = some c)
    (hfree : μ.inUse c = false) (huse : μ.inUse (f c) = true) (hcount : μ.count (f c) = 1) :
    Backed μ (cells.modify i f) (held + grant o [i]) := by
  refine h.modify (fun p hp => by simp [Ne.symm hp]) fun _ => ⟨c, hc, huse, ?_⟩
  simp [h.refs_eq_zero hc hfree, hcount]

theorem Backed.acquire (h : Backed μ cells held) (o : ω) (hi : 0 < refs held i)
    (huse : ∀ c, μ.inUse c = true → μ.inUse (f c) = true)
    (hcount : ∀ c, μ.count (f c) = μ.count c + 1) :
    Backed μ (cells.modify i f) (held + grant o [i]) := by
  refine h.modify (fun p hp => by simp [Ne.symm hp]) fun _ => ?_
  obtain ⟨c, hc, hc', hcount'⟩ := h i hi
  exact ⟨c, hc, huse c hc', by simp [hcount, hcount']⟩

/-- One reference less; the cell may be freed with the last one. -/
theorem Backed.release [DecidableEq ω] (h : Backed μ cells held) {o : ω} (hi : grant o [i] ≤ held)
    (hcell : ∀ c, cells[i]? = some c → μ.inUse c = true → 1 < μ.count c →
      μ.inUse (f c) = true ∧ μ.count (f c) = μ.count c - 1) :
    Backed μ (cells.modify i f) (held - grant o [i]) := by
  refine h.modify (fun p hp => by simp [hi, Ne.symm hp]) fun hp => ?_
  simp only [refs_sub hi, refs_grant, List.count_singleton_self] at hp ⊢
  obtain ⟨c, hc, hc', hcount⟩ := h i (by omega)
  obtain ⟨huse, hcount'⟩ := hcell c hc hc' (by omega)
  exact ⟨c, hc, huse, by omega⟩

end RefCounting
