import InferFlux.Library.CompressedTrie

/-!
# Walking down a compressed trie

A walk for the symbols `q` passes the nodes whose paths are prefixes of `q`, and it can
end inside an edge. Both notions are defined on the entries of the trie; the lemmas say
how they unfold along the walk: into the child whose edge is matched, and past siblings
that start with another symbol.
-/

namespace CompressedTrie

open List

variable {κ δ : Type} [DecidableEq κ]

theorem commonPrefixLength_append (as bs cs : List κ) :
    commonPrefixLength (as ++ bs) (as ++ cs) = as.length + commonPrefixLength bs cs := by
  induction as with
  | nil => simp
  | cons a as ih => simp [commonPrefixLength, ih, Nat.add_right_comm]

theorem commonPrefixLength_eq_zero {as bs : List κ} (h : as.head? ≠ bs.head?) :
    commonPrefixLength as bs = 0 := by
  cases as <;> cases bs <;> simp_all [commonPrefixLength]

@[simp] theorem commonPrefixLength_nil (as : List κ) : commonPrefixLength as [] = 0 := by
  cases as <;> rfl

namespace Forest

/-- Some node on the way down along `q` has the property. -/
def OnPath (f : Forest κ δ) (q : List κ) (P : δ → Prop) : Prop :=
  ∃ p d, (p, d) ∈ f.entries ∧ p <+: q ∧ P d

/-- What `q` shares with some node is not a node of the trie: the walk ends inside an
edge. -/
def MidEdge (f : Forest κ δ) (q : List κ) : Prop :=
  ∃ p d, (p, d) ∈ f.entries ∧ 0 < commonPrefixLength p q ∧
    ∀ d', (q.take (commonPrefixLength p q), d') ∉ f.entries

section Cons

variable {key : κ} {edge : List κ} {data : δ} {children rest : Forest κ δ} {P : δ → Prop}

omit [DecidableEq κ] in
/-- A path below the first edge starts with its key. -/
theorem WF.head?_edge_append (hf : (cons key edge data children rest).WF) (q : List κ) :
    (edge ++ q).head? = some key := by
  rw [head?_append, hf.1, Option.some_or]

variable {q : List κ}

omit [DecidableEq κ] in
theorem WF.not_prefix_rest (hf : (cons key edge data children rest).WF) {p : List κ} {d : δ}
    (h : (p, d) ∈ rest.entries) (hq : q.head? = some key) : ¬ p <+: q := by
  intro hp
  have hne := ne_nil_of_mem_entries hf.2.2.2 h
  cases p with
  | nil => exact hne rfl
  | cons a p =>
    rw [head?_of_prefix_cons hp] at hq
    exact hf.head?_ne h hq

omit [DecidableEq κ] in
theorem onPath_cons_matched (hf : (cons key edge data children rest).WF) (q : List κ) :
    (cons key edge data children rest).OnPath (edge ++ q) P ↔ P data ∨ children.OnPath q P := by
  constructor
  · rintro ⟨p, d, hd, hp, hP⟩
    rcases mem_entries_cons.mp hd with ⟨rfl, rfl⟩ | ⟨p', rfl, hd'⟩ | hd
    · exact Or.inl hP
    · exact Or.inr ⟨p', d, hd', (prefix_append_right_inj edge).mp hp, hP⟩
    · exact absurd hp (hf.not_prefix_rest hd (hf.head?_edge_append q))
  · rintro (hP | ⟨p, d, hd, hp, hP⟩)
    · exact ⟨edge, data, mem_entries_cons.mpr (.inl ⟨rfl, rfl⟩), prefix_append edge q, hP⟩
    · exact ⟨edge ++ p, d, mem_entries_cons.mpr (.inr (.inl ⟨p, rfl, hd⟩)),
        (prefix_append_right_inj edge).mpr hp, hP⟩

theorem not_onPath_cons_of_lt (hf : (cons key edge data children rest).WF) (hq : q.head? = some key)
    (hlt : commonPrefixLength edge q < edge.length) :
    ¬ (cons key edge data children rest).OnPath q P := by
  rintro ⟨p, d, hd, hp, -⟩
  obtain ⟨p', rfl⟩ | hd := edge_append_or_mem_rest hd
  · exact (not_commonPrefixLength_lt_iff edge q).mpr ((prefix_append edge p').trans hp) hlt
  · exact hf.not_prefix_rest hd hq hp

variable {first : κ}

omit [DecidableEq κ] in
/-- A node on the way whose first symbol is another one lies behind the first sibling. -/
theorem WF.mem_rest_of_prefix (hf : (cons key edge data children rest).WF) {p : List κ} {d : δ}
    (hne : key ≠ first) (h : (p, d) ∈ (cons key edge data children rest).entries)
    (hp : p <+: first :: q) : (p, d) ∈ rest.entries := by
  obtain ⟨p', rfl⟩ | h := edge_append_or_mem_rest h
  · obtain ⟨more, hmore⟩ := hp
    have hhead := hf.head?_edge_append (p' ++ more)
    rw [← append_assoc, hmore, head?_cons, Option.some.injEq] at hhead
    exact absurd hhead.symm hne
  · exact h

omit [DecidableEq κ] in
theorem onPath_cons_of_ne (hf : (cons key edge data children rest).WF) (hne : key ≠ first) :
    (cons key edge data children rest).OnPath (first :: q) P ↔ rest.OnPath (first :: q) P := by
  constructor
  · rintro ⟨p, d, hd, hp, hP⟩
    exact ⟨p, d, hf.mem_rest_of_prefix hne hd hp, hp, hP⟩
  · rintro ⟨p, d, hd, hp, hP⟩
    exact ⟨p, d, mem_entries_cons.mpr (.inr (.inr hd)), hp, hP⟩

theorem midEdge_cons_matched (hf : (cons key edge data children rest).WF) (q : List κ) :
    (cons key edge data children rest).MidEdge (edge ++ q) ↔ children.MidEdge q := by
  have hself : (edge, data) ∈ (cons key edge data children rest).entries :=
    mem_entries_cons.mpr (.inl ⟨rfl, rfl⟩)
  constructor
  · rintro ⟨p, d, hd, hpos, hnone⟩
    rcases mem_entries_cons.mp hd with ⟨rfl, rfl⟩ | ⟨p', rfl, hbelow⟩ | hd
    · have hlen := commonPrefixLength_append p [] q
      simp only [append_nil, commonPrefixLength, Nat.add_zero] at hlen
      rw [hlen, take_left' rfl] at hnone
      exact absurd hself (hnone d)
    · rw [commonPrefixLength_append, take_length_add_append] at hnone
      refine ⟨p', d, hbelow, Nat.pos_of_ne_zero fun hzero => ?_, fun d' hd' => ?_⟩
      · rw [hzero, take_zero, append_nil] at hnone
        exact hnone data hself
      · exact hnone d' (mem_entries_cons.mpr (.inr (.inl ⟨_, rfl, hd'⟩)))
    · have hzero : commonPrefixLength p (edge ++ q) = 0 :=
        commonPrefixLength_eq_zero (hf.head?_edge_append q ▸ hf.head?_ne hd)
      omega
  · rintro ⟨p, d, hd, hpos, hnone⟩
    refine ⟨edge ++ p, d, mem_entries_cons.mpr (.inr (.inl ⟨p, rfl, hd⟩)), ?_, fun d' hd' => ?_⟩
    · rw [commonPrefixLength_append]
      omega
    · rw [commonPrefixLength_append, take_length_add_append] at hd'
      rcases mem_entries_cons.mp hd' with ⟨heq, -⟩ | ⟨p', heq, hd'⟩ | hd'
      · have hle := commonPrefixLength_le_right p q
        have hlen := congrArg length heq
        simp only [length_append, length_take] at hlen
        omega
      · rw [append_cancel_left heq] at hnone
        exact hnone d' hd'
      · exact hf.head?_ne hd' (hf.head?_edge_append _)

theorem midEdge_cons_of_lt (hf : (cons key edge data children rest).WF) (hq : q.head? = some key)
    (hlt : commonPrefixLength edge q < edge.length) :
    (cons key edge data children rest).MidEdge q := by
  refine ⟨edge, data, mem_entries_cons.mpr (.inl ⟨rfl, rfl⟩), commonPrefixLength_pos hf.1 hq,
    fun d' hd' => ?_⟩
  have hlen := length_take_le (commonPrefixLength edge q) q
  obtain ⟨p, heq⟩ | hd' := edge_append_or_mem_rest hd'
  · rw [heq, length_append] at hlen
    omega
  · exact hf.not_prefix_rest hd' hq <| take_prefix _ _

theorem midEdge_cons_of_ne (hf : (cons key edge data children rest).WF) (hne : key ≠ first) :
    (cons key edge data children rest).MidEdge (first :: q) ↔ rest.MidEdge (first :: q) := by
  constructor
  · rintro ⟨p, d, hd, hpos, hnone⟩
    obtain ⟨p', rfl⟩ | hd := edge_append_or_mem_rest hd
    · have hzero : commonPrefixLength (edge ++ p') (first :: q) = 0 :=
        commonPrefixLength_eq_zero (by simpa [hf.head?_edge_append] using hne)
      omega
    · exact ⟨p, d, hd, hpos, fun d' hd' => hnone d' (mem_entries_cons.mpr (.inr (.inr hd')))⟩
  · rintro ⟨p, d, hd, hpos, hnone⟩
    refine ⟨p, d, mem_entries_cons.mpr (.inr (.inr hd)), hpos, fun d' hd' => ?_⟩
    obtain ⟨n, hn⟩ := Nat.exists_eq_succ_of_ne_zero hpos.ne'
    rw [hn, take_succ_cons] at hd' hnone
    obtain ⟨p', heq⟩ | hd' := edge_append_or_mem_rest hd'
    · have hhead := heq ▸ hf.head?_edge_append p'
      exact hne (by simpa using hhead.symm)
    · exact hnone d' hd'

end Cons

omit [DecidableEq κ] in
@[simp] theorem not_onPath_nil (q : List κ) (P : δ → Prop) : ¬ (nil : Forest κ δ).OnPath q P := by
  simp [OnPath]

@[simp] theorem not_midEdge_nil (q : List κ) : ¬ (nil : Forest κ δ).MidEdge q := by
  simp [MidEdge]

omit [DecidableEq κ] in
theorem WF.not_onPath_empty {f : Forest κ δ} (hf : f.WF) (P : δ → Prop) : ¬ f.OnPath [] P := by
  rintro ⟨p, d, hd, hp, -⟩
  exact ne_nil_of_mem_entries hf hd (prefix_nil.mp hp)

theorem not_midEdge_empty (f : Forest κ δ) : ¬ f.MidEdge [] := by
  rintro ⟨p, d, -, hpos, -⟩
  simp at hpos

end Forest

end CompressedTrie
