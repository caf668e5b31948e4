import InferFlux.PrefixCache.RadixPrefixCache

/-!
# What the walks of the cache do to the trie

`insertLoop` and `lookupLoop` are described once, through the entries of the trie:
`InsertView` lists the four ways in which an insertion can change them and
`lookupLoop_unstamped` says that a lookup only refreshes `last_used`. Later modules use these
descriptions and never unfold the loops.
-/

namespace InferFlux.PrefixCache

open CompressedTrie RadixNode LookupVars List Forest

/-- A node without its back pointer. -/
def RadixNode.strip (n : RadixNode) : RadixNode := { n with parent := none }

abbrev View := List (List Token × RadixNode)

/-- All nodes with the tokens leading to them, back pointers left out. -/
def view (f : Children) : View := f.entries.map (fun x => (x.1, x.2.strip))

def View.under (edge : List Token) (v : View) : View := v.map (fun x => (edge ++ x.1, x.2))

variable (n : RadixNode)

@[simp] theorem strip_addr : n.strip.addr = n.addr := rfl
@[simp] theorem strip_blockTable : n.strip.blockTable = n.blockTable := rfl
@[simp] theorem strip_sequenceId : n.strip.sequenceId = n.sequenceId := rfl
@[simp] theorem strip_backend : n.strip.backend = n.backend := rfl
@[simp] theorem strip_strip : n.strip.strip = n.strip := rfl

@[simp] theorem view_nil : view .nil = [] := rfl

theorem view_cons (key : Token) (edge : List Token) (n : RadixNode) (below rest : Children) :
    view (.cons key edge n below rest) =
      (edge, n.strip) :: (View.under edge (view below) ++ view rest) := by
  simp [view, View.under, entries, Function.comp_def]

theorem View.under_under (a b : List Token) (v : View) :
    View.under a (View.under b v) = View.under (a ++ b) v := by
  simp [View.under, Function.comp_def]

@[simp] theorem View.under_cons (edge p : List Token) (n : RadixNode) (v : View) :
    View.under edge ((p, n) :: v) = (edge ++ p, n) :: View.under edge v := rfl

variable (edge : List Token)

@[simp] theorem View.under_nil : View.under edge [] = [] := rfl

@[simp] theorem View.under_append (v w : View) :
    View.under edge (v ++ w) = View.under edge v ++ View.under edge w := by
  simp [View.under]

@[simp] theorem View.nil_under (v : View) : View.under [] v = v := by
  simp [View.under]

variable {v : View} {w : View}

theorem View.under_perm (h : v.Perm w) : (View.under edge v).Perm (View.under edge w) := h.map _

/-! ## Insertion -/

def Counters.split (c : Counters) : Counters :=
  { c with size := c.size + 1, nextAddr := c.nextAddr + 1 }

/-- The node `SplitEdge` makes, without its back pointer. -/
def Counters.husk (c : Counters) : RadixNode := { addr := c.nextAddr }

/-- The ways an insertion of `tokens` changes the view `v`. -/
inductive InsertView (d : Donation) (tokens : List Token) (v : View) (c : Counters) :
    View → Counters → InsertExit → Prop where
  | leaf {v' : View} :
      v'.Perm ((tokens, (newLeaf 0 d c).1.strip) :: v) →
      InsertView d tokens v c v' (newLeaf 0 d c).2 .leaf
  | splitLeaf {v' : View} (p : List Token) :
      v'.Perm ((tokens, (newLeaf 0 d c.split).1.strip) :: (p, c.husk) :: v) →
      InsertView d tokens v c v' (newLeaf 0 d c.split).2 .leaf
  | splitNode {v' : View} (old : RadixNode) : old.strip = c.husk →
      v'.Perm ((tokens, (donate c.husk d c.split).1) :: v) →
      InsertView d tokens v c v' (donate c.husk d c.split).2 (.node old)
  | node {v' : View} (old : RadixNode) (others : View) :
      v.Perm ((tokens, old.strip) :: others) →
      v'.Perm ((tokens, (donate old d c).1.strip) :: others) →
      InsertView d tokens v c v' (donate old d c).2 (.node old)

variable {d : Donation} {tokens : List Token} {c : Counters} {v' : View} {c' : Counters}
  {exit : InsertExit}

theorem InsertView.frame (h : InsertView d tokens v c v' c' exit) (edge : List Token)
    (other : View) :
    InsertView d (edge ++ tokens) (View.under edge v ++ other) c
      (View.under edge v' ++ other) c' exit := by
  have lift {w w' : View} (hw : w.Perm w') :
      (View.under edge w ++ other).Perm (View.under edge w' ++ other) :=
    (View.under_perm edge hw).append_right other
  cases h with
  | leaf hv => exact .leaf (lift hv)
  | splitLeaf p hv => exact .splitLeaf (edge ++ p) (lift hv)
  | splitNode old ho hv => exact .splitNode old ho (lift hv)
  | node old others hv hv' =>
    exact .node old (View.under edge others ++ other) (lift hv) (lift hv')

theorem InsertView.perm {w' : View} (h : InsertView d tokens v c v' c' exit) (hv : v.Perm w)
    (hv' : w'.Perm v') : InsertView d tokens w c w' c' exit := by
  cases h with
  | leaf h => exact .leaf (hv'.trans (h.trans (hv.cons _)))
  | splitLeaf p h => exact .splitLeaf p (hv'.trans (h.trans ((hv.cons _).cons _)))
  | splitNode old ho h => exact .splitNode old ho (hv'.trans (h.trans (hv.cons _)))
  | node old others h h' => exact .node old others (hv.symm.trans h) (hv'.trans h')

/-- The walk of `Insert` changes the trie in one of the listed ways. -/
theorem insertLoop_view (d : Donation) (node : Addr) (f : Children) (first : Token)
    (tokens : List Token) (c : Counters) :
    InsertView d (first :: tokens) (view f) c (view (insertLoop d node f first tokens c).1)
      (insertLoop d node f first tokens c).2.1 (insertLoop d node f first tokens c).2.2 := by
  fun_induction insertLoop d node f first tokens c with
  | case1 node first tokens c leaf c' h =>
    cases h
    exact .leaf (by simp [view_cons, newLeaf, strip])
  | case2 node edge child below rest first tokens c common hlt split c₁ hs hdrop donor c₂ hd =>
    -- the tokens end inside the edge: the split point becomes the donor
    cases hs
    cases hd
    have htake : edge.take common = first :: tokens := by
      simpa [hdrop, common] using take_append_drop_commonPrefixLength edge (first :: tokens)
    refine .splitNode { addr := c.nextAddr, parent := some node } rfl ?_
    simp only [view_cons, donate, View.under_cons, view_nil, View.under_under, append_nil, htake]
    rw [← htake, take_append_drop]
    exact List.Perm.refl _
  | case3 node edge child below rest first tokens c common hlt split c₁ hs next more hdrop leaf
      c₂ hl =>
    -- the tokens leave the edge: a leaf next to the lower half of the split edge
    cases hs
    cases hl
    obtain ⟨other, suffix, hsuffix⟩ := exists_cons_of_length_pos
      (show 0 < (edge.drop common).length by simpa using hlt)
    have hne : other ≠ next :=
      head?_drop_commonPrefixLength (congrArg head? hsuffix) (congrArg head? hdrop)
    have htokens : edge.take common ++ next :: more = first :: tokens := by
      rw [← hdrop]
      exact take_append_drop_commonPrefixLength edge (first :: tokens)
    have hedge : edge.take common ++ other :: suffix = edge := by
      rw [← hsuffix, take_append_drop]
    refine .splitLeaf (edge.take common) ?_
    simp only [hsuffix, headD_cons, Forest.set, if_neg hne, view_cons, View.under_cons,
      view_nil, View.under_nil, View.under_append, View.under_under, append_nil,
      cons_append, hedge, htokens, append_assoc, nil_append]
    change (((_, _) :: (_, _) :: View.under edge (view below)) ++ (_, _) :: view rest).Perm _
    exact perm_middle
  | case4 node edge child below rest first tokens c common hlt hdrop donor c₁ hd =>
    cases hd
    have hedge : edge = first :: tokens := by
      simpa [hdrop, common] using append_drop_commonPrefixLength hlt
    rw [view_cons, view_cons, hedge]
    exact .node child _ (List.Perm.refl _) (List.Perm.refl _)
  | case5 node edge child below rest first tokens c common hlt next more hdrop below' c₁ exit hr
      ih =>
    rw [hr] at ih
    have hedge : edge ++ next :: more = first :: tokens := by
      rw [← hdrop]
      exact append_drop_commonPrefixLength hlt
    rw [view_cons, view_cons, ← hedge]
    exact (ih.frame edge ((edge, child.strip) :: view rest)).perm perm_middle perm_middle.symm
  | case6 node key edge child below rest first tokens c hk rest' c₁ exit hr ih =>
    rw [hr] at ih
    rw [view_cons, view_cons]
    have hframe := ih.frame [] ((edge, child.strip) :: View.under edge (view below))
    simp only [View.nil_under, nil_append] at hframe
    have hcomm (w : View) : ((edge, child.strip) :: (View.under edge (view below) ++ w)).Perm
        (w ++ (edge, child.strip) :: View.under edge (view below)) :=
      (perm_append_comm : (((edge, child.strip) :: View.under edge (view below)) ++ w).Perm _)
    exact hframe.perm (hcomm _).symm (hcomm _)

variable {f : Children}

/-- Keys of the changed siblings: nothing but the first token can be new. -/
theorem mem_keys_insertLoop {node : Addr} {first : Token} {k : Token}
    (h : k ∈ (insertLoop d node f first tokens c).1.keys) : k = first ∨ k ∈ f.keys := by
  fun_induction insertLoop d node f first tokens c with
  | case6 node key edge child below rest first tokens c hk rest' c₁ exit hr ih =>
    rw [hr] at ih
    simp only [Forest.keys_cons, mem_cons] at h ⊢
    rcases h with h | h
    · exact Or.inr (Or.inl h)
    · exact (ih h).imp_right Or.inr
  | _ => simp_all

/-- The two halves of a split edge are non-empty and stored under their first token. -/
theorem splitEdge_wf (node : Addr) {edge : List Token} (child : RadixNode) {below : Children}
    {first : Token} {splitAt : Nat} (c : Counters) (hpos : 0 < splitAt)
    (hlt : splitAt < edge.length) (hkey : edge.head? = some first) (hb : below.WF) :
    (splitEdge node edge child below splitAt c).1.edge.head? = some first ∧
      (splitEdge node edge child below splitAt c).1.children.WF := by
  obtain ⟨other, suffix, hsuffix⟩ := exists_cons_of_length_pos
    (show 0 < (edge.drop splitAt).length by simpa using hlt)
  refine ⟨?_, ?_⟩
  · cases edge with
    | nil => simp at hkey
    | cons x edge =>
      obtain ⟨n, rfl⟩ := Nat.exists_eq_succ_of_ne_zero hpos.ne'
      simpa [splitEdge] using hkey
  · simp only [splitEdge, hsuffix]
    exact ⟨rfl, by simp, hb, trivial⟩

/-- The trie stays well formed and every node points to its parent, the two nodes a split connects
included. -/
theorem insertLoop_linked (d : Donation) (node : Addr)
    (hf : f.WF ∧ f.Linked addr parent node) (first : Token) (tokens : List Token) (c : Counters) :
    (insertLoop d node f first tokens c).1.WF ∧
      (insertLoop d node f first tokens c).1.Linked addr parent node := by
  fun_induction insertLoop d node f first tokens c with
  | case1 node first tokens c leaf c' h =>
    cases h
    exact ⟨⟨rfl, by simp, trivial, trivial⟩, rfl, trivial, trivial⟩
  | case2 node edge child below rest first tokens c common hlt split c₁ hs hdrop donor c₂ hd =>
    obtain ⟨⟨hkey, hfresh, hb, hr⟩, -, hbelow, hrest⟩ := hf
    have hwf := splitEdge_wf node child c (commonPrefixLength_pos hkey rfl) hlt hkey hb
    cases hs
    cases hd
    exact ⟨⟨hwf.1, hfresh, hwf.2, hr⟩, rfl, ⟨rfl, hbelow, trivial⟩, hrest⟩
  | case3 node edge child below rest first tokens c common hlt split c₁ hs next more hdrop leaf
      c₂ hl =>
    obtain ⟨⟨hkey, hfresh, hb, hr⟩, -, hbelow, hrest⟩ := hf
    have hwf := splitEdge_wf node child c (commonPrefixLength_pos hkey rfl) hlt hkey hb
    have hsplit : Linked addr parent c.nextAddr
        (splitEdge node edge child below common c).1.children := ⟨rfl, hbelow, trivial⟩
    cases hs
    cases hl
    exact ⟨⟨hwf.1, hfresh, hwf.2.set rfl trivial, hr⟩, rfl,
      hsplit.set (n := ⟨next :: more, _, .nil⟩) rfl trivial next, hrest⟩
  | case4 node edge child below rest first tokens c common hlt hdrop donor c₁ hd =>
    cases hd
    exact hf
  | case5 node edge child below rest first tokens c common hlt next more hdrop below' c₁ exit hr
      ih =>
    rw [hr] at ih
    obtain ⟨⟨hkey, hfresh, hb, hr'⟩, hnode, hbelow, hrest⟩ := hf
    obtain ⟨hwf, hlinked⟩ := ih ⟨hb, hbelow⟩
    exact ⟨⟨hkey, hfresh, hwf, hr'⟩, hnode, hlinked, hrest⟩
  | case6 node key edge child below rest first tokens c hk rest' c₁ exit hr ih =>
    have hkeys : ∀ k ∈ rest'.keys, k = first ∨ k ∈ rest.keys := by
      intro k hk
      exact mem_keys_insertLoop (by rwa [hr])
    rw [hr] at ih
    obtain ⟨⟨hkey, hfresh, hb, hr'⟩, hnode, hbelow, hrest⟩ := hf
    obtain ⟨hwf, hlinked⟩ := ih ⟨hr', hrest⟩
    refine ⟨⟨hkey, fun h => ?_, hb, hwf⟩, hnode, hbelow, hlinked⟩
    rcases hkeys _ h with h | h
    · exact hk h
    · exact hfresh h

/-- The walk makes a new leaf exactly when no node lies at or below the tokens. -/
theorem insertLoop_exit (d : Donation) (node : Addr) (hf : f.WF) (first : Token)
    (tokens : List Token) (c : Counters) :
    (insertLoop d node f first tokens c).2.2 = .leaf ↔
      ∀ p n, (p, n) ∈ f.entries → ¬ first :: tokens <+: p := by
  fun_induction insertLoop d node f first tokens c with
  | case1 node first tokens c leaf c' h => simp
  | case2 node edge child below rest first tokens c common hlt split c₁ hs hdrop donor c₂ hd =>
    have htake : edge.take common = first :: tokens := by
      simpa [hdrop, common] using take_append_drop_commonPrefixLength edge (first :: tokens)
    refine iff_of_false (by simp) fun h => h edge child (by simp [entries]) ?_
    exact htake ▸ take_prefix common edge
  | case3 node edge child below rest first tokens c common hlt split c₁ hs next more hdrop leaf
      c₂ hl =>
    refine iff_of_true rfl fun p n hp hpre => ?_
    obtain ⟨q, rfl⟩ | hp := edge_append_or_mem_rest hp
    · exact not_prefix_append_of_drop hlt hdrop q hpre
    · exact hf.head?_ne hp (head?_of_prefix_cons hpre)
  | case4 node edge child below rest first tokens c common hlt hdrop donor c₁ hd =>
    have hedge : edge = first :: tokens := by
      simpa [hdrop, common] using append_drop_commonPrefixLength hlt
    exact iff_of_false (by simp) fun h => h edge child (by simp [entries]) (hedge ▸ prefix_refl _)
  | case5 node edge child below rest first tokens c common hlt next more hdrop below' c₁ exit hr
      ih =>
    rw [hr] at ih
    have hedge : edge ++ next :: more = first :: tokens := by
      rw [← hdrop]
      exact append_drop_commonPrefixLength hlt
    rw [ih hf.2.2.1, ← hedge]
    constructor
    · intro h p n hp hpre
      rcases mem_entries_cons.mp hp with ⟨rfl, -⟩ | ⟨q, rfl, hq⟩ | hp
      · simpa using hpre.length_le
      · exact h q n hq ((prefix_append_right_inj edge).mp hpre)
      · rw [hedge] at hpre
        exact hf.head?_ne hp (head?_of_prefix_cons hpre)
    · intro h q n hq hpre
      exact h _ n (mem_entries_cons.mpr (.inr (.inl ⟨q, rfl, hq⟩)))
        ((prefix_append_right_inj edge).mpr hpre)
  | case6 node key edge child below rest first tokens c hk rest' c₁ exit hr ih =>
    rw [hr] at ih
    rw [ih hf.2.2.2]
    constructor
    · intro h p n hp hpre
      obtain ⟨q, rfl⟩ | hp := edge_append_or_mem_rest hp
      · have hhead := head?_of_prefix_cons hpre
        rw [head?_append, hf.1] at hhead
        exact hk (by simpa using hhead)
      · exact h p n hp hpre
    · intro h p n hp
      exact h p n (mem_entries_cons.mpr (.inr (.inr hp)))

/-! ## Lookup -/

def RadixNode.unstamped (n : RadixNode) : RadixNode := { n with lastUsed := 0 }

@[simp] theorem unstamped_addr : n.unstamped.addr = n.addr := rfl
@[simp] theorem unstamped_parent : n.unstamped.parent = n.parent := rfl

/-- A lookup changes nothing but `last_used` stamps. -/
theorem lookupLoop_unstamped (backend : Backend) (f : Children) (tokens : List Token)
    (clock : Nat) (v : LookupVars) :
    (lookupLoop backend f tokens clock v).1.mapData unstamped = f.mapData unstamped := by
  fun_induction lookupLoop backend f tokens clock v with
  | case5 edge child below rest first tokens clock v common hlt hb below' clock' v' hr ih =>
    rw [hr] at ih
    simp [mapData, ih, unstamped]
  | case6 key edge child below rest first tokens clock v hk rest' clock' v' hr ih =>
    rw [hr] at ih
    simp [mapData, ih]
  | _ => rfl

variable (v : LookupVars)

@[simp] theorem LookupVars.advance_offset (common : Nat) (child : RadixNode) :
    (v.advance common child).offset = v.offset + common := by
  unfold advance
  split_ifs <;> rfl

@[simp] theorem LookupVars.advance_nodeHit (common : Nat) (child : RadixNode) :
    (v.advance common child).nodeHit = true := by
  unfold advance
  split_ifs <;> rfl

@[simp] theorem LookupVars.advance_node (common : Nat) (child : RadixNode) :
    (v.advance common child).node = child.addr := by
  unfold advance
  split_ifs <;> rfl

/-- The donor a lookup reports sits on a prefix of the tokens and belongs to the
asking backend. -/
theorem lookupLoop_donor (backend : Backend) (f : Children) (tokens : List Token)
    (clock : Nat) (v : LookupVars) :
    let r := (lookupLoop backend f tokens clock v).2.2
    (r.lastSeqId = v.lastSeqId ∧ r.lastSeqTokens = v.lastSeqTokens ∧ r.blocks = v.blocks) ∨
      ∃ p n, (p, n) ∈ f.entries ∧ p <+: tokens ∧ n.sequenceId ≥ 0 ∧ n.backend = backend ∧
        r.lastSeqId = n.sequenceId ∧ r.lastSeqTokens = v.offset + p.length ∧
        r.blocks = n.blockTable := by
  fun_induction lookupLoop backend f tokens clock v with
  | case5 edge child below rest first tokens clock v common hlt hb below' clock' v' hr ih =>
    have hedge := append_drop_commonPrefixLength hlt
    have hlen : common = edge.length := commonPrefixLength_eq hlt
    rw [hr] at ih
    rcases ih with ⟨h₁, h₂, h₃⟩ | ⟨p, n, hn, hp, hseq, hbe, h₁, h₂, h₃⟩
    · by_cases hseq : child.sequenceId ≥ 0
      · simp only [advance, if_pos hseq] at h₁ h₂ h₃
        have hbe : child.backend = backend := by
          by_contra hne
          exact hb ⟨hseq, hne⟩
        exact Or.inr ⟨edge, child, by simp [entries], ⟨_, hedge⟩, hseq, hbe, h₁,
          by rw [h₂, hlen], h₃⟩
      · simp only [advance, if_neg hseq] at h₁ h₂ h₃
        exact Or.inl ⟨h₁, h₂, h₃⟩
    · refine Or.inr ⟨edge ++ p, n, by simp [entries, hn], ?_, hseq, hbe, h₁, ?_, h₃⟩
      · rw [← hedge]
        exact (prefix_append_right_inj edge).mpr hp
      · rw [h₂, length_append, advance_offset, hlen]
        omega
  | case6 key edge child below rest first tokens clock v hk rest' clock' v' hr ih =>
    rw [hr] at ih
    rcases ih with h | ⟨p, n, hn, h⟩
    · exact Or.inl h
    · exact Or.inr ⟨p, n, by simp [entries, hn], h⟩
  | _ => exact Or.inl ⟨rfl, rfl, rfl⟩

end InferFlux.PrefixCache
