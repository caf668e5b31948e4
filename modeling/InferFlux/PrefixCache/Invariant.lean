import InferFlux.PrefixCache.Walk

/-!
# The representation invariant

`Invariant` says that the trie is well formed and that the two counters agree with
it. Every call keeps it, so it holds after every run from the empty cache; with it
the eviction loops of `Insert` terminate.
-/

namespace InferFlux.PrefixCache

open CompressedTrie RadixNode List Forest

abbrev RadixPrefixCache.entries (c : RadixPrefixCache) : List (List Token × RadixNode) :=
  c.root.children.entries

def RadixNode.live (n : RadixNode) : Bool := decide (n.sequenceId ≥ 0)

def addrs (root : Trie) : List Addr := root.data.addr :: root.children.addrs RadixNode.addr

/-- A well-formed trie: its root is bare and the back pointers agree with the tree. -/
structure TrieInvariant (root : Trie) : Prop where
  wf : root.children.WF
  linked : root.children.Linked RadixNode.addr RadixNode.parent root.data.addr
  nodup : (addrs root).Nodup
  root_edge : root.edge = []
  root_parent : root.data.parent = none
  root_donorless : root.data.live = false

structure Invariant (c : RadixPrefixCache) : Prop where
  trie : TrieInvariant c.root
  fresh : ∀ a ∈ addrs c.root, a < c.nextAddr
  size_eq : c.size = c.entries.length
  live_eq : c.liveSequences = c.entries.countP (fun x => x.2.live)

theorem Invariant.new (kvCache onEvictSeq : Bool) (limits : RadixPrefixCacheLimits) :
    Invariant (RadixPrefixCache.new kvCache onEvictSeq limits) where
  trie :=
    { wf := trivial
      linked := trivial
      nodup := by simp [RadixPrefixCache.new, addrs]
      root_edge := rfl
      root_parent := rfl
      root_donorless := rfl }
  fresh := by simp [RadixPrefixCache.new, addrs]
  size_eq := rfl
  live_eq := rfl

variable {l : List (List Token × Trie)} {tie : Nat} {x : List Token × Trie}

theorem minElement_mem (h : minElement tie l = some x) : x ∈ l :=
  mem_of_mem_filter (mem_of_getElem? h)

theorem minElement_eq_none (h : minElement tie l = none) : l = [] := by
  by_contra hl
  obtain ⟨x, hx, hmin⟩ := l.toFinset.exists_min_image (·.2.data.lastUsed) (by simpa using hl)
  have hmem : x ∈ l.filter (fun x => l.all (fun y => x.2.data.lastUsed ≤ y.2.data.lastUsed)) := by
    simpa using And.intro hx hmin
  have hpos := length_pos_of_mem hmem
  have := getElem?_eq_none_iff.mp h
  exact absurd (Nat.mod_lt tie hpos) (by omega)

/-- An eviction takes the donor of the node at `tokens` away, and the node as well
when nothing is left below it. -/
inductive EvictView (tokens : List Token) (n : RadixNode) (v v' : View) : Prop where
  | removed (others : View) : v.Perm ((tokens, n) :: others) → v'.Perm others →
      EvictView tokens n v v'
  | cleared (others : View) : v.Perm ((tokens, n) :: others) →
      v'.Perm ((tokens, clearDonor n) :: others) → EvictView tokens n v v'

def SameConfig (c c' : RadixPrefixCache) : Prop :=
  c'.capacity = c.capacity ∧ c'.maxSequences = c.maxSequences ∧ c'.kvCache = c.kvCache ∧
    c'.onEvictSeq = c.onEvictSeq

def Event.isCall : Event → Bool
  | .donated .. => false
  | .evicted .. => false
  | _ => true

variable {tokens : List Token} {n : RadixNode}

theorem EvictView.live_count {v v' : View} (h : EvictView tokens n v v') :
    v'.countP (fun x => x.2.live) + (if n.live then 1 else 0) = v.countP (fun x => x.2.live) := by
  cases h with
  | removed others hv hv' => simp [hv.countP_eq, hv'.countP_eq, countP_cons]
  | cleared others hv hv' => simp [hv.countP_eq, hv'.countP_eq, countP_cons, live, clearDonor]

theorem freeDonorEvents_isCall (c : RadixPrefixCache) (n : RadixNode) :
    ∀ e ∈ freeDonorEvents c n, e.isCall = true := by
  unfold freeDonorEvents
  cases n.backend <;> split_ifs <;> simp [Event.isCall]

theorem releaseEvents_isCall (c : RadixPrefixCache) (n : RadixNode) :
    ∀ e ∈ releaseEvents c n, e.isCall = true := by
  unfold releaseEvents
  split_ifs <;> simp [Event.isCall]

variable {root : Trie}

theorem TrieInvariant.entry_nodup (h : TrieInvariant root) :
    (root.children.entries.map (fun x => x.2.addr)).Nodup := (List.nodup_cons.mp h.nodup).2

theorem mem_collectNodes {criteria : Trie → Bool} :
    x ∈ collectNodes root criteria ↔
      criteria x.2 = true ∧ (x = ([], root) ∨ x ∈ root.children.nodes) := by
  simp [collectNodes, and_comm]

/-- Erasing a leaf through its parent pointer removes its entry and nothing else. -/
theorem TrieInvariant.eraseChild {root : Trie} (h : TrieInvariant root) {tokens : List Token}
    {victim : Trie} (hv : (tokens, victim) ∈ root.children.nodes)
    (hleaf : victim.children = .nil) :
    TrieInvariant (eraseChild root victim.data.parent victim.edge) ∧
      (PrefixCache.eraseChild root victim.data.parent victim.edge).data = root.data ∧
      (PrefixCache.eraseChild root victim.data.parent victim.edge).children.entries =
        root.children.entries.filter (fun x => x.2.addr ≠ victim.data.addr) := by
  have hmem : (tokens, victim.data) ∈ root.children.entries :=
    mem_entries_iff.mpr ⟨victim, hv, rfl⟩
  obtain ⟨a, ha, -⟩ := h.linked.parent_mem hmem
  obtain ⟨⟨first, hfirst⟩, -⟩ := h.wf.of_mem_nodes hv
  obtain ⟨edge, hedge⟩ : ∃ edge, victim.edge = first :: edge := by
    cases hv : victim.edge with
    | nil => simp [hv] at hfirst
    | cons x edge => exact ⟨edge, by simpa [hv] using hfirst⟩
  have hentries := entries_eraseFrom_leaf h.wf h.linked h.nodup hv hleaf ha hfirst
  have hroot : PrefixCache.eraseChild root victim.data.parent victim.edge =
      { root with children := root.children.eraseFrom addr root.data.addr a first } := by
    rw [ha, hedge]
    rfl
  rw [hroot]
  refine ⟨⟨h.wf.eraseFrom _ _ _ _, h.linked.eraseFrom _ _, ?_, h.root_edge, h.root_parent,
    h.root_donorless⟩, rfl, hentries⟩
  have hsub : (root.children.eraseFrom addr root.data.addr a first).addrs addr
      |>.Sublist (root.children.addrs addr) := by
    unfold Forest.addrs
    rw [hentries]
    exact filter_sublist.map _
  exact h.nodup.sublist (hsub.cons_cons _)

@[simp] theorem updateAt_addr (a : Addr) (n : RadixNode) :
    (updateAt a clearDonor n).addr = n.addr := by
  unfold updateAt
  split_ifs <;> rfl

@[simp] theorem updateAt_parent (a : Addr) (n : RadixNode) :
    (updateAt a clearDonor n).parent = n.parent := by
  unfold updateAt
  split_ifs <;> rfl

theorem TrieInvariant.clear (h : TrieInvariant root) (hn : (tokens, n) ∈ root.children.entries) :
    let root' := { root with
      data := updateAt n.addr clearDonor root.data
      children := root.children.mapData (updateAt n.addr clearDonor) }
    TrieInvariant root' ∧ root'.data = root.data ∧
      root'.children.entries.filter (fun x => x.2.addr ≠ n.addr) =
        root.children.entries.filter (fun x => x.2.addr ≠ n.addr) ∧
      root'.children.entries.Perm
        ((tokens, clearDonor n) :: root.children.entries.filter (fun x => x.2.addr ≠ n.addr)) := by
  intro root'
  have hne : root.data.addr ≠ n.addr := by
    intro heq
    exact (nodup_cons.mp h.nodup).1 (heq ▸ mem_map.mpr ⟨_, hn, rfl⟩)
  have hdata : updateAt n.addr clearDonor root.data = root.data := if_neg hne
  have hkeep : root'.children.entries.filter (fun x => x.2.addr ≠ n.addr) =
      root.children.entries.filter (fun x => x.2.addr ≠ n.addr) := by
    simp only [root', entries_mapData, filter_map, Function.comp_def, updateAt_addr]
    refine (map_congr_left fun x hx => ?_).trans (map_id _)
    have hx' : x.2.addr ≠ n.addr := by simpa using (mem_filter.mp hx).2
    simp [updateAt, hx']
  have hnd : (addrs root').Nodup := by
    simpa [addrs, root', addrs_mapData (updateAt_addr n.addr)] using h.nodup
  have hmem : (tokens, clearDonor n) ∈ root'.children.entries := by
    rw [entries_mapData, mem_map]
    exact ⟨_, hn, by simp [updateAt]⟩
  refine ⟨⟨(wf_mapData _ _).mpr h.wf, ?_, hnd, h.root_edge, ?_, ?_⟩, hdata, hkeep, ?_⟩
  · rw [show root'.data.addr = root.data.addr by simp [root']]
    exact (linked_mapData (updateAt_addr _) (updateAt_parent _) _ _).mpr h.linked
  · exact (congrArg parent hdata).trans h.root_parent
  · exact (congrArg live hdata).trans h.root_donorless
  · rw [← hkeep]
    exact perm_cons_filter_addr (nodup_cons.mp hnd).2 hmem

structure Evicts (c : RadixPrefixCache) (tokens : List Token) (n : RadixNode)
    (c' : RadixPrefixCache) (events : List Event) : Prop where
  view : EvictView tokens n c.entries c'.entries
  inv : Invariant c'
  config : SameConfig c c'
  logged : ∃ calls, events = .evicted tokens :: calls ∧ ∀ e ∈ calls, e.isCall = true

variable {c : RadixPrefixCache}

/-- An eviction that leaves a well-formed trie and counts what it took away. -/
theorem Evicts.of_view {c' : RadixPrefixCache} {events : List Event} (h : Invariant c)
    (hview : EvictView tokens n c.entries c'.entries) (hinv : TrieInvariant c'.root)
    (hroot : c'.root.data = c.root.data) (hnext : c'.nextAddr = c.nextAddr)
    (hsize : c'.size = c'.entries.length)
    (hlive : c'.liveSequences = c.liveSequences - if n.live then 1 else 0)
    (hconfig : SameConfig c c')
    (hlogged : ∃ calls, events = .evicted tokens :: calls ∧ ∀ e ∈ calls, e.isCall = true) :
    Evicts c tokens n c' events := by
  have haddrs : ∀ x ∈ c'.entries, ∃ y ∈ c.entries, x.2.addr = y.2.addr := by
    intro x hx
    cases hview with
    | removed others hv hv' =>
      exact ⟨x, hv.mem_iff.mpr (mem_cons_of_mem _ (hv'.mem_iff.mp hx)), rfl⟩
    | cleared others hv hv' =>
      rcases mem_cons.mp (hv'.mem_iff.mp hx) with rfl | hx
      · exact ⟨_, hv.mem_iff.mpr mem_cons_self, rfl⟩
      · exact ⟨x, hv.mem_iff.mpr (mem_cons_of_mem _ hx), rfl⟩
  refine ⟨hview, ⟨hinv, fun a ha => ?_, hsize, ?_⟩, hconfig, hlogged⟩
  · rw [hnext]
    refine h.fresh a ?_
    simp only [addrs, Forest.addrs, mem_cons, mem_map] at ha ⊢
    rcases ha with rfl | ⟨x, hx, rfl⟩
    · exact Or.inl (congrArg addr hroot)
    · obtain ⟨y, hy, hxy⟩ := haddrs x hx
      exact Or.inr ⟨y, hy, hxy.symm⟩
  · rw [hlive, h.live_eq, ← hview.live_count, Nat.add_sub_cancel]

/-- `EvictOne` removes some leaf, as long as there is a node. -/
theorem evictOne_spec (h : Invariant c) (hne : c.entries ≠ []) (tie : Nat) :
    ∃ tokens n, Evicts c tokens n (evictOne tie c).1 (evictOne tie c).2 ∧
      (evictOne tie c).1.entries.length + 1 = c.entries.length := by
  unfold evictOne
  split
  · rename_i hnone
    have hempty := minElement_eq_none hnone
    have hchildren : c.root.children ≠ .nil := by
      intro hnil
      exact hne (by simp [RadixPrefixCache.entries, hnil])
    obtain ⟨⟨p, n⟩, hn, hleaf⟩ := exists_leaf hchildren
    obtain ⟨a, ha, -⟩ := h.trie.linked.parent_mem (mem_entries_iff.mpr ⟨n, hn, rfl⟩)
    have hmem : (p, n) ∈ collectNodes c.root
        (fun n => n.children.isEmpty && n.data.parent.isSome) :=
      mem_collectNodes.mpr ⟨by simpa [ha, Forest.isEmpty_iff] using hleaf, Or.inr hn⟩
    rw [hempty] at hmem
    simp at hmem
  · rename_i tokens victim hsome
    obtain ⟨hcrit, hroot | hv⟩ := mem_collectNodes.mp (minElement_mem hsome)
    · cases hroot
      simp [h.trie.root_parent] at hcrit
    · simp only [Bool.and_eq_true, Forest.isEmpty_iff] at hcrit
      obtain ⟨hinv, hdata, hentries⟩ := h.trie.eraseChild hv hcrit.1
      have hmem : (tokens, victim.data) ∈ c.entries :=
        Forest.mem_entries_iff.mpr ⟨victim, hv, rfl⟩
      have hperm := perm_cons_filter_addr h.trie.entry_nodup hmem
      have hlen : (PrefixCache.eraseChild c.root victim.data.parent victim.edge).children.entries.length
          + 1 = c.entries.length := by
        rw [hentries, hperm.length_eq, length_cons]
      refine ⟨tokens, victim.data, .of_view h (.removed _ hperm (List.Perm.of_eq hentries)) hinv hdata
        rfl ?_ ?_ ⟨rfl, rfl, rfl, rfl⟩ ⟨_, rfl, ?_⟩, hlen⟩
      · have := h.size_eq
        simp only [RadixPrefixCache.entries] at *
        omega
      · by_cases hs : victim.data.sequenceId ≥ 0 <;> simp [live, hs]
      · intro e he
        rcases mem_append.mp he with he | he
        · split_ifs at he
          · exact freeDonorEvents_isCall c _ e he
          · simp at he
        · exact releaseEvents_isCall c _ e he

/-- `EvictOneSequenceLocked` retires some live donor, as long as there is one. -/
theorem evictOneSequenceLocked_spec (h : Invariant c) (tie : Nat) :
    (c.entries.countP (fun x => x.2.live) = 0 ∧ evictOneSequenceLocked tie c = (none, c, [])) ∨
      ∃ tokens n, n.live = true ∧ (evictOneSequenceLocked tie c).1 = some n.sequenceId ∧
        Evicts c tokens n (evictOneSequenceLocked tie c).2.1 (evictOneSequenceLocked tie c).2.2 := by
  unfold evictOneSequenceLocked
  split
  · rename_i hnone
    refine Or.inl ⟨?_, rfl⟩
    have hempty := minElement_eq_none hnone
    rw [countP_eq_zero]
    rintro ⟨p, n⟩ hn hlive
    obtain ⟨m, hm, rfl⟩ := mem_entries_iff.mp hn
    have hmem : (p, m) ∈ collectNodes c.root (fun n => n.data.sequenceId ≥ 0) :=
      mem_collectNodes.mpr ⟨hlive, Or.inr hm⟩
    rw [hempty] at hmem
    simp at hmem
  · rename_i tokens victim hsome
    obtain ⟨hcrit, hroot | hv⟩ := mem_collectNodes.mp (minElement_mem hsome)
    · cases hroot
      exact absurd hcrit (by simpa [live] using h.trie.root_donorless)
    · have hmem : (tokens, victim.data) ∈ c.entries :=
        mem_entries_iff.mpr ⟨victim, hv, rfl⟩
      have hperm := perm_cons_filter_addr h.trie.entry_nodup hmem
      obtain ⟨hinv, hdata, hkeep, hclear⟩ := h.trie.clear hmem
      have hlive : victim.data.live = true := hcrit
      refine Or.inr ⟨tokens, victim.data, hlive, rfl, ?_⟩
      have hcalls : ∀ e ∈ freeDonorEvents c victim.data ++ releaseEvents c victim.data,
          e.isCall = true := by
        intro e he
        rcases mem_append.mp he with he | he
        · exact freeDonorEvents_isCall c _ e he
        · exact releaseEvents_isCall c _ e he
      have hlen := hperm.length_eq
      have hsize := h.size_eq
      rw [length_cons] at hlen
      dsimp only
      split_ifs with hprune
      · rw [Bool.and_eq_true, Forest.isEmpty_iff] at hprune
        have hv' : (tokens, (⟨victim.edge, updateAt victim.data.addr clearDonor victim.data,
            victim.children.mapData (updateAt victim.data.addr clearDonor)⟩ : Trie)) ∈
            (c.root.children.mapData (updateAt victim.data.addr clearDonor)).nodes := by
          rw [nodes_mapData, mem_map]
          exact ⟨_, hv, rfl⟩
        obtain ⟨hinv', hdata', hentries⟩ := hinv.eraseChild hv' (by simp [hprune.1, mapData])
        simp only [updateAt_parent, updateAt_addr] at hinv' hdata' hentries
        rw [hkeep] at hentries
        refine .of_view h (.removed _ hperm (List.Perm.of_eq hentries)) hinv' (hdata'.trans hdata) rfl
          ?_ (by simp [hlive]) ⟨rfl, rfl, rfl, rfl⟩ ⟨_, rfl, hcalls⟩
        simp only [RadixPrefixCache.entries, hentries] at *
        omega
      · refine .of_view h (.cleared _ hperm hclear) hinv hdata rfl ?_ (by simp [hlive])
          ⟨rfl, rfl, rfl, rfl⟩ ⟨_, rfl, hcalls⟩
        have := hclear.length_eq
        simp only [RadixPrefixCache.entries, length_cons] at *
        omega

end InferFlux.PrefixCache
