import InferFlux.PrefixCache.Invariant

/-!
# What one call does

`step_spec` describes every call on a cache that meets the invariant: the call returns,
the invariant holds again and the entries change as one of the constructors of
`StepView` says. The properties of whole runs are derived from this description alone.
-/

namespace InferFlux.PrefixCache

open CompressedTrie RadixNode List Forest

/-! ## Insertion -/

/-- The counters agree with a view, below a root at address `r`. -/
structure Counted (r : Addr) (v : View) (c : Counters) : Prop where
  nodup : (r :: v.map (fun x => x.2.addr)).Nodup
  fresh : ∀ a ∈ r :: v.map (fun x => x.2.addr), a < c.nextAddr
  size_eq : c.size = v.length
  live_eq : c.liveSequences = v.countP (fun x => x.2.live)

theorem addrs_eq_view (root : Trie) :
    addrs root = root.data.addr :: (view root.children).map (fun x => x.2.addr) := by
  simp [addrs, view, Forest.addrs, Function.comp_def]

@[simp] theorem strip_live (n : RadixNode) : n.strip.live = n.live := rfl

variable {c : RadixPrefixCache}

theorem invariant_iff :
    Invariant c ↔ c.root.children.WF ∧
      c.root.children.Linked addr parent c.root.data.addr ∧
      c.root.edge = [] ∧ c.root.data.parent = none ∧ c.root.data.live = false ∧
      Counted c.root.data.addr (view c.root.children) c.toCounters := by
  have hlen : (view c.root.children).length = c.entries.length := by simp [view]
  have hcount : (view c.root.children).countP (fun x => x.2.live) =
      c.entries.countP (fun x => x.2.live) := by
    simp [view, countP_map, Function.comp_def]
  constructor
  · rintro ⟨⟨hwf, hlinked, hnodup, hedge, hparent, hdonor⟩, hfresh, hsize, hlive⟩
    rw [addrs_eq_view] at hnodup hfresh
    exact ⟨hwf, hlinked, hedge, hparent, hdonor, hnodup, hfresh, hsize.trans hlen.symm,
      hlive.trans hcount.symm⟩
  · rintro ⟨hwf, hlinked, hedge, hparent, hdonor, hnodup, hfresh, hsize, hlive⟩
    rw [← addrs_eq_view] at hnodup hfresh
    exact ⟨⟨hwf, hlinked, hnodup, hedge, hparent, hdonor⟩, hfresh, hsize.trans hlen,
      hlive.trans hcount⟩

variable {r : Addr} {v : View}

theorem Counted.perm {w : View} {c : Counters} (h : Counted r v c) (hp : w.Perm v) :
    Counted r w c where
  nodup := ((hp.map _).cons r).nodup_iff.mpr h.nodup
  fresh a ha := h.fresh a (((hp.map _).cons r).mem_iff.mp ha)
  size_eq := h.size_eq.trans hp.length_eq.symm
  live_eq := h.live_eq.trans (hp.countP_eq _).symm

variable {n : RadixNode}

theorem Counted.cons {r : Addr} {v : View} {c c' : Counters} {p : List Token} (h : Counted r v c)
    (haddr : n.addr = c.nextAddr) (hnext : c'.nextAddr = c.nextAddr + 1)
    (hsize : c'.size = c.size + 1)
    (hlive : c'.liveSequences = c.liveSequences + if n.live then 1 else 0) :
    Counted r ((p, n) :: v) c' where
  nodup := by
    refine ((Perm.swap _ _ _).nodup_iff).mp (nodup_cons.mpr ⟨fun hmem => ?_, h.nodup⟩)
    exact absurd haddr (h.fresh _ hmem).ne
  fresh a ha := by
    rw [hnext]
    rcases mem_cons.mp (((Perm.swap _ _ _).mem_iff).mp ha) with rfl | ha
    · exact haddr ▸ Nat.lt_succ_self _
    · exact (h.fresh a ha).trans (Nat.lt_succ_self _)
  size_eq := by rw [hsize, h.size_eq, length_cons]
  live_eq := by rw [hlive, h.live_eq, countP_cons]

theorem Counted.split {c : Counters} (h : Counted r v c) (p : List Token) :
    Counted r ((p, c.husk) :: v) c.split :=
  h.cons rfl rfl rfl (by simp [Counters.split, Counters.husk, live])

theorem Counted.newLeaf {r : Addr} {v : View} {c : Counters} (h : Counted r v c)
    (tokens : List Token) (d : Donation) :
    Counted r ((tokens, (newLeaf 0 d c).1.strip) :: v) (newLeaf 0 d c).2 := by
  refine h.cons rfl rfl rfl ?_
  by_cases hs : d.sequenceId ≥ 0 <;>
    simp [PrefixCache.newLeaf, live, strip, hs]

/-- A re-donation moves the live count by the difference the two donors make. -/
theorem Counted.donate {r : Addr} {others : View} {c : Counters} {tokens : List Token}
    (h : Counted r ((tokens, n.strip) :: others) c) (d : Donation) :
    Counted r ((tokens, (donate n d c).1.strip) :: others) (donate n d c).2 where
  nodup := h.nodup
  fresh := h.fresh
  size_eq := h.size_eq
  live_eq := by
    have hlive := h.live_eq
    simp only [countP_cons, live, strip, PrefixCache.donate, decide_eq_true_eq] at hlive ⊢
    split_ifs at * <;> omega

variable {tokens : List Token}

theorem InsertView.counted {d : Donation} {v' : View} {c c' : Counters} {exit : InsertExit}
    (h : InsertView d tokens v c v' c' exit) (hc : Counted r v c) : Counted r v' c' := by
  cases h with
  | leaf hv => exact (hc.newLeaf tokens d).perm hv
  | splitLeaf p hv => exact ((hc.split p).newLeaf tokens d).perm hv
  | splitNode old ho hv => exact ((hc.split tokens).donate d).perm hv
  | node old others hv hv' => exact ((hc.perm hv.symm).donate d).perm hv'

def insertWalk (c : RadixPrefixCache) (first : Token) (more : List Token) (d : Donation) :
    RadixPrefixCache :=
  { c with
    toCounters := (insertLoop d c.root.data.addr c.root.children first more c.toCounters).2.1
    root := { c.root with
      children := (insertLoop d c.root.data.addr c.root.children first more c.toCounters).1 } }

def insertExit (c : RadixPrefixCache) (first : Token) (more : List Token) (d : Donation) :
    InsertExit :=
  (insertLoop d c.root.data.addr c.root.children first more c.toCounters).2.2

theorem insertWalk_view (c : RadixPrefixCache) (first : Token) (more : List Token)
    (d : Donation) :
    InsertView d (first :: more) (view c.root.children) c.toCounters
      (view (insertWalk c first more d).root.children) (insertWalk c first more d).toCounters
      (insertExit c first more d) :=
  insertLoop_view d c.root.data.addr c.root.children first more c.toCounters

theorem Invariant.insertWalk {c : RadixPrefixCache} (h : Invariant c) (first : Token)
    (more : List Token) (d : Donation) : Invariant (insertWalk c first more d) := by
  obtain ⟨hwf, hlinked, hedge, hparent, hdonor, hcounted⟩ := invariant_iff.mp h
  obtain ⟨hwf, hlinked⟩ := insertLoop_linked d _ ⟨hwf, hlinked⟩ first more c.toCounters
  exact invariant_iff.mpr ⟨hwf, hlinked, hedge, hparent, hdonor,
    (insertWalk_view c first more d).counted hcounted⟩

/-! ## The eviction loops -/

inductive Evictions : RadixPrefixCache → RadixPrefixCache → List Event → Prop where
  | refl (c : RadixPrefixCache) : Evictions c c []
  | step {c c' c'' : RadixPrefixCache} {tokens : List Token} {n : RadixNode}
      {events more : List Event} :
      Evicts c tokens n c' events → Evictions c' c'' more → Evictions c c'' (events ++ more)

variable {c' : RadixPrefixCache} {e : List Event}

theorem Evictions.trans {c'' : RadixPrefixCache} {e' : List Event} (h : Evictions c c' e)
    (h' : Evictions c' c'' e') : Evictions c c'' (e ++ e') := by
  induction h with
  | refl c => exact h'
  | step hs _ ih =>
    rw [append_assoc]
    exact .step hs (ih h')

theorem Evictions.inv (h : Evictions c c' e) (hc : Invariant c) : Invariant c' := by
  induction h with
  | refl c => exact hc
  | step hs _ ih => exact ih hs.inv

theorem Evictions.config (h : Evictions c c' e) : SameConfig c c' := by
  induction h with
  | refl c => exact ⟨rfl, rfl, rfl, rfl⟩
  | step hs _ ih =>
    obtain ⟨h₁, h₂, h₃, h₄⟩ := hs.config
    obtain ⟨g₁, g₂, g₃, g₄⟩ := ih
    exact ⟨g₁.trans h₁, g₂.trans h₂, g₃.trans h₃, g₄.trans h₄⟩

theorem Evicts.live_le (h : Evicts c tokens n c' e) (hc : Invariant c) :
    c'.liveSequences ≤ c.liveSequences := by
  rw [h.inv.live_eq, hc.live_eq, ← h.view.live_count]
  exact Nat.le_add_right _ _

theorem Evictions.live_le (h : Evictions c c' e) (hc : Invariant c) :
    c'.liveSequences ≤ c.liveSequences := by
  induction h with
  | refl c => exact le_refl _
  | step hs _ ih => exact (ih hs.inv).trans (hs.live_le hc)

/-- An eviction loop ends when each of its rounds is an eviction that lowers a measure. -/
theorem evictWhile_spec (guard : RadixPrefixCache → Bool)
    (body : Nat → RadixPrefixCache → RadixPrefixCache × List Event) (μ : RadixPrefixCache → Nat)
    (hbody : ∀ tie c, Invariant c → guard c = true →
      ∃ tokens n, Evicts c tokens n (body tie c).1 (body tie c).2 ∧ μ (body tie c).1 < μ c)
    (fuel : Nat) (ties : Nat → Nat) (c : RadixPrefixCache) (hc : Invariant c)
    (hfuel : μ c ≤ fuel) :
    ∃ c' e, evictWhile guard body fuel ties c = some (c', e) ∧ Evictions c c' e ∧
      guard c' = false := by
  induction fuel generalizing c ties with
  | zero =>
    by_cases hg : guard c = true
    · obtain ⟨-, -, -, hlt⟩ := hbody 0 c hc hg
      omega
    · exact ⟨c, [], by simp [evictWhile, hg], .refl c, by simpa using hg⟩
  | succ fuel ih =>
    by_cases hg : guard c = true
    · obtain ⟨tokens, n, hev, hlt⟩ := hbody (ties 0) c hc hg
      obtain ⟨c', e, he, hevs, hg'⟩ := ih (fun i => ties (i + 1)) _ hev.inv (by omega)
      exact ⟨c', _, by simp [evictWhile, hg, he], .step hev hevs, hg'⟩
    · exact ⟨c, [], by simp [evictWhile, hg], .refl c, by simpa using hg⟩

/-- The first loop behind a new leaf retires donors until the sequence limit is met. -/
theorem evictSequences_spec (hc : Invariant c) (ties : Nat → Nat) :
    ∃ c' e, evictWhile (fun c => c.liveSequences > c.maxSequences)
        (fun tie c => (evictOneSequenceLocked tie c).2) c.entries.length ties c = some (c', e) ∧
      Evictions c c' e ∧ c'.liveSequences ≤ c'.maxSequences := by
  have hbody : ∀ tie c, Invariant c → decide (c.liveSequences > c.maxSequences) = true →
      ∃ tokens n, Evicts c tokens n (evictOneSequenceLocked tie c).2.1
        (evictOneSequenceLocked tie c).2.2 ∧
        (evictOneSequenceLocked tie c).2.1.liveSequences < c.liveSequences := by
    intro tie c hc hg
    have hg := of_decide_eq_true hg
    rcases evictOneSequenceLocked_spec hc tie with ⟨hzero, -⟩ | ⟨tokens, n, hlive, -, hev⟩
    · rw [← hc.live_eq] at hzero
      omega
    · have hcount := hev.view.live_count
      rw [← hc.live_eq, ← hev.inv.live_eq, if_pos hlive] at hcount
      exact ⟨tokens, n, hev, by omega⟩
  obtain ⟨c', e, he, hev, hg⟩ := evictWhile_spec _ _ (fun c => c.liveSequences) hbody _ ties c hc
    (hc.live_eq ▸ countP_le_length)
  exact ⟨c', e, he, hev, by simpa using hg⟩

/-- The second loop removes leaves until the node limit is met. -/
theorem evictLeaves_spec (hc : Invariant c) (ties : Nat → Nat) :
    ∃ c' e, evictWhile (fun c => c.size > c.capacity) evictOne c.entries.length ties c =
        some (c', e) ∧ Evictions c c' e ∧ c'.size ≤ c'.capacity := by
  have hbody : ∀ tie c, Invariant c → decide (c.size > c.capacity) = true →
      ∃ tokens n, Evicts c tokens n (evictOne tie c).1 (evictOne tie c).2 ∧
        (evictOne tie c).1.entries.length < c.entries.length := by
    intro tie c hc hg
    have hg := of_decide_eq_true hg
    have hne : c.entries ≠ [] := by
      intro hnil
      have hsize := hc.size_eq
      rw [hnil, length_nil] at hsize
      omega
    obtain ⟨tokens, n, hev, hlen⟩ := evictOne_spec hc hne tie
    exact ⟨tokens, n, hev, by omega⟩
  obtain ⟨c', e, he, hev, hg⟩ := evictWhile_spec _ _ (fun c => c.entries.length) hbody _ ties c hc
    (le_refl _)
  exact ⟨c', e, he, hev, by simpa using hg⟩

/-- The loops behind a new leaf end, by evictions alone, with both limits met. -/
theorem enforceLimits_spec (hc : Invariant c) (ties : Nat → Nat) :
    ∃ c' e, enforceLimits ties c = some (c', e) ∧ Evictions c c' e ∧
      c'.liveSequences ≤ c'.maxSequences ∧ c'.size ≤ c'.capacity := by
  obtain ⟨c₁, e₁, h₁, hev₁, hlive₁⟩ := evictSequences_spec hc (fun i => ties (2 * i))
  have hc₁ := hev₁.inv hc
  obtain ⟨c₂, e₂, h₂, hev₂, hsize₂⟩ := evictLeaves_spec hc₁ (fun i => ties (2 * i + 1))
  refine ⟨c₂, e₁ ++ e₂, ?_, hev₁.trans hev₂, ?_, hsize₂⟩
  · simp [enforceLimits, h₁, h₂]
  · have hlive := hev₂.live_le hc₁
    rw [hev₂.config.2.1]
    omega

/-- Nothing but `last_used` stamps and the clock changed. -/
structure Touched (c c' : RadixPrefixCache) : Prop where
  children : c'.root.children.mapData RadixNode.unstamped =
    c.root.children.mapData RadixNode.unstamped
  root_edge : c'.root.edge = c.root.edge
  root_data : c'.root.data = c.root.data
  next_eq : c'.nextAddr = c.nextAddr
  size_eq : c'.size = c.size
  live_eq : c'.liveSequences = c.liveSequences
  config : SameConfig c c'

/-- What a call can do: refresh stamps, refuse, donate (and evict behind a new leaf),
or evict. -/
inductive StepView (c : RadixPrefixCache) : Op → RadixPrefixCache → List Event → Prop where
  | touched (tokens : List Token) (backend : Backend) {c' : RadixPrefixCache} :
      Touched c c' → StepView c (.lookup tokens backend) c' []
  | refused (tokens : List Token) (blockTable : List Int) (sequenceId : Int) (backend : Backend)
      (ties : Nat → Nat) : c.capacity = 0 ∨ tokens = [] ∨ blockTable = [] →
      StepView c (.insert tokens blockTable sequenceId backend ties) c []
  | grown (first : Token) (more : List Token) (d : Donation) (ties : Nat → Nat)
      {c' : RadixPrefixCache} {events : List Event} :
      c.capacity ≠ 0 → d.blockTable ≠ [] → insertExit c first more d = .leaf →
      Evictions (insertWalk c first more d) c' events → c'.liveSequences ≤ c'.maxSequences →
      c'.size ≤ c'.capacity →
      StepView c (.insert (first :: more) d.blockTable d.sequenceId d.backend ties) c'
        (.donated (first :: more) d :: events)
  | redonated (first : Token) (more : List Token) (d : Donation) (ties : Nat → Nat)
      (old : RadixNode) : c.capacity ≠ 0 → d.blockTable ≠ [] →
      insertExit c first more d = .node old →
      StepView c (.insert (first :: more) d.blockTable d.sequenceId d.backend ties)
        (insertWalk c first more d)
        (.donated (first :: more) d :: redonationEvents c old d.sequenceId)
  | evicted (tie : Nat) {c' : RadixPrefixCache} {events : List Event} : Evictions c c' events →
      StepView c (.evictOneSequence tie) c' events

theorem lookup_spec (c : RadixPrefixCache) (tokens : List Token) (backend : Backend) :
    StepView c (.lookup tokens backend) (c.lookup tokens backend).2.2 [] := by
  have h := lookupLoop_unstamped backend c.root.children tokens c.clock
    { node := c.root.data.addr }
  unfold RadixPrefixCache.lookup
  split_ifs
  · exact .touched tokens backend ⟨rfl, rfl, rfl, rfl, rfl, rfl, ⟨rfl, rfl, rfl, rfl⟩⟩
  · dsimp only
    split_ifs <;>
      exact .touched tokens backend ⟨h, rfl, rfl, rfl, rfl, rfl, ⟨rfl, rfl, rfl, rfl⟩⟩

theorem insert_spec (hc : Invariant c) (tokens : List Token) (blockTable : List Int)
    (sequenceId : Int) (backend : Backend) (ties : Nat → Nat) :
    ∃ ok c' e, c.insert tokens blockTable sequenceId backend ties = some (ok, c', e) ∧
      StepView c (.insert tokens blockTable sequenceId backend ties) c' e := by
  cases tokens with
  | nil => exact ⟨false, c, [], rfl, .refused _ _ _ _ _ (Or.inr (Or.inl rfl))⟩
  | cons first more =>
    by_cases hrefuse : c.capacity = 0 ∨ blockTable = []
    · refine ⟨false, c, [], by simp [RadixPrefixCache.insert, hrefuse], .refused _ _ _ _ _ ?_⟩
      exact hrefuse.imp_right Or.inr
    · have hcap : c.capacity ≠ 0 := fun h => hrefuse (Or.inl h)
      have hblocks : blockTable ≠ [] := fun h => hrefuse (Or.inr h)
      cases hexit : (insertLoop ⟨blockTable, sequenceId, backend⟩ c.root.data.addr
        c.root.children first more c.toCounters).2.2 with
      | leaf =>
        obtain ⟨c', e, he, hev, hlive, hsize⟩ := enforceLimits_spec
          (hc.insertWalk first more ⟨blockTable, sequenceId, backend⟩) ties
        unfold insertWalk at he
        exact ⟨true, c', _, by simp [RadixPrefixCache.insert, hrefuse, hexit, he],
          .grown first more ⟨blockTable, sequenceId, backend⟩ ties hcap hblocks hexit hev hlive
            hsize⟩
      | node old =>
        exact ⟨true, _, _, by simp only [RadixPrefixCache.insert, hrefuse, hexit]; rfl,
          .redonated first more ⟨blockTable, sequenceId, backend⟩ ties old hcap hblocks hexit⟩

theorem step_spec (hc : Invariant c) (op : Op) :
    ∃ c' e, step c op = some (c', e) ∧ StepView c op c' e := by
  cases op with
  | lookup tokens backend => exact ⟨_, [], rfl, lookup_spec c tokens backend⟩
  | insert tokens blockTable sequenceId backend ties =>
    obtain ⟨ok, c', e, he, hview⟩ := insert_spec hc tokens blockTable sequenceId backend ties
    exact ⟨c', e, by simp [step, he], hview⟩
  | evictOneSequence tie =>
    refine ⟨_, _, rfl, .evicted tie ?_⟩
    rcases evictOneSequenceLocked_spec hc tie with ⟨-, heq⟩ | ⟨tokens, n, -, -, hev⟩
    · rw [heq]
      exact .refl c
    · simpa using Evictions.step hev (.refl _)

theorem Touched.entries_eq (h : Touched c c') :
    c'.entries.map (fun x => (x.1, x.2.unstamped)) =
      c.entries.map (fun x => (x.1, x.2.unstamped)) := by
  rw [← entries_mapData, ← entries_mapData, h.children]

theorem Touched.inv (h : Touched c c') (hc : Invariant c) : Invariant c' := by
  have hforget (f : Children) : (f.mapData unstamped).addrs addr =
      f.addrs addr := addrs_mapData unstamped_addr f
  have haddrs : addrs c'.root = addrs c.root := by
    unfold addrs
    rw [h.root_data, ← hforget, h.children, hforget]
  have hlen := congrArg length h.entries_eq
  have hcount := congrArg (countP fun x => x.2.live) h.entries_eq
  simp only [length_map] at hlen
  simp only [countP_map, Function.comp_def, unstamped, live] at hcount
  refine ⟨⟨?_, ?_, haddrs ▸ hc.trie.nodup, h.root_edge.trans hc.trie.root_edge,
    h.root_data ▸ hc.trie.root_parent, h.root_data ▸ hc.trie.root_donorless⟩, ?_, ?_, ?_⟩
  · rw [← wf_mapData unstamped, h.children, wf_mapData]
    exact hc.trie.wf
  · have hlinked := linked_mapData (κ := Token) unstamped_addr unstamped_parent
      c.root.data.addr
    rw [h.root_data, ← hlinked, h.children, hlinked]
    exact hc.trie.linked
  · rw [haddrs, h.next_eq]
    exact hc.fresh
  · rw [h.size_eq, hc.size_eq, hlen]
  · rw [h.live_eq, hc.live_eq]
    exact hcount.symm

variable {op : Op}

theorem StepView.inv (h : StepView c op c' e) (hc : Invariant c) : Invariant c' := by
  cases h with
  | touched _ _ ht => exact ht.inv hc
  | refused => exact hc
  | grown first more d _ _ _ _ hev => exact hev.inv (hc.insertWalk first more d)
  | redonated first more d => exact hc.insertWalk first more d
  | evicted _ hev => exact hev.inv hc

theorem StepView.config (h : StepView c op c' e) : SameConfig c c' := by
  cases h with
  | touched _ _ ht => exact ht.config
  | refused | redonated first more d => exact ⟨rfl, rfl, rfl, rfl⟩
  | grown first more d _ _ _ _ hev => exact hev.config
  | evicted _ hev => exact hev.config

theorem step_view (hc : Invariant c) (h : step c op = some (c', e)) : StepView c op c' e := by
  obtain ⟨_, _, heq, hview⟩ := step_spec hc op
  cases heq.symm.trans h
  exact hview

/-- The invariant rule for runs: a property of the calls made so far, the cache and the
log that every call keeps. -/
theorem run_induction {c₀ : RadixPrefixCache} (h₀ : Invariant c₀)
    {P : List Op → RadixPrefixCache → List Event → Prop} (nil : P [] c₀ [])
    (concat : ∀ ops c log op c' e, run c₀ ops = some (c, log) → Invariant c → P ops c log →
      StepView c op c' e → P (ops ++ [op]) c' (log ++ e)) {ops : List Op} {log : List Event}
    (h : run c₀ ops = some (c, log)) : Invariant c ∧ P ops c log := by
  refine LoggedRun.run_induction (P := fun ops c log => Invariant c ∧ P ops c log) ⟨h₀, nil⟩ ?_ h
  rintro ops c log op c' e hrun ⟨hc, hp⟩ hstep
  have hview := step_view hc hstep
  exact ⟨hview.inv hc, concat ops c log op c' e hrun hc hp hview⟩

theorem run_of_invariant (hc : Invariant c) (ops : List Op) :
    ∃ c' log, run c ops = some (c', log) ∧ Invariant c' := by
  induction ops generalizing c with
  | nil => exact ⟨c, [], rfl, hc⟩
  | cons op ops ih =>
    obtain ⟨c₁, e, hstep, hview⟩ := step_spec hc op
    obtain ⟨c', log, hrun, hc'⟩ := ih (hview.inv hc)
    exact ⟨c', e ++ log, LoggedRun.run_cons_eq_some.2 ⟨c₁, e, log, hstep, hrun, rfl⟩, hc'⟩

/-- Every sequence of calls goes through, so no eviction loop of `Insert` spins; after it
the edges, keys and back pointers are in order and both counters are exact. -/
theorem trie_and_counters_exact (kvCache onEvictSeq : Bool) (limits : RadixPrefixCacheLimits)
    (ops : List Op) :
    ∃ c log, run (.new kvCache onEvictSeq limits) ops = some (c, log) ∧ c.root.children.WF ∧
      c.root.children.Linked addr parent c.root.data.addr ∧ c.size = c.entries.length ∧
      c.liveSequences = (c.root.data :: c.entries.map Prod.snd).countP live := by
  obtain ⟨c, log, hrun, hc⟩ := run_of_invariant (.new kvCache onEvictSeq limits) ops
  refine ⟨c, log, hrun, hc.trie.wf, hc.trie.linked, hc.size_eq, ?_⟩
  rw [List.countP_cons_of_neg (by simp [hc.trie.root_donorless]), List.countP_map]
  exact hc.live_eq

end InferFlux.PrefixCache
