import InferFlux.PrefixCache.Steps

/-!
# The configured limits

Only the exit of `Insert` that makes a new leaf runs the eviction loops. An insertion
that ends on a node of the trie or inside an edge adds a donor, and possibly the node of
a split, without them. `limits_iff_hasRoom` says what this amounts to over whole runs:
the limits hold after every `Insert` exactly when each such insertion finds room for
what it adds.
-/

namespace InferFlux.PrefixCache

open CompressedTrie LoggedRun Prod List

def WithinLimits (c : RadixPrefixCache) : Prop :=
  c.size ≤ c.capacity ∧ c.liveSequences ≤ c.maxSequences

/-- An accepted insertion whose tokens end inside the trie finds room for the node it
splits off, if there is none at the tokens yet, and for the donor it adds. -/
def HasRoom (c : RadixPrefixCache) : Op → Prop
  | .insert tokens blockTable sequenceId _ _ =>
    tokens ≠ [] → blockTable ≠ [] → (∃ p n, (p, n) ∈ c.entries ∧ tokens <+: p) →
      ((∀ n, (tokens, n) ∉ c.entries) → c.size < c.capacity) ∧
      (0 ≤ sequenceId → (∀ n, (tokens, n) ∈ c.entries → n.live = false) →
        c.liveSequences < c.maxSequences)
  | _ => True

variable {c : RadixPrefixCache}

theorem insertExit_eq_leaf (hc : Invariant c) (first : Token) (more : List Token) (d : Donation) :
    insertExit c first more d = .leaf ↔ ∀ p n, (p, n) ∈ c.entries → ¬ first :: more <+: p :=
  insertLoop_exit d _ hc.trie.wf first more _

variable {d : Donation} {old : RadixNode} {tokens : List Token} {v v' : View}

/-- What an insertion that ends inside the trie adds to the two counters: a split point
adds a node and its donor, an existing node only trades its donor. -/
theorem InsertView.node_counters {c c' : Counters} {r : Addr}
    (h : InsertView d tokens v c v' c' (.node old)) (hc : Counted r v c)
    (hv : (v.map fst).Nodup) (hv' : (v'.map fst).Nodup) :
    (tokens ∉ v.map fst ∧ c'.size = c.size + 1 ∧
      c'.liveSequences = c.liveSequences + if 0 ≤ d.sequenceId then 1 else 0) ∨
    (∃ n, (tokens, n) ∈ v ∧ (∀ m, (tokens, m) ∈ v → m = n) ∧ c'.size = c.size ∧
      c'.liveSequences + (if n.live then 1 else 0) =
        c.liveSequences + if 0 ≤ d.sequenceId then 1 else 0) := by
  have hc' := h.counted hc
  have hdonor (n : RadixNode) (k : Counters) :
      ((donate n d k).1.strip.live = true) = (0 ≤ d.sequenceId) := decide_eq_true_eq
  cases h with
  | splitNode _ ho hp =>
    have hfresh := (nodup_cons.mp ((hp.map fst).nodup_iff.mp hv')).1
    refine Or.inl ⟨hfresh, ?_, ?_⟩
    · rw [hc'.size_eq, hc.size_eq, hp.length_eq, length_cons]
    · rw [hc'.live_eq, hc.live_eq, hp.countP_eq, countP_cons]
      simp [← hdonor c.husk c.split, strip_live]
  | node _ others hp hp' =>
    have hfresh := (nodup_cons.mp ((hp.map fst).nodup_iff.mp hv)).1
    refine Or.inr ⟨old.strip, hp.mem_iff.mpr mem_cons_self, fun m hm => ?_, ?_, ?_⟩
    · rcases mem_cons.mp (hp.mem_iff.mp hm) with heq | hm
      · exact (mk.inj heq).2
      · exact absurd (mem_map_of_mem hm) hfresh
    · rw [hc'.size_eq, hc.size_eq, hp.length_eq, hp'.length_eq, length_cons, length_cons]
    · rw [hc'.live_eq, hc.live_eq, hp.countP_eq, hp'.countP_eq, countP_cons, countP_cons]
      simp only [hdonor old c]
      omega

variable {n : RadixNode}

theorem mem_view {f : Children} {p : List Token} :
    (p, n) ∈ view f ↔ ∃ m, (p, m) ∈ f.entries ∧ m.strip = n := by
  simp [view]

theorem paths_view (f : Children) : (view f).map fst = f.entries.map fst := by
  simp [view, Function.comp_def]

variable {more : List Token}

theorem insertWalk_counters (hc : Invariant c) {first : Token}
    (hexit : insertExit c first more d = .node old) :
    ((∀ n, (first :: more, n) ∉ c.entries) ∧ (insertWalk c first more d).size = c.size + 1 ∧
      (insertWalk c first more d).liveSequences =
        c.liveSequences + if 0 ≤ d.sequenceId then 1 else 0) ∨
    (∃ n, (first :: more, n) ∈ c.entries ∧
      (∀ m, (first :: more, m) ∈ c.entries → m.live = n.live) ∧
      (insertWalk c first more d).size = c.size ∧
      (insertWalk c first more d).liveSequences + (if n.live then 1 else 0) =
        c.liveSequences + if 0 ≤ d.sequenceId then 1 else 0) := by
  have hview := insertWalk_view c first more d
  rw [hexit] at hview
  rcases hview.node_counters (invariant_iff.mp hc).2.2.2.2.2
    (paths_view _ ▸ Forest.nodup_paths hc.trie.wf)
    (paths_view _ ▸ Forest.nodup_paths (hc.insertWalk first more d).trie.wf) with
    ⟨hnot, hcounters⟩ | ⟨n, hn, huniq, hcounters⟩
  · refine Or.inl ⟨fun n hn => ?_, hcounters⟩
    rw [paths_view] at hnot
    exact hnot (mem_map_of_mem hn)
  · obtain ⟨m, hm, rfl⟩ := mem_view.mp hn
    refine Or.inr ⟨m, hm, fun m' hm' => ?_, hcounters⟩
    have hlive := congrArg RadixNode.live (huniq m'.strip (mem_view.mpr ⟨m', hm', rfl⟩))
    simpa using hlive

/-- An insertion that ends inside the trie keeps the limits exactly when it has room. -/
theorem insertWalk_withinLimits (hc : Invariant c) (hw : WithinLimits c) {first : Token}
    (hexit : insertExit c first more d = .node old) :
    WithinLimits (insertWalk c first more d) ↔
      ((∀ n, (first :: more, n) ∉ c.entries) → c.size < c.capacity) ∧
      (0 ≤ d.sequenceId → (∀ n, (first :: more, n) ∈ c.entries → n.live = false) →
        c.liveSequences < c.maxSequences) := by
  obtain ⟨hsize, hlive⟩ := hw
  have hlimits : WithinLimits (insertWalk c first more d) ↔
      (insertWalk c first more d).size ≤ c.capacity ∧
      (insertWalk c first more d).liveSequences ≤ c.maxSequences := Iff.rfl
  rw [hlimits]
  rcases insertWalk_counters hc hexit with ⟨hnone, hs, hl⟩ | ⟨n, hn, huniq, hs, hl⟩
  · have hdead : ∀ n, (first :: more, n) ∈ c.entries → n.live = false :=
      fun n hn => absurd hn (hnone n)
    rw [hs, hl]
    constructor
    · rintro ⟨hs', hl'⟩
      refine ⟨fun _ => by omega, fun hseq _ => ?_⟩
      rw [if_pos hseq] at hl'
      omega
    · rintro ⟨hs', hl'⟩
      refine ⟨hs' hnone, ?_⟩
      split_ifs with hseq
      · exact hl' hseq hdead
      · exact hlive
  · have hdead : (∀ m, (first :: more, m) ∈ c.entries → m.live = false) ↔ n.live = false :=
      ⟨fun h => h n hn, fun h m hm => (huniq m hm).trans h⟩
    rw [hs, hdead]
    constructor
    · rintro ⟨-, hl'⟩
      refine ⟨fun hnone => absurd hn (hnone n), fun hseq hn => ?_⟩
      rw [if_pos hseq, hn] at hl
      simp only [Bool.false_eq_true, if_false] at hl
      omega
    · rintro ⟨-, hl'⟩
      refine ⟨hsize, ?_⟩
      cases hn : n.live <;> simp only [hn, Bool.false_eq_true, if_false, if_true] at hl
      · split_ifs at hl with hseq
        · have := hl' hseq hn
          omega
        · omega
      · split_ifs at hl <;> omega

theorem EvictView.length_le (h : EvictView tokens n v v') : v'.length ≤ v.length := by
  cases h with
  | removed others hv hv' | cleared others hv hv' => simp [hv.length_eq, hv'.length_eq]

variable {c' : RadixPrefixCache} {e : List Event}

theorem Evictions.size_le (h : Evictions c c' e) (hc : Invariant c) : c'.size ≤ c.size := by
  induction h with
  | refl c => exact le_refl _
  | step hs _ ih =>
    refine (ih hs.inv).trans ?_
    rw [hs.inv.size_eq, hc.size_eq]
    exact hs.view.length_le

variable {op : Op}

/-- Of the calls only an insertion without room breaks the limits. -/
theorem StepView.withinLimits_iff (h : StepView c op c' e) (hc : Invariant c)
    (hcap : 1 ≤ c.capacity) (hw : WithinLimits c) : WithinLimits c' ↔ HasRoom c op := by
  cases h with
  | touched _ _ ht =>
    refine iff_of_true ?_ trivial
    rw [WithinLimits, ht.size_eq, ht.live_eq, ht.config.1, ht.config.2.1]
    exact hw
  | refused tokens blockTable _ _ _ hrefuse =>
    refine iff_of_true hw fun htokens hblocks => ?_
    rcases hrefuse with hzero | hnil | hnil
    · omega
    · exact absurd hnil htokens
    · exact absurd hnil hblocks
  | grown first more d ties _ _ hexit hev hlive hsize =>
    refine iff_of_true ⟨hsize, hlive⟩ fun _ _ ⟨p, n, hn, hp⟩ => ?_
    exact absurd hp ((insertExit_eq_leaf hc first more d).mp hexit p n hn)
  | redonated first more d ties old _ hblocks hexit =>
    rw [insertWalk_withinLimits hc hw hexit]
    refine ⟨fun h _ _ _ => h, fun h => h (by simp) hblocks ?_⟩
    by_contra hnone
    have hleaf := (insertExit_eq_leaf hc first more d).mpr fun p n hn hp => hnone ⟨p, n, hn, hp⟩
    rw [hexit] at hleaf
    exact InsertExit.noConfusion hleaf
  | evicted _ hev =>
    refine iff_of_true ⟨?_, ?_⟩ trivial
    · rw [hev.config.1]
      exact (hev.size_le hc).trans hw.1
    · rw [hev.config.2.1]
      exact (hev.live_le hc).trans hw.2

structure Limited (limits : RadixPrefixCacheLimits) (c : RadixPrefixCache) : Prop where
  inv : Invariant c
  within : WithinLimits c
  capacity_eq : c.capacity = limits.capacity
  maxSequences_eq : c.maxSequences = limits.maxSequences

theorem Limited.new (kvCache onEvictSeq : Bool) (limits : RadixPrefixCacheLimits) :
    Limited limits (.new kvCache onEvictSeq limits) :=
  ⟨.new kvCache onEvictSeq limits, ⟨Nat.zero_le _, Nat.zero_le _⟩, rfl, rfl⟩

variable {limits : RadixPrefixCacheLimits}

theorem Limited.step (hcap : 1 ≤ limits.capacity) (h : Limited limits c)
    (hstep : step c op = some (c', e)) : Limited limits c' ↔ HasRoom c op := by
  have hview := step_view h.inv hstep
  rw [← hview.withinLimits_iff h.inv (h.capacity_eq ▸ hcap) h.within]
  refine ⟨Limited.within, fun hw => ⟨hview.inv h.inv, hw, ?_, ?_⟩⟩
  · exact hview.config.1.trans h.capacity_eq
  · exact hview.config.2.1.trans h.maxSequences_eq

theorem Limited.run (hcap : 1 ≤ limits.capacity) {ops : List Op} {log : List Event}
    (h : Limited limits c) (hroom : Along PrefixCache.step HasRoom c ops)
    (hrun : PrefixCache.run c ops = some (c', log)) : Limited limits c' :=
  hroom.invariant (fun _ _ _ _ hc hpre hstep => (hc.step hcap hstep).mpr hpre) h hrun

/-- The limits hold after every `Insert` of a run exactly when every insertion that ends
inside the trie has room. -/
theorem limits_iff_hasRoom (kvCache onEvictSeq : Bool) (limits : RadixPrefixCacheLimits)
    (hcap : 1 ≤ limits.capacity) (ops : List Op) :
    (∀ ops₁ tokens blockTable sequenceId backend ties ops₂ c log,
      ops = ops₁ ++ .insert tokens blockTable sequenceId backend ties :: ops₂ →
      run (.new kvCache onEvictSeq limits)
        (ops₁ ++ [.insert tokens blockTable sequenceId backend ties]) = some (c, log) →
      c.size ≤ limits.capacity ∧ c.liveSequences ≤ limits.maxSequences) ↔
    Along step HasRoom (.new kvCache onEvictSeq limits) ops := by
  have hnew := Limited.new kvCache onEvictSeq limits
  constructor
  · intro h
    induction ops using List.reverseRecOn with
    | nil => trivial
    | append_singleton ops op ih =>
      have hops := ih fun ops₁ tokens blockTable sequenceId backend ties ops₂ c log heq =>
        h ops₁ tokens blockTable sequenceId backend ties (ops₂ ++ [op]) c log (by simp [heq])
      refine along_append.mpr ⟨hops, fun c log hrun => ⟨?_, fun _ _ _ => trivial⟩⟩
      have hc := hnew.run hcap hops hrun
      cases op with
      | insert tokens blockTable sequenceId backend ties =>
        obtain ⟨c', e, hstep, hview⟩ :=
          step_spec hc.inv (.insert tokens blockTable sequenceId backend ties)
        have hw := h ops tokens blockTable sequenceId backend ties [] c' (log ++ e) rfl
          (run_append_eq_some.mpr ⟨c, log, e, hrun, run_singleton.trans hstep, rfl⟩)
        rw [← hc.step hcap hstep]
        refine ⟨hview.inv hc.inv, ?_, hview.config.1.trans hc.capacity_eq,
          hview.config.2.1.trans hc.maxSequences_eq⟩
        rwa [WithinLimits, hview.config.1, hview.config.2.1, hc.capacity_eq, hc.maxSequences_eq]
      | _ => trivial
  · rintro h ops₁ tokens blockTable sequenceId backend ties ops₂ c log rfl hrun
    rw [List.append_cons] at h
    have hc := hnew.run hcap (along_append.mp h).1 hrun
    rw [← hc.capacity_eq, ← hc.maxSequences_eq]
    exact hc.within

/-- With room left, `[1]` splits the edge of `[1, 2]` within the limits. -/
theorem split_with_room_keeps_limits :
    ∃ c log, run (.new true true ⟨4, 4⟩) [.insert [1, 2] [7] 0 (some 0) (fun _ => 0),
        .insert [1] [8] 1 (some 0) (fun _ => 0)] = some (c, log) ∧
      c.size ≤ 4 ∧ c.liveSequences ≤ 4 := by
  refine ⟨_, _, rfl, (limits_iff_hasRoom true true ⟨4, 4⟩ (by decide)
    [.insert [1, 2] [7] 0 (some 0) (fun _ => 0), .insert [1] [8] 1 (some 0) (fun _ => 0)]).mpr ?_
    [.insert [1, 2] [7] 0 (some 0) (fun _ => 0)] [1] [8] 1 (some 0) (fun _ => 0) [] _ _ rfl rfl⟩
  refine ⟨fun _ _ ⟨_, _, h, _⟩ => absurd h List.not_mem_nil, ?_⟩
  rintro c e h
  cases h
  exact ⟨fun _ _ _ => ⟨fun _ => by decide, fun _ _ => by decide⟩, fun _ _ _ => trivial⟩

/-- Without room it leaves two nodes and two live sequences where one is allowed. -/
theorem split_exceeds_limits :
    ∃ c log, run (.new true true ⟨1, 1⟩) [.insert [1, 2] [7] 0 (some 0) (fun _ => 0),
        .insert [1] [8] 1 (some 0) (fun _ => 0)] = some (c, log) ∧
      c.size = 2 ∧ c.liveSequences = 2 :=
  ⟨_, _, rfl, rfl, rfl⟩

end InferFlux.PrefixCache
