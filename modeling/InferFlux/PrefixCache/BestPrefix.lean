import InferFlux.Library.TrieWalk
import InferFlux.PrefixCache.Donations

/-!
# When `Lookup` hits

`Lookup` keeps the deepest usable donor it has passed, but the flag `node_hit` decides
about the result, and the flag is cleared when the walk ends inside an edge or at a
donor of another backend. `lookup_iff` says exactly when a lookup hits and what it
reports then: the longest current donation of the backend on a prefix of the tokens.
-/

namespace InferFlux.PrefixCache

open CompressedTrie RadixPrefixCache Forest LookupVars

def RadixNode.Foreign (backend : Backend) (n : RadixNode) : Prop :=
  n.sequenceId ≥ 0 ∧ n.backend ≠ backend

variable {f : Children} (backend : Backend)

/-- The walk reports a hit when it passed a node and nothing stopped it inside an edge or
at a foreign donor. -/
theorem lookupLoop_nodeHit (hf : f.WF) (tokens : List Token) (clock : Nat) (v : LookupVars) :
    (lookupLoop backend f tokens clock v).2.2.nodeHit = true ↔
      ¬ f.OnPath tokens (RadixNode.Foreign backend) ∧ ¬ f.MidEdge tokens ∧
        (v.nodeHit = true ∨ f.OnPath tokens fun _ => True) := by
  fun_induction lookupLoop backend f tokens clock v with
  | case1 f clock v => simp [hf.not_onPath_empty, not_midEdge_empty]
  | case2 first tokens clock v => simp
  | case3 edge child below rest first tokens clock v common hlt =>
    have hmid : Forest.MidEdge (.cons first edge child below rest) (first :: tokens) :=
      midEdge_cons_of_lt hf rfl hlt
    simp [stop, hmid]
  | case4 edge child below rest first tokens clock v common hlt hforeign =>
    rw [← append_drop_commonPrefixLength hlt, onPath_cons_matched hf]
    simp [stop, RadixNode.Foreign, hforeign]
  | case5 edge child below rest first tokens clock v common hlt hb below' clock' v' hr ih =>
    rw [hr] at ih
    have hchild : ¬ child.Foreign backend := hb
    have hedge := append_drop_commonPrefixLength hlt
    obtain ⟨q, hq⟩ : ∃ q, q = (first :: tokens).drop common := ⟨_, rfl⟩
    rw [← hq] at ih hedge
    rw [ih hf.2.2.1, ← hedge, onPath_cons_matched hf, onPath_cons_matched hf,
      midEdge_cons_matched hf]
    simp [hchild]
  | case6 key edge child below rest first tokens clock v hk rest' clock' v' hr ih =>
    rw [hr] at ih
    rw [ih hf.2.2.2, onPath_cons_of_ne hf hk, onPath_cons_of_ne hf hk, midEdge_cons_of_ne hf hk]

/-- What a walk has remembered is only replaced by a deeper donor. -/
theorem lookupLoop_keeps (f : Children) (tokens : List Token) (clock : Nat) {v : LookupVars}
    (hseq : 0 ≤ v.lastSeqId) (htokens : v.lastSeqTokens ≤ v.offset) :
    v.lastSeqTokens ≤ (lookupLoop backend f tokens clock v).2.2.lastSeqTokens ∧
      0 ≤ (lookupLoop backend f tokens clock v).2.2.lastSeqId := by
  rcases lookupLoop_donor backend f tokens clock v with ⟨h₁, h₂, -⟩ | ⟨p, n, -, -, hn, -, h₁, h₂, -⟩
  · rw [h₁, h₂]
    exact ⟨le_refl _, hseq⟩
  · rw [h₁, h₂]
    exact ⟨by omega, hn⟩

/-- A walk past no foreign donor remembers the live donors on the way, the deepest last. -/
theorem lookupLoop_longest (hf : f.WF) (tokens : List Token) (clock : Nat) (v : LookupVars)
    (hforeign : ¬ f.OnPath tokens (RadixNode.Foreign backend)) {p : List Token} {n : RadixNode}
    (hn : (p, n) ∈ f.entries) (hp : p <+: tokens) (hlive : n.sequenceId ≥ 0) :
    v.offset + p.length ≤ (lookupLoop backend f tokens clock v).2.2.lastSeqTokens ∧
      0 ≤ (lookupLoop backend f tokens clock v).2.2.lastSeqId := by
  have hon : f.OnPath tokens (fun _ => True) := ⟨p, n, hn, hp, trivial⟩
  fun_induction lookupLoop backend f tokens clock v generalizing p with
  | case1 f clock v => exact absurd hon (hf.not_onPath_empty _)
  | case2 first tokens clock v => simp at hn
  | case3 edge child below rest first tokens clock v common hlt =>
    exact absurd hon (not_onPath_cons_of_lt hf rfl hlt)
  | case4 edge child below rest first tokens clock v common hlt hb =>
    rw [← append_drop_commonPrefixLength hlt, onPath_cons_matched hf] at hforeign
    exact absurd (Or.inl hb) hforeign
  | case5 edge child below rest first tokens clock v common hlt hb below' clock' v' hr ih =>
    have hkeeps := lookupLoop_keeps backend below ((first :: tokens).drop common) (clock + 1)
      (v := v.advance common child)
    rw [hr] at ih hkeeps
    have hlen : common = edge.length := commonPrefixLength_eq hlt
    rw [← append_drop_commonPrefixLength hlt] at hp
    rw [← append_drop_commonPrefixLength hlt, onPath_cons_matched hf, not_or] at hforeign
    rcases mem_entries_cons.mp hn with ⟨rfl, rfl⟩ | ⟨p', rfl, hn'⟩ | hn
    · rw [← hlen]
      simpa [advance, hlive] using hkeeps
    · have hp' := (List.prefix_append_right_inj edge).mp hp
      have := ih hf.2.2.1 hforeign.2 hn' hp' ⟨p', n, hn', hp', trivial⟩
      rw [advance_offset, hlen] at this
      rwa [List.length_append, ← Nat.add_assoc]
    · exact absurd hp (hf.not_prefix_rest hn (hf.head?_edge_append _))
  | case6 key edge child below rest first tokens clock v hk rest' clock' v' hr ih =>
    rw [hr] at ih
    rw [onPath_cons_of_ne hf hk] at hforeign hon
    exact ih hf.2.2.2 hforeign (hf.mem_rest_of_prefix hk hn hp) hp hon

theorem lookupLoop_node (f : Children) (tokens : List Token) (clock : Nat) (v : LookupVars)
    (h : (lookupLoop backend f tokens clock v).2.2.nodeHit = true) :
    (v.nodeHit = true ∧ (lookupLoop backend f tokens clock v).2.2.node = v.node) ∨
      (lookupLoop backend f tokens clock v).2.2.node ∈ f.addrs RadixNode.addr := by
  fun_induction lookupLoop backend f tokens clock v with
  | case1 f clock v | case2 first tokens clock v => exact .inl ⟨h, rfl⟩
  | case3 edge child below rest first tokens clock v common hlt => simp [stop] at h
  | case4 edge child below rest first tokens clock v common hlt hb => simp [stop] at h
  | case5 edge child below rest first tokens clock v common hlt hb below' clock' v' hr ih =>
    rw [hr] at ih
    refine Or.inr ?_
    rcases ih h with ⟨-, hnode⟩ | hnode
    · rw [hnode, advance_node]
      simp
    · simp [hnode]
  | case6 key edge child below rest first tokens clock v hk rest' clock' v' hr ih =>
    rw [hr] at ih
    exact (ih h).imp_right fun hnode => by simp [hnode]

def Usable (log : List Event) (tokens : List Token) (backend : Backend) (t : List Token)
    (d : Donation) : Prop :=
  current log t = some d ∧ 0 ≤ d.sequenceId ∧ d.backend = backend ∧ t <+: tokens

def ForeignDonor (log : List Event) (tokens : List Token) (backend : Backend) : Prop :=
  ∃ t d, current log t = some d ∧ 0 ≤ d.sequenceId ∧ d.backend ≠ backend ∧ t <+: tokens

variable {c : RadixPrefixCache}

theorem Represents.current_iff {log : List Event} {t : List Token} {d : Donation}
    (h : Represents c.entries (current log)) (hd : 0 ≤ d.sequenceId) :
    current log t = some d ↔ ∃ n, (t, n) ∈ c.entries ∧ n.donation = d := by
  rw [h t d hd]
  simp [donations]

theorem Represents.foreignDonor_iff {log : List Event} (h : Represents c.entries (current log))
    (tokens : List Token) (backend : Backend) :
    ForeignDonor log tokens backend ↔
      c.root.children.OnPath tokens (RadixNode.Foreign backend) := by
  constructor
  · rintro ⟨t, d, hd, hlive, hbe, ht⟩
    obtain ⟨n, hn, rfl⟩ := (h.current_iff hlive).mp hd
    exact ⟨t, n, hn, ht, hlive, hbe⟩
  · rintro ⟨t, n, hn, ht, hlive, hbe⟩
    exact ⟨t, n.donation, (h.current_iff hlive).mpr ⟨n, hn, rfl⟩, hlive, hbe, ht⟩

def RadixPrefixCache.lookupVars (c : RadixPrefixCache) (tokens : List Token)
    (backend : Backend) : LookupVars :=
  (lookupLoop backend c.root.children tokens c.clock { node := c.root.data.addr }).2.2

theorem lookup_eq_true_iff (c : RadixPrefixCache) (tokens : List Token) (backend : Backend) :
    (c.lookup tokens backend).1 = true ↔ (c.capacity ≠ 0 ∧ tokens ≠ []) ∧
      (c.lookupVars tokens backend).nodeHit = true ∧
      (c.lookupVars tokens backend).node ≠ c.root.data.addr ∧
      (c.lookupVars tokens backend).lastSeqId ≥ 0 ∧ (c.lookupVars tokens backend).blocks ≠ [] := by
  rw [← not_or]
  unfold lookup lookupVars
  dsimp only
  split_ifs <;> simp_all

theorem lookup_result {tokens : List Token} {backend : Backend}
    (h : (c.lookup tokens backend).1 = true) :
    (c.lookup tokens backend).2.1 = ⟨(c.lookupVars tokens backend).blocks,
      (c.lookupVars tokens backend).lastSeqId, (c.lookupVars tokens backend).lastSeqTokens⟩ := by
  obtain ⟨hguard, hhit⟩ := (lookup_eq_true_iff c tokens backend).mp h
  rw [← not_or] at hguard
  unfold lookupVars at hhit ⊢
  unfold lookup
  simp [if_neg hguard, if_pos hhit]

section Reachable

variable {c : RadixPrefixCache} {log : List Event} {tokens : List Token} {backend : Backend}
  (hc : Invariant c) (hrep : Represents c.entries (current log))

include hc hrep

/-- A remembered donor is the longest usable donation, if no foreign donor is on the way. -/
theorem lookupVars_usable (hforeign : ¬ ForeignDonor log tokens backend)
    (hseq : (c.lookupVars tokens backend).lastSeqId ≥ 0) :
    ∃ t d, Usable log tokens backend t d ∧
      (∀ t' d', Usable log tokens backend t' d' → t'.length ≤ t.length) ∧
      (c.lookupVars tokens backend).blocks = d.blockTable ∧
      (c.lookupVars tokens backend).lastSeqId = d.sequenceId ∧
      (c.lookupVars tokens backend).lastSeqTokens = t.length := by
  rw [hrep.foreignDonor_iff] at hforeign
  rcases lookupLoop_donor backend c.root.children tokens c.clock { node := c.root.data.addr } with
    ⟨hid, -, -⟩ | ⟨p, n, hn, hp, hlive, hbe, hid, htokens, hblocks⟩
  · rw [lookupVars, hid] at hseq
    simp at hseq
  · rw [Nat.zero_add] at htokens
    refine ⟨p, n.donation, ⟨(hrep.current_iff hlive).mpr ⟨n, hn, rfl⟩, hlive, hbe, hp⟩, ?_,
      hblocks, hid, htokens⟩
    rintro t' d' ⟨hd', hlive', -, hp'⟩
    obtain ⟨n', hn', rfl⟩ := (hrep.current_iff hlive').mp hd'
    have := (lookupLoop_longest backend hc.trie.wf tokens c.clock { node := c.root.data.addr }
      hforeign hn' hp' hlive').1
    rwa [htokens, Nat.zero_add] at this

theorem lookupVars_nodeHit_iff :
    (c.lookupVars tokens backend).nodeHit = true ↔
      ¬ ForeignDonor log tokens backend ∧ ¬ c.root.children.MidEdge tokens ∧
        c.root.children.OnPath tokens fun _ => True := by
  rw [hrep.foreignDonor_iff, lookupVars, lookupLoop_nodeHit backend hc.trie.wf]
  simp

omit hrep in
theorem lookupVars_node (h : (c.lookupVars tokens backend).nodeHit = true) :
    (c.lookupVars tokens backend).node ≠ c.root.data.addr := by
  rcases lookupLoop_node backend c.root.children tokens c.clock { node := c.root.data.addr } h with
    ⟨hfalse, -⟩ | hmem
  · simp at hfalse
  · intro heq
    exact (List.nodup_cons.mp hc.trie.nodup).1 (heq ▸ hmem)

end Reachable

/-- `Lookup` hits exactly when some donation is usable, no donor of another backend lies
on the way and the tokens do not end inside an edge. It then reports the longest usable
donation. -/
theorem lookup_iff (kvCache onEvictSeq : Bool) (limits : RadixPrefixCacheLimits)
    (ops : List Op) (c : RadixPrefixCache) (log : List Event)
    (hrun : run (.new kvCache onEvictSeq limits) ops = some (c, log))
    (tokens : List Token) (backend : Backend) :
    ((c.lookup tokens backend).1 = true ↔ (∃ t d, Usable log tokens backend t d) ∧
      ¬ ForeignDonor log tokens backend ∧ ¬ c.root.children.MidEdge tokens) ∧
    ((c.lookup tokens backend).1 = true → ∃ t d, Usable log tokens backend t d ∧
      (∀ t' d', Usable log tokens backend t' d' → t'.length ≤ t.length) ∧
      (c.lookup tokens backend).2.1 = ⟨d.blockTable, d.sequenceId, t.length⟩) := by
  obtain ⟨hc, hrep⟩ := run_represents hrun
  have hhit (h : (c.lookup tokens backend).1 = true) := (lookup_eq_true_iff c tokens backend).mp h
  refine ⟨⟨fun h => ?_, ?_⟩, fun h => ?_⟩
  · obtain ⟨-, hnode, -, hseq, -⟩ := hhit h
    obtain ⟨hforeign, hmid, -⟩ := (lookupVars_nodeHit_iff hc hrep).mp hnode
    obtain ⟨t, d, hd, -⟩ := lookupVars_usable hc hrep hforeign hseq
    exact ⟨⟨t, d, hd⟩, hforeign, hmid⟩
  · rintro ⟨⟨t, d, hd, hlive, hbe, ht⟩, hforeign, hmid⟩
    obtain ⟨-, hcap, -⟩ := run_donated (.new kvCache onEvictSeq limits) hrun hd
    obtain ⟨n, hn, rfl⟩ := (hrep.current_iff hlive).mp hd
    have hnode : (c.lookupVars tokens backend).nodeHit = true :=
      (lookupVars_nodeHit_iff hc hrep).mpr ⟨hforeign, hmid, t, n, hn, ht, trivial⟩
    have hseq : (c.lookupVars tokens backend).lastSeqId ≥ 0 :=
      (lookupLoop_longest backend hc.trie.wf tokens c.clock { node := c.root.data.addr }
        ((hrep.foreignDonor_iff tokens backend).not.mp hforeign) hn ht hlive).2
    obtain ⟨t', d', ⟨hd', -⟩, -, hblocks, -⟩ := lookupVars_usable hc hrep hforeign hseq
    refine (lookup_eq_true_iff c tokens backend).mpr
      ⟨⟨hcap, ?_⟩, hnode, lookupVars_node hc hnode, hseq, ?_⟩
    · rintro rfl
      exact Forest.ne_nil_of_mem_entries hc.trie.wf hn (List.prefix_nil.mp ht)
    · rw [hblocks]
      exact (run_donated (.new ..) hrun hd').2.2
  · obtain ⟨-, hnode, -, hseq, -⟩ := hhit h
    obtain ⟨hforeign, -, -⟩ := (lookupVars_nodeHit_iff hc hrep).mp hnode
    obtain ⟨t, d, hd, hlongest, hblocks, hid, htokens⟩ := lookupVars_usable hc hrep hforeign hseq
    exact ⟨t, d, hd, hlongest, by rw [lookup_result h, hblocks, hid, htokens]⟩

/-- The prompt `[1, 2, 3, 4, 5]` is served by the longer of two donors on its way. -/
theorem lookup_iff_two_donors :
    ∃ c log, run (.new true true ⟨8, 8⟩) [.insert [1, 2] [7] 0 (some 0) (fun _ => 0),
        .insert [1, 2, 3, 4] [7, 8] 1 (some 0) (fun _ => 0)] = some (c, log) ∧
      ∃ t d, Usable log [1, 2, 3, 4, 5] (some 0) t d ∧
        (c.lookup [1, 2, 3, 4, 5] (some 0)).2.1 = ⟨d.blockTable, d.sequenceId, t.length⟩ := by
  refine ⟨_, _, rfl, ?_⟩
  have hiff := lookup_iff true true ⟨8, 8⟩ [.insert [1, 2] [7] 0 (some 0) (fun _ => 0),
    .insert [1, 2, 3, 4] [7, 8] 1 (some 0) (fun _ => 0)] _ _ rfl [1, 2, 3, 4, 5] (some 0)
  obtain ⟨t, d, hd, -, hresult⟩ := hiff.2 rfl
  exact ⟨t, d, hd, hresult⟩

/-- A longer donation turns the hit of `[1, 2, 3, 9]` on `[1, 2]` into a miss: its edge
leaves the prompt in the middle. -/
theorem lookup_misses_usable_donor :
    (∃ c log, run (.new true true ⟨8, 8⟩) [.insert [1, 2] [7] 0 (some 0) (fun _ => 0)] =
        some (c, log) ∧ (c.lookup [1, 2, 3, 9] (some 0)).1 = true) ∧
    ∃ c log, run (.new true true ⟨8, 8⟩) [.insert [1, 2] [7] 0 (some 0) (fun _ => 0),
        .insert [1, 2, 3, 4] [7, 8] 1 (some 0) (fun _ => 0)] = some (c, log) ∧
      Usable log [1, 2, 3, 9] (some 0) [1, 2] ⟨[7], 0, some 0⟩ ∧
      (c.lookup [1, 2, 3, 9] (some 0)).1 = false :=
  ⟨⟨_, _, rfl, rfl⟩, _, _, rfl, ⟨by decide, by decide, rfl, by decide⟩, rfl⟩

end InferFlux.PrefixCache
