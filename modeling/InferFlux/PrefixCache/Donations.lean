import InferFlux.PrefixCache.Steps

/-!
# Current donations

What the cache is for: a partial map from token sequences to the donation that is
current for them. A donation overwrites the previous one of the same tokens and an
eviction takes it away; nothing else changes the map. The trie represents this map
after every run, which gives the soundness of `Lookup`.
-/

namespace InferFlux.PrefixCache

open CompressedTrie List Function

/-- The abstract state: the current donation of each token sequence. -/
abbrev DonationMap := List Token → Option Donation

def DonationMap.apply (m : DonationMap) : Event → DonationMap
  | .donated tokens d => Function.update m tokens (some d)
  | .evicted tokens => Function.update m tokens none
  | _ => m

def current (log : List Event) : DonationMap := log.foldl DonationMap.apply (fun _ => none)

/-- The event changes the donation of `tokens`. -/
def Event.About (tokens : List Token) : Event → Prop
  | .donated t _ => t = tokens
  | .evicted t => t = tokens
  | _ => False

def RadixNode.donation (n : RadixNode) : Donation := ⟨n.blockTable, n.sequenceId, n.backend⟩

def donations (v : View) : List (List Token × Donation) := v.map (fun x => (x.1, x.2.donation))

/-- The nodes with a live donor are the live donations of the map. -/
def Represents (v : View) (m : DonationMap) : Prop :=
  ∀ t d, 0 ≤ d.sequenceId → (m t = some d ↔ (t, d) ∈ donations v)

theorem donations_view (f : Children) : donations (view f) = donations f.entries := by
  simp [donations, view, RadixNode.donation, comp_def]

variable {v : View}

theorem donations_perm {w : View} (h : v.Perm w) : (donations v).Perm (donations w) := h.map _

@[simp] theorem donations_cons (t : List Token) (n : RadixNode) (v : View) :
    donations ((t, n) :: v) = (t, n.donation) :: donations v := rfl

variable {t : List Token} {d : Donation}

theorem mem_paths_of_mem_donations (h : (t, d) ∈ donations v) : t ∈ v.map Prod.fst := by
  obtain ⟨x, hx, heq⟩ := mem_map.mp h
  cases heq
  exact mem_map_of_mem hx

variable {v' : View} {m : DonationMap} {n : RadixNode}

/-- Replacing what is stored at `t`, next to the same live donations elsewhere. -/
theorem Represents.overwrite {others : View} {o : Option Donation} (h : Represents v m)
    (hv' : v'.Perm ((t, n) :: others)) (hnodup : (v'.map Prod.fst).Nodup)
    (hothers : ∀ t' d, t' ≠ t → 0 ≤ d.sequenceId →
      ((t', d) ∈ donations v ↔ (t', d) ∈ donations others))
    (hhere : ∀ d, 0 ≤ d.sequenceId → (o = some d ↔ d = n.donation)) :
    Represents v' (Function.update m t o) := by
  have hfresh : t ∉ others.map Prod.fst :=
    (nodup_cons.mp ((hv'.map Prod.fst).nodup_iff.mp hnodup)).1
  intro t' d hd
  rw [(donations_perm hv').mem_iff, donations_cons, mem_cons]
  by_cases ht : t' = t
  · subst ht
    have hnot : (t', d) ∉ donations others := fun hmem => hfresh (mem_paths_of_mem_donations hmem)
    simp [hhere d hd, hnot]
  · rw [update_of_ne ht, h t' d hd, hothers t' d ht hd]
    simp [ht]

theorem mem_donations_cons_of_ne {t' : List Token} (h : t' ≠ t ∨ d ≠ n.donation) :
    (t', d) ∈ donations ((t, n) :: v) ↔ (t', d) ∈ donations v := by
  simp only [donations_cons, mem_cons, Prod.mk.injEq]
  grind

variable {tokens : List Token}

/-- An insertion stores its donation and keeps the others, split points included. -/
theorem Represents.insert {c c' : Counters} {exit : InsertExit} (h : Represents v m)
    (hview : InsertView d tokens v c v' c' exit) (hnodup : (v'.map Prod.fst).Nodup) :
    Represents v' (m.apply (.donated tokens d)) := by
  have hhere : ∀ d', 0 ≤ d'.sequenceId → (some d = some d' ↔ d' = d) := by
    intro d' _
    rw [Option.some.injEq, eq_comm]
  cases hview with
  | leaf hv | splitNode old ho hv => exact h.overwrite hv hnodup (fun _ _ _ _ => Iff.rfl) hhere
  | splitLeaf p hv =>
    refine h.overwrite hv hnodup (fun t' d' _ hd' => ?_) hhere
    rw [mem_donations_cons_of_ne]
    refine Or.inr fun heq => ?_
    subst heq
    simp [Counters.husk, RadixNode.donation] at hd'
  | node old others hv hv' =>
    refine h.overwrite hv' hnodup (fun t' d' ht _ => ?_) hhere
    rw [(donations_perm hv).mem_iff, mem_donations_cons_of_ne (Or.inl ht)]

theorem Represents.evict (h : Represents v m) (hview : EvictView tokens n v v')
    (hnodup : (v.map Prod.fst).Nodup) : Represents v' (m.apply (.evicted tokens)) := by
  cases hview with
  | removed others hv hv' =>
    intro t d hd
    rw [(donations_perm hv').mem_iff]
    by_cases ht : t = tokens
    · subst ht
      have hfresh := (nodup_cons.mp ((hv.map Prod.fst).nodup_iff.mp hnodup)).1
      have hnot : (t, d) ∉ donations others :=
        fun hmem => hfresh (mem_paths_of_mem_donations hmem)
      simp [DonationMap.apply, hnot]
    · rw [DonationMap.apply, update_of_ne ht, h t d hd, (donations_perm hv).mem_iff,
        mem_donations_cons_of_ne (Or.inl ht)]
  | cleared others hv hv' =>
    have hpaths : (v'.map Prod.fst).Nodup := by
      rw [(hv'.map Prod.fst).nodup_iff]
      exact (hv.map Prod.fst).nodup_iff.mp hnodup
    refine h.overwrite hv' hpaths (fun t' d' ht _ => ?_) (fun d' hd' => ?_)
    · rw [(donations_perm hv).mem_iff, mem_donations_cons_of_ne (Or.inl ht)]
    · simp only [reduceCtorEq, false_iff]
      rintro rfl
      simp [clearDonor, RadixNode.donation] at hd'

theorem foldl_apply_calls {calls : List Event} (h : ∀ e ∈ calls, e.isCall = true)
    (m : DonationMap) : calls.foldl DonationMap.apply m = m := by
  induction calls generalizing m with
  | nil => rfl
  | cons e calls ih =>
    have hstep : m.apply e = m := by
      cases e <;> first | rfl | exact absurd (h _ mem_cons_self) (by simp [Event.isCall])
    rw [foldl_cons, hstep]
    exact ih (fun e' he' => h e' (mem_cons_of_mem _ he')) m

variable {c c' : RadixPrefixCache} {e : List Event}

theorem Represents.evictions (h : Represents c.entries m) (hc : Invariant c)
    (hev : Evictions c c' e) : Represents c'.entries (e.foldl DonationMap.apply m) := by
  induction hev generalizing m with
  | refl c => exact h
  | step hs _ ih =>
    obtain ⟨calls, rfl, hcalls⟩ := hs.logged
    rw [foldl_append, foldl_cons, foldl_apply_calls hcalls]
    exact ih (h.evict hs.view (Forest.nodup_paths hc.trie.wf)) hs.inv

theorem redonationEvents_isCall (c : RadixPrefixCache) (old : RadixNode) (sequenceId : Int) :
    ∀ e ∈ redonationEvents c old sequenceId, e.isCall = true := by
  unfold redonationEvents
  cases old.backend <;> split_ifs <;> simp [Event.isCall]

theorem Represents.insertWalk {c : RadixPrefixCache} {m : DonationMap}
    (h : Represents c.entries m) (hc : Invariant c) (first : Token) (more : List Token)
    (d : Donation) :
    Represents (insertWalk c first more d).entries (m.apply (.donated (first :: more) d)) := by
  have hpaths := Forest.nodup_paths (hc.insertWalk first more d).trie.wf
  intro t d' hd'
  rw [← donations_view]
  refine Represents.insert (v := view c.root.children) ?_ (insertWalk_view c first more d) ?_ t d' hd'
  · intro t' d'' hd''
    rw [donations_view]
    exact h t' d'' hd''
  · rw [show (view _).map Prod.fst = _ from map_map]
    exact hpaths

theorem Touched.donations_eq (h : Touched c c') : donations c'.entries = donations c.entries := by
  have hmap := congrArg (map fun x => (x.1, x.2.donation)) h.entries_eq
  simpa [donations, comp_def, RadixNode.unstamped, RadixNode.donation] using hmap

/-- A call changes the donations the trie represents exactly as its events say. -/
theorem StepView.represents {op : Op} (h : StepView c op c' e) (hc : Invariant c)
    (hm : Represents c.entries m) : Represents c'.entries (e.foldl DonationMap.apply m) := by
  cases h with
  | touched _ _ ht =>
    intro t d hd
    rw [ht.donations_eq]
    exact hm t d hd
  | refused => exact hm
  | grown first more d _ _ _ _ hev =>
    exact (hm.insertWalk hc first more d).evictions (hc.insertWalk first more d) hev
  | redonated first more d _ old =>
    rw [foldl_cons, foldl_apply_calls (redonationEvents_isCall c old d.sequenceId)]
    exact hm.insertWalk hc first more d
  | evicted _ hev => exact hm.evictions hc hev

variable {ops : List Op} {log : List Event}

theorem run_represents {kvCache onEvictSeq : Bool} {limits : RadixPrefixCacheLimits}
    (h : run (.new kvCache onEvictSeq limits) ops = some (c, log)) :
    Invariant c ∧ Represents c.entries (current log) := by
  refine run_induction (.new kvCache onEvictSeq limits)
    (P := fun _ c log => Represents c.entries (current log)) ?_ ?_ h
  · intro t d _
    exact ⟨(fun h => nomatch h), (fun h => nomatch h)⟩
  · intro ops c log op c' e _ hc hm hview
    unfold current
    rw [foldl_append]
    exact hview.represents hc hm

/-- Without a donation in between, what is current now was current before. -/
theorem current_of_noDonation (h : ∀ ev ∈ e, ∀ t d, ev ≠ .donated t d)
    (hd : e.foldl DonationMap.apply m t = some d) : m t = some d ∧ ∀ ev ∈ e, ¬ ev.About t := by
  induction e generalizing m with
  | nil => exact ⟨hd, by simp⟩
  | cons ev e ih =>
    obtain ⟨hm, hrest⟩ := ih (fun ev' h' => h ev' (mem_cons_of_mem _ h')) hd
    cases ev with
    | donated t' d' => exact absurd rfl (h _ mem_cons_self t' d')
    | evicted t' =>
      have hne : t ≠ t' := by
        rintro rfl
        simp [DonationMap.apply] at hm
      rw [DonationMap.apply, update_of_ne hne] at hm
      exact ⟨hm, forall_mem_cons.mpr ⟨hne.symm, hrest⟩⟩
    | _ => exact ⟨hm, forall_mem_cons.mpr ⟨id, hrest⟩⟩

theorem not_donated_of_isCall {calls : List Event} (h : ∀ e ∈ calls, e.isCall = true) :
    ∀ ev ∈ calls, ∀ t d, ev ≠ .donated t d := by
  rintro ev hev t d rfl
  exact absurd (h _ hev) (by simp [Event.isCall])

theorem Evictions.noDonation (h : Evictions c c' e) : ∀ ev ∈ e, ∀ t d, ev ≠ .donated t d := by
  induction h with
  | refl c => simp
  | step hs _ ih =>
    obtain ⟨calls, rfl, hcalls⟩ := hs.logged
    refine forall_mem_append.mpr ⟨forall_mem_cons.mpr ⟨?_, ?_⟩, ih⟩
    · exact fun _ _ h => nomatch h
    · exact not_donated_of_isCall hcalls

/-- A call donates at most once, first of all and for its own arguments. -/
theorem StepView.events {op : Op} (h : StepView c op c' e) :
    (∀ ev ∈ e, ∀ t d, ev ≠ .donated t d) ∨
      ∃ t d ties rest, op = .insert t d.blockTable d.sequenceId d.backend ties ∧
        e = .donated t d :: rest ∧ c.capacity ≠ 0 ∧ d.blockTable ≠ [] ∧
        ∀ ev ∈ rest, ∀ t d, ev ≠ .donated t d := by
  cases h with
  | touched => exact Or.inl (by simp)
  | refused => exact Or.inl (by simp)
  | grown first more d ties hcap hblocks _ hev =>
    exact Or.inr ⟨_, d, ties, _, rfl, rfl, hcap, hblocks, hev.noDonation⟩
  | redonated first more d ties old hcap hblocks =>
    exact Or.inr ⟨_, d, ties, _, rfl, rfl, hcap, hblocks,
      not_donated_of_isCall (redonationEvents_isCall c old d.sequenceId)⟩
  | evicted _ hev => exact Or.inl hev.noDonation

/-- The run made the donation `d` of `t` with one of its `Insert` calls, and no event
about `t` came after it. -/
def Donated (c₀ : RadixPrefixCache) (ops : List Op) (log : List Event) (t : List Token)
    (d : Donation) : Prop :=
  ∃ ops₁ ties ops₂ c₁ log₁ log₂,
    ops = ops₁ ++ .insert t d.blockTable d.sequenceId d.backend ties :: ops₂ ∧
    run c₀ ops₁ = some (c₁, log₁) ∧ log = log₁ ++ .donated t d :: log₂ ∧
    ∀ ev ∈ log₂, ¬ ev.About t

variable {c₀ : RadixPrefixCache}

theorem Donated.concat (h : Donated c₀ ops log t d) (op : Op) (he : ∀ ev ∈ e, ¬ ev.About t) :
    Donated c₀ (ops ++ [op]) (log ++ e) t d := by
  obtain ⟨ops₁, ties, ops₂, c₁, log₁, log₂, rfl, hrun, rfl, hlog⟩ := h
  exact ⟨ops₁, ties, ops₂ ++ [op], c₁, log₁, log₂ ++ e, by simp, hrun, by simp,
    forall_mem_append.mpr ⟨hlog, he⟩⟩

/-- Every current donation was made by an `Insert` of the run and is still in force. Only a
cache with capacity accepts donations, and only with blocks. -/
theorem run_donated (h₀ : Invariant c₀) (h : run c₀ ops = some (c, log))
    (hd : current log t = some d) :
    Donated c₀ ops log t d ∧ c.capacity ≠ 0 ∧ d.blockTable ≠ [] := by
  refine (run_induction h₀ (P := fun ops c log => ∀ t d, current log t = some d →
    Donated c₀ ops log t d ∧ c.capacity ≠ 0 ∧ d.blockTable ≠ []) ?_ ?_ h).2 t d hd
  · exact fun _ _ h => nomatch h
  · intro ops c log op c' e hrun hc ih hview t d hd
    unfold current at hd
    rw [foldl_append] at hd
    rw [hview.config.1]
    rcases hview.events with hnone | ⟨t', d', ties, rest, rfl, rfl, hcap, hblocks, hrest⟩
    · obtain ⟨hlog, he⟩ := current_of_noDonation hnone hd
      exact (ih t d hlog).imp_left (·.concat op he)
    · obtain ⟨hnow, habout⟩ := current_of_noDonation hrest hd
      by_cases ht : t' = t
      · subst ht
        rw [DonationMap.apply, update_self, Option.some.injEq] at hnow
        subst hnow
        exact ⟨⟨ops, ties, [], c, log, rest, rfl, hrun, rfl, habout⟩, hcap, hblocks⟩
      · rw [DonationMap.apply, update_of_ne (Ne.symm ht)] at hnow
        exact (ih t d hnow).imp_left (·.concat _ (forall_mem_cons.mpr ⟨ht, habout⟩))

/-- What a hit reports is the live donation of a non-empty prefix of the tokens. -/
theorem lookup_hit (hc : Invariant c) {backend : Backend} {r : RadixLookupResult}
    (h : c.lookup tokens backend = (true, r, c')) :
    1 ≤ r.matchedTokens ∧ r.matchedTokens ≤ tokens.length ∧ 0 ≤ r.sequenceId ∧
      (tokens.take r.matchedTokens, (⟨r.blockTable, r.sequenceId, backend⟩ : Donation)) ∈
        donations c.entries := by
  unfold RadixPrefixCache.lookup at h
  split_ifs at h
  · simp at h
  · dsimp only at h
    have hdonor := lookupLoop_donor backend c.root.children tokens c.clock
      { node := c.root.data.addr }
    split_ifs at h with hhit
    · obtain ⟨rfl, -⟩ := Prod.mk.inj (Prod.mk.inj h).2
      rcases hdonor with ⟨hid, -, -⟩ | ⟨p, n, hn, hp, hseq, hbe, hid, htokens, hblocks⟩
      · rw [hid] at hhit
        simp at hhit
      · have hne := Forest.ne_nil_of_mem_entries hc.trie.wf hn
        simp only [hid, htokens, hblocks, Nat.zero_add]
        refine ⟨length_pos_iff.mpr hne, hp.length_le, hseq, ?_⟩
        rw [← prefix_iff_eq_take.mp hp]
        exact mem_map.mpr ⟨_, hn, by simp [RadixNode.donation, hbe]⟩
    · simp at h

/-- A hit is backed by an earlier `Insert` of exactly the matched tokens that is still
current: not donated over and not evicted. -/
theorem lookup_sound (kvCache onEvictSeq : Bool) (limits : RadixPrefixCacheLimits)
    (ops : List Op) (c : RadixPrefixCache) (log : List Event)
    (hrun : run (.new kvCache onEvictSeq limits) ops = some (c, log))
    (tokens : List Token) (backend : Backend) (r : RadixLookupResult) (c' : RadixPrefixCache)
    (h : c.lookup tokens backend = (true, r, c')) :
    1 ≤ r.matchedTokens ∧ r.matchedTokens ≤ tokens.length ∧
      Donated (.new kvCache onEvictSeq limits) ops log (tokens.take r.matchedTokens)
        ⟨r.blockTable, r.sequenceId, backend⟩ := by
  obtain ⟨hinv, hrep⟩ := run_represents hrun
  obtain ⟨hpos, hle, hseq, hmem⟩ := lookup_hit hinv h
  exact ⟨hpos, hle, (run_donated (.new ..) hrun ((hrep _ _ hseq).mpr hmem)).1⟩

/-- The donation of `[1, 2]` serves the prompt `[1, 2, 5]`, also after `[1, 2, 3, 4]` was
donated below it. -/
theorem lookup_sound_below_donor :
    let ops : List Op := [.insert [1, 2] [7] 3 (some 0) (fun _ => 0),
      .insert [1, 2, 3, 4] [7, 8] 4 (some 0) (fun _ => 0)]
    ∃ c log c', run (.new true true ⟨4, 4⟩) ops = some (c, log) ∧
      c.lookup [1, 2, 5] (some 0) = (true, ⟨[7], 3, 2⟩, c') ∧
      Donated (.new true true ⟨4, 4⟩) ops log [1, 2] ⟨[7], 3, some 0⟩ := by
  refine ⟨_, _, _, rfl, rfl, ?_⟩
  exact (lookup_sound true true ⟨4, 4⟩ _ _ _ rfl [1, 2, 5] (some 0) ⟨[7], 3, 2⟩ _ rfl).2.2

end InferFlux.PrefixCache
