import InferFlux.Execution.InferenceRequest
import InferFlux.KVCache.HostBlocks

/-!
# Swapping a request out and in

Embeds `Scheduler::TrySwapOut` and `Scheduler::TrySwapIn` from `scheduler/scheduler.cpp`, for a
scheduler with a cache: the block table of a request is moved to the host pool and back. Both
return `false` when the cache throws; a `SwapOut` that runs out of host blocks has then moved a
part of the table, which the request goes on to name.
-/

namespace InferFlux.Scheduler.Swapping

open InferFlux.Execution InferFlux.KVCache RefCounting LoggedRun List

variable {ω α : Type}

structure SwappableRequest extends InferenceRequest where
  isSwapped : Bool := false
  swappedHostHandles : List Int := []
  deriving DecidableEq, Repr

def trySwapOut (c : PagedKVCache α) (inf : SwappableRequest) :
    Bool × PagedKVCache α × SwappableRequest :=
  if inf.isSwapped || inf.blockTable.isEmpty then (false, c, inf)
  else match swapOut c inf.blockTable with
    | (.ok handles, c) =>
      (true, c, { inf with
        swappedHostHandles := handles.map Int.ofNat, blockTable := [], isSwapped := true })
    | (.error _, c) => (false, c, inf)

def trySwapIn [Zero α] (c : PagedKVCache α) (inf : SwappableRequest) :
    Bool × PagedKVCache α × SwappableRequest :=
  if !inf.isSwapped then (false, c, inf)
  else if numFreeBlocks c < inf.swappedHostHandles.length then (false, c, inf)
  else match reserveBlocks c inf.swappedHostHandles.length with
    | (.error _, c) => (false, c, inf)
    | (.ok reserved, c) =>
      let targetBlocks := reserved.map Int.ofNat
      match swapIn c inf.swappedHostHandles targetBlocks with
      | (.error _, c) => (false, c, inf)
      | (.ok (), c) =>
        (true, c, { inf with
          blockTable := targetBlocks, swappedHostHandles := [], isSwapped := false })

/-! ## A swap that fails -/

/-- The request and its pages are as before the call, and so are the host blocks. -/
structure LeavesAlone (c : PagedKVCache α) (inf : SwappableRequest)
    (outcome : Bool × PagedKVCache α × SwappableRequest) : Prop where
  pages : ∀ p ∈ c.validPages inf.blockTable,
    outcome.2.1.pages[p]?.map (fun page => (page.inUse, page.data, page.refCount)) =
      c.pages[p]?.map fun page => (page.inUse, page.data, page.refCount)
  hostBlocks : outcome.2.1.hostBlocks = c.hostBlocks
  request : outcome.2.2 = inf

variable {c : PagedKVCache α} {inf : SwappableRequest}

theorem trySwapOut_of_error {message : String} (hout : inf.isSwapped = false)
    (hfail : (swapOut c inf.blockTable).1 = .error message) :
    trySwapOut c inf = (false, (swapOut c inf.blockTable).2, inf) := by
  have hnonempty : inf.blockTable.isEmpty = false := by
    cases htable : inf.blockTable with
    | nil =>
      rw [htable] at hfail
      cases hfail
    | cons pageId blocks => rfl
  unfold trySwapOut
  rw [hout, hnonempty]
  cases hrun : swapOut c inf.blockTable with
  | mk result c' =>
    rw [hrun] at hfail
    obtain rfl : result = .error message := hfail
    rfl

/-- A swap that runs out of host blocks leaves the request, its pages and the host blocks alone
exactly if no host block was free when it began. -/
theorem failed_swapOut_atomic_iff (c : PagedKVCache α) (inf : SwappableRequest)
    (hout : inf.isSwapped = false) (message : String)
    (hfail : (swapOut c inf.blockTable).1 = .error message) :
    (trySwapOut c inf).1 = false ∧
      (LeavesAlone c inf (trySwapOut c inf) ↔ numAvailableHostBlocks c = 0) := by
  rw [trySwapOut_of_error hout hfail]
  refine ⟨rfl, fun halone => ?_, fun hnone => ?_⟩
  · by_contra hfree
    have hpages : c.validPages inf.blockTable ≠ [] := by
      intro hnil
      have hok : ∃ handles, (swapOutLoop inf.blockTable [] c).1 = .ok handles :=
        swapOutLoop_ok_iff.mpr (by simp [hnil])
      obtain ⟨handles, hok⟩ := hok
      cases hfail.symm.trans hok
    exact swapOutLoop_moves [] (Nat.pos_of_ne_zero hfree) hpages halone.hostBlocks
  · have hsame : (swapOut c inf.blockTable).2 = c := (swapOutLoop_exhausted _ [] hnone).1
    exact ⟨fun p _ => by rw [hsame], by rw [hsame], rfl⟩

/-- The pool of a cache with one page is used up by two swaps; the third one changes nothing. -/
theorem failed_swapOut_atomic_iff_full :
    ∃ s log, KVCache.run (⟨.new 1 8 .lru, 0⟩ : System Nat Nat)
        [.reservePage 0, .swapOut 0 [0], .reservePage 0, .swapOut 0 [0], .reservePage 0] =
          some (s, log) ∧
      numAvailableHostBlocks s.cache = 0 ∧
      LeavesAlone s.cache { blockTable := [0] } (trySwapOut s.cache { blockTable := [0] }) :=
  ⟨_, _, rfl, rfl,
    ((failed_swapOut_atomic_iff _ { blockTable := [0] } rfl
      "Host KV block pool exhausted during SwapOut" rfl).2).mpr rfl⟩

/-- With one host block left, a table of two pages: page `0` is moved before the call fails. The
request goes on to name it, but the page is free and its contents are in the host pool. -/
theorem failed_swapOut_moves_first_page :
    ∃ s log, KVCache.run (⟨.new 2 8 .lru, 0⟩ : System Nat Nat)
        [.reserveBlocks 0 2, .swapOut 0 [0, 1], .reserveBlocks 0 2, .swapOut 0 [0], .reservePage 0] =
          some (s, log) ∧
      (swapOut s.cache [0, 1]).1 = .error "Host KV block pool exhausted during SwapOut" ∧
      (trySwapOut s.cache { blockTable := [0, 1] }).1 = false ∧
      (trySwapOut s.cache { blockTable := [0, 1] }).2.2.blockTable = [0, 1] ∧
      s.cache.pages[0]?.map (fun page => (page.inUse, page.data)) = some (true, [0, 0]) ∧
      (trySwapOut s.cache { blockTable := [0, 1] }).2.1.pages[0]?.map
        (fun page => (page.inUse, page.data)) = some (false, []) ∧
      numAvailableHostBlocks s.cache = 1 ∧
      numAvailableHostBlocks (trySwapOut s.cache { blockTable := [0, 1] }).2.1 = 0 :=
  ⟨_, _, rfl, rfl, rfl, rfl, rfl, rfl, rfl, rfl⟩

/-! ## A round trip -/

variable {c' : PagedKVCache α} {inf' : SwappableRequest}

theorem trySwapOut_eq_true (h : trySwapOut c inf = (true, c', inf')) :
    ∃ handles : List Nat, swapOut c inf.blockTable = (.ok handles, c') ∧
      inf'.swappedHostHandles = handles.map Int.ofNat ∧ inf'.isSwapped = true := by
  unfold trySwapOut at h
  split at h
  · cases h
  · cases hrun : swapOut c inf.blockTable with
    | mk result c'' =>
      rw [hrun] at h
      cases result with
      | error => cases h
      | ok handles =>
        cases h
        exact ⟨handles, rfl, rfl, rfl⟩

theorem trySwapIn_eq_true [Zero α] (h : trySwapIn c inf = (true, c', inf')) :
    ∃ (targets : List Nat) (c₁ : PagedKVCache α),
      reserveBlocks c inf.swappedHostHandles.length = (.ok targets, c₁) ∧
      swapIn c₁ inf.swappedHostHandles (targets.map Int.ofNat) = (.ok (), c') ∧
      inf'.blockTable = targets.map Int.ofNat ∧ inf'.isSwapped = false := by
  unfold trySwapIn at h
  split at h
  · cases h
  · split at h
    · cases h
    · split at h
      · cases h
      next targets c₁ hreserve =>
        dsimp only at h
        split at h
        · cases h
        next c₂ hin =>
          cases h
          exact ⟨targets, c₁, hreserve, hin, rfl, rfl⟩

variable {blocks : List Int}

theorem length_validPages (hvalid : ∀ pageId ∈ blocks, ∃ p, c.pageIndex pageId = some p) :
    (c.validPages blocks).length = blocks.length := by
  induction blocks with
  | nil => rfl
  | cons pageId blocks ih =>
    obtain ⟨⟨p, hp⟩, hvalid⟩ := forall_mem_cons.mp hvalid
    rw [validPages_cons_of_some hp, length_cons, ih hvalid, length_cons]

theorem nodup_validPages (hdistinct : blocks.Nodup) : (c.validPages blocks).Nodup := by
  refine hdistinct.filterMap fun pageId pageId' p hp hp' => ?_
  rw [eq_of_pageIndex hp, eq_of_pageIndex hp']

variable {ps : List Nat}

theorem validPages_map_ofNat (hrange : ∀ p ∈ ps, p < c.pages.length) :
    c.validPages (ps.map Int.ofNat) = ps := by
  induction ps with
  | nil => rfl
  | cons p ps ih =>
    obtain ⟨hp, hrange⟩ := forall_mem_cons.mp hrange
    have hindex : c.pageIndex (Int.ofNat p) = some p := by
      simp [PagedKVCache.pageIndex, hp]
    rw [map_cons, validPages_cons_of_some hindex, ih hrange]

theorem grant_le {held : Multiset (ω × Nat)} {o : ω} (hnodup : ps.Nodup)
    (hheld : ∀ p ∈ ps, (o, p) ∈ held) : grant o ps ≤ held := by
  have hgrant : (grant o ps).Nodup :=
    Multiset.coe_nodup.mpr (hnodup.map fun p q h => congrArg Prod.snd h)
  refine (Multiset.le_iff_subset hgrant).mpr fun x hx => ?_
  obtain ⟨p, hp, rfl⟩ := mem_map.mp (Multiset.mem_coe.mp hx)
  exact hheld p hp

/-- The system while a request is swapped out: host blocks hold the request's contents, and every
page that somebody holds is in use. -/
structure Keeping (handles : List Nat) (contents : List (List α)) (s : System ω α) : Prop where
  backed : s.Backed
  stored : List.Forall₂ (Stored s.cache) handles contents

variable {s : System ω α} {handles : List Nat} {contents : List (List α)}

/-- The calls of other owners leave the request's host blocks alone. -/
theorem Keeping.step [Zero α] [DecidableEq ω] {s' : System ω α} {op : KVCache.Op ω α}
    {e : List (Event ω)} (h : Keeping handles contents s)
    (hpre : (Disciplined s op ∧ Unshared s op) ∧ op.Spares (handles.map Int.ofNat))
    (hstep : KVCache.step s op = some (s', e)) : Keeping handles contents s' :=
  ⟨(step_backed h.backed hpre.1.1 hpre.1.2 hstep).1, (step_keeps hpre.2 hstep).stored h.stored⟩

/-- What a swap of distinct, unshared pages leaves. -/
theorem trySwapOut_stores [DecidableEq ω] (hs : s.Backed) {mine : ω}
    (hvalid : ∀ pageId ∈ inf.blockTable, ∃ p, s.cache.pageIndex pageId = some p)
    (hdistinct : inf.blockTable.Nodup)
    (hunshared : ∀ p ∈ s.cache.validPages inf.blockTable, (mine, p) ∈ s.held ∧ refs s.held p = 1)
    (hout : trySwapOut s.cache inf = (true, c', inf')) :
    ∃ handles : List Nat, inf'.swappedHostHandles = handles.map Int.ofNat ∧ handles.Nodup ∧
      handles.length = inf.blockTable.length ∧
      Keeping handles (s.cache.contents inf.blockTable)
        ⟨c', s.held - grant mine (s.cache.validPages inf.blockTable)⟩ := by
  obtain ⟨handles, hswap, hhandles, -⟩ := trySwapOut_eq_true hout
  have hnodup : (s.cache.validPages inf.blockTable).Nodup := nodup_validPages hdistinct
  obtain ⟨_, rfl, htaken, hstored, -⟩ := swapOutLoop_stored hswap hnodup
  have hheld : grant mine (s.cache.validPages inf.blockTable) ≤ s.held :=
    grant_le hnodup fun p hp => (hunshared p hp).1
  have henough : (s.cache.validPages inf.blockTable).length ≤ numAvailableHostBlocks s.cache :=
    swapOutLoop_ok_iff.mp ⟨_, congrArg Prod.fst hswap⟩
  obtain ⟨hbacked, -⟩ := swapOut_backed hs hheld (.inr ⟨henough, fun p hp => by
    rw [(hunshared p hp).2, count_eq_one_of_mem hnodup hp]⟩)
  have hbacked := hbacked _ (congrArg Prod.fst hswap)
  rw [hswap] at hbacked
  refine ⟨_, hhandles, htaken, ?_, hbacked, hstored⟩
  rw [hstored.length_eq, PagedKVCache.contents, length_map, length_validPages hvalid]

/-- What is stored comes back to pages that nobody holds, and the host blocks are free. -/
theorem trySwapIn_restores [Zero α] (mine : ω) (hs : Keeping handles contents s)
    (hhandles : inf.swappedHostHandles = handles.map Int.ofNat) (hnodup : handles.Nodup)
    (hin : trySwapIn s.cache inf = (true, c', inf')) :
    inf'.blockTable.length = handles.length ∧ inf'.blockTable.Nodup ∧
      (∀ pageId ∈ inf'.blockTable, ∃ p, c'.pageIndex pageId = some p ∧ refs s.held p = 0) ∧
      c'.contents inf'.blockTable = contents ∧
      (∀ h ∈ handles, ∃ block, c'.hostBlocks[h]? = some block ∧ block.inUse = false) ∧
      inf'.isSwapped = false := by
  obtain ⟨targets, c₁, hreserve, hswap, htable, hflag⟩ := trySwapIn_eq_true hin
  rw [hhandles] at hreserve hswap
  rw [length_map] at hreserve
  have hok : (reserveLoop handles.length [] s.cache).1 = .ok targets := congrArg Prod.fst hreserve
  have hlen : targets.length = handles.length := by
    have := reserveLoop_length _ hok
    simpa using this
  -- the targets are distinct pages that nobody holds
  have hnone : RefCounting.Backed meter s.cache.pages (s.held + grant mine []) := by
    rw [grant_nil, Multiset.add_zero]
    exact hs.backed
  obtain ⟨hbacked, hfresh, htargets⟩ :=
    (reserveLoop_backed mine handles.length [] s.cache hnone (by simp) nodup_nil).1 targets hok
  have hrange : ∀ p ∈ targets, p < c₁.pages.length := by
    intro p hp
    have hlt : p < (reserveLoop handles.length [] s.cache).2.pages.length := hbacked.lt_length (by
      rw [refs_add, refs_grant]
      exact Nat.add_pos_right _ (count_pos_iff.mpr hp))
    rwa [show reserveLoop handles.length [] s.cache = (.ok targets, c₁) from hreserve] at hlt
  have hhost : c₁.hostBlocks = s.cache.hostBlocks := by
    have := reserveLoop_hostBlocks s.cache handles.length []
    rwa [show reserveLoop handles.length [] s.cache = (.ok targets, c₁) from hreserve] at this
  have hc' : c' = swapInPages c₁ (movesIn handles targets) := by
    unfold swapIn at hswap
    split at hswap
    · cases hswap
    · exact (congrArg Prod.snd hswap).symm
  obtain ⟨hcontents, hfree⟩ :=
    swapInPages_restores (Keeps.stored (.of_eq hhost) hs.stored) hlen hrange hnodup htargets
  rw [← hc'] at hcontents hfree
  have hpages : c'.pages.length = c₁.pages.length := by rw [hc', swapInPages_length]
  refine ⟨by rw [htable, length_map, hlen], ?_, ?_, ?_, hfree, hflag⟩
  · rw [htable]
    exact htargets.map fun _ _ h => Int.ofNat.inj h
  · intro pageId hmem
    rw [htable] at hmem
    obtain ⟨p, hp, rfl⟩ := mem_map.mp hmem
    refine ⟨p, ?_, hfresh p hp⟩
    simp [PagedKVCache.pageIndex, hpages, hrange p hp]
  · rw [htable, PagedKVCache.contents, validPages_map_ofNat fun p hp => hpages ▸ hrange p hp,
      hcontents]

/-- A request with distinct, unshared pages is swapped out, other owners make their calls, and the
request is swapped in again: its table is as long as before and names distinct pages that nobody
else holds, with the contents of the old ones in order, and its host blocks are free. Owners give
up only references they hold, and their swaps and acquisitions meet the condition under which no
page with a reference is free. -/
theorem swap_round_trip [Zero α] [DecidableEq ω] (pages pageSizeBytes : Nat)
    (policy : EvictionPolicy) (before : List (KVCache.Op ω α))
    (hbefore : Along KVCache.step (fun s op => Disciplined s op ∧ Unshared s op)
      ⟨.new pages pageSizeBytes policy, 0⟩ before)
    (s : System ω α) (log : List (Event ω))
    (hrun : KVCache.run ⟨.new pages pageSizeBytes policy, 0⟩ before = some (s, log))
    (mine : ω) (inf : SwappableRequest)
    (hvalid : ∀ pageId ∈ inf.blockTable, ∃ p, s.cache.pageIndex pageId = some p)
    (hdistinct : inf.blockTable.Nodup)
    (hunshared : ∀ p ∈ s.cache.validPages inf.blockTable, (mine, p) ∈ s.held ∧ refs s.held p = 1)
    (c₁ : PagedKVCache α) (inf₁ : SwappableRequest)
    (hout : trySwapOut s.cache inf = (true, c₁, inf₁))
    (others : List (KVCache.Op ω α))
    (hothers : Along KVCache.step
      (fun s op => (Disciplined s op ∧ Unshared s op) ∧ op.Spares inf₁.swappedHostHandles)
      ⟨c₁, s.held - grant mine (s.cache.validPages inf.blockTable)⟩ others)
    (s₂ : System ω α) (log₂ : List (Event ω))
    (hrun₂ : KVCache.run ⟨c₁, s.held - grant mine (s.cache.validPages inf.blockTable)⟩ others =
      some (s₂, log₂))
    (c₃ : PagedKVCache α) (inf₃ : SwappableRequest)
    (hin : trySwapIn s₂.cache inf₁ = (true, c₃, inf₃)) :
    inf₃.blockTable.length = inf.blockTable.length ∧
      inf₃.blockTable.Nodup ∧
      (∀ pageId ∈ inf₃.blockTable, ∃ p, c₃.pageIndex pageId = some p ∧
        ∀ other, (other, p) ∉ s₂.held) ∧
      c₃.contents inf₃.blockTable = s.cache.contents inf.blockTable ∧
      (∀ h ∈ inf₁.swappedHostHandles, ∃ block, c₃.hostBlocks[h.toNat]? = some block ∧
        block.inUse = false) ∧
      inf₃.isSwapped = false := by
  have hs : s.Backed := hbefore.invariant (fun s op s' e hs hpre hstep =>
    (step_backed hs hpre.1 hpre.2 hstep).1) (new_backed pages pageSizeBytes policy) hrun
  obtain ⟨handles, hhandles, hnodup, hlen, hkeeping⟩ :=
    trySwapOut_stores hs hvalid hdistinct hunshared hout
  rw [hhandles] at hothers ⊢
  have hkeeping₂ : Keeping handles (s.cache.contents inf.blockTable) s₂ :=
    hothers.invariant (fun _ _ _ _ h hpre hstep => h.step hpre hstep) hkeeping hrun₂
  obtain ⟨htable, hdistinct₃, hfresh, hcontents, hfree, hflag⟩ :=
    trySwapIn_restores mine hkeeping₂ hhandles hnodup hin
  refine ⟨htable.trans hlen, hdistinct₃, fun pageId hmem => ?_, hcontents, ?_, hflag⟩
  · obtain ⟨p, hp, hrefs⟩ := hfresh pageId hmem
    refine ⟨p, hp, fun other hother => ?_⟩
    have hpos : 0 < refs s₂.held p := refs_pos_iff.mpr ⟨other, hother⟩
    omega
  · intro h hmem
    obtain ⟨h', hh', rfl⟩ := List.mem_map.mp hmem
    exact hfree h' hh'

/-- While the contents of owner `0` are in the host pool, owner `1` takes its page, writes to it
and releases it. -/
theorem swap_round_trip_reused_page :
    ∃ s log c₁ inf₁ s₂ log₂ c₃ inf₃,
      KVCache.run (⟨.new 2 8 .lru, 0⟩ : System Nat Nat) [.reservePage 0, .write 1 [3, 4]] =
        some (s, log) ∧
      trySwapOut s.cache { blockTable := [1] } = (true, c₁, inf₁) ∧
      KVCache.run ⟨c₁, s.held - grant 0 (s.cache.validPages [1])⟩
        [.reserveBlocks 1 2, .write 1 [5, 5], .releasePage 1 1] = some (s₂, log₂) ∧
      trySwapIn s₂.cache inf₁ = (true, c₃, inf₃) ∧
      c₃.contents inf₃.blockTable = [[3, 4]] := by
  have hrun : ∃ s log c₁ inf₁ s₂ log₂ c₃ inf₃,
      KVCache.run (⟨.new 2 8 .lru, 0⟩ : System Nat Nat) [.reservePage 0, .write 1 [3, 4]] =
        some (s, log) ∧
      s.cache.pageIndex 1 = some 1 ∧ s.cache.contents [1] = [[3, 4]] ∧
      (∀ p ∈ s.cache.validPages [1], (0, p) ∈ s.held ∧ refs s.held p = 1) ∧
      trySwapOut s.cache { blockTable := [1] } = (true, c₁, inf₁) ∧
      Along KVCache.step
        (fun s op => (Disciplined s op ∧ Unshared s op) ∧ op.Spares inf₁.swappedHostHandles)
        ⟨c₁, s.held - grant 0 (s.cache.validPages [1])⟩
        [.reserveBlocks 1 2, .write 1 [5, 5], .releasePage 1 1] ∧
      KVCache.run ⟨c₁, s.held - grant 0 (s.cache.validPages [1])⟩
        [.reserveBlocks 1 2, .write 1 [5, 5], .releasePage 1 1] = some (s₂, log₂) ∧
      trySwapIn s₂.cache inf₁ = (true, c₃, inf₃) := by
    refine ⟨_, _, _, _, _, _, _, _, rfl, rfl, rfl, by decide, rfl, ?_, rfl, rfl⟩
    refine .cons ⟨⟨trivial, trivial⟩, trivial⟩ rfl (.cons ⟨⟨trivial, trivial⟩, trivial⟩ rfl
      (.cons ⟨⟨?_, trivial⟩, trivial⟩ rfl trivial))
    exact grant_le (by decide) (by decide)
  obtain ⟨s, log, c₁, inf₁, s₂, log₂, c₃, inf₃, hrun, hindex, hold, hheld, hout, hothers, hrun₂, hin⟩ :=
    hrun
  refine ⟨s, log, c₁, inf₁, s₂, log₂, c₃, inf₃, hrun, hout, hrun₂, hin, Eq.trans ?_ hold⟩
  exact (swap_round_trip 2 8 .lru [.reservePage 0, .write 1 [3, 4]]
    (.cons ⟨trivial, trivial⟩ rfl (.cons ⟨trivial, trivial⟩ rfl trivial)) s log hrun 0
    { blockTable := [1] } (by simpa using ⟨1, hindex⟩) (by decide) hheld c₁ inf₁ hout _ hothers
    s₂ log₂ hrun₂ c₃ inf₃ hin).2.2.2.1

/-- Owners `1` and `2` share page `1`. While owner `0` is swapped out, owner `1` swaps the shared
page out; owner `0` then comes back to that page, which owner `2` still holds. -/
theorem swap_round_trip_shared_page :
    ∃ s log c₁ inf₁ s₂ log₂ c₃ inf₃,
      Along KVCache.step Disciplined (⟨.new 2 8 .lru, 0⟩ : System Nat Nat)
        [.reservePage 1, .acquireBlocks 2 [1], .reservePage 0] ∧
      KVCache.run (⟨.new 2 8 .lru, 0⟩ : System Nat Nat)
        [.reservePage 1, .acquireBlocks 2 [1], .reservePage 0] = some (s, log) ∧
      (0, 0) ∈ s.held ∧ refs s.held 0 = 1 ∧
      trySwapOut s.cache { blockTable := [0] } = (true, c₁, inf₁) ∧
      Disciplined (⟨c₁, s.held - grant 0 (s.cache.validPages [0])⟩ : System Nat Nat)
        (.swapOut 1 [1]) ∧
      KVCache.run ⟨c₁, s.held - grant 0 (s.cache.validPages [0])⟩ [.swapOut 1 [1]] =
        some (s₂, log₂) ∧
      trySwapIn s₂.cache inf₁ = (true, c₃, inf₃) ∧
      inf₃.blockTable = [1] ∧ (2, 1) ∈ s₂.held := by
  refine ⟨_, _, _, _, _, _, _, _, .cons trivial rfl (.cons trivial rfl (.cons trivial rfl trivial)),
    rfl, by decide, by decide, rfl, ?_, rfl, rfl, rfl, by decide⟩
  exact grant_le (by decide) (by decide)

end InferFlux.Scheduler.Swapping
