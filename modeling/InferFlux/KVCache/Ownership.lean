import InferFlux.KVCache.Allocation
import InferFlux.Library.RefCounting

/-!
# Who holds which page

A `System` is the cache next to the references its owners hold: one for each page a
reservation returns and one more for each page passed to `AcquireBlocks`, given up by a
release or by a successful `SwapOut`. An owner that gives up only what it holds is
`Disciplined`.
-/

namespace InferFlux.KVCache

open RefCounting LoggedRun KVCache Option List

variable {ω α : Type}

structure System (ω α : Type) where
  cache : PagedKVCache α
  held : Multiset (ω × Nat) := 0

inductive Op (ω α : Type) where
  | reservePage (owner : ω)
  | reserveBlocks (owner : ω) (n : Nat)
  | acquireBlocks (owner : ω) (blocks : List Int)
  | releasePage (owner : ω) (pageId : Int)
  | releaseBlocks (owner : ω) (blocks : List Int)
  | swapOut (owner : ω) (blocks : List Int)
  | swapIn (hostHandles targetBlocks : List Int)
  | write (pageId : Int) (values : List α)
  | read (pageId : Int)
  | setOffloadPath (path : String)
  | setEvictionPolicy (policy : EvictionPolicy)
  | workerTake
  | workerWrite (task : Nat)

inductive Event (ω : Type) where
  | reserved (owner : ω) (pages : List Nat)
  | threw (message : String)
  deriving DecidableEq, Repr

section Step

variable [Zero α] [DecidableEq ω]

/-- References change hands only when the call returns normally. -/
def settle {β : Type} (s : System ω α) (result : Except String β × PagedKVCache α)
    (held : β → Multiset (ω × Nat)) (events : β → List (Event ω)) :
    System ω α × List (Event ω) :=
  match result with
  | (.ok value, cache) => (⟨cache, held value⟩, events value)
  | (.error message, cache) => (⟨cache, s.held⟩, [.threw message])

def step (s : System ω α) : Op ω α → Option (System ω α × List (Event ω))
  | .reservePage owner =>
    some (settle s (KVCache.reservePage s.cache) (fun page => s.held + grant owner [page])
      fun page => [.reserved owner [page]])
  | .reserveBlocks owner n =>
    some (settle s (KVCache.reserveBlocks s.cache n) (fun pages => s.held + grant owner pages)
      fun pages => [.reserved owner pages])
  | .acquireBlocks owner blocks =>
    some (⟨KVCache.acquireBlocks s.cache blocks,
      s.held + grant owner (s.cache.validPages blocks)⟩, [])
  | .releasePage owner pageId =>
    some (⟨KVCache.releasePage s.cache pageId,
      s.held - grant owner (s.cache.validPages [pageId])⟩, [])
  | .releaseBlocks owner blocks =>
    some (⟨KVCache.releaseBlocks s.cache blocks,
      s.held - grant owner (s.cache.validPages blocks)⟩, [])
  | .swapOut owner blocks =>
    some (settle s (KVCache.swapOut s.cache blocks)
      (fun _ => s.held - grant owner (s.cache.validPages blocks)) fun _ => [])
  | .swapIn hostHandles targetBlocks =>
    some (settle s (KVCache.swapIn s.cache hostHandles targetBlocks) (fun _ => s.held) fun _ => [])
  | .write pageId values =>
    some (settle s (KVCache.write s.cache pageId values) (fun _ => s.held) fun _ => [])
  | .read pageId => some (settle s (KVCache.read s.cache pageId) (fun _ => s.held) fun _ => [])
  | .setOffloadPath path =>
    (KVCache.setOffloadPath s.cache path).map fun cache => (⟨cache, s.held⟩, [])
  | .setEvictionPolicy policy => some (⟨KVCache.setEvictionPolicy s.cache policy, s.held⟩, [])
  | .workerTake => some (⟨KVCache.workerTake s.cache, s.held⟩, [])
  | .workerWrite task => some (⟨KVCache.workerWrite s.cache task, s.held⟩, [])

def run (s : System ω α) (ops : List (Op ω α)) : Option (System ω α × List (Event ω)) :=
  LoggedRun.run step s ops

end Step

/-- The owner releases or swaps out only references it holds. -/
def Disciplined (s : System ω α) : Op ω α → Prop
  | .releasePage owner pageId => grant owner (s.cache.validPages [pageId]) ≤ s.held
  | .releaseBlocks owner blocks => grant owner (s.cache.validPages blocks) ≤ s.held
  | .swapOut owner blocks => grant owner (s.cache.validPages blocks) ≤ s.held
  | _ => True

/-- A reference is only added to a page that has one. A swap gives up all references to
its pages and finds a host block for each of them, or finds none at all. -/
def Unshared (s : System ω α) : Op ω α → Prop
  | .acquireBlocks _ blocks => ∀ p ∈ s.cache.validPages blocks, 0 < refs s.held p
  | .swapOut _ blocks =>
    numAvailableHostBlocks s.cache = 0 ∨
      ((s.cache.validPages blocks).length ≤ numAvailableHostBlocks s.cache ∧
        ∀ p ∈ s.cache.validPages blocks, refs s.held p = (s.cache.validPages blocks).count p)
  | _ => True

def meter : Meter (KVPage α) := ⟨KVPage.inUse, KVPage.refCount⟩

/-- Every page with a reference is in use and counts its references. -/
def System.Backed (s : System ω α) : Prop := RefCounting.Backed meter s.cache.pages s.held

variable {owner : ω}

section Calls

variable {c : PagedKVCache α} {held : Multiset (ω × Nat)} {i : Nat}

/-- A selected page has no references, and reserving it keeps the system backed. -/
theorem reserve_selected [Zero α] (h : RefCounting.Backed meter c.pages held) (owner : ω)
    (hi : (selectEvictionCandidate c).1 = some i) :
    refs held i = 0 ∧ RefCounting.Backed meter
      (acquirePageLocked (selectEvictionCandidate c).2 i).pages (held + grant owner [i]) := by
  have hsel := selectEvictionCandidate_selects c
  obtain ⟨page, hpage, hfree⟩ := hsel.free i hi
  obtain ⟨f, hf, hfresh⟩ := acquirePageLocked_pages (selectEvictionCandidate c).2 i
  refine ⟨h.refs_eq_zero hpage hfree, ?_⟩
  rw [hf, hsel.pages_eq]
  exact h.reserve owner hpage hfree (hfresh page).1 (hfresh page).2

theorem reservePage_backed [Zero α] (h : RefCounting.Backed meter c.pages held) (owner : ω) :
    (∀ page, (reservePage c).1 = .ok page → refs held page = 0 ∧
      RefCounting.Backed meter (reservePage c).2.pages (held + grant owner [page])) ∧
    ∀ message, (reservePage c).1 = .error message →
      RefCounting.Backed meter (reservePage c).2.pages held := by
  have hsel := selectEvictionCandidate_selects c
  have hreserve := reserve_selected (i := (selectEvictionCandidate c).1.getD 0) h owner
  unfold reservePage
  rcases hc : selectEvictionCandidate c with ⟨_ | i, c'⟩ <;> rw [hc] at hsel hreserve
  · refine ⟨fun page hpage => by simp at hpage, fun _ _ => ?_⟩
    rw [show c'.pages = c.pages from hsel.pages_eq]
    exact h
  · refine ⟨fun page hpage => ?_, fun message hmessage => by simp at hmessage⟩
    cases hpage
    exact hreserve rfl

/-- The reservation loop hands out distinct pages without references; when it fails, it
leaves the pages with references as they were. -/
theorem reserveLoop_backed [Zero α] (owner : ω) (n : Nat) (reserved : List Nat)
    (c : PagedKVCache α)
    (h : RefCounting.Backed meter c.pages (held + grant owner reserved))
    (hfresh : ∀ p ∈ reserved, refs held p = 0) (hnodup : reserved.Nodup) :
    (∀ pages, (reserveLoop n reserved c).1 = .ok pages →
      RefCounting.Backed meter (reserveLoop n reserved c).2.pages (held + grant owner pages) ∧
      (∀ p ∈ pages, refs held p = 0) ∧ pages.Nodup) ∧
    ∀ message, (reserveLoop n reserved c).1 = .error message →
      RefCounting.Backed meter (reserveLoop n reserved c).2.pages held := by
  have hround (c : PagedKVCache α) (reserved : List Nat) (i : Nat)
      (hi : (selectEvictionCandidate c).1 = some i)
      (hP : RefCounting.Backed meter c.pages (held + grant owner reserved) ∧
        (∀ p ∈ reserved, refs held p = 0) ∧ reserved.Nodup) :
      RefCounting.Backed meter (acquirePageLocked (selectEvictionCandidate c).2 i).pages
          (held + grant owner (reserved ++ [i])) ∧
        (∀ p ∈ reserved ++ [i], refs held p = 0) ∧ (reserved ++ [i]).Nodup := by
    obtain ⟨hbacked, hfresh, hnodup⟩ := hP
    obtain ⟨hzero, hnext⟩ := reserve_selected hbacked owner hi
    simp only [refs_add, refs_grant, Nat.add_eq_zero_iff] at hzero
    rw [Multiset.add_assoc, ← grant_append] at hnext
    refine ⟨hnext, forall_mem_append.mpr ⟨hfresh, by simpa using hzero.1⟩, ?_⟩
    rw [nodup_append_comm]
    exact nodup_cons.mpr ⟨count_eq_zero.mp hzero.2, hnodup⟩
  obtain ⟨hok, herror⟩ := reserveLoop_induction hround n reserved c ⟨h, hfresh, hnodup⟩
  refine ⟨hok, fun message hmessage => ?_⟩
  obtain ⟨c', given, ⟨hbacked, hgiven, -⟩, hpages, -⟩ := herror message hmessage
  rw [hpages]
  refine hbacked.frame fun p hp => ?_
  have hnot : p ∉ given := fun hmem => by simp [hgiven p hmem] at hp
  exact ⟨markFree_getElem?_of_not_mem hnot, by simp [count_eq_zero_of_not_mem hnot]⟩

variable {P : PagedKVCache α → Multiset (ω × Nat) → Prop}

/-- What survives one more reference to a page that has one survives `AcquireBlocks` of such
pages. -/
theorem acquireBlocks_induction (owner : ω)
    (hstep : ∀ c held pageId i, c.pageIndex pageId = some i → 0 < refs held i → P c held →
      P (acquireBlock c pageId) (held + grant owner [i])) (blocks : List Int) (c : PagedKVCache α)
    (held : Multiset (ω × Nat)) (h : P c held)
    (hheld : ∀ p ∈ c.validPages blocks, 0 < refs held p) :
    P (acquireBlocks c blocks) (held + grant owner (c.validPages blocks)) := by
  induction blocks generalizing c held with
  | nil => simpa [acquireBlocks, PagedKVCache.validPages] using h
  | cons pageId blocks ih =>
    unfold acquireBlocks at ih ⊢
    rw [foldl_cons]
    cases hi : c.pageIndex pageId with
    | none =>
      rw [validPages_cons_of_none hi] at hheld ⊢
      have hsame : acquireBlock c pageId = c := by simp [acquireBlock, hi]
      rw [hsame]
      exact ih c held h hheld
    | some i =>
      rw [validPages_cons_of_some hi] at hheld ⊢
      have hlen : (acquireBlock c pageId).pages.length = c.pages.length := by
        simp [acquireBlock, hi]
      have hfirst := hstep c held pageId i hi (hheld i mem_cons_self) h
      rw [grant_cons, ← Multiset.add_assoc, ← validPages_congr hlen]
      refine ih _ _ hfirst fun p hp => ?_
      rw [validPages_congr hlen] at hp
      rw [refs_add]
      exact Nat.add_pos_left (hheld p (mem_cons_of_mem _ hp)) _

variable {pageId : Int}

theorem acquireBlock_backed (hi : c.pageIndex pageId = some i) (hheld : 0 < refs held i)
    (h : RefCounting.Backed meter c.pages held) :
    RefCounting.Backed meter (acquireBlock c pageId).pages (held + grant owner [i]) := by
  simp only [acquireBlock, hi]
  exact h.acquire owner hheld (fun _ hc => hc) (fun _ => rfl)

theorem releasePageLocked_backed [DecidableEq ω] (hi : c.pageIndex pageId = some i)
    (hheld : grant owner [i] ≤ held) (h : RefCounting.Backed meter c.pages held) :
    RefCounting.Backed meter (releasePageLocked c pageId).pages (held - grant owner [i]) := by
  obtain ⟨page, hpage⟩ := getElem?_of_pageIndex hi
  obtain ⟨f, hf, hcount, huse, -⟩ := releasePageLocked_pages hi hpage
  rw [hf]
  refine h.release hheld fun page' hpage' huse' hmany => ?_
  rw [hpage, some.injEq] at hpage'
  subst hpage'
  exact ⟨by simp_all [meter], hcount⟩

/-- What survives the release of a reference its owner holds survives `ReleaseBlocks` of such
references. -/
theorem releaseBlocks_induction [DecidableEq ω] (owner : ω)
    (hstep : ∀ c held pageId i, c.pageIndex pageId = some i → grant owner [i] ≤ held → P c held →
      P (releasePageLocked c pageId) (held - grant owner [i])) (blocks : List Int)
    (c : PagedKVCache α) (held : Multiset (ω × Nat)) (h : P c held)
    (hheld : grant owner (c.validPages blocks) ≤ held) :
    P (releaseBlocks c blocks) (held - grant owner (c.validPages blocks)) := by
  induction blocks generalizing c held with
  | nil => simpa [releaseBlocks, PagedKVCache.validPages] using h
  | cons pageId blocks ih =>
    unfold releaseBlocks at ih ⊢
    rw [foldl_cons]
    cases hi : c.pageIndex pageId with
    | none =>
      rw [validPages_cons_of_none hi] at hheld ⊢
      have hsame : releasePageLocked c pageId = c := by simp [releasePageLocked, hi]
      rw [hsame]
      exact ih c held h hheld
    | some i =>
      rw [validPages_cons_of_some hi, grant_cons] at hheld ⊢
      have hfirst : grant owner [i] ≤ held := (Multiset.le_add_right _ _).trans hheld
      obtain ⟨page, hpage⟩ := getElem?_of_pageIndex hi
      have hlen : (releasePageLocked c pageId).pages.length = c.pages.length := by
        obtain ⟨f, hf, -⟩ := releasePageLocked_pages hi hpage
        rw [hf, length_modify]
      rw [Multiset.sub_add_eq_sub_sub, ← validPages_congr hlen]
      refine ih _ _ (hstep c held pageId i hi hfirst h) ?_
      rw [validPages_congr hlen]
      have hrest := Multiset.sub_le_sub_right (u := grant owner [i]) hheld
      rwa [Multiset.add_comm, Multiset.add_sub_cancel_right] at hrest

section

variable (h : RefCounting.Backed meter c.pages held)
include h

/-- A swap that gives up all references to its pages, or that fails at once. -/
theorem swapOut_backed [DecidableEq ω] {blocks : List Int}
    (hheld : grant owner (c.validPages blocks) ≤ held) (hswap : numAvailableHostBlocks c = 0 ∨
      ((c.validPages blocks).length ≤ numAvailableHostBlocks c ∧
      ∀ p ∈ c.validPages blocks, refs held p = (c.validPages blocks).count p)) :
    (∀ handles, (swapOut c blocks).1 = .ok handles →
      RefCounting.Backed meter (swapOut c blocks).2.pages
        (held - grant owner (c.validPages blocks))) ∧
    ∀ message, (swapOut c blocks).1 = .error message →
      RefCounting.Backed meter (swapOut c blocks).2.pages held := by
  unfold swapOut
  rcases hswap with hnone | ⟨henough, hall⟩
  · obtain ⟨hsame, hresult⟩ := swapOutLoop_exhausted blocks [] hnone
    rw [hsame]
    refine ⟨fun handles hhandles => ?_, fun _ _ => h⟩
    rw [hhandles] at hresult
    have hempty : c.validPages blocks = [] := by simpa using hresult
    rw [hempty, grant_nil, Multiset.sub_zero]
    exact h
  · obtain ⟨handles, c', hout, -, -, -, hframe⟩ := swapOutLoop_ok blocks [] c henough
    rw [hout]
    refine ⟨fun _ _ => h.frame fun p hp => ?_, fun message hmessage => by simp at hmessage⟩
    simp only [refs_sub hheld, refs_grant] at hp ⊢
    have hnot : p ∉ c.validPages blocks := fun hmem => by
      rw [hall p hmem] at hp
      omega
    exact ⟨hframe p hnot, by simp [count_eq_zero_of_not_mem hnot]⟩

theorem swapInPage_backed (hostIdx pageId : Int) :
    RefCounting.Backed meter (swapInPage c hostIdx pageId).pages held := by
  unfold swapInPage
  split
  · exact h
  · split
    · exact h.modify_keep (fun _ _ => rfl) (fun _ => rfl)
    · exact h

theorem swapIn_backed (hostHandles targetBlocks : List Int) :
    RefCounting.Backed meter (swapIn c hostHandles targetBlocks).2.pages held := by
  unfold swapIn
  split
  · exact h
  · generalize hostHandles.zip targetBlocks = moves
    induction moves generalizing c with
    | nil => exact h
    | cons x moves ih => exact ih (swapInPage_backed h x.1 x.2)

theorem write_backed (pageId : Int) (values : List α) :
    RefCounting.Backed meter (write c pageId values).2.pages held := by
  unfold write
  split
  · exact h
  · rw [persistPage_pages]
    exact h.modify_keep (fun _ hc => hc) (fun _ => rfl)

theorem read_backed (pageId : Int) : RefCounting.Backed meter (read c pageId).2.pages held := by
  unfold read
  split
  · exact h
  · split
    · exact h
    · exact h.modify_keep (fun _ hc => hc) (fun _ => rfl)

end

theorem setOffloadPath_keeps {c' : PagedKVCache α} {path : String}
    (h : setOffloadPath c path = some c') :
    c'.pages = c.pages ∧ c'.pageSizeBytes = c.pageSizeBytes := by
  unfold setOffloadPath at h
  split_ifs at h
  cases h
  exact ⟨rfl, rfl⟩

theorem workerTake_keeps (c : PagedKVCache α) : (workerTake c).pages = c.pages ∧
    (workerTake c).pageSizeBytes = c.pageSizeBytes := by
  unfold workerTake
  split <;> exact ⟨rfl, rfl⟩

theorem workerWrite_keeps (c : PagedKVCache α) (task : Nat) :
    (workerWrite c task).pages = c.pages ∧
      (workerWrite c task).pageSizeBytes = c.pageSizeBytes := by
  unfold workerWrite
  split <;> exact ⟨rfl, rfl⟩

end Calls

section Runs

variable {s : System ω α}

/-- What a call reserved is distinct and nobody held it before. -/
def Exclusive (held : Multiset (ω × Nat)) (e : List (Event ω)) : Prop :=
  ∀ owner pages, .reserved owner pages ∈ e → pages.Nodup ∧ ∀ p ∈ pages, refs held p = 0

theorem exclusive_nil (held : Multiset (ω × Nat)) : Exclusive held [] := by
  intro owner pages h
  simp at h

theorem exclusive_reserved {held : Multiset (ω × Nat)} {pages : List Nat} (hnodup : pages.Nodup)
    (hfresh : ∀ p ∈ pages, refs held p = 0) : Exclusive held [.reserved owner pages] := by
  intro owner' pages' h
  simp only [mem_singleton, Event.reserved.injEq] at h
  obtain ⟨-, rfl⟩ := h
  exact ⟨hnodup, hfresh⟩

theorem settle_backed {β : Type} {result : Except String β × PagedKVCache α}
    {held : β → Multiset (ω × Nat)} {events : β → List (Event ω)}
    (hok : ∀ value, result.1 = .ok value →
      RefCounting.Backed meter result.2.pages (held value) ∧ Exclusive s.held (events value))
    (herror : ∀ message, result.1 = .error message →
      RefCounting.Backed meter result.2.pages s.held) :
    (settle s result held events).1.Backed ∧ Exclusive s.held (settle s result held events).2 := by
  obtain ⟨_ | value, cache⟩ := result
  · refine ⟨herror _ rfl, fun owner pages h => ?_⟩
    simp [settle] at h
  · exact hok value rfl

/-- A call of a disciplined owner that meets the condition on swaps keeps the system
backed, and what it reserves nobody held. -/
theorem step_backed [Zero α] [DecidableEq ω] {op : Op ω α} {r : System ω α × List (Event ω)}
    (h : s.Backed) (hd : Disciplined s op) (hu : Unshared s op) (hstep : step s op = some r) :
    r.1.Backed ∧ Exclusive s.held r.2 := by
  cases op with
  | reservePage owner =>
    obtain ⟨hok, herror⟩ := reservePage_backed h owner
    obtain rfl := some.inj hstep
    refine settle_backed (fun page hpage => ?_) herror
    exact ⟨(hok page hpage).2, exclusive_reserved (nodup_singleton page)
      (by simpa using (hok page hpage).1)⟩
  | reserveBlocks owner n =>
    have hnone : RefCounting.Backed meter s.cache.pages (s.held + grant owner []) := by
      rw [grant_nil, Multiset.add_zero]
      exact h
    obtain ⟨hok, herror⟩ := reserveLoop_backed owner n [] s.cache hnone (by simp) nodup_nil
    obtain rfl := some.inj hstep
    refine settle_backed (fun pages hpages => ?_) herror
    obtain ⟨hbacked, hfresh, hnodup⟩ := hok pages hpages
    exact ⟨hbacked, exclusive_reserved hnodup hfresh⟩
  | acquireBlocks owner blocks =>
    obtain rfl := some.inj hstep
    exact ⟨acquireBlocks_induction owner (fun _ _ _ _ => acquireBlock_backed) blocks s.cache s.held
      h hu, exclusive_nil _⟩
  | releasePage owner pageId =>
    obtain rfl := some.inj hstep
    exact ⟨releaseBlocks_induction owner (fun _ _ _ _ => releasePageLocked_backed) [pageId] s.cache
      s.held h hd, exclusive_nil _⟩
  | releaseBlocks owner blocks =>
    obtain rfl := some.inj hstep
    exact ⟨releaseBlocks_induction owner (fun _ _ _ _ => releasePageLocked_backed) blocks s.cache
      s.held h hd, exclusive_nil _⟩
  | swapOut owner blocks =>
    obtain ⟨hok, herror⟩ := swapOut_backed h hd hu
    obtain rfl := some.inj hstep
    exact settle_backed (fun handles hh => ⟨hok handles hh, exclusive_nil _⟩) herror
  | swapIn hostHandles targetBlocks =>
    obtain rfl := some.inj hstep
    have hin := swapIn_backed h hostHandles targetBlocks
    exact settle_backed (fun _ _ => ⟨hin, exclusive_nil _⟩) (fun _ _ => hin)
  | write pageId values =>
    obtain rfl := some.inj hstep
    have hw := write_backed h pageId values
    exact settle_backed (fun _ _ => ⟨hw, exclusive_nil _⟩) (fun _ _ => hw)
  | read pageId =>
    obtain rfl := some.inj hstep
    have hr := read_backed h pageId
    exact settle_backed (fun _ _ => ⟨hr, exclusive_nil _⟩) (fun _ _ => hr)
  | setOffloadPath path =>
    obtain ⟨cache, hcache, heq⟩ := map_eq_some_iff.mp hstep
    obtain rfl := heq
    refine ⟨?_, exclusive_nil _⟩
    unfold System.Backed
    rw [(setOffloadPath_keeps hcache).1]
    exact h
  | setEvictionPolicy policy =>
    obtain rfl := some.inj hstep
    exact ⟨h, exclusive_nil _⟩
  | workerTake =>
    obtain rfl := some.inj hstep
    refine ⟨?_, exclusive_nil _⟩
    unfold System.Backed
    rw [(workerTake_keeps _).1]
    exact h
  | workerWrite task =>
    obtain rfl := some.inj hstep
    refine ⟨?_, exclusive_nil _⟩
    unfold System.Backed
    rw [(workerWrite_keeps _ _).1]
    exact h

theorem new_backed (pages pageSizeBytes : Nat) (policy : EvictionPolicy) :
    System.Backed (⟨.new pages pageSizeBytes policy, 0⟩ : System ω α) :=
  backed_zero meter _

variable [Zero α] [DecidableEq ω]

/-- In every run of disciplined owners whose swaps and acquisitions meet the condition, a
reservation never returns a page to which somebody holds a reference, nor the same page
twice. -/
theorem reserved_exclusive (pages pageSizeBytes : Nat) (policy : EvictionPolicy)
    (ops : List (Op ω α))
    (hops : Along step (fun s op => Disciplined s op ∧ Unshared s op)
      ⟨.new pages pageSizeBytes policy, 0⟩ ops)
    (ops₁ : List (Op ω α)) (op : Op ω α) (ops₂ : List (Op ω α)) (heq : ops = ops₁ ++ op :: ops₂)
    (s : System ω α) (log : List (Event ω))
    (hrun : run ⟨.new pages pageSizeBytes policy, 0⟩ ops₁ = some (s, log))
    (s' : System ω α) (e : List (Event ω)) (hstep : step s op = some (s', e))
    (owner : ω) (reserved : List Nat) (hreserved : .reserved owner reserved ∈ e) :
    reserved.Nodup ∧ ∀ p ∈ reserved, ∀ other, (other, p) ∉ s.held := by
  subst heq
  obtain ⟨hbefore, hafter⟩ := along_append.mp hops
  have hs : s.Backed := hbefore.invariant (fun s op s' e hs hpre hstep =>
    (step_backed hs hpre.1 hpre.2 hstep).1) (new_backed pages pageSizeBytes policy) hrun
  obtain ⟨⟨hd, hu⟩, -⟩ := hafter s log hrun
  obtain ⟨hnodup, hfresh⟩ := (step_backed hs hd hu hstep).2 owner reserved hreserved
  refine ⟨hnodup, fun p hp other hmem => ?_⟩
  have hpos : 0 < refs s.held p := refs_pos_iff.mpr ⟨other, hmem⟩
  have hzero := hfresh p hp
  omega

end Runs

/-- A request swaps out its only page; the next reservation gets that page and nobody
holds a reference to it any more. -/
theorem reserved_exclusive_after_swap :
    let ops : List (Op Nat Nat) := [.reservePage 0, .swapOut 0 [0], .reservePage 1]
    ∃ s log s', run ⟨.new 1 8 .lru, 0⟩ (ops.take 2) = some (s, log) ∧
      step s (.reservePage 1) = some (s', [.reserved 1 [0]]) ∧
      ∀ p ∈ [0], ∀ other, (other, p) ∉ s.held := by
  refine ⟨_, _, _, rfl, rfl, ?_⟩
  refine (reserved_exclusive 1 8 .lru [.reservePage 0, .swapOut 0 [0], .reservePage 1] ?_
    [.reservePage 0, .swapOut 0 [0]] (.reservePage 1) [] rfl _ _ rfl _ _ rfl 1 [0]
    List.mem_cons_self).2
  refine .cons ⟨trivial, trivial⟩ rfl (.cons ⟨?_, Or.inr ⟨by decide, by decide⟩⟩ rfl
    (.cons ⟨trivial, trivial⟩ rfl trivial))
  exact le_of_eq (by decide)

/-- Owner 1 shares the page of owner 0 and swaps its own reference out; the page is then
reserved for owner 2 while owner 0 still holds it. -/
theorem swapOut_frees_shared_page :
    ∃ s log s', Along step Disciplined (⟨.new 1 8 .lru, 0⟩ : System Nat Nat)
        [.reservePage 0, .acquireBlocks 1 [0], .swapOut 1 [0], .reservePage 2] ∧
      run (⟨.new 1 8 .lru, 0⟩ : System Nat Nat)
        [.reservePage 0, .acquireBlocks 1 [0], .swapOut 1 [0]] = some (s, log) ∧
      step s (.reservePage 2) = some (s', [.reserved 2 [0]]) ∧ (0, 0) ∈ s.held := by
  refine ⟨_, _, _, .cons trivial rfl (.cons trivial rfl (.cons ?_ rfl (.cons trivial rfl trivial))),
    rfl, rfl, by decide⟩
  exact Multiset.le_add_left _ _

end InferFlux.KVCache
