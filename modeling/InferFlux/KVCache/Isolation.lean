import InferFlux.KVCache.Ownership
import Mathlib.Data.Set.Insert

/-!
# A page handed out again holds nothing of its last owner

Contents leave a page in three ways: the last release clears it, `SwapOut` moves it to a
host block, and a write replaces it. `AcquirePageLocked` only looks at the length of what
it finds, so a page is handed out clean exactly if nobody could fill it while it was free.
-/

namespace InferFlux.KVCache

open RefCounting LoggedRun KVCache List Option

variable {ω α : Type}

/-- A call with its caller. The calls by which references change hands name their owner
in the operation. -/
structure Call (ω α : Type) where
  caller : ω
  op : Op ω α

def Op.fills : Op ω α → List Int
  | .swapIn _ targetBlocks => targetBlocks
  | .write pageId _ => [pageId]
  | _ => []

/-- Pages are read, written, released and swapped out by owners that hold a reference, and
swapped out only while they have a single owner. -/
def ByHolder (s : System ω α) (call : Call ω α) : Prop :=
  Disciplined s call.op ∧
    match call.op with
    | .read pageId => ∀ p ∈ s.cache.validPages [pageId], (call.caller, p) ∈ s.held
    | .write pageId _ => ∀ p ∈ s.cache.validPages [pageId], (call.caller, p) ∈ s.held
    | .swapOut owner blocks =>
      ∀ p ∈ s.cache.validPages blocks, ∀ other, (other, p) ∈ s.held → other = owner
    | _ => True

/-- The condition on swaps and acquisitions, and that contents are swapped in only to
pages the caller holds. -/
def Settled (s : System ω α) (call : Call ω α) : Prop :=
  Unshared s call.op ∧
    match call.op with
    | .swapIn _ targetBlocks =>
      ∀ p ∈ s.cache.validPages targetBlocks, (call.caller, p) ∈ s.held
    | _ => True

def callStep [Zero α] [DecidableEq ω] (s : System ω α) (call : Call ω α) :
    Option (System ω α × List (Event ω)) :=
  step s call.op

/-! ## Blank pages -/

variable {fresh' : Set Nat} {i : Nat} {f : KVPage α → KVPage α} {p : Nat}

section Blank

variable [Zero α]

/-- A page that has no references or belongs to `fresh` holds zeros, or is free and
empty. -/
def Blank (size : Nat) (fresh : Set Nat) (pages : List (KVPage α))
    (held : Multiset (ω × Nat)) : Prop :=
  ∀ p page, pages[p]? = some page → refs held p = 0 ∨ p ∈ fresh →
    page.data = List.replicate size 0 ∨ refs held p = 0 ∧ page.data = []

variable {size : Nat} {fresh : Set Nat} {pages pages' : List (KVPage α)}
  {held held' : Multiset (ω × Nat)}

section

variable (h : Blank size fresh pages held)
include h

theorem Blank.mono (hsub : fresh' ⊆ fresh) : Blank size fresh' pages held :=
  fun p page hpage hp => h p page hpage (hp.imp_right fun hmem => hsub hmem)

theorem Blank.modify (hfresh : ∀ p, p ≠ i → p ∈ fresh' → p ∈ fresh)
    (hrefs : ∀ p, p ≠ i → refs held' p = refs held p)
    (hpage : ∀ page, pages[i]? = some page → refs held' i = 0 ∨ i ∈ fresh' →
      (f page).data = List.replicate size 0 ∨ refs held' i = 0 ∧ (f page).data = []) :
    Blank size fresh' (pages.modify i f) held' := by
  intro p page hp hblank
  by_cases hpi : p = i
  · subst hpi
    rw [getElem?_modify_eq, Option.map_eq_map, Option.map_eq_some_iff] at hp
    obtain ⟨page', hpage', rfl⟩ := hp
    exact hpage page' hpage' hblank
  · simp only [getElem?_modify, if_neg (Ne.symm hpi), Option.map_eq_map, Option.map_id'] at hp
    rw [hrefs p hpi] at hblank ⊢
    exact h p page hp (hblank.imp_right (hfresh p hpi))

/-- A page of `fresh` to which a reference is held holds zeros. -/
theorem Blank.data_eq {page : KVPage α} (hpage : pages[p]? = some page) (hp : p ∈ fresh)
    (hheld : 0 < refs held p) : page.data = List.replicate size 0 := by
  rcases h p page hpage (Or.inr hp) with hzero | ⟨hnone, -⟩
  · exact hzero
  · omega

end

end Blank

/-- The system is backed and its unused pages are blank. -/
structure Isolated [Zero α] (bytes count : Nat) (fresh : Set Nat) (c : PagedKVCache α)
    (held : Multiset (ω × Nat)) : Prop where
  backed : RefCounting.Backed meter c.pages held
  size_eq : c.pageSizeBytes = bytes
  length_eq : c.pages.length = count
  present : ∀ p ∈ fresh, p < count
  blank : Blank (bytes / 4) fresh c.pages held

theorem new_isolated [Zero α] (pages pageSizeBytes : Nat) (policy : EvictionPolicy) :
    Isolated pageSizeBytes pages ∅ (.new pages pageSizeBytes policy : PagedKVCache α)
      (0 : Multiset (ω × Nat)) := by
  refine ⟨backed_zero meter _, rfl, length_replicate, by simp, fun p page hpage _ => Or.inr ⟨rfl, ?_⟩⟩
  rw [eq_of_mem_replicate (mem_of_getElem? hpage)]

section Calls

variable [Zero α] {bytes count : Nat} {fresh : Set Nat} {c c' : PagedKVCache α}
  {held : Multiset (ω × Nat)}

section

variable (h : Isolated bytes count fresh c held)
include h

theorem Isolated.mono (hsub : fresh' ⊆ fresh) : Isolated bytes count fresh' c held :=
  ⟨h.backed, h.size_eq, h.length_eq, fun p hp => h.present p (hsub hp), h.blank.mono hsub⟩

theorem Isolated.of_pages (hpages : c'.pages = c.pages)
    (hsize : c'.pageSizeBytes = c.pageSizeBytes) : Isolated bytes count fresh c' held :=
  ⟨hpages ▸ h.backed, hsize.trans h.size_eq, hpages ▸ h.length_eq, h.present, hpages ▸ h.blank⟩

theorem Isolated.modify {held' : Multiset (ω × Nat)} (hpages : c'.pages = c.pages.modify i f)
    (hsize : c'.pageSizeBytes = c.pageSizeBytes) (hbacked : RefCounting.Backed meter c'.pages held')
    (hrefs : ∀ p, p ≠ i → refs held' p = refs held p)
    (hpage : ∀ page, c.pages[i]? = some page → refs held' i = 0 ∨ i ∈ fresh →
      (f page).data = List.replicate (bytes / 4) 0 ∨ refs held' i = 0 ∧ (f page).data = []) :
    Isolated bytes count fresh c' held' := by
  refine ⟨hbacked, hsize.trans h.size_eq, ?_, h.present, ?_⟩ <;> rw [hpages]
  · exact (length_modify ..).trans h.length_eq
  · exact h.blank.modify (fun _ _ hp => hp) hrefs hpage

/-- A call may fill a page outside `fresh` to which a reference is held. -/
theorem Isolated.fill (hpages : c'.pages = c.pages.modify i f)
    (hsize : c'.pageSizeBytes = c.pageSizeBytes) (hbacked : RefCounting.Backed meter c'.pages held)
    (hheld : 0 < refs held i) (hi : i ∉ fresh) : Isolated bytes count fresh c' held := by
  refine h.modify hpages hsize hbacked (fun _ _ => rfl) fun page _ hblank => ?_
  rcases hblank with hzero | hmem
  · omega
  · exact absurd hmem hi

theorem Isolated.reserve (owner : ω) (hi : (selectEvictionCandidate c).1 = some i) :
    Isolated bytes count (fresh ∪ {i}) (acquirePageLocked (selectEvictionCandidate c).2 i)
      (held + grant owner [i]) := by
  obtain ⟨hzero, hbacked⟩ := reserve_selected h.backed owner hi
  have hsize := (selectEvictionCandidate_pageSizeBytes c).trans h.size_eq
  have hpages := (selectEvictionCandidate_selects c).pages_eq
  have hlt : i < count := by
    obtain ⟨page, hpage, -⟩ := (selectEvictionCandidate_selects c).free i hi
    exact h.length_eq ▸ (List.getElem?_eq_some_iff.mp hpage).1
  have hpresent : ∀ p ∈ fresh ∪ {i}, p < count := by
    rintro p (hp | rfl)
    · exact h.present p hp
    · exact hlt
  refine ⟨hbacked, hsize, ?_, hpresent, ?_⟩ <;> simp only [acquirePageLocked, hsize, hpages]
  · exact (length_modify ..).trans h.length_eq
  refine h.blank.modify (fun p hp hmem => ?_) (fun p hp => by simp [Ne.symm hp])
    fun page hpage _ => Or.inl ?_
  · simpa [hp] using hmem
  · rcases h.blank i page hpage (Or.inl hzero) with hdata | ⟨-, hdata⟩
    · simp [hdata]
    · simp only [hdata, length_nil]
      split_ifs with hlen
      · rfl
      · simp [← not_not.mp hlen]

/-- The reservation loop hands out zeros, and leaves zeros on the pages it gives back. -/
theorem reserveBlocks_isolated (owner : ω) (n : Nat) :
    (∀ pages, (reserveBlocks c n).1 = .ok pages →
      Isolated bytes count (fresh ∪ {p | p ∈ pages}) (reserveBlocks c n).2
        (held + grant owner pages)) ∧
    ∀ message, (reserveBlocks c n).1 = .error message →
      Isolated bytes count fresh (reserveBlocks c n).2 held := by
  have hstart : Isolated bytes count (fresh ∪ {p | p ∈ ([] : List Nat)}) c (held + grant owner []) := by
    simpa using h
  have hbacked := reserveLoop_backed owner n [] c hstart.backed (by simp) nodup_nil
  have hround (c : PagedKVCache α) (reserved : List Nat) (i : Nat)
      (hi : (selectEvictionCandidate c).1 = some i)
      (hP : Isolated bytes count (fresh ∪ {p | p ∈ reserved}) c (held + grant owner reserved)) :
      Isolated bytes count (fresh ∪ {p | p ∈ reserved ++ [i]})
        (acquirePageLocked (selectEvictionCandidate c).2 i)
        (held + grant owner (reserved ++ [i])) := by
    have hnext := hP.reserve owner hi
    rw [Multiset.add_assoc, ← grant_append, Set.union_assoc] at hnext
    refine hnext.mono ?_
    refine Set.union_subset_union_right fresh fun p hp => ?_
    simpa [or_comm] using hp
  obtain ⟨hok, herror⟩ := reserveLoop_induction hround n [] c hstart
  refine ⟨hok, fun message hmessage => ?_⟩
  obtain ⟨c', given, hgiven, hpages, hsize⟩ := herror message hmessage
  refine ⟨hbacked.2 message hmessage, hsize.trans hgiven.size_eq, ?_,
    fun p hp => hgiven.present p (Or.inl hp), fun p page hpage hp => ?_⟩
  · exact (congrArg length hpages).trans ((markFree_length ..).trans hgiven.length_eq)
  obtain ⟨page', hpage', hdata⟩ := markFree_data (hpages ▸ hpage)
  rw [hdata]
  by_cases hmem : p ∈ given
  · have hpos : 0 < refs (held + grant owner given) p := by
      rw [refs_add, refs_grant]
      exact Nat.add_pos_right _ (count_pos_iff.mpr hmem)
    exact Or.inl (hgiven.blank.data_eq hpage' (Or.inr hmem) hpos)
  · have hsame : refs (held + grant owner given) p = refs held p := by
      simp [count_eq_zero_of_not_mem hmem]
    rw [← hsame] at hp ⊢
    exact hgiven.blank p page' hpage' (hp.imp_right Or.inl)

theorem reservePage_isolated (owner : ω) :
    (∀ page, (reservePage c).1 = .ok page →
      Isolated bytes count (fresh ∪ {page}) (reservePage c).2 (held + grant owner [page])) ∧
    ∀ message, (reservePage c).1 = .error message →
      Isolated bytes count fresh (reservePage c).2 held := by
  have hsel := selectEvictionCandidate_selects c
  have hsize := selectEvictionCandidate_pageSizeBytes c
  have hreserve := h.reserve (i := (selectEvictionCandidate c).1.getD 0) owner
  unfold reservePage
  rcases hc : selectEvictionCandidate c with ⟨_ | i, c'⟩ <;> rw [hc] at hsel hsize hreserve
  · exact ⟨fun page hpage => by simp at hpage, fun _ _ => h.of_pages hsel.pages_eq hsize⟩
  · refine ⟨fun page hpage => ?_, fun message hmessage => by simp at hmessage⟩
    cases hpage
    exact hreserve rfl

end

variable {owner : ω} {pageId : Int}

theorem acquireBlock_isolated (hi : c.pageIndex pageId = some i) (hheld : 0 < refs held i)
    (h : Isolated bytes count fresh c held) :
    Isolated bytes count fresh (acquireBlock c pageId) (held + grant owner [i]) := by
  have hpages : (acquireBlock c pageId).pages = c.pages.modify i fun page =>
      { page with refCount := page.refCount + 1 } := by simp [acquireBlock, hi]
  have hsize : (acquireBlock c pageId).pageSizeBytes = c.pageSizeBytes := by
    simp [acquireBlock, hi]
  refine h.modify hpages hsize (acquireBlock_backed hi hheld h.backed)
    (fun p hp => by simp [Ne.symm hp]) fun page hpage hblank => Or.inl ?_
  rcases hblank with hzero | hmem
  · simp only [refs_add] at hzero
    omega
  · exact (h.blank.data_eq hpage hmem hheld :)

/-- The last reference takes the contents with it. -/
theorem releasePageLocked_isolated [DecidableEq ω] (hi : c.pageIndex pageId = some i)
    (hheld : grant owner [i] ≤ held) (h : Isolated bytes count fresh c held) :
    Isolated bytes count fresh (releasePageLocked c pageId) (held - grant owner [i]) := by
  obtain ⟨page, hpage⟩ := getElem?_of_pageIndex hi
  obtain ⟨f, hf, -, -, hdata⟩ := releasePageLocked_pages hi hpage
  have hone : 1 ≤ refs held i := by
    simpa using refs_le_of_le hheld i
  obtain ⟨page', hpage', -, hcount⟩ := h.backed i hone
  obtain rfl : page = page' := some.inj (hpage.symm.trans hpage')
  refine h.modify hf (releasePageLocked_pageSizeBytes c pageId)
    (releasePageLocked_backed hi hheld h.backed) (fun p hp => by simp [hheld, Ne.symm hp])
    fun page' hpage' hblank => ?_
  obtain rfl : page = page' := some.inj (hpage.symm.trans hpage')
  simp only [refs_sub hheld, refs_grant, count_singleton_self] at hblank ⊢
  have hlast : 1 < page.refCount ↔ 1 < refs held i := by
    change page.refCount = refs held i at hcount
    omega
  rw [hdata]
  by_cases hmore : 1 < page.refCount
  · rw [if_pos hmore]
    rcases hblank with hzero | hmem
    · omega
    · exact Or.inl (h.blank.data_eq hpage hmem hone)
  · rw [if_neg hmore]
    exact Or.inr ⟨by omega, rfl⟩

section

variable (h : Isolated bytes count fresh c held)
include h

/-- A swap takes the contents of its pages and all references to them. -/
theorem swapOut_isolated [DecidableEq ω] {blocks : List Int}
    (hheld : grant owner (c.validPages blocks) ≤ held) (hswap : numAvailableHostBlocks c = 0 ∨
      ((c.validPages blocks).length ≤ numAvailableHostBlocks c ∧
      ∀ p ∈ c.validPages blocks, refs held p = (c.validPages blocks).count p)) :
    (∀ handles, (swapOut c blocks).1 = .ok handles →
      Isolated bytes count fresh (swapOut c blocks).2 (held - grant owner (c.validPages blocks))) ∧
    ∀ message, (swapOut c blocks).1 = .error message →
      Isolated bytes count fresh (swapOut c blocks).2 held := by
  obtain ⟨hok, herror⟩ := swapOut_backed h.backed hheld hswap
  unfold swapOut at hok herror ⊢
  rcases hswap with hnone | ⟨henough, hall⟩
  · obtain ⟨hsame, hresult⟩ := swapOutLoop_exhausted blocks [] hnone
    rw [hsame]
    refine ⟨fun handles hhandles => ?_, fun _ _ => h⟩
    rw [hhandles] at hresult
    have hempty : c.validPages blocks = [] := by simpa using hresult
    rw [hempty, grant_nil, Multiset.sub_zero]
    exact h
  · obtain ⟨handles, c', hout, hlen, hsize, hempty, hframe⟩ := swapOutLoop_ok blocks [] c henough
    rw [hout] at hok ⊢
    refine ⟨fun _ _ => ⟨hok handles rfl, hsize.trans h.size_eq, hlen.trans h.length_eq,
      h.present, fun p page hpage hp => ?_⟩, fun message hmessage => by simp at hmessage⟩
    simp only [refs_sub hheld, refs_grant] at hp ⊢
    by_cases hmem : p ∈ c.validPages blocks
    · exact Or.inr ⟨by rw [hall p hmem]; omega, hempty p hmem page hpage⟩
    · rw [count_eq_zero_of_not_mem hmem, Nat.sub_zero] at hp ⊢
      exact h.blank p page ((hframe p hmem).symm.trans hpage) hp

theorem swapInPage_isolated (hostIdx pageId : Int)
    (hfill : ∀ p ∈ c.validPages [pageId], 0 < refs held p ∧ p ∉ fresh) :
    Isolated bytes count fresh (swapInPage c hostIdx pageId) held := by
  have hbacked := swapInPage_backed h.backed hostIdx pageId
  unfold swapInPage at hbacked ⊢
  split
  · exact h
  · rename_i hneg
    simp only [if_neg hneg] at hbacked
    cases hi : c.pageIndex pageId with
    | none => simpa [hi] using h
    | some i =>
      obtain ⟨hheld, hmem⟩ := hfill i (mem_validPages.mpr ⟨pageId, mem_singleton_self _, hi⟩)
      cases hsrc : c.hostBlocks[hostIdx.toNat]? with
      | none => simpa [hi, hsrc] using h
      | some src =>
        simp only [hi, hsrc] at hbacked ⊢
        exact h.fill rfl rfl hbacked hheld hmem

theorem swapIn_isolated (hostHandles targetBlocks : List Int)
    (hfill : ∀ p ∈ c.validPages targetBlocks, 0 < refs held p ∧ p ∉ fresh) :
    Isolated bytes count fresh (swapIn c hostHandles targetBlocks).2 held := by
  unfold swapIn
  split
  · exact h
  · have hmoves : ∀ x ∈ hostHandles.zip targetBlocks, x.2 ∈ targetBlocks :=
      fun x hx => (of_mem_zip hx).2
    generalize hostHandles.zip targetBlocks = moves at hmoves
    induction moves generalizing c with
    | nil => exact h
    | cons x moves ih =>
      obtain ⟨hx, hrest⟩ := forall_mem_cons.mp hmoves
      refine ih (swapInPage_isolated h x.1 x.2 fun p hp => hfill p ?_) (fun p hp => hfill p ?_) hrest
      · obtain ⟨pageId, hmem, hindex⟩ := mem_validPages.mp hp
        obtain rfl := mem_singleton.mp hmem
        exact mem_validPages.mpr ⟨x.2, hx, hindex⟩
      · rwa [← validPages_congr (swapInPage_length c x.1 x.2)]

theorem write_isolated (pageId : Int) (values : List α)
    (hfill : ∀ p ∈ c.validPages [pageId], 0 < refs held p ∧ p ∉ fresh) :
    Isolated bytes count fresh (write c pageId values).2 held := by
  have hbacked := write_backed h.backed pageId values
  cases hi : c.pageIndex pageId with
  | none => simpa [write, hi] using h
  | some i =>
    obtain ⟨hheld, hmem⟩ := hfill i (mem_validPages.mpr ⟨pageId, mem_singleton_self _, hi⟩)
    simp only [write, hi] at hbacked ⊢
    exact h.fill (persistPage_pages ..) (persistPage_pageSizeBytes ..) hbacked hheld hmem

/-- Reading a page of `fresh` finds the zeros in place and does not go to its file. -/
theorem read_eq_zeros (hbytes : 4 ≤ bytes) (hp : c.pageIndex pageId = some p)
    (hheld : 0 < refs held p) (hmem : p ∈ fresh) :
    (read c pageId).1 = .ok (List.replicate (bytes / 4) 0) := by
  obtain ⟨page, hpage⟩ := getElem?_of_pageIndex hp
  have hdata := h.blank.data_eq hpage hmem hheld
  have hlen : bytes / 4 ≠ 0 := by omega
  simp [read, hp, hpage, hdata, hlen]

theorem read_isolated (hbytes : 4 ≤ bytes) (pageId : Int)
    (hheld : ∀ p ∈ c.validPages [pageId], 0 < refs held p) :
    Isolated bytes count fresh (read c pageId).2 held := by
  have hbacked := read_backed h.backed pageId
  cases hi : c.pageIndex pageId with
  | none => simpa [read, hi] using h
  | some i =>
    have hpos := hheld i (mem_validPages.mpr ⟨pageId, mem_singleton_self _, hi⟩)
    obtain ⟨page, hpage⟩ := getElem?_of_pageIndex hi
    simp only [read, hi, hpage] at hbacked ⊢
    refine h.modify rfl rfl hbacked (fun _ _ => rfl) fun page' hpage' hblank => Or.inl ?_
    rcases hblank with hzero | hmem
    · omega
    · have hlen : bytes / 4 ≠ 0 := by omega
      simp [h.blank.data_eq hpage hmem hpos, hlen]

end

end Calls

section Runs

variable [Zero α] {bytes count : Nat} {fresh : Set Nat} {s : System ω α}

def handedOut (e : List (Event ω)) : Set Nat :=
  {p | ∃ owner pages, .reserved owner pages ∈ e ∧ p ∈ pages}

@[simp] theorem handedOut_nil : handedOut ([] : List (Event ω)) = ∅ := by simp [handedOut]

variable {β : Type} {result : Except String β × PagedKVCache α} {held : β → Multiset (ω × Nat)}

theorem settle_isolated
    {events : β → List (Event ω)}
    (hok : ∀ value, result.1 = .ok value →
      Isolated bytes count (fresh ∪ handedOut (events value)) result.2 (held value))
    (herror : ∀ message, result.1 = .error message → Isolated bytes count fresh result.2 s.held) :
    Isolated bytes count (fresh ∪ handedOut (settle s result held events).2)
      (settle s result held events).1.cache (settle s result held events).1.held := by
  obtain ⟨message | value, cache⟩ := result
  · have hnone : handedOut ([.threw message] : List (Event ω)) = ∅ := by simp [handedOut]
    simpa [settle, hnone] using herror message rfl
  · exact hok value rfl

theorem settle_silent_isolated
    (hok : ∀ value, result.1 = .ok value → Isolated bytes count fresh result.2 (held value))
    (herror : ∀ message, result.1 = .error message → Isolated bytes count fresh result.2 s.held) :
    Isolated bytes count (fresh ∪ handedOut (settle s result held fun _ => []).2)
      (settle s result held fun _ => []).1.cache (settle s result held fun _ => []).1.held :=
  settle_isolated (fun value hvalue => by simpa using hok value hvalue) herror

variable [DecidableEq ω]

/-- A call of an owner that touches only what it holds, under the condition on swaps, keeps
the pages of `fresh` blank if it does not fill them, and adds the pages it hands out. -/
theorem callStep_isolated {call : Call ω α} {r : System ω α × List (Event ω)}
    (h : Isolated bytes count fresh s.cache s.held) (hbytes : 4 ≤ bytes) (hby : ByHolder s call)
    (hsettled : Settled s call) (hfills : ∀ p ∈ s.cache.validPages call.op.fills, p ∉ fresh)
    (hstep : callStep s call = some r) :
    Isolated bytes count (fresh ∪ handedOut r.2) r.1.cache r.1.held := by
  obtain ⟨caller, op⟩ := call
  obtain ⟨hd, hholder⟩ := hby
  obtain ⟨hu, hin⟩ := hsettled
  have hpos {p : Nat} (hp : (caller, p) ∈ s.held) : 0 < refs s.held p :=
    refs_pos_iff.mpr ⟨caller, hp⟩
  cases op with
  | reservePage owner =>
    obtain ⟨hok, herror⟩ := reservePage_isolated h owner
    obtain rfl := some.inj hstep
    refine settle_isolated (fun page hpage => ?_) herror
    simpa [handedOut] using hok page hpage
  | reserveBlocks owner n =>
    obtain ⟨hok, herror⟩ := reserveBlocks_isolated h owner n
    obtain rfl := some.inj hstep
    refine settle_isolated (fun pages hpages => ?_) herror
    simpa [handedOut] using hok pages hpages
  | acquireBlocks owner blocks =>
    obtain rfl := some.inj hstep
    rw [handedOut_nil, Set.union_empty]
    exact acquireBlocks_induction owner (fun _ _ _ _ => acquireBlock_isolated) blocks s.cache s.held
      h hu
  | releasePage owner pageId =>
    obtain rfl := some.inj hstep
    rw [handedOut_nil, Set.union_empty]
    exact releaseBlocks_induction owner (fun _ _ _ _ => releasePageLocked_isolated) [pageId] s.cache
      s.held h hd
  | releaseBlocks owner blocks =>
    obtain rfl := some.inj hstep
    rw [handedOut_nil, Set.union_empty]
    exact releaseBlocks_induction owner (fun _ _ _ _ => releasePageLocked_isolated) blocks s.cache
      s.held h hd
  | swapOut owner blocks =>
    obtain ⟨hok, herror⟩ := swapOut_isolated h hd hu
    obtain rfl := some.inj hstep
    exact settle_silent_isolated hok herror
  | swapIn hostHandles targetBlocks =>
    obtain rfl := some.inj hstep
    have hswap := swapIn_isolated h hostHandles targetBlocks fun p hp =>
      ⟨hpos (hin p hp), hfills p hp⟩
    exact settle_silent_isolated (fun _ _ => hswap) (fun _ _ => hswap)
  | write pageId values =>
    obtain rfl := some.inj hstep
    have hwrite := write_isolated h pageId values fun p hp => ⟨hpos (hholder p hp), hfills p hp⟩
    exact settle_silent_isolated (fun _ _ => hwrite) (fun _ _ => hwrite)
  | read pageId =>
    obtain rfl := some.inj hstep
    have hread := read_isolated h hbytes pageId fun p hp => hpos (hholder p hp)
    exact settle_silent_isolated (fun _ _ => hread) (fun _ _ => hread)
  | setOffloadPath path =>
    obtain ⟨cache, hcache, rfl⟩ := map_eq_some_iff.mp hstep
    rw [handedOut_nil, Set.union_empty]
    exact h.of_pages (setOffloadPath_keeps hcache).1 (setOffloadPath_keeps hcache).2
  | setEvictionPolicy policy =>
    obtain rfl := some.inj hstep
    rw [handedOut_nil, Set.union_empty]
    exact h.of_pages rfl rfl
  | workerTake =>
    obtain rfl := some.inj hstep
    rw [handedOut_nil, Set.union_empty]
    exact h.of_pages (workerTake_keeps _).1 (workerTake_keeps _).2
  | workerWrite task =>
    obtain rfl := some.inj hstep
    rw [handedOut_nil, Set.union_empty]
    exact h.of_pages (workerWrite_keeps _ _).1 (workerWrite_keeps _ _).2

/-- In every run of owners that touch only pages they hold, whose swaps and acquisitions
meet the condition, a page handed out by a reservation reads as zeros until somebody writes
to it or swaps contents into it. -/
theorem read_reserved_zeros (pages pageSizeBytes : Nat) (hsize : 4 ≤ pageSizeBytes)
    (policy : EvictionPolicy) (before between : List (Call ω α)) (reserve : Call ω α)
    (reader : ω) (p : Nat)
    (hcalls : Along callStep (fun s call => ByHolder s call ∧ Settled s call)
      ⟨.new pages pageSizeBytes policy, 0⟩
      (before ++ reserve :: between ++ [⟨reader, .read p⟩]))
    (s₀ s₁ s₂ : System ω α) (log₀ e log₁ : List (Event ω))
    (hbefore : LoggedRun.run callStep ⟨.new pages pageSizeBytes policy, 0⟩ before = some (s₀, log₀))
    (hreserve : callStep s₀ reserve = some (s₁, e)) (hp : p ∈ handedOut e)
    (hbetween : LoggedRun.run callStep s₁ between = some (s₂, log₁))
    (hunfilled : ∀ call ∈ between, (p : Int) ∉ call.op.fills) :
    (KVCache.read s₂.cache p).1 = .ok (List.replicate (pageSizeBytes / 4) 0) := by
  obtain ⟨halong, hread⟩ := along_append.mp hcalls
  obtain ⟨halong₀, halong₁⟩ := along_append.mp halong
  obtain ⟨⟨hby, hsettled⟩, hrest⟩ := halong₁ s₀ log₀ hbefore
  -- Nothing is asked of pages with references before the reservation.
  have hzero (s : System ω α) (call : Call ω α) (s' : System ω α) (e : List (Event ω))
      (h : Isolated pageSizeBytes pages ∅ s.cache s.held) (hpre : ByHolder s call ∧ Settled s call)
      (hstep : callStep s call = some (s', e)) :
      Isolated pageSizeBytes pages ∅ s'.cache s'.held :=
    (callStep_isolated h hsize hpre.1 hpre.2 (by simp) hstep).mono (Set.empty_subset _)
  have h₀ := halong₀.invariant hzero (new_isolated pages pageSizeBytes policy) hbefore
  have h₁ : Isolated pageSizeBytes pages {p} s₁.cache s₁.held :=
    (callStep_isolated h₀ hsize hby hsettled (by simp) hreserve).mono (by simpa using hp)
  -- From then on the page stays blank, as nobody fills it.
  have hkeep (s : System ω α) (call : Call ω α) (s' : System ω α) (e : List (Event ω))
      (h : Isolated pageSizeBytes pages {p} s.cache s.held)
      (hpre : (ByHolder s call ∧ Settled s call) ∧ (p : Int) ∉ call.op.fills)
      (hstep : callStep s call = some (s', e)) :
      Isolated pageSizeBytes pages {p} s'.cache s'.held := by
    refine (callStep_isolated h hsize hpre.1.1 hpre.1.2 (fun q hq hqp => hpre.2 ?_) hstep).mono
      Set.subset_union_left
    obtain ⟨pageId, hmem, hindex⟩ := mem_validPages.mp hq
    rw [← Set.mem_singleton_iff.mp hqp, ← eq_of_pageIndex hindex]
    exact hmem
  have h₂ := ((hrest s₁ e hreserve).and_forall hunfilled).invariant hkeep h₁ hbetween
  have hrange : p < s₂.cache.pages.length := h₂.length_eq ▸ h₂.present p rfl
  have hindex : s₂.cache.pageIndex p = some p := by simp [PagedKVCache.pageIndex, hrange]
  obtain ⟨⟨⟨-, hholder⟩, -⟩, -⟩ := hread s₂ (log₀ ++ (e ++ log₁))
    (run_append_eq_some.mpr ⟨s₀, log₀, _, hbefore,
      run_cons_eq_some.mpr ⟨s₁, e, log₁, hreserve, hbetween, rfl⟩, rfl⟩)
  have hheld := hholder p (mem_validPages.mpr ⟨p, mem_singleton_self _, hindex⟩)
  exact read_eq_zeros h₂ hsize hindex (refs_pos_iff.mpr ⟨reader, hheld⟩) rfl

end Runs

/-- Owner 0 writes to its page and releases it; owner 1 gets the same page and finds
zeros. -/
theorem read_reserved_zeros_after_release :
    (KVCache.read (((LoggedRun.run callStep (⟨.new 1 8 .lru, 0⟩ : System Nat Nat)
      [⟨0, .setOffloadPath "kv"⟩, ⟨0, .reservePage 0⟩, ⟨0, .write 0 [7, 7]⟩, ⟨0, .workerTake⟩,
        ⟨0, .workerWrite 0⟩, ⟨0, .releasePage 0 0⟩, ⟨1, .reservePage 1⟩]).map
          fun r => r.1.cache).getD (.new 0 0 .lru)) 0).1 = .ok [0, 0] := by
  refine read_reserved_zeros 1 8 (by decide) .lru
    [⟨0, .setOffloadPath "kv"⟩, ⟨0, .reservePage 0⟩, ⟨0, .write 0 [7, 7]⟩, ⟨0, .workerTake⟩,
      ⟨0, .workerWrite 0⟩, ⟨0, .releasePage 0 0⟩] [] ⟨1, .reservePage 1⟩ 1 0 ?_ _ _ _ _ _ _ rfl rfl
    ⟨1, [0], mem_cons_self, mem_cons_self⟩ rfl (by simp)
  refine .cons ⟨⟨trivial, trivial⟩, trivial, trivial⟩ rfl
    (.cons ⟨⟨trivial, trivial⟩, trivial, trivial⟩ rfl
    (.cons ⟨⟨trivial, by decide⟩, trivial, trivial⟩ rfl
    (.cons ⟨⟨trivial, trivial⟩, trivial, trivial⟩ rfl
    (.cons ⟨⟨trivial, trivial⟩, trivial, trivial⟩ rfl
    (.cons ⟨⟨?_, trivial⟩, trivial, trivial⟩ rfl
    (.cons ⟨⟨trivial, trivial⟩, trivial, trivial⟩ rfl
    (.cons ⟨⟨trivial, by decide⟩, trivial, trivial⟩ rfl trivial)))))))
  exact le_of_eq (by decide)

/-- The host pool has one block left when owner 0 swaps out its two pages: `SwapOut` throws
with page 0 already free. Owner 1 is handed page 0, owner 0 still holds it and writes to it,
and owner 1 reads what owner 0 wrote. -/
theorem failed_swapOut_leaks :
    ∃ s log, Along callStep ByHolder (⟨.new 2 8 .lru, 0⟩ : System Nat Nat)
        ([⟨0, .reserveBlocks 0 2⟩, ⟨0, .swapOut 0 [0, 1]⟩, ⟨0, .reserveBlocks 0 2⟩,
          ⟨0, .swapOut 0 [0]⟩, ⟨0, .reservePage 0⟩, ⟨0, .swapOut 0 [0, 1]⟩,
          ⟨1, .reservePage 1⟩, ⟨0, .write 0 [7, 7]⟩] ++ [⟨1, .read 0⟩]) ∧
      LoggedRun.run callStep (⟨.new 2 8 .lru, 0⟩ : System Nat Nat)
        [⟨0, .reserveBlocks 0 2⟩, ⟨0, .swapOut 0 [0, 1]⟩, ⟨0, .reserveBlocks 0 2⟩,
          ⟨0, .swapOut 0 [0]⟩, ⟨0, .reservePage 0⟩, ⟨0, .swapOut 0 [0, 1]⟩,
          ⟨1, .reservePage 1⟩, ⟨0, .write 0 [7, 7]⟩] = some (s, log) ∧
      log.getLast? = some (.reserved 1 [0]) ∧
      (KVCache.read s.cache 0).1 = .ok [7, 7] := by
  refine ⟨_, _, ?_, rfl, rfl, rfl⟩
  -- Whatever is held before the swaps is held by owner 0.
  have hswap {s : System Nat Nat} {blocks : List Int}
      (hgrant : grant 0 (s.cache.validPages blocks) ≤ s.held) (hsole : ∀ x ∈ s.held, x.1 = 0) :
      ByHolder s ⟨0, .swapOut 0 blocks⟩ := ⟨hgrant, fun p _ other hmem => hsole (other, p) hmem⟩
  refine .cons ⟨trivial, trivial⟩ rfl (.cons (hswap ?_ ?_) rfl (.cons ⟨trivial, trivial⟩ rfl
    (.cons (hswap ?_ ?_) rfl (.cons ⟨trivial, trivial⟩ rfl (.cons (hswap ?_ ?_) rfl
    (.cons ⟨trivial, trivial⟩ rfl (.cons ⟨trivial, by decide⟩ rfl
    (.cons ⟨trivial, by decide⟩ rfl trivial))))))))
  all_goals decide

end InferFlux.KVCache
