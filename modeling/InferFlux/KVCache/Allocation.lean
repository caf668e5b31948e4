import InferFlux.KVCache.PagedKVCache
import Mathlib.Algebra.GroupWithZero.Nat

/-!
# What the calls do to the pages

One lemma for each function of the cache. The search for a free page, under both
policies, finds one exactly when there is one and leaves the pages alone; the calls that
move contents keep the reference counts.
-/

namespace InferFlux.KVCache

open PagedKVCache List

variable {α : Type}

/-! ## Selecting a page -/

structure Selects (c : PagedKVCache α) (result : Option Nat × PagedKVCache α) : Prop where
  pages_eq : result.2.pages = c.pages
  hostBlocks_eq : result.2.hostBlocks = c.hostBlocks
  free : ∀ i, result.1 = some i → ∃ page, c.pages[i]? = some page ∧ page.inUse = false
  full : result.1 = none → ∀ page ∈ c.pages, page.inUse = true

variable {pages : List (KVPage α)} {i : Nat}

theorem firstFree_eq_some (h : firstFree pages = some i) :
    ∃ page, pages[i]? = some page ∧ page.inUse = false := by
  obtain ⟨hlt, hfree, -⟩ := findIdx?_eq_some_iff_getElem.mp h
  exact ⟨_, getElem?_eq_getElem hlt, by simpa using hfree⟩

theorem firstFree_selects (c : PagedKVCache α) : Selects c (firstFree c.pages, c) := by
  refine ⟨rfl, rfl, fun i hi => ?_, fun hnone page hpage => ?_⟩
  · exact firstFree_eq_some hi
  · have := findIdx?_eq_none_iff.mp hnone page hpage
    simpa using this

theorem clockScan_selects (rounds : Nat) (c : PagedKVCache α) : Selects c (clockScan rounds c) := by
  fun_induction clockScan rounds c with
  | case1 c => exact firstFree_selects c
  | case2 rounds c idx c' page ref href hpage huse ih
  | case4 rounds c idx c' page ref href hpage huse hset ih =>
    exact ⟨ih.pages_eq, ih.hostBlocks_eq, ih.free, ih.full⟩
  | case3 rounds c idx c' page ref href hpage huse hunset =>
    refine ⟨rfl, rfl, fun i hi => ?_, fun hnone => by simp at hnone⟩
    cases hi
    exact ⟨page, hpage, by simpa using huse⟩
  | case5 rounds c idx c' h ih => exact ⟨ih.pages_eq, ih.hostBlocks_eq, ih.free, ih.full⟩

variable {candidate : Option Nat} {oldest : UInt64}

/-- The scan returns the candidate it was given or a free page behind it. -/
theorem lruScan_eq_some {j : Nat} (h : lruScan pages i candidate oldest = some j) :
    candidate = some j ∨ ∃ k page, j = i + k ∧ pages[k]? = some page ∧ page.inUse = false := by
  fun_induction lruScan pages i candidate oldest with
  | case1 i candidate oldest => exact Or.inl h
  | case2 page pages i candidate oldest hfree ih =>
    refine Or.inr ?_
    rcases ih h with hi | ⟨k, page', rfl, hk, hpage'⟩
    · cases hi
      exact ⟨0, page, rfl, rfl, by simp_all⟩
    · exact ⟨k + 1, page', by omega, hk, hpage'⟩
  | case3 page pages i candidate oldest hskip ih =>
    refine (ih h).imp_right ?_
    rintro ⟨k, page', rfl, hk, hpage'⟩
    exact ⟨k + 1, page', by omega, hk, hpage'⟩

theorem lruScan_eq_none (h : lruScan pages i candidate oldest = none) :
    candidate = none ∧ ∀ page ∈ pages, page.lastUsed ≤ oldest → page.inUse = true := by
  fun_induction lruScan pages i candidate oldest with
  | case1 i candidate oldest => exact ⟨h, by simp⟩
  | case2 page pages i candidate oldest hfree ih => exact absurd (ih h).1 (by simp)
  | case3 page pages i candidate oldest hskip ih =>
    obtain ⟨hnone, hrest⟩ := ih h
    refine ⟨hnone, forall_mem_cons.mpr ⟨fun hle => ?_, hrest⟩⟩
    simpa [hle] using hskip

theorem selectEvictionCandidate_selects (c : PagedKVCache α) :
    Selects c (selectEvictionCandidate c) := by
  unfold selectEvictionCandidate
  split
  · rename_i hempty
    refine ⟨rfl, rfl, fun i hi => by simp at hi, fun _ page hpage => ?_⟩
    simp [isEmpty_iff.mp hempty] at hpage
  · split
    · exact clockScan_selects _ c
    · refine ⟨rfl, rfl, fun i hi => ?_, fun hnone page hpage => ?_⟩
      · rcases lruScan_eq_some hi with h | ⟨k, page, rfl, hk, hfree⟩
        · simp at h
        · exact ⟨page, by simpa using hk, hfree⟩
      · refine (lruScan_eq_none hnone).2 page hpage ?_
        rw [UInt64.le_iff_toNat_le]
        have := page.lastUsed.toNat_lt
        have hmax : (-1 : UInt64).toNat = 2 ^ 64 - 1 := by decide
        omega

theorem selectEvictionCandidate_pageSizeBytes (c : PagedKVCache α) :
    (selectEvictionCandidate c).2.pageSizeBytes = c.pageSizeBytes := by
  have hscan (rounds : Nat) (c : PagedKVCache α) :
      (clockScan rounds c).2.pageSizeBytes = c.pageSizeBytes := by
    fun_induction clockScan rounds c <;> first | rfl | assumption
  unfold selectEvictionCandidate
  split
  · rfl
  · split
    · exact hscan _ c
    · rfl

/-! ## Reservation -/

theorem acquirePageLocked_pages [Zero α] (c : PagedKVCache α) (candidate : Nat) :
    ∃ f : KVPage α → KVPage α, (acquirePageLocked c candidate).pages = c.pages.modify candidate f ∧
      ∀ page, (f page).inUse = true ∧ (f page).refCount = 1 :=
  ⟨_, rfl, fun _ => ⟨rfl, rfl⟩⟩

variable {p : Nat} {reserved : List Nat}

theorem markFree_getElem?_of_not_mem (hp : p ∉ reserved) :
    (markFree pages reserved)[p]? = pages[p]? := by
  unfold markFree
  induction reserved generalizing pages with
  | nil => rfl
  | cons id reserved ih =>
    simp only [mem_cons, not_or] at hp
    rw [foldl_cons, ih hp.2]
    simp [Ne.symm hp.1]

theorem markFree_length (pages : List (KVPage α)) (reserved : List Nat) :
    (markFree pages reserved).length = pages.length := by
  induction reserved generalizing pages with
  | nil => rfl
  | cons id reserved ih => exact (ih _).trans (length_modify ..)

variable {page : KVPage α}

theorem markFree_data (h : (markFree pages reserved)[p]? = some page) :
    ∃ page', pages[p]? = some page' ∧ page.data = page'.data := by
  induction reserved generalizing pages with
  | nil => exact ⟨page, h, rfl⟩
  | cons id reserved ih =>
    obtain ⟨page₁, hpage₁, hdata⟩ := ih h
    rw [getElem?_modify] at hpage₁
    obtain ⟨page₂, hpage₂, rfl⟩ := Option.map_eq_some_iff.mp hpage₁
    refine ⟨page₂, hpage₂, hdata.trans ?_⟩
    split_ifs <;> rfl

theorem markFree_isFree (hp : p ∈ reserved) (hpage : pages[p]? = some page) :
    ∃ page', (markFree pages reserved)[p]? = some page' ∧ page'.inUse = false := by
  induction reserved generalizing pages page with
  | nil => simp at hp
  | cons id reserved ih =>
    have hstep : markFree pages (id :: reserved) =
        markFree (pages.modify id fun page => { page with inUse := false }) reserved := rfl
    rw [hstep]
    by_cases hrest : p ∈ reserved
    · exact ih hrest (by rw [getElem?_modify, hpage]; rfl)
    · obtain rfl : p = id := by simpa [hrest] using hp
      rw [markFree_getElem?_of_not_mem hrest]
      simp [hpage]

/-- What survives every round of the reservation loop holds of the pages it returns, and of
the pages it gives back when it finds no more. -/
theorem reserveLoop_induction [Zero α] {P : PagedKVCache α → List Nat → Prop}
    (hround : ∀ c reserved i, (selectEvictionCandidate c).1 = some i → P c reserved →
      P (acquirePageLocked (selectEvictionCandidate c).2 i) (reserved ++ [i]))
    (n : Nat) (reserved : List Nat) (c : PagedKVCache α) (h : P c reserved) :
    (∀ pages, (reserveLoop n reserved c).1 = .ok pages → P (reserveLoop n reserved c).2 pages) ∧
    ∀ message, (reserveLoop n reserved c).1 = .error message → ∃ c' given, P c' given ∧
      (reserveLoop n reserved c).2.pages = markFree c'.pages given ∧
      (reserveLoop n reserved c).2.pageSizeBytes = c'.pageSizeBytes := by
  induction n generalizing reserved c with
  | zero =>
    refine ⟨fun pages hpages => ?_, fun message hmessage => by simp [reserveLoop] at hmessage⟩
    cases hpages
    exact h
  | succ n ih =>
    have hsel := selectEvictionCandidate_selects c
    have hsize := selectEvictionCandidate_pageSizeBytes c
    have hnext := hround c reserved ((selectEvictionCandidate c).1.getD 0)
    unfold reserveLoop
    rcases hc : selectEvictionCandidate c with ⟨_ | i, c'⟩ <;> rw [hc] at hsel hsize hnext
    · refine ⟨fun pages hpages => by simp at hpages, fun _ _ => ⟨c, reserved, h, ?_, hsize⟩⟩
      exact congrArg (markFree · reserved) hsel.pages_eq
    · exact ih (reserved ++ [i]) _ (hnext rfl h)

theorem countFree_modify (h : ∃ page, pages[i]? = some page ∧ page.inUse = false)
    {f : KVPage α → KVPage α} (hf : ∀ page, (f page).inUse = true) :
    countFree (pages.modify i f) + 1 = countFree pages := by
  obtain ⟨page, hpage, hfree⟩ := h
  obtain ⟨hlt, rfl⟩ := List.getElem?_eq_some_iff.mp hpage
  have hpos : 0 < countFree pages :=
    countP_pos_iff.mpr ⟨_, getElem_mem hlt, by simp [hfree]⟩
  rw [modify_eq_set_getElem?, getElem?_eq_getElem hlt]
  simp only [countFree, Option.map_eq_map, Option.map_some, Option.getD_some] at hpos ⊢
  rw [countP_set hlt]
  simp only [hfree, hf, Bool.not_false, if_true]
  simp
  omega

def PagedKVCache.IsFree (c : PagedKVCache α) (p : Nat) : Prop :=
  ∃ page, c.pages[p]? = some page ∧ page.inUse = false

/-- Between the two states the pages in the list, all free before, have been handed out. -/
structure HandsOut (c c' : PagedKVCache α) (reserved : List Nat) : Prop where
  nodup : reserved.Nodup
  free : ∀ p ∈ reserved, c.IsFree p
  taken : ∀ p ∈ reserved, ∃ page, c'.pages[p]? = some page ∧ page.inUse = true ∧ page.refCount = 1
  others : ∀ p ∉ reserved, c'.pages[p]? = c.pages[p]?

section ReserveBlocks

variable [Zero α] {c c' : PagedKVCache α}

/-- The loop returns as many pages as it was asked for, or there were not enough. -/
theorem reserveLoop_counts (n : Nat) (reserved : List Nat) (c : PagedKVCache α) :
    (∀ pages, (reserveLoop n reserved c).1 = .ok pages →
      pages.length = reserved.length + n ∧ n ≤ countFree c.pages) ∧
    ∀ message, (reserveLoop n reserved c).1 = .error message → countFree c.pages < n := by
  induction n generalizing reserved c with
  | zero => simp [reserveLoop]
  | succ n ih =>
    have hsel := selectEvictionCandidate_selects c
    unfold reserveLoop
    rcases hc : selectEvictionCandidate c with ⟨_ | i, c'⟩ <;> rw [hc] at hsel
    · have hnone : countFree c.pages = 0 := by
        simpa [countFree, countP_eq_zero] using hsel.full rfl
      refine ⟨fun pages hpages => by simp at hpages, fun _ _ => by omega⟩
    · obtain ⟨f, hf, huse⟩ := acquirePageLocked_pages c' i
      have hcount := countFree_modify (hsel.free i rfl) fun page => (huse page).1
      obtain ⟨hok, herror⟩ := ih (reserved ++ [i]) (acquirePageLocked c' i)
      rw [hf, show c'.pages = c.pages from hsel.pages_eq] at hok herror
      refine ⟨fun pages hpages => ?_, fun message hmessage => ?_⟩
      · obtain ⟨hlength, hle⟩ := hok pages hpages
        simp only [length_append, length_singleton] at hlength
        omega
      · have := herror message hmessage
        omega

theorem HandsOut.acquire {reserved : List Nat} (h : HandsOut c c' reserved)
    (hi : (selectEvictionCandidate c').1 = some i) :
    HandsOut c (acquirePageLocked (selectEvictionCandidate c').2 i) (reserved ++ [i]) := by
  have hsel := selectEvictionCandidate_selects c'
  obtain ⟨page, hpage, hfree⟩ := hsel.free i hi
  obtain ⟨f, hf, htaken⟩ := acquirePageLocked_pages (selectEvictionCandidate c').2 i
  rw [hsel.pages_eq] at hf
  have hnew : i ∉ reserved := by
    intro hmem
    obtain ⟨page', hpage', huse, -⟩ := h.taken i hmem
    obtain rfl := Option.some.inj (hpage.symm.trans hpage')
    simp [hfree] at huse
  refine ⟨?_, ?_, ?_, ?_⟩
  · rw [nodup_append_comm]
    exact nodup_cons.mpr ⟨hnew, h.nodup⟩
  · refine forall_mem_append.mpr ⟨h.free, ?_⟩
    simpa using ⟨page, (h.others i hnew).symm.trans hpage, hfree⟩
  · rw [hf]
    refine forall_mem_append.mpr ⟨fun p hp => ?_, ?_⟩
    · have hne : i ≠ p := fun heq => hnew (heq ▸ hp)
      simpa [hne] using h.taken p hp
    · simpa [hpage] using htaken page
  · intro p hp
    simp only [mem_append, mem_singleton, not_or] at hp
    rw [hf, ← h.others p hp.1]
    simp [Ne.symm hp.2]

/-- Under both policies `ReserveBlocks` succeeds exactly if there are enough free pages. It hands
out distinct free pages and touches no other one, or leaves the free pages as they were. -/
theorem reserveBlocks_iff_free (c : PagedKVCache α) (n : Nat) :
    ((∃ pages, (reserveBlocks c n).1 = .ok pages) ↔ n ≤ numFreeBlocks c) ∧
    (∀ pages, (reserveBlocks c n).1 = .ok pages →
      pages.length = n ∧ HandsOut c (reserveBlocks c n).2 pages) ∧
    ∀ message, (reserveBlocks c n).1 = .error message →
      ∀ p, (reserveBlocks c n).2.IsFree p ↔ c.IsFree p := by
  obtain ⟨hok, herror⟩ := reserveLoop_counts n [] c
  obtain ⟨hout, hback⟩ := reserveLoop_induction (P := HandsOut c)
    (fun _ _ _ hi h => h.acquire hi) n [] c ⟨nodup_nil, by simp, by simp, fun _ _ => rfl⟩
  refine ⟨⟨fun ⟨pages, hpages⟩ => (hok pages hpages).2, fun hle => ?_⟩, fun pages hpages => ?_,
    fun message hmessage p => ?_⟩
  · cases hresult : (reserveBlocks c n).1 with
    | ok pages => exact ⟨pages, rfl⟩
    | error message => exact absurd (herror message hresult) (Nat.not_lt.mpr hle)
  · exact ⟨by simpa using (hok pages hpages).1, hout pages hpages⟩
  · obtain ⟨c', given, hgiven, hpages, -⟩ := hback message hmessage
    have hafter : (reserveBlocks c n).2.pages = markFree c'.pages given := hpages
    unfold PagedKVCache.IsFree
    rw [hafter]
    by_cases hp : p ∈ given
    · obtain ⟨page, hpage, -⟩ := hgiven.taken p hp
      exact ⟨fun _ => hgiven.free p hp, fun _ => markFree_isFree hp hpage⟩
    · rw [markFree_getElem?_of_not_mem hp, hgiven.others p hp]

end ReserveBlocks

/-- Two of three pages are free: a request for both gets them, one for three gets nothing. -/
theorem reserveBlocks_two_of_three :
    let c : PagedKVCache Nat := (reserveBlocks (.new 3 8 .clock) 1).2
    ∃ pages, (reserveBlocks c 2).1 = .ok pages ∧ HandsOut c (reserveBlocks c 2).2 pages ∧
      ∀ p, (reserveBlocks c 3).2.IsFree p ↔ c.IsFree p := by
  intro c
  have hfree : numFreeBlocks c = 2 := rfl
  obtain ⟨hiff, hout, -⟩ := reserveBlocks_iff_free c 2
  obtain ⟨pages, hpages⟩ := hiff.mpr (Nat.le_of_eq hfree.symm)
  obtain ⟨hiff', -, hback⟩ := reserveBlocks_iff_free c 3
  cases hfull : (reserveBlocks c 3).1 with
  | ok pages' =>
    have := hiff'.mp ⟨pages', hfull⟩
    omega
  | error message => exact ⟨pages, hpages, (hout pages hpages).2, hback message hfull⟩

/-! ## References -/

def PagedKVCache.validPages (c : PagedKVCache α) (blocks : List Int) : List Nat :=
  blocks.filterMap c.pageIndex

variable {c : PagedKVCache α} {c' : PagedKVCache α}

theorem pageIndex_congr (h : c'.pages.length = c.pages.length) : c'.pageIndex = c.pageIndex := by
  funext pageId
  simp [pageIndex, h]

theorem validPages_congr (h : c'.pages.length = c.pages.length) : c'.validPages = c.validPages := by
  funext blocks
  rw [validPages, pageIndex_congr h, validPages]

variable {pageId : Int}

theorem validPages_cons_of_none (h : c.pageIndex pageId = none) (blocks : List Int) :
    c.validPages (pageId :: blocks) = c.validPages blocks := by
  simp [validPages, h]

theorem validPages_cons_of_some (h : c.pageIndex pageId = some i) (blocks : List Int) :
    c.validPages (pageId :: blocks) = i :: c.validPages blocks := by
  simp [validPages, h]

theorem mem_validPages {blocks : List Int} :
    p ∈ c.validPages blocks ↔ ∃ pageId ∈ blocks, c.pageIndex pageId = some p :=
  mem_filterMap

theorem eq_of_pageIndex (h : c.pageIndex pageId = some i) : pageId = i := by
  unfold pageIndex at h
  split_ifs at h with hlt
  cases h
  omega

theorem getElem?_of_pageIndex (h : c.pageIndex pageId = some i) :
    ∃ page, c.pages[i]? = some page := by
  unfold pageIndex at h
  split_ifs at h with hlt
  cases h
  exact ⟨_, getElem?_eq_getElem hlt.2⟩

@[simp] theorem persistPage_pages (c : PagedKVCache α) (i : Nat) (values : List α) :
    (persistPage c i values).pages = c.pages := by
  unfold persistPage
  split_ifs <;> rfl

@[simp] theorem persistPage_pageSizeBytes (c : PagedKVCache α) (i : Nat) (values : List α) :
    (persistPage c i values).pageSizeBytes = c.pageSizeBytes := by
  unfold persistPage
  split_ifs <;> rfl

theorem releasePageLocked_pageSizeBytes (c : PagedKVCache α) (pageId : Int) :
    (releasePageLocked c pageId).pageSizeBytes = c.pageSizeBytes := by
  unfold releasePageLocked
  split
  · rfl
  · split
    · rfl
    · dsimp only
      split_ifs <;> simp

/-- Dropping a reference lowers the counter, and frees and clears the page when none is
left. -/
theorem releasePageLocked_pages (hi : c.pageIndex pageId = some i)
    (hpage : c.pages[i]? = some page) :
    ∃ f : KVPage α → KVPage α, (releasePageLocked c pageId).pages = c.pages.modify i f ∧
      (f page).refCount = page.refCount - 1 ∧
      (f page).inUse = (page.inUse && decide (1 < page.refCount)) ∧
      (f page).data = if 1 < page.refCount then page.data else [] := by
  unfold releasePageLocked
  simp only [hi, hpage]
  by_cases hmore : 1 < page.refCount
  · have hpos : page.refCount - 1 > 0 := by omega
    rw [if_pos hpos]
    exact ⟨_, rfl, rfl, by simp [hmore], by simp [hmore]⟩
  · have hlast : ¬ page.refCount - 1 > 0 := by omega
    refine ⟨fun page => { page with
      refCount := page.refCount - 1, inUse := false, data := [], dirty := false }, ?_, rfl,
      by simp [hmore], by simp [hmore]⟩
    split_ifs <;> simp [modify_modify_eq, Function.comp_def]

/-! ## Swapping -/

theorem swapInPage_length (c : PagedKVCache α) (hostIdx pageId : Int) :
    (swapInPage c hostIdx pageId).pages.length = c.pages.length := by
  unfold swapInPage
  split
  · rfl
  · split <;> simp

theorem firstFree_eq_none : firstFree pages = none ↔ countFree pages = 0 := by
  simp [firstFree, countFree, countP_eq_zero]

/-- With a host block for each page `SwapOut` succeeds, empties its pages and touches no
other one. -/
theorem swapOutLoop_ok (blocks : List Int) (hostHandles : List Nat) (c : PagedKVCache α)
    (h : (c.validPages blocks).length ≤ numAvailableHostBlocks c) :
    ∃ handles c', swapOutLoop blocks hostHandles c = (.ok handles, c') ∧
      c'.pages.length = c.pages.length ∧ c'.pageSizeBytes = c.pageSizeBytes ∧
      (∀ p ∈ c.validPages blocks, ∀ page, c'.pages[p]? = some page → page.data = []) ∧
      ∀ p, p ∉ c.validPages blocks → c'.pages[p]? = c.pages[p]? := by
  induction blocks generalizing hostHandles c with
  | nil => exact ⟨hostHandles, c, rfl, rfl, rfl, by simp [validPages], fun _ _ => rfl⟩
  | cons pageId blocks ih =>
    unfold swapOutLoop
    cases hi : c.pageIndex pageId with
    | none =>
      rw [validPages_cons_of_none hi] at h ⊢
      exact ih hostHandles c h
    | some i =>
      rw [validPages_cons_of_some hi] at h ⊢
      obtain ⟨page, hpage⟩ := getElem?_of_pageIndex hi
      have hsome : firstFree c.hostBlocks ≠ none := by
        intro hnone
        rw [firstFree_eq_none] at hnone
        simp only [numAvailableHostBlocks, hnone, length_cons] at h
        omega
      obtain ⟨hostIdx, hhost⟩ := Option.ne_none_iff_exists'.mp hsome
      have hfree : numAvailableHostBlocks (swapOutPage c i hostIdx page) + 1 =
          numAvailableHostBlocks c := countFree_modify (firstFree_eq_some hhost) fun _ => rfl
      have hlen : (swapOutPage c i hostIdx page).pages.length = c.pages.length := by
        simp [swapOutPage]
      obtain ⟨handles, c', heq, hlen', hsize, hempty, hframe⟩ :=
        ih (hostHandles ++ [hostIdx]) (swapOutPage c i hostIdx page) (by
          rw [validPages_congr hlen]
          simp only [length_cons] at h
          omega)
      rw [validPages_congr hlen] at hempty hframe
      simp only [hpage, hhost]
      refine ⟨handles, c', heq, hlen'.trans hlen, hsize, fun p hp page' hpage' => ?_, fun p hp => ?_⟩
      · by_cases hrest : p ∈ c.validPages blocks
        · exact hempty p hrest page' hpage'
        · obtain rfl : p = i := by simpa [hrest] using hp
          rw [hframe p hrest] at hpage'
          simp only [swapOutPage, getElem?_modify_eq, hpage, Option.map_eq_map,
            Option.map_some, Option.some.injEq] at hpage'
          exact hpage' ▸ rfl
      · simp only [mem_cons, not_or] at hp
        rw [hframe p hp.2]
        simp [swapOutPage, Ne.symm hp.1]

/-- Without any free host block `SwapOut` changes nothing and throws at the first page. -/
theorem swapOutLoop_exhausted (blocks : List Int) (hostHandles : List Nat)
    (h : numAvailableHostBlocks c = 0) :
    (swapOutLoop blocks hostHandles c).2 = c ∧
      (c.validPages blocks = [] ∨ ∃ message, (swapOutLoop blocks hostHandles c).1 = .error message) := by
  induction blocks generalizing hostHandles with
  | nil => exact ⟨rfl, Or.inl rfl⟩
  | cons pageId blocks ih =>
    unfold swapOutLoop
    cases hi : c.pageIndex pageId with
    | none =>
      rw [validPages_cons_of_none hi]
      exact ih hostHandles
    | some i =>
      have hnone := firstFree_eq_none.mpr h
      simp [hnone]

end InferFlux.KVCache
