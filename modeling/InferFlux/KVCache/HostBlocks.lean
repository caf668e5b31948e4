import InferFlux.KVCache.Ownership

/-!
# What the host blocks hold

`SwapOut` moves the contents of pages to host blocks and `SwapIn` moves them back. A host block
that is in use keeps its contents through every call but a `SwapIn` that names it, so contents
come back as they went, whatever happens to the pages in between.
-/

namespace InferFlux.KVCache

open RefCounting LoggedRun KVCache PagedKVCache List

variable {ω α : Type}

def PagedKVCache.dataAt (c : PagedKVCache α) (p : Nat) : List α :=
  (c.pages[p]?.map KVPage.data).getD []

def PagedKVCache.contents (c : PagedKVCache α) (blocks : List Int) : List (List α) :=
  (c.validPages blocks).map c.dataAt

def Stored (c : PagedKVCache α) (h : Nat) (data : List α) : Prop :=
  ∃ block, c.hostBlocks[h]? = some block ∧ block.inUse = true ∧ block.data = data

/-- Those of the given host blocks that are in use stay as they are. -/
def Keeps (handles : List Nat) (c c' : PagedKVCache α) : Prop :=
  ∀ h ∈ handles, ∀ block, c.hostBlocks[h]? = some block → block.inUse = true →
    c'.hostBlocks[h]? = some block

variable {c' : PagedKVCache α}

theorem Keeps.of_eq {handles : List Nat} {c : PagedKVCache α} (heq : c'.hostBlocks = c.hostBlocks) :
    Keeps handles c c' := by
  intro h _ block hblock _
  rw [heq, hblock]

theorem Keeps.stored {c : PagedKVCache α} {handles : List Nat} {contents : List (List α)}
    (hkeeps : Keeps handles c c') (hstored : List.Forall₂ (Stored c) handles contents) :
    List.Forall₂ (Stored c') handles contents := by
  induction hstored with
  | nil => exact .nil
  | cons hfirst hrest ih =>
    obtain ⟨hkeep, hkeeps⟩ := forall_mem_cons.mp hkeeps
    obtain ⟨block, hblock, huse, hdata⟩ := hfirst
    exact .cons ⟨block, hkeep block hblock huse, huse, hdata⟩ (ih hkeeps)

/-! ## Moving out -/

section SwapOut

variable {c : PagedKVCache α} {i hostIdx h : Nat} {page : KVPage α}

theorem swapOutPage_hostBlocks_of_ne (hne : h ≠ hostIdx) :
    (swapOutPage c i hostIdx page).hostBlocks[h]? = c.hostBlocks[h]? := by
  simp [swapOutPage, Ne.symm hne]

theorem swapOutPage_stored (hfree : firstFree c.hostBlocks = some hostIdx) :
    Stored (swapOutPage c i hostIdx page) hostIdx page.data := by
  obtain ⟨hlt, -⟩ := findIdx?_eq_some_iff_getElem.mp hfree
  refine ⟨{ c.hostBlocks[hostIdx] with data := page.data, inUse := true, lastUsed := c.usageCounter },
    ?_, rfl, rfl⟩
  simp [swapOutPage, getElem?_eq_getElem hlt]

theorem inUse_of_firstFree {pages : List (KVPage α)} (hfree : firstFree pages = some i)
    (hpage : pages[i]? = some page) : page.inUse = false := by
  obtain ⟨hlt, huse, -⟩ := findIdx?_eq_some_iff_getElem.mp hfree
  obtain rfl : pages[i] = page := by simpa [getElem?_eq_getElem hlt] using hpage
  simpa using huse

variable {blocks : List Int}

theorem swapOutLoop_keeps (hostHandles : List Nat) {block : KVPage α}
    (hblock : c.hostBlocks[h]? = some block) (huse : block.inUse = true) :
    (swapOutLoop blocks hostHandles c).2.hostBlocks[h]? = some block := by
  induction blocks generalizing hostHandles c with
  | nil => exact hblock
  | cons pageId blocks ih =>
    unfold swapOutLoop
    split
    · exact ih _ hblock
    next i hi =>
      split
      next page hostIdx hpage hfree =>
        refine ih _ ?_
        rw [swapOutPage_hostBlocks_of_ne, hblock]
        rintro rfl
        rw [inUse_of_firstFree hfree hblock] at huse
        cases huse
      · exact hblock

variable {hostHandles : List Nat}

/-- A swap that succeeds moves the contents of its pages, in order, to host blocks that were free,
and touches no other host block. -/
theorem swapOutLoop_stored {handles : List Nat}
    (hrun : swapOutLoop blocks hostHandles c = (.ok handles, c'))
    (hnodup : (c.validPages blocks).Nodup) :
    ∃ taken, handles = hostHandles ++ taken ∧ taken.Nodup ∧
      List.Forall₂ (Stored c') taken (c.contents blocks) ∧
      ∀ h ∈ taken, ∃ block, c.hostBlocks[h]? = some block ∧ block.inUse = false := by
  unfold contents
  induction blocks generalizing hostHandles c with
  | nil =>
    obtain ⟨rfl, rfl⟩ : hostHandles = handles ∧ c = c' := by simpa [swapOutLoop] using hrun
    exact ⟨[], by simp, nodup_nil, .nil, by simp⟩
  | cons pageId blocks ih =>
    unfold swapOutLoop at hrun
    cases hi : c.pageIndex pageId with
    | none =>
      rw [validPages_cons_of_none hi] at hnodup ⊢
      simp only [hi] at hrun
      exact ih hrun hnodup
    | some i =>
      rw [validPages_cons_of_some hi] at hnodup ⊢
      obtain ⟨hnot, hnodup⟩ := nodup_cons.mp hnodup
      obtain ⟨page, hpage⟩ := getElem?_of_pageIndex hi
      cases hfree : firstFree c.hostBlocks with
      | none => simp [hi, hfree] at hrun
      | some hostIdx =>
        simp only [hi, hpage, hfree] at hrun
        have hlen : (swapOutPage c i hostIdx page).pages.length = c.pages.length := by
          simp [swapOutPage]
        obtain ⟨taken, rfl, htaken, hmoved, hwasfree⟩ :=
          ih hrun (by rwa [validPages_congr hlen])
        rw [validPages_congr hlen] at hmoved
        obtain ⟨block, hblock, huse, hdata⟩ : Stored (swapOutPage c i hostIdx page) hostIdx
          page.data := swapOutPage_stored hfree
        have hnew : hostIdx ∉ taken := by
          intro hmem
          obtain ⟨block', hblock', hunused⟩ := hwasfree hostIdx hmem
          rw [hblock, Option.some.injEq] at hblock'
          rw [← hblock', huse] at hunused
          cases hunused
        have hkept : Stored c' hostIdx page.data := by
          have hkeep : (swapOutLoop blocks (hostHandles ++ [hostIdx])
              (swapOutPage c i hostIdx page)).2.hostBlocks[hostIdx]? = some block :=
            swapOutLoop_keeps _ hblock huse
          rw [hrun] at hkeep
          exact ⟨block, hkeep, huse, hdata⟩
        -- the pages after `i` are as they were, for none of them is `i` again
        have hsame : (c.validPages blocks).map (swapOutPage c i hostIdx page).dataAt =
            (c.validPages blocks).map c.dataAt := by
          refine map_congr_left fun p hp => ?_
          have hne : i ≠ p := fun heq => hnot (heq ▸ hp)
          simp [dataAt, swapOutPage, hne]
        have hhead : c.dataAt i = page.data := by simp [dataAt, hpage]
        rw [hsame] at hmoved
        rw [map_cons, hhead]
        refine ⟨hostIdx :: taken, by simp, nodup_cons.mpr ⟨hnew, htaken⟩, .cons hkept hmoved, ?_⟩
        rintro h (_ | ⟨_, hmem⟩)
        · obtain ⟨hlt, -⟩ := findIdx?_eq_some_iff_getElem.mp hfree
          have hget := getElem?_eq_getElem hlt
          exact ⟨_, hget, inUse_of_firstFree hfree hget⟩
        · have hne : h ≠ hostIdx := by
            rintro rfl
            exact hnew hmem
          obtain ⟨block', hblock', hunused⟩ := hwasfree h hmem
          rw [swapOutPage_hostBlocks_of_ne hne] at hblock'
          exact ⟨block', hblock', hunused⟩

/-- A swap succeeds exactly if there is a host block for each page. -/
theorem swapOutLoop_ok_iff :
    (∃ handles, (swapOutLoop blocks hostHandles c).1 = .ok handles) ↔
      (c.validPages blocks).length ≤ numAvailableHostBlocks c := by
  refine ⟨fun hok => ?_, fun hle => ?_⟩
  · induction blocks generalizing hostHandles c with
    | nil => exact Nat.zero_le _
    | cons pageId blocks ih =>
      obtain ⟨handles, hok⟩ := hok
      unfold swapOutLoop at hok
      cases hi : c.pageIndex pageId with
      | none =>
        rw [validPages_cons_of_none hi]
        simp only [hi] at hok
        exact ih ⟨handles, hok⟩
      | some i =>
        obtain ⟨page, hpage⟩ := getElem?_of_pageIndex hi
        cases hfree : firstFree c.hostBlocks with
        | none => simp [hi, hfree] at hok
        | some hostIdx =>
          simp only [hi, hpage, hfree] at hok
          have hleft := ih ⟨handles, hok⟩
          have hone : numAvailableHostBlocks (swapOutPage c i hostIdx page) + 1 =
              numAvailableHostBlocks c := countFree_modify (firstFree_eq_some hfree) fun _ => rfl
          rw [validPages_congr (by simp [swapOutPage] :
            (swapOutPage c i hostIdx page).pages.length = c.pages.length)] at hleft
          rw [validPages_cons_of_some hi, length_cons]
          omega
  · obtain ⟨handles, c', hrun, -⟩ := swapOutLoop_ok blocks hostHandles c hle
    exact ⟨handles, by rw [hrun]⟩

/-- With a free host block the first page is moved, whether or not the swap succeeds. -/
theorem swapOutLoop_moves (hostHandles : List Nat) (hfree : 0 < numAvailableHostBlocks c)
    (hpages : c.validPages blocks ≠ []) :
    (swapOutLoop blocks hostHandles c).2.hostBlocks ≠ c.hostBlocks := by
  induction blocks generalizing hostHandles with
  | nil => exact absurd rfl hpages
  | cons pageId blocks ih =>
    unfold swapOutLoop
    cases hi : c.pageIndex pageId with
    | none =>
      rw [validPages_cons_of_none hi] at hpages
      exact ih hostHandles hpages
    | some i =>
      obtain ⟨page, hpage⟩ := getElem?_of_pageIndex hi
      have hsome : firstFree c.hostBlocks ≠ none := by
        rw [Ne, firstFree_eq_none]
        exact Nat.pos_iff_ne_zero.mp hfree
      obtain ⟨hostIdx, hhost⟩ := Option.ne_none_iff_exists'.mp hsome
      obtain ⟨block, hblock, huse, -⟩ : Stored (swapOutPage c i hostIdx page) hostIdx page.data :=
        swapOutPage_stored hhost
      have hkeep : (swapOutLoop blocks (hostHandles ++ [hostIdx])
          (swapOutPage c i hostIdx page)).2.hostBlocks[hostIdx]? = some block :=
        swapOutLoop_keeps _ hblock huse
      simp only [hpage, hhost]
      intro hsame
      rw [hsame] at hkeep
      rw [inUse_of_firstFree hhost hkeep] at huse
      cases huse

end SwapOut

/-! ## Moving back -/

section SwapIn

variable {c : PagedKVCache α} {hostIdx pageId : Int} {h p : Nat}

theorem swapInPage_hostBlocks_of_ne (hne : hostIdx ≠ h) :
    (swapInPage c hostIdx pageId).hostBlocks[h]? = c.hostBlocks[h]? := by
  unfold swapInPage
  split
  · rfl
  next hpos =>
    split
    · have hne' : hostIdx.toNat ≠ h := by omega
      simp [hne']
    · rfl

theorem swapInPage_pages_of_ne (hne : pageId ≠ p) :
    (swapInPage c hostIdx pageId).pages[p]? = c.pages[p]? := by
  unfold swapInPage
  split
  · rfl
  · split
    next src i hsrc hi =>
      have hne' : i ≠ p := by
        have := eq_of_pageIndex hi
        omega
      simp [hne']
    · rfl

def swapInPages (c : PagedKVCache α) (moves : List (Int × Int)) : PagedKVCache α :=
  moves.foldl (fun c move => swapInPage c move.1 move.2) c

variable {moves : List (Int × Int)}

theorem swapInPages_hostBlocks (hnot : (h : Int) ∉ moves.map Prod.fst) :
    (swapInPages c moves).hostBlocks[h]? = c.hostBlocks[h]? := by
  induction moves generalizing c with
  | nil => rfl
  | cons move moves ih =>
    simp only [map_cons, mem_cons, not_or] at hnot
    exact (ih hnot.2).trans (swapInPage_hostBlocks_of_ne (Ne.symm hnot.1))

theorem swapInPages_pages (hnot : (p : Int) ∉ moves.map Prod.snd) :
    (swapInPages c moves).pages[p]? = c.pages[p]? := by
  induction moves generalizing c with
  | nil => rfl
  | cons move moves ih =>
    simp only [map_cons, mem_cons, not_or] at hnot
    exact (ih hnot.2).trans (swapInPage_pages_of_ne (Ne.symm hnot.1))

theorem swapInPage_restores {data : List α} (hstored : Stored c h data) (hp : p < c.pages.length) :
    (swapInPage c h p).dataAt p = data ∧
      ∃ block, (swapInPage c h p).hostBlocks[h]? = some block ∧ block.inUse = false := by
  obtain ⟨block, hblock, -, rfl⟩ := hstored
  have hindex : c.pageIndex p = some p := by simp [pageIndex, hp]
  have hpos : ¬ (h : Int) < 0 := by omega
  have hblock' : c.hostBlocks[(h : Int).toNat]? = some block := by simpa using hblock
  unfold swapInPage
  simp only [if_neg hpos, hblock', hindex]
  refine ⟨?_, { block with inUse := false, data := [] }, ?_, rfl⟩
  · simp [dataAt, getElem?_eq_getElem hp]
  · simp [hblock]

theorem swapInPages_length (c : PagedKVCache α) (moves : List (Int × Int)) :
    (swapInPages c moves).pages.length = c.pages.length := by
  induction moves generalizing c with
  | nil => rfl
  | cons move moves ih => exact (ih _).trans (swapInPage_length c move.1 move.2)

def movesIn (handles targets : List Nat) : List (Int × Int) :=
  (handles.map Int.ofNat).zip (targets.map Int.ofNat)

variable {targets : List Nat} {handles : List Nat}

theorem notMem_movesIn_fst (hnot : h ∉ handles) :
    (h : Int) ∉ (movesIn handles targets).map Prod.fst := by
  intro hmem
  obtain ⟨⟨_, p⟩, hmove, rfl⟩ := mem_map.mp hmem
  obtain ⟨h', hh', heq⟩ := mem_map.mp (of_mem_zip hmove).1
  exact hnot (Int.ofNat.inj heq ▸ hh')

theorem notMem_movesIn_snd (hnot : p ∉ targets) :
    (p : Int) ∉ (movesIn handles targets).map Prod.snd := by
  intro hmem
  obtain ⟨⟨h, _⟩, hmove, rfl⟩ := mem_map.mp hmem
  obtain ⟨p', hp', heq⟩ := mem_map.mp (of_mem_zip hmove).2
  exact hnot (Int.ofNat.inj heq ▸ hp')

/-- What was stored comes back to the target pages, in order, and the host blocks are free. -/
theorem swapInPages_restores {contents : List (List α)}
    (hstored : List.Forall₂ (Stored c) handles contents) (hlen : targets.length = handles.length)
    (hrange : ∀ p ∈ targets, p < c.pages.length) (hhandles : handles.Nodup)
    (htargets : targets.Nodup) :
    targets.map (swapInPages c (movesIn handles targets)).dataAt = contents ∧
      ∀ h ∈ handles, ∃ block,
        (swapInPages c (movesIn handles targets)).hostBlocks[h]? = some block ∧
          block.inUse = false := by
  induction handles generalizing c targets contents with
  | nil =>
    obtain rfl := eq_nil_of_length_eq_zero hlen
    cases hstored
    exact ⟨rfl, by simp⟩
  | cons h handles ih =>
    obtain ⟨p, targets, rfl⟩ := exists_cons_of_length_eq_add_one hlen
    obtain ⟨hnewHandle, hhandles⟩ := nodup_cons.mp hhandles
    obtain ⟨hnewTarget, htargets⟩ := nodup_cons.mp htargets
    rw [forall_mem_cons] at hrange
    cases hstored with
    | @cons _ data _ rest hfirst hrest =>
      obtain ⟨hdata, block, hblock, hfree⟩ := swapInPage_restores hfirst hrange.1
      have hkeeps : Keeps handles c (swapInPage c h p) := by
        intro h' hh' block' hblock' _
        rw [swapInPage_hostBlocks_of_ne, hblock']
        exact fun heq => hnewHandle (Int.ofNat.inj heq ▸ hh')
      have hrest' := hkeeps.stored hrest
      have hrange' : ∀ p' ∈ targets, p' < (swapInPage c h p).pages.length := by
        rw [swapInPage_length]
        exact hrange.2
      obtain ⟨hcontents, hhost⟩ := ih hrest' (Nat.succ.inj hlen) hrange' hhandles htargets
      have hcons : swapInPages c (movesIn (h :: handles) (p :: targets)) =
          swapInPages (swapInPage c h p) (movesIn handles targets) := rfl
      have hkept : (swapInPages (swapInPage c h p) (movesIn handles targets)).pages[p]? =
          (swapInPage c h p).pages[p]? := swapInPages_pages (notMem_movesIn_snd hnewTarget)
      rw [hcons]
      refine ⟨?_, forall_mem_cons.mpr ⟨⟨block, ?_, hfree⟩, hhost⟩⟩
      · rw [map_cons, hcontents, dataAt, hkept]
        exact congrArg (· :: _) hdata
      · rw [swapInPages_hostBlocks (notMem_movesIn_fst hnewHandle), hblock]

end SwapIn

/-! ## The other calls -/

section Calls

variable (c : PagedKVCache α)

theorem reservePage_hostBlocks [Zero α] : (reservePage c).2.hostBlocks = c.hostBlocks := by
  have hsel := (selectEvictionCandidate_selects c).hostBlocks_eq
  unfold reservePage
  rcases hc : selectEvictionCandidate c with ⟨_ | i, c'⟩ <;> rw [hc] at hsel <;> exact hsel

theorem reserveLoop_hostBlocks [Zero α] (n : Nat) (reserved : List Nat) :
    (reserveLoop n reserved c).2.hostBlocks = c.hostBlocks := by
  induction n generalizing reserved c with
  | zero => rfl
  | succ n ih =>
    have hsel := (selectEvictionCandidate_selects c).hostBlocks_eq
    unfold reserveLoop
    rcases hc : selectEvictionCandidate c with ⟨_ | i, c'⟩ <;> rw [hc] at hsel
    · exact hsel
    · exact (ih _ _).trans hsel

theorem reserveLoop_length [Zero α] {n : Nat} {reserved pages : List Nat}
    (hok : (reserveLoop n reserved c).1 = .ok pages) : pages.length = reserved.length + n := by
  induction n generalizing reserved c with
  | zero =>
    cases hok
    rfl
  | succ n ih =>
    unfold reserveLoop at hok
    rcases hc : selectEvictionCandidate c with ⟨_ | i, c'⟩ <;> rw [hc] at hok
    · cases hok
    · have hlen := ih _ hok
      simp only [length_append, length_singleton] at hlen
      omega

theorem acquireBlocks_hostBlocks (blocks : List Int) :
    (acquireBlocks c blocks).hostBlocks = c.hostBlocks := by
  induction blocks generalizing c with
  | nil => rfl
  | cons pageId blocks ih =>
    refine (ih _).trans ?_
    unfold acquireBlock
    split <;> rfl

theorem persistPage_hostBlocks (i : Nat) (values : List α) :
    (persistPage c i values).hostBlocks = c.hostBlocks := by
  unfold persistPage
  split <;> rfl

theorem releasePageLocked_hostBlocks (pageId : Int) :
    (releasePageLocked c pageId).hostBlocks = c.hostBlocks := by
  unfold releasePageLocked
  split
  · rfl
  · split
    · rfl
    · dsimp only
      split_ifs <;> simp [persistPage_hostBlocks]

theorem releaseBlocks_hostBlocks (blocks : List Int) :
    (releaseBlocks c blocks).hostBlocks = c.hostBlocks := by
  induction blocks generalizing c with
  | nil => rfl
  | cons pageId blocks ih => exact (ih _).trans (releasePageLocked_hostBlocks c pageId)

theorem write_hostBlocks (pageId : Int) (values : List α) :
    (write c pageId values).2.hostBlocks = c.hostBlocks := by
  unfold write
  split
  · rfl
  · exact persistPage_hostBlocks _ _ _

theorem read_hostBlocks (pageId : Int) : (read c pageId).2.hostBlocks = c.hostBlocks := by
  unfold read
  split
  · rfl
  · split <;> rfl

end Calls

section Runs

variable {s : System ω α} {r : System ω α × List (Event ω)} {op : Op ω α} {handles : List Nat}

theorem settle_cache {β : Type} (result : Except String β × PagedKVCache α)
    (held : β → Multiset (ω × Nat)) (events : β → List (Event ω)) :
    (settle s result held events).1.cache = result.2 := by
  obtain ⟨_ | value, cache⟩ := result <;> rfl

def Op.swaps : Op ω α → Bool
  | .swapOut _ _ => true
  | .swapIn _ _ => true
  | _ => false

/-- A `SwapIn` names none of the given host blocks. -/
def Op.Spares (handles : List Int) : Op ω α → Prop
  | .swapIn hostHandles _ => ∀ h ∈ handles, h ∉ hostHandles
  | _ => True

theorem swapIn_keeps (c : PagedKVCache α) {hostHandles : List Int} (targetBlocks : List Int)
    (hspares : ∀ h ∈ handles.map Int.ofNat, h ∉ hostHandles) :
    Keeps handles c (swapIn c hostHandles targetBlocks).2 := by
  intro h hh block hblock _
  unfold swapIn
  split
  · exact hblock
  · have hnot : (h : Int) ∉ (hostHandles.zip targetBlocks).map Prod.fst := by
      intro hmem
      obtain ⟨⟨_, p⟩, hmove, rfl⟩ := mem_map.mp hmem
      exact hspares _ (mem_map_of_mem hh) (of_mem_zip hmove).1
    exact (swapInPages_hostBlocks hnot).trans hblock

variable [Zero α] [DecidableEq ω]

theorem step_hostBlocks (hop : op.swaps = false) (hstep : step s op = some r) :
    r.1.cache.hostBlocks = s.cache.hostBlocks := by
  cases op with
  | reservePage owner =>
    cases hstep
    rw [settle_cache]
    exact reservePage_hostBlocks _
  | reserveBlocks owner n =>
    cases hstep
    rw [settle_cache]
    exact reserveLoop_hostBlocks _ _ _
  | acquireBlocks owner blocks =>
    cases hstep
    exact acquireBlocks_hostBlocks _ _
  | releasePage owner pageId =>
    cases hstep
    exact releasePageLocked_hostBlocks _ _
  | releaseBlocks owner blocks =>
    cases hstep
    exact releaseBlocks_hostBlocks _ _
  | swapOut => cases hop
  | swapIn => cases hop
  | write pageId values =>
    cases hstep
    rw [settle_cache]
    exact write_hostBlocks _ _ _
  | read pageId =>
    cases hstep
    rw [settle_cache]
    exact read_hostBlocks _ _
  | setOffloadPath path =>
    obtain ⟨cache, hcache, rfl⟩ := Option.map_eq_some_iff.mp hstep
    unfold setOffloadPath at hcache
    split_ifs at hcache
    cases hcache
    rfl
  | setEvictionPolicy policy =>
    cases hstep
    rfl
  | workerTake =>
    cases hstep
    unfold workerTake
    split <;> rfl
  | workerWrite task =>
    cases hstep
    unfold workerWrite
    split <;> rfl

/-- A host block that is in use stays as it is, unless it is swapped in. -/
theorem step_keeps (hop : op.Spares (handles.map Int.ofNat)) (hstep : step s op = some r) :
    Keeps handles s.cache r.1.cache := by
  by_cases hswaps : op.swaps = false
  · exact .of_eq (step_hostBlocks hswaps hstep)
  · cases op with
    | swapOut owner blocks =>
      cases hstep
      rw [settle_cache]
      exact fun h _ block hblock huse => swapOutLoop_keeps _ hblock huse
    | swapIn hostHandles targetBlocks =>
      cases hstep
      rw [settle_cache]
      exact swapIn_keeps _ _ hop
    | _ => exact absurd rfl hswaps

end Runs

end InferFlux.KVCache
