import InferFlux.Library.LoggedRun
import Mathlib.Data.Multiset.AddSub

/-!
# The paged KV cache

Embeds `PagedKVCache` from `runtime/kv_cache/paged_kv_cache.cpp`. Every public function
holds the cache mutex for its whole body, so a run is a sequence of calls. Page contents
are lists over an arbitrary type with a zero; page ids are `int` and may be out of range.
The usage counter is the 64-bit counter of the source.

Exceptions are results (`Except.error`) next to the state they leave behind. The files
behind the offload path are part of the state: `PersistPage` enqueues a write task, a
worker takes the oldest task and writes it later (`AsyncFileWriter::Worker`).
-/

namespace InferFlux.KVCache

/-- A page of the primary cache or a block of the host pool. -/
structure KVPage (α : Type) where
  data : List α := []
  inUse : Bool := false
  refCount : Int := 0
  lastUsed : UInt64 := 0
  dirty : Bool := false
  deriving DecidableEq, Repr

inductive EvictionPolicy where
  | lru
  | clock
  deriving DecidableEq, Repr

/-- An `AsyncWriteTask`: the file of a page below an offload path, and its content. -/
structure WriteTask (α : Type) where
  path : String
  pageId : Nat
  values : List α
  deriving DecidableEq, Repr

structure PagedKVCache (α : Type) where
  pageSizeBytes : Nat
  pages : List (KVPage α)
  hostBlocks : List (KVPage α)
  offloadPath : String := ""
  usageCounter : UInt64 := 0
  evictionPolicy : EvictionPolicy := .lru
  clockRefBits : List Bool
  clockHand : Nat := 0
  /-- Tasks waiting in the writer's queue and tasks its workers have taken. -/
  tasks : List (WriteTask α) := []
  inFlight : List (WriteTask α) := []
  files : String → Nat → Option (List α) := fun _ _ => none

variable {α : Type}

def PagedKVCache.new (pages pageSizeBytes : Nat) (policy : EvictionPolicy) : PagedKVCache α where
  pageSizeBytes
  pages := List.replicate pages {}
  hostBlocks := List.replicate (pages * 2) {}
  evictionPolicy := policy
  clockRefBits := List.replicate pages false

def PagedKVCache.pageIndex (c : PagedKVCache α) (pageId : Int) : Option Nat :=
  if 0 ≤ pageId ∧ pageId.toNat < c.pages.length then some pageId.toNat else none

def acquirePageLocked [Zero α] (c : PagedKVCache α) (candidate : Nat) : PagedKVCache α :=
  { c with
    pages := c.pages.modify candidate fun page =>
      { data := if page.data.length ≠ c.pageSizeBytes / 4 then
            List.replicate (c.pageSizeBytes / 4) 0 else page.data
        inUse := true
        refCount := 1
        lastUsed := c.usageCounter
        dirty := false }
    usageCounter := c.usageCounter + 1
    clockRefBits := c.clockRefBits.set candidate true }

def firstFree (pages : List (KVPage α)) : Option Nat := pages.findIdx? fun page => !page.inUse

/-- The rounds of the clock hand; a free page with its bit set gets a second chance. -/
def clockScan : Nat → PagedKVCache α → Option Nat × PagedKVCache α
  | 0, c => (firstFree c.pages, c)
  | rounds + 1, c =>
    let idx := if c.clockHand ≥ c.pages.length then 0 else c.clockHand
    let c := { c with clockHand := (idx + 1) % c.pages.length }
    match c.pages[idx]?, c.clockRefBits[idx]? with
    | some page, some ref =>
      if page.inUse then clockScan rounds c
      else if !ref then (some idx, c)
      else clockScan rounds { c with clockRefBits := c.clockRefBits.set idx false }
    | _, _ => clockScan rounds c

/-- The scan for the free page with the smallest `last_used`; the last one wins a tie. -/
def lruScan : List (KVPage α) → Nat → Option Nat → UInt64 → Option Nat
  | [], _, candidate, _ => candidate
  | page :: pages, i, candidate, oldest =>
    if !page.inUse && page.lastUsed ≤ oldest then lruScan pages (i + 1) (some i) page.lastUsed
    else lruScan pages (i + 1) candidate oldest

/-- `SelectEvictionCandidate`; `none` is `-1`. -/
def selectEvictionCandidate (c : PagedKVCache α) : Option Nat × PagedKVCache α :=
  if c.pages.isEmpty then (none, c)
  else match c.evictionPolicy with
    | .clock => clockScan (c.pages.length * 2) c
    | .lru => (lruScan c.pages 0 none (-1), c)

def reservePage [Zero α] (c : PagedKVCache α) : Except String Nat × PagedKVCache α :=
  match selectEvictionCandidate c with
  | (none, c) => (.error "KV cache exhausted", c)
  | (some candidate, c) => (.ok candidate, acquirePageLocked c candidate)

def markFree (pages : List (KVPage α)) (reserved : List Nat) : List (KVPage α) :=
  reserved.foldl (fun pages id => pages.modify id fun page => { page with inUse := false }) pages

/-- The loop of `ReserveBlocks`; on exhaustion the pages reserved so far are marked free. -/
def reserveLoop [Zero α] :
    Nat → List Nat → PagedKVCache α → Except String (List Nat) × PagedKVCache α
  | 0, reserved, c => (.ok reserved, c)
  | n + 1, reserved, c =>
    match selectEvictionCandidate c with
    | (none, c) =>
      (.error "KV cache exhausted during multi-block allocation",
        { c with pages := markFree c.pages reserved })
    | (some candidate, c) => reserveLoop n (reserved ++ [candidate]) (acquirePageLocked c candidate)

def reserveBlocks [Zero α] (c : PagedKVCache α) (n : Nat) :
    Except String (List Nat) × PagedKVCache α :=
  reserveLoop n [] c

def persistPage (c : PagedKVCache α) (pageId : Nat) (values : List α) : PagedKVCache α :=
  if c.offloadPath = "" then c
  else { c with tasks := c.tasks ++ [⟨c.offloadPath, pageId, values⟩] }

/-- `ReleasePageLocked`: drop one reference; the last one persists and frees the page. -/
def releasePageLocked (c : PagedKVCache α) (pageId : Int) : PagedKVCache α :=
  match c.pageIndex pageId with
  | none => c
  | some i =>
    match c.pages[i]? with
    | none => c
    | some page =>
      let c := { c with
        pages := c.pages.modify i fun page => { page with refCount := page.refCount - 1 } }
      if page.refCount - 1 > 0 then c
      else
        let c := if c.offloadPath ≠ "" ∧ page.data ≠ [] ∧ page.dirty then
          persistPage c i page.data else c
        { c with
          pages := c.pages.modify i fun page =>
            { page with inUse := false, data := [], dirty := false }
          clockRefBits := c.clockRefBits.set i false }

def releasePage (c : PagedKVCache α) (pageId : Int) : PagedKVCache α := releasePageLocked c pageId

def releaseBlocks (c : PagedKVCache α) (blocks : List Int) : PagedKVCache α :=
  blocks.foldl releasePageLocked c

def acquireBlock (c : PagedKVCache α) (pageId : Int) : PagedKVCache α :=
  match c.pageIndex pageId with
  | none => c
  | some i =>
    { c with pages := c.pages.modify i fun page => { page with refCount := page.refCount + 1 } }

def acquireBlocks (c : PagedKVCache α) (blocks : List Int) : PagedKVCache α :=
  blocks.foldl acquireBlock c

def swapOutPage (c : PagedKVCache α) (i hostIdx : Nat) (page : KVPage α) : PagedKVCache α :=
  { c with
    hostBlocks := c.hostBlocks.modify hostIdx fun dst =>
      { dst with data := page.data, inUse := true, lastUsed := c.usageCounter }
    usageCounter := c.usageCounter + 1
    pages := c.pages.modify i fun src => { src with data := [], inUse := false, dirty := false }
    clockRefBits := c.clockRefBits.set i false }

/-- The loop of `SwapOut`; without a free host block it throws with the pages before
already moved. -/
def swapOutLoop : List Int → List Nat → PagedKVCache α → Except String (List Nat) × PagedKVCache α
  | [], hostHandles, c => (.ok hostHandles, c)
  | pageId :: blocks, hostHandles, c =>
    match c.pageIndex pageId with
    | none => swapOutLoop blocks hostHandles c
    | some i =>
      match c.pages[i]?, firstFree c.hostBlocks with
      | some page, some hostIdx =>
        swapOutLoop blocks (hostHandles ++ [hostIdx]) (swapOutPage c i hostIdx page)
      | _, _ => (.error "Host KV block pool exhausted during SwapOut", c)

def swapOut (c : PagedKVCache α) (blocks : List Int) : Except String (List Nat) × PagedKVCache α :=
  swapOutLoop blocks [] c

def swapInPage (c : PagedKVCache α) (hostIdx pageId : Int) : PagedKVCache α :=
  if hostIdx < 0 then c
  else match c.hostBlocks[hostIdx.toNat]?, c.pageIndex pageId with
    | some src, some i =>
      { c with
        pages := c.pages.modify i fun dst =>
          { dst with data := src.data, inUse := true, lastUsed := c.usageCounter, dirty := true }
        usageCounter := c.usageCounter + 1
        hostBlocks := c.hostBlocks.modify hostIdx.toNat fun src =>
          { src with inUse := false, data := [] } }
    | _, _ => c

def swapIn (c : PagedKVCache α) (hostHandles targetBlocks : List Int) :
    Except String Unit × PagedKVCache α :=
  if hostHandles.length ≠ targetBlocks.length then
    (.error "SwapIn: handles and targets size mismatch", c)
  else (.ok (), (hostHandles.zip targetBlocks).foldl (fun c x => swapInPage c x.1 x.2) c)

def write (c : PagedKVCache α) (pageId : Int) (values : List α) :
    Except String Unit × PagedKVCache α :=
  match c.pageIndex pageId with
  | none => (.error "invalid page id", c)
  | some i =>
    let c := { c with
      pages := c.pages.modify i fun page =>
        { page with data := values, dirty := true, lastUsed := c.usageCounter }
      usageCounter := c.usageCounter + 1
      clockRefBits := c.clockRefBits.set i true }
    (.ok (), persistPage c i values)

/-- `Read`; the content of an emptied page comes back from its file, if there is one. -/
def read (c : PagedKVCache α) (pageId : Int) : Except String (List α) × PagedKVCache α :=
  match c.pageIndex pageId with
  | none => (.error "invalid page id", c)
  | some i =>
    match c.pages[i]? with
    | none => (.error "invalid page id", c)
    | some page =>
      let data := if page.data = [] ∧ c.offloadPath ≠ "" then (c.files c.offloadPath i).getD []
        else page.data
      (.ok data,
        { c with
          pages := c.pages.modify i fun page => { page with data, lastUsed := c.usageCounter }
          usageCounter := c.usageCounter + 1
          clockRefBits := c.clockRefBits.set i true })

def setEvictionPolicy (c : PagedKVCache α) (policy : EvictionPolicy) : PagedKVCache α :=
  { c with evictionPolicy := policy }

/-- `SetOffloadPath`. The empty path stops the writer, whose workers first finish all
tasks: the call does not return (`none`) before they have. -/
def setOffloadPath (c : PagedKVCache α) (path : String) : Option (PagedKVCache α) :=
  if path = "" ∧ ¬ (c.tasks.isEmpty ∧ c.inFlight.isEmpty) then none
  else some { c with offloadPath := path }

def workerTake (c : PagedKVCache α) : PagedKVCache α :=
  match c.tasks with
  | [] => c
  | task :: tasks => { c with tasks, inFlight := c.inFlight ++ [task] }

def workerWrite (c : PagedKVCache α) (i : Nat) : PagedKVCache α :=
  match c.inFlight[i]? with
  | none => c
  | some task =>
    { c with
      inFlight := c.inFlight.eraseIdx i
      files := Function.update c.files task.path
        (Function.update (c.files task.path) task.pageId (some task.values)) }

/-- `NumFreeBlocks` and `NumAvailableHostBlocks` count the entries that are not in use. -/
def countFree (pages : List (KVPage α)) : Nat := pages.countP fun page => !page.inUse

def numFreeBlocks (c : PagedKVCache α) : Nat := countFree c.pages

def numAvailableHostBlocks (c : PagedKVCache α) : Nat := countFree c.hostBlocks

end InferFlux.KVCache
