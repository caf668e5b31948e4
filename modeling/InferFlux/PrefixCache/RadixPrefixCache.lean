import InferFlux.Library.CompressedTrie
import InferFlux.Library.LoggedRun

/-!
# The radix prefix cache

Embeds `RadixPrefixCache` from `runtime/prefix_cache/radix_prefix_cache.cpp`. Nodes
own their children (`std::unique_ptr`), so the tree is a compressed trie over token
ids; the raw pointers (`parent`, the eviction victim) are node addresses handed out
by a counter. Walking the trie consumes the tokens, so `offset` appears only where
the source reports it.

`Lookup` and `Insert` take the cache mutex for their whole body, so a run of the
cache is a sequence of calls. Donor backends are kept alive by their callers, hence
`weak_ptr::lock` returns the stored pointer; `none` is the null pointer.

Calls that leave the cache (backend, eviction callback, paged KV cache) are logged as
events. Two kinds of events are ghost marks of the bookkeeping itself: `donated`,
when `Insert` stores a donor for a token sequence, and `evicted`, when the node of a
token sequence loses its donor.
-/

namespace InferFlux.PrefixCache

open CompressedTrie

abbrev Token := Int
abbrev Addr := Nat
abbrev Backend := Option Nat

/-- The fields of `RadixNode` besides its edge and children. -/
structure RadixNode where
  addr : Addr
  parent : Option Addr := none
  blockTable : List Int := []
  sequenceId : Int := -1
  backend : Backend := none
  lastUsed : Nat := 0
  deriving DecidableEq, Repr

abbrev Children := Forest Token RadixNode
abbrev Trie := Node Token RadixNode

structure Donation where
  blockTable : List Int
  sequenceId : Int
  backend : Backend
  deriving DecidableEq, Repr

structure RadixPrefixCacheLimits where
  capacity : Nat := 1024
  maxSequences : Nat := 12
  deriving DecidableEq, Repr

inductive Event where
  | donated (tokens : List Token) (donation : Donation)
  | evicted (tokens : List Token)
  | freeSequence (backend : Nat) (sequenceId : Int)
  | onEvictSeq (sequenceId : Int) (backend : Backend)
  | releaseBlocksRef (blocks : List Int)
  deriving DecidableEq, Repr

/-- The counters `Insert` updates while it walks, with the node allocator. -/
structure Counters where
  size : Nat := 0
  liveSequences : Nat := 0
  clock : Nat := 0
  nextAddr : Addr := 1
  deriving DecidableEq, Repr

/-- `kvCache` and `onEvictSeq` say whether the two collaborators were supplied. -/
structure RadixPrefixCache extends Counters where
  kvCache : Bool := true
  onEvictSeq : Bool := true
  capacity : Nat
  maxSequences : Nat
  root : Trie := ⟨[], { addr := 0 }, .nil⟩
  deriving DecidableEq, Repr

structure RadixLookupResult where
  blockTable : List Int := []
  sequenceId : Int := -1
  matchedTokens : Nat := 0
  deriving DecidableEq, Repr

def RadixPrefixCache.new (kvCache onEvictSeq : Bool) (limits : RadixPrefixCacheLimits) :
    RadixPrefixCache :=
  { kvCache, onEvictSeq, capacity := limits.capacity, maxSequences := limits.maxSequences }

structure LookupVars where
  node : Addr
  offset : Nat := 0
  blocks : List Int := []
  lastSeqId : Int := -1
  lastSeqTokens : Nat := 0
  nodeHit : Bool := false
  deriving DecidableEq, Repr

/-- Step onto a fully matched child whose donor, if any, belongs to the backend. -/
def LookupVars.advance (v : LookupVars) (common : Nat) (child : RadixNode) : LookupVars :=
  let v := { v with offset := v.offset + common, node := child.addr, nodeHit := true }
  if child.sequenceId ≥ 0 then
    { v with lastSeqId := child.sequenceId, lastSeqTokens := v.offset, blocks := child.blockTable }
  else v

def LookupVars.stop (v : LookupVars) (common : Nat) : LookupVars :=
  { v with offset := v.offset + common, nodeHit := false }

/-- The loop of `Lookup` below one node. Siblings are scanned for the first token;
a node that is walked over gets a fresh `last_used`. -/
def lookupLoop (backend : Backend) :
    Children → List Token → Nat → LookupVars → Children × Nat × LookupVars
  | children, [], clock, v => (children, clock, v)
  | .nil, _ :: _, clock, v => (.nil, clock, v)
  | .cons key edge child below rest, first :: tokens, clock, v =>
    if key = first then
      let common := commonPrefixLength edge (first :: tokens)
      if common < edge.length then
        (.cons key edge child below rest, clock, v.stop common)
      else if child.sequenceId ≥ 0 ∧ child.backend ≠ backend then
        (.cons key edge child below rest, clock, v.stop common)
      else
        let (below, clock', v) := lookupLoop backend below ((first :: tokens).drop common)
          (clock + 1) (v.advance common child)
        (.cons key edge { child with lastUsed := clock + 1 } below rest, clock', v)
    else
      let (rest, clock, v) := lookupLoop backend rest (first :: tokens) clock v
      (.cons key edge child below rest, clock, v)

def RadixPrefixCache.lookup (c : RadixPrefixCache) (tokens : List Token) (backend : Backend) :
    Bool × RadixLookupResult × RadixPrefixCache :=
  if c.capacity = 0 ∨ tokens = [] then (false, {}, c)
  else
    let (children, clock, v) := lookupLoop backend c.root.children tokens c.clock
      { node := c.root.data.addr }
    let c' := { c with clock, root := { c.root with children } }
    if v.nodeHit ∧ v.node ≠ c.root.data.addr ∧ v.lastSeqId ≥ 0 ∧ v.blocks ≠ [] then
      (true, ⟨v.blocks, v.lastSeqId, v.lastSeqTokens⟩, c')
    else (false, { matchedTokens := v.offset }, c')

/-- `SplitEdge`: a donor-less node takes over the first `splitAt` tokens of the edge
and becomes the parent of the original node. -/
def splitEdge (parent : Addr) (edge : List Token) (original : RadixNode) (below : Children)
    (splitAt : Nat) (c : Counters) : Trie × Counters :=
  let intermediate : RadixNode := { addr := c.nextAddr, parent := some parent }
  let suffix := edge.drop splitAt
  (⟨edge.take splitAt, intermediate,
      .cons (suffix.headD 0) suffix { original with parent := some intermediate.addr } below .nil⟩,
    { c with size := c.size + 1, nextAddr := c.nextAddr + 1 })

def newLeaf (parent : Addr) (d : Donation) (c : Counters) : RadixNode × Counters :=
  ({ addr := c.nextAddr, parent := some parent, blockTable := d.blockTable,
     sequenceId := d.sequenceId, backend := d.backend, lastUsed := c.clock + 1 },
   { c with
     size := c.size + 1
     liveSequences := if d.sequenceId ≥ 0 then c.liveSequences + 1 else c.liveSequences
     clock := c.clock + 1
     nextAddr := c.nextAddr + 1 })

def donate (node : RadixNode) (d : Donation) (c : Counters) : RadixNode × Counters :=
  let oldDonor := node.sequenceId
  let live := if oldDonor ≥ 0 ∧ oldDonor ≠ d.sequenceId then c.liveSequences - 1
    else c.liveSequences
  let live := if d.sequenceId ≥ 0 ∧ d.sequenceId ≠ oldDonor then live + 1 else live
  ({ node with
     blockTable := d.blockTable, sequenceId := d.sequenceId, backend := d.backend
     lastUsed := c.clock + 1 },
   { c with liveSequences := live, clock := c.clock + 1 })

/-- How the walk of `Insert` ended: with a new leaf, or on the node `old` whose
previous donor is replaced. -/
inductive InsertExit where
  | leaf
  | node (old : RadixNode)
  deriving DecidableEq, Repr

/-- The loop of `Insert` below the node at `node`, for the tokens `first :: tokens`. -/
def insertLoop (d : Donation) (node : Addr) :
    Children → Token → List Token → Counters → Children × Counters × InsertExit
  | .nil, first, tokens, c =>
    let (leaf, c) := newLeaf node d c
    (.cons first (first :: tokens) leaf .nil .nil, c, .leaf)
  | .cons key edge child below rest, first, tokens, c =>
    if key = first then
      let common := commonPrefixLength edge (first :: tokens)
      if common < edge.length then
        let (split, c) := splitEdge node edge child below common c
        match (first :: tokens).drop common with
        | [] =>
          let (donor, c) := donate split.data d c
          (.cons key split.edge donor split.children rest, c, .node split.data)
        | next :: more =>
          -- the original's edge goes on with another token, so `find` fails here
          let (leaf, c) := newLeaf split.data.addr d c
          (.cons key split.edge split.data
            (split.children.set next ⟨next :: more, leaf, .nil⟩) rest, c, .leaf)
      else
        match (first :: tokens).drop common with
        | [] =>
          let (donor, c) := donate child d c
          (.cons key edge donor below rest, c, .node child)
        | next :: more =>
          let (below, c, exit) := insertLoop d child.addr below next more c
          (.cons key edge child below rest, c, exit)
    else
      let (rest, c, exit) := insertLoop d node rest first tokens c
      (.cons key edge child below rest, c, exit)

/-- What a re-donation releases: the old table and, if the sequence changes, the old
donor's backend sequence and slot. -/
def redonationEvents (c : RadixPrefixCache) (old : RadixNode) (sequenceId : Int) : List Event :=
  (if c.kvCache ∧ old.blockTable ≠ [] then [.releaseBlocksRef old.blockTable] else []) ++
  if old.sequenceId ≥ 0 ∧ old.sequenceId ≠ sequenceId then
    old.backend.toList.map (.freeSequence · old.sequenceId) ++
      if c.onEvictSeq then [.onEvictSeq old.sequenceId old.backend] else []
  else []

/-- `CollectNodes`: the nodes meeting a criterion, each with the tokens leading to it. -/
def collectNodes (root : Trie) (criteria : Trie → Bool) : List (List Token × Trie) :=
  (([], root) :: root.children.nodes).filter (fun x => criteria x.2)

/-- `std::min_element` by `last_used`. Children are kept in hash maps, whose order is
unspecified, so any of the oldest candidates can come first: `tie` says which. -/
def minElement (tie : Nat) (candidates : List (List Token × Trie)) : Option (List Token × Trie) :=
  let oldest := candidates.filter
    (fun x => candidates.all (fun y => x.2.data.lastUsed ≤ y.2.data.lastUsed))
  oldest[tie % oldest.length]?

/-- `parent->children.erase(first_token)` through raw pointers. -/
def eraseChild (root : Trie) (parent : Option Addr) (edge : List Token) : Trie :=
  match parent, edge with
  | some a, first :: _ =>
    { root with children := root.children.eraseFrom RadixNode.addr root.data.addr a first }
  | _, _ => root

def freeDonorEvents (c : RadixPrefixCache) (victim : RadixNode) : List Event :=
  victim.backend.toList.map (.freeSequence · victim.sequenceId) ++
    if c.onEvictSeq then [.onEvictSeq victim.sequenceId victim.backend] else []

def releaseEvents (c : RadixPrefixCache) (victim : RadixNode) : List Event :=
  if c.kvCache ∧ victim.blockTable ≠ [] then [.releaseBlocksRef victim.blockTable] else []

/-- `EvictOne`: remove the leaf with the smallest `last_used`. -/
def evictOne (tie : Nat) (c : RadixPrefixCache) : RadixPrefixCache × List Event :=
  match minElement tie
    (collectNodes c.root fun n => n.children.isEmpty && n.data.parent.isSome) with
  | none => (c, [])
  | some (tokens, victim) =>
    ({ c with
       liveSequences :=
         if victim.data.sequenceId ≥ 0 then c.liveSequences - 1 else c.liveSequences
       root := eraseChild c.root victim.data.parent victim.edge
       size := c.size - 1 },
     .evicted tokens ::
       ((if victim.data.sequenceId ≥ 0 then freeDonorEvents c victim.data else []) ++
         releaseEvents c victim.data))

def clearDonor (n : RadixNode) : RadixNode := { n with blockTable := [], sequenceId := -1 }

def updateAt (a : Addr) (g : RadixNode → RadixNode) (n : RadixNode) : RadixNode :=
  if n.addr = a then g n else n

/-- `EvictOneSequenceLocked`: retire the oldest donor and prune its node if it became
a childless husk. Returns the retired sequence. -/
def evictOneSequenceLocked (tie : Nat) (c : RadixPrefixCache) :
    Option Int × RadixPrefixCache × List Event :=
  match minElement tie (collectNodes c.root fun n => n.data.sequenceId ≥ 0) with
  | none => (none, c, [])
  | some (tokens, victim) =>
    let root := { c.root with
      data := updateAt victim.data.addr clearDonor c.root.data
      children := c.root.children.mapData (updateAt victim.data.addr clearDonor) }
    let prune := victim.children.isEmpty && victim.data.parent.isSome
    (some victim.data.sequenceId,
     { c with
       liveSequences := c.liveSequences - 1
       root := if prune then eraseChild root victim.data.parent victim.edge else root
       size := if prune then c.size - 1 else c.size },
     .evicted tokens :: (freeDonorEvents c victim.data ++ releaseEvents c victim.data))

/-- `while (guard) body;`, cut off after `fuel` rounds. `none`: still running. -/
def evictWhile (guard : RadixPrefixCache → Bool)
    (body : Nat → RadixPrefixCache → RadixPrefixCache × List Event) :
    Nat → (Nat → Nat) → RadixPrefixCache → Option (RadixPrefixCache × List Event)
  | fuel, ties, c =>
    if guard c then
      match fuel with
      | 0 => none
      | fuel + 1 =>
        let (c', events) := body (ties 0) c
        (evictWhile guard body fuel (fun i => ties (i + 1)) c').map fun r => (r.1, events ++ r.2)
    else some (c, [])

/-- The two eviction loops behind a new leaf. Every round removes a node or a donor,
so the number of nodes bounds the rounds. -/
def enforceLimits (ties : Nat → Nat) (c : RadixPrefixCache) :
    Option (RadixPrefixCache × List Event) := do
  let (c, e₁) ← evictWhile (fun c => c.liveSequences > c.maxSequences)
    (fun tie c => (evictOneSequenceLocked tie c).2) c.root.children.entries.length
    (fun i => ties (2 * i)) c
  let (c, e₂) ← evictWhile (fun c => c.size > c.capacity) evictOne
    c.root.children.entries.length (fun i => ties (2 * i + 1)) c
  return (c, e₁ ++ e₂)

/-- `Insert`; `ties` resolves the hash-map order in the eviction loops. -/
def RadixPrefixCache.insert (c : RadixPrefixCache) (tokens : List Token) (blockTable : List Int)
    (sequenceId : Int) (backend : Backend) (ties : Nat → Nat) :
    Option (Bool × RadixPrefixCache × List Event) :=
  match tokens with
  | [] => some (false, c, [])
  | first :: more =>
    if c.capacity = 0 ∨ blockTable = [] then some (false, c, [])
    else
      let d : Donation := ⟨blockTable, sequenceId, backend⟩
      let (children, counters, exit) :=
        insertLoop d c.root.data.addr c.root.children first more c.toCounters
      let c' := { c with toCounters := counters, root := { c.root with children } }
      let mark := Event.donated (first :: more) d
      match exit with
      | .leaf => (enforceLimits ties c').map fun r => (true, r.1, mark :: r.2)
      | .node old => some (true, c', mark :: redonationEvents c old sequenceId)

inductive Op where
  | lookup (tokens : List Token) (backend : Backend)
  | insert (tokens : List Token) (blockTable : List Int) (sequenceId : Int) (backend : Backend)
      (ties : Nat → Nat)
  | evictOneSequence (tie : Nat)

/-- One call on the cache; `none` if it never returns. -/
def step (c : RadixPrefixCache) : Op → Option (RadixPrefixCache × List Event)
  | .lookup tokens backend => some ((c.lookup tokens backend).2.2, [])
  | .insert tokens blockTable sequenceId backend ties =>
    (c.insert tokens blockTable sequenceId backend ties).map (·.2)
  | .evictOneSequence tie => some (evictOneSequenceLocked tie c).2

def run (c : RadixPrefixCache) (ops : List Op) : Option (RadixPrefixCache × List Event) :=
  LoggedRun.run step c ops

end InferFlux.PrefixCache
