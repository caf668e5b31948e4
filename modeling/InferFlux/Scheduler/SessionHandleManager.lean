import InferFlux.Text.IncrementalUtf8
import Mathlib.Data.List.AList

/-!
# Session handles

Embeds `scheduler/session_handle_manager.cpp`: the KV state of a session is retained between
its requests, and a request that works with it holds the lease of the session. The entries are
a map from session ids, here in the order in which the map is iterated; the time of a call is
an argument, in milliseconds. `mutex_` makes each call one step.
-/

namespace InferFlux.Scheduler

open InferFlux.Text

structure SessionHandleState where
  modelId : String := ""
  sequenceId : Int := -1
  promptTokens : List Int := []
  blockTable : List Int := []
  deriving DecidableEq, Repr

namespace SessionHandleManager

structure Config where
  maxSessions : Nat := 1024
  ttl : Int := 5 * 60 * 1000
  deriving DecidableEq, Repr

structure Entry where
  /-- The retained state, if `has_state`. -/
  state : Option SessionHandleState := none
  inUse : Bool := false
  lastAccess : Int
  expiresAt : Int
  deriving DecidableEq, Repr

inductive Status where
  | acquired
  | busy
  deriving DecidableEq, Repr

structure LeaseResult where
  status : Status := .busy
  state : Option SessionHandleState := none
  cleanupStates : List SessionHandleState := []
  deriving DecidableEq, Repr

end SessionHandleManager

open SessionHandleManager

structure SessionHandleManager where
  config : Config
  entries : AList fun _ : Bytes => Entry := ∅

namespace SessionHandleManager

/-- A manager without sessions; it has room for one at least, for some time. -/
def create (config : Config) : SessionHandleManager where
  config :=
    { maxSessions := if config.maxSessions = 0 then 1 else config.maxSessions
      ttl := if config.ttl ≤ 0 then 1 else config.ttl }

/-- The better candidate for eviction: the one that was used less recently. -/
def olderIdle (best : Option (Σ _ : Bytes, Entry)) (item : Σ _ : Bytes, Entry) :
    Option (Σ _ : Bytes, Entry) :=
  if item.2.inUse then best
  else
    match best with
    | none => some item
    | some old => if item.2.lastAccess < old.2.lastAccess then some item else some old

def findEvictionCandidate (m : SessionHandleManager) : Option (Σ _ : Bytes, Entry) :=
  m.entries.entries.foldl olderIdle none

/-- Make room for a new session, and return the state that has to be cleaned up. -/
def evict (m : SessionHandleManager) :
    Option (AList (fun _ : Bytes => Entry) × List SessionHandleState) :=
  if m.config.maxSessions ≤ m.entries.entries.length then
    m.findEvictionCandidate.map fun item => (m.entries.erase item.1, item.2.state.toList)
  else some (m.entries, [])

def acquireLease (m : SessionHandleManager) (now : Int) (sessionId : Bytes) :
    SessionHandleManager × LeaseResult :=
  if sessionId.isEmpty then (m, {})
  else
    match m.entries.lookup sessionId with
    | none =>
      match m.evict with
      | none => (m, {})
      | some (entries, cleanupStates) =>
        let entry := { inUse := true, lastAccess := now, expiresAt := now + m.config.ttl }
        ({ m with entries := entries.insert sessionId entry }, { status := .acquired, cleanupStates })
    | some entry =>
      if entry.inUse then (m, {})
      else
        let expired := entry.state.filter fun _ => decide (entry.expiresAt ≤ now)
        let state := entry.state.filter fun _ => decide (now < entry.expiresAt)
        let entry := { state, inUse := true, lastAccess := now, expiresAt := now + m.config.ttl }
        ({ m with entries := m.entries.insert sessionId entry },
          { status := .acquired, state, cleanupStates := expired.toList })

def commitLease (m : SessionHandleManager) (now : Int) (sessionId : Bytes)
    (state : SessionHandleState) : SessionHandleManager :=
  if sessionId.isEmpty then m
  else
    let entry := { state := some state, lastAccess := now, expiresAt := now + m.config.ttl }
    { m with entries := m.entries.insert sessionId entry }

/-- A session without a state is forgotten. -/
def releaseLease (m : SessionHandleManager) (now : Int) (sessionId : Bytes) :
    SessionHandleManager :=
  if sessionId.isEmpty then m
  else
    match m.entries.lookup sessionId with
    | none => m
    | some entry =>
      if entry.state.isSome then
        let entry := { entry with
          inUse := false, lastAccess := now, expiresAt := now + m.config.ttl }
        { m with entries := m.entries.insert sessionId entry }
      else { m with entries := m.entries.erase sessionId }

def discardLeasedState (m : SessionHandleManager) (sessionId : Bytes) : SessionHandleManager :=
  if sessionId.isEmpty then m
  else
    match m.entries.lookup sessionId with
    | none => m
    | some entry => { m with entries := m.entries.insert sessionId { entry with state := none } }

def Entry.expired (now : Int) (entry : Entry) : Bool :=
  !entry.inUse && decide (entry.expiresAt ≤ now)

def collectExpired (m : SessionHandleManager) (now : Int) :
    SessionHandleManager × List SessionHandleState :=
  ({ m with
      entries := ⟨m.entries.entries.filter fun item => !item.2.expired now,
        m.entries.nodupKeys.sublist List.filter_sublist⟩ },
    m.entries.entries.flatMap fun item => if item.2.expired now then item.2.state.toList else [])

/-- The lease of the session has been taken and not been given back. -/
def InUse (m : SessionHandleManager) (sessionId : Bytes) : Prop :=
  ∃ entry ∈ m.entries.lookup sessionId, entry.inUse

instance (m : SessionHandleManager) (sessionId : Bytes) : Decidable (m.InUse sessionId) :=
  match h : m.entries.lookup sessionId with
  | none => isFalse fun ⟨entry, hmem, _⟩ => by simp [h] at hmem
  | some entry =>
    decidable_of_iff (entry.inUse) (by simp [InUse, h])

/-- There is room for one more session, or a session that can be evicted. -/
def HasRoom (m : SessionHandleManager) : Prop :=
  m.entries.entries.length < m.config.maxSessions ∨ ∃ item ∈ m.entries.entries, ¬ item.2.inUse

/-- The lease of the session can be taken. -/
def Available (m : SessionHandleManager) (sessionId : Bytes) : Prop :=
  sessionId ≠ [] ∧ ¬ m.InUse sessionId ∧ (sessionId ∈ m.entries ∨ m.HasRoom)

theorem create_inUse (config : Config) (id : Bytes) : ¬ (create config).InUse id := by
  simp [create, InUse]

variable {m : SessionHandleManager} {now : Int} {id other : Bytes}
  {entries : AList fun _ : Bytes => Entry} {entry : Entry}

theorem inUse_insert_of_entries :
    InUse { m with entries := entries.insert id entry } other ↔
      other = id ∧ entry.inUse ∨ other ≠ id ∧ InUse { m with entries } other := by
  by_cases h : other = id
  · subst h
    simp [InUse]
  · simp [InUse, h]

theorem inUse_insert :
    InUse { m with entries := m.entries.insert id entry } other ↔
      other = id ∧ entry.inUse ∨ other ≠ id ∧ m.InUse other :=
  inUse_insert_of_entries

theorem inUse_erase : InUse { m with entries := m.entries.erase id } other ↔
    other ≠ id ∧ m.InUse other := by
  by_cases h : other = id
  · subst h
    simp [InUse]
  · simp [InUse, h]

theorem inUse_of_lookup (h : m.entries.lookup id = some entry) : m.InUse id ↔ entry.inUse := by
  simp [InUse, h]

theorem not_inUse_of_lookup (h : m.entries.lookup id = none) : ¬ m.InUse id := by
  simp [InUse, h]

variable {best : Option (Σ _ : Bytes, Entry)} {first item : Σ _ : Bytes, Entry}

theorem olderIdle_eq_some (h : olderIdle best first = some item) :
    best = some item ∨ item = first ∧ item.2.inUse = false := by
  unfold olderIdle at h
  split_ifs at h with hfirst
  · exact .inl h
  · cases best with
    | none => grind
    | some old => grind

theorem olderIdle_eq_none : olderIdle best first = none ↔ best = none ∧ first.2.inUse := by
  unfold olderIdle
  cases best <;> grind

variable {items : List (Σ _ : Bytes, Entry)}

theorem foldl_olderIdle_eq_some (h : items.foldl olderIdle best = some item) :
    best = some item ∨ item ∈ items ∧ item.2.inUse = false := by
  induction items generalizing best with
  | nil => exact .inl h
  | cons first items ih =>
    obtain hbest | ⟨hmem, hidle⟩ := ih h
    · obtain hbest | ⟨rfl, hidle⟩ := olderIdle_eq_some hbest
      · exact .inl hbest
      · exact .inr ⟨List.mem_cons_self, hidle⟩
    · exact .inr ⟨List.mem_cons_of_mem _ hmem, hidle⟩

theorem foldl_olderIdle_eq_none :
    items.foldl olderIdle best = none ↔ best = none ∧ ∀ item ∈ items, item.2.inUse := by
  induction items generalizing best with
  | nil => simp
  | cons first items ih =>
    rw [List.foldl_cons, ih, olderIdle_eq_none, List.forall_mem_cons, and_assoc]

theorem evict_inUse {states : List SessionHandleState} (h : m.evict = some (entries, states)) :
    InUse { m with entries } id ↔ m.InUse id := by
  rw [evict] at h
  split_ifs at h
  · obtain ⟨item, hitem, heq⟩ := Option.map_eq_some_iff.mp h
    obtain ⟨rfl, _⟩ := Prod.mk.inj heq
    obtain hbest | ⟨hmem, hidle⟩ := foldl_olderIdle_eq_some hitem
    · cases hbest
    · rw [inUse_erase, and_iff_right_iff_imp]
      rintro hid rfl
      have hlookup := AList.mem_lookup_iff.mpr hmem
      rw [inUse_of_lookup hlookup, hidle] at hid
      cases hid
  · obtain ⟨rfl, _⟩ := Prod.mk.inj (Option.some.inj h)
    rfl

theorem evict_isSome_iff : m.evict.isSome ↔ m.HasRoom := by
  have hnone : m.findEvictionCandidate = none ↔ ∀ item ∈ m.entries.entries, item.2.inUse := by
    simp [findEvictionCandidate, foldl_olderIdle_eq_none]
  rw [evict, HasRoom]
  split_ifs with hfull
  · rw [Option.isSome_map, Option.isSome_iff_ne_none, Ne, hnone]
    grind
  · simp only [Option.isSome_some, true_iff]
    omega

/-- A lease that is acquired is in use; no other lease changes. -/
theorem acquireLease_inUse : (m.acquireLease now id).1.InUse other ↔
    other = id ∧ (m.acquireLease now id).2.status = .acquired ∨ m.InUse other := by
  rw [acquireLease]
  split_ifs with hempty
  · simp
  · cases hlookup : m.entries.lookup id with
    | none =>
      cases hevict : m.evict with
      | none => simp
      | some made =>
        have hsame : InUse { m with entries := made.1 } other ↔ m.InUse other := evict_inUse hevict
        simp only [inUse_insert_of_entries, hsame]
        grind
    | some entry =>
      by_cases huse : entry.inUse
      · simp [huse]
      · simp only [huse, Bool.false_eq_true, if_false, inUse_insert]
        grind

theorem acquireLease_acquired_iff :
    (m.acquireLease now id).2.status = .acquired ↔ m.Available id := by
  rw [Available, ← evict_isSome_iff, ← AList.lookup_isSome, acquireLease]
  cases hlookup : m.entries.lookup id with
  | none =>
    have := not_inUse_of_lookup hlookup
    cases hevict : m.evict <;> cases id <;> simp [this]
  | some entry =>
    have := inUse_of_lookup hlookup
    cases huse : entry.inUse <;> cases id <;> simp [this, huse]

theorem commitLease_inUse {state : SessionHandleState} (hid : id ≠ []) :
    (m.commitLease now id state).InUse other ↔ other ≠ id ∧ m.InUse other := by
  rw [commitLease, if_neg (by simpa using hid)]
  simp only [inUse_insert]
  grind

theorem releaseLease_inUse (hid : id ≠ []) :
    (m.releaseLease now id).InUse other ↔ other ≠ id ∧ m.InUse other := by
  rw [releaseLease, if_neg (by simpa using hid)]
  cases hlookup : m.entries.lookup id with
  | none =>
    have := not_inUse_of_lookup hlookup
    grind
  | some entry =>
    simp only
    split_ifs
    · simp only [inUse_insert]
      grind
    · exact inUse_erase

theorem discardLeasedState_inUse : (m.discardLeasedState id).InUse other ↔ m.InUse other := by
  rw [discardLeasedState]
  split_ifs
  · rfl
  · cases hlookup : m.entries.lookup id with
    | none => rfl
    | some entry =>
      have := inUse_of_lookup hlookup
      simp only [inUse_insert]
      grind

theorem collectExpired_inUse : (m.collectExpired now).1.InUse id ↔ m.InUse id := by
  simp only [InUse, collectExpired, AList.mem_lookup_iff, List.mem_filter]
  constructor
  · rintro ⟨entry, ⟨hmem, _⟩, huse⟩
    exact ⟨entry, hmem, huse⟩
  · rintro ⟨entry, hmem, huse⟩
    exact ⟨entry, ⟨hmem, by simp [Entry.expired, huse]⟩, huse⟩

end SessionHandleManager

end InferFlux.Scheduler
