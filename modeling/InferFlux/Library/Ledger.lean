import Mathlib.Data.Multiset.AddSub

/-!
# Ledgers of references

An owner takes references and gives them up. Posting an entry to a ledger changes the
multiset of references held, and fails when something is given up that is not held. A ledger
is settled when all its entries can be posted and nothing is held in the end: each reference
taken has then been given up exactly once.
-/

namespace Ledger

variable {α : Type} [DecidableEq α]

inductive Entry (α : Type) where
  | take (refs : List α)
  | give (refs : List α)

def post (held : Multiset α) : Entry α → Option (Multiset α)
  | .take refs => some (held + Multiset.ofList refs)
  | .give refs =>
    if Multiset.ofList refs ≤ held then some (held - Multiset.ofList refs) else none

def postAll (held : Multiset α) : List (Entry α) → Option (Multiset α)
  | [] => some held
  | entry :: entries => (post held entry).bind fun held' => postAll held' entries

/-- The entries can be posted, and nothing is held in the end. -/
def Settled (entries : List (Entry α)) : Prop := postAll 0 entries = some 0

instance (entries : List (Entry α)) : Decidable (Settled entries) :=
  inferInstanceAs (Decidable (postAll 0 entries = some 0))

/-- Posting the entries turns what is held from `held` to `held'`. -/
def Posts (held : Multiset α) (entries : List (Entry α)) (held' : Multiset α) : Prop :=
  postAll held entries = some held'

variable {held held' held'' : Multiset α} {entries entries' : List (Entry α)}

theorem Posts.nil (held : Multiset α) : Posts held [] held := rfl

theorem Posts.take (held : Multiset α) (refs : List α) :
    Posts held [.take refs] (held + Multiset.ofList refs) := rfl

theorem Posts.give (held : Multiset α) (refs : List α) :
    Posts (held + Multiset.ofList refs) [.give refs] held := by
  have hle : Multiset.ofList refs ≤ held + Multiset.ofList refs := Multiset.le_add_left _ _
  simp [Posts, postAll, post, if_pos hle, Multiset.add_sub_cancel_right]

theorem Posts.append (h : Posts held entries held') (h' : Posts held' entries' held'') :
    Posts held (entries ++ entries') held'' := by
  induction entries generalizing held with
  | nil =>
    obtain rfl := Option.some.inj h
    exact h'
  | cons entry entries ih =>
    obtain ⟨next, hnext, hrest⟩ := Option.bind_eq_some_iff.mp h
    exact Option.bind_eq_some_iff.mpr ⟨next, hnext, ih hrest⟩

theorem post_frame {entry : Entry α} (h : post held entry = some held') (other : Multiset α) :
    post (held + other) entry = some (held' + other) := by
  cases entry with
  | take refs =>
    obtain rfl := Option.some.inj h
    simp [post, Multiset.add_assoc, Multiset.add_comm other]
  | give refs =>
    simp only [post] at h ⊢
    split_ifs at h with hle
    obtain rfl := Option.some.inj h
    have hle' : Multiset.ofList refs ≤ held + other := hle.trans (Multiset.le_add_right _ _)
    obtain ⟨rest, rfl⟩ := Multiset.le_iff_exists_add.mp hle
    rw [if_pos hle', Multiset.add_assoc, Multiset.add_comm, Multiset.add_sub_cancel_right,
      Multiset.add_comm _ rest, Multiset.add_sub_cancel_right]

theorem Posts.frame (h : Posts held entries held') (other : Multiset α) :
    Posts (held + other) entries (held' + other) := by
  induction entries generalizing held with
  | nil =>
    obtain rfl := Option.some.inj h
    exact Posts.nil _
  | cons entry entries ih =>
    obtain ⟨next, hnext, hrest⟩ := Option.bind_eq_some_iff.mp h
    exact Option.bind_eq_some_iff.mpr ⟨next + other, post_frame hnext other, ih hrest⟩

/-- What is left decides whether a ledger is settled. -/
theorem Posts.settled_iff (h : Posts 0 entries held) : Settled entries ↔ held = 0 := by
  rw [Settled, show postAll 0 entries = some held from h, Option.some.injEq]

end Ledger
