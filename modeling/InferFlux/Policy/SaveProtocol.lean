import InferFlux.Policy.FileContents

/-!
# Saving the policy store

Embeds the file operations of `PolicyStore::Save` and the two files that `Load` tries, from
`policy/policy_store.cpp`. Every call to the filesystem takes full effect or fails without
effect; the outcomes of the calls are a list, and where it ends, the process stops.
-/

namespace InferFlux.Policy

open InferFlux.Text

/-- The contents of the file of the store, of the temporary file, and of the backup. -/
structure Files where
  target : Option Bytes := none
  temp : Option Bytes := none
  backup : Option Bytes := none
  deriving DecidableEq, Repr

inductive SaveEnd where
  | stopped
  | returned (ok : Bool)
  deriving DecidableEq, Repr

def permissionsStep (files : Files) : List Bool → SaveEnd × Files
  | [] => (.stopped, files)
  | _ :: _ => (.returned true, files)

def renamed (files : Files) : Files := { files with target := files.temp, temp := none }

def cleanupStep (files : Files) : List Bool → SaveEnd × Files
  | [] => (.stopped, files)
  | true :: _ => (.returned false, { files with temp := none })
  | false :: _ => (.returned false, files)

def retryStep (files : Files) : List Bool → SaveEnd × Files
  | [] => (.stopped, files)
  | true :: rest => permissionsStep (renamed files) rest
  | false :: rest => cleanupStep files rest

def removeStep (files : Files) : List Bool → SaveEnd × Files
  | [] => (.stopped, files)
  | true :: rest => retryStep { files with target := none } rest
  | false :: rest => retryStep files rest

def renameStep (files : Files) : List Bool → SaveEnd × Files
  | [] => (.stopped, files)
  | true :: rest => permissionsStep (renamed files) rest
  | false :: rest => removeStep files rest

def copyStep (files : Files) : List Bool → SaveEnd × Files
  | [] => (.stopped, files)
  | true :: rest => renameStep { files with backup := files.target } rest
  | false :: rest => renameStep files rest

def existsStep (files : Files) : List Bool → SaveEnd × Files
  | [] => (.stopped, files)
  | ok :: rest => if ok && files.target.isSome then copyStep files rest else renameStep files rest

def writeStep (contents : Bytes) (files : Files) : List Bool → SaveEnd × Files
  | [] => (.stopped, files)
  | true :: rest => existsStep { files with temp := some contents } rest
  | false :: _ => (.returned false, files)

/-- `Save`, when its calls have these outcomes. -/
def save (cipher : Option Cipher) (nonce : Option Nonce) (store : PolicyStore) (files : Files)
    (outcomes : List Bool) : SaveEnd × Files :=
  match serialize cipher nonce store with
  | none => (.returned false, files)
  | some contents => writeStep contents files outcomes

/-- `Load` in a fresh store: the first of the two files that can be read. -/
def load (cipher : Option Cipher) (files : Files) : Option PolicyStore :=
  (files.target.bind (parseContents cipher)).or (files.backup.bind (parseContents cipher))

/-- What is loaded after a save that ended like this is the old or the new state, and the one
that it reports. -/
structure Atomic (old new : Option PolicyStore) (ended : SaveEnd) (after : Option PolicyStore) :
    Prop where
  either : after = old ∨ after = new
  saved : ended = .returned true → after = new
  failed : ended = .returned false → after = old

/-- The outcomes of the first rename and of the calls after it. -/
def renameOutcomes (files : Files) : List Bool → List Bool
  | true :: ok :: rest => if ok && files.target.isSome then rest.drop 1 else rest
  | _ => []

def backedUp (files : Files) (outcomes : List Bool) : Bool :=
  files.target.isSome && outcomes.take 3 = [true, true, true]

def getsRenamed : List Bool → Bool
  | true :: _ => true
  | false :: _ :: true :: _ => true
  | _ => false

def removesTarget : List Bool → Bool
  | false :: true :: _ => true
  | _ => false

/-- The save gets to the point where it reports that it failed. -/
def reportsFailure : List Bool → Bool
  | false :: _ :: false :: _ :: _ => true
  | _ => false

/-- The calls get to the new file, or they leave a file that says what was there before. -/
def SafeCalls (cipher : Option Cipher) (new : Option PolicyStore) (files : Files)
    (outcomes : List Bool) : Prop :=
  let target := files.target.bind (parseContents cipher)
  let backup := files.backup.bind (parseContents cipher)
  let renames := renameOutcomes files outcomes
  getsRenamed renames = true ∨
    (backedUp files outcomes = true → target.isSome = true ∨ backup = none) ∧
    (backedUp files outcomes = false → removesTarget renames = true →
      backup = load cipher files ∨ reportsFailure renames = false ∧ backup = new)

/-- What the calls after the backup do: the new file is there, or the old one is there unless
it has been deleted. -/
inductive RenameEnd (files : Files) (outcomes : List Bool) : SaveEnd × Files → Prop where
  | renamed {r : SaveEnd × Files} (hrenamed : getsRenamed outcomes = true)
      (htarget : r.2.target = files.temp) (hended : r.1 ≠ .returned false) :
      RenameEnd files outcomes r
  | kept {r : SaveEnd × Files} (hrenamed : getsRenamed outcomes = false)
      (htarget : r.2.target = if removesTarget outcomes then none else files.target)
      (hbackup : r.2.backup = files.backup) (hended : r.1 ≠ .returned true)
      (hfailed : r.1 = .returned false ↔ reportsFailure outcomes = true) :
      RenameEnd files outcomes r

theorem renameStep_end (files : Files) (outcomes : List Bool) :
    RenameEnd files outcomes (renameStep files outcomes) := by
  match outcomes with
  | [] => exact .kept rfl rfl rfl (by simp [renameStep]) (by simp [renameStep, reportsFailure])
  | [true] | true :: _ :: _ => exact .renamed rfl rfl (by simp [renameStep, permissionsStep])
  | [false] =>
    exact .kept rfl rfl rfl (by simp [renameStep, removeStep])
      (by simp [renameStep, removeStep, reportsFailure])
  | [false, ok] =>
    cases ok <;> exact .kept rfl rfl rfl (by simp [renameStep, removeStep, retryStep])
      (by simp [renameStep, removeStep, retryStep, reportsFailure])
  | [false, ok, true] | false :: ok :: true :: _ :: _ =>
    cases ok <;> exact .renamed rfl rfl (by simp [renameStep, removeStep, retryStep, permissionsStep])
  | [false, ok, false] =>
    cases ok <;> exact .kept rfl rfl rfl
      (by simp [renameStep, removeStep, retryStep, cleanupStep])
      (by simp [renameStep, removeStep, retryStep, cleanupStep, reportsFailure])
  | false :: ok :: false :: clean :: _ =>
    cases ok <;> cases clean <;> exact .kept rfl rfl rfl
      (by simp [renameStep, removeStep, retryStep, cleanupStep])
      (by simp [renameStep, removeStep, retryStep, cleanupStep, reportsFailure])

def prepared (contents : Bytes) (files : Files) (outcomes : List Bool) : Files :=
  { files with
    temp := some contents
    backup := if backedUp files outcomes then files.target else files.backup }

theorem writeStep_eq_renameStep (contents : Bytes) (files : Files) (rest : List Bool) :
    writeStep contents files (true :: rest) =
      renameStep (prepared contents files (true :: rest)) (renameOutcomes files (true :: rest)) := by
  cases htarget : files.target with
  | none =>
    rcases rest with _ | ⟨ok, rest⟩ <;>
      simp [writeStep, existsStep, renameStep, prepared, backedUp, renameOutcomes, htarget]
  | some target =>
    match rest with
    | [] => simp [writeStep, existsStep, renameStep, prepared, backedUp, renameOutcomes, htarget]
    | false :: _ =>
      simp [writeStep, existsStep, prepared, backedUp, renameOutcomes, htarget]
    | [true] =>
      simp [writeStep, existsStep, copyStep, renameStep, prepared, backedUp, renameOutcomes, htarget]
    | true :: copied :: _ =>
      cases copied <;>
        simp [writeStep, existsStep, copyStep, prepared, backedUp, renameOutcomes, htarget]

section

variable {cipher : Option Cipher} {contents : Bytes} {new : PolicyStore} {files : Files}
  {outcomes : List Bool} {r : SaveEnd × Files}

theorem load_of_target (hnew : parseContents cipher contents = some new)
    (htarget : files.target = some contents) : load cipher files = some new := by
  simp [load, htarget, hnew]

/-- When nothing is written, the state is the old one, and the save does not report success. -/
theorem atomic_of_unchanged {old new : Option PolicyStore} {ended : SaveEnd}
    (hended : ended ≠ .returned true) : Atomic old new ended old :=
  ⟨.inl rfl, fun h => absurd h hended, fun _ => rfl⟩

/-- When the file has not been replaced, the save has to leave the old state, unless it stops
where another one says what the new file says. -/
theorem atomic_kept_iff {old new after : Option PolicyStore} {ended : SaveEnd} {failed : Bool}
    (hended : ended ≠ .returned true) (hfailed : ended = .returned false ↔ failed = true) :
    Atomic old new ended after ↔ after = old ∨ failed = false ∧ after = new := by
  constructor
  · intro h
    cases failed with
    | false => exact h.either.imp_right fun hafter => ⟨rfl, hafter⟩
    | true => exact .inl (h.failed (hfailed.mpr rfl))
  · rintro (rfl | ⟨rfl, rfl⟩)
    · exact atomic_of_unchanged hended
    · exact ⟨.inr rfl, fun h => absurd h hended, fun h => absurd (hfailed.mp h) (by simp)⟩

/-- A save that writes its file is atomic exactly if its calls are safe. -/
theorem atomic_writeStep_iff (hnew : parseContents cipher contents = some new) (rest : List Bool) :
    Atomic (load cipher files) (some new) (writeStep contents files (true :: rest)).1
        (load cipher (writeStep contents files (true :: rest)).2) ↔
      SafeCalls cipher (some new) files (true :: rest) := by
  rw [writeStep_eq_renameStep]
  have hend := renameStep_end (prepared contents files (true :: rest))
    (renameOutcomes files (true :: rest))
  generalize renameStep _ _ = r at hend
  simp only [SafeCalls]
  cases hrenamed : getsRenamed (renameOutcomes files (true :: rest)) with
  | true =>
    cases hend with
    | kept h => simp [hrenamed] at h
    | renamed _ htarget hended =>
      rw [load_of_target hnew htarget]
      exact ⟨fun _ => .inl rfl, fun _ => ⟨.inr rfl, fun _ => rfl, fun h => absurd h hended⟩⟩
  | false =>
    cases hend with
    | renamed h => simp [hrenamed] at h
    | kept _ hleft hbackup hended hfailed =>
      rw [atomic_kept_iff hended hfailed]
      cases hbacked : backedUp files (true :: rest) with
      | true =>
        have hload : load cipher r.2 = files.target.bind (parseContents cipher) := by
          simp only [load, hleft, hbackup, prepared, hbacked, if_true]
          split_ifs <;> simp
        rw [hload]
        cases htarget : files.target.bind (parseContents cipher) with
        | none =>
          rw [load, htarget, Option.none_or, eq_comm]
          simp
        | some state => simp [load, htarget]
      | false =>
        cases hremoves : removesTarget (renameOutcomes files (true :: rest)) <;>
          simp [load, hleft, hbackup, prepared, hbacked, hremoves]

end

/-- After a save that reports success, what it has written is loaded. -/
theorem load_of_saved {cipher : Option Cipher} {nonce : Option Nonce} {store : PolicyStore}
    {files files' : Files} {outcomes : List Bool}
    (hsaved : save cipher nonce store files outcomes = (.returned true, files')) :
    load cipher files' = some (parsePlaintext store.plaintext) := by
  cases hcontents : serialize cipher nonce store with
  | none => simp [save, hcontents] at hsaved
  | some contents =>
    simp only [save, hcontents] at hsaved
    match outcomes with
    | [] | false :: _ => simp [writeStep] at hsaved
    | true :: rest =>
      have hend := renameStep_end (prepared contents files (true :: rest))
        (renameOutcomes files (true :: rest))
      rw [← writeStep_eq_renameStep, hsaved] at hend
      cases hend with
      | renamed _ htarget => exact load_of_target (parseContents_of_serialize hcontents) htarget
      | kept _ _ _ hended => exact absurd rfl hended

/-- The new state is what the contents of the new file say. In every run of its calls, wherever
it stops, a save leaves the old or the new state, the one that it reports, exactly if there is
nothing to write, or its calls are safe. -/
theorem atomic_iff (cipher : Option Cipher) (nonce : Option Nonce) (store : PolicyStore)
    (files : Files) (outcomes : List Bool) :
    let new := (serialize cipher nonce store).bind (parseContents cipher)
    Atomic (load cipher files) new (save cipher nonce store files outcomes).1
        (load cipher (save cipher nonce store files outcomes).2) ↔
      serialize cipher nonce store = none ∨ SafeCalls cipher new files outcomes := by
  cases hcontents : serialize cipher nonce store with
  | none => simpa [save, hcontents] using atomic_of_unchanged (by simp)
  | some contents =>
    have hnew := parseContents_of_serialize hcontents
    simp only [save, hcontents, Option.bind_some, hnew, reduceCtorEq, false_or]
    match outcomes with
    | [] | false :: _ =>
      exact iff_of_true (atomic_of_unchanged (by simp [writeStep]))
        (.inr (by simp [backedUp, renameOutcomes, removesTarget]))
    | true :: rest => exact atomic_writeStep_iff hnew rest

/-- The check for the file and the first rename fail, the file is deleted, and the second rename
fails: the save reports that it failed, and the old state is lost. -/
theorem failed_save_loses_store :
    let store : PolicyStore := { rateLimitPerMinute := 7 }
    let files : Files := { target := some store.plaintext }
    let saved := save none none { rateLimitPerMinute := 8 } files
      [true, false, false, true, false, true]
    (load none files).map (·.rateLimitPerMinute) = some 7 ∧ saved.1 = .returned false ∧
      (load none saved.2).isNone = true := by
  decide

end InferFlux.Policy
