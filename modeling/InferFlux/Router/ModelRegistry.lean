import Mathlib.Data.List.Basic

/-!
# The model registry

Embeds `ModelRegistry::ApplyEntries` from `scheduler/model_registry.cpp`: the difference between
the models that a registry file asks for and the models that the registry manages is unloaded
and loaded. The maps of the source are ordered by path, as `Std.TreeMap` is. What the router
makes of a call is up to it, and so is which paths lead to one artifact.

A pass keeps the router's calls with their answers; `ModelRouter.answer` is the router's state
after one of them. `Reconciles` says what is left to do for each path while the two loops run.
-/

namespace InferFlux.Registry

open Std List

structure ModelLoadSpec where
  id : String := ""
  path : String := ""
  format : String := "auto"
  backend : String := ""
  makeDefault : Bool := false
  device : Option String := none
  contextSize : Option Int := none
  gpuLayers : Option Int := none
  maxParallelSequences : Option Int := none
  embeddingBatchSize : Option Int := none
  kvCacheType : Option String := none
  deriving DecidableEq, Repr

/-- A router with states `ρ`. `LoadModel` returns the id of the model, or an empty one. -/
structure ModelRouter (ρ : Type) where
  loadModel : ρ → ModelLoadSpec → String × ρ
  unloadModel : ρ → String → Bool × ρ

structure ModelRegistry (ρ : Type) where
  router : ρ
  pathToId : TreeMap String String := {}
  specifications : TreeMap String ModelLoadSpec := {}

inductive RouterCall where
  | unload (id : String) (ok : Bool)
  | load (spec : ModelLoadSpec) (assignedId : String)
  deriving DecidableEq, Repr

namespace RouterCall

@[grind =]
def loaded : RouterCall → Bool
  | unload .. => false
  | load _ assignedId => assignedId ≠ ""

@[grind =]
def unloaded : RouterCall → Bool
  | unload _ ok => ok
  | load .. => false

end RouterCall

/-- A call of `ApplyEntries` under way: its return value and the router's calls so far. -/
structure Pass (ρ : Type) extends ModelRegistry ρ where
  net : Int := 0
  calls : List RouterCall := []

abbrev Desired := TreeMap String ModelLoadSpec

/-- The entries by path; `none` where an id or an artifact occurs twice. -/
def collect (equivalent : String → String → Bool) :
    List ModelLoadSpec → List String → Desired → Option Desired
  | [], _, desired => some desired
  | e :: entries, ids, desired =>
    if desired.contains e.path || (e.id ≠ "" && ids.contains e.id) ||
        desired.keys.any fun path => equivalent path e.path then none
    else
      collect equivalent entries (if e.id = "" then ids else e.id :: ids) (desired.insert e.path e)

/-- The entries that a call will apply; `none` where it is rejected, also for a managed model
whose specification has changed. -/
def accept (equivalent : String → String → Bool) (entries : List ModelLoadSpec)
    (specifications : TreeMap String ModelLoadSpec) : Option Desired :=
  (collect equivalent entries [] {}).filter fun desired =>
    !specifications.toList.any fun (path, spec) => desired[path]?.any (· ≠ spec)

namespace ModelRouter

variable {ρ : Type} (router : ModelRouter ρ)

def unload (p : Pass ρ) (path : String) : Pass ρ :=
  let (ok, state) := router.unloadModel p.router (p.pathToId.getD path "")
  let p := { p with
    router := state
    calls := p.calls ++ [.unload (p.pathToId.getD path "") ok] }
  if ok then
    { p with
      net := p.net - 1
      specifications := p.specifications.erase path
      pathToId := p.pathToId.erase path }
  else p

def load (p : Pass ρ) (entry : String × ModelLoadSpec) : Pass ρ :=
  if p.pathToId.contains entry.1 then p
  else
    let (assignedId, state) := router.loadModel p.router entry.2
    let p := { p with router := state, calls := p.calls ++ [.load entry.2 assignedId] }
    if assignedId = "" then p
    else
      { p with
        net := p.net + 1
        pathToId := p.pathToId.insert entry.1 assignedId
        specifications := p.specifications.insert entry.1 entry.2 }

def applyEntries (equivalent : String → String → Bool) (entries : List ModelLoadSpec)
    (r : ModelRegistry ρ) : Pass ρ :=
  match accept equivalent entries r.specifications with
  | none => { r with }
  | some desired =>
    let toRemove := r.pathToId.keys.filter (!desired.contains ·)
    desired.toList.foldl router.load (toRemove.foldl router.unload { r with })

/-- The router's state after a call, if it gives this answer to it. -/
@[grind =]
def answer (s : ρ) : RouterCall → Option ρ
  | .unload id ok =>
    let (ok', s) := router.unloadModel s id
    if ok' = ok then some s else none
  | .load spec assignedId =>
    let (assignedId', s) := router.loadModel s spec
    if assignedId' = assignedId then some s else none

def after (start : ρ) (calls : List ((String → String → Bool) × List ModelLoadSpec)) :
    ModelRegistry ρ :=
  calls.foldl (fun r call => (router.applyEntries call.1 call.2 r).toModelRegistry)
    { router := start }

end ModelRouter

/-! ## The two loops -/

theorem collect_spec {equivalent : String → String → Bool} {entries : List ModelLoadSpec}
    {ids : List String} {before desired : Desired}
    (h : collect equivalent entries ids before = some desired) (path : String)
    (spec : ModelLoadSpec) :
    desired[path]? = some spec ↔ before[path]? = some spec ∨ spec ∈ entries ∧ spec.path = path := by
  induction entries generalizing ids before with
  | nil => simp_all [collect]
  | cons e entries ih =>
    unfold collect at h
    split at h
    · cases h
    · grind

/-- Two entries that one call may have. -/
def Distinct (equivalent : String → String → Bool) (e e' : ModelLoadSpec) : Prop :=
  e.path ≠ e'.path ∧ (e'.id ≠ "" → e.id ≠ e'.id) ∧ equivalent e.path e'.path = false

/-- The entry may follow those with these ids and paths. -/
def Free (equivalent : String → String → Bool) (ids : List String) (before : Desired)
    (e : ModelLoadSpec) : Prop :=
  e.path ∉ before ∧ (e.id ≠ "" → e.id ∉ ids) ∧ ∀ path ∈ before, equivalent path e.path = false

theorem collect_eq_none_iff (equivalent : String → String → Bool) (entries : List ModelLoadSpec)
    (ids : List String) (before : Desired) :
    collect equivalent entries ids before = none ↔
      ¬ (entries.Pairwise (Distinct equivalent) ∧ ∀ e ∈ entries, Free equivalent ids before e) := by
  induction entries generalizing ids before with
  | nil => simp [collect]
  | cons e entries ih =>
    have hfree (e' : ModelLoadSpec) :
        Free equivalent (if e.id = "" then ids else e.id :: ids) (before.insert e.path e) e' ↔
          Free equivalent ids before e' ∧ Distinct equivalent e e' := by
      unfold Free Distinct
      constructor <;> grind
    unfold collect
    split
    next hdup =>
      have hfirst : ¬ Free equivalent ids before e := by grind [Free]
      simp [hfirst]
    next hdup =>
      have hfirst : Free equivalent ids before e := by simpa [Free, and_assoc] using hdup
      simp only [ih, hfree, pairwise_cons, forall_mem_cons, hfirst, forall_and]
      tauto

/-- A call is rejected for two entries with one path, id or artifact, or for one that asks for
another specification of a managed path. -/
theorem accept_eq_none_iff {equivalent : String → String → Bool} {entries : List ModelLoadSpec}
    {specifications : TreeMap String ModelLoadSpec} :
    accept equivalent entries specifications = none ↔
      ¬ entries.Pairwise (Distinct equivalent) ∨
        ∃ e ∈ entries, ∃ spec, specifications[e.path]? = some spec ∧ e ≠ spec := by
  have hnone := collect_eq_none_iff equivalent entries [] {}
  unfold accept
  cases hcollect : collect equivalent entries [] {} with
  | none => simpa [hcollect, Free] using Or.inl hnone
  | some desired =>
    have hdesired (path : String) (e : ModelLoadSpec) :
        desired[path]? = some e ↔ e ∈ entries ∧ e.path = path := by
      simpa using collect_spec hcollect path e
    have hpairwise : entries.Pairwise (Distinct equivalent) := by
      simpa [hcollect, Free] using hnone
    have hchanged : specifications.toList.any (fun (path, spec) => desired[path]?.any (· ≠ spec)) =
        true ↔ ∃ e ∈ entries, ∃ spec, specifications[e.path]? = some spec ∧ e ≠ spec := by
      simp only [any_eq_true, Option.any_eq_true, hdesired, Prod.exists,
        TreeMap.mem_toList_iff_getElem?_eq_some, decide_eq_true_eq]
      grind
    simp [hpairwise, ← hchanged]

@[grind =]
def ModelRegistry.SameKeys {ρ : Type} (r : ModelRegistry ρ) : Prop :=
  ∀ path, path ∈ r.pathToId ↔ path ∈ r.specifications

/-- While paths are left to unload and to load: the maps have the same keys, a managed model has
the specification that is asked for, and only the paths that are left, or that the router
refused, differ from what is asked for. -/
structure Reconciles {ρ : Type} (router : ModelRouter ρ) (start : ρ) (desired : Desired)
    (toRemove toLoad : List String) (p : Pass ρ) : Prop where
  same_keys : p.SameKeys
  stored : ∀ path spec, desired[path]? = some spec → path ∈ p.pathToId →
    p.specifications[path]? = some spec
  managed : ∀ path ∈ p.pathToId, path ∈ desired ∨ path ∈ toRemove ∨
    .unload (p.pathToId.getD path "") false ∈ p.calls
  loaded : ∀ path spec, desired[path]? = some spec →
    path ∈ p.pathToId ∨ path ∈ toLoad ∨ .load spec "" ∈ p.calls
  net_eq : p.net = p.calls.countP RouterCall.loaded - p.calls.countP RouterCall.unloaded
  answered : p.calls.foldlM router.answer start = some p.router

section

variable {ρ : Type} (router : ModelRouter ρ) {start : ρ} {desired : Desired} {p : Pass ρ}
  {path : String} {toRemove toLoad : List String}

theorem Reconciles.unload (h : Reconciles router start desired (path :: toRemove) toLoad p)
    (hpath : path ∉ desired) : Reconciles router start desired toRemove toLoad (router.unload p path) := by
  obtain ⟨hkeys, hstored, hmanaged, hloaded, hnet, hanswered⟩ := h
  unfold ModelRouter.unload
  rcases hcall : router.unloadModel p.router (p.pathToId.getD path "") with ⟨ok, state⟩
  have hanswered' : (p.calls ++ [RouterCall.unload (p.pathToId.getD path "") ok]).foldlM router.answer start =
      some state := by
    simp [foldlM_append, hanswered, ModelRouter.answer, hcall]
  cases ok with
  | false => refine ⟨hkeys, hstored, ?_, ?_, ?_, hanswered'⟩ <;> grind
  | true => refine ⟨?_, ?_, ?_, ?_, ?_, hanswered'⟩ <;> grind

theorem Reconciles.load {spec : ModelLoadSpec} (h : Reconciles router start desired [] (path :: toLoad) p)
    (hpath : desired[path]? = some spec) :
    Reconciles router start desired [] toLoad (router.load p (path, spec)) := by
  obtain ⟨hkeys, hstored, hmanaged, hloaded, hnet, hanswered⟩ := h
  unfold ModelRouter.load
  split_ifs with hin
  · refine ⟨hkeys, hstored, hmanaged, ?_, hnet, hanswered⟩
    grind
  · rcases hcall : router.loadModel p.router spec with ⟨id, state⟩
    have hanswered' : (p.calls ++ [RouterCall.load spec id]).foldlM router.answer start = some state := by
      simp [foldlM_append, hanswered, ModelRouter.answer, hcall]
    by_cases hid : id = ""
    · simp only [hid] at hanswered' ⊢
      refine ⟨hkeys, hstored, ?_, ?_, ?_, hanswered'⟩ <;> grind
    · simp only [hid]
      refine ⟨?_, ?_, ?_, ?_, ?_, hanswered'⟩ <;> grind

theorem Reconciles.unloads (htoRemove : ∀ path ∈ toRemove, path ∉ desired)
    (h : Reconciles router start desired toRemove toLoad p) :
    Reconciles router start desired [] toLoad (toRemove.foldl router.unload p) := by
  induction toRemove generalizing p with
  | nil => exact h
  | cons path toRemove ih =>
    obtain ⟨hpath, hrest⟩ := forall_mem_cons.mp htoRemove
    exact ih hrest (h.unload router hpath)

theorem Reconciles.loads {entries : List (String × ModelLoadSpec)}
    (hentries : ∀ entry ∈ entries, desired[entry.1]? = some entry.2)
    (h : Reconciles router start desired [] (entries.map Prod.fst) p) :
    Reconciles router start desired [] [] (entries.foldl router.load p) := by
  induction entries generalizing p with
  | nil => exact h
  | cons entry entries ih =>
    obtain ⟨hentry, hrest⟩ := forall_mem_cons.mp hentries
    exact ih hrest (h.load router hentry)

variable {equivalent : String → String → Bool} {entries : List ModelLoadSpec} {r : ModelRegistry ρ}

theorem applyEntries_reconciles (hkeys : r.SameKeys)
    (haccept : accept equivalent entries r.specifications = some desired) :
    Reconciles router r.router desired [] [] (router.applyEntries equivalent entries r) := by
  unfold ModelRouter.applyEntries
  rw [haccept]
  have hunchanged := (Option.filter_eq_some_iff.mp haccept).2
  simp only [Bool.not_eq_true', any_eq_false] at hunchanged
  refine Reconciles.loads router (fun entry => TreeMap.mem_toList_iff_getElem?_eq_some.mp)
    (Reconciles.unloads router (by grind) ⟨hkeys, ?_, ?_, ?_, rfl, rfl⟩)
  · intro path spec hspec hin
    obtain ⟨stored, hstored⟩ := Option.isSome_iff_exists.mp
      (TreeMap.isSome_getElem?_iff_mem.mpr ((hkeys path).mp hin))
    have hsame := hunchanged (path, stored) (TreeMap.mem_toList_iff_getElem?_eq_some.mpr hstored)
    obtain rfl : spec = stored := by simpa [hspec] using hsame
    exact hstored
  · grind
  · grind

theorem sameKeys_applyEntries (hkeys : r.SameKeys) :
    (router.applyEntries equivalent entries r).SameKeys := by
  cases haccept : accept equivalent entries r.specifications with
  | none => simpa [ModelRouter.applyEntries, haccept] using hkeys
  | some desired => exact (applyEntries_reconciles router hkeys haccept).same_keys

theorem sameKeys_after (start : ρ) (calls : List ((String → String → Bool) × List ModelLoadSpec)) :
    (router.after start calls).SameKeys := by
  refine foldlRecOn calls _ (fun path => by simp) fun r hkeys call _ => ?_
  exact sameKeys_applyEntries router hkeys

/-- The paths that a call will apply are those of its entries. -/
theorem mem_desired_iff (haccept : accept equivalent entries r.specifications = some desired)
    (path : String) : path ∈ desired ↔ ∃ e ∈ entries, e.path = path := by
  have hdesired := collect_spec (Option.filter_eq_some_iff.mp haccept).1 path
  rw [← TreeMap.isSome_getElem?_iff_mem, Option.isSome_iff_exists]
  simp [hdesired]

/-- A call leaves alone what is as it asks for. -/
theorem applyEntries_settled (hsame : ∀ path, path ∈ r.pathToId ↔ ∃ e ∈ entries, e.path = path) :
    router.applyEntries equivalent entries r = { r with } := by
  unfold ModelRouter.applyEntries
  cases haccept : accept equivalent entries r.specifications with
  | none => rfl
  | some desired =>
    have hin := mem_desired_iff haccept
    have hremove : r.pathToId.keys.filter (!desired.contains ·) = [] := by
      rw [filter_eq_nil_iff]
      grind
    have hloads : ∀ entry ∈ desired.toList, entry.1 ∈ r.pathToId := by grind
    simp only [hremove, foldl_nil]
    generalize desired.toList = entries at hloads
    induction entries with
    | nil => rfl
    | cons entry entries ih =>
      obtain ⟨hentry, hrest⟩ := forall_mem_cons.mp hloads
      have hload : router.load { r with } entry = { r with } := if_pos hentry
      rw [foldl_cons, hload]
      exact ih hrest

end

/-- After any calls of `ApplyEntries`, with any answers of the router: a call is rejected exactly
for a duplicate or a changed specification, and then changes nothing. After one that is accepted,
the managed paths are those of its entries, but for the unloads and loads that the router refused,
and the managed entries are stored. Where the router refused nothing, the same entries cause no
further call. Both maps have the same keys, the router is in the state in which its recorded calls
and answers leave it, and the return value is the number of loads minus that of unloads. -/
theorem registry_reconciles {ρ : Type} (router : ModelRouter ρ) (start : ρ)
    (calls : List ((String → String → Bool) × List ModelLoadSpec))
    (equivalent : String → String → Bool) (entries : List ModelLoadSpec) :
    let r := router.after start calls
    let p := router.applyEntries equivalent entries r
    let rejected := ¬ entries.Pairwise (Distinct equivalent) ∨
      ∃ e ∈ entries, ∃ spec, r.specifications[e.path]? = some spec ∧ e ≠ spec
    (rejected → p = { r with }) ∧
    (¬ rejected →
      (∀ path ∈ p.pathToId, (∃ e ∈ entries, e.path = path) ∨
        .unload (p.pathToId.getD path "") false ∈ p.calls) ∧
      (∀ e ∈ entries, e.path ∈ p.pathToId ∨ .load e "" ∈ p.calls) ∧
      (∀ e ∈ entries, e.path ∈ p.pathToId → p.specifications[e.path]? = some e) ∧
      ((∀ call ∈ p.calls, call.loaded ∨ call.unloaded) → ∀ equivalent',
        router.applyEntries equivalent' entries p.toModelRegistry = { p.toModelRegistry with })) ∧
    p.SameKeys ∧
    p.calls.foldlM router.answer r.router = some p.router ∧
    p.net = p.calls.countP RouterCall.loaded - p.calls.countP RouterCall.unloaded := by
  intro r p rejected
  have hkeys := sameKeys_after router start calls
  have hafter : p.SameKeys := sameKeys_applyEntries router hkeys
  have hrejected : accept equivalent entries r.specifications = none ↔ rejected :=
    accept_eq_none_iff
  rw [← hrejected]
  cases haccept : accept equivalent entries r.specifications with
  | none =>
    have hsame : p = { r with } := by simp [p, ModelRouter.applyEntries, haccept]
    exact ⟨fun _ => hsame, fun h => absurd rfl h, hafter, by rw [hsame]; exact ⟨rfl, rfl⟩⟩
  | some desired =>
    obtain ⟨-, hstored, hmanaged, hloaded, hnet, hanswered⟩ :
        Reconciles router r.router desired [] [] p :=
      applyEntries_reconciles router hkeys haccept
    have hin := mem_desired_iff haccept
    have hdesired {e : ModelLoadSpec} (he : e ∈ entries) : desired[e.path]? = some e :=
      (collect_spec (Option.filter_eq_some_iff.mp haccept).1 _ _).mpr (.inr ⟨he, rfl⟩)
    refine ⟨fun h => (nomatch h), fun _ => ⟨?_, ?_, ?_, ?_⟩, hafter, hanswered, hnet⟩
    · intro path hpath
      simpa [hin] using hmanaged path hpath
    · intro e he
      simpa using hloaded e.path e (hdesired he)
    · exact fun e he => hstored e.path e (hdesired he)
    · intro hok equivalent'
      have hunload (id : String) : .unload id false ∉ p.calls := fun h => by
        simpa [RouterCall.loaded, RouterCall.unloaded] using hok _ h
      have hload (e : ModelLoadSpec) : .load e "" ∉ p.calls := fun h => by
        simpa [RouterCall.loaded, RouterCall.unloaded] using hok _ h
      refine applyEntries_settled router fun path => ⟨fun hpath => ?_, ?_⟩
      · simpa [hin, hunload] using hmanaged path hpath
      · rintro ⟨e, he, rfl⟩
        simpa [hload] using hloaded e.path e (hdesired he)

/-- The second of two models cannot be loaded. -/
theorem registry_reconciles_failed_load :
    let router : ModelRouter Nat :=
      { loadModel := fun s spec => (if spec.path = "b" then "" else "m", s + 1)
        unloadModel := fun s _ => (true, s + 1) }
    let entries : List ModelLoadSpec := [{ path := "a" }, { path := "b" }]
    let p := router.applyEntries (fun _ _ => false) entries { router := 0 }
    p.calls = [.load { path := "a" } "m", .load { path := "b" } ""] ∧ p.net = 1 ∧
      p.calls.foldlM router.answer 0 = some p.router ∧
      ∀ e ∈ entries, e.path ∈ p.pathToId ∨ .load e "" ∈ p.calls := by
  intro router entries p
  obtain ⟨-, haccepted, -, hanswered, -⟩ :=
    registry_reconciles router 0 [] (fun _ _ => false) entries
  refine ⟨by decide, by decide, hanswered, (haccepted ?_).2.1⟩
  simp [entries, Distinct, ModelRouter.after]

end InferFlux.Registry
