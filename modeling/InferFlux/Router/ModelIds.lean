import InferFlux.Router.Isolation

/-!
# Ids of models

An id that has been assigned is never assigned again. Loads check for conflicts in one critical
section and register in another, so that any step may come between the two.
-/

namespace InferFlux.Router

open SingleModelRouter List

variable {s s' : State} {router router' : SingleModelRouter}

/-- What holds of the router between any two of its calls: no retired id is registered, and
the default model is, unless there is none. -/
structure Registered (router : SingleModelRouter) : Prop where
  retired : ∀ id ∈ router.retiredIds, id ∉ router.ids
  named : "" ∉ router.ids
  defaultId : router.defaultModelId = "" ∧ router.models = [] ∨ router.defaultModelId ∈ router.ids

/-- The entry of an id stays the same until the id is retired, for good. -/
structure KeepsIds (router router' : SingleModelRouter) : Prop where
  retired : router.retiredIds ⊆ router'.retiredIds
  entry : ∀ id entry, router.find id = some entry →
    router'.find id = some entry ∨ id ∈ router'.retiredIds

theorem KeepsIds.refl (router : SingleModelRouter) : KeepsIds router router :=
  ⟨fun _ hid => hid, fun _ _ hfind => .inl hfind⟩

theorem KeepsIds.trans {router'' : SingleModelRouter} (h : KeepsIds router router')
    (h' : KeepsIds router' router'') : KeepsIds router router'' := by
  refine ⟨Subset.trans h.retired h'.retired, fun id entry hfind => ?_⟩
  obtain hfind | hretired := h.entry id entry hfind
  · exact h'.entry id entry hfind
  · exact .inr (h'.retired hretired)

variable {id : String}

theorem isSome_find_iff : (router.find id).isSome = true ↔ id ∈ router.ids := by
  simp [find, ids]

theorem ensureUniqueId_ne_empty (router : SingleModelRouter) (preferred : String) :
    router.ensureUniqueId preferred ≠ "" := by
  obtain ⟨n, hn⟩ := FreshName.exists_candidate (idCandidate preferred)
    (router.ids ++ router.retiredIds)
  rw [ensureUniqueId, hn]
  simp only [idCandidate]
  split_ifs <;> simp [*]

theorem mem_ids_addEntry {position : Nat} {preferred : String} {info : ModelInfo} {backend : Nat}
    {makeDefault : Bool} : id ∈ (router.addEntry position preferred info backend makeDefault).ids ↔
      id = router.ensureUniqueId preferred ∨ id ∈ router.ids := by
  have hids : router.ids = (router.models.take position).map (fun entry => entry.info.id) ++
      (router.models.drop position).map fun entry => entry.info.id := by
    rw [← map_append, take_append_drop, ids]
  rw [hids]
  simp only [ids, addEntry, map_append, map_cons, mem_append, mem_cons]
  tauto

theorem RouterMove.keepsIds (hmove : RouterMove s router) (h : Registered s.router) :
    Registered router ∧ KeepsIds s.router router := by
  cases hmove with
  | stays => exact ⟨h, .refl s.router⟩
  | adds position preferred info backend makeDefault =>
    obtain ⟨hids, hretired⟩ := s.router.ensureUniqueId_not_mem preferred
    refine ⟨⟨fun id hid hmem => ?_, fun hmem => ?_, ?_⟩, fun _ hid => hid, fun id entry hfind => ?_⟩
    · obtain rfl | hmem := mem_ids_addEntry.mp hmem
      · exact hretired hid
      · exact h.retired id hid hmem
    · obtain hempty | hmem := mem_ids_addEntry.mp hmem
      · exact ensureUniqueId_ne_empty s.router preferred hempty.symm
      · exact h.named hmem
    · refine .inr (mem_ids_addEntry.mpr ?_)
      simp only [addEntry]
      split_ifs with hdefault
      · exact .inl rfl
      · simp only [Bool.or_eq_true, decide_eq_true_eq, not_or] at hdefault
        exact .inr (h.defaultId.resolve_left fun hempty => hdefault.1 hempty.1)
    · rw [find_addEntry]
      · exact .inl hfind
      · rintro rfl
        exact hids (isSome_find_iff.mp (Option.isSome_of_eq_some hfind))
  | @unloads id _ _ _ hunload =>
    simp only [unloadModel] at hunload
    split at hunload
    · simp at hunload
    · rename_i entry hfound
      split at hunload
      · simp at hunload
      cases hunload
      have hids (id' : String) :
          id' ∈ (s.router.models.filter fun entry => entry.info.id ≠ id).map (fun e => e.info.id) ↔
            id' ∈ s.router.ids ∧ id' ≠ id := by
        simp only [ids, mem_map, mem_filter, decide_eq_true_eq]
        grind
      refine ⟨⟨fun id' hid hmem => ?_, fun hmem => h.named ((hids "").mp hmem).1, ?_⟩,
        subset_cons_self id _, fun id' entry' hfind => ?_⟩
      · obtain ⟨hmem, hne⟩ := (hids id').mp hmem
        exact h.retired id' ((mem_cons.mp hid).resolve_left hne) hmem
      · split_ifs with hdefault
        · cases hmodels : s.router.models.filter fun entry => entry.info.id ≠ id with
          | nil => exact .inl ⟨rfl, rfl⟩
          | cons e models => exact .inr (mem_cons_self ..)
        · obtain ⟨-, hmodels⟩ | hmem := h.defaultId
          · simp [find, hmodels] at hfound
          · exact .inr ((hids _).mpr ⟨hmem, hdefault⟩)
      · by_cases hne : id = id'
        · exact .inr (hne ▸ mem_cons_self ..)
        · exact .inl ((find_filter hne).trans hfind)
  | setsDefault hfind =>
    exact ⟨⟨h.retired, h.named, .inr (isSome_find_iff.mp hfind)⟩, fun _ hid => hid,
      fun _ _ hfind => .inl hfind⟩

theorem run_keepsIds {ops : List Op} {log : List Empty} (h : Registered s.router)
    (hrun : LoggedRun.run step s ops = some (s', log)) :
    Registered s'.router ∧ KeepsIds s.router s'.router := by
  refine LoggedRun.run_induction (P := fun _ t _ => Registered t.router ∧ KeepsIds s.router t.router)
    ⟨h, .refl s.router⟩ ?_ hrun
  intro _ t _ op t' e _ ⟨hregistered, hkeeps⟩ hstep
  obtain ⟨hregistered', hkeeps'⟩ := (step_routerMove hstep).keepsIds hregistered
  exact ⟨hregistered', hkeeps.trans hkeeps'⟩

/-- In every state of a run a new id is neither registered nor retired and the default model
is registered, unless no model is. In no later state does an id have another entry. -/
theorem ids_never_reused {ops later : List Op} {log log' : List Empty}
    (hrun : LoggedRun.run step {} ops = some (s, log))
    (hlater : LoggedRun.run step s later = some (s', log')) :
    (s.router.defaultModelId = "" ↔ s.router.models = []) ∧
      (s.router.models ≠ [] → (s.router.find s.router.defaultModelId).isSome = true) ∧
      (∀ preferred, s.router.ensureUniqueId preferred ∉ s.router.ids ++ s.router.retiredIds) ∧
      KeepsIds s.router s'.router ∧ ∀ id ∈ s'.router.retiredIds, id ∉ s'.router.ids := by
  have hempty : Registered {} := ⟨by simp, by simp [ids], .inl ⟨rfl, rfl⟩⟩
  obtain ⟨hregistered, -⟩ := run_keepsIds hempty hrun
  obtain ⟨hregistered', hkeeps⟩ := run_keepsIds hregistered hlater
  refine ⟨⟨fun hdefault => ?_, fun hmodels => ?_⟩, fun hmodels => ?_, fun preferred => ?_, hkeeps,
    hregistered'.retired⟩
  · exact (hregistered.defaultId.resolve_right (hdefault ▸ hregistered.named)).2
  · exact (hregistered.defaultId.resolve_right (by simp [ids, hmodels])).1
  · exact isSome_find_iff.mpr (hregistered.defaultId.resolve_left fun h => hmodels h.2)
  · simpa using s.router.ensureUniqueId_not_mem preferred

/-- The second of two models is unloaded, and a load of a file with its name gets another id. -/
theorem ids_never_reused_after_unload :
    ∃ s s' log log', LoggedRun.run step {} requestForSecond = some (s, log) ∧
      LoggedRun.run step s [.unloadModel "b" fun _ => false, .beginLoad { path := "b.gguf" }
        fun _ => false, .finishLoad 0 (some ({ id := "" }, 2))] = some (s', log') ∧
      s'.router.ids = ["b-1", "a"] ∧ KeepsIds s.router s'.router := by
  have hids : ((LoggedRun.run step {} requestForSecond).bind fun r => (LoggedRun.run step r.1
        [.unloadModel "b" fun _ => false, .beginLoad { path := "b.gguf" } fun _ => false,
          .finishLoad 0 (some ({ id := "" }, 2))]).map fun r => r.1.router.ids) =
      some ["b-1", "a"] := by decide
  obtain ⟨⟨s, log⟩, hrun, hids⟩ := Option.bind_eq_some_iff.mp hids
  obtain ⟨⟨s', log'⟩, hlater, hids⟩ := Option.map_eq_some_iff.mp hids
  obtain ⟨-, -, -, hkeeps, -⟩ := ids_never_reused hrun hlater
  exact ⟨s, s', log, log', hrun, hlater, hids, hkeeps⟩

end InferFlux.Router
