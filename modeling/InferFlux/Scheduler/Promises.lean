import InferFlux.Scheduler.RequestPlaces

/-!
# A promise is set at most once

As long as every request is in one place only, no thread can answer a request that has been
answered. The steps keep it so, except that of a decode worker that has rejected its whole batch:
it has answered the requests and keeps them.
-/

namespace InferFlux.Scheduler.Workers

open LoggedRun List

variable {c : PoolConfig} {w w' : Workers} {op : WorkerOp} {log calls : List Nat}

/-- A decode worker has rejected every request of its batch, and goes on to the next pass. -/
def RejectsAll (w : Workers) : WorkerOp → Prop
  | .decode k op => ∃ d ∈ w.decode[k]?, d.RejectsAll op
  | _ => False

theorem not_rejectsAll (h : ∀ k stepwise, op ≠ .decode k (.execute stepwise)) :
    ¬ w.RejectsAll op := by
  cases op with
  | decode k op =>
    rintro ⟨d, _, batch, stepwise, _, rfl⟩
    exact h k stepwise rfl
  | _ => exact id

/-- Every request is in one place. -/
structure Owned (w : Workers) (log : List Nat) : Prop extends w.Accounted log where
  nodup : w.places.Nodup

/-- A step that does not keep a rejected batch keeps each request in one place. -/
theorem Owned.step (hw : w.Owned log) (hpass : ¬ w.RejectsAll op)
    (h : w.step c op = some (w', calls)) : w'.Owned (log ++ calls) := by
  refine ⟨hw.toAccounted.step h, ?_⟩
  obtain ⟨-, h⟩ := step_move h
  have hplaces : w.shared.places.Nodup :=
    (nodup_append.mp (nodup_append.mp hw.nodup).1).1
  have hqueued : w.shared.queued.Nodup :=
    (nodup_append.mp (nodup_append.mp hplaces).1).1
  cases h with
  | generated hstop =>
    refine (places_generate w).nodup_iff.mpr (nodup_cons.mpr ⟨fun hmem => ?_, hw.nodup⟩)
    exact Nat.lt_irrefl _ ((hw.mem_places _).mp hmem)
  | stopped => exact hw.nodup
  | main hstep =>
    exact (((mainStep_move hstep).places hqueued).append_right _).nodup_iff.mpr hw.nodup
  | @decode k op s d d' calls before after hk hbefore hworkers hstep =>
    have hperm := (decodeStep_move hstep).places (fun hall => hpass ⟨d, hk, hall⟩) hplaces hw.invalid
    refine (perm_iff_count.mpr fun a => ?_ : List.Perm _ w.places).nodup_iff.mpr hw.nodup
    have hcount := hperm.count_eq a
    simp only [places, hworkers, flatMap_append, flatMap_cons, count_append] at hcount ⊢
    omega

theorem Owned.start (c : PoolConfig) : (start c).Owned [] :=
  ⟨Accounted.start c, by simp [places_start]⟩

/-- No promise has been set twice, and no decode worker goes on with a request that has been
answered. -/
structure SetOnce (w : Workers) (log : List Nat) : Prop where
  nodup : log.Nodup
  waiting : ∀ batch, DecodeWorker.waiting batch ∈ w.decode → ∀ r ∈ batch, r ∉ log

theorem Owned.setOnce (hw : w.Owned log) : w.SetOnce log := by
  have hanswered : (w.shared.answered ++ w.decode.flatMap DecodeWorker.held).Sublist w.places := by
    refine List.Sublist.append (List.Sublist.trans ?_ (sublist_append_left ..)) (.refl _)
    exact (sublist_append_right ..).trans (sublist_append_left ..)
  have hnodup := nodup_append.mp (hw.nodup.sublist hanswered)
  rw [hw.answered] at hnodup
  refine ⟨hnodup.1, fun batch hbatch r hr hlog => ?_⟩
  exact hnodup.2.2 r hlog r (mem_flatMap.mpr ⟨_, hbatch, hr⟩) rfl

/-- A worker that has rejected its whole batch goes on with answered requests. -/
theorem Owned.not_setOnce (hw : w.Owned log) (hpass : w.RejectsAll op)
    (h : w.step c op = some (w', calls)) : ¬ w'.SetOnce (log ++ calls) := by
  intro honce
  obtain ⟨-, h⟩ := step_move h
  cases h with
  | generated => exact hpass
  | stopped => exact hpass
  | main => exact hpass
  | @decode k op s d d' calls before after hk hbefore hworkers hstep =>
    obtain ⟨_, hd, batch, stepwise, rfl, rfl⟩ := hpass
    obtain rfl := Option.some.inj (hk.symm.trans hd)
    cases hstep
    obtain ⟨hne, hanswered⟩ := hw.checked _ (mem_of_getElem? hk)
    obtain ⟨r, hr⟩ := exists_mem_of_ne_nil batch hne
    have hlog : r ∈ log := by simpa [hw.answered] using hanswered r hr
    exact honce.waiting batch (by simp) r hr (mem_append_left _ hlog)

/-- In every run the promises are set at most once, and no answered request is processed again,
if and only if no decode worker ever rejects a whole batch. -/
theorem promises_setOnce_iff (c : PoolConfig) (ops : List WorkerOp) {w : Workers} {log : List Nat}
    (hrun : run (step c) (start c) ops = some (w, log)) :
    Always (step c) SetOnce (start c) ops ↔
      Along (step c) (fun w op => ¬ w.RejectsAll op) (start c) ops :=
  always_iff_along (Owned.start c) (fun _ _ => Owned.setOnce)
    (fun _ _ _ _ _ hw hpass h => hw.step hpass h)
    (fun _ _ _ _ _ hw hpass h => hw.not_setOnce (not_not.mp hpass) h) hrun

/-- A decode worker takes a request that is bound to a backend and answers it. -/
theorem promises_setOnce_direct :
    Always (step { decodePoolSize := 1 }) SetOnce (start { decodePoolSize := 1 })
      [.generate, .main (.build [⟨0, true⟩]), .main (.applyFairness none),
        .main (.stage .handedOver), .main .handOver, .decode 0 (.pick (fun _ => false) false),
        .decode 0 .direct, .decode 0 (.publish .finished), .decode 0 .requeue] := by
  have hreturns : (run (step { decodePoolSize := 1 }) (start { decodePoolSize := 1 })
      [.generate, .main (.build [⟨0, true⟩]), .main (.applyFairness none),
        .main (.stage .handedOver), .main .handOver, .decode 0 (.pick (fun _ => false) false),
        .decode 0 .direct, .decode 0 (.publish .finished), .decode 0 .requeue]).isSome := by decide
  obtain ⟨⟨w, log⟩, hrun⟩ := Option.isSome_iff_exists.mp hreturns
  refine (promises_setOnce_iff _ _ hrun).mpr (along_of_forall fun op hop w => ?_)
  refine not_rejectsAll fun k stepwise => ?_
  rintro rfl
  simp at hop

/-- One decode worker takes a request that is rejected in its first pass; it keeps the request
in its batch, rejects it again and so sets the promise twice. -/
theorem rejected_batch_answered_twice :
    (run (step { decodePoolSize := 1 }) (start { decodePoolSize := 1 })
      [.generate, .main (.build [⟨0, true⟩]), .main (.applyFairness none),
        .main (.stage .handedOver), .main .handOver, .decode 0 (.pick (fun _ => false) false),
        .decode 0 .resolve, .decode 0 (.check false), .decode 0 (.execute false),
        .decode 0 (.pick (fun _ => false) false), .decode 0 .resolve, .decode 0 (.check false)]).map
      (fun r => (r.1.decode, r.2)) = some ([.leaving], [0, 0]) := by decide

end InferFlux.Scheduler.Workers
