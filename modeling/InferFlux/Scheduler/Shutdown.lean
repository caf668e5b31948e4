import InferFlux.Scheduler.RequestPlaces

/-!
# Shutdown in split mode

A decode worker leaves its loop when the scheduler stops and it finds no request to decode, and
then fails what is queued. It does not look at what `WorkerLoop` holds: a batch that is handed
over after the last worker has left stays in the decode queue, and `WorkerLoop`, which ends only
when both queues are empty, waits for it for ever.
-/

namespace InferFlux.Scheduler

open LoggedRun List Shared

variable {c : PoolConfig} {s s' : Shared} {calls : List Nat} {t t' : MainWorker}

/-- `WorkerLoop` holds requests only if it did before, or if it has built a batch. -/
theorem MainMove.held_eq_nil {op : MainOp} (h : MainMove c s t op s' t' calls)
    (hheld : t.held = []) (hbuild : ∀ selection, op = .build selection → selection = []) :
    t'.held = [] := by
  cases h with
  | passed _ _ _ hkeep _ => exact hkeep hheld
  | built _ hop _ hheld' _ =>
    rw [hheld', hbuild _ hop]
    rfl
  | answered _ _ _ _ hperm _ =>
    rw [hheld] at hperm
    exact absurd hperm.symm.eq_nil (cons_ne_nil _ _)
  | ended => rfl
  | answeredTwice => rfl
  | died => rfl

/-- Without requests in its hands `WorkerLoop` adds none to the queues. -/
theorem MainMove.queued_subset {op : MainOp} (h : MainMove c s t op s' t' calls)
    (hheld : t.held = []) : s'.queued ⊆ s.queued := by
  intro r hr
  cases h with
  | passed _ _ _ _ h =>
    have := h.perm.mem_iff.mp (mem_append_left _ hr)
    simpa [hheld] using this
  | built _ _ hselectable _ _ => exact (mem_remove hselectable).mp (mem_append_left _ hr)
  | answered | ended | answeredTwice | died => exact hr

namespace Workers

variable {w w' : Workers} {op : WorkerOp} {log : List Nat}

def AllLeft (w : Workers) : Prop := ∀ d ∈ w.decode, d.inLoop = false

/-- Nothing is stranded when every decode worker has left its loop. -/
structure NoneStranded (c : PoolConfig) (w : Workers) : Prop where
  /-- `WorkerLoop` holds no request that it could still hand over. -/
  held : w.main.held = []
  /-- The queues are empty, or a worker is about to fail what is queued. -/
  drained : w.shared.queued = [] ∨ .leaving ∈ w.decode
  /-- Then every accepted request has its answer, or its thread has died. -/
  resolved : .leaving ∉ w.decode → ∀ r < w.shared.nextSequence,
    r ∈ w.shared.answered ∨ w.shared.died ∧ r ∈ w.shared.abandoned
  /-- `WorkerLoop` can end. -/
  exits : .leaving ∉ w.decode → w.shared.stop → w.main = .waiting →
    mainStep c w.shared w.main (.build []) = some (w.shared, .ended, [])

/-- The step leaves requests to decode workers that are not there: the last worker leaves its
loop while `WorkerLoop` holds requests, `WorkerLoop` builds a batch when all have left, or a
request comes when all have ended. -/
def Strands (w : Workers) : WorkerOp → Prop
  | .decode k op =>
    ∃ d ∈ w.decode[k]?, d.inLoop ∧ d.Leaves w.shared op ∧
      (∀ other ∈ w.decode.eraseIdx k, other.inLoop = false) ∧ w.main.held ≠ []
  | .main (.build selection) => w.AllLeft ∧ selection ≠ []
  | .generate => ∀ d ∈ w.decode, d = .ended
  | _ => False

/-- What a run without such steps keeps. -/
structure Drained (w : Workers) (log : List Nat) : Prop extends w.Accounted log where
  held : w.AllLeft → w.main.held = []
  ended : (∀ d ∈ w.decode, d = .ended) → w.shared.queued = []

variable {d : DecodeWorker} {before : List DecodeWorker} {k : Nat} {after : List DecodeWorker}

theorem eraseIdx_workers (h : w.decode = before ++ d :: after) (hk : before.length = k) :
    w.decode.eraseIdx k = before ++ after := by
  rw [h, eraseIdx_append_of_length_le (Nat.le_of_eq hk), ← hk, Nat.sub_self]
  rfl

/-- The worker that leaves is the last one exactly if all have left then. -/
theorem allLeft_leaving (h : w.decode = before ++ d :: after) (hk : before.length = k)
    (t : MainWorker) (s : Shared) :
    AllLeft ⟨s, t, before ++ .leaving :: after⟩ ↔
      ∀ other ∈ w.decode.eraseIdx k, other.inLoop = false := by
  rw [eraseIdx_workers h hk]
  simp only [AllLeft, mem_append, mem_cons]
  grind [DecodeWorker.inLoop]

theorem Drained.step (hw : w.Drained log) (hpass : ¬ w.Strands op)
    (h : w.step c op = some (w', calls)) : w'.Drained (log ++ calls) := by
  have haccounted := hw.toAccounted.step h
  obtain ⟨-, h⟩ := step_move h
  cases h with
  | generated _ => exact ⟨haccounted, hw.held, fun hended => absurd hended hpass⟩
  | stopped => exact ⟨haccounted, hw.held, hw.ended⟩
  | @main op s t calls hstep =>
    have hmove := mainStep_move hstep
    refine ⟨haccounted, fun hleft => ?_, fun hended => ?_⟩
    · refine hmove.held_eq_nil (hw.held hleft) ?_
      rintro selection rfl
      by_contra hne
      exact hpass ⟨hleft, hne⟩
    · have hheld := hw.held fun d hd => by rw [hended d hd]; rfl
      have hsub := hmove.queued_subset hheld
      rw [hw.ended hended] at hsub
      exact subset_nil.mp hsub
  | @decode k op s d d' calls before after hk hbefore hworkers hstep =>
    have hd' : d' ∈ before ++ d' :: after := by simp
    obtain ⟨-, -, hloop'⟩ | ⟨hleaves, hloop, rfl, -⟩ | ⟨rfl, hd'eq⟩ := (decodeStep_move hstep).loop
    · refine ⟨haccounted, fun hleft => ?_, fun hended => ?_⟩
      · cases hloop'.symm.trans (hleft d' hd')
      · rw [hended d' hd'] at hloop'
        cases hloop'
    · refine ⟨haccounted, fun hleft => ?_, fun hended => ?_⟩
      · have hlast := (allLeft_leaving hworkers hbefore _ _).mp hleft
        by_contra hheld
        exact hpass ⟨d, hk, hloop, hleaves, hlast, hheld⟩
      · cases hended _ hd'
    · refine ⟨haccounted, fun hleft => hw.held fun other hother => ?_, fun hended => ?_⟩
      · -- the other workers are those of before
        have := hleft other
        grind [DecodeWorker.inLoop]
      · obtain rfl | ⟨-, hqueued⟩ := hd'eq
        · cases hended _ hd'
        · exact hqueued

theorem Drained.start (c : PoolConfig) (hsplit : c.useDecodeWorkers) : (start c).Drained [] := by
  have hmem : DecodeWorker.waiting [] ∈ (Workers.start c).decode := by
    refine mem_replicate.mpr ⟨?_, rfl⟩
    simpa [PoolConfig.useDecodeWorkers, Nat.pos_iff_ne_zero] using hsplit
  refine ⟨Accounted.start c, fun _ => rfl, fun hended => ?_⟩
  cases hended _ hmem

theorem Drained.noneStranded (hw : w.Drained log) (hleft : w.AllLeft) : w.NoneStranded c := by
  have hended (h : .leaving ∉ w.decode) : w.shared.queued = [] := by
    refine hw.ended fun d hd => ?_
    have := hleft d hd
    cases d with
    | leaving => exact absurd hd h
    | ended => rfl
    | _ => cases this
  refine ⟨hw.held hleft, ?_, fun h r hr => ?_, fun h hstop hwaiting => ?_⟩
  · by_cases h : .leaving ∈ w.decode
    · exact .inr h
    · exact .inl (hended h)
  · have hmem := (hw.mem_places r).mpr hr
    have hdecode : w.decode.flatMap DecodeWorker.held = [] := by
      refine flatMap_eq_nil_iff.mpr fun d hd => ?_
      have := hleft d hd
      cases d with
      | leaving => rfl
      | ended => rfl
      | _ => cases this
    rw [places, hw.held hleft, hdecode, Shared.places, hended h] at hmem
    simp only [nil_append, append_nil, mem_append] at hmem
    refine hmem.imp_right fun habandoned => ⟨hw.abandoned ?_, habandoned⟩
    exact ne_nil_of_mem habandoned
  · obtain ⟨hprefill, hdecode⟩ := append_eq_nil_iff.mp (hended h)
    simp [hwaiting, mainStep, hasWork, hstop, hprefill, hdecode]

theorem mainStep_build {selection : List Selected} (hne : selection ≠ [])
    (h : mainStep c s t (.build selection) = some (s', t', calls)) : t' = .selected selection := by
  have hempty : selection.isEmpty = false := isEmpty_eq_false_iff.mpr hne
  cases t with
  | waiting =>
    simp only [mainStep, hempty, Bool.false_eq_true, if_false] at h
    split_ifs at h
    cases h
    rfl
  | staging todo worker ready kept
  | checking todo exec
  | publishing todo requeue => cases todo <;> cases h
  | _ => cases h

theorem Strands.stranded (hpass : w.Strands op) (h : w.step c op = some (w', calls)) :
    w'.AllLeft ∧ ¬ w'.NoneStranded c := by
  obtain ⟨-, h⟩ := step_move h
  cases h with
  | generated _ =>
    have hended : ∀ d ∈ w.decode, d = .ended := hpass
    refine ⟨fun d hd => by rw [hended d hd]; rfl, fun hnone => ?_⟩
    obtain hqueued | hleaving := hnone.drained
    · simp [queued, pushPrefill] at hqueued
    · cases hended _ hleaving
  | stopped => cases hpass
  | @main op s t calls hstep =>
    cases op with
    | build selection =>
      obtain ⟨hleft, hne⟩ := hpass
      refine ⟨hleft, fun hnone => hne ?_⟩
      have hheld := hnone.held
      rw [mainStep_build hne hstep] at hheld
      exact map_eq_nil_iff.mp hheld
    | _ => cases hpass
  | @decode k op s d d' calls before after hk hbefore hworkers hstep =>
    obtain ⟨d₁, hd₁, hloop, hleaves, hlast, hheld⟩ := hpass
    obtain rfl := Option.some.inj (hk.symm.trans hd₁)
    obtain ⟨hstays, -, -⟩ | ⟨-, -, rfl, -⟩ | ⟨rfl, -⟩ := (decodeStep_move hstep).loop
    · exact absurd hleaves hstays
    · exact ⟨(allLeft_leaving hworkers hbefore _ _).mpr hlast, fun hnone => hheld hnone.held⟩
    · cases hloop

/-- In every run of split mode nothing is stranded once all decode workers have left, if and
only if no step leaves requests to workers that are not there. -/
theorem shutdown_noneStranded_iff (c : PoolConfig) (hsplit : c.useDecodeWorkers)
    (ops : List WorkerOp) {w : Workers} {log : List Nat}
    (hrun : run (step c) (start c) ops = some (w, log)) :
    Always (step c) (fun w _ => w.AllLeft → w.NoneStranded c) (start c) ops ↔
      Along (step c) (fun w op => ¬ w.Strands op) (start c) ops := by
  refine always_iff_along (Drained.start c hsplit) (fun _ _ hw hleft => hw.noneStranded hleft)
    (fun _ _ _ _ _ hw hpass h => hw.step hpass h) (fun _ _ _ _ _ _ hpass h hnone => ?_) hrun
  obtain ⟨hleft, hstranded⟩ := (not_not.mp hpass).stranded h
  exact hstranded (hnone hleft)

/-- The batch is done before the decode worker leaves, and `WorkerLoop` ends after it. -/
theorem shutdown_after_rejection :
    Always (step { decodePoolSize := 1 })
      (fun w _ => w.AllLeft → w.NoneStranded { decodePoolSize := 1 }) (start { decodePoolSize := 1 })
      [.generate, .main (.build [⟨0, true⟩]), .main (.applyFairness none),
        .main (.stage .rejected), .main .handOver, .stop, .decode 0 (.pick (fun _ => false) false),
        .decode 0 .failAll, .main (.build [])] := by
  have hbatch : run (step { decodePoolSize := 1 }) (start { decodePoolSize := 1 })
      [.generate, .main (.build [⟨0, true⟩]), .main (.applyFairness none),
        .main (.stage .rejected), .main .handOver, .stop] =
      some (⟨{ stop := true, nextSequence := 1, answered := [0] }, .waiting, [.waiting []]⟩, [0]) :=
    rfl
  have hexit : run (step { decodePoolSize := 1 })
      ⟨{ stop := true, nextSequence := 1, answered := [0] }, .waiting, [.waiting []]⟩
      [.decode 0 (.pick (fun _ => false) false), .decode 0 .failAll, .main (.build [])] =
      some (⟨{ stop := true, nextSequence := 1, answered := [0] }, .ended, [.ended]⟩, []) := rfl
  have hrun := run_append_eq_some.mpr ⟨_, _, _, hbatch, hexit, rfl⟩
  refine (shutdown_noneStranded_iff _ rfl _ hrun).mpr (along_append.mpr ⟨?_, fun w log hw => ?_⟩)
  · refine .cons (fun hended => ?_) rfl ⟨fun hbuild => ?_, fun _ _ _ => ⟨id, fun _ _ _ => ⟨id,
      fun _ _ _ => ⟨id, fun _ _ _ => ⟨id, fun _ _ _ => trivial⟩⟩⟩⟩⟩
    · cases hended _ (mem_singleton_self _)
    · cases hbuild.1 _ (mem_singleton_self _)
  · obtain ⟨rfl, rfl⟩ := Prod.mk.inj (Option.some.inj (hbatch.symm.trans hw))
    refine .cons ?_ rfl ⟨?_, fun _ _ _ => ⟨fun hbuild => hbuild.2 rfl, fun _ _ _ => trivial⟩⟩
    · exact fun ⟨_, _, _, _, _, hheld⟩ => hheld rfl
    · exact fun ⟨_, _, _, _, _, hheld⟩ => hheld rfl

/-- `WorkerLoop` waits for the decode queue to become empty, and all decode workers have ended. -/
structure Stuck (w : Workers) : Prop where
  stop : w.shared.stop
  prefill : w.shared.pendingPrefill = []
  decode : w.shared.pendingDecode ≠ []
  ended : ∀ d ∈ w.decode, d = .ended
  main : w.main = .waiting ∨ w.main = .died

theorem Stuck.step (hsplit : c.useDecodeWorkers) (hw : w.Stuck)
    (h : w.step c op = some (w', calls)) : w'.Stuck ∧ calls = [] := by
  obtain ⟨-, h⟩ := step_move h
  cases h with
  | generated hstop => cases hw.stop.symm.trans hstop
  | stopped => exact ⟨⟨rfl, hw.prefill, hw.decode, hw.ended, hw.main⟩, rfl⟩
  | @main op s t calls hstep =>
    obtain hmain | hmain := hw.main
    · rw [hmain] at hstep
      cases op with
      | build selection =>
        have hqueue : w.shared.pendingDecode.isEmpty = false :=
          isEmpty_eq_false_iff.mpr hw.decode
        simp only [mainStep, hasWork, hw.stop, hqueue, Bool.true_or, Bool.not_true,
          Bool.and_false, Bool.false_eq_true, if_false] at hstep
        obtain ⟨hselectable, heq⟩ := Option.ite_none_right_eq_some.mp hstep
        -- in split mode a batch comes from the prefill queue
        have hempty : selection = [] := by
          refine eq_nil_iff_forall_not_mem.mpr fun item hitem => ?_
          have := mem_of_selectable hselectable (mem_map_of_mem hitem)
          simp [hsplit, hw.prefill] at this
        subst hempty
        cases heq
        refine ⟨⟨hw.stop, ?_, ?_, hw.ended, .inl rfl⟩, rfl⟩
        · simp [remove, hw.prefill]
        · simpa [remove, hsplit] using hw.decode
      | throw =>
        cases hstep
        exact ⟨⟨hw.stop, hw.prefill, hw.decode, hw.ended, .inr rfl⟩, rfl⟩
      | _ => cases hstep
    · rw [hmain] at hstep
      cases op <;> cases hstep
  | @decode k op s d d' calls before after hk hbefore hworkers hstep =>
    rw [hw.ended d (mem_of_getElem? hk)] at hstep
    cases op <;> cases hstep

/-- Then no promise is set any more, and `WorkerLoop` does not end. -/
theorem Stuck.run (hsplit : c.useDecodeWorkers) (hw : w.Stuck) {ops : List WorkerOp}
    (hrun : LoggedRun.run (Workers.step c) w ops = some (w', log)) : w'.Stuck ∧ log = [] := by
  refine run_induction (P := fun _ w log => w.Stuck ∧ log = []) ⟨hw, rfl⟩ ?_ hrun
  rintro _ t _ op t' calls _ ⟨ht, rfl⟩ hstep
  exact ht.step hsplit hstep

/-- The scheduler stops while `WorkerLoop` holds a batch: the decode worker leaves, the batch is
handed over to nobody, and whatever happens then the request gets no answer and `WorkerLoop`,
for which the destructor waits, does not end. -/
theorem handedOver_after_lastWorker :
    ∃ w, run (step { decodePoolSize := 1 }) (start { decodePoolSize := 1 })
      [.generate, .main (.build [⟨0, true⟩]), .main (.applyFairness none), .stop,
        .decode 0 (.pick (fun _ => false) false), .decode 0 .failAll,
        .main (.stage .handedOver), .main .handOver] = some (w, []) ∧
      w.AllLeft ∧ w.main = .waiting ∧ w.shared.pendingDecode = [0] ∧
      ∀ ops w' log, run (step { decodePoolSize := 1 }) w ops = some (w', log) →
        w'.main ≠ .ended ∧ log = [] := by
  have hended (d : DecodeWorker) (hd : d ∈ [.ended]) : d = .ended := mem_singleton.mp hd
  refine ⟨⟨{ stop := true, nextSequence := 1, pendingDecode := [0] }, .waiting, [.ended]⟩, rfl,
    fun d hd => by rw [hended d hd]; rfl, rfl, rfl, fun ops w' log hrun => ?_⟩
  obtain ⟨hstuck, hlog⟩ := Stuck.run rfl ⟨rfl, rfl, cons_ne_nil _ _, hended, .inl rfl⟩ hrun
  refine ⟨fun hmain => ?_, hlog⟩
  obtain h | h := hstuck.main <;> cases h.symm.trans hmain

end Workers

end InferFlux.Scheduler
